import Hkv.CombiningLeader
import Mathlib.Data.List.Perm.Subperm
import Mathlib.Data.Finset.Insert

/-!
# Runs of the combining queue

The leader counts what it collects, so that its batch fits the ring. Each call is before
its swap, in the queue, in the vector of the leader or in a batch, and in only one of
these.
-/
namespace Hkv.AioQueue.Combiner
open MtsConfig StepRun IoRing

variable {T A : Type} {s s' : Combiner T A} {t t' l : T} {a : A} {p n : Node T} {q : List (T × A)}

/-- What the leader `t` has in the vector, and how far it is with the ring. -/
def Counted (s : Combiner T A) (t : T) : Prop :=
  match s.pc t with
  | .idle | .swapping _ | .publishing _ _ | .linking _ | .spinning => True
  | .combining _ counter | .completing _ _ counter | .releasing _ _ counter | .checking _ counter =>
    s.srcAtEntryVec.length = counter ∧ counter ≤ rQd ∧ s.ring.phase .lookup = .idle
  | .helping _ _ counter =>
    s.srcAtEntryVec.length + 1 = counter ∧ counter ≤ rQd ∧ s.ring.phase .lookup = .idle
  | .reading _ => s.srcAtEntryVec.length ≤ rQd ∧ s.ring.phase .lookup = .checked
  | .submitting _ => s.srcAtEntryVec = [] ∧ ∃ pending, s.ring.phase .lookup = .prepared pending
  | .setting _ => s.srcAtEntryVec = [] ∧ ∃ pending, s.ring.phase .lookup = .submitted pending
  | .woken | .unlocking _ => s.srcAtEntryVec = [] ∧ s.ring.phase .lookup = .idle

structure Collected (s : Combiner T A) : Prop where
  counted : ∀ t, s.Leads t → s.Counted t
  rest : (∀ t, ¬ s.Leads t) → s.srcAtEntryVec = [] ∧ s.ring.phase .lookup = .idle
  ring : s.ring.Inv
  scan : s.ring.phase .scan = .idle

structure Books (s : Combiner T A) : Prop where
  calls : s.calls.Perm (s.batches.flatten ++ s.srcAtEntryVec ++ s.queue.map Prod.snd ++ s.starting.map Prod.snd)
  starting : ∀ t a, (t, a) ∈ s.starting ↔ s.pc t = .swapping a
  nodup : s.starting.Nodup
  batches : ∀ b ∈ s.batches, b.length ≤ rQd
  busy : ∃ F : Finset T, ∀ t, t ∉ F → s.pc t = .idle

/-- What holds between two steps. -/
structure Inv (s : Combiner T A) : Prop where
  shape : s.Shape
  token : s.Token
  collected : s.Collected
  books : s.Books

theorem counted_congr (hpc : s'.pc t = s.pc t) (hvec : s'.srcAtEntryVec = s.srcAtEntryVec)
    (hring : s'.ring.phase .lookup = s.ring.phase .lookup) : s'.Counted t ↔ s.Counted t := by
  unfold Counted
  rw [hpc, hvec, hring]

theorem Collected.follow (h : s.Collected) (hvec : s'.srcAtEntryVec = s.srcAtEntryVec) (hring : s'.ring = s.ring)
    (hpc : ∀ t', t' ≠ t → s'.pc t' = s.pc t')
    (hnode : ∀ t', t' ≠ t → (s'.node (s'.next t')).completed = (s.node (s.next t')).completed)
    (hbefore : ¬ s.Leads t) (hafter : ¬ s'.Leads t) : s'.Collected := by
  have hleads : ∀ t', s'.Leads t' ↔ s.Leads t' := fun t' => by
    obtain rfl | hne := eq_or_ne t' t
    · exact iff_of_false hafter hbefore
    · exact leads_congr (hpc t' hne) fun _ => hnode t' hne
  refine ⟨fun l hl => ?_, fun hnone => ?_, hring ▸ h.ring, hring ▸ h.scan⟩
  · have hne : l ≠ t := fun heq => hafter (heq ▸ hl)
    exact (counted_congr (hpc l hne) hvec (by rw [hring])).mpr (h.counted l ((hleads l).mp hl))
  · rw [hvec, hring]
    exact h.rest fun t' ht' => hnone t' ((hleads t').mpr ht')

theorem Collected.of_leads (htoken : s'.Token) (hl : s'.Leads l) (hcounted : s'.Counted l) (hring : s'.ring.Inv)
    (hscan : s'.ring.phase .scan = .idle) : s'.Collected := by
  refine ⟨fun t ht => ?_, fun hnone => absurd hl (hnone l), hring, hscan⟩
  obtain rfl := htoken.one t l ht hl
  exact hcounted

theorem Books.of_pc (h : s.Books)
    (hcalls :
      s'.calls.Perm (s'.batches.flatten ++ s'.srcAtEntryVec ++ s'.queue.map Prod.snd ++ s'.starting.map Prod.snd))
    (hbatches : ∀ b ∈ s'.batches, b.length ≤ rQd) (hstarting : s'.starting = s.starting)
    (hpc : ∀ t', t' ≠ t → s'.pc t' = s.pc t') (hbefore : ∀ a, s.pc t ≠ .swapping a)
    (hafter : ∀ a, s'.pc t ≠ .swapping a) : s'.Books := by
  classical
  obtain ⟨F, hF⟩ := h.busy
  refine ⟨hcalls, fun t' a => ?_, hstarting ▸ h.nodup, hbatches, insert t F, fun t' ht' => ?_⟩
  · rw [hstarting, h.starting]
    obtain rfl | hne := eq_or_ne t' t
    · exact iff_of_false (hbefore a) (hafter a)
    · rw [hpc t' hne]
  · obtain ⟨hne, hnot⟩ := not_or.mp (Finset.mem_insert.not.mp ht')
    rw [hpc t' hne]
    exact hF t' hnot

theorem Books.congr (h : s.Books) (hcalls : s'.calls = s.calls) (hstarting : s'.starting = s.starting)
    (hqueue : s'.queue = s.queue) (hvec : s'.srcAtEntryVec = s.srcAtEntryVec) (hbatches : s'.batches = s.batches)
    (hpc : ∀ t', t' ≠ t → s'.pc t' = s.pc t') (hbefore : ∀ a, s.pc t ≠ .swapping a)
    (hafter : ∀ a, s'.pc t ≠ .swapping a) : s'.Books := by
  refine h.of_pc ?_ (hbatches ▸ h.batches) hstarting hpc hbefore hafter
  rw [hcalls, hbatches, hvec, hqueue, hstarting]
  exact h.calls

variable [DecidableEq T]

theorem Inv.initNode (h : s.Inv) (hpc : s.pc t = .idle) (a : A) : (s.initNode t a).Inv := by
  have hpc' : (s.initNode t a).pc t = .swapping a := setPc_pc_self ..
  have hothers : ∀ t', t' ≠ t → (s.initNode t a).pc t' = s.pc t' := fun t' hne => setPc_pc_of_ne _ _ hne
  refine ⟨h.shape.initNode hpc a, h.token.initNode h.shape hpc a, ?_, ?_⟩
  · refine h.collected.follow (t := t) rfl rfl hothers (fun t' hne => ?_) ?_ ?_
    · exact congrArg AioNode.completed (initNode_node_of_ne s a fun heq => hne (h.shape.inj heq))
    · simp [Leads, hpc]
    · simp [Leads, hpc']
  · obtain ⟨F, hF⟩ := h.books.busy
    refine ⟨?_, fun t' a' => ?_, ?_, h.books.batches, insert t F, fun t' ht' => ?_⟩
    · have hperm := (h.books.calls.append_right [a]).trans
        (List.perm_append_singleton a _ |>.trans List.perm_middle.symm)
      exact hperm
    · rw [show (s.initNode t a).starting = (t, a) :: s.starting from rfl, List.mem_cons, Prod.mk.injEq,
        h.books.starting]
      obtain rfl | hne := eq_or_ne t' t
      · simp [hpc, hpc', eq_comm]
      · simp [hne, hothers t' hne]
    · refine List.nodup_cons.mpr ⟨fun hmem => ?_, h.books.nodup⟩
      have hs := (h.books.starting t a).mp hmem
      simp [hpc] at hs
    · obtain ⟨hne, hnot⟩ := not_or.mp (Finset.mem_insert.not.mp ht')
      rw [hothers t' hne]
      exact hF t' hnot

theorem Inv.swapTail [DecidableEq A] (h : s.Inv) (hpc : s.pc t = .swapping a) : (s.swapTail t a).Inv := by
  have hothers : ∀ t', t' ≠ t → (s.swapTail t a).pc t' = s.pc t' := fun t' hne => swapTail_pc_of_ne s a hne
  refine ⟨h.shape.swapTail hpc, h.token.swapTail h.shape hpc, ?_, ?_⟩
  · refine h.collected.follow (t := t) rfl rfl hothers (fun t' hne => ?_) ?_ ?_
    · rw [swapTail_next_of_ne s a hne]
      rfl
    · simp [Leads, hpc]
    · simp [Leads]
  · obtain ⟨F, hF⟩ := h.books.busy
    refine ⟨?_, fun t' a' => ?_, h.books.nodup.erase _, h.books.batches, insert t F, fun t' ht' => ?_⟩
    · have herase := (List.perm_cons_erase ((h.books.starting t a).mpr hpc)).map Prod.snd
      have hperm := h.books.calls.trans (herase.append_left _)
      rw [show (s.swapTail t a).queue = s.queue ++ [(t, a)] from rfl, List.map_append, ← List.append_assoc,
        List.append_assoc _ (List.map _ [_])]
      exact hperm
    · rw [show (s.swapTail t a).starting = s.starting.erase (t, a) from rfl, h.books.nodup.mem_erase_iff,
        h.books.starting]
      obtain rfl | hne := eq_or_ne t' t
      · simp [hpc, eq_comm]
      · simp [hne, hothers t' hne]
    · obtain ⟨hne, hnot⟩ := not_or.mp (Finset.mem_insert.not.mp ht')
      rw [hothers t' hne]
      exact hF t' hnot

theorem Inv.store (h : s.Inv) {f : AioNode T A → AioNode T A} {pc : Pc T A}
    (hshape : ((s.setNode (s.next t) f).setPc t pc).Shape)
    (hf : ∀ x, (f x).locked = x.locked ∧ (f x).completed = x.completed)
    (hbefore : (s.pc t).nextNode ≠ none) (hafter : pc = .linking n ∨ pc = .spinning) :
    ((s.setNode (s.next t) f).setPc t pc).Inv := by
  refine ⟨hshape, h.token.store hf (h.shape.entering t hbefore).1 hbefore hafter, ?_, ?_⟩
  · refine h.collected.follow (t := t) rfl rfl (fun t' hne => setPc_pc_of_ne _ _ hne) (fun t' hne => ?_) ?_ ?_
    · have hne' : s.next t' ≠ s.next t := fun heq => hne (h.shape.inj heq)
      rw [setPc_node, setPc_next, show (s.setNode (s.next t) f).next = s.next from rfl, setNode_node_of_ne _ _ hne']
    · unfold Leads
      cases hpc : s.pc t <;> simp [hpc, Pc.nextNode] at hbefore ⊢
    · obtain rfl | rfl := hafter <;> simp [Leads]
  · refine h.books.congr (t := t) rfl rfl rfl rfl rfl (fun t' hne => setPc_pc_of_ne _ _ hne) ?_ ?_
    · intro a hpc
      simp [hpc, Pc.nextNode] at hbefore
    · obtain rfl | rfl := hafter <;> simp

theorem Inv.wake (h : s.Inv) (hpc : s.pc t = .spinning) (hunlocked : (s.node (s.next t)).locked = false) :
    (s.setPc t .woken).Inv := by
  have htoken := h.token.wake h.shape hpc hunlocked
  have hothers : ∀ t', t' ≠ t → (s.setPc t .woken).pc t' = s.pc t' := fun t' hne => setPc_pc_of_ne _ _ hne
  have hleads : ¬ s.Leads t := by simp [Leads, hpc]
  refine ⟨?_, htoken, ?_, ?_⟩
  · refine h.shape.quiet (t := t) rfl rfl rfl (fun _ => ⟨rfl, rfl⟩) hothers ?_ ?_ ?_
    · simp [hpc, Pc.nextNode, Pc.atEntry]
    · simp [Pc.nextNode, Pc.atEntry]
    · simp [Pc.Outside]
  · by_cases hafter : (s.setPc t .woken).Leads t
    · have hq : s.Queued t := by
        have hplaced := htoken.placed t hafter
        simp only [Placed, setPc_pc_self] at hplaced
        exact hplaced.1
      obtain ⟨-, hnone⟩ := h.token.front_of_unlocked h.shape hpc hunlocked hq
      refine .of_leads htoken hafter ?_ h.collected.ring h.collected.scan
      simp only [Counted, setPc_pc_self]
      exact h.collected.rest hnone
    · exact h.collected.follow (t := t) rfl rfl hothers (fun _ _ => rfl) hleads hafter
  · refine h.books.congr (t := t) rfl rfl rfl rfl rfl hothers ?_ ?_
    · simp [hpc]
    · simp

theorem Inv.return (h : s.Inv) (hpc : s.pc t = .woken) (hcompleted : (s.node (s.next t)).completed = true) :
    (s.setPc t .idle).Inv := by
  have hothers : ∀ t', t' ≠ t → (s.setPc t .idle).pc t' = s.pc t' := fun t' hne => setPc_pc_of_ne _ _ hne
  have hnot : ¬ s.Queued t := fun hq => by
    have hfalse := h.token.completed _ (mem_nodes.mpr (Or.inl ⟨t, hq, rfl⟩))
    simp [hcompleted] at hfalse
  refine ⟨?_, h.token.return hpc hcompleted, ?_, ?_⟩
  · refine h.shape.quiet (t := t) rfl rfl rfl (fun _ => ⟨rfl, rfl⟩) hothers ?_ ?_ ?_
    · simp [hpc, Pc.nextNode, Pc.atEntry]
    · simp [Pc.nextNode, Pc.atEntry]
    · exact fun _ => ⟨setPc_pc_self .., hnot⟩
  · refine h.collected.follow (t := t) rfl rfl hothers (fun _ _ => rfl) ?_ ?_
    · simp [Leads, hpc, hcompleted]
    · simp [Leads]
  · refine h.books.congr (t := t) rfl rfl rfl rfl rfl hothers ?_ ?_
    · simp [hpc]
    · simp

omit [DecidableEq T] in
theorem Leads.past (hl : s.Leads t) : ((s.pc t).nextNode = none ∧ (s.pc t).atEntry = none) ∧
    ¬ (s.pc t).Outside ∧ (∀ a, s.pc t ≠ .swapping a) := by
  unfold Leads at hl
  cases hpc : s.pc t <;> simp_all [Pc.nextNode, Pc.atEntry, Pc.Outside]

omit [DecidableEq T] in
theorem Inv.lead (h : s.Inv) (hl : s.Leads l) (hnext : s'.next = s.next) (htail : s'.tail = s.tail)
    (hqueue : s'.queue = s.queue) (hnode : s'.node = s.node) (hpc : ∀ t', t' ≠ l → s'.pc t' = s.pc t')
    (hafter : s'.Leads l) (hplaced : s'.Placed l)
    (hbusy : ∀ p n c, s.pc l ≠ .completing p n c ∧ s.pc l ≠ .releasing p n c) (hwoken : s'.pc l ≠ .woken)
    (hcounted : s'.Counted l) (hring : s'.ring.Inv) (hscan : s'.ring.phase .scan = .idle) (hbooks : s'.Books) :
    s'.Inv := by
  have htoken := h.token.lead hl hnext htail hqueue hnode hpc hafter hplaced hbusy hwoken
  refine ⟨?_, htoken, .of_leads htoken hafter hcounted hring hscan, hbooks⟩
  refine h.shape.quiet (t := l) hnext htail hqueue (fun _ => ⟨by rw [hnode], by rw [hnode]⟩) hpc hl.past.1
    hafter.past.1 ?_
  exact fun hout => absurd hout hafter.past.2.1

theorem Inv.setPc (h : s.Inv) (hl : s.Leads l) {pc : Pc T A} {r : Ring}
    (hbusy : ∀ p n c, s.pc l ≠ .completing p n c ∧ s.pc l ≠ .releasing p n c)
    (hafter : ((s.setPc l pc).setRing r).Leads l) (hplaced : ((s.setPc l pc).setRing r).Placed l)
    (hwoken : pc ≠ .woken) (hcounted : ((s.setPc l pc).setRing r).Counted l) (hring : r.Inv)
    (hscan : r.phase .scan = .idle) :
    ((s.setPc l pc).setRing r).Inv := by
  have hothers : ∀ t', t' ≠ l → ((s.setPc l pc).setRing r).pc t' = s.pc t' :=
    fun t' hne => setPc_pc_of_ne _ _ hne
  refine h.lead hl rfl rfl rfl rfl hothers hafter hplaced hbusy ?_ hcounted hring hscan ?_
  · rw [show ((s.setPc l pc).setRing r).pc l = pc from setPc_pc_self ..]
    exact hwoken
  · exact h.books.congr (t := l) rfl rfl rfl rfl rfl hothers hl.past.2.2 hafter.past.2.2

omit [DecidableEq T] in
theorem Shape.front_next (h : s.Shape) (hn : (s.node (s.front s.queue)).next = some n) :
    ∃ x q, s.queue = x :: q ∧ n = s.front q ∧ (s.pc x.1).nextNode = none := by
  cases hqueue : s.queue with
  | nil =>
    rw [hqueue, show s.front [] = s.tail from rfl, h.tail_next] at hn
    cases hn
  | cons x q =>
    rw [hqueue, show s.front (x :: q) = s.next x.1 from rfl] at hn
    have hpc : (s.pc x.1).nextNode = none := by
      by_contra hne
      rw [(h.entering x.1 hne).2] at hn
      cases hn
    have hlinks := h.links
    rw [hqueue] at hlinks
    have hsucc := hlinks.1
    rw [succ, hpc, Option.none_or, hn] at hsucc
    exact ⟨x, q, rfl, Option.some.inj hsucc, hpc⟩

omit [DecidableEq T] in
theorem Inv.next_ne_none (h : s.Inv) (hl : s.Leads l) (hq : s.Queued l) : (s.node (s.next l)).next ≠ none := by
  have hfront := h.token.front_of_queued hl hq
  have hlinks := h.shape.links
  cases hqueue : s.queue with
  | nil => simp [Queued, hqueue] at hq
  | cons x q =>
    rw [hqueue] at hfront hlinks
    obtain rfl : l = x.1 := h.shape.inj hfront
    have hsucc := hlinks.1
    rw [succ, hl.past.1.1, Option.none_or] at hsucc
    simp [hsucc]

omit [DecidableEq T] in
theorem Inv.spinning (h : s.Inv) (hq : s.Queued t) (hpc : (s.pc t).nextNode = none) (hl : ¬ s.Leads t)
    (hlocked : (s.node (s.next t)).locked = true) : s.pc t = .spinning := by
  have hout : ¬ (s.pc t).Outside := fun hout => h.shape.outside t hout hq
  have hwoken : s.pc t ≠ .woken := fun hs => by
    have hfalse := h.token.woken t hs
    simp [hlocked] at hfalse
  unfold Leads at hl
  cases hs : s.pc t <;> simp_all [Pc.nextNode, Pc.Outside]

theorem Inv.startCombining (h : s.Inv) (hpc : s.pc l = .woken) (hcompleted : (s.node (s.next l)).completed = false) :
    (s.setPc l (.combining (s.next l) 0)).Inv := by
  have hl : s.Leads l := by simp [Leads, hpc, hcompleted]
  have hplaced := h.token.placed l hl
  have hcounted := h.collected.counted l hl
  simp only [Placed, Counted, hpc] at hplaced hcounted
  refine h.setPc (r := s.ring) hl (by simp [hpc]) ?_ ?_ (by simp) ?_ h.collected.ring h.collected.scan
  · simp [Leads, setRing]
  · simp only [Placed, setRing, setPc_pc_self]
    exact ⟨hplaced.2, fun _ => ⟨rfl, trivial⟩⟩
  · simp only [Counted, setRing, setPc_pc_self]
    exact ⟨congrArg List.length hcounted.1, Nat.zero_le _, hcounted.2⟩

theorem Inv.help {counter : ℕ} (h : s.Inv) (hpc : s.pc l = .combining p counter) (hn : (s.node p).next = some n)
    (hlt : counter < rQd) : (s.setPc l (.helping p n (counter + 1))).Inv := by
  have hl : s.Leads l := by simp [Leads, hpc]
  have hplaced := h.token.placed l hl
  have hcounted := h.collected.counted l hl
  simp only [Placed, Counted, hpc] at hplaced hcounted
  obtain ⟨hp, hown⟩ := hplaced
  obtain ⟨x, q, hqueue, hnq, hx⟩ := h.shape.front_next (hp ▸ hn)
  have hpx : p = s.next x.1 := by rw [hp, hqueue]; rfl
  have hxq : s.Queued x.1 := by simp [Queued, hqueue]
  refine h.setPc (r := s.ring) hl (by simp [hpc]) ?_ ?_ (by simp) ?_ h.collected.ring h.collected.scan
  · simp [Leads, setRing]
  · simp only [Placed, setRing, setPc_pc_self]
    refine ⟨x, q, hqueue, hpx, hnq.trans (front_congr (fun _ _ => rfl) rfl).symm, ?_⟩
    by_cases hq : s.Queued l
    · exact Or.inl (h.shape.inj (hpx.symm.trans (hown hq).1.symm))
    · have hxl : x.1 ≠ l := fun heq => hq (heq ▸ hxq)
      have hlocked : (s.node p).locked = true := hp ▸ h.token.locked_front.mpr ⟨l, hl, hq⟩
      rw [setPc_pc_of_ne _ _ hxl]
      exact Or.inr ⟨hq, h.spinning hxq hx (fun hxl' => hxl (h.token.one _ _ hxl' hl)) (hpx ▸ hlocked), hlocked⟩
  · simp only [Counted, setRing, setPc_pc_self]
    exact ⟨congrArg (· + 1) hcounted.1, hlt, hcounted.2.2⟩

theorem Inv.endInner {counter : ℕ} (h : s.Inv) (hpc : s.pc l = .combining p counter)
    (hend : (s.node p).next = none ∨ ¬ counter < rQd) : (s.setPc l (.checking p counter)).Inv := by
  have hl : s.Leads l := by simp [Leads, hpc]
  have hplaced := h.token.placed l hl
  have hcounted := h.collected.counted l hl
  simp only [Placed, Counted, hpc] at hplaced hcounted
  refine h.setPc (r := s.ring) hl (by simp [hpc]) ?_ ?_ (by simp) ?_ h.collected.ring h.collected.scan
  · simp [Leads, setRing]
  · simp only [Placed, setRing, setPc_pc_self]
    refine ⟨fun hq => ?_, hplaced.1⟩
    -- the leader has not yet taken its own call
    obtain ⟨hp, rfl⟩ := hplaced.2 hq
    obtain hnone | hlt := hend
    · exact h.next_ne_none hl hq (hp ▸ hnone)
    · exact hlt (by decide)
  · simp only [Counted, setRing, setPc_pc_self]
    exact hcounted

theorem Inv.again {counter : ℕ} (h : s.Inv) (hpc : s.pc l = .checking p counter) :
    (s.setPc l (.combining p counter)).Inv := by
  have hl : s.Leads l := by simp [Leads, hpc]
  have hplaced := h.token.placed l hl
  have hcounted := h.collected.counted l hl
  simp only [Placed, Counted, hpc] at hplaced hcounted
  refine h.setPc (r := s.ring) hl (by simp [hpc]) ?_ ?_ (by simp) ?_ h.collected.ring h.collected.scan
  · simp [Leads, setRing]
  · simp only [Placed, setRing, setPc_pc_self]
    exact ⟨hplaced.2, fun hq => absurd hq hplaced.1⟩
  · simp only [Counted, setRing, setPc_pc_self]
    exact hcounted

omit [DecidableEq T] in
theorem Collected.stepRing {x : RingStep} {r : Ring} (h : s.Collected) (hx : x.submitter = some .lookup)
    (hstep : s.ring.step x = some r) : r.Inv ∧ r.phase .scan = .idle := by
  refine ⟨h.ring.step ?_ hstep, (Ring.step_phase hstep (by simp [hx])).trans h.scan⟩
  cases x with
  | check w =>
    cases hx
    intro w hw
    cases w with
    | lookup => exact absurd rfl hw
    | scan => exact h.scan
  | _ => trivial

theorem Inv.submitting {x : RingStep} {r : Ring} {pc : Pc T A} (h : s.Inv) (hl : s.Leads l)
    (hx : x.submitter = some .lookup) (hstep : s.ring.step x = some r)
    (hplaced : ¬ s.Queued l ∧ p = s.front s.queue)
    (hbusy : ∀ p n c, s.pc l ≠ .completing p n c ∧ s.pc l ≠ .releasing p n c)
    (hpc : pc = .reading p ∨ pc = .setting p ∨ pc = .unlocking p)
    (hcounted : ((s.setPc l pc).setRing r).Counted l) : ((s.setPc l pc).setRing r).Inv := by
  obtain ⟨hring, hscan⟩ := h.collected.stepRing hx hstep
  refine h.setPc hl hbusy ?_ ?_ ?_ hcounted hring hscan
  · obtain rfl | rfl | rfl := hpc <;> simp [Leads, setRing]
  · obtain rfl | rfl | rfl := hpc <;> simp only [Placed, setRing, setPc_pc_self] <;> exact hplaced
  · obtain rfl | rfl | rfl := hpc <;> simp

theorem Inv.startReading {counter : ℕ} {r : Ring} (h : s.Inv) (hpc : s.pc l = .checking p counter)
    (hstep : s.ring.step (.check .lookup) = some r) : ((s.setPc l (.reading p)).setRing r).Inv := by
  have hl : s.Leads l := by simp [Leads, hpc]
  have hplaced := h.token.placed l hl
  have hcounted := h.collected.counted l hl
  simp only [Placed, Counted, hpc] at hplaced hcounted
  refine h.submitting hl rfl hstep hplaced (by simp [hpc]) (by simp) ?_
  simp only [Counted, setRing, setPc_pc_self]
  refine ⟨hcounted.1.trans_le hcounted.2.1, ?_⟩
  simp only [Ring.step, Option.ite_none_right_eq_some, Option.some.injEq] at hstep
  obtain ⟨-, rfl⟩ := hstep
  simp [Ring.setPhase]

theorem Inv.submit {r : Ring} (h : s.Inv) (hpc : s.pc l = .submitting p)
    (hstep : s.ring.step (.submit .lookup) = some r) : ((s.setPc l (.setting p)).setRing r).Inv := by
  have hl : s.Leads l := by simp [Leads, hpc]
  have hplaced := h.token.placed l hl
  have hcounted := h.collected.counted l hl
  simp only [Placed, Counted, hpc] at hplaced hcounted
  refine h.submitting hl rfl hstep hplaced (by simp [hpc]) (by simp) ?_
  simp only [Counted, setRing, setPc_pc_self]
  obtain ⟨hvec, pending, hphase⟩ := hcounted
  simp only [Ring.step, hphase, Option.ite_none_right_eq_some, Option.some.injEq] at hstep
  obtain ⟨-, rfl⟩ := hstep
  exact ⟨hvec, pending, by simp [Ring.setPhase]⟩

theorem Inv.set {r : Ring} (h : s.Inv) (hpc : s.pc l = .setting p)
    (hstep : s.ring.step (.set .lookup) = some r) : ((s.setPc l (.unlocking p)).setRing r).Inv := by
  have hl : s.Leads l := by simp [Leads, hpc]
  have hplaced := h.token.placed l hl
  have hcounted := h.collected.counted l hl
  simp only [Placed, Counted, hpc] at hplaced hcounted
  refine h.submitting hl rfl hstep hplaced (by simp [hpc]) (by simp) ?_
  simp only [Counted, setRing, setPc_pc_self]
  obtain ⟨hvec, pending, hphase⟩ := hcounted
  simp only [Ring.step, hphase, Option.some.injEq] at hstep
  obtain rfl := hstep
  exact ⟨hvec, by simp [Ring.setPhase]⟩

theorem Inv.getValCcsync {linked : ℕ → Bool} (h : s.Inv) (hpc : s.pc l = .reading p)
    (hstep : s.getValCcsync l p linked = some s') : s'.Inv := by
  have hl : s.Leads l := by simp [Leads, hpc]
  have hplaced := h.token.placed l hl
  have hcounted := h.collected.counted l hl
  simp only [Placed, Counted, hpc] at hplaced hcounted
  obtain ⟨r, hr, rfl⟩ := Option.map_eq_some_iff.mp hstep
  obtain ⟨hring, hscan⟩ := h.collected.stepRing rfl hr
  have hothers : ∀ (pc : Pc T A) t', t' ≠ l → (s.setPc l pc).pc t' = s.pc t' :=
    fun pc t' hne => setPc_pc_of_ne _ _ hne
  -- nothing may be prepared, and then `get_val_ccsync` is done
  have hphase : r.phase .lookup = .idle ∨ ∃ pending, r.phase .lookup = .prepared pending := by
    simp only [Ring.step, Option.ite_none_right_eq_some, Option.some.injEq] at hr
    obtain ⟨-, rfl⟩ := hr
    simp only [Ring.setPhase, Function.update_self]
    split
    · exact Or.inl rfl
    · exact Or.inr ⟨_, rfl⟩
  have hafter : ∀ {pc : Pc T A}, pc = (if r.phase .lookup = .idle then .unlocking p else .submitting p) →
      ({ (s.setPc l pc).setRing r with srcAtEntryVec := [], batches := s.batches ++ [s.srcAtEntryVec] } :
        Combiner T A).Inv := by
    intro pc hpc'
    have hself : (s.setPc l pc).pc l = pc := setPc_pc_self ..
    refine h.lead hl rfl rfl rfl rfl (hothers pc) ?_ ?_ (by simp [hpc]) ?_ ?_ hring hscan ?_
    · simp only [Leads, setRing, hself]
      split at hpc' <;> simp [hpc']
    · simp only [Placed, setRing, hself]
      split at hpc' <;> simp only [hpc'] <;> exact hplaced
    · simp only [setRing, hself]
      split at hpc' <;> simp [hpc']
    · simp only [Counted, setRing, hself]
      split at hpc' <;> simp only [hpc']
      · exact ⟨trivial, ‹_›⟩
      · exact ⟨trivial, hphase.resolve_left ‹_›⟩
    · refine h.books.of_pc (t := l) ?_ ?_ rfl (hothers pc) (by simp [hpc]) ?_
      · show s.calls.Perm ((s.batches ++ [s.srcAtEntryVec]).flatten ++ [] ++ s.queue.map Prod.snd ++
          s.starting.map Prod.snd)
        simpa using h.books.calls
      · intro b hb
        obtain hb | hb := List.mem_append.mp hb
        · exact h.books.batches b hb
        · obtain rfl := List.mem_singleton.mp hb
          exact hcounted.1
      · simp only [setRing, hself]
        split at hpc' <;> simp [hpc']
  exact hafter rfl

theorem Inv.batchingIo {counter : ℕ} (h : s.Inv) (hpc : s.pc l = .helping p n counter)
    (ha : (s.node p).tmp = some a) : (s.batchingIo l a (.completing p n counter)).Inv := by
  have hl : s.Leads l := by simp [Leads, hpc]
  have hplaced := h.token.placed l hl
  have hcounted := h.collected.counted l hl
  simp only [Placed, Counted, hpc] at hplaced hcounted
  obtain ⟨x, q, hqueue, rfl, hn, hx⟩ := hplaced
  have hpc' : (s.batchingIo l a (.completing (s.next x.1) n counter)).pc l = .completing (s.next x.1) n counter :=
    setPc_pc_self ..
  have hpast : (s.pc x.1).nextNode = none ∧ (s.pc x.1).atEntry = none := by
    obtain heq | ⟨-, hs, -⟩ := hx
    · rw [heq]
      exact hl.past.1
    · simp [hs, Pc.nextNode, Pc.atEntry]
  -- the entry read from the node is the one of the call at the front
  have harg := h.shape.args x (hqueue ▸ List.mem_cons_self)
  rw [arg, hpast.2, Option.none_or, ha] at harg
  have htoken := h.token.batchingIo h.shape hpc hqueue hn hx a
  refine ⟨?_, htoken, ?_, ?_⟩
  · exact h.shape.batchingIo hqueue hpast.1 hl.past.1 ⟨rfl, rfl⟩ id a
  · refine .of_leads htoken (l := l) (by simp [Leads, hpc']) ?_ h.collected.ring h.collected.scan
    simp only [Counted, hpc']
    refine ⟨?_, hcounted.2⟩
    simpa [Combiner.batchingIo] using hcounted.1
  · refine h.books.of_pc (t := l) ?_ h.books.batches rfl (fun t' hne => setPc_pc_of_ne _ _ hne) (by simp [hpc])
      (by simp [hpc'])
    show s.calls.Perm (s.batches.flatten ++ (s.srcAtEntryVec ++ [a]) ++ s.queue.tail.map Prod.snd ++
      s.starting.map Prod.snd)
    have hcalls := h.books.calls
    rw [hqueue] at hcalls ⊢
    rw [Option.some.inj harg]
    simpa using hcalls

theorem Inv.mark {f : AioNode T A → AioNode T A} {pc : Pc T A} (h : s.Inv) (hl : s.Leads l)
    (hf : ∀ x, (f x).next = x.next ∧ (f x).tmp = x.tmp) (htoken : ((s.setNode p f).setPc l pc).Token)
    (hcollected : ((s.setNode p f).setPc l pc).Collected) (hpc : pc.nextNode = none ∧ pc.atEntry = none)
    (hout : pc.Outside → pc = .idle ∧ ¬ s.Queued l) : ((s.setNode p f).setPc l pc).Inv := by
  have hothers : ∀ t', t' ≠ l → ((s.setNode p f).setPc l pc).pc t' = s.pc t' :=
    fun t' hne => setPc_pc_of_ne _ _ hne
  refine ⟨?_, htoken, hcollected, ?_⟩
  · refine h.shape.quiet (t := l) rfl rfl rfl (fun x => ?_) hothers hl.past.1 ?_ ?_
    · rw [setPc_node]
      obtain rfl | hne := eq_or_ne x p
      · rw [setNode_node_self]
        exact hf _
      · rw [setNode_node_of_ne _ _ hne]
        exact ⟨rfl, rfl⟩
    · rw [setPc_pc_self]
      exact hpc
    · rw [setPc_pc_self]
      exact hout
  · refine h.books.congr (t := l) rfl rfl rfl rfl rfl hothers hl.past.2.2 fun a ha => ?_
    rw [setPc_pc_self] at ha
    subst ha
    cases (hout trivial).1

theorem Inv.complete {counter : ℕ} (h : s.Inv) (hpc : s.pc l = .completing p n counter) :
    ((s.setNode p fun x => { x with completed := true }).setPc l (.releasing p n counter)).Inv := by
  have hl : s.Leads l := by simp [Leads, hpc]
  have hcounted := h.collected.counted l hl
  simp only [Counted, hpc] at hcounted
  have htoken := h.token.complete h.shape hpc
  refine h.mark hl (fun _ => ⟨rfl, rfl⟩) htoken ?_ ⟨rfl, rfl⟩ False.elim
  refine .of_leads htoken (l := l) (by simp [Leads]) ?_ h.collected.ring h.collected.scan
  simp only [Counted, setPc_pc_self]
  exact hcounted

theorem Inv.release {counter : ℕ} (h : s.Inv) (hpc : s.pc l = .releasing p n counter) :
    ((s.setNode p fun x => { x with locked := false }).setPc l (.combining n counter)).Inv := by
  have hl : s.Leads l := by simp [Leads, hpc]
  have hcounted := h.collected.counted l hl
  simp only [Counted, hpc] at hcounted
  have htoken := h.token.release h.shape hpc
  refine h.mark hl (fun _ => ⟨rfl, rfl⟩) htoken ?_ ⟨rfl, rfl⟩ False.elim
  refine .of_leads htoken (l := l) (by simp [Leads]) ?_ h.collected.ring h.collected.scan
  simp only [Counted, setPc_pc_self]
  exact hcounted

theorem Inv.unlock (h : s.Inv) (hpc : s.pc l = .unlocking p) :
    ((s.setNode p fun x => { x with locked := false }).setPc l .idle).Inv := by
  have hl : s.Leads l := by simp [Leads, hpc]
  have hplaced := h.token.placed l hl
  have hcounted := h.collected.counted l hl
  simp only [Placed, Counted, hpc] at hplaced hcounted
  refine h.mark hl (fun _ => ⟨rfl, rfl⟩) (h.token.unlock h.shape hpc) ?_ ⟨rfl, rfl⟩ fun _ =>
    ⟨rfl, hplaced.1⟩
  refine ⟨fun t ht => absurd ht ?_, fun _ => hcounted, h.collected.ring, h.collected.scan⟩
  exact h.token.not_leads_unlock hpc t

/-! ## The run -/

omit [DecidableEq T] in
theorem inv_initial : (initial : Combiner T A).Inv := by
  refine ⟨⟨?_, ?_, ?_, trivial, ?_, rfl, ?_, ?_, ?_⟩, ⟨?_, ?_, ?_, ?_, ?_, ?_, ?_, ?_⟩,
    ⟨?_, ?_, ?_, rfl⟩, ⟨?_, ?_, ?_, ?_, ∅, fun _ _ => rfl⟩⟩
  · exact Option.some_injective T
  · exact Option.some_ne_none
  all_goals simp [initial, Queued, nodes, front, Pc.nextNode, Leads, Ring.inv_initial]

theorem Inv.advance [DecidableEq A] {linked : ℕ → Bool} (h : s.Inv) (hstep : s.advance t linked = some s') :
    s'.Inv := by
  unfold Combiner.advance at hstep
  split at hstep
  case h_1 => cases hstep
  case h_2 a hpc =>
    cases hstep
    exact h.swapTail hpc
  case h_3 a n hpc =>
    cases hstep
    exact h.store (h.shape.publish hpc) (fun _ => ⟨rfl, rfl⟩) (by simp [hpc, Pc.nextNode]) (Or.inl rfl)
  case h_4 n hpc =>
    cases hstep
    exact h.store (n := n) (h.shape.link hpc) (fun _ => ⟨rfl, rfl⟩) (by simp [hpc, Pc.nextNode]) (Or.inr rfl)
  case h_5 hpc =>
    split at hstep
    · cases hstep
    · cases hstep
      exact h.wake hpc (Bool.eq_false_of_not_eq_true ‹_›)
  case h_6 hpc =>
    cases hstep
    split
    · exact h.return hpc ‹_›
    · exact h.startCombining hpc (Bool.eq_false_of_not_eq_true ‹_›)
  case h_7 p counter hpc =>
    split at hstep
    · cases hstep
      split
      · exact h.help hpc ‹_› ‹_›
      · exact h.endInner hpc (Or.inr ‹_›)
    · cases hstep
      exact h.endInner hpc (Or.inl ‹_›)
  case h_8 p n counter hpc =>
    obtain ⟨a, ha, rfl⟩ := Option.map_eq_some_iff.mp hstep
    exact h.batchingIo hpc ha
  case h_9 p n counter hpc =>
    cases hstep
    exact h.complete hpc
  case h_10 p n counter hpc =>
    cases hstep
    exact h.release hpc
  case h_11 p counter hpc =>
    split at hstep
    · obtain ⟨r, hr, rfl⟩ := Option.map_eq_some_iff.mp hstep
      exact h.startReading hpc hr
    · cases hstep
      exact h.again hpc
  case h_12 p hpc => exact h.getValCcsync hpc hstep
  case h_13 p hpc =>
    obtain ⟨r, hr, rfl⟩ := Option.map_eq_some_iff.mp hstep
    exact h.submit hpc hr
  case h_14 p hpc =>
    obtain ⟨r, hr, rfl⟩ := Option.map_eq_some_iff.mp hstep
    exact h.set hpc hr
  case h_15 p hpc =>
    cases hstep
    exact h.unlock hpc

omit [DecidableEq T] in
theorem Inv.completer {x : RingStep} {r : Ring} (h : s.Inv) (hx : x.submitter = none)
    (hstep : s.ring.step x = some r) : (s.setRing r).Inv := by
  have hphase : ∀ w, r.phase w = s.ring.phase w := fun w => Ring.step_phase hstep (by simp [hx])
  have hring : r.Inv := by
    refine h.collected.ring.step ?_ hstep
    cases x with
    | check w => cases hx
    | _ => trivial
  have hplaced : ∀ t, s.Placed t → (s.setRing r).Placed t := fun t ht =>
    ht.congr rfl rfl rfl rfl fun o ho hlocked => ⟨ho, hlocked, rfl⟩
  refine ⟨⟨h.shape.inj, h.shape.ne_tail, h.shape.nodup, ?_, h.shape.args, h.shape.tail_next, h.shape.outside,
    h.shape.fresh,
    h.shape.entering⟩, ⟨h.token.one, fun t ht => hplaced t (h.token.placed t ht), h.token.completed,
    h.token.locked, ?_,
    h.token.fresh, h.token.woken, h.token.served⟩,
    ⟨fun t ht => ?_, fun hnone => ?_, hring, (hphase _).trans h.collected.scan⟩,
    ⟨h.books.calls, h.books.starting, h.books.nodup, h.books.batches, h.books.busy⟩⟩
  · exact h.shape.links.congr (fun _ _ => rfl) (fun _ _ => rfl) rfl
  · rw [show (s.setRing r).front (s.setRing r).queue = s.front s.queue from front_congr (fun _ _ => rfl) rfl]
    exact h.token.locked_front
  · refine (counted_congr ?_ ?_ (hphase _)).mpr (h.collected.counted t ht)
    · rfl
    · rfl
  · have hrest := h.collected.rest hnone
    exact ⟨hrest.1, (hphase _).trans hrest.2⟩

theorem Inv.step [DecidableEq A] {x : Step T A} (h : s.Inv) (hstep : s.step x = some s') : s'.Inv := by
  cases x with
  | call t a =>
    simp only [Combiner.step] at hstep
    split at hstep
    · cases hstep
      exact h.initNode ‹_› a
    · cases hstep
  | thread t linked => exact h.advance hstep
  | completer x =>
    simp only [Combiner.step, Option.ite_none_right_eq_some] at hstep
    obtain ⟨hx, hstep⟩ := hstep
    obtain ⟨r, hr, rfl⟩ := Option.map_eq_some_iff.mp hstep
    exact h.completer hx hr

end Hkv.AioQueue.Combiner
