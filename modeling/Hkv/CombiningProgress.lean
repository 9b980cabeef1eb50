import Hkv.CombiningRun
import Mathlib.Algebra.BigOperators.Group.Finset.Basic
import Mathlib.Logic.Relation

/-!
# Every lookup is in one batch

From every state that a run of the combining queue reaches, the calls can all come back,
and then each `at_entry` is in exactly one of the batches.
-/
namespace Hkv.AioQueue.Combiner
open MtsConfig StepRun IoRing

variable {T A : Type} {s s' : Combiner T A} {t t' l : T} {a : A} {p n : Node T}

/-! ## Every call comes back -/

/-- A bound on the steps of a thread until its call is back. -/
def work : Pc T A → ℕ
  | .idle => 0
  | .swapping _ => 40
  | .publishing _ _ => 20
  | .linking _ => 19
  | .spinning => 18
  | .woken => 17
  | .combining _ _ => 13
  | .helping _ _ _ => 12
  | .completing _ _ _ => 21
  | .releasing _ _ _ => 20
  | .checking _ _ => 11
  | .reading _ => 10
  | .submitting _ => 9
  | .setting _ => 8
  | .unlocking _ => 7

variable [DecidableEq T] [DecidableEq A] {linked : ℕ → Bool}

theorem advance_frame (hstep : s.advance t linked = some s') :
    (∀ t', t' ≠ t → s'.pc t' = s.pc t') ∧ s'.calls = s.calls := by
  unfold Combiner.advance at hstep
  split at hstep
  case h_1 => cases hstep
  case h_2 =>
    cases hstep
    exact ⟨fun t' hne => swapTail_pc_of_ne s _ hne, rfl⟩
  case h_5 =>
    split at hstep
    · cases hstep
    · cases hstep
      exact ⟨fun t' hne => setPc_pc_of_ne _ _ hne, rfl⟩
  case h_7 =>
    split at hstep <;> cases hstep <;> exact ⟨fun t' hne => setPc_pc_of_ne _ _ hne, rfl⟩
  case h_11 =>
    split at hstep
    · obtain ⟨r, -, rfl⟩ := Option.map_eq_some_iff.mp hstep
      exact ⟨fun t' hne => setPc_pc_of_ne _ _ hne, rfl⟩
    · cases hstep
      exact ⟨fun t' hne => setPc_pc_of_ne _ _ hne, rfl⟩
  case h_8 | h_12 | h_13 | h_14 =>
    obtain ⟨_, -, rfl⟩ := Option.map_eq_some_iff.mp hstep
    exact ⟨fun t' hne => setPc_pc_of_ne _ _ hne, rfl⟩
  all_goals
    cases hstep
    exact ⟨fun t' hne => setPc_pc_of_ne _ _ hne, rfl⟩

theorem Inv.work_advance (h : s.Inv) (hzero : s.ring.pendingIos = 0) (hstep : s.advance t linked = some s') :
    10 * s'.queue.length + work (s'.pc t) < 10 * s.queue.length + work (s.pc t) := by
  have hset : ∀ (s : Combiner T A) pc, (s.setPc t pc).queue = s.queue := fun _ _ => rfl
  unfold Combiner.advance at hstep
  split at hstep
  case h_1 => cases hstep
  case h_2 a hpc =>
    cases hstep
    have hlen : (s.swapTail t a).queue.length = s.queue.length + 1 := by simp [Combiner.swapTail]
    rw [hlen, swapTail_pc_self, hpc]
    simp only [work]
    omega
  case h_5 hpc =>
    split at hstep
    · cases hstep
    · cases hstep
      simp [work, hpc, hset]
  case h_6 hpc =>
    cases hstep
    split <;> simp [work, hpc, hset]
  case h_7 hpc =>
    split at hstep
    · cases hstep
      split <;> simp [work, hpc, hset]
    · cases hstep
      simp [work, hpc, hset]
  case h_8 p n counter hpc =>
    obtain ⟨a, -, rfl⟩ := Option.map_eq_some_iff.mp hstep
    have hplaced := h.token.placed t (by simp [Leads, hpc])
    simp only [Placed, hpc] at hplaced
    obtain ⟨x, q, hqueue, -⟩ := hplaced
    have hlen : (s.batchingIo t a (.completing p n counter)).queue.length + 1 = s.queue.length := by
      simp [Combiner.batchingIo, hqueue]
    rw [← hlen, show (s.batchingIo t a (.completing p n counter)).pc t = .completing p n counter from
      setPc_pc_self .., hpc]
    simp only [work]
    omega
  case h_11 hpc =>
    rw [if_pos hzero] at hstep
    obtain ⟨r, -, rfl⟩ := Option.map_eq_some_iff.mp hstep
    simp [setRing, work, hpc, hset]
  case h_12 p hpc =>
    obtain ⟨r, -, rfl⟩ := Option.map_eq_some_iff.mp hstep
    simp only [setRing, setPc_pc_self, hpc, hset]
    split <;> simp [work]
  case h_13 hpc | h_14 hpc =>
    obtain ⟨r, -, rfl⟩ := Option.map_eq_some_iff.mp hstep
    simp [setRing, work, hpc, hset]
  all_goals
    cases hstep
    simp [work, *, setNode]

theorem Inv.exists_advance_of_unlocked (h : s.Inv) (hidle : s.pc t ≠ .idle)
    (hspin : s.pc t = .spinning → (s.node (s.next t)).locked = false) (linked : ℕ → Bool) :
    ∃ s', s.advance t linked = some s' := by
  have hplaced := h.token.placed t
  have hcounted := h.collected.counted t
  unfold Combiner.advance
  cases hpc : s.pc t <;> simp only [Leads, Placed, Counted, hpc, forall_const] at hidle hspin hplaced hcounted
  case idle => exact absurd rfl hidle
  case spinning => simp [hspin]
  case combining p counter =>
    cases hn : (s.node p).next <;> simp [hn]
  case helping p n counter =>
    obtain ⟨x, q, hqueue, rfl, -, hx⟩ := hplaced
    have harg := h.shape.args x (hqueue ▸ List.mem_cons_self)
    have hpast : (s.pc x.1).atEntry = none := by
      obtain rfl | ⟨-, hs, -⟩ := hx
      · simp [hpc, Pc.atEntry]
      · simp [hs, Pc.atEntry]
    rw [arg, hpast, Option.none_or] at harg
    simp [harg]
  case checking p counter =>
    by_cases hzero : s.ring.pendingIos = 0
    · simp [hzero, Ring.step, hcounted.2.2]
    · simp [hzero]
  case reading p => simp [Combiner.getValCcsync, Ring.step, hcounted.2]
  case submitting p =>
    obtain ⟨-, pending, hphase⟩ := hcounted
    simp [Ring.step, hphase, (h.collected.ring.prepared _ _ hphase).1]
  case setting p =>
    obtain ⟨-, pending, hphase⟩ := hcounted
    simp [Ring.step, hphase]
  all_goals simp

theorem Inv.exists_advance (h : s.Inv) (ht : s.pc t ≠ .idle) (linked : ℕ → Bool) :
    ∃ t' s', s.advance t' linked = some s' := by
  by_cases hlead : ∃ l, s.Leads l
  · obtain ⟨l, hl⟩ := hlead
    have hidle : s.pc l ≠ .idle := fun hs => by simp [Leads, hs] at hl
    exact ⟨l, h.exists_advance_of_unlocked hidle (fun hs => by simp [Leads, hs] at hl) linked⟩
  by_cases hspin : s.pc t = .spinning → (s.node (s.next t)).locked = false
  · exact ⟨t, h.exists_advance_of_unlocked ht hspin linked⟩
  -- the node of `t` is locked, but that at the front is not
  obtain ⟨hspin, hlocked⟩ := Classical.not_imp.mp hspin
  have hq : s.Queued t := by
    by_contra hnot
    obtain hs | ⟨l, n, c, hs⟩ := h.token.served t (Or.inl hspin) hnot
    · exact hlocked hs.2
    · exact hlead ⟨l, by obtain hs | hs := hs <;> simp [Leads, hs]⟩
  cases hqueue : s.queue with
  | nil => simp [Queued, hqueue] at hq
  | cons x q =>
    have hx : s.Queued x.1 := by simp [Queued, hqueue]
    refine ⟨x.1, h.exists_advance_of_unlocked (fun hs => ?_) (fun _ => ?_) linked⟩
    · exact h.shape.outside x.1 (by rw [hs]; trivial) hx
    · by_contra hne
      have hfront := Bool.eq_true_of_not_eq_false hne
      rw [show s.next x.1 = s.front s.queue by rw [hqueue]; rfl, h.token.locked_front] at hfront
      obtain ⟨l, hl, -⟩ := hfront
      exact hlead ⟨l, hl⟩

omit [DecidableEq T] [DecidableEq A] in
theorem sum_work_advance {F : Finset T} (hpc : ∀ t', t' ≠ t → s'.pc t' = s.pc t') (ht : t ∈ F) :
    ∑ t' ∈ F, work (s'.pc t') + work (s.pc t) = ∑ t' ∈ F, work (s.pc t') + work (s'.pc t) := by
  classical
  rw [← Finset.add_sum_erase F _ ht, ← Finset.add_sum_erase F (fun t' => work (s.pc t')) ht,
    Finset.sum_congr rfl fun t' ht' => by rw [hpc t' (Finset.ne_of_mem_erase ht')]]
  omega

theorem Inv.exists_drain (h : s.Inv) : ∃ ys s', (∀ y ∈ ys, ∀ t a, y ≠ Step.call t a) ∧
    StepRun.run Combiner.step s ys = some s' ∧
    s'.ring.pendingIos = 0 ∧ s'.queue = s.queue ∧ s'.pc = s.pc ∧ s'.calls = s.calls := by
  obtain ⟨xs, r, hxs, hrun, hzero⟩ := h.collected.ring.exists_drain
  refine ⟨xs.map .completer, s.setRing r, ?_, ?_, hzero, rfl, rfl, rfl⟩
  · simp
  · clear h
    induction xs generalizing s with
    | nil =>
      cases hrun
      rfl
    | cons x xs ih =>
      obtain ⟨r₁, hr₁, hrun⟩ := Option.bind_eq_some_iff.mp hrun
      have hstep : s.step (.completer x) = some (s.setRing r₁) := by
        simp [Combiner.step, hxs x List.mem_cons_self, hr₁]
      rw [List.map_cons, run_cons hstep,
        ih (s := s.setRing r₁) (fun x hx => hxs x (List.mem_cons_of_mem _ hx)) hrun]
      rfl

theorem Inv.run (h : s.Inv) {ys : List (Step T A)} (hrun : StepRun.run Combiner.step s ys = some s') : s'.Inv :=
  run_induction_of_step (fun _ _ _ h hstep => h.step hstep) h hrun

theorem Inv.exists_return (h : s.Inv) : ∃ ys s', (∀ y ∈ ys, ∀ t a, y ≠ Step.call t a) ∧
    StepRun.run Combiner.step s ys = some s' ∧ (∀ t, s'.pc t = .idle) ∧ s'.calls = s.calls := by
  obtain ⟨F, hF⟩ := h.books.busy
  -- by induction on the work that is left
  generalize hm : 10 * s.queue.length + ∑ t ∈ F, work (s.pc t) = m
  induction m using Nat.strong_induction_on generalizing s with
  | _ m ih =>
    by_cases hidle : ∀ t, s.pc t = .idle
    · exact ⟨[], s, by simp, rfl, hidle, rfl⟩
    obtain ⟨t₀, ht₀⟩ := not_forall.mp hidle
    obtain ⟨ys, s₁, hys, hrun, hzero, hqueue, hpc, hcalls⟩ := h.exists_drain
    have h₁ := h.run hrun
    obtain ⟨t, s₂, hstep⟩ := h₁.exists_advance (hpc ▸ ht₀) fun _ => true
    have ht : t ∈ F := by
      by_contra hnot
      simp [Combiner.advance, hpc, hF t hnot] at hstep
    have hwork := h₁.work_advance hzero hstep
    obtain ⟨hpc', hcalls'⟩ := advance_frame hstep
    have hsum := sum_work_advance hpc' ht
    have h₂ := h₁.step (x := .thread t fun _ => true) hstep
    have hless : 10 * s₂.queue.length + ∑ t ∈ F, work (s₂.pc t) < m := by
      rw [hqueue] at hwork
      simp only [hpc] at hwork hsum
      omega
    have hF₂ : ∀ t', t' ∉ F → s₂.pc t' = .idle := fun t' ht' => by
      rw [hpc' t' fun heq => ht' (heq ▸ ht), hpc]
      exact hF t' ht'
    obtain ⟨zs, s₃, hzs, hrun', hback, hcalls₃⟩ := ih _ hless h₂ hF₂ rfl
    refine ⟨ys ++ .thread t (fun _ => true) :: zs, s₃, ?_, ?_, hback, by rw [hcalls₃, hcalls', hcalls]⟩
    · intro y hy
      obtain hy | hy := List.mem_append.mp hy
      · exact hys y hy
      · obtain rfl | hy := List.mem_cons.mp hy
        · simp
        · exact hzs y hy
    · rw [run_append hrun, run_cons hstep, hrun']

/-! ## What the queue is for -/

section
omit [DecidableEq T] [DecidableEq A]

/-- Every `at_entry` is in one batch, in the vector of the leader, or its call is still at work. -/
def Accounted (s : Combiner T A) : Prop :=
  ∃ atWork : List (T × A), (atWork.map Prod.fst).Nodup ∧ (∀ x ∈ atWork, s.pc x.1 ≠ .idle) ∧
    s.calls.Perm (s.batches.flatten ++ s.srcAtEntryVec ++ atWork.map Prod.snd)

/-- The node that the leader is at. -/
def here (s : Combiner T A) (l : T) : Option (Node T) :=
  match s.pc l with
  | .idle | .swapping _ | .publishing _ _ | .linking _ | .spinning => none
  | .woken => some (s.next l)
  | .combining p _ | .helping p _ _ | .completing p _ _ | .releasing p _ _ | .checking p _ | .reading p |
    .submitting p
  | .setting p | .unlocking p => some p

/-- The node from which the leader walks on. -/
def ahead (s : Combiner T A) (l : T) : Option (Node T) :=
  match s.pc l with
  | .helping _ n _ | .completing _ n _ | .releasing _ n _ => some n
  | _ => s.here l

/-- The leader `l` is at the node `x`, or can come to it. -/
def CanRead (s : Combiner T A) (l : T) (x : Node T) : Prop :=
  s.Leads l ∧ (s.here l = some x ∨
    ∃ y, s.ahead l = some y ∧ Relation.ReflTransGen (fun x y => (s.node x).next = some y) y x)

theorem Inv.accounted (h : s.Inv) : s.Accounted := by
  refine ⟨s.queue ++ s.starting, ?_, ?_, ?_⟩
  · rw [List.map_append]
    refine List.nodup_append.mpr ⟨h.shape.nodup, ?_, ?_⟩
    · refine List.Nodup.map_on ?_ h.books.nodup
      rintro ⟨t, a⟩ hx ⟨t', a'⟩ hy rfl
      have ha := (h.books.starting _ _).mp hx
      rw [(h.books.starting _ _).mp hy] at ha
      cases ha
      rfl
    · rintro t ht _ ht' rfl
      obtain ⟨⟨t, a⟩, hx, rfl⟩ := List.mem_map.mp ht'
      exact h.shape.outside t (by rw [(h.books.starting t a).mp hx]; trivial) ht
  · rintro ⟨t, a⟩ hx hidle
    obtain hx | hx := List.mem_append.mp hx
    · exact h.shape.outside t (by rw [hidle]; trivial) (List.mem_map_of_mem hx)
    · rw [(h.books.starting t a).mp hx] at hidle
      cases hidle
  · rw [List.map_append, ← List.append_assoc]
    exact h.books.calls

theorem Inv.calls_perm_batches (h : s.Inv) (hidle : ∀ t, s.pc t = .idle) : s.calls.Perm s.batches.flatten := by
  have hqueue : s.queue = [] := by
    refine List.eq_nil_iff_forall_not_mem.mpr fun x hx => ?_
    exact h.shape.outside x.1 (by rw [hidle]; trivial) (List.mem_map_of_mem hx)
  have hstarting : s.starting = [] := by
    refine List.eq_nil_iff_forall_not_mem.mpr fun x hx => ?_
    have hs := (h.books.starting x.1 x.2).mp hx
    simp [hidle] at hs
  have hvec := (h.collected.rest fun t => by simp [Leads, hidle]).1
  simpa [hqueue, hstarting, hvec] using h.books.calls

theorem Inv.prepares_all {linked : ℕ → Bool} (h : s.Inv) (hpc : s.pc t = .reading p) :
    (List.range s.srcAtEntryVec.length).countP linked ≤ s.ring.slots := by
  have hcounted := h.collected.counted t (by simp [Leads, hpc])
  simp only [Counted, hpc] at hcounted
  rw [Ring.slots, (h.collected.ring.checked _ hcounted.2).1]
  calc (List.range s.srcAtEntryVec.length).countP linked
      ≤ (List.range s.srcAtEntryVec.length).length := List.countP_le_length
    _ = s.srcAtEntryVec.length := List.length_range
    _ ≤ rQd := hcounted.1

theorem Links.succ_mem_nodes {q : List (T × A)} (h : s.Links q) (ht : t ∈ q.map Prod.fst) :
    ∃ y ∈ s.nodes q, s.succ t = some y := by
  induction q with
  | nil => cases ht
  | cons x q ih =>
    obtain rfl | ht := List.mem_cons.mp ht
    · exact ⟨_, List.mem_cons_of_mem _ (s.front_mem_nodes q), h.1⟩
    · obtain ⟨y, hy, hs⟩ := ih h.2 ht
      exact ⟨y, List.mem_cons_of_mem _ hy, hs⟩

theorem Shape.next_mem_nodes (h : s.Shape) {x y : Node T} (hx : x ∈ s.nodes s.queue)
    (hnext : (s.node x).next = some y) : y ∈ s.nodes s.queue := by
  obtain ⟨t, ht, rfl⟩ | rfl := mem_nodes.mp hx
  · have hpc : (s.pc t).nextNode = none := by
      by_contra hne
      rw [(h.entering t hne).2] at hnext
      cases hnext
    obtain ⟨z, hz, hs⟩ := h.links.succ_mem_nodes ht
    rw [succ, hpc, Option.none_or, hnext] at hs
    exact Option.some.inj hs ▸ hz
  · rw [h.tail_next] at hnext
    cases hnext

theorem Shape.mem_nodes_of_reaches (h : s.Shape) {x y : Node T} (hx : x ∈ s.nodes s.queue)
    (hreach : Relation.ReflTransGen (fun x y => (s.node x).next = some y) x y) : y ∈ s.nodes s.queue := by
  induction hreach with
  | refl => exact hx
  | tail _ hnext ih => exact h.next_mem_nodes ih hnext

theorem Inv.ahead_mem_nodes (h : s.Inv) (hl : s.Leads l) (hn : s.ahead l = some n) : n ∈ s.nodes s.queue := by
  have hplaced := h.token.placed l hl
  have hfront := s.front_mem_nodes s.queue
  cases hpc : s.pc l <;> simp only [Leads, Placed, ahead, here, hpc, Option.some.injEq] at hl hplaced hn <;> subst hn
  case woken => exact hplaced.2 ▸ hfront
  case combining => exact hplaced.1 ▸ hfront
  case helping =>
    obtain ⟨x, q, hqueue, -, hn, -⟩ := hplaced
    rw [hn, hqueue]
    exact List.mem_cons_of_mem _ (s.front_mem_nodes q)
  case completing => exact hplaced.2.1 ▸ hfront
  case releasing => exact hplaced.2.1 ▸ hfront
  all_goals exact hplaced.2 ▸ hfront

theorem Inv.here_cases (h : s.Inv) (hl : s.Leads l) (hp : s.here l = some p) :
    p ∈ s.nodes s.queue ∨ ∃ o, p = s.next o ∧ ¬ (s.pc o).Outside := by
  have hplaced := h.token.placed l hl
  have hfront := s.front_mem_nodes s.queue
  have hserved : ∀ {b}, s.Served l p b → ∃ o, p = s.next o ∧ ¬ (s.pc o).Outside := by
    rintro b ⟨o, ho, -, rfl | ⟨hs, -⟩⟩
    · exact ⟨o, ho, hl.past.2.1⟩
    · exact ⟨o, ho, by simp [hs, Pc.Outside]⟩
  cases hpc : s.pc l <;> simp only [Leads, Placed, here, hpc, Option.some.injEq] at hl hplaced hp <;> subst hp
  case woken => exact Or.inl (hplaced.2 ▸ hfront)
  case combining => exact Or.inl (hplaced.1 ▸ hfront)
  case helping =>
    obtain ⟨x, q, hqueue, hp, -⟩ := hplaced
    rw [hp, hqueue]
    exact Or.inl List.mem_cons_self
  case completing => exact Or.inr (hserved hplaced.2.2)
  case releasing => exact Or.inr (hserved hplaced.2.2)
  all_goals exact Or.inl (hplaced.2 ▸ hfront)

theorem Inv.not_canRead (h : s.Inv) (ht : (s.pc t).Outside) : ¬ s.CanRead l (s.next t) := by
  have hnot := h.shape.next_notMem_nodes (h.shape.outside t ht)
  rintro ⟨hl, hp | ⟨y, hy, hreach⟩⟩
  · obtain hmem | ⟨o, ho, hout⟩ := h.here_cases hl hp
    · exact hnot hmem
    · exact hout (h.shape.inj ho ▸ ht)
  · exact hnot (h.shape.mem_nodes_of_reaches (h.ahead_mem_nodes hl hy) hreach)

end

/-- What the combining queue promises. -/
structure Combines (s : Combiner T A) : Prop where
  accounted : s.Accounted
  /-- The calls can all come back, and then each `at_entry` is in one batch. -/
  returns : ∃ ys s', (∀ y ∈ ys, ∀ t a, y ≠ Step.call t a) ∧ run step s ys = some s' ∧
    (∀ t, s'.pc t = .idle) ∧ s.calls.Perm s'.batches.flatten
  one_leader : ∀ t t', s.Leads t → s.Leads t' → t = t'
  batch_le : ∀ b ∈ s.batches, b.length ≤ rQd
  /-- `io_uring_get_sqe` has an entry for each read of the batch. -/
  none_dropped : ∀ t p linked, s.pc t = .reading p →
    (List.range s.srcAtEntryVec.length).countP linked ≤ s.ring.slots
  reuse : ∀ t l, (s.pc t).Outside → ¬ s.CanRead l (s.next t)

theorem run_combines {xs : List (Step T A)} (hrun : run step initial xs = some s) : s.Combines := by
  have h : s.Inv := inv_initial.run hrun
  refine ⟨h.accounted, ?_, h.token.one, h.books.batches, fun t p linked => h.prepares_all,
    fun t l => h.not_canRead⟩
  obtain ⟨ys, s', hys, hrun', hidle, hcalls⟩ := h.exists_return
  exact ⟨ys, s', hys, hrun', hidle, hcalls ▸ (h.run hrun').calls_perm_batches hidle⟩

/-- Two threads swap before either is linked; the first leads and collects both. -/
def twoLookups : List (Step Bool ℕ) :=
  let first : Step Bool ℕ := .thread false fun _ => true
  let second : Step Bool ℕ := .thread true fun _ => true
  [Step.call false 7, Step.call true 8, first, second, second, second] ++ List.replicate 14 first ++
    [second, second] ++ List.replicate 4 first ++
    [Step.completer .start, Step.completer .reap, Step.completer .reap, Step.completer .finish]

theorem run_combines_twoLookups : ∃ s, run step initial twoLookups = some s ∧ s.batches = [[7, 8]] ∧
    s.Combines := by
  have hbatches : (run step initial twoLookups).map batches = some [[7, 8]] := by decide +kernel
  obtain ⟨s, hrun, hs⟩ := Option.map_eq_some_iff.mp hbatches
  exact ⟨s, hrun, hs, run_combines hrun⟩

end Hkv.AioQueue.Combiner
