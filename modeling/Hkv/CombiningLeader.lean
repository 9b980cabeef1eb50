import Hkv.CombiningQueue

/-!
# Who leads the combining queue

The leadership is one token. Either a thread holds it, or the node at the front is
unlocked and waits for its call. All other nodes of the queue are locked, and none of
them is completed.
-/
namespace Hkv.AioQueue.Combiner
variable {T A : Type} {s s' : Combiner T A} {t t' : T} {a : A} {p n : Node T} {q : List (T × A)}

/-- The leader walks the queue, or it has found its node unlocked and not completed. -/
def Leads (s : Combiner T A) (t : T) : Prop :=
  match s.pc t with
  | .idle | .swapping _ | .publishing _ _ | .linking _ | .spinning => False
  | .woken => (s.node (s.next t)).completed = false
  | _ => True

/-- The leader `t` has taken `p` off the queue, and its call is not back yet. -/
def Served (s : Combiner T A) (t : T) (p : Node T) (completed : Bool) : Prop :=
  ∃ o, p = s.next o ∧ ¬ s.Queued o ∧
    (o = t ∨ s.pc o = .spinning ∧ (s.node p).locked = true ∧ (s.node p).completed = completed)

/-- Where the leader `t` is. -/
def Placed (s : Combiner T A) (t : T) : Prop :=
  match s.pc t with
  | .idle | .swapping _ | .publishing _ _ | .linking _ | .spinning => True
  | .woken => s.Queued t ∧ s.next t = s.front s.queue
  | .combining p counter => p = s.front s.queue ∧ (s.Queued t → s.next t = p ∧ counter = 0)
  | .helping p n _ => ∃ x q, s.queue = x :: q ∧ p = s.next x.1 ∧ n = s.front q ∧
    (x.1 = t ∨ ¬ s.Queued t ∧ s.pc x.1 = .spinning ∧ (s.node p).locked = true)
  | .completing p n _ => ¬ s.Queued t ∧ n = s.front s.queue ∧ s.Served t p false
  | .releasing p n _ => ¬ s.Queued t ∧ n = s.front s.queue ∧ s.Served t p true
  | .checking p _ | .reading p | .submitting p | .setting p | .unlocking p =>
    ¬ s.Queued t ∧ p = s.front s.queue

/-- The leader is at the node of `t`. -/
def InService (s : Combiner T A) (t : T) : Prop :=
  ∃ l n counter, s.pc l = .completing (s.next t) n counter ∨ s.pc l = .releasing (s.next t) n counter

structure Token (s : Combiner T A) : Prop where
  one : ∀ t t', s.Leads t → s.Leads t' → t = t'
  placed : ∀ t, s.Leads t → s.Placed t
  completed : ∀ x ∈ s.nodes s.queue, (s.node x).completed = false
  locked : ∀ x ∈ (s.nodes s.queue).tail, (s.node x).locked = true
  locked_front : (s.node (s.front s.queue)).locked = true ↔ ∃ l, s.Leads l ∧ ¬ s.Queued l
  fresh : ∀ t a, s.pc t = .swapping a → (s.node (s.next t)).locked = true ∧
    (s.node (s.next t)).completed = false
  woken : ∀ t, s.pc t = .woken → (s.node (s.next t)).locked = false
  served : ∀ t, s.pc t = .spinning ∨ s.pc t = .woken → ¬ s.Queued t →
    (s.node (s.next t)).completed = true ∧ (s.node (s.next t)).locked = false ∨ s.InService t

theorem pc_before {l : T} {pc pc' : Pc T A} (hothers : ∀ t', t' ≠ l → s'.pc t' = s.pc t') (hl : s'.pc l = pc)
    (ht : s'.pc t = pc') (hne : pc' ≠ pc) : t ≠ l ∧ s.pc t = pc' := by
  have htl : t ≠ l := by
    rintro rfl
    exact hne (ht.symm.trans hl)
  exact ⟨htl, (hothers t htl).symm.trans ht⟩

theorem leads_congr (hpc : s'.pc t = s.pc t)
    (hnode : s.pc t = .woken → (s'.node (s'.next t)).completed = (s.node (s.next t)).completed) :
    s'.Leads t ↔ s.Leads t := by
  unfold Leads
  rw [hpc]
  split <;> try rfl
  rw [hnode ‹_›]

theorem Placed.congr (h : s.Placed t) (hpc : s'.pc t = s.pc t) (hnext : s'.next = s.next) (htail : s'.tail = s.tail)
    (hqueue : s'.queue = s.queue)
    (hspin : ∀ o, s.pc o = .spinning → (s.node (s.next o)).locked = true → s'.pc o = .spinning ∧
      (s'.node (s.next o)).locked = true ∧ (s'.node (s.next o)).completed = (s.node (s.next o)).completed) :
    s'.Placed t := by
  have hqueued : s'.Queued = s.Queued := by funext t'; rw [Queued, Queued, hqueue]
  have hfront : s'.front = s.front := funext fun q => front_congr (fun _ _ => by rw [hnext]) htail
  have hserved : ∀ {p b}, s.Served t p b → s'.Served t p b := by
    rintro p b ⟨o, rfl, ho, hor⟩
    refine ⟨o, by rw [hnext], hqueued ▸ ho, hor.imp_right ?_⟩
    rintro ⟨hs, hlocked, hcompleted⟩
    obtain ⟨hs', hlocked', hcompleted'⟩ := hspin o hs hlocked
    exact ⟨hs', hlocked', hcompleted'.trans hcompleted⟩
  cases hs : s.pc t <;> simp only [Placed, hpc, hs, hqueued, hfront, hnext, hqueue] at h ⊢
  case helping =>
    obtain ⟨x, q, hx, hp, hn, hor⟩ := h
    refine ⟨x, q, hx, hp, hn, hor.imp_right ?_⟩
    rintro ⟨hnot, hs, hlocked⟩
    rw [hp] at hlocked ⊢
    exact ⟨hnot, (hspin _ hs hlocked).1, (hspin _ hs hlocked).2.1⟩
  case completing => exact ⟨h.1, h.2.1, hserved h.2.2⟩
  case releasing => exact ⟨h.1, h.2.1, hserved h.2.2⟩
  all_goals exact h

/-- A thread that does not lead moves on, and no flag of a node in use changes. -/
theorem Token.follow (h : s.Token) (hnext : s'.next = s.next) (htail : s'.tail = s.tail) (hqueue : s'.queue = s.queue)
    (hpc : ∀ t', t' ≠ t → s'.pc t' = s.pc t')
    (hflags : ∀ x, x ∈ s.nodes s.queue ∨ (∃ o, o ≠ t ∧ x = s.next o) →
      (s'.node x).locked = (s.node x).locked ∧ (s'.node x).completed = (s.node x).completed)
    (hbefore : ¬ s.Leads t) (hafter : ¬ s'.Leads t)
    (hspin : s.pc t = .spinning → (s.node (s.next t)).locked = false)
    (hfresh : ∀ a, s'.pc t = .swapping a → (s'.node (s.next t)).locked = true ∧
      (s'.node (s.next t)).completed = false)
    (hwoken : s'.pc t = .woken → (s'.node (s.next t)).locked = false)
    (hserved : s'.pc t = .spinning ∨ s'.pc t = .woken → ¬ s.Queued t →
      (s'.node (s.next t)).completed = true ∧ (s'.node (s.next t)).locked = false) : s'.Token := by
  have hqueued : s'.Queued = s.Queued := by funext t'; rw [Queued, Queued, hqueue]
  have hfront : s'.front s'.queue = s.front s.queue := by
    rw [hqueue]
    exact front_congr (fun _ _ => by rw [hnext]) htail
  have hnodes : s'.nodes s'.queue = s.nodes s.queue := by
    rw [hqueue]
    exact nodes_congr hnext htail
  have hothers : ∀ {o}, o ≠ t → (s'.node (s.next o)).locked = (s.node (s.next o)).locked ∧
      (s'.node (s.next o)).completed = (s.node (s.next o)).completed := fun ho => hflags _ (Or.inr ⟨_, ho, rfl⟩)
  have hleads : ∀ t', s'.Leads t' ↔ s.Leads t' := fun t' => by
    obtain rfl | hne := eq_or_ne t' t
    · exact iff_of_false hafter hbefore
    · exact leads_congr (hpc t' hne) fun _ => by rw [hnext, (hothers hne).2]
  refine ⟨fun t₁ t₂ h₁ h₂ => h.one t₁ t₂ ((hleads t₁).mp h₁) ((hleads t₂).mp h₂), ?_, ?_, ?_,
    ?_, ?_, ?_, ?_⟩
  · intro l hl
    have hne : l ≠ t := fun heq => hafter (heq ▸ hl)
    refine (h.placed l ((hleads l).mp hl)).congr (hpc l hne) hnext htail hqueue fun o ho hlocked => ?_
    have hne : o ≠ t := by
      rintro rfl
      simp [hspin ho] at hlocked
    exact ⟨(hpc o hne).trans ho, (hothers hne).1.trans hlocked, (hothers hne).2⟩
  · intro x hx
    rw [hnodes] at hx
    rw [(hflags x (Or.inl hx)).2]
    exact h.completed x hx
  · intro x hx
    rw [hnodes] at hx
    rw [(hflags x (Or.inl (List.mem_of_mem_tail hx))).1]
    exact h.locked x hx
  · rw [hfront, (hflags _ (Or.inl (s.front_mem_nodes _))).1, h.locked_front, hqueued]
    simp only [hleads]
  · intro t' a ht'
    rw [hnext]
    obtain rfl | hne := eq_or_ne t' t
    · exact hfresh a ht'
    · rw [(hothers hne).1, (hothers hne).2]
      exact h.fresh t' a (hpc t' hne ▸ ht')
  · intro t' ht'
    rw [hnext]
    obtain rfl | hne := eq_or_ne t' t
    · exact hwoken ht'
    · rw [(hothers hne).1]
      exact h.woken t' (hpc t' hne ▸ ht')
  · intro t' ht' hnot
    rw [hqueued] at hnot
    rw [hnext]
    obtain rfl | hne := eq_or_ne t' t
    · exact Or.inl (hserved ht' hnot)
    · rw [(hothers hne).1, (hothers hne).2]
      refine (h.served t' (hpc t' hne ▸ ht') hnot).imp_right ?_
      rintro ⟨l, n, c, hl⟩
      have hne' : l ≠ t := by
        rintro rfl
        apply hbefore
        obtain hl | hl := hl <;> simp [Leads, hl]
      exact ⟨l, n, c, by rw [hpc l hne', hnext]; exact hl⟩

theorem Token.front_of_queued (h : s.Token) (hl : s.Leads t) (hq : s.Queued t) : s.next t = s.front s.queue := by
  have hp := h.placed t hl
  cases hpc : s.pc t <;> simp only [Placed, hpc] at hp <;> simp only [Leads, hpc] at hl
  case woken => exact hp.2
  case combining => rw [(hp.2 hq).1, hp.1]
  case helping =>
    obtain ⟨x, q, hx, -, -, rfl | ⟨hnot, -⟩⟩ := hp
    · rw [hx]
      rfl
    · exact absurd hq hnot
  all_goals exact absurd hq hp.1

theorem Token.not_inService (h : s.Token) (hl : s.Leads t)
    (hpc : ∀ p n c, s.pc t ≠ .completing p n c ∧ s.pc t ≠ .releasing p n c) (t' : T) : ¬ s.InService t' := by
  rintro ⟨l, n, c, hs⟩
  have hleads : s.Leads l := by obtain hs | hs := hs <;> simp [Leads, hs]
  obtain rfl := h.one l t hleads hl
  obtain hs | hs := hs
  · exact (hpc _ _ _).1 hs
  · exact (hpc _ _ _).2 hs

theorem Token.locked_of_inService (h : s.Token) (hshape : s.Shape) (ht : s.InService t)
    (hpc : s.pc t = .spinning ∨ s.pc t = .woken) : (s.node (s.next t)).locked = true := by
  obtain ⟨l, n, c, hs⟩ := ht
  have hleads : s.Leads l := by obtain hs | hs := hs <;> simp [Leads, hs]
  have hserved : ∃ b, s.Served l (s.next t) b := by
    have hp := h.placed l hleads
    obtain hs | hs := hs <;> simp only [Placed, hs] at hp
    · exact ⟨_, hp.2.2⟩
    · exact ⟨_, hp.2.2⟩
  obtain ⟨b, o, heq, -, rfl | ⟨-, hlocked, -⟩⟩ := hserved
  · obtain rfl := hshape.inj heq
    obtain hs | hs := hs <;> simp [hs] at hpc
  · exact hlocked

theorem Token.lead (h : s.Token) (hl : s.Leads t) (hnext : s'.next = s.next) (htail : s'.tail = s.tail)
    (hqueue : s'.queue = s.queue) (hnode : s'.node = s.node) (hpc : ∀ t', t' ≠ t → s'.pc t' = s.pc t')
    (hafter : s'.Leads t) (hplaced : s'.Placed t)
    (hbusy : ∀ p n c, s.pc t ≠ .completing p n c ∧ s.pc t ≠ .releasing p n c)
    (hwoken : s'.pc t ≠ .woken) : s'.Token := by
  have hqueued : s'.Queued = s.Queued := by funext t'; rw [Queued, Queued, hqueue]
  have hfront : s'.front s'.queue = s.front s.queue := by
    rw [hqueue]
    exact front_congr (fun _ _ => by rw [hnext]) htail
  have hnodes : s'.nodes s'.queue = s.nodes s.queue := by
    rw [hqueue]
    exact nodes_congr hnext htail
  have hleads : ∀ t', s'.Leads t' ↔ s.Leads t' := fun t' => by
    obtain rfl | hne := eq_or_ne t' t
    · exact iff_of_true hafter hl
    · exact leads_congr (hpc t' hne) fun _ => by rw [hnext, hnode]
  have hcases : ∀ {t' pc}, s'.pc t' = pc → (s'.Leads t → s'.pc t ≠ pc) →
    s.pc t' = pc := fun {t' pc} ht' hne => by
    rw [← hpc t' ?_, ht']
    rintro rfl
    exact hne hafter ht'
  refine ⟨fun t₁ t₂ h₁ h₂ => h.one t₁ t₂ ((hleads t₁).mp h₁) ((hleads t₂).mp h₂), ?_, ?_, ?_,
    ?_, ?_, ?_, ?_⟩
  · intro l hl'
    obtain rfl := h.one l t ((hleads l).mp hl') hl
    exact hplaced
  · rw [hnodes, hnode]
    exact h.completed
  · rw [hnodes, hnode]
    exact h.locked
  · rw [hfront, hnode, h.locked_front, hqueued]
    simp only [hleads]
  · intro t' a ht'
    rw [hnode, hnext]
    refine h.fresh t' a (hcases ht' fun hl' hs => ?_)
    simp [Leads, hs] at hl'
  · intro t' ht'
    rw [hnode, hnext]
    exact h.woken t' (hcases ht' fun _ => hwoken)
  · intro t' ht' hnot
    rw [hqueued] at hnot
    rw [hnode, hnext]
    have hbefore : s.pc t' = .spinning ∨ s.pc t' = .woken := by
      refine ht'.imp (fun hs => hcases hs fun hl' hs => ?_) fun hs => hcases hs fun _ => hwoken
      simp [Leads, hs] at hl'
    exact Or.inl ((h.served t' hbefore hnot).resolve_right (h.not_inService hl hbusy t'))

variable [DecidableEq T]

theorem Token.initNode (h : s.Token) (hshape : s.Shape) (hpc : s.pc t = .idle) (a : A) : (s.initNode t a).Token := by
  have hout : ¬ s.Queued t := hshape.outside t (by rw [hpc]; trivial)
  have hpc' : (s.initNode t a).pc t = .swapping a := setPc_pc_self ..
  refine h.follow (t := t) rfl rfl rfl (fun t' hne => setPc_pc_of_ne _ _ hne) ?_ ?_ ?_ ?_ ?_ ?_ ?_
  · intro x hx
    have hne : x ≠ s.next t := by
      rintro rfl
      obtain hx | ⟨o, ho, heq⟩ := hx
      · exact hshape.next_notMem_nodes hout hx
      · exact ho (hshape.inj heq.symm)
    rw [initNode_node_of_ne s a hne]
    exact ⟨rfl, rfl⟩
  · simp [Leads, hpc]
  · simp [Leads, hpc']
  · simp [hpc]
  · intro a' _
    rw [initNode_node_self]
    exact ⟨rfl, rfl⟩
  · simp [hpc']
  · simp [hpc']

theorem Token.store (h : s.Token) {f : AioNode T A → AioNode T A} {pc : Pc T A}
    (hf : ∀ x, (f x).locked = x.locked ∧ (f x).completed = x.completed) (hqueued : s.Queued t)
    (hbefore : (s.pc t).nextNode ≠ none) (hafter : pc = .linking n ∨ pc = .spinning) :
    ((s.setNode (s.next t) f).setPc t pc).Token := by
  have hpc' : ((s.setNode (s.next t) f).setPc t pc).pc t = pc := setPc_pc_self ..
  refine h.follow (t := t) rfl rfl rfl (fun t' hne => setPc_pc_of_ne _ _ hne) ?_ ?_ ?_ ?_ ?_ ?_ ?_
  · intro x _
    obtain rfl | hne := eq_or_ne x (s.next t)
    · rw [show ((s.setNode (s.next t) f).setPc t pc).node _ = _ from setNode_node_self ..]
      exact hf _
    · rw [show ((s.setNode (s.next t) f).setPc t pc).node x = s.node x from setNode_node_of_ne _ _ hne]
      exact ⟨rfl, rfl⟩
  · unfold Leads
    cases hpc : s.pc t <;> simp [hpc, Pc.nextNode] at hbefore ⊢
  · obtain rfl | rfl := hafter <;> simp [Leads]
  · intro hpc
    simp [hpc, Pc.nextNode] at hbefore
  · rw [hpc']
    obtain rfl | rfl := hafter <;> simp
  · rw [hpc']
    obtain rfl | rfl := hafter <;> simp
  · exact fun _ hnot => absurd hqueued hnot

theorem Token.return (h : s.Token) (hpc : s.pc t = .woken) (hcompleted : (s.node (s.next t)).completed = true) :
    (s.setPc t .idle).Token := by
  refine h.follow (t := t) rfl rfl rfl (fun t' hne => setPc_pc_of_ne _ _ hne)
    (fun _ _ => ⟨rfl, rfl⟩) ?_ ?_ ?_ ?_ ?_ ?_
  · simp [Leads, hpc, hcompleted]
  · simp [Leads]
  · simp [hpc]
  · simp
  · simp
  · simp

omit [DecidableEq T] in
theorem Token.front_of_unlocked (h : s.Token) (hshape : s.Shape) (hpc : s.pc t = .spinning)
    (hunlocked : (s.node (s.next t)).locked = false) (hq : s.Queued t) :
    s.next t = s.front s.queue ∧ ∀ l, ¬ s.Leads l := by
  have hfront : s.next t = s.front s.queue := by
    have hmem : s.next t ∈ s.nodes s.queue := mem_nodes.mpr (Or.inl ⟨t, hq, rfl⟩)
    rw [nodes_eq_cons] at hmem
    obtain heq | hmem := List.mem_cons.mp hmem
    · exact heq
    · have hlocked := h.locked _ hmem
      simp [hunlocked] at hlocked
  refine ⟨hfront, fun l hl => ?_⟩
  by_cases hlq : s.Queued l
  · obtain rfl := hshape.inj (hfront.trans (h.front_of_queued hl hlq).symm)
    simp [Leads, hpc] at hl
  · have hlocked := h.locked_front.mpr ⟨l, hl, hlq⟩
    rw [← hfront, hunlocked] at hlocked
    cases hlocked

theorem Token.wake (h : s.Token) (hshape : s.Shape) (hpc : s.pc t = .spinning)
    (hunlocked : (s.node (s.next t)).locked = false) : (s.setPc t .woken).Token := by
  have hothers : ∀ {t'}, t' ≠ t → (s.setPc t .woken).pc t' = s.pc t' := fun hne => setPc_pc_of_ne _ _ hne
  by_cases hq : s.Queued t
  · -- the new leader
    obtain ⟨hfront, hnone⟩ := h.front_of_unlocked hshape hpc hunlocked hq
    have honly : ∀ {l}, (s.setPc t .woken).Leads l → l = t := fun {l} hl => by
      by_contra hne
      exact hnone l ((leads_congr (hothers hne) fun _ => rfl).mp hl)
    refine ⟨fun t₁ t₂ h₁ h₂ => (honly h₁).trans (honly h₂).symm, ?_, h.completed, h.locked, ?_,
      ?_, ?_, ?_⟩
    · intro l hl
      obtain rfl := honly hl
      simp only [Placed, setPc_pc_self]
      exact ⟨hq, hfront⟩
    · refine iff_of_false ?_ ?_
      · show ¬ (s.node (s.front s.queue)).locked = true
        simp [← hfront, hunlocked]
      · rintro ⟨l, hl, hnot⟩
        obtain rfl := honly hl
        exact hnot hq
    · intro t' a ht'
      refine h.fresh t' a ((hothers ?_).symm.trans ht')
      rintro rfl
      simp at ht'
    · intro t' ht'
      obtain rfl | hne := eq_or_ne t' t
      · exact hunlocked
      · exact h.woken t' ((hothers hne).symm.trans ht')
    · intro t' ht' hnot
      have hne : t' ≠ t := fun heq => hnot (heq ▸ hq)
      rw [hothers hne] at ht'
      refine Or.inl ((h.served t' ht' hnot).resolve_right ?_)
      rintro ⟨l, n, c, hl⟩
      apply hnone l
      obtain hl | hl := hl <;> simp [Leads, hl]
  · -- a follower, for the leader is done with its node
    have hcompleted : (s.node (s.next t)).completed = true := by
      obtain hs | hs := h.served t (Or.inl hpc) hq
      · exact hs.1
      · have hlocked := h.locked_of_inService hshape hs (Or.inl hpc)
        simp [hunlocked] at hlocked
    refine h.follow (t := t) rfl rfl rfl (fun t' hne => hothers hne) (fun _ _ => ⟨rfl, rfl⟩) ?_ ?_
      (fun _ => hunlocked) ?_ (fun _ => hunlocked) fun _ _ => ⟨hcompleted, hunlocked⟩
    · simp [Leads, hpc]
    · simp [Leads, hcompleted]
    · simp

section swap
variable [DecidableEq A]

theorem Placed.swapTail {l : T} (h : s.Placed l) (hout : ¬ s.Queued t) (hne : l ≠ t) (hpc : s.pc t = .swapping a) :
    (s.swapTail t a).Placed l := by
  have hqueued : ∀ {o}, o ≠ t → ((s.swapTail t a).Queued o ↔ s.Queued o) := fun ho => by
    rw [queued_swapTail, or_iff_left ho]
  have hfront : (s.swapTail t a).front (s.swapTail t a).queue = s.front s.queue := front_swapTail a hout
  have hserved : ∀ {p b}, s.Served l p b → (s.swapTail t a).Served l p b := by
    rintro p b ⟨o, rfl, ho, hor⟩
    have hot : o ≠ t := by
      rintro rfl
      obtain rfl | ⟨hs, -⟩ := hor
      · exact hne rfl
      · simp [hpc] at hs
    refine ⟨o, (s.swapTail_next_of_ne a hot).symm, (hqueued hot).not.mpr ho, ?_⟩
    rw [swapTail_pc_of_ne s a hot]
    exact hor
  cases hs : s.pc l <;> simp only [Placed, swapTail_pc_of_ne s a hne, hs, hqueued hne, hfront,
    swapTail_next_of_ne s a hne] at h ⊢
  case helping =>
    obtain ⟨x, q, hx, hp, hn, hor⟩ := h
    have hmem : t ∉ (x :: q).map Prod.fst := hx ▸ hout
    have hxt : x.1 ≠ t := fun heq => hmem (by simp [heq])
    refine ⟨x, q ++ [(t, a)], ?_, ?_, ?_, ?_⟩
    · simp [Combiner.swapTail, hx]
    · rw [swapTail_next_of_ne s a hxt, hp]
    · rw [front_swapTail a fun hq => hmem (List.mem_cons_of_mem _ hq), hn]
    · rw [swapTail_pc_of_ne s a hxt]
      exact hor
  case completing => exact ⟨h.1, h.2.1, hserved h.2.2⟩
  case releasing => exact ⟨h.1, h.2.1, hserved h.2.2⟩
  all_goals exact h

theorem Token.swapTail (h : s.Token) (hshape : s.Shape) (hpc : s.pc t = .swapping a) : (s.swapTail t a).Token := by
  have hout : ¬ s.Queued t := hshape.outside t (by rw [hpc]; trivial)
  have hfresh := h.fresh t a hpc
  have hnodes : (s.swapTail t a).nodes (s.swapTail t a).queue = s.nodes s.queue ++ [s.next t] :=
    nodes_swapTail a hout
  have hne : ∀ {t'}, (s.swapTail t a).Leads t' → t' ≠ t := by
    rintro t' ht' rfl
    simp [Leads] at ht'
  have hleads : ∀ {t'}, t' ≠ t → ((s.swapTail t a).Leads t' ↔ s.Leads t') := fun hne =>
    leads_congr (swapTail_pc_of_ne s a hne) fun _ => by rw [swapTail_next_of_ne s a hne]; rfl
  have hcases : ∀ {t' pc}, (s.swapTail t a).pc t' = pc → pc.nextNode = none → t' ≠ t ∧ s.pc t' = pc := by
    intro t' pc ht' hpc'
    refine pc_before (fun _ => swapTail_pc_of_ne s a) (swapTail_pc_self ..) ht' ?_
    rintro rfl
    simp [Pc.nextNode] at hpc'
  refine ⟨fun t₁ t₂ h₁ h₂ => h.one t₁ t₂ ((hleads (hne h₁)).mp h₁) ((hleads (hne h₂)).mp h₂),
    ?_, ?_, ?_, ?_, ?_, ?_, ?_⟩
  · intro l hl
    exact (h.placed l ((hleads (hne hl)).mp hl)).swapTail hout (hne hl) hpc
  · intro x hx
    rw [hnodes] at hx
    obtain hx | hx := List.mem_append.mp hx
    · exact h.completed x hx
    · obtain rfl := List.mem_singleton.mp hx
      exact hfresh.2
  · intro x hx
    rw [hnodes, nodes_eq_cons] at hx
    obtain hx | hx := List.mem_append.mp hx
    · exact h.locked x hx
    · obtain rfl := List.mem_singleton.mp hx
      exact hfresh.1
  · rw [show (s.swapTail t a).front (s.swapTail t a).queue = s.front s.queue from front_swapTail a hout]
    refine h.locked_front.trans (exists_congr fun l => ?_)
    rw [queued_swapTail, not_or]
    constructor
    · rintro ⟨hl, hnot⟩
      have hlt : l ≠ t := by
        rintro rfl
        simp [Leads, hpc] at hl
      exact ⟨(hleads hlt).mpr hl, hnot, hlt⟩
    · rintro ⟨hl, hnot, hlt⟩
      exact ⟨(hleads hlt).mp hl, hnot⟩
  · intro t' a' ht'
    obtain ⟨hne, ht'⟩ := hcases ht' rfl
    rw [swapTail_next_of_ne s a hne]
    exact h.fresh t' a' ht'
  · intro t' ht'
    obtain ⟨hne, ht'⟩ := hcases ht' rfl
    rw [swapTail_next_of_ne s a hne]
    exact h.woken t' ht'
  · intro t' ht' hnot
    obtain ⟨hne, ht'⟩ : t' ≠ t ∧ (s.pc t' = .spinning ∨ s.pc t' = .woken) := by
      obtain hs | hs := ht'
      · exact ⟨(hcases hs rfl).1, Or.inl (hcases hs rfl).2⟩
      · exact ⟨(hcases hs rfl).1, Or.inr (hcases hs rfl).2⟩
    rw [queued_swapTail, not_or] at hnot
    rw [swapTail_next_of_ne s a hne]
    refine (h.served t' ht' hnot.1).imp_right ?_
    rintro ⟨l, n, c, hl⟩
    have hlt : l ≠ t := by
      rintro rfl
      simp [hpc] at hl
    refine ⟨l, n, c, ?_⟩
    rw [swapTail_pc_of_ne s a hlt, swapTail_next_of_ne s a hne]
    exact hl

end swap

theorem Token.only {l : T} (h : s.Token) (hl : s.Leads l) (ht : s'.Leads t) (hnext : s'.next = s.next)
    (hpc : ∀ t', t' ≠ l → s'.pc t' = s.pc t')
    (hcompleted : ∀ x, (s'.node x).completed = false → (s.node x).completed = false) : t = l := by
  by_contra hne
  refine hne (h.one t l ?_ hl)
  unfold Leads at ht ⊢
  rw [hpc t hne, hnext] at ht
  cases hs : s.pc t <;> simp only [hs] at ht ⊢
  exact hcompleted _ ht

theorem Token.batchingIo {l : T} {counter : ℕ} {x : T × A} (h : s.Token) (hshape : s.Shape)
    (hpc : s.pc l = .helping (s.next x.1) n counter) (hqueue : s.queue = x :: q) (hn : n = s.front q)
    (hx : x.1 = l ∨ ¬ s.Queued l ∧ s.pc x.1 = .spinning ∧ (s.node (s.next x.1)).locked = true) (a : A) :
    (s.batchingIo l a (.completing (s.next x.1) n counter)).Token := by
  have hl : s.Leads l := by simp [Leads, hpc]
  have hpc' : (s.batchingIo l a (.completing (s.next x.1) n counter)).pc l = .completing (s.next x.1) n counter :=
    setPc_pc_self ..
  have hothers : ∀ t', t' ≠ l → (s.batchingIo l a (.completing (s.next x.1) n counter)).pc t' = s.pc t' :=
    fun t' hne => setPc_pc_of_ne _ _ hne
  have hqueue' : (s.batchingIo l a (.completing (s.next x.1) n counter)).queue = q := congrArg List.tail hqueue
  generalize hs' : s.batchingIo l a (.completing (s.next x.1) n counter) = s' at *
  have hnode : s'.node = s.node := hs' ▸ rfl
  have hnext : s'.next = s.next := hs' ▸ rfl
  have htail : s'.tail = s.tail := hs' ▸ rfl
  have hfront : s'.front q = n := hn ▸ front_congr (fun _ _ => by rw [hnext]) htail
  have hnodes : s'.nodes q = (s.nodes s.queue).tail := by
    rw [hqueue]
    exact nodes_congr hnext htail
  have hqueued : ∀ {t'}, s.Queued t' ↔ t' = x.1 ∨ s'.Queued t' := fun {t'} => by
    rw [Queued, Queued, hqueue, hqueue']
    simp
  have hnotx : ¬ s'.Queued x.1 := by
    have hnodup := hshape.nodup
    rw [hqueue] at hnodup
    rw [Queued, hqueue']
    exact hnodup.notMem
  have hnotl : ¬ s'.Queued l := by
    obtain rfl | ⟨hnot, -⟩ := hx
    · exact hnotx
    · exact fun hq => hnot (hqueued.mpr (Or.inr hq))
  have hleads : s'.Leads l := by simp [Leads, hpc']
  have honly : ∀ {t'}, s'.Leads t' → t' = l := fun ht' => h.only hl ht' hnext hothers fun _ => by
    rw [hnode]; exact id
  have hcases : ∀ {t' pc}, s'.pc t' = pc → pc ≠ .completing (s.next x.1) n counter →
    s.pc t' = pc := fun ht' hne =>
    (pc_before hothers hpc' ht' hne).2
  refine ⟨fun t₁ t₂ h₁ h₂ => (honly h₁).trans (honly h₂).symm, ?_, ?_, ?_, ?_, ?_, ?_, ?_⟩
  · intro l' hl'
    obtain rfl := honly hl'
    simp only [Placed, hpc']
    refine ⟨hnotl, by rw [hqueue', hfront], x.1, by rw [hnext], hnotx, hx.imp_right fun hother => ?_⟩
    obtain ⟨-, hspin, hlocked⟩ := hother
    have hne : x.1 ≠ l' := by
      rintro rfl
      simp [hpc] at hspin
    have hmem : s.next x.1 ∈ s.nodes s.queue := mem_nodes.mpr (Or.inl ⟨x.1, hqueued.mpr (Or.inl rfl), rfl⟩)
    rw [hothers _ hne, hnode]
    exact ⟨hspin, hlocked, h.completed _ hmem⟩
  · rw [hqueue', hnodes, hnode]
    exact fun y hy => h.completed y (List.mem_of_mem_tail hy)
  · rw [hqueue', hnodes, hnode]
    exact fun y hy => h.locked y (List.mem_of_mem_tail hy)
  · rw [hqueue', hfront, hnode]
    refine iff_of_true (h.locked _ ?_) ⟨l, hleads, hnotl⟩
    rw [hqueue, hn]
    exact s.front_mem_nodes_tail x q
  · intro t' a' ht'
    rw [hnode, hnext]
    exact h.fresh t' a' (hcases ht' (by simp))
  · intro t' ht'
    rw [hnode, hnext]
    exact h.woken t' (hcases ht' (by simp))
  · intro t' ht' hnot
    rw [hnode, hnext]
    by_cases heq : t' = x.1
    · exact Or.inr ⟨l, n, counter, Or.inl (by rw [hpc', hnext, heq])⟩
    · have hbefore : s.pc t' = .spinning ∨ s.pc t' = .woken :=
        ht'.imp (fun hs => hcases hs (by simp)) fun hs => hcases hs (by simp)
      have hnot' : ¬ s.Queued t' := fun hq => (hqueued.mp hq).elim heq hnot
      refine Or.inl ((h.served t' hbefore hnot').resolve_right (h.not_inService hl (fun _ _ _ => ?_) t'))
      simp [hpc]

theorem Token.mark {l : T} {b : Bool} {counter : ℕ} {f : AioNode T A → AioNode T A} {pc : Pc T A}
    (h : s.Token) (hshape : s.Shape)
    (hpc : s.pc l = .completing p n counter ∨ s.pc l = .releasing p n counter) (hnot : ¬ s.Queued l)
    (hserved : s.Served l p b)
    (hlocked : ∀ x, x.locked = false → (f x).locked = false)
    (hcompleted : ∀ x, (f x).completed = false → x.completed = false)
    (hleads : ((s.setNode p f).setPc l pc).Leads l) (hplaced : ((s.setNode p f).setPc l pc).Placed l)
    (hwoken : pc ≠ .woken)
    (hmine : ∀ t', p = s.next t' → s.pc t' = .spinning → (f (s.node p)).completed = true ∧
      (f (s.node p)).locked = false ∨ ((s.setNode p f).setPc l pc).InService t') :
    ((s.setNode p f).setPc l pc).Token := by
  have hl : s.Leads l := by obtain hpc | hpc := hpc <;> simp [Leads, hpc]
  have hothers : ∀ t', t' ≠ l → ((s.setNode p f).setPc l pc).pc t' = s.pc t' :=
    fun t' hne => setPc_pc_of_ne _ _ hne
  have hself : ((s.setNode p f).setPc l pc).node p = f (s.node p) := setNode_node_self ..
  have hnode : ∀ x, x ≠ p → ((s.setNode p f).setPc l pc).node x = s.node x :=
    fun x hne => setNode_node_of_ne _ _ hne
  have hpcl : ((s.setNode p f).setPc l pc).pc l = pc := setPc_pc_self ..
  have hnodes : ((s.setNode p f).setPc l pc).nodes ((s.setNode p f).setPc l pc).queue = s.nodes s.queue := rfl
  have hfront : ((s.setNode p f).setPc l pc).front ((s.setNode p f).setPc l pc).queue = s.front s.queue :=
    front_congr (fun _ _ => rfl) rfl
  generalize hs' : (s.setNode p f).setPc l pc = s' at *
  have hnext : s'.next = s.next := hs' ▸ rfl
  have hqueued : s'.Queued = s.Queued := hs' ▸ rfl
  -- the node is not in the queue, and its call spins or is that of the leader
  obtain ⟨o, rfl, ho, hor⟩ := hserved
  have hne_nodes : ∀ {x}, x ∈ s.nodes s.queue → x ≠ s.next o := fun hx heq =>
    hshape.next_notMem_nodes ho (heq ▸ hx)
  have hcases : ∀ {t' pc'}, s'.pc t' = pc' → pc' ≠ pc → t' ≠ l ∧ s.pc t' = pc' := pc_before hothers hpcl
  have honly : ∀ {t'}, s'.Leads t' → t' = l := by
    refine fun ht' => h.only hl ht' hnext hothers fun x hx => ?_
    by_cases heq : x = s.next o
    · rw [heq, hself] at hx
      rw [heq]
      exact hcompleted _ hx
    · rwa [hnode x heq] at hx
  refine ⟨fun t₁ t₂ h₁ h₂ => (honly h₁).trans (honly h₂).symm, ?_, ?_, ?_, ?_, ?_, ?_, ?_⟩
  · intro l' hl'
    obtain rfl := honly hl'
    exact hplaced
  · intro x hx
    rw [hnodes] at hx
    rw [hnode x (hne_nodes hx)]
    exact h.completed x hx
  · intro x hx
    rw [hnodes] at hx
    rw [hnode x (hne_nodes (List.mem_of_mem_tail hx))]
    exact h.locked x hx
  · rw [hfront, hnode _ (hne_nodes (s.front_mem_nodes _)), hqueued]
    exact iff_of_true (h.locked_front.mpr ⟨l, hl, hnot⟩) ⟨l, hleads, hnot⟩
  · intro t' a' ht'
    obtain ⟨htl, ht'⟩ := hcases ht' (by rintro rfl; simp [Leads, hpcl] at hleads)
    have hto : t' ≠ o := by
      rintro rfl
      obtain rfl | ⟨hs, -⟩ := hor
      · exact htl rfl
      · simp [ht'] at hs
    rw [hnext, hnode _ fun heq => hto (hshape.inj heq)]
    exact h.fresh t' a' ht'
  · intro t' ht'
    obtain ⟨-, ht'⟩ := hcases ht' hwoken.symm
    rw [hnext]
    by_cases heq : s.next t' = s.next o
    · rw [heq, hself]
      exact hlocked _ (heq ▸ h.woken t' ht')
    · rw [hnode _ heq]
      exact h.woken t' ht'
  · intro t' ht' hnot'
    have hbefore : t' ≠ l ∧ (s.pc t' = .spinning ∨ s.pc t' = .woken) := by
      obtain hs | hs := ht'
      · obtain ⟨htl, hs⟩ := hcases hs (by rintro rfl; simp [Leads, hpcl] at hleads)
        exact ⟨htl, Or.inl hs⟩
      · obtain ⟨htl, hs⟩ := hcases hs hwoken.symm
        exact ⟨htl, Or.inr hs⟩
    rw [hnext]
    by_cases heq : t' = o
    · subst heq
      obtain heq | ⟨hs, -⟩ := hor
      · exact absurd heq hbefore.1
      · rw [hself]
        exact hmine t' rfl hs
    · have hne : s.next t' ≠ s.next o := fun h => heq (hshape.inj h)
      rw [hnode _ hne]
      refine Or.inl ((h.served t' hbefore.2 (hqueued ▸ hnot')).resolve_right ?_)
      rintro ⟨l', n', c', hl'⟩
      have hl'' : s.Leads l' := by obtain hl' | hl' := hl' <;> simp [Leads, hl']
      obtain rfl := h.one l' l hl'' hl
      obtain hpc | hpc := hpc <;> simp only [hpc, Pc.completing.injEq, Pc.releasing.injEq, reduceCtorEq, or_false,
        false_or] at hl' <;> exact hne hl'.1.symm

theorem Token.complete {l : T} {counter : ℕ} (h : s.Token) (hshape : s.Shape)
    (hpc : s.pc l = .completing p n counter) :
    ((s.setNode p fun x => { x with completed := true }).setPc l (.releasing p n counter)).Token := by
  have hplaced := h.placed l (by simp [Leads, hpc])
  simp only [Placed, hpc] at hplaced
  obtain ⟨hnot, hn, hserved⟩ := hplaced
  refine h.mark hshape (Or.inl hpc) hnot hserved (fun _ => id) (by simp) (by simp [Leads]) ?_ (by simp) ?_
  · simp only [Placed, setPc_pc_self]
    obtain ⟨o, ho, hnoto, hor⟩ := hserved
    refine ⟨hnot, hn.trans (front_congr (fun _ _ => rfl) rfl), o, ho, hnoto, hor.imp_right ?_⟩
    rintro ⟨hs, hlocked, -⟩
    have hne : o ≠ l := by
      rintro rfl
      simp [hpc] at hs
    rw [setPc_pc_of_ne _ _ hne, setPc_node, setNode_node_self]
    exact ⟨hs, hlocked, rfl⟩
  · intro t' ht' _
    exact Or.inr ⟨l, n, counter, Or.inr (by rw [setPc_pc_self, ht']; rfl)⟩

theorem Token.release {l : T} {counter : ℕ} (h : s.Token) (hshape : s.Shape)
    (hpc : s.pc l = .releasing p n counter) :
    ((s.setNode p fun x => { x with locked := false }).setPc l (.combining n counter)).Token := by
  have hplaced := h.placed l (by simp [Leads, hpc])
  simp only [Placed, hpc] at hplaced
  obtain ⟨hnot, hn, hserved⟩ := hplaced
  refine h.mark hshape (Or.inr hpc) hnot hserved (by simp) (fun _ => id) (by simp [Leads]) ?_ (by simp) ?_
  · simp only [Placed, setPc_pc_self]
    exact ⟨hn.trans (front_congr (fun _ _ => rfl) rfl), fun hq => absurd hq hnot⟩
  · intro t' ht' hs
    obtain ⟨o, ho, -, rfl | ⟨-, -, hcompleted⟩⟩ := hserved
    · obtain rfl := hshape.inj (ht'.symm.trans ho)
      simp [hpc] at hs
    · exact Or.inl ⟨hcompleted, rfl⟩

theorem Token.not_leads_unlock {l : T} (h : s.Token) (hpc : s.pc l = .unlocking p) (t : T) :
    ¬ ((s.setNode p fun x => { x with locked := false }).setPc l .idle).Leads t := by
  intro ht
  have hl : s.Leads l := by simp [Leads, hpc]
  have heq : t = l := h.only hl ht rfl (fun t' hne => setPc_pc_of_ne _ _ hne) fun x hx => by
    rw [setPc_node] at hx
    obtain rfl | hne := eq_or_ne x p
    · simpa using hx
    · rwa [setNode_node_of_ne _ _ hne] at hx
  subst heq
  simp [Leads] at ht

theorem Token.unlock {l : T} (h : s.Token) (hshape : s.Shape) (hpc : s.pc l = .unlocking p) :
    ((s.setNode p fun x => { x with locked := false }).setPc l .idle).Token := by
  have hl : s.Leads l := by simp [Leads, hpc]
  have hplaced := h.placed l hl
  simp only [Placed, hpc] at hplaced
  obtain ⟨hnot, rfl⟩ := hplaced
  have hpcl : ((s.setNode (s.front s.queue) fun x => { x with locked := false }).setPc l .idle).pc l = .idle :=
    setPc_pc_self ..
  have hothers : ∀ t', t' ≠ l →
    ((s.setNode (s.front s.queue) fun x => { x with locked := false }).setPc l .idle).pc t'
      = s.pc t' := fun t' hne => setPc_pc_of_ne _ _ hne
  have hself : (((s.setNode (s.front s.queue) fun x => { x with locked := false }).setPc l .idle).node
      (s.front s.queue)) = { s.node (s.front s.queue) with locked := false } := by
    rw [setPc_node, setNode_node_self]
  have hnode : ∀ x, x ≠ s.front s.queue →
      ((s.setNode (s.front s.queue) fun x => { x with locked := false }).setPc l .idle).node x = s.node x :=
    fun x hne => by rw [setPc_node, setNode_node_of_ne _ _ hne]
  have hnone := h.not_leads_unlock hpc
  generalize hs' : (s.setNode (s.front s.queue) fun x => { x with locked := false }).setPc l .idle = s' at *
  have hnext : s'.next = s.next := hs' ▸ rfl
  have hqueue : s'.queue = s.queue := hs' ▸ rfl
  have hqueued : s'.Queued = s.Queued := hs' ▸ rfl
  have hnodes : s'.nodes s.queue = s.nodes s.queue := hs' ▸ rfl
  have hfront : s'.front s.queue = s.front s.queue := front_congr (fun _ _ => by rw [hnext]) (hs' ▸ rfl)
  have hcompleted : ∀ x, (s'.node x).completed = (s.node x).completed := fun x => by
    by_cases heq : x = s.front s.queue
    · rw [heq, hself]
    · rw [hnode x heq]
  have hcases : ∀ {t' pc}, s'.pc t' = pc → pc ≠ .idle → s.pc t' = pc := fun ht' hne =>
    (pc_before hothers hpcl ht' hne).2
  have hne_front : ∀ {t'}, ¬ s.Queued t' → s.next t' ≠ s.front s.queue := fun hq heq =>
    hshape.next_notMem_nodes hq (heq ▸ s.front_mem_nodes _)
  refine ⟨fun t₁ t₂ h₁ => absurd h₁ (hnone t₁), fun t' ht' => absurd ht' (hnone t'), ?_, ?_, ?_,
    ?_, ?_, ?_⟩
  · intro x hx
    rw [hqueue, hnodes] at hx
    rw [hcompleted]
    exact h.completed x hx
  · intro x hx
    rw [hqueue, hnodes] at hx
    have hnodup := hshape.nodup_nodes
    rw [nodes_eq_cons] at hnodup
    rw [hnode x fun heq => hnodup.notMem (heq ▸ hx)]
    exact h.locked x hx
  · rw [hqueue, hfront, hself]
    exact iff_of_false (by simp) fun ⟨t', ht', _⟩ => hnone t' ht'
  · intro t' a' ht'
    have ht' := hcases ht' (by simp)
    rw [hnext, hnode _ (hne_front (hshape.outside t' (by rw [ht']; trivial)))]
    exact h.fresh t' a' ht'
  · intro t' ht'
    rw [hnext]
    by_cases heq : s.next t' = s.front s.queue
    · rw [heq, hself]
    · rw [hnode _ heq]
      exact h.woken t' (hcases ht' (by simp))
  · intro t' ht' hnot'
    rw [hqueued] at hnot'
    rw [hnext, hnode _ (hne_front hnot')]
    have hbefore : s.pc t' = .spinning ∨ s.pc t' = .woken :=
      ht'.imp (fun hs => hcases hs (by simp)) fun hs => hcases hs (by simp)
    refine Or.inl ((h.served t' hbefore hnot').resolve_right (h.not_inService hl (fun _ _ _ => ?_) t'))
    simp [hpc]

end Hkv.AioQueue.Combiner
