import Hkv.DataSplit

/-!
# Removing from the data layer

A remove that leaves few entries in a node merges it with the next node or, if that one has
too many, with the previous one. Both merges turn two neighbours of the chain into one node
that holds the entries of both; they differ in which of the two leaves the chain.
-/
namespace Hkv.PacTree

open DoublyLinked RangePartition

namespace ListNode

variable {n : ListNode} {i : ℕ}

theorem getNumEntries_removeFromIndex_le : (n.removeFromIndex i).getNumEntries ≤ n.getNumEntries := by
  refine List.countP_mono_left fun j _ hj => ?_
  rw [test_removeFromIndex, Bool.and_eq_true] at hj
  exact hj.1

theorem Full.getNumEntries (h : n.Full) : n.getNumEntries = maxEntries := by
  rw [ListNode.getNumEntries, List.countP_eq_length.mpr fun i hi => h i (List.mem_range.mp hi), List.length_range]

theorem absorb_setVersion {d : ListNode} {ver : ℕ} : (n.setVersion ver).absorb d = (n.absorb d).setVersion ver := by
  have hstep : ∀ (acc : ListNode × ℕ) (j : ℕ), absorbStep d (acc.1.setVersion ver, acc.2) j =
      ((absorbStep d acc j).1.setVersion ver, (absorbStep d acc j).2) := by
    intro acc j
    unfold absorbStep
    have htest : (fun j => !(acc.1.setVersion ver).test j) = fun j => !acc.1.test j := rfl
    dsimp only
    rw [htest]
    split_ifs
    · cases (List.range' acc.2 (maxEntries - acc.2)).find? (fun j => !acc.1.test j) with
      | none => rfl
      | some j => rfl
    · rfl
  exact congrArg Prod.fst (@List.foldl_hom _ _ _ (fun acc => (acc.1.setVersion ver, acc.2)) _ _ _ (n, 0) hstep)

theorem takeOver_setVersion {d : ListNode} {ver : ℕ} :
    (n.setVersion ver).takeOver d = (n.takeOver d).setVersion ver := by
  unfold takeOver
  rw [absorb_setVersion]
  rfl

end ListNode

namespace LinkedList

variable {c fuel key k v : ℕ} {l l' : LinkedList} {ps xs ys : List Ptr} {p q a b tail : Ptr}
    {m : OrderedMap ℕ ℕ}

/-- The node `a` has taken over the next node `b`; `A` and `B` are what the two nodes held. -/
structure MergedAt (l : LinkedList) (a b : Ptr) (A B : ListNode) (l' : LinkedList) : Prop where
  headPtr : l'.headPtr = l.headPtr
  size : l'.size = l.size
  log : l'.log = l.log
  node : l'.nodes a = (A.takeOver B).setVersion ((l.nodes a).verLock + 2)
  others : ∀ p, p ≠ a → p ≠ b →
    l'.nodes p = if l.next b = some p then (l.nodes p).setPrev (some a) else l.nodes p

/-- The entries of two neighbours. -/
structure Mergeable (l : LinkedList) (a b : Ptr) (A B : ListNode) : Prop where
  soundA : A.Sound
  soundB : B.Sound
  identity : ListNode.SameIdentity (l.nodes a) A
  headerA : A.min = l.low a ∧ A.prevPtr = l.prev a
  headerB : B.max = l.high b ∧ B.nextPtr = l.next b
  rangeA : ∀ k v, A.Holds k v → l.low a ≤ k ∧ k < l.high a
  rangeB : ∀ k v, B.Holds k v → l.low b ≤ k ∧ k < l.high b
  room : A.getNumEntries + B.getNumEntries ≤ maxEntries

/-- Two neighbours of the chain and the node behind them. -/
structure Neighbours (l : LinkedList) (behind : List Ptr) (a b nx : Ptr) : Prop where
  first : behind.head? = some nx
  nextA : (l.nodes a).nextPtr = some b
  prevB : (l.nodes b).prevPtr = some a
  nextB : (l.nodes b).nextPtr = some nx
  ab : a ≠ b
  ba : b ≠ a
  xa : nx ≠ a
  ax : a ≠ nx
  xb : nx ≠ b
  bx : b ≠ nx

variable {A B : ListNode} {i : ℕ}

theorem Mergeable.absorb (h : Mergeable l a b A B) (hab : l.high a ≤ l.low b) :
    (A.absorb B).Sound ∧ ∀ k v, (A.absorb B).Holds k v ↔ A.Holds k v ∨ B.Holds k v := by
  refine h.soundA.absorb h.soundB (fun k v v' hA hB => ?_) h.room
  exact Nat.lt_irrefl k (lt_of_lt_of_le (h.rangeA k v hA).2 (hab.trans (h.rangeB k v' hB).1))

section Merge

variable (h : Chain c l (xs ++ a :: b :: ys) tail)

include h

theorem Chain.second : Chain c l ((xs ++ [a]) ++ b :: ys) tail := by simpa using h

theorem Chain.exists_neighbours : ∃ nx, Neighbours l (ys ++ [tail]) a b nx := by
  have hb := h.second
  obtain ⟨nx, zs, hzs, hnext⟩ := hb.exists_next
  have hxb : nx ≠ b := hb.ne_of_mem (by grind)
  have hxa : nx ≠ a := h.ne_of_mem (by grind)
  have hba : b ≠ a := h.ne_of_mem (by simp)
  have hprev := hb.neighbours.1
  rw [List.getLast?_concat] at hprev
  exact ⟨nx, by rw [hzs, List.head?_cons], h.neighbours.2, hprev, hnext, hba.symm, hba, hxa, hxa.symm, hxb,
    hxb.symm⟩

theorem MergedAt.relinked (hl' : MergedAt l a b A B l') : Relinked l l' xs (ys ++ [tail]) a := by
  intro p hp
  rw [hl'.others p (h.ne_of_mem (by grind)) (h.second.ne_of_mem (by grind)), h.second.neighbours.2]

/-- The node `b` leaves the list: `a` and the node behind `b` point to each other. -/
theorem Chain.merge_linked (hAB : Mergeable l a b A B) (hl' : MergedAt l a b A B l') :
    Linked l'.next l'.prev none ((xs ++ [a]) ++ (ys ++ [tail])) none := by
  have hb := h.second
  have hrest := hl'.relinked h
  have hlinked := hb.linked
  have hnodup := hb.nodup
  rw [List.append_assoc, List.cons_append] at hlinked hnodup
  refine hlinked.remove hnodup (fun x hx => ?_) fun x hx => ?_
  · rw [List.getLast?_concat]
    by_cases hxa : x = a
    · rw [hxa, if_pos rfl, next, hl'.node]
      exact hAB.headerB.2
    · rw [if_neg (by simpa using Ne.symm hxa)]
      exact hrest.field ListNode.nextPtr (fun _ _ => rfl) (by grind)
  · rw [hb.neighbours.1, List.getLast?_concat]
    by_cases hxa : x = a
    · rw [if_neg fun hh => h.ne_of_mem (by grind [List.mem_of_head? hh]) hxa, hxa, prev, hl'.node]
      exact (ListNode.absorb_header A B).prevPtr.trans hAB.headerA.2
    · change (l'.nodes x).prevPtr = _
      rw [hrest x (by grind)]
      split_ifs
      · rfl
      · rfl

theorem Chain.merge_range (hAB : Mergeable l a b A B) (hkv : (A.absorb B).Holds k v) :
    l.low a ≤ k ∧ k < l.high b := by
  have hab : l.high a ≤ l.low b := h.ranges.order.2 b List.mem_cons_self
  rcases ((hAB.absorb hab).2 k v).mp hkv with hkv | hkv
  · have hk := hAB.rangeA k v hkv
    exact ⟨hk.1, lt_of_lt_of_le hk.2 (hab.trans h.second.ranges.bounds.2.1.le)⟩
  · have hk := hAB.rangeB k v hkv
    exact ⟨(h.ranges.bounds.2.1.le.trans hab).trans hk.1, hk.2⟩

theorem Chain.merge (hAB : Mergeable l a b A B) (hl' : MergedAt l a b A B l') :
    Chain (c + 1) l' (xs ++ a :: ys) tail := by
  have hrest := hl'.relinked h
  have hsound := (hAB.absorb (h.ranges.order.2 b List.mem_cons_self)).1
  have hheader := ListNode.absorb_header A B
  have hnode := h.node a (by simp)
  refine Chain.rebuild [a, b] [a] h hrest hl'.size.ge ?_ ?_ ?_ ?_ ?_
  · simpa using h.merge_linked hAB hl'
  · refine h.nodup.sublist ?_
    simp only [List.append_assoc, List.cons_append]
    exact (List.Sublist.refl xs).append ((List.sublist_cons_self b _).cons_cons a)
  · rw [hl'.headPtr, ← h.head]
    cases xs with
    | nil => rfl
    | cons x xs => rfl
  · refine h.ranges.join ?_ ?_ (fun r hr => ?_) fun r hr => ?_
    · rw [low, hl'.node]
      exact hheader.min.trans hAB.headerA.1
    · rw [high, hl'.node]
      exact hAB.headerB.1
    · exact hrest.field ListNode.min (fun _ _ => rfl) (by grind)
    · exact hrest.field ListNode.max (fun _ _ => rfl) (by grind)
  · rw [List.forall_mem_singleton, hl'.size, hl'.node]
    refine ⟨h.alloc a (by simp),
      hnode.written ⟨hsound.finger, hsound.distinct⟩ (fun k v hkv => ?_) ⟨?_, ?_, ?_, ?_⟩ rfl⟩
    · change (A.absorb B).min ≤ k ∧ k < B.max
      rw [hheader.min, hAB.headerA.1, hAB.headerB.1]
      exact h.merge_range hAB hkv
    · exact hheader.curPtr.trans hAB.identity.curPtr
    · exact hheader.deleted.trans hAB.identity.deleted
    · exact hheader.lastScanVersion.trans hAB.identity.lastScanVersion
    · exact hheader.pLock.trans hAB.identity.pLock

theorem MergedAt.exists_holds (hl' : MergedAt l a b A B l') (hAB : Mergeable l a b A B) :
    (∃ p ∈ xs ++ a :: ys, (l'.nodes p).Holds k v) ↔
      (∃ p ∈ xs ++ ys, (l.nodes p).Holds k v) ∨ A.Holds k v ∨ B.Holds k v := by
  obtain ⟨-, hholds⟩ := hAB.absorb (h.ranges.order.2 b List.mem_cons_self)
  rw [exists_mem_append_cons, hl'.node, (hl'.relinked h).exists_holds]
  exact or_congr_right (hholds k v)

theorem MergedAt.erase_second (hl' : MergedAt l a b A B l') (hAB : Mergeable l a b A B)
    (hm : Represents l ((xs ++ [a]) ++ b :: ys) m) (hkey : (l.nodes b).checkRange key = true)
    (hB : ∀ k v, B.Holds k v ↔ k ≠ key ∧ (l.nodes b).Holds k v) (hA : A = l.nodes a) :
    Represents l' (xs ++ a :: ys) (m.erase key) := by
  subst hA
  refine hm.erase h.second hkey (fun k v => ?_) hB
  rw [hl'.exists_holds h hAB, List.append_assoc, List.singleton_append, exists_mem_append_cons, or_assoc]

end Merge

/-! ### The section of a remove -/

/-- The list while the slot `i` of the locked node `q` is removed. -/
def removing (l : LinkedList) (q : Ptr) (i : ℕ) : LinkedList := (l.locked q).modify q fun n => n.removeFromIndex i

/-- The write section of a `remove` that finds its key in slot `i` of `q`. -/
def removeSection (l : LinkedList) (q : Ptr) (i : ℕ) : Option LinkedList :=
  ((l.removing q i).mergeIfSmall q (l.nodes q).getNumEntries).map fun l => l.writeUnlock q

theorem removing_self : (l.removing q i).nodes q =
    ((l.nodes q).removeFromIndex i).setVersion ((l.nodes q).verLock + 1) := by
  rw [removing, modify_nodes_self, locked, modify_nodes_self]
  rfl

theorem removing_of_ne (hp : p ≠ q) : (l.removing q i).nodes p = l.nodes p := by
  rw [removing, modify_nodes_of_ne hp, locked, modify_nodes_of_ne hp]

theorem next_removing : ((l.removing q i).nodes q).nextPtr = l.next q := by
  rw [removing_self]
  rfl

theorem prev_removing : ((l.removing q i).nodes q).prevPtr = l.prev q := by
  rw [removing_self]
  rfl

theorem Chain.section_mergeWithNext (h : Chain c l (xs ++ a :: b :: ys) tail) (hc : c < VersionedLock.period)
    (hsmall : (l.nodes a).getNumEntries + (l.nodes b).getNumEntries < maxEntries / 2) :
    ∃ l', l.removeSection a i = some l' ∧ MergedAt l a b ((l.nodes a).removeFromIndex i) (l.nodes b) l' ∧
      l'.nodes b = { (l.nodes b).setVersion ((l.nodes b).verLock + 1) with deleted := true } := by
  obtain ⟨nx, ⟨-, hnexta, -, hnextb, hab, hba, hxa, hax, hxb, hbx⟩⟩ := h.exists_neighbours
  have hnode := h.node b (by simp)
  have hb₁ : (l.removing a i).nodes b = l.nodes b := removing_of_ne hba
  rw [removeSection, mergeIfSmall, next_removing, next, hnexta, Option.bind_some, hb₁, if_pos hsmall, mergeWithNext,
    next_removing, next, hnexta, Option.bind_some, writeLock_of_atRest (by rw [hb₁]; exact hnode) hc, hb₁]
  dsimp only
  rw [if_neg (Nat.ne_of_gt hnode.free.2), modify_nodes_self, hb₁]
  change ∃ l', ((l.nodes b).nextPtr.map _).map _ = _ ∧ _
  rw [hnextb, Option.map_some, Option.map_some]
  refine ⟨_, rfl, ⟨rfl, rfl, rfl, ?_, fun p hpa hpb => ?_⟩, ?_⟩
  · simp (disch := assumption) only [LinkedList.writeUnlock, modify_nodes_self, modify_nodes_of_ne]
    rw [removing_self, ListNode.takeOver_setVersion]
    rfl
  · by_cases hp : nx = p
    · subst hp
      simp (disch := assumption) only [LinkedList.writeUnlock, modify_nodes_self, modify_nodes_of_ne, next, hnextb,
        if_true]
      rw [removing_of_ne hpa, removing_self]
      congr 2
      exact (ListNode.absorb_header _ _).curPtr.trans (h.node a (by simp)).cur
    · have hpx : p ≠ nx := Ne.symm hp
      simp (disch := assumption) only [LinkedList.writeUnlock, modify_nodes_of_ne, next, hnextb,
        Option.some.injEq, hp, if_false]
      exact removing_of_ne hpa
  · simp (disch := assumption) only [LinkedList.writeUnlock, modify_nodes_self, modify_nodes_of_ne]
    rw [hb₁]

theorem Chain.section_mergeWithPrev (h : Chain c l (xs ++ a :: b :: ys) tail) (hc : c < VersionedLock.period)
    (hbig : ∀ nx, l.next b = some nx → ¬ (l.nodes b).getNumEntries + (l.nodes nx).getNumEntries < maxEntries / 2)
    (hsmall : (l.nodes b).getNumEntries + (l.nodes a).getNumEntries < maxEntries / 2) :
    ∃ l', l.removeSection b i = some l' ∧ MergedAt l a b (l.nodes a) ((l.nodes b).removeFromIndex i) l' ∧
      l'.nodes b = ((l.nodes b).removeFromIndex i).setVersion ((l.nodes b).verLock + 2) := by
  obtain ⟨nx, ⟨-, -, hprevb, hnextb, hab, hba, hxa, hax, hxb, hbx⟩⟩ := h.exists_neighbours
  have hnode := h.node a (by simp)
  have ha₁ : (l.removing b i).nodes a = l.nodes a := removing_of_ne hab
  rw [removeSection, mergeIfSmall, next_removing, prev_removing, next, prev, hnextb, hprevb, Option.bind_some,
    removing_of_ne hxb, if_neg (hbig nx hnextb)]
  dsimp only
  rw [ha₁, if_pos hsmall, mergeWithPrev, prev_removing, prev, hprevb, Option.bind_some,
    writeLock_of_atRest (by rw [ha₁]; exact hnode) hc, ha₁]
  dsimp only
  rw [if_neg (Nat.ne_of_gt hnode.free.2), modify_nodes_of_ne hba, removing_self]
  change ∃ l', ((l.nodes b).nextPtr.map _).map _ = _ ∧ _
  rw [hnextb, Option.map_some, Option.map_some]
  refine ⟨_, rfl, ⟨rfl, rfl, rfl, ?_, fun p hpa hpb => ?_⟩, ?_⟩
  · simp (disch := assumption) only [LinkedList.writeUnlock, modify_nodes_self, modify_nodes_of_ne]
    rw [ha₁, ListNode.takeOver_setVersion]
    rfl
  · by_cases hp : nx = p
    · subst hp
      simp (disch := assumption) only [LinkedList.writeUnlock, modify_nodes_self, modify_nodes_of_ne, next, hnextb,
        if_true]
      rw [removing_of_ne hpb, ← hprevb]
      rfl
    · have hpx : p ≠ nx := Ne.symm hp
      simp (disch := assumption) only [LinkedList.writeUnlock, modify_nodes_of_ne, next, hnextb,
        Option.some.injEq, hp, if_false]
      exact removing_of_ne hpb
  · simp (disch := assumption) only [LinkedList.writeUnlock, modify_nodes_self, modify_nodes_of_ne]
    rw [removing_self]
    rfl

theorem Chain.section_erase (h : Chain c l (xs ++ q :: ys) tail) (hm : Represents l (xs ++ q :: ys) m)
    (hq : (l.nodes q).checkRange key = true) (hi : (l.nodes q).test i = true)
    (hkey : ((l.nodes q).keyArray i).1 = key) :
    Valid (c + 1) (l.modify q fun n => (n.removeFromIndex i).setVersion (n.verLock + 2)) tail (m.erase key) := by
  have hnode := h.node q (by simp)
  have hholds := fun k v => hnode.sound.holds_removeFromIndex (k := k) (v := v) hi hkey
  refine ⟨xs ++ q :: ys, h.modify (Nat.le_succ c) rfl rfl rfl rfl ?_, ?_⟩
  · exact hnode.written hnode.sound.removeFromIndex.setVersion
      (fun k v hkv => hnode.range k v ((hholds k v).mp hkv).2) ⟨rfl, rfl, rfl, rfl⟩ rfl
  · exact hm.erase h hq (fun k v => exists_holds_modify h.nodup_ps) hholds

theorem Chain.mergeable (h : Chain c l (xs ++ a :: b :: ys) tail)
    (hsmall : (l.nodes a).getNumEntries + (l.nodes b).getNumEntries < maxEntries / 2) :
    Mergeable l a b ((l.nodes a).removeFromIndex i) (l.nodes b) ∧
      Mergeable l a b (l.nodes a) ((l.nodes b).removeFromIndex i) := by
  have ha := h.node a (by simp)
  have hb := h.node b (by simp)
  have hsub : ∀ {n : ListNode} {k v : ℕ}, (n.removeFromIndex i).Holds k v → n.Holds k v := by
    rintro n k v ⟨j, hj, hkv⟩
    rw [ListNode.test_removeFromIndex, Bool.and_eq_true] at hj
    exact ⟨j, hj.1, hkv⟩
  have hlea := ListNode.getNumEntries_removeFromIndex_le (n := l.nodes a) (i := i)
  have hleb := ListNode.getNumEntries_removeFromIndex_le (n := l.nodes b) (i := i)
  unfold maxEntries at hsmall
  constructor
  · refine ⟨ha.sound.removeFromIndex, hb.sound, ⟨rfl, rfl, rfl, rfl⟩, ⟨rfl, rfl⟩, ⟨rfl, rfl⟩,
      fun k v hkv => ha.range k v (hsub hkv), hb.range, ?_⟩
    unfold maxEntries
    omega
  · refine ⟨ha.sound, hb.sound.removeFromIndex, ⟨rfl, rfl, rfl, rfl⟩, ⟨rfl, rfl⟩, ⟨rfl, rfl⟩, ha.range,
      fun k v hkv => hb.range k v (hsub hkv), ?_⟩
    unfold maxEntries
    omega

/-- The section of a `remove` that finds its key, with the merge that follows it. -/
theorem Chain.section_remove (h : Chain c l (xs ++ q :: ys) tail) (hm : Represents l (xs ++ q :: ys) m)
    (hc : c < VersionedLock.period) (hq : (l.nodes q).checkRange key = true) (hi : (l.nodes q).test i = true)
    (hkey : ((l.nodes q).keyArray i).1 = key) :
    ∃ l', l.removeSection q i = some l' ∧ l'.size = l.size ∧ Valid (c + 1) l' tail (m.erase key) := by
  have hholds := fun k v => (h.node q (by simp)).sound.holds_removeFromIndex (k := k) (v := v) hi hkey
  have hkeep : Valid (c + 1) ((l.removing q i).writeUnlock q) tail (m.erase key) := by
    rw [removing, writeUnlock_locked fun _ _ => rfl]
    exact h.section_erase hm hq hi hkey
  obtain ⟨nx, zs, hzs, hnext⟩ := h.exists_next
  by_cases hsmall : (l.nodes q).getNumEntries + (l.nodes nx).getNumEntries < maxEntries / 2
  · -- The last node counts as full, so the next node is not the last one.
    cases ys with
    | nil =>
      obtain ⟨rfl, -⟩ := List.cons.inj hzs
      rw [h.last.full.getNumEntries] at hsmall
      unfold maxEntries at hsmall
      omega
    | cons b ys =>
      obtain ⟨rfl, -⟩ := List.cons.inj hzs
      obtain ⟨l', hl', hmerged, -⟩ := h.section_mergeWithNext (i := i) hc hsmall
      have hAB := (h.mergeable (i := i) hsmall).1
      refine ⟨l', hl', hmerged.size, _, h.merge hAB hmerged, hm.erase h hq (fun k v => ?_) hholds⟩
      rw [hmerged.exists_holds h hAB, exists_mem_append_cons, or_assoc, or_comm (a := ListNode.Holds _ k v)]
  · by_cases hsmall' : ∃ r, l.prev q = some r ∧
      (l.nodes q).getNumEntries + (l.nodes r).getNumEntries < maxEntries / 2
    · obtain ⟨r, hprev, hsmall'⟩ := hsmall'
      rw [h.neighbours.1] at hprev
      obtain ⟨xs, rfl⟩ := List.getLast?_eq_some_iff.mp hprev
      have h' : Chain c l (xs ++ r :: q :: ys) tail := by simpa using h
      obtain ⟨l', hl', hmerged, -⟩ := h'.section_mergeWithPrev (i := i) hc
        (fun nx' hnx' => Option.some.inj (hnext.symm.trans hnx') ▸ hsmall) hsmall'
      have hAB := (h'.mergeable (i := i) (by omega)).2
      exact ⟨l', hl', hmerged.size, _, h'.merge hAB hmerged, hmerged.erase_second h' hAB hm hq hholds rfl⟩
    · refine ⟨(l.removing q i).writeUnlock q, ?_, rfl, hkeep⟩
      rw [removeSection, mergeIfSmall, next_removing, hnext, Option.bind_some,
        removing_of_ne (h.ne_of_mem (by grind)),
        if_neg hsmall, prev_removing]
      cases hprev : l.prev q with
      | none => rfl
      | some r =>
        have hrq : r ≠ q :=
          h.ne_of_mem (List.mem_append_left _ (List.mem_of_getLast? (h.neighbours.1.symm.trans hprev)))
        dsimp only
        rw [removing_of_ne hrq, if_neg fun hlt => hsmall' ⟨r, hprev, hlt⟩]
        rfl

theorem nodeRemove_of_index (hindex : (l.nodes q).getKeyIndex key (getKeyFingerPrint key) = some i) :
    (nodeRemove key (l.locked q) q).map (fun s => (s.1.writeUnlock q, s.2)) =
      (l.removeSection q i).map fun l => (l, true) := by
  have hlocked : (l.locked q).nodes q = (l.nodes q).setVersion ((l.nodes q).verLock + 1) := modify_nodes_self
  have hnum : ((l.locked q).nodes q).getNumEntries = (l.nodes q).getNumEntries := by
    rw [hlocked]
    rfl
  rw [nodeRemove, getKeyIndex_locked, hindex]
  dsimp only
  rw [hnum, removeSection, Option.map_map, Option.map_map]
  rfl

theorem Chain.remove (h : Chain c l ps tail) (hm : Represents l ps m) (hc : c < VersionedLock.period)
    (hkey : key < keyMax) (hp : p ∈ ps ++ [tail]) (hfuel : ps.length + 3 ≤ fuel) :
    ∃ l', LinkedList.remove key fuel l p = some (l', (m.find? key).isSome) ∧ l'.size = l.size ∧
      Valid (c + 1) l' tail (if (m.find? key).isSome then m.erase key else m) := by
  obtain ⟨xs, q, ys, rfl, hq, hcall⟩ := h.writeLoop hc hkey hp hfuel (nodeRemove key)
    fun l head => (l.nodes head).prevPtr.getD head
  have hmem : q ∈ xs ++ q :: ys := by simp
  have hnode := h.node q hmem
  have hfind : ∀ v, m.find? key = some v ↔ (l.nodes q).Holds key v := fun v => hm.find?_iff h hmem hq
  rw [LinkedList.remove, hcall]
  cases hindex : (l.nodes q).getKeyIndex key (getKeyFingerPrint key) with
  | none =>
    have hnone : m.find? key = none := Option.eq_none_iff_forall_ne_some.mpr fun v hv =>
      hnode.sound.getKeyIndex_eq_none_iff.mp hindex v ((hfind v).mp hv)
    rw [hnone, nodeRemove, getKeyIndex_locked, hindex]
    refine ⟨_, rfl, rfl, xs ++ q :: ys, ?_⟩
    rw [writeUnlock_locked_self]
    exact h.touch hm
  | some i =>
    obtain ⟨hi, hkeyi⟩ := hnode.sound.getKeyIndex_eq_some_iff.mp hindex
    have hsome : m.find? key = some ((l.nodes q).keyArray i).2 := (hfind _).mpr ⟨i, hi, by rw [← hkeyi]⟩
    obtain ⟨l', hl', hsize, hvalid⟩ := h.section_remove hm hc hq hi hkeyi
    rw [hsome]
    refine ⟨l', ?_, hsize, hvalid⟩
    rw [nodeRemove_of_index hindex, hl']
    rfl

end LinkedList

end Hkv.PacTree
