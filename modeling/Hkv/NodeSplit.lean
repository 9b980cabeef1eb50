import Hkv.ListNode

/-!
# Moving entries between nodes

What the loops of a split and of a merge do to the entries: the upper half goes to the new
node, its slots become free in the old one, and a node that absorbs another one holds the
entries of both.
-/
namespace Hkv.PacTree.ListNode

open KeyedSort

variable {S : StdSort} {n m new : ListNode} {i j k v t key val median : ℕ} {keyHash : BitVec 8}

/-- The fields that no write section changes while the node is in the list. -/
structure SameIdentity (n m : ListNode) : Prop where
  curPtr : m.curPtr = n.curPtr
  deleted : m.deleted = n.deleted
  lastScanVersion : m.lastScanVersion = n.lastScanVersion
  pLock : m.pLock = n.pLock

/-- The fields that the slots are not part of. -/
structure SameHeader (n m : ListNode) : Prop extends SameIdentity n m where
  min : m.min = n.min
  max : m.max = n.max
  nextPtr : m.nextPtr = n.nextPtr
  prevPtr : m.prevPtr = n.prevPtr
  verLock : m.verLock = n.verLock

theorem SameHeader.refl (n : ListNode) : SameHeader n n := ⟨⟨rfl, rfl, rfl, rfl⟩, rfl, rfl, rfl, rfl, rfl⟩

theorem SameHeader.insertAtIndex {kv : ℕ × ℕ} (h : SameHeader n m) :
    SameHeader n (m.insertAtIndex kv i keyHash) :=
  ⟨⟨h.curPtr, h.deleted, h.lastScanVersion, h.pLock⟩, h.min, h.max, h.nextPtr, h.prevPtr, h.verLock⟩

/-! ### The median -/

def Full (n : ListNode) : Prop := ∀ i < maxEntries, n.test i = true

theorem Sound.nodup_keys (hs : n.Sound) (hfull : n.Full) :
    (((List.range maxEntries).map n.keyArray).map Prod.fst).Nodup := by
  rw [List.map_map]
  refine List.Nodup.map_on (fun i hi j hj hij => ?_) List.nodup_range
  rw [List.mem_range] at hi hj
  exact hs.distinct i j (hfull i hi) (hfull j hj) hij

theorem Sound.median_spec (hs : n.Sound) (hfull : n.Full) :
    (∃ i < maxEntries, (n.keyArray i).1 = n.median S) ∧ ∃ i < maxEntries, (n.keyArray i).1 < n.median S := by
  let sorted := S.sort (byKey Prod.fst) ((List.range maxEntries).map n.keyArray)
  have h32 : 32 < sorted.length := by simp [sorted, maxEntries]
  have h0 : 0 < sorted.length := by omega
  have hslot : ∀ e ∈ sorted, ∃ i < maxEntries, n.keyArray i = e := by
    intro e he
    rw [S.mem_sort, List.mem_map] at he
    obtain ⟨i, hi, rfl⟩ := he
    exact ⟨i, List.mem_range.mp hi, rfl⟩
  have hmedian : n.median S = sorted[32].1 := by
    change (sorted.getD 32 (0, 0)).1 = _
    rw [List.getD_eq_getElem?_getD, List.getElem?_eq_getElem h32, Option.getD_some]
  have hle := List.pairwise_iff_getElem.mp (S.sorted Prod.fst ((List.range maxEntries).map n.keyArray)) 0 32
    h0 h32 (by decide)
  have hne := List.pairwise_iff_getElem.mp
    (List.pairwise_map.mp (S.nodup_keys_sort Prod.fst (hs.nodup_keys hfull))) 0 32 h0 h32 (by decide)
  constructor
  · obtain ⟨i, hi, he⟩ := hslot _ (List.getElem_mem h32)
    exact ⟨i, hi, by rw [hmedian, he]⟩
  · obtain ⟨i, hi, he⟩ := hslot _ (List.getElem_mem h0)
    refine ⟨i, hi, ?_⟩
    rw [hmedian, he]
    exact lt_of_le_of_ne hle hne

/-! ### The loops of a split -/

theorem countP_range_succ (p : ℕ → Bool) (t : ℕ) :
    (List.range (t + 1)).countP p = (List.range t).countP p + if p t then 1 else 0 := by
  rw [List.range_succ, List.countP_append, List.countP_singleton]

/-- The new node after `t` slots of the old one. -/
structure Moved (n : ListNode) (median : ℕ) (new : ListNode) (t : ℕ) (acc : ListNode × ℕ) : Prop where
  header : SameHeader new acc.1
  sound : acc.1.Sound
  used : ∀ j, acc.1.test j = true ↔ j < acc.2
  count : acc.2 = (List.range t).countP (fun i => median ≤ (n.keyArray i).1)
  holds : ∀ k v, acc.1.Holds k v ↔ ∃ i < t, n.keyArray i = (k, v) ∧ median ≤ k

theorem Moved.step {acc : ListNode × ℕ} (h : Moved n median new t acc) (hs : n.Sound) (hfull : n.Full)
    (ht : t < maxEntries) : Moved n median new (t + 1) (n.moveUpperStep median acc t) := by
  unfold moveUpperStep
  by_cases hup : median ≤ (n.keyArray t).1
  · rw [if_pos hup]
    have hlt : acc.2 < maxEntries := by
      have hle := List.countP_le_length (p := fun i => decide (median ≤ (n.keyArray i).1)) (l := List.range t)
      rw [← h.count, List.length_range] at hle
      omega
    have hfree : acc.1.test acc.2 = false := by
      rw [← Bool.not_eq_true, h.used]
      exact lt_irrefl _
    have hnew : ∀ v, ¬ acc.1.Holds (n.keyArray t).1 v := by
      intro v hv
      obtain ⟨i, hi, he, -⟩ := (h.holds _ _).mp hv
      have hit := hs.distinct i t (hfull i (by omega)) (hfull t ht) (by rw [he])
      omega
    refine ⟨h.header.insertAtIndex, ?_, fun j => ?_, ?_, fun k v => ?_⟩
    · rw [hs.finger t (hfull t ht)]
      exact h.sound.insertAtIndex hnew
    · have hused := h.used j
      rw [test_insertAtIndex, Bool.or_eq_true, hused, Bool.and_eq_true, decide_eq_true_eq, decide_eq_true_eq]
      unfold maxEntries at hlt
      omega
    · rw [countP_range_succ, ← h.count, if_pos (by simpa using hup)]
    · rw [holds_insertAtIndex hlt hfree, h.holds, Nat.exists_lt_succ_right]
      exact or_congr_right ⟨fun he => ⟨he, by rw [he] at hup; exact hup⟩, And.left⟩
  · rw [if_neg hup]
    refine ⟨h.header, h.sound, h.used, ?_, fun k v => ?_⟩
    · rw [countP_range_succ, ← h.count, if_neg (by simpa using hup), Nat.add_zero]
    · rw [h.holds, Nat.exists_lt_succ_right]
      refine (or_iff_left fun he => ?_).symm
      rw [he.1] at hup
      exact hup he.2

theorem Sound.moveUpper (hs : n.Sound) (hfull : n.Full) (median : ℕ) (raw : ListNode) :
    Moved n median raw.construct maxEntries (n.moveUpper median raw.construct) :=
  BitScan.foldl_range ⟨.refl _, sound_construct, by simp, rfl, fun k v => by simp [not_holds_construct]⟩
    fun _ ht _ h => h.step hs hfull ht

/-- The bit map of the old node after `t` slots. -/
structure Dropped (n : ListNode) (median t : ℕ) (acc : BitVec 64 × ℕ × Option ℕ) : Prop where
  test : ∀ j, acc.1.getLsbD j = true ↔ n.test j = true ∧ (j < t → (n.keyArray j).1 < median)
  freed : ∀ i, acc.2.2 = some i → i < t ∧ median ≤ (n.keyArray i).1
  none : acc.2.2 = none → ∀ i < t, (n.keyArray i).1 < median

theorem Dropped.step {acc : BitVec 64 × ℕ × Option ℕ} (h : Dropped n median t acc) :
    Dropped n median (t + 1) (n.dropUpperStep median acc t) := by
  unfold dropUpperStep
  by_cases hup : median ≤ (n.keyArray t).1
  · rw [if_pos hup]
    refine ⟨fun j => ?_, fun i hi => ?_, fun hnone => ?_⟩
    · rw [BitScan.getLsbD_reset, Bool.and_eq_true, h.test, Bool.not_eq_true', decide_eq_false_iff_not]
      grind
    · rcases Option.or_eq_some_iff.mp hi with hi | ⟨-, hi⟩
      · obtain ⟨hit, hk⟩ := h.freed i hi
        exact ⟨by omega, hk⟩
      · obtain rfl := Option.some.inj hi
        exact ⟨by omega, hup⟩
    · simp at hnone
  · rw [if_neg hup]
    refine ⟨fun j => ?_, fun i hi => ?_, fun hnone i hi => ?_⟩
    · rw [h.test]
      grind
    · obtain ⟨hit, hk⟩ := h.freed i hi
      exact ⟨by omega, hk⟩
    · rcases Nat.lt_succ_iff_lt_or_eq.mp hi with hi | rfl
      · exact h.none hnone i hi
      · omega

theorem dropUpper_spec (n : ListNode) (median : ℕ) : Dropped n median maxEntries (n.dropUpper median) :=
  BitScan.foldl_range ⟨fun j => by simp [ListNode.test], by simp, by simp⟩ fun _ _ _ h => h.step

/-! ### The loop of a merge -/

theorem absorb_header (n del : ListNode) : SameHeader n (n.absorb del) := by
  refine BitScan.foldl_range (P := fun _ (acc : ListNode × ℕ) => SameHeader n acc.1) (.refl n) fun t _ acc h => ?_
  unfold absorbStep
  split
  · split
    · exact h.insertAtIndex
    · exact h
  · exact h

/-- The absorbing node after `t` slots of the other one. -/
structure Absorbed (n del : ListNode) (t : ℕ) (acc : ListNode × ℕ) : Prop where
  sound : acc.1.Sound
  below : ∀ j < acc.2, acc.1.test j = true
  count : acc.1.getNumEntries = n.getNumEntries + (List.range t).countP del.test
  holds : ∀ k v, acc.1.Holds k v ↔ n.Holds k v ∨ ∃ i < t, del.test i = true ∧ del.keyArray i = (k, v)

theorem Absorbed.exists_slot {del : ListNode} {acc : ListNode × ℕ} (h : Absorbed n del t acc)
    (hroom : acc.1.getNumEntries < maxEntries) :
    ∃ j < maxEntries, (List.range' acc.2 (maxEntries - acc.2)).find? (fun j => !acc.1.test j) = some j ∧
      acc.1.test j = false ∧ ∀ i < j, acc.1.test i = true := by
  obtain ⟨f, hf, hfree⟩ := exists_free hroom
  have hfge : acc.2 ≤ f := by
    by_contra hlt
    rw [h.below f (by omega)] at hfree
    cases hfree
  cases hfind : (List.range' acc.2 (maxEntries - acc.2)).find? (fun j => !acc.1.test j) with
  | none =>
    have hno := List.find?_eq_none.mp hfind f (List.mem_range'_1.mpr ⟨hfge, by omega⟩)
    simp [hfree] at hno
  | some j =>
    simp only [List.find?_range'_eq_some, Bool.not_eq_true', Bool.not_not, List.mem_range'_1] at hfind
    obtain ⟨hj, hjmem, hbefore⟩ := hfind
    refine ⟨j, by omega, rfl, hj, fun i hi => ?_⟩
    rcases Nat.lt_or_ge i acc.2 with hlt | hge
    · exact h.below i hlt
    · exact hbefore i hge hi

theorem Absorbed.not_holds {del : ListNode} {acc : ListNode × ℕ} (h : Absorbed n del t acc) (hd : del.Sound)
    (hdisj : ∀ k v v', n.Holds k v → ¬ del.Holds k v') (hbit : del.test t = true) (v : ℕ) :
    ¬ acc.1.Holds (del.keyArray t).1 v := by
  intro hv
  rcases (h.holds _ _).mp hv with hv | ⟨i, hi, hiu, he⟩
  · exact hdisj _ _ (del.keyArray t).2 hv ⟨t, hbit, rfl⟩
  · have hit := hd.distinct i t hiu hbit (by rw [he])
    omega

theorem Absorbed.step {del : ListNode} {acc : ListNode × ℕ} (h : Absorbed n del t acc) (hd : del.Sound)
    (hdisj : ∀ k v v', n.Holds k v → ¬ del.Holds k v')
    (hroom : n.getNumEntries + del.getNumEntries ≤ maxEntries)
    (ht : t < maxEntries) : Absorbed n del (t + 1) (absorbStep del acc t) := by
  have hcount := countP_range_succ del.test t
  have hsub : (List.range (t + 1)).countP del.test ≤ del.getNumEntries :=
    (List.range_sublist.mpr ht).countP_le
  unfold absorbStep
  by_cases hbit : del.test t = true
  · rw [if_pos hbit] at hcount ⊢
    obtain ⟨j, hj, hfind, hfree, hbefore⟩ := h.exists_slot (by rw [h.count]; omega)
    rw [hfind]
    refine ⟨?_, fun i hi => ?_, ?_, fun k v => ?_⟩
    · rw [hd.finger t hbit]
      exact h.sound.insertAtIndex (h.not_holds hd hdisj hbit)
    · rw [test_insertAtIndex, Bool.or_eq_true, Bool.and_eq_true, decide_eq_true_eq, decide_eq_true_eq]
      rcases Nat.lt_succ_iff_lt_or_eq.mp hi with hlt | rfl
      · exact Or.inl (hbefore i hlt)
      · exact Or.inr ⟨hj, rfl⟩
    · rw [getNumEntries_insertAtIndex hj hfree, h.count, hcount, Nat.add_assoc]
    · rw [holds_insertAtIndex hj hfree, h.holds, or_assoc, Nat.exists_lt_succ_right]
      simp only [hbit, true_and]
  · rw [if_neg hbit] at hcount ⊢
    refine ⟨h.sound, h.below, ?_, fun k v => ?_⟩
    · rw [h.count, hcount, Nat.add_zero]
    · rw [h.holds, Nat.exists_lt_succ_right]
      simp only [hbit, Bool.false_eq_true, false_and, or_false]

theorem Sound.absorb {del : ListNode} (hs : n.Sound) (hd : del.Sound)
    (hdisj : ∀ k v v', n.Holds k v → ¬ del.Holds k v')
    (hroom : n.getNumEntries + del.getNumEntries ≤ maxEntries) :
    (n.absorb del).Sound ∧ ∀ k v, (n.absorb del).Holds k v ↔ n.Holds k v ∨ del.Holds k v := by
  have hend : Absorbed n del maxEntries ((List.range maxEntries).foldl (absorbStep del) (n, 0)) :=
    BitScan.foldl_range ⟨hs, by simp, by simp, fun k v => by simp⟩ fun _ ht _ h => h.step hd hdisj hroom ht
  refine ⟨hend.sound, fun k v => (hend.holds k v).trans (or_congr_right ⟨?_, ?_⟩)⟩
  · rintro ⟨i, -, hi, he⟩
    exact ⟨i, hi, he⟩
  · rintro ⟨i, hi, he⟩
    exact ⟨i, lt_of_test hi, hi, he⟩

end Hkv.PacTree.ListNode
