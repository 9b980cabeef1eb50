import Mathlib.Data.Finset.Card
import Mathlib.Data.Finset.Range
import Hkv.BitScan
import Hkv.KeyedSort

/-!
# The nodes of the PACTree data layer

The key index of the store is PACTree. Its data layer is a list of nodes with 64 unordered
slots each: a bit map says which slots are in use, a byte per slot pre-selects candidates, and
only then are keys compared. A full node is split at the median of its keys, and a node that
has become small absorbs a neighbour.
-/
namespace Hkv.PacTree

open KeyedSort

abbrev Ptr := ℕ

def maxEntries : ℕ := 64

structure ListNode where
  min : ℕ
  max : ℕ
  curPtr : Ptr
  nextPtr : Option Ptr
  prevPtr : Option Ptr
  deleted : Bool
  bitMap : BitVec 64
  fingerPrint : ℕ → BitVec 8
  verLock : ℕ
  keyArray : ℕ → ℕ × ℕ
  lastScanVersion : ℕ
  pLock : ℕ
  permuter : ℕ → ℕ
  deriving Inhabited

/-- What `getFreeIndex` answers: -1, -2 or a slot. -/
inductive FreeIndex where
  | keyExists
  | noFree
  | index (i : ℕ)

def getKeyFingerPrint (key : ℕ) : BitVec 8 :=
  let key := BitVec.ofNat 64 key
  let key := ~~~key + key <<< 18
  let key := key ^^^ key >>> 31
  let key := (key + key <<< 2) + key <<< 4
  let key := key ^^^ key >>> 11
  let key := key + key <<< 6
  let key := key ^^^ key >>> 22
  key.setWidth 8

namespace ListNode

/-- The constructor, over whatever the memory held. -/
def construct (raw : ListNode) : ListNode :=
  { raw with deleted := false, bitMap := 0#64, lastScanVersion := 0, verLock := 2, pLock := 2 }

/-- `bitMap.test(i)`. -/
def test (n : ListNode) (i : ℕ) : Bool := n.bitMap.getLsbD i

def getNumEntries (n : ListNode) : ℕ := (List.range maxEntries).countP n.test

def checkRange (n : ListNode) (key : ℕ) : Bool := n.min ≤ key && key < n.max

/-- `posToCheck_64`: the slots in use whose byte is `keyHash`. -/
def candidates (n : ListNode) (keyHash : BitVec 8) : BitVec 64 :=
  BitScan.mask (fun i => n.fingerPrint i == keyHash) 64 &&& n.bitMap

/-- The candidates of the low half from the highest one down, then those of the high half. -/
def getKeyIndex (n : ListNode) (key : ℕ) (keyHash : BitVec 8) : Option ℕ :=
  let posToCheck := n.candidates keyHash
  (BitScan.searchDown (fun pos => (n.keyArray pos).1 == key) 32 (posToCheck.setWidth 32)).or
    ((BitScan.searchDown (fun pos => (n.keyArray (pos + 32)).1 == key) 32
      ((posToCheck >>> 32).setWidth 32)).map (· + 32))

def getFreeIndex (n : ListNode) (key : ℕ) (keyHash : BitVec 8) : FreeIndex :=
  if n.getNumEntries ≠ 0 ∧ n.getKeyIndex key keyHash ≠ none then .keyExists
  else if ~~~n.bitMap = 0#64 then .noFree
  else
    let freeIndexMask := ~~~n.bitMap
    if freeIndexMask.setWidth 32 ≠ 0#32 then .index (BitScan.bsf (freeIndexMask.setWidth 32))
    else .index (BitScan.bsf ((freeIndexMask >>> 32).setWidth 32) + 32)

def insertAtIndex (n : ListNode) (kv : ℕ × ℕ) (index : ℕ) (keyHash : BitVec 8) : ListNode :=
  { n with
    keyArray := Function.update n.keyArray index kv
    fingerPrint := Function.update n.fingerPrint index keyHash
    bitMap := BitScan.set n.bitMap index }

def updateAtIndex (n : ListNode) (value : ℕ) (index : ℕ) : ListNode :=
  { n with keyArray := Function.update n.keyArray index ((n.keyArray index).1, value) }

def removeFromIndex (n : ListNode) (index : ℕ) : ListNode :=
  { n with bitMap := BitScan.reset n.bitMap index }

def probe (n : ListNode) (key : ℕ) : Bool := (n.getKeyIndex key (getKeyFingerPrint key)).isSome

def lookup (n : ListNode) (key : ℕ) : Option ℕ :=
  (n.getKeyIndex key (getKeyFingerPrint key)).map fun index => (n.keyArray index).2

/-! ### The loops of a split and of a merge -/

/-- `copyArray[MAX_ENTRIES / 2].first` after the sort. -/
def median (S : StdSort) (n : ListNode) : ℕ :=
  ((S.sort (byKey Prod.fst) ((List.range maxEntries).map n.keyArray)).getD (maxEntries / 2) (0, 0)).1

def moveUpperStep (n : ListNode) (median : ℕ) (acc : ListNode × ℕ) (i : ℕ) : ListNode × ℕ :=
  if median ≤ (n.keyArray i).1 then
    (acc.1.insertAtIndex (n.keyArray i) acc.2 (n.fingerPrint i), acc.2 + 1)
  else acc

/-- The loop that fills the new node, with the number of entries moved. -/
def moveUpper (n : ListNode) (median : ℕ) (newNode : ListNode) : ListNode × ℕ :=
  (List.range maxEntries).foldl (n.moveUpperStep median) (newNode, 0)

def dropUpperStep (n : ListNode) (median : ℕ) (acc : BitVec 64 × ℕ × Option ℕ) (i : ℕ) :
    BitVec 64 × ℕ × Option ℕ :=
  if median ≤ (n.keyArray i).1 then (BitScan.reset acc.1 i, acc.2.1 - 1, acc.2.2.or (some i)) else acc

/-- The loop that clears the bits of the moved entries; it also counts the entries that stay
and remembers the first slot that became free. -/
def dropUpper (n : ListNode) (median : ℕ) : BitVec 64 × ℕ × Option ℕ :=
  (List.range maxEntries).foldl (n.dropUpperStep median) (n.bitMap, n.getNumEntries, none)

def absorbStep (deleteNode : ListNode) (acc : ListNode × ℕ) (i : ℕ) : ListNode × ℕ :=
  if deleteNode.test i then
    match (List.range' acc.2 (maxEntries - acc.2)).find? (fun j => !acc.1.test j) with
    | some j => (acc.1.insertAtIndex (deleteNode.keyArray i) j (deleteNode.fingerPrint i), j + 1)
    | none => acc
  else acc

/-- The loop of both merges: the entries of the other node go to free slots. -/
def absorb (n deleteNode : ListNode) : ListNode :=
  ((List.range maxEntries).foldl (absorbStep deleteNode) (n, 0)).1

/-! ### What a node holds -/

/-- A slot in use holds the value `v` of the key `k`. -/
def Holds (n : ListNode) (k v : ℕ) : Prop := ∃ i, n.test i = true ∧ n.keyArray i = (k, v)

/-- The slots in use have the byte of their key, and no key stands twice. -/
structure Sound (n : ListNode) : Prop where
  finger : ∀ i, n.test i = true → n.fingerPrint i = getKeyFingerPrint (n.keyArray i).1
  distinct : ∀ i j, n.test i = true → n.test j = true → (n.keyArray i).1 = (n.keyArray j).1 → i = j

variable {n m : ListNode} {i j k v key val value : ℕ} {keyHash : BitVec 8}

theorem lt_of_test (h : n.test i = true) : i < maxEntries := BitVec.lt_of_getLsbD h

@[simp] theorem test_insertAtIndex {kv : ℕ × ℕ} :
    (n.insertAtIndex kv i keyHash).test j = (n.test j || decide (j < 64) && decide (i = j)) := by
  rw [test, insertAtIndex, BitScan.getLsbD_set, test]

@[simp] theorem test_removeFromIndex : (n.removeFromIndex i).test j = (n.test j && !decide (i = j)) := by
  rw [test, removeFromIndex, BitScan.getLsbD_reset, test]

@[simp] theorem test_construct : n.construct.test i = false := by simp [test, construct]

theorem sound_construct : n.construct.Sound := ⟨by simp, by simp⟩

theorem not_holds_construct : ¬ n.construct.Holds k v := by simp [Holds]

/-! ### Searching a node -/

theorem getLsbD_candidates : (n.candidates keyHash).getLsbD i = (n.fingerPrint i == keyHash && n.test i) := by
  rw [candidates, BitVec.getLsbD_and, BitScan.getLsbD_mask, test]
  by_cases hi : i < 64
  · rw [decide_eq_true hi, Bool.true_and]
  · rw [BitVec.getLsbD_of_ge n.bitMap i (by omega), Bool.and_false, Bool.and_false]

theorem getKeyIndex_spec (h : n.getKeyIndex key keyHash = some i) :
    n.test i = true ∧ n.fingerPrint i = keyHash ∧ (n.keyArray i).1 = key := by
  rw [getKeyIndex, Option.or_eq_some_iff] at h
  obtain h | ⟨-, h⟩ := h
  · obtain ⟨hbit, hkey⟩ := BitScan.searchDown_spec h
    simp only [BitVec.getLsbD_setWidth, getLsbD_candidates, Bool.and_eq_true, beq_iff_eq] at hbit hkey
    exact ⟨hbit.2.2, hbit.2.1, hkey⟩
  · obtain ⟨pos, hpos, rfl⟩ := Option.map_eq_some_iff.mp h
    obtain ⟨hbit, hkey⟩ := BitScan.searchDown_spec hpos
    simp only [BitVec.getLsbD_setWidth, BitVec.getLsbD_ushiftRight, getLsbD_candidates, Bool.and_eq_true,
      beq_iff_eq] at hbit hkey
    rw [Nat.add_comm pos 32] at hkey ⊢
    exact ⟨hbit.2.2, hbit.2.1, hkey⟩

theorem getKeyIndex_eq_none (h : n.getKeyIndex key keyHash = none) (hi : n.test i = true)
    (hfinger : n.fingerPrint i = keyHash) : (n.keyArray i).1 ≠ key := by
  rw [getKeyIndex, Option.or_eq_none_iff, Option.map_eq_none_iff] at h
  have hlt : i < 64 := lt_of_test hi
  by_cases hlow : i < 32
  · have hno := BitScan.not_of_searchDown_eq_none (i := i) (fun j hj => BitVec.lt_of_getLsbD hj) h.1
      (by simp [hlow, getLsbD_candidates, hfinger, hi])
    simpa using hno
  · have hhigh : 32 + (i - 32) = i := by omega
    have hno := BitScan.not_of_searchDown_eq_none (i := i - 32) (fun j hj => BitVec.lt_of_getLsbD hj) h.2
      (by
        have h32 : i - 32 < 32 := by omega
        simp [h32, hhigh, getLsbD_candidates, hfinger, hi])
    rw [Nat.sub_add_cancel (by omega)] at hno
    simpa using hno

theorem Sound.getKeyIndex_eq_some_iff (hs : n.Sound) :
    n.getKeyIndex key (getKeyFingerPrint key) = some i ↔ n.test i = true ∧ (n.keyArray i).1 = key := by
  constructor
  · intro h
    obtain ⟨hi, -, hkey⟩ := getKeyIndex_spec h
    exact ⟨hi, hkey⟩
  · rintro ⟨hi, hkey⟩
    cases h : n.getKeyIndex key (getKeyFingerPrint key) with
    | none => exact absurd hkey (getKeyIndex_eq_none h hi (by rw [hs.finger i hi, hkey]))
    | some j =>
      obtain ⟨hj, -, hkey'⟩ := getKeyIndex_spec h
      rw [hs.distinct j i hj hi (hkey'.trans hkey.symm)]

theorem Sound.getKeyIndex_eq_none_iff (hs : n.Sound) :
    n.getKeyIndex key (getKeyFingerPrint key) = none ↔ ∀ v, ¬ n.Holds key v := by
  rw [Option.eq_none_iff_forall_ne_some]
  constructor
  · rintro h v ⟨i, hi, hkv⟩
    exact h i (hs.getKeyIndex_eq_some_iff.mpr ⟨hi, by rw [hkv]⟩)
  · intro h i hi
    obtain ⟨hbit, rfl⟩ := hs.getKeyIndex_eq_some_iff.mp hi
    exact h _ ⟨i, hbit, rfl⟩

theorem Sound.lookup_eq_some_iff (hs : n.Sound) : n.lookup key = some v ↔ n.Holds key v := by
  rw [lookup, Option.map_eq_some_iff]
  constructor
  · rintro ⟨i, hi, rfl⟩
    obtain ⟨hbit, rfl⟩ := hs.getKeyIndex_eq_some_iff.mp hi
    exact ⟨i, hbit, rfl⟩
  · rintro ⟨i, hi, hkv⟩
    exact ⟨i, hs.getKeyIndex_eq_some_iff.mpr ⟨hi, by rw [hkv]⟩, by rw [hkv]⟩

theorem Sound.probe_eq_true_iff (hs : n.Sound) : n.probe key = true ↔ ∃ v, n.Holds key v := by
  rw [probe, Option.isSome_iff_ne_none, Ne, hs.getKeyIndex_eq_none_iff]
  simp

/-! ### Counting -/

theorem getNumEntries_eq_card :
    n.getNumEntries = ((Finset.range maxEntries).filter (fun i => n.test i = true)).card := by
  rw [getNumEntries, List.countP_eq_length_filter, Finset.card, Finset.filter_val, Finset.range_val,
    Multiset.range, Multiset.filter_coe, Multiset.coe_card]
  congr 1
  simp

theorem exists_free (h : n.getNumEntries < maxEntries) : ∃ i, i < maxEntries ∧ n.test i = false := by
  have hlt : (List.range maxEntries).countP n.test < (List.range maxEntries).length := by rwa [List.length_range]
  simpa using List.countP_lt_length_iff.mp hlt

theorem getNumEntries_insertAtIndex {kv : ℕ × ℕ} (hi : i < maxEntries) (hfree : n.test i = false) :
    (n.insertAtIndex kv i keyHash).getNumEntries = n.getNumEntries + 1 := by
  rw [getNumEntries_eq_card, getNumEntries_eq_card]
  have hins : (Finset.range maxEntries).filter (fun j => (n.insertAtIndex kv i keyHash).test j = true) =
      insert i ((Finset.range maxEntries).filter (fun j => n.test j = true)) := by
    ext j
    simp only [Finset.mem_filter, Finset.mem_range, Finset.mem_insert, test_insertAtIndex, Bool.or_eq_true,
      Bool.and_eq_true, decide_eq_true_eq]
    grind [maxEntries]
  rw [hins, Finset.card_insert_of_notMem]
  simp [hfree]

theorem getNumEntries_ne_zero (h : n.Holds k v) : n.getNumEntries ≠ 0 := by
  obtain ⟨i, hi, -⟩ := h
  have hpos : 0 < n.getNumEntries := List.countP_pos_iff.mpr ⟨i, List.mem_range.mpr (lt_of_test hi), hi⟩
  omega

theorem test_free_eq_false (h : ~~~n.bitMap ≠ 0#64) :
    let mask := ~~~n.bitMap
    let i := if mask.setWidth 32 ≠ 0#32 then BitScan.bsf (mask.setWidth 32)
      else BitScan.bsf ((mask >>> 32).setWidth 32) + 32
    i < maxEntries ∧ n.test i = false := by
  intro mask i
  have hbit : ∀ j, mask.getLsbD j = true → j < maxEntries ∧ n.test j = false := by
    intro j hj
    have hlt : j < 64 := BitVec.lt_of_getLsbD hj
    rw [BitVec.getLsbD_not, decide_eq_true hlt, Bool.true_and, Bool.not_eq_true'] at hj
    exact ⟨hlt, hj⟩
  apply hbit
  by_cases hlow : mask.setWidth 32 ≠ 0#32
  · have hset := BitScan.getLsbD_bsf hlow
    rw [BitVec.getLsbD_setWidth, Bool.and_eq_true] at hset
    simpa [i, hlow] using hset.2
  · rw [not_not] at hlow
    have hhigh : (mask >>> 32).setWidth 32 ≠ 0#32 := by
      intro hzero
      refine h (BitVec.eq_of_getLsbD_eq fun j hj => ?_)
      rw [BitVec.getLsbD_zero]
      change mask.getLsbD j = false
      by_cases hj32 : j < 32
      · have hj0 := congrArg (BitVec.getLsbD · j) hlow
        simpa [hj32] using hj0
      · have hj0 := congrArg (BitVec.getLsbD · (j - 32)) hzero
        have hlt : j - 32 < 32 := by omega
        have hadd : 32 + (j - 32) = j := by omega
        simpa [hlt, hadd] using hj0
    have hset := BitScan.getLsbD_bsf hhigh
    rw [BitVec.getLsbD_setWidth, BitVec.getLsbD_ushiftRight, Bool.and_eq_true, Nat.add_comm] at hset
    simpa [i, hlow] using hset.2

theorem Sound.getFreeIndex_spec (hs : n.Sound) (key : ℕ) : match n.getFreeIndex key (getKeyFingerPrint key) with
    | .keyExists => ∃ v, n.Holds key v
    | .noFree => (∀ v, ¬ n.Holds key v) ∧ ∀ i < maxEntries, n.test i = true
    | .index i => (∀ v, ¬ n.Holds key v) ∧ i < maxEntries ∧ n.test i = false := by
  unfold getFreeIndex
  by_cases hkey : ∃ v, n.Holds key v
  · obtain ⟨v, hv⟩ := hkey
    have hfound : n.getKeyIndex key (getKeyFingerPrint key) ≠ none := fun h =>
      hs.getKeyIndex_eq_none_iff.mp h v hv
    rw [if_pos ⟨getNumEntries_ne_zero hv, hfound⟩]
    exact ⟨v, hv⟩
  · have hnone : ∀ v, ¬ n.Holds key v := fun v hv => hkey ⟨v, hv⟩
    rw [if_neg fun h => h.2 (hs.getKeyIndex_eq_none_iff.mpr hnone)]
    by_cases hfull : ~~~n.bitMap = 0#64
    · rw [if_pos hfull]
      refine ⟨hnone, fun i hi => ?_⟩
      have hbit := congrArg (BitVec.getLsbD · i) hfull
      have hlt : i < 64 := hi
      simpa [test, hlt] using hbit
    · rw [if_neg hfull]
      have hfree := test_free_eq_false hfull
      dsimp only at hfree ⊢
      split_ifs at hfree ⊢ with hlow
      · exact ⟨hnone, hfree⟩
      · exact ⟨hnone, hfree⟩

/-! ### The slots of a node change one at a time -/

theorem keyArray_insertAtIndex {kv : ℕ × ℕ} :
    (n.insertAtIndex kv i keyHash).keyArray j = if j = i then kv else n.keyArray j := Function.update_apply ..

theorem fingerPrint_insertAtIndex {kv : ℕ × ℕ} :
    (n.insertAtIndex kv i keyHash).fingerPrint j = if j = i then keyHash else n.fingerPrint j :=
    Function.update_apply ..

theorem keyArray_updateAtIndex : (n.updateAtIndex value i).keyArray j =
    if j = i then ((n.keyArray i).1, value) else n.keyArray j := Function.update_apply ..

theorem Sound.insertAtIndex (hs : n.Sound) (hnew : ∀ v, ¬ n.Holds key v) :
    (n.insertAtIndex (key, val) i (getKeyFingerPrint key)).Sound := by
  have hfinger := hs.finger
  have hdistinct := hs.distinct
  have hkeys : ∀ j, n.test j = true → (n.keyArray j).1 ≠ key :=
    fun j hj he => hnew (n.keyArray j).2 ⟨j, hj, by rw [← he]⟩
  constructor
  · grind [test_insertAtIndex, keyArray_insertAtIndex, fingerPrint_insertAtIndex]
  · grind [test_insertAtIndex, keyArray_insertAtIndex]

theorem holds_insertAtIndex {kv : ℕ × ℕ} (hi : i < maxEntries) (hfree : n.test i = false) :
    (n.insertAtIndex kv i keyHash).Holds k v ↔ n.Holds k v ∨ kv = (k, v) := by
  unfold maxEntries at hi
  simp only [Holds, test_insertAtIndex, keyArray_insertAtIndex]
  grind

theorem Sound.updateAtIndex (hs : n.Sound) : (n.updateAtIndex value i).Sound := by
  have hkey : ∀ j, ((n.updateAtIndex value i).keyArray j).1 = (n.keyArray j).1 := by grind [keyArray_updateAtIndex]
  constructor
  · intro j hj
    rw [hkey]
    exact hs.finger j hj
  · intro j j' hj hj' h
    rw [hkey, hkey] at h
    exact hs.distinct j j' hj hj' h

theorem Sound.holds_updateAtIndex (hs : n.Sound) (hi : n.test i = true) (hkey : (n.keyArray i).1 = key) :
    (n.updateAtIndex value i).Holds k v ↔ k = key ∧ v = value ∨ k ≠ key ∧ n.Holds k v := by
  have hdistinct := hs.distinct
  have htest : ∀ j, (n.updateAtIndex value i).test j = n.test j := fun _ => rfl
  simp only [Holds, htest, keyArray_updateAtIndex]
  grind

theorem Sound.removeFromIndex (hs : n.Sound) : (n.removeFromIndex i).Sound := by
  constructor
  · intro j hj
    simp only [test_removeFromIndex, Bool.and_eq_true] at hj
    exact hs.finger j hj.1
  · intro j j' hj hj' h
    simp only [test_removeFromIndex, Bool.and_eq_true] at hj hj'
    exact hs.distinct j j' hj.1 hj'.1 h

theorem Sound.holds_removeFromIndex (hs : n.Sound) (hi : n.test i = true) (hkey : (n.keyArray i).1 = key) :
    (n.removeFromIndex i).Holds k v ↔ k ≠ key ∧ n.Holds k v := by
  have hdistinct := hs.distinct
  have hkeys : (n.removeFromIndex i).keyArray = n.keyArray := rfl
  simp only [Holds, test_removeFromIndex, hkeys]
  grind

end ListNode

end Hkv.PacTree
