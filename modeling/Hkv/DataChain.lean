import Hkv.DataLayer
import Hkv.DoublyLinked
import Hkv.OrderedMap
import Hkv.RangePartition

/-!
# The chain of the data layer

Between two calls the nodes from the first to the last one are linked in both directions,
their ranges divide the keys below `keyMax`, every entry lies in the range of its node, and no
node is locked. From any node of the chain the walk reaches the node of a key.
-/
namespace Hkv.PacTree

open DoublyLinked RangePartition

namespace ListNode

/-- The permuter lists the slots in use in the order of their keys. -/
structure Permuted (n : ListNode) : Prop where
  mem : ∀ i, i ∈ (List.range n.getNumEntries).map n.permuter ↔ n.test i = true
  sorted : ((List.range n.getNumEntries).map n.permuter).Pairwise fun i j => (n.keyArray i).1 < (n.keyArray j).1

/-- A node that nobody works on, after `c` calls. A permuter that was made at the present
version is right. -/
structure AtRest (c : ℕ) (p : Ptr) (n : ListNode) : Prop where
  sound : n.Sound
  range : ∀ k v, n.Holds k v → n.min ≤ k ∧ k < n.max
  cur : n.curPtr = p
  live : n.deleted = false
  free : VersionedLock.Free n.verLock
  version : n.verLock ≤ 2 * (c + 1)
  scanned : n.lastScanVersion ≤ n.verLock
  permuted : n.lastScanVersion = n.verLock → n.Permuted
  scanFree : VersionedLock.Free n.pLock

/-- The last node of a list has no keys and counts as full, so that it is never merged. -/
structure Last (n : ListNode) : Prop where
  min : n.min = keyMax
  full : n.Full
  free : n.verLock = 2
  live : n.deleted = false

variable {c : ℕ} {p : Ptr} {n m : ListNode} {k key : ℕ}

theorem AtRest.mono {c' : ℕ} (h : n.AtRest c p) (hc : c ≤ c') : n.AtRest c' p :=
  { h with version := h.version.trans (by omega) }

theorem AtRest.version_lt (h : n.AtRest c p) (hc : c < VersionedLock.period) : n.verLock < 2 ^ 32 := by
  have hver := h.version
  unfold VersionedLock.period at hc
  omega

theorem AtRest.written (h : n.AtRest c p) (hs : m.Sound) (hrange : ∀ k v, m.Holds k v → m.min ≤ k ∧ k < m.max)
    (hsame : SameIdentity n m) (hver : m.verLock = n.verLock + 2) : m.AtRest (c + 1) p := by
  have hscanned := h.scanned
  have hscan := hsame.lastScanVersion
  refine ⟨hs, hrange, hsame.curPtr.trans h.cur, hsame.deleted.trans h.live, ?_, ?_, ?_, fun heq => ?_, ?_⟩
  · have hfree := h.free
    unfold VersionedLock.Free at *
    omega
  · have hle := h.version
    omega
  · omega
  · omega
  · rw [hsame.pLock]
    exact h.scanFree

theorem checkRange_eq_true_iff : n.checkRange key = true ↔ n.min ≤ key ∧ key < n.max := by simp [checkRange]

end ListNode

namespace LinkedList

abbrev next (l : LinkedList) (p : Ptr) : Option Ptr := (l.nodes p).nextPtr

abbrev prev (l : LinkedList) (p : Ptr) : Option Ptr := (l.nodes p).prevPtr

abbrev low (l : LinkedList) (p : Ptr) : ℕ := (l.nodes p).min

abbrev high (l : LinkedList) (p : Ptr) : ℕ := (l.nodes p).max

/-- The nodes `ps` and the last node `tail`, after `c` calls. -/
structure Chain (c : ℕ) (l : LinkedList) (ps : List Ptr) (tail : Ptr) : Prop where
  linked : Linked l.next l.prev none (ps ++ [tail]) none
  nodup : (ps ++ [tail]).Nodup
  alloc : ∀ p ∈ ps ++ [tail], p < l.size
  head : ps.head? = some l.headPtr
  ranges : Abut l.low l.high 0 ps keyMax
  node : ∀ p ∈ ps, (l.nodes p).AtRest c p
  last : (l.nodes tail).Last

/-- The map that the nodes of the chain hold. -/
def Represents (l : LinkedList) (ps : List Ptr) (m : OrderedMap ℕ ℕ) : Prop :=
  ∀ k v, m.find? k = some v ↔ ∃ p ∈ ps, (l.nodes p).Holds k v

variable {c fuel key : ℕ} {l l' : LinkedList} {ps xs ys : List Ptr} {p q tail : Ptr} {m : OrderedMap ℕ ℕ}

/-! ### The walk -/

theorem Chain.neighbours (h : Chain c l (xs ++ q :: ys) tail) :
    l.prev q = xs.getLast? ∧ l.next q = (ys ++ [tail]).head? := by
  have hlinked := h.linked
  rw [List.append_assoc, List.cons_append] at hlinked
  obtain ⟨hprev, hnext⟩ := hlinked.neighbours
  rw [Option.or_none] at hprev hnext
  exact ⟨hprev, hnext⟩

theorem findNode_of_checkRange (h : (l.nodes q).checkRange key = true) : l.findNode key (fuel + 1) q = some q := by
  have hmin := (ListNode.checkRange_eq_true_iff.mp h).1
  rw [findNode, if_neg (by omega), h]
  rfl

/-- The walk comes one node nearer to the node that has the key in every round. -/
theorem Chain.findNode_at {i : ℕ} (h : Chain c l (xs ++ q :: ys) tail) (hq : (l.nodes q).checkRange key = true)
    (hkey : key < keyMax) (hp : (xs ++ q :: ys ++ [tail])[i]? = some p)
    (hfuel : i - xs.length + (xs.length - i) < fuel) : l.findNode key fuel p = some q := by
  have hrange := ListNode.checkRange_eq_true_iff.mp hq
  induction fuel generalizing i p with
  | zero => omega
  | succ fuel ih =>
    have hi := (List.getElem?_eq_some_iff.mp hp).1
    rcases Nat.lt_trichotomy i xs.length with hlt | rfl | hgt
    · -- a node before `q` ends at the beginning of `q` or earlier
      have hmem : p ∈ xs := by
        rw [List.append_assoc, List.getElem?_append_left hlt] at hp
        exact List.mem_of_getElem? hp
      have hhigh : l.high p ≤ key := (h.ranges.order.1 p hmem).trans hrange.1
      have hlow : l.low p ≤ key := (h.ranges.bounds_of_mem (List.mem_append_left _ hmem)).2.1.le.trans hhigh
      have hout : (l.nodes p).checkRange key = false := by simp [ListNode.checkRange, hhigh]
      have hnext : (l.nodes p).nextPtr = _ := h.linked.next_eq hp
      rw [List.getElem?_eq_getElem (by simp at hi ⊢; omega)] at hnext
      rw [LinkedList.findNode, if_neg (Nat.not_lt.mpr hlow), hout, Bool.not_false, if_pos rfl, hnext,
        Option.bind_some]
      exact ih (List.getElem?_eq_getElem _) (by omega)
    · obtain rfl : q = p := by simpa using hp
      exact findNode_of_checkRange hq
    · obtain ⟨j, rfl⟩ := Nat.exists_eq_add_of_lt hgt
      have hmem : p ∈ ys ++ [tail] := by
        refine List.mem_of_getElem? (i := j) ?_
        simpa [List.getElem?_append_right, Nat.add_assoc] using hp
      have hlow : key < l.low p := by
        rcases List.mem_append.mp hmem with hmem | hmem
        · exact hrange.2.trans_le (h.ranges.order.2 p hmem)
        · exact List.mem_singleton.mp hmem ▸ hkey.trans_eq h.last.min.symm
      have hprev : (l.nodes p).prevPtr = _ := h.linked.prev_eq hp
      rw [List.getElem?_eq_getElem (by omega)] at hprev
      rw [LinkedList.findNode, if_pos hlow, hprev, Option.bind_some]
      exact ih (List.getElem?_eq_getElem _) (by omega)

theorem Chain.findNode (h : Chain c l ps tail) (hkey : key < keyMax) (hp : p ∈ ps ++ [tail])
    (hfuel : ps.length + 2 ≤ fuel) :
    ∃ xs q ys, ps = xs ++ q :: ys ∧ (l.nodes q).checkRange key = true ∧ l.findNode key fuel p = some q := by
  obtain ⟨xs, q, ys, rfl, hlow, hhigh⟩ := h.ranges.exists_covering (Nat.zero_le key) hkey
  have hq : (l.nodes q).checkRange key = true := ListNode.checkRange_eq_true_iff.mpr ⟨hlow, hhigh⟩
  obtain ⟨i, hi, rfl⟩ := List.mem_iff_getElem.mp hp
  refine ⟨xs, q, ys, rfl, hq, h.findNode_at hq hkey (List.getElem?_eq_getElem hi) ?_⟩
  simp only [List.length_append, List.length_cons, List.length_nil] at hi hfuel
  omega

theorem Chain.exists_next (h : Chain c l (xs ++ q :: ys) tail) :
    ∃ nx zs, ys ++ [tail] = nx :: zs ∧ l.next q = some nx := by
  cases hys : ys ++ [tail] with
  | nil => simp at hys
  | cons nx zs => exact ⟨nx, zs, rfl, by rw [h.neighbours.2, hys, List.head?_cons]⟩

theorem Chain.ne_of_mem (h : Chain c l (xs ++ q :: ys) tail) (hp : p ∈ xs ++ (ys ++ [tail])) : p ≠ q := by
  rintro rfl
  have hnodup := h.nodup
  rw [List.append_assoc, List.cons_append] at hnodup
  exact (List.nodup_middle.mp hnodup).notMem hp

end LinkedList

end Hkv.PacTree
