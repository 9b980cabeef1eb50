import Hkv.DataCalls

/-!
# Scans of the data layer

A node does not keep its entries in order. A scan sorts the slots of a node when the node has
changed since the last scan, remembers the order in the permuter, searches it for the first key
and reads the values from there on; it goes from node to node until it has enough values.
-/
namespace Hkv.PacTree

open DoublyLinked RangePartition KeyedSort

namespace ListNode

/-- The slots in use in the order of the pairs of key and slot. -/
def sortedSlots (S : StdSort) (n : ListNode) : List ℕ :=
  (S.sort (byKey fun e : ℕ × ℕ => e.1 * 256 + e.2)
    (((List.range maxEntries).filter n.test).map fun i => ((n.keyArray i).1, i))).map Prod.snd

def generatePermuter (S : StdSort) (n : ListNode) (writeVersion : ℕ) : ListNode × Bool :=
  let r := VersionedLock.writeLock genId n.pLock
  if r.1 = 0 then ({ n with pLock := r.2 }, false)
  else if writeVersion = n.lastScanVersion then ({ n with pLock := VersionedLock.writeUnlock r.2 }, true)
  else
    let slots := n.sortedSlots S
    ({ n with
        permuter := fun i => if i < slots.length then slots.getD i 0 else n.permuter i
        lastScanVersion := writeVersion
        pLock := VersionedLock.writeUnlock r.2 }, true)

/-- The do-while loop of the search; `fuel` bounds its rounds. -/
def lowerBoundLoop (n : ListNode) (key : ℕ) : ℕ → ℕ → ℕ → ℕ
  | 0, lower, _ => lower
  | fuel + 1, lower, upper =>
    let mid := (upper - lower) / 2 + lower
    let actualMid := n.permuter mid
    if key < (n.keyArray actualMid).1 then
      if lower < mid then lowerBoundLoop n key fuel lower mid else lower
    else if (n.keyArray actualMid).1 < key then
      if mid + 1 < upper then lowerBoundLoop n key fuel (mid + 1) upper else mid + 1
    else mid

def permuterLowerBound (n : ListNode) (key : ℕ) : ℕ :=
    n.lowerBoundLoop key (n.getNumEntries + 1) 0 n.getNumEntries

/-- `ListNode::scan`: the node, the values so far and whether the scan is over. The last node
ends every scan. -/
def scan (S : StdSort) (startKey range writeVersion : ℕ) :
    ℕ → ListNode → List ℕ → Option (ListNode × List ℕ × Bool)
  | 0, _, _ => none
  | fuel + 1, n, rangeVector =>
    if n.nextPtr = none then some (n, rangeVector, true)
    else if range ≤ rangeVector.length then none
    else
      let r := if n.lastScanVersion < writeVersion then n.generatePermuter S writeVersion else (n, true)
      if !r.2 then scan S startKey range writeVersion fuel r.1 rangeVector
      else
        let startIndex := if n.min < startKey then r.1.permuterLowerBound startKey else 0
        let indices := ((List.range n.getNumEntries).drop startIndex).take (range - rangeVector.length)
        let rangeVector := rangeVector ++ indices.map fun i => (r.1.keyArray (r.1.permuter i)).2
        some (r.1, rangeVector, rangeVector.length == range)

end ListNode

namespace LinkedList

/-- The loop over the nodes; a deleted node makes the scan start over. -/
def scanLoop (S : StdSort) (startKey range : ℕ) (head : Ptr) : ℕ → LinkedList → Ptr → List ℕ →
    Option (LinkedList × List ℕ)
  | 0, _, _, _ => none
  | fuel + 1, l, cur, rangeVector =>
    if range ≤ rangeVector.length then some (l, rangeVector)
    else
      let r := l.readLock cur
      if r.1 = 0 then scanLoop S startKey range head fuel r.2 cur rangeVector
      else if (r.2.nodes cur).deleted then
        (r.2.findNode startKey fuel head).bind fun cur => scanLoop S startKey range head fuel r.2 cur []
      else
        ((r.2.nodes cur).scan S startKey range r.1 fuel rangeVector).bind fun s =>
          let l := r.2.modify cur fun _ => s.1
          if s.2.2 then some (l, s.2.1)
          else if VersionedLock.readUnlock r.1 (l.nodes cur).verLock then
            (l.nodes cur).nextPtr.bind fun next => scanLoop S startKey range head fuel l next s.2.1
          else scanLoop S startKey range head fuel l cur s.2.1

def scan (S : StdSort) (startKey range fuel : ℕ) (l : LinkedList) (head : Ptr) : Option (LinkedList × List ℕ) :=
  (l.findNode startKey fuel head).bind fun cur => scanLoop S startKey range head fuel l cur []

end LinkedList

namespace ListNode

variable {S : StdSort} {n : ListNode} {i j k v key lower upper fuel : ℕ}

/-! ### The order of the entries of a node -/

/-- The entries of a node in the order of their keys. -/
def orderedEntries (n : ListNode) : List (ℕ × ℕ) :=
  insertion.sort (byKey Prod.fst) (((List.range maxEntries).filter n.test).map n.keyArray)

theorem mem_orderedEntries : (k, v) ∈ n.orderedEntries ↔ n.Holds k v := by
  rw [orderedEntries, StdSort.mem_sort, List.mem_map]
  constructor
  · rintro ⟨i, hi, hkv⟩
    exact ⟨i, (List.mem_filter.mp hi).2, hkv⟩
  · rintro ⟨i, hi, hkv⟩
    exact ⟨i, List.mem_filter.mpr ⟨List.mem_range.mpr (lt_of_test hi), hi⟩, hkv⟩

theorem Sound.nodup_used_keys (hs : n.Sound) :
    (((List.range maxEntries).filter n.test).map fun i => (n.keyArray i).1).Nodup := by
  refine List.Nodup.map_on (fun i hi j hj hij => ?_) (List.nodup_range.filter _)
  exact hs.distinct i j (List.mem_filter.mp hi).2 (List.mem_filter.mp hj).2 hij

theorem Sound.sorted_orderedEntries (hs : n.Sound) : n.orderedEntries.Pairwise fun a b => a.1 < b.1 := by
  have hnodup : ((((List.range maxEntries).filter n.test).map n.keyArray).map Prod.fst).Nodup := by
    rw [List.map_map]
    exact hs.nodup_used_keys
  have hne := List.pairwise_map.mp (insertion.nodup_keys_sort Prod.fst hnodup)
  exact (insertion.sorted Prod.fst _).imp₂ (fun a b hle hne => lt_of_le_of_ne hle hne) hne

theorem Permuted.map_keyArray (h : n.Permuted) (hs : n.Sound) :
    ((List.range n.getNumEntries).map n.permuter).map n.keyArray = n.orderedEntries := by
  refine OrderedMap.eq_of_sorted (List.pairwise_map.mpr h.sorted) hs.sorted_orderedEntries fun e => ?_
  rw [show e = (e.1, e.2) from rfl, mem_orderedEntries, List.mem_map]
  constructor
  · rintro ⟨i, hi, he⟩
    exact ⟨i, (h.mem i).mp hi, he⟩
  · rintro ⟨i, hi, he⟩
    exact ⟨i, (h.mem i).mpr hi, he⟩

theorem length_sortedSlots : (n.sortedSlots S).length = n.getNumEntries := by
  rw [sortedSlots, List.length_map, StdSort.length_sort, List.length_map, getNumEntries, List.countP_eq_length_filter]

theorem mem_sortedSlots : i ∈ n.sortedSlots S ↔ n.test i = true := by
  rw [sortedSlots, List.mem_map]
  simp only [StdSort.mem_sort, List.mem_map, List.mem_filter, List.mem_range]
  constructor
  · rintro ⟨e, ⟨j, hj, rfl⟩, rfl⟩
    exact hj.2
  · exact fun hi => ⟨_, ⟨i, ⟨lt_of_test hi, hi⟩, rfl⟩, rfl⟩

theorem Sound.sorted_sortedSlots (hs : n.Sound) (S : StdSort) :
    (n.sortedSlots S).Pairwise fun i j => (n.keyArray i).1 < (n.keyArray j).1 := by
  let pairs := ((List.range maxEntries).filter n.test).map fun i => ((n.keyArray i).1, i)
  have hpair : ∀ e ∈ S.sort (byKey fun e : ℕ × ℕ => e.1 * 256 + e.2) pairs,
    e.2 < 64 ∧ e.1 = (n.keyArray e.2).1 := by
    intro e he
    obtain ⟨i, hi, rfl⟩ := List.mem_map.mp ((S.mem_sort _ pairs).mp he)
    exact ⟨lt_of_test (List.mem_filter.mp hi).2, rfl⟩
  have hnodup : (pairs.map Prod.fst).Nodup := by
    rw [List.map_map]
    exact hs.nodup_used_keys
  have hkeys := List.pairwise_map.mp (((S.perm (byKey fun e : ℕ × ℕ => e.1 * 256 + e.2) pairs).map
    Prod.fst).nodup_iff.mpr hnodup)
  rw [sortedSlots, List.pairwise_map]
  refine List.Pairwise.imp_of_mem ?_ ((S.sorted (fun e : ℕ × ℕ => e.1 * 256 + e.2) pairs).and hkeys)
  rintro a b ha hb ⟨hle, hne⟩
  obtain ⟨hslot, hka⟩ := hpair a ha
  obtain ⟨hslot', hkb⟩ := hpair b hb
  rw [← hka, ← hkb]
  omega

/-! ### The search in the permuter -/

/-- The key that the permuter has in a place. -/
def keyAt (n : ListNode) (i : ℕ) : ℕ := (n.keyArray (n.permuter i)).1

theorem lowerBoundLoop_spec (hbound : lower < upper) (hfuel : upper - lower ≤ fuel)
    (hsorted : ∀ i j, i < j → j < n.getNumEntries → n.keyAt i < n.keyAt j) (hupper : upper ≤ n.getNumEntries)
    (hbelow : ∀ i < lower, n.keyAt i < key)
    (habove : ∀ i, upper ≤ i → i < n.getNumEntries → key < n.keyAt i) :
    (∀ i < n.lowerBoundLoop key fuel lower upper, n.keyAt i < key) ∧
      ∀ i, n.lowerBoundLoop key fuel lower upper ≤ i → i < n.getNumEntries → key ≤ n.keyAt i := by
  induction fuel generalizing lower upper with
  | zero => omega
  | succ fuel ih =>
    rw [lowerBoundLoop]
    have hmid : (upper - lower) / 2 + lower < upper := by omega
    have hlow : lower ≤ (upper - lower) / 2 + lower := by omega
    generalize (upper - lower) / 2 + lower = mid at hmid hlow ⊢
    simp only [show (n.keyArray (n.permuter mid)).1 = n.keyAt mid from rfl]
    -- the keys on either side of the middle one are on that side of it
    have hleft : ∀ i < mid, n.keyAt i < n.keyAt mid := fun i hi => hsorted i mid hi (by omega)
    have hright : ∀ i, mid ≤ i → i < n.getNumEntries → n.keyAt mid ≤ n.keyAt i := fun i hi hlt =>
      (Nat.eq_or_lt_of_le hi).elim (fun he => he ▸ le_rfl) fun hi => (hsorted mid i hi hlt).le
    rcases lt_trichotomy key (n.keyAt mid) with hlt | heq | hgt
    · rw [if_pos hlt]
      by_cases hrest : lower < mid
      · rw [if_pos hrest]
        exact ih hrest (by omega) (by omega) hbelow fun i hi hin => hlt.trans_le (hright i hi hin)
      · rw [if_neg hrest]
        exact ⟨hbelow, fun i hi hin => hlt.le.trans (hright i (by omega) hin)⟩
    · rw [if_neg (by omega), if_neg (by omega)]
      exact ⟨fun i hi => heq ▸ hleft i hi, fun i hi hin => heq.le.trans (hright i hi hin)⟩
    · have hupto : ∀ i < mid + 1, n.keyAt i < key := fun i hi =>
        (Nat.lt_succ_iff_lt_or_eq.mp hi).elim (fun hi => (hleft i hi).trans hgt) fun he => he ▸ hgt
      rw [if_neg (by omega), if_pos hgt]
      by_cases hrest : mid + 1 < upper
      · rw [if_pos hrest]
        exact ih hrest (by omega) hupper hupto habove
      · rw [if_neg hrest]
        exact ⟨hupto, fun i hi hin => (habove i (by omega) hin).le⟩

/-- The slots of a permuted node from the lower bound on are those with the keys from `key` on. -/
theorem Permuted.drop_permuterLowerBound (h : n.Permuted) (hs : n.Sound) :
    n.orderedEntries.drop (n.permuterLowerBound key) = n.orderedEntries.filter fun e => key ≤ e.1 := by
  have hentries := h.map_keyArray hs
  have hlength : n.orderedEntries.length = n.getNumEntries := by simp [← hentries]
  have hget : ∀ i (hi : i < n.orderedEntries.length), n.orderedEntries[i].1 = n.keyAt i := by
    intro i hi
    simp [← hentries, keyAt]
  rcases Nat.eq_zero_or_pos n.getNumEntries with hzero | hpos
  · rw [List.eq_nil_of_length_eq_zero (hlength.trans hzero), List.drop_nil, List.filter_nil]
  have hsorted : ∀ i j, i < j → j < n.getNumEntries → n.keyAt i < n.keyAt j := by
    intro i j hij hj
    rw [← hget i (by omega), ← hget j (by omega)]
    exact List.pairwise_iff_getElem.mp hs.sorted_orderedEntries i j (by omega) (by omega) hij
  obtain ⟨hbelow, habove⟩ : (∀ i < n.permuterLowerBound key, n.keyAt i < key) ∧ _ := lowerBoundLoop_spec hpos
    (Nat.le_succ n.getNumEntries) hsorted le_rfl (fun i hi => absurd hi (Nat.not_lt_zero i)) fun i hi hin =>
    absurd hin (Nat.not_lt.mpr hi)
  have htake : ∀ e ∈ n.orderedEntries.take (n.permuterLowerBound key), ¬ key ≤ e.1 := by
    intro e he
    obtain ⟨i, hi, rfl⟩ := List.mem_iff_getElem.mp he
    rw [List.length_take] at hi
    rw [List.getElem_take, hget]
    exact Nat.not_le.mpr (hbelow i (Nat.lt_of_lt_of_le hi (Nat.min_le_left _ _)))
  have hdrop : ∀ e ∈ n.orderedEntries.drop (n.permuterLowerBound key), key ≤ e.1 := by
    intro e he
    obtain ⟨i, hi, rfl⟩ := List.mem_iff_getElem.mp he
    rw [List.length_drop] at hi
    rw [List.getElem_drop, hget]
    exact habove _ (Nat.le_add_right _ i) (by omega)
  conv_rhs => rw [← List.take_append_drop (n.permuterLowerBound key) n.orderedEntries]
  rw [List.filter_append, List.filter_eq_nil_iff.mpr (by simpa using htake),
    List.filter_eq_self.mpr (by simpa using hdrop), List.nil_append]

/-! ### Scanning one node -/

/-- A node after a scan: the entries and the range are those of before. -/
def setPermuter (n : ListNode) (permuter : ℕ → ℕ) (lastScanVersion pLock : ℕ) : ListNode :=
  { n with permuter := permuter, lastScanVersion := lastScanVersion, pLock := pLock }

theorem Sound.permuted_setPermuter {f : ℕ → ℕ} (hs : n.Sound)
    (hf : (List.range n.getNumEntries).map f = n.sortedSlots S) : (n.setPermuter f i j).Permuted :=
  ⟨fun _ => (iff_of_eq (congrArg _ hf)).trans mem_sortedSlots, hf.symm ▸ hs.sorted_sortedSlots S⟩

theorem AtRest.exists_permuted {c : ℕ} {p : Ptr} (h : n.AtRest c p) :
    ∃ f last lock, (if n.lastScanVersion < n.verLock then n.generatePermuter S n.verLock else (n, true)) =
        (n.setPermuter f last lock, true) ∧
      (n.setPermuter f last lock).AtRest c p ∧ (n.setPermuter f last lock).Permuted := by
  rcases Nat.eq_or_lt_of_le h.scanned with heq | hlt
  · rw [if_neg (by omega)]
    exact ⟨n.permuter, n.lastScanVersion, n.pLock, rfl, h, h.permuted heq⟩
  · rw [if_pos hlt, generatePermuter, genId, if_neg h.scanFree.lock_write.1, if_neg (Nat.ne_of_gt hlt)]
    have hslots : (List.range n.getNumEntries).map (fun i => if i < (n.sortedSlots S).length then
        (n.sortedSlots S).getD i 0 else n.permuter i) = n.sortedSlots S := by
      refine List.ext_getElem (by simp [length_sortedSlots]) fun i hi hi' => ?_
      simp [hi', List.getD_eq_getElem?_getD]
    have hpermuted := fun last lock => h.sound.permuted_setPermuter (i := last) (j := lock) hslots
    refine ⟨_, _, _, rfl, ?_, hpermuted _ _⟩
    exact ⟨⟨h.sound.finger, h.sound.distinct⟩, h.range, h.cur, h.live, h.free, h.version, le_rfl,
      fun _ => hpermuted _ _, VersionedLock.free_writeUnlock h.scanFree.lock_write.2⟩

/-- A scan of a node that is not the last one appends the values from `startKey` on, as far as
they are asked for. -/
theorem AtRest.scan {c startKey range : ℕ} {p nx : Ptr} {vec : List ℕ} (h : n.AtRest c p)
    (hnext : n.nextPtr = some nx) (hroom : vec.length < range) :
    ∃ f last lock, (n.setPermuter f last lock).AtRest c p ∧
      n.scan S startKey range n.verLock (fuel + 1) vec = some (n.setPermuter f last lock,
        let out := vec ++ ((n.orderedEntries.filter fun e => startKey ≤ e.1).map Prod.snd).take (range - vec.length)
        (out, out.length == range)) := by
  obtain ⟨f, last, lock, hfresh, hrest, hpermuted⟩ := h.exists_permuted (S := S)
  refine ⟨f, last, lock, hrest, ?_⟩
  have hentries : ((List.range n.getNumEntries).map f).map n.keyArray = n.orderedEntries :=
    hpermuted.map_keyArray hrest.sound
  have hvalues : ((List.range n.getNumEntries).map fun i => (n.keyArray (f i)).2) =
    n.orderedEntries.map Prod.snd := by
    rw [← hentries, List.map_map, List.map_map]
    rfl
  -- the first slot to read is the first one whose key is not below `startKey`
  have hstart :
    n.orderedEntries.drop (if n.min < startKey then (n.setPermuter f last lock).permuterLowerBound startKey
      else 0) = n.orderedEntries.filter fun e => startKey ≤ e.1 := by
    by_cases hmin : n.min < startKey
    · rw [if_pos hmin]
      exact hpermuted.drop_permuterLowerBound hrest.sound
    · rw [if_neg hmin, List.drop_zero, List.filter_eq_self.mpr]
      intro e he
      have hbound := (h.range e.1 e.2 (mem_orderedEntries.mp he)).1
      exact decide_eq_true (by omega)
  have hout : ∀ start, (((List.range n.getNumEntries).drop start).take (range - vec.length)).map (fun i =>
      ((n.setPermuter f last lock).keyArray ((n.setPermuter f last lock).permuter i)).2) =
      ((n.orderedEntries.drop start).map Prod.snd).take (range - vec.length) := by
    intro start
    change List.map (fun i => (n.keyArray (f i)).2) _ = _
    rw [List.map_take, List.map_drop, hvalues, ← List.map_drop]
  rw [ListNode.scan, if_neg (by simp [hnext]), if_neg (Nat.not_le.mpr hroom), hfresh]
  simp only [Bool.not_true, Bool.false_eq_true, if_false, hout, hstart]

end ListNode

namespace LinkedList

variable {S : StdSort} {c fuel startKey range : ℕ} {l l' : LinkedList} {ps xs ys : List Ptr} {p q tail head : Ptr}
  {m : OrderedMap ℕ ℕ} {vec : List ℕ}

/-! ### The entries of a chain -/

/-- The entries of the nodes, one node after the other. -/
def entriesOf (l : LinkedList) (ps : List Ptr) : List (ℕ × ℕ) := ps.flatMap fun p => (l.nodes p).orderedEntries

theorem sorted_entriesOf {lo hi : ℕ} (hranges : Abut l.low l.high lo ps hi)
    (hnode : ∀ p ∈ ps, (l.nodes p).AtRest c p) : (l.entriesOf ps).Pairwise fun a b => a.1 < b.1 := by
  induction ps generalizing lo with
  | nil => exact List.Pairwise.nil
  | cons p ps ih =>
    rw [List.forall_mem_cons] at hnode
    obtain ⟨-, -, hrest⟩ := hranges
    rw [entriesOf, List.flatMap_cons, List.pairwise_append]
    refine ⟨hnode.1.sound.sorted_orderedEntries, ih hrest hnode.2, fun a ha b hb => ?_⟩
    obtain ⟨r, hr, hb⟩ := List.mem_flatMap.mp hb
    have hbefore : a.1 < l.high p := (hnode.1.range a.1 a.2 (ListNode.mem_orderedEntries.mp ha)).2
    have hbehind : l.low r ≤ b.1 := ((hnode.2 r hr).range b.1 b.2 (ListNode.mem_orderedEntries.mp hb)).1
    exact lt_of_lt_of_le hbefore ((hrest.bounds_of_mem hr).1.trans hbehind)

theorem Chain.entriesFrom (h : Chain c l (xs ++ q :: ys) tail) (hm : Represents l (xs ++ q :: ys) m)
    (hq : (l.nodes q).checkRange startKey = true) :
    (l.entriesOf (q :: ys)).filter (fun e => startKey ≤ e.1) = m.entriesFrom startKey := by
  obtain ⟨mid, -, hranges⟩ := abut_append.mp h.ranges
  have hlow : l.low q ≤ startKey := (ListNode.checkRange_eq_true_iff.mp hq).1
  refine OrderedMap.eq_entriesFrom ((sorted_entriesOf hranges fun p hp =>
    h.node p (List.mem_append_right _ hp)).filter _) fun k v => ?_
  rw [List.mem_filter, entriesOf, List.mem_flatMap, decide_eq_true_eq, and_comm, hm k v]
  refine and_congr_right fun hk => ?_
  constructor
  · rintro ⟨p, hp, hkv⟩
    exact ⟨p, List.mem_append_right _ hp, ListNode.mem_orderedEntries.mp hkv⟩
  · rintro ⟨p, hp, hkv⟩
    rcases List.mem_append.mp hp with hbefore | hbehind
    · -- the nodes before `q` end where `q` begins
      have hlt : k < l.high p := ((h.node p hp).range k v hkv).2
      exact absurd (lt_of_lt_of_le hlt ((h.ranges.order.1 p hbefore).trans hlow)) (Nat.not_lt.mpr hk)
    · exact ⟨p, hbehind, ListNode.mem_orderedEntries.mpr hkv⟩

/-! ### Scanning the chain -/

/-- What a scan may change in the list. -/
structure Scanned (c : ℕ) (l l' : LinkedList) (ps : List Ptr) (tail : Ptr) : Prop where
  chain : Chain c l' ps tail
  size : l'.size = l.size
  entries : ∀ p, (l'.nodes p).orderedEntries = (l.nodes p).orderedEntries

theorem Chain.scanned_refl (h : Chain c l ps tail) : Scanned c l l ps tail := ⟨h, rfl, fun _ => rfl⟩

theorem Scanned.trans {l'' : LinkedList} (h : Scanned c l l' ps tail) (h' : Scanned c l' l'' ps tail) :
    Scanned c l l'' ps tail :=
  ⟨h'.chain, h'.size.trans h.size, fun p => (h'.entries p).trans (h.entries p)⟩

theorem Scanned.represents (h : Scanned c l l' ps tail) (hm : Represents l ps m) : Represents l' ps m := by
  intro k v
  rw [hm k v]
  refine exists_congr fun p => and_congr_right fun _ => ?_
  rw [← ListNode.mem_orderedEntries, ← ListNode.mem_orderedEntries, h.entries]

theorem Scanned.entriesOf (h : Scanned c l l' ps tail) (xs : List Ptr) : l'.entriesOf xs = l.entriesOf xs := by
  unfold LinkedList.entriesOf
  simp only [h.entries]

theorem Chain.scanned (h : Chain c l (xs ++ q :: ys) tail) {f : ℕ → ℕ} {last lock : ℕ}
    (hrest : ((l.nodes q).setPermuter f last lock).AtRest c q) :
    Scanned c l (l.modify q fun _ => (l.nodes q).setPermuter f last lock) (xs ++ q :: ys) tail := by
  refine ⟨h.modify le_rfl rfl rfl rfl rfl hrest, rfl, fun p => ?_⟩
  by_cases hpq : p = q
  · rw [hpq, modify_nodes_self]
    rfl
  · rw [modify_nodes_of_ne hpq]

theorem Chain.scanLoop_tail (h : Chain c l ps tail) (hroom : vec.length < range) :
    scanLoop S startKey range head (fuel + 2) l tail vec = some (l, vec) := by
  have hnext : (l.nodes tail).nextPtr = none := h.linked.neighbours.2
  have hself : l.modify tail (ListNode.setVersion 2) = l := by rw [← h.last.free, modify_setVersion_self]
  have hlock : l.readLock tail = (2, l) := by
    rw [LinkedList.readLock, genId, h.last.free, (VersionedLock.lock_of_even rfl (by norm_num)).2]
    exact congrArg (Prod.mk 2) hself
  rw [LinkedList.scanLoop, if_neg (Nat.not_le.mpr hroom), hlock]
  simp [h.last.live, ListNode.scan, hnext, modify_eq_self]

theorem Chain.scanLoop_step {nx : Ptr} (h : Chain c l (xs ++ q :: ys) tail) (hc : c < VersionedLock.period)
    (hnext : l.next q = some nx) (hroom : vec.length < range) :
    ∃ l', Scanned c l l' (xs ++ q :: ys) tail ∧
      LinkedList.scanLoop S startKey range head (fuel + 2) l q vec =
        let out := vec ++ (((l.nodes q).orderedEntries.filter fun e => startKey ≤ e.1).map Prod.snd).take
          (range - vec.length)
        if out.length = range then some (l', out)
        else LinkedList.scanLoop S startKey range head (fuel + 1) l' nx out := by
  have hmem : q ∈ xs ++ q :: ys := by simp
  have hnode := h.node q hmem
  have hnext' : (l.nodes q).nextPtr = some nx := hnext
  obtain ⟨f, last, lock, hrest, hscan⟩ := hnode.scan hnext' hroom
  refine ⟨_, h.scanned hrest, ?_⟩
  rw [LinkedList.scanLoop, if_neg (Nat.not_le.mpr hroom), h.readLock hc hmem,
    if_neg (Nat.ne_of_gt hnode.free.2), hnode.live, if_neg Bool.false_ne_true, hscan, Option.bind_some]
  dsimp only
  rw [modify_nodes_self]
  change (if (_ == range) = true then _ else if VersionedLock.readUnlock _ (l.nodes q).verLock = true then
    (l.nodes q).nextPtr.bind _ else _) = _
  rw [VersionedLock.readUnlock, beq_self_eq_true, if_pos rfl, hnext', Option.bind_some]
  simp only [beq_iff_eq]

theorem scanLoop_of_le (hfull : range ≤ vec.length) (values : List ℕ) :
    LinkedList.scanLoop S startKey range head (fuel + 1) l q vec =
      some (l, vec ++ values.take (range - vec.length)) := by
  rw [LinkedList.scanLoop, if_pos hfull, Nat.sub_eq_zero_of_le hfull, List.take_zero, List.append_nil]

/-- The loop from a node on appends the values of the node and of those behind it. -/
theorem Chain.scanLoop (h : Chain c l (xs ++ ys) tail) (hq : (ys ++ [tail]).head? = some q)
    (hc : c < VersionedLock.period) (hfuel : ys.length + 2 ≤ fuel) :
    ∃ l', Scanned c l l' (xs ++ ys) tail ∧ LinkedList.scanLoop S startKey range head fuel l q vec =
      some (l', vec ++ (((l.entriesOf ys).filter fun e => startKey ≤ e.1).map Prod.snd).take
        (range - vec.length)) := by
  induction ys generalizing l xs q vec fuel with
  | nil =>
    obtain rfl : tail = q := Option.some.inj hq
    obtain ⟨f, rfl⟩ : ∃ f, fuel = f + 2 := ⟨fuel - 2, (Nat.sub_add_cancel hfuel).symm⟩
    refine ⟨l, h.scanned_refl, ?_⟩
    rcases Nat.lt_or_ge vec.length range with hroom | hfull
    · rw [h.scanLoop_tail hroom, show l.entriesOf [] = [] from rfl, List.filter_nil, List.map_nil, List.take_nil,
        List.append_nil]
    · exact scanLoop_of_le hfull _
  | cons y ys ih =>
    obtain rfl : y = q := Option.some.inj hq
    rw [List.length_cons] at hfuel
    obtain ⟨f, rfl⟩ : ∃ f, fuel = f + 2 := ⟨fuel - 2, by omega⟩
    by_cases hroom : range ≤ vec.length
    · exact ⟨l, h.scanned_refl, scanLoop_of_le hroom _⟩
    obtain ⟨nx, zs, hys, hnext⟩ := h.exists_next
    obtain ⟨l', hl', hloop⟩ := h.scanLoop_step hc hnext (Nat.lt_of_not_le hroom)
    rw [show l.entriesOf (y :: ys) = (l.nodes y).orderedEntries ++ l.entriesOf ys from List.flatMap_cons,
      List.filter_append, List.map_append, List.take_append, ← List.append_assoc]
    dsimp only at hloop
    generalize (((l.nodes y).orderedEntries.filter fun e => startKey ≤ e.1).map Prod.snd) = here at hloop ⊢
    -- what is still asked for after this node
    have hleft : range - (vec ++ here.take (range - vec.length)).length = range - vec.length - here.length := by
      rw [List.length_append, List.length_take]
      omega
    by_cases hend : (vec ++ here.take (range - vec.length)).length = range
    · refine ⟨l', hl', ?_⟩
      rw [hloop, if_pos hend, ← hleft, hend, Nat.sub_self, List.take_zero, List.append_nil]
    · have hchain : Chain c l' ((xs ++ [y]) ++ ys) tail := by simpa using hl'.chain
      obtain ⟨l'', hl'', hrest⟩ :=
        ih hchain (by rw [hys, List.head?_cons]) (show ys.length + 2 ≤ f + 1 by omega)
      refine ⟨l'', hl'.trans (by simpa using hl''), ?_⟩
      rw [hloop, if_neg hend, hrest, hl'.entriesOf, hleft]

theorem Chain.scan (h : Chain c l ps tail) (hm : Represents l ps m) (hc : c < VersionedLock.period)
    (hkey : startKey < keyMax) (hp : p ∈ ps ++ [tail]) (hfuel : ps.length + 3 ≤ fuel) :
    ∃ l',
    LinkedList.scan S startKey range fuel l p = some (l', ((m.entriesFrom startKey).take range).map Prod.snd) ∧
      l'.size = l.size ∧ Kept c l ps l' tail m := by
  obtain ⟨xs, q, ys, rfl, hq, hfind⟩ := h.findNode hkey hp (show _ ≤ fuel by omega)
  rw [List.length_append, List.length_cons] at hfuel
  obtain ⟨l', hl', hloop⟩ := h.scanLoop rfl hc (show ys.length + 3 ≤ fuel by omega)
  refine ⟨l', ?_, hl'.size, xs ++ q :: ys, hl'.chain, hl'.represents hm, by rw [hl'.size]⟩
  rw [LinkedList.scan, hfind, Option.bind_some, hloop, h.entriesFrom hm hq, List.map_take]
  rfl

end LinkedList

end Hkv.PacTree
