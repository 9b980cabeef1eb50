import Hkv.DataCalls

/-!
# Inserting into the data layer

An insert into a full node splits it: the new node gets the keys from the median on, enters
the chain behind the old one, and the new key goes to the half it belongs to.
-/
namespace Hkv.PacTree

open DoublyLinked RangePartition KeyedSort

namespace ListNode

variable {S : StdSort} {n : ListNode} {k v key median : ℕ} (raw : ListNode) (value : ℕ) (e : Ptr)

theorem Sound.insertIf (cond : Prop) [Decidable cond] {i : ℕ} (hs : n.Sound) (hi : i < maxEntries)
    (hfree : n.test i = false) (hnew : ∀ v, ¬ n.Holds key v) :
    (if cond then n.insertAtIndex (key, value) i (getKeyFingerPrint key) else n).Sound ∧
      ∀ k v, (if cond then n.insertAtIndex (key, value) i (getKeyFingerPrint key) else n).Holds k v ↔
        n.Holds k v ∨ (k = key ∧ v = value) ∧ cond := by
  by_cases hcond : cond
  · simp only [hcond, if_true, and_true]
    refine ⟨hs.insertAtIndex hnew, fun k v => ?_⟩
    rw [holds_insertAtIndex hi hfree, Prod.mk.injEq, eq_comm, eq_comm (a := value)]
  · simp only [hcond, if_false, and_false, or_false]
    exact ⟨hs, fun _ _ => trivial⟩

theorem Sound.splitNew (hs : n.Sound) (hfull : n.Full) (hlow : ∃ i < maxEntries, (n.keyArray i).1 < median)
    (hnew : ∀ v, ¬ n.Holds key v) :
    (n.splitNew raw median e key value (getKeyFingerPrint key)).Sound ∧
      ∀ k v, (n.splitNew raw median e key value (getKeyFingerPrint key)).Holds k v ↔
        n.Holds k v ∧ median ≤ k ∨ (k = key ∧ v = value) ∧ median ≤ key := by
  have hmoved := hs.moveUpper hfull median raw
  have hholds : ∀ k v, (n.moveUpper median raw.construct).1.Holds k v ↔ n.Holds k v ∧ median ≤ k := by
    intro k v
    rw [hmoved.holds]
    constructor
    · rintro ⟨i, hi, hkv, hk⟩
      exact ⟨⟨i, hfull i hi, hkv⟩, hk⟩
    · rintro ⟨⟨i, hi, hkv⟩, hk⟩
      exact ⟨i, lt_of_test hi, hkv, hk⟩
  have hcount : (n.moveUpper median raw.construct).2 < maxEntries := by
    obtain ⟨i, hi, hlt⟩ := hlow
    rw [hmoved.count]
    have hne :=
      List.countP_lt_length_iff (p := fun i => decide (median ≤ (n.keyArray i).1)) (l := List.range maxEntries)
    rw [List.length_range] at hne
    exact hne.mpr ⟨i, List.mem_range.mpr hi, by simpa using hlt⟩
  have hfree : (n.moveUpper median raw.construct).1.test (n.moveUpper median raw.construct).2 = false := by
    rw [← Bool.not_eq_true, hmoved.used]
    exact lt_irrefl _
  obtain ⟨hsound, hboth⟩ := hmoved.sound.insertIf value (median ≤ key) hcount hfree fun v hv =>
    hnew v ((hholds key v).mp hv).1
  exact ⟨⟨hsound.finger, hsound.distinct⟩, fun k v => (hboth k v).trans (or_congr_left (hholds k v))⟩

theorem Sound.splitOld (hs : n.Sound) (hmedian : ∃ i < maxEntries, (n.keyArray i).1 = median)
    (hnew : ∀ v, ¬ n.Holds key v) :
    (n.splitOld median e key value (getKeyFingerPrint key)).Sound ∧
      ∀ k v, (n.splitOld median e key value (getKeyFingerPrint key)).Holds k v ↔
        n.Holds k v ∧ k < median ∨ (k = key ∧ v = value) ∧ key < median := by
  have hdrop := dropUpper_spec n median
  let low : ListNode := { n with max := median, nextPtr := some e, bitMap := (n.dropUpper median).1 }
  have htest : ∀ j, low.test j = true ↔ n.test j = true ∧ (n.keyArray j).1 < median := by
    intro j
    change (n.dropUpper median).1.getLsbD j = true ↔ _
    rw [hdrop.test]
    exact ⟨fun h => ⟨h.1, h.2 (lt_of_test h.1)⟩, fun h => ⟨h.1, fun _ => h.2⟩⟩
  have hlow : low.Sound := ⟨fun i hi => hs.finger i ((htest i).mp hi).1,
    fun i j hi hj => hs.distinct i j ((htest i).mp hi).1 ((htest j).mp hj).1⟩
  have hholds : ∀ k v, low.Holds k v ↔ n.Holds k v ∧ k < median := by
    intro k v
    have hkeys : low.keyArray = n.keyArray := rfl
    simp only [Holds, htest, hkeys]
    grind
  -- The slot of the median is one that has become free.
  obtain ⟨i, hremove⟩ : ∃ i, (n.dropUpper median).2.2 = some i := by
    obtain ⟨j, hj, hjm⟩ := hmedian
    rw [← Option.ne_none_iff_exists']
    exact fun hnone => absurd (hdrop.none hnone j hj) (by omega)
  obtain ⟨hi, hik⟩ := hdrop.freed i hremove
  have hfree : low.test i = false := by
    rw [← Bool.not_eq_true, htest]
    exact fun h => absurd h.2 (Nat.not_lt.mpr hik)
  obtain ⟨hsound, hboth⟩ := hlow.insertIf value (key < median) hi hfree fun v hv =>
    hnew v ((hholds key v).mp hv).1
  unfold ListNode.splitOld
  dsimp only
  rw [hremove, Option.getD_some]
  exact ⟨hsound, fun k v => (hboth k v).trans (or_congr_left (hholds k v))⟩

theorem splitOld_header (n : ListNode) (median key : ℕ) (keyHash : BitVec 8) :
    SameHeader { n with max := median, nextPtr := some e } (n.splitOld median e key value keyHash) := by
  unfold ListNode.splitOld
  dsimp only
  split_ifs
  · exact ⟨⟨rfl, rfl, rfl, rfl⟩, rfl, rfl, rfl, rfl, rfl⟩
  · exact ⟨⟨rfl, rfl, rfl, rfl⟩, rfl, rfl, rfl, rfl, rfl⟩

theorem splitOld_setVersion {keyHash : BitVec 8} {ver : ℕ} :
    (n.setVersion ver).splitOld median e key value keyHash =
    (n.splitOld median e key value keyHash).setVersion ver := by
  unfold ListNode.splitOld
  dsimp only
  split_ifs
  · rfl
  · rfl

theorem Sound.splitNew_versions (hs : n.Sound) (hfull : n.Full) (median key : ℕ) (keyHash : BitVec 8) :
    (n.splitNew raw median e key value keyHash).verLock = 2 ∧
      (n.splitNew raw median e key value keyHash).lastScanVersion = 0 ∧
      (n.splitNew raw median e key value keyHash).pLock = 2 := by
  have hheader := (hs.moveUpper hfull median raw).header
  unfold ListNode.splitNew
  dsimp only
  split_ifs
  · exact ⟨hheader.verLock, hheader.lastScanVersion, hheader.pLock⟩
  · exact ⟨hheader.verLock, hheader.lastScanVersion, hheader.pLock⟩

end ListNode

namespace LinkedList

variable {S : StdSort} {c fuel key value k v median : ℕ} {l l' : LinkedList} {ps xs ys : List Ptr}
    {p q e tail : Ptr}
  {m : OrderedMap ℕ ℕ}

/-! ### Changing the links -/

/-- The nodes of `xs` and `behind` are as before, but the first one of `behind` points back to `e`. -/
def Relinked (l l' : LinkedList) (xs behind : List Ptr) (e : Ptr) : Prop :=
  ∀ p ∈ xs ++ behind, l'.nodes p = if behind.head? = some p then (l.nodes p).setPrev (some e) else l.nodes p

theorem Relinked.imp {P : ListNode → Prop} (h : Relinked l l' xs ys e)
    (hP : ∀ n r, P n → P (ListNode.setPrev r n)) (hp : p ∈ xs ++ ys)
    (hold : P (l.nodes p)) : P (l'.nodes p) := by
  rw [h p hp]
  split_ifs
  · exact hP _ _ hold
  · exact hold

theorem Relinked.field {α : Type} (h : Relinked l l' xs ys e) (g : ListNode → α)
    (hg : ∀ n r, g (ListNode.setPrev r n) = g n) (hp : p ∈ xs ++ ys) : g (l'.nodes p) = g (l.nodes p) :=
  h.imp (P := fun n => g n = g (l.nodes p)) (fun n r hn => (hg n r).trans hn) hp rfl

theorem Relinked.exists_holds (h : Relinked l l' xs (ys ++ [tail]) e) :
    (∃ p ∈ xs ++ ys, (l'.nodes p).Holds k v) ↔ ∃ p ∈ xs ++ ys, (l.nodes p).Holds k v := by
  refine exists_congr fun p => and_congr_right fun hp => ?_
  rw [h.field (fun n => n.Holds k v) (fun _ _ => rfl) (by grind)]

theorem Chain.rebuild (olds news : List Ptr) (h : Chain c l (xs ++ (olds ++ ys)) tail)
    (hrest : Relinked l l' xs (ys ++ [tail]) e) (hsize : l.size ≤ l'.size)
    (hlinked : Linked l'.next l'.prev none (xs ++ (news ++ (ys ++ [tail]))) none)
    (hnodup : (xs ++ (news ++ (ys ++ [tail]))).Nodup) (hhead : (xs ++ (news ++ ys)).head? = some l'.headPtr)
    (hranges : Abut l'.low l'.high 0 (xs ++ (news ++ ys)) keyMax)
    (hnews : ∀ p ∈ news, p < l'.size ∧ (l'.nodes p).AtRest (c + 1) p) :
    Chain (c + 1) l' (xs ++ (news ++ ys)) tail := by
  have hsplit : xs ++ (news ++ ys) ++ [tail] = xs ++ (news ++ (ys ++ [tail])) := by simp only [List.append_assoc]
  refine ⟨hsplit ▸ hlinked, hsplit ▸ hnodup, fun p hp => ?_, hhead, hranges, fun p hp => ?_, ?_⟩
  · by_cases hnew : p ∈ news
    · exact (hnews p hnew).1
    · exact (h.alloc p (by grind)).trans_le hsize
  · by_cases hnew : p ∈ news
    · exact (hnews p hnew).2
    · exact hrest.imp (fun n r hn => hn.setPrev r) (by grind) ((h.node p (by grind)).mono (Nat.le_succ c))
  · exact hrest.imp (fun n r hn => ⟨hn.min, hn.full, hn.free, hn.live⟩) (by simp) h.last

/-! ### A split -/

/-- A node enters the chain behind `q` and takes over the upper part of its range. -/
theorem Chain.splice (h : Chain c l (xs ++ q :: ys) tail) (hsize : l'.size = l.size + 1)
    (hhead : l'.headPtr = l.headPtr) (hmid : l.low q < median ∧ median < l.high q)
    (hq : l'.low q = l.low q ∧ l'.high q = median ∧ l'.next q = some l.size ∧ l'.prev q = l.prev q)
    (he : l'.low l.size = median ∧ l'.high l.size = l.high q ∧ l'.next l.size = l.next q ∧
      l'.prev l.size = some q)
    (hqrest : (l'.nodes q).AtRest (c + 1) q) (herest : (l'.nodes l.size).AtRest (c + 1) l.size)
    (hrest : Relinked l l' xs (ys ++ [tail]) l.size) : Chain (c + 1) l' (xs ++ q :: l.size :: ys) tail := by
  obtain ⟨hql, hqh, hqn, hqp⟩ := hq
  obtain ⟨hel, heh, hen, hep⟩ := he
  have hbody : ∀ r ∈ xs ++ ys, r ∈ xs ++ (ys ++ [tail]) := by grind
  have hlinked := h.linked
  have hnodup := h.nodup
  rw [List.append_assoc, List.cons_append] at hlinked hnodup
  refine Chain.rebuild [q] [q, l.size] h hrest (by omega) ?_ ?_ ?_ ?_ ?_
  · refine hlinked.insert_after hnodup hqn hqp hen hep (fun x hx => hrest.field ListNode.nextPtr (fun _ _ => rfl) hx)
      fun x hx => ?_
    change (l'.nodes x).prevPtr = _
    rw [hrest x hx]
    split_ifs
    · rfl
    · rfl
  · have hfresh : l.size ∉ xs ++ q :: (ys ++ [tail]) :=
      fun hmem => lt_irrefl _ (h.alloc l.size (by simpa using hmem))
    have hperm : (xs ++ q :: l.size :: (ys ++ [tail])).Perm (l.size :: (xs ++ q :: (ys ++ [tail]))) := by
      rw [show xs ++ q :: l.size :: (ys ++ [tail]) = (xs ++ [q]) ++ l.size :: (ys ++ [tail]) by simp]
      refine List.perm_middle.trans ?_
      simp
    exact hperm.nodup_iff.mpr (List.nodup_cons.mpr ⟨hfresh, hnodup⟩)
  · rw [hhead, ← h.head]
    cases xs with
    | nil => rfl
    | cons x xs => rfl
  · have hcut : l.low q < l'.high q ∧ l'.high q < l.high q := by rwa [hqh]
    exact h.ranges.cut hcut.1 hcut.2 hql (by rw [hel, hqh]) heh
      (fun r hr => hrest.field ListNode.min (fun _ _ => rfl) (hbody r hr))
      fun r hr => hrest.field ListNode.max (fun _ _ => rfl) (hbody r hr)
  · rw [hsize, List.forall_mem_cons, List.forall_mem_singleton]
    exact ⟨⟨Nat.lt_succ_of_lt (h.alloc q (by simp)), hqrest⟩, Nat.lt_succ_self _, herest⟩

/-- The list that `split` leaves, where `nx` is the node behind `q`. -/
def afterSplit (S : StdSort) (l : LinkedList) (q nx : Ptr) (key value : ℕ) (keyHash : BitVec 8) : LinkedList :=
  ({ headPtr := l.headPtr
     nodes := Function.update (Function.update l.nodes l.size
       ((l.nodes q).splitNew (l.nodes l.size) ((l.nodes q).median S) l.size key value keyHash)) q
       ((l.nodes q).splitOld ((l.nodes q).median S) l.size key value keyHash)
     size := l.size + 1
     log := l.log ++ [⟨(l.nodes q).median S, (l.nodes q).curPtr, l.size, key, value⟩] } : LinkedList).modify nx
       (ListNode.setPrev (some l.size))

theorem split_eq {nx : Ptr} {keyHash : BitVec 8} (hnext : (l.nodes q).nextPtr = some nx) :
    l.split S q key value keyHash = some (l.afterSplit S q nx key value keyHash, l.size) := by
  have hnew : ((l.nodes q).splitNew (l.nodes l.size) ((l.nodes q).median S) l.size key value keyHash).nextPtr =
    some nx :=
    hnext
  unfold split
  dsimp only
  rw [hnew, Option.map_some]
  rfl

section

variable {nx : Ptr} {keyHash : BitVec 8} (hq : q ≠ l.size) (hnxq : nx ≠ q) (hnx : nx ≠ l.size)

include hnxq in
theorem afterSplit_old : (l.afterSplit S q nx key value keyHash).nodes q =
    (l.nodes q).splitOld ((l.nodes q).median S) l.size key value keyHash := by
  rw [afterSplit, modify_nodes_of_ne hnxq.symm]
  exact Function.update_self ..

include hq hnx in
theorem afterSplit_new : (l.afterSplit S q nx key value keyHash).nodes l.size =
    (l.nodes q).splitNew (l.nodes l.size) ((l.nodes q).median S) l.size key value keyHash := by
  rw [afterSplit, modify_nodes_of_ne hnx.symm]
  exact (Function.update_of_ne hq.symm _ _).trans (Function.update_self ..)

theorem afterSplit_of_ne (hpq : p ≠ q) (hpe : p ≠ l.size) : (l.afterSplit S q nx key value keyHash).nodes p =
    if nx = p then (l.nodes p).setPrev (some l.size) else l.nodes p := by
  have hbase : ∀ a b, Function.update (Function.update l.nodes l.size a) q b p = l.nodes p := fun a b => by
    rw [Function.update_of_ne hpq, Function.update_of_ne hpe]
  by_cases hp : nx = p
  · subst hp
    rw [afterSplit, modify_nodes_self, if_pos rfl]
    exact congrArg _ (hbase _ _)
  · rw [afterSplit, modify_nodes_of_ne (Ne.symm hp), if_neg hp]
    exact hbase _ _

theorem nodeInsert_full (hq : q ≠ l.size) (hnx : nx ≠ l.size)
    (hfull : (l.nodes q).getFreeIndex key (getKeyFingerPrint key) = .noFree) (hnext : (l.nodes q).nextPtr = some nx) :
    nodeInsert S key value l q = some (l.afterSplit S q nx key value (getKeyFingerPrint key), true) := by
  have hnew : ((l.nodes q).splitNew (l.nodes l.size) ((l.nodes q).median S) l.size key value
    (getKeyFingerPrint key)).nextPtr = some nx := hnext
  unfold nodeInsert
  dsimp only
  rw [hfull]
  dsimp only
  rw [split_eq hnext, Option.bind_some]
  dsimp only
  rw [afterSplit_new hq hnx, hnew, Option.map_some, afterSplit, modify_modify]
  rfl

end

/-- The nodes after an insert into the full node `q`. -/
structure SplitAt (S : StdSort) (key value : ℕ) (l : LinkedList) (q : Ptr) (l' : LinkedList) : Prop where
  headPtr : l'.headPtr = l.headPtr
  size : l'.size = l.size + 1
  log : l'.log = l.log ++ [⟨(l.nodes q).median S, (l.nodes q).curPtr, l.size, key, value⟩]
  old : l'.nodes q = ((l.nodes q).splitOld ((l.nodes q).median S) l.size key value (getKeyFingerPrint key)).setVersion
    ((l.nodes q).verLock + 2)
  new : l'.nodes l.size = (l.nodes q).splitNew (l.nodes l.size) ((l.nodes q).median S) l.size key value
    (getKeyFingerPrint key)
  others : ∀ p, p ≠ q → p ≠ l.size →
    l'.nodes p = if l.next q = some p then (l.nodes p).setPrev (some l.size) else l.nodes p

/-- The section of an `insert` into a full node, with `nx` behind it. The predecessor of `nx` is set
twice. -/
theorem section_full {nx : Ptr} (value : ℕ) (hfull : (l.nodes q).getFreeIndex key (getKeyFingerPrint key) = .noFree)
    (hq : q ≠ l.size) (hnext : l.next q = some nx) (hnxq : nx ≠ q) (hnx : nx ≠ l.size) :
    ∃ l', ((nodeInsert S key value (l.locked q) q).map fun s => (s.1.writeUnlock q, s.2)) = some (l', true) ∧
      SplitAt S key value l q l' := by
  have hlocked : (l.locked q).nodes q = (l.nodes q).setVersion ((l.nodes q).verLock + 1) := modify_nodes_self
  have helse : ∀ p, p ≠ q → (l.locked q).nodes p = l.nodes p := fun p hp => modify_nodes_of_ne hp
  have hsize : (l.locked q).size = l.size := rfl
  have hinsert : nodeInsert S key value (l.locked q) q =
      some ((l.locked q).afterSplit S q nx key value (getKeyFingerPrint key), true) :=
    nodeInsert_full hq hnx (by rw [hlocked]; exact hfull) (by rw [hlocked]; exact hnext)
  rw [hinsert, Option.map_some]
  refine ⟨_, rfl, rfl, rfl, ?_, ?_, ?_, fun p hpq hpe => ?_⟩
  · change l.log ++ [⟨((l.locked q).nodes q).median S, ((l.locked q).nodes q).curPtr, l.size, key, value⟩] = _
    rw [hlocked]
    rfl
  · rw [LinkedList.writeUnlock, modify_nodes_self, afterSplit_old hnxq, hlocked, hsize, ListNode.splitOld_setVersion,
      ListNode.setVersion_setVersion]
    rfl
  · have hnew : ((l.locked q).afterSplit S q nx key value (getKeyFingerPrint key)).nodes l.size = _ :=
      afterSplit_new hq hnx
    rw [LinkedList.writeUnlock, modify_nodes_of_ne hq.symm]
    rw [hnew, hlocked, hsize, helse _ hq.symm]
    rfl
  · rw [LinkedList.writeUnlock, modify_nodes_of_ne hpq, hnext]
    dsimp only
    rw [afterSplit_of_ne (l := l.locked q) hpq hpe, helse p hpq, hsize]
    simp only [Option.some.injEq]

/-- A full node is split in two, and the two halves hold what it held and the new key. -/
theorem Chain.split (h : Chain c l (xs ++ q :: ys) tail) (hm : Represents l (xs ++ q :: ys) m)
    (hq : (l.nodes q).checkRange key = true) (hfull : (l.nodes q).Full) (hnew : ∀ v, ¬ (l.nodes q).Holds key v)
    (hl' : SplitAt S key value l q l') : Kept (c + 1) l (xs ++ q :: ys) l' tail (m.set key value) := by
  have hmem : q ∈ xs ++ q :: ys := by simp
  have hnode := h.node q hmem
  have hkey := ListNode.checkRange_eq_true_iff.mp hq
  obtain ⟨⟨i, hi, him⟩, j, hj, hjm⟩ := hnode.sound.median_spec (S := S) hfull
  have hinrange : ∀ i < maxEntries, l.low q ≤ ((l.nodes q).keyArray i).1 ∧
    ((l.nodes q).keyArray i).1 < l.high q :=
    fun i hi => hnode.range _ _ ⟨i, hfull i hi, rfl⟩
  have hmid : l.low q < (l.nodes q).median S ∧ (l.nodes q).median S < l.high q :=
    ⟨lt_of_le_of_lt (hinrange j hj).1 hjm, him ▸ (hinrange i hi).2⟩
  obtain ⟨holdSound, holdHolds⟩ := hnode.sound.splitOld value l.size ⟨i, hi, him⟩ hnew
  obtain ⟨hnewSound, hnewHolds⟩ := hnode.sound.splitNew (l.nodes l.size) value l.size hfull ⟨j, hj, hjm⟩ hnew
  obtain ⟨hver, hscan, hplock⟩ := hnode.sound.splitNew_versions (l.nodes l.size) value l.size hfull
    ((l.nodes q).median S) key (getKeyFingerPrint key)
  have hheader := ListNode.splitOld_header value l.size (l.nodes q) ((l.nodes q).median S) key (getKeyFingerPrint key)
  have hrest : Relinked l l' xs (ys ++ [tail]) l.size := by
    intro p hp
    have hpe : p ≠ l.size := ne_of_lt (h.alloc p (by grind))
    rw [hl'.others p (h.ne_of_mem hp) hpe, h.neighbours.2]
  have hchain : Chain (c + 1) l' (xs ++ q :: l.size :: ys) tail := by
    refine h.splice hl'.size hl'.headPtr hmid ?_ ?_ ?_ ?_ hrest
    · simp only [low, high, next, prev, hl'.old]
      exact ⟨hheader.min, hheader.max, hheader.nextPtr, hheader.prevPtr⟩
    · simp only [low, high, next, prev, hl'.new]
      exact ⟨rfl, rfl, rfl, congrArg some hnode.cur⟩
    · rw [hl'.old]
      refine hnode.written holdSound.setVersion (fun k v hkv => ?_)
        ⟨hheader.curPtr, hheader.deleted, hheader.lastScanVersion, hheader.pLock⟩ rfl
      change (ListNode.splitOld ..).min ≤ k ∧ k < (ListNode.splitOld ..).max
      rw [hheader.min, hheader.max]
      rcases (holdHolds k v).mp hkv with ⟨hkv, hlt⟩ | ⟨⟨rfl, -⟩, hlt⟩
      · exact ⟨(hnode.range k v hkv).1, hlt⟩
      · exact ⟨hkey.1, hlt⟩
    · rw [hl'.new]
      refine ⟨hnewSound, fun k v hkv => ?_, rfl, rfl, ?_, ?_, ?_, fun heq => ?_, ?_⟩
      · rcases (hnewHolds k v).mp hkv with ⟨hkv, hle⟩ | ⟨⟨rfl, -⟩, hle⟩
        · exact ⟨hle, (hnode.range k v hkv).2⟩
        · exact ⟨hle, hkey.2⟩
      · exact hver ▸ ⟨rfl, Nat.two_pos⟩
      · omega
      · omega
      · omega
      · exact hplock ▸ ⟨rfl, Nat.two_pos⟩
  have hlength : l'.size + (xs ++ q :: ys).length = l.size + (xs ++ q :: l.size :: ys).length := by
    rw [hl'.size]
    simp only [List.length_append, List.length_cons]
    omega
  refine ⟨xs ++ q :: l.size :: ys, hchain, ?_, hlength⟩
  refine hm.set h hq (H := fun k v => k = key ∧ v = value ∨ k ≠ key ∧ (l.nodes q).Holds k v) (fun k v => ?_)
    fun k v => Iff.rfl
  rw [exists_mem_append_cons, exists_mem_append_cons, hrest.exists_holds, hl'.old, hl'.new, ListNode.holds_setVersion,
    holdHolds, hnewHolds, or_assoc]
  grind

theorem Chain.insert (h : Chain c l ps tail) (hm : Represents l ps m) (hc : c < VersionedLock.period)
    (hkey : key < keyMax) (hp : p ∈ ps ++ [tail]) (hfuel : ps.length + 3 ≤ fuel) :
    ∃ l', LinkedList.insert S key value fuel l p = some (l', (m.find? key).isNone) ∧ l'.size ≤ l.size + 1 ∧
      Kept (c + 1) l ps l' tail (if (m.find? key).isNone then m.set key value else m) := by
  obtain ⟨xs, q, ys, rfl, hq, hcall⟩ := h.writeLoop hc hkey hp hfuel (nodeInsert S key value) fun _ head => head
  have hmem : q ∈ xs ++ q :: ys := by simp
  have hsound := (h.node q hmem).sound
  have hfind : ∀ v, m.find? key = some v ↔ (l.nodes q).Holds key v := fun v => hm.find?_iff h hmem hq
  have hspec := hsound.getFreeIndex_spec key
  have hnone : (∀ v, ¬ (l.nodes q).Holds key v) → m.find? key = none := fun hno =>
    Option.eq_none_iff_forall_ne_some.mpr fun v hv => hno v ((hfind v).mp hv)
  rw [LinkedList.insert, hcall]
  cases hindex : (l.nodes q).getFreeIndex key (getKeyFingerPrint key) with
  | keyExists =>
    rw [hindex] at hspec
    obtain ⟨v, hv⟩ := hspec
    rw [(hfind v).mpr hv, nodeInsert, getFreeIndex_locked, hindex]
    refine ⟨_, rfl, Nat.le_succ _, xs ++ q :: ys, ?_⟩
    rw [writeUnlock_locked_self]
    exact ⟨(h.touch hm).1, (h.touch hm).2, rfl⟩
  | index i =>
    rw [hindex] at hspec
    obtain ⟨hno, hi, hfree⟩ := hspec
    rw [hnone hno, nodeInsert, getFreeIndex_locked, hindex]
    refine ⟨_, rfl, Nat.le_succ _, ?_⟩
    rw [writeUnlock_locked fun _ _ => rfl]
    refine h.section_set hm hq (hsound.insertAtIndex hno) ⟨⟨rfl, rfl, rfl, rfl⟩, rfl, rfl, rfl, rfl, rfl⟩
      fun k v => ?_
    rw [ListNode.holds_insertAtIndex hi hfree, Prod.mk.injEq]
    grind
  | noFree =>
    rw [hindex] at hspec
    obtain ⟨hno, hfull⟩ := hspec
    obtain ⟨nx, zs, hzs, hnext⟩ := h.exists_next
    have hnxmem : nx ∈ ys ++ [tail] := hzs ▸ List.mem_cons_self
    have hnxq : nx ≠ q := h.ne_of_mem (List.mem_append_right _ hnxmem)
    have hnxsize : nx ≠ l.size := ne_of_lt (h.alloc nx (by grind))
    obtain ⟨l', hcall', hsplit⟩ := section_full (S := S) value hindex
      (ne_of_lt (h.alloc q (List.mem_append_left _ hmem))) hnext hnxq hnxsize
    rw [hcall', hnone hno]
    exact ⟨l', rfl, le_of_eq hsplit.size, h.split hm hq hfull hno hsplit⟩

end LinkedList

end Hkv.PacTree
