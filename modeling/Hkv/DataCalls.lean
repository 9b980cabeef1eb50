import Hkv.DataChain

/-!
# Calls on the data layer

A call that starts at a node of the chain works on the node that has its key. It keeps the
chain, and the map that the chain represents changes as the map operation says: an insert that
splits its node and a remove that merges two nodes change the chain, but not what it
represents otherwise.
-/
namespace Hkv.PacTree

open DoublyLinked RangePartition KeyedSort

namespace ListNode

variable {n : ListNode} {k v i ver key value : ℕ}

@[simp] theorem holds_setVersion : (n.setVersion ver).Holds k v ↔ n.Holds k v := Iff.rfl

@[simp] theorem holds_setPrev {p : Option Ptr} : (n.setPrev p).Holds k v ↔ n.Holds k v := Iff.rfl

@[simp] theorem setVersion_setVersion {ver' : ℕ} : (n.setVersion ver).setVersion ver' = n.setVersion ver' := rfl

theorem Sound.setVersion (h : n.Sound) : (n.setVersion ver).Sound := ⟨h.finger, h.distinct⟩

theorem AtRest.setPrev {c : ℕ} {p : Ptr} (h : n.AtRest c p) (q : Option Ptr) : (n.setPrev q).AtRest c p :=
  ⟨⟨h.sound.finger, h.sound.distinct⟩, h.range, h.cur, h.live, h.free, h.version, h.scanned,
    fun heq => ⟨(h.permuted heq).mem, (h.permuted heq).sorted⟩, h.scanFree⟩

end ListNode

namespace LinkedList

variable {S : StdSort} {c fuel key value k v : ℕ} {l l' : LinkedList} {ps xs ys : List Ptr} {p q r tail : Ptr}
  {m : OrderedMap ℕ ℕ} {f g : ListNode → ListNode}

/-! ### Changing one node -/

@[simp] theorem modify_nodes_self : (l.modify p f).nodes p = f (l.nodes p) := by simp [modify]

theorem modify_nodes_of_ne (h : q ≠ p) : (l.modify p f).nodes q = l.nodes q := by simp [modify, h]

@[simp] theorem modify_modify : (l.modify p f).modify p g = l.modify p fun n => g (f n) := by simp [modify]

theorem modify_eq_self (h : f (l.nodes p) = l.nodes p) : l.modify p f = l := by simp [modify, h]

theorem modify_setVersion_self : l.modify p (ListNode.setVersion (l.nodes p).verLock) = l := modify_eq_self rfl

/-! ### Locking a node of the chain -/

theorem writeLock_of_atRest (h : (l.nodes q).AtRest c q) (hc : c < VersionedLock.period) :
    l.writeLock q = ((l.nodes q).verLock, l.modify q fun n => n.setVersion (n.verLock + 1)) := by
  rw [LinkedList.writeLock, genId, (VersionedLock.lock_of_even h.free.1 (h.version_lt hc)).1]
  rfl

theorem Chain.readLock (h : Chain c l ps tail) (hc : c < VersionedLock.period) (hq : q ∈ ps) :
    l.readLock q = ((l.nodes q).verLock, l) := by
  have hnode := h.node q hq
  rw [LinkedList.readLock, genId, (VersionedLock.lock_of_even hnode.free.1 (hnode.version_lt hc)).2]
  exact congrArg (Prod.mk _) modify_setVersion_self

/-- The list while the node `q` is locked by a call. -/
def locked (l : LinkedList) (q : Ptr) : LinkedList := l.modify q fun n => n.setVersion (n.verLock + 1)

theorem writeLoop_at (hrest : (l.nodes q).AtRest c q) (hc : c < VersionedLock.period)
    (hq : (l.nodes q).checkRange key = true) (hfind : l.findNode key fuel p = some q)
    {op : LinkedList → Ptr → Option (LinkedList × Bool)} {restart : LinkedList → Ptr → Ptr} :
    writeLoop key op restart (fuel + 1) l p = (op (l.locked q) q).map fun s => (s.1.writeUnlock q, s.2) := by
  have hlocked : (l.locked q).nodes q = (l.nodes q).setVersion ((l.nodes q).verLock + 1) := modify_nodes_self
  have hlive : ((l.locked q).nodes q).deleted = false := by
    rw [hlocked]
    exact hrest.live
  have hrange : ((l.locked q).nodes q).checkRange key = true := by
    rw [hlocked]
    exact hq
  rw [LinkedList.writeLoop, hfind, Option.bind_some, writeLock_of_atRest hrest hc, if_neg (Nat.ne_of_gt hrest.free.2)]
  change (if ((l.locked q).nodes q).deleted || !((l.locked q).nodes q).checkRange key then _ else _) = _
  rw [hlive, hrange]
  rfl

theorem Chain.writeLoop (h : Chain c l ps tail) (hc : c < VersionedLock.period) (hkey : key < keyMax)
    (hp : p ∈ ps ++ [tail]) (hfuel : ps.length + 3 ≤ fuel)
    (op : LinkedList → Ptr → Option (LinkedList × Bool))
    (restart : LinkedList → Ptr → Ptr) : ∃ xs q ys, ps = xs ++ q :: ys ∧ (l.nodes q).checkRange key = true ∧
      writeLoop key op restart fuel l p = (op (l.locked q) q).map fun s => (s.1.writeUnlock q, s.2) := by
  obtain ⟨f, rfl⟩ := Nat.exists_eq_add_of_le' (show 1 ≤ fuel by omega)
  obtain ⟨xs, q, ys, rfl, hq, hfind⟩ := h.findNode hkey hp (show _ ≤ f by omega)
  exact ⟨xs, q, ys, rfl, hq, writeLoop_at (h.node q (by simp)) hc hq hfind⟩

theorem getFreeIndex_locked {keyHash : BitVec 8} :
    ((l.locked q).nodes q).getFreeIndex key keyHash = (l.nodes q).getFreeIndex key keyHash := by
  rw [locked, modify_nodes_self]
  rfl

theorem getKeyIndex_locked {keyHash : BitVec 8} :
    ((l.locked q).nodes q).getKeyIndex key keyHash = (l.nodes q).getKeyIndex key keyHash := by
  rw [locked, modify_nodes_self]
  rfl

theorem Chain.readLoop {α : Type} (h : Chain c l ps tail) (hc : c < VersionedLock.period) (hkey : key < keyMax)
    (hp : p ∈ ps ++ [tail]) (hfuel : ps.length + 3 ≤ fuel) (op : ListNode → α) :
    ∃ q ∈ ps, (l.nodes q).checkRange key = true ∧ readLoop key op fuel l p = some (l, op (l.nodes q)) := by
  obtain ⟨f, rfl⟩ := Nat.exists_eq_add_of_le' (show 1 ≤ fuel by omega)
  obtain ⟨xs, q, ys, rfl, hq, hfind⟩ := h.findNode hkey hp (show _ ≤ f by omega)
  have hmem : q ∈ xs ++ q :: ys := by simp
  have hne : (l.nodes q).verLock ≠ 0 := Nat.ne_of_gt (h.node q hmem).free.2
  refine ⟨q, hmem, hq, ?_⟩
  rw [LinkedList.readLoop, hfind, Option.bind_some, h.readLock hc hmem, if_neg hne]
  simp [(h.node q hmem).live, hq, VersionedLock.readUnlock]

/-! ### The map of the chain -/

theorem Chain.not_holds_elsewhere (h : Chain c l (xs ++ q :: ys) tail) (hq : (l.nodes q).checkRange key = true)
    (hr : r ∈ xs ++ ys) : ¬ (l.nodes r).Holds key v := by
  intro hv
  have hmem : r ∈ xs ++ q :: ys := by grind
  have hrange := (h.node r hmem).range key v hv
  have heq : r = q := h.ranges.unique hmem (by simp) hrange (ListNode.checkRange_eq_true_iff.mp hq)
  have hnodup := (List.nodup_append.mp h.nodup).1
  rw [heq] at hr
  exact (List.nodup_middle.mp hnodup).notMem hr

theorem exists_mem_append_cons {P : Ptr → Prop} : (∃ p ∈ xs ++ q :: ys, P p) ↔ (∃ p ∈ xs ++ ys, P p) ∨
    P q := by
  simp only [List.mem_append, List.mem_cons]
  grind

theorem Represents.find?_iff (hm : Represents l ps m) (h : Chain c l ps tail) (hq : q ∈ ps)
    (hrange : (l.nodes q).checkRange key = true) : m.find? key = some v ↔ (l.nodes q).Holds key v := by
  obtain ⟨xs, ys, rfl⟩ := List.mem_iff_append.mp hq
  rw [hm key v, exists_mem_append_cons]
  exact or_iff_right fun ⟨r, hr, hv⟩ => h.not_holds_elsewhere hrange hr hv

theorem Represents.change (hm : Represents l (xs ++ q :: ys) m) (h : Chain c l (xs ++ q :: ys) tail)
    (hrange : (l.nodes q).checkRange key = true) {H : ℕ → ℕ → Prop} {P : ℕ → Prop}
    (hH : ∀ k v, H k v ↔ k = key ∧ P v ∨ k ≠ key ∧ (l.nodes q).Holds k v) :
    (∃ p ∈ xs ++ ys, (l.nodes p).Holds k v) ∨ H k v ↔ k = key ∧ P v ∨ k ≠ key ∧
    m.find? k = some v := by
  rw [hm k v, exists_mem_append_cons, hH]
  by_cases hk : k = key
  · subst hk
    simpa using fun r hr hv => absurd hv (h.not_holds_elsewhere hrange (List.mem_append.mpr hr))
  · simp [hk]

theorem Represents.set (hm : Represents l (xs ++ q :: ys) m) (h : Chain c l (xs ++ q :: ys) tail)
    (hrange : (l.nodes q).checkRange key = true) {H : ℕ → ℕ → Prop}
    (hnew : ∀ k v, (∃ p ∈ ps, (l'.nodes p).Holds k v) ↔ (∃ p ∈ xs ++ ys, (l.nodes p).Holds k v) ∨ H k v)
    (hH : ∀ k v, H k v ↔ k = key ∧ v = value ∨ k ≠ key ∧ (l.nodes q).Holds k v) :
    Represents l' ps (m.set key value) := by
  intro k v
  rw [OrderedMap.find?_set, hnew, hm.change h hrange hH]

theorem Represents.erase (hm : Represents l (xs ++ q :: ys) m) (h : Chain c l (xs ++ q :: ys) tail)
    (hrange : (l.nodes q).checkRange key = true) {H : ℕ → ℕ → Prop}
    (hnew : ∀ k v, (∃ p ∈ ps, (l'.nodes p).Holds k v) ↔ (∃ p ∈ xs ++ ys, (l.nodes p).Holds k v) ∨ H k v)
    (hH : ∀ k v, H k v ↔ k ≠ key ∧ (l.nodes q).Holds k v) : Represents l' ps (m.erase key) := by
  intro k v
  rw [OrderedMap.find?_erase, hnew, hm.change h hrange (P := fun _ => False) (by simpa using hH), and_false, false_or]

/-! ### Calls that leave the chain as it is -/

theorem Chain.modify {c' : ℕ} (h : Chain c l (xs ++ q :: ys) tail) (hc : c ≤ c')
    (hmin : (f (l.nodes q)).min = l.low q) (hmax : (f (l.nodes q)).max = l.high q)
    (hnext : (f (l.nodes q)).nextPtr = l.next q) (hprev : (f (l.nodes q)).prevPtr = l.prev q)
    (hrest : (f (l.nodes q)).AtRest c' q) :
    Chain c' (l.modify q f) (xs ++ q :: ys) tail := by
  have hfield : ∀ {α : Type} (g : ListNode → α), g (f (l.nodes q)) = g (l.nodes q) →
      ∀ p, g ((l.modify q f).nodes p) = g (l.nodes p) := by
    intro α g hg p
    by_cases hpq : p = q
    · rw [hpq, modify_nodes_self, hg]
    · rw [modify_nodes_of_ne hpq]
  refine ⟨?_, h.nodup, h.alloc, h.head, ?_, fun p hp => ?_, ?_⟩
  · exact h.linked.congr (fun p _ => hfield ListNode.nextPtr hnext p) fun p _ => hfield ListNode.prevPtr hprev p
  · exact h.ranges.congr (fun p _ => hfield ListNode.min hmin p) fun p _ => hfield ListNode.max hmax p
  · by_cases hpq : p = q
    · rw [hpq, modify_nodes_self]
      exact hrest
    · rw [modify_nodes_of_ne hpq]
      exact (h.node p hp).mono hc
  · rw [modify_nodes_of_ne (h.ne_of_mem (by simp))]
    exact h.last

theorem exists_holds_modify (hnodup : (xs ++ q :: ys).Nodup) :
    (∃ p ∈ xs ++ q :: ys, ((l.modify q f).nodes p).Holds k v) ↔
      (∃ p ∈ xs ++ ys, (l.nodes p).Holds k v) ∨ (f (l.nodes q)).Holds k v := by
  rw [exists_mem_append_cons, modify_nodes_self]
  refine or_congr_left (exists_congr fun p => and_congr_right fun hp => ?_)
  have hpq : p ≠ q := by
    rintro rfl
    exact (List.nodup_middle.mp hnodup).notMem hp
  rw [modify_nodes_of_ne hpq]

theorem Chain.nodup_ps (h : Chain c l ps tail) : ps.Nodup := (List.nodup_append.mp h.nodup).1

theorem Chain.touch (h : Chain c l (xs ++ q :: ys) tail) (hm : Represents l (xs ++ q :: ys) m) :
    Chain (c + 1) (l.modify q fun n => n.setVersion (n.verLock + 2)) (xs ++ q :: ys) tail ∧
      Represents (l.modify q fun n => n.setVersion (n.verLock + 2)) (xs ++ q :: ys) m := by
  have hnode := h.node q (by simp)
  constructor
  · exact h.modify (Nat.le_succ c) rfl rfl rfl rfl
      (hnode.written hnode.sound.setVersion hnode.range ⟨rfl, rfl, rfl, rfl⟩ rfl)
  · intro k v
    rw [exists_holds_modify h.nodup_ps, ListNode.holds_setVersion, hm k v, exists_mem_append_cons]

/-- What a call leaves behind. -/
def Valid (c : ℕ) (l : LinkedList) (tail : Ptr) (m : OrderedMap ℕ ℕ) : Prop :=
  ∃ ps, Chain c l ps tail ∧ Represents l ps m

/-- What a call on `l` leaves behind that takes no node out of the chain: every node that is new
in `l'` is in the chain. -/
def Kept (c : ℕ) (l : LinkedList) (ps : List Ptr) (l' : LinkedList) (tail : Ptr) (m : OrderedMap ℕ ℕ) : Prop :=
  ∃ ps', Chain c l' ps' tail ∧ Represents l' ps' m ∧ l'.size + ps.length = l.size + ps'.length

theorem Kept.valid (h : Kept c l ps l' tail m) : Valid c l' tail m := by
  obtain ⟨ps', hchain, hm, -⟩ := h
  exact ⟨ps', hchain, hm⟩

theorem writeUnlock_locked (hf : ∀ n ver, f (ListNode.setVersion ver n) = (f n).setVersion ver) :
    ((l.locked q).modify q f).writeUnlock q = l.modify q fun n => (f n).setVersion (n.verLock + 2) := by
  simp only [locked, LinkedList.writeUnlock, modify_modify, hf]
  rfl

theorem writeUnlock_locked_self : (l.locked q).writeUnlock q = l.modify q fun n => n.setVersion (n.verLock + 2) := by
  simp only [locked, LinkedList.writeUnlock, modify_modify]
  rfl

theorem Chain.section_set (h : Chain c l (xs ++ q :: ys) tail) (hm : Represents l (xs ++ q :: ys) m)
    (hq : (l.nodes q).checkRange key = true) (hsound : (f (l.nodes q)).Sound)
    (hheader : ListNode.SameHeader (l.nodes q) (f (l.nodes q)))
    (hholds : ∀ k v, (f (l.nodes q)).Holds k v ↔ k = key ∧ v = value ∨ k ≠ key ∧ (l.nodes q).Holds k v) :
    Kept (c + 1) l (xs ++ q :: ys) (l.modify q fun n => (f n).setVersion (n.verLock + 2)) tail (m.set key value) := by
  have hnode := h.node q (by simp)
  have hkey := ListNode.checkRange_eq_true_iff.mp hq
  refine ⟨xs ++ q :: ys, h.modify (Nat.le_succ c) hheader.min hheader.max hheader.nextPtr hheader.prevPtr ?_,
    ?_, rfl⟩
  · refine hnode.written hsound.setVersion (fun k v hkv => ?_)
      ⟨hheader.curPtr, hheader.deleted, hheader.lastScanVersion, hheader.pLock⟩ rfl
    change (f (l.nodes q)).min ≤ k ∧ k < (f (l.nodes q)).max
    rw [hheader.min, hheader.max]
    rcases (hholds k v).mp hkv with ⟨rfl, -⟩ | ⟨-, hkv⟩
    · exact hkey
    · exact hnode.range k v hkv
  · exact hm.set h hq (fun k v => exists_holds_modify h.nodup_ps) hholds

theorem Chain.update (h : Chain c l ps tail) (hm : Represents l ps m) (hc : c < VersionedLock.period)
    (hkey : key < keyMax) (hp : p ∈ ps ++ [tail]) (hfuel : ps.length + 3 ≤ fuel) :
    ∃ l', LinkedList.update key value fuel l p = some (l', (m.find? key).isSome) ∧ l'.size = l.size ∧
      Kept (c + 1) l ps l' tail (if (m.find? key).isSome then m.set key value else m) := by
  obtain ⟨xs, q, ys, rfl, hq, hcall⟩ := h.writeLoop hc hkey hp hfuel (nodeUpdate key value) fun _ head => head
  have hmem : q ∈ xs ++ q :: ys := by simp
  have hsound := (h.node q hmem).sound
  have hfind : ∀ v, m.find? key = some v ↔ (l.nodes q).Holds key v := fun v => hm.find?_iff h hmem hq
  rw [LinkedList.update, hcall, nodeUpdate, getKeyIndex_locked]
  cases hindex : (l.nodes q).getKeyIndex key (getKeyFingerPrint key) with
  | none =>
    have hnone : m.find? key = none := Option.eq_none_iff_forall_ne_some.mpr fun v hv =>
      hsound.getKeyIndex_eq_none_iff.mp hindex v ((hfind v).mp hv)
    rw [hnone]
    refine ⟨_, rfl, rfl, xs ++ q :: ys, ?_⟩
    rw [writeUnlock_locked_self]
    exact ⟨(h.touch hm).1, (h.touch hm).2, rfl⟩
  | some i =>
    obtain ⟨hi, hkeyi⟩ := hsound.getKeyIndex_eq_some_iff.mp hindex
    have hsome : m.find? key = some ((l.nodes q).keyArray i).2 := (hfind _).mpr ⟨i, hi, by rw [← hkeyi]⟩
    rw [hsome]
    refine ⟨_, rfl, rfl, ?_⟩
    rw [writeUnlock_locked fun _ _ => rfl]
    exact h.section_set hm hq hsound.updateAtIndex ⟨⟨rfl, rfl, rfl, rfl⟩, rfl, rfl, rfl, rfl, rfl⟩
      fun k v => hsound.holds_updateAtIndex hi hkeyi

end LinkedList

end Hkv.PacTree
