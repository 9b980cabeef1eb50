import Hkv.DataRuns

/-!
# Nodes that stay locked

A call that does not own the lock of a node neither gives it back nor moves the bounds of the
node. So a node that is left locked by a call that has returned stays as it is, whatever calls
follow and wherever they start, and calls that walk to it never return.
-/
namespace Hkv.PacTree.LinkedList

open KeyedSort

/-- The node `b` is locked; `lo` and `hi` are its bounds. -/
structure Held (b : Ptr) (lo hi : ℕ) (l : LinkedList) : Prop where
  made : b < l.size
  odd : (l.nodes b).verLock % 2 = 1
  generation : (l.nodes b).verLock < 2 ^ 32
  min : (l.nodes b).min = lo
  max : (l.nodes b).max = hi

variable {S : StdSort} {fuel key value lo hi : ℕ} {l : LinkedList} {p q b head : Ptr} {f : ListNode → ListNode}

section Held

variable (h : Held b lo hi l)

include h

theorem Held.congr {l' : LinkedList} (hsize : l.size ≤ l'.size) (hnode : l'.nodes b = l.nodes b) :
    Held b lo hi l' := by
  refine ⟨h.made.trans_le hsize, ?_, ?_, ?_, ?_⟩
  all_goals rw [hnode]
  exacts [h.odd, h.generation, h.min, h.max]

theorem Held.modify (hp : p ≠ b) : Held b lo hi (l.modify p f) := h.congr le_rfl (modify_nodes_of_ne hp.symm)

theorem Held.setPrev (q : Option Ptr) : Held b lo hi (l.modify p (ListNode.setPrev q)) := by
  by_cases hp : p = b
  · subst hp
    refine ⟨h.made, ?_, ?_, ?_, ?_⟩
    all_goals rw [modify_nodes_self]
    exacts [h.odd, h.generation, h.min, h.max]
  · exact h.modify hp

theorem Held.locks : l.writeLock b = (0, l) ∧ l.readLock b = (0, l) := by
  have hlock := VersionedLock.lock_of_odd h.odd h.generation
  rw [LinkedList.writeLock, LinkedList.readLock, genId, hlock.1, hlock.2]
  exact ⟨congrArg (Prod.mk 0) modify_setVersion_self, congrArg (Prod.mk 0) modify_setVersion_self⟩

theorem Held.writeLock : Held b lo hi (l.writeLock p).2 ∧ ((l.writeLock p).1 ≠ 0 → p ≠ b) := by
  by_cases hp : p = b
  · rw [hp, h.locks.1]
    exact ⟨h, fun hne => absurd rfl hne⟩
  · exact ⟨h.modify hp, fun _ => hp⟩

theorem Held.readLock : Held b lo hi (l.readLock p).2 ∧ ((l.readLock p).1 ≠ 0 → p ≠ b) := by
  by_cases hp : p = b
  · rw [hp, h.locks.2]
    exact ⟨h, fun hne => absurd rfl hne⟩
  · exact ⟨h.modify hp, fun _ => hp⟩

/-! ### Operations on another node -/

theorem Held.split {keyHash : BitVec 8} {r : LinkedList × Ptr} (hq : q ≠ b)
    (hr : l.split S q key value keyHash = some r) : Held b lo hi r.1 := by
  obtain ⟨nx, -, rfl⟩ := Option.map_eq_some_iff.mp hr
  have hnode : ∀ new old : ListNode,
      Function.update (Function.update l.nodes l.size new) q old b = l.nodes b := by
    intro new old
    rw [Function.update_of_ne hq.symm, Function.update_of_ne (Nat.ne_of_lt h.made)]
  have hnew : ∀ new old, Held b lo hi { l with
      nodes := Function.update (Function.update l.nodes l.size new) q old, size := l.size + 1 } := fun new old =>
    h.congr (Nat.le_succ _) (hnode new old)
  exact ((hnew _ _).setPrev (p := nx) (some l.size)).congr le_rfl rfl

theorem Held.nodeInsert {r : LinkedList × Bool} (hq : q ≠ b) (hr : nodeInsert S key value l q = some r) :
    Held b lo hi r.1 := by
  unfold LinkedList.nodeInsert at hr
  dsimp only at hr
  split at hr
  · cases hr
    exact h
  · obtain ⟨s, hs, hr⟩ := Option.bind_eq_some_iff.mp hr
    obtain ⟨nx, -, rfl⟩ := Option.map_eq_some_iff.mp hr
    exact (h.split hq hs).setPrev _
  · cases hr
    dsimp only
    exact h.modify hq

theorem Held.nodeUpdate {r : LinkedList × Bool} (hq : q ≠ b) (hr : nodeUpdate key value l q = some r) :
    Held b lo hi r.1 := by
  unfold LinkedList.nodeUpdate at hr
  split at hr
  · cases hr
    exact h
  · cases hr
    dsimp only
    exact h.modify hq

theorem Held.mergeWithNext {l' : LinkedList} (hq : q ≠ b) (hr : l.mergeWithNext q = some l') : Held b lo hi l' := by
  obtain ⟨deleteNode, -, hr⟩ := Option.bind_eq_some_iff.mp hr
  obtain ⟨hlock, hother⟩ := h.writeLock (p := deleteNode)
  dsimp only at hr
  split_ifs at hr with hzero
  · cases hr
    exact hlock
  · obtain ⟨nx, -, rfl⟩ := Option.map_eq_some_iff.mp hr
    exact ((hlock.modify hq).modify (hother hzero)).setPrev _

theorem Held.mergeWithPrev {l' : LinkedList} (hr : l.mergeWithPrev q = some l') : Held b lo hi l' := by
  obtain ⟨mergeNode, -, hr⟩ := Option.bind_eq_some_iff.mp hr
  obtain ⟨hlock, hother⟩ := h.writeLock (p := mergeNode)
  dsimp only at hr
  split_ifs at hr with hzero
  · cases hr
    exact hlock
  · obtain ⟨nx, -, rfl⟩ := Option.map_eq_some_iff.mp hr
    exact ((hlock.modify (hother hzero)).setPrev _).modify (hother hzero)

theorem Held.mergeIfSmall {l' : LinkedList} {numEntries : ℕ} (hq : q ≠ b)
    (hr : l.mergeIfSmall q numEntries = some l') : Held b lo hi l' := by
  obtain ⟨nx, -, hr⟩ := Option.bind_eq_some_iff.mp hr
  split_ifs at hr with hnext
  · exact h.mergeWithNext hq hr
  · split at hr
    · cases hr
      exact h
    · split_ifs at hr with hprev
      · exact h.mergeWithPrev hr
      · cases hr
        exact h

theorem Held.nodeRemove {r : LinkedList × Bool} (hq : q ≠ b) (hr : nodeRemove key l q = some r) :
    Held b lo hi r.1 := by
  unfold LinkedList.nodeRemove at hr
  dsimp only at hr
  split at hr
  · cases hr
    exact h
  · obtain ⟨l', hl', rfl⟩ := Option.map_eq_some_iff.mp hr
    exact (h.modify hq).mergeIfSmall hq hl'

end Held

/-! ### Calls -/

theorem Held.writeLoop {op : LinkedList → Ptr → Option (LinkedList × Bool)}
    {restart : LinkedList → Ptr → Ptr} {r : LinkedList × Bool} (h : Held b lo hi l)
    (hop : ∀ {l q r}, Held b lo hi l → q ≠ b → op l q = some r → Held b lo hi r.1)
    (hr : writeLoop key op restart fuel l head = some r) : Held b lo hi r.1 := by
  induction fuel generalizing l head with
  | zero => cases hr
  | succ fuel ih =>
    obtain ⟨cur, -, hr⟩ := Option.bind_eq_some_iff.mp hr
    obtain ⟨hlock, hother⟩ := h.writeLock (p := cur)
    dsimp only at hr
    split_ifs at hr with hzero hagain
    · exact ih hlock hr
    · exact ih (hlock.modify (hother hzero)) hr
    · obtain ⟨s, hs, rfl⟩ := Option.map_eq_some_iff.mp hr
      exact (hop hlock (hother hzero) hs).modify (hother hzero)

theorem Held.readLoop {α : Type} {op : ListNode → α} {r : LinkedList × α} (h : Held b lo hi l)
    (hr : readLoop key op fuel l head = some r) : Held b lo hi r.1 := by
  induction fuel generalizing l head with
  | zero => cases hr
  | succ fuel ih =>
    obtain ⟨cur, -, hr⟩ := Option.bind_eq_some_iff.mp hr
    have hlock := (h.readLock (p := cur)).1
    dsimp only at hr
    split_ifs at hr
    · exact ih hlock hr
    · exact ih hlock hr
    · cases hr
      exact hlock
    · exact ih hlock hr

theorem Held.scanLoop {cur : Ptr} {vec : List ℕ} {startKey range : ℕ} {r : LinkedList × List ℕ}
    (h : Held b lo hi l) (hr : scanLoop S startKey range head fuel l cur vec = some r) : Held b lo hi r.1 := by
  induction fuel generalizing l cur vec with
  | zero => cases hr
  | succ fuel ih =>
    unfold LinkedList.scanLoop at hr
    obtain ⟨hlock, hother⟩ := h.readLock (p := cur)
    dsimp only at hr
    split_ifs at hr with hfull hzero hdeleted
    · cases hr
      exact h
    · exact ih hlock hr
    · obtain ⟨cur', -, hr⟩ := Option.bind_eq_some_iff.mp hr
      exact ih hlock hr
    · obtain ⟨s, -, hr⟩ := Option.bind_eq_some_iff.mp hr
      have hscan := hlock.modify (f := fun _ => s.1) (hother hzero)
      split_ifs at hr
      · cases hr
        exact hscan
      · obtain ⟨nx, -, hr⟩ := Option.bind_eq_some_iff.mp hr
        exact ih hscan hr
      · exact ih hscan hr

theorem Held.exec {call : Call} {r : LinkedList × Answer} (h : Held b lo hi l)
    (hr : call.exec S fuel l head = some r) : Held b lo hi r.1 := by
  cases call with
  | insert key value =>
    obtain ⟨s, hs, rfl⟩ := Option.map_eq_some_iff.mp hr
    exact h.writeLoop (fun h hq hr => h.nodeInsert hq hr) hs
  | update key value =>
    obtain ⟨s, hs, rfl⟩ := Option.map_eq_some_iff.mp hr
    exact h.writeLoop (fun h hq hr => h.nodeUpdate hq hr) hs
  | remove key =>
    obtain ⟨s, hs, rfl⟩ := Option.map_eq_some_iff.mp hr
    exact h.writeLoop (fun h hq hr => h.nodeRemove hq hr) hs
  | probe key =>
    obtain ⟨s, hs, rfl⟩ := Option.map_eq_some_iff.mp hr
    exact h.readLoop (r := s) hs
  | lookup key =>
    obtain ⟨s, hs, rfl⟩ := Option.map_eq_some_iff.mp hr
    exact h.readLoop (r := s) hs
  | scan startKey range =>
    obtain ⟨s, hs, rfl⟩ := Option.map_eq_some_iff.mp hr
    obtain ⟨cur, -, hs⟩ := Option.bind_eq_some_iff.mp hs
    exact h.scanLoop hs

/-- Whatever calls return, from whatever nodes they started, the node is still locked. -/
theorem Held.execAll {calls : List (Call × Ptr)} {r : LinkedList × List Answer} (h : Held b lo hi l)
    (hr : l.execAll S fuel calls = some r) : Held b lo hi r.1 := by
  induction calls generalizing l r with
  | nil =>
    cases hr
    exact h
  | cons e calls ih =>
    obtain ⟨s, hs, hr⟩ := Option.bind_eq_some_iff.mp hr
    obtain ⟨s', hs', rfl⟩ := Option.map_eq_some_iff.mp hr
    exact ih (r := s') (h.exec hs) hs'

/-! ### Calls that walk to the node -/

section Stuck

variable (h : Held b lo hi l) (hlo : lo ≤ key) (hhi : key < hi)

include h hlo hhi

theorem Held.checkRange : (l.nodes b).checkRange key = true := by
  rw [ListNode.checkRange_eq_true_iff, h.min, h.max]
  exact ⟨hlo, hhi⟩

theorem Held.readLoop_eq_none {α : Type} (op : ListNode → α) : LinkedList.readLoop key op fuel l b = none := by
  induction fuel with
  | zero => rfl
  | succ fuel ih =>
    cases fuel with
    | zero => rfl
    | succ fuel =>
      rw [LinkedList.readLoop, findNode_of_checkRange (h.checkRange hlo hhi), Option.bind_some, h.locks.2]
      exact ih

theorem Held.writeLoop_eq_none (op : LinkedList → Ptr → Option (LinkedList × Bool)) :
    LinkedList.writeLoop key op (fun _ head => head) fuel l b = none := by
  induction fuel with
  | zero => rfl
  | succ fuel ih =>
    cases fuel with
    | zero => rfl
    | succ fuel =>
      rw [LinkedList.writeLoop, findNode_of_checkRange (h.checkRange hlo hhi), Option.bind_some, h.locks.1]
      exact ih

omit hlo hhi in
theorem Held.scanLoop_eq_none {startKey range : ℕ} {vec : List ℕ} (hroom : vec.length < range) :
    LinkedList.scanLoop S startKey range head fuel l b vec = none := by
  induction fuel with
  | zero => rfl
  | succ fuel ih =>
    rw [LinkedList.scanLoop, if_neg (Nat.not_le.mpr hroom), h.locks.2]
    exact ih

end Stuck

/-- A call other than `remove` that starts at the locked node with a key of its range does not
return. A `remove` starts over one node further to the left. -/
theorem Held.exec_eq_none {call : Call} (h : Held b lo hi l) (hlo : lo ≤ call.key) (hhi : call.key < hi)
    (hkeep : call.isRemove = false) (hscan : ∀ startKey, call ≠ .scan startKey 0) :
    call.exec S fuel l b = none := by
  cases call with
  | insert key value => exact Option.map_eq_none_iff.mpr (h.writeLoop_eq_none hlo hhi _)
  | update key value => exact Option.map_eq_none_iff.mpr (h.writeLoop_eq_none hlo hhi _)
  | remove key => cases hkeep
  | probe key => exact Option.map_eq_none_iff.mpr (h.readLoop_eq_none hlo hhi _)
  | lookup key => exact Option.map_eq_none_iff.mpr (h.readLoop_eq_none hlo hhi _)
  | scan startKey range =>
    have hrange : 0 < range := Nat.pos_of_ne_zero fun hzero => hscan startKey (by rw [hzero])
    refine Option.map_eq_none_iff.mpr (Option.bind_eq_none_iff.mpr fun cur hcur => ?_)
    have hcheck : (l.nodes b).checkRange startKey = true := h.checkRange hlo hhi
    cases fuel with
    | zero => rfl
    | succ fuel =>
      rw [findNode_of_checkRange hcheck, Option.some.injEq] at hcur
      rw [← hcur]
      exact h.scanLoop_eq_none hrange

end Hkv.PacTree.LinkedList
