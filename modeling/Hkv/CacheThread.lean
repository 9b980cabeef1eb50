import Hkv.AddressTable
import Mathlib.Logic.Function.Basic

/-!
# The DRAM cache

`LRUList.cpp` and `CacheThread.cpp` on a heap of `dc_entry` records linked by
pointers. The two lists and the heap are owned by one thread; the address table is
shared. A result `none` is a null or dangling dereference.

`malloc` is an argument: the addresses it will return, in order.
-/
namespace Hkv.DramCache
open MtsConfig TaggedPointer AddressTable

inductive ListType where
  | active | inactive
  deriving DecidableEq

inductive CtOps where
  | lookup | scan
  deriving DecidableEq

structure CqEntry (A : Type) where
  atEntry : Option A
  key : ℕ
  val : ℕ
  ops : CtOps
  deriving DecidableEq

structure DcEntry (A : Type) where
  atEntry : A
  key : ℕ
  val : ℕ
  listType : ListType
  prev : Option Ptr
  next : Option Ptr
  sPrev : Option Ptr
  sNext : Option Ptr

/-- `cache_t`; its `list_type` is the index of the list. -/
structure LruList where
  head : Option Ptr
  tail : Option Ptr
  maxSize : ℤ
  curSize : ℤ

structure CacheThread (A : Type) where
  table : A → AtEntry
  heap : Ptr → Option (DcEntry A)
  list : ListType → LruList

variable {A : Type}

namespace CacheThread

/-- `d->field = ..` -/
def modify (c : CacheThread A) (d : Ptr) (f : DcEntry A → DcEntry A) : Option (CacheThread A) :=
  (c.heap d).map fun e => { c with heap := Function.update c.heap d (some (f e)) }

/-- `p->field = ..` through a pointer that may be null. -/
def modifyAt (c : CacheThread A) (p : Option Ptr) (f : DcEntry A → DcEntry A) : Option (CacheThread A) :=
  p.bind (c.modify · f)

/-- `if (p != NULL) p->field = ..` -/
def modifySome (c : CacheThread A) (p : Option Ptr) (f : DcEntry A → DcEntry A) : Option (CacheThread A) :=
  match p with
  | none => some c
  | some d => c.modify d f

def setList (c : CacheThread A) (t : ListType) (f : LruList → LruList) : CacheThread A :=
  { c with list := Function.update c.list t (f (c.list t)) }

/-! ## `LRUList` -/

/-- `malloc` and the initialisation; the address must not be in use. -/
def allocEntry (c : CacheThread A) (t : ListType) (d : Ptr) (a : A) (q : CqEntry A) : Option (CacheThread A) :=
  match c.heap d with
  | some _ => none
  | none => some { c with heap := Function.update c.heap d (some ⟨a, q.key, q.val, t, none, none, none, none⟩) }

/-- The uncoupling of scanned items in `free_entry`. -/
def uncouple (c : CacheThread A) (e : DcEntry A) : Option (CacheThread A) := do
  let c ← c.modifySome e.sPrev fun x => { x with sNext := e.sNext }
  c.modifySome e.sNext fun x => { x with sPrev := e.sPrev }

def freeEntry (c : CacheThread A) (d : Ptr) : Option (CacheThread A) := do
  let e ← c.heap d
  let c ← c.uncouple e
  return { c with heap := Function.update c.heap d none }

/-- The pointer part of `insert_head`. -/
def linkHead (c : CacheThread A) (t : ListType) (d : Ptr) : Option (CacheThread A) :=
  match (c.list t).head with
  | none => do
    let c ← c.modify d fun e => { e with prev := none, next := none }
    return c.setList t fun l => { l with head := some d, tail := some d }
  | some h => do
    let c ← c.modify h fun e => { e with prev := some d }
    let c ← c.modify d fun e => { e with next := some h, prev := none }
    return c.setList t fun l => { l with head := some d }

def insertHead (c : CacheThread A) (t : ListType) (d : Ptr) : Option (CacheThread A) := do
  let c ← c.linkHead t d
  let c ← c.modify d fun e => { e with listType := t }
  return c.setList t fun l => { l with curSize := l.curSize + 1 }

/-- The first half of `move_to_head`: `d` leaves its place. -/
def cutOut (c : CacheThread A) (t : ListType) (d : Ptr) : Option (CacheThread A) := do
  let e ← c.heap d
  if (c.list t).tail = some d then
    (c.setList t fun l => { l with tail := e.prev }).modifyAt e.prev fun x => { x with next := none }
  else do
    let c ← c.modifyAt e.prev fun x => { x with next := e.next }
    c.modifyAt e.next fun x => { x with prev := e.prev }

def moveToHead (c : CacheThread A) (t : ListType) (d : Ptr) : Option (CacheThread A) :=
  if (c.list t).head = some d then some c
  else do
    let c ← c.cutOut t d
    let h := (c.list t).head
    let c ← c.modify d fun e => { e with next := h }
    let c ← c.modifyAt h fun e => { e with prev := some d }
    let c ← c.modify d fun e => { e with prev := none }
    return c.setList t fun l => { l with head := some d }

/-- The first half of `move_to_tail`: `d` leaves its place. -/
def cutFront (c : CacheThread A) (t : ListType) (d : Ptr) : Option (CacheThread A) := do
  let e ← c.heap d
  if (c.list t).head = some d then
    (c.setList t fun l => { l with head := e.next }).modifyAt e.next fun x => { x with prev := none }
  else do
    let c ← c.modifyAt e.next fun x => { x with prev := e.prev }
    c.modifyAt e.prev fun x => { x with next := e.next }

/-- The second half of `move_to_tail`. -/
def linkTail (c : CacheThread A) (t : ListType) (d : Ptr) : Option (CacheThread A) := do
  let z := (c.list t).tail
  let c ← c.modify d fun e => { e with prev := z }
  let c ← c.modifyAt z fun e => { e with next := some d }
  let c ← c.modify d fun e => { e with next := none }
  return c.setList t fun l => { l with tail := some d }

def moveToTail (c : CacheThread A) (t : ListType) (d : Ptr) : Option (CacheThread A) :=
  if (c.list t).tail = some d then some c
  else do
    let c ← c.cutFront t d
    c.linkTail t d

def removeTail (c : CacheThread A) (t : ListType) : Option (Ptr × CacheThread A) := do
  let d ← (c.list t).tail
  let e ← c.heap d
  let c ← (c.setList t fun l => { l with tail := e.prev }).modifyAt e.prev fun x => { x with next := none }
  return (d, c.setList t fun l => { l with curSize := l.curSize - 1 })

/-- The pointer part of `remove_entry`. -/
def unlink (c : CacheThread A) (t : ListType) (d : Ptr) : Option (CacheThread A) :=
  if (c.list t).head = (c.list t).tail then some (c.setList t fun l => { l with head := none, tail := none })
  else do
    let e ← c.heap d
    if (c.list t).head = some d then
      (c.setList t fun l => { l with head := e.next }).modifyAt e.next fun x => { x with prev := none }
    else if (c.list t).tail = some d then
      (c.setList t fun l => { l with tail := e.prev }).modifyAt e.prev fun x => { x with next := none }
    else do
      let c ← c.modifyAt e.prev fun x => { x with next := e.next }
      c.modifyAt e.next fun x => { x with prev := e.prev }

end CacheThread

/-- What `remove_entry` does to the `at_entry`: a cached entry falls back to its slot. -/
def uncache (e : AtEntry) : AtEntry :=
  if getTag e.valAddr = dcacheVal then { e with valAddr := putTaggedPtr e.valAddr valuestorageVal } else e

/-- The test of `cacheOperation` and `link_to_at`: the value is in a write log. -/
def InLog (e : AtEntry) : Prop := e.vsIdx.vsId < 0 ∧ getTag e.valAddr = oplogVal

instance (e : AtEntry) : Decidable (InLog e) := inferInstanceAs (Decidable (_ ∧ _))

/-- `CacheThread::link_to_at` on the `at_entry`. -/
def cacheLink (d : Ptr) (e : AtEntry) : AtEntry :=
  if InLog e then e else { e with valAddr := putTaggedPtr d.addr dcacheVal }

namespace CacheThread
variable [DecidableEq A]

def setEntry (c : CacheThread A) (a : A) (f : AtEntry → AtEntry) : CacheThread A :=
  { c with table := Function.update c.table a (f (c.table a)) }

def removeEntry (c : CacheThread A) (t : ListType) (d : Ptr) : Option (CacheThread A) := do
  let c ← c.unlink t d
  let e ← c.heap d
  return (c.setEntry e.atEntry uncache).setList t fun l => { l with curSize := l.curSize - 1 }

/-! ## `CacheThread` -/

def linkToAt (c : CacheThread A) (d : Ptr) : Option (CacheThread A) := do
  let e ← c.heap d
  return c.setEntry e.atEntry (cacheLink d)

/-- One iteration of the loop of `evict_entry`. Both of its branches for an entry
without `s_prev` remove and free it. The branch for a chained entry is never taken:
`chainScan` writes a scan link only over an existing one (see `Unchained`). -/
def evictOne (c : CacheThread A) : Option (CacheThread A) := do
  let d ← (c.list .inactive).tail
  let e ← c.heap d
  if ¬ (c.table e.atEntry).PointsTo d ∨ e.sPrev = none then
    (← c.removeEntry .inactive d).freeEntry d
  else none

/-- The loop of `evict_entry`, with the number of rounds left; each iteration counts
twice. -/
def evictEntry : ℕ → CacheThread A → Option (CacheThread A)
  | 0, c => some c
  | 1, c => c.evictOne
  | n + 2, c => c.evictOne.bind (evictEntry n)

def evictWhenFull (pages : ℕ) (c : CacheThread A) : Option (CacheThread A) :=
  if (c.list .inactive).maxSize < (c.list .inactive).curSize then c.evictEntry pages else some c

/-- `if (s->s_prev != NULL) s->s_prev = d` -/
def chainPrev (c : CacheThread A) (s d : Ptr) : Option (CacheThread A) :=
  (c.heap s).bind fun x => if x.sPrev.isSome then c.modify s fun x => { x with sPrev := some d } else some c

/-- `if (d->s_next != NULL) d->s_next = s` -/
def chainNext (c : CacheThread A) (s d : Ptr) : Option (CacheThread A) :=
  (c.heap d).bind fun x => if x.sNext.isSome then c.modify d fun x => { x with sNext := some s } else some c

/-- The chaining of scanned items; `s` is the item before. -/
def chainScan (c : CacheThread A) (scan : Bool) (s : Option Ptr) (d : Ptr) : Option (CacheThread A) :=
  match scan, s with
  | true, some s => (c.chainPrev s d).bind (chainNext · s d)
  | _, _ => some c

/-- Case 1: a hit on the inactive list. -/
def hitInactive (pages : ℕ) (c : CacheThread A) (scan : Bool) (s : Option Ptr) (d : Ptr) :
    Option (CacheThread A) := do
  let c ← c.removeEntry .inactive d
  let c ← c.insertHead .active d
  let c ← c.chainScan scan s d
  let c ← c.linkToAt d
  if (c.list .active).maxSize < (c.list .active).curSize then do
    let (m, c) ← c.removeTail .active
    let c ← c.insertHead .inactive m
    c.evictWhenFull pages
  else some c

/-- Case 2: a hit on the active list. -/
def hitActive (c : CacheThread A) (scan : Bool) (s : Option Ptr) (d : Ptr) : Option (CacheThread A) := do
  let c ← c.moveToHead .active d
  let c ← c.chainScan scan s d
  c.linkToAt d

/-- `which_list` and the two cases of a hit. -/
def hit (pages : ℕ) (c : CacheThread A) (scan : Bool) (s : Option Ptr) (d : Ptr) : Option (CacheThread A) :=
  (c.heap d).bind fun e => match e.listType with
    | .inactive => c.hitInactive pages scan s d
    | .active => c.hitActive scan s d

/-- Case 3: the first access. -/
def firstAccess (pages : ℕ) (c : CacheThread A) (scan : Bool) (s : Option Ptr) (d : Ptr) (a : A) (q : CqEntry A) :
    Option (CacheThread A) := do
  let c ← c.allocEntry .inactive d a q
  let c ← c.insertHead .inactive d
  let c ← c.chainScan scan s d
  let c ← c.linkToAt d
  c.evictWhenFull pages

/-- The loop of `cacheOperation` over the rest of the vector. -/
def cacheEntries (pages : ℕ) (scan : Bool) : List (CqEntry A) → Option Ptr → List Ptr → CacheThread A →
    Option (CacheThread A)
  | [], _, _, c => some c
  | q :: qs, s, malloc, c =>
    match q.atEntry with
    | none => cacheEntries pages scan qs s malloc c
    | some a =>
      if InLog (c.table a) then cacheEntries pages scan qs s malloc c
      else if getTag (c.table a).valAddr = dcacheVal then
        -- `which_list(NULL)` is neither list
        if getUntaggedPtr (c.table a).valAddr = 0 then cacheEntries pages scan qs s malloc c
        else do
        let d ← toPtr (getUntaggedPtr (c.table a).valAddr)
        let c ← c.hit pages scan s d
        cacheEntries pages scan qs (if scan then some d else s) malloc c
      else match malloc with
        | [] => none
        | d :: malloc => do
          let c ← c.firstAccess pages scan s d a q
          cacheEntries pages scan qs (if scan then some d else s) malloc c

/-- `cacheOperation`; `pages` is `MTS_RECLAIM_PAGES_NUM`. -/
def cacheOperation (pages : ℕ) (c : CacheThread A) (vec : List (CqEntry A)) (malloc : List Ptr) :
    Option (CacheThread A) :=
  match vec with
  | [] => none
  | q :: _ => cacheEntries pages (q.ops == .scan) vec none malloc c

end CacheThread

end Hkv.DramCache
