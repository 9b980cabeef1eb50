import Hkv.NodeSplit
import Hkv.VersionedLock

/-!
# The data layer of PACTree

`LinkedList` is a doubly linked list of nodes that divide the keys among them. A call starts
at a node that the search layer suggests, walks to the node whose range has the key, locks it
and works there; inserting into a full node splits it, and removing may merge a node with a
neighbour. Nodes are named by their place in the pool. A call that runs on without end, or
follows a null pointer, has no result.
-/
namespace Hkv.PacTree

open KeyedSort

/-- `ULLONG_MAX`, the least key of the last node. -/
def keyMax : ℕ := 2 ^ 64 - 1

/-- `LinkedList::genId` as `initialize` sets it; only `Recovery` changes it. -/
def genId : BitVec 32 := 0

/-- What a split leaves for the search layer: the least key of the new node and the node. -/
structure OpStruct where
  key : ℕ
  oldNodePtr : Ptr
  newNode : Ptr
  newKey : ℕ
  newVal : ℕ

/-- The list with the pool its nodes live in and the entries of the operation log. -/
structure LinkedList where
  headPtr : Ptr
  nodes : Ptr → ListNode
  size : ℕ
  log : List OpStruct

namespace ListNode

def setPrev (p : Option Ptr) (n : ListNode) : ListNode := { n with prevPtr := p }

def setVersion (ver : ℕ) (n : ListNode) : ListNode := { n with verLock := ver }

/-- The fields of a new node that a split sets after its entries. -/
def joinChain (newNode n : ListNode) (newMin : ℕ) (newNodePtr : Ptr) : ListNode :=
  { newNode with
    min := newMin
    nextPtr := n.nextPtr
    curPtr := newNodePtr
    deleted := false
    prevPtr := some n.curPtr
    max := n.max }

/-- The node that a split creates, in the memory `raw`. -/
def splitNew (n raw : ListNode) (median : ℕ) (newNodePtr : Ptr) (key val : ℕ) (keyHash : BitVec 8) : ListNode :=
  let moved := n.moveUpper median raw.construct
  let newNode := if median ≤ key then moved.1.insertAtIndex (key, val) moved.2 keyHash else moved.1
  newNode.joinChain n median newNodePtr

/-- The node that was split. -/
def splitOld (n : ListNode) (median : ℕ) (newNodePtr : Ptr) (key val : ℕ) (keyHash : BitVec 8) : ListNode :=
  let dropped := n.dropUpper median
  let n := { n with max := median, nextPtr := some newNodePtr, bitMap := dropped.1 }
  if key < median then n.insertAtIndex (key, val) (dropped.2.2.getD dropped.2.1) keyHash else n

/-- What `mergeWithNext` makes of the node, and `mergeWithPrev` of its predecessor. -/
def takeOver (n deleteNode : ListNode) : ListNode :=
  { n.absorb deleteNode with max := deleteNode.max, nextPtr := deleteNode.nextPtr }

end ListNode

namespace LinkedList

def modify (l : LinkedList) (p : Ptr) (f : ListNode → ListNode) : LinkedList :=
  { l with nodes := Function.update l.nodes p (f (l.nodes p)) }

def writeLock (l : LinkedList) (p : Ptr) : ℕ × LinkedList :=
  let r := VersionedLock.writeLock genId (l.nodes p).verLock
  (r.1, l.modify p (ListNode.setVersion r.2))

def writeUnlock (l : LinkedList) (p : Ptr) : LinkedList :=
  l.modify p fun n => n.setVersion (VersionedLock.writeUnlock n.verLock)

def readLock (l : LinkedList) (p : Ptr) : ℕ × LinkedList :=
  let r := VersionedLock.readLock genId (l.nodes p).verLock
  (r.1, l.modify p (ListNode.setVersion r.2))

/-! ### Operations on a locked node -/

def split (S : StdSort) (l : LinkedList) (this : Ptr) (key val : ℕ) (keyHash : BitVec 8) :
    Option (LinkedList × Ptr) :=
  let n := l.nodes this
  let median := n.median S
  let newNodePtr := l.size
  let newNode := n.splitNew (l.nodes newNodePtr) median newNodePtr key val keyHash
  let l := { l with
    nodes := Function.update (Function.update l.nodes newNodePtr newNode) this
      (n.splitOld median newNodePtr key val keyHash)
    size := l.size + 1 }
  newNode.nextPtr.map fun nextNode =>
    ({ l.modify nextNode (ListNode.setPrev (some newNodePtr)) with
        log := l.log ++ [⟨median, n.curPtr, newNodePtr, key, val⟩] }, newNodePtr)

def nodeInsert (S : StdSort) (key value : ℕ) (l : LinkedList) (this : Ptr) : Option (LinkedList × Bool) :=
  let keyHash := getKeyFingerPrint key
  match (l.nodes this).getFreeIndex key keyHash with
  | .keyExists => some (l, false)
  | .noFree =>
    (l.split S this key value keyHash).bind fun r =>
      (r.1.nodes r.2).nextPtr.map fun nextNode => (r.1.modify nextNode (ListNode.setPrev (some r.2)), true)
  | .index i => some (l.modify this fun n => n.insertAtIndex (key, value) i keyHash, true)

def nodeUpdate (key value : ℕ) (l : LinkedList) (this : Ptr) : Option (LinkedList × Bool) :=
  match (l.nodes this).getKeyIndex key (getKeyFingerPrint key) with
  | none => some (l, false)
  | some index => some (l.modify this fun n => n.updateAtIndex value index, true)

/-- The next node stays locked when its entries have been taken over. -/
def mergeWithNext (l : LinkedList) (this : Ptr) : Option LinkedList :=
  (l.nodes this).nextPtr.bind fun deleteNode =>
    let r := l.writeLock deleteNode
    if r.1 = 0 then some r.2
    else
      let del := r.2.nodes deleteNode
      del.nextPtr.map fun next =>
        let l := r.2.modify this fun n => n.takeOver del
        let l := l.modify deleteNode fun n => { n with deleted := true }
        l.modify next (ListNode.setPrev (some (l.nodes this).curPtr))

/-- The node whose entries have been taken over is not marked as deleted. -/
def mergeWithPrev (l : LinkedList) (this : Ptr) : Option LinkedList :=
  (l.nodes this).prevPtr.bind fun mergeNode =>
    let r := l.writeLock mergeNode
    if r.1 = 0 then some r.2
    else
      let del := r.2.nodes this
      del.nextPtr.map fun next =>
        let l := r.2.modify mergeNode fun n => n.takeOver del
        let l := l.modify next (ListNode.setPrev del.prevPtr)
        l.writeUnlock mergeNode

/-- The merge that may follow the removal of a key. -/
def mergeIfSmall (l : LinkedList) (this : Ptr) (numEntries : ℕ) : Option LinkedList :=
  (l.nodes this).nextPtr.bind fun next =>
    if numEntries + (l.nodes next).getNumEntries < maxEntries / 2 then l.mergeWithNext this
    else
      match (l.nodes this).prevPtr with
      | none => some l
      | some prev =>
        if numEntries + (l.nodes prev).getNumEntries < maxEntries / 2 then l.mergeWithPrev this else some l

/-- The entries are counted before the key is removed. -/
def nodeRemove (key : ℕ) (l : LinkedList) (this : Ptr) : Option (LinkedList × Bool) :=
  let n := l.nodes this
  match n.getKeyIndex key (getKeyFingerPrint key) with
  | none => some (l, false)
  | some index =>
    ((l.modify this fun n => n.removeFromIndex index).mergeIfSmall this n.getNumEntries).map fun l => (l, true)

/-! ### The walk and the loops around an operation -/

/-- From a suggested node to the node whose range has the key. -/
def findNode (l : LinkedList) (key : ℕ) : ℕ → Ptr → Option Ptr
  | 0, _ => none
  | n + 1, cur =>
    if key < (l.nodes cur).min then (l.nodes cur).prevPtr.bind (findNode l key n)
    else if !(l.nodes cur).checkRange key then (l.nodes cur).nextPtr.bind (findNode l key n)
    else some cur

/-- The loop of `insert`, `update` and `remove`: walk, lock, check again. `restart` is the
node from which a failed round starts over. -/
def writeLoop (key : ℕ) (op : LinkedList → Ptr → Option (LinkedList × Bool))
    (restart : LinkedList → Ptr → Ptr) : ℕ → LinkedList → Ptr → Option (LinkedList × Bool)
  | 0, _, _ => none
  | n + 1, l, head =>
    (l.findNode key n head).bind fun cur =>
      let r := l.writeLock cur
      if r.1 = 0 then writeLoop key op restart n r.2 (restart r.2 head)
      else if (r.2.nodes cur).deleted || !(r.2.nodes cur).checkRange key then
        writeLoop key op restart n (r.2.writeUnlock cur) (restart r.2 head)
      else (op r.2 cur).map fun s => (s.1.writeUnlock cur, s.2)

def insert (S : StdSort) (key value : ℕ) : ℕ → LinkedList → Ptr → Option (LinkedList × Bool) :=
  writeLoop key (nodeInsert S key value) fun _ head => head

def update (key value : ℕ) : ℕ → LinkedList → Ptr → Option (LinkedList × Bool) :=
  writeLoop key (nodeUpdate key value) fun _ head => head

/-- A failed round of `remove` starts over one node further to the left. -/
def remove (key : ℕ) : ℕ → LinkedList → Ptr → Option (LinkedList × Bool) :=
  writeLoop key (nodeRemove key) fun l head => (l.nodes head).prevPtr.getD head

/-- The loop of `probe` and `lookup`: the version is checked before and after reading. -/
def readLoop {α : Type} (key : ℕ) (op : ListNode → α) : ℕ → LinkedList → Ptr → Option (LinkedList × α)
  | 0, _, _ => none
  | n + 1, l, head =>
    (l.findNode key n head).bind fun cur =>
      let r := l.readLock cur
      if r.1 = 0 then readLoop key op n r.2 head
      else if (r.2.nodes cur).deleted || !(r.2.nodes cur).checkRange key then readLoop key op n r.2 head
      else if VersionedLock.readUnlock r.1 (r.2.nodes cur).verLock then some (r.2, op (r.2.nodes cur))
      else readLoop key op n r.2 head

def probe (key : ℕ) : ℕ → LinkedList → Ptr → Option (LinkedList × Bool) := readLoop key (·.probe key)

def lookup (key : ℕ) : ℕ → LinkedList → Ptr → Option (LinkedList × Option ℕ) :=
    readLoop key (·.lookup key)

/-! ### The initial list -/

/-- `initialize`, over whatever the memory held: the first node gets key 0 with value 0, the
last one is marked as full so that it is never merged. -/
def initializeList (raw : Ptr → ListNode) : LinkedList :=
  let head := { (raw 0).construct.insertAtIndex (0, 0) 0 (getKeyFingerPrint 0) with
    nextPtr := some 1, prevPtr := none, curPtr := 0, min := 0, max := keyMax }
  let tail := { (raw 1).construct.insertAtIndex (keyMax, 0) 0 (getKeyFingerPrint keyMax) with
    min := keyMax, bitMap := BitVec.allOnes 64, nextPtr := none, prevPtr := some 0, curPtr := 1 }
  { headPtr := 0
    nodes := Function.update (Function.update raw 0 head) 1 tail
    size := 2
    log := [] }

end LinkedList

end Hkv.PacTree
