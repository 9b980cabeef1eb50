import Hkv.LinkedChain
import Mathlib.Tactic.NormNum

/-!
# The tandem index of the prototype

A DRAM skip list of inodes over one persistent chain of vnodes. Node links are pool
ids; `at` of an id outside the pool is a null pointer. A result `none` is a null
pointer that the source dereferences.
-/
namespace Hkv.Tandem

def maxLevel : ℕ := 16
def searchStabilityCoefficient : ℤ := 10
def inodeNum : ℕ := 10000
def vnodeNum : ℕ := 10000000

/-- `std::numeric_limits<Key_t>::max()` -/
def maxKey : ℕ := 2 ^ 64 - 1

structure Inode where
  next : ℤ
  minKey : ℕ
  maxKey : ℕ
  down : ℤ
  coveredNodes : ℤ
  deriving DecidableEq

structure Vnode where
  next : ℤ
  key : ℕ
  value : ℕ
  deriving DecidableEq

/-- `Inode(i, 0, 0)`, as `DramInodePool::init` fills the pool. -/
def poolInode : Inode := ⟨0, 0, 0, -1, 0⟩

def poolVnode : Vnode := ⟨0, 0, 0⟩

structure DramSkiplist where
  inode : ℕ → Inode
  currentIdx : ℕ
  header : ℕ → ℕ
  tail : ℕ → ℕ
  level : ℕ

/-- `at` of a pool with `num` nodes. -/
def nodeAt (num : ℕ) (i : ℤ) : Option ℕ := if 0 ≤ i ∧ i < num then some i.toNat else none

namespace DramSkiplist

def modify (s : DramSkiplist) (id : ℕ) (f : Inode → Inode) : DramSkiplist :=
  { s with inode := Function.update s.inode id (f (s.inode id)) }

def getNextNode (s : DramSkiplist) : Option (ℕ × DramSkiplist) :=
  if s.currentIdx < inodeNum then some (s.currentIdx, { s with currentIdx := s.currentIdx + 1 }) else none

/-! ## Constructor -/

/-- The loop over `header[i]`, from `i - 1` down to `0`. -/
def headerLoop : ℕ → DramSkiplist → Option DramSkiplist
  | 0, s => some s
  | i + 1, s => do
    let (id, s) ← s.getNextNode
    let s := s.modify (s.header (i + 1)) fun n => { n with down := id }
    let s := s.modify id fun n => { n with minKey := 0, maxKey := 0, next := -1 }
    headerLoop i { s with header := Function.update s.header i id }

/-- The loop over `tail[i]`, from `i - 1` down to `0`. `tail[MAX_LEVEL - 1]` is not
among them and keeps the keys of the pool. -/
def tailLoop : ℕ → DramSkiplist → Option DramSkiplist
  | 0, s => some s
  | i + 1, s => do
    let (id, s) ← s.getNextNode
    let s := s.modify (s.tail (i + 1)) fun n => { n with down := id }
    let s := s.modify id fun n => { n with minKey := Tandem.maxKey, maxKey := Tandem.maxKey, next := -1 }
    tailLoop i { s with tail := Function.update s.tail i id }

/-- `header[i]->next = tail[i]->getId()` for `i` below the argument. -/
def joinLoop : ℕ → DramSkiplist → DramSkiplist
  | 0, s => s
  | i + 1, s => (joinLoop i s).modify (s.header i) fun n => { n with next := s.tail i }

def new : Option DramSkiplist := do
  let s : DramSkiplist := ⟨fun _ => poolInode, 0, fun _ => 0, fun _ => 0, 0⟩
  let (id, s) ← s.getNextNode
  let s := s.modify id fun n => { n with minKey := 0, maxKey := 0 }
  let s ← headerLoop (maxLevel - 1) { s with header := Function.update s.header (maxLevel - 1) id }
  let (id, s) ← s.getNextNode
  let s ← tailLoop (maxLevel - 1) { s with tail := Function.update s.tail (maxLevel - 1) id }
  return { joinLoop maxLevel s with level := 1 }

/-! ## Search -/

/-- `while (current->next != tail[i] && key > current->max_key)`, with the node before
the one it stops at. -/
def walk (s : DramSkiplist) (key i : ℕ) : ℕ → Option ℕ → ℕ → Option (Option ℕ × ℕ)
  | 0, _, _ => none
  | fuel + 1, prev, cur =>
    if (s.inode cur).next ≠ s.tail i ∧ (s.inode cur).maxKey < key then do
      walk s key i fuel (some cur) (← nodeAt inodeNum (s.inode cur).next)
    else some (prev, cur)

/-- `if (key < current->min_key && prev != nullptr) current = prev;` -/
def stepBack (s : DramSkiplist) (key : ℕ) (prev : Option ℕ) (cur : ℕ) : ℕ :=
  if key < (s.inode cur).minKey then prev.getD cur else cur

/-- Levels `i` to `0` of `lookup`. -/
def descend (s : DramSkiplist) (key : ℕ) : ℕ → ℕ → Option ℕ
  | 0, cur => do
    let (prev, cur) ← walk s key 0 inodeNum none cur
    return stepBack s key prev cur
  | i + 1, cur => do
    let (prev, cur) ← walk s key (i + 1) inodeNum none cur
    descend s key i (← nodeAt inodeNum (s.inode (stepBack s key prev cur)).down)

/-- `DramSkiplist::lookup`; the inner `none` is its `nullptr`. -/
def lookup (s : DramSkiplist) (key : ℕ) : Option (Option ℕ) := do
  let cur ← descend s key (s.level - 1) (s.header (s.level - 1))
  return if (s.inode cur).minKey = 0 then none else some cur

/-- Levels `i` to `0` of `getPivotNodesForInsert`. It does not step back. -/
def pivots (s : DramSkiplist) (key : ℕ) : ℕ → ℕ → (ℕ → ℕ) → Option (ℕ → ℕ)
  | 0, cur, updates => do
    let (_, cur) ← walk s key 0 inodeNum none cur
    return Function.update updates 0 cur
  | i + 1, cur, updates => do
    let (_, cur) ← walk s key (i + 1) inodeNum none cur
    pivots s key i (← nodeAt inodeNum (s.inode cur).down) (Function.update updates (i + 1) cur)

def getPivotNodesForInsert (s : DramSkiplist) (key : ℕ) (updates : ℕ → ℕ) : Option (ℕ → ℕ) :=
  pivots s key (s.level - 1) (s.header (s.level - 1)) updates

/-! ## Insertion -/

/-- `linkVnodeToInode` -/
def linkVnodeToInode (s : DramSkiplist) (id vnode : ℕ) : Bool × DramSkiplist :=
  if (s.inode id).down = -1 then
    (true, s.modify id fun n => { n with down := vnode, coveredNodes := n.coveredNodes + 1 })
  else (false, s)

/-- A new inode of a tower. -/
def initTowerInode (s : DramSkiplist) (id key : ℕ) : DramSkiplist :=
  s.modify id fun n => { n with minKey := key, maxKey := key, next := -1 }

/-- The loop that builds `inodes[i]`, from `i - 1` down to `0`. -/
def towerLoop (key : ℕ) : ℕ → DramSkiplist → (ℕ → ℕ) → Option (DramSkiplist × (ℕ → ℕ))
  | 0, s, inodes => some (s, inodes)
  | i + 1, s, inodes => do
    let (id, s) ← s.getNextNode
    let s := s.modify (inodes (i + 1)) fun n => { n with down := id }
    towerLoop key i (s.initTowerInode id key) (Function.update inodes i id)

def newTower (s : DramSkiplist) (key newlevel : ℕ) : Option (DramSkiplist × (ℕ → ℕ)) := do
  let (id, s) ← s.getNextNode
  towerLoop key (newlevel - 1) (s.initTowerInode id key) (Function.update (fun _ => 0) (newlevel - 1) id)

/-- The body of the loop of `insert`: inode `id` goes right behind the header `h`, whose
`next` is `first`, the id of `next`. -/
def linkHead (s : DramSkiplist) (key id h next : ℕ) (first : ℤ) : DramSkiplist :=
  let s := s.modify id fun n => { n with next := first }
  let s := s.modify h fun n => { n with next := id }
  let nextMin := (s.inode next).minKey
  s.modify id fun n => { n with minKey := key, maxKey := nextMin }

def headLoop (key : ℕ) (inodes : ℕ → ℕ) : ℕ → DramSkiplist → Option DramSkiplist
  | 0, s => some s
  | i + 1, s => do
    let first := (s.inode (s.header i)).next
    let next ← nodeAt inodeNum first
    headLoop key inodes i (s.linkHead key (inodes i) (s.header i) next first)

/-- `DramSkiplist::insert`, for the first key and for a new smallest one. -/
def insert (s : DramSkiplist) (key vnode newlevel : ℕ) : Option (Bool × DramSkiplist) := do
  let (s, inodes) ← s.newTower key newlevel
  match s.linkVnodeToInode (inodes 0) vnode with
  | (false, s) => return (false, s)
  | (true, s) => return (true, ← headLoop key inodes newlevel s)

/-- The key ranges of a new inode and of its predecessor `u`. The header is told from
its `max_key`. -/
def splitRange (s : DramSkiplist) (key id u : ℕ) : Option DramSkiplist :=
  if (s.inode u).maxKey = 0 then do
    let next ← nodeAt inodeNum (s.inode u).next
    let nextMin := (s.inode next).minKey
    return s.modify id fun n => { n with minKey := key, maxKey := nextMin }
  else
    let uMax := (s.inode u).maxKey
    let s := s.modify id fun n => { n with maxKey := uMax }
    let s := s.modify u fun n => { n with maxKey := key }
    some (s.modify id fun n => { n with minKey := key })

/-- The loop of `insertWhenRebalance`. -/
def splitLoop (key : ℕ) (inodes updates : ℕ → ℕ) : ℕ → DramSkiplist → Option DramSkiplist
  | 0, s => some s
  | i + 1, s => do
    let s ← s.splitRange key (inodes i) (updates i)
    let uNext := (s.inode (updates i)).next
    let s := s.modify (inodes i) fun n => { n with next := uNext }
    splitLoop key inodes updates i (s.modify (updates i) fun n => { n with next := inodes i })

/-- `updates[i] = header[i]` for the levels that a tall tower opens, and the new level. -/
def raiseLevel (s : DramSkiplist) (newlevel : ℕ) (updates : ℕ → ℕ) : DramSkiplist × (ℕ → ℕ) :=
  if s.level < newlevel then
    ({ s with level := newlevel }, fun i => if s.level ≤ i ∧ i < newlevel then s.header i else updates i)
  else (s, updates)

def insertWhenRebalance (s : DramSkiplist) (key vnode newlevel : ℕ) (count : ℤ) :
    Option (Bool × DramSkiplist) := do
  let (s, inodes) ← s.newTower key newlevel
  let (_, s) := s.linkVnodeToInode (inodes 0) vnode
  let updates ← s.getPivotNodesForInsert key fun _ => 0
  let (s, updates) := s.raiseLevel newlevel updates
  let s ← splitLoop key inodes updates newlevel s
  let covered := (s.inode (updates 0)).coveredNodes
  let s := s.modify (inodes 0) fun n => { n with coveredNodes := covered - count }
  return (true, s.modify (updates 0) fun n => { n with coveredNodes := count })

def increaseCoveredNodes (s : DramSkiplist) (id : ℕ) : DramSkiplist :=
  s.modify id fun n => { n with coveredNodes := n.coveredNodes + 1 }

def increaseCoveredNodesAndVerifyRebalance (s : DramSkiplist) (id : ℕ) : Bool × DramSkiplist :=
  let s := s.increaseCoveredNodes id
  (decide (searchStabilityCoefficient < (s.inode id).coveredNodes), s)

end DramSkiplist

/-! ## Value list and tandem index -/

structure TandemIndex where
  mainIndex : DramSkiplist
  vnode : ℕ → Vnode
  vCurrentIdx : ℕ
  head : ℕ

namespace TandemIndex

def modifyVnode (t : TandemIndex) (id : ℕ) (f : Vnode → Vnode) : TandemIndex :=
  { t with vnode := Function.update t.vnode id (f (t.vnode id)) }

def getNextVnode (t : TandemIndex) : Option (ℕ × TandemIndex) :=
  if t.vCurrentIdx < vnodeNum then some (t.vCurrentIdx, { t with vCurrentIdx := t.vCurrentIdx + 1 }) else none

def new : Option TandemIndex := do
  let mainIndex ← DramSkiplist.new
  let t : TandemIndex := ⟨mainIndex, fun _ => poolVnode, 0, 0⟩
  let (head, t) ← t.getNextVnode
  let t := t.modifyVnode head fun _ => ⟨-1, 0, 0⟩
  return { t with mainIndex := (mainIndex.linkVnodeToInode (mainIndex.header 0) head).2, head := head }

/-- The loop of `ValueList::insert`: the last node before `key`. -/
def valueWalk (t : TandemIndex) (key : ℕ) : ℕ → ℕ → Option ℕ
  | 0, _ => none
  | fuel + 1, cur =>
    match nodeAt vnodeNum (t.vnode cur).next with
    | none => some cur
    | some next => if (t.vnode next).key < key then valueWalk t key fuel next else some cur

def valueInsert (t : TandemIndex) (start new : ℕ) : Option TandemIndex := do
  let cur ← t.valueWalk (t.vnode new).key vnodeNum start
  let curNext := (t.vnode cur).next
  let t := t.modifyVnode new fun n => { n with next := curNext }
  return t.modifyVnode cur fun n => { n with next := new }

/-- Steps 2 and 3 of `insert`: the inode whose range holds the key, and the value list
with vnode `v` in its place. -/
def place (t : TandemIndex) (key v : ℕ) : Option (Option ℕ × TandemIndex) := do
  match ← t.mainIndex.lookup key with
  | some inode =>
    let startNode ← nodeAt vnodeNum (t.mainIndex.inode inode).down
    return (some inode, ← t.valueInsert startNode v)
  | none => return (none, ← t.valueInsert t.head v)

/-- `n` steps along the value chain. -/
def advance (t : TandemIndex) : ℕ → ℕ → Option ℕ
  | 0, cur => some cur
  | n + 1, cur => do t.advance n (← nodeAt vnodeNum (t.vnode cur).next)

/-- Half of what the inode covers, as the bound of the loop that looks for the split node. -/
def half (s : DramSkiplist) (inode : ℕ) : ℕ := ((s.inode inode).coveredNodes.tdiv 2).toNat

/-- The vnode at which the range of `inode` is split. -/
def splitNode (t : TandemIndex) (inode : ℕ) : Option ℕ := do
  t.advance (half t.mainIndex inode) (← nodeAt vnodeNum (t.mainIndex.inode inode).down)

/-- Step 4 of `insert` for an inode whose range holds the key. -/
def cover (t : TandemIndex) (inode newlevel : ℕ) : Option (Bool × TandemIndex) :=
  let (full, s) := t.mainIndex.increaseCoveredNodesAndVerifyRebalance inode
  let t := { t with mainIndex := s }
  if full then do
    let split ← t.splitNode inode
    let (ret, s) ← t.mainIndex.insertWhenRebalance (t.vnode split).key split newlevel (half t.mainIndex inode + 1)
    return (ret, { t with mainIndex := s })
  else some (true, t)

def setVnode (t : TandemIndex) (v key value : ℕ) : TandemIndex :=
  t.modifyVnode v fun n => { n with key := key, value := value }

/-- `TandemIndex::insert`; `newlevel` is what `generateRandomLevel` draws if it is called. -/
def insert (t : TandemIndex) (key value newlevel : ℕ) : Option (Bool × TandemIndex) :=
  match t.getNextVnode with
  | none => some (false, t)
  | some (v, t) => do
    match ← (t.setVnode v key value).place key v with
    | (none, t) =>
      let (ret, s) ← t.mainIndex.insert key v newlevel
      return (ret, { t with mainIndex := s })
    | (some inode, t) => t.cover inode newlevel

/-- `-1` as the unsigned `Val_t` that `lookup` returns. -/
def notFound : ℕ := 2 ^ 64 - 1

/-- The loop of `lookup`. `none` is the end of the chain, where control runs off the
end of the function. -/
def valueFind (t : TandemIndex) (key : ℕ) : ℕ → ℕ → Option ℕ
  | 0, _ => none
  | fuel + 1, cur =>
    if (t.vnode cur).key = key then some (t.vnode cur).value
    else if key < (t.vnode cur).key then some notFound
    else do valueFind t key fuel (← nodeAt vnodeNum (t.vnode cur).next)

/-- `TandemIndex::lookup` -/
def lookup (t : TandemIndex) (key : ℕ) : Option ℕ := do
  match ← t.mainIndex.lookup key with
  | none => return notFound
  | some inode => t.valueFind key vnodeNum (← nodeAt vnodeNum (t.mainIndex.inode inode).down)

end TandemIndex

end Hkv.Tandem
