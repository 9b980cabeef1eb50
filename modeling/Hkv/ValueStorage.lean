import Hkv.AddressTable
import Hkv.KeyedSort
import Mathlib.Logic.Function.Basic

/-!
# Value storage: the write path and garbage collection

The functions of `ValueStorage.cpp` that move entries to the device, as explicit
state passing. The record holds one value storage together with the address-table
entries its slots point to. Pointers to address-table entries have an abstract type
`A`; `none` is `NULL`. A result `none` is a run that leaves the defined behaviour of
the source: a null dereference, `front()` of an empty vector or `exit`.

Traces, statistics, assertions and the splitting of one chunk into io_uring requests
are left out; a chunk is written and read as a whole.
-/
namespace Hkv.ValueStorage
open MtsConfig TaggedPointer AddressTable KeyedSort

inductive OpForm where
  | insert | remove
  deriving DecidableEq

structure VsEntry (A : Type) where
  atEntry : Option A
  key : ℕ
  val : ℕ
  deriving DecidableEq

/-- What `memset(.., 0, ..)` leaves in a slot. -/
def zeroEntry {A : Type} : VsEntry A := ⟨none, 0, 0⟩

structure MovedEntry (A : Type) where
  key : ℕ
  atEntry : Option A
  chunkOffset : ℕ
  entryOffset : ℕ
  opType : OpForm
  deriving DecidableEq

/-- `w_chunk_t`. `isInit` says that `init_w_chunk` has set the pointers; the
constructor leaves them wild. -/
structure WChunk (A : Type) where
  isInit : Bool
  chunkOffset : ℕ
  entryOffset : ℕ
  wBuffer : ℕ → VsEntry A
  movedEntryList : List (MovedEntry A)

structure Store (A : Type) where
  table : A → AtEntry
  vsId : ℕ
  bitmap : ℕ → ℕ → Bool
  freeChunkList : List ℕ
  disk : ℕ → ℕ → VsEntry A
  wChunk : ℕ → WChunk A
  gcWChunk : WChunk A
  gcRBuffer : ℕ → VsEntry A

/-- A store after its constructor, with a zeroed write buffer. -/
def freshStore {A : Type} (cfg : Config) : Store A where
  table _ := alloc
  vsId := 0
  bitmap _ _ := false
  freeChunkList := List.range' 0 cfg.chunkNum
  disk _ _ := zeroEntry
  wChunk _ := ⟨false, 0, 0, fun _ => zeroEntry, []⟩
  gcWChunk := ⟨false, 0, 0, fun _ => zeroEntry, []⟩
  gcRBuffer _ := zeroEntry

variable {A : Type} [DecidableEq A] (cfg : Config) (S : StdSort)

def setWChunk (s : Store A) (w : ℕ) (chunk : WChunk A) : Store A :=
  { s with wChunk := Function.update s.wChunk w chunk }

/-! ## Chunk bookkeeping -/

/-- `vs_bitmap_info->at(chunk).count()` -/
def entryCount (s : Store A) (chunk : ℕ) : ℕ :=
  ((List.range cfg.entriesPerChunk).filter (s.bitmap chunk)).length

def isEmpty (s : Store A) (chunk : ℕ) : Bool := entryCount cfg s chunk == 0

def setVsBitmapInfo (s : Store A) (chunk entry : ℕ) : Store A :=
  { s with bitmap := Function.update s.bitmap chunk (Function.update (s.bitmap chunk) entry true) }

def addFreeChunkList (s : Store A) (chunk : ℕ) : Store A :=
  { s with freeChunkList := s.freeChunkList ++ [chunk] }

def resetBit (s : Store A) (chunk entry : ℕ) : Store A :=
  { s with bitmap := Function.update s.bitmap chunk (Function.update (s.bitmap chunk) entry false) }

def clearVsBitmapInfo (s : Store A) (chunk entry : ℕ) : Store A :=
  if entryCount cfg (resetBit s chunk entry) chunk = 0 then
    addFreeChunkList (resetBit s chunk entry) chunk
  else resetBit s chunk entry

def unlinkToAt (s : Store A) (chunk entry : ℕ) : Store A :=
  if s.bitmap chunk entry then clearVsBitmapInfo cfg s chunk entry else s

/-- An `unsigned int`: the subtraction wraps at 32 bits. -/
def getUsedChunkNum (s : Store A) : ℕ :=
  (((cfg.chunkNum : ℤ) - s.freeChunkList.length) % 2 ^ 32).toNat

def notEnoughFreeChunk (s : Store A) : Bool := decide (cfg.highMark < getUsedChunkNum cfg s)

/-- `while (!is_empty(free_chunk_list->front())) free_chunk_list->erase(begin)` -/
def dropUsed (s : Store A) : List ℕ → List ℕ
  | [] => []
  | c :: cs => if isEmpty cfg s c then c :: cs else dropUsed s cs

def getFreeChunkOffset (s : Store A) : Option (ℕ × Store A) :=
  match dropUsed cfg s s.freeChunkList with
  | [] => none
  | c :: cs => if c < cfg.chunkNum then some (c, { s with freeChunkList := cs }) else none

/-! ## Address-table links -/

/-- The address-table half of `link_to_at`. `none`: the value was updated after the
put, and nothing is written. -/
def linkAtEntry (vsId chunk entry : ℕ) (e : AtEntry) : Option AtEntry :=
  if e.vsIdx.vsOffset = newlyUpdatedVal then none
  else some { e with vsIdx := ⟨vsId, cfg.slotOffset chunk entry⟩ }

/-- The address-table half of `gc_link_to_at`, with its three reasons to skip. -/
def gcLinkAtEntry (vsId chunk entry : ℕ) (e : AtEntry) : Option AtEntry :=
  if e.vsIdx.vsOffset = newlyUpdatedVal then none
  else if e.vsIdx.vsOffset = preValuestorageVal then none
  else if e.vsIdx.vsId ≠ vsId then none
  else some { e with vsIdx := ⟨vsId, cfg.slotOffset chunk entry⟩ }

def linkToAt (s : Store A) (chunk entry : ℕ) : Option A → Option (Store A)
  | none => none
  | some a => match linkAtEntry cfg s.vsId chunk entry (s.table a) with
    | none => some s
    | some e => some (setVsBitmapInfo { s with table := Function.update s.table a e } chunk entry)

def gcLinkToAt (s : Store A) (chunk entry : ℕ) : Option A → Option (Store A)
  | none => none
  | some a => match gcLinkAtEntry cfg s.vsId chunk entry (s.table a) with
    | none => some s
    | some e => some (setVsBitmapInfo { s with table := Function.update s.table a e } chunk entry)

/-! ## Sorting and writing a chunk -/

/-- The entries the first loop of `sort_w_buffer` collects: it stops at the end of
the buffer or at the first slot without an `at_entry`. -/
def scanBuffer (buf : ℕ → VsEntry A) : List (VsEntry A) :=
  ((List.range cfg.entriesPerChunk).map buf).takeWhile (fun e => e.atEntry.isSome)

/-- The buffer that `memset` and the copy loop leave behind. -/
def fillBuffer (entries : List (VsEntry A)) : ℕ → VsEntry A :=
  fun i => entries.getD i zeroEntry

def sortWBuffer (chunk : WChunk A) : WChunk A :=
  let sortedEntryList := S.sort (byKey Prod.fst)
    ((scanBuffer cfg chunk.wBuffer).map (fun e => (e.key, e)))
  { chunk with wBuffer := fillBuffer (sortedEntryList.map Prod.snd) }

/-- `write_chunk` of writer slot `w`. -/
def writeChunk (s : Store A) (w : ℕ) : Store A :=
  let chunk := sortWBuffer cfg S (s.wChunk w)
  setWChunk { s with disk := Function.update s.disk chunk.chunkOffset chunk.wBuffer } w chunk

/-- The sorted `at_entry` pointers are stored back position by position; the other
fields of the list keep their order. -/
def sortMovedEntry (moved : List (MovedEntry A)) : List (MovedEntry A) :=
  let sMovedEntryList := S.sort (byKey Prod.fst) (moved.map (fun m => (m.key, m.atEntry)))
  List.zipWith (fun m p => { m with atEntry := p.2 }) moved sMovedEntryList

def linkAll (s : Store A) : List (MovedEntry A) → Option (Store A)
  | [] => some s
  | m :: ms => do linkAll (← linkToAt cfg s m.chunkOffset m.entryOffset m.atEntry) ms

def clearMoved (s : Store A) (w : ℕ) : Store A :=
  setWChunk s w { s.wChunk w with movedEntryList := [] }

/-- `sync_with_at` on the list of writer slot `w`. -/
def syncWithAt (s : Store A) (w : ℕ) : Option (Store A) := do
  let s ← linkAll cfg s (sortMovedEntry S (s.wChunk w).movedEntryList)
  return clearMoved s w

/-- The pair `write_chunk; sync_with_at`. -/
def flush (s : Store A) (w : ℕ) : Option (Store A) :=
  syncWithAt cfg S (writeChunk cfg S s w) w

/-! ## Garbage collection -/

def addMovedEntry (moved : List (MovedEntry A)) (chunk entry : ℕ) (e : VsEntry A) (op : OpForm) :
    List (MovedEntry A) :=
  moved ++ [⟨e.key, e.atEntry, chunk, entry, op⟩]

/-- `used_chunk_list`: the chunks with valid entries and their counts, fewest first. -/
def createUsedChunkList (s : Store A) : List (ℕ × ℕ) :=
  S.sort (byKey Prod.snd) (((List.range cfg.chunkNum).filter (fun c => 0 < entryCount cfg s c)).map
    (fun c => (c, entryCount cfg s c)))

def initGcWChunk (s : Store A) : Option (Store A) := do
  let (c, s) ← getFreeChunkOffset cfg s
  return { s with gcWChunk := { s.gcWChunk with isInit := true, chunkOffset := c, entryOffset := 0 } }

def readGcRChunk (s : Store A) (chunk : ℕ) : Store A := { s with gcRBuffer := s.disk chunk }

/-- `write_gc_w_chunk`, which clears the buffer after the write. -/
def writeGcWChunk (s : Store A) : Store A :=
  let chunk := sortWBuffer cfg S s.gcWChunk
  { s with
    disk := Function.update s.disk chunk.chunkOffset chunk.wBuffer
    gcWChunk := { chunk with wBuffer := fun _ => zeroEntry } }

def gcLinkOne (s : Store A) (m : MovedEntry A) : Option (Store A) :=
  match m.opType with
  | .insert => gcLinkToAt cfg s m.chunkOffset m.entryOffset m.atEntry
  | .remove => some (unlinkToAt cfg s m.chunkOffset m.entryOffset)

def gcLinkAll (s : Store A) : List (MovedEntry A) → Option (Store A)
  | [] => some s
  | m :: ms => do gcLinkAll (← gcLinkOne cfg s m) ms

def gcSyncWithAt (s : Store A) : Option (Store A) := do
  let s ← gcLinkAll cfg s (sortMovedEntry S s.gcWChunk.movedEntryList)
  return { s with gcWChunk := { s.gcWChunk with movedEntryList := [] } }

/-- The pair `write_gc_w_chunk; gc_sync_with_at`. -/
def gcFlush (s : Store A) : Option (Store A) := gcSyncWithAt cfg S (writeGcWChunk cfg S s)

/-- The local variables of `garbage_collection`; `gc_w_chunk_offset` is always
`gc_w_chunk->chunk_offset`. -/
structure GcState (A : Type) where
  store : Store A
  wOffset : ℕ
  usedChunkNum : ℤ

inductive GcOutcome (A : Type) where
  | running (g : GcState A)
  | returned (s : Store A)

/-- `memcpy` of one valid entry and its two records. -/
def gcCopyEntry (s : Store A) (victim wOffset i : ℕ) : Store A :=
  let e := s.gcRBuffer i
  { s with gcWChunk := { s.gcWChunk with
      wBuffer := Function.update s.gcWChunk.wBuffer wOffset e
      movedEntryList := addMovedEntry
        (addMovedEntry s.gcWChunk.movedEntryList s.gcWChunk.chunkOffset wOffset e .insert)
        victim i e .remove } }

/-- The test that ends the collection after a full chunk. The second comparison is
unsigned in the source. -/
def gcStops (before used : ℤ) : Bool := decide (used = before ∨ 0 ≤ used ∧ used < cfg.lowMark)

/-- One iteration of the loop over the entries of a victim. -/
def gcMoveEntry (before : ℤ) (victim i : ℕ) (g : GcState A) : Option (GcOutcome A) :=
  if g.store.bitmap victim i then
    let s := gcCopyEntry g.store victim g.wOffset i
    if g.wOffset = cfg.entriesPerChunk - 1 then do
      let s ← gcFlush cfg S s
      let used := g.usedChunkNum + 1
      if gcStops cfg before used then return .returned s
      else return .running ⟨← initGcWChunk cfg s, 0, used⟩
    else some (.running ⟨s, g.wOffset + 1, g.usedChunkNum⟩)
  else some (.running g)

def gcMoveEntries (before : ℤ) (victim : ℕ) : List ℕ → GcState A → Option (GcOutcome A)
  | [], g => some (.running g)
  | i :: is, g => do
    match ← gcMoveEntry cfg S before victim i g with
    | .returned s => return .returned s
    | .running g => gcMoveEntries before victim is g

/-- No proper victim is left: the open chunk goes back to the free list, or its
entries are written. -/
def gcFinish (s : Store A) : Option (Store A) :=
  if s.gcWChunk.movedEntryList.isEmpty then some (addFreeChunkList s s.gcWChunk.chunkOffset)
  else gcFlush cfg S s

/-- The `do .. while (true)` loop; `get_victim_chunk_offset` walks `used_chunk_list`
and stops at its end or at the first full chunk. -/
def gcVictims (before : ℤ) : List (ℕ × ℕ) → GcState A → Option (Store A)
  | [], g => gcFinish cfg S g.store
  | (victim, entries) :: rest, g =>
    if entries = cfg.entriesPerChunk then gcFinish cfg S g.store
    else do
      match ← gcMoveEntries cfg S before victim (List.range cfg.entriesPerChunk)
          { g with store := readGcRChunk g.store victim } with
      | .returned s => return s
      | .running g => gcVictims before rest { g with usedChunkNum := g.usedChunkNum - 1 }

/-- `int used_chunk_num = get_used_chunk_num()` -/
def usedChunkNumInt (s : Store A) : ℤ := (getUsedChunkNum cfg s : ℤ).bmod (2 ^ 32)

def garbageCollection (s : Store A) : Option (Store A) :=
  match createUsedChunkList cfg S s with
  | (c₁, n₁) :: (c₂, n₂) :: rest =>
    if cfg.entriesPerChunk < n₁ + n₂ then some s
    else do
      let used := usedChunkNumInt cfg s
      gcVictims cfg S used ((c₁, n₁) :: (c₂, n₂) :: rest) ⟨← initGcWChunk cfg s, 0, used⟩
  | _ => some s

/-! ## Writers -/

/-- `DO GARBAGE COLLECTION` at the head of `init_w_chunk`. -/
def gcWhenNeeded (s : Store A) : Option (Store A) :=
  if notEnoughFreeChunk cfg s then garbageCollection cfg S s else some s

def initWChunk (s : Store A) (w : ℕ) : Option (Store A) := do
  let s ← gcWhenNeeded cfg S s
  let (c, s) ← getFreeChunkOffset cfg s
  return setWChunk s w { s.wChunk w with isInit := true, chunkOffset := c, entryOffset := 0 }

/-- The marker `alloc` sets before it fills a `vs_entry`. -/
def preAtEntry (e : AtEntry) : AtEntry :=
  { e with vsIdx := { e.vsIdx with vsOffset := preValuestorageVal } }

/-- `alloc`, the store into `w_buffer`, `add_moved_entry_list` and `entry_offset++`. -/
def appendEntry (s : Store A) (w key val : ℕ) (a : A) : Store A :=
  let chunk := s.wChunk w
  let e : VsEntry A := ⟨some a, key, val⟩
  let s := { s with table := Function.update s.table a (preAtEntry (s.table a)) }
  setWChunk s w { chunk with
    wBuffer := Function.update chunk.wBuffer chunk.entryOffset e
    movedEntryList := addMovedEntry chunk.movedEntryList chunk.chunkOffset chunk.entryOffset e .insert
    entryOffset := chunk.entryOffset + 1 }

/-- `if (chunk->entry_offset == 0) init_w_chunk(oplog_id)` -/
def initWhenIdle (s : Store A) (w : ℕ) : Option (Store A) :=
  if (s.wChunk w).entryOffset = 0 then initWChunk cfg S s w else some s

/-- The two branches of `put_vs_entry` on an open chunk. -/
def putOpen (s : Store A) (w key val : ℕ) (a : A) : Option (Store A) :=
  if (s.wChunk w).entryOffset < cfg.entriesPerChunk then
    some (appendEntry s w key val a)
  else if (s.wChunk w).entryOffset = cfg.entriesPerChunk then do
    let s ← flush cfg S s w
    let s ← initWChunk cfg S s w
    return appendEntry s w key val a
  else some s

def putVsEntry (s : Store A) (w key val : ℕ) (a : A) : Option (Store A) := do
  putOpen cfg S (← initWhenIdle cfg S s w) w key val a

def forcedWriteChunk (s : Store A) (w : ℕ) : Option (Store A) :=
  if (s.wChunk w).isInit then do
    let s ← flush cfg S s w
    return setWChunk s w { s.wChunk w with entryOffset := 0 }
  else none

end Hkv.ValueStorage
