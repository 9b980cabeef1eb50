import Hkv.GcFrame
import Hkv.StepRun

/-!
# The store as a whole

Any number of write logs, each with its reclaim thread, and any number of value
storages, each with its collector, share one address table. A step is one atomic action
of one thread, so that a run is an interleaving.

The ring of a log is a queue. A reclaim takes the validation test and the put of one
entry as one step; the flush of a full chunk and the collection of `init_w_chunk` are
steps of their own. While a chunk is being synced nothing is put into it, and while a
collection runs no chunk is opened, since `init_w_chunk` holds the spinlock.
-/
namespace Hkv.Prism
open MtsConfig TaggedPointer AddressTable KeyedSort ValueStorage StepRun

/-- A log: `g_oplog_id` of its `OpLog`, and `id` of the half. -/
abbrev LogId := ℕ × Fin 2

/-- Where `OpLog::reclaim` of a log is; `v` is the value storage it picked. -/
inductive Phase where
  | idle
  /-- the loop -/
  | draining (v : ℕ)
  /-- `forced_write_chunk` after the last entry -/
  | forcing (v : ℕ)
  | finished
  deriving DecidableEq

/-- The value storage a reclaim writes to. -/
def Phase.vs : Phase → Option ℕ
  | .draining v => some v
  | .forcing v => some v
  | _ => none

structure WriteLog where
  /-- The entries from `head_cnt` to `tail_cnt`. -/
  queue : List Ptr
  /-- The entries dequeued by a reclaim that has not reset the counters. -/
  drained : List Ptr
  phase : Phase

/-- Where to go on inside a victim: the victim, its entries to do, the victims to do. -/
abbrev GcCont := ℕ × List ℕ × List (ℕ × ℕ)

/-- The next action of `garbage_collection`. -/
inductive GcPc (A : Type) where
  | idle
  /-- `get_victim_chunk_offset` on the rest of `used_chunk_list` -/
  | victims (used : List (ℕ × ℕ))
  | entries (cont : GcCont)
  /-- `write_gc_w_chunk`; without `cont` the collection ends after the sync -/
  | write (cont : Option GcCont)
  /-- the records of `gc_sync_with_at` still to be done -/
  | sync (moved : List (MovedEntry A)) (cont : Option GcCont)

/-- The spinlock is not held by a collection. -/
def GcPc.isIdle {A : Type} : GcPc A → Bool
  | .idle => true
  | _ => false

/-- The local variables of a collection. -/
structure GcThread (A : Type) where
  pc : GcPc A
  wOffset : ℕ
  usedChunkNum : ℤ
  before : ℤ

structure System (A : Type) where
  table : A → AtEntry
  op : Ptr → OpEntry A
  log : LogId → WriteLog
  /-- The address table and the id of each record are not used; see `System.store`. -/
  stores : ℕ → Store A
  /-- The links still to be made of the chunk that slot `w` of store `v` has written. -/
  sync : ℕ → ℕ → Option (List (MovedEntry A))
  gc : ℕ → GcThread A
  /-- The values given to an entry, newest first. The last three fields are a record of
  the past that no step reads. -/
  values : A → List ℕ
  /-- How often `a` had been written when it was last put into slot `w` of store `v`. -/
  putAt : ℕ → ℕ → A → ℕ
  /-- How often `a` had been written when the collector of `v` last copied it. -/
  copiedAt : ℕ → A → ℕ

namespace System
variable {A : Type}

/-- The newest value of `a`. -/
def latest (s : System A) (a : A) : ℕ := (s.values a).headD 0

/-- How often `a` has been written. -/
def version (s : System A) (a : A) : ℕ := (s.values a).length

/-- Value storage `v`. -/
def store (s : System A) (v : ℕ) : Store A := { s.stores v with table := s.table, vsId := v }

def setStore (s : System A) (v : ℕ) (t : Store A) : System A :=
  { s with table := t.table, stores := Function.update s.stores v t }

def setSync (s : System A) (v w : ℕ) (moved : Option (List (MovedEntry A))) : System A :=
  { s with sync := Function.update s.sync v (Function.update (s.sync v) w moved) }

def setLog (s : System A) (l : LogId) (log : WriteLog) : System A :=
  { s with log := Function.update s.log l log }

def setGc (s : System A) (v : ℕ) (g : GcThread A) : System A := { s with gc := Function.update s.gc v g }

/-- The records of slot `w` that are not linked yet. -/
def pending (s : System A) (v w : ℕ) : List (MovedEntry A) :=
  match s.sync v w with
  | some moved => moved
  | none => ((s.stores v).wChunk w).movedEntryList

variable (home : Ptr → Option LogId) (keyOf : A → ℕ) (cfg : Config) (S : StdSort)

/-! ## Writes -/

/-- `p` is a slot of log `l` that holds no entry of the current round. -/
def Fresh (s : System A) (l : LogId) (p : Ptr) : Prop :=
  home p = some l ∧ p ∉ (s.log l).queue ∧ p ∉ (s.log l).drained

instance (s : System A) (l : LogId) (p : Ptr) : Decidable (s.Fresh home l p) :=
  inferInstanceAs (Decidable (_ ∧ _))

variable [DecidableEq A]

/-- `oplog.enq`, `oplog.link_to_at` and the new `at_entry`. -/
def record (s : System A) (l : LogId) (a : A) (val : ℕ) (p : Ptr) (e : AtEntry) : System A :=
  { s with
    table := Function.update s.table a e
    op := Function.update s.op p ⟨keyOf a, val, some a⟩
    log := Function.update s.log l { s.log l with queue := (s.log l).queue ++ [p] }
    values := Function.update s.values a (val :: s.values a) }

def insert (s : System A) (l : LogId) (a : A) (val : ℕ) (p : Ptr) : Option (System A) :=
  if s.Fresh home l p ∧ s.values a = [] then some (s.record keyOf l a val p (linkToOl alloc p)) else none

/-- `unlink_to_at` for the past slot of an update. -/
def unlinkPast (s : System A) (past : VsIdx) : System A :=
  if 0 ≤ past.vsId ∧ 0 ≤ past.vsOffset then
    let offset := past.vsOffset.toNat
    s.setStore past.vsId.toNat (unlinkToAt cfg (s.store past.vsId.toNat) (offset / cfg.entriesPerChunk)
      (offset % cfg.entriesPerChunk))
  else s

def update (s : System A) (l : LogId) (a : A) (val : ℕ) (p : Ptr) : Option (System A) :=
  if s.Fresh home l p ∧ s.values a ≠ [] then
    let r := linkToOlPast (s.table a) p
    some ((s.record keyOf l a val p r.1).unlinkPast cfg r.2)
  else none

/-! ## Reclaim -/

/-- A log without entries is left alone. -/
def start (s : System A) (l : LogId) (v : ℕ) : Option (System A) :=
  if (s.log l).phase = .idle ∧ (s.log l).queue ≠ [] then
    some (s.setLog l { s.log l with phase := .draining v })
  else none

/-- `init_w_chunk` after its collection. -/
def openChunk (t : Store A) (w : ℕ) : Option (Store A) :=
  (getFreeChunkOffset cfg t).map fun r =>
    setWChunk r.2 w { r.2.wChunk w with isInit := true, chunkOffset := r.1, entryOffset := 0 }

def openWhenIdle (t : Store A) (w : ℕ) : Option (Store A) :=
  if (t.wChunk w).entryOffset = 0 then openChunk cfg t w else some t

/-- `put_vs_entry` on a chunk that is not full. -/
def put (s : System A) (v w key val : ℕ) (a : A) : Option (System A) :=
  let chunk := (s.store v).wChunk w
  if s.sync v w = none ∧ chunk.entryOffset < cfg.entriesPerChunk ∧
      (chunk.entryOffset = 0 → (s.gc v).pc.isIdle = true) then
    (openWhenIdle cfg (s.store v) w).map fun t =>
      { s.setStore v (appendEntry t w key val a) with
        putAt := Function.update s.putAt v (Function.update (s.putAt v) w
          (Function.update (s.putAt v w) a (s.version a))) }
  else none

/-- `oplog_deq`; the last entry is followed by `forced_write_chunk`. -/
def deq (s : System A) (l : LogId) (v : ℕ) (p : Ptr) (rest : List Ptr) : System A :=
  s.setLog l ⟨rest, p :: (s.log l).drained, if rest = [] then .forcing v else .draining v⟩

/-- One round of the loop of `OpLog::reclaim`. -/
def reclaim (s : System A) (l : LogId) : Option (System A) :=
  match (s.log l).phase, (s.log l).queue with
  | .draining v, p :: rest => match (s.op p).opa with
    | none => none
    | some a =>
      if (s.table a).PointsTo p then (s.deq l v p rest).put cfg v l.1 (s.op p).key (s.op p).val a
      else some (s.deq l v p rest)
  | _, _ => none

/-- `write_chunk` and the sort of `sync_with_at`. -/
def startSync (s : System A) (v w : ℕ) : Option (System A) :=
  if s.sync v w = none then
    some ((s.setStore v (writeChunk cfg S (s.store v) w)).setSync v w
      (some (sortMovedEntry S ((s.store v).wChunk w).movedEntryList)))
  else none

/-- A full chunk is written by the next put, any chunk by `forced_write_chunk`. -/
def write (s : System A) (l : LogId) : Option (System A) :=
  match (s.log l).phase with
  | .draining v =>
    if ((s.store v).wChunk l.1).entryOffset = cfg.entriesPerChunk then s.startSync cfg S v l.1 else none
  | .forcing v => if ((s.store v).wChunk l.1).isInit then s.startSync cfg S v l.1 else none
  | _ => none

/-- `link_to_at` of one record. -/
def link (s : System A) (l : LogId) (m : MovedEntry A) : Option (System A) :=
  (s.log l).phase.vs.bind fun v => (s.sync v l.1).bind fun moved =>
    if m ∈ moved then
      (linkToAt cfg (s.store v) m.chunkOffset m.entryOffset m.atEntry).map fun t =>
        (s.setStore v t).setSync v l.1 (some (moved.erase m))
    else none

def closeChunk (t : Store A) (w : ℕ) : Store A :=
  setWChunk t w { t.wChunk w with movedEntryList := [], entryOffset := 0 }

/-- The end of `sync_with_at`, and of `forced_write_chunk` if it is that. -/
def close (s : System A) (l : LogId) : Option (System A) :=
  (s.log l).phase.vs.bind fun v =>
    if s.sync v l.1 = some [] then
      let phase := if (s.log l).phase = .forcing v then .finished else (s.log l).phase
      some (((s.setStore v (closeChunk (s.store v) l.1)).setSync v l.1 none).setLog l { s.log l with phase := phase })
    else none

/-- The counters of the log are reset. -/
def finish (s : System A) (l : LogId) : Option (System A) :=
  if (s.log l).phase = .finished ∧ (s.log l).queue = [] then some (s.setLog l ⟨[], [], .idle⟩) else none

/-! ## Garbage collection -/

/-- The head of `garbage_collection`, which is called above the high mark only. -/
def gcStart (t : Store A) : Option (Store A × List (ℕ × ℕ)) :=
  match createUsedChunkList cfg S t with
  | (c₁, n₁) :: (c₂, n₂) :: rest =>
    if notEnoughFreeChunk cfg t = true ∧ n₁ + n₂ ≤ cfg.entriesPerChunk then
      (initGcWChunk cfg t).map (·, (c₁, n₁) :: (c₂, n₂) :: rest)
    else none
  | _ => none

/-- No proper victim is left. -/
def gcLast (s : System A) (v : ℕ) : System A :=
  if (s.store v).gcWChunk.movedEntryList.isEmpty then
    (s.setStore v (addFreeChunkList (s.store v) (s.store v).gcWChunk.chunkOffset)).setGc v { s.gc v with pc := .idle }
  else s.setGc v { s.gc v with pc := .write none }

/-- `memcpy` of one valid entry and its two records. -/
def gcCopy (s : System A) (v victim i : ℕ) : System A :=
  { s.setStore v (gcCopyEntry (s.store v) victim (s.gc v).wOffset i) with
    copiedAt := Function.update s.copiedAt v (match ((s.store v).gcRBuffer i).atEntry with
      | none => s.copiedAt v
      | some a => Function.update (s.copiedAt v) a (s.version a)) }

/-- The loop body for entry `i` of a victim, up to the write of a full chunk. -/
def gcEntry (s : System A) (v victim i : ℕ) (is : List ℕ) (rest : List (ℕ × ℕ)) : System A :=
  let g := s.gc v
  if (s.store v).bitmap victim i then
    if g.wOffset = cfg.entriesPerChunk - 1 then
      let used := g.usedChunkNum + 1
      (s.gcCopy v victim i).setGc v { g with
        pc := .write (if gcStops cfg g.before used then none else some (victim, is, rest)), usedChunkNum := used }
    else (s.gcCopy v victim i).setGc v { g with pc := .entries (victim, is, rest), wOffset := g.wOffset + 1 }
  else s.setGc v { g with pc := .entries (victim, is, rest) }

def gcWrite (s : System A) (v : ℕ) (cont : Option GcCont) : System A :=
  (s.setStore v (writeGcWChunk cfg S (s.store v))).setGc v
    { s.gc v with pc := .sync (sortMovedEntry S (s.store v).gcWChunk.movedEntryList) cont }

/-- `gc_moved_entry_list->clear()` -/
def gcClear (t : Store A) : Store A := { t with gcWChunk := { t.gcWChunk with movedEntryList := [] } }

/-- Every step of a collection but the links. -/
def gcStep (s : System A) (v : ℕ) : Option (System A) :=
  let g := s.gc v
  match g.pc with
  | .idle => (gcStart cfg S (s.store v)).map fun r =>
      let used := usedChunkNumInt cfg (s.store v)
      (s.setStore v r.1).setGc v ⟨.victims r.2, 0, used, used⟩
  | .victims [] => some (s.gcLast v)
  | .victims ((victim, entries) :: rest) =>
    if entries = cfg.entriesPerChunk then some (s.gcLast v)
    else some ((s.setStore v (readGcRChunk (s.store v) victim)).setGc v
      { g with pc := .entries (victim, List.range cfg.entriesPerChunk, rest) })
  | .entries (_, [], rest) =>
    some (s.setGc v { g with pc := .victims rest, usedChunkNum := g.usedChunkNum - 1 })
  | .entries (victim, i :: is, rest) => some (s.gcEntry cfg v victim i is rest)
  | .write cont => some (s.gcWrite cfg S v cont)
  | .sync [] none => some ((s.setStore v (gcClear (s.store v))).setGc v { g with pc := .idle })
  | .sync [] (some cont) => (initGcWChunk cfg (gcClear (s.store v))).map fun t =>
      (s.setStore v t).setGc v { g with pc := .entries cont, wOffset := 0 }
  | .sync (_ :: _) _ => none

/-- One record of `gc_sync_with_at`. -/
def gcLink (s : System A) (v : ℕ) (m : MovedEntry A) : Option (System A) :=
  match (s.gc v).pc with
  | .sync moved cont =>
    if m ∈ moved then
      (gcLinkOne cfg (s.store v) m).map fun t =>
        (s.setStore v t).setGc v { s.gc v with pc := .sync (moved.erase m) cont }
    else none
  | _ => none

/-! ## What the steps of one branch do -/

variable {home keyOf cfg} {s s' : System A} {l : LogId} {a : A} {val v : ℕ} {p : Ptr}

theorem insert_spec (hs : s.insert home keyOf l a val p = some s') :
    (s.Fresh home l p ∧ s.values a = []) ∧ s' = s.record keyOf l a val p (linkToOl alloc p) := by
  obtain ⟨hfresh, hs⟩ := Option.ite_none_right_eq_some.mp hs
  exact ⟨hfresh, (Option.some.inj hs).symm⟩

theorem update_spec (hs : s.update home keyOf cfg l a val p = some s') : (s.Fresh home l p ∧ s.values a ≠ []) ∧
    s' = (s.record keyOf l a val p (linkToOlPast (s.table a) p).1).unlinkPast cfg (linkToOlPast (s.table a) p).2 := by
  obtain ⟨hfresh, hs⟩ := Option.ite_none_right_eq_some.mp hs
  exact ⟨hfresh, (Option.some.inj hs).symm⟩

omit [DecidableEq A] in
theorem start_spec (hs : s.start l v = some s') : ((s.log l).phase = .idle ∧ (s.log l).queue ≠ []) ∧
    s' = s.setLog l { s.log l with phase := .draining v } := by
  obtain ⟨hidle, hs⟩ := Option.ite_none_right_eq_some.mp hs
  exact ⟨hidle, (Option.some.inj hs).symm⟩

omit [DecidableEq A] in
theorem finish_spec (hs : s.finish l = some s') :
    ((s.log l).phase = .finished ∧ (s.log l).queue = []) ∧ s' = s.setLog l ⟨[], [], .idle⟩ := by
  obtain ⟨hdone, hs⟩ := Option.ite_none_right_eq_some.mp hs
  exact ⟨hdone, (Option.some.inj hs).symm⟩

end System

/-- The value a lookup finds outside the cache. -/
def System.resolve (cfg : Config) (s : System A) (a : A) : Option ℕ :=
  match getValPos (s.table a) with
  | some (.valuestorage v) =>
    let offset := (s.table a).vsIdx.vsOffset.toNat
    some ((s.stores v.toNat).disk (offset / cfg.entriesPerChunk) (offset % cfg.entriesPerChunk)).val
  | some .oplog => (toPtr (getUntaggedPtr (s.table a).valAddr)).map fun p => (s.op p).val
  | _ => none

/-! ## Runs -/

inductive Step (A : Type) where
  | insert (l : LogId) (a : A) (val : ℕ) (p : Ptr)
  | update (l : LogId) (a : A) (val : ℕ) (p : Ptr)
  | start (l : LogId) (v : ℕ)
  | reclaim (l : LogId)
  | write (l : LogId)
  | link (l : LogId) (m : MovedEntry A)
  | close (l : LogId)
  | finish (l : LogId)
  | gc (v : ℕ)
  | gcLink (v : ℕ) (m : MovedEntry A)

variable {A : Type} [DecidableEq A] (home : Ptr → Option LogId) (keyOf : A → ℕ) (cfg : Config) (S : StdSort)

def step (s : System A) : Step A → Option (System A)
  | .insert l a val p => s.insert home keyOf l a val p
  | .update l a val p => s.update home keyOf cfg l a val p
  | .start l v => s.start l v
  | .reclaim l => s.reclaim cfg l
  | .write l => s.write cfg S l
  | .link l m => s.link cfg l m
  | .close l => s.close l
  | .finish l => s.finish l
  | .gc v => s.gcStep cfg S v
  | .gcLink v m => s.gcLink cfg v m

/-- Nothing was written yet, and no thread runs. -/
structure Starting (s : System A) : Prop where
  values : ∀ a, s.values a = []
  log : ∀ l, s.log l = ⟨[], [], .idle⟩
  sync : ∀ v w, s.sync v w = none
  chunk : ∀ v w, ((s.stores v).wChunk w).entryOffset = 0 ∧ ((s.stores v).wChunk w).movedEntryList = []
  gc : ∀ v, (s.gc v).pc = .idle
  gcChunk : ∀ v, (s.stores v).gcWChunk.wBuffer = (fun _ => zeroEntry) ∧ (s.stores v).gcWChunk.movedEntryList = []
  putAt : ∀ v w a, s.putAt v w a = 0
  copiedAt : ∀ v a, s.copiedAt v a = 0

/-- All stores after their constructors. -/
def freshSystem {A : Type} (cfg : Config) : System A where
  table _ := alloc
  op _ := ⟨0, 0, none⟩
  log _ := ⟨[], [], .idle⟩
  stores _ := freshStore cfg
  sync _ _ := none
  gc _ := ⟨.idle, 0, 0, 0⟩
  values _ := []
  putAt _ _ _ := 0
  copiedAt _ _ := 0

theorem starting_freshSystem {A : Type} (cfg : Config) : Starting (freshSystem cfg : System A) :=
  ⟨fun _ => rfl, fun _ => rfl, fun _ _ => rfl, fun _ _ => ⟨rfl, rfl⟩, fun _ => rfl, fun _ => ⟨rfl, rfl⟩,
    fun _ _ _ => rfl, fun _ _ => rfl⟩

/-- Eight chunks of two entries. -/
def smallConfig : Config := ⟨2, 8, Nat.two_pos⟩

attribute [local instance] oplogNum_neZero entryNum_neZero

/-- The first log of `OpLog` 0, the first log of `OpLog` 1 and the second log of
`OpLog` 0, with a few slots each. -/
def sampleHome (p : Ptr) : Option LogId :=
  if p = entryPtr 0 ∨ p = entryPtr 1 then some (0, 0)
  else if p = entryPtr 2 ∨ p = entryPtr 3 then some (1, 0)
  else if p = entryPtr 4 ∨ p = entryPtr 5 then some (0, 1)
  else none

end Hkv.Prism
