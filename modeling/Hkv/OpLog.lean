import Hkv.MtsConfig
import Hkv.StepRun
import Mathlib.Logic.Function.Basic
import Mathlib.Data.List.Basic

/-!
# The double-buffered write log

An `OpLog` owns two logs. Its thread appends to the working log; when that one is full
it spawns a thread to reclaim it and goes on with the other. `reclaim_lock` is set and
cleared by the reclaim thread. The model has the steps of the owner and of every thread
it has spawned; a run is any interleaving of them.

What a reclaim does with the entries it drains is the subject of `Hkv.Reclaim`; here
only the log counters move. The `ready` and `reclaimed` flags of a log are never read.
-/
namespace Hkv.Pwb
open MtsConfig StepRun

structure LogConfig where
  /-- `align_uint_to_cacheline(KV_SIZE)` -/
  entrySize : ℕ
  /-- `MTS_OPLOG_SIZE` -/
  logSize : ℕ
  /-- `MTS_OPLOG_HIGH_MARK` -/
  highMark : ℕ
  entry_le : entrySize ≤ highMark
  mark_le : highMark ≤ logSize

/-- The layout of `mts-config.h`: 16 GiB for eight logs of two halves each. -/
def oplogConfig : LogConfig where
  entrySize := kvSize
  logSize := 16 * 1024 * 1024 * 1024 / threadNum / 2
  highMark := 16 * 1024 * 1024 * 1024 / threadNum / 2
  entry_le := by decide
  mark_le := le_rfl

/-- What `enq` stores of an `op_entry_t`. -/
structure OpSlot where
  key : ℕ
  val : ℕ
  size : ℕ

/-- `ts_oplog_t`; counters and slot positions are in bytes. -/
structure Oplog where
  headCnt : ℕ
  tailCnt : ℕ
  slots : ℕ → OpSlot

/-! ## One log -/

variable (cfg : LogConfig)

/-- `cnt & ~mask` with `mask = ~(log_size - 1)` -/
def nvlogIndex (cnt : ℕ) : ℕ := cnt &&& (cfg.logSize - 1)

/-- A difference of two `unsigned long` counters. -/
def unsignedDiff (a b : ℕ) : ℕ := (((a : ℤ) - b) % 2 ^ 64).toNat

theorem unsignedDiff_of_le {a b : ℕ} (h : b ≤ a) (hlt : a - b < 2 ^ 64) : unsignedDiff a b = a - b := by
  unfold unsignedDiff
  omega

theorem unsignedDiff_zero {a : ℕ} (h : a < 2 ^ 64) : unsignedDiff a 0 = a := unsignedDiff_of_le (Nat.zero_le a) h

theorem unsignedDiff_add (a b c : ℕ) : (unsignedDiff a b + c) % 2 ^ 64 = unsignedDiff (a + c) b := by
  unfold unsignedDiff
  omega

def oplogUsed (o : Oplog) : ℕ := unsignedDiff o.tailCnt o.headCnt

/-- What the log would hold with one more entry. -/
def oplogNext (o : Oplog) : ℕ := unsignedDiff (o.tailCnt + cfg.entrySize) o.headCnt

/-- `none` is the `overflow_out` exit. -/
def nvlogEnq (o : Oplog) : Option (ℕ × Oplog) :=
  if cfg.logSize < cfg.entrySize then none
  else if cfg.logSize < oplogNext cfg o then none
  else
    let p := nvlogIndex cfg o.tailCnt
    some (p, { o with
      tailCnt := o.tailCnt + cfg.entrySize
      slots := Function.update o.slots p { o.slots p with size := cfg.entrySize } })

def oplogEnq (o : Oplog) (key val : ℕ) : Option (ℕ × Oplog) := do
  let (p, o) ← nvlogEnq cfg o
  return (p, { o with slots := Function.update o.slots p { o.slots p with key := key, val := val } })

/-- The inner `none` is `NEED_RECLAIM`; the outer one is `oplog_enq` on a null entry. -/
def putOlEntry (o : Oplog) (key val : ℕ) : Option (Option ℕ × Oplog) :=
  if cfg.highMark < oplogNext cfg o then some (none, o)
  else (oplogEnq cfg o key val).map fun r => (some r.1, r.2)

def oplogDeq (o : Oplog) : Oplog :=
  { o with headCnt := o.headCnt + (o.slots (nvlogIndex cfg o.headCnt)).size }

/-! ## Owner and reclaim threads -/

/-- Where a reclaim thread stands: not yet scheduled; in the loop with `reclaim_lock`
set; out of the loop; counters reset; `reclaim_lock` cleared. -/
inductive Phase where
  | created | draining | drained | reset | finished
  deriving DecidableEq

structure ReclaimThread where
  id : Fin 2
  phase : Phase
  oldHeadCnt : ℕ

structure OpLog where
  oplog : Fin 2 → Oplog
  workingOplog : Fin 2
  reclaimLock : Bool
  /-- All threads spawned so far, newest first; `reclaim_thread` is the newest. -/
  threads : List ReclaimThread
  /-- The arguments of an `enq` that waits in `join`. -/
  joining : Option (ℕ × ℕ)
  /-- What the `enq` calls have returned, newest first. -/
  returns : List (Option (Fin 2 × ℕ))

/-- The constructor. -/
def OpLog.new : OpLog where
  oplog _ := ⟨0, 0, fun _ => ⟨0, 0, 0⟩⟩
  workingOplog := 0
  reclaimLock := false
  threads := []
  joining := none
  returns := []

def getAnotherOplog (id : Fin 2) : Fin 2 := if id = 0 then 1 else 0

/-- The log after a put, and what the put gave to the caller of `enq`. -/
def OpLog.store (s : OpLog) (r : Option ℕ × Oplog) : OpLog :=
  { s with
    oplog := Function.update s.oplog s.workingOplog r.2
    returns := r.1.map (fun p => (s.workingOplog, p)) :: s.returns }

/-- The new thread and the swap of the two logs. -/
def OpLog.spawn (s : OpLog) : OpLog :=
  { s with
    threads := ⟨s.workingOplog, .created, 0⟩ :: s.threads
    workingOplog := getAnotherOplog s.workingOplog
    joining := none }

/-- The rest of `enq` behind the join. -/
def OpLog.switch (s : OpLog) (key val : ℕ) : Option OpLog :=
  (putOlEntry cfg (s.oplog (getAnotherOplog s.workingOplog)) key val).map s.spawn.store

def OpLog.enq (s : OpLog) (key val : ℕ) : Option OpLog := do
  let r ← putOlEntry cfg (s.oplog s.workingOplog) key val
  if r.1.isSome then some (s.store r)
  else if s.reclaimLock then some { s with joining := some (key, val) }
  else s.switch cfg key val

/-- `reclaim_thread->join()` returns. -/
def OpLog.join (s : OpLog) : Option OpLog :=
  match s.joining, s.threads with
  | some (key, val), t :: _ => if t.phase = .finished then s.switch cfg key val else none
  | _, _ => none

def OpLog.setOplog (s : OpLog) (id : Fin 2) (o : Oplog) : OpLog :=
  { s with oplog := Function.update s.oplog id o }

/-- One step of `OpLog::reclaim`, with the thread it becomes. -/
def OpLog.reclaim (s : OpLog) (t : ReclaimThread) : Option (OpLog × ReclaimThread) :=
  let o := s.oplog t.id
  match t.phase with
  | .created => some ({ s with reclaimLock := true }, ⟨t.id, .draining, o.headCnt⟩)
  | .draining =>
    if o.headCnt = o.tailCnt then some (s, { t with phase := .drained })
    else
      let o := oplogDeq cfg o
      some (s.setOplog t.id o, if oplogUsed o = 0 then { t with phase := .drained } else t)
  | .drained =>
    some (if o.headCnt = t.oldHeadCnt then s else s.setOplog t.id { o with headCnt := 0, tailCnt := 0 },
      { t with phase := .reset })
  | .reset => some ({ s with reclaimLock := false }, { t with phase := .finished })
  | .finished => none

inductive Step where
  | enq (key val : ℕ)
  | join
  | reclaim (i : ℕ)

/-- The owner makes one call at a time. -/
def OpLog.step (s : OpLog) : Step → Option OpLog
  | .enq key val => if s.joining.isSome then none else s.enq cfg key val
  | .join => s.join cfg
  | .reclaim i => do
    let t ← s.threads[i]?
    let (s, t) ← s.reclaim cfg t
    return { s with threads := s.threads.set i t }

end Hkv.Pwb
