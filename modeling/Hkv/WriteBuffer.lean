import Hkv.ByteMemory
import Hkv.OpLog
import Mathlib.Data.List.Range

/-!
# A write log in bytes

One log of `Hkv.OpLog` as the bytes of its buffer, with the fields of an `op_entry_t` at
their offsets and the counters as 64-bit words. An entry is placed by the masked tail
counter, its size is read back from the buffer when it is dequeued, and a reclaim drains
the log and sets both counters to zero.
-/
namespace Hkv.Pwb
open ByteMemory StepRun

/-- `unum` is an `unsigned int`; the mask clears the lower six bits. -/
def alignUintToCacheline (unum : ℕ) : ℕ := (unum % 2 ^ 32 + 63) % 2 ^ 32 / 64 * 64

/-- A log of `2 ^ logBits` bytes, all of which may be used before a reclaim. -/
structure BufferConfig where
  kvSize : ℕ
  logBits : ℕ
  kv_dvd : 64 ∣ kvSize
  /-- The size of `__reserved` in `op_entry_t` is `KV_SIZE - 72`. -/
  kv_le : 72 ≤ kvSize
  bits_lt : logBits < 64
  entry_le : alignUintToCacheline kvSize ≤ 2 ^ logBits

namespace BufferConfig
variable (cfg : BufferConfig)

def entrySize : ℕ := alignUintToCacheline cfg.kvSize

def logSize : ℕ := 2 ^ cfg.logBits

def toLogConfig : LogConfig where
  entrySize := cfg.entrySize
  logSize := cfg.logSize
  highMark := cfg.logSize
  entry_le := cfg.entry_le
  mark_le := le_rfl

/-- The log of `mts-config.h`. -/
def pwb : BufferConfig where
  kvSize := MtsConfig.kvSize
  logBits := 30
  kv_dvd := by decide
  kv_le := by decide
  bits_lt := by decide
  entry_le := by decide

example : pwb.toLogConfig = oplogConfig := rfl

/-! `op_entry_t` begins with `val`; its last cache line begins with `opa`, `key` and `size`. -/

def keyOffset : ℕ := cfg.kvSize - 56

def sizeOffset : ℕ := cfg.kvSize - 48

end BufferConfig

/-- `ts_oplog_t` and what is at and behind `buffer`. -/
structure ByteLog where
  headCnt : ℕ
  tailCnt : ℕ
  buffer : Memory

/-- One round of the loop of `reclaim`: the entry, and the counters behind it. -/
structure Round where
  slot : OpSlot
  headCnt : ℕ
  tailCnt : ℕ

namespace ByteLog
variable (cfg : BufferConfig)

/-- The fields of the entry at `p`. -/
def entry (buffer : Memory) (p : ℕ) : OpSlot where
  key := load 8 buffer (p + cfg.keyOffset)
  val := load 8 buffer p
  size := load 8 buffer (p + cfg.sizeOffset)

/-- `none` is the `overflow_out` exit. -/
def nvlogEnq (o : ByteLog) (objSize : ℕ) : Option (ℕ × ByteLog) :=
  let entrySize := alignUintToCacheline objSize
  if cfg.logSize < entrySize then none
  else if cfg.logSize < unsignedDiff (o.tailCnt + entrySize) o.headCnt then none
  else
    let p := nvlogIndex cfg.toLogConfig o.tailCnt
    some (p, { o with
      buffer := store 8 o.buffer (p + cfg.sizeOffset) entrySize
      tailCnt := (o.tailCnt + entrySize) % 2 ^ 64 })

/-- `none` is a store through the null pointer of `nvlog_enq`. -/
def oplogEnq (o : ByteLog) (key val : BitVec 64) : Option (ℕ × ByteLog) := do
  let (p, o) ← o.nvlogEnq cfg cfg.entrySize
  return (p, { o with buffer := store 8 (store 8 o.buffer (p + cfg.keyOffset) key.toNat) p val.toNat })

/-- The inner `none` is `NEED_RECLAIM`. -/
def putOlEntry (o : ByteLog) (key val : BitVec 64) : Option (Option ℕ × ByteLog) :=
  let oplogIndex := (unsignedDiff o.tailCnt o.headCnt + cfg.entrySize) % 2 ^ 64
  if cfg.logSize < oplogIndex then some (none, o)
  else (o.oplogEnq cfg key val).map fun r => (some r.1, r.2)

def oplogPeekHead (o : ByteLog) : Option ℕ :=
  if o.headCnt = o.tailCnt then none else some (nvlogIndex cfg.toLogConfig o.headCnt)

def oplogDeq (o : ByteLog) : ByteLog :=
  if o.headCnt = o.tailCnt then o
  else { o with headCnt :=
    (o.headCnt + (entry cfg o.buffer (nvlogIndex cfg.toLogConfig o.headCnt)).size) % 2 ^ 64 }

/-- The loop of `reclaim`, for at most `n` rounds; `MTS_OPLOG_LOW_MARK` is zero. -/
def drain : ℕ → ByteLog → Option (List Round × ByteLog)
  | 0, _ => none
  | n + 1, o =>
    match o.oplogPeekHead cfg with
    | none => some ([], o)
    | some p =>
      let o' := o.oplogDeq cfg
      let r : Round := ⟨entry cfg o.buffer p, o'.headCnt, o'.tailCnt⟩
      if unsignedDiff o'.tailCnt o'.headCnt = 0 then some ([r], o')
      else (drain n o').map fun rs => (r :: rs.1, rs.2)

/-- `reclaim`, as far as the log is concerned. More rounds than bytes are never needed. -/
def reclaim (o : ByteLog) : Option (List Round × ByteLog) :=
  (drain cfg (cfg.logSize + 1) o).map fun r =>
    (r.1, if r.2.headCnt = o.headCnt then r.2 else { r.2 with headCnt := 0, tailCnt := 0 })

end ByteLog

/-- A log with what its callers have seen: the entries that are not drained yet, by the
addresses that `put_ol_entry` returned, and the drains. -/
structure Buffer where
  log : ByteLog
  undrained : List ℕ
  drains : List (List Round)

/-- `put_ol_entry`, and a drain when it returns `NEED_RECLAIM`. -/
def Buffer.step (cfg : BufferConfig) (b : Buffer) (call : BitVec 64 × BitVec 64) : Option Buffer :=
  (b.log.putOlEntry cfg call.1 call.2).bind fun r =>
    match r.1 with
    | some p => some { b with log := r.2, undrained := b.undrained ++ [p] }
    | none => (r.2.reclaim cfg).map fun d => ⟨d.2, [], b.drains ++ [d.1]⟩

def Buffer.new (buffer : Memory) : Buffer := ⟨⟨0, 0, buffer⟩, [], []⟩

/-! ## The queue -/

/-- The entries put since the last drain, and what the drains have yielded. -/
structure Fifo where
  queue : List OpSlot
  drains : List (List OpSlot)

/-- An entry of `entrySize` bytes is put, or the queue is drained for want of space. -/
def Fifo.step (entrySize logSize : ℕ) (f : Fifo) (call : BitVec 64 × BitVec 64) : Fifo :=
  if logSize < (f.queue.length + 1) * entrySize then ⟨[], f.drains ++ [f.queue]⟩
  else { f with queue := f.queue ++ [⟨call.1.toNat, call.2.toNat, entrySize⟩] }

def Fifo.run (entrySize logSize : ℕ) (calls : List (BitVec 64 × BitVec 64)) : Fifo :=
  calls.foldl (Fifo.step entrySize logSize) ⟨[], []⟩

/-! ## Entries in bytes -/

variable {cfg : BufferConfig} {o : ByteLog} {m : Memory} {key val : BitVec 64} {p q a n : ℕ} {s : OpSlot}
  {qs : List OpSlot} {b : Buffer} {f : Fifo}

namespace BufferConfig

theorem dvd_entrySize (cfg : BufferConfig) : 64 ∣ cfg.entrySize := Dvd.intro_left _ rfl

theorem entrySize_lt (cfg : BufferConfig) : cfg.entrySize < 2 ^ 32 := by
  unfold entrySize alignUintToCacheline
  omega

theorem entrySize_eq (cfg : BufferConfig) (h : cfg.kvSize < 2 ^ 32) : cfg.entrySize = cfg.kvSize := by
  have hdvd := cfg.kv_dvd
  unfold entrySize alignUintToCacheline
  omega

theorem alignUintToCacheline_entrySize (cfg : BufferConfig) :
    alignUintToCacheline cfg.entrySize = cfg.entrySize := by
  have hdvd := cfg.dvd_entrySize
  have hlt := cfg.entrySize_lt
  unfold alignUintToCacheline
  omega

theorem logSize_le (cfg : BufferConfig) : cfg.logSize ≤ 2 ^ 63 :=
  Nat.pow_le_pow_right (by decide) (Nat.le_of_lt_succ cfg.bits_lt)

theorem entrySize_le (cfg : BufferConfig) : cfg.entrySize ≤ cfg.logSize := cfg.entry_le

theorem nvlogIndex_of_lt (h : a < cfg.logSize) : nvlogIndex cfg.toLogConfig a = a := by
  show a &&& (2 ^ cfg.logBits - 1) = a
  rw [Nat.and_two_pow_sub_one_eq_mod]
  exact Nat.mod_eq_of_lt h

end BufferConfig

namespace ByteLog

/-- The buffer with an entry at `p`. -/
def putEntry (cfg : BufferConfig) (m : Memory) (p : ℕ) (key val : BitVec 64) : Memory :=
  store 8 (store 8 (store 8 m (p + cfg.sizeOffset) cfg.entrySize) (p + cfg.keyOffset) key.toNat) p val.toNat

theorem entry_putEntry (hp : 64 ∣ p) (hq : 64 ∣ q) : entry cfg (putEntry cfg m p key val) q =
    if q = p then ⟨key.toNat, val.toNat, cfg.entrySize⟩ else entry cfg m q := by
  have hdvd := cfg.kv_dvd
  have hle := cfg.kv_le
  have hword : ∀ w : BitVec 64, w.toNat % 256 ^ 8 = w.toNat := fun w => Nat.mod_eq_of_lt w.isLt
  have hsize : cfg.entrySize % 256 ^ 8 = cfg.entrySize :=
    Nat.mod_eq_of_lt (cfg.entrySize_lt.trans (by decide))
  unfold entry putEntry BufferConfig.keyOffset BufferConfig.sizeOffset
  by_cases heq : q = p
  · subst heq
    rw [if_pos rfl, load_store_of_disjoint (by omega), load_store_self, load_store_self,
      load_store_of_disjoint (by omega), load_store_of_disjoint (by omega), load_store_self, hword, hword, hsize]
  · rw [if_neg heq]
    repeat rw [load_store_of_disjoint (by omega)]

/-- The entries `qs`, one behind the other from `a` on. -/
def Stored (cfg : BufferConfig) (m : Memory) : ℕ → List OpSlot → Prop
  | _, [] => True
  | a, s :: qs => entry cfg m a = s ∧ s.size = cfg.entrySize ∧ Stored cfg m (a + cfg.entrySize) qs

theorem Stored.concat (h : Stored cfg m a qs) (hentry : entry cfg m (a + qs.length * cfg.entrySize) = s)
    (hsize : s.size = cfg.entrySize) : Stored cfg m a (qs ++ [s]) := by
  induction qs generalizing a with
  | nil =>
    rw [List.length_nil, Nat.zero_mul, Nat.add_zero] at hentry
    exact ⟨hentry, hsize, trivial⟩
  | cons x qs ih =>
    obtain ⟨hx, hxsize, hrest⟩ := h
    refine ⟨hx, hxsize, ih hrest ?_⟩
    rw [← hentry, List.length_cons, Nat.succ_mul, Nat.add_comm (_ * _), Nat.add_assoc]

theorem Stored.putEntry (h : Stored cfg m a qs) (hpos : 0 < cfg.entrySize) (ha : 64 ∣ a) (hp : 64 ∣ p)
    (hle : a + qs.length * cfg.entrySize ≤ p) : Stored cfg (putEntry cfg m p key val) a qs := by
  induction qs generalizing a with
  | nil => trivial
  | cons x qs ih =>
    obtain ⟨hx, hxsize, hrest⟩ := h
    rw [List.length_cons, Nat.succ_mul] at hle
    have hne : a ≠ p := by omega
    refine ⟨?_, hxsize, ih hrest (Nat.dvd_add ha cfg.dvd_entrySize) (by omega)⟩
    rw [entry_putEntry hp ha, if_neg hne, hx]

/-! ## The functions of the log -/

theorem putOlEntry_append (hhead : o.headCnt = 0) (htail : o.tailCnt < cfg.logSize)
    (hroom : o.tailCnt + cfg.entrySize ≤ cfg.logSize) : o.putOlEntry cfg key val =
      some (some o.tailCnt, ⟨0, o.tailCnt + cfg.entrySize, putEntry cfg o.buffer o.tailCnt key val⟩) := by
  have hlog := cfg.logSize_le
  have hnext : unsignedDiff (o.tailCnt + cfg.entrySize) 0 = o.tailCnt + cfg.entrySize := unsignedDiff_zero (by omega)
  have hmod : (o.tailCnt + cfg.entrySize) % 2 ^ 64 = o.tailCnt + cfg.entrySize := Nat.mod_eq_of_lt (by omega)
  have hsize : ¬ cfg.logSize < cfg.entrySize := cfg.entrySize_le.not_gt
  -- the space checks of `put_ol_entry` and `nvlog_enq` compute one number
  simp only [putOlEntry, oplogEnq, nvlogEnq, unsignedDiff_add, hmod, cfg.alignUintToCacheline_entrySize, hnext,
    if_neg hsize,
    if_neg hroom.not_gt, BufferConfig.nvlogIndex_of_lt htail, Option.bind_eq_bind, Option.bind_some, Option.pure_def,
    Option.map_some, hhead, putEntry]

theorem putOlEntry_of_full (hhead : o.headCnt = 0) (htail : o.tailCnt ≤ cfg.logSize)
    (hfull : cfg.logSize < o.tailCnt + cfg.entrySize) : o.putOlEntry cfg key val = some (none, o) := by
  have hlog := cfg.logSize_le
  have hsize := cfg.entrySize_lt
  have hnext : unsignedDiff (o.tailCnt + cfg.entrySize) 0 = o.tailCnt + cfg.entrySize := unsignedDiff_zero (by omega)
  simp only [putOlEntry, hhead, unsignedDiff_add, hnext, if_pos hfull]

/-- The loop goes through the entries in order, by the sizes stored in them. -/
theorem drain_stored (hst : Stored cfg o.buffer o.headCnt qs) (hpos : 0 < cfg.entrySize) (hne : qs ≠ [])
    (htail : o.tailCnt = o.headCnt + qs.length * cfg.entrySize) (hle : o.tailCnt ≤ cfg.logSize)
    (hn : qs.length ≤ n) :
    ∃ rs, drain cfg n o = some (rs, { o with headCnt := o.tailCnt }) ∧ rs.map Round.slot = qs ∧
      ∀ r ∈ rs, r.headCnt ≤ r.tailCnt := by
  induction qs generalizing o n with
  | nil => exact absurd rfl hne
  | cons s qs ih =>
    obtain ⟨hentry, hsize, hrest⟩ := hst
    have hlog := cfg.logSize_le
    rw [List.length_cons] at htail hn
    rw [Nat.succ_mul] at htail
    obtain ⟨n, rfl⟩ : ∃ k, n = k + 1 := ⟨n - 1, by omega⟩
    have hidx : nvlogIndex cfg.toLogConfig o.headCnt = o.headCnt := BufferConfig.nvlogIndex_of_lt (by omega)
    have hpeek : o.oplogPeekHead cfg = some o.headCnt := by rw [oplogPeekHead, if_neg (by omega), hidx]
    have hdeq : o.oplogDeq cfg = { o with headCnt := o.headCnt + cfg.entrySize } := by
      rw [oplogDeq, if_neg (by omega), hidx, hentry, hsize, Nat.mod_eq_of_lt (by omega)]
    have hused : unsignedDiff o.tailCnt (o.headCnt + cfg.entrySize) = qs.length * cfg.entrySize := by
      rw [unsignedDiff_of_le (by omega) (by omega)]
      omega
    simp only [drain, hpeek, hdeq, hused, hentry]
    cases qs with
    | nil =>
      have hend : o.headCnt + cfg.entrySize = o.tailCnt := by
        rw [htail, List.length_nil, Nat.zero_mul, Nat.zero_add]
      refine ⟨[⟨s, o.tailCnt, o.tailCnt⟩], ?_, rfl, fun r hr => ?_⟩
      · rw [List.length_nil, Nat.zero_mul, if_pos rfl, hend]
      · rw [List.mem_singleton.mp hr]
    | cons s' qs =>
      have hmore : ¬ (s' :: qs).length * cfg.entrySize = 0 := (Nat.mul_pos (Nat.succ_pos _) hpos).ne'
      obtain ⟨rs, hdrain, hslots, hcounters⟩ := ih (o := { o with headCnt := o.headCnt + cfg.entrySize }) (n := n)
        hrest (by simp) (by dsimp only; omega) hle (by omega)
      refine ⟨⟨s, o.headCnt + cfg.entrySize, o.tailCnt⟩ :: rs, ?_, ?_, ?_⟩
      · rw [if_neg hmore, hdrain, Option.map_some]
      · rw [List.map_cons, hslots]
      · refine List.forall_mem_cons.mpr ⟨?_, hcounters⟩
        show o.headCnt + cfg.entrySize ≤ o.tailCnt
        omega

theorem reclaim_stored (hst : Stored cfg o.buffer 0 qs) (hpos : 0 < cfg.entrySize) (hne : qs ≠ [])
    (hhead : o.headCnt = 0) (htail : o.tailCnt = qs.length * cfg.entrySize) (hle : o.tailCnt ≤ cfg.logSize) :
    ∃ rs, o.reclaim cfg = some (rs, ⟨0, 0, o.buffer⟩) ∧ rs.map Round.slot = qs ∧
      ∀ r ∈ rs, r.headCnt ≤ r.tailCnt := by
  have hlen : qs.length ≤ qs.length * cfg.entrySize := Nat.le_mul_of_pos_right _ hpos
  have hlen' := List.length_pos_iff.mpr hne
  obtain ⟨rs, hdrain, hrs⟩ :=
    drain_stored (n := cfg.logSize + 1) (hhead ▸ hst) hpos hne (by omega) hle (by omega)
  refine ⟨rs, ?_, hrs⟩
  have hmoved : ¬ o.tailCnt = o.headCnt := by omega
  rw [reclaim, hdrain, Option.map_some, if_neg hmoved]

/-! ## The log by slots

The slots of `Hkv.OpLog` are the entries at cache lines. -/

structure Agrees (cfg : BufferConfig) (o : ByteLog) (l : Oplog) : Prop where
  head : o.headCnt = l.headCnt
  tail : o.tailCnt = l.tailCnt
  slots : ∀ p, 64 ∣ p → entry cfg o.buffer p = l.slots p

variable {l : Oplog}

theorem dvd_nvlogIndex (h : 64 ∣ a) : 64 ∣ nvlogIndex cfg.toLogConfig a := by
  show 64 ∣ a &&& (2 ^ cfg.logBits - 1)
  rw [Nat.and_two_pow_sub_one_eq_mod]
  rcases Nat.lt_or_ge cfg.logBits 6 with hsmall | hbig
  · have hpow : 2 ^ cfg.logBits ∣ 64 := (Nat.pow_dvd_pow 2 hsmall.le : 2 ^ cfg.logBits ∣ 2 ^ 6)
    rw [Nat.mod_eq_zero_of_dvd (hpow.trans h)]
    exact Nat.dvd_zero _
  · exact (Nat.dvd_mod_iff (Nat.pow_dvd_pow 2 hbig : 2 ^ 6 ∣ 2 ^ cfg.logBits)).mpr h

theorem Agrees.putOlEntry (h : Agrees cfg o l) (hdvd : 64 ∣ o.tailCnt) (hfit : o.tailCnt + cfg.entrySize < 2 ^ 64) :
    ∃ r o' l', o.putOlEntry cfg key val = some (r, o') ∧
      Pwb.putOlEntry cfg.toLogConfig l key.toNat val.toNat = some (r, l') ∧ Agrees cfg o' l' := by
  have hnext : oplogNext cfg.toLogConfig l = unsignedDiff (o.tailCnt + cfg.entrySize) o.headCnt := by
    rw [h.head, h.tail]
    rfl
  simp only [ByteLog.putOlEntry, Pwb.putOlEntry, unsignedDiff_add, hnext]
  by_cases hfull : cfg.logSize < unsignedDiff (o.tailCnt + cfg.entrySize) o.headCnt
  · exact ⟨none, o, l, if_pos hfull, if_pos hfull, h⟩
  · have hsize : ¬ cfg.logSize < cfg.entrySize := cfg.entrySize_le.not_gt
    set p := nvlogIndex cfg.toLogConfig o.tailCnt with hp
    refine ⟨some p, ⟨o.headCnt, o.tailCnt + cfg.entrySize, putEntry cfg o.buffer p key val⟩,
      ⟨l.headCnt, l.tailCnt + cfg.entrySize, Function.update l.slots p ⟨key.toNat, val.toNat, cfg.entrySize⟩⟩,
      ?_, ?_, ?_⟩
    · simp only [ByteLog.oplogEnq, ByteLog.nvlogEnq, if_neg hfull, cfg.alignUintToCacheline_entrySize, if_neg hsize,
        Option.bind_eq_bind, Option.bind_some, Option.pure_def, Option.map_some, Nat.mod_eq_of_lt hfit, putEntry, hp]
    · have hfull' : ¬ cfg.toLogConfig.highMark < unsignedDiff (o.tailCnt + cfg.entrySize) o.headCnt := hfull
      have hroom' : ¬ cfg.toLogConfig.logSize < unsignedDiff (o.tailCnt + cfg.entrySize) o.headCnt := hfull
      have hsize' : ¬ cfg.toLogConfig.logSize < cfg.toLogConfig.entrySize := hsize
      simp only [Pwb.oplogEnq, Pwb.nvlogEnq, if_neg hfull', hnext, if_neg hroom', if_neg hsize', Option.bind_eq_bind,
        Option.bind_some, Option.pure_def, Option.map_some, Function.update_self, Function.update_idem,
        ← h.tail, ← hp]
      rfl
    · refine ⟨h.head, congrArg (· + cfg.entrySize) h.tail, fun q hq => ?_⟩
      rw [entry_putEntry (dvd_nvlogIndex hdvd) hq, h.slots q hq]
      exact (Function.update_apply ..).symm

theorem Agrees.oplogDeq (h : Agrees cfg o l) (hne : o.headCnt ≠ o.tailCnt) (hdvd : 64 ∣ o.headCnt)
    (hfit : (Pwb.oplogDeq cfg.toLogConfig l).headCnt < 2 ^ 64) :
    Agrees cfg (o.oplogDeq cfg) (Pwb.oplogDeq cfg.toLogConfig l) := by
  have hdeq : o.oplogDeq cfg = { o with headCnt := (Pwb.oplogDeq cfg.toLogConfig l).headCnt } := by
    rw [ByteLog.oplogDeq, if_neg hne, h.slots _ (dvd_nvlogIndex hdvd), h.head]
    exact congrArg (ByteLog.mk · o.tailCnt o.buffer) (Nat.mod_eq_of_lt hfit)
  rw [hdeq]
  exact ⟨rfl, h.tail, h.slots⟩

end ByteLog

/-! ## Runs -/

open ByteLog

/-- The log holds the queue, from its first byte on. -/
structure Buffer.Holds (cfg : BufferConfig) (b : Buffer) (f : Fifo) : Prop where
  head : b.log.headCnt = 0
  tail : b.log.tailCnt = f.queue.length * cfg.entrySize
  tail_le : b.log.tailCnt ≤ cfg.logSize
  undrained : b.undrained = (List.range f.queue.length).map (· * cfg.entrySize)
  stored : 0 < cfg.entrySize → Stored cfg b.log.buffer 0 f.queue
  drains : b.drains.map (List.map Round.slot) = f.drains
  counters : ∀ d ∈ b.drains, ∀ r ∈ d, r.headCnt ≤ r.tailCnt

namespace Buffer

theorem holds_new (cfg : BufferConfig) (m : Memory) : (new m).Holds cfg ⟨[], []⟩ where
  head := rfl
  tail := (Nat.zero_mul _).symm
  tail_le := Nat.zero_le _
  undrained := rfl
  stored _ := trivial
  drains := rfl
  counters := by simp [new]

theorem Holds.step_full {call : BitVec 64 × BitVec 64} (h : b.Holds cfg f)
    (hfull : cfg.logSize < (f.queue.length + 1) * cfg.entrySize) :
    ∃ b', b.step cfg call = some b' ∧ b'.Holds cfg ⟨[], f.drains ++ [f.queue]⟩ := by
  have hle := cfg.entrySize_le
  rw [Nat.succ_mul, ← h.tail] at hfull
  have hpos : 0 < cfg.entrySize := by
    have := h.tail_le
    omega
  have hne : f.queue ≠ [] := by
    intro hnil
    have := h.tail
    rw [hnil, List.length_nil, Nat.zero_mul] at this
    omega
  obtain ⟨rs, hreclaim, hslots, hcounters⟩ := reclaim_stored (h.stored hpos) hpos hne h.head h.tail h.tail_le
  refine ⟨⟨⟨0, 0, b.log.buffer⟩, [], b.drains ++ [rs]⟩, ?_, ?_⟩
  · rw [step, putOlEntry_of_full h.head h.tail_le hfull, Option.bind_some]
    dsimp only
    rw [hreclaim, Option.map_some]
  · refine { holds_new cfg b.log.buffer with drains := ?_, counters := ?_ }
    · rw [List.map_append, h.drains, List.map_singleton, hslots]
    · intro d hd
      rcases List.mem_append.mp hd with hd | hd
      · exact h.counters d hd
      · exact List.mem_singleton.mp hd ▸ hcounters

theorem Holds.step_room {call : BitVec 64 × BitVec 64} (h : b.Holds cfg f)
    (hroom : (f.queue.length + 1) * cfg.entrySize ≤ cfg.logSize) : ∃ b', b.step cfg call = some b' ∧
      b'.Holds cfg { f with queue := f.queue ++ [⟨call.1.toNat, call.2.toNat, cfg.entrySize⟩] } := by
  rw [Nat.succ_mul, ← h.tail] at hroom
  have hlt : b.log.tailCnt < cfg.logSize := by
    rcases Nat.eq_zero_or_pos cfg.entrySize with hzero | hpos
    · rw [h.tail, hzero, Nat.mul_zero]
      exact Nat.two_pow_pos _
    · omega
  have hdvd : 64 ∣ b.log.tailCnt := h.tail ▸ Dvd.dvd.mul_left cfg.dvd_entrySize _
  refine ⟨⟨⟨0, b.log.tailCnt + cfg.entrySize, putEntry cfg b.log.buffer b.log.tailCnt call.1 call.2⟩,
    b.undrained ++ [b.log.tailCnt], b.drains⟩, ?_, ?_⟩
  · rw [step, putOlEntry_append h.head hlt hroom, Option.bind_some]
  · constructor
    case head => rfl
    case tail => rw [List.length_append, List.length_singleton, Nat.succ_mul, h.tail]
    case tail_le => exact hroom
    case undrained =>
      rw [List.length_append, List.length_singleton, List.range_succ, List.map_append, h.undrained, h.tail]
      rfl
    case stored =>
      intro hpos
      refine ((h.stored hpos).putEntry hpos (Nat.dvd_zero _) hdvd ?_).concat ?_ rfl
      · rw [Nat.zero_add, h.tail]
      · rw [Nat.zero_add, ← h.tail, entry_putEntry hdvd hdvd, if_pos rfl]
    case drains => exact h.drains
    case counters => exact h.counters

theorem Holds.step (h : b.Holds cfg f) (call : BitVec 64 × BitVec 64) :
    ∃ b', b.step cfg call = some b' ∧ b'.Holds cfg (f.step cfg.entrySize cfg.logSize call) := by
  unfold Fifo.step
  split
  · rename_i hfull
    exact h.step_full hfull
  · rename_i hroom
    exact h.step_room (Nat.le_of_not_lt hroom)

theorem Holds.run (h : b.Holds cfg f) (calls : List (BitVec 64 × BitVec 64)) :
    ∃ b', StepRun.run (Buffer.step cfg) b calls = some b' ∧
      b'.Holds cfg (calls.foldl (Fifo.step cfg.entrySize cfg.logSize) f) := by
  induction calls generalizing b f with
  | nil => exact ⟨b, rfl, h⟩
  | cons call calls ih =>
    obtain ⟨b₁, hstep, h₁⟩ := h.step call
    obtain ⟨b', hrun, h'⟩ := ih h₁
    exact ⟨b', (run_cons hstep).trans hrun, h'⟩

theorem Holds.regions (h : b.Holds cfg f) : (∀ p ∈ b.undrained, p + cfg.entrySize ≤ cfg.logSize) ∧
    b.undrained.Pairwise fun p q => p + cfg.entrySize ≤ q := by
  rw [h.undrained]
  constructor
  · intro p hp
    obtain ⟨i, hi, rfl⟩ := List.mem_map.mp hp
    calc i * cfg.entrySize + cfg.entrySize = (i + 1) * cfg.entrySize := (Nat.succ_mul _ _).symm
      _ ≤ f.queue.length * cfg.entrySize := Nat.mul_le_mul_right _ (List.mem_range.mp hi)
      _ ≤ cfg.logSize := h.tail ▸ h.tail_le
  · refine List.pairwise_map.mpr (List.pairwise_lt_range.imp fun {i j} hij => ?_)
    calc i * cfg.entrySize + cfg.entrySize = (i + 1) * cfg.entrySize := (Nat.succ_mul _ _).symm
      _ ≤ j * cfg.entrySize := Nat.mul_le_mul_right _ hij

/-- The log is a queue. No put overflows and every drain ends, the drains yield the entries
put since the one before in their order, the head never passes the tail, and the entries
that are not drained yet lie in the buffer, one behind the other. Their bytes are those of
an `op_entry_t` if `KV_SIZE` is an `unsigned int`. -/
theorem run_fifo (cfg : BufferConfig) (buffer : Memory) (calls : List (BitVec 64 × BitVec 64)) :
    ∃ b, StepRun.run (Buffer.step cfg) (new buffer) calls = some b ∧
      b.drains.map (List.map Round.slot) = (Fifo.run cfg.entrySize cfg.logSize calls).drains ∧
      b.undrained.length = (Fifo.run cfg.entrySize cfg.logSize calls).queue.length ∧
      (∀ p ∈ b.undrained, p + cfg.entrySize ≤ cfg.logSize) ∧
      b.undrained.Pairwise (fun p q => p + cfg.entrySize ≤ q) ∧
      b.log.headCnt ≤ b.log.tailCnt ∧ (∀ d ∈ b.drains, ∀ r ∈ d, r.headCnt ≤ r.tailCnt) ∧
      (cfg.kvSize < 2 ^ 32 → cfg.entrySize = cfg.kvSize) := by
  obtain ⟨b, hrun, h⟩ := (holds_new cfg buffer).run calls
  refine ⟨b, hrun, h.drains, ?_, h.regions.1, h.regions.2, h.head ▸ Nat.zero_le _, h.counters, cfg.entrySize_eq⟩
  rw [h.undrained, List.length_map, List.length_range]
  rfl

end Buffer

end Hkv.Pwb
