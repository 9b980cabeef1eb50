import Mathlib.Data.Nat.Basic
import Mathlib.Tactic.NormNum

/-!
# Compile-time parameters of the PRISM store

The macros of `mts-config.h` that the modelled code reads. Results are proved for
every layout; `mtsConfig` is the layout the repository builds with.
-/
namespace Hkv.MtsConfig

/-- The chunk geometry of one value storage. -/
structure Config where
  /-- `MTS_VS_ENTRIES_PER_CHUNK` -/
  entriesPerChunk : ℕ
  /-- `MTS_VS_CHUNK_NUM` -/
  chunkNum : ℕ
  entries_pos : 0 < entriesPerChunk

namespace Config

/-- `MTS_VS_HIGH_MARK`, a number of chunks. -/
def highMark (cfg : Config) : ℕ := cfg.chunkNum * 75 / 100

/-- `MTS_VS_LOW_MARK`, a number of chunks. -/
def lowMark (cfg : Config) : ℕ := cfg.chunkNum * 65 / 100

/-- The `vs_offset` of slot `entry` of chunk `chunk`. -/
def slotOffset (cfg : Config) (chunk entry : ℕ) : ℕ := chunk * cfg.entriesPerChunk + entry

theorem slotOffset_div (cfg : Config) (chunk : ℕ) {entry : ℕ} (h : entry < cfg.entriesPerChunk) :
    cfg.slotOffset chunk entry / cfg.entriesPerChunk = chunk := by
  unfold slotOffset
  rw [Nat.mul_comm, Nat.mul_add_div cfg.entries_pos, Nat.div_eq_of_lt h, Nat.add_zero]

theorem slotOffset_mod (cfg : Config) (chunk : ℕ) {entry : ℕ} (h : entry < cfg.entriesPerChunk) :
    cfg.slotOffset chunk entry % cfg.entriesPerChunk = entry := by
  unfold slotOffset
  rw [Nat.mul_comm, Nat.mul_add_mod, Nat.mod_eq_of_lt h]

theorem slotOffset_inj (cfg : Config) {c c' e e' : ℕ} (he : e < cfg.entriesPerChunk)
    (he' : e' < cfg.entriesPerChunk) (h : cfg.slotOffset c e = cfg.slotOffset c' e') :
    c = c' ∧ e = e' := by
  constructor
  · rw [← cfg.slotOffset_div c he, h, cfg.slotOffset_div c' he']
  · rw [← cfg.slotOffset_mod c he, h, cfg.slotOffset_mod c' he']

end Config

/-- `KV_SIZE`, which is also `sizeof(vs_entry_t)`. -/
def kvSize : ℕ := 1024

/-- `MTS_VS_CHUNK_SIZE` in bytes. -/
def vsChunkSize : ℕ := 128 * 1024

/-- `MTS_VS_SIZE` in bytes. -/
def vsSize : ℕ := 128 * 1024 * 1024 * 1024

/-- The layout of `mts-config.h`: 128 entries in each of 1048576 chunks. -/
def mtsConfig : Config where
  entriesPerChunk := vsChunkSize / kvSize
  chunkNum := vsSize / vsChunkSize
  entries_pos := by decide

/-- `MTS_THREAD_NUM`, the number of writer slots of a value storage. -/
def threadNum : ℕ := 8

/-- `R_QD`, the number of slots of a ring for reads. -/
def rQd : ℕ := 64

theorem oplogNum_neZero : NeZero 2 := ⟨by decide⟩

/-! ## Markers of `vs_idx.vs_offset` and tags of `val_addr` -/

def preValuestorageVal : ℤ := -2
def newlyUpdatedVal : ℤ := -1
def cleanEntry : ℕ := 0
def dcacheVal : ℕ := 1
def oplogVal : ℕ := 2
def valuestorageVal : ℕ := 3

end Hkv.MtsConfig
