import Hkv.GarbageCollection

/-!
# The entries of an open chunk

The list of moved entries of a writer slot follows its buffer, and so does the list of
the collector. Both hold whatever happens to the `at_entry`s meanwhile. What a write
puts on the device then agrees with what the sorted list links.
-/
namespace Hkv.ValueStorage
open MtsConfig TaggedPointer AddressTable KeyedSort

variable {A : Type}

/-- The entries put since the chunk was opened. -/
def batch (chunk : WChunk A) : List (VsEntry A) := (List.range chunk.entryOffset).map chunk.wBuffer

/-- The records of the chunk are those of its entries. -/
structure Filled (keyOf : A → ℕ) (cfg : Config) (chunk : WChunk A) : Prop where
  le : chunk.entryOffset ≤ cfg.entriesPerChunk
  moved : chunk.movedEntryList = movedOf chunk.chunkOffset (batch chunk)
  entries : ∀ e ∈ batch chunk, ∃ a, e.atEntry = some a ∧ e.key = keyOf a

/-- Leftovers that the scan still picks up have larger keys than the batch. -/
def Clean (cfg : Config) (chunk : WChunk A) : Prop :=
  ∀ e ∈ batch chunk, ∀ x ∈ (scanBuffer cfg chunk.wBuffer).drop chunk.entryOffset, e.key < x.key

variable {keyOf : A → ℕ} {cfg : Config} {S : StdSort} {chunk : WChunk A}

@[simp] theorem length_batch (chunk : WChunk A) : (batch chunk).length = chunk.entryOffset := by
  simp [batch]

namespace Filled

theorem of_idle (ho : chunk.entryOffset = 0) (hm : chunk.movedEntryList = []) : Filled keyOf cfg chunk := by
  have hb : batch chunk = [] := by simp [batch, ho]
  exact ⟨ho ▸ Nat.zero_le _, by rw [hm, hb]; rfl, by simp [hb]⟩

theorem batch_concat {chunk' : WChunk A} {e : VsEntry A}
    (hb : chunk'.wBuffer = Function.update chunk.wBuffer chunk.entryOffset e)
    (ho : chunk'.entryOffset = chunk.entryOffset + 1) : batch chunk' = batch chunk ++ [e] := by
  simp only [batch, ho, hb, List.range_succ, List.map_append, List.map_cons, List.map_nil, Function.update_self]
  congr 1
  refine List.map_congr_left fun i hi => Function.update_of_ne ?_ _ _
  exact (List.mem_range.mp hi).ne

theorem concat (h : Filled keyOf cfg chunk) (hlt : chunk.entryOffset < cfg.entriesPerChunk) (val : ℕ) (a : A) :
    Filled keyOf cfg { chunk with
      wBuffer := Function.update chunk.wBuffer chunk.entryOffset ⟨some a, keyOf a, val⟩
      movedEntryList := addMovedEntry chunk.movedEntryList chunk.chunkOffset chunk.entryOffset
        ⟨some a, keyOf a, val⟩ .insert
      entryOffset := chunk.entryOffset + 1 } := by
  refine ⟨hlt, ?_, fun e he => ?_⟩
  · rw [batch_concat rfl rfl, movedOf_concat, length_batch, ← h.moved]
  · rw [batch_concat rfl rfl] at he
    rcases List.mem_append.mp he with he | he
    · exact h.entries e he
    · rw [List.mem_singleton.mp he]
      exact ⟨a, rfl, rfl⟩

theorem moveTo (h : Filled keyOf cfg chunk) (i : Bool) {c : ℕ}
    (hc : chunk.entryOffset ≠ 0 → c = chunk.chunkOffset) :
    Filled keyOf cfg { chunk with isInit := i, chunkOffset := c } := by
  have hb : batch { chunk with isInit := i, chunkOffset := c } = batch chunk := rfl
  refine ⟨h.le, ?_, h.entries⟩
  rw [hb, h.moved]
  by_cases hz : chunk.entryOffset = 0
  · have hnil : batch chunk = [] := by simp [batch, hz]
    rw [hnil]
    rfl
  · rw [hc hz]

theorem written (h : Filled keyOf cfg chunk) (hn : ((batch chunk).map VsEntry.key).Nodup) (hc : Clean cfg chunk)
    {m : MovedEntry A} (hm : m ∈ sortMovedEntry S chunk.movedEntryList) :
    m.chunkOffset = chunk.chunkOffset ∧ m.entryOffset < cfg.entriesPerChunk ∧
      ∃ e ∈ batch chunk, m.atEntry = e.atEntry ∧ (sortWBuffer cfg S chunk).wBuffer m.entryOffset = e := by
  rw [h.moved] at hm
  obtain ⟨e, he, hat, hchunk⟩ := mem_sortMovedEntry S hn hm
  have hsome : ∀ e ∈ batch chunk, e.atEntry.isSome = true := fun e he => by
    obtain ⟨a, ha, -⟩ := h.entries e he
    simp [ha]
  have hbuf : ∀ i e, (batch chunk)[i]? = some e → chunk.wBuffer i = e := fun i e hi => by
    obtain ⟨hlt, heq⟩ := List.getElem?_eq_some_iff.mp hi
    simpa [batch] using heq
  have hscan := scanBuffer_of_front cfg (length_batch chunk ▸ h.le) hbuf hsome
  have hrest : (((List.range cfg.entriesPerChunk).map chunk.wBuffer).drop (batch chunk).length).takeWhile
      (fun e => e.atEntry.isSome) = (scanBuffer cfg chunk.wBuffer).drop chunk.entryOffset := by
    rw [hscan, ← length_batch chunk, List.drop_left]
  rw [hrest] at hscan
  have hlt : m.entryOffset < chunk.entryOffset := by
    have := (List.getElem?_eq_some_iff.mp he).1
    simpa [sortedEntries] using this
  exact ⟨hchunk, hlt.trans_le h.le, e, (S.mem_sort _ _).mp (List.mem_of_getElem? he), hat,
    sortWBuffer_entries cfg S hscan hn hc he⟩

end Filled

/-! ## The chunk of the collector -/

/-- The collector's chunk holds the copies `ps`, over a buffer of zeros. -/
structure Gathered (cfg : Config) (chunk : WChunk A) (ps : List (Copy A)) : Prop where
  le : ps.length ≤ cfg.entriesPerChunk
  buffer : chunk.wBuffer = fillBuffer (ps.map Copy.entry)
  moved : chunk.movedEntryList = copiesMoved chunk.chunkOffset 0 ps
  isSome : ∀ p ∈ ps, p.entry.atEntry.isSome = true
  keys : ((ps.map Copy.entry).map VsEntry.key).Nodup

theorem mem_relinks {t k : ℕ} {ps : List (Copy A)} {es : List (VsEntry A)} {m : MovedEntry A}
    (hm : m ∈ relinks t k ps es) (hop : m.opType = .insert) :
    m.chunkOffset = t ∧ ∃ i e, es[i]? = some e ∧ m.entryOffset = k + i ∧ m.atEntry = e.atEntry := by
  induction ps generalizing k es with
  | nil => simp [relinks] at hm
  | cons p ps ih =>
    cases es with
    | nil => simp [relinks] at hm
    | cons e es =>
      simp only [relinks, List.mem_cons] at hm
      rcases hm with rfl | rfl | hm
      · exact ⟨rfl, 0, e, rfl, rfl, rfl⟩
      · cases hop
      · obtain ⟨ht, i, e', hi, hk, ha⟩ := ih hm
        exact ⟨ht, i + 1, e', by simpa using hi, by omega, ha⟩

theorem exists_mem_copiesMoved {t : ℕ} {ps : List (Copy A)} {p : Copy A} (hp : p ∈ ps) (k : ℕ) :
    ∃ m ∈ copiesMoved t k ps, m.key = p.entry.key ∧ m.atEntry = p.entry.atEntry := by
  induction ps generalizing k with
  | nil => cases hp
  | cons q ps ih =>
    rcases List.mem_cons.mp hp with rfl | hp
    · exact ⟨_, List.mem_cons_self, rfl, rfl⟩
    · obtain ⟨m, hm, hk⟩ := ih hp (k + 1)
      exact ⟨m, List.mem_cons_of_mem _ (List.mem_cons_of_mem _ hm), hk⟩

namespace Gathered

theorem nil (hb : chunk.wBuffer = fun _ => zeroEntry) (hm : chunk.movedEntryList = []) :
    Gathered cfg chunk [] :=
  ⟨Nat.zero_le _, hb, hm, by simp, by simp⟩

theorem eq_nil {ps : List (Copy A)} (h : Gathered cfg chunk ps) (hm : chunk.movedEntryList = []) : ps = [] := by
  cases ps with
  | nil => rfl
  | cons p ps =>
    rw [h.moved] at hm
    simp [copiesMoved] at hm

theorem concat {ps : List (Copy A)} {p : Copy A} (h : Gathered cfg chunk ps) (hlt : ps.length < cfg.entriesPerChunk)
    (hsome : p.entry.atEntry.isSome = true) (hkey : ∀ m ∈ chunk.movedEntryList, m.key ≠ p.entry.key) :
    Gathered cfg { chunk with
      wBuffer := Function.update chunk.wBuffer ps.length p.entry
      movedEntryList := addMovedEntry (addMovedEntry chunk.movedEntryList chunk.chunkOffset ps.length p.entry .insert)
        p.chunk p.slot p.entry .remove } (ps ++ [p]) := by
  have hnew : p.entry.key ∉ (ps.map Copy.entry).map VsEntry.key := by
    intro hmem
    rw [List.map_map, List.mem_map] at hmem
    obtain ⟨q, hq, hqk⟩ := hmem
    obtain ⟨m, hm, hmk, -⟩ := exists_mem_copiesMoved hq 0
    exact hkey m (h.moved ▸ hm) (hmk.trans hqk)
  refine ⟨?_, ?_, ?_, ?_, ?_⟩
  · rw [List.length_append]
    exact hlt
  · simp only [List.map_append, List.map_cons, List.map_nil, fillBuffer_concat, List.length_map, h.buffer]
  · rw [copiesMoved_concat, Nat.zero_add, h.moved]
  · intro q hq
    rcases List.mem_append.mp hq with hq | hq
    · exact h.isSome q hq
    · rw [List.mem_singleton.mp hq]
      exact hsome
  · simp only [List.map_append, List.map_cons, List.map_nil]
    exact List.nodup_append.mpr ⟨h.keys, by simp, fun x hx y hy hxy =>
      hnew (by rw [← List.mem_singleton.mp hy, ← hxy]; exact hx)⟩

theorem written {ps : List (Copy A)} (h : Gathered cfg chunk ps) {m : MovedEntry A}
    (hm : m ∈ sortMovedEntry S chunk.movedEntryList) (hop : m.opType = .insert) :
    m.chunkOffset = chunk.chunkOffset ∧ m.entryOffset < cfg.entriesPerChunk ∧
      ∃ p ∈ ps, m.atEntry = p.entry.atEntry ∧ (sortWBuffer cfg S chunk).wBuffer m.entryOffset = p.entry := by
  rw [h.moved, sortMovedEntry_copiesMoved S _ h.keys] at hm
  obtain ⟨ht, i, e, hi, hk, ha⟩ := mem_relinks hm hop
  rw [Nat.zero_add] at hk
  have hsome : ∀ e ∈ ps.map Copy.entry, e.atEntry.isSome = true := fun e he => by
    obtain ⟨p, hp, rfl⟩ := List.mem_map.mp he
    exact h.isSome p hp
  have hscan : scanBuffer cfg chunk.wBuffer = ps.map Copy.entry := by
    rw [h.buffer]
    exact scanBuffer_fillBuffer cfg (by simpa using h.le) hsome
  have hlt : i < ps.length := by
    have := (List.getElem?_eq_some_iff.mp hi).1
    simpa [sortedEntries] using this
  obtain ⟨p, hp, hpe⟩ := List.mem_map.mp ((S.mem_sort _ _).mp (List.mem_of_getElem? hi))
  refine ⟨ht, hk ▸ hlt.trans_le h.le, p, hp, hpe ▸ ha, ?_⟩
  rw [sortWBuffer_exact cfg S hscan h.keys, fillBuffer, List.getD_eq_getElem?_getD, hk, hi, hpe]
  rfl

end Gathered

end Hkv.ValueStorage
