import Hkv.ValueStorage
import Mathlib.Data.List.TakeWhile

/-!
# What one flush of a write chunk leaves behind

`write_chunk` sorts the raw buffer and `sync_with_at` sorts the list of moved
entries. The two agree on the entries put since the last flush as long as the scan
of the buffer picks up nothing that sorts among them.
-/
namespace Hkv.ValueStorage
open MtsConfig TaggedPointer AddressTable KeyedSort

variable {A : Type} (cfg : Config) (S : StdSort)

/-! ## Frames -/

@[simp] theorem setWChunk_self (s : Store A) (w : ℕ) (c : WChunk A) : (setWChunk s w c).wChunk w = c := by
  simp [setWChunk]

@[simp] theorem setWChunk_table (s : Store A) (w : ℕ) (c : WChunk A) : (setWChunk s w c).table = s.table := rfl
@[simp] theorem setWChunk_disk (s : Store A) (w : ℕ) (c : WChunk A) : (setWChunk s w c).disk = s.disk := rfl
@[simp] theorem setWChunk_vsId (s : Store A) (w : ℕ) (c : WChunk A) : (setWChunk s w c).vsId = s.vsId := rfl

@[simp] theorem writeChunk_table (s : Store A) (w : ℕ) : (writeChunk cfg S s w).table = s.table := rfl
@[simp] theorem writeChunk_vsId (s : Store A) (w : ℕ) : (writeChunk cfg S s w).vsId = s.vsId := rfl

theorem writeChunk_disk (s : Store A) (w : ℕ) :
    (writeChunk cfg S s w).disk (s.wChunk w).chunkOffset = (sortWBuffer cfg S (s.wChunk w)).wBuffer := by
  simp [writeChunk, sortWBuffer]

@[simp] theorem writeChunk_moved (s : Store A) (w : ℕ) :
    ((writeChunk cfg S s w).wChunk w).movedEntryList = (s.wChunk w).movedEntryList := by
  simp [writeChunk, sortWBuffer]

/-! ## The two sorts -/

/-- The entries of a batch in the order of their keys. -/
def sortedEntries (es : List (VsEntry A)) : List (VsEntry A) := S.sort (byKey VsEntry.key) es

/-- The list `put_vs_entry` builds while it fills chunk `c` with `es`. -/
def movedOf (c : ℕ) (es : List (VsEntry A)) : List (MovedEntry A) :=
  es.mapIdx (fun i e => ⟨e.key, e.atEntry, c, i, .insert⟩)

theorem movedOf_atEntry (c : ℕ) (es : List (VsEntry A)) :
    (movedOf c es).map MovedEntry.atEntry = es.map VsEntry.atEntry := by
  refine List.ext_getElem? fun i => ?_
  simp [movedOf, Function.comp_def]

theorem movedOf_concat (c : ℕ) (es : List (VsEntry A)) (e : VsEntry A) :
    movedOf c (es ++ [e]) = addMovedEntry (movedOf c es) c es.length e .insert := by
  simp [movedOf, addMovedEntry, List.mapIdx_append]

theorem sortWBuffer_entries {chunk : WChunk A} {es rest : List (VsEntry A)}
    (hscan : scanBuffer cfg chunk.wBuffer = es ++ rest) (hn : (es.map VsEntry.key).Nodup)
    (hrest : ∀ e ∈ es, ∀ x ∈ rest, e.key < x.key) {i : ℕ} {e : VsEntry A}
    (hi : (sortedEntries S es)[i]? = some e) : (sortWBuffer cfg S chunk).wBuffer i = e := by
  let pair : VsEntry A → ℕ × VsEntry A := fun e => (e.key, e)
  have hn' : ((es.map pair).map Prod.fst).Nodup := by simpa [pair, Function.comp_def] using hn
  obtain ⟨tail, htail⟩ := S.sort_append Prod.fst (m := rest.map pair) hn' (by
    intro x hx y hy
    obtain ⟨e, he, rfl⟩ := List.mem_map.mp hx
    obtain ⟨r, hr, rfl⟩ := List.mem_map.mp hy
    exact hrest e he r hr)
  have hsort : S.sort (byKey Prod.fst) (es.map pair) = (sortedEntries S es).map pair :=
    S.sort_map VsEntry.key Prod.fst pair (fun _ _ => rfl) hn
  have hbuf : (sortWBuffer cfg S chunk).wBuffer =
      fillBuffer (sortedEntries S es ++ tail.map Prod.snd) := by
    simp only [sortWBuffer, hscan, List.map_append]
    rw [htail, hsort]
    simp [pair, Function.comp_def]
  have hlt : i < (sortedEntries S es).length := (List.getElem?_eq_some_iff.mp hi).1
  rw [hbuf, fillBuffer, List.getD_eq_getElem?_getD, List.getElem?_append_left hlt, hi]
  rfl

theorem sortMovedEntry_getElem? {c : ℕ} {es : List (VsEntry A)} (hn : (es.map VsEntry.key).Nodup)
    (i : ℕ) : (sortMovedEntry S (movedOf c es))[i]? =
      (es[i]?.bind fun x => (sortedEntries S es)[i]?.map fun e => ⟨x.key, e.atEntry, c, i, .insert⟩) := by
  have hpairs : (movedOf c es).map (fun m => (m.key, m.atEntry)) =
      es.map (fun e => (e.key, e.atEntry)) := by
    apply List.ext_getElem?
    intro j
    simp [movedOf, Function.comp_def]
  have hsort : S.sort (byKey Prod.fst) (es.map fun e => (e.key, e.atEntry)) =
      (sortedEntries S es).map fun e => (e.key, e.atEntry) :=
    S.sort_map VsEntry.key Prod.fst _ (fun _ _ => rfl) hn
  rw [sortMovedEntry, hpairs, hsort, List.getElem?_zipWith]
  simp only [movedOf, List.getElem?_mapIdx, List.getElem?_map]
  cases es[i]? <;> cases (sortedEntries S es)[i]? <;> rfl

theorem mem_sortMovedEntry {c : ℕ} {es : List (VsEntry A)} (hn : (es.map VsEntry.key).Nodup)
    {m : MovedEntry A} : m ∈ sortMovedEntry S (movedOf c es) → ∃ e,
      (sortedEntries S es)[m.entryOffset]? = some e ∧ m.atEntry = e.atEntry ∧ m.chunkOffset = c := by
  intro hm
  obtain ⟨i, hi⟩ := List.mem_iff_getElem?.mp hm
  rw [sortMovedEntry_getElem? S hn] at hi
  simp only [Option.bind_eq_some_iff, Option.map_eq_some_iff] at hi
  obtain ⟨x, -, e, he, rfl⟩ := hi
  exact ⟨e, he, rfl, rfl⟩

theorem exists_mem_sortMovedEntry {c : ℕ} {es : List (VsEntry A)} (hn : (es.map VsEntry.key).Nodup)
    {e : VsEntry A} (he : e ∈ es) : ∃ m ∈ sortMovedEntry S (movedOf c es), m.atEntry = e.atEntry := by
  obtain ⟨i, hi⟩ := List.mem_iff_getElem?.mp ((S.mem_sort (byKey VsEntry.key) es).mpr he)
  have hlt : i < es.length := by
    have := (List.getElem?_eq_some_iff.mp hi).1
    simpa using this
  refine ⟨⟨es[i].key, e.atEntry, c, i, .insert⟩, List.mem_iff_getElem?.mpr ⟨i, ?_⟩, rfl⟩
  rw [sortMovedEntry_getElem? S hn, List.getElem?_eq_getElem hlt]
  simp [sortedEntries, hi]

theorem perm_sortMovedEntry (ms : List (MovedEntry A)) :
    ((sortMovedEntry S ms).map MovedEntry.atEntry).Perm (ms.map MovedEntry.atEntry) := by
  have hsnd : (sortMovedEntry S ms).map MovedEntry.atEntry =
      (S.sort (byKey Prod.fst) (ms.map fun m => (m.key, m.atEntry))).map Prod.snd := by
    rw [sortMovedEntry, List.map_zipWith]
    exact List.ext_getElem (by simp) (by simp)
  have hperm := (S.perm (byKey Prod.fst) (ms.map fun m => (m.key, m.atEntry))).map Prod.snd
  rw [hsnd]
  simpa [Function.comp_def] using hperm

/-! ## Linking a list of moved entries -/

variable [DecidableEq A]

/-- No record of the list is skipped: each names an entry that was not updated. -/
def Linkable (s : Store A) (ms : List (MovedEntry A)) : Prop :=
  ∀ m ∈ ms, ∃ a, m.atEntry = some a ∧ (s.table a).vsIdx.vsOffset ≠ newlyUpdatedVal

private theorem linkToAt_linkable {s : Store A} {a : A} (chunk entry : ℕ)
    (h : (s.table a).vsIdx.vsOffset ≠ newlyUpdatedVal) :
    linkToAt cfg s chunk entry (some a) = some (setVsBitmapInfo { s with
      table := Function.update s.table a
        { s.table a with vsIdx := ⟨s.vsId, cfg.slotOffset chunk entry⟩ } } chunk entry) := by
  simp [linkToAt, linkAtEntry, h]

structure Linked (s s' : Store A) (ms : List (MovedEntry A)) : Prop where
  disk : s'.disk = s.disk
  wChunk : s'.wChunk = s.wChunk
  vsId : s'.vsId = s.vsId
  other : ∀ a, (∀ m ∈ ms, m.atEntry ≠ some a) → s'.table a = s.table a
  link : ∀ a, (∃ m ∈ ms, m.atEntry = some a) → ∃ m ∈ ms, m.atEntry = some a ∧
    (s'.table a).vsIdx = ⟨s.vsId, cfg.slotOffset m.chunkOffset m.entryOffset⟩

theorem linkAll_linkable {s : Store A} {ms : List (MovedEntry A)} (h : Linkable s ms) :
    ∃ s', linkAll cfg s ms = some s' ∧ Linked cfg s s' ms := by
  induction ms generalizing s with
  | nil => exact ⟨s, rfl, ⟨rfl, rfl, rfl, fun _ _ => rfl, by simp⟩⟩
  | cons m ms ih =>
    obtain ⟨a, hma, hoff⟩ := h m List.mem_cons_self
    have hstep := linkToAt_linkable cfg m.chunkOffset m.entryOffset hoff
    set s₁ := setVsBitmapInfo { s with
      table := Function.update s.table a
        { s.table a with vsIdx := ⟨s.vsId, cfg.slotOffset m.chunkOffset m.entryOffset⟩ } }
      m.chunkOffset m.entryOffset with hs₁
    have ht : s₁.table = Function.update s.table a
        { s.table a with vsIdx := ⟨s.vsId, cfg.slotOffset m.chunkOffset m.entryOffset⟩ } := rfl
    have h₁ : Linkable s₁ ms := by
      intro m' hm'
      obtain ⟨b, hb, hboff⟩ := h m' (List.mem_cons_of_mem _ hm')
      refine ⟨b, hb, ?_⟩
      rw [ht]
      by_cases hab : b = a
      · subst hab
        simp [newlyUpdatedVal]
      · simpa [hab] using hboff
    obtain ⟨s', hrun, hl⟩ := ih h₁
    refine ⟨s', ?_, hl.disk, hl.wChunk, hl.vsId, ?_, ?_⟩
    · simp only [linkAll, hma, hstep]
      exact hrun
    · intro b hb
      rw [hl.other b (fun m' hm' => hb m' (List.mem_cons_of_mem _ hm')), ht]
      have hab : b ≠ a := fun hab => hb m List.mem_cons_self (hab ▸ hma)
      simp [hab]
    · intro b hb
      by_cases hlater : ∃ m' ∈ ms, m'.atEntry = some b
      · obtain ⟨m', hm', hm'b, hidx⟩ := hl.link b hlater
        exact ⟨m', List.mem_cons_of_mem _ hm', hm'b, hidx⟩
      · -- the head record is the last one for `b`
        have hbm : m.atEntry = some b := by
          obtain ⟨m', hm', hm'b⟩ := hb
          rcases List.mem_cons.mp hm' with rfl | hm'
          · exact hm'b
          · exact absurd ⟨m', hm', hm'b⟩ hlater
        have hab : a = b := Option.some.inj (hma.symm.trans hbm)
        refine ⟨m, List.mem_cons_self, hbm, ?_⟩
        rw [hl.other b (fun m' hm' hm'b => hlater ⟨m', hm', hm'b⟩), ht, hab]
        simp

omit [DecidableEq A] in
theorem scanBuffer_of_front {buf : ℕ → VsEntry A} {es : List (VsEntry A)}
    (hle : es.length ≤ cfg.entriesPerChunk) (hbuf : ∀ i e, es[i]? = some e → buf i = e)
    (hsome : ∀ e ∈ es, e.atEntry.isSome = true) :
    scanBuffer cfg buf = es ++ (((List.range cfg.entriesPerChunk).map buf).drop es.length).takeWhile
      (fun e => e.atEntry.isSome) := by
  have hsplit : (List.range cfg.entriesPerChunk).map buf =
      es ++ ((List.range cfg.entriesPerChunk).map buf).drop es.length := by
    apply List.ext_getElem?
    intro i
    by_cases hi : i < es.length
    · have hi' : i < cfg.entriesPerChunk := Nat.lt_of_lt_of_le hi hle
      have hb := hbuf i es[i] (List.getElem?_eq_getElem hi)
      rw [List.getElem?_append_left hi, List.getElem?_eq_getElem hi]
      simp [List.getElem?_range hi', hb]
    · rw [List.getElem?_append_right (by omega), List.getElem?_drop]
      congr 1
      omega
  rw [scanBuffer, hsplit, List.takeWhile_append_of_pos hsome, ← hsplit]

omit [DecidableEq A] in
theorem sortWBuffer_exact {chunk : WChunk A} {es : List (VsEntry A)}
    (hscan : scanBuffer cfg chunk.wBuffer = es) (hn : (es.map VsEntry.key).Nodup) :
    (sortWBuffer cfg S chunk).wBuffer = fillBuffer (sortedEntries S es) := by
  have hsort := S.sort_map VsEntry.key Prod.fst (fun e : VsEntry A => (e.key, e)) (fun _ _ => rfl) hn
  simp only [sortWBuffer, hscan, hsort, sortedEntries]
  simp [Function.comp_def]

omit [DecidableEq A] in
theorem fillBuffer_concat (es : List (VsEntry A)) (e : VsEntry A) :
    fillBuffer (es ++ [e]) = Function.update (fillBuffer es) es.length e := by
  funext k
  by_cases hk : k = es.length
  · subst hk
    simp [fillBuffer]
  · rw [Function.update_of_ne hk]
    simp only [fillBuffer, List.getD_eq_getElem?_getD]
    rcases Nat.lt_or_gt_of_ne hk with hlt | hgt
    · rw [List.getElem?_append_left hlt]
    · rw [List.getElem?_eq_none (by simp; omega), List.getElem?_eq_none (by omega)]

omit [DecidableEq A] in
theorem scanBuffer_fillBuffer {es : List (VsEntry A)} (hle : es.length ≤ cfg.entriesPerChunk)
    (hsome : ∀ e ∈ es, e.atEntry.isSome = true) : scanBuffer cfg (fillBuffer es) = es := by
  have hfront : ∀ i e, es[i]? = some e → fillBuffer es i = e := fun i e hi => by
    rw [fillBuffer, List.getD_eq_getElem?_getD, hi]
    rfl
  have hrest : (((List.range cfg.entriesPerChunk).map (fillBuffer es)).drop es.length).takeWhile
      (fun e => e.atEntry.isSome) = [] := by
    rw [List.takeWhile_eq_nil_iff]
    intro hpos
    simp [fillBuffer, zeroEntry]
  rw [scanBuffer_of_front cfg hle hfront hsome, hrest, List.append_nil]

/-! ## What a flush leaves alone -/

/-- The links of a flush keep the free list and every bit outside the chunks listed. -/
structure BitFrame (s s' : Store A) (ms : List (MovedEntry A)) : Prop where
  free : s'.freeChunkList = s.freeChunkList
  bitmap : ∀ c, (∀ m ∈ ms, m.chunkOffset ≠ c) → s'.bitmap c = s.bitmap c

theorem linkToAt_bitFrame (cfg : Config) {s s' : Store A} {m : MovedEntry A}
    (h : linkToAt cfg s m.chunkOffset m.entryOffset m.atEntry = some s') : BitFrame s s' [m] := by
  cases ha : m.atEntry with
  | none => simp [linkToAt, ha] at h
  | some a =>
    rw [ha, linkToAt] at h
    split at h <;> cases h
    · exact ⟨rfl, fun _ _ => rfl⟩
    · refine ⟨rfl, fun c hc => ?_⟩
      have hne : c ≠ m.chunkOffset := (hc m (by simp)).symm
      simp [setVsBitmapInfo, hne]

theorem linkAll_bitFrame (cfg : Config) {s s' : Store A} {ms : List (MovedEntry A)}
    (h : linkAll cfg s ms = some s') : BitFrame s s' ms := by
  induction ms generalizing s with
  | nil =>
    cases h
    exact ⟨rfl, fun _ _ => rfl⟩
  | cons m ms ih =>
    simp only [linkAll, Option.bind_eq_bind, Option.bind_eq_some_iff] at h
    obtain ⟨s₁, hm, hrest⟩ := h
    have h₁ := linkToAt_bitFrame cfg hm
    have h₂ := ih hrest
    refine ⟨h₂.free.trans h₁.free, fun c hc => ?_⟩
    exact (h₂.bitmap c fun x hx => hc x (by simp [hx])).trans
      (h₁.bitmap c fun x hx => hc x (by simp_all))

omit [DecidableEq A] in
theorem mem_of_mem_sortMovedEntry {S : StdSort} {ms : List (MovedEntry A)} {m : MovedEntry A}
    (hm : m ∈ sortMovedEntry S ms) :
    ∃ m' ∈ ms, m'.chunkOffset = m.chunkOffset ∧ m'.entryOffset = m.entryOffset ∧ m'.opType = m.opType := by
  obtain ⟨i, hi, rfl⟩ := List.mem_iff_getElem.mp hm
  have hlt : i < ms.length := by
    simp [sortMovedEntry] at hi
    omega
  exact ⟨ms[i], List.getElem_mem hlt, by simp [sortMovedEntry], by simp [sortMovedEntry],
    by simp [sortMovedEntry]⟩

omit [DecidableEq A] in
theorem map_sortMovedEntry (S : StdSort) {β : Type} (ms : List (MovedEntry A)) (f : MovedEntry A → β)
    (hf : ∀ m o, f { m with atEntry := o } = f m) : (sortMovedEntry S ms).map f = ms.map f :=
  List.ext_getElem (by simp [sortMovedEntry]) fun i _ _ => by simp [sortMovedEntry, hf]

theorem flush_bitFrame (cfg : Config) (S : StdSort) {s s' : Store A} {w : ℕ}
    (h : flush cfg S s w = some s') : BitFrame s s' (s.wChunk w).movedEntryList := by
  simp only [flush, syncWithAt, Option.bind_eq_bind, Option.bind_eq_some_iff] at h
  obtain ⟨s₁, hl, hs'⟩ := h
  cases hs'
  have hf := linkAll_bitFrame cfg hl
  rw [writeChunk_moved] at hf
  refine ⟨hf.free, fun c hc => hf.bitmap c fun m hm => ?_⟩
  obtain ⟨m', hm', heq, -⟩ := mem_of_mem_sortMovedEntry hm
  exact heq ▸ hc m' hm'

end Hkv.ValueStorage
