import Hkv.ChunkSpace
import Mathlib.Data.Finset.Card
import Mathlib.Data.Finset.Range

/-!
# Garbage collection keeps every linked value

Valid entries of the victims are gathered in a chunk, written in key order and
relinked through a list of insert and remove records. The list is sorted only in its
`at_entry` field; since each entry has two adjacent records of one key, the sorted
field lines up with the sorted chunk.
-/
namespace Hkv.ValueStorage
open MtsConfig TaggedPointer AddressTable KeyedSort

variable {A : Type}

/-- A valid entry that was copied out of slot `(chunk, slot)` and is not written yet. -/
structure Copy (A : Type) where
  chunk : ℕ
  slot : ℕ
  entry : VsEntry A

/-- The records of the copies that stand in target chunk `t` from slot `k` on. -/
def copiesMoved (t : ℕ) : ℕ → List (Copy A) → List (MovedEntry A)
  | _, [] => []
  | k, p :: ps => ⟨p.entry.key, p.entry.atEntry, t, k, .insert⟩ ::
      ⟨p.entry.key, p.entry.atEntry, p.chunk, p.slot, .remove⟩ :: copiesMoved t (k + 1) ps

/-- The same records after `sort_moved_entry`, which hands out the entries `es`. -/
def relinks (t : ℕ) : ℕ → List (Copy A) → List (VsEntry A) → List (MovedEntry A)
  | k, p :: ps, e :: es => ⟨p.entry.key, e.atEntry, t, k, .insert⟩ ::
      ⟨p.entry.key, e.atEntry, p.chunk, p.slot, .remove⟩ :: relinks t (k + 1) ps es
  | _, _, _ => []

theorem copiesMoved_concat (t k : ℕ) (ps : List (Copy A)) (p : Copy A) :
    copiesMoved t k (ps ++ [p]) =
      addMovedEntry (addMovedEntry (copiesMoved t k ps) t (k + ps.length) p.entry .insert)
        p.chunk p.slot p.entry .remove := by
  induction ps generalizing k with
  | nil => simp [copiesMoved, addMovedEntry]
  | cons q ps ih =>
    have hlen : k + 1 + ps.length = k + (ps.length + 1) := by omega
    simp [copiesMoved, ih, addMovedEntry, hlen]

theorem remove_mem_copiesMoved {t : ℕ} {ps : List (Copy A)} {p : Copy A} (hp : p ∈ ps) (k : ℕ) :
    ⟨p.entry.key, p.entry.atEntry, p.chunk, p.slot, .remove⟩ ∈ copiesMoved t k ps := by
  induction ps generalizing k with
  | nil => cases hp
  | cons q ps ih =>
    rcases List.mem_cons.mp hp with rfl | hp
    · exact List.mem_cons_of_mem _ List.mem_cons_self
    · exact List.mem_cons_of_mem _ (List.mem_cons_of_mem _ (ih hp (k + 1)))

theorem mem_copiesMoved {t k : ℕ} {ps : List (Copy A)} {m : MovedEntry A} (hm : m ∈ copiesMoved t k ps) :
    ∃ p ∈ ps, m.atEntry = p.entry.atEntry ∧ (m.opType = .insert ∧ m.chunkOffset = t ∨
      m.opType = .remove ∧ p.chunk = m.chunkOffset ∧ p.slot = m.entryOffset) := by
  induction ps generalizing k with
  | nil => cases hm
  | cons p ps ih =>
    simp only [copiesMoved, List.mem_cons] at hm
    rcases hm with rfl | rfl | hm
    · exact ⟨p, List.mem_cons_self, rfl, .inl ⟨rfl, rfl⟩⟩
    · exact ⟨p, List.mem_cons_self, rfl, .inr ⟨rfl, rfl, rfl⟩⟩
    · obtain ⟨q, hq, hqm⟩ := ih hm
      exact ⟨q, List.mem_cons_of_mem _ hq, hqm⟩

theorem zipWith_copiesMoved (t k : ℕ) (ps : List (Copy A)) (es : List (VsEntry A)) :
    List.zipWith (fun (m : MovedEntry A) (x : ℕ × Option A) => { m with atEntry := x.2 })
      (copiesMoved t k ps) ((es.map fun e => (e.key, e.atEntry)).flatMap fun x => [x, x]) =
      relinks t k ps es := by
  induction ps generalizing k es with
  | nil => simp [copiesMoved, relinks]
  | cons p ps ih =>
    cases es with
    | nil => simp [relinks]
    | cons e es => simp [copiesMoved, relinks, ← ih]

theorem sortMovedEntry_copiesMoved (S : StdSort) (t : ℕ) {ps : List (Copy A)}
    (hn : ((ps.map Copy.entry).map VsEntry.key).Nodup) :
    sortMovedEntry S (copiesMoved t 0 ps) = relinks t 0 ps (sortedEntries S (ps.map Copy.entry)) := by
  let pair : VsEntry A → ℕ × Option A := fun e => (e.key, e.atEntry)
  have hpairs : ∀ k, (copiesMoved t k ps).map (fun m => (m.key, m.atEntry)) =
      ((ps.map Copy.entry).map pair).flatMap fun x => [x, x] := by
    intro k
    clear hn
    induction ps generalizing k with
    | nil => rfl
    | cons p ps ih => simpa [copiesMoved, pair] using ih (k + 1)
  have hn' : (((ps.map Copy.entry).map pair).map Prod.fst).Nodup := by
    simpa [pair, Function.comp_def] using hn
  have hsort : S.sort (byKey Prod.fst) ((ps.map Copy.entry).map pair) =
      (sortedEntries S (ps.map Copy.entry)).map pair :=
    S.sort_map VsEntry.key Prod.fst pair (fun _ _ => rfl) hn
  rw [sortMovedEntry, hpairs, S.sort_doubled Prod.fst hn', hsort]
  exact zipWith_copiesMoved t 0 ps _

/-- What relinking copies `ps` to the entries `es` from slot `k` of `t` on does. -/
structure RelinkRun (cfg : Config) (t k : ℕ) (ps : List (Copy A)) (es : List (VsEntry A))
    (s s' : Store A) : Prop where
  disk : s'.disk = s.disk
  vsId : s'.vsId = s.vsId
  gcWChunk : s'.gcWChunk = s.gcWChunk
  gcRBuffer : s'.gcRBuffer = s.gcRBuffer
  other : ∀ a, (∀ e ∈ es, e.atEntry ≠ some a) → s'.table a = s.table a
  link : ∀ i e a, es[i]? = some e → e.atEntry = some a →
    (s'.table a).vsIdx = ⟨s.vsId, cfg.slotOffset t (k + i)⟩
  target : ∀ e, s'.bitmap t e = (s.bitmap t e || decide (k ≤ e ∧ e < k + es.length))
  source : ∀ c e, c ≠ t → (s'.bitmap c e = true ↔
    s.bitmap c e = true ∧ ∀ p ∈ ps, ¬ (p.chunk = c ∧ p.slot = e))
  free : ∀ opened, t ∈ opened →
    (∀ p ∈ ps, p.chunk < cfg.chunkNum ∧ p.slot < cfg.entriesPerChunk ∧ p.chunk ∉ opened) →
    FreeOk cfg opened s → FreeOk cfg opened s'

section Sync
variable [DecidableEq A] {cfg : Config} {S : StdSort}

/-- `a` now points at slot offset `n` of this store. -/
def pointAt (s : Store A) (a : A) (n : ℕ) : Store A :=
  { s with table := Function.update s.table a ⟨⟨s.vsId, n⟩, (s.table a).valAddr⟩ }

theorem gcLinkToAt_of_idx {s : Store A} {a : A} {n : ℕ} (h : (s.table a).vsIdx = ⟨s.vsId, n⟩)
    (chunk entry : ℕ) : gcLinkToAt cfg s chunk entry (some a) =
      some (setVsBitmapInfo (pointAt s a (cfg.slotOffset chunk entry)) chunk entry) := by
  have h₁ : (n : ℤ) ≠ newlyUpdatedVal := by simp only [newlyUpdatedVal]; omega
  have h₂ : (n : ℤ) ≠ preValuestorageVal := by simp only [preValuestorageVal]; omega
  simp [gcLinkToAt, gcLinkAtEntry, h, h₁, h₂, pointAt]

theorem gcLinkAll_relinks (cfg : Config) (t k : ℕ) (ps : List (Copy A)) (es : List (VsEntry A)) (s : Store A)
    (hlen : ps.length = es.length)
    (hidx : ∀ e ∈ es, ∃ a, e.atEntry = some a ∧ ∃ n : ℕ, (s.table a).vsIdx = ⟨s.vsId, n⟩)
    (hnd : (es.map VsEntry.atEntry).Nodup) (hsrc : ∀ p ∈ ps, p.chunk ≠ t) :
    ∃ s', gcLinkAll cfg s (relinks t k ps es) = some s' ∧ RelinkRun cfg t k ps es s s' := by
  induction ps generalizing k es s with
  | nil =>
    obtain rfl : es = [] := List.eq_nil_of_length_eq_zero hlen.symm
    exact ⟨s, rfl, rfl, rfl, rfl, rfl, fun _ _ => rfl, by simp, fun e => by simp, by simp,
      fun _ _ _ h => h⟩
  | cons p ps ih =>
    cases es with
    | nil => simp at hlen
    | cons e es =>
      obtain ⟨a, ha, n, hn⟩ := hidx e (by simp)
      rw [List.map_cons, List.nodup_cons] at hnd
      have hfresh : ∀ x ∈ es, x.atEntry ≠ some a := fun x hx hxa =>
        hnd.1 (List.mem_map.mpr ⟨x, hx, hxa.trans ha.symm⟩)
      -- the state after the insert record, and after the remove record
      let s₁ : Store A := setVsBitmapInfo (pointAt s a (cfg.slotOffset t k)) t k
      let s₂ := unlinkToAt cfg s₁ p.chunk p.slot
      obtain ⟨htab, hdisk, hvs, hgw, hgr⟩ := unlinkToAt_fields cfg s₁ p.chunk p.slot
      have hne : p.chunk ≠ t := hsrc p (by simp)
      have htab₂ : s₂.table = (pointAt s a (cfg.slotOffset t k)).table := htab
      have htable : ∀ b, b ≠ a → s₂.table b = s.table b := fun b hb => by
        simp [htab₂, pointAt, hb]
      have hself : (s₂.table a).vsIdx = ⟨s.vsId, cfg.slotOffset t k⟩ := by
        simp [htab₂, pointAt]
      have hvs₂ : s₂.vsId = s.vsId := hvs
      obtain ⟨s', hrun, hr⟩ := ih (k + 1) es s₂ (by simpa using hlen)
        (fun x hx => by
          obtain ⟨b, hb, m, hm⟩ := hidx x (by simp [hx])
          have hba : b ≠ a := fun h => hfresh x hx (h ▸ hb)
          exact ⟨b, hb, m, by rw [htable b hba, hm, hvs₂]⟩)
        hnd.2 (fun q hq => hsrc q (by simp [hq]))
      have hbit : ∀ c x, s₂.bitmap c x = (s₁.bitmap c x && !decide (c = p.chunk ∧ x = p.slot)) :=
        fun c x => unlinkToAt_bitmap p.chunk p.slot c x
      refine ⟨s', ?_, hr.disk.trans hdisk, hr.vsId.trans hvs₂, hr.gcWChunk.trans hgw,
        hr.gcRBuffer.trans hgr, ?_, ?_, ?_, ?_, ?_⟩
      · simp only [relinks, gcLinkAll, gcLinkOne, ha, gcLinkToAt_of_idx hn, Option.bind_eq_bind,
          Option.bind_some]
        exact hrun
      · intro b hb
        have hba : b ≠ a := fun h => hb e (by simp) (h ▸ ha)
        rw [hr.other b (fun x hx => hb x (by simp [hx])), htable b hba]
      · intro i x b hi hxb
        cases i with
        | zero =>
          cases hi
          obtain rfl : a = b := Option.some.inj (ha.symm.trans hxb)
          rw [hr.other a hfresh, hself]
          rfl
        | succ i =>
          rw [hr.link i x b (by simpa using hi) hxb, hvs₂]
          congr 3
          omega
      · intro x
        have h₁ : s₁.bitmap t x = (s.bitmap t x || decide (x = k)) := by
          by_cases hx : x = k <;> simp [s₁, setVsBitmapInfo, pointAt, hx]
        rw [hr.target, hbit, h₁]
        have hpt : ¬ (t = p.chunk ∧ x = p.slot) := fun h => hne h.1.symm
        simp only [hpt, decide_false, Bool.not_false, Bool.and_true, Bool.or_assoc, List.length_cons]
        congr 1
        rw [← Bool.decide_or]
        congr 1
        exact propext (by omega)
      · intro c x hc
        have h₁ : s₁.bitmap c x = s.bitmap c x := by simp [s₁, setVsBitmapInfo, pointAt, hc]
        rw [hr.source c x hc, hbit, h₁]
        simp only [Bool.and_eq_true, Bool.not_eq_true', decide_eq_false_iff_not, List.mem_cons,
          forall_eq_or_imp]
        constructor
        · rintro ⟨⟨h, hp⟩, hrest⟩
          exact ⟨h, fun hq => hp ⟨hq.1.symm, hq.2.symm⟩, hrest⟩
        · rintro ⟨h, hp, hrest⟩
          exact ⟨⟨h, fun hq => hp ⟨hq.1.symm, hq.2.symm⟩⟩, hrest⟩
      · intro opened ht hps hf
        obtain ⟨hp₁, hp₂, hp₃⟩ := hps p (by simp)
        have hf₀ : FreeOk cfg opened (pointAt s a (cfg.slotOffset t k)) := ⟨hf.nodup, hf.mem_iff⟩
        have hf₂ : FreeOk cfg opened s₂ := (hf₀.setBit ht k).unlink p.slot hp₁ hp₂ hp₃
        exact hr.free opened ht (fun q hq => hps q (by simp [hq])) hf₂

end Sync

/-- Between two collections the collector's buffer is zero and its list is empty. -/
structure GcIdle (s : Store A) : Prop where
  buffer : s.gcWChunk.wBuffer = fun _ => zeroEntry
  moved : s.gcWChunk.movedEntryList = []

/-- The collector has target chunk `s.gcWChunk.chunkOffset` open and holds the copies
`ps` of valid entries. -/
structure Collecting (cfg : Config) (opened : Set ℕ) (s : Store A) (ps : List (Copy A)) : Prop where
  coherent : Coherent cfg (insert s.gcWChunk.chunkOffset opened) s
  target_lt : s.gcWChunk.chunkOffset < cfg.chunkNum
  target_new : s.gcWChunk.chunkOffset ∉ opened
  le : ps.length ≤ cfg.entriesPerChunk
  buffer : s.gcWChunk.wBuffer = fillBuffer (ps.map Copy.entry)
  moved : s.gcWChunk.movedEntryList = copiesMoved s.gcWChunk.chunkOffset 0 ps
  source : ∀ p ∈ ps, p.chunk < cfg.chunkNum ∧ p.slot < cfg.entriesPerChunk ∧
    s.bitmap p.chunk p.slot = true ∧ s.disk p.chunk p.slot = p.entry
  nodup : (ps.map fun p => (p.chunk, p.slot)).Nodup

namespace Collecting
variable {cfg : Config} {S : StdSort} {opened : Set ℕ} {s : Store A} {ps : List (Copy A)}

theorem linked (h : Collecting cfg opened s ps) {p : Copy A} (hp : p ∈ ps) :
    ∃ a, p.entry.atEntry = some a ∧ LinkedAt cfg s a p.chunk p.slot := by
  obtain ⟨hc, he, hbit, hd⟩ := h.source p hp
  obtain ⟨a, ha⟩ := (h.coherent.bit _ hc _ he).mp hbit
  exact ⟨a, hd ▸ ha.names, ha⟩

theorem target_empty (h : Collecting cfg opened s ps) {e : ℕ} (he : e < cfg.entriesPerChunk) :
    s.bitmap s.gcWChunk.chunkOffset e = false :=
  isEmpty_iff.mp (h.coherent.opened_empty _ (Set.mem_insert _ _)) e he

theorem chunk_ne (h : Collecting cfg opened s ps) {p : Copy A} (hp : p ∈ ps) :
    p.chunk ≠ s.gcWChunk.chunkOffset := by
  intro heq
  obtain ⟨-, he, hbit, -⟩ := h.source p hp
  rw [heq, h.target_empty he] at hbit
  cases hbit

theorem nodup_of_source (h : Collecting cfg opened s ps) {β : Type} (f : VsEntry A → β)
    (hf : ∀ p ∈ ps, ∀ q ∈ ps, f p.entry = f q.entry → p.chunk = q.chunk ∧ p.slot = q.slot) :
    ((ps.map Copy.entry).map f).Nodup := by
  rw [List.map_map]
  refine List.pairwise_map.mpr ((List.pairwise_map.mp h.nodup).imp_of_mem ?_)
  intro p q hp hq hne heq
  obtain ⟨hc, hs⟩ := hf p hp q hq heq
  exact hne (by rw [hc, hs])

theorem nodup_keys (h : Collecting cfg opened s ps) :
    ((ps.map Copy.entry).map VsEntry.key).Nodup := by
  refine h.nodup_of_source VsEntry.key fun p hp q hq hkey => ?_
  obtain ⟨a, -, ha⟩ := h.linked hp
  obtain ⟨b, -, hb⟩ := h.linked hq
  exact h.coherent.keys _ _ _ _ _ _ ha hb
    (by rw [(h.source p hp).2.2.2, (h.source q hq).2.2.2, hkey])

theorem nodup_atEntries (h : Collecting cfg opened s ps) :
    ((ps.map Copy.entry).map VsEntry.atEntry).Nodup := by
  refine h.nodup_of_source VsEntry.atEntry fun p hp q hq hat => ?_
  obtain ⟨a, hpa, ha⟩ := h.linked hp
  obtain ⟨b, hqb, hb⟩ := h.linked hq
  obtain rfl : a = b := Option.some.inj (hpa.symm.trans (hat.trans hqb))
  exact ha.unique hb

theorem scan (h : Collecting cfg opened s ps) :
    scanBuffer cfg s.gcWChunk.wBuffer = ps.map Copy.entry := by
  have hsome : ∀ e ∈ ps.map Copy.entry, e.atEntry.isSome = true := fun e he => by
    obtain ⟨p, hp, rfl⟩ := List.mem_map.mp he
    obtain ⟨a, ha, -⟩ := h.linked hp
    simp [ha]
  rw [h.buffer]
  exact scanBuffer_fillBuffer cfg (by simpa using h.le) hsome

variable [DecidableEq A]

theorem sync (h : Collecting cfg opened s ps) :
    ∃ s₂, gcFlush cfg S s = some { s₂ with gcWChunk := { s₂.gcWChunk with movedEntryList := [] } } ∧
      RelinkRun cfg s.gcWChunk.chunkOffset 0 ps (sortedEntries S (ps.map Copy.entry))
        (writeGcWChunk cfg S s) s₂ := by
  have hmem : ∀ e ∈ sortedEntries S (ps.map Copy.entry), e ∈ ps.map Copy.entry :=
    fun e he => (S.mem_sort _ _).mp he
  obtain ⟨s₂, hrun, hr⟩ := gcLinkAll_relinks cfg s.gcWChunk.chunkOffset 0 ps
    (sortedEntries S (ps.map Copy.entry)) (writeGcWChunk cfg S s)
    (by simp [sortedEntries])
    (fun e he => by
      obtain ⟨p, hp, rfl⟩ := List.mem_map.mp (hmem e he)
      obtain ⟨a, ha, hl⟩ := h.linked hp
      exact ⟨a, ha, _, hl.idx⟩)
    (((S.perm _ _).map VsEntry.atEntry).nodup_iff.mpr h.nodup_atEntries)
    (fun p hp => h.chunk_ne hp)
  refine ⟨s₂, ?_, hr⟩
  have hmoved : (writeGcWChunk cfg S s).gcWChunk.movedEntryList =
      copiesMoved s.gcWChunk.chunkOffset 0 ps := h.moved
  rw [gcFlush, gcSyncWithAt, hmoved, sortMovedEntry_copiesMoved S _ h.nodup_keys, hrun]
  rfl

/-- What a flush of the copies `ps` leaves. `linked_iff` and `linked_target` say which
slots are linked afterwards. -/
structure Flushed (cfg : Config) (S : StdSort) (opened : Set ℕ) (s s' : Store A) (ps : List (Copy A)) : Prop where
  vsId : s'.vsId = s.vsId
  idle : GcIdle s'
  gcRBuffer : s'.gcRBuffer = s.gcRBuffer
  disk : ∀ c, c ≠ s.gcWChunk.chunkOffset → s'.disk c = s.disk c
  disk_target : s'.disk s.gcWChunk.chunkOffset = fillBuffer (sortedEntries S (ps.map Copy.entry))
  source : ∀ c e, c ≠ s.gcWChunk.chunkOffset → (s'.bitmap c e = true ↔
    s.bitmap c e = true ∧ ∀ p ∈ ps, ¬ (p.chunk = c ∧ p.slot = e))
  target : ∀ e < cfg.entriesPerChunk, (s'.bitmap s.gcWChunk.chunkOffset e = true ↔ e < ps.length)
  other : ∀ a, (∀ p ∈ ps, p.entry.atEntry ≠ some a) → s'.table a = s.table a
  link : ∀ i e a, (sortedEntries S (ps.map Copy.entry))[i]? = some e → e.atEntry = some a →
    (s'.table a).vsIdx = ⟨s.vsId, cfg.slotOffset s.gcWChunk.chunkOffset i⟩
  free : FreeOk cfg (insert s.gcWChunk.chunkOffset opened) s'

theorem flush (h : Collecting cfg opened s ps) :
    ∃ s', gcFlush cfg S s = some s' ∧ Flushed cfg S opened s s' ps := by
  obtain ⟨s₂, hrun, hr⟩ := h.sync (S := S)
  have hdisk : s₂.disk = Function.update s.disk s.gcWChunk.chunkOffset
      (fillBuffer (sortedEntries S (ps.map Copy.entry))) := by
    rw [hr.disk, ← sortWBuffer_exact cfg S h.scan h.nodup_keys]
    rfl
  have hlen : (sortedEntries S (ps.map Copy.entry)).length = ps.length := by simp [sortedEntries]
  refine ⟨_, hrun, hr.vsId, ⟨?_, rfl⟩, hr.gcRBuffer, ?_, ?_, hr.source, ?_, ?_, ?_, ?_⟩
  · exact congrArg WChunk.wBuffer hr.gcWChunk
  · intro c hc
    simp [hdisk, hc]
  · simp [hdisk]
  · intro e he
    have hzero : (writeGcWChunk cfg S s).bitmap s.gcWChunk.chunkOffset e = false := h.target_empty he
    simp [hr.target, hzero, hlen]
  · intro a ha
    refine hr.other a fun e he => ?_
    obtain ⟨p, hp, rfl⟩ := List.mem_map.mp ((S.mem_sort _ _).mp he)
    exact ha p hp
  · intro i e a hi ha
    have hlink := hr.link i e a hi ha
    rw [Nat.zero_add] at hlink
    exact hlink
  · have hfree : FreeOk cfg (insert s.gcWChunk.chunkOffset opened) (writeGcWChunk cfg S s) :=
      ⟨h.coherent.free.nodup, h.coherent.free.mem_iff⟩
    have hps : ∀ p ∈ ps, p.chunk < cfg.chunkNum ∧ p.slot < cfg.entriesPerChunk ∧
        p.chunk ∉ insert s.gcWChunk.chunkOffset opened := fun p hp => by
      obtain ⟨hc, he, hbit, -⟩ := h.source p hp
      refine ⟨hc, he, fun ho => ?_⟩
      have := isEmpty_iff.mp (h.coherent.opened_empty _ ho) _ he
      simp [hbit] at this
    have hf₂ := hr.free _ (Set.mem_insert _ _) hps hfree
    exact ⟨hf₂.nodup, hf₂.mem_iff⟩

section AfterFlush
variable {s' : Store A}

omit [DecidableEq A] in
theorem exists_index (h : Collecting cfg opened s ps) {p : Copy A} (hp : p ∈ ps) :
    ∃ i < cfg.entriesPerChunk, (sortedEntries S (ps.map Copy.entry))[i]? = some p.entry := by
  have hmem : p.entry ∈ sortedEntries S (ps.map Copy.entry) :=
    (S.mem_sort _ _).mpr (List.mem_map_of_mem hp)
  obtain ⟨i, hi⟩ := List.mem_iff_getElem?.mp hmem
  have hlt : i < ps.length := by
    have := (List.getElem?_eq_some_iff.mp hi).1
    simpa [sortedEntries] using this
  exact ⟨i, Nat.lt_of_lt_of_le hlt h.le, hi⟩

omit [DecidableEq A] in
theorem linked_target (h : Collecting cfg opened s ps) (hf : Flushed cfg S opened s s' ps)
    {i : ℕ} {e : VsEntry A} {a : A} (hi : (sortedEntries S (ps.map Copy.entry))[i]? = some e)
    (ha : e.atEntry = some a) :
    LinkedAt cfg s' a s.gcWChunk.chunkOffset i ∧ s'.disk s.gcWChunk.chunkOffset i = e := by
  have hslot : s'.disk s.gcWChunk.chunkOffset i = e := by
    rw [hf.disk_target, fillBuffer, List.getD_eq_getElem?_getD, hi]
    rfl
  have hlt : i < ps.length := by
    have := (List.getElem?_eq_some_iff.mp hi).1
    simpa [sortedEntries] using this
  exact ⟨⟨h.target_lt, Nat.lt_of_lt_of_le hlt h.le, by rw [hslot, ha], by rw [hf.link i e a hi ha, hf.vsId]⟩,
    hslot⟩

omit [DecidableEq A] in
theorem linked_stays (h : Collecting cfg opened s ps) (hf : Flushed cfg S opened s s' ps)
    {a : A} {c e : ℕ} (hl : LinkedAt cfg s a c e) (hno : ∀ p ∈ ps, ¬ (p.chunk = c ∧ p.slot = e)) :
    LinkedAt cfg s' a c e ∧ s'.disk c e = s.disk c e := by
  have hc : c ≠ s.gcWChunk.chunkOffset := by
    rintro rfl
    have hbit := (h.coherent.bit _ hl.chunk _ hl.entry).mpr ⟨a, hl⟩
    rw [h.target_empty hl.entry] at hbit
    cases hbit
  have htab : s'.table a = s.table a := hf.other a fun p hp hpa => by
    obtain ⟨b, hb, hlb⟩ := h.linked hp
    obtain rfl : a = b := Option.some.inj (hpa.symm.trans hb)
    exact hno p hp (hlb.unique hl)
  have hd : s'.disk c e = s.disk c e := by rw [hf.disk c hc]
  exact ⟨⟨hl.chunk, hl.entry, hd ▸ hl.names, by rw [htab, hl.idx, hf.vsId]⟩, hd⟩

omit [DecidableEq A] in
theorem linked_forward (h : Collecting cfg opened s ps) (hf : Flushed cfg S opened s s' ps)
    {a : A} {c e : ℕ} (hl : LinkedAt cfg s a c e) :
    ∃ c' e', LinkedAt cfg s' a c' e' ∧ s'.disk c' e' = s.disk c e := by
  by_cases hsrc : ∃ p ∈ ps, p.chunk = c ∧ p.slot = e
  · obtain ⟨p, hp, rfl, rfl⟩ := hsrc
    obtain ⟨i, -, hi⟩ := h.exists_index (S := S) hp
    have hd := (h.source p hp).2.2.2
    obtain ⟨hl', hd'⟩ := h.linked_target hf hi (hd ▸ hl.names)
    exact ⟨_, i, hl', hd'.trans hd.symm⟩
  · push Not at hsrc
    obtain ⟨hl', hd'⟩ := h.linked_stays hf hl fun p hp hpc => hsrc p hp hpc.1 hpc.2
    exact ⟨c, e, hl', hd'⟩

omit [DecidableEq A] in
theorem not_copied (h : Collecting cfg opened s ps) (hf : Flushed cfg S opened s s' ps) {a : A} {c e : ℕ}
    (hl : LinkedAt cfg s' a c e) (hc : c ≠ s.gcWChunk.chunkOffset) :
    (∀ p ∈ ps, p.entry.atEntry ≠ some a) ∧ LinkedAt cfg s a c e := by
  have hno : ∀ p ∈ ps, p.entry.atEntry ≠ some a := fun p hp hpa => by
    obtain ⟨i, -, hi⟩ := h.exists_index (S := S) hp
    exact hc (hl.unique (h.linked_target hf hi hpa).1).1
  exact ⟨hno, hl.chunk, hl.entry, by rw [← hf.disk c hc]; exact hl.names,
    by rw [← hf.other a hno, hl.idx, hf.vsId]⟩

omit [DecidableEq A] in
theorem linked_back (h : Collecting cfg opened s ps) (hf : Flushed cfg S opened s s' ps)
    {a : A} {c e : ℕ} (hl : LinkedAt cfg s' a c e) :
    ∃ c₀ e₀, LinkedAt cfg s a c₀ e₀ ∧ s'.disk c e = s.disk c₀ e₀ := by
  by_cases hc : c = s.gcWChunk.chunkOffset
  · subst hc
    have hname := hl.names
    rw [hf.disk_target, fillBuffer, List.getD_eq_getElem?_getD] at hname
    cases hi : (sortedEntries S (ps.map Copy.entry))[e]? with
    | none => simp [hi, zeroEntry] at hname
    | some x =>
      rw [hi, Option.getD_some] at hname
      obtain ⟨p, hp, rfl⟩ := List.mem_map.mp ((S.mem_sort _ _).mp (List.mem_of_getElem? hi))
      obtain ⟨b, hb, hlb⟩ := h.linked hp
      obtain rfl : a = b := Option.some.inj (hname.symm.trans hb)
      refine ⟨_, _, hlb, ?_⟩
      rw [(h.linked_target hf hi hb).2, (h.source p hp).2.2.2]
  · exact ⟨c, e, (h.not_copied hf hl hc).2, by rw [hf.disk c hc]⟩

omit [DecidableEq A] in
theorem preserved (h : Collecting cfg opened s ps) (hf : Flushed cfg S opened s s' ps) :
    Preserved cfg s s' := by
  refine ⟨hf.vsId, fun a c e hl => h.linked_forward hf hl, fun a c e hl => ?_, fun a hno => ?_⟩
  · obtain ⟨c₀, e₀, hl₀, -⟩ := h.linked_back hf hl
    exact ⟨c₀, e₀, hl₀⟩
  · refine hf.other a fun p hp hpa => ?_
    obtain ⟨b, hb, hlb⟩ := h.linked hp
    obtain rfl : a = b := Option.some.inj (hpa.symm.trans hb)
    exact hno _ _ hlb

omit [DecidableEq A] in
theorem coherent_flushed (h : Collecting cfg opened s ps) (hf : Flushed cfg S opened s s' ps)
    (hne : ps ≠ []) : Coherent cfg opened s' := by
  have hpos : 0 < ps.length := List.length_pos_iff.mpr hne
  have htarget : isEmpty cfg s' s.gcWChunk.chunkOffset = false := by
    rw [Bool.eq_false_iff]
    intro hemp
    have hbit := (hf.target 0 cfg.entries_pos).mpr hpos
    rw [isEmpty_iff.mp hemp 0 cfg.entries_pos] at hbit
    cases hbit
  refine ⟨fun c hc e he => ⟨fun hbit => ?_, fun ⟨a, hl⟩ => ?_⟩, ?_, ⟨hf.free.nodup, fun c => ?_⟩,
    fun c hc => ?_⟩
  · by_cases hct : c = s.gcWChunk.chunkOffset
    · subst hct
      have hlt : e < (sortedEntries S (ps.map Copy.entry)).length := by
        simpa [sortedEntries] using (hf.target e he).mp hbit
      have hi := List.getElem?_eq_getElem hlt
      obtain ⟨p, hp, hpe⟩ := List.mem_map.mp ((S.mem_sort _ _).mp (List.mem_of_getElem? hi))
      obtain ⟨a, ha, -⟩ := h.linked hp
      exact ⟨a, (h.linked_target hf hi (hpe ▸ ha)).1⟩
    · obtain ⟨hbit₀, hno⟩ := (hf.source c e hct).mp hbit
      obtain ⟨a, hl⟩ := (h.coherent.bit c hc e he).mp hbit₀
      exact ⟨a, (h.linked_stays hf hl hno).1⟩
  · by_cases hct : c = s.gcWChunk.chunkOffset
    · subst hct
      refine (hf.target e he).mpr ?_
      by_contra hge
      have hnone : (sortedEntries S (ps.map Copy.entry))[e]? = none :=
        List.getElem?_eq_none (by simpa [sortedEntries] using hge)
      have := hl.names
      simp [hf.disk_target, fillBuffer, List.getD_eq_getElem?_getD, hnone, zeroEntry] at this
    · obtain ⟨hmoved, hl'⟩ := h.not_copied hf hl hct
      refine (hf.source c e hct).mpr ⟨(h.coherent.bit c hc e he).mpr ⟨a, hl'⟩, fun p hp hpc => ?_⟩
      obtain ⟨rfl, rfl⟩ := hpc
      exact hmoved p hp ((h.source p hp).2.2.2 ▸ hl'.names)
  · intro a c e a' c' e' hl hl' hkey
    obtain ⟨c₀, e₀, hl₀, hd⟩ := h.linked_back hf hl
    obtain ⟨c₁, e₁, hl₁, hd'⟩ := h.linked_back hf hl'
    obtain ⟨rfl, rfl⟩ := h.coherent.keys _ _ _ _ _ _ hl₀ hl₁ (by rw [← hd, ← hd', hkey])
    obtain rfl : a = a' := Option.some.inj (hl₀.names.symm.trans hl₁.names)
    exact hl.unique hl'
  · rw [hf.free.mem_iff]
    by_cases hct : c = s.gcWChunk.chunkOffset
    · simp [hct, htarget]
    · simp [hct]
  · have hct : c ≠ s.gcWChunk.chunkOffset := fun heq => h.target_new (heq ▸ hc)
    refine isEmpty_iff.mpr fun e he => Bool.eq_false_iff.mpr fun hbit => ?_
    have hzero := isEmpty_iff.mp (h.coherent.opened_empty c (Set.mem_insert_of_mem _ hc)) e he
    rw [((hf.source c e hct).mp hbit).1] at hzero
    cases hzero

omit [DecidableEq A] in
theorem free_of_drained (h : Collecting cfg opened s ps) (hf : Flushed cfg S opened s s' ps)
    {p : Copy A} (hp : p ∈ ps) (hall : ∀ e < cfg.entriesPerChunk, s.bitmap p.chunk e = true →
      ∃ q ∈ ps, q.chunk = p.chunk ∧ q.slot = e) : s'.freeChunkList ≠ [] := by
  have hct := h.chunk_ne hp
  obtain ⟨hc, he, hbit, -⟩ := h.source p hp
  have hemp : isEmpty cfg s' p.chunk = true := by
    refine isEmpty_iff.mpr fun e he => Bool.eq_false_iff.mpr fun hb => ?_
    obtain ⟨hb₀, hno⟩ := (hf.source p.chunk e hct).mp hb
    obtain ⟨q, hq, hqe⟩ := hall e he hb₀
    exact hno q hq hqe
  have hopen : p.chunk ∉ insert s.gcWChunk.chunkOffset opened := fun ho => by
    have := isEmpty_iff.mp (h.coherent.opened_empty _ ho) _ he
    simp [hbit] at this
  exact List.ne_nil_of_mem ((hf.free.mem_iff p.chunk).mpr ⟨hc, hemp, hopen⟩)

end AfterFlush

end Collecting

/-! ## The loop over the victims -/

section Loop
variable {cfg : Config} {S : StdSort} {opened : Set ℕ}

/-- The collection is over. -/
structure Collected (cfg : Config) (opened : Set ℕ) (s₀ s : Store A) : Prop where
  coherent : Coherent cfg opened s
  idle : GcIdle s
  free : s.freeChunkList ≠ []
  preserved : Preserved cfg s₀ s

/-- Valid entries of `v` are all among the copies. -/
def Drained (cfg : Config) (s : Store A) (ps : List (Copy A)) (v : ℕ) : Prop :=
  ∀ e < cfg.entriesPerChunk, s.bitmap v e = true → ∃ q ∈ ps, q.chunk = v ∧ q.slot = e

/-- The chunks still to be visited are used, and nothing of them was copied. -/
def Unvisited (cfg : Config) (s : Store A) (ps : List (Copy A)) (rest : List (ℕ × ℕ)) : Prop :=
  (rest.map Prod.fst).Nodup ∧ ∀ x ∈ rest, x.1 < cfg.chunkNum ∧ entryCount cfg s x.1 = x.2 ∧ 0 < x.2 ∧
    ∀ p ∈ ps, p.chunk ≠ x.1

/-- Between two victims. -/
structure Between (cfg : Config) (opened : Set ℕ) (s₀ : Store A) (g : GcState A) (ps : List (Copy A))
    (rest : List (ℕ × ℕ)) : Prop where
  collecting : Collecting cfg opened g.store ps
  offset : g.wOffset = ps.length
  room : ps.length < cfg.entriesPerChunk
  preserved : Preserved cfg s₀ g.store
  drained : ∀ p ∈ ps, Drained cfg g.store ps p.chunk
  unvisited : Unvisited cfg g.store ps rest

/-- Inside victim `v`, with the slots below `i` done. -/
structure Inside (cfg : Config) (opened : Set ℕ) (s₀ : Store A) (v i : ℕ) (g : GcState A)
    (ps : List (Copy A)) (rest : List (ℕ × ℕ)) : Prop where
  collecting : Collecting cfg opened g.store ps
  offset : g.wOffset = ps.length
  room : ps.length < cfg.entriesPerChunk
  preserved : Preserved cfg s₀ g.store
  unvisited : Unvisited cfg g.store ps rest
  victim_lt : v < cfg.chunkNum
  victim_new : v ∉ rest.map Prod.fst
  buffer : ∀ j < cfg.entriesPerChunk, g.store.bitmap v j = true → g.store.gcRBuffer j = g.store.disk v j
  done : ∀ j < i, j < cfg.entriesPerChunk → g.store.bitmap v j = true → ∃ q ∈ ps, q.chunk = v ∧ q.slot = j
  below : ∀ p ∈ ps, p.chunk = v → p.slot < i
  drained : ∀ p ∈ ps, p.chunk ≠ v → Drained cfg g.store ps p.chunk
  notFull : ∃ j < cfg.entriesPerChunk, g.store.bitmap v j = false

/-! ## The walk, in terms of the bitmap -/

/-- The walk over victim `v` with the slots below `i` done: the part of `Inside` that
is about the bitmap and the copies alone. -/
structure Walked (cfg : Config) (s : Store A) (v i : ℕ) (ps : List (Copy A)) (rest : List (ℕ × ℕ)) : Prop where
  unvisited : Unvisited cfg s ps rest
  victim_lt : v < cfg.chunkNum
  victim_new : v ∉ rest.map Prod.fst
  done : ∀ j < i, j < cfg.entriesPerChunk → s.bitmap v j = true → ∃ q ∈ ps, q.chunk = v ∧ q.slot = j
  below : ∀ p ∈ ps, p.chunk = v → p.slot < i
  drained : ∀ p ∈ ps, p.chunk ≠ v → Drained cfg s ps p.chunk
  notFull : ∃ j < cfg.entriesPerChunk, s.bitmap v j = false

section Walk
variable {s s' : Store A} {v i : ℕ} {ps : List (Copy A)} {rest : List (ℕ × ℕ)}

theorem entryCount_congr {c : ℕ} (h : s'.bitmap c = s.bitmap c) : entryCount cfg s' c = entryCount cfg s c := by
  rw [entryCount, entryCount, h]

theorem Unvisited.of_bitmap (h : Unvisited cfg s ps rest) (hb : s'.bitmap = s.bitmap) : Unvisited cfg s' ps rest := by
  refine ⟨h.1, fun x hx => ?_⟩
  rw [entryCount_congr (congrFun hb x.1)]
  exact h.2 x hx

theorem Drained.mono (h : Drained cfg s ps v) (q : Copy A) : Drained cfg s (ps ++ [q]) v := fun e he hb => by
  obtain ⟨p, hp, hpe⟩ := h e he hb
  exact ⟨p, List.mem_append_left _ hp, hpe⟩

theorem Walked.of_bitmap (h : Walked cfg s v i ps rest) (hb : s'.bitmap = s.bitmap) : Walked cfg s' v i ps rest where
  unvisited := h.unvisited.of_bitmap hb
  victim_lt := h.victim_lt
  victim_new := h.victim_new
  done := by
    rw [hb]
    exact h.done
  below := h.below
  drained := by
    simp only [Drained, hb]
    exact h.drained
  notFull := by
    rw [hb]
    exact h.notFull

theorem Walked.enter {n : ℕ} (h : Unvisited cfg s ps ((v, n) :: rest))
    (hdr : ∀ p ∈ ps, Drained cfg s ps p.chunk) (hn : n ≠ cfg.entriesPerChunk) : Walked cfg s v 0 ps rest := by
  obtain ⟨hnd, hall⟩ := h
  rw [List.map_cons, List.nodup_cons] at hnd
  obtain ⟨hv, hcount, -, hnot⟩ := hall (v, n) List.mem_cons_self
  refine ⟨⟨hnd.2, fun x hx => hall x (List.mem_cons_of_mem _ hx)⟩, hv, hnd.1, by simp,
    fun p hp hpv => absurd hpv (hnot p hp), fun p hp _ => hdr p hp, ?_⟩
  by_contra hfull
  push Not at hfull
  refine hn (hcount.symm.trans ?_)
  have hfilter : (List.range cfg.entriesPerChunk).filter (s.bitmap v) = List.range cfg.entriesPerChunk :=
    List.filter_eq_self.mpr fun e he => (Bool.not_eq_false _).mp (hfull e (List.mem_range.mp he))
  simp [entryCount, hfilter]

theorem Walked.leave (h : Walked cfg s v cfg.entriesPerChunk ps rest) : ∀ p ∈ ps, Drained cfg s ps p.chunk := by
  intro p hp
  by_cases hpv : p.chunk = v
  · intro e he hb
    rw [hpv] at hb ⊢
    exact h.done e he he hb
  · exact h.drained p hp hpv

theorem Walked.skip (h : Walked cfg s v i ps rest) (hbit : s.bitmap v i = false) :
    Walked cfg s v (i + 1) ps rest := by
  refine { h with done := fun j hj hlt hb => ?_, below := fun p hp hpv => Nat.lt_succ_of_lt (h.below p hp hpv) }
  rcases Nat.lt_succ_iff_lt_or_eq.mp hj with hj | rfl
  · exact h.done j hj hlt hb
  · rw [hbit] at hb
    cases hb

theorem Walked.copy (h : Walked cfg s v i ps rest) (e : VsEntry A) :
    Walked cfg s v (i + 1) (ps ++ [⟨v, i, e⟩]) rest where
  unvisited := by
    refine ⟨h.unvisited.1, fun x hx => ?_⟩
    obtain ⟨h₁, h₂, h₃, h₄⟩ := h.unvisited.2 x hx
    refine ⟨h₁, h₂, h₃, fun p hp => ?_⟩
    rcases List.mem_append.mp hp with hp | hp
    · exact h₄ p hp
    · rw [List.mem_singleton.mp hp]
      exact fun hv => h.victim_new (List.mem_map.mpr ⟨x, hx, hv.symm⟩)
  victim_lt := h.victim_lt
  victim_new := h.victim_new
  done := by
    intro j hj hlt hb
    rcases Nat.lt_succ_iff_lt_or_eq.mp hj with hj | rfl
    · obtain ⟨q, hq, hqj⟩ := h.done j hj hlt hb
      exact ⟨q, List.mem_append_left _ hq, hqj⟩
    · exact ⟨⟨v, j, e⟩, by simp, rfl, rfl⟩
  below := by
    intro p hp hpv
    rcases List.mem_append.mp hp with hp | hp
    · exact Nat.lt_succ_of_lt (h.below p hp hpv)
    · rw [List.mem_singleton.mp hp]
      exact Nat.lt_succ_self i
  drained := by
    intro p hp hpv
    rcases List.mem_append.mp hp with hp | hp
    · exact (h.drained p hp hpv).mono _
    · rw [List.mem_singleton.mp hp] at hpv
      exact absurd rfl hpv
  notFull := h.notFull

theorem Walked.nodup_copy (h : Walked cfg s v i ps rest) (hnd : (ps.map fun p => (p.chunk, p.slot)).Nodup)
    (e : VsEntry A) : ((ps ++ [(⟨v, i, e⟩ : Copy A)]).map fun p => (p.chunk, p.slot)).Nodup := by
  rw [List.map_append, List.nodup_append]
  refine ⟨hnd, by simp, fun x hx y hy hxy => ?_⟩
  obtain ⟨p, hp, rfl⟩ := List.mem_map.mp hx
  simp only [List.map_cons, List.map_nil, List.mem_singleton] at hy
  rw [hy, Prod.mk.injEq] at hxy
  exact Nat.lt_irrefl i (hxy.2 ▸ h.below p hp hxy.1)

/-- The copies were written to chunk `t`, which was empty, and their bits cleared. -/
theorem Walked.flushed {t : ℕ} (h : Walked cfg s v i ps rest) (hvt : v ≠ t) (ht : isEmpty cfg s t = true)
    (hsource : ∀ c e, c ≠ t → (s'.bitmap c e = true ↔
      s.bitmap c e = true ∧ ∀ p ∈ ps, ¬ (p.chunk = c ∧ p.slot = e))) : Walked cfg s' v i [] rest where
  unvisited := by
    refine ⟨h.unvisited.1, fun x hx => ?_⟩
    obtain ⟨h₁, h₂, h₃, h₄⟩ := h.unvisited.2 x hx
    have hxt : x.1 ≠ t := fun heq => by
      have hzero : entryCount cfg s x.1 = 0 := by
        rw [heq]
        simpa [isEmpty] using ht
      omega
    refine ⟨h₁, h₂ ▸ entryCount_congr (funext fun e => Bool.eq_iff_iff.mpr ?_), h₃, by simp⟩
    rw [hsource x.1 e hxt]
    exact ⟨fun hb => hb.1, fun hb => ⟨hb, fun p hp hpe => h₄ p hp hpe.1⟩⟩
  victim_lt := h.victim_lt
  victim_new := h.victim_new
  done := by
    intro j hj hlt hb
    obtain ⟨hb₀, hno⟩ := (hsource v j hvt).mp hb
    obtain ⟨q, hq, hqj⟩ := h.done j hj hlt hb₀
    exact absurd hqj (hno q hq)
  below := by simp
  drained := by simp
  notFull := by
    obtain ⟨j, hj, hb⟩ := h.notFull
    refine ⟨j, hj, Bool.eq_false_iff.mpr fun hb' => ?_⟩
    rw [((hsource v j hvt).mp hb').1] at hb
    cases hb

/-- Copies that fill a chunk cannot all come from a victim that is not full: some
other victim is drained. -/
theorem Walked.exists_drained (h : Walked cfg s v i ps rest) (hlen : ps.length = cfg.entriesPerChunk)
    (hnd : (ps.map fun p => (p.chunk, p.slot)).Nodup)
    (hsource : ∀ p ∈ ps, p.slot < cfg.entriesPerChunk ∧ s.bitmap p.chunk p.slot = true) :
    ∃ p ∈ ps, Drained cfg s ps p.chunk := by
  by_contra hnone
  have hall : ∀ p ∈ ps, p.chunk = v := fun p hp => by
    by_contra hpv
    exact hnone ⟨p, hp, h.drained p hp hpv⟩
  obtain ⟨j, hj, hbit⟩ := h.notFull
  have hslots : (ps.map Copy.slot).Nodup := by
    refine List.pairwise_map.mpr ((List.pairwise_map.mp hnd).imp_of_mem ?_)
    intro p q hp hq hne heq
    exact hne (by rw [hall p hp, hall q hq, heq])
  have hsub : (ps.map Copy.slot).toFinset ⊆ Finset.range cfg.entriesPerChunk := by
    intro x hx
    obtain ⟨p, hp, rfl⟩ := List.mem_map.mp (List.mem_toFinset.mp hx)
    exact Finset.mem_range.mpr (hsource p hp).1
  have hcard : (ps.map Copy.slot).toFinset.card = cfg.entriesPerChunk := by
    rw [List.toFinset_card_of_nodup hslots, List.length_map, hlen]
  have heq := Finset.eq_of_subset_of_card_le hsub (by rw [hcard, Finset.card_range])
  have hmem : j ∈ (ps.map Copy.slot).toFinset := heq ▸ Finset.mem_range.mpr hj
  obtain ⟨p, hp, rfl⟩ := List.mem_map.mp (List.mem_toFinset.mp hmem)
  have hset := (hsource p hp).2
  rw [hall p hp, hbit] at hset
  cases hset

end Walk

/-! ## The loop rule -/

section Rule
variable [DecidableEq A] (S) (before : ℤ) {Outer : GcState A → List (ℕ × ℕ) → Prop}
  {Inner : ℕ → ℕ → GcState A → List (ℕ × ℕ) → Prop} {Done : Store A → Prop}

theorem gcMoveEntries_rule {v i : ℕ} {g : GcState A} {rest : List (ℕ × ℕ)}
    (step : ∀ i < cfg.entriesPerChunk, ∀ g, Inner v i g rest →
      (∃ s', gcMoveEntry cfg S before v i g = some (.returned s') ∧ Done s') ∨
        ∃ g', gcMoveEntry cfg S before v i g = some (.running g') ∧ Inner v (i + 1) g' rest)
    (n : ℕ) (hn : i + n = cfg.entriesPerChunk) (h : Inner v i g rest) :
    (∃ s', gcMoveEntries cfg S before v (List.range' i n) g = some (.returned s') ∧ Done s') ∨
      ∃ g', gcMoveEntries cfg S before v (List.range' i n) g = some (.running g') ∧
        Inner v cfg.entriesPerChunk g' rest := by
  induction n generalizing i g with
  | zero =>
    obtain rfl : i = cfg.entriesPerChunk := by omega
    exact Or.inr ⟨g, rfl, h⟩
  | succ n ih =>
    rw [List.range'_succ]
    rcases step i (by omega) g h with ⟨s', hrun, hdone⟩ | ⟨g', hrun, hin⟩
    · exact Or.inl ⟨s', by simp [gcMoveEntries, hrun], hdone⟩
    · have hstep : gcMoveEntries cfg S before v (i :: List.range' (i + 1) n) g =
          gcMoveEntries cfg S before v (List.range' (i + 1) n) g' := by
        simp [gcMoveEntries, hrun]
      rw [hstep]
      exact ih (by omega) hin

variable (Outer Inner Done) in
/-- The collection returns, by an invariant between two victims and one inside a victim. -/
theorem gcVictims_rule
    (enter : ∀ g v n rest, Outer g ((v, n) :: rest) → n ≠ cfg.entriesPerChunk →
      Inner v 0 { g with store := readGcRChunk g.store v } rest)
    (step : ∀ v rest, ∀ i < cfg.entriesPerChunk, ∀ g, Inner v i g rest →
      (∃ s', gcMoveEntry cfg S before v i g = some (.returned s') ∧ Done s') ∨
        ∃ g', gcMoveEntry cfg S before v i g = some (.running g') ∧ Inner v (i + 1) g' rest)
    (leave : ∀ g v rest, Inner v cfg.entriesPerChunk g rest →
      Outer { g with usedChunkNum := g.usedChunkNum - 1 } rest)
    (finish : ∀ g rest, Outer g rest → ∃ s', gcFinish cfg S g.store = some s' ∧ Done s')
    {g : GcState A} {used : List (ℕ × ℕ)} (h : Outer g used) :
    ∃ s', gcVictims cfg S before used g = some s' ∧ Done s' := by
  induction used generalizing g with
  | nil => exact finish g [] h
  | cons x rest ih =>
    obtain ⟨v, n⟩ := x
    by_cases hn : n = cfg.entriesPerChunk
    · obtain ⟨s', hrun, hdone⟩ := finish g _ h
      exact ⟨s', by simp [gcVictims, hn, hrun], hdone⟩
    · have hwalk :=
        gcMoveEntries_rule S before (step v rest) cfg.entriesPerChunk (Nat.zero_add _) (enter g v n rest h hn)
      rw [← List.range_eq_range'] at hwalk
      rcases hwalk with ⟨s', hrun, hdone⟩ | ⟨g', hrun, hin⟩
      · exact ⟨s', by simp [gcVictims, hn, hrun], hdone⟩
      · obtain ⟨s', hrest, hdone⟩ := ih (leave g' v rest hin)
        exact ⟨s', by simp [gcVictims, hn, hrun, hrest], hdone⟩

end Rule

/-! ## Collections of a coherent store -/

theorem Inside.walked {s₀ : Store A} {v i : ℕ} {g : GcState A} {ps : List (Copy A)} {rest : List (ℕ × ℕ)}
    (h : Inside cfg opened s₀ v i g ps rest) : Walked cfg g.store v i ps rest :=
  ⟨h.unvisited, h.victim_lt, h.victim_new, h.done, h.below, h.drained, h.notFull⟩

/-- The state after `memcpy` and the two records, before a possible flush. -/
theorem Inside.copy {s₀ : Store A} {v i : ℕ} {g : GcState A} {ps : List (Copy A)} {rest : List (ℕ × ℕ)}
    (h : Inside cfg opened s₀ v i g ps rest) (hi : i < cfg.entriesPerChunk)
    (hbit : g.store.bitmap v i = true) :
    Collecting cfg opened (gcCopyEntry g.store v g.wOffset i) (ps ++ [⟨v, i, g.store.gcRBuffer i⟩]) := by
  have hc := h.collecting
  have hfree : FreeOk cfg (insert g.store.gcWChunk.chunkOffset opened)
      (gcCopyEntry g.store v g.wOffset i) := ⟨hc.coherent.free.nodup, hc.coherent.free.mem_iff⟩
  refine ⟨hc.coherent.of_eq rfl rfl rfl rfl hfree hc.coherent.opened_empty, hc.target_lt, hc.target_new, ?_, ?_,
    ?_, ?_, ?_⟩
  · rw [List.length_append]
    exact h.room
  · have hbuf := fillBuffer_concat (ps.map Copy.entry) (g.store.gcRBuffer i)
    rw [List.length_map, ← hc.buffer, ← h.offset] at hbuf
    rw [List.map_append]
    exact hbuf.symm
  · have hmoved := copiesMoved_concat g.store.gcWChunk.chunkOffset 0 ps ⟨v, i, g.store.gcRBuffer i⟩
    rw [Nat.zero_add, ← hc.moved, ← h.offset] at hmoved
    exact hmoved.symm
  · intro p hp
    rcases List.mem_append.mp hp with hp | hp
    · exact hc.source p hp
    · rw [List.mem_singleton.mp hp]
      exact ⟨h.victim_lt, hi, hbit, (h.buffer i hi hbit).symm⟩
  · exact h.walked.nodup_copy hc.nodup _

theorem initGcWChunk_collecting {s : Store A} (h : Coherent cfg opened s) (hidle : GcIdle s)
    (hfree : s.freeChunkList ≠ []) : ∃ s', initGcWChunk cfg s = some s' ∧ Collecting cfg opened s' [] ∧
      s'.bitmap = s.bitmap ∧ s'.disk = s.disk ∧ s'.gcRBuffer = s.gcRBuffer ∧ Preserved cfg s s' := by
  obtain ⟨t, cs, -, hlt, hemp, hnew, hget, hok⟩ := h.free.take hfree
  let target : WChunk A := { s.gcWChunk with isInit := true, chunkOffset := t, entryOffset := 0 }
  let s' : Store A := { s with freeChunkList := cs, gcWChunk := target }
  have hinit : initGcWChunk cfg s = some s' := by
    rw [initGcWChunk, hget]
    rfl
  have hok' : FreeOk cfg (insert t opened) s' := ⟨hok.nodup, hok.mem_iff⟩
  refine ⟨s', hinit, ?_, rfl, rfl, rfl, .of_eq rfl rfl rfl⟩
  refine ⟨h.of_eq rfl rfl rfl rfl hok' ?_, hlt, hnew, Nat.zero_le _, hidle.buffer, hidle.moved, by simp, by simp⟩
  rintro c (rfl | hc)
  · exact hemp
  · exact h.opened_empty c hc

section Step
variable {s₀ : Store A} {v i : ℕ} {g : GcState A} {ps : List (Copy A)} {rest : List (ℕ × ℕ)}

theorem Inside.skip (h : Inside cfg opened s₀ v i g ps rest) (hbit : g.store.bitmap v i = false) :
    Inside cfg opened s₀ v (i + 1) g ps rest :=
  have hw := h.walked.skip hbit
  { h with done := hw.done, below := hw.below }

theorem Inside.keep (h : Inside cfg opened s₀ v i g ps rest) (hi : i < cfg.entriesPerChunk)
    (hbit : g.store.bitmap v i = true) (hroom : ps.length + 1 < cfg.entriesPerChunk) :
    Inside cfg opened s₀ v (i + 1)
      ⟨gcCopyEntry g.store v g.wOffset i, g.wOffset + 1, g.usedChunkNum⟩
      (ps ++ [⟨v, i, g.store.gcRBuffer i⟩]) rest := by
  have hw := h.walked.copy (g.store.gcRBuffer i)
  exact {
    collecting := h.copy hi hbit
    offset := by simp [h.offset]
    room := by simpa using hroom
    preserved := h.preserved.trans (.of_eq rfl rfl rfl)
    unvisited := hw.unvisited
    victim_lt := hw.victim_lt
    victim_new := hw.victim_new
    buffer := h.buffer
    done := hw.done
    below := hw.below
    drained := hw.drained
    notFull := hw.notFull }

theorem Inside.flush_full [DecidableEq A] (h : Inside cfg opened s₀ v i g ps rest) (hi : i < cfg.entriesPerChunk)
    (hbit : g.store.bitmap v i = true) (hfull : ps.length + 1 = cfg.entriesPerChunk) :
    ∃ s', gcFlush cfg S (gcCopyEntry g.store v g.wOffset i) = some s' ∧ Collected cfg opened s₀ s' ∧
      Collecting.Flushed cfg S opened (gcCopyEntry g.store v g.wOffset i) s'
        (ps ++ [⟨v, i, g.store.gcRBuffer i⟩]) := by
  have hc := h.copy hi hbit
  obtain ⟨s', hrun, hf⟩ := hc.flush (S := S)
  obtain ⟨p, hp, hdr⟩ := (h.walked.copy (g.store.gcRBuffer i)).exists_drained (by simpa using hfull) hc.nodup
    fun p hp => ⟨(hc.source p hp).2.1, (hc.source p hp).2.2.1⟩
  refine ⟨s', hrun, ⟨hc.coherent_flushed hf (by simp), hf.idle, hc.free_of_drained hf hp hdr, ?_⟩, hf⟩
  have hcopy : Preserved cfg g.store (gcCopyEntry g.store v g.wOffset i) := .of_eq rfl rfl rfl
  exact (h.preserved.trans hcopy).trans (hc.preserved hf)

theorem Inside.restart (h : Inside cfg opened s₀ v i g ps rest) (hi : i < cfg.entriesPerChunk)
    (hbit : g.store.bitmap v i = true) {s' : Store A} (hcol : Collected cfg opened s₀ s')
    (hf : Collecting.Flushed cfg S opened (gcCopyEntry g.store v g.wOffset i) s'
      (ps ++ [⟨v, i, g.store.gcRBuffer i⟩])) (used : ℤ) :
    ∃ s'', initGcWChunk cfg s' = some s'' ∧ Inside cfg opened s₀ v (i + 1) ⟨s'', 0, used⟩ [] rest := by
  have hc := h.copy hi hbit
  obtain ⟨s'', hinit, hnew, hbm, hdk, hrb, hpr⟩ :=
    initGcWChunk_collecting hcol.coherent hcol.idle hcol.free
  have hvt : v ≠ (gcCopyEntry g.store v g.wOffset i).gcWChunk.chunkOffset :=
    hc.chunk_ne (p := ⟨v, i, g.store.gcRBuffer i⟩) (by simp)
  have hw : Walked cfg s' v (i + 1) [] rest := (h.walked.copy (g.store.gcRBuffer i)).flushed hvt
    (hc.coherent.opened_empty _ (Set.mem_insert _ _)) hf.source
  have hw' := hw.of_bitmap hbm
  refine ⟨s'', hinit,
    ⟨hnew, rfl, cfg.entries_pos, hcol.preserved.trans hpr, hw'.unvisited, h.victim_lt, h.victim_new,
    ?_, hw'.done, hw'.below, hw'.drained, hw'.notFull⟩⟩
  intro j hj hb
  have hsame : s''.disk v = g.store.disk v := by rw [hdk, hf.disk v hvt]; rfl
  have hrbuf : s''.gcRBuffer = g.store.gcRBuffer := hrb.trans hf.gcRBuffer
  rw [hsame, hrbuf]
  rw [hbm] at hb
  exact h.buffer j hj ((hf.source v j hvt).mp hb).1

variable [DecidableEq A]

/-- One iteration: the collection is over, or the walk is one slot further. -/
theorem gcMoveEntry_inside (before : ℤ) (h : Inside cfg opened s₀ v i g ps rest)
    (hi : i < cfg.entriesPerChunk) :
    (∃ s', gcMoveEntry cfg S before v i g = some (.returned s') ∧ Collected cfg opened s₀ s') ∨
      ∃ g' ps', gcMoveEntry cfg S before v i g = some (.running g') ∧
        Inside cfg opened s₀ v (i + 1) g' ps' rest := by
  cases hbit : g.store.bitmap v i with
  | false => exact Or.inr ⟨g, ps, by simp [gcMoveEntry, hbit], h.skip hbit⟩
  | true =>
    by_cases hfull : g.wOffset = cfg.entriesPerChunk - 1
    · have hlen : ps.length + 1 = cfg.entriesPerChunk := by
        have := h.offset
        have := cfg.entries_pos
        omega
      obtain ⟨s', hrun, hcol, hf⟩ := h.flush_full (S := S) hi hbit hlen
      cases hstop : gcStops cfg before (g.usedChunkNum + 1) with
      | true =>
        refine Or.inl ⟨s', ?_, hcol⟩
        rw [hfull] at hrun
        simp [gcMoveEntry, hbit, hfull, hrun, hstop]
      | false =>
        obtain ⟨s'', hinit, hin⟩ := h.restart hi hbit hcol hf (g.usedChunkNum + 1)
        refine Or.inr ⟨_, [], ?_, hin⟩
        rw [hfull] at hrun
        simp [gcMoveEntry, hbit, hfull, hrun, hstop, hinit]
    · have hroom : ps.length + 1 < cfg.entriesPerChunk := by
        have := h.offset
        have := h.room
        omega
      exact Or.inr ⟨_, _, by simp [gcMoveEntry, hbit, hfull], h.keep hi hbit hroom⟩

end Step

section Victims
variable [DecidableEq A] {s₀ : Store A} {g : GcState A} {ps : List (Copy A)} {rest : List (ℕ × ℕ)}

omit [DecidableEq A] in
theorem Between.enter {v n : ℕ} (h : Between cfg opened s₀ g ps ((v, n) :: rest))
    (hn : n ≠ cfg.entriesPerChunk) :
    Inside cfg opened s₀ v 0 { g with store := readGcRChunk g.store v } ps rest := by
  have hc := h.collecting
  have hw : Walked cfg g.store v 0 ps rest := .enter h.unvisited h.drained hn
  have hfree : FreeOk cfg (insert g.store.gcWChunk.chunkOffset opened) (readGcRChunk g.store v) :=
    ⟨hc.coherent.free.nodup, hc.coherent.free.mem_iff⟩
  exact ⟨⟨hc.coherent.of_eq rfl rfl rfl rfl hfree hc.coherent.opened_empty, hc.target_lt, hc.target_new, hc.le,
    hc.buffer, hc.moved, hc.source, hc.nodup⟩, h.offset, h.room, h.preserved.trans (.of_eq rfl rfl rfl),
    hw.unvisited, hw.victim_lt, hw.victim_new, fun _ _ _ => rfl, hw.done, hw.below, hw.drained, hw.notFull⟩

omit [DecidableEq A] in
theorem Inside.leave {v : ℕ} (h : Inside cfg opened s₀ v cfg.entriesPerChunk g ps rest) (used : ℤ) :
    Between cfg opened s₀ { g with usedChunkNum := used } ps rest :=
  ⟨h.collecting, h.offset, h.room, h.preserved, h.walked.leave, h.unvisited⟩

theorem gcFinish_between (h : Between cfg opened s₀ g ps rest) :
    ∃ s', gcFinish cfg S g.store = some s' ∧ Collected cfg opened s₀ s' := by
  have hc := h.collecting
  cases ps with
  | nil =>
    have hmoved : g.store.gcWChunk.movedEntryList = [] := hc.moved
    have hrun : gcFinish cfg S g.store =
        some (addFreeChunkList g.store g.store.gcWChunk.chunkOffset) := by simp [gcFinish, hmoved]
    refine ⟨_, hrun, ⟨?_, ⟨hc.buffer, hmoved⟩, by simp [addFreeChunkList],
      h.preserved.trans (.of_eq rfl rfl rfl)⟩⟩
    -- the unused target goes back to the free list
    have hfree := hc.coherent.free
    have hnot : g.store.gcWChunk.chunkOffset ∉ g.store.freeChunkList := fun hm =>
      ((hfree.mem_iff _).mp hm).2.2 (Set.mem_insert _ _)
    have hemp := hc.coherent.opened_empty _ (Set.mem_insert _ _)
    refine hc.coherent.of_eq rfl rfl rfl rfl ⟨?_, fun c => ?_⟩
      fun c ho => hc.coherent.opened_empty c (Set.mem_insert_of_mem _ ho)
    · refine List.nodup_append.mpr ⟨hfree.nodup, by simp, fun x hx y hy hxy => ?_⟩
      rw [List.mem_singleton.mp hy] at hxy
      exact hnot (hxy ▸ hx)
    · rw [show isEmpty cfg (addFreeChunkList g.store g.store.gcWChunk.chunkOffset) c =
        isEmpty cfg g.store c from rfl]
      by_cases hct : c = g.store.gcWChunk.chunkOffset
      · simp [addFreeChunkList, hct, hemp, hc.target_lt, hc.target_new]
      · simp [addFreeChunkList, hct, hfree.mem_iff]
  | cons p ps =>
    obtain ⟨s', hrun, hf⟩ := hc.flush (S := S)
    have hne : g.store.gcWChunk.movedEntryList.isEmpty = false := by rw [hc.moved]; rfl
    refine ⟨s', by simp [gcFinish, hne, hrun], ⟨hc.coherent_flushed hf (by simp), hf.idle, ?_,
      h.preserved.trans (hc.preserved hf)⟩⟩
    exact hc.free_of_drained hf (List.mem_cons_self) (h.drained p List.mem_cons_self)

theorem gcVictims_between (before : ℤ) (h : Between cfg opened s₀ g ps rest) :
    ∃ s', gcVictims cfg S before rest g = some s' ∧ Collected cfg opened s₀ s' := by
  refine gcVictims_rule S before (fun g rest => ∃ ps, Between cfg opened s₀ g ps rest)
    (fun v i g rest => ∃ ps, Inside cfg opened s₀ v i g ps rest) _ ?_ ?_ ?_ ?_ ⟨ps, h⟩
  · rintro g v n rest ⟨ps, h⟩ hn
    exact ⟨ps, h.enter hn⟩
  · rintro v rest i hi g ⟨ps, h⟩
    refine (gcMoveEntry_inside before h hi).imp id ?_
    rintro ⟨g', ps', hrun, hin⟩
    exact ⟨g', hrun, ps', hin⟩
  · rintro g v rest ⟨ps, h⟩
    exact ⟨ps, h.leave _⟩
  · rintro g rest ⟨ps, h⟩
    exact gcFinish_between h

omit [DecidableEq A] in
theorem createUsedChunkList_unvisited (cfg : Config) (S : StdSort) (s : Store A) :
    Unvisited cfg s [] (createUsedChunkList cfg S s) := by
  have hperm := S.perm (byKey Prod.snd) (((List.range cfg.chunkNum).filter
    (fun c => 0 < entryCount cfg s c)).map (fun c => (c, entryCount cfg s c)))
  refine ⟨(hperm.map Prod.fst).nodup_iff.mpr ?_, fun x hx => ?_⟩
  · rw [List.map_map]
    simpa [Function.comp_def] using List.nodup_range.filter _
  · obtain ⟨c, hc, rfl⟩ := List.mem_map.mp (hperm.mem_iff.mp hx)
    simp only [List.mem_filter, List.mem_range, decide_eq_true_eq] at hc
    exact ⟨hc.1, rfl, hc.2, by simp⟩

end Victims

end Loop

/-! ## Two half-used chunks -/

def twoByFour : Config := ⟨2, 4, Nat.two_pos⟩

/-- Chunks 0 and 1 hold one entry each, chunks 2 and 3 are free. -/
def halfUsed : Store Bool where
  table a := if a then ⟨⟨0, 2⟩, 0⟩ else ⟨⟨0, 0⟩, 0⟩
  vsId := 0
  bitmap c e := decide (c < 2 ∧ e = 0)
  freeChunkList := [2, 3]
  disk c e := if e = 0 then
      if c = 0 then ⟨some false, 1, 10⟩ else if c = 1 then ⟨some true, 2, 20⟩ else zeroEntry
    else zeroEntry
  wChunk _ := ⟨false, 0, 0, fun _ => zeroEntry, []⟩
  gcWChunk := ⟨false, 0, 0, fun _ => zeroEntry, []⟩
  gcRBuffer _ := zeroEntry

theorem halfUsed_linked {a : Bool} {c e : ℕ} : LinkedAt twoByFour halfUsed a c e ↔
    e = 0 ∧ (c = 0 ∧ a = false ∨ c = 1 ∧ a = true) := by
  constructor
  · intro h
    have hn := h.names
    simp only [halfUsed] at hn
    split_ifs at hn with he h₀ h₁
    · exact ⟨he, Or.inl ⟨h₀, (Option.some.inj hn).symm⟩⟩
    · exact ⟨he, Or.inr ⟨h₁, (Option.some.inj hn).symm⟩⟩
    · cases hn
    · cases hn
  · rintro ⟨rfl, ⟨rfl, rfl⟩ | ⟨rfl, rfl⟩⟩
    · exact ⟨by decide, by decide, rfl, rfl⟩
    · exact ⟨by decide, by decide, rfl, rfl⟩

theorem halfUsed_coherent : Coherent twoByFour ∅ halfUsed := by
  refine ⟨fun c _ e _ => ?_, ?_, ⟨by decide, fun c => ?_⟩, by simp⟩
  · have hbit : halfUsed.bitmap c e = true ↔ c < 2 ∧ e = 0 := by simp [halfUsed]
    rw [hbit]
    constructor
    · rintro ⟨hc, he⟩
      have : c = 0 ∨ c = 1 := by omega
      rcases this with rfl | rfl
      · exact ⟨false, halfUsed_linked.mpr ⟨he, Or.inl ⟨rfl, rfl⟩⟩⟩
      · exact ⟨true, halfUsed_linked.mpr ⟨he, Or.inr ⟨rfl, rfl⟩⟩⟩
    · rintro ⟨a, hl⟩
      obtain ⟨he, ⟨rfl, -⟩ | ⟨rfl, -⟩⟩ := halfUsed_linked.mp hl
      · exact ⟨by decide, he⟩
      · exact ⟨by decide, he⟩
  · intro a c e a' c' e' h h' hkey
    obtain ⟨rfl, hc⟩ := halfUsed_linked.mp h
    obtain ⟨rfl, hc'⟩ := halfUsed_linked.mp h'
    rcases hc with ⟨rfl, -⟩ | ⟨rfl, -⟩ <;> rcases hc' with ⟨rfl, -⟩ |
      ⟨rfl, -⟩ <;> simp [halfUsed] at hkey ⊢
  · rw [isEmpty_iff]
    constructor
    · intro hc
      have : c = 2 ∨ c = 3 := by simpa [halfUsed] using hc
      rcases this with rfl | rfl <;> exact ⟨by decide, by decide, by simp⟩
    · rintro ⟨hc, hemp, -⟩
      have hbit : decide (c < 2 ∧ 0 = 0) = false := hemp 0 (by decide)
      have hlt : c < 4 := hc
      have hge : ¬ c < 2 := fun h => of_decide_eq_false hbit ⟨h, rfl⟩
      have : c = 2 ∨ c = 3 := by omega
      simpa [halfUsed] using this

/-! ## A complete collection -/

/-- A complete collection from a coherent store returns, and leaves a coherent store
in which every linked `at_entry` is linked to the same key and value and no other one
changed. -/
theorem garbageCollection_collected [DecidableEq A] (cfg : Config) (S : StdSort) (opened : Set ℕ) (s : Store A)
    (h : Coherent cfg opened s) (hidle : GcIdle s) (hfree : s.freeChunkList ≠ []) :
    ∃ s', garbageCollection cfg S s = some s' ∧ Collected cfg opened s s' := by
  have hsame : Collected cfg opened s s := ⟨h, hidle, hfree, .of_eq rfl rfl rfl⟩
  have hunv := createUsedChunkList_unvisited cfg S s
  rw [garbageCollection]
  split
  · rename_i c₁ n₁ c₂ n₂ rest hlist
    split
    · exact ⟨s, rfl, hsame⟩
    · obtain ⟨s₁, hinit, hnew, hbm, -, -, hpr⟩ := initGcWChunk_collecting h hidle hfree
      rw [hlist] at hunv
      have hstart : Between cfg opened s ⟨s₁, 0, usedChunkNumInt cfg s⟩ []
          ((c₁, n₁) :: (c₂, n₂) :: rest) :=
        ⟨hnew, rfl, cfg.entries_pos, hpr, by simp, hunv.1, fun x hx => by
          obtain ⟨h₁, h₂, h₃, h₄⟩ := hunv.2 x hx
          exact ⟨h₁, by simpa [entryCount, hbm] using h₂, h₃, h₄⟩⟩
      obtain ⟨s', hrun, hcol⟩ := gcVictims_between (S := S) (usedChunkNumInt cfg s) hstart
      exact ⟨s', by simp [hinit, hrun], hcol⟩
  · exact ⟨s, rfl, hsame⟩

/-- The two entries are gathered in chunk 2. -/
theorem garbageCollection_collected_halfUsed :
    ∃ s', garbageCollection twoByFour insertion halfUsed = some s' ∧
      Collected twoByFour ∅ halfUsed s' :=
  garbageCollection_collected twoByFour insertion ∅ halfUsed halfUsed_coherent ⟨rfl, rfl⟩ (by decide)

end Hkv.ValueStorage
