import Hkv.ChunkFlush

/-!
# What garbage collection leaves alone

Whatever a collection does, it touches no writer slot, and it changes an
address-table entry only from one slot of this store to another.
-/
namespace Hkv.ValueStorage
open MtsConfig TaggedPointer AddressTable KeyedSort

/-- `e'` is `e`, or `e` moved to another slot of store `vsId`. -/
def Relinked (vsId : ℕ) (e e' : AtEntry) : Prop :=
  e' = e ∨ (e.vsIdx.vsOffset ≠ newlyUpdatedVal ∧ e.vsIdx.vsOffset ≠ preValuestorageVal ∧
    e.vsIdx.vsId = vsId ∧ ∃ n : ℕ, e' = { e with vsIdx := ⟨vsId, n⟩ })

theorem Relinked.refl (vsId : ℕ) (e : AtEntry) : Relinked vsId e e := Or.inl rfl

theorem Relinked.trans {vsId : ℕ} {e₁ e₂ e₃ : AtEntry} (h : Relinked vsId e₁ e₂)
    (h' : Relinked vsId e₂ e₃) : Relinked vsId e₁ e₃ := by
  rcases h with rfl | ⟨hu, hp, hid, n, rfl⟩
  · exact h'
  · rcases h' with rfl | ⟨-, -, -, k, rfl⟩
    · exact Or.inr ⟨hu, hp, hid, n, rfl⟩
    · exact Or.inr ⟨hu, hp, hid, k, rfl⟩

theorem Relinked.valAddr {vsId : ℕ} {e e' : AtEntry} (h : Relinked vsId e e') : e'.valAddr = e.valAddr := by
  rcases h with rfl | ⟨-, -, -, n, rfl⟩ <;> rfl

theorem relinked_gcLinkAtEntry {cfg : Config} {vsId chunk entry : ℕ} {e e' : AtEntry}
    (h : gcLinkAtEntry cfg vsId chunk entry e = some e') : Relinked vsId e e' := by
  unfold gcLinkAtEntry at h
  split_ifs at h with hu hp hid
  cases h
  exact Or.inr ⟨hu, hp, not_not.mp hid, _, rfl⟩

theorem Relinked.eq_of_not_linked {vsId : ℕ} {e e' : AtEntry} (h : Relinked vsId e e') (hn : ¬ e'.Linked) :
    e' = e := by
  rcases h with h | ⟨-, -, -, n, rfl⟩
  · exact h
  · exact absurd ⟨by simp only; omega, by simp only; omega⟩ hn

theorem linkAtEntry_linked {cfg : Config} {vsId chunk entry : ℕ} {e e' : AtEntry}
    (h : linkAtEntry cfg vsId chunk entry e = some e') : e'.Linked := by
  unfold linkAtEntry at h
  split at h
  · cases h
  · cases h
    exact ⟨by simp only; omega, by simp only; omega⟩

variable {A : Type}

structure GcFrame (s s' : Store A) : Prop where
  wChunk : s'.wChunk = s.wChunk
  vsId : s'.vsId = s.vsId
  table : ∀ a, Relinked s.vsId (s.table a) (s'.table a)

theorem GcFrame.refl (s : Store A) : GcFrame s s := ⟨rfl, rfl, fun _ => Relinked.refl _ _⟩

theorem GcFrame.trans {s₁ s₂ s₃ : Store A} (h : GcFrame s₁ s₂) (h' : GcFrame s₂ s₃) :
    GcFrame s₁ s₃ :=
  ⟨h'.wChunk.trans h.wChunk, h'.vsId.trans h.vsId, fun a => (h.table a).trans (h.vsId ▸ h'.table a)⟩

theorem GcFrame.of_eq {s s' : Store A} (hw : s'.wChunk = s.wChunk) (hv : s'.vsId = s.vsId)
    (ht : s'.table = s.table) : GcFrame s s' :=
  ⟨hw, hv, fun a => Or.inl (congrFun ht a)⟩

variable (cfg : Config) (S : StdSort)

private theorem clearVsBitmapInfo_gcFrame (s : Store A) (chunk entry : ℕ) :
    GcFrame s (clearVsBitmapInfo cfg s chunk entry) := by
  unfold clearVsBitmapInfo
  split <;> exact .of_eq rfl rfl rfl

theorem unlinkToAt_gcFrame (s : Store A) (chunk entry : ℕ) :
    GcFrame s (unlinkToAt cfg s chunk entry) := by
  unfold unlinkToAt
  split
  · exact clearVsBitmapInfo_gcFrame cfg s chunk entry
  · exact .refl s

@[simp] theorem unlinkToAt_table (t : Store A) (chunk entry : ℕ) :
    (unlinkToAt cfg t chunk entry).table = t.table := by
  unfold unlinkToAt clearVsBitmapInfo
  split
  · split <;> rfl
  · rfl

theorem unlinkToAt_fields (s : Store A) (v j : ℕ) :
    (unlinkToAt cfg s v j).table = s.table ∧ (unlinkToAt cfg s v j).disk = s.disk ∧
      (unlinkToAt cfg s v j).vsId = s.vsId ∧ (unlinkToAt cfg s v j).gcWChunk = s.gcWChunk ∧
      (unlinkToAt cfg s v j).gcRBuffer = s.gcRBuffer := by
  unfold unlinkToAt clearVsBitmapInfo
  split
  · split <;> exact ⟨rfl, rfl, rfl, rfl, rfl⟩
  · exact ⟨rfl, rfl, rfl, rfl, rfl⟩

theorem getFreeChunkOffset_gcFrame {s s' : Store A} {c : ℕ}
    (h : getFreeChunkOffset cfg s = some (c, s')) : GcFrame s s' := by
  unfold getFreeChunkOffset at h
  split at h
  · cases h
  · split at h
    · cases h
      exact .of_eq rfl rfl rfl
    · cases h

theorem initGcWChunk_gcFrame {s s' : Store A} (h : initGcWChunk cfg s = some s') : GcFrame s s' := by
  simp only [initGcWChunk, Option.bind_eq_bind, Option.bind_eq_some_iff] at h
  obtain ⟨⟨c, s₁⟩, hf, hs'⟩ := h
  cases hs'
  exact (getFreeChunkOffset_gcFrame cfg hf).trans (.of_eq rfl rfl rfl)

variable [DecidableEq A]

theorem gcLinkOne_spec {cfg : Config} {t t' : Store A} {m : MovedEntry A} (h : gcLinkOne cfg t m = some t') :
    t'.wChunk = t.wChunk ∧ t'.disk = t.disk ∧ t'.gcWChunk = t.gcWChunk ∧ t'.gcRBuffer = t.gcRBuffer ∧
      (t'.table = t.table ∨ ∃ a, m.opType = .insert ∧ m.atEntry = some a ∧
        (t.table a).vsIdx.vsOffset ≠ newlyUpdatedVal ∧ (t.table a).vsIdx.vsOffset ≠ preValuestorageVal ∧
        (t.table a).vsIdx.vsId = t.vsId ∧ t'.table = Function.update t.table a
          { t.table a with vsIdx := ⟨t.vsId, cfg.slotOffset m.chunkOffset m.entryOffset⟩ }) := by
  unfold gcLinkOne at h
  split at h
  · rename_i hop
    cases hat : m.atEntry with
    | none => simp [hat, gcLinkToAt] at h
    | some a =>
      simp only [hat, gcLinkToAt, gcLinkAtEntry] at h
      split_ifs at h with hu hp hid
      · cases h
        exact ⟨rfl, rfl, rfl, rfl, .inl rfl⟩
      · cases h
        exact ⟨rfl, rfl, rfl, rfl, .inl rfl⟩
      · cases h
        exact ⟨rfl, rfl, rfl, rfl, .inl rfl⟩
      · cases h
        exact ⟨rfl, rfl, rfl, rfl, .inr ⟨a, hop, rfl, hu, hp, not_not.mp hid, rfl⟩⟩
  · cases h
    obtain ⟨ht, hd, -, hg, hr⟩ := unlinkToAt_fields cfg t m.chunkOffset m.entryOffset
    exact ⟨(unlinkToAt_gcFrame cfg t _ _).wChunk, hd, hg, hr, .inl ht⟩

private theorem gcLinkOne_gcFrame {s s' : Store A} {m : MovedEntry A}
    (h : gcLinkOne cfg s m = some s') : GcFrame s s' := by
  unfold gcLinkOne at h
  cases hop : m.opType with
  | remove =>
    rw [hop] at h
    cases h
    exact unlinkToAt_gcFrame cfg s _ _
  | insert =>
    rw [hop] at h
    cases hat : m.atEntry with
    | none => simp [hat, gcLinkToAt] at h
    | some a =>
      simp only [hat, gcLinkToAt] at h
      split at h
      · cases h
        exact .refl s
      · rename_i e he
        cases h
        refine ⟨rfl, rfl, fun b => ?_⟩
        by_cases hab : b = a
        · subst hab
          simpa [setVsBitmapInfo] using relinked_gcLinkAtEntry he
        · exact Or.inl (by simp [setVsBitmapInfo, hab])

private theorem gcLinkAll_gcFrame {s s' : Store A} {ms : List (MovedEntry A)}
    (h : gcLinkAll cfg s ms = some s') : GcFrame s s' := by
  induction ms generalizing s with
  | nil =>
    cases h
    exact .refl _
  | cons m ms ih =>
    simp only [gcLinkAll, Option.bind_eq_bind, Option.bind_eq_some_iff] at h
    obtain ⟨s₁, hm, hms⟩ := h
    exact (gcLinkOne_gcFrame cfg hm).trans (ih hms)

private theorem gcFlush_gcFrame {s s' : Store A} (h : gcFlush cfg S s = some s') : GcFrame s s' := by
  simp only [gcFlush, gcSyncWithAt, Option.bind_eq_bind, Option.bind_eq_some_iff] at h
  obtain ⟨s₁, hl, hs'⟩ := h
  cases hs'
  have hw : GcFrame s (writeGcWChunk cfg S s) := .of_eq rfl rfl rfl
  exact (hw.trans (gcLinkAll_gcFrame cfg hl)).trans (.of_eq rfl rfl rfl)

/-- The store a loop outcome carries. -/
def GcOutcome.store : GcOutcome A → Store A
  | .running g => g.store
  | .returned s => s

private theorem gcMoveEntry_gcFrame {before : ℤ} {victim i : ℕ} {g : GcState A} {o : GcOutcome A}
    (h : gcMoveEntry cfg S before victim i g = some o) : GcFrame g.store o.store := by
  have hcopy : GcFrame g.store (gcCopyEntry g.store victim g.wOffset i) := .of_eq rfl rfl rfl
  unfold gcMoveEntry at h
  split at h
  · split at h
    · simp only [Option.bind_eq_bind, Option.bind_eq_some_iff] at h
      obtain ⟨s₁, hf, h⟩ := h
      have hflush := hcopy.trans (gcFlush_gcFrame cfg S hf)
      split at h
      · cases h
        exact hflush
      · obtain ⟨s₂, hi, h⟩ := Option.bind_eq_some_iff.mp h
        cases h
        exact hflush.trans (initGcWChunk_gcFrame cfg hi)
    · cases h
      exact hcopy
  · cases h
    exact .refl _

private theorem gcMoveEntries_gcFrame {before : ℤ} {victim : ℕ} {is : List ℕ} {g : GcState A}
    {o : GcOutcome A} (h : gcMoveEntries cfg S before victim is g = some o) :
    GcFrame g.store o.store := by
  induction is generalizing g with
  | nil =>
    cases h
    exact .refl _
  | cons i is ih =>
    simp only [gcMoveEntries, Option.bind_eq_bind, Option.bind_eq_some_iff] at h
    obtain ⟨o₁, hm, h⟩ := h
    have h₁ := gcMoveEntry_gcFrame cfg S hm
    cases o₁ with
    | returned s =>
      cases h
      exact h₁
    | running g₁ => exact h₁.trans (ih h)

private theorem gcFinish_gcFrame {s s' : Store A} (h : gcFinish cfg S s = some s') : GcFrame s s' := by
  unfold gcFinish at h
  split at h
  · cases h
    exact .of_eq rfl rfl rfl
  · exact gcFlush_gcFrame cfg S h

private theorem gcVictims_gcFrame {before : ℤ} {used : List (ℕ × ℕ)} {g : GcState A} {s' : Store A}
    (h : gcVictims cfg S before used g = some s') : GcFrame g.store s' := by
  induction used generalizing g with
  | nil => exact gcFinish_gcFrame cfg S h
  | cons p rest ih =>
    simp only [gcVictims] at h
    split at h
    · exact gcFinish_gcFrame cfg S h
    · obtain ⟨o, hm, h⟩ := Option.bind_eq_some_iff.mp h
      have hread : GcFrame g.store (readGcRChunk g.store p.1) := .of_eq rfl rfl rfl
      have h₁ := hread.trans (gcMoveEntries_gcFrame cfg S hm)
      cases o with
      | returned s =>
        cases h
        exact h₁
      | running g₁ => exact h₁.trans (ih (g := { g₁ with usedChunkNum := g₁.usedChunkNum - 1 }) h)

theorem garbageCollection_gcFrame {s s' : Store A} (h : garbageCollection cfg S s = some s') :
    GcFrame s s' := by
  unfold garbageCollection at h
  split at h
  · split at h
    · cases h
      exact .refl s
    · obtain ⟨s₁, hi, h⟩ := Option.bind_eq_some_iff.mp h
      exact (initGcWChunk_gcFrame cfg hi).trans (gcVictims_gcFrame cfg S h)
  · cases h
    exact .refl s

theorem initWChunk_frame {s s' : Store A} {w : ℕ} (h : initWChunk cfg S s w = some s') :
    ∃ c, s'.wChunk = Function.update s.wChunk w
        { s.wChunk w with isInit := true, chunkOffset := c, entryOffset := 0 } ∧
      s'.vsId = s.vsId ∧ ∀ a, Relinked s.vsId (s.table a) (s'.table a) := by
  simp only [initWChunk, Option.bind_eq_bind, Option.bind_eq_some_iff] at h
  obtain ⟨s₁, hgc, ⟨c, s₂⟩, hfree, hs'⟩ := h
  have h₁ : GcFrame s s₁ := by
    unfold gcWhenNeeded at hgc
    split at hgc
    · exact garbageCollection_gcFrame cfg S hgc
    · cases hgc
      exact .refl s
  have h₂ := h₁.trans (getFreeChunkOffset_gcFrame cfg hfree)
  cases hs'
  refine ⟨c, ?_, h₂.vsId, h₂.table⟩
  simp only [setWChunk, h₂.wChunk]

/-! ## The branches of `put_vs_entry` -/

variable {cfg S} {s : Store A} {w : ℕ}

theorem putVsEntry_of_idle {s₁ : Store A} (hz : (s.wChunk w).entryOffset = 0)
    (hi : initWChunk cfg S s w = some s₁) (key val : ℕ) (a : A) :
    putVsEntry cfg S s w key val a = some (appendEntry s₁ w key val a) := by
  obtain ⟨c, hw, -, -⟩ := initWChunk_frame cfg S hi
  have hroom : (s₁.wChunk w).entryOffset < cfg.entriesPerChunk := by
    rw [hw, Function.update_self]
    exact cfg.entries_pos
  simp [putVsEntry, initWhenIdle, hz, hi, putOpen, hroom]

theorem putVsEntry_of_room (hz : (s.wChunk w).entryOffset ≠ 0)
    (hlt : (s.wChunk w).entryOffset < cfg.entriesPerChunk) (key val : ℕ) (a : A) :
    putVsEntry cfg S s w key val a = some (appendEntry s w key val a) := by
  simp [putVsEntry, initWhenIdle, hz, putOpen, hlt]

theorem putVsEntry_of_full (hfull : (s.wChunk w).entryOffset = cfg.entriesPerChunk)
    (key val : ℕ) (a : A) :
    putVsEntry cfg S s w key val a =
      (flush cfg S s w).bind fun s₁ => (initWChunk cfg S s₁ w).map (appendEntry · w key val a) := by
  have hz : cfg.entriesPerChunk ≠ 0 := cfg.entries_pos.ne'
  simp only [putVsEntry, initWhenIdle, hfull, if_neg hz, Option.bind_eq_bind, Option.bind_some, putOpen,
    lt_irrefl, if_false, if_true, Option.map_eq_bind]
  rfl

end Hkv.ValueStorage
