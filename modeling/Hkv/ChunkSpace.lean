import Hkv.GcFrame

/-!
# Coherent stores

A store is coherent when its bitmap marks exactly the slots that an address-table
entry points at, and its free list holds exactly the empty chunks that nobody has
open for writing.
-/
namespace Hkv.ValueStorage
open MtsConfig TaggedPointer AddressTable KeyedSort

variable {A : Type}

/-- Slot `(c, e)` names `a`, and `a` points at it. -/
structure LinkedAt (cfg : Config) (s : Store A) (a : A) (c e : ℕ) : Prop where
  chunk : c < cfg.chunkNum
  entry : e < cfg.entriesPerChunk
  names : (s.disk c e).atEntry = some a
  idx : (s.table a).vsIdx = ⟨s.vsId, cfg.slotOffset c e⟩

/-- The free list, with `opened` the chunks that are open for writing. -/
structure FreeOk (cfg : Config) (opened : Set ℕ) (s : Store A) : Prop where
  nodup : s.freeChunkList.Nodup
  mem_iff : ∀ c, c ∈ s.freeChunkList ↔ c < cfg.chunkNum ∧ isEmpty cfg s c = true ∧ c ∉ opened

structure Coherent (cfg : Config) (opened : Set ℕ) (s : Store A) : Prop where
  bit : ∀ c < cfg.chunkNum, ∀ e < cfg.entriesPerChunk,
    (s.bitmap c e = true ↔ ∃ a, LinkedAt cfg s a c e)
  keys : ∀ a c e a' c' e', LinkedAt cfg s a c e → LinkedAt cfg s a' c' e' →
    (s.disk c e).key = (s.disk c' e').key → c = c' ∧ e = e'
  free : FreeOk cfg opened s
  opened_empty : ∀ c ∈ opened, isEmpty cfg s c = true

/-- Every linked `at_entry` is linked in `s'` to a slot with the same content, and no
other one changed. -/
structure Preserved (cfg : Config) (s s' : Store A) : Prop where
  vsId : s'.vsId = s.vsId
  linked : ∀ a c e, LinkedAt cfg s a c e →
    ∃ c' e', LinkedAt cfg s' a c' e' ∧ s'.disk c' e' = s.disk c e
  back : ∀ a c' e', LinkedAt cfg s' a c' e' → ∃ c e, LinkedAt cfg s a c e
  other : ∀ a, (∀ c e, ¬ LinkedAt cfg s a c e) → s'.table a = s.table a

variable {cfg : Config} {S : StdSort} {s s' : Store A} {opened : Set ℕ}

theorem LinkedAt.unique {a : A} {c e c' e' : ℕ} (h : LinkedAt cfg s a c e)
    (h' : LinkedAt cfg s a c' e') : c = c' ∧ e = e' := by
  have hoff := congrArg VsIdx.vsOffset (h.idx.symm.trans h'.idx)
  exact cfg.slotOffset_inj h.entry h'.entry (Int.ofNat.inj hoff)

theorem linkedAt_congr (cfg : Config) (ht : s'.table = s.table) (hd : s'.disk = s.disk) (hv : s'.vsId = s.vsId)
    (a : A) (c e : ℕ) : LinkedAt cfg s' a c e ↔ LinkedAt cfg s a c e := by
  constructor <;> rintro ⟨h₁, h₂, h₃, h₄⟩ <;>
    exact ⟨h₁, h₂, by simpa [hd] using h₃, by simpa [ht, hv] using h₄⟩

theorem Preserved.of_eq (ht : s'.table = s.table) (hd : s'.disk = s.disk) (hv : s'.vsId = s.vsId) :
    Preserved cfg s s' := by
  have hiff := linkedAt_congr cfg ht hd hv
  exact ⟨hv, fun a c e h => ⟨c, e, (hiff a c e).mpr h, by rw [hd]⟩,
    fun a c e h => ⟨c, e, (hiff a c e).mp h⟩, fun a _ => by rw [ht]⟩

theorem Preserved.trans {s₁ s₂ s₃ : Store A} (h : Preserved cfg s₁ s₂) (h' : Preserved cfg s₂ s₃) :
    Preserved cfg s₁ s₃ := by
  refine ⟨h'.vsId.trans h.vsId, ?_, ?_, ?_⟩
  · intro a c e hl
    obtain ⟨c₂, e₂, hl₂, hd₂⟩ := h.linked a c e hl
    obtain ⟨c₃, e₃, hl₃, hd₃⟩ := h'.linked a c₂ e₂ hl₂
    exact ⟨c₃, e₃, hl₃, hd₃.trans hd₂⟩
  · intro a c₃ e₃ hl
    obtain ⟨c₂, e₂, hl₂⟩ := h'.back a c₃ e₃ hl
    exact h.back a c₂ e₂ hl₂
  · intro a hno
    have hno₂ : ∀ c e, ¬ LinkedAt cfg s₂ a c e := fun c e hl => by
      obtain ⟨c₁, e₁, hl₁⟩ := h.back a c e hl
      exact hno c₁ e₁ hl₁
    exact (h'.other a hno₂).trans (h.other a hno)

theorem isEmpty_iff {c : ℕ} :
    isEmpty cfg s c = true ↔ ∀ e < cfg.entriesPerChunk, s.bitmap c e = false := by
  simp [isEmpty, entryCount, List.filter_eq_nil_iff]

theorem isEmpty_congr {c : ℕ} (h : s'.bitmap c = s.bitmap c) : isEmpty cfg s' c = isEmpty cfg s c := by
  simp [isEmpty, entryCount, h]

theorem Coherent.of_eq {opened' : Set ℕ} (h : Coherent cfg opened s) (ht : s'.table = s.table)
    (hd : s'.disk = s.disk) (hv : s'.vsId = s.vsId) (hb : s'.bitmap = s.bitmap)
    (hf : FreeOk cfg opened' s') (ho : ∀ c ∈ opened', isEmpty cfg s c = true) :
    Coherent cfg opened' s' := by
  have hiff := linkedAt_congr cfg ht hd hv
  refine ⟨fun c hc e he => ?_, fun a c e a' c' e' h₁ h₂ => ?_, hf, fun c hc => ?_⟩
  · simp only [hb, hiff]
    exact h.bit c hc e he
  · rw [hd]
    exact h.keys a c e a' c' e' ((hiff _ _ _).mp h₁) ((hiff _ _ _).mp h₂)
  · rw [isEmpty_congr (congrFun hb c)]
    exact ho c hc

/-! ## The free list under the two bit operations -/

theorem linkToAt_space [DecidableEq A] {t t' : Store A} {c e : ℕ} {o : Option A}
    (h : linkToAt cfg t c e o = some t') :
    t'.freeChunkList = t.freeChunkList ∧ (t'.bitmap = t.bitmap ∨ t'.bitmap = (setVsBitmapInfo t c e).bitmap) := by
  cases o with
  | none => cases h
  | some a =>
    simp only [linkToAt] at h
    split at h
    · cases h
      exact ⟨rfl, .inl rfl⟩
    · cases h
      exact ⟨rfl, .inr rfl⟩

theorem gcLinkToAt_space [DecidableEq A] {t t' : Store A} {c e : ℕ} {o : Option A}
    (h : gcLinkToAt cfg t c e o = some t') :
    t'.freeChunkList = t.freeChunkList ∧ (t'.bitmap = t.bitmap ∨ t'.bitmap = (setVsBitmapInfo t c e).bitmap) := by
  cases o with
  | none => cases h
  | some a =>
    simp only [gcLinkToAt] at h
    split at h
    · cases h
      exact ⟨rfl, .inl rfl⟩
    · cases h
      exact ⟨rfl, .inr rfl⟩

theorem setVsBitmapInfo_bit {t : Store A} {c e d i : ℕ} (h : (setVsBitmapInfo t c e).bitmap d i = true) :
    d = c ∧ i = e ∨ t.bitmap d i = true := by
  by_cases hd : d = c
  · subst hd
    by_cases hi : i = e
    · exact .inl ⟨rfl, hi⟩
    · exact .inr (by simpa [setVsBitmapInfo, hi] using h)
  · exact .inr (by simpa [setVsBitmapInfo, hd] using h)

theorem FreeOk.setBit (h : FreeOk cfg opened s) {t : ℕ} (ht : t ∈ opened) (e : ℕ) :
    FreeOk cfg opened (setVsBitmapInfo s t e) := by
  refine ⟨h.nodup, fun c => ?_⟩
  rw [show (setVsBitmapInfo s t e).freeChunkList = s.freeChunkList from rfl, h.mem_iff]
  by_cases hc : c = t
  · simp [hc, ht]
  · have hbit : (setVsBitmapInfo s t e).bitmap c = s.bitmap c := by simp [setVsBitmapInfo, hc]
    rw [isEmpty_congr hbit]

theorem resetBit_bitmap_of_ne {c v e : ℕ} (h : c ≠ v) : (resetBit s v e).bitmap c = s.bitmap c := by
  simp [resetBit, h]

theorem unlinkToAt_bitmap (v j c e : ℕ) :
    (unlinkToAt cfg s v j).bitmap c e = (s.bitmap c e && !decide (c = v ∧ e = j)) := by
  have hreset : (resetBit s v j).bitmap c e = (s.bitmap c e && !decide (c = v ∧ e = j)) := by
    by_cases hc : c = v
    · subst hc
      by_cases he : e = j <;> simp [resetBit, he]
    · simp [resetBit, hc]
  unfold unlinkToAt clearVsBitmapInfo
  split
  · split
    · exact hreset
    · exact hreset
  · rename_i hbit
    by_cases hce : c = v ∧ e = j
    · simpa [hce.1, hce.2] using hbit
    · simp [hce]

theorem unlinkToAt_listed {t : Store A} {c e d : ℕ} (hd : d ∈ (unlinkToAt cfg t c e).freeChunkList) :
    d ∈ t.freeChunkList ∨ d = c ∧ t.bitmap c e = true := by
  unfold unlinkToAt clearVsBitmapInfo at hd
  split at hd
  · split at hd
    · rcases List.mem_append.mp hd with hd | hd
      · exact .inl hd
      · exact .inr ⟨List.mem_singleton.mp hd, ‹_›⟩
    · exact .inl hd
  · exact .inl hd

theorem isEmpty_unlinkToAt {t : Store A} {c e d : ℕ} (h : isEmpty cfg t d = true) :
    isEmpty cfg (unlinkToAt cfg t c e) d = true := by
  rw [isEmpty_iff] at h ⊢
  intro i hi
  rw [unlinkToAt_bitmap, h i hi]
  rfl

theorem FreeOk.unlink (h : FreeOk cfg opened s) {v : ℕ} (j : ℕ) (hv : v < cfg.chunkNum)
    (hj : j < cfg.entriesPerChunk) (hopen : v ∉ opened) : FreeOk cfg opened (unlinkToAt cfg s v j) := by
  unfold unlinkToAt
  split
  case isFalse => exact h
  case isTrue hbit =>
    have hnot : v ∉ s.freeChunkList := fun hmem => by
      have := isEmpty_iff.mp ((h.mem_iff v).mp hmem).2.1 j hj
      simp [hbit] at this
    have hother : ∀ c, c ≠ v → isEmpty cfg (resetBit s v j) c = isEmpty cfg s c :=
      fun c hc => isEmpty_congr (resetBit_bitmap_of_ne hc)
    unfold clearVsBitmapInfo
    split
    case isTrue hzero =>
      refine ⟨?_, fun c => ?_⟩
      · exact List.nodup_append.mpr ⟨h.nodup, by simp, by
          intro a ha b hb hab
          rw [List.mem_singleton.mp hb] at hab
          exact hnot (hab ▸ ha)⟩
      · have hemp : isEmpty cfg (addFreeChunkList (resetBit s v j) v) c =
            isEmpty cfg (resetBit s v j) c := isEmpty_congr rfl
        rw [hemp]
        by_cases hc : c = v
        · subst hc
          simp [addFreeChunkList, isEmpty, hzero, hv, hopen]
        · simp [addFreeChunkList, resetBit, hc, h.mem_iff, ← hother c hc]
    case isFalse hpos =>
      refine ⟨h.nodup, fun c => ?_⟩
      rw [show (resetBit s v j).freeChunkList = s.freeChunkList from rfl]
      by_cases hc : c = v
      · subst hc
        simp [hnot, isEmpty, hpos]
      · rw [h.mem_iff, hother c hc]

/-- `get_free_chunk_offset` takes the first chunk of the list, which is then open. -/
theorem FreeOk.take (h : FreeOk cfg opened s) (hne : s.freeChunkList ≠ []) :
    ∃ t cs, s.freeChunkList = t :: cs ∧ t < cfg.chunkNum ∧ isEmpty cfg s t = true ∧ t ∉ opened ∧
      getFreeChunkOffset cfg s = some (t, { s with freeChunkList := cs }) ∧
      FreeOk cfg (insert t opened) { s with freeChunkList := cs } := by
  obtain ⟨t, cs, hl⟩ := List.exists_cons_of_ne_nil hne
  obtain ⟨hlt, hemp, hopen⟩ := (h.mem_iff t).mp (by simp [hl])
  have hnd := h.nodup
  rw [hl, List.nodup_cons] at hnd
  refine ⟨t, cs, hl, hlt, hemp, hopen, by simp [getFreeChunkOffset, hl, dropUsed, hemp, hlt], hnd.2, ?_⟩
  intro c
  rw [show isEmpty cfg { s with freeChunkList := cs } c = isEmpty cfg s c from rfl]
  have hmem := h.mem_iff c
  rw [hl, List.mem_cons] at hmem
  constructor
  · intro hc
    obtain ⟨h₁, h₂, h₃⟩ := hmem.mp (Or.inr hc)
    refine ⟨h₁, h₂, fun ho => ?_⟩
    rcases ho with rfl | ho
    · exact hnd.1 hc
    · exact h₃ ho
  · rintro ⟨h₁, h₂, h₃⟩
    rcases hmem.mpr ⟨h₁, h₂, fun ho => h₃ (Or.inr ho)⟩ with rfl | hc
    · exact absurd (Or.inl rfl) h₃
    · exact hc

end Hkv.ValueStorage
