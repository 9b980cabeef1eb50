import Hkv.ChunkSpace
import Hkv.ResourcePool
import Hkv.StepFrame

/-!
# The chunks of a value storage as a pool

A chunk is held by the writer slot that fills it, from the put that opens it to the end
of its sync, or by the collector. Every step of the system is one operation on the pools.
-/
namespace Hkv.Prism
open MtsConfig TaggedPointer AddressTable KeyedSort ValueStorage StepRun ResourcePool

variable {A : Type}

/-- Who can have a chunk of a store open. -/
inductive Holder where
  | writer (w : ℕ)
  | collector
  deriving DecidableEq

namespace System

/-- The chunk that a holder has open in store `v`. -/
def opens (s : System A) (v : ℕ) : Holder → Option ℕ
  | .writer w =>
    if ((s.stores v).wChunk w).entryOffset = 0 then none else some ((s.stores v).wChunk w).chunkOffset
  | .collector => if (s.gc v).pc.isIdle then none else some (s.stores v).gcWChunk.chunkOffset

def pool (cfg : Config) (s : System A) (v : ℕ) : Pool Holder ℕ where
  free := (s.stores v).freeChunkList
  used c := !isEmpty cfg (s.stores v) c
  held := s.opens v

@[simp] theorem pool_free (cfg : Config) (s : System A) (v : ℕ) :
    (s.pool cfg v).free = (s.stores v).freeChunkList := rfl
@[simp] theorem pool_held (cfg : Config) (s : System A) (v : ℕ) : (s.pool cfg v).held = s.opens v := rfl
theorem pool_used (cfg : Config) (s : System A) (v c : ℕ) :
    (s.pool cfg v).used c = !isEmpty cfg (s.stores v) c := rfl

/-- The records that the collector of `v` has gathered or not yet done. -/
def gcPending (s : System A) (v : ℕ) : List (MovedEntry A) :=
  match (s.gc v).pc with
  | .sync moved _ => moved
  | _ => (s.stores v).gcWChunk.movedEntryList

end System

/-- The chunk numbers of a store. -/
def chunks (cfg : Config) : Set ℕ := { c | c < cfg.chunkNum }

/-- What the collector of `v` knows about its chunk. -/
def GcTidy (cfg : Config) (s : System A) (v : ℕ) : GcPc A → Prop
  | .idle => (s.stores v).gcWChunk.movedEntryList = []
  | .victims _ | .entries _ =>
    (s.gc v).wOffset < cfg.entriesPerChunk ∧ isEmpty cfg (s.stores v) (s.stores v).gcWChunk.chunkOffset = true
  | .write _ | .sync .. => True

/-- Records name slots of the chunk they were made for, and nothing lies outside of the
store. -/
structure TidyAt (cfg : Config) (s : System A) (v : ℕ) : Prop where
  writers : ∀ w, ∀ m ∈ s.pending v w, ((s.stores v).wChunk w).entryOffset ≠ 0 ∧
    m.chunkOffset = ((s.stores v).wChunk w).chunkOffset ∧ m.entryOffset < cfg.entriesPerChunk
  opened : ∀ o c, s.opens v o = some c → c < cfg.chunkNum
  bits : ∀ c e, (s.stores v).bitmap c e = true → c < cfg.chunkNum ∧ e < cfg.entriesPerChunk
  listed : ∀ c ∈ (s.stores v).freeChunkList, c < cfg.chunkNum
  records : ∀ m ∈ s.gcPending v, m.opType = .insert →
    m.chunkOffset = (s.stores v).gcWChunk.chunkOffset ∧ m.entryOffset < cfg.entriesPerChunk
  phase : GcTidy cfg s v (s.gc v).pc

def Tidy (cfg : Config) (s : System A) : Prop := ∀ v, TidyAt cfg s v

/-- A chunk is listed at most once and open in at most one place, and not both. -/
def Exclusive (cfg : Config) (s : System A) : Prop := ∀ v, (s.pool cfg v).Exclusive (chunks cfg)

/-- Every empty chunk is listed or open. -/
def NoneLost (cfg : Config) (s : System A) : Prop := ∀ v, (s.pool cfg v).NoneLost (chunks cfg)

/-- `(c, e)` is the only valid slot of chunk `c`. -/
def LastBit (cfg : Config) (t : Store A) (c e : ℕ) : Prop :=
  t.bitmap c e = true ∧ ∀ e' < cfg.entriesPerChunk, e' ≠ e → t.bitmap c e' = false

instance (cfg : Config) (t : Store A) (c e : ℕ) : Decidable (LastBit cfg t c e) :=
  inferInstanceAs (Decidable (_ ∧ _))

variable {cfg : Config} {S : StdSort} {s s' : System A} {l : LogId} {a : A} {v : ℕ}

/-! ## Stores that a step leaves alone -/

/-- A step that works on store `v` only. -/
def Elsewhere (s s' : System A) (v : ℕ) : Prop :=
  ∀ u, u ≠ v → s'.stores u = s.stores u ∧ s'.sync u = s.sync u ∧ s'.gc u = s.gc u

theorem pool_of_same {u : ℕ} (hst : s'.stores u = s.stores u) (hgc : s'.gc u = s.gc u) :
    s'.pool cfg u = s.pool cfg u := by
  have hopens : s'.opens u = s.opens u := by
    funext o
    cases o <;> simp only [System.opens, hst, hgc]
  rw [System.pool, System.pool, hst, hopens]

theorem gcPending_congr (hm : (s'.stores v).gcWChunk.movedEntryList = (s.stores v).gcWChunk.movedEntryList)
    (hpc : (s'.gc v).pc = (s.gc v).pc) : s'.gcPending v = s.gcPending v := by
  simp only [System.gcPending, hm, hpc]

theorem gcTidy_of_same {u : ℕ} (hst : s'.stores u = s.stores u) (hgc : s'.gc u = s.gc u) (pc : GcPc A) :
    GcTidy cfg s' u pc ↔ GcTidy cfg s u pc := by
  cases pc <;> simp only [GcTidy, hst, hgc]

theorem TidyAt.of_same {u : ℕ} (h : TidyAt cfg s u) (hst : s'.stores u = s.stores u) (hsync : s'.sync u = s.sync u)
    (hgc : s'.gc u = s.gc u) : TidyAt cfg s' u := by
  have hpend : ∀ w, s'.pending u w = s.pending u w := fun w =>
    System.pending_congr (congrFun hsync w) (by rw [hst])
  have hopens : s'.opens u = s.opens u := congrArg Pool.held (pool_of_same hst hgc : s'.pool cfg u = s.pool cfg u)
  have hgcp : s'.gcPending u = s.gcPending u := gcPending_congr (by rw [hst]) (by rw [hgc])
  refine ⟨fun w m hm => ?_, fun o c hc => ?_, ?_, ?_, fun m hm => ?_, ?_⟩
  · rw [hst]
    exact h.writers w m (hpend w ▸ hm)
  · exact h.opened o c (hopens ▸ hc)
  · rw [hst]
    exact h.bits
  · rw [hst]
    exact h.listed
  · rw [hst]
    exact h.records m (hgcp ▸ hm)
  · rw [gcTidy_of_same hst hgc, hgc]
    exact h.phase

theorem Tidy.of_elsewhere (h : Tidy cfg s) (he : Elsewhere s s' v) (hv : TidyAt cfg s' v) : Tidy cfg s' := fun u => by
  by_cases hu : u = v
  · rwa [hu]
  · obtain ⟨hst, hsync, hgc⟩ := he u hu
    exact (h u).of_same hst hsync hgc

/-! ## Operations on a pool -/

theorem opens_congr (hw : ∀ w, ((s'.stores v).wChunk w).entryOffset = ((s.stores v).wChunk w).entryOffset ∧
      ((s'.stores v).wChunk w).chunkOffset = ((s.stores v).wChunk w).chunkOffset)
    (hg : (s'.stores v).gcWChunk.chunkOffset = (s.stores v).gcWChunk.chunkOffset)
    (hi : (s'.gc v).pc.isIdle = (s.gc v).pc.isIdle) : s'.opens v = s.opens v := by
  funext o
  cases o with
  | writer w => rw [System.opens, System.opens, (hw w).1, (hw w).2]
  | collector => rw [System.opens, System.opens, hg, hi]

theorem used_iff {c : ℕ} : (s.pool cfg v).used c = true ↔ ∃ e < cfg.entriesPerChunk,
    (s.stores v).bitmap c e = true := by
  rw [System.pool_used, Bool.not_eq_true', ← Bool.not_eq_true, ValueStorage.isEmpty_iff]
  simp

theorem used_congr (h : (s'.stores v).bitmap = (s.stores v).bitmap) : (s'.pool cfg v).used = (s.pool cfg v).used := by
  funext c
  rw [System.pool_used, System.pool_used, isEmpty_congr (congrFun h c)]

theorem pool_congr (hf : (s'.stores v).freeChunkList = (s.stores v).freeChunkList)
    (hb : (s'.stores v).bitmap = (s.stores v).bitmap) (ho : s'.opens v = s.opens v) :
    s'.pool cfg v = s.pool cfg v :=
  Pool.ext hf (used_congr hb) ho

theorem lastBit_iff {t : Store A} {c e : ℕ} (hbit : t.bitmap c e = true) :
    entryCount cfg (resetBit t c e) c = 0 ↔ LastBit cfg t c e := by
  have hreset : ∀ e', (resetBit t c e).bitmap c e' = false ↔ e' ≠ e → t.bitmap c e' = false := by
    intro e'
    by_cases he : e' = e <;> simp [resetBit, he]
  rw [← beq_iff_eq]
  change isEmpty cfg (resetBit t c e) c = true ↔ _
  simp only [ValueStorage.isEmpty_iff, hreset, LastBit, hbit, true_and]

theorem pool_unlink {c e : ℕ} (h : TidyAt cfg s v)
    (hf : (s'.stores v).freeChunkList = (unlinkToAt cfg (s.store v) c e).freeChunkList)
    (hb : (s'.stores v).bitmap = (unlinkToAt cfg (s.store v) c e).bitmap) (ho : s'.opens v = s.opens v) :
    s'.pool cfg v = if LastBit cfg (s.stores v) c e then (s.pool cfg v).drain c else s.pool cfg v := by
  by_cases hbit : (s.store v).bitmap c e = true
  case neg =>
    rw [unlinkToAt, if_neg hbit] at hf hb
    rw [if_neg fun hl => hbit hl.1]
    exact pool_congr hf hb ho
  case pos =>
    have he : e < cfg.entriesPerChunk := (h.bits c e hbit).2
    have hlast : entryCount cfg (resetBit (s.store v) c e) c = 0 ↔ LastBit cfg (s.store v) c e := lastBit_iff hbit
    rw [unlinkToAt, if_pos hbit, clearVsBitmapInfo] at hf hb
    have hother : ∀ d, d ≠ c → (s'.pool cfg v).used d = (s.pool cfg v).used d := by
      intro d hd
      have hrow : (s'.stores v).bitmap d = (s.stores v).bitmap d := by
        rw [hb]
        split <;> exact resetBit_bitmap_of_ne hd
      rw [System.pool_used, System.pool_used, isEmpty_congr hrow]
    have hrow : (s'.stores v).bitmap c = (resetBit (s.store v) c e).bitmap c := by
      rw [hb]
      split <;> rfl
    split
    case isTrue hl =>
      rw [if_pos (hlast.mpr hl)] at hf
      refine Pool.ext hf ?_ ho
      funext d
      by_cases hd : d = c
      · subst hd
        have hempty : isEmpty cfg (s'.stores v) d = true := by
          rw [isEmpty_congr hrow, isEmpty, hlast.mpr hl]
          rfl
        rw [Pool.drain_used_self, System.pool_used, hempty]
        rfl
      · exact (hother d hd).trans (Pool.drain_used_of_ne _ hd).symm
    case isFalse hl =>
      rw [if_neg fun hz => hl (hlast.mp hz)] at hf
      refine Pool.ext hf ?_ ho
      funext d
      by_cases hd : d = c
      · subst hd
        have hpos : isEmpty cfg (s'.stores v) d = false := by
          rw [isEmpty_congr hrow, isEmpty, beq_eq_false_iff_ne]
          exact fun hz => hl (hlast.mp hz)
        have hbefore : (s.pool cfg v).used d = true := used_iff.mpr ⟨e, he, hbit⟩
        rw [hbefore, System.pool_used, hpos]
        rfl
      · exact hother d hd

theorem pool_setBit {c e : ℕ} (he : e < cfg.entriesPerChunk)
    (hf : (s'.stores v).freeChunkList = (s.stores v).freeChunkList)
    (hb : (s'.stores v).bitmap = (setVsBitmapInfo (s.store v) c e).bitmap) (ho : s'.opens v = s.opens v) :
    s'.pool cfg v = (s.pool cfg v).fill c := by
  refine Pool.ext hf ?_ ho
  funext d
  by_cases hd : d = c
  · subst hd
    have hused : (s'.pool cfg v).used d = true := used_iff.mpr ⟨e, he, by simp [hb, setVsBitmapInfo]⟩
    rw [hused, Pool.fill_used_self]
  · have hrow : (s'.stores v).bitmap d = (s.stores v).bitmap d := by simp [hb, setVsBitmapInfo, hd]
    rw [Pool.fill_used_of_ne _ hd, System.pool_used, System.pool_used, isEmpty_congr hrow]

theorem dropUsed_of_forall {t : Store A} {cs : List ℕ} (h : ∀ c ∈ cs, isEmpty cfg t c = true) :
    dropUsed cfg t cs = cs := by
  cases cs with
  | nil => rfl
  | cons c cs => rw [dropUsed, if_pos (h c List.mem_cons_self)]

theorem getFreeChunkOffset_exclusive {c : ℕ} {t : Store A} (h : TidyAt cfg s v)
    (he : (s.pool cfg v).Exclusive (chunks cfg)) (hs : getFreeChunkOffset cfg (s.store v) = some (c, t)) : ∃ rest,
    (s.pool cfg v).free = c :: rest ∧ c ∈ chunks cfg ∧
      isEmpty cfg (s.stores v) c = true ∧ t = { s.store v with freeChunkList := rest } := by
  have hempty : ∀ d ∈ (s.store v).freeChunkList, isEmpty cfg (s.store v) d = true := by
    intro d hd
    have hused := ((he d (h.listed d hd)).listed hd).1
    rw [System.pool_used, Bool.not_eq_false'] at hused
    exact hused
  rw [getFreeChunkOffset, dropUsed_of_forall hempty] at hs
  split at hs
  · cases hs
  · rename_i d rest hlist
    split at hs
    · cases hs
      exact ⟨rest, hlist, ‹_›, hempty c (by simp [hlist]), rfl⟩
    · cases hs

/-! ## Steps -/

theorem elsewhere_setStore (s : System A) (v : ℕ) (t : Store A) : Elsewhere s (s.setStore v t) v :=
  fun u hu => ⟨by simp [System.setStore, hu], rfl, rfl⟩

theorem Elsewhere.setSync (h : Elsewhere s s' v) (w : ℕ) (moved : Option (List (MovedEntry A))) :
    Elsewhere s (s'.setSync v w moved) v := fun u hu =>
  ⟨(h u hu).1, by simpa [System.setSync, hu] using (h u hu).2.1, (h u hu).2.2⟩

theorem Elsewhere.setGc (h : Elsewhere s s' v) (g : GcThread A) : Elsewhere s (s'.setGc v g) v := fun u hu =>
  ⟨(h u hu).1, (h u hu).2.1, by simpa [System.setGc, hu] using (h u hu).2.2⟩

theorem elsewhere_refl (s : System A) (v : ℕ) : Elsewhere s s v := fun _ _ => ⟨rfl, rfl, rfl⟩

theorem opens_writer {w : ℕ} (h : ((s.stores v).wChunk w).entryOffset ≠ 0) :
    s.opens v (.writer w) = some ((s.stores v).wChunk w).chunkOffset := by
  rw [System.opens, if_neg h]

theorem opens_collector (h : (s.gc v).pc.isIdle = false) :
    s.opens v .collector = some (s.stores v).gcWChunk.chunkOffset := by
  rw [System.opens, h]
  rfl

theorem writer_ne_collector (h : TidyAt cfg s v) (he : (s.pool cfg v).Exclusive (chunks cfg)) {w c : ℕ}
    (hw : s.opens v (.writer w) = some c) (hgc : (s.gc v).pc.isIdle = false) :
    c ≠ (s.stores v).gcWChunk.chunkOffset := by
  intro hc
  have hcoll : (s.pool cfg v).held .collector = some c := hc ▸ opens_collector hgc
  cases (he c (h.opened _ c hw)).only (.writer w) _ hw hcoll

theorem GcTidy.mono {pc : GcPc A} (h : GcTidy cfg s v pc) (hg : (s'.stores v).gcWChunk = (s.stores v).gcWChunk)
    (ho : (s'.gc v).wOffset = (s.gc v).wOffset)
    (he : pc.isIdle = false → isEmpty cfg (s.stores v) (s.stores v).gcWChunk.chunkOffset = true →
      isEmpty cfg (s'.stores v) (s.stores v).gcWChunk.chunkOffset = true) : GcTidy cfg s' v pc := by
  cases pc with
  | idle => exact (congrArg WChunk.movedEntryList hg).trans h
  | victims _ => exact ⟨ho ▸ h.1, hg ▸ he rfl h.2⟩
  | entries _ => exact ⟨ho ▸ h.1, hg ▸ he rfl h.2⟩
  | write _ => trivial
  | sync _ _ => trivial

theorem TidyAt.of_frame (h : TidyAt cfg s v) (hpend : ∀ w, ∀ m ∈ s'.pending v w, m ∈ s.pending v w)
    (hw : (s'.stores v).wChunk = (s.stores v).wChunk) (hg : (s'.stores v).gcWChunk = (s.stores v).gcWChunk)
    (hgc : s'.gc v = s.gc v)
    (hbits : ∀ c e, (s'.stores v).bitmap c e = true → c < cfg.chunkNum ∧ e < cfg.entriesPerChunk)
    (hlist : ∀ c ∈ (s'.stores v).freeChunkList, c < cfg.chunkNum)
    (he : (s.gc v).pc.isIdle = false → isEmpty cfg (s.stores v) (s.stores v).gcWChunk.chunkOffset = true →
      isEmpty cfg (s'.stores v) (s.stores v).gcWChunk.chunkOffset = true) : TidyAt cfg s' v := by
  have hopens : s'.opens v = s.opens v :=
    opens_congr (fun w => by rw [hw]; exact ⟨rfl, rfl⟩) (by rw [hg]) (by rw [hgc])
  refine ⟨fun w m hm => ?_, fun o c hc => h.opened o c (hopens ▸ hc), hbits, hlist, fun m hm hop => ?_, ?_⟩
  · rw [hw]
    exact h.writers w m (hpend w m hm)
  · have hrec : s'.gcPending v = s.gcPending v := gcPending_congr (by rw [hg]) (by rw [hgc])
    rw [hg]
    exact h.records m (hrec ▸ hm) hop
  · rw [hgc]
    exact h.phase.mono hg (by rw [hgc]) he

theorem TidyAt.setBit (h : TidyAt cfg s v) {o : Holder} {c e : ℕ} (ho : s.opens v o = some c)
    (he : e < cfg.entriesPerChunk)
    (hb : (s'.stores v).bitmap = (s.stores v).bitmap ∨
      (s'.stores v).bitmap = (setVsBitmapInfo (s.store v) c e).bitmap)
    (d i : ℕ) (hd : (s'.stores v).bitmap d i = true) : d < cfg.chunkNum ∧ i < cfg.entriesPerChunk := by
  rcases hb with hb | hb
  · exact h.bits d i (hb ▸ hd)
  · rw [hb] at hd
    rcases setVsBitmapInfo_bit hd with ⟨rfl, rfl⟩ | hd
    · exact ⟨h.opened o d ho, he⟩
    · exact h.bits d i hd

theorem isEmpty_of_setBit {c e d : ℕ} (hd : d ≠ c)
    (hb : (s'.stores v).bitmap = (s.stores v).bitmap ∨
      (s'.stores v).bitmap = (setVsBitmapInfo (s.store v) c e).bitmap) :
    isEmpty cfg (s'.stores v) d = isEmpty cfg (s.stores v) d := by
  refine isEmpty_congr ?_
  rcases hb with hb | hb
  · rw [hb]
  · simp [hb, setVsBitmapInfo, hd]

theorem pool_linked {c e : ℕ} (he : e < cfg.entriesPerChunk)
    (hf : (s'.stores v).freeChunkList = (s.stores v).freeChunkList)
    (hb : (s'.stores v).bitmap = (s.stores v).bitmap ∨
      (s'.stores v).bitmap = (setVsBitmapInfo (s.store v) c e).bitmap)
    (ho : s'.opens v = s.opens v) : s'.pool cfg v = s.pool cfg v ∨ s'.pool cfg v = (s.pool cfg v).fill c := by
  rcases hb with hb | hb
  · exact .inl (pool_congr hf hb ho)
  · exact .inr (pool_setBit he hf hb ho)

/-- What a step does: it keeps the pools exclusive if `P`, and loses no chunk if `Q`. -/
structure Kept (cfg : Config) (s s' : System A) (P Q : Prop) : Prop where
  tidy : Tidy cfg s'
  exclusive : Exclusive cfg s' ↔ P
  noneLost : NoneLost cfg s' ↔ NoneLost cfg s ∧ Q

namespace Kept

theorem of_pool {P Q : Prop} (h : Tidy cfg s) (he : Exclusive cfg s) (hv : Elsewhere s s' v) (ht : TidyAt cfg s' v)
    (hex : (s'.pool cfg v).Exclusive (chunks cfg) ↔ P)
    (hlost : (s'.pool cfg v).NoneLost (chunks cfg) ↔ (s.pool cfg v).NoneLost (chunks cfg) ∧ Q) :
    Kept cfg s s' P Q := by
  have hother : ∀ u, u ≠ v → s'.pool cfg u = s.pool cfg u := fun u hu => pool_of_same (hv u hu).1 (hv u hu).2.2
  refine ⟨h.of_elsewhere hv ht, ⟨fun h' => hex.mp (h' v), fun hp u => ?_⟩,
    ⟨fun h' => ⟨fun u => ?_, (hlost.mp (h' v)).2⟩, fun ⟨hn, hq⟩ u => ?_⟩⟩
  all_goals
    by_cases hu : u = v
  · exact hu ▸ hex.mpr hp
  · exact hother u hu ▸ he u
  · exact hu ▸ (hlost.mp (h' v)).1
  · exact hother u hu ▸ h' u
  · exact hu ▸ hlost.mpr ⟨hn v, hq⟩
  · exact hother u hu ▸ hn u

theorem of_same (h : Tidy cfg s) (he : Exclusive cfg s) (hv : Elsewhere s s' v) (ht : TidyAt cfg s' v)
    (hp : s'.pool cfg v = s.pool cfg v) : Kept cfg s s' True True :=
  of_pool h he hv ht (by simpa [hp] using he v) (by simp [hp])

theorem of_take (h : Tidy cfg s) (he : Exclusive cfg s) (hv : Elsewhere s s' v) (ht : TidyAt cfg s' v) {o : Holder}
    {c : ℕ} {rest : List ℕ} (hfree : (s.pool cfg v).free = c :: rest) (ho : s.opens v o = none)
    (hp : s'.pool cfg v = (s.pool cfg v).take o c rest) : Kept cfg s s' True True := by
  refine of_pool h he hv ht ?_ ?_
  · simpa [hp] using (he v).take hfree
  · rw [hp, Pool.noneLost_take_iff hfree ho, and_true]

theorem of_fill (h : Tidy cfg s) (he : Exclusive cfg s) (hv : Elsewhere s s' v) (ht : TidyAt cfg s' v) {o : Holder}
    {c : ℕ} (ho : s.opens v o = some c)
    (hp : s'.pool cfg v = s.pool cfg v ∨ s'.pool cfg v = (s.pool cfg v).fill c) : Kept cfg s s' True True := by
  rcases hp with hp | hp
  · exact of_same h he hv ht hp
  · refine of_pool h he hv ht ?_ ?_
    · simpa [hp] using (he v).fill (o := o) ho
    · rw [hp, Pool.noneLost_fill_iff (o := o) ho, and_true]

theorem of_release (h : Tidy cfg s) (he : Exclusive cfg s) (hv : Elsewhere s s' v) (ht : TidyAt cfg s' v) {o : Holder}
    (hp : s'.pool cfg v = (s.pool cfg v).release o) :
    Kept cfg s s' True (∀ c, s.opens v o = some c → isEmpty cfg (s.stores v) c = false) := by
  refine of_pool h he hv ht ?_ ?_
  · simpa [hp] using (he v).release
  · rw [hp, Pool.noneLost_release_iff (he v)]
    refine and_congr_right fun _ => ⟨fun hu c hc => ?_, fun hu c _ hc => ?_⟩
    · simpa [System.pool_used] using hu c ((h v).opened o c hc) hc
    · simpa [System.pool_used] using hu c hc

theorem of_giveBack (h : Tidy cfg s) (he : Exclusive cfg s) (hv : Elsewhere s s' v) (ht : TidyAt cfg s' v)
    {o : Holder} {c : ℕ} (ho : s.opens v o = some c) (hempty : isEmpty cfg (s.stores v) c = true)
    (hp : s'.pool cfg v = (s.pool cfg v).giveBack o c) : Kept cfg s s' True True := by
  refine of_pool h he hv ht ?_ ?_
  · simpa [hp] using (he v).giveBack ho (by simp [System.pool_used, hempty])
  · rw [hp, Pool.noneLost_giveBack_iff ho, and_true]

theorem of_unlink (h : Tidy cfg s) (he : Exclusive cfg s) (hv : Elsewhere s s' v) (ht : TidyAt cfg s' v) {c e : ℕ}
    (hp : s'.pool cfg v = if LastBit cfg (s.stores v) c e then (s.pool cfg v).drain c else s.pool cfg v) :
    Kept cfg s s' (LastBit cfg (s.stores v) c e → ∀ o, s.opens v o ≠ some c) True := by
  by_cases hl : LastBit cfg (s.stores v) c e
  · rw [if_pos hl] at hp
    obtain ⟨hc, hent⟩ := (h v).bits c e hl.1
    have hused : (s.pool cfg v).used c = true := used_iff.mpr ⟨e, hent, hl.1⟩
    refine of_pool h he hv ht ?_ ?_
    · rw [hp, Pool.exclusive_drain_iff (he v) hused hc]
      simp [hl]
    · rw [hp, Pool.noneLost_drain_iff hused, and_true]
  · rw [if_neg hl] at hp
    simpa [hl] using of_same h he hv ht hp

theorem of_quiet (h : Tidy cfg s) (he : Exclusive cfg s) (hst : s'.stores = s.stores) (hsync : s'.sync = s.sync)
    (hgc : s'.gc = s.gc) : Kept cfg s s' True True := by
  have hv : Elsewhere s s' 0 := fun u _ => ⟨by rw [hst], by rw [hsync], by rw [hgc]⟩
  exact of_same h he hv ((h 0).of_same (by rw [hst]) (by rw [hsync]) (by rw [hgc]))
    (pool_of_same (by rw [hst]) (by rw [hgc]))

end Kept

/-! ## Writers -/

theorem unlink_kept {c e : ℕ} (h : Tidy cfg s) (he : Exclusive cfg s) (hv : Elsewhere s s' v)
    (hst : s'.stores v = unlinkToAt cfg (s.store v) c e) (hsync : s'.sync v = s.sync v)
    (hrec : ∀ m ∈ s'.gcPending v, m ∈ s.gcPending v) (hpc : (s'.gc v).pc.isIdle = (s.gc v).pc.isIdle)
    (hphase : GcTidy cfg s v (s.gc v).pc → GcTidy cfg s' v (s'.gc v).pc) :
    Kept cfg s s' (LastBit cfg (s.stores v) c e → ∀ o, s.opens v o ≠ some c) True := by
  obtain ⟨-, -, -, hg, -⟩ := unlinkToAt_fields cfg (s.store v) c e
  have hw := (unlinkToAt_gcFrame cfg (s.store v) c e).wChunk
  rw [← hst] at hg hw
  have hopens : s'.opens v = s.opens v :=
    opens_congr (fun w => by rw [hw]; exact ⟨rfl, rfl⟩) (by rw [hg]; rfl) hpc
  refine .of_unlink h he hv ?_ (pool_unlink (h v) (by rw [hst]) (by rw [hst]) hopens)
  refine ⟨fun w m hm => ?_, fun o c hc => (h v).opened o c (hopens ▸ hc), fun d i hd => ?_, fun d hd => ?_,
    fun m hm => ?_, hphase (h v).phase⟩
  · rw [System.pending_congr (congrFun hsync w) (by rw [hw]; rfl)] at hm
    rw [hw]
    exact (h v).writers w m hm
  · rw [hst, unlinkToAt_bitmap] at hd
    exact (h v).bits d i (Bool.and_eq_true_iff.mp hd).1
  · rw [hst] at hd
    rcases unlinkToAt_listed hd with hd | ⟨rfl, hbit⟩
    · exact (h v).listed d hd
    · exact ((h v).bits d e hbit).1
  · rw [hg]
    exact (h v).records m (hrec m hm)

theorem setStore_unlink_kept (h : Tidy cfg s) (he : Exclusive cfg s) (v c e : ℕ) :
    Kept cfg s (s.setStore v (unlinkToAt cfg (s.store v) c e))
      (LastBit cfg (s.stores v) c e → ∀ o, s.opens v o ≠ some c) True := by
  have hst : (s.setStore v (unlinkToAt cfg (s.store v) c e)).stores v = unlinkToAt cfg (s.store v) c e := by
    simp [System.setStore]
  have hg : ((s.setStore v (unlinkToAt cfg (s.store v) c e)).stores v).gcWChunk = (s.stores v).gcWChunk := by
    rw [hst]
    exact (unlinkToAt_fields cfg (s.store v) c e).2.2.2.1
  refine unlink_kept h he (elsewhere_setStore s v _) hst rfl (fun m hm => ?_) rfl fun hphase => ?_
  · rwa [gcPending_congr (congrArg WChunk.movedEntryList hg) rfl] at hm
  · refine hphase.mono hg rfl fun _ hempty => ?_
    rw [hst]
    exact isEmpty_unlinkToAt hempty

theorem unlinkPast_kept (h : Tidy cfg s) (he : Exclusive cfg s) (past : VsIdx) :
    Kept cfg s (s.unlinkPast cfg past) (0 ≤ past.vsId ∧ 0 ≤ past.vsOffset →
      LastBit cfg (s.stores past.vsId.toNat) (past.vsOffset.toNat / cfg.entriesPerChunk)
        (past.vsOffset.toNat % cfg.entriesPerChunk) →
      ∀ o, s.opens past.vsId.toNat o ≠ some (past.vsOffset.toNat / cfg.entriesPerChunk)) True := by
  by_cases hp : 0 ≤ past.vsId ∧ 0 ≤ past.vsOffset
  · rw [System.unlinkPast, if_pos hp, forall_prop_of_true hp]
    exact setStore_unlink_kept h he _ _ _
  · rw [System.unlinkPast, if_neg hp]
    simpa [hp] using Kept.of_quiet h he rfl rfl rfl

section Steps
variable [DecidableEq A]

theorem update_kept {home : Ptr → Option LogId} {keyOf : A → ℕ} {val : ℕ} {p : Ptr} (h : Tidy cfg s)
    (he : Exclusive cfg s) (hs : s.update home keyOf cfg l a val p = some s') :
    Kept cfg s s' (0 ≤ (s.table a).vsIdx.vsId ∧ 0 ≤ (s.table a).vsIdx.vsOffset →
      LastBit cfg (s.stores (s.table a).vsIdx.vsId.toNat) ((s.table a).vsIdx.vsOffset.toNat / cfg.entriesPerChunk)
        ((s.table a).vsIdx.vsOffset.toNat % cfg.entriesPerChunk) →
      ∀ o, s.opens (s.table a).vsIdx.vsId.toNat o ≠
        some ((s.table a).vsIdx.vsOffset.toNat / cfg.entriesPerChunk)) True := by
  obtain ⟨-, rfl⟩ := System.update_spec hs
  set s₁ := s.record keyOf l a val p (linkToOlPast (s.table a) p).1
  have hq : Kept cfg s s₁ True True := .of_quiet h he rfl rfl rfl
  have hk := unlinkPast_kept hq.tidy (hq.exclusive.mpr trivial) (linkToOlPast (s.table a) p).2
  exact ⟨hk.tidy, hk.exclusive, hk.noneLost⟩

omit [DecidableEq A] in
theorem openWhenIdle_cases {t t' : Store A} {w : ℕ} (h : System.openWhenIdle cfg t w = some t') :
    (t.wChunk w).entryOffset ≠ 0 ∧ t' = t ∨ (t.wChunk w).entryOffset = 0 ∧ ∃ c r,
      getFreeChunkOffset cfg t = some (c, r) ∧
      t' = setWChunk r w { r.wChunk w with isInit := true, chunkOffset := c, entryOffset := 0 } := by
  unfold System.openWhenIdle at h
  split at h
  · rename_i hz
    obtain ⟨⟨c, r⟩, hf, rfl⟩ := Option.map_eq_some_iff.mp h
    exact .inr ⟨hz, c, r, hf, rfl⟩
  · cases h
    exact .inl ⟨‹_›, rfl⟩

theorem put_space {w key val : ℕ} (h : TidyAt cfg s v) (he : (s.pool cfg v).Exclusive (chunks cfg))
    (hs : s.put cfg v w key val a = some s') : (s'.stores v).bitmap = (s.stores v).bitmap ∧
      (((s.stores v).wChunk w).entryOffset ≠ 0 ∧ (s'.stores v).freeChunkList = (s.stores v).freeChunkList ∨
        ((s.stores v).wChunk w).entryOffset = 0 ∧ ∃ c rest, (s.stores v).freeChunkList = c :: rest ∧
        c < cfg.chunkNum ∧
          isEmpty cfg (s.stores v) c = true ∧ (s'.stores v).freeChunkList = rest ∧
          ((s'.stores v).wChunk w).chunkOffset = c) := by
  obtain ⟨-, -, t, ht, rfl⟩ := put_spec hs
  rcases openWhenIdle_cases ht with ⟨hne, rfl⟩ | ⟨hz, c, r, hf, rfl⟩
  · refine ⟨by simp [System.setStore, appendEntry, setWChunk], .inl ⟨hne, ?_⟩⟩
    simp only [System.setStore, appendEntry, setWChunk, Function.update_self]
    rfl
  · obtain ⟨rest, hfree, hc, hempty, rfl⟩ := getFreeChunkOffset_exclusive h he hf
    refine ⟨by simp [System.setStore, appendEntry, setWChunk], .inr ⟨hz, c, rest, hfree, hc, hempty, ?_, ?_⟩⟩
    · simp [System.setStore, appendEntry, setWChunk]
    · simp [System.setStore, appendEntry, setWChunk]

theorem put_elsewhere {w key val : ℕ} (hs : s.put cfg v w key val a = some s') : Elsewhere s s' v := by
  obtain ⟨-, -, t, -, rfl⟩ := put_spec hs
  exact elsewhere_setStore s v _

theorem put_opens {w key val : ℕ} (hs : s.put cfg v w key val a = some s') :
    s'.opens v = Function.update (s.opens v) (.writer w) (some ((s'.stores v).wChunk w).chunkOffset) := by
  obtain ⟨-, hgc, -, -, hg, -⟩ := put_rest hs
  obtain ⟨i, c, hchunk, -⟩ := put_chunk hs
  funext o
  cases o with
  | writer w' =>
    by_cases hw : w' = w
    · subst hw
      simp [System.opens, hchunk]
    · simp [System.opens, hchunk, hw]
  | collector => simp [System.opens, hgc, hg]

theorem put_kept {w key val : ℕ} (h : Tidy cfg s) (he : Exclusive cfg s) (hs : s.put cfg v w key val a = some s') :
    Kept cfg s s' True True := by
  obtain ⟨hsync, hlt, -⟩ := put_spec hs
  obtain ⟨hsync', hgc, -, -, hg, -⟩ := put_rest hs
  obtain ⟨i, c, hchunk, hsame⟩ := put_chunk hs
  obtain ⟨hb, hcase⟩ := put_space (h v) (he v) hs
  have hcw : ((s'.stores v).wChunk w).chunkOffset = c := by simp [hchunk]
  have hv : Elsewhere s s' v := put_elsewhere hs
  have hopens : s'.opens v = Function.update (s.opens v) (.writer w) (some c) := hcw ▸ put_opens hs
  have hc : c < cfg.chunkNum := by
    rcases hcase with ⟨hne, -⟩ | ⟨-, c', -, -, hc', -, -, hcc⟩
    · rw [hsame hne]
      exact (h v).opened _ _ (opens_writer hne)
    · rwa [← hcw, hcc]
  have ht : TidyAt cfg s' v := by
    refine ⟨fun w' m hm => ?_, fun o d hd => ?_, by rw [hb]; exact (h v).bits, fun d hd => ?_, fun m hm => ?_, ?_⟩
    · by_cases hw : w' = w
      · subst hw
        simp only [System.pending, hsync', hsync, hchunk, Function.update_self, addMovedEntry, List.mem_append,
          List.mem_singleton] at hm
        rcases hm with hm | rfl
        · have hmem : m ∈ s.pending v w' := by
            rw [System.pending, hsync]
            exact hm
          obtain ⟨hne, hmc, hent⟩ := (h v).writers w' m hmem
          exact ⟨by simp [hchunk], by rw [hcw, hmc, hsame hne], hent⟩
        · exact ⟨by simp [hchunk], hcw.symm, hlt⟩
      · have hww : (s'.stores v).wChunk w' = (s.stores v).wChunk w' := by simp [hchunk, hw]
        have hpend : s'.pending v w' = s.pending v w' := System.pending_congr (by rw [hsync']) (by rw [hww])
        rw [hww]
        exact (h v).writers w' m (hpend ▸ hm)
    · rw [hopens] at hd
      by_cases ho : o = .writer w
      · rw [ho, Function.update_self] at hd
        exact Option.some.inj hd ▸ hc
      · rw [Function.update_of_ne ho] at hd
        exact (h v).opened o d hd
    · rcases hcase with ⟨-, hf⟩ | ⟨-, c', rest, hfree, -, -, hf, -⟩
      · exact (h v).listed d (hf ▸ hd)
      · exact (h v).listed d (by rw [hfree]; exact List.mem_cons_of_mem _ (hf ▸ hd))
    · have hrec : s'.gcPending v = s.gcPending v := gcPending_congr (by rw [hg]) (by rw [hgc])
      rw [hg]
      exact (h v).records m (hrec ▸ hm)
    · rw [hgc]
      refine (h v).phase.mono (hg v) (by rw [hgc]) fun _ hempty => ?_
      rwa [isEmpty_congr (congrFun hb _)]
  rcases hcase with ⟨hne, hf⟩ | ⟨hz, c', rest, hfree, -, -, hf, hcc⟩
  · refine .of_same h he hv ht (pool_congr hf hb ?_)
    rw [hopens, hsame hne, ← opens_writer hne, Function.update_eq_self]
  · have hclosed : s.opens v (.writer w) = none := by rw [System.opens, if_pos hz]
    refine .of_take h he hv ht hfree hclosed (Pool.ext hf (used_congr hb) ?_)
    rw [← hcc, hcw]
    exact hopens

theorem reclaim_kept (h : Tidy cfg s) (he : Exclusive cfg s) (hs : s.reclaim cfg l = some s') :
    Kept cfg s s' True True := by
  obtain ⟨v, p, rest, a, -, -, -, ⟨-, hput⟩ | ⟨-, rfl⟩⟩ := reclaim_spec hs
  · have hq : Kept cfg s (s.deq l v p rest) True True := .of_quiet h he rfl rfl rfl
    have hk := put_kept hq.tidy (hq.exclusive.mpr trivial) hput
    exact ⟨hk.tidy, hk.exclusive, hk.noneLost⟩
  · exact .of_quiet h he rfl rfl rfl

theorem link_kept {m : MovedEntry A} (h : Tidy cfg s) (he : Exclusive cfg s) (hs : s.link cfg l m = some s') :
    Kept cfg s s' True True := by
  obtain ⟨v, moved, t, -, hmoved, hm, ht, rfl⟩ := link_spec hs
  obtain ⟨-, -, hw, -, hg, -⟩ := linkToAt_spec ht
  obtain ⟨hf, hb⟩ := linkToAt_space ht
  have hpend : s.pending v l.1 = moved := by rw [System.pending, hmoved]
  obtain ⟨hne, hchunk, hent⟩ := (h v).writers l.1 m (hpend ▸ hm)
  have ho := opens_writer hne
  rw [← hchunk] at ho
  set s' := (s.setStore v t).setSync v l.1 (some (moved.erase m)) with hs'
  have hst : s'.stores v = t := by simp [hs', System.setSync, System.setStore]
  have hv : Elsewhere s s' v := (elsewhere_setStore s v t).setSync _ _
  rw [← hst] at hw hg hf hb
  have hopens : s'.opens v = s.opens v :=
    opens_congr (fun w => by rw [hw]; exact ⟨rfl, rfl⟩) (by rw [hg]; rfl) rfl
  refine .of_fill h he hv ?_ ho (pool_linked hent hf hb hopens)
  refine (h v).of_frame (fun w m' hm' => ?_) hw hg rfl ((h v).setBit ho hent hb) (by rw [hf]; exact (h v).listed)
    fun hi hempty => ?_
  · by_cases hwl : w = l.1
    · subst hwl
      rw [hs', System.pending_setSync_self] at hm'
      exact hpend ▸ List.mem_of_mem_erase hm'
    · rw [hs', System.pending_setSync_ne (fun _ => hwl), System.pending_setStore (by rw [← hst, hw]; rfl)] at hm'
      exact hm'
  · rw [isEmpty_of_setBit (Ne.symm (writer_ne_collector (h v) (he v) ho hi)) hb]
    exact hempty

/-- What the write of slot `w` of store `v` does to the bookkeeping. -/
structure Written (S : StdSort) (s s' : System A) (v w : ℕ) : Prop where
  elsewhere : Elsewhere s s' v
  unsynced : s.sync v w = none
  synced : s'.sync v w ≠ none
  pending : s'.pending v w = sortMovedEntry S (s.pending v w)
  other : ∀ w', w' ≠ w → s'.sync v w' = s.sync v w' ∧ s'.pending v w' = s.pending v w'
  chunk : ∀ w', ((s'.stores v).wChunk w').entryOffset = ((s.stores v).wChunk w').entryOffset ∧
    ((s'.stores v).wChunk w').chunkOffset = ((s.stores v).wChunk w').chunkOffset
  bitmap : (s'.stores v).bitmap = (s.stores v).bitmap
  free : (s'.stores v).freeChunkList = (s.stores v).freeChunkList
  gcWChunk : (s'.stores v).gcWChunk = (s.stores v).gcWChunk
  gc : s'.gc = s.gc
  table : s'.table = s.table

omit [DecidableEq A] in
theorem written_of_write (hs : s.write cfg S l = some s') :
    ∃ v, (s.log l).phase.vs = some v ∧ Written S s s' v l.1 := by
  obtain ⟨v, hv, hnone, rfl⟩ := write_spec hs
  set s' := (s.setStore v (writeChunk cfg S (s.store v) l.1)).setSync v l.1
    (some (sortMovedEntry S ((s.stores v).wChunk l.1).movedEntryList)) with hs'
  have hst : s'.stores v = writeChunk cfg S (s.store v) l.1 := by simp [hs', System.setSync, System.setStore]
  have hw : ∀ w, ((s'.stores v).wChunk w).entryOffset = ((s.stores v).wChunk w).entryOffset ∧
      ((s'.stores v).wChunk w).chunkOffset = ((s.stores v).wChunk w).chunkOffset ∧
      ((s'.stores v).wChunk w).movedEntryList = ((s.stores v).wChunk w).movedEntryList := by
    intro w
    rw [hst]
    by_cases hwl : w = l.1
    · subst hwl
      simp [writeChunk, setWChunk, sortWBuffer]
    · simp [writeChunk, setWChunk, hwl]
  refine ⟨v, hv, (elsewhere_setStore s v _).setSync _ _, hnone, by simp [hs', System.setSync], ?_, fun w hwl => ?_,
    fun w => ⟨(hw w).1, (hw w).2.1⟩, by rw [hst]; rfl, by rw [hst]; rfl, by rw [hst]; rfl, rfl, rfl⟩
  · rw [hs', System.pending_setSync_self, System.pending, hnone]
  · have hsync : s'.sync v w = s.sync v w := by simp [hs', System.setSync, hwl]
    exact ⟨hsync, System.pending_congr hsync (hw w).2.2⟩

omit [DecidableEq A] in
theorem write_kept (h : Tidy cfg s) (he : Exclusive cfg s) (hs : s.write cfg S l = some s') :
    Kept cfg s s' True True := by
  obtain ⟨v, -, hw⟩ := written_of_write hs
  have hopens : s'.opens v = s.opens v := opens_congr hw.chunk (by rw [hw.gcWChunk]) (by rw [hw.gc])
  have hrec : s'.gcPending v = s.gcPending v := gcPending_congr (by rw [hw.gcWChunk]) (by rw [hw.gc])
  refine .of_same h he hw.elsewhere ⟨fun w m hm => ?_, ?_, ?_, ?_, ?_, ?_⟩ (pool_congr hw.free hw.bitmap hopens)
  · rw [(hw.chunk w).1, (hw.chunk w).2]
    by_cases hwl : w = l.1
    · subst hwl
      rw [hw.pending] at hm
      obtain ⟨m', hm', hc, hent, -⟩ := mem_of_mem_sortMovedEntry hm
      rw [← hc, ← hent]
      exact (h v).writers l.1 m' hm'
    · rw [(hw.other w hwl).2] at hm
      exact (h v).writers w m hm
  · rw [hopens]
    exact (h v).opened
  · rw [hw.bitmap]
    exact (h v).bits
  · rw [hw.free]
    exact (h v).listed
  · rw [hrec, hw.gcWChunk]
    exact (h v).records
  · rw [hw.gc]
    refine (h v).phase.mono hw.gcWChunk (by rw [hw.gc]) fun _ hempty => ?_
    rwa [isEmpty_congr (congrFun hw.bitmap _)]

/-- What the end of a sync of slot `w` of store `v` does to the bookkeeping. -/
structure Closed (s s' : System A) (v w : ℕ) : Prop where
  elsewhere : Elsewhere s s' v
  pending : s'.pending v w = []
  other : ∀ w', w' ≠ w → s'.sync v w' = s.sync v w' ∧ s'.pending v w' = s.pending v w' ∧
    (s'.stores v).wChunk w' = (s.stores v).wChunk w'
  opens : s'.opens v = Function.update (s.opens v) (.writer w) none
  bitmap : (s'.stores v).bitmap = (s.stores v).bitmap
  free : (s'.stores v).freeChunkList = (s.stores v).freeChunkList
  gcWChunk : (s'.stores v).gcWChunk = (s.stores v).gcWChunk
  gc : s'.gc = s.gc
  table : s'.table = s.table

theorem closed_of_close (hs : s.close l = some s') : ∃ v, (s.log l).phase.vs = some v ∧ Closed s s' v l.1 := by
  obtain ⟨v, phase, hphase, hsync, -, rfl⟩ := close_spec hs
  set s' := ((s.setStore v (System.closeChunk (s.store v) l.1)).setSync v l.1 none).setLog l
    { s.log l with phase := phase } with hs'
  have hst : s'.stores v = System.closeChunk (s.store v) l.1 := by
    simp [hs', System.setLog, System.setSync, System.setStore]
  have hother : ∀ w, w ≠ l.1 → (s'.stores v).wChunk w = (s.stores v).wChunk w := fun w hw => by
    simp [hst, System.closeChunk, setWChunk, hw]
  have hg : (s'.stores v).gcWChunk = (s.stores v).gcWChunk := by
    rw [hst]
    rfl
  refine ⟨v, hphase, (elsewhere_setStore s v _).setSync _ _, ?_, fun w hw => ?_,
    ?_, by rw [hst]; rfl, by rw [hst]; rfl, hg,
    rfl, rfl⟩
  · simp [System.pending, hs', System.setLog, System.setSync, System.setStore, System.closeChunk, setWChunk]
  · have hsame : s'.sync v w = s.sync v w := by simp [hs', System.setLog, System.setSync, hw]
    exact ⟨hsame, System.pending_congr hsame (by rw [hother w hw]), hother w hw⟩
  · funext o
    cases o with
    | writer w =>
      by_cases hw : w = l.1
      · subst hw
        simp [System.opens, hst, System.closeChunk, setWChunk]
      · simp [System.opens, hother w hw, hw]
    | collector =>
      have hgc : s'.gc v = s.gc v := rfl
      simp [System.opens, hg, hgc]

theorem close_kept (h : Tidy cfg s) (he : Exclusive cfg s) (hs : s.close l = some s') : Kept cfg s s' True
    (∀ v, (s.log l).phase.vs = some v → ∀ c, s.opens v (.writer l.1) = some c →
      isEmpty cfg (s.stores v) c = false) := by
  obtain ⟨v, hphase, hc⟩ := closed_of_close hs
  have hrec : s'.gcPending v = s.gcPending v := gcPending_congr (by rw [hc.gcWChunk]) (by rw [hc.gc])
  have ht : TidyAt cfg s' v := by
    refine ⟨fun w m hm => ?_,
      fun o c ho => ?_, by rw [hc.bitmap]; exact (h v).bits, by rw [hc.free]; exact (h v).listed,
      by rw [hrec, hc.gcWChunk]; exact (h v).records, ?_⟩
    · by_cases hw : w = l.1
      · subst hw
        simp [hc.pending] at hm
      · obtain ⟨-, hpend, hchunk⟩ := hc.other w hw
        rw [hchunk]
        exact (h v).writers w m (hpend ▸ hm)
    · rw [hc.opens] at ho
      by_cases how : o = .writer l.1
      · simp [how] at ho
      · rw [Function.update_of_ne how] at ho
        exact (h v).opened o c ho
    · rw [hc.gc]
      refine (h v).phase.mono hc.gcWChunk (by rw [hc.gc]) fun _ hempty => ?_
      rwa [isEmpty_congr (congrFun hc.bitmap _)]
  have hk :=
    Kept.of_release h he hc.elsewhere ht (o := .writer l.1) (Pool.ext hc.free (used_congr hc.bitmap) hc.opens)
  simpa [hphase] using hk

/-! ## The collector -/

/-- What a step of a collection does, apart from the links. -/
inductive GcMove (cfg : Config) (S : StdSort) (s : System A) (v : ℕ) : System A → Prop where
  | start (r : Store A × List (ℕ × ℕ)) (hpc : (s.gc v).pc = .idle)
    (hr : System.gcStart cfg S (s.store v) = some r) :
      GcMove cfg S s v ((s.setStore v r.1).setGc v
        ⟨.victims r.2, 0, usedChunkNumInt cfg (s.store v), usedChunkNumInt cfg (s.store v)⟩)
  | last (used : List (ℕ × ℕ)) (hpc : (s.gc v).pc = .victims used) : GcMove cfg S s v (s.gcLast v)
  | read (victim n : ℕ) (rest : List (ℕ × ℕ)) (hpc : (s.gc v).pc = .victims ((victim, n) :: rest)) :
      GcMove cfg S s v ((s.setStore v (readGcRChunk (s.store v) victim)).setGc v
        { s.gc v with pc := .entries (victim, List.range cfg.entriesPerChunk, rest) })
  | next (victim : ℕ) (rest : List (ℕ × ℕ)) (hpc : (s.gc v).pc = .entries (victim, [], rest)) :
      GcMove cfg S s v (s.setGc v { s.gc v with pc := .victims rest, usedChunkNum := (s.gc v).usedChunkNum - 1 })
  | entry (victim i : ℕ) (is : List ℕ) (rest : List (ℕ × ℕ))
    (hpc : (s.gc v).pc = .entries (victim, i :: is, rest)) :
      GcMove cfg S s v (s.gcEntry cfg v victim i is rest)
  | write (cont : Option GcCont) (hpc : (s.gc v).pc = .write cont) : GcMove cfg S s v (s.gcWrite cfg S v cont)
  | done (hpc : (s.gc v).pc = .sync [] none) :
      GcMove cfg S s v ((s.setStore v (System.gcClear (s.store v))).setGc v { s.gc v with pc := .idle })
  | reopen (cont : GcCont) (t : Store A) (hpc : (s.gc v).pc = .sync [] (some cont))
      (ht : initGcWChunk cfg (System.gcClear (s.store v)) = some t) :
      GcMove cfg S s v ((s.setStore v t).setGc v { s.gc v with pc := .entries cont, wOffset := 0 })

theorem gcMove_of_gcStep (hs : s.gcStep cfg S v = some s') : GcMove cfg S s v s' := by
  simp only [System.gcStep] at hs
  split at hs
  · obtain ⟨r, hr, rfl⟩ := Option.map_eq_some_iff.mp hs
    exact .start r ‹_› hr
  · cases hs
    exact .last _ ‹_›
  · split at hs
    · cases hs
      exact .last _ ‹_›
    · cases hs
      exact .read _ _ _ ‹_›
  · cases hs
    exact .next _ _ ‹_›
  · cases hs
    exact .entry _ _ _ _ ‹_›
  · cases hs
    exact .write _ ‹_›
  · cases hs
    exact .done ‹_›
  · obtain ⟨t, ht, rfl⟩ := Option.map_eq_some_iff.mp hs
    exact .reopen _ t ‹_› ht
  · cases hs

omit [DecidableEq A] in
@[simp] theorem gc_setGc (s : System A) (v : ℕ) (g : GcThread A) : (s.setGc v g).gc v = g := by simp [System.setGc]

omit [DecidableEq A] in
@[simp] theorem stores_setGc (s : System A) (v : ℕ) (t : Store A) (g : GcThread A) :
    ((s.setStore v t).setGc v g).stores v = t := by simp [System.setGc, System.setStore]

omit [DecidableEq A] in
theorem gcPending_of_ne (h : ∀ m c, (s.gc v).pc ≠ .sync m c) :
    s.gcPending v = (s.stores v).gcWChunk.movedEntryList := by
  rw [System.gcPending]
  split
  · exact absurd ‹_› (h _ _)
  · rfl

omit [DecidableEq A] in
theorem TidyAt.of_gc (h : TidyAt cfg s v) (hsync : s'.sync v = s.sync v)
    (hw : (s'.stores v).wChunk = (s.stores v).wChunk) (hb : (s'.stores v).bitmap = (s.stores v).bitmap)
    (hlist : ∀ c ∈ (s'.stores v).freeChunkList, c < cfg.chunkNum)
    (hopen : ∀ c, s'.opens v .collector = some c → c < cfg.chunkNum)
    (hrec : ∀ m ∈ s'.gcPending v, m.opType = .insert →
      m.chunkOffset = (s'.stores v).gcWChunk.chunkOffset ∧ m.entryOffset < cfg.entriesPerChunk)
    (hphase : GcTidy cfg s' v (s'.gc v).pc) : TidyAt cfg s' v := by
  refine ⟨fun w m hm => ?_, fun o c hc => ?_, by rw [hb]; exact h.bits, hlist, hrec, hphase⟩
  · rw [System.pending_congr (congrFun hsync w) (by rw [hw])] at hm
    rw [hw]
    exact h.writers w m hm
  · cases o with
    | writer w =>
      refine h.opened (.writer w) c ?_
      rw [System.opens] at hc ⊢
      rwa [← hw]
    | collector => exact hopen c hc

omit [DecidableEq A] in
theorem opens_of_gc (hw : (s'.stores v).wChunk = (s.stores v).wChunk) {x : Option ℕ}
    (hx : s'.opens v .collector = x) : s'.opens v = Function.update (s.opens v) .collector x := by
  funext o
  cases o with
  | writer w => simp [System.opens, hw]
  | collector => simp [hx]

omit [DecidableEq A] in
theorem initGcWChunk_exclusive {t : Store A} (h : TidyAt cfg s v) (he : (s.pool cfg v).Exclusive (chunks cfg))
    (hs : initGcWChunk cfg (s.store v) = some t) : ∃ c rest, (s.pool cfg v).free = c :: rest ∧
    c < cfg.chunkNum ∧
      isEmpty cfg (s.stores v) c = true ∧ t = { s.store v with
        freeChunkList := rest
        gcWChunk := { (s.stores v).gcWChunk with isInit := true, chunkOffset := c, entryOffset := 0 } } := by
  simp only [initGcWChunk, Option.bind_eq_bind, Option.bind_eq_some_iff] at hs
  obtain ⟨⟨c, t₁⟩, hf, ht⟩ := hs
  obtain ⟨rest, hfree, hc, hempty, rfl⟩ := getFreeChunkOffset_exclusive h he hf
  cases ht
  exact ⟨c, rest, hfree, hc, hempty, rfl⟩

omit [DecidableEq A] in
theorem gcOpen_kept {t : Store A} {g : GcThread A} (h : Tidy cfg s) (he : Exclusive cfg s)
    (hidle : s.opens v .collector = none) (hm : (s.stores v).gcWChunk.movedEntryList = [])
    (ht : initGcWChunk cfg (s.store v) = some t) (hpc : g.pc.isIdle = false) (hsync : ∀ m c, g.pc ≠ .sync m c)
    (hw : g.wOffset = 0) : Kept cfg s ((s.setStore v t).setGc v g) True True := by
  obtain ⟨c, rest, hfree, hc, hempty, rfl⟩ := initGcWChunk_exclusive (h v) (he v) ht
  set s' := (s.setStore v _).setGc v g with hs'
  have hst : s'.stores v = { s.store v with
      freeChunkList := rest
      gcWChunk := { (s.stores v).gcWChunk with isInit := true, chunkOffset := c, entryOffset := 0 } } := by
    simp [hs', System.setGc, System.setStore]
  have hgc : s'.gc v = g := by simp [hs', System.setGc]
  have hopen : s'.opens v .collector = some c := by
    rw [opens_collector (by rw [hgc, hpc]), hst]
  have hpend : s'.gcPending v = [] := by
    rw [System.gcPending, hgc]
    split
    · exact absurd ‹_› (hsync _ _)
    · rw [hst, hm]
  have ht : TidyAt cfg s' v := by
    refine (h v).of_gc rfl (by rw [hst]; rfl) (by rw [hst]; rfl) (fun d hd => ?_) (fun d hd => ?_)
      (by simp [hpend]) ?_
    · rw [hst] at hd
      exact (h v).listed d (by rw [← System.pool_free cfg, hfree]; exact List.mem_cons_of_mem _ hd)
    · rw [hopen] at hd
      exact Option.some.inj hd ▸ hc
    · have hroom : (s'.gc v).wOffset < cfg.entriesPerChunk ∧
          isEmpty cfg (s'.stores v) (s'.stores v).gcWChunk.chunkOffset = true := by
        rw [hgc, hw, hst]
        exact ⟨cfg.entries_pos, hempty⟩
      rw [hgc]
      cases hg : g.pc with
      | idle => simp [hg, GcPc.isIdle] at hpc
      | victims _ => exact hroom
      | entries _ => exact hroom
      | write _ => trivial
      | sync m c => exact absurd hg (hsync m c)
  have hv : Elsewhere s s' v := (elsewhere_setStore s v _).setGc g
  refine .of_take h he hv ht hfree hidle
    (Pool.ext (by rw [System.pool_free, hst]; rfl) (used_congr (by rw [hst]; rfl)) ?_)
  exact opens_of_gc (by rw [hst]; rfl) hopen

omit [DecidableEq A] in
theorem gcSame_kept (h : Tidy cfg s) (he : Exclusive cfg s) (hv : Elsewhere s s' v) (hsync : s'.sync v = s.sync v)
    (hw : (s'.stores v).wChunk = (s.stores v).wChunk) (hb : (s'.stores v).bitmap = (s.stores v).bitmap)
    (hf : (s'.stores v).freeChunkList = (s.stores v).freeChunkList)
    (hc : (s'.stores v).gcWChunk.chunkOffset = (s.stores v).gcWChunk.chunkOffset)
    (hold : (s.gc v).pc.isIdle = false) (hnew : (s'.gc v).pc.isIdle = false)
    (hrec : ∀ m ∈ s'.gcPending v, m.opType = .insert →
      m.chunkOffset = (s.stores v).gcWChunk.chunkOffset ∧ m.entryOffset < cfg.entriesPerChunk)
    (hphase : GcTidy cfg s' v (s'.gc v).pc) : Kept cfg s s' True True := by
  have hopens : s'.opens v = s.opens v :=
    opens_congr (fun w => by rw [hw]; exact ⟨rfl, rfl⟩) hc (by rw [hnew, hold])
  refine .of_same h he hv ?_ (pool_congr hf hb hopens)
  exact (h v).of_gc hsync hw hb (by rw [hf]; exact (h v).listed) (by rw [hopens]; exact (h v).opened _)
    (by rw [hc]; exact hrec) hphase

omit [DecidableEq A] in
theorem gcLast_kept (h : Tidy cfg s) (he : Exclusive cfg s) (hpc : (s.gc v).pc.isIdle = false)
    (hempty : isEmpty cfg (s.stores v) (s.stores v).gcWChunk.chunkOffset = true)
    (hrec : s.gcPending v = (s.stores v).gcWChunk.movedEntryList) : Kept cfg s (s.gcLast v) True True := by
  have hopen := opens_collector hpc
  unfold System.gcLast
  split
  case isTrue hm =>
    set s' := (s.setStore v (addFreeChunkList (s.store v) (s.store v).gcWChunk.chunkOffset)).setGc v
      { s.gc v with pc := .idle } with hs'
    have hst : s'.stores v = addFreeChunkList (s.store v) (s.store v).gcWChunk.chunkOffset := by
      simp [hs', System.setGc, System.setStore]
    have hgc : (s'.gc v).pc = .idle := by simp [hs', System.setGc]
    have hclosed : s'.opens v .collector = none := by
      rw [System.opens, hgc]
      rfl
    have hnil : (s'.stores v).gcWChunk.movedEntryList = [] := by
      rw [hst]
      exact List.isEmpty_iff.mp hm
    have hv : Elsewhere s s' v := (elsewhere_setStore s v _).setGc _
    refine .of_giveBack h he hv ?_ hopen hempty (Pool.ext (by rw [System.pool_free, hst]; rfl)
      (used_congr (by rw [hst]; rfl)) (opens_of_gc (by rw [hst]; rfl) hclosed))
    refine (h v).of_gc rfl (by rw [hst]; rfl) (by rw [hst]; rfl) (fun d hd => ?_) (by simp [hclosed]) ?_ ?_
    · rw [hst] at hd
      rcases List.mem_append.mp hd with hd | hd
      · exact (h v).listed d hd
      · rw [List.mem_singleton.mp hd]
        exact (h v).opened _ _ hopen
    · simp [System.gcPending, hgc, hnil]
    · rw [hgc]
      exact hnil
  case isFalse =>
    refine gcSame_kept h he ((elsewhere_refl s v).setGc _) rfl rfl rfl rfl rfl hpc
      (by simp [System.setGc, GcPc.isIdle])
      (fun m hm => (h v).records m (hrec ▸ ?_)) (by simp [System.setGc, GcTidy])
    simpa [System.gcPending, System.setGc] using hm

theorem gcCopy_kept {victim i : ℕ} {g : GcThread A} (h : Tidy cfg s) (he : Exclusive cfg s)
    (hpc : (s.gc v).pc.isIdle = false) (hroom : (s.gc v).wOffset < cfg.entriesPerChunk)
    (hrec : s.gcPending v = (s.stores v).gcWChunk.movedEntryList) (hnew : g.pc.isIdle = false)
    (hsync : ∀ m c, g.pc ≠ .sync m c)
    (hphase : GcTidy cfg ((s.gcCopy v victim i).setGc v g) v g.pc) :
    Kept cfg s ((s.gcCopy v victim i).setGc v g) True True := by
  set s' := (s.gcCopy v victim i).setGc v g with hs'
  have hst : s'.stores v = gcCopyEntry (s.store v) victim (s.gc v).wOffset i := by
    simp [hs', System.setGc, System.gcCopy, System.setStore]
  have hgc : s'.gc v = g := by simp [hs', System.setGc]
  have hv : Elsewhere s s' v := fun u hu => by simp [hs', System.setGc, System.gcCopy, System.setStore, hu]
  have hpend : s'.gcPending v = (s'.stores v).gcWChunk.movedEntryList := by
    rw [System.gcPending, hgc]
    split
    · exact absurd ‹_› (hsync _ _)
    · rfl
  refine gcSame_kept h he hv rfl (by rw [hst]; rfl) (by rw [hst]; rfl) (by rw [hst]; rfl) (by rw [hst]; rfl) hpc
    (by rw [hgc, hnew]) (fun m hm hop => ?_) (by rw [hgc]; exact hphase)
  rw [hpend, hst] at hm
  simp only [gcCopyEntry, addMovedEntry, List.mem_append, List.mem_singleton] at hm
  rcases hm with (hm | rfl) | rfl
  · exact (h v).records m (hrec ▸ hm) hop
  · exact ⟨rfl, hroom⟩
  · cases hop

theorem gcEntry_kept {victim i : ℕ} {is : List ℕ} {rest : List (ℕ × ℕ)} (h : Tidy cfg s)
    (he : Exclusive cfg s) (hpc : (s.gc v).pc = .entries (victim, i :: is, rest)) :
    Kept cfg s (s.gcEntry cfg v victim i is rest) True True := by
  have hidle : (s.gc v).pc.isIdle = false := by
    rw [hpc]
    rfl
  have hrec : s.gcPending v = (s.stores v).gcWChunk.movedEntryList := by simp [System.gcPending, hpc]
  have hphase := (h v).phase
  rw [hpc] at hphase
  obtain ⟨hroom, hempty⟩ := hphase
  have hempty' : isEmpty cfg (gcCopyEntry (s.store v) victim (s.gc v).wOffset i)
    (s.stores v).gcWChunk.chunkOffset = true :=
    hempty
  simp only [System.gcEntry]
  split
  · split
    · exact gcCopy_kept h he hidle hroom hrec rfl (by simp) trivial
    · refine gcCopy_kept h he hidle hroom hrec rfl (by simp) ⟨?_, ?_⟩
      · simp only [System.setGc, Function.update_self]
        omega
      · simpa [System.setGc, System.gcCopy, System.setStore, gcCopyEntry] using hempty'
  · refine gcSame_kept h he ((elsewhere_refl s v).setGc _) rfl rfl rfl rfl rfl hidle
      (by simp [System.setGc, GcPc.isIdle])
      (fun m hm => (h v).records m (hrec ▸ ?_)) ?_
    · simpa [System.gcPending, System.setGc] using hm
    · simp only [System.setGc, Function.update_self]
      exact ⟨by simpa using hroom, hempty⟩

omit [DecidableEq A] in
theorem gcRelease_kept (h : Tidy cfg s) (he : Exclusive cfg s) : Kept cfg s
    ((s.setStore v (System.gcClear (s.store v))).setGc v { s.gc v with pc := .idle }) True
    (∀ c, s.opens v .collector = some c → isEmpty cfg (s.stores v) c = false) := by
  set s' := (s.setStore v (System.gcClear (s.store v))).setGc v { s.gc v with pc := .idle } with hs'
  have hst : s'.stores v = System.gcClear (s.store v) := stores_setGc ..
  have hgc : (s'.gc v).pc = .idle := by rw [hs', gc_setGc]
  have hclosed : s'.opens v .collector = none := by
    rw [System.opens, hgc]
    rfl
  have hv : Elsewhere s s' v := (elsewhere_setStore s v _).setGc _
  refine .of_release h he hv ?_ (Pool.ext (by rw [System.pool_free, hst]; rfl) (used_congr (by rw [hst]; rfl))
    (opens_of_gc (by rw [hst]; rfl) hclosed))
  refine (h v).of_gc rfl (by rw [hst]; rfl) (by rw [hst]; rfl) (by rw [hst]; exact (h v).listed)
    (by simp [hclosed]) ?_ ?_
  · rw [gcPending_of_ne (by simp [hgc]), hst]
    simp [System.gcClear]
  · rw [hgc]
    exact congrArg (fun t => t.gcWChunk.movedEntryList) hst

theorem gcStep_kept (h : Tidy cfg s) (he : Exclusive cfg s) (hs : s.gcStep cfg S v = some s') : Kept cfg s s' True
    (∀ cont, (s.gc v).pc = .sync [] cont →
      isEmpty cfg (s.stores v) (s.stores v).gcWChunk.chunkOffset = false) := by
  have hphase := (h v).phase
  cases gcMove_of_gcStep hs with
  | start r hpc hr =>
    rw [hpc] at hphase
    have hk :=
      gcOpen_kept (g := ⟨.victims r.2, 0, usedChunkNumInt cfg (s.store v), usedChunkNumInt cfg (s.store v)⟩) h he
      (by rw [System.opens, hpc]; rfl) hphase (gcStart_spec hr) rfl (by simp) rfl
    simpa [hpc] using hk
  | last used hpc =>
    rw [hpc] at hphase
    have hk := gcLast_kept h he (by rw [hpc]; rfl) hphase.2 (gcPending_of_ne (by simp [hpc]))
    simpa [hpc] using hk
  | read victim n rest hpc =>
    rw [hpc] at hphase
    have hk := gcSame_kept h he ((elsewhere_setStore s v (readGcRChunk (s.store v) victim)).setGc
      { s.gc v with pc := .entries (victim, List.range cfg.entriesPerChunk, rest) }) rfl (by rw [stores_setGc]; rfl)
      (by rw [stores_setGc]; rfl) (by rw [stores_setGc]; rfl) (by rw [stores_setGc]; rfl) (by rw [hpc]; rfl)
      (by rw [gc_setGc]; rfl) (fun m hm => (h v).records m ?_) ?_
    · simpa [hpc] using hk
    · rw [gcPending_of_ne (by simp), stores_setGc] at hm
      rw [gcPending_of_ne (by simp [hpc])]
      exact hm
    · rw [gc_setGc]
      exact ⟨by rw [gc_setGc]; exact hphase.1, by rw [stores_setGc]; exact hphase.2⟩
  | next victim rest hpc =>
    rw [hpc] at hphase
    have hk := gcSame_kept h he ((elsewhere_refl s v).setGc
      { s.gc v with pc := .victims rest, usedChunkNum := (s.gc v).usedChunkNum - 1 }) rfl rfl rfl rfl rfl
      (by rw [hpc]; rfl)
      (by rw [gc_setGc]; rfl) (fun m hm => (h v).records m ?_) ?_
    · simpa [hpc] using hk
    · rw [gcPending_of_ne (by simp)] at hm
      rw [gcPending_of_ne (by simp [hpc])]
      exact hm
    · rw [gc_setGc]
      exact ⟨by rw [gc_setGc]; exact hphase.1, hphase.2⟩
  | entry victim i is rest hpc =>
    have hk := gcEntry_kept h he hpc
    simpa [hpc] using hk
  | write cont hpc =>
    have hk : Kept cfg s (s.gcWrite cfg S v cont) True True := by
      refine gcSame_kept h he ((elsewhere_setStore s v _).setGc _) rfl (by rw [System.gcWrite, stores_setGc]; rfl)
        (by rw [System.gcWrite, stores_setGc]; rfl) (by rw [System.gcWrite, stores_setGc]; rfl)
        (by rw [System.gcWrite, stores_setGc]; rfl) (by rw [hpc]; rfl) (by rw [System.gcWrite, gc_setGc]; rfl)
        (fun m hm hop => ?_) (by rw [System.gcWrite, gc_setGc]; trivial)
      simp only [System.gcPending, System.gcWrite, gc_setGc] at hm
      obtain ⟨m', hm', hc, hent, hop'⟩ := mem_of_mem_sortMovedEntry hm
      rw [← hc, ← hent]
      refine (h v).records m' ?_ (hop'.trans hop)
      rw [gcPending_of_ne (by simp [hpc])]
      exact hm'
    simpa [hpc] using hk
  | done hpc =>
    have hk := gcRelease_kept (v := v) h he
    simpa [hpc, opens_collector (show (s.gc v).pc.isIdle = false by rw [hpc]; rfl)] using hk
  | reopen cont t hpc ht =>
    -- the old chunk is let go before the new one is opened
    set s₁ := (s.setStore v (System.gcClear (s.store v))).setGc v { s.gc v with pc := .idle } with hs₁
    have hk₁ := gcRelease_kept (v := v) h he
    rw [← hs₁] at hk₁
    have hstore : s₁.store v = System.gcClear (s.store v) := by
      simp only [System.store, hs₁, stores_setGc]
      rfl
    have hk₂ := gcOpen_kept (v := v) (g := { s.gc v with pc := .entries cont, wOffset := 0 }) hk₁.tidy
      (hk₁.exclusive.mpr trivial) (by simp [System.opens, hs₁, GcPc.isIdle]) (by simp [hs₁, System.gcClear])
      (hstore ▸ ht) rfl (by simp) rfl
    have hs' : (s₁.setStore v t).setGc v { s.gc v with pc := .entries cont, wOffset := 0 } =
        (s.setStore v t).setGc v { s.gc v with pc := .entries cont, wOffset := 0 } := by
      simp [hs₁, System.setGc, System.setStore]
    rw [hs'] at hk₂
    refine ⟨hk₂.tidy, hk₂.exclusive, ?_⟩
    rw [hk₂.noneLost, hk₁.noneLost, and_true]
    simp [hpc, opens_collector (show (s.gc v).pc.isIdle = false by rw [hpc]; rfl)]

theorem gcLink_kept {m : MovedEntry A} (h : Tidy cfg s) (he : Exclusive cfg s) (hs : s.gcLink cfg v m = some s') :
    Kept cfg s s' (m.opType = .remove → LastBit cfg (s.stores v) m.chunkOffset m.entryOffset →
      ∀ o, s.opens v o ≠ some m.chunkOffset) True := by
  obtain ⟨moved, cont, t, hpc, hm, ht, rfl⟩ := gcLink_spec hs
  obtain ⟨hw, -, hg, -⟩ := gcLinkOne_spec ht
  set s' := (s.setStore v t).setGc v { s.gc v with pc := .sync (moved.erase m) cont } with hs'
  have hst : s'.stores v = t := stores_setGc ..
  have hgc : (s'.gc v).pc = .sync (moved.erase m) cont := by rw [hs', gc_setGc]
  have hidle : (s.gc v).pc.isIdle = false := by
    rw [hpc]
    rfl
  have hidle' : (s'.gc v).pc.isIdle = false := by
    rw [hgc]
    rfl
  have hv : Elsewhere s s' v := (elsewhere_setStore s v t).setGc _
  have hpend : s.gcPending v = moved := by rw [System.gcPending, hpc]
  have hrec : ∀ m' ∈ s'.gcPending v, m' ∈ s.gcPending v := by
    intro m' hm'
    rw [System.gcPending, hgc] at hm'
    exact hpend ▸ List.mem_of_mem_erase hm'
  have hphase : GcTidy cfg s' v (s'.gc v).pc := by
    rw [hgc]
    trivial
  unfold gcLinkOne at ht
  cases hop : m.opType with
  | remove =>
    rw [hop] at ht
    cases ht
    rw [forall_prop_of_true rfl]
    exact unlink_kept h he hv hst rfl hrec (by rw [hidle, hidle']) fun _ => hphase
  | insert =>
    rw [hop] at ht
    obtain ⟨hf, hb⟩ := gcLinkToAt_space ht
    rw [← hst] at hw hg hf hb
    obtain ⟨hchunk, hent⟩ := (h v).records m (hpend ▸ hm) hop
    have ho := opens_collector hidle
    rw [← hchunk] at ho
    have hopens : s'.opens v = s.opens v :=
      opens_congr (fun w => by rw [hw]; exact ⟨rfl, rfl⟩) (by rw [hg]; rfl) (by rw [hidle, hidle'])
    have hk : Kept cfg s s' True True := by
      refine .of_fill h he hv ?_ ho (pool_linked hent hf hb hopens)
      refine ⟨fun w m' hm' => ?_, fun o c hc => (h v).opened o c (hopens ▸ hc), (h v).setBit ho hent hb,
        by rw [hf]; exact (h v).listed, fun m' hm' => by rw [hg]; exact (h v).records m' (hrec m' hm'), hphase⟩
      have hpend' : s'.pending v w = s.pending v w := System.pending_congr rfl (by rw [hw]; rfl)
      rw [hw]
      exact (h v).writers w m' (hpend' ▸ hm')
    simpa using hk

/-- A step that clears the last bit of a chunk does so for a chunk that is not open. -/
def KeepsExclusive (cfg : Config) (s : System A) : Step A → Prop
  | .update _ a _ _ => 0 ≤ (s.table a).vsIdx.vsId ∧ 0 ≤ (s.table a).vsIdx.vsOffset →
      LastBit cfg (s.stores (s.table a).vsIdx.vsId.toNat) ((s.table a).vsIdx.vsOffset.toNat / cfg.entriesPerChunk)
        ((s.table a).vsIdx.vsOffset.toNat % cfg.entriesPerChunk) →
      ∀ o, s.opens (s.table a).vsIdx.vsId.toNat o ≠ some ((s.table a).vsIdx.vsOffset.toNat / cfg.entriesPerChunk)
  | .gcLink v m => m.opType = .remove → LastBit cfg (s.stores v) m.chunkOffset m.entryOffset →
      ∀ o, s.opens v o ≠ some m.chunkOffset
  | _ => True

/-- A step that closes a chunk leaves a valid bit in it. -/
def KeepsUsed (cfg : Config) (s : System A) : Step A → Prop
  | .close l => ∀ v, (s.log l).phase.vs = some v → ∀ c, s.opens v (.writer l.1) = some c →
      isEmpty cfg (s.stores v) c = false
  | .gc v => ∀ cont, (s.gc v).pc = .sync [] cont →
      isEmpty cfg (s.stores v) (s.stores v).gcWChunk.chunkOffset = false
  | _ => True

theorem step_kept {home : Ptr → Option LogId} {keyOf : A → ℕ} {x : Step A} (h : Tidy cfg s)
    (he : Exclusive cfg s)
    (hs : step home keyOf cfg S s x = some s') : Kept cfg s s' (KeepsExclusive cfg s x) (KeepsUsed cfg s x) := by
  cases x with
  | insert l a val p =>
    obtain ⟨-, rfl⟩ := System.insert_spec hs
    exact .of_quiet h he rfl rfl rfl
  | update l a val p => exact update_kept h he hs
  | start l v =>
    obtain ⟨-, rfl⟩ := System.start_spec hs
    exact .of_quiet h he rfl rfl rfl
  | reclaim l => exact reclaim_kept h he hs
  | write l => exact write_kept h he hs
  | link l m => exact link_kept h he hs
  | close l => exact close_kept h he hs
  | finish l =>
    obtain ⟨-, rfl⟩ := System.finish_spec hs
    exact .of_quiet h he rfl rfl rfl
  | gc v => exact gcStep_kept h he hs
  | gcLink v m => exact gcLink_kept h he hs

end Steps

end Hkv.Prism
