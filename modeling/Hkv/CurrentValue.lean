import Hkv.ChunkBatch
import Hkv.StepFrame

/-!
# Which copy of a value is the newest

The marker in `vs_offset` says that an entry is in flight, but not which of its copies
is. Two copies of one entry may be pending at once, and a collector may hold a third
one. As long as no outdated copy is linked last, the place that `get_val_pos` names
holds the newest value.
-/
namespace Hkv.Prism
open MtsConfig TaggedPointer AddressTable KeyedSort ValueStorage StepRun

variable {A : Type}

/-! ## The condition on the steps -/

/-- No entry is linked to chunk `c` of store `v`, and no record that is still to be
linked names it. -/
structure NotInUse (cfg : Config) (s : System A) (v c : ℕ) : Prop where
  linked : ∀ a, (s.table a).Linked → (s.table a).vsIdx.vsId = v →
    (s.table a).vsIdx.vsOffset.toNat / cfg.entriesPerChunk ≠ c
  writers : ∀ w moved, s.sync v w = some moved → ∀ m ∈ moved, m.chunkOffset ≠ c
  collector : ∀ moved cont, (s.gc v).pc = .sync moved cont → ∀ m ∈ moved,
    m.opType = .insert → m.chunkOffset ≠ c

/-- Slot `w` of store `v` holds an up-to-date copy of `a`. -/
def System.Newest (s : System A) (v w : ℕ) (a : A) : Prop := s.InFlight v w a ∧ s.putAt v w a = s.version a

/-- The batch has distinct keys, leftovers of the buffer sort behind it, and the chunk
is not in use. -/
structure WriteOk (cfg : Config) (s : System A) (v w : ℕ) : Prop where
  keys : ((batch ((s.stores v).wChunk w)).map VsEntry.key).Nodup
  clean : Clean cfg ((s.stores v).wChunk w)
  free : NotInUse cfg s v ((s.stores v).wChunk w).chunkOffset

/-- The link is skipped, the copy is up to date, or an up-to-date copy waits elsewhere. -/
def LinkOk (s : System A) (v w : ℕ) (a : A) : Prop :=
  (s.table a).vsIdx.vsOffset = newlyUpdatedVal ∨ s.putAt v w a = s.version a ∨
    ∃ v' w', (v' = v → w' ≠ w) ∧ s.Newest v' w' a

/-- Entry `i` of a victim belongs to an entry that is linked to this very slot and has no
copy in flight; it did not change since it was read, and neither this entry nor its key
is gathered yet. -/
def CopyOk (cfg : Config) (s : System A) (v victim i : ℕ) : Prop :=
  ∃ a, ((s.stores v).gcRBuffer i).atEntry = some a ∧ s.values a ≠ [] ∧
    (s.table a).vsIdx = ⟨v, cfg.slotOffset victim i⟩ ∧ (s.stores v).disk victim i = (s.stores v).gcRBuffer i ∧
    (∀ v' w', ¬ s.InFlight v' w' a) ∧
    ∀ m ∈ (s.stores v).gcWChunk.movedEntryList, m.key ≠ ((s.stores v).gcRBuffer i).key ∧ m.atEntry ≠ some a

def GcOk (cfg : Config) (s : System A) (v : ℕ) : Prop :=
  match (s.gc v).pc with
  | .entries (victim, i :: _, _) => (s.stores v).bitmap victim i = true → CopyOk cfg s v victim i
  | .write _ => NotInUse cfg s v (s.stores v).gcWChunk.chunkOffset
  | _ => True

/-- The link of the collector is skipped, its copy is up to date, or an up-to-date copy
waits in a writer slot. -/
def GcLinkOk (s : System A) (v : ℕ) (a : A) : Prop :=
  (s.table a).vsIdx.vsOffset = newlyUpdatedVal ∨ (s.table a).vsIdx.vsOffset = preValuestorageVal ∨
    (s.table a).vsIdx.vsId ≠ v ∨ s.copiedAt v a = s.version a ∨ ∃ v' w', s.Newest v' w' a

/-- The steps that keep every link current. -/
def Orderly (cfg : Config) (s : System A) : Step A → Prop
  | .write l => ∀ v, (s.log l).phase.vs = some v → WriteOk cfg s v l.1
  | .link l m => ∀ v a, (s.log l).phase.vs = some v → m.atEntry = some a → LinkOk s v l.1 a
  | .gc v => GcOk cfg s v
  | .gcLink v m => m.opType = .insert → ∀ a, m.atEntry = some a → GcLinkOk s v a
  | _ => True

/-! ## The invariant -/

/-- A list of entries to do of a victim. -/
def GcCont.InRange (cfg : Config) (cont : GcCont) : Prop := ∀ i ∈ cont.2.1, i < cfg.entriesPerChunk

/-- The collector of `v` has gathered `ps`; a copy made for the current version of an
entry has its newest value. -/
structure Gathering (cfg : Config) (s : System A) (v : ℕ) (ps : List (Copy A)) : Prop where
  gathered : Gathered cfg (s.stores v).gcWChunk ps
  current : ∀ p ∈ ps, ∀ a, p.entry.atEntry = some a → s.copiedAt v a = s.version a →
    p.entry.val = s.latest a

/-- What the collector of `v` knows at each of its actions. -/
def GcCurrent (cfg : Config) (s : System A) (v : ℕ) : GcPc A → Prop
  | .idle => Gathering cfg s v []
  | .victims _ => ∃ ps, Gathering cfg s v ps ∧ (s.gc v).wOffset = ps.length ∧ ps.length < cfg.entriesPerChunk
  | .entries cont => cont.InRange cfg ∧
      ∃ ps, Gathering cfg s v ps ∧ (s.gc v).wOffset = ps.length ∧ ps.length < cfg.entriesPerChunk
  | .write cont => (∀ c ∈ cont, c.InRange cfg) ∧ ∃ ps, Gathering cfg s v ps
  | .sync moved cont => (∀ c ∈ cont, c.InRange cfg) ∧ (s.stores v).gcWChunk.wBuffer = (fun _ => zeroEntry) ∧
      ∀ m ∈ moved, m.opType = .insert → ∀ a, m.atEntry = some a → m.entryOffset < cfg.entriesPerChunk ∧
        (s.copiedAt v a = s.version a → ((s.stores v).disk m.chunkOffset m.entryOffset).val = s.latest a)

structure Collectors (cfg : Config) (s : System A) : Prop where
  le : ∀ v a, s.copiedAt v a ≤ s.version a
  current : ∀ v, GcCurrent cfg s v (s.gc v).pc

/-- What writer slot `w` of store `v` holds. A copy for the current version of an entry
has its newest value. -/
structure WriterCurrent (keyOf : A → ℕ) (cfg : Config) (s : System A) (v w : ℕ) : Prop where
  le : ∀ a, s.putAt v w a ≤ s.version a
  filled : s.sync v w = none → Filled keyOf cfg ((s.stores v).wChunk w)
  current : s.sync v w = none → ∀ a, s.Newest v w a →
    ∃ e ∈ batch ((s.stores v).wChunk w), e.atEntry = some a ∧ e.val = s.latest a
  written : ∀ moved, s.sync v w = some moved → ∀ m ∈ moved, ∀ a, m.atEntry = some a →
    m.entryOffset < cfg.entriesPerChunk ∧
      (s.putAt v w a = s.version a → ((s.stores v).disk m.chunkOffset m.entryOffset).val = s.latest a)

def Writers (keyOf : A → ℕ) (cfg : Config) (s : System A) : Prop := ∀ v w, WriterCurrent keyOf cfg s v w

/-- `a` is linked to a slot that holds its newest value. -/
def System.HoldsLatest (cfg : Config) (s : System A) (a : A) : Prop :=
  ∃ v c i : ℕ, i < cfg.entriesPerChunk ∧ (s.table a).vsIdx = ⟨v, cfg.slotOffset c i⟩ ∧
    ((s.stores v).disk c i).val = s.latest a

structure Current (keyOf : A → ℕ) (cfg : Config) (s : System A) : Prop where
  queued : ∀ l, ∀ p ∈ (s.log l).queue, ∃ a, (s.op p).opa = some a ∧ s.values a ≠ []
  writers : Writers keyOf cfg s
  collectors : Collectors cfg s
  linked : ∀ a, s.values a ≠ [] → (s.table a).Linked → (∃ v w, s.Newest v w a) ∨ s.HoldsLatest cfg a

variable {home : Ptr → Option LogId} {keyOf : A → ℕ} {cfg : Config} {S : StdSort} {s s' : System A}
    {l : LogId} {a : A}

/-! ## Frames -/

theorem inFlight_congr {v w : ℕ} (hs : s'.sync v w = s.sync v w)
    (hw : (s'.stores v).wChunk w = (s.stores v).wChunk w) : s'.InFlight v w a ↔ s.InFlight v w a := by
  rw [System.InFlight, System.InFlight, System.pending_congr hs (by rw [hw])]

theorem WriterCurrent.frame {v w : ℕ} (h : WriterCurrent keyOf cfg s v w)
    (hw : (s'.stores v).wChunk w = (s.stores v).wChunk w) (hs : s'.sync v w = s.sync v w)
    (hp : s'.putAt v w = s.putAt v w) (hv : Aged s s') (hd : ∀ moved, s.sync v w = some moved → ∀ m ∈ moved,
      (s'.stores v).disk m.chunkOffset = (s.stores v).disk m.chunkOffset) : WriterCurrent keyOf cfg s' v w := by
  refine ⟨fun a => ?_, fun hnone => ?_, fun hnone a hnew => ?_, fun moved hmoved m hm a ha => ?_⟩
  · rw [hp]
    exact (h.le a).trans (hv.le a)
  · rw [hw]
    exact h.filled (hs ▸ hnone)
  · obtain ⟨hf, hput⟩ := hnew
    rw [hp] at hput
    obtain ⟨hput', hlatest⟩ := hv.fresh (h.le a) hput
    rw [hw, hlatest]
    exact h.current (hs ▸ hnone) a ⟨(inFlight_congr hs hw).mp hf, hput'⟩
  · rw [hs] at hmoved
    obtain ⟨hlt, hval⟩ := h.written moved hmoved m hm a ha
    refine ⟨hlt, fun hput => ?_⟩
    rw [hp] at hput
    obtain ⟨hput', hlatest⟩ := hv.fresh (h.le a) hput
    rw [hd moved hmoved m hm, hlatest]
    exact hval hput'

theorem Gathering.frame {v : ℕ} {ps : List (Copy A)} (h : Gathering cfg s v ps)
    (hle : ∀ a, s.copiedAt v a ≤ s.version a) (hg : (s'.stores v).gcWChunk = (s.stores v).gcWChunk)
    (hc : s'.copiedAt v = s.copiedAt v) (hv : Aged s s') :
    Gathering cfg s' v ps := by
  refine ⟨hg ▸ h.gathered, fun p hp a ha hcop => ?_⟩
  rw [hc] at hcop
  obtain ⟨hcop', hlatest⟩ := hv.fresh (hle a) hcop
  rw [hlatest]
  exact h.current p hp a ha hcop'

theorem GcCurrent.frame {v : ℕ} (h : GcCurrent cfg s v (s.gc v).pc) (hle : ∀ a, s.copiedAt v a ≤ s.version a)
    (hg : (s'.stores v).gcWChunk = (s.stores v).gcWChunk) (hgc : s'.gc v = s.gc v)
    (hc : s'.copiedAt v = s.copiedAt v) (hv : Aged s s')
    (hd : ∀ moved cont, (s.gc v).pc = .sync moved cont → ∀ m ∈ moved, m.opType = .insert →
      (s'.stores v).disk m.chunkOffset = (s.stores v).disk m.chunkOffset) : GcCurrent cfg s' v (s'.gc v).pc := by
  rw [hgc]
  cases hpc : (s.gc v).pc with
  | idle =>
    rw [hpc] at h
    exact Gathering.frame h hle hg hc hv
  | victims used =>
    rw [hpc] at h
    obtain ⟨ps, hps, hoff, hlt⟩ := h
    exact ⟨ps, hps.frame hle hg hc hv, hgc ▸ hoff, hlt⟩
  | entries cont =>
    rw [hpc] at h
    obtain ⟨hrange, ps, hps, hoff, hlt⟩ := h
    exact ⟨hrange, ps, hps.frame hle hg hc hv, hgc ▸ hoff, hlt⟩
  | write cont =>
    rw [hpc] at h
    obtain ⟨hrange, ps, hps⟩ := h
    exact ⟨hrange, ps, hps.frame hle hg hc hv⟩
  | sync moved cont =>
    rw [hpc] at h
    obtain ⟨hrange, hbuf, hrec⟩ := h
    refine ⟨hrange, hg ▸ hbuf, fun m hm hop a ha => ?_⟩
    obtain ⟨hlt, hval⟩ := hrec m hm hop a ha
    refine ⟨hlt, fun hcop => ?_⟩
    rw [hc] at hcop
    obtain ⟨hcop', hlatest⟩ := hv.fresh (hle a) hcop
    rw [hd moved cont hpc m hm hop, hlatest]
    exact hval hcop'

theorem Collectors.frame (h : Collectors cfg s) (hg : ∀ v, (s'.stores v).gcWChunk = (s.stores v).gcWChunk)
    (hgc : s'.gc = s.gc) (hc : s'.copiedAt = s.copiedAt) (hv : Aged s s')
    (hd : ∀ v moved cont, (s.gc v).pc = .sync moved cont → ∀ m ∈ moved, m.opType = .insert →
      (s'.stores v).disk m.chunkOffset = (s.stores v).disk m.chunkOffset) : Collectors cfg s' := by
  refine ⟨fun v a => ?_, fun v => ?_⟩
  · rw [hc]
    exact (h.le v a).trans (hv.le a)
  · exact (h.current v).frame (h.le v) (hg v) (by rw [hgc]) (by rw [hc]) hv (hd v)

theorem linked_frame
    (h : s.values a ≠ [] → (s.table a).Linked → (∃ v w, s.Newest v w a) ∨ s.HoldsLatest cfg a)
    (ht : s'.table a = s.table a) (hv : s'.values a = s.values a)
    (hn : ∀ v w, s.Newest v w a → ∃ v w, s'.Newest v w a)
    (hd : ∀ v c i : ℕ, i < cfg.entriesPerChunk → (s.table a).vsIdx = ⟨v, cfg.slotOffset c i⟩ →
      (s'.stores v).disk c = (s.stores v).disk c)
    (hlive : s'.values a ≠ []) (hl : (s'.table a).Linked) :
    (∃ v w, s'.Newest v w a) ∨ s'.HoldsLatest cfg a := by
  rw [hv] at hlive
  rw [ht] at hl
  rcases h hlive hl with ⟨v, w, hnew⟩ | ⟨v, c, i, hi, hidx, hval⟩
  · exact .inl (hn v w hnew)
  · refine .inr ⟨v, c, i, hi, ht ▸ hidx, ?_⟩
    rw [hd v c i hi hidx, System.latest, hv]
    exact hval

/-! ## Steps of logs -/

/-- The parts of the invariant that a step of a log leaves to be checked. -/
structure Steady (s s' : System A) : Prop where
  putAt : s'.putAt = s.putAt
  copiedAt : s'.copiedAt = s.copiedAt
  sync : s'.sync = s.sync
  gc : s'.gc = s.gc
  wChunk : ∀ v, (s'.stores v).wChunk = (s.stores v).wChunk
  gcWChunk : ∀ v, (s'.stores v).gcWChunk = (s.stores v).gcWChunk
  disk : ∀ v, (s'.stores v).disk = (s.stores v).disk

theorem Steady.writers (h : Steady s s') (hv : Aged s s') (hw : Writers keyOf cfg s) : Writers keyOf cfg s' :=
  fun v w => (hw v w).frame (by rw [h.wChunk]) (by rw [h.sync]) (by rw [h.putAt]) hv fun _ _ _ _ => by rw [h.disk v]

theorem Steady.collectors (h : Steady s s') (hv : Aged s s') (hc : Collectors cfg s) : Collectors cfg s' :=
  hc.frame h.gcWChunk h.gc h.copiedAt hv fun v _ _ _ _ _ _ => by rw [h.disk v]

theorem Steady.newest (h : Steady s s') (hv : s'.values a = s.values a) {v w : ℕ} (hn : s.Newest v w a) :
    s'.Newest v w a := by
  refine ⟨(inFlight_congr (by rw [h.sync]) (by rw [h.wChunk])).mpr hn.1, ?_⟩
  rw [h.putAt, hn.2, System.version, System.version, hv]

theorem Steady.linked (h : Steady s s')
    (hl : s.values a ≠ [] → (s.table a).Linked → (∃ v w, s.Newest v w a) ∨ s.HoldsLatest cfg a)
    (ht : s'.table a = s.table a) (hv : s'.values a = s.values a) (hlive : s'.values a ≠ [])
    (hlinked : (s'.table a).Linked) : (∃ v w, s'.Newest v w a) ∨ s'.HoldsLatest cfg a :=
  linked_frame hl ht hv (fun v w hn => ⟨v, w, h.newest hv hn⟩) (fun v _ _ _ _ => by rw [h.disk v]) hlive hlinked

theorem Steady.unlinkPast (cfg : Config) (s : System A) (past : VsIdx) : Steady s (s.unlinkPast cfg past) := by
  have hb := Backstage.unlinkPast cfg s past
  have hg := unlinkPast_stores cfg s past Store.gcWChunk fun v c e => (unlinkToAt_fields cfg (s.store v) c e).2.2.2.1
  have hd := unlinkPast_stores cfg s past Store.disk fun v c e => (unlinkToAt_fields cfg (s.store v) c e).2.1
  refine ⟨hb.putAt, ?_, hb.sync, ?_, hb.wChunk, hg, hd⟩
  all_goals
    unfold System.unlinkPast
    split <;> rfl

theorem tagged_step [DecidableEq A] {x : Step A}
    (ht : ∀ a, s.values a ≠ [] → getTag (s.table a).valAddr = oplogVal)
    (hs : step home keyOf cfg S s x = some s') (hlive : s'.values a ≠ []) :
    getTag (s'.table a).valAddr = oplogVal := by
  rcases step_readdressed hs a with ⟨haddr, hv⟩ | htag
  · rw [haddr]
    exact ht a (hv ▸ hlive)
  · exact htag

section Steps
variable [DecidableEq A]

theorem Current.record (h : Current keyOf cfg s) (p : Ptr) (val : ℕ) {e : AtEntry}
    (he : e = ⟨⟨-1, newlyUpdatedVal⟩, putTaggedPtr p.addr oplogVal⟩) :
    Current keyOf cfg (s.record keyOf l a val p e) := by
  subst he
  have hsteady : Steady s (s.record keyOf l a val p ⟨⟨-1, newlyUpdatedVal⟩, putTaggedPtr p.addr oplogVal⟩) :=
    ⟨rfl, rfl, rfl, rfl, fun _ => rfl, fun _ => rfl, fun _ => rfl⟩
  have haged : Aged s (s.record keyOf l a val p ⟨⟨-1, newlyUpdatedVal⟩, putTaggedPtr p.addr oplogVal⟩) :=
    aged_record
  refine ⟨fun l' q hmem => ?_, hsteady.writers haged h.writers, hsteady.collectors haged h.collectors,
    fun b hb hl => ?_⟩
  · by_cases hqp : q = p
    · subst hqp
      exact ⟨a, by simp [System.record], by simp [System.record]⟩
    · have hold : q ∈ (s.log l').queue := by
        by_cases hl : l' = l
        · subst hl
          simpa [System.record, hqp] using hmem
        · simpa [System.record, hl] using hmem
      obtain ⟨b, hopa, hlive⟩ := h.queued l' q hold
      refine ⟨b, by simpa [System.record, hqp] using hopa, ?_⟩
      by_cases hab : b = a
      · simp [System.record, hab]
      · simpa [System.record, hab] using hlive
  · by_cases hab : b = a
    · subst hab
      have hneg := hl.1
      simp [System.record] at hneg
    · exact hsteady.linked (h.linked b) (by simp [System.record, hab]) (by simp [System.record, hab]) hb hl

omit [DecidableEq A] in
theorem Current.of_steady (h : Current keyOf cfg s) (hb : Backstage s s') (hs : Steady s s') :
    Current keyOf cfg s' := by
  have haged : Aged s s' := .of_eq hb.values
  refine ⟨fun l p hmem => ?_, hs.writers haged h.writers, hs.collectors haged h.collectors, fun a ha hl => ?_⟩
  · rw [hb.log] at hmem
    rw [hb.op, hb.values]
    exact h.queued l p hmem
  · exact hs.linked (h.linked a) (by rw [hb.table]) (by rw [hb.values]) ha hl

theorem Current.insert (h : Current keyOf cfg s) {val : ℕ} {p : Ptr}
    (hs : s.insert home keyOf l a val p = some s') : Current keyOf cfg s' := by
  obtain ⟨-, rfl⟩ := System.insert_spec hs
  exact h.record p val rfl

theorem Current.update (h : Current keyOf cfg s) {val : ℕ} {p : Ptr}
    (hs : s.update home keyOf cfg l a val p = some s') : Current keyOf cfg s' := by
  obtain ⟨-, rfl⟩ := System.update_spec hs
  exact (h.record p val rfl).of_steady (.unlinkPast cfg _ _) (.unlinkPast cfg _ _)

omit [DecidableEq A] in
theorem Current.of_log (h : Current keyOf cfg s) (log : LogId → WriteLog)
    (hq : ∀ l, ∀ p ∈ (log l).queue, p ∈ (s.log l).queue) : Current keyOf cfg { s with log := log } := by
  have hsteady : Steady s { s with log := log } :=
    ⟨rfl, rfl, rfl, rfl, fun _ => rfl, fun _ => rfl, fun _ => rfl⟩
  exact ⟨fun l p hmem => h.queued l p (hq l p hmem), hsteady.writers (.of_eq rfl) h.writers,
    hsteady.collectors (.of_eq rfl) h.collectors, fun a => hsteady.linked (h.linked a) rfl rfl⟩

omit [DecidableEq A] in
theorem setLog_queue {log : WriteLog} (hq : ∀ p ∈ log.queue, p ∈ (s.log l).queue) (l' : LogId) :
    ∀ p ∈ ((s.setLog l log).log l').queue, p ∈ (s.log l').queue := by
  intro p hp
  by_cases hl : l' = l
  · subst hl
    simp only [System.setLog, Function.update_self] at hp
    exact hq p hp
  · simpa [System.setLog, hl] using hp

omit [DecidableEq A] in
theorem Current.start (h : Current keyOf cfg s) {v : ℕ} (hs : s.start l v = some s') :
    Current keyOf cfg s' := by
  obtain ⟨-, rfl⟩ := System.start_spec hs
  exact h.of_log _ (setLog_queue fun _ hp => hp)

omit [DecidableEq A] in
theorem Current.finish (h : Current keyOf cfg s) (hs : s.finish l = some s') : Current keyOf cfg s' := by
  obtain ⟨-, rfl⟩ := System.finish_spec hs
  exact h.of_log _ (setLog_queue fun _ hp => by simp at hp)

/-! ## A put -/

theorem Writers.put (h : Writers keyOf cfg s) {v w val : ℕ} (hval : val = s.latest a)
    (hs : s.put cfg v w (keyOf a) val a = some s') : Writers keyOf cfg s' := by
  obtain ⟨i, c, hchunk, hc⟩ := put_chunk hs
  obtain ⟨hsync, -, -, hdisk, -, hother⟩ := put_rest hs
  obtain ⟨hnone, hlt, -⟩ := put_spec hs
  obtain ⟨-, -, -, hvalues, hself, hput⟩ := put_frame hs
  intro v' w'
  by_cases hvw : v' = v ∧ w' = w
  · obtain ⟨rfl, rfl⟩ := hvw
    have hversion : ∀ b, s'.version b = s.version b := fun b => by rw [System.version, System.version, hvalues]
    refine ⟨fun b => ?_, fun _ => ?_, fun _ b hnew => ?_, fun moved hmoved => ?_⟩
    · rw [hversion]
      by_cases hba : b = a
      · subst hba
        exact hself.le
      · rw [hput b v' w' fun _ _ => hba]
        exact (h v' w').le b
    · rw [hchunk, Function.update_self]
      exact (((h v' w').filled hnone).moveTo i hc).concat hlt val a
    · have hbatch : batch ((s'.stores v').wChunk w') = batch ((s.stores v').wChunk w') ++
        [⟨some a, keyOf a, val⟩] := by
        rw [hchunk, Function.update_self]
        exact Filled.batch_concat rfl rfl
      rw [hbatch, System.latest, hvalues]
      by_cases hba : b = a
      · subst hba
        exact ⟨⟨some b, keyOf b, val⟩, by simp, rfl, hval⟩
      · have hold : s.Newest v' w' b := by
          refine ⟨?_, by rw [← hput b v' w' fun _ _ => hba, hnew.2, hversion]⟩
          have hf := hnew.1
          simpa [System.InFlight, put_pending hs, hba] using hf
        obtain ⟨e, he, hea, hev⟩ := (h v' w').current hnone b hold
        exact ⟨e, List.mem_append_left _ he, hea, hev⟩
    · rw [hsync, hnone] at hmoved
      cases hmoved
  · refine (h v' w').frame ?_ (by rw [hsync]) ?_ (.of_eq hvalues) fun _ _ _ _ => by rw [hdisk]
    · by_cases hv : v' = v
      · subst hv
        rw [hchunk, Function.update_of_ne fun hw => hvw ⟨rfl, hw⟩]
      · rw [hother v' hv]
    · funext b
      exact hput b v' w' fun hv hw => absurd ⟨hv, hw⟩ hvw

theorem Current.reclaim (h : Current keyOf cfg s) (hp : Placed home keyOf s) (hs : s.reclaim cfg l = some s') :
    Current keyOf cfg s' := by
  obtain ⟨v, p, rest, a, hphase, hq, hopa, ⟨hpt, hput⟩ | ⟨hpt, rfl⟩⟩ := reclaim_spec hs
  · have hmem : p ∈ (s.log l).queue := by simp [hq]
    have hlive : s.values a ≠ [] := by
      obtain ⟨b, hb, hlive⟩ := h.queued l p hmem
      rwa [Option.some.inj (hopa.symm.trans hb)]
    obtain ⟨hopp, hentry⟩ := hp.logged_of_head hlive hmem hopa hpt
    rw [hopp] at hput
    obtain ⟨htable, hop, hlog, hvalues, hself, hother⟩ := put_frame hput
    obtain ⟨hsync, hgc, hcopied, hdisk, hgw, -⟩ := put_rest hput
    have hqueue : ∀ l' q, q ∈ (s'.log l').queue → q ∈ (s.log l').queue := by
      intro l' q hmem
      rw [hlog] at hmem
      exact setLog_queue (fun q hq' => by simpa [hq] using Or.inr hq') l' q hmem
    have hwriters : Writers keyOf cfg (s.deq l v p rest) := fun v w =>
      (h.writers v w).frame rfl rfl rfl (.of_eq rfl) fun _ _ _ _ => rfl
    refine ⟨fun l' q hmem => ?_,
      Writers.put (s := s.deq l v p rest) hwriters rfl hput,
      h.collectors.frame hgw hgc hcopied (.of_eq hvalues) fun v _ _ _ _ _ _ => by rw [hdisk v]; rfl,
      fun b hb hl => ?_⟩
    · rw [hop, hvalues]
      exact h.queued l' q (hqueue l' q hmem)
    · by_cases hab : b = a
      · subst hab
        have hneg := hl.2
        rw [htable, Function.update_self] at hneg
        exact absurd hneg (show ¬ -1 < preValuestorageVal by decide)
      · refine linked_frame (h.linked b) ?_ (congrFun hvalues b) (fun v' w' hn => ⟨v', w', ?_, ?_⟩)
          (fun v' _ _ _ _ => by rw [hdisk v']; rfl) hb hl
        · rw [htable, Function.update_of_ne hab]
          rfl
        · exact put_inFlight hput hn.1
        · rw [hother b v' w' fun _ _ => hab, System.version, hvalues]
          exact hn.2
  · exact h.of_log _ (setLog_queue fun q hq' => by simpa [hq] using Or.inr hq')

/-! ## A flush -/

omit [DecidableEq A] in
theorem NotInUse.disk {v c : ℕ} (h : NotInUse cfg s v c) (hd : ∀ v' c', (v' = v → c' ≠ c) →
      (s'.stores v').disk c' = (s.stores v').disk c') :
    (∀ v' w moved, s.sync v' w = some moved → ∀ m ∈ moved,
      (s'.stores v').disk m.chunkOffset = (s.stores v').disk m.chunkOffset) ∧
    (∀ v' moved cont, (s.gc v').pc = .sync moved cont → ∀ m ∈ moved, m.opType = .insert →
      (s'.stores v').disk m.chunkOffset = (s.stores v').disk m.chunkOffset) ∧
    ∀ a, (s.table a).Linked → ∀ v' c' i : ℕ, i < cfg.entriesPerChunk →
      (s.table a).vsIdx = ⟨v', cfg.slotOffset c' i⟩ → (s'.stores v').disk c' = (s.stores v').disk c' := by
  refine ⟨fun v' w moved hmoved m hm => hd _ _ ?_, fun v' moved cont hpc m hm hop => hd _ _ ?_,
    fun a hl v' c' i hi hidx => hd _ _ ?_⟩
  · rintro rfl
    exact h.writers w moved hmoved m hm
  · rintro rfl
    exact h.collector moved cont hpc m hm hop
  · rintro rfl
    have hne := h.linked a hl (by rw [hidx])
    rwa [hidx, Int.toNat_natCast, cfg.slotOffset_div c' hi] at hne

omit [DecidableEq A] in
theorem WriterCurrent.batch_val {v w : ℕ} (h : WriterCurrent keyOf cfg s v w) (hnone : s.sync v w = none)
    (hkeys : ((batch ((s.stores v).wChunk w)).map VsEntry.key).Nodup) {e : VsEntry A}
    (he : e ∈ batch ((s.stores v).wChunk w)) (ha : e.atEntry = some a) (hput : s.putAt v w a = s.version a) :
    e.val = s.latest a := by
  have hfilled := h.filled hnone
  have hflight : s.InFlight v w a := by
    rw [System.InFlight, System.pending, hnone]
    simp only [hfilled.moved, movedOf_atEntry, ← ha]
    exact List.mem_map_of_mem he
  obtain ⟨e', he', ha', hval⟩ := h.current hnone a ⟨hflight, hput⟩
  have hkey : ∀ {x}, x ∈ batch ((s.stores v).wChunk w) → x.atEntry = some a → x.key = keyOf a := by
    intro x hx hxa
    obtain ⟨b, hb, hk⟩ := hfilled.entries x hx
    rw [hk, Option.some.inj (hb.symm.trans hxa)]
  have heq : e = e' := List.inj_on_of_nodup_map hkeys he he' (by rw [hkey he ha, hkey he' ha'])
  rw [heq, hval]

omit [DecidableEq A] in
theorem Current.write (h : Current keyOf cfg s) (hok : Orderly cfg s (.write l)) (hs : s.write cfg S l = some s') :
    Current keyOf cfg s' := by
  have hflight := fun {b : A} {v w : ℕ} => write_inFlight (b := b) (v := v) (w := w) hs
  obtain ⟨v, hv, hnone, hsync, hself, hdisk, hother, hgc⟩ := write_stores hs
  have hw := hok v hv
  obtain ⟨hdw, hdc, hdl⟩ := hw.free.disk hdisk
  obtain ⟨_, -, -, rfl⟩ := write_spec hs
  refine ⟨h.queued, fun v' w' => ?_, h.collectors.frame hgc rfl rfl (.of_eq rfl) hdc, fun a ha hl => ?_⟩
  · by_cases hvw : v' = v ∧ w' = l.1
    · obtain ⟨rfl, rfl⟩ := hvw
      refine ⟨(h.writers v' l.1).le, fun hn => ?_, fun hn => ?_, fun moved hmoved m hm a ha => ?_⟩
      · rw [hsync] at hn
        cases hn
      · rw [hsync] at hn
        cases hn
      · rw [hsync, Option.some.injEq] at hmoved
        subst hmoved
        obtain ⟨hc, hlt, e, he, hat, hbuf⟩ := ((h.writers v' l.1).filled hnone).written hw.keys hw.clean hm
        refine ⟨hlt, fun hput => ?_⟩
        rw [hc, hself, hbuf]
        exact (h.writers v' l.1).batch_val hnone hw.keys he (hat ▸ ha) hput
    · obtain ⟨hs', hw'⟩ := hother v' w' fun hv hw => hvw ⟨hv, hw⟩
      exact (h.writers v' w').frame hw' hs' rfl (.of_eq rfl) (hdw v' w')
  · exact linked_frame (h.linked a) rfl rfl (fun v' w' hn => ⟨v', w', hflight hn.1, hn.2⟩) (hdl a hl) ha hl

theorem Current.link (h : Current keyOf cfg s) {m : MovedEntry A} (hok : Orderly cfg s (.link l m))
    (hs : s.link cfg l m = some s') : Current keyOf cfg s' := by
  have hflight := fun {b : A} {v w : ℕ} => link_inFlight (b := b) (v := v) (w := w) hs
  obtain ⟨v, moved, hv, hmoved, hm, hself, hother, hstores⟩ := link_rest hs
  have hpend : ∀ v' w', (v' = v → w' ≠ l.1) → ∀ b, s'.InFlight v' w' b ↔
    s.InFlight v' w' b := fun v' w' hne b =>
    inFlight_congr (hother v' w' hne) (by rw [(hstores v').1])
  obtain ⟨v₀, _, t, hv₀, -, -, ht, rfl⟩ := link_spec hs
  obtain rfl : v = v₀ := Option.some.inj (hv.symm.trans hv₀)
  refine ⟨h.queued, fun v' w' => ?_, h.collectors.frame (fun v' => (hstores v').2.2) rfl rfl (.of_eq rfl)
    fun v' _ _ _ _ _ _ => by rw [(hstores v').2.1], fun b hb hl => ?_⟩
  · by_cases hvw : v' = v ∧ w' = l.1
    · obtain ⟨rfl, rfl⟩ := hvw
      refine ⟨(h.writers v' l.1).le, fun hn => ?_, fun hn => ?_, fun moved' hmoved' m' hm' a ha => ?_⟩
      · rw [hself] at hn
        cases hn
      · rw [hself] at hn
        cases hn
      · rw [hself, Option.some.injEq] at hmoved'
        subst hmoved'
        rw [(hstores v').2.1]
        exact (h.writers v' l.1).written moved hmoved m' (List.mem_of_mem_erase hm') a ha
    · exact (h.writers v' w').frame (by rw [(hstores v').1]) (hother v' w' fun hv hw => hvw ⟨hv, hw⟩) rfl
        (.of_eq rfl) fun _ _ _ _ => by rw [(hstores v').2.1]
  · obtain ⟨a, ha, -, -, -, -, htable⟩ := linkToAt_spec ht
    by_cases hab : b = a
    · subst hab
      rcases htable with ⟨htable, hupd⟩ | ⟨hupd, htable⟩
      · -- the link was skipped, so the entry is not linked
        have hneg := hl.2
        rw [show ((s.setStore v t).setSync v l.1 _).table b = s.table b from congrFun htable b,
          show (s.table b).vsIdx.vsOffset = newlyUpdatedVal from hupd] at hneg
        exact absurd hneg (by decide)
      · rcases hok v b hv ha with hskip | hput | ⟨v', w', hne, hnew⟩
        · exact absurd hskip hupd
        · obtain ⟨hlt, hval⟩ := (h.writers v l.1).written moved hmoved m hm b ha
          refine .inr ⟨v, m.chunkOffset, m.entryOffset, hlt, ?_, ?_⟩
          · rw [show ((s.setStore v t).setSync v l.1 _).table b = _ from congrFun htable b, Function.update_self]
            rfl
          · rw [(hstores v).2.1]
            exact hval hput
        · exact .inl ⟨v', w', (hpend v' w' hne b).mpr hnew.1, hnew.2⟩
    · have hne : m.atEntry ≠ some b := fun he => hab (Option.some.inj (he.symm.trans ha))
      have hsame : t.table b = s.table b := by
        rcases htable with ⟨htable, -⟩ | ⟨-, htable⟩
        · exact congrFun htable b
        · rw [htable, Function.update_of_ne hab]
          rfl
      exact linked_frame (h.linked b) hsame rfl (fun v' w' hn => ⟨v', w', hflight hne hn.1, hn.2⟩)
        (fun v' _ _ _ _ => by rw [(hstores v').2.1]) hb hl

theorem Current.close (h : Current keyOf cfg s) (hs : s.close l = some s') : Current keyOf cfg s' := by
  have hflight := fun {b : A} {v w : ℕ} => close_inFlight (b := b) (v := v) (w := w) hs
  obtain ⟨v, ⟨hnone, hnil, hzero, hmoved⟩, hother, hstores, hqueue⟩ := close_rest hs
  obtain ⟨_, _, -, -, -, rfl⟩ := close_spec hs
  refine ⟨fun l' p hp => h.queued l' p (hqueue l' ▸ hp), fun v' w' => ?_,
    h.collectors.frame (fun v' => (hstores v').2) rfl rfl (.of_eq rfl) fun v' _ _ _ _ _ _ => by rw [(hstores v').1],
    fun b => linked_frame (h.linked b) rfl rfl (fun v' w' hn => ⟨v', w', hflight.mpr hn.1, hn.2⟩)
      fun v' _ _ _ _ => by rw [(hstores v').1]⟩
  by_cases hvw : v' = v ∧ w' = l.1
  · obtain ⟨rfl, rfl⟩ := hvw
    refine ⟨(h.writers v' l.1).le, fun _ => .of_idle hzero hmoved, fun _ a hnew => ?_, fun moved hsome => ?_⟩
    · -- nothing is in flight in a slot that was closed
      have hf := hflight.mp hnew.1
      simp [System.InFlight, System.pending, hnil] at hf
    · rw [hnone] at hsome
      cases hsome
  · obtain ⟨hs', hw'⟩ := hother v' w' fun hv hw => hvw ⟨hv, hw⟩
    exact (h.writers v' w').frame hw' hs' rfl (.of_eq rfl) fun _ _ _ _ => by rw [(hstores v').1]

/-! ## Garbage collection -/

omit [DecidableEq A] in
theorem Current.collect {v : ℕ} (h : Current keyOf cfg s) (hb : Backstage s s')
    (hother : ∀ v', v' ≠ v → s'.gc v' = s.gc v' ∧ s'.copiedAt v' = s.copiedAt v' ∧
      s'.stores v' = s.stores v')
    (hdw : ∀ w moved, s.sync v w = some moved → ∀ m ∈ moved,
      (s'.stores v).disk m.chunkOffset = (s.stores v).disk m.chunkOffset)
    (hdl : ∀ a, (s.table a).Linked → ∀ c i : ℕ, i < cfg.entriesPerChunk →
      (s.table a).vsIdx = ⟨v, cfg.slotOffset c i⟩ → (s'.stores v).disk c = (s.stores v).disk c)
    (hle : ∀ a, s'.copiedAt v a ≤ s.version a) (hpc : GcCurrent cfg s' v (s'.gc v).pc) :
    Current keyOf cfg s' := by
  have haged : Aged s s' := .of_eq hb.values
  refine ⟨fun l p hp => ?_, fun v' w => ?_, ⟨fun v' a => ?_, fun v' => ?_⟩, fun a ha hl => ?_⟩
  · rw [hb.log] at hp
    rw [hb.op, hb.values]
    exact h.queued l p hp
  · refine (h.writers v' w).frame (by rw [hb.wChunk]) (by rw [hb.sync]) (by rw [hb.putAt]) haged ?_
    by_cases hv : v' = v
    · subst hv
      exact hdw w
    · rw [(hother v' hv).2.2]
      exact fun _ _ _ _ => rfl
  · by_cases hv : v' = v
    · subst hv
      exact (hle a).trans (haged.le a)
    · rw [(hother v' hv).2.1]
      exact (h.collectors.le v' a).trans (haged.le a)
  · by_cases hv : v' = v
    · subst hv
      exact hpc
    · obtain ⟨hgc, hcop, hst⟩ := hother v' hv
      exact (h.collectors.current v').frame (h.collectors.le v') (by rw [hst]) hgc hcop haged fun _ _ _ _ _ _ => by
        rw [hst]
  · refine linked_frame (h.linked a) (by rw [hb.table]) (by rw [hb.values])
      (fun v' w hn => ⟨v', w, hb.inFlight.mpr hn.1, ?_⟩) (fun v' c i hi hidx => ?_) ha hl
    · rw [hb.putAt, hn.2, System.version, System.version, hb.values]
    · by_cases hv : v' = v
      · subst hv
        exact hdl a (hb.table ▸ hl) c i hi hidx
      · rw [(hother v' hv).2.2]

omit [DecidableEq A] in
theorem setStore_other {v v' : ℕ} (t : Store A) (g : GcThread A) (hv : v' ≠ v) :
    ((s.setStore v t).setGc v g).gc v' = s.gc v' ∧ ((s.setStore v t).setGc v g).copiedAt v' = s.copiedAt v' ∧
      ((s.setStore v t).setGc v g).stores v' = s.stores v' := by
  simp [System.setStore, System.setGc, hv]

omit [DecidableEq A] in
theorem Current.collect_setStore {v : ℕ} {t : Store A} {g : GcThread A} (h : Current keyOf cfg s)
    (hb : Backstage s ((s.setStore v t).setGc v g)) (hd : t.disk = (s.stores v).disk)
    (hpc : GcCurrent cfg ((s.setStore v t).setGc v g) v g.pc) : Current keyOf cfg ((s.setStore v t).setGc v g) := by
  have hdisk : (((s.setStore v t).setGc v g).stores v).disk = (s.stores v).disk := by
    simpa [System.setStore, System.setGc] using hd
  refine h.collect hb (fun v' hv => setStore_other t g hv) (fun _ _ _ _ _ => by rw [hdisk])
    (fun _ _ _ _ _ _ => by rw [hdisk]) (h.collectors.le v) ?_
  simpa [System.setGc] using hpc

omit [DecidableEq A] in
theorem Current.collect_setGc {v : ℕ} {g : GcThread A} (h : Current keyOf cfg s)
    (hpc : GcCurrent cfg (s.setGc v g) v g.pc) : Current keyOf cfg (s.setGc v g) := by
  refine h.collect (.setGc s v g) (fun v' hv => ?_) (fun _ _ _ _ _ => rfl) (fun _ _ _ _ _ _ => rfl)
    (h.collectors.le v) ?_
  · simp [System.setGc, hv]
  · simpa [System.setGc] using hpc

omit [DecidableEq A] in
theorem CopyOk.val {v victim i : ℕ} (hok : CopyOk cfg s v victim i) (h : Current keyOf cfg s)
    (hi : i < cfg.entriesPerChunk) : ∃ a, ((s.stores v).gcRBuffer i).atEntry = some a ∧
      ((s.stores v).gcRBuffer i).val = s.latest a ∧
      ∀ m ∈ (s.stores v).gcWChunk.movedEntryList, m.key ≠ ((s.stores v).gcRBuffer i).key ∧
      m.atEntry ≠ some a := by
  obtain ⟨a, hat, hlive, hidx, hread, hnone, hnew⟩ := hok
  refine ⟨a, hat, ?_, hnew⟩
  have hlinked : (s.table a).Linked := by
    have := linked_slot v (cfg.slotOffset victim i) (s.table a)
    rwa [← hidx] at this
  rcases h.linked a hlive hlinked with ⟨v', w, hn⟩ | ⟨v', c, j, hj, hidx', hval⟩
  · exact absurd hn.1 (hnone v' w)
  · rw [hidx, VsIdx.mk.injEq, Int.natCast_inj, Int.natCast_inj] at hidx'
    obtain ⟨rfl, hslot⟩ := hidx'
    obtain ⟨rfl, rfl⟩ := cfg.slotOffset_inj hi hj hslot
    rw [← hread]
    exact hval

theorem Gathering.copy {v victim i : ℕ} {ps : List (Copy A)} (hg : Gathering cfg s v ps) (h : Current keyOf cfg s)
    (hoff : (s.gc v).wOffset = ps.length) (hlt : ps.length < cfg.entriesPerChunk) (hi : i < cfg.entriesPerChunk)
    (hok : CopyOk cfg s v victim i) (g : GcThread A) :
    Gathering cfg ((s.gcCopy v victim i).setGc v g) v (ps ++ [⟨victim, i, (s.stores v).gcRBuffer i⟩]) := by
  obtain ⟨a, hat, hval, hnew⟩ := hok.val h hi
  refine ⟨?_, fun p hp b hb hcop => ?_⟩
  · have hgath := hg.gathered.concat (p := ⟨victim, i, (s.stores v).gcRBuffer i⟩) hlt (by simp [hat]) fun m hm =>
      (hnew m hm).1
    simpa [System.gcCopy, System.setGc, System.setStore, gcCopyEntry, hoff] using hgath
  · rcases List.mem_append.mp hp with hp | hp
    · -- the copies made before are of other entries
      have hba : b ≠ a := by
        rintro rfl
        obtain ⟨m, hm, -, hmat⟩ := exists_mem_copiesMoved hp 0
        exact (hnew m (hg.gathered.moved ▸ hm)).2 (hmat.trans hb)
      refine hg.current p hp b hb ?_
      simpa [System.gcCopy, System.setGc, System.setStore, System.version, hat, hba] using hcop
    · obtain rfl := List.mem_singleton.mp hp
      obtain rfl := Option.some.inj (hat.symm.trans hb)
      exact hval

theorem Current.collect_gcCopy {v victim i : ℕ} {g : GcThread A} (h : Current keyOf cfg s)
    (hpc : GcCurrent cfg ((s.gcCopy v victim i).setGc v g) v g.pc) :
    Current keyOf cfg ((s.gcCopy v victim i).setGc v g) := by
  have hdisk : (((s.gcCopy v victim i).setGc v g).stores v).disk = (s.stores v).disk := by
    simp [System.gcCopy, System.setGc, System.setStore, gcCopyEntry]
  refine h.collect (.gcCopy s v victim i g) (fun v' hv => ?_) (fun _ _ _ _ _ => by rw [hdisk])
    (fun _ _ _ _ _ _ => by rw [hdisk]) (fun a => ?_) (by simpa [System.setGc] using hpc)
  · simp [System.gcCopy, System.setGc, System.setStore, hv]
  · cases hat : ((s.stores v).gcRBuffer i).atEntry with
    | none => simpa [System.gcCopy, System.setGc, hat] using h.collectors.le v a
    | some b =>
      by_cases hab : a = b
      · subst hab
        simp [System.gcCopy, System.setGc, hat]
      · simpa [System.gcCopy, System.setGc, hat, hab] using h.collectors.le v a

theorem Current.gcEntry {v victim i : ℕ} {is : List ℕ} {rest : List (ℕ × ℕ)} (h : Current keyOf cfg s)
    (hpc : (s.gc v).pc = .entries (victim, i :: is, rest)) (hok : GcOk cfg s v) :
    Current keyOf cfg (s.gcEntry cfg v victim i is rest) := by
  have hcur := h.collectors.current v
  rw [hpc] at hcur
  obtain ⟨hrange, ps, hps, hoff, hlt⟩ := hcur
  have hi : i < cfg.entriesPerChunk := hrange i List.mem_cons_self
  have hrest : GcCont.InRange cfg (victim, is, rest) := fun j hj => hrange j (List.mem_cons_of_mem _ hj)
  simp only [GcOk, hpc] at hok
  simp only [System.gcEntry]
  split
  · rename_i hbit
    have hcopy := fun g => hps.copy h hoff hlt hi (hok hbit) g
    split
    · -- the chunk is full
      refine h.collect_gcCopy ⟨fun c hc => ?_, _, hcopy _⟩
      split at hc
      · cases hc
      · cases hc
        exact hrest
    · rename_i hfull
      refine h.collect_gcCopy ⟨hrest, _, hcopy _, ?_, ?_⟩
      · simp [System.setGc, hoff]
      · rw [List.length_append, List.length_singleton]
        omega
  · refine h.collect_setGc ⟨hrest, ps, hps.frame (h.collectors.le v) rfl rfl (.of_eq rfl), ?_, hlt⟩
    simpa [System.setGc] using hoff

omit [DecidableEq A] in
theorem Current.gcLast {v : ℕ} {ps : List (Copy A)} (h : Current keyOf cfg s) (hps : Gathering cfg s v ps) :
    Current keyOf cfg (s.gcLast v) := by
  have hb := Backstage.gcLast s v
  unfold System.gcLast at hb ⊢
  split at hb
  · rename_i hnil
    obtain rfl := hps.gathered.eq_nil (List.isEmpty_iff.mp hnil)
    rw [if_pos hnil]
    refine h.collect_setStore hb rfl (hps.frame (h.collectors.le v) ?_ rfl (.of_eq rfl))
    simp [System.setStore, System.setGc, addFreeChunkList]
  · rename_i hnil
    rw [if_neg hnil]
    exact h.collect_setGc ⟨by simp, ps, hps.frame (h.collectors.le v) rfl rfl (.of_eq rfl)⟩

omit [DecidableEq A] in
theorem Current.gcWrite {v : ℕ} {cont : Option GcCont} (h : Current keyOf cfg s) (hpc : (s.gc v).pc = .write cont)
    (hok : GcOk cfg s v) : Current keyOf cfg (s.gcWrite cfg S v cont) := by
  have hcur := h.collectors.current v
  rw [hpc] at hcur
  obtain ⟨hrange, ps, hps⟩ := hcur
  simp only [GcOk, hpc] at hok
  have hself : ((s.gcWrite cfg S v cont).stores v).disk (s.stores v).gcWChunk.chunkOffset =
      (sortWBuffer cfg S (s.stores v).gcWChunk).wBuffer := by
    simp [System.gcWrite, System.setGc, System.setStore, writeGcWChunk, sortWBuffer]
  have hdisk : ∀ v' c, (v' = v → c ≠ (s.stores v).gcWChunk.chunkOffset) →
      ((s.gcWrite cfg S v cont).stores v').disk c = (s.stores v').disk c := by
    intro v' c hc
    by_cases hv : v' = v
    · subst hv
      simp [System.gcWrite, System.setGc, System.setStore, writeGcWChunk, sortWBuffer, hc rfl]
    · simp [System.gcWrite, System.setGc, System.setStore, hv]
  obtain ⟨hdw, -, hdl⟩ := hok.disk hdisk
  refine h.collect (.setStore s v _ _ rfl rfl) (fun v' hv => setStore_other _ _ hv) (hdw v)
    (fun a hl => hdl a hl v) (h.collectors.le v) ?_
  have hnext : ((s.gcWrite cfg S v cont).gc v).pc =
      .sync (sortMovedEntry S (s.stores v).gcWChunk.movedEntryList) cont := by
    simp [System.gcWrite, System.setGc]
  rw [hnext]
  refine ⟨hrange, ?_, fun m hm hop a ha => ?_⟩
  · simp [System.gcWrite, System.setGc, System.setStore, writeGcWChunk]
  · obtain ⟨hc, hlt, p, hp, hat, hbuf⟩ := hps.gathered.written hm hop
    refine ⟨hlt, fun hcop => ?_⟩
    rw [hc, hself, hbuf]
    exact hps.current p hp a (hat ▸ ha) hcop

theorem Current.gc {v : ℕ} (h : Current keyOf cfg s) (hok : Orderly cfg s (.gc v))
    (hs : s.gcStep cfg S v = some s') : Current keyOf cfg s' := by
  have hb := Backstage.gcStep hs
  have hcur := h.collectors.current v
  have hle := h.collectors.le v
  simp only [System.gcStep] at hs
  split at hs
  · rename_i hpc
    rw [hpc] at hcur
    obtain ⟨r, hr, rfl⟩ := Option.map_eq_some_iff.mp hs
    obtain ⟨-, -, hd, -, hbuf, hmoved⟩ := initGcWChunk_spec (gcStart_spec hr)
    have hnil : Gathered cfg r.1.gcWChunk [] :=
      .nil (hbuf.trans hcur.gathered.buffer) (hmoved.trans hcur.gathered.moved)
    refine h.collect_setStore hb hd ⟨[], ⟨?_, by simp⟩, ?_, cfg.entries_pos⟩
    · simpa [System.setStore, System.setGc] using hnil
    · simp [System.setGc]
  · rename_i hpc
    rw [hpc] at hcur
    obtain ⟨ps, hps, -⟩ := hcur
    cases hs
    exact h.gcLast hps
  · rename_i hpc
    rw [hpc] at hcur
    obtain ⟨ps, hps, hoff, hlt⟩ := hcur
    split at hs
    · cases hs
      exact h.gcLast hps
    · cases hs
      refine h.collect_setStore hb rfl
        ⟨fun i hi => List.mem_range.mp hi, ps, hps.frame hle ?_ rfl (.of_eq rfl), ?_, hlt⟩
      · simp [System.setStore, System.setGc, readGcRChunk]
      · simpa [System.setGc] using hoff
  · rename_i hpc
    rw [hpc] at hcur
    obtain ⟨-, ps, hps, hoff, hlt⟩ := hcur
    cases hs
    refine h.collect_setGc ⟨ps, hps.frame hle rfl rfl (.of_eq rfl), ?_, hlt⟩
    simpa [System.setGc] using hoff
  · rename_i hpc
    cases hs
    exact h.gcEntry hpc hok
  · rename_i hpc
    cases hs
    exact h.gcWrite hpc hok
  · rename_i hpc
    rw [hpc] at hcur
    cases hs
    have hnil : Gathered cfg (System.gcClear (s.store v)).gcWChunk [] := .nil hcur.2.1 rfl
    refine h.collect_setStore hb rfl ⟨?_, by simp⟩
    simpa [System.setStore, System.setGc] using hnil
  · rename_i cont hpc
    rw [hpc] at hcur
    obtain ⟨t, ht, rfl⟩ := Option.map_eq_some_iff.mp hs
    obtain ⟨-, -, hd, -, hbuf, hmoved⟩ := initGcWChunk_spec ht
    have hnil : Gathered cfg t.gcWChunk [] := .nil (hbuf.trans hcur.2.1) hmoved
    refine h.collect_setStore hb hd ⟨hcur.1 cont rfl, [], ⟨?_, by simp⟩, ?_, cfg.entries_pos⟩
    · simpa [System.setStore, System.setGc] using hnil
    · simp [System.setGc]
  · cases hs

theorem Current.gcLink {v : ℕ} {m : MovedEntry A} (h : Current keyOf cfg s) (hok : Orderly cfg s (.gcLink v m))
    (hs : s.gcLink cfg v m = some s') : Current keyOf cfg s' := by
  have hflight : ∀ {b : A} {u w : ℕ}, s'.InFlight u w b ↔ s.InFlight u w b := gcLink_inFlight hs
  obtain ⟨moved, cont, hpc, hm, hpc', hgc, hstores⟩ := gcLink_rest hs
  obtain ⟨_, _, t, -, -, ht, rfl⟩ := gcLink_spec hs
  have hcur := h.collectors.current v
  rw [hpc] at hcur
  obtain ⟨hrange, hbuf, hrec⟩ := hcur
  refine ⟨h.queued, fun v' w => (h.writers v' w).frame (by rw [(hstores v').1]) rfl rfl (.of_eq rfl)
    fun _ _ _ _ => by rw [(hstores v').2.1], ⟨h.collectors.le, fun v' => ?_⟩, fun b hb hl => ?_⟩
  · by_cases hv : v' = v
    · subst hv
      rw [hpc']
      refine ⟨hrange, ?_, fun m' hm' hop a ha => ?_⟩
      · rw [(hstores v').2.2]
        exact hbuf
      · rw [(hstores v').2.1]
        exact hrec m' (List.mem_of_mem_erase hm') hop a ha
    · exact (h.collectors.current v').frame (h.collectors.le v') (hstores v').2.2 (hgc v' hv) rfl (.of_eq rfl)
        fun _ _ _ _ _ _ => by rw [(hstores v').2.1]
  · have hframe : t.table b = s.table b →
        (∃ v' w, ((s.setStore v t).setGc v _).Newest v' w b) ∨
        ((s.setStore v t).setGc v _).HoldsLatest cfg b := fun hsame =>
      linked_frame (h.linked b) hsame rfl (fun v' w hn => ⟨v', w, hflight.mpr hn.1, hn.2⟩)
        (fun v' _ _ _ _ => by rw [(hstores v').2.1]) hb hl
    obtain ⟨-, -, -, -, htable | ⟨a, hop, ha, hupd, hpre, hid, htable⟩⟩ := gcLinkOne_spec ht
    · exact hframe (congrFun htable b)
    · by_cases hab : b = a
      · subst hab
        have hlink : (∃ v' w, s.Newest v' w b) ∨ s.copiedAt v b = s.version b := by
          rcases hok hop b ha with hskip | hskip | hskip | hcop | hnew
          · exact absurd hskip hupd
          · exact absurd hskip hpre
          · exact absurd hid hskip
          · exact .inr hcop
          · exact .inl hnew
        rcases hlink with ⟨v', w, hn⟩ | hcop
        · exact .inl ⟨v', w, hflight.mpr hn.1, hn.2⟩
        · obtain ⟨hlt, hval⟩ := hrec m hm hop b ha
          refine .inr ⟨v, m.chunkOffset, m.entryOffset, hlt, ?_, ?_⟩
          · rw [show ((s.setStore v t).setGc v _).table b = _ from congrFun htable b, Function.update_self]
            rfl
          · rw [(hstores v).2.1]
            exact hval hcop
      · exact hframe (by rw [htable, Function.update_of_ne hab]; rfl)

/-! ## Whole runs -/

theorem Current.step {x : Step A} (h : Current keyOf cfg s) (hp : Placed home keyOf s) (hok : Orderly cfg s x)
    (hs : step home keyOf cfg S s x = some s') : Current keyOf cfg s' := by
  cases x with
  | insert l a val p => exact h.insert hs
  | update l a val p => exact h.update hs
  | start l v => exact h.start hs
  | reclaim l => exact h.reclaim hp hs
  | write l => exact h.write hok hs
  | link l m => exact h.link hok hs
  | close l => exact h.close hs
  | finish l => exact h.finish hs
  | gc v => exact h.gc hok hs
  | gcLink v m => exact h.gcLink hok hs

omit [DecidableEq A] in
theorem Starting.current (h : Starting s) : Current keyOf cfg s := by
  refine ⟨fun l p hp => ?_, fun v w => ⟨fun a => ?_, fun _ => .of_idle (h.chunk v w).1 (h.chunk v w).2,
    fun hnone a hnew => ?_, fun moved hmoved => ?_⟩, ⟨fun v a => ?_, fun v => ?_⟩,
    fun a ha => absurd (h.values a) ha⟩
  · simp [h.log l] at hp
  · simp [h.putAt]
  · have hf := hnew.1
    simp [System.InFlight, System.pending, hnone, (h.chunk v w).2] at hf
  · rw [h.sync] at hmoved
    cases hmoved
  · simp [h.copiedAt]
  · rw [h.gc v]
    exact ⟨.nil (h.gcChunk v).1 (h.gcChunk v).2, by simp⟩

/-- The values of the store are in their places, and the linked ones are current. -/
structure Ordered (home : Ptr → Option LogId) (keyOf : A → ℕ) (cfg : Config) (s : System A) : Prop where
  placed : Placed home keyOf s
  tagged : ∀ a, s.values a ≠ [] → getTag (s.table a).valAddr = oplogVal
  current : Current keyOf cfg s

theorem Ordered.run {xs : List (Step A)} (hs : Starting s)
    (hok : Along (Prism.step home keyOf cfg S) (Orderly cfg) s xs)
    (hrun : StepRun.run (Prism.step home keyOf cfg S) s xs = some s') : Ordered home keyOf cfg s' := by
  refine run_induction (I := Ordered home keyOf cfg) (fun s x s' h hx hstep => ?_) ?_ hok hrun
  · exact ⟨h.placed.step hstep, fun a ha => tagged_step h.tagged hstep ha, h.current.step h.placed hx hstep⟩
  · exact ⟨hs.placed, fun a ha => absurd (hs.values a) ha, hs.current⟩

omit [DecidableEq A] in
theorem Ordered.holdsLatest (h : Ordered home keyOf cfg s) (ha : s.values a ≠ []) (hl : (s.table a).Linked)
    (hf : ∀ v w, ¬ s.InFlight v w a) : s.HoldsLatest cfg a := by
  rcases h.current.linked a ha hl with ⟨v, w, hn⟩ | hval
  · exact absurd hn.1 (hf v w)
  · exact hval

omit [DecidableEq A] in
theorem System.HoldsLatest.resolve (h : s.HoldsLatest cfg a) (ht : getTag (s.table a).valAddr ≠ dcacheVal) :
    s.resolve cfg a = some (s.latest a) := by
  obtain ⟨v, c, i, hi, hidx, hval⟩ := h
  have hlinked : (s.table a).Linked := by
    have := linked_slot v (cfg.slotOffset c i) (s.table a)
    rwa [← hidx] at this
  rw [System.resolve, getValPos_of_linked hlinked ht]
  simp only [hidx, Int.toNat_natCast, cfg.slotOffset_div c hi, cfg.slotOffset_mod c hi]
  rw [hval]

omit [DecidableEq A] in
theorem Ordered.resolve (h : Ordered home keyOf cfg s) (ha : s.values a ≠ []) (hf : ∀ v w, ¬ s.InFlight v w a) :
    s.resolve cfg a = some (s.latest a) := by
  cases h.placed.place a ha with
  | logged l p mem op entry =>
    have hpos : getValPos (s.table a) = some .oplog := by
      rw [getValPos_eq_oplog_iff, entry]
      exact ⟨fun hl => absurd hl.1 (lt_irrefl _), by simp [oplogVal]⟩
    rw [System.resolve, hpos]
    have hptr : toPtr (getUntaggedPtr (s.table a).valAddr) = some p := by
      rw [toPtr_eq_some_iff, entry]
      simp
    simp only [hptr, Option.map_some, op]
  | moving l p v mem vs op entry flight newest => exact absurd flight (hf v l.1)
  | linked slot past =>
    refine (h.holdsLatest ha slot hf).resolve ?_
    rw [h.tagged a ha]
    decide

end Steps

end Hkv.Prism
