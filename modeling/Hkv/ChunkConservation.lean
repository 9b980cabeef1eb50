import Hkv.ChunkPool
import Hkv.UpdateRuns

/-!
# Chunks are neither lost nor shared

Every chunk of a store is free, open in one place, or closed with a valid bit. Two kinds
of steps can break this. An update in the middle of a sync can clear the only bit of the
chunk, which then is listed while it is still open. An entry that is updated between its
put and its sync never gets a bit, so that a chunk of such entries is closed empty, and
nothing will ever list it.
-/
namespace Hkv.Prism
open MtsConfig TaggedPointer AddressTable KeyedSort ValueStorage StepRun ResourcePool

variable {A : Type}

/-- Every chunk of every store is listed once and empty, open in exactly one place, or
closed with a valid bit. -/
def Conserved (cfg : Config) (s : System A) : Prop := ∀ v, (s.pool cfg v).Conserved (chunks cfg)

/-- The last bit of an open chunk is not cleared, and no chunk is closed without a bit. -/
def Conserves (cfg : Config) (s : System A) (x : Step A) : Prop :=
  KeepsExclusive cfg s x ∧ KeepsUsed cfg s x

variable {home : Ptr → Option LogId} {keyOf : A → ℕ} {cfg : Config} {S : StdSort} {s s' : System A}

theorem conserved_iff : Conserved cfg s ↔ Exclusive cfg s ∧ NoneLost cfg s := by
  simp only [Conserved, Pool.conserved_iff, forall_and, Exclusive, NoneLost]

theorem conserved_step_iff [DecidableEq A] {x : Step A} (ht : Tidy cfg s) (hc : Conserved cfg s)
    (hs : step home keyOf cfg S s x = some s') : Conserved cfg s' ↔ Conserves cfg s x := by
  obtain ⟨he, hn⟩ := conserved_iff.mp hc
  have hk := step_kept ht he hs
  rw [conserved_iff, hk.exclusive, hk.noneLost, Conserves, and_iff_right hn]

/-! ## Fresh stores -/

/-- No store was written to yet, and no thread writes to one. -/
structure Blank (cfg : Config) (s : System A) : Prop where
  bitmap : ∀ v c i, (s.stores v).bitmap c i = false
  free : ∀ v, (s.stores v).freeChunkList = List.range' 0 cfg.chunkNum
  writers : ∀ v w, s.sync v w = none ∧ ((s.stores v).wChunk w).entryOffset = 0 ∧
    ((s.stores v).wChunk w).movedEntryList = []
  collectors : ∀ v, (s.gc v).pc = .idle ∧ (s.stores v).gcWChunk.movedEntryList = []

theorem blank_freshSystem : Blank cfg (freshSystem cfg : System A) :=
  ⟨fun _ _ _ => rfl, fun _ => rfl, fun _ _ => ⟨rfl, rfl, rfl⟩, fun _ => ⟨rfl, rfl⟩⟩

namespace Blank

theorem opens (h : Blank cfg s) (v : ℕ) (o : Holder) : s.opens v o = none := by
  cases o with
  | writer w => simp [System.opens, (h.writers v w).2.1]
  | collector => simp [System.opens, (h.collectors v).1, GcPc.isIdle]

theorem pending (h : Blank cfg s) (v w : ℕ) : s.pending v w = [] := by
  simp [System.pending, (h.writers v w).1, (h.writers v w).2.2]

theorem gcPending (h : Blank cfg s) (v : ℕ) : s.gcPending v = [] := by
  rw [gcPending_of_ne (by simp [(h.collectors v).1]), (h.collectors v).2]

theorem isEmpty (h : Blank cfg s) (v c : ℕ) : isEmpty cfg (s.stores v) c = true :=
  ValueStorage.isEmpty_iff.mpr fun i _ => h.bitmap v c i

theorem tidy (h : Blank cfg s) : Tidy cfg s := by
  intro v
  refine ⟨?_, ?_, ?_, ?_, ?_, ?_⟩
  · intro w m hm
    rw [h.pending] at hm
    cases hm
  · intro o c hc
    rw [h.opens] at hc
    cases hc
  · intro c e hb
    rw [h.bitmap] at hb
    cases hb
  · intro c hc
    rw [h.free] at hc
    exact (List.mem_range'_1.mp hc).2.trans_eq (Nat.zero_add _)
  · intro m hm
    rw [h.gcPending] at hm
    cases hm
  · rw [(h.collectors v).1]
    exact (h.collectors v).2

theorem conserved (h : Blank cfg s) : Conserved cfg s := by
  intro v c hc
  have hmem : c ∈ List.range' 0 cfg.chunkNum :=
    List.mem_range'_1.mpr ⟨Nat.zero_le _, by simpa [chunks] using hc⟩
  refine .free ?_ ?_ fun o ho => ?_
  · rw [System.pool_free, h.free]
    exact List.count_eq_one_of_mem List.nodup_range' hmem
  · rw [System.pool_used, h.isEmpty]
    rfl
  · rw [System.pool_held, h.opens] at ho
    cases ho

end Blank

/-! ## Whole runs -/

section Runs
variable [DecidableEq A]

/-- All along a run from fresh stores every chunk is accounted for, exactly if every step
of the run conserves the chunks. -/
theorem run_conserved_iff (home : Ptr → Option LogId) (keyOf : A → ℕ) (cfg : Config) (S : StdSort)
    (s' : System A) (xs : List (Step A)) (hrun : run (step home keyOf cfg S) (freshSystem cfg) xs = some s') :
    (∀ ys, ys <+: xs → ∀ t, run (step home keyOf cfg S) (freshSystem cfg) ys = some t → Conserved cfg t) ↔
      Along (step home keyOf cfg S) (Conserves cfg) (freshSystem cfg) xs :=
  forall_run_iff_along hrun
    (fun _ _ _ _ ht hc hs => (step_kept ht (conserved_iff.mp hc).1 hs).tidy)
    (fun _ _ _ _ ht hc hs => conserved_step_iff ht hc hs) blank_freshSystem.tidy blank_freshSystem.conserved

/-! ## Checking a run -/

/-- The writer slots from `k` on are idle. -/
def IdleFrom (k : ℕ) (s : System A) : Prop := ∀ v w, k ≤ w → ((s.stores v).wChunk w).entryOffset = 0

def Step.Below (k : ℕ) : Step A → Prop
  | .reclaim l => l.1 < k
  | _ => True

instance (k : ℕ) : ∀ x : Step A, Decidable (x.Below k)
  | .reclaim _ => inferInstanceAs (Decidable (_ < _))
  | .insert .. | .update .. | .start .. | .write .. | .link .. | .close .. | .finish .. | .gc .. | .gcLink .. =>
      isTrue trivial

theorem IdleFrom.step {k : ℕ} {x : Step A} (h : IdleFrom k s) (hx : x.Below k)
    (hs : step home keyOf cfg S s x = some s') : IdleFrom k s' := by
  intro v w hw
  cases x with
  | insert l a val p =>
    obtain ⟨-, rfl⟩ := System.insert_spec hs
    exact h v w hw
  | update l a val p =>
    obtain ⟨-, rfl⟩ := System.update_spec hs
    rw [(Backstage.unlinkPast cfg _ _).wChunk v]
    exact h v w hw
  | start l u =>
    obtain ⟨-, rfl⟩ := System.start_spec hs
    exact h v w hw
  | reclaim l =>
    obtain ⟨u, p, rest, a, -, -, -, ⟨-, hput⟩ | ⟨-, rfl⟩⟩ := reclaim_spec hs
    · have hne : w ≠ l.1 := by
        rintro rfl
        exact absurd hw (Nat.not_le.mpr hx)
      by_cases hu : v = u
      · subst hu
        obtain ⟨i, c, hchunk, -⟩ := put_chunk hput
        rw [hchunk, Function.update_of_ne hne]
        exact h v w hw
      · rw [(put_rest hput).2.2.2.2.2 v hu]
        exact h v w hw
    · exact h v w hw
  | write l =>
    obtain ⟨u, -, -, rfl⟩ := write_spec hs
    by_cases hu : v = u
    · subst hu
      by_cases hwl : w = l.1
      · subst hwl
        simpa [System.setSync, System.setStore, writeChunk, setWChunk, sortWBuffer] using h v l.1 hw
      · simpa [System.setSync, System.setStore, writeChunk, setWChunk, hwl] using h v w hw
    · simpa [System.setSync, System.setStore, hu] using h v w hw
  | link l m =>
    obtain ⟨_, _, -, -, -, -, -, hst⟩ := link_rest hs
    rw [(hst v).1]
    exact h v w hw
  | close l =>
    obtain ⟨u, ⟨-, -, hzero, -⟩, hother, -⟩ := close_rest hs
    by_cases huw : v = u → w ≠ l.1
    · rw [(hother v w huw).2]
      exact h v w hw
    · simp only [ne_eq, Classical.not_imp, not_not] at huw
      rw [huw.1, huw.2, hzero]
  | finish l =>
    obtain ⟨-, rfl⟩ := System.finish_spec hs
    exact h v w hw
  | gc u =>
    rw [(Backstage.gcStep hs).wChunk v]
    exact h v w hw
  | gcLink u m =>
    obtain ⟨_, _, -, -, -, -, hst⟩ := gcLink_rest hs
    rw [(hst v).1]
    exact h v w hw

omit [DecidableEq A] in
theorem IdleFrom.not_open {k v c : ℕ} (h : IdleFrom k s) (hc : s.opens v .collector ≠ some c)
    (hw : ∀ w < k, s.opens v (.writer w) ≠ some c) (o : Holder) : s.opens v o ≠ some c := by
  cases o with
  | writer w =>
    by_cases hwk : w < k
    · exact hw w hwk
    · rw [System.opens, if_pos (h v w (Nat.not_lt.mp hwk))]
      simp
  | collector => exact hc

/-- A sync of the collector is at its end. -/
def GcPc.synced {A : Type} : GcPc A → Bool
  | .sync [] _ => true
  | _ => false

/-- No bit is cleared in a chunk that is open, for a run that uses the slots below `k`. -/
def CheckedUnlink (cfg : Config) (k : ℕ) (s : System A) (v c e : ℕ) : Prop :=
  LastBit cfg (s.stores v) c e → s.opens v .collector ≠ some c ∧ ∀ w < k, s.opens v (.writer w) ≠ some c

/-- A condition for `Conserves` that can be evaluated. -/
def CheckedSpace (cfg : Config) (k : ℕ) (s : System A) : Step A → Prop
  | .update _ a _ _ => 0 ≤ (s.table a).vsIdx.vsId ∧ 0 ≤ (s.table a).vsIdx.vsOffset →
      CheckedUnlink cfg k s (s.table a).vsIdx.vsId.toNat ((s.table a).vsIdx.vsOffset.toNat / cfg.entriesPerChunk)
        ((s.table a).vsIdx.vsOffset.toNat % cfg.entriesPerChunk)
  | .gcLink v m => m.opType = .remove → CheckedUnlink cfg k s v m.chunkOffset m.entryOffset
  | .close l => ∀ v ∈ (s.log l).phase.vs, ∀ c ∈ s.opens v (.writer l.1), isEmpty cfg (s.stores v) c = false
  | .gc v => (s.gc v).pc.synced = true → isEmpty cfg (s.stores v) (s.stores v).gcWChunk.chunkOffset = false
  | _ => True

instance (cfg : Config) (k : ℕ) (s : System A) (v c e : ℕ) : Decidable (CheckedUnlink cfg k s v c e) :=
  inferInstanceAs (Decidable (_ → _ ∧ _))

instance (cfg : Config) (k : ℕ) (s : System A) : ∀ x, Decidable (CheckedSpace cfg k s x)
  | .update _ _ _ _ => inferInstanceAs (Decidable (_ → CheckedUnlink ..))
  | .gcLink _ _ => inferInstanceAs (Decidable (_ → CheckedUnlink ..))
  | .close l => inferInstanceAs (Decidable (∀ v ∈ (s.log l).phase.vs, ∀ c ∈ s.opens v (.writer l.1), _ = _))
  | .gc _ => inferInstanceAs (Decidable (_ → _))
  | .insert .. | .start .. | .reclaim .. | .write .. | .link .. | .finish .. => isTrue trivial

omit [DecidableEq A] in
theorem CheckedSpace.conserves {k : ℕ} {x : Step A} (h : IdleFrom k s) (hc : CheckedSpace cfg k s x) :
    Conserves cfg s x := by
  cases x with
  | update l a val p => exact ⟨fun hp hl => h.not_open (hc hp hl).1 (hc hp hl).2, trivial⟩
  | gcLink v m => exact ⟨fun hop hl => h.not_open (hc hop hl).1 (hc hop hl).2, trivial⟩
  | close l => exact ⟨trivial, fun v hv c ho => hc v hv c ho⟩
  | gc v =>
    refine ⟨trivial, fun cont hpc => hc ?_⟩
    rw [hpc]
    rfl
  | _ => exact ⟨trivial, trivial⟩

theorem along_conserves {k : ℕ} {xs : List (Step A)} (h : IdleFrom k s) (hx : ∀ x ∈ xs, x.Below k)
    (hc : Along (step home keyOf cfg S) (CheckedSpace cfg k) s xs) :
    Along (step home keyOf cfg S) (Conserves cfg) s xs := by
  induction xs generalizing s with
  | nil => trivial
  | cons x xs ih =>
    exact ⟨hc.1.conserves h, fun s' hs' => ih (h.step (hx x List.mem_cons_self) hs')
      (fun y hy => hx y (List.mem_cons_of_mem _ hy)) (hc.2 s' hs')⟩

end Runs

theorem idleFrom_freshSystem (k : ℕ) : IdleFrom k (freshSystem cfg : System A) := fun _ _ _ => rfl

/-- A key is flushed twice. The update between the flushes frees the first chunk. -/
theorem run_conserved_iff_twoFlushes : ∃ s', run (step sampleHome Fin.val smallConfig insertion)
    (freshSystem smallConfig) twoFlushes = some s' ∧ 0 ∈ (s'.stores 0).freeChunkList ∧
    ∀ ys, ys <+: twoFlushes → ∀ t,
      run (step sampleHome Fin.val smallConfig insertion) (freshSystem smallConfig) ys = some t →
      Conserved smallConfig t := by
  have hrun :
    ((run (step sampleHome Fin.val smallConfig insertion) (freshSystem smallConfig) twoFlushes).map fun s' =>
      decide (0 ∈ (s'.stores 0).freeChunkList)) = some true := by
    decide +kernel
  have hcheck : Along (step sampleHome Fin.val smallConfig insertion) (CheckedSpace smallConfig 2)
      (freshSystem smallConfig) twoFlushes := by
    decide +kernel
  obtain ⟨s', hs', hmem⟩ := Option.map_eq_some_iff.mp hrun
  refine ⟨s', hs', of_decide_eq_true hmem, ?_⟩
  exact (run_conserved_iff sampleHome Fin.val smallConfig insertion s' twoFlushes hs').mpr
    (along_conserves (idleFrom_freshSystem 2) (by decide) hcheck)

attribute [local instance] oplogNum_neZero entryNum_neZero keyNum_neZero

/-- Two entries share a chunk. The first one is linked and then updated before the second
one is linked. -/
def updatedInSync : List (Step (Fin 6)) :=
  [.insert (0, 0) 1 10 (entryPtr 0), .insert (0, 0) 2 11 (entryPtr 1), .start (0, 0) 0, .reclaim (0, 0),
    .reclaim (0, 0), .write (0, 0), .link (0, 0) ⟨1, some 1, 0, 0, .insert⟩, .update (1, 0) 1 20 (entryPtr 2)]

/-- The only entry of a chunk is updated between its put and the sync. -/
def updatedBeforeSync : List (Step (Fin 6)) :=
  [.insert (0, 0) 1 10 (entryPtr 0), .start (0, 0) 0, .reclaim (0, 0), .update (1, 0) 1 20 (entryPtr 2)] ++
    flushOf (0, 0) [⟨1, some 1, 0, 0, .insert⟩]

/-- In the first run a chunk is listed while it is open, in the second one a chunk is lost. -/
theorem run_not_conserved : (∃ s', run (step sampleHome Fin.val smallConfig insertion) (freshSystem smallConfig)
      updatedInSync = some s' ∧ 0 ∈ (s'.stores 0).freeChunkList ∧ s'.opens 0 (.writer 0) = some 0 ∧
      ¬ Conserved smallConfig s') ∧
    ∃ s', run (step sampleHome Fin.val smallConfig insertion) (freshSystem smallConfig)
      updatedBeforeSync = some s' ∧ (s'.pool smallConfig 0).Lost 0 ∧ ¬ Conserved smallConfig s' := by
  constructor
  · have hrun : ((run (step sampleHome Fin.val smallConfig insertion) (freshSystem smallConfig) updatedInSync).map
        fun s' => (decide (0 ∈ (s'.stores 0).freeChunkList), s'.opens 0 (.writer 0))) = some (true, some 0) := by
      decide +kernel
    obtain ⟨s', hs', hfacts⟩ := Option.map_eq_some_iff.mp hrun
    obtain ⟨hmem, hopen⟩ := Prod.mk.inj hfacts
    refine ⟨s', hs', of_decide_eq_true hmem, hopen, fun hc => ?_⟩
    exact (((conserved_iff.mp hc).1 0 0 (by decide : 0 < 8)).listed (of_decide_eq_true hmem)).2 (.writer 0) hopen
  · have hrun :
      ((run (step sampleHome Fin.val smallConfig insertion) (freshSystem smallConfig) updatedBeforeSync).map
        fun s' => (decide (0 ∉ (s'.stores 0).freeChunkList), isEmpty smallConfig (s'.stores 0) 0,
          decide (∀ w : Fin 2, s'.opens 0 (.writer w) ≠ some 0), decide (s'.opens 0 .collector ≠ some 0))) =
        some (true, true, true, true) := by
      decide +kernel
    obtain ⟨s', hs', hfacts⟩ := Option.map_eq_some_iff.mp hrun
    simp only [Prod.mk.injEq, decide_eq_true_eq] at hfacts
    obtain ⟨hmem, hempty, hwriters, hcollector⟩ := hfacts
    have hidle : IdleFrom 2 s' := run_induction (P := fun _ x => x.Below 2) (fun _ _ _ h hx hs => h.step hx hs)
      (idleFrom_freshSystem 2) (along_of_forall_mem fun _ => by decide) hs'
    have hlost : (s'.pool smallConfig 0).Lost 0 :=
      ⟨hmem, hidle.not_open hcollector fun w hw => hwriters ⟨w, hw⟩, by rw [System.pool_used, hempty]; rfl⟩
    exact ⟨s', hs', hlost, fun hc => (conserved_iff.mp hc).2 0 0 (by decide : 0 < 8) hlost⟩

end Hkv.Prism
