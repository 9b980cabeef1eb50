import Hkv.SlotLinks
import Hkv.ChunkConservation

/-!
# Writes go to chunks that are owned

The history of a run says which chunk a writer slot has obtained since its last write. A
write goes to that chunk exactly if something was put since then. `forced_write_chunk`
does not ask: after a reclaim that put nothing it writes the old buffer to the old chunk,
which may belong to another slot by now.
-/
namespace Hkv.Prism
open MtsConfig TaggedPointer AddressTable KeyedSort ValueStorage StepRun ResourcePool

variable {A : Type}

/-- The chunk of slot `w` while it is being filled. -/
def System.filling (s : System A) (v w : ℕ) : Option ℕ :=
  if s.sync v w = none ∧ ((s.stores v).wChunk w).entryOffset ≠
    0 then some ((s.stores v).wChunk w).chunkOffset else none

/-- The chunk that a reclaim step takes by `get_free_chunk_offset`, with its store. -/
def System.takes (cfg : Config) (s : System A) (l : LogId) : Option (ℕ × ℕ) :=
  match (s.log l).phase, (s.log l).queue with
  | .draining v, p :: _ => match (s.op p).opa with
    | none => none
    | some a =>
      if (s.table a).PointsTo p ∧ ((s.stores v).wChunk l.1).entryOffset = 0 then
        (getFreeChunkOffset cfg (s.store v)).map fun r => (v, r.1)
      else none
  | _, _ => none

/-- The chunks that the slots have obtained since their last writes. -/
abbrev Obtained := ℕ → ℕ → Option ℕ

def Obtained.set (own : Obtained) (v w : ℕ) (c : Option ℕ) : Obtained :=
  Function.update own v (Function.update (own v) w c)

/-- A step of the history. -/
def Obtained.next (cfg : Config) (s : System A) (own : Obtained) : Step A → Obtained
  | .reclaim l => match s.takes cfg l with
    | some (v, c) => own.set v l.1 (some c)
    | none => own
  | .write l => match (s.log l).phase.vs with
    | some v => own.set v l.1 none
    | none => own
  | _ => own

@[simp] theorem Obtained.set_self (own : Obtained) (v w : ℕ) (c : Option ℕ) : own.set v w c v w = c := by
    simp [Obtained.set]

theorem Obtained.set_other {own : Obtained} {v w v' w' : ℕ} {c : Option ℕ} (h : v' = v → w' ≠ w) :
    own.set v w c v' w' = own v' w' := by
  by_cases hv : v' = v
  · subst hv
    simp [Obtained.set, h rfl]
  · simp [Obtained.set, hv]

theorem Obtained.ext_slot {own own' : Obtained} {v w : ℕ} (hself : own v w = own' v w)
    (hother : ∀ v' w', (v' = v → w' ≠ w) → own v' w' = own' v' w') : own = own' := by
  funext v' w'
  by_cases hvw : v' = v ∧ w' = w
  · obtain ⟨rfl, rfl⟩ := hvw
    exact hself
  · exact hother v' w' fun hv hw => hvw ⟨hv, hw⟩

theorem Obtained.eq_set {own own' : Obtained} {v w : ℕ} {c : Option ℕ} (hself : own v w = c)
    (hother : ∀ v' w', (v' = v → w' ≠ w) → own v' w' = own' v' w') : own = own'.set v w c :=
  ext_slot (hself.trans (own'.set_self v w c).symm) fun v' w' hne => (hother v' w' hne).trans (set_other hne).symm

variable [DecidableEq A] (home : Ptr → Option LogId) (keyOf : A → ℕ) (cfg : Config) (S : StdSort)

/-- What the slots have obtained after a run. -/
def obtainedSince (s : System A) (own : Obtained) : List (Step A) → Obtained
  | [] => own
  | x :: xs => match step home keyOf cfg S s x with
    | none => own
    | some s' => obtainedSince s' (own.next cfg s x) xs

/-- Something was put since the last write of the slot. -/
def WritesPut (s : System A) : Step A → Prop
  | .write l => ∀ v ∈ (s.log l).phase.vs, ((s.stores v).wChunk l.1).entryOffset ≠ 0
  | _ => True

instance (s : System A) : ∀ x, Decidable (WritesPut s x)
  | .write l => inferInstanceAs
      (Decidable (∀ v ∈ (s.log l).phase.vs, ((s.stores v).wChunk l.1).entryOffset ≠ 0))
  | .insert .. | .update .. | .start .. | .reclaim .. | .link .. | .close .. | .finish .. | .gc .. | .gcLink .. =>
      isTrue trivial

variable {home keyOf cfg S} {s s' : System A} {l : LogId} {v w : ℕ}

/-! ## The history of a slot -/

omit [DecidableEq A] in
theorem filling_congr (hsync : s'.sync v w = s.sync v w) (hw : (s'.stores v).wChunk w = (s.stores v).wChunk w) :
    s'.filling v w = s.filling v w := by rw [System.filling, System.filling, hsync, hw]

theorem put_filling {key val : ℕ} {a : A} (hs : s.put cfg v w key val a = some s') :
    s'.filling v w =
    (if ((s.stores v).wChunk w).entryOffset = 0 then (getFreeChunkOffset cfg (s.store v)).map Prod.fst
      else s.filling v w) ∧
    (((s.stores v).wChunk w).entryOffset = 0 → (getFreeChunkOffset cfg (s.store v)).isSome = true) ∧
    ∀ v' w', (v' = v → w' ≠ w) → s'.filling v' w' = s.filling v' w' := by
  obtain ⟨hnone, -, t, ht, he⟩ := put_spec hs
  obtain ⟨hsync, -, -, -, -, hother⟩ := put_rest hs
  obtain ⟨i, c, hchunk, hsame⟩ := put_chunk hs
  have hfill : s'.filling v w = some c := by simp [System.filling, hsync, hnone, hchunk]
  have hrest : ∀ v' w', (v' = v → w' ≠ w) → s'.filling v' w' = s.filling v' w' := fun v' w' hne => by
    refine filling_congr (by rw [hsync]) ?_
    by_cases hv : v' = v
    · subst hv
      rw [hchunk, Function.update_of_ne (hne rfl)]
    · rw [hother v' hv]
  rcases openWhenIdle_cases ht with ⟨hne, -⟩ | ⟨hz, c', r, hf, rfl⟩
  · refine ⟨?_, fun hz => absurd hz hne, hrest⟩
    have hne' : ((s.stores v).wChunk w).entryOffset ≠ 0 := hne
    rw [if_neg hne', hfill, System.filling, if_pos ⟨hnone, hne'⟩, hsame hne']
  · have hcc : ((s'.stores v).wChunk w).chunkOffset = c' := by
      rw [he]
      simp [System.setStore, appendEntry, setWChunk]
    have hc : c = c' := by simpa [hchunk] using hcc
    have hz' : ((s.stores v).wChunk w).entryOffset = 0 := hz
    exact ⟨by rw [if_pos hz', hf, hfill, hc]; rfl, fun _ => by rw [hf]; rfl, hrest⟩

theorem reclaim_filling (hs : s.reclaim cfg l = some s') :
    s'.filling = Obtained.next cfg s s.filling (.reclaim l) := by
  obtain ⟨u, p, rest, a, hphase, hq, hopa, ⟨hp, hput⟩ | ⟨hp, rfl⟩⟩ := reclaim_spec hs
  · obtain ⟨hself, hsome, hother⟩ := put_filling hput
    by_cases hz : (((s.deq l u p rest).stores u).wChunk l.1).entryOffset = 0
    · obtain ⟨r, hr⟩ := Option.isSome_iff_exists.mp (hsome hz)
      have ht : s.takes cfg l = some (u, r.1) := by
        have hz' : ((s.stores u).wChunk l.1).entryOffset = 0 := hz
        have hr' : getFreeChunkOffset cfg (s.store u) = some r := hr
        simp [System.takes, hphase, hq, hopa, hp, hz', hr']
      rw [if_pos hz, hr] at hself
      simp only [Obtained.next, ht]
      exact Obtained.eq_set hself hother
    · have ht : s.takes cfg l = none := by
        have hz' : ((s.stores u).wChunk l.1).entryOffset ≠ 0 := hz
        simp [System.takes, hphase, hq, hopa, hz']
      rw [if_neg hz] at hself
      simp only [Obtained.next, ht]
      exact Obtained.ext_slot hself hother
  · have ht : s.takes cfg l = none := by simp [System.takes, hphase, hq, hopa, hp]
    simp only [Obtained.next, ht]
    rfl

theorem step_filling {x : Step A} (hs : step home keyOf cfg S s x = some s') :
    s'.filling = Obtained.next cfg s s.filling x := by
  cases x with
  | insert l a val p =>
    obtain ⟨-, rfl⟩ := System.insert_spec hs
    rfl
  | update l a val p =>
    obtain ⟨-, rfl⟩ := System.update_spec hs
    have hb := Backstage.unlinkPast cfg (s.record keyOf l a val p (linkToOlPast (s.table a) p).1)
      (linkToOlPast (s.table a) p).2
    funext v w
    exact filling_congr (by rw [hb.sync]; rfl) (by rw [hb.wChunk]; rfl)
  | start l u =>
    obtain ⟨-, rfl⟩ := System.start_spec hs
    rfl
  | reclaim l => exact reclaim_filling hs
  | write l =>
    obtain ⟨u, hu, -, hsync, -, -, hother, -⟩ := write_stores hs
    simp only [Obtained.next, hu]
    exact Obtained.eq_set (by simp [System.filling, hsync]) fun v w hne =>
      filling_congr (hother v w hne).1 (hother v w hne).2
  | link l m =>
    obtain ⟨u, moved, -, hold, -, hnew, hother, hst⟩ := link_rest hs
    exact Obtained.ext_slot (v := u) (w := l.1) (by simp [Obtained.next, System.filling, hnew, hold])
      fun v w hne => filling_congr (hother v w hne) (by rw [(hst v).1])
  | close l =>
    obtain ⟨u, ⟨-, hold, hzero, -⟩, hother, -⟩ := close_rest hs
    exact Obtained.ext_slot (v := u) (w := l.1) (by simp [Obtained.next, System.filling, hold, hzero])
      fun v w hne => filling_congr (hother v w hne).1 (hother v w hne).2
  | finish l =>
    obtain ⟨-, rfl⟩ := System.finish_spec hs
    rfl
  | gc u =>
    funext v w
    exact filling_congr (by rw [(Backstage.gcStep hs).sync]) (by rw [(Backstage.gcStep hs).wChunk v])
  | gcLink u m =>
    obtain ⟨_, _, _, -, -, -, rfl⟩ := gcLink_spec hs
    obtain ⟨_, _, -, -, -, -, hst⟩ := gcLink_rest hs
    funext v w
    exact filling_congr rfl (by rw [(hst v).1])

theorem run_filling {ys : List (Step A)} (hrun : run (step home keyOf cfg S) s ys = some s') :
    obtainedSince home keyOf cfg S s s.filling ys = s'.filling := by
  induction ys generalizing s with
  | nil =>
    cases hrun
    rfl
  | cons x ys ih =>
    obtain ⟨s₁, hx, hys⟩ := Option.bind_eq_some_iff.mp hrun
    rw [obtainedSince, hx, ← step_filling hx]
    exact ih hys

omit [DecidableEq A] in
theorem write_filling_iff (hs : s.write cfg S l = some s') :
    (∀ v ∈ (s.log l).phase.vs, s.filling v l.1 = some ((s.stores v).wChunk l.1).chunkOffset) ↔
    WritesPut s (.write l) := by
  obtain ⟨v, hv, hw⟩ := written_of_write hs
  have hnone := hw.unsynced
  simp [WritesPut, hv, System.filling, hnone]

/-! ## The disk under the entries that are linked -/

omit [DecidableEq A] in
theorem write_disk {a : A} {u c i : ℕ} (h : Links cfg s) (hp : WritesPut s (.write l))
    (hs : s.write cfg S l = some s')
    (ha : s.LinkedTo cfg a u c i) : (s'.stores u).disk c i = (s.stores u).disk c i := by
  obtain ⟨v, hv, hnone, -, -, hdisk, -⟩ := write_stores hs
  refine congrFun (hdisk u c ?_) i
  rintro rfl rfl
  have hopen := opens_writer (hp u hv)
  exact ((h u).blank (.writer l.1) _ i hopen (.inl hnone)).2 a ha

/-- The steps that the safety of writes depends on: no write without a put, no last bit of
an open chunk is cleared, and collections copy what is linked. -/
def KeepsDisk (cfg : Config) (s : System A) (x : Step A) : Prop :=
  WritesPut s x ∧ KeepsExclusive cfg s x ∧ KeepsLinks cfg s x

theorem links_of_run {ys : List (Step A)} {t : System A}
    (hx : Along (step home keyOf cfg S) (KeepsDisk cfg) (freshSystem cfg) ys)
    (hrun : run (step home keyOf cfg S) (freshSystem cfg) ys = some t) : Links cfg t := by
  have hinv : Tidy cfg t ∧ Exclusive cfg t ∧ Links cfg t := by
    refine run_induction (I := fun t => Tidy cfg t ∧ Exclusive cfg t ∧ Links cfg t) (fun s x s' hi hp hs => ?_)
      ⟨blank_freshSystem.tidy, (conserved_iff.mp blank_freshSystem.conserved).1, links_freshSystem⟩ hx hrun
    obtain ⟨ht, he, hl⟩ := hi
    have hk := step_kept ht he hs
    exact ⟨hk.tidy, hk.exclusive.mpr hp.2.1, step_links hl ht he hp.2.2 hs⟩
  exact hinv.2.2

/-- Every write of a run goes to the chunk its slot has obtained since its last write if
and only if something is put before every write; no linked slot is overwritten then, if
the other conditions hold as well. -/
theorem run_writes_owned (home : Ptr → Option LogId) (keyOf : A → ℕ) (cfg : Config) (S : StdSort)
    (s' : System A) (xs : List (Step A)) (hrun : run (step home keyOf cfg S) (freshSystem cfg) xs = some s') :
    ((∀ ys l, ys ++ [.write l] <+: xs → ∀ t, run (step home keyOf cfg S) (freshSystem cfg) ys = some t →
        ∀ v ∈ (t.log l).phase.vs, obtainedSince home keyOf cfg S (freshSystem cfg) (fun _ _ => none) ys v l.1 =
          some ((t.stores v).wChunk l.1).chunkOffset) ↔
      Along (step home keyOf cfg S) WritesPut (freshSystem cfg) xs) ∧
    (Along (step home keyOf cfg S) (KeepsDisk cfg) (freshSystem cfg) xs →
      ∀ ys l, ys ++ [.write l] <+: xs → ∀ t t', run (step home keyOf cfg S) (freshSystem cfg) ys = some t →
        step home keyOf cfg S t (.write l) = some t' →
        ∀ a v c i, t.LinkedTo cfg a v c i → (t'.stores v).disk c i = (t.stores v).disk c i) := by
  -- a prefix of a run is a run
  have hstep : ∀ ys x, ys ++ [x] <+: xs → ∀ t, run (step home keyOf cfg S) (freshSystem cfg) ys = some t →
      ∃ t', step home keyOf cfg S t x = some t' := by
    rintro ys x ⟨zs, rfl⟩ t ht
    rw [List.append_assoc, run_append ht] at hrun
    obtain ⟨t', ht', -⟩ := Option.bind_eq_some_iff.mp hrun
    exact ⟨t', ht'⟩
  have hown : ∀ ys l, ys ++ [.write l] <+: xs → ∀ t,
    run (step home keyOf cfg S) (freshSystem cfg) ys = some t →
      ((∀ v ∈ (t.log l).phase.vs, obtainedSince home keyOf cfg S (freshSystem cfg) (fun _ _ => none) ys v l.1 =
        some ((t.stores v).wChunk l.1).chunkOffset) ↔ WritesPut t (.write l)) := by
    intro ys l hys t ht
    obtain ⟨t', ht'⟩ := hstep ys _ hys t ht
    have hfill : obtainedSince home keyOf cfg S (freshSystem cfg) (fun _ _ => none) ys = t.filling := run_filling ht
    rw [hfill]
    exact write_filling_iff ht'
  constructor
  · rw [along_iff]
    constructor
    · intro h ys x hys t ht
      cases x with
      | write l => exact (hown ys l hys t ht).mp (h ys l hys t ht)
      | _ => trivial
    · intro h ys l hys t ht
      exact (hown ys l hys t ht).mpr (h ys _ hys t ht)
  · intro hx ys l hys t t' ht ht' a v c i ha
    have hl := links_of_run (along_of_isPrefix hx ((List.prefix_append ys _).trans hys)) ht
    exact write_disk hl (along_iff.mp hx ys _ hys t ht).1 ht' ha

/-- A key is flushed by two logs in turn. -/
theorem run_writes_owned_twoFlushes :
    ∃ s', run (step sampleHome Fin.val smallConfig insertion) (freshSystem smallConfig)
      twoFlushes = some s' ∧
    (∀ ys l, ys ++ [.write l] <+: twoFlushes → ∀ t, run (step sampleHome Fin.val smallConfig insertion)
        (freshSystem smallConfig) ys = some t → ∀ v ∈ (t.log l).phase.vs,
        obtainedSince sampleHome Fin.val smallConfig insertion (freshSystem smallConfig) (fun _ _ => none) ys v l.1 =
          some ((t.stores v).wChunk l.1).chunkOffset) ∧
    ∀ ys l, ys ++ [.write l] <+: twoFlushes → ∀ t t', run (step sampleHome Fin.val smallConfig insertion)
        (freshSystem smallConfig) ys = some t →
        step sampleHome Fin.val smallConfig insertion t (.write l) = some t' →
        ∀ a v c i, t.LinkedTo smallConfig a v c i → (t'.stores v).disk c i = (t.stores v).disk c i := by
  have hsome : (run (step sampleHome Fin.val smallConfig insertion) (freshSystem smallConfig) twoFlushes).isSome =
    true := by
    decide +kernel
  have hput : Along (step sampleHome Fin.val smallConfig insertion) WritesPut
    (freshSystem smallConfig) twoFlushes := by
    decide +kernel
  have hcheck : Along (step sampleHome Fin.val smallConfig insertion) (CheckedSpace smallConfig 2)
      (freshSystem smallConfig) twoFlushes := by
    decide +kernel
  have hspace := along_conserves (idleFrom_freshSystem 2) (by decide) hcheck
  have hlinks : Along (step sampleHome Fin.val smallConfig insertion) (KeepsLinks smallConfig)
    (freshSystem smallConfig)
      twoFlushes := along_of_forall_mem fun s x hx => by
    simp only [twoFlushes, flushOf, List.map_cons, List.map_nil, List.cons_append, List.nil_append, List.mem_cons,
      List.not_mem_nil, or_false] at hx
    rcases hx with rfl | rfl | rfl | rfl | rfl | rfl | rfl | rfl | rfl | rfl | rfl | rfl | rfl | rfl <;> trivial
  obtain ⟨s', hs'⟩ := Option.isSome_iff_exists.mp hsome
  obtain ⟨hown, hdisk⟩ := run_writes_owned sampleHome Fin.val smallConfig insertion s' twoFlushes hs'
  refine ⟨s', hs', hown.mpr hput,
    hdisk (along_and.mpr ⟨hput, along_and.mpr ⟨along_imp hspace fun _ _ h => h.1, hlinks⟩⟩)⟩

/-- Four chunks of two entries. -/
def fourChunks : Config := ⟨2, 4, Nat.two_pos⟩

attribute [local instance] oplogNum_neZero entryNum_neZero keyNum_neZero

/-- Key `1` is updated and flushed to chunk `c` by the second log. -/
def reflush (val c : ℕ) : List (Step (Fin 6)) :=
  [.update (1, 0) 1 val (entryPtr 2), .start (1, 0) 0, .reclaim (1, 0)] ++
    flushOf (1, 0) [⟨1, some 1, c, 0, .insert⟩]

/-- The first log flushes key `1` to chunk `0`. The second log flushes it four times, so
that chunk `0` is freed and is the one it holds in the end. Then all that the first log
holds is superseded. -/
def supersededLog : List (Step (Fin 6)) :=
  [.insert (0, 0) 1 10 (entryPtr 0), .start (0, 0) 0, .reclaim (0, 0)] ++
    flushOf (0, 0) [⟨1, some 1, 0, 0, .insert⟩] ++ reflush 20 1 ++ reflush 30 2 ++ reflush 40 3 ++ reflush 50 0 ++
    [.insert (0, 0) 2 11 (entryPtr 0), .update (1, 0) 2 21 (entryPtr 2), .start (0, 0) 0, .reclaim (0, 0)]

/-- The forced write of the first log puts the old value back under key `1`. -/
theorem run_write_not_owned : ∃ t t', run (step sampleHome Fin.val fourChunks insertion) (freshSystem fourChunks)
      supersededLog = some t ∧ step sampleHome Fin.val fourChunks insertion t (.write (0, 0)) = some t' ∧
    (t.log (0, 0)).phase.vs = some 0 ∧
    obtainedSince sampleHome Fin.val fourChunks insertion (freshSystem fourChunks) (fun _ _ => none)
      supersededLog 0 0 = none ∧
    t.LinkedTo fourChunks 1 0 0 0 ∧ ((t.stores 0).disk 0 0).val = 50 ∧ ((t'.stores 0).disk 0 0).val = 10 := by
  have hrun :
    ((run (step sampleHome Fin.val fourChunks insertion) (freshSystem fourChunks) supersededLog).bind fun t =>
      (step sampleHome Fin.val fourChunks insertion t (.write (0, 0))).map fun t' =>
        ((t.log (0, 0)).phase.vs, (t.table 1).vsIdx, ((t.stores 0).disk 0 0).val, ((t'.stores 0).disk 0 0).val)) =
      some (some 0, ⟨0, 0⟩, 50, 10) := by
    decide +kernel
  have hown : obtainedSince sampleHome Fin.val fourChunks insertion (freshSystem fourChunks) (fun _ _ => none)
      supersededLog 0 0 = none := by
    decide +kernel
  obtain ⟨t, ht, hrest⟩ := Option.bind_eq_some_iff.mp hrun
  obtain ⟨t', ht', hfacts⟩ := Option.map_eq_some_iff.mp hrest
  simp only [Prod.mk.injEq] at hfacts
  obtain ⟨hphase, hidx, hold, hnew⟩ := hfacts
  exact ⟨t, t', ht, ht', hphase, hown, ⟨by decide, hidx⟩, hold, hnew⟩

end Hkv.Prism
