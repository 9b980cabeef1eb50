import Hkv.CurrentValue

/-!
# Updates against flushes and collections

In an orderly run no update is lost: once no copy of an entry is pending, its place
holds the newest value. Two runs show what happens otherwise. In the first one two
write buffers flush the same entry, the older copy last. In the second one a collection
links its copy over a newer one that went to the same store.
-/
namespace Hkv.Prism
open MtsConfig TaggedPointer AddressTable KeyedSort ValueStorage StepRun

variable {A : Type} [DecidableEq A] {home : Ptr → Option LogId} {keyOf : A → ℕ} {cfg : Config} {S : StdSort}
  {s s' : System A}

/-! ## Checking a run -/

/-- The records of `gc_sync_with_at` still to be done. -/
def GcPc.records {A : Type} : GcPc A → List (MovedEntry A)
  | .sync moved _ => moved
  | _ => []

theorem GcPc.records_of_isIdle {A : Type} {pc : GcPc A} (h : pc.isIdle = true) : pc.records = [] := by
  cases pc with
  | sync moved k => cases h
  | _ => rfl

section Checked
variable (cfg : Config) (n k : ℕ)

/-- No copy of `a` is pending in the slots below `k` of the stores below `n`. -/
def System.settled (s : System A) (a : A) : Bool :=
  decide (∀ v < n, ∀ w < k, some a ∉ (s.pending v w).map MovedEntry.atEntry)

/-- `NotInUse` for a run that uses the slots below `k`. -/
def CheckedFree (s : System A) (v c : ℕ) : Prop :=
  (∀ a, (s.table a).Linked → (s.table a).vsIdx.vsId = v →
    (s.table a).vsIdx.vsOffset.toNat / cfg.entriesPerChunk ≠ c) ∧
  (∀ w < k, ∀ moved ∈ s.sync v w, ∀ m ∈ moved, m.chunkOffset ≠ c) ∧
  ∀ m ∈ (s.gc v).pc.records, m.opType = .insert → m.chunkOffset ≠ c

/-- `CopyOk` for a run that uses the slots below `k` of the stores below `n`. -/
def CheckedCopy (s : System A) (v victim i : ℕ) : Prop :=
  ∃ a, ((s.stores v).gcRBuffer i).atEntry = some a ∧ s.values a ≠ [] ∧
    (s.table a).vsIdx = ⟨v, cfg.slotOffset victim i⟩ ∧ (s.stores v).disk victim i = (s.stores v).gcRBuffer i ∧
    s.settled n k a = true ∧
    ∀ m ∈ (s.stores v).gcWChunk.movedEntryList, m.key ≠ ((s.stores v).gcRBuffer i).key ∧ m.atEntry ≠ some a

def CheckedGc (s : System A) (v : ℕ) : GcPc A → Prop
  | .entries (victim, i :: _, _) => (s.stores v).bitmap victim i = true → CheckedCopy cfg n k s v victim i
  | .write _ => CheckedFree cfg k s v (s.stores v).gcWChunk.chunkOffset
  | _ => True

/-- A condition for `Orderly` that can be evaluated. -/
def Checked (s : System A) : Step A → Prop
  | .start l v => v < n ∧ l.1 < k
  | .write l => ∀ v ∈ (s.log l).phase.vs, ((batch ((s.stores v).wChunk l.1)).map VsEntry.key).Nodup ∧
      Clean cfg ((s.stores v).wChunk l.1) ∧ CheckedFree cfg k s v ((s.stores v).wChunk l.1).chunkOffset
  | .link l m => ∀ v ∈ (s.log l).phase.vs, ∀ a ∈ m.atEntry, s.putAt v l.1 a = s.version a
  | .gc v => CheckedGc cfg n k s v (s.gc v).pc
  | .gcLink v m => m.opType = .insert → ∀ a ∈ m.atEntry, s.copiedAt v a = s.version a
  | _ => True

instance (chunk : WChunk A) : Decidable (Clean cfg chunk) := by unfold Clean; infer_instance

instance [Fintype A] (s : System A) (v c : ℕ) : Decidable (CheckedFree cfg k s v c) := by
  unfold CheckedFree; infer_instance

instance [Fintype A] (s : System A) (v victim i : ℕ) : Decidable (CheckedCopy cfg n k s v victim i) := by
  unfold CheckedCopy; infer_instance

instance [Fintype A] (s : System A) (v : ℕ) : ∀ pc, Decidable (CheckedGc cfg n k s v pc)
  | .entries (_, _ :: _, _) => inferInstanceAs (Decidable (_ → _))
  | .write _ => inferInstanceAs (Decidable (CheckedFree ..))
  | .entries (_, [], _) | .idle | .victims _ | .sync _ _ => isTrue trivial

instance [Fintype A] (s : System A) : ∀ x, Decidable (Checked cfg n k s x)
  | .start _ _ => inferInstanceAs (Decidable (_ ∧ _))
  | .write l => inferInstanceAs (Decidable (∀ v ∈ (s.log l).phase.vs, _ ∧ _ ∧ _))
  | .link l m => inferInstanceAs (Decidable (∀ v ∈ (s.log l).phase.vs, ∀ a ∈ m.atEntry, _ = _))
  | .gc _ => inferInstanceAs (Decidable (CheckedGc ..))
  | .gcLink _ m => inferInstanceAs (Decidable (_ → ∀ a ∈ m.atEntry, _ = _))
  | .insert .. | .update .. | .reclaim .. | .close .. | .finish .. => isTrue trivial

end Checked

variable {n k : ℕ}

omit [DecidableEq A] in
theorem CheckedFree.notInUse (h : Within n k s) {v c : ℕ} (hc : CheckedFree cfg k s v c) : NotInUse cfg s v c := by
  obtain ⟨hlinked, hwriters, hgc⟩ := hc
  refine ⟨hlinked, fun w moved hmoved m hm => ?_, fun moved cont hpc m hm => ?_⟩
  · by_cases hvw : v < n ∧ w < k
    · exact hwriters w hvw.2 moved hmoved m hm
    · rw [(h.slot v w hvw).1] at hmoved
      cases hmoved
  · refine hgc m ?_
    rw [hpc]
    exact hm

theorem Within.of_settled (h : Within n k s) {a : A} (ha : s.settled n k a = true) (v w : ℕ) :
    ¬ s.InFlight v w a :=
  h.not_inFlight (of_decide_eq_true ha) v w

theorem CheckedCopy.copyOk (h : Within n k s) {v victim i : ℕ} (hc : CheckedCopy cfg n k s v victim i) :
    CopyOk cfg s v victim i := by
  obtain ⟨a, hat, hlive, hidx, hread, hflight, hnew⟩ := hc
  exact ⟨a, hat, hlive, hidx, hread, h.of_settled hflight, hnew⟩

theorem Checked.orderly (h : Within n k s) {x : Step A} (hc : Checked cfg n k s x) : Orderly cfg s x := by
  cases x with
  | write l =>
    intro v hv
    obtain ⟨hkeys, hclean, hfree⟩ := hc v hv
    exact ⟨hkeys, hclean, hfree.notInUse h⟩
  | link l m => exact fun v a hv ha => .inr (.inl (hc v hv a ha))
  | gc v =>
    simp only [Orderly, GcOk]
    simp only [Checked] at hc
    split
    · rename_i hpc
      rw [hpc] at hc
      exact fun hbit => CheckedCopy.copyOk h (hc hbit)
    · rename_i hpc
      rw [hpc] at hc
      exact CheckedFree.notInUse h hc
    · trivial
  | gcLink v m => exact fun hop a ha => .inr (.inr (.inr (.inl (hc hop a ha))))
  | _ => trivial

theorem along_orderly {xs : List (Step A)} (h : Within n k s)
    (hc : Along (step home keyOf cfg S) (Checked cfg n k) s xs) :
    Along (step home keyOf cfg S) (Orderly cfg) s xs := by
  induction xs generalizing s with
  | nil => trivial
  | cons x xs ih =>
    refine ⟨hc.1.orderly h, fun s' hs' => ih (h.step ?_ hs') (hc.2 s' hs')⟩
    cases x with
    | start l v => exact hc.1
    | _ => trivial

/-! ## No update is lost -/

/-- In every orderly run, an entry without pending copies resolves to its newest value. -/
theorem run_resolve (home : Ptr → Option LogId) (keyOf : A → ℕ) (cfg : Config) (S : StdSort) (s s' : System A)
    (xs : List (Step A)) (hs : Starting s) (hok : Along (step home keyOf cfg S) (Orderly cfg) s xs)
    (hrun : run (step home keyOf cfg S) s xs = some s') (a : A) (ha : s'.values a ≠ [])
    (hf : ∀ v w, ¬ s'.InFlight v w a) : s'.resolve cfg a = some (s'.latest a) :=
  (Ordered.run hs hok hrun).resolve ha hf

theorem keyNum_neZero : NeZero 6 := ⟨by decide⟩

attribute [local instance] oplogNum_neZero entryNum_neZero keyNum_neZero

/-- A full flush of log `l`, with the records of its chunk. -/
def flushOf (l : LogId) (ms : List (MovedEntry (Fin 6))) : List (Step (Fin 6)) :=
  ([.write l] : List (Step (Fin 6))) ++ ms.map (Step.link l) ++ [Step.close l, Step.finish l]

/-- A key is written and flushed by one log, and then by another one. -/
def twoFlushes : List (Step (Fin 6)) :=
  [Step.insert (0, 0) 1 10 (entryPtr 0), Step.start (0, 0) 0, Step.reclaim (0, 0)] ++
    flushOf (0, 0) [⟨1, some 1, 0, 0, .insert⟩] ++
    [Step.update (1, 0) 1 20 (entryPtr 2), Step.start (1, 0) 0, Step.reclaim (1, 0)] ++
    flushOf (1, 0) [⟨1, some 1, 1, 0, .insert⟩]

theorem run_resolve_twoFlushes : ∃ s', run (step sampleHome Fin.val smallConfig insertion)
    (freshSystem smallConfig) twoFlushes = some s' ∧ s'.latest 1 = 20 ∧
    s'.resolve smallConfig 1 = some (s'.latest 1) := by
  have hrun :
    ((run (step sampleHome Fin.val smallConfig insertion) (freshSystem smallConfig) twoFlushes).map fun s' =>
      (s'.values 1, s'.settled 1 2 1)) =
      some ([20, 10], true) := by
    decide +kernel
  have hcheck : Along (step sampleHome Fin.val smallConfig insertion) (Checked smallConfig 1 2)
      (freshSystem smallConfig) twoFlushes := by
    decide +kernel
  obtain ⟨s', hs', hfacts⟩ := Option.map_eq_some_iff.mp hrun
  obtain ⟨hvalues, hpending⟩ := Prod.mk.inj hfacts
  have hstart := starting_freshSystem (A := Fin 6) smallConfig
  have hwithin : Within 1 2 s' := .run hstart (by decide) hs'
  refine ⟨s', hs', by rw [System.latest, hvalues]; rfl, run_resolve sampleHome Fin.val smallConfig insertion _ s'
    twoFlushes hstart (along_orderly hstart.within hcheck) hs' 1 (by rw [hvalues]; simp)
    (hwithin.of_settled hpending)⟩

/-- The same key in two write buffers. The older copy is linked last. -/
def crossedFlushes : List (Step (Fin 6)) :=
  [Step.insert (0, 0) 1 10 (entryPtr 0), Step.start (0, 0) 0, Step.reclaim (0, 0),
    Step.update (1, 0) 1 20 (entryPtr 2), Step.start (1, 0) 0, Step.reclaim (1, 0)] ++
    flushOf (1, 0) [⟨1, some 1, 1, 0, .insert⟩] ++ flushOf (0, 0) [⟨1, some 1, 0, 0, .insert⟩]

theorem crossedFlushes_lose_update : ∃ s', run (step sampleHome Fin.val smallConfig insertion)
    (freshSystem smallConfig) crossedFlushes = some s' ∧ (∀ v w, ¬ s'.InFlight v w 1) ∧
    s'.latest 1 = 20 ∧ s'.resolve smallConfig 1 = some 10 := by
  have hrun : ((run (step sampleHome Fin.val smallConfig insertion) (freshSystem smallConfig) crossedFlushes).map
      fun s' => (s'.latest 1, s'.resolve smallConfig 1,
        s'.settled 1 2 1)) =
      some (20, some 10, true) := by
    decide +kernel
  obtain ⟨s', hs', hfacts⟩ := Option.map_eq_some_iff.mp hrun
  simp only [Prod.mk.injEq] at hfacts
  obtain ⟨hlatest, hresolve, hpending⟩ := hfacts
  have hwithin : Within 1 2 s' := .run (starting_freshSystem smallConfig) (by decide) hs'
  exact ⟨s', hs', hwithin.of_settled hpending, hlatest, hresolve⟩

/-! ## A collection does not revert a value -/

/-- In every orderly run, a linked entry without pending copies is linked to its newest
value. -/
theorem run_linked_latest (home : Ptr → Option LogId) (keyOf : A → ℕ) (cfg : Config) (S : StdSort)
    (s s' : System A) (xs : List (Step A)) (hs : Starting s) (hok : Along (step home keyOf cfg S) (Orderly cfg) s xs)
    (hrun : run (step home keyOf cfg S) s xs = some s') (a : A) (ha : s'.values a ≠ []) (hl : (s'.table a).Linked)
    (hf : ∀ v w, ¬ s'.InFlight v w a) : s'.HoldsLatest cfg a :=
  (Ordered.run hs hok hrun).holdsLatest ha hl hf

/-- One more slot for the first log of `OpLog` 1. -/
def wideHome (p : Ptr) : Option LogId := if p = entryPtr 6 then some (1, 0) else sampleHome p

/-- Five chunks of four entries. -/
def fiveChunks : Config := ⟨4, 5, by decide⟩

/-- Three chunks are written with one entry each, and a fourth one is open. -/
def threeChunks : List (Step (Fin 6)) :=
  [Step.insert (0, 0) 1 10 (entryPtr 0), Step.start (0, 0) 0, Step.reclaim (0, 0)] ++
    flushOf (0, 0) [⟨1, some 1, 0, 0, .insert⟩] ++
    [Step.insert (0, 1) 2 11 (entryPtr 4), Step.start (0, 1) 0, Step.reclaim (0, 1)] ++
    flushOf (0, 1) [⟨2, some 2, 1, 0, .insert⟩] ++
    [Step.insert (0, 0) 3 12 (entryPtr 0), Step.start (0, 0) 0, Step.reclaim (0, 0)] ++
    flushOf (0, 0) [⟨3, some 3, 2, 0, .insert⟩] ++
    [Step.insert (1, 0) 4 13 (entryPtr 2), Step.insert (1, 0) 5 14 (entryPtr 3), Step.start (1, 0) 0,
      Step.reclaim (1, 0)]

/-- The three chunks are collected into one. -/
def collectThree : List (Step (Fin 6)) :=
  threeChunks ++ List.replicate 21 (Step.gc 0) ++
    [Step.gcLink 0 ⟨1, some 1, 4, 0, .insert⟩, Step.gcLink 0 ⟨1, some 1, 0, 0, .remove⟩,
    Step.gcLink 0 ⟨2, some 2, 4, 1, .insert⟩, Step.gcLink 0 ⟨2, some 2, 1, 0, .remove⟩,
    Step.gcLink 0 ⟨3, some 3, 4, 2, .insert⟩, Step.gcLink 0 ⟨3, some 3, 2, 0, .remove⟩, Step.gc 0]

theorem run_linked_latest_collectThree : ∃ s', run (step wideHome Fin.val fiveChunks insertion)
    (freshSystem fiveChunks) collectThree = some s' ∧ (s'.table 1).vsIdx = ⟨0, 16⟩ ∧
    s'.HoldsLatest fiveChunks 1 := by
  have hrun : ((run (step wideHome Fin.val fiveChunks insertion) (freshSystem fiveChunks) collectThree).map fun s' =>
      (s'.values 1, (s'.table 1).vsIdx, s'.settled 1 2 1)) = some ([10], ⟨0, 16⟩, true) := by
    decide +kernel
  have hcheck : Along (step wideHome Fin.val fiveChunks insertion) (Checked fiveChunks 1 2)
      (freshSystem fiveChunks) collectThree := by
    decide +kernel
  obtain ⟨s', hs', hfacts⟩ := Option.map_eq_some_iff.mp hrun
  simp only [Prod.mk.injEq] at hfacts
  obtain ⟨hvalues, hidx, hpending⟩ := hfacts
  have hstart := starting_freshSystem (A := Fin 6) fiveChunks
  have hwithin : Within 1 2 s' := .run hstart (by decide) hs'
  refine ⟨s', hs', hidx, run_linked_latest wideHome Fin.val fiveChunks insertion _ s' collectThree hstart
    (along_orderly hstart.within hcheck) hs' 1 (by rw [hvalues]; simp) ?_ (hwithin.of_settled hpending)⟩
  rw [AtEntry.Linked, hidx]
  decide

/-- After the collector has copied an entry of the first chunk, the entry is updated,
and the update goes to the open chunk of the same store. -/
def overtaken : List (Step (Fin 6)) :=
  threeChunks ++ [Step.gc 0, Step.gc 0, Step.gc 0, Step.update (1, 0) 1 20 (entryPtr 6), Step.reclaim (1, 0),
    Step.reclaim (1, 0)] ++
    flushOf (1, 0) [⟨4, some 1, 3, 0, .insert⟩, ⟨5, some 4, 3, 1, .insert⟩, ⟨1, some 5, 3, 2, .insert⟩] ++
    List.replicate 18 (Step.gc 0) ++ [Step.gcLink 0 ⟨1, some 1, 4, 0, .insert⟩]

theorem overtaken_reverts_value : ∃ s', run (step wideHome Fin.val fiveChunks insertion)
    (freshSystem fiveChunks) overtaken = some s' ∧ (∀ v w, ¬ s'.InFlight v w 1) ∧ (s'.table 1).Linked ∧
    s'.latest 1 = 20 ∧ s'.resolve fiveChunks 1 = some 10 := by
  have hrun : ((run (step wideHome Fin.val fiveChunks insertion) (freshSystem fiveChunks) overtaken).map fun s' =>
      (s'.latest 1, s'.resolve fiveChunks 1, s'.settled 1 2 1, decide (s'.table 1).Linked)) =
      some (20, some 10, true, true) := by
    decide +kernel
  obtain ⟨s', hs', hfacts⟩ := Option.map_eq_some_iff.mp hrun
  simp only [Prod.mk.injEq] at hfacts
  obtain ⟨hlatest, hresolve, hpending, hlinked⟩ := hfacts
  have hwithin : Within 1 2 s' := .run (starting_freshSystem fiveChunks) (by decide) hs'
  exact ⟨s', hs', hwithin.of_settled hpending, of_decide_eq_true hlinked, hlatest, hresolve⟩

end Hkv.Prism
