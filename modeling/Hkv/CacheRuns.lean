import Hkv.CacheFrame
import Hkv.StepFrame

/-!
# Reads from the device and the cache

A lookup submits a read of the slot an entry is linked to. What the device returns is
queued for the cache thread, which admits it later. Meanwhile the entry may have been
updated, and the update may have been reclaimed: then the tests of the cache thread see
nothing unusual.
-/
namespace Hkv.Prism
open MtsConfig TaggedPointer AddressTable KeyedSort ValueStorage StepRun DramCache

variable {A : Type}

/-- A read on its way. The last two fields are a record of the past. -/
structure SsdRead (A : Type) where
  vs : ℕ
  chunk : ℕ
  entry : ℕ
  /-- What the slot held when the read was submitted. -/
  found : VsEntry A
  /-- How often the entry had been written then. -/
  version : ℕ
  deriving DecidableEq

/-- The store, the cache thread, and the reads between them. Every entry that was read is
kept with the version of its submission. -/
structure ReadSystem (A : Type) where
  sys : System A
  /-- The address table of this record is not used; see `ReadSystem.thread`. -/
  cache : CacheThread A
  reads : List (SsdRead A)
  done : List (VsEntry A × ℕ)
  queue : List (List (CqEntry A × ℕ))

inductive ReadStep (A : Type) where
  | store (x : Step A)
  | submit (a : A)
  /-- the device reads the slot -/
  | fetch (r : SsdRead A)
  /-- `complete_pending_ios`: the entries read go to the cache queue -/
  | complete (ops : CtOps) (es : List (VsEntry A × ℕ))
  | cacheOperation (vec : List (CqEntry A × ℕ)) (malloc : List Ptr)

namespace ReadSystem

/-- The cache thread on the shared address table. -/
def thread (s : ReadSystem A) : CacheThread A := { s.cache with table := s.sys.table }

def setThread (s : ReadSystem A) (c : CacheThread A) : ReadSystem A :=
  { s with sys := { s.sys with table := c.table }, cache := c }

/-- The read that a lookup of `a` submits. -/
def readOf (cfg : Config) (s : ReadSystem A) (a : A) : Option (SsdRead A) :=
  match getValPos (s.sys.table a) with
  | some (.valuestorage v) =>
    let offset := (s.sys.table a).vsIdx.vsOffset.toNat
    let chunk := offset / cfg.entriesPerChunk
    let entry := offset % cfg.entriesPerChunk
    some ⟨v.toNat, chunk, entry, (s.sys.stores v.toNat).disk chunk entry, s.sys.version a⟩
  | _ => none

/-- `cache_kv_items` -/
def cqEntry (ops : CtOps) (e : VsEntry A × ℕ) : CqEntry A × ℕ := (⟨e.1.atEntry, e.1.key, e.1.val, ops⟩, e.2)

variable [DecidableEq A] (home : Ptr → Option LogId) (keyOf : A → ℕ) (cfg : Config) (S : StdSort) (pages : ℕ)

def step (s : ReadSystem A) : ReadStep A → Option (ReadSystem A)
  | .store x => (Prism.step home keyOf cfg S s.sys x).map fun t => { s with sys := t }
  | .submit a => (s.readOf cfg a).map fun r => { s with reads := r :: s.reads }
  | .fetch r =>
    if r ∈ s.reads then
      some { s with
        reads := s.reads.erase r
        done := ((s.sys.stores r.vs).disk r.chunk r.entry, r.version) :: s.done }
    else none
  | .complete ops es =>
    if es ≠ [] ∧ es.Subperm s.done then
      some { s with done := s.done.diff es, queue := s.queue ++ [es.map (cqEntry ops)] }
    else none
  | .cacheOperation vec malloc =>
    if vec ∈ s.queue ∧ ∀ d ∈ malloc, home d = none then
      (s.thread.cacheOperation pages (vec.map Prod.fst) malloc).map fun c =>
        { s.setThread c with queue := s.queue.erase vec }
    else none

/-! ## The condition on the steps -/

omit [DecidableEq A] in
/-- A read is of the newest value of its entry, and returns what it was submitted for.
When it is cached, the entry was not updated since the submission, or the update is
still in its log. -/
def Timely (s : ReadSystem A) : ReadStep A → Prop
  | .submit a => ∀ r ∈ s.readOf cfg a, r.found.atEntry = some a ∧ r.found.val = s.sys.latest a
  | .fetch r => (s.sys.stores r.vs).disk r.chunk r.entry = r.found
  | .cacheOperation vec _ => ∀ x ∈ vec, ∀ a ∈ x.1.atEntry, InLog (s.sys.table a) ∨ x.2 = s.sys.version a
  | _ => True

instance (s : ReadSystem A) : ∀ x, Decidable (s.Timely cfg x)
  | .submit a => inferInstanceAs (Decidable (∀ r ∈ s.readOf cfg a, _ ∧ _))
  | .fetch _ => inferInstanceAs (Decidable (_ = _))
  | .cacheOperation vec _ => inferInstanceAs (Decidable (∀ x ∈ vec, ∀ a ∈ x.1.atEntry, _ ∨ _))
  | .store _ | .complete _ _ => isTrue trivial

omit [DecidableEq A] in
/-- Nothing is cached and no read is on its way. -/
structure Quiet (s : ReadSystem A) : Prop where
  tag : ∀ a, getTag (s.sys.table a).valAddr ≠ dcacheVal
  reads : s.reads = []
  done : s.done = []
  queue : s.queue = []

/-! ## The invariant -/

omit [DecidableEq A] in
/-- A value that was read for version `n` of an entry is its newest one as long as that
is the current version. -/
def Stamped (s : System A) (o : Option A) (val n : ℕ) : Prop :=
  ∀ a, o = some a → n ≤ s.version a ∧ (n = s.version a → val = s.latest a)

omit [DecidableEq A] in
structure Inv (s : ReadSystem A) : Prop where
  serves : Serves (fun a val => val = s.sys.latest a) s.thread.view
  reads : ∀ r ∈ s.reads, Stamped s.sys r.found.atEntry r.found.val r.version
  done : ∀ e ∈ s.done, Stamped s.sys e.1.atEntry e.1.val e.2
  queue : ∀ vec ∈ s.queue, ∀ x ∈ vec, Stamped s.sys x.1.atEntry x.1.val x.2

variable {home : Ptr → Option LogId} {keyOf : A → ℕ} {cfg : Config} {S : StdSort} {pages : ℕ}
    {s s' : ReadSystem A}

omit [DecidableEq A] in
theorem Stamped.of_aged {t t' : System A} {o : Option A} {val n : ℕ} (h : Stamped t o val n) (hv : Aged t t') :
    Stamped t' o val n := by
  intro a ha
  obtain ⟨hle, hval⟩ := h a ha
  refine ⟨hle.trans (hv.le a), fun heq => ?_⟩
  obtain ⟨heq', hlatest⟩ := hv.fresh hle heq
  rw [hlatest]
  exact hval heq'

omit [DecidableEq A] in
theorem Quiet.inv (h : s.Quiet) : s.Inv :=
  ⟨fun a ha => absurd ha (h.tag a), by simp [h.reads], by simp [h.done], by simp [h.queue]⟩

theorem Inv.store {t : System A} {x : Step A} (h : s.Inv) (hs : Prism.step home keyOf cfg S s.sys x = some t) :
    Inv { s with sys := t } := by
  have haged := step_aged hs
  refine ⟨fun a ha => ?_, fun r hr => (h.reads r hr).of_aged haged, fun e he => (h.done e he).of_aged haged,
    fun vec hvec x hx => (h.queue vec hvec x hx).of_aged haged⟩
  -- a step of the store that touches an entry takes it out of the cache
  rcases step_readdressed hs a with ⟨haddr, hvalues⟩ | htag
  · have hcached : getTag (s.sys.table a).valAddr = dcacheVal := by
      rw [← haddr]
      exact ha
    obtain ⟨d, key, val, hpt, hdata, hfree, hval⟩ := h.serves a hcached
    have hlatest : t.latest a = s.sys.latest a := by rw [System.latest, System.latest, hvalues]
    exact ⟨d, key, val, (congrArg getUntaggedPtr haddr).trans hpt, hdata, hfree, hval.trans hlatest.symm⟩
  · exact absurd (htag.symm.trans ha) (by decide)

theorem Inv.cacheOperation {vec : List (CqEntry A × ℕ)} {malloc : List Ptr} {c : CacheThread A} (h : s.Inv)
    (hvec : vec ∈ s.queue) (hok : s.Timely cfg (.cacheOperation vec malloc))
    (hc : s.thread.cacheOperation pages (vec.map Prod.fst) malloc = some c) :
    Inv { s.setThread c with queue := s.queue.erase vec } := by
  refine ⟨?_, h.reads, h.done, fun v hv => h.queue v (List.mem_of_mem_erase hv)⟩
  refine h.serves.cacheOperation (fun q hq a ha hlog => ?_) hc
  obtain ⟨x, hx, rfl⟩ := List.mem_map.mp hq
  rcases hok x hx a ha with hin | heq
  · exact absurd hin hlog
  · exact (h.queue vec hvec x hx a ha).2 heq

theorem Inv.step {x : ReadStep A} (h : s.Inv) (hok : s.Timely cfg x)
    (hs : s.step home keyOf cfg S pages x = some s') : s'.Inv := by
  cases x with
  | store x =>
    obtain ⟨t, ht, rfl⟩ := Option.map_eq_some_iff.mp hs
    exact h.store ht
  | submit a =>
    obtain ⟨r, hr, rfl⟩ := Option.map_eq_some_iff.mp hs
    refine ⟨h.serves, fun r' hr' => ?_, h.done, h.queue⟩
    rcases List.mem_cons.mp hr' with rfl | hr'
    · obtain ⟨hat, hval⟩ := hok r' hr
      have hversion : r'.version = s.sys.version a := by
        unfold readOf at hr
        split at hr
        · rw [← Option.some.inj hr]
        · cases hr
      intro b hb
      obtain rfl := Option.some.inj (hat.symm.trans hb)
      exact ⟨hversion.le, fun _ => hval⟩
    · exact h.reads r' hr'
  | fetch r =>
    simp only [ReadSystem.step] at hs
    split at hs
    · rename_i hr
      cases hs
      refine ⟨h.serves, fun r' hr' => h.reads r' (List.mem_of_mem_erase hr'), fun e he => ?_, h.queue⟩
      rcases List.mem_cons.mp he with rfl | he
      · have hfound : (s.sys.stores r.vs).disk r.chunk r.entry = r.found := hok
        rw [hfound]
        exact h.reads r hr
      · exact h.done e he
    · cases hs
  | complete ops es =>
    simp only [ReadSystem.step] at hs
    split at hs
    · rename_i hes
      cases hs
      refine ⟨h.serves, h.reads, fun e he => h.done e (List.diff_subset _ _ he), fun vec hvec x hx => ?_⟩
      rcases List.mem_append.mp hvec with hvec | hvec
      · exact h.queue vec hvec x hx
      · rw [List.mem_singleton.mp hvec] at hx
        obtain ⟨e, he, rfl⟩ := List.mem_map.mp hx
        exact h.done e (hes.2.subset he)
    · cases hs
  | cacheOperation vec malloc =>
    simp only [ReadSystem.step] at hs
    split at hs
    · rename_i hvec
      obtain ⟨c, hc, rfl⟩ := Option.map_eq_some_iff.mp hs
      exact h.cacheOperation hvec.1 hok hc
    · cases hs

/-! ## Whole runs -/

/-- In every timely run, an entry that is served from the cache has its newest value
there. -/
theorem run_cached_latest (home : Ptr → Option LogId) (keyOf : A → ℕ) (cfg : Config) (S : StdSort) (pages : ℕ)
    (s s' : ReadSystem A) (xs : List (ReadStep A)) (hs : s.Quiet)
    (hok : Along (ReadSystem.step home keyOf cfg S pages) (Timely cfg) s xs)
    (hrun : run (ReadSystem.step home keyOf cfg S pages) s xs = some s') (a : A)
    (ha : getValPos (s'.sys.table a) = some .dcache) :
    ∃ d e, (s'.sys.table a).PointsTo d ∧ s'.cache.heap d = some e ∧ e.atEntry = a ∧
      e.val = s'.sys.latest a := by
  have hinv : s'.Inv := run_induction (I := Inv) (fun _ _ _ h hx hstep => h.step hx hstep) hs.inv hok hrun
  obtain ⟨-, htag⟩ := (getValPos_eq_dcache_iff _).mp ha
  obtain ⟨d, key, val, hpt, hdata, -, hval⟩ := hinv.serves a htag
  obtain ⟨e, he, hx⟩ := CacheThread.data_eq_some.mp hdata
  obtain ⟨rfl, -, rfl⟩ : e.atEntry = a ∧ e.key = key ∧ e.val = val := by
    simpa [CacheThread.DcEntry.data] using hx
  exact ⟨d, e, hpt, he, rfl, hval⟩

/-- A new store with a cache for a few entries. -/
def freshReadSystem : ReadSystem ℕ where
  sys := freshSystem smallConfig
  cache := ⟨fun _ => alloc, fun _ => none, fun _ => ⟨none, none, 4, 0⟩⟩
  reads := []
  done := []
  queue := []

theorem quiet_freshReadSystem : Quiet freshReadSystem :=
  ⟨fun _ => (by decide : getTag alloc.valAddr ≠ dcacheVal), rfl, rfl, rfl⟩

attribute [local instance] oplogNum_neZero entryNum_neZero

/-- An entry is written and flushed, read from the device, and the read is queued. -/
def readRun : List (ReadStep ℕ) :=
  [.store (.insert (0, 0) 1 10 (entryPtr 0)), .store (.start (0, 0) 0), .store (.reclaim (0, 0)),
    .store (.write (0, 0)),
    .store (.link (0, 0) ⟨1, some 1, 0, 0, .insert⟩), .store (.close (0, 0)), .store (.finish (0, 0)), .submit 1,
    .fetch ⟨0, 0, 0, ⟨some 1, 1, 10⟩, 1⟩, .complete .lookup [(⟨some 1, 1, 10⟩, 1)]]

/-- The queued read is cached. -/
def promptRun : List (ReadStep ℕ) := readRun ++ [.cacheOperation [(⟨some 1, 1, 10, .lookup⟩, 1)] [entryPtr 8]]

theorem run_cached_latest_promptRun : ∃ s' d e,
    run (ReadSystem.step sampleHome id smallConfig insertion 1) freshReadSystem promptRun = some s' ∧
    (s'.sys.table 1).PointsTo d ∧ s'.cache.heap d = some e ∧ e.atEntry = 1 ∧ e.val = s'.sys.latest 1 := by
  have hrun : ((run (ReadSystem.step sampleHome id smallConfig insertion 1) freshReadSystem promptRun).map
      fun s' => getValPos (s'.sys.table 1)) = some (some .dcache) := by
    decide +kernel
  obtain ⟨s', hs', hpos⟩ := Option.map_eq_some_iff.mp hrun
  obtain ⟨d, e, hfound⟩ :=
    run_cached_latest sampleHome id smallConfig insertion 1 _ s' promptRun quiet_freshReadSystem
    (by decide +kernel) hs' 1 hpos
  exact ⟨s', d, e, hs', hfound⟩

/-- Between the read and the cache operation the entry is updated, and the update is
reclaimed and flushed. -/
def lateRun : List (ReadStep ℕ) :=
  readRun ++ [.store (.update (1, 0) 1 20 (entryPtr 2)), .store (.start (1, 0) 0), .store (.reclaim (1, 0)),
    .store (.write (1, 0)), .store (.link (1, 0) ⟨1, some 1, 1, 0, .insert⟩), .store (.close (1, 0)),
    .store (.finish (1, 0)), .cacheOperation [(⟨some 1, 1, 10, .lookup⟩, 1)] [entryPtr 8]]

theorem lateRun_serves_stale :
    ∃ s', run (ReadSystem.step sampleHome id smallConfig insertion 1) freshReadSystem lateRun = some s' ∧
    getValPos (s'.sys.table 1) = some .dcache ∧ (s'.sys.table 1).PointsTo (entryPtr 8) ∧
    (s'.cache.heap (entryPtr 8)).map DcEntry.val = some 10 ∧ s'.sys.latest 1 = 20 := by
  have hrun : ((run (ReadSystem.step sampleHome id smallConfig insertion 1) freshReadSystem lateRun).map fun s' =>
      (getValPos (s'.sys.table 1), decide ((s'.sys.table 1).PointsTo (entryPtr 8)),
        (s'.cache.heap (entryPtr 8)).map DcEntry.val, s'.sys.latest 1)) = some (some .dcache, true, some 10, 20) := by
    decide +kernel
  obtain ⟨s', hs', hfacts⟩ := Option.map_eq_some_iff.mp hrun
  simp only [Prod.mk.injEq] at hfacts
  obtain ⟨hpos, hpt, hval, hlatest⟩ := hfacts
  exact ⟨s', hs', hpos, of_decide_eq_true hpt, hval, hlatest⟩

end ReadSystem

end Hkv.Prism
