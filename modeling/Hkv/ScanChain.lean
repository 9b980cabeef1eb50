import Hkv.CacheStructure

/-!
# Scan chains

The entries that one scan brings into the cache are to form a chain over `s_prev` and
`s_next`, which `evict_entry` follows. `cacheOperation` overwrites a scan link only if
there is one, and `alloc_entry` sets none.
-/
namespace Hkv.DramCache
open MtsConfig TaggedPointer AddressTable StepRun CacheThread

variable {A : Type}

/-- `d->s_prev == d₂` and `d₂->s_next == d`. -/
def CacheThread.Coupled (c : CacheThread A) (d d₂ : Ptr) : Prop :=
  (∃ e, c.heap d = some e ∧ e.sPrev = some d₂) ∧ ∃ e, c.heap d₂ = some e ∧ e.sNext = some d

/-- The entries `ds` that are still cached form a chain, and the scan links of all
entries are mutually inverse. -/
structure CacheThread.Chained (c : CacheThread A) (ds : List Ptr) : Prop where
  coupled : ∀ d d₂, [d, d₂] <:+: ds → c.heap d ≠ none → c.heap d₂ ≠ none → c.Coupled d d₂
  sPrev : ∀ d e d₂, c.heap d = some e → e.sPrev = some d₂ → c.Coupled d d₂
  sNext : ∀ d e d₂, c.heap d = some e → e.sNext = some d₂ → c.Coupled d₂ d

/-- A cache thread with the entries of the current batch, in order. -/
structure ScanRun (A : Type) where
  thread : CacheRun A
  batch : List Ptr

namespace ScanRun
variable [DecidableEq A]

/-- The entries of the batch after a step; an item that is skipped has none. -/
def handled (r : ScanRun A) : CacheStep A → List Ptr
  | .batch _ => []
  | .item malloc => r.batch ++ (r.thread.items.head?.bind (r.thread.cache.itemEntry · malloc)).toList
  | .update .. | .relink .. => r.batch

def step (pages : ℕ) (r : ScanRun A) (x : CacheStep A) : Option (ScanRun A) :=
  (r.thread.step pages x).map fun thread => ⟨thread, r.handled x⟩

def new (table : A → AtEntry) (M : ListType → ℤ) : ScanRun A := ⟨CacheRun.new table M, []⟩

variable {M : ListType → ℤ} {L : ListType → List Ptr} {pages : ℕ}

/-- During a scan `s_dc_entry` is the last entry of the batch, and the one before it is
still on a list. -/
structure Inv (M : ListType → ℤ) (r : ScanRun A) (L : ListType → List Ptr) : Prop where
  cached : r.thread.cache.Cached M L
  follows : Follows r.thread.scan r.thread.sDcEntry L
  last : r.thread.scan = true → r.batch.getLast? = r.thread.sDcEntry
  before : r.thread.scan = true → ∀ ds d d₂, r.batch = ds ++ [d, d₂] → ∃ t, d ∈ L t

omit [DecidableEq A] in
theorem inv_new (table : A → AtEntry) (htable : ∀ a, getTag (table a).valAddr ≠ dcacheVal)
    (hM : ∀ t, 0 ≤ M t) : ∃ L, (new table M).Inv M L := by
  obtain ⟨L, hc, hs⟩ := CacheRun.kept_new table htable hM
  exact ⟨L, hc, hs, fun hscan => (by cases hscan), fun hscan => (by cases hscan)⟩

theorem Inv.step {r r' : ScanRun A} {x : CacheStep A} (hpos : 1 ≤ pages) (hpages : pages ≤ M .inactive)
    (hinactive : 2 ≤ M .inactive) (hactive : 1 ≤ M .active) (h : r.Inv M L) (hstep : r.step pages x = some r') :
    ∃ L', r'.Inv M L' := by
  obtain ⟨thread, hthread, rfl⟩ := Option.map_eq_some_iff.mp hstep
  cases x with
  | batch vec =>
    obtain ⟨scan, rfl⟩ := CacheRun.step_batch hthread
    exact ⟨L, h.cached, by simp [Follows], fun _ => rfl, fun _ ds d d₂ hb => by simp [handled] at hb⟩
  | item malloc =>
    obtain ⟨q, qs, y, hq, hnull, hy, rfl⟩ := CacheRun.step_item hthread
    obtain ⟨y', L', hy', hc', hs', hcases⟩ :=
      h.cached.cacheItem hpos hpages hactive h.follows hnull (supplied_of_cacheItem hy)
    obtain rfl := Option.some.inj (hy'.symm.trans hy)
    rcases hcases with ⟨hskip, hsame, rfl⟩ | ⟨d, hd, hkeep, hfront, hlast⟩
    · have hb : r.handled (.item malloc) = r.batch := by simp [handled, hq, hskip]
      refine ⟨L', hc', hs', fun hscan => ?_, fun hscan => ?_⟩
      · rw [hb]
        exact (h.last hscan).trans hsame.symm
      · rw [hb]
        exact h.before hscan
    · have hb : r.handled (.item malloc) = r.batch ++ [d] := by simp [handled, hq, hd]
      refine ⟨L', hc', hs', fun hscan => ?_, fun hscan ds d₁ d₂ hpair => ?_⟩
      · have hscan : r.thread.scan = true := hscan
        show (r.handled (.item malloc)).getLast? = y'.1
        rw [hb, List.getLast?_concat, hlast, if_pos hscan]
      · -- the entry that was first in a list before the item
        have hscan : r.thread.scan = true := hscan
        have hpair : r.batch ++ [d] = (ds ++ [d₁]) ++ [d₂] := by simpa using hb.symm.trans hpair
        have hlast₁ : r.thread.sDcEntry = some d₁ := by
          rw [← h.last hscan, (List.append_inj' hpair rfl).1, List.getLast?_concat]
        exact hkeep hinactive d₁ (h.follows d₁ hlast₁).2
  | update a op =>
    cases hthread
    exact ⟨L, CacheRun.cached_update h.cached a op, h.follows, h.last, h.before⟩
  | relink a idx =>
    cases hthread
    exact ⟨L, CacheRun.cached_relink h.cached a idx, h.follows, h.last, h.before⟩

omit [DecidableEq A] in
theorem Inv.chained_iff {r : ScanRun A} (h : r.Inv M L) (hscan : r.thread.scan = true) :
    r.thread.cache.Chained r.batch ↔ r.batch.length ≤ 1 := by
  have hnone : ∀ d d₂, ¬ r.thread.cache.Coupled d d₂ := by
    rintro d d₂ ⟨⟨e, he, hprev⟩, -⟩
    rw [(h.cached.unchained d e he).1] at hprev
    cases hprev
  constructor
  · intro hchain
    rcases List.eq_nil_or_concat' r.batch with hnil | ⟨l, d₂, hl⟩
    · simp [hnil]
    · rcases List.eq_nil_or_concat' l with rfl | ⟨ds, d, rfl⟩
      · simp [hl]
      · -- the last two entries are still cached
        have hpair : r.batch = ds ++ [d, d₂] := by simpa using hl
        have hlast : r.thread.sDcEntry = some d₂ := by rw [← h.last hscan, hl, List.getLast?_concat]
        obtain ⟨t, ht⟩ := h.before hscan ds d d₂ hpair
        obtain ⟨t₂, ht₂⟩ := h.follows.listed d₂ hlast
        have hinfix : [d, d₂] <:+: r.batch := ⟨ds, [], by rw [hpair, List.append_nil]⟩
        exact absurd
          (hchain.coupled d d₂ hinfix ((h.cached.listed t).alloc d ht) ((h.cached.listed t₂).alloc d₂ ht₂))
          (hnone d d₂)
  · intro hshort
    refine ⟨fun d d₂ hinfix => ?_, fun d e d₂ he hprev => ?_, fun d e d₂ he hnext => ?_⟩
    · have hlen := hinfix.length_le
      simp at hlen
      omega
    · rw [(h.cached.unchained d e he).1] at hprev
      cases hprev
    · rw [(h.cached.unchained d e he).2] at hnext
      cases hnext

theorem run_inv (hpos : 1 ≤ pages) (hpages : pages ≤ M .inactive) (hinactive : 2 ≤ M .inactive)
    (hactive : 1 ≤ M .active) (table : A → AtEntry) (htable : ∀ a, getTag (table a).valAddr ≠ dcacheVal)
    {xs : List (CacheStep A)} {r : ScanRun A} (hrun : run (step pages) (new table M) xs = some r) :
    ∃ L, r.Inv M L := by
  have hM : ∀ t, 0 ≤ M t := fun t => by cases t <;> omega
  apply run_induction_of_step (I := fun r => ∃ L, r.Inv M L) ?_ (inv_new table htable hM) hrun
  rintro r x r' ⟨L, h⟩ hstep
  exact h.step hpos hpages hinactive hactive hstep

/-- A scan builds its chain only if it has nothing to chain: at most one of its items is
not skipped. -/
theorem run_chained_iff (hpos : 1 ≤ pages) (hpages : pages ≤ M .inactive) (hinactive : 2 ≤ M .inactive)
    (hactive : 1 ≤ M .active) (table : A → AtEntry) (htable : ∀ a, getTag (table a).valAddr ≠ dcacheVal)
    {xs : List (CacheStep A)} {r : ScanRun A} (hrun : run (step pages) (new table M) xs = some r)
    (hscan : r.thread.scan = true) : r.thread.cache.Chained r.batch ↔ r.batch.length ≤ 1 := by
  obtain ⟨L, h⟩ := run_inv hpos hpages hinactive hactive table htable hrun
  exact h.chained_iff hscan

/-- A cache for two active and two inactive entries. -/
def small : ScanRun ℕ := new (fun _ => ⟨⟨0, 0⟩, 0⟩) fun _ => 2

/-- A scan of keys 5 and 6. -/
def scanned : CacheStep ℕ := .batch [⟨some 0, 5, 50, .scan⟩, ⟨some 1, 6, 60, .scan⟩]

/-- An update of key 6 comes between the two items, so the second one is skipped. -/
theorem run_chained_iff_skipped : ∃ r, run (step 1) small [scanned, .item [⟨16, by decide⟩],
      .update 1 ⟨48, by decide⟩, .item []] = some r ∧ r.thread.items = [] ∧
    r.batch = [⟨16, by decide⟩] ∧ r.thread.cache.Chained r.batch := by
  have hsome :
    (run (step 1) small [scanned, .item [⟨16, by decide⟩], .update 1 ⟨48, by decide⟩, .item []]).map
      (fun r => decide (r.thread.items = [] ∧ r.batch = [⟨16, by decide⟩] ∧ r.thread.scan = true)) =
      some true := by
    decide +kernel
  obtain ⟨r, hrun, hr⟩ := Option.map_eq_some_iff.mp hsome
  obtain ⟨hitems, hbatch, hscan⟩ := of_decide_eq_true hr
  refine ⟨r, hrun, hitems, hbatch, ?_⟩
  apply (run_chained_iff (by decide) (by decide) (by decide) (by decide) _ (fun _ => by decide) hrun hscan).mpr
  simp [hbatch]

/-- Two first accesses of one scan are not chained. -/
theorem run_scanned_not_chained : ∃ r, run (step 1) small [scanned, .item [⟨16, by decide⟩],
      .item [⟨32, by decide⟩]] = some r ∧ r.thread.items = [] ∧
    r.batch = [⟨16, by decide⟩, ⟨32, by decide⟩] ∧
    r.thread.cache.heap ⟨16, by decide⟩ ≠ none ∧ r.thread.cache.heap ⟨32, by decide⟩ ≠ none ∧
    ¬ r.thread.cache.Chained r.batch := by
  have hsome : (run (step 1) small [scanned, .item [⟨16, by decide⟩], .item [⟨32, by decide⟩]]).map
      (fun r => decide (r.thread.items = [] ∧ r.batch = [⟨16, by decide⟩, ⟨32, by decide⟩] ∧
        (r.thread.cache.heap ⟨16, by decide⟩).isSome ∧ (r.thread.cache.heap ⟨32, by decide⟩).isSome ∧
        r.thread.scan = true)) = some true := by
    decide +kernel
  obtain ⟨r, hrun, hr⟩ := Option.map_eq_some_iff.mp hsome
  obtain ⟨hitems, hbatch, hfirst, hsecond, hscan⟩ := of_decide_eq_true hr
  refine ⟨r, hrun, hitems, hbatch, Option.isSome_iff_ne_none.mp hfirst, Option.isSome_iff_ne_none.mp hsecond, ?_⟩
  obtain ⟨L, h⟩ := run_inv (by decide) (by decide) (by decide) (by decide) _ (fun _ => by decide) hrun
  rw [h.chained_iff hscan, hbatch]
  decide

end ScanRun

end Hkv.DramCache
