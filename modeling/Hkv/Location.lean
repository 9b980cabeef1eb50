import Hkv.CacheFrame
import Hkv.Placement

/-!
# The location of every live entry

The store together with the cache. `get_val_pos` has no answer for an entry that is
neither linked to a slot nor tagged as being in a log; no order of steps leads there.
-/
namespace Hkv.Prism
open MtsConfig TaggedPointer AddressTable KeyedSort ValueStorage StepRun DramCache

variable {A : Type}

structure Located (A : Type) where
  sys : System A
  data : Ptr → Option (A × ℕ × ℕ)
  freeing : Option Ptr

inductive LocStep (A : Type) where
  | store (x : Step A)
  | cache (x : Act A)

namespace Located

/-- What the cache thread sees. -/
def view (s : Located A) : View A := ⟨s.sys.table, s.data, s.freeing⟩

def setView (s : Located A) (c : View A) : Located A := ⟨{ s.sys with table := c.table }, c.data, c.freeing⟩

/-- `malloc` returns no address of a log. -/
def InDram (home : Ptr → Option LogId) : Act A → Prop
  | .alloc d _ => home d = none
  | _ => True

instance (home : Ptr → Option LogId) : (x : Act A) → Decidable (InDram home x)
  | .alloc d _ => inferInstanceAs (Decidable (home d = none))
  | .link _ => isTrue trivial
  | .remove _ => isTrue trivial
  | .evict _ => isTrue trivial
  | .free => isTrue trivial

variable [DecidableEq A] (home : Ptr → Option LogId) (keyOf : A → ℕ) (cfg : Config) (S : StdSort)

def step (s : Located A) : LocStep A → Option (Located A)
  | .store x => (Prism.step home keyOf cfg S s.sys x).map fun t => { s with sys := t }
  | .cache x => if InDram home x then (s.view.act x).map s.setView else none

omit [DecidableEq A] in
/-- The answers of `get_val_pos` and what they point to. -/
structure Sound (s : Located A) (a : A) : Prop where
  isSome : (getValPos (s.sys.table a)).isSome = true
  oplog : getValPos (s.sys.table a) = some .oplog →
    ∃ p, (s.sys.table a).PointsTo p ∧ (s.sys.op p).opa = some a
  dcache : getValPos (s.sys.table a) = some .dcache →
    ∃ d x, (s.sys.table a).PointsTo d ∧ s.data d = some x ∧ x.1 = a

omit [DecidableEq A] in
/-- No value is cached. -/
structure Empty (s : Located A) : Prop where
  data : ∀ d, s.data d = none
  freeing : s.freeing = none
  tag : ∀ a, getTag (s.sys.table a).valAddr ≠ dcacheVal

end Located

/-! ## The invariant -/

namespace Located
variable {home : Ptr → Option LogId} {keyOf : A → ℕ} {cfg : Config} {S : StdSort} {s s' : Located A} {a : A}

structure Inv (home : Ptr → Option LogId) (keyOf : A → ℕ) (s : Located A) : Prop where
  placed : Placed home keyOf s.sys
  serves : Serves (fun _ _ => True) s.view
  dram : ∀ d x, s.data d = some x → home d = none

theorem Inv.sound (h : Inv home keyOf s) (ha : s.sys.values a ≠ []) : s.Sound a := by
  have hserves : getValPos (s.sys.table a) = some .dcache →
      ∃ d x, (s.sys.table a).PointsTo d ∧ s.data d = some x ∧ x.1 = a := by
    intro hpos
    obtain ⟨-, htag⟩ := (getValPos_eq_dcache_iff _).mp hpos
    obtain ⟨d, key, val, hpt, hdata, -⟩ := h.serves a htag
    exact ⟨d, (a, key, val), hpt, hdata, rfl⟩
  have hlog : ∀ {p : Ptr} {n : ℤ}, s.sys.table a = ⟨⟨-1, n⟩, putTaggedPtr p.addr oplogVal⟩ →
      s.sys.op p = ⟨keyOf a, s.sys.latest a, some a⟩ → s.Sound a := by
    intro p n hentry hop
    have hpos : getValPos (s.sys.table a) = some .oplog := by
      rw [getValPos_eq_oplog_iff, hentry]
      exact ⟨fun hl => absurd hl.1 (lt_irrefl _), getTag_putTaggedPtr p (by decide)⟩
    refine ⟨by rw [hpos]; rfl, fun _ => ⟨p, by simp [hentry], by rw [hop]⟩, hserves⟩
  cases h.placed.place a ha with
  | logged l p mem op entry => exact hlog entry op
  | moving l p v mem vs op entry flight newest => exact hlog entry op
  | linked slot past =>
    refine ⟨?_, fun hpos => ?_, hserves⟩
    · by_cases htag : getTag (s.sys.table a).valAddr = dcacheVal
      · rw [(getValPos_eq_dcache_iff _).mpr ⟨slot, htag⟩]
        rfl
      · rw [getValPos_of_linked slot htag]
        rfl
    · exact absurd slot ((getValPos_eq_oplog_iff _).mp hpos).1

theorem Empty.inv (h : s.Empty) (hs : Starting s.sys) : Inv home keyOf s :=
  ⟨hs.placed, fun a ha => absurd ha (h.tag a), fun d x hx => by simp [h.data d] at hx⟩

variable [DecidableEq A]

theorem Inv.store {t : System A} {x : Step A} (h : Inv home keyOf s)
    (hs : Prism.step home keyOf cfg S s.sys x = some t) : Inv home keyOf { s with sys := t } := by
  refine ⟨h.placed.step hs, fun a ha => ?_, h.dram⟩
  rcases step_readdressed hs a with ⟨haddr, -⟩ | htag
  · have hcached : getTag (s.sys.table a).valAddr = dcacheVal := by
      rw [← haddr]
      exact ha
    obtain ⟨d, key, val, hpt, hdata, hfree, -⟩ := h.serves a hcached
    exact ⟨d, key, val, (congrArg getUntaggedPtr haddr).trans hpt, hdata, hfree, trivial⟩
  · exact absurd (htag.symm.trans ha) (by decide)

/-- The cache thread rewrites the pointer of an entry that is not in a log. -/
theorem Inv.retag {e : AtEntry} (h : Inv home keyOf s) (hi : e.vsIdx = (s.sys.table a).vsIdx)
    (hl : InLog (s.sys.table a) → e = s.sys.table a)
    (hp : ∀ p, e.PointsTo p → (s.sys.table a).PointsTo p ∨ home p = none) :
    Placed home keyOf { s.sys with table := Function.update s.sys.table a e } := by
  refine ⟨h.placed.home, h.placed.nodup, fun b hb => ?_⟩
  have hplace := h.placed.place b hb
  by_cases hab : b = a
  · subst hab
    have hlog : ∀ {p : Ptr} {n : ℤ}, s.sys.table b = ⟨⟨-1, n⟩, putTaggedPtr p.addr oplogVal⟩ →
        Function.update s.sys.table b e b = s.sys.table b := by
      intro p n hentry
      rw [Function.update_self]
      refine hl ?_
      rw [hentry]
      exact ⟨by simp, getTag_putTaggedPtr p (by decide)⟩
    cases hplace with
    | logged l p mem op entry => exact .logged l p mem op ((hlog entry).trans entry)
    | moving l p v mem vs op entry flight newest =>
      exact .moving l p v mem vs op ((hlog entry).trans entry) flight newest
    | linked slot past =>
      refine .linked ?_ fun l p mem opa hpt => ?_
      · simpa [AtEntry.Linked, hi] using slot
      · simp only [Function.update_self] at hpt
        rcases hp p hpt with hpt | hnone
        · exact past l p mem opa hpt
        · have hsome := h.placed.home l p (List.mem_append_left _ mem)
          rw [hnone] at hsome
          cases hsome
  · have hu : Untouched s.sys { s.sys with table := Function.update s.sys.table a e } b :=
      .of_eq (Function.update_of_ne hab ..) rfl rfl rfl rfl fun _ _ hf => hf
    exact hplace.of_untouched hu

omit [DecidableEq A] in
theorem cacheLink_pointsTo {d p : Ptr} {e : AtEntry} (h : (cacheLink d e).PointsTo p) : e.PointsTo p ∨ p = d := by
  unfold cacheLink at h
  split at h
  · exact .inl h
  · exact .inr (((pointsTo_putTaggedPtr _ _ _ _).mp h).symm)

omit [DecidableEq A] in
theorem uncache_vsIdx (e : AtEntry) : (uncache e).vsIdx = e.vsIdx := by
  unfold uncache
  split <;> rfl

omit [DecidableEq A] in
theorem cacheLink_vsIdx (d : Ptr) (e : AtEntry) : (cacheLink d e).vsIdx = e.vsIdx := by
  unfold cacheLink
  split <;> rfl

theorem Inv.uncache (h : Inv home keyOf s) (a : A) :
    Placed home keyOf { s.sys with table := (s.view.setEntry a DramCache.uncache).table } :=
  h.retag (uncache_vsIdx _) uncache_of_inLog fun _ hp => .inl ((uncache_pointsTo _).mp hp)

theorem Inv.cache {x : Act A} {c : View A} (h : Inv home keyOf s) (hd : InDram home x) (hc : s.view.act x = some c) :
    Inv home keyOf (s.setView c) := by
  cases x with
  | alloc d x =>
    simp only [View.act] at hc
    split at hc
    · rename_i hfree
      cases hc
      refine ⟨h.placed, h.serves.alloc hfree.2 x, fun d' y hy => ?_⟩
      by_cases hdd : d' = d
      · exact hdd ▸ hd
      · simp only [setView, Function.update_of_ne hdd] at hy
        exact h.dram d' y hy
    · cases hc
  | link d =>
    simp only [View.act] at hc
    split at hc
    · rename_i hfree
      obtain ⟨⟨a, key, val⟩, hx, rfl⟩ := Option.map_eq_some_iff.mp hc
      have hhome := h.dram d _ hx
      refine ⟨h.retag (cacheLink_vsIdx d _) (fun hl => if_pos hl) fun p hp => ?_, ?_, h.dram⟩
      · rcases cacheLink_pointsTo hp with hp | rfl
        exacts [.inl hp, .inr hhome]
      · exact h.serves.cacheLink hx (by rw [hfree]; simp) fun _ => trivial
    · cases hc
  | remove d =>
    simp only [View.act] at hc
    split at hc
    · obtain ⟨⟨a, key, val⟩, hx, rfl⟩ := Option.map_eq_some_iff.mp hc
      exact ⟨h.uncache a, (h.serves.uncache a).1, h.dram⟩
    · cases hc
  | evict d =>
    simp only [View.act] at hc
    split at hc
    · obtain ⟨⟨a, key, val⟩, hx, rfl⟩ := Option.map_eq_some_iff.mp hc
      obtain ⟨hserves, htag⟩ := h.serves.uncache a
      refine ⟨h.uncache a, fun b hb => ?_, h.dram⟩
      obtain ⟨d', key', val', hpt, hdata, -, -⟩ := hserves b hb
      refine ⟨d', key', val', hpt, hdata, fun hdd => ?_, trivial⟩
      -- the removed entry was the one of `a`
      obtain rfl := Option.some.inj hdd
      have heq : (b, key', val') = (a, key, val) := Option.some.inj (hdata.symm.trans hx)
      obtain rfl : b = a := congrArg Prod.fst heq
      exact htag hb
    · cases hc
  | free =>
    obtain ⟨d, hd, rfl⟩ := Option.map_eq_some_iff.mp hc
    refine ⟨h.placed, h.serves.free (fun a ha hpt => ?_) none rfl, fun d' y hy => ?_⟩
    · obtain ⟨d', -, -, hpt', -, hfree, -⟩ := h.serves a ha
      exact hfree (hd.trans (congrArg some (hpt.inj hpt')))
    · by_cases hdd : d' = d
      · subst hdd
        simp [setView] at hy
      · simp only [setView, Function.update_of_ne hdd] at hy
        exact h.dram d' y hy

theorem Inv.step {x : LocStep A} (h : Inv home keyOf s) (hs : s.step home keyOf cfg S x = some s') :
    Inv home keyOf s' := by
  cases x with
  | store x =>
    obtain ⟨t, ht, rfl⟩ := Option.map_eq_some_iff.mp hs
    exact h.store ht
  | cache x =>
    simp only [Located.step] at hs
    split at hs
    · rename_i hd
      obtain ⟨c, hc, rfl⟩ := Option.map_eq_some_iff.mp hs
      exact h.cache hd hc
    · cases hs

/-! ## The cache thread is one of the actors -/

theorem block_acts {vec : List (CqEntry A)} {malloc : List Ptr} {c c' : View A} (hf : c.freeing = none)
    (h : Block vec malloc c c') : ∃ xs, run View.act c xs = some c' ∧ c'.freeing = none ∧
      ∀ d x, Act.alloc d x ∈ xs → d ∈ malloc := by
  cases h with
  | again a d x tag ptr data =>
    exact ⟨[.link d], by simp [run, View.act, hf, data], hf, by simp⟩
  | promote a d x tag ptr data =>
    refine ⟨[.remove d, .link d], ?_, hf, by simp⟩
    simp [run, View.act, hf, data, View.setEntry]
  | cached a d q mem entry free addr log =>
    refine ⟨[.alloc d (a, q.key, q.val), .link d], ?_, hf, by simp [addr]⟩
    simp [run, View.act, hf, free, View.setEntry]
  | evict d x data =>
    refine ⟨[.evict d, .free], ?_, hf, by simp⟩
    simp [run, View.act, hf, data, View.setEntry]

theorem cacheOperation_run {pages : ℕ} {vec : List (CqEntry A)} {malloc : List Ptr} {c c' : CacheThread A}
    (h : c.cacheOperation pages vec malloc = some c') :
    ∃ xs, run View.act c.view xs = some c'.view ∧ ∀ d x, Act.alloc d x ∈ xs → d ∈ malloc := by
  have hblocks := (CacheThread.cacheOperation_traced h).blocks
  have hmain : ∀ {v : View A}, Relation.ReflTransGen (Block vec malloc) c.view v →
      v.freeing = none ∧ ∃ xs, run View.act c.view xs = some v ∧ ∀ d x,
      Act.alloc d x ∈ xs → d ∈ malloc := by
    intro v hv
    induction hv with
    | refl => exact ⟨rfl, [], rfl, by simp⟩
    | tail _ hblock ih =>
      obtain ⟨hf, xs, hrun, hxs⟩ := ih
      obtain ⟨ys, hrun', hf', hys⟩ := block_acts hf hblock
      refine ⟨hf', xs ++ ys, (run_append hrun).trans hrun', fun d x hmem => ?_⟩
      exact (List.mem_append.mp hmem).elim (hxs d x) (hys d x)
  exact (hmain hblocks).2

/-! ## Every run -/

/-- In every run `get_val_pos` has an answer for every live entry; a log entry it names
belongs to the `at_entry`, and so does a cached entry. -/
theorem run_located (home : Ptr → Option LogId) (keyOf : A → ℕ) (cfg : Config) (S : StdSort) (s s' : Located A)
    (xs : List (LocStep A)) (hs : Starting s.sys) (hempty : s.Empty)
    (hrun : run (Located.step home keyOf cfg S) s xs = some s') (a : A) (ha : s'.sys.values a ≠ []) :
    s'.Sound a := by
  have hinv : Inv home keyOf s' :=
    run_induction_of_step (fun _ _ _ h hstep => h.step hstep) (hempty.inv hs) hrun
  exact hinv.sound ha

attribute [local instance] oplogNum_neZero entryNum_neZero

/-- An entry is written, reclaimed, linked and then cached. -/
def cachedRun : List (LocStep ℕ) :=
  [.store (.insert (0, 0) 1 10 (entryPtr 0)), .store (.start (0, 0) 0), .store (.reclaim (0, 0)),
    .store (.write (0, 0)), .store (.link (0, 0) ⟨1, some 1, 0, 0, .insert⟩), .store (.close (0, 0)),
    .store (.finish (0, 0)), .cache (.alloc (entryPtr 8) (1, 1, 10)), .cache (.link (entryPtr 8))]

theorem run_located_cachedRun : ∃ s', run (Located.step sampleHome id smallConfig insertion)
    ⟨freshSystem smallConfig, fun _ => none, none⟩ cachedRun = some s' ∧
    getValPos (s'.sys.table 1) = some .dcache ∧ s'.Sound 1 := by
  have hrun : ((run (Located.step sampleHome id smallConfig insertion)
      ⟨freshSystem smallConfig, fun _ => none, none⟩ cachedRun).map fun s' =>
        (s'.sys.values 1, getValPos (s'.sys.table 1))) = some ([10], some .dcache) := by
    decide +kernel
  obtain ⟨s', hs', hval⟩ := Option.map_eq_some_iff.mp hrun
  obtain ⟨hvalues, hpos⟩ := Prod.mk.inj hval
  refine ⟨s', hs', hpos, run_located sampleHome id smallConfig insertion _ s' cachedRun
    (starting_freshSystem smallConfig) ⟨fun _ => rfl, rfl, fun _ => ?_⟩ hs' 1 (by rw [hvalues]; simp)⟩
  exact (by decide : getTag alloc.valAddr ≠ dcacheVal)

end Located

end Hkv.Prism
