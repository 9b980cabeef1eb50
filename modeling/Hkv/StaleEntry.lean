import Hkv.CacheStructure

/-!
# Entries left over from before an update

An update writes `val_addr` and leaves the `dc_entry` of the old value on its list. Once
the new value is cached as well, two entries belong to one `at_entry`, and the older one
is on its way to the tail. `evict_entry` compares the pointers to see this;
`remove_entry`, which it calls, looks at the tag alone.
-/
namespace Hkv.DramCache

open MtsConfig TaggedPointer AddressTable StepRun

variable {A : Type}

theorem uncache_eq_self_iff (e : AtEntry) : uncache e = e ↔ getTag e.valAddr ≠ dcacheVal := by
  constructor
  · intro h htag
    rw [uncache, if_pos htag] at h
    rw [← congrArg AtEntry.valAddr h] at htag
    exact getTag_putTaggedPtr_valuestorage_ne _ htag
  · intro h
    rw [uncache, if_neg h]

namespace CacheThread

/-- The value of the `at_entry` of `d` is cached, in another entry. -/
def Stale (c : CacheThread A) (d : Ptr) : Prop :=
  ∃ e, c.heap d = some e ∧ getTag (c.table e.atEntry).valAddr = dcacheVal ∧ ¬ (c.table e.atEntry).PointsTo d

variable [DecidableEq A]

/-- `d` leaves its list, by `remove_entry` or in an iteration of `evict_entry`. -/
inductive Removal (c : CacheThread A) (d : Ptr) (c' : CacheThread A) : Prop where
  | remove (t : ListType) (call : c.removeEntry t d = some c')
  | evict (tail : (c.list .inactive).tail = some d) (call : c.evictOne = some c')

variable {c c' : CacheThread A} {d : Ptr}

theorem evictOne_table (htail : (c.list .inactive).tail = some d) (h : c.evictOne = some c') :
    ∃ c₁, c.removeEntry .inactive d = some c₁ ∧ c'.table = c₁.table := by
  simp only [evictOne, htail, Option.bind_eq_bind, Option.bind_some] at h
  obtain ⟨e, -, h⟩ := Option.bind_eq_some_iff.mp h
  split at h
  · obtain ⟨c₁, hremove, hfree⟩ := Option.bind_eq_some_iff.mp h
    obtain ⟨htable, -⟩ := freeEntry_spec hfree
    exact ⟨c₁, hremove, htable⟩
  · cases h

theorem Removal.table (h : Removal c d c') : ∃ e, c.heap d = some e ∧
    c'.table = Function.update c.table e.atEntry (uncache (c.table e.atEntry)) := by
  have hremove : ∀ {t c₁}, c.removeEntry t d = some c₁ → ∃ e, c.heap d = some e ∧
      c₁.table = Function.update c.table e.atEntry (uncache (c.table e.atEntry)) := by
    intro t c₁ h₁
    obtain ⟨x, hx, htable, -⟩ := removeEntry_spec h₁
    obtain ⟨e, he, rfl⟩ := data_eq_some.mp hx
    exact ⟨e, he, htable⟩
  cases h with
  | remove t call => exact hremove call
  | evict tail call =>
    obtain ⟨c₁, h₁, htable⟩ := evictOne_table tail call
    rw [htable]
    exact hremove h₁

theorem Removal.frame (h : Removal c d c') (hstale : ¬ c.Stale d) {a : A} (ha : ¬ (c.table a).PointsTo d) :
    c'.table a = c.table a := by
  obtain ⟨e, he, htable⟩ := h.table
  rw [htable]
  by_cases hself : a = e.atEntry
  · subst hself
    rw [Function.update_self]
    exact (uncache_eq_self_iff _).mpr fun htag => hstale ⟨e, he, htag, ha⟩
  · exact Function.update_of_ne hself ..

theorem Removal.not_frame (h : Removal c d c') (hstale : c.Stale d) :
    ∃ a, ¬ (c.table a).PointsTo d ∧ c'.table a ≠ c.table a := by
  obtain ⟨e, he, htag, hpt⟩ := hstale
  obtain ⟨e', he', htable⟩ := h.table
  obtain rfl := Option.some.inj (he.symm.trans he')
  refine ⟨e.atEntry, hpt, fun hsame => ?_⟩
  rw [htable, Function.update_self] at hsame
  exact (uncache_eq_self_iff _).mp hsame htag

/-- A removal leaves every `at_entry` alone that does not point to `d`, unless `d` is
stale. -/
theorem removal_frame_iff (h : Removal c d c') :
    (∀ a, ¬ (c.table a).PointsTo d → c'.table a = c.table a) ↔ ¬ c.Stale d := by
  constructor
  · intro hframe hstale
    obtain ⟨a, ha, hne⟩ := h.not_frame hstale
    exact hne (hframe a ha)
  · exact fun hstale a ha => h.frame hstale ha

end CacheThread

/-! ## A key that is cached twice -/

namespace CacheRun
open CacheThread

/-- Key 5 is cached at 16, updated, reclaimed and cached again at 32. -/
def recached : List (CacheStep ℕ) :=
  [.batch [⟨some 0, 5, 50, .lookup⟩], .item [⟨16, by decide⟩], .update 0 ⟨48, by decide⟩,
    .relink 0 ⟨0, 7⟩, .batch [⟨some 0, 5, 51, .lookup⟩], .item [⟨32, by decide⟩]]

/-- The first access to key 6. -/
def another : List (CacheStep ℕ) := [.batch [⟨some 1, 6, 60, .lookup⟩], .item [⟨64, by decide⟩]]

/-- A cache for two active and two inactive entries. -/
def small : CacheRun ℕ := new (fun _ => ⟨⟨0, 0⟩, 0⟩) fun _ => 2

/-- Both entries belong to key 5; the access to key 6 evicts the older one. -/
structure Recached (r r' : CacheRun ℕ) : Prop where
  run : run (step 1) small recached = some r
  evicts : StepRun.run (step 1) r another = some r'
  tail : (r.cache.list .inactive).tail = some ⟨16, by decide⟩
  older : (r.cache.heap ⟨16, by decide⟩).map DcEntry.atEntry = some 0
  newer : (r.cache.heap ⟨32, by decide⟩).map DcEntry.atEntry = some 0
  tag : getTag (r.cache.table 0).valAddr = dcacheVal
  pointsTo : (r.cache.table 0).PointsTo ⟨32, by decide⟩
  evictable : r.cache.evictOne.isSome
  removable : (r.cache.removeEntry .inactive ⟨32, by decide⟩).isSome
  lost : getTag (r'.cache.table 0).valAddr = valuestorageVal ∧ (r'.cache.heap ⟨32, by decide⟩).isSome

theorem exists_recached : ∃ r r', Recached r r' := by
  have hrun : ((run (step 1) small recached).bind fun r => (run (step 1) r another).map fun r' =>
      decide ((r.cache.list .inactive).tail = some ⟨16, by decide⟩ ∧
        (r.cache.heap ⟨16, by decide⟩).map DcEntry.atEntry = some 0 ∧
        (r.cache.heap ⟨32, by decide⟩).map DcEntry.atEntry = some 0 ∧
        getTag (r.cache.table 0).valAddr = dcacheVal ∧ (r.cache.table 0).PointsTo ⟨32, by decide⟩ ∧
        r.cache.evictOne.isSome ∧ (r.cache.removeEntry .inactive ⟨32, by decide⟩).isSome ∧
        getTag (r'.cache.table 0).valAddr = valuestorageVal ∧ (r'.cache.heap ⟨32, by decide⟩).isSome)) =
      some true := by
    decide +kernel
  obtain ⟨r, hr, hrun⟩ := Option.bind_eq_some_iff.mp hrun
  obtain ⟨r', hr', hrun⟩ := Option.map_eq_some_iff.mp hrun
  obtain ⟨htail, holder, hnewer, htag, hpt, hevict, hremove, hlost⟩ := of_decide_eq_true hrun
  exact ⟨r, r', hr, hr', htail, holder, hnewer, htag, hpt, hevict, hremove, hlost⟩

theorem Recached.stale {r r' : CacheRun ℕ} (h : Recached r r') : r.cache.Stale ⟨16, by decide⟩ := by
  obtain ⟨e, he, ha⟩ := Option.map_eq_some_iff.mp h.older
  refine ⟨e, he, ?_, ?_⟩
  · rw [ha]
    exact h.tag
  · rw [ha]
    intro hpt
    have haddr : (16 : Word) = 32 := Eq.trans (Eq.symm hpt) h.pointsTo
    revert haddr
    decide

theorem Recached.not_stale {r r' : CacheRun ℕ} (h : Recached r r') : ¬ r.cache.Stale ⟨32, by decide⟩ := by
  rintro ⟨e, he, -, hpt⟩
  obtain ⟨e', he', ha⟩ := Option.map_eq_some_iff.mp h.newer
  obtain rfl := Option.some.inj (he.symm.trans he')
  rw [ha] at hpt
  exact hpt h.pointsTo

/-- Removed while it is in use, the newer entry takes nothing else with it. -/
theorem removal_frame_iff_newer : ∃ r c', run (step 1) small recached = some r ∧
    Removal r.cache ⟨32, by decide⟩ c' ∧
    ∀ a, ¬ (r.cache.table a).PointsTo ⟨32, by decide⟩ → c'.table a = r.cache.table a := by
  obtain ⟨r, r', h⟩ := exists_recached
  obtain ⟨c', hc'⟩ := Option.isSome_iff_exists.mp h.removable
  have hremoval : Removal r.cache ⟨32, by decide⟩ c' := .remove .inactive hc'
  exact ⟨r, c', h.run, hremoval, (removal_frame_iff hremoval).mpr h.not_stale⟩

/-- The eviction of the older entry ends the caching of the newer one, which stays in
memory. -/
theorem evict_older_not_frame : ∃ r r' c', run (step 1) small recached = some r ∧
    run (step 1) r another = some r' ∧ r.cache.Stale ⟨16, by decide⟩ ∧
    Removal r.cache ⟨16, by decide⟩ c' ∧
    ¬ (∀ a, ¬ (r.cache.table a).PointsTo ⟨16, by decide⟩ → c'.table a = r.cache.table a) ∧
    getTag (r.cache.table 0).valAddr = dcacheVal ∧ (r.cache.table 0).PointsTo ⟨32, by decide⟩ ∧
    getTag (r'.cache.table 0).valAddr = valuestorageVal ∧ (r'.cache.heap ⟨32, by decide⟩).isSome := by
  obtain ⟨r, r', h⟩ := exists_recached
  obtain ⟨c', hc'⟩ := Option.isSome_iff_exists.mp h.evictable
  have hremoval : Removal r.cache ⟨16, by decide⟩ c' := .evict h.tail hc'
  refine ⟨r, r', c', h.run, h.evicts, h.stale, hremoval, fun hframe => ?_, h.tag, h.pointsTo, h.lost⟩
  obtain ⟨a, ha, hne⟩ := hremoval.not_frame h.stale
  exact hne (hframe a ha)

end CacheRun

end Hkv.DramCache
