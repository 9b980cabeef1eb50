import Hkv.MtsImpl

/-!
# The slots of an address table

A slot is handed out by a cursor that passes over the file once, or by a list of the
slots that were freed. The cursor looks at the tag of a slot, the list does not. A table
that is reopened starts with the cursor at the front and an empty list, whatever the file
holds.
-/
namespace Hkv.Mts
open MtsConfig TaggedPointer AddressTable StepRun

/-- One `AddressTable`: the mapped file and the allocator. -/
structure Table where
  entry : ℕ → AtEntry
  pool : AtPool

namespace Table

/-- The slot holds a key. -/
def live (t : Table) (i : ℕ) : Bool := !isEmpty (t.entry i)

def assign (entryNum : ℕ) (t : Table) : Option (ℕ × Table) :=
  (t.pool.getEmptyAtOffset entryNum t.entry).map fun r => (r.1, ⟨Function.update t.entry r.1 alloc, r.2⟩)

def linkToOl (t : Table) (i : ℕ) (p : Ptr) : Table :=
  { t with entry := Function.update t.entry i (AddressTable.linkToOl (t.entry i) p) }

/-- `AddressTable::free` -/
def free (t : Table) (i : ℕ) : Table where
  entry := Function.update t.entry i (State.freeEntry (t.entry i))
  pool := { t.pool with freeAtOffsetList := t.pool.freeAtOffsetList ++ [i] }

end Table

/-- Table `t` of the store. -/
def State.tableOf (s : State) (t : ℕ) : Table := ⟨fun o => s.sys.table (t, o), s.pools t⟩

theorem assign_tableOf {entryNum : ℕ} {s s' : State} {t : ℕ} {a : AtId} (h : s.assign entryNum t = some (a, s')) :
    a.1 = t ∧ (s.tableOf t).assign entryNum = some (a.2, s'.tableOf t) := by
  obtain ⟨⟨o, pool⟩, hr, hs'⟩ := Option.map_eq_some_iff.mp h
  cases hs'
  refine ⟨rfl, Option.map_eq_some_iff.mpr ⟨(o, pool), hr, ?_⟩⟩
  simp only [State.tableOf, Function.update_self, Prod.mk.injEq, true_and, Table.mk.injEq, and_true]
  funext i
  by_cases hi : i = o
  · simp [hi]
  · simp [hi]

/-- A table and the slots of the keys. -/
structure KeyTable (K : Type) where
  table : Table
  slot : K → Option ℕ

inductive TableOp (K : Type) where
  /-- `assign` and `link_to_ol` of an insert -/
  | assign (k : K) (p : Ptr)
  | free (k : K)

def KeyTable.step {K : Type} [DecidableEq K] (entryNum : ℕ) (s : KeyTable K) : TableOp K → Option (KeyTable K)
  | .assign k p =>
    if s.slot k = none then
      (s.table.assign entryNum).map fun r => ⟨r.2.linkToOl r.1 p, Function.update s.slot k (some r.1)⟩
    else none
  | .free k => (s.slot k).map fun i => ⟨s.table.free i, Function.update s.slot k none⟩

/-- `val_addr` is a pointer with one of the four tags. -/
def Tagged (e : AtEntry) : Prop := ∃ p : Ptr, ∃ tag < 4, e.valAddr = putTaggedPtr p.addr tag

variable {K : Type}

/-- The keys have slots of their own, and these are the live ones. -/
structure Owned (entryNum : ℕ) (s : KeyTable K) : Prop where
  tagged : ∀ i, Tagged (s.table.entry i)
  live_iff : ∀ i < entryNum, s.table.live i = true ↔ ∃ k, s.slot k = some i
  lt : ∀ k i, s.slot k = some i → i < entryNum
  inj : ∀ k k' i, s.slot k = some i → s.slot k' = some i → k = k'

/-- A file that was mapped again: any slot is clean or holds a key. -/
structure Reopened (entryNum : ℕ) (s : KeyTable K) : Prop extends Owned entryNum s where
  pool : s.table.pool = ⟨0, false, []⟩

/-- The slot that is freed lies behind the cursor. -/
def FreesBehind (s : KeyTable K) : TableOp K → Prop
  | .free k => ∀ i ∈ s.slot k, i < s.table.pool.nextEmptyAtOffset
  | .assign .. => True

instance (s : KeyTable K) : ∀ x, Decidable (FreesBehind s x)
  | .free k => inferInstanceAs (Decidable (∀ i ∈ s.slot k, i < s.table.pool.nextEmptyAtOffset))
  | .assign .. => isTrue trivial

/-- The cursor has passed the whole file, or there is a clean slot ahead of it. -/
def FindsAhead (entryNum : ℕ) (t : Table) : Prop :=
  (∃ i < entryNum, t.live i = false) → t.pool.wholeFileWritten = true ∨
    ∃ i, t.pool.nextEmptyAtOffset ≤ i ∧ i < entryNum ∧ t.live i = false

/-- The free list has the clean slots behind the cursor. -/
structure Listed (entryNum : ℕ) (t : Table) : Prop where
  nodup : t.pool.freeAtOffsetList.Nodup
  mem_iff : ∀ i, i ∈ t.pool.freeAtOffsetList ↔ i < t.pool.nextEmptyAtOffset ∧ t.live i = false
  le : t.pool.nextEmptyAtOffset ≤ entryNum
  whole : t.pool.wholeFileWritten = true → t.pool.nextEmptyAtOffset = entryNum

variable {entryNum : ℕ} {t t' : Table} {i : ℕ} {p : Ptr}

/-! ## Tags -/

theorem live_of_tagged {e : AtEntry} (q : Ptr) (tag : ℕ) (htag : tag < 4)
    (he : e.valAddr = putTaggedPtr q.addr tag) : isEmpty e = decide (tag = 0) := by
  rw [isEmpty, he, getTag_putTaggedPtr q (by omega)]
  simp [cleanEntry]

theorem tagged_linkToOl (e : AtEntry) (p : Ptr) : Tagged (AddressTable.linkToOl e p) :=
    ⟨p, oplogVal, by decide, rfl⟩

theorem isEmpty_linkToOl (e : AtEntry) (p : Ptr) : isEmpty (AddressTable.linkToOl e p) = false :=
  live_of_tagged p oplogVal (by decide) rfl

theorem freeEntry_clean {e : AtEntry} (h : Tagged e) : Tagged (State.freeEntry e) ∧
    isEmpty (State.freeEntry e) = true := by
  obtain ⟨p, tag, -, he⟩ := h
  have hvalue : (State.freeEntry e).valAddr = putTaggedPtr p.addr 0 := by
    rw [State.freeEntry, he, putTaggedPtr_putTaggedPtr]
  exact ⟨⟨p, 0, by decide, hvalue⟩, live_of_tagged p 0 (by decide) hvalue⟩

/-! ## One call -/

/-- The two ways to get a slot. -/
inductive Assigned (entryNum : ℕ) (t : Table) : ℕ → Table → Prop where
  | list (i : ℕ) (rest : List ℕ) (hwhole : t.pool.wholeFileWritten = true)
      (hfree : t.pool.freeAtOffsetList = i :: rest) :
      Assigned entryNum t i ⟨Function.update t.entry i alloc, { t.pool with freeAtOffsetList := rest }⟩
  | cursor (i : ℕ) (hwhole : t.pool.wholeFileWritten = false) (hle : t.pool.nextEmptyAtOffset ≤ i)
    (hlt : i < entryNum)
      (hlive : t.live i = false) (hfirst : ∀ j, t.pool.nextEmptyAtOffset ≤ j → j < i → t.live j = true) :
      Assigned entryNum t i ⟨Function.update t.entry i alloc,
        { t.pool with nextEmptyAtOffset := i + 1, wholeFileWritten := decide (i + 1 = entryNum) }⟩

theorem assigned_of_assign (h : t.assign entryNum = some (i, t')) : Assigned entryNum t i t' := by
  obtain ⟨⟨o, pool⟩, hr, he⟩ := Option.map_eq_some_iff.mp h
  cases he
  unfold AtPool.getEmptyAtOffset at hr
  split at hr
  · split at hr
    · cases hr
    · cases hr
      exact .list _ _ ‹_› ‹_›
  · rename_i hwhole
    obtain ⟨o', hfind, he⟩ := Option.map_eq_some_iff.mp hr
    cases he
    obtain ⟨hclean, hmem, hfirst⟩ := List.find?_range'_eq_some.mp hfind
    obtain ⟨hle, hlt⟩ := List.mem_range'_1.mp hmem
    refine .cursor _ (by simpa using hwhole) hle (by omega) (by simpa [Table.live] using hclean) fun j hj hjo => ?_
    simpa [Table.live] using hfirst j hj hjo

theorem assign_of_clean (hwhole : t.pool.wholeFileWritten = false) (hle : t.pool.nextEmptyAtOffset ≤ i)
    (hlt : i < entryNum) (hlive : t.live i = false) : ∃ j t', t.assign entryNum = some (j, t') ∧ j ≤ i := by
  have hmem : i ∈ List.range' t.pool.nextEmptyAtOffset (entryNum - t.pool.nextEmptyAtOffset) :=
    List.mem_range'_1.mpr ⟨hle, by omega⟩
  have hsome : ((List.range' t.pool.nextEmptyAtOffset (entryNum - t.pool.nextEmptyAtOffset)).find?
      fun o => isEmpty (t.entry o)).isSome = true :=
    List.find?_isSome.mpr ⟨i, hmem, by simpa [Table.live] using hlive⟩
  obtain ⟨j, hj⟩ := Option.isSome_iff_exists.mp hsome
  refine ⟨j, _, by simp only [Table.assign, AtPool.getEmptyAtOffset, hwhole, hj]; rfl, ?_⟩
  by_contra hij
  have hfirst := (List.find?_range'_eq_some.mp hj).2.2 i hle (by omega)
  simp [Table.live] at hlive
  simp [hlive] at hfirst

theorem clean_of_assign (hfree : t.pool.freeAtOffsetList = []) (hs : t.assign entryNum = some (i, t')) :
    t.live i = false := by
  cases assigned_of_assign hs with
  | list rest hwhole hlist =>
    rw [hfree] at hlist
    cases hlist
  | cursor hwhole hle hlt hlive hfirst => exact hlive

theorem Listed.assign (h : Listed entryNum t) (hs : t.assign entryNum = some (i, t')) :
    i < entryNum ∧ t.live i = false := by
  cases assigned_of_assign hs with
  | list rest hwhole hfree =>
    obtain ⟨hlt, hlive⟩ := (h.mem_iff i).mp (by simp [hfree])
    exact ⟨hlt.trans_le h.le, hlive⟩
  | cursor hwhole hle hlt hlive hfirst => exact ⟨hlt, hlive⟩

theorem Listed.assign_iff (h : Listed entryNum t) :
    ((∃ i < entryNum, t.live i = false) → ∃ i t', t.assign entryNum = some (i, t') ∧ i < entryNum ∧
      t.live i = false) ↔ FindsAhead entryNum t := by
  refine imp_congr_right fun ⟨j, hj, hclean⟩ => ?_
  constructor
  · rintro ⟨i, t', hs, -⟩
    cases assigned_of_assign hs with
    | list rest hwhole hfree => exact .inl hwhole
    | cursor hwhole hle hlt hlive hfirst => exact .inr ⟨i, hle, hlt, hlive⟩
  · intro hahead
    suffices hsome : ∃ i t', t.assign entryNum = some (i, t') by
      obtain ⟨i, t', hs⟩ := hsome
      exact ⟨i, t', hs, h.assign hs⟩
    by_cases hwhole : t.pool.wholeFileWritten = true
    · have hmem : j ∈ t.pool.freeAtOffsetList := (h.mem_iff j).mpr ⟨by rw [h.whole hwhole]; exact hj, hclean⟩
      obtain ⟨o, rest, hfree⟩ := List.exists_cons_of_ne_nil (List.ne_nil_of_mem hmem)
      exact ⟨o, _, by simp only [Table.assign, AtPool.getEmptyAtOffset, hwhole, hfree]; rfl⟩
    · obtain ⟨i, hle, hlt, hlive⟩ := hahead.resolve_left hwhole
      obtain ⟨o, t', hs, -⟩ := assign_of_clean (by simpa using hwhole) hle hlt hlive
      exact ⟨o, t', hs⟩

/-! ## Runs -/

theorem live_linkToOl (t : Table) (i : ℕ) (p : Ptr) (j : ℕ) :
    (t.linkToOl i p).live j = if j = i then true else t.live j := by
  by_cases hj : j = i
  · subst hj
    simp [Table.live, Table.linkToOl, isEmpty_linkToOl]
  · simp [Table.live, Table.linkToOl, hj]

theorem live_assign (hs : t.assign entryNum = some (i, t')) {j : ℕ} (hj : j ≠ i) : t'.live j = t.live j := by
  cases assigned_of_assign hs <;> simp [Table.live, hj]

theorem live_free (htagged : ∀ i, Tagged (t.entry i)) (i j : ℕ) :
    (t.free i).live j = if j = i then false else t.live j := by
  by_cases hj : j = i
  · subst hj
    simp [Table.live, Table.free, (freeEntry_clean (htagged j)).2]
  · simp [Table.live, Table.free, hj]

/-- The slot that was assigned leaves the list, or the cursor moves behind it. -/
theorem Listed.linkAssigned (h : Listed entryNum t) (hs : t.assign entryNum = some (i, t')) (p : Ptr) :
    Listed entryNum (t'.linkToOl i p) := by
  have hlive : ∀ j, (t'.linkToOl i p).live j = if j = i then true else t.live j := fun j => by
    rw [live_linkToOl]
    split
    · rfl
    · exact live_assign hs ‹_›
  cases assigned_of_assign hs with
  | list rest hwhole hfree =>
    have hnodup := h.nodup
    rw [hfree] at hnodup
    obtain ⟨hnot, hrest⟩ := List.nodup_cons.mp hnodup
    refine ⟨hrest, fun j => ?_, h.le, h.whole⟩
    have hmem := h.mem_iff j
    rw [hfree, List.mem_cons] at hmem
    rw [hlive]
    by_cases hj : j = i
    · subst hj
      simp [Table.linkToOl, hnot]
    · simpa [Table.linkToOl, hj] using hmem
  | cursor hwhole hle hlt hclean hfirst =>
    refine ⟨h.nodup, fun j => ?_, hlt, fun hw => of_decide_eq_true hw⟩
    rw [hlive]
    have hmem := h.mem_iff j
    simp only [Table.linkToOl]
    by_cases hj : j = i
    · subst hj
      simp only [if_true, Bool.true_eq_false, and_false, iff_false]
      exact fun hin => absurd (hmem.mp hin).1 (Nat.not_lt.mpr hle)
    · rw [if_neg hj, hmem]
      refine and_congr_left fun hcl => ⟨fun _ => by omega, fun hji => ?_⟩
      -- a clean slot before the one found lies behind the old cursor
      by_contra hge
      rw [hfirst j (by omega) (by omega)] at hcl
      cases hcl

theorem Listed.free (h : Listed entryNum t) (htagged : ∀ i, Tagged (t.entry i)) (hlive : t.live i = true)
    (hlt : i < t.pool.nextEmptyAtOffset) : Listed entryNum (t.free i) := by
  have hnot : i ∉ t.pool.freeAtOffsetList := fun hin => by
    rw [((h.mem_iff i).mp hin).2] at hlive
    cases hlive
  refine ⟨?_, fun j => ?_, h.le, h.whole⟩
  · exact List.nodup_append.mpr ⟨h.nodup, by simp, by
      rintro x hx y hy rfl
      exact hnot (List.mem_singleton.mp hy ▸ hx)⟩
  · rw [live_free htagged]
    simp only [Table.free, List.mem_append, List.mem_singleton, h.mem_iff]
    by_cases hj : j = i
    · simp [hj, hlt]
    · simp [hj]

section Keys
variable [DecidableEq K] {s s' : KeyTable K}

theorem Owned.linkAssigned {k : K} (h : Owned entryNum s) (hk : s.slot k = none)
    (hs : s.table.assign entryNum = some (i, t')) (hlt : i < entryNum) (hclean : s.table.live i = false) (p : Ptr) :
    Owned entryNum ⟨t'.linkToOl i p, Function.update s.slot k (some i)⟩ := by
  have hfree : ∀ k', s.slot k' ≠ some i := fun k' hk' => by
    rw [(h.live_iff i hlt).mpr ⟨k', hk'⟩] at hclean
    cases hclean
  refine ⟨fun j => ?_, fun j hj => ?_, fun k' j hk' => ?_, fun k₁ k₂ j h₁ h₂ => ?_⟩
  · by_cases hj : j = i
    · subst hj
      simp [Table.linkToOl, tagged_linkToOl]
    · have hentry : t'.entry j = s.table.entry j := by cases assigned_of_assign hs <;> simp [hj]
      simpa [Table.linkToOl, hj, hentry] using h.tagged j
  · simp only [live_linkToOl]
    by_cases hji : j = i
    · subst hji
      simp only [if_true, true_iff]
      exact ⟨k, by simp⟩
    · rw [if_neg hji, live_assign hs hji, h.live_iff j hj]
      refine ⟨fun ⟨k', hk'⟩ => ⟨k', ?_⟩, fun ⟨k', hk'⟩ => ⟨k', ?_⟩⟩
      · have hne : k' ≠ k := by
          rintro rfl
          rw [hk] at hk'
          cases hk'
        simpa [hne] using hk'
      · have hne : k' ≠ k := by
          rintro rfl
          simp only [Function.update_self, Option.some.injEq] at hk'
          exact hji hk'.symm
        simpa [hne] using hk'
  · by_cases hkk : k' = k
    · subst hkk
      simp only [Function.update_self, Option.some.injEq] at hk'
      exact hk' ▸ hlt
    · exact h.lt k' j (by simpa [hkk] using hk')
  · by_cases hk₁ : k₁ = k
    · by_cases hk₂ : k₂ = k
      · rw [hk₁, hk₂]
      · simp only [hk₁, Function.update_self, Option.some.injEq] at h₁
        simp only [Function.update_of_ne hk₂] at h₂
        exact absurd (h₁ ▸ h₂) (hfree k₂)
    · by_cases hk₂ : k₂ = k
      · simp only [hk₂, Function.update_self, Option.some.injEq] at h₂
        simp only [Function.update_of_ne hk₁] at h₁
        exact absurd (h₂ ▸ h₁) (hfree k₁)
      · exact h.inj k₁ k₂ j (by simpa [hk₁] using h₁) (by simpa [hk₂] using h₂)

theorem Owned.free {k : K} (h : Owned entryNum s) (hk : s.slot k = some i) :
    Owned entryNum ⟨s.table.free i, Function.update s.slot k none⟩ := by
  have hother : ∀ {k' j}, Function.update s.slot k none k' = some j → k' ≠ k ∧ s.slot k' = some j := by
    intro k' j hk'
    by_cases hkk : k' = k
    · subst hkk
      simp at hk'
    · exact ⟨hkk, by simpa [hkk] using hk'⟩
  refine ⟨fun j => ?_, fun j hj => ?_, fun k' j hk' => h.lt k' j (hother hk').2,
    fun k₁ k₂ j h₁ h₂ => h.inj k₁ k₂ j (hother h₁).2 (hother h₂).2⟩
  · by_cases hj : j = i
    · subst hj
      simpa [Table.free] using (freeEntry_clean (h.tagged j)).1
    · simpa [Table.free, hj] using h.tagged j
  · simp only [live_free h.tagged]
    by_cases hji : j = i
    · subst hji
      simp only [if_true, Bool.false_eq_true, false_iff, not_exists]
      intro k' hk'
      exact (hother hk').1 (h.inj k' k j (hother hk').2 hk)
    · rw [if_neg hji, h.live_iff j hj]
      refine ⟨fun ⟨k', hk'⟩ => ⟨k', ?_⟩, fun ⟨k', hk'⟩ => ⟨k', (hother hk').2⟩⟩
      have hne : k' ≠ k := by
        rintro rfl
        exact hji (Option.some.inj (hk'.symm.trans hk))
      simpa [hne] using hk'

theorem step_owned {x : TableOp K} (h : Owned entryNum s ∧ Listed entryNum s.table) (hx : FreesBehind s x)
    (hs : s.step entryNum x = some s') : Owned entryNum s' ∧ Listed entryNum s'.table := by
  obtain ⟨ho, hl⟩ := h
  cases x with
  | assign k p =>
    simp only [KeyTable.step] at hs
    split at hs
    · rename_i hk
      obtain ⟨⟨i, t'⟩, ha, rfl⟩ := Option.map_eq_some_iff.mp hs
      obtain ⟨hlt, hclean⟩ := hl.assign ha
      exact ⟨ho.linkAssigned hk ha hlt hclean p, hl.linkAssigned ha p⟩
    · cases hs
  | free k =>
    obtain ⟨i, hk, rfl⟩ := Option.map_eq_some_iff.mp hs
    exact ⟨ho.free hk, hl.free ho.tagged ((ho.live_iff i (ho.lt k i hk)).mpr ⟨k, hk⟩) (hx i hk)⟩

omit [DecidableEq K] in
theorem Reopened.listed (h : Reopened entryNum s) : Listed entryNum s.table := by
  refine ⟨?_, ?_, ?_, ?_⟩ <;> simp [h.pool]

/-- A table is reopened with any content. As long as only slots behind the cursor are
freed, no two keys share a slot, and `assign` finds a clean slot if and only if the cursor
has passed the file or a clean slot is ahead of it. -/
theorem run_assign_iff (entryNum : ℕ) (s₀ s : KeyTable K) (xs : List (TableOp K)) (h₀ : Reopened entryNum s₀)
    (hrun : run (KeyTable.step entryNum) s₀ xs = some s)
    (hfree : Along (KeyTable.step entryNum) FreesBehind s₀ xs) :
    (∀ k k' i, s.slot k = some i → s.slot k' = some i → k = k') ∧
    (((∃ i < entryNum, s.table.live i = false) →
        ∃ i t, s.table.assign entryNum = some (i, t) ∧ i < entryNum ∧ s.table.live i = false) ↔
      FindsAhead entryNum s.table) := by
  have hinv : Owned entryNum s ∧ Listed entryNum s.table :=
    run_induction (I := fun s => Owned entryNum s ∧ Listed entryNum s.table)
      (fun _ _ _ h hx hs => step_owned h hx hs) ⟨h₀.toOwned, h₀.listed⟩ hfree hrun
  exact ⟨hinv.1.inj, hinv.2.assign_iff⟩

end Keys

attribute [local instance] oplogNum_neZero entryNum_neZero

/-- A table of three slots. The last one holds key `2`. -/
def threeSlots : KeyTable (Fin 3) where
  table := ⟨fun i => if i = 2 then ⟨⟨0, 0⟩, putTaggedPtr (entryPtr 0).addr valuestorageVal⟩ else alloc,
    ⟨0, false, []⟩⟩
  slot k := if k = 2 then some 2 else none

theorem reopened_threeSlots : Reopened 3 threeSlots := by
  refine ⟨⟨fun i => ?_, ?_, ?_, ?_⟩, rfl⟩
  · by_cases hi : i = 2
    · exact ⟨entryPtr 0, valuestorageVal, by decide, by simp [threeSlots, hi]⟩
    · exact ⟨⟨0, by decide⟩, cleanEntry, by decide, by simp [threeSlots, hi, alloc]; decide⟩
  · decide +kernel
  · intro k i hk
    simp only [threeSlots] at hk
    split at hk
    · cases hk
      decide
    · cases hk
  · intro k k' i hk hk'
    simp only [threeSlots] at hk hk'
    split at hk <;> split at hk'
    · rename_i h₁ h₂
      rw [h₁, h₂]
    · cases hk'
    · cases hk
    · cases hk

/-- A key comes and goes, and another one gets the next slot. -/
theorem run_assign_iff_threeSlots : ∃ s, run (KeyTable.step 3) threeSlots
      [.assign 0 (entryPtr 1), .free 0] = some s ∧
    ∃ i t, s.table.assign 3 = some (i, t) ∧ i < 3 ∧ s.table.live i = false := by
  have hrun : ((run (KeyTable.step 3) threeSlots [.assign 0 (entryPtr 1), .free 0]).map fun s =>
      (s.table.pool.nextEmptyAtOffset, s.table.live 1)) = some (1, false) := by
    decide +kernel
  obtain ⟨s, hs, hfacts⟩ := Option.map_eq_some_iff.mp hrun
  obtain ⟨hnext, hlive⟩ := Prod.mk.inj hfacts
  refine ⟨s, hs, (run_assign_iff 3 threeSlots s _ reopened_threeSlots hs (by decide +kernel)).2.mpr (fun _ => ?_)
    ⟨1, by decide, hlive⟩⟩
  exact .inr ⟨1, hnext.le, by decide, hlive⟩

/-- Key `2` leaves a slot ahead of the cursor. -/
def freedAhead : List (TableOp (Fin 3)) :=
  [.free 2, .assign 0 (entryPtr 1), .assign 1 (entryPtr 2), .assign 2 (entryPtr 3), .free 0, .assign 0 (entryPtr 4)]

/-- Key `0` leaves a slot behind the cursor, and only a slot that is live is ahead. -/
def freedBehind : List (TableOp (Fin 3)) := [.assign 0 (entryPtr 1), .assign 1 (entryPtr 2), .free 0]

/-- In the first run the cursor and the list both give out slot `2`, although slot `0` is
clean; in the second one the search runs past the last slot. -/
theorem run_assign_shared :
    (∃ s, run (KeyTable.step 3) threeSlots freedAhead = some s ∧ s.slot 0 = some 2 ∧ s.slot 2 = some 2 ∧
      s.table.live 0 = false) ∧
    ∃ s, run (KeyTable.step 3) threeSlots freedBehind = some s ∧ s.table.live 0 = false ∧
      (s.table.assign 3).isNone = true := by
  constructor
  · have hrun : ((run (KeyTable.step 3) threeSlots freedAhead).map fun s => (s.slot 0, s.slot 2, s.table.live 0)) =
        some (some 2, some 2, false) := by
      decide +kernel
    obtain ⟨s, hs, hfacts⟩ := Option.map_eq_some_iff.mp hrun
    simp only [Prod.mk.injEq] at hfacts
    exact ⟨s, hs, hfacts⟩
  · have hrun : ((run (KeyTable.step 3) threeSlots freedBehind).map fun s =>
        (s.table.live 0, (s.table.assign 3).isNone)) = some (false, true) := by
      decide +kernel
    obtain ⟨s, hs, hfacts⟩ := Option.map_eq_some_iff.mp hrun
    simp only [Prod.mk.injEq] at hfacts
    exact ⟨s, hs, hfacts⟩

end Hkv.Mts
