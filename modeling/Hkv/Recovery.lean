import Hkv.TableSlots
import Hkv.ChunkConservation
import Mathlib.Data.Set.Card

/-!
# Recovery

After a crash the files are mapped again. The allocators and the value storages start
from nothing; `recover` is called for the keys, looks where the value of a key is, and
marks its slot. It drops a pointer into the lost cache by writing a null pointer, which
the allocator takes for a clean slot. The chunks it marks stay in the free list.
-/
namespace Hkv.Mts
open MtsConfig TaggedPointer AddressTable KeyedSort ValueStorage StepRun Prism

namespace State

/-- `set_vs_bitmap_info` for the slot that `vs_idx` of `a` names. -/
def markSlot (cfg : Config) (s : System AtId) (a : AtId) : System AtId :=
  let vsIdx := (s.table a).vsIdx
  let vsOffset := vsIdx.vsOffset.toNat
  s.setStore vsIdx.vsId.toNat (setVsBitmapInfo (s.store vsIdx.vsId.toNat) (vsOffset / cfg.entriesPerChunk)
    (vsOffset % cfg.entriesPerChunk))

/-- `at_entry->val_addr = nullptr` -/
def dropPointer (s : System AtId) (a : AtId) : System AtId :=
  { s with table := Function.update s.table a { s.table a with valAddr := 0 } }

/-- `MTSImpl::recover`. The case of a cached value falls through to the next one. -/
def recover (cfg : Config) (s : State) (k : ℕ) : Option (State × Bool) :=
  match s.index k with
  | none => some (s, false)
  | some a => match getValPos (s.sys.table a) with
    | some .oplog => some (s, true)
    | some .dcache => some ({ s with sys := markSlot cfg (dropPointer s.sys a) a }, true)
    | some (.valuestorage _) => some ({ s with sys := markSlot cfg s.sys a }, true)
    | none => none

def recoverStep (cfg : Config) (s : State) (k : ℕ) : Option State := (s.recover cfg k).map Prod.fst

/-- What an insert does to the table of its thread: `assign` and `link_to_ol`. -/
def assignLinked (entryNum : ℕ) (s : State) (x : ℕ × Ptr) : Option State :=
  (s.assign entryNum x.1).map fun r => { r.2 with
    sys := { r.2.sys with table := Function.update r.2.sys.table r.1 (linkToOl (r.2.sys.table r.1) x.2) } }

end State

/-- The tables were mapped again. -/
def Remapped (s : State) : Prop := ∀ t, s.pools t = ⟨0, false, []⟩

/-- The entry is taken, and its value is not in the cache. -/
def Guarded (e : AtEntry) : Prop := isEmpty e = false ∧ getValPos e ≠ some .dcache

instance (e : AtEntry) : Decidable (Guarded e) := inferInstanceAs (Decidable (_ ∧ _))

variable {cfg : Config} {entryNum : ℕ} {s s' : State} {a : AtId} {k : ℕ}

theorem assignLinked_of_insert {home : Ptr → Option LogId} {l : LogId} {val : ℕ} {p : Ptr} {r : Bool}
    (hs : s.insert home entryNum l k val p = some (s', r)) :
    ∃ s₁, s.assignLinked entryNum (l.1, p) = some s₁ ∧ s'.sys.table = s₁.sys.table ∧
    s'.pools = s₁.pools := by
  obtain ⟨-, a, t, ha, -, rfl⟩ := insert_spec hs
  refine ⟨_, Option.map_eq_some_iff.mpr ⟨(a, t), ha, rfl⟩, ?_, rfl⟩
  have halloc : t.sys.table a = alloc := by
    obtain ⟨⟨o, pool⟩, -, he⟩ := Option.map_eq_some_iff.mp ha
    cases he
    simp
  simp only [System.record, halloc]

/-! ## What recovery leaves in the tables -/

/-- The entry after a recovery of its key. -/
def recovered (e : AtEntry) : AtEntry := if getValPos e = some .dcache then { e with valAddr := 0 } else e

theorem recover_spec (hs : s.recoverStep cfg k = some s') : s'.index = s.index ∧ s'.pools = s.pools ∧
    (s.index k = none ∧ s' = s ∨ ∃ a, s.index k = some a ∧ getValPos (s.sys.table a) ≠ none ∧
      s'.sys.table = Function.update s.sys.table a (recovered (s.sys.table a))) := by
  obtain ⟨⟨t, r⟩, ht, rfl⟩ := Option.map_eq_some_iff.mp hs
  unfold State.recover at ht
  split at ht
  · rename_i hk
    cases ht
    exact ⟨rfl, rfl, .inl ⟨hk, rfl⟩⟩
  · rename_i a hk
    split at ht
    · rename_i hpos
      cases ht
      exact ⟨rfl, rfl, .inr ⟨a, hk, by simp [hpos], by simp [recovered, hpos]⟩⟩
    · rename_i hpos
      cases ht
      exact ⟨rfl, rfl, .inr ⟨a, hk, by simp [hpos], by simp [recovered, hpos, State.markSlot, State.dropPointer,
        System.setStore, System.store, setVsBitmapInfo]⟩⟩
    · rename_i hpos
      cases ht
      exact ⟨rfl, rfl, .inr ⟨a, hk, by simp [hpos], by simp [recovered, hpos, State.markSlot, System.setStore,
        System.store, setVsBitmapInfo]⟩⟩
    · cases ht

theorem isEmpty_null (i : VsIdx) : isEmpty ⟨i, 0⟩ = true := 
  decide_eq_true (show getTag 0 = (cleanEntry : ℤ) by decide)

theorem recovered_of_guarded {e : AtEntry} (h : Guarded e) : recovered e = e := if_neg h.2

theorem isEmpty_recovered {e : AtEntry} : isEmpty (recovered e) = false ↔ Guarded e := by
  unfold recovered Guarded
  split
  · rename_i hpos
    rw [isEmpty_null]
    simp [hpos]
  · rename_i hpos
    simp [hpos]

theorem recovered_recovered (e : AtEntry) : recovered (recovered e) = recovered e := by
  by_cases hpos : getValPos e = some .dcache
  · have htag : getTag 0 ≠ dcacheVal := by decide
    have hnull : getValPos { e with valAddr := 0 } ≠ some .dcache :=
      fun h => htag ((getValPos_eq_dcache_iff _).mp h).2
    simp only [recovered, hpos, if_true, if_neg hnull]
  · simp only [recovered, if_neg hpos]

theorem run_recover {ks : List ℕ} (hrun : run (State.recoverStep cfg) s ks = some s') : s'.index = s.index ∧
    s'.pools = s.pools ∧
    (∀ k ∈ ks, ∀ a, s.index k = some a → s'.sys.table a = recovered (s.sys.table a)) ∧
    ∀ a, (∀ k ∈ ks, s.index k ≠ some a) → s'.sys.table a = s.sys.table a := by
  induction ks generalizing s with
  | nil =>
    cases hrun
    simp
  | cons k ks ih =>
    obtain ⟨s₁, hk, hks⟩ := Option.bind_eq_some_iff.mp hrun
    obtain ⟨hindex, hpools, hone⟩ := recover_spec hk
    obtain ⟨hindex', hpools', hin, hout⟩ := ih hks
    rw [hindex] at hindex' hin hout
    rw [hpools] at hpools'
    -- the first key changes its entry only
    have hself : ∀ a, s.index k = some a → s₁.sys.table a = recovered (s.sys.table a) := by
      intro a ha
      rcases hone with ⟨hnone, -⟩ | ⟨b, hb, -, htable⟩
      · rw [hnone] at ha
        cases ha
      · obtain rfl := Option.some.inj (hb.symm.trans ha)
        rw [htable, Function.update_self]
    have hother : ∀ a, s.index k ≠ some a → s₁.sys.table a = s.sys.table a := by
      intro a ha
      rcases hone with ⟨-, rfl⟩ | ⟨b, hb, -, htable⟩
      · rfl
      · have hab : a ≠ b := by
          rintro rfl
          exact ha hb
        rw [htable, Function.update_of_ne hab]
    refine ⟨hindex', hpools', fun k' hk' a ha => ?_, fun a ha => ?_⟩
    · by_cases hmem : ∃ k ∈ ks, s.index k = some a
      · obtain ⟨k₂, hk₂, ha₂⟩ := hmem
        rw [hin k₂ hk₂ a ha₂]
        by_cases hka : s.index k = some a
        · rw [hself a hka, recovered_recovered]
        · rw [hother a hka]
      · have hrest : ∀ k ∈ ks, s.index k ≠ some a := fun k₂ hk₂ ha₂ => hmem ⟨k₂, hk₂, ha₂⟩
        rw [hout a hrest]
        rcases List.mem_cons.mp hk' with rfl | hk'
        · exact hself a ha
        · exact absurd ha (hrest k' hk')
    · rw [hout a fun k₂ hk₂ => ha k₂ (List.mem_cons_of_mem _ hk₂), hother a (ha k List.mem_cons_self)]

/-! ## What later inserts do to the tables -/

/-- No slot is in a free list. -/
def NoneFreed (s : State) : Prop := ∀ t, (s.pools t).freeAtOffsetList = []

theorem NoneFreed.assign {s₁ : State} {t : ℕ} (h : NoneFreed s) (hs : s.assign entryNum t = some (a, s₁)) :
    isEmpty (s.sys.table a) = true ∧ NoneFreed s₁ ∧ ∀ b ≠ a, s₁.sys.table b = s.sys.table b := by
  obtain ⟨-, ha⟩ := assign_tableOf hs
  obtain ⟨⟨o, pool⟩, hr, he⟩ := Option.map_eq_some_iff.mp hs
  cases he
  have hfree : pool.freeAtOffsetList = [] ∧ isEmpty (s.sys.table (t, o)) = true := by
    rcases getEmptyAtOffset_spec hr with ⟨hfree, -⟩ | ⟨-, -, hfree⟩
    · rw [h] at hfree
      cases hfree
    · refine ⟨hfree.trans (h _), ?_⟩
      simpa [Table.live, State.tableOf] using clean_of_assign (h t) ha
  refine ⟨hfree.2, fun t' => ?_, fun b hb => Function.update_of_ne hb _ _⟩
  by_cases ht : t' = t
  · subst ht
    simpa using hfree.1
  · simpa [ht] using h t'

theorem run_assignLinked {xs : List (ℕ × Ptr)} (h : NoneFreed s)
    (hrun : run (State.assignLinked entryNum) s xs = some s') :
    NoneFreed s' ∧ ∀ a, isEmpty (s.sys.table a) = false → s'.sys.table a = s.sys.table a := by
  refine run_induction_of_step (I := fun s' => NoneFreed s' ∧ ∀ a, isEmpty (s.sys.table a) = false →
    s'.sys.table a = s.sys.table a) (fun s₁ x s₂ hi hs => ?_) ⟨h, fun _ _ => rfl⟩ hrun
  obtain ⟨⟨b, t⟩, hb, rfl⟩ := Option.map_eq_some_iff.mp hs
  obtain ⟨hclean, hfree, hother⟩ := hi.1.assign hb
  refine ⟨hfree, fun a ha => ?_⟩
  have hab : a ≠ b := by
    rintro rfl
    rw [hi.2 a ha, ha] at hclean
    cases hclean
  have hupd : Function.update t.sys.table b (linkToOl (t.sys.table b) x.2) a = s.sys.table a := by
    rw [Function.update_of_ne hab, hother a hab, hi.2 a ha]
  exact hupd

theorem assign_of_tableOf {t i : ℕ} {T : Table} (h : (s.tableOf t).assign entryNum = some (i, T)) :
    ∃ s₁, s.assign entryNum t = some ((t, i), s₁) ∧ s₁.tableOf t = T := by
  obtain ⟨r, hr, he⟩ := Option.map_eq_some_iff.mp h
  have hs : s.assign entryNum t = some ((t, r.1), _) := Option.map_eq_some_iff.mpr ⟨r, hr, rfl⟩
  have hT := (assign_tableOf hs).2
  rw [h] at hT
  cases he
  exact ⟨_, hs, (Prod.mk.inj (Option.some.inj hT)).2.symm⟩

theorem exists_assign_of_clean (p : Ptr) (n : ℕ) {t i : ℕ} (hn : i - (s.pools t).nextEmptyAtOffset = n)
    (hwhole : (s.pools t).wholeFileWritten = false) (hle : (s.pools t).nextEmptyAtOffset ≤ i) (hlt : i < entryNum)
    (hclean : isEmpty (s.sys.table (t, i)) = true) :
    ∃ xs s₁ s₂, run (State.assignLinked entryNum) s xs = some s₁ ∧
    s₁.assign entryNum t = some ((t, i), s₂) := by
  induction n using Nat.strong_induction_on generalizing s with
  | _ n ih =>
    obtain ⟨j, T, hj, hji⟩ :=
      assign_of_clean (t := s.tableOf t) hwhole hle hlt (by simp [Table.live, State.tableOf, hclean])
    obtain ⟨s₁, hs₁, hT⟩ := assign_of_tableOf hj
    by_cases heq : j = i
    · exact ⟨[], s, s₁, rfl, heq ▸ hs₁⟩
    · -- the slot found is an earlier one; the cursor moves behind it
      have hpool : s₁.pools t = T.pool := congrArg Table.pool hT
      cases assigned_of_assign hj with
      | list rest hwhole' hfree =>
        rw [State.tableOf, hwhole] at hwhole'
        cases hwhole'
      | cursor hwhole' hle' hlt' hlive' hfirst =>
        set s₂ : State := { s₁ with
          sys := { s₁.sys with
            table := Function.update s₁.sys.table (t, j) (linkToOl (s₁.sys.table (t, j)) p) } } with hs₂
        have hstep : s.assignLinked entryNum (t, p) = some s₂ := Option.map_eq_some_iff.mpr ⟨_, hs₁, rfl⟩
        have hnext : (s₂.pools t).nextEmptyAtOffset = j + 1 := by
          rw [hs₂, hpool]
        have hw₂ : (s₂.pools t).wholeFileWritten = false := by
          rw [hs₂, hpool]
          exact decide_eq_false (by omega)
        have hentry : s₂.sys.table (t, i) = s.sys.table (t, i) := by
          have hne : (t, i) ≠ (t, j) := fun h => heq (Prod.mk.inj h).2.symm
          have hold : s₁.sys.table (t, i) = s.sys.table (t, i) := by
            have := congrFun (congrArg Table.entry hT) i
            simpa [State.tableOf, Ne.symm heq] using this
          rw [hs₂]
          simp only [Function.update_of_ne hne, hold]
        have hle'' : (s.pools t).nextEmptyAtOffset ≤ j := hle'
        obtain ⟨xs, s₃, s₄, hrun, hfin⟩ :=
          ih (i - (s₂.pools t).nextEmptyAtOffset) (by omega) rfl hw₂ (by omega)
          (hentry ▸ hclean)
        exact ⟨(t, p) :: xs, s₃, s₄, by rw [run_cons hstep, hrun], hfin⟩

/-- After a recovery no insert takes the entry of a recovered key, if and only if the
entries of these keys were guarded when the files were mapped. Such an entry keeps its
value. -/
theorem recover_protects_iff (cfg : Config) (entryNum : ℕ) (s s₁ : State) (ks : List ℕ) (hs : Remapped s)
    (hindex : ∀ k ∈ ks, ∀ a, s.index k = some a → a.2 < entryNum)
    (hrec : run (State.recoverStep cfg) s ks = some s₁) :
    ((∀ xs s₂, run (State.assignLinked entryNum) s₁ xs = some s₂ →
        ∀ t a s₃, s₂.assign entryNum t = some (a, s₃) → ∀ k ∈ ks, s.index k ≠ some a) ↔
      ∀ k ∈ ks, ∀ a, s.index k = some a → Guarded (s.sys.table a)) ∧
    ∀ k ∈ ks, ∀ a, s.index k = some a → Guarded (s.sys.table a) →
      ∀ xs s₂, run (State.assignLinked entryNum) s₁ xs = some s₂ → s₂.sys.table a = s.sys.table a := by
  obtain ⟨-, hpools, hin, -⟩ := run_recover hrec
  have hfree : NoneFreed s₁ := fun t => by rw [hpools, hs]
  have hkept : ∀ k ∈ ks, ∀ a, s.index k = some a → Guarded (s.sys.table a) →
      ∀ xs s₂, run (State.assignLinked entryNum) s₁ xs = some s₂ → s₂.sys.table a = s.sys.table a := by
    intro k hk a ha hg xs s₂ hrun
    have htable : s₁.sys.table a = s.sys.table a := (hin k hk a ha).trans (recovered_of_guarded hg)
    rw [(run_assignLinked hfree hrun).2 a (by rw [htable]; exact hg.1), htable]
  refine ⟨⟨fun h k hk a ha => ?_, fun h xs s₂ hrun t a s₃ hs₃ k hk ha => ?_⟩, hkept⟩
  · by_contra hg
    -- the entry is clean now, and inserts of its thread will reach it
    have hclean : isEmpty (s₁.sys.table (a.1, a.2)) = true := by
      have := mt isEmpty_recovered.mp hg
      rwa [Bool.not_eq_false, ← hin k hk a ha] at this
    have hpool : s₁.pools a.1 = ⟨0, false, []⟩ := by rw [hpools, hs]
    obtain ⟨xs, s₂, s₃, hrun, hassign⟩ := exists_assign_of_clean (entryPtr 0) _ rfl
      (by rw [hpool]) (by rw [hpool]; exact Nat.zero_le _) (hindex k hk a ha) hclean
    exact h xs s₂ hrun a.1 a s₃ hassign k hk ha
  · obtain ⟨hclean, -⟩ := (run_assignLinked hfree hrun).1.assign hs₃
    have hg := h k hk a ha
    rw [hkept k hk a ha hg xs s₂ hrun, hg.1] at hclean
    cases hclean

attribute [local instance] oplogNum_neZero entryNum_neZero

/-- Key `5` is in slot `3` of the first value storage; `tag` says where it was served from. -/
def crashed (tag : ℕ) : State where
  sys := { freshSystem smallConfig with
    table := fun a => if a = (0, 0) then ⟨⟨0, 3⟩, putTaggedPtr (entryPtr 0).addr tag⟩ else alloc }
  index k := if k = 5 then some (0, 0) else none
  pools _ := ⟨0, false, []⟩
  keys _ := none

/-- The entry of a key that was not cached is safe. -/
theorem recover_protects_iff_crashed : ∃ s₁,
    run (State.recoverStep smallConfig) (crashed valuestorageVal) [5] = some s₁ ∧
    ∀ xs s₂, run (State.assignLinked 4) s₁ xs = some s₂ →
      s₂.sys.table (0, 0) = ⟨⟨0, 3⟩, putTaggedPtr (entryPtr 0).addr 3⟩ ∧
      ∀ t a s₃, s₂.assign 4 t = some (a, s₃) → a ≠ (0, 0) := by
  have hindex : ∀ k ∈ [5], ∀ a, (crashed valuestorageVal).index k = some a → a = (0, 0) := by
    intro k hk a ha
    rw [List.mem_singleton.mp hk] at ha
    exact (Option.some.inj ha).symm
  have hguard : ∀ k ∈ [5], ∀ a, (crashed valuestorageVal).index k = some a →
      Guarded ((crashed valuestorageVal).sys.table a) := by
    intro k hk a ha
    rw [hindex k hk a ha]
    decide +kernel
  have hsome : (run (State.recoverStep smallConfig) (crashed valuestorageVal) [5]).isSome = true := by
    decide +kernel
  obtain ⟨s₁, hs₁⟩ := Option.isSome_iff_exists.mp hsome
  obtain ⟨hprotects, hkept⟩ :=
    recover_protects_iff smallConfig 4 (crashed valuestorageVal) s₁ [5] (fun _ => rfl)
    (fun k hk a ha => by rw [hindex k hk a ha]; decide) hs₁
  refine ⟨s₁, hs₁, fun xs s₂ hrun => ⟨?_, fun t a s₃ ha hzero => ?_⟩⟩
  · exact hkept 5 List.mem_cons_self (0, 0) rfl (hguard 5 List.mem_cons_self (0, 0) rfl) xs s₂ hrun
  · exact hprotects.mpr hguard xs s₂ hrun t a s₃ ha 5 List.mem_cons_self (by rw [hzero]; rfl)

/-- The entry of a cached key is given to the next insert, and the key resolves to the log
entry of that insert. -/
theorem recover_cached_reassigned : ∃ s₁ s₂,
    run (State.recoverStep smallConfig) (crashed dcacheVal) [5] = some s₁ ∧
    s₁.assignLinked 4 (0, entryPtr 1) = some s₂ ∧
    getValPos ((crashed dcacheVal).sys.table (0, 0)) = some .dcache ∧
    (∃ s₃, s₁.assign 4 0 = some ((0, 0), s₃)) ∧ s₂.index 5 = some (0, 0) ∧
    getValPos (s₂.sys.table (0, 0)) = some .oplog ∧ (s₂.sys.table (0, 0)).PointsTo (entryPtr 1) := by
  have hrun : ((run (State.recoverStep smallConfig) (crashed dcacheVal) [5]).bind fun s₁ =>
      (s₁.assignLinked 4 (0, entryPtr 1)).map fun s₂ => ((s₁.assign 4 0).map Prod.fst, s₂.index 5,
        getValPos (s₂.sys.table (0, 0)), decide ((s₂.sys.table (0, 0)).PointsTo (entryPtr 1)))) =
      some (some (0, 0), some (0, 0), some .oplog, true) := by
    decide +kernel
  obtain ⟨s₁, hs₁, hrest⟩ := Option.bind_eq_some_iff.mp hrun
  obtain ⟨s₂, hs₂, hfacts⟩ := Option.map_eq_some_iff.mp hrest
  simp only [Prod.mk.injEq, decide_eq_true_eq] at hfacts
  obtain ⟨hassign, hindex, hpos, hpt⟩ := hfacts
  obtain ⟨⟨a, s₃⟩, ha, rfl⟩ := Option.map_eq_some_iff.mp hassign
  exact ⟨s₁, s₂, hs₁, hs₂, by decide +kernel, ⟨s₃, ha⟩, hindex, hpos, hpt⟩

/-! ## The chunks after a recovery -/

/-- The chunks of store `v` that have valid entries or are open. -/
def usedChunks {A : Type} (cfg : Config) (s : System A) (v : ℕ) : Set ℕ :=
  { c | c < cfg.chunkNum ∧ (ValueStorage.isEmpty cfg (s.stores v) c = false ∨ ∃ o, s.opens v o = some c) }

/-- The bookkeeping of store `v` agrees with its chunks. -/
structure Accounts {A : Type} (cfg : Config) (s : System A) (v : ℕ) : Prop where
  used : getUsedChunkNum cfg (s.stores v) = (usedChunks cfg s v).ncard
  collects : notEnoughFreeChunk cfg (s.stores v) = true ↔ cfg.highMark < (usedChunks cfg s v).ncard
  finds : (∃ c < cfg.chunkNum, c ∉ usedChunks cfg s v) → (getFreeChunkOffset cfg (s.stores v)).isSome = true

section Space
variable {A : Type} {sys : System A} {v : ℕ}

theorem freeOk_of_conserved (ht : Tidy cfg sys) (hc : Conserved cfg sys) (v : ℕ) :
    FreeOk cfg { c | ∃ o, sys.opens v o = some c } (sys.stores v) := by
  have hstands : ∀ c < cfg.chunkNum, (sys.pool cfg v).Stands c := fun c hc' => hc v c hc'
  have hlisted : ∀ c ∈ (sys.stores v).freeChunkList, c < cfg.chunkNum := (ht v).listed
  refine ⟨List.nodup_iff_count_le_one.mpr fun c => ?_,
    fun c => ⟨fun hmem => ?_, fun ⟨hlt, hempty, hopen⟩ => ?_⟩⟩
  · by_cases hmem : c ∈ (sys.stores v).freeChunkList
    · exact ((ResourcePool.Pool.stands_iff.mp (hstands c (hlisted c hmem))).1).once
    · rw [List.count_eq_zero.mpr hmem]
      exact Nat.zero_le _
  · have hlt := hlisted c hmem
    obtain ⟨hused, hheld⟩ := (ResourcePool.Pool.stands_iff.mp (hstands c hlt)).1.listed hmem
    rw [System.pool_used, Bool.not_eq_false'] at hused
    exact ⟨hlt, hused, fun ⟨o, ho⟩ => hheld o ho⟩
  · by_contra hmem
    refine (ResourcePool.Pool.stands_iff.mp (hstands c hlt)).2 ⟨hmem, fun o ho => hopen ⟨o, ho⟩, ?_⟩
    rw [System.pool_used, hempty]
    rfl

theorem ncard_usedChunks (h : FreeOk cfg { c | ∃ o, sys.opens v o = some c } (sys.stores v)) :
    (usedChunks cfg sys v).ncard + (sys.stores v).freeChunkList.length = cfg.chunkNum := by
  have hset : usedChunks cfg sys v = ↑(Finset.range cfg.chunkNum \ (sys.stores v).freeChunkList.toFinset) := by
    ext c
    have hmem := h.mem_iff c
    simp only [Set.mem_ofPred_eq] at hmem
    simp only [usedChunks, Set.mem_ofPred_eq, Finset.coe_sdiff, Finset.coe_range, List.coe_toFinset, Set.mem_sdiff,
      Set.mem_Iio, hmem]
    refine and_congr_right fun hlt => ?_
    cases ValueStorage.isEmpty cfg (sys.stores v) c <;> simp [hlt]
  have hsub : (sys.stores v).freeChunkList.toFinset ⊆ Finset.range cfg.chunkNum := by
    intro c hc
    exact Finset.mem_range.mpr ((h.mem_iff c).mp (List.mem_toFinset.mp hc)).1
  have hcard := Finset.card_sdiff_add_card_eq_card hsub
  rwa [Finset.card_range, List.toFinset_card_of_nodup h.nodup, ← Set.ncard_coe_finset, ← hset] at hcard

theorem finite_usedChunks (cfg : Config) (sys : System A) (v : ℕ) : (usedChunks cfg sys v).Finite :=
  (Finset.finite_toSet (Finset.range cfg.chunkNum)).subset fun c hc => by simpa using hc.1

theorem accounts_of_conserved (hcfg : cfg.chunkNum < 2 ^ 32) (ht : Tidy cfg sys) (hc : Conserved cfg sys) (v : ℕ) :
    Accounts cfg sys v := by
  have hfree := freeOk_of_conserved ht hc v
  have hcard := ncard_usedChunks hfree
  have hused : getUsedChunkNum cfg (sys.stores v) = (usedChunks cfg sys v).ncard := by
    unfold getUsedChunkNum
    omega
  refine ⟨hused, by rw [notEnoughFreeChunk, hused, decide_eq_true_eq], fun ⟨c, hlt, hnot⟩ => ?_⟩
  have hmem : c ∈ (sys.stores v).freeChunkList := by
    refine (hfree.mem_iff c).mpr ⟨hlt, ?_, fun hopen => hnot ⟨hlt, .inr hopen⟩⟩
    by_contra hempty
    exact hnot ⟨hlt, .inl (by simpa using hempty)⟩
  obtain ⟨t, cs, -, -, -, -, hget, -⟩ := hfree.take (List.ne_nil_of_mem hmem)
  rw [hget]
  rfl

end Space

/-- The entry of key `k` is linked to slot `e` of chunk `c` of store `v`. -/
def Marks (cfg : Config) (s : State) (k v c e : ℕ) : Prop :=
  ∃ a, s.index k = some a ∧ (s.sys.table a).Linked ∧ (s.sys.table a).vsIdx.vsId.toNat = v ∧
    (s.sys.table a).vsIdx.vsOffset.toNat / cfg.entriesPerChunk = c ∧
    (s.sys.table a).vsIdx.vsOffset.toNat % cfg.entriesPerChunk = e

/-- Recovery only sets bits. -/
structure Marked (s s' : State) (M : ℕ → ℕ → ℕ → Prop) : Prop where
  sync : s'.sys.sync = s.sys.sync
  gc : s'.sys.gc = s.sys.gc
  free : ∀ v, (s'.sys.stores v).freeChunkList = (s.sys.stores v).freeChunkList
  wChunk : ∀ v, (s'.sys.stores v).wChunk = (s.sys.stores v).wChunk
  gcWChunk : ∀ v, (s'.sys.stores v).gcWChunk = (s.sys.stores v).gcWChunk
  bitmap : ∀ v c e, (s'.sys.stores v).bitmap c e = true ↔ (s.sys.stores v).bitmap c e = true ∨ M v c e

theorem Marked.congr {M M' : ℕ → ℕ → ℕ → Prop} (h : Marked s s' M)
    (hM : ∀ v c e, M' v c e ↔ M v c e) : Marked s s' M' :=
  ⟨h.sync, h.gc, h.free, h.wChunk, h.gcWChunk, fun v c e => by rw [h.bitmap, hM]⟩

theorem linked_of_getValPos {e : AtEntry} {v : ℤ} (h : getValPos e = some (.valuestorage v)) : e.Linked := by
  by_contra hn
  unfold AtEntry.Linked at hn
  simp only [getValPos, if_neg hn] at h
  split at h <;> cases h

theorem marked_markSlot (s : State) (sys : System AtId) (a : AtId) (hst : sys.stores = s.sys.stores)
    (hsync : sys.sync = s.sys.sync) (hgc : sys.gc = s.sys.gc) : Marked s { s with sys := State.markSlot cfg sys a }
      fun v c e => (sys.table a).vsIdx.vsId.toNat = v ∧
      (sys.table a).vsIdx.vsOffset.toNat / cfg.entriesPerChunk = c ∧
        (sys.table a).vsIdx.vsOffset.toNat % cfg.entriesPerChunk = e := by
  refine ⟨hsync, hgc, fun v => ?_, fun v => ?_, fun v => ?_, fun v c e => ?_⟩
  case refine_4 =>
    by_cases hv : v = (sys.table a).vsIdx.vsId.toNat
    · subst hv
      simp only [State.markSlot, System.setStore, Function.update_self, true_and, ← hst]
      by_cases hc : c = (sys.table a).vsIdx.vsOffset.toNat / cfg.entriesPerChunk
      · by_cases he : e = (sys.table a).vsIdx.vsOffset.toNat % cfg.entriesPerChunk
        · simp [setVsBitmapInfo, hc, he]
        · simp [setVsBitmapInfo, hc, he, Ne.symm he, System.store]
      · simp [setVsBitmapInfo, hc, Ne.symm hc, System.store]
    · simp [State.markSlot, System.setStore, hv, Ne.symm hv, hst]
  all_goals
    by_cases hv : v = (sys.table a).vsIdx.vsId.toNat
    · subst hv
      simp [State.markSlot, System.setStore, setVsBitmapInfo, System.store, hst]
    · simp [State.markSlot, System.setStore, hv, hst]

theorem marked_recoverStep (hs : s.recoverStep cfg k = some s') : Marked s s' (Marks cfg s k) := by
  obtain ⟨⟨t, r⟩, ht, rfl⟩ := Option.map_eq_some_iff.mp hs
  unfold State.recover at ht
  split at ht
  · rename_i hk
    cases ht
    exact ⟨rfl, rfl, fun _ => rfl, fun _ => rfl, fun _ => rfl, fun v c e => by simp [Marks, hk]⟩
  · rename_i a hk
    have hiff : ∀ v c e, Marks cfg s k v c e ↔ (s.sys.table a).Linked ∧ (s.sys.table a).vsIdx.vsId.toNat = v ∧
        (s.sys.table a).vsIdx.vsOffset.toNat / cfg.entriesPerChunk = c ∧
        (s.sys.table a).vsIdx.vsOffset.toNat % cfg.entriesPerChunk = e := fun v c e => by
      simp [Marks, hk]
    split at ht
    · rename_i hpos
      cases ht
      have hnot := ((getValPos_eq_oplog_iff _).mp hpos).1
      exact ⟨rfl, rfl, fun _ => rfl, fun _ => rfl, fun _ => rfl, fun v c e => by simp [hiff, hnot]⟩
    · rename_i hpos
      cases ht
      have hl := ((getValPos_eq_dcache_iff _).mp hpos).1
      refine (marked_markSlot s (State.dropPointer s.sys a) a rfl rfl rfl).congr fun v c e => ?_
      simp [hiff, hl, State.dropPointer]
    · rename_i hpos
      cases ht
      refine (marked_markSlot s s.sys a rfl rfl rfl).congr fun v c e => ?_
      simp [hiff, linked_of_getValPos hpos]
    · cases ht

theorem vsIdx_recovered (e : AtEntry) : (recovered e).vsIdx = e.vsIdx := by
  unfold recovered
  split <;> rfl

theorem marks_recoverStep {k' v c e : ℕ} (hs : s.recoverStep cfg k = some s') :
    Marks cfg s' k' v c e ↔ Marks cfg s k' v c e := by
  obtain ⟨hindex, -, hone⟩ := recover_spec hs
  have hidx : ∀ a, (s'.sys.table a).vsIdx = (s.sys.table a).vsIdx := by
    intro a
    rcases hone with ⟨-, rfl⟩ | ⟨b, -, -, htable⟩
    · rfl
    · by_cases hab : a = b
      · rw [htable, hab, Function.update_self, vsIdx_recovered]
      · rw [htable, Function.update_of_ne hab]
  simp only [Marks, AtEntry.Linked, hindex, hidx]

theorem marked_run {ks : List ℕ} (hrun : run (State.recoverStep cfg) s ks = some s') :
    Marked s s' fun v c e => ∃ k ∈ ks, Marks cfg s k v c e := by
  induction ks generalizing s with
  | nil =>
    cases hrun
    exact ⟨rfl, rfl, fun _ => rfl, fun _ => rfl, fun _ => rfl, fun v c e => by simp⟩
  | cons k ks ih =>
    obtain ⟨s₁, hk, hks⟩ := Option.bind_eq_some_iff.mp hrun
    have h₁ := marked_recoverStep hk
    have h₂ := ih hks
    refine ⟨h₂.sync.trans h₁.sync, h₂.gc.trans h₁.gc, fun v => (h₂.free v).trans (h₁.free v),
      fun v => (h₂.wChunk v).trans (h₁.wChunk v), fun v => (h₂.gcWChunk v).trans (h₁.gcWChunk v),
      fun v c e => ?_⟩
    rw [h₂.bitmap, h₁.bitmap]
    simp only [marks_recoverStep hk, List.exists_mem_cons_iff, or_assoc]

/-- The stores are fresh when keys are recovered. The bookkeeping of the stores is right all
along any run that conserves chunks, if and only if no key was recovered from a store. -/
theorem recovered_accounts_iff (home : Ptr → Option LogId) (keyOf : AtId → ℕ) (cfg : Config) (S : StdSort)
    (hcfg : cfg.chunkNum < 2 ^ 32) (s s₁ : State) (ks : List ℕ) (hs : Blank cfg s.sys)
    (hvalid : ∀ k ∈ ks, ∀ v c e, Marks cfg s k v c e → c < cfg.chunkNum)
    (hrec : run (State.recoverStep cfg) s ks = some s₁) (xs : List (Step AtId))
    (hx : Along (Prism.step home keyOf cfg S) (Conserves cfg) s₁.sys xs) :
    (∀ ys, ys <+: xs → ∀ t, run (Prism.step home keyOf cfg S) s₁.sys ys = some t →
        ∀ v, Accounts cfg t v) ↔
      ∀ k ∈ ks, ∀ v c e, ¬ Marks cfg s k v c e := by
  have hm := marked_run hrec
  constructor
  · intro h k hk v c e hmark
    have hzero : getUsedChunkNum cfg (s₁.sys.stores v) = 0 := by
      unfold getUsedChunkNum
      rw [hm.free, hs.free]
      simp
    have hused := (h [] List.nil_prefix s₁.sys rfl v).used
    have hmem : c ∈ usedChunks cfg s₁.sys v := by
      refine ⟨hvalid k hk v c e hmark, .inl ?_⟩
      have hbit := (hm.bitmap v c e).mpr (.inr ⟨k, hk, hmark⟩)
      have he : e < cfg.entriesPerChunk := by
        obtain ⟨a, -, -, -, -, rfl⟩ := hmark
        exact Nat.mod_lt _ cfg.entries_pos
      by_contra hempty
      rw [Bool.not_eq_false] at hempty
      rw [ValueStorage.isEmpty_iff.mp hempty e he] at hbit
      cases hbit
    have hfin := finite_usedChunks cfg s₁.sys v
    rw [hzero, eq_comm, Set.ncard_eq_zero hfin] at hused
    rw [hused] at hmem
    exact hmem
  · intro hnone ys hys t ht v
    have hblank : Blank cfg s₁.sys := by
      refine ⟨fun v c e => ?_, fun v => (hm.free v).trans (hs.free v), fun v w => ?_, fun v => ?_⟩
      · by_contra hbit
        rw [Bool.not_eq_false, hm.bitmap] at hbit
        rcases hbit with hbit | ⟨k, hk, hmark⟩
        · rw [hs.bitmap] at hbit
          cases hbit
        · exact hnone k hk v c e hmark
      · rw [hm.sync, hm.wChunk]
        exact hs.writers v w
      · rw [hm.gc, hm.gcWChunk]
        exact hs.collectors v
    have hinv : Tidy cfg t ∧ Conserved cfg t := by
      refine run_induction (I := fun t => Tidy cfg t ∧ Conserved cfg t) (fun t x t' hi hp ht' => ?_)
        ⟨hblank.tidy, hblank.conserved⟩ (along_of_isPrefix hx hys) ht
      exact ⟨(step_kept hi.1 (conserved_iff.mp hi.2).1 ht').tidy, (conserved_step_iff hi.1 hi.2 ht').mpr hp⟩
    exact accounts_of_conserved hcfg hinv.1 hinv.2 v

/-- Key `5` was in a write log. -/
def logged : State where
  sys := { freshSystem smallConfig with
    table := fun a => if a = (0, 0) then ⟨⟨-1, -1⟩, putTaggedPtr (entryPtr 1).addr oplogVal⟩ else alloc }
  index k := if k = 5 then some (0, 0) else none
  pools _ := ⟨0, false, []⟩
  keys _ := none

/-- A new key is written and flushed. -/
def firstFlush : List (Step AtId) :=
  [.insert (0, 0) (0, 1) 10 (entryPtr 0), .start (0, 0) 0, .reclaim (0, 0), .write (0, 0),
    .link (0, 0) ⟨1, some (0, 1), 0, 0, .insert⟩, .close (0, 0), .finish (0, 0)]

theorem recovered_accounts_iff_logged : ∃ s₁ sys, run (State.recoverStep smallConfig) logged [5] = some s₁ ∧
    run (Prism.step sampleHome Prod.snd smallConfig insertion) s₁.sys firstFlush = some sys ∧
    ∀ v, Accounts smallConfig sys v := by
  have hrec : run (State.recoverStep smallConfig) logged [5] = some logged := rfl
  have hsome : (run (Prism.step sampleHome Prod.snd smallConfig insertion) logged.sys firstFlush).isSome = true := by
    decide +kernel
  have hcheck : Along (Prism.step sampleHome Prod.snd smallConfig insertion) (CheckedSpace smallConfig 2) logged.sys
      firstFlush := by
    decide +kernel
  have hnone : ∀ k ∈ [5], ∀ v c e, ¬ Marks smallConfig logged k v c e := by
    rintro k hk v c e ⟨a, ha, hl, -⟩
    rw [List.mem_singleton.mp hk] at ha
    obtain rfl := Option.some.inj ha
    exact absurd hl (by decide +kernel)
  obtain ⟨sys, hsys⟩ := Option.isSome_iff_exists.mp hsome
  refine ⟨logged, sys, hrec, hsys, ?_⟩
  exact (recovered_accounts_iff sampleHome Prod.snd smallConfig insertion (by decide) logged logged [5]
    ⟨fun _ _ _ => rfl, fun _ => rfl, fun _ _ => ⟨rfl, rfl, rfl⟩, fun _ => ⟨rfl, rfl⟩⟩
    (fun k hk v c e hm => absurd hm (hnone k hk v c e)) hrec firstFlush
    (along_conserves (fun _ _ _ => rfl) (by decide) hcheck)).mpr hnone firstFlush List.prefix_rfl sys hsys

/-- One key is recovered, and no chunk counts as used. -/
theorem recovered_not_accounts : ∃ s₁,
    run (State.recoverStep smallConfig) (crashed valuestorageVal) [5] = some s₁ ∧
    ValueStorage.isEmpty smallConfig (s₁.sys.stores 0) 1 = false ∧ 1 ∈ (s₁.sys.stores 0).freeChunkList ∧
    getUsedChunkNum smallConfig (s₁.sys.stores 0) = 0 ∧ ¬ Accounts smallConfig s₁.sys 0 := by
  have hrun : ((run (State.recoverStep smallConfig) (crashed valuestorageVal) [5]).map fun s₁ =>
      (ValueStorage.isEmpty smallConfig (s₁.sys.stores 0) 1, decide (1 ∈ (s₁.sys.stores 0).freeChunkList),
        getUsedChunkNum smallConfig (s₁.sys.stores 0))) = some (false, true, 0) := by
    decide +kernel
  obtain ⟨s₁, hs₁, hfacts⟩ := Option.map_eq_some_iff.mp hrun
  simp only [Prod.mk.injEq, decide_eq_true_eq] at hfacts
  obtain ⟨hempty, hmem, hzero⟩ := hfacts
  refine ⟨s₁, hs₁, hempty, hmem, hzero, fun h => ?_⟩
  have hcard := h.used
  rw [hzero, eq_comm, Set.ncard_eq_zero (finite_usedChunks _ _ _)] at hcard
  have hused : 1 ∈ usedChunks smallConfig s₁.sys 0 := ⟨by decide, .inl hempty⟩
  rw [hcard] at hused
  exact hused

end Hkv.Mts
