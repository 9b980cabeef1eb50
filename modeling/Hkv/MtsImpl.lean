import Hkv.Placement

/-!
# `MTSImpl`: the key index over the store

`insert` builds the log entry and the address-table entry before it asks the key index,
and the wrapper of the index does not pass its answer on. The index is PACTree, whose
`insert` leaves an existing mapping alone.

Everything else in the store may change logs, table entries and value storages at any
time; `background` is such a change, without any condition. The index and the allocators
of the address tables are changed by `insert` and `remove` only.
-/
namespace Hkv.Mts
open MtsConfig TaggedPointer AddressTable ValueStorage StepRun Prism

/-- An `at_entry`: the address table it is in, and its offset. -/
abbrev AtId := ℕ × ℕ

/-- The allocator of an `AddressTable`. -/
structure AtPool where
  nextEmptyAtOffset : ℕ
  wholeFileWritten : Bool
  freeAtOffsetList : List ℕ

/-- `AddressTable::is_empty` -/
def isEmpty (e : AtEntry) : Bool := decide (getTag e.valAddr = cleanEntry)

/-- `get_empty_at_offset` for a table of `entryNum` entries. The search runs past the
mapping if no entry is empty, and the assertion fails on an empty free list. -/
def AtPool.getEmptyAtOffset (entryNum : ℕ) (pool : AtPool) (entry : ℕ → AtEntry) : Option (ℕ × AtPool) :=
  if pool.wholeFileWritten then
    match pool.freeAtOffsetList with
    | [] => none
    | o :: rest => some (o, { pool with freeAtOffsetList := rest })
  else
    ((List.range' pool.nextEmptyAtOffset (entryNum - pool.nextEmptyAtOffset)).find? fun o => isEmpty (entry o)).map
      fun o => (o, { pool with nextEmptyAtOffset := o + 1, wholeFileWritten := decide (o + 1 = entryNum) })

structure State where
  sys : System AtId
  /-- `PACTREEIndex` -/
  index : ℕ → Option AtId
  pools : ℕ → AtPool
  /-- The keys of the entries that are assigned and not freed. No step reads this field. -/
  keys : AtId → Option ℕ

namespace State
variable (home : Ptr → Option LogId) (cfg : Config) (entryNum : ℕ)

/-- `AddressTable::assign` of table `t`. -/
def assign (s : State) (t : ℕ) : Option (AtId × State) :=
  ((s.pools t).getEmptyAtOffset entryNum fun o => s.sys.table (t, o)).map fun r =>
    ((t, r.1), { s with
      sys := { s.sys with table := Function.update s.sys.table (t, r.1) alloc }
      pools := Function.update s.pools t r.2 })

/-- `PACTREEIndex::insert` -/
def indexInsert (index : ℕ → Option AtId) (k : ℕ) (a : AtId) : ℕ → Option AtId :=
  if index k = none then Function.update index k (some a) else index

/-- `MTSImpl::insert` by the thread with id `l.1`; `p` is what `oplog.enq` returns. -/
def insert (s : State) (l : LogId) (k val : ℕ) (p : Ptr) : Option (State × Bool) :=
  if s.sys.Fresh home l p then
    (s.assign entryNum l.1).map fun r =>
      ({ r.2 with
        sys := r.2.sys.record (fun _ => k) l r.1 val p (linkToOl alloc p)
        index := indexInsert s.index k r.1
        keys := Function.update s.keys r.1 (some k) }, true)
  else none

/-- `MTSImpl::update` -/
def update (s : State) (l : LogId) (k val : ℕ) (p : Ptr) : Option (State × Bool) :=
  match s.index k with
  | none => some (s, false)
  | some a =>
    if s.sys.Fresh home l p then
      let r := linkToOlPast (s.sys.table a) p
      some ({ s with sys := (s.sys.record (fun _ => k) l a val p r.1).unlinkPast cfg r.2 }, true)
    else none

/-- `OpLog::unlink_to_at` -/
def unlinkOp (s : System AtId) (a : AtId) : Option (System AtId) :=
  (toPtr (getUntaggedPtr (s.table a).valAddr)).map fun p =>
    { s with
      op := Function.update s.op p { s.op p with opa := none }
      table := Function.update s.table a { s.table a with valAddr := 0 } }

/-- The `vs_offset` that `remove` reads: `vs_idx` is taken from the address of
`val_addr`, so this is the upper half of the pointer. -/
def wrongOffset (e : AtEntry) : ℕ := (e.valAddr >>> 32).toNat

/-- `unlink_to_at` of `remove`; `vector::at` throws behind the last bitmap.
`init_vs_bitmap_info` makes two for each chunk. -/
def unlinkSlot (s : System AtId) (v : ℕ) (a : AtId) : Option (System AtId) :=
  let offset := wrongOffset (s.table a)
  let chunk := offset / cfg.entriesPerChunk
  if chunk < 2 * cfg.chunkNum then
    some (s.setStore v (unlinkToAt cfg (s.store v) chunk (offset % cfg.entriesPerChunk)))
  else none

/-- Step 2 of `MTSImpl::remove`. For a cached entry `vs_id` is not initialised: `v` is
its value. -/
def unlinkValue (s : System AtId) (v : ℕ) (a : AtId) : Option (System AtId) :=
  match getValPos (s.table a) with
  | some .oplog => unlinkOp s a
  | some (.valuestorage vsId) => unlinkSlot cfg s vsId.toNat a
  | some .dcache => unlinkSlot cfg s v a
  | none => none

/-- `AddressTable::free`, as far as the entry is concerned. -/
def freeEntry (e : AtEntry) : AtEntry := ⟨⟨-1, -1⟩, putTaggedPtr e.valAddr 0⟩

/-- `MTSImpl::remove`. The lookup of an absent key yields a null pointer. -/
def remove (s : State) (k v : ℕ) : Option State :=
  (s.index k).bind fun a => (unlinkValue cfg s.sys v a).map fun sys =>
    { sys := { sys with table := Function.update sys.table a (freeEntry (sys.table a)) }
      index := Function.update s.index k none
      pools := Function.update s.pools a.1
        { s.pools a.1 with freeAtOffsetList := (s.pools a.1).freeAtOffsetList ++ [a.2] }
      keys := Function.update s.keys a none }

end State

inductive Op where
  | insert (l : LogId) (k val : ℕ) (p : Ptr)
  | update (l : LogId) (k val : ℕ) (p : Ptr)
  | remove (k v : ℕ)
  | background (sys : System AtId)

def State.step (home : Ptr → Option LogId) (cfg : Config) (entryNum : ℕ) (s : State) : Op → Option State
  | .insert l k val p => (s.insert home entryNum l k val p).map Prod.fst
  | .update l k val p => (s.update home cfg l k val p).map Prod.fst
  | .remove k v => s.remove cfg k v
  | .background sys => some { s with sys := sys }

/-- No key was inserted yet. -/
structure Starting (s : State) : Prop where
  index : ∀ k, s.index k = none
  keys : ∀ a, s.keys a = none
  free : ∀ t, (s.pools t).freeAtOffsetList = []

/-! ## Live entries -/

/-- Entries that are in use lie below the search, and are not in the free list. The
index names live entries. -/
structure Inv (s : State) : Prop where
  live : ∀ t o, s.keys (t, o) ≠ none → o < (s.pools t).nextEmptyAtOffset ∧ o ∉ (s.pools t).freeAtOffsetList
  nodup : ∀ t, (s.pools t).freeAtOffsetList.Nodup
  below : ∀ t, ∀ o ∈ (s.pools t).freeAtOffsetList, o < (s.pools t).nextEmptyAtOffset
  index : ∀ k a, s.index k = some a → s.keys a = some k

variable {home : Ptr → Option LogId} {cfg : Config} {entryNum : ℕ} {s s' : State} {l : LogId} {k val : ℕ}
    {p : Ptr}

theorem Starting.inv (h : Starting s) : Inv s :=
  ⟨fun t o ho => absurd (h.keys (t, o)) ho, fun t => by simp [h.free t], fun t => by simp [h.free t],
    fun k a ha => by simp [h.index k] at ha⟩

theorem getEmptyAtOffset_spec {pool pool' : AtPool} {entry : ℕ → AtEntry} {o : ℕ}
    (h : pool.getEmptyAtOffset entryNum entry = some (o, pool')) :
    pool.freeAtOffsetList = o :: pool'.freeAtOffsetList ∧ pool'.nextEmptyAtOffset = pool.nextEmptyAtOffset ∨
      pool.nextEmptyAtOffset ≤ o ∧ pool'.nextEmptyAtOffset = o + 1 ∧
        pool'.freeAtOffsetList = pool.freeAtOffsetList := by
  unfold AtPool.getEmptyAtOffset at h
  split at h
  · split at h
    · cases h
    · rename_i hfree
      cases h
      exact .inl ⟨hfree, rfl⟩
  · obtain ⟨o', hfind, ho'⟩ := Option.map_eq_some_iff.mp h
    cases ho'
    have hmem := List.mem_of_find?_eq_some hfind
    exact .inr ⟨(List.mem_range'_1.mp hmem).1, rfl, rfl⟩

/-- `assign` hands out an entry that is not in use, and takes it from its pool. -/
theorem Inv.assign {t : ℕ} {a : AtId} (h : Inv s) (ha : s.assign entryNum t = some (a, s')) :
    a.1 = t ∧ s.keys a = none ∧ s'.index = s.index ∧ s'.keys = s.keys ∧
      (a.2 < (s'.pools t).nextEmptyAtOffset ∧ a.2 ∉ (s'.pools t).freeAtOffsetList) ∧ Inv s' := by
  obtain ⟨⟨o, pool⟩, hr, hs'⟩ := Option.map_eq_some_iff.mp ha
  cases hs'
  -- the pools that are not asked stay as they are
  have hpools : ∀ t', (Function.update s.pools t pool) t' = if t' = t then pool else s.pools t' := fun t' => by
    by_cases ht : t' = t
    · rw [ht, Function.update_self, if_pos rfl]
    · rw [Function.update_of_ne ht, if_neg ht]
  have hnodup := h.nodup t
  have hbelow := h.below t
  suffices hown : s.keys (t, o) = none ∧ (o < pool.nextEmptyAtOffset ∧ o ∉ pool.freeAtOffsetList) ∧
      pool.freeAtOffsetList.Nodup ∧ (∀ x ∈ pool.freeAtOffsetList, x < pool.nextEmptyAtOffset) ∧
      ∀ x, s.keys (t, x) ≠ none → x < pool.nextEmptyAtOffset ∧ x ∉ pool.freeAtOffsetList by
    obtain ⟨hkey, hself, hn, hb, hlive⟩ := hown
    refine ⟨rfl, hkey, rfl, rfl, by simpa using hself, fun t' x hx => ?_, fun t' => ?_, fun t' => ?_, h.index⟩
    · simp only [hpools]
      split
      · rename_i ht
        subst ht
        exact hlive x hx
      · exact h.live t' x hx
    · simp only [hpools]
      split
      · exact hn
      · exact h.nodup t'
    · simp only [hpools]
      split
      · exact hb
      · exact h.below t'
  rcases getEmptyAtOffset_spec hr with ⟨hfree, hnext⟩ | ⟨hle, hnext, hfree⟩
  · rw [hfree] at hnodup hbelow
    obtain ⟨hnotin, hn⟩ := List.nodup_cons.mp hnodup
    refine ⟨?_, ⟨hnext ▸ hbelow o List.mem_cons_self, hnotin⟩, hn,
      fun x hx => hnext ▸ hbelow x (List.mem_cons_of_mem _ hx), fun x hx => ?_⟩
    · by_contra hkey
      have := (h.live t o hkey).2
      rw [hfree] at this
      exact this List.mem_cons_self
    · obtain ⟨hlt, hnot⟩ := h.live t x hx
      rw [hfree] at hnot
      exact ⟨hnext ▸ hlt, fun hx' => hnot (List.mem_cons_of_mem _ hx')⟩
  · refine ⟨?_, ⟨by omega, fun ho => ?_⟩, hfree ▸ hnodup, fun x hx => ?_, fun x hx => ?_⟩
    · by_contra hkey
      have := (h.live t o hkey).1
      omega
    · rw [hfree] at ho
      have := hbelow o ho
      omega
    · rw [hfree] at hx
      have := hbelow x hx
      omega
    · obtain ⟨hlt, hnot⟩ := h.live t x hx
      exact ⟨by omega, hfree ▸ hnot⟩

theorem insert_spec {r : Bool} (hs : s.insert home entryNum l k val p = some (s', r)) : s.sys.Fresh home l p ∧
    ∃ a t, s.assign entryNum l.1 = some (a, t) ∧ r = true ∧ s' = { t with
      sys := t.sys.record (fun _ => k) l a val p (linkToOl alloc p)
      index := State.indexInsert s.index k a
      keys := Function.update s.keys a (some k) } := by
  unfold State.insert at hs
  split at hs
  · rename_i hfresh
    obtain ⟨⟨a, t⟩, ha, hs'⟩ := Option.map_eq_some_iff.mp hs
    cases hs'
    exact ⟨hfresh, a, t, ha, rfl, rfl⟩
  · cases hs

theorem indexInsert_apply (index : ℕ → Option AtId) (k : ℕ) (a : AtId) (k' : ℕ) :
    State.indexInsert index k a k' = if k' = k ∧ index k = none then some a else index k' := by
  unfold State.indexInsert
  by_cases hnone : index k = none
  · by_cases hk : k' = k
    · subst hk
      simp [hnone]
    · simp [hnone, hk]
  · simp [hnone]

theorem Inv.insert {r : Bool} (h : Inv s) (hs : s.insert home entryNum l k val p = some (s', r)) : Inv s' := by
  obtain ⟨-, a, t, ha, -, rfl⟩ := insert_spec hs
  obtain ⟨htable, hkey, -, hkeys, hself, ht⟩ := h.assign ha
  refine ⟨fun t' o ho => ?_, ht.nodup, ht.below, fun k' b hb => ?_⟩
  · by_cases hoa : (t', o) = a
    · subst hoa
      rw [show t' = l.1 from htable]
      exact hself
    · refine ht.live t' o ?_
      simpa [hkeys, hoa] using ho
  · simp only [indexInsert_apply] at hb
    split at hb
    · rename_i hk
      obtain rfl := Option.some.inj hb
      simp [hk.1]
    · have hold := h.index k' b hb
      have hba : b ≠ a := by
        rintro rfl
        rw [hkey] at hold
        cases hold
      simpa [hba] using hold

theorem Inv.of_sys (h : Inv s) (sys : System AtId) : Inv { s with sys := sys } :=
    ⟨h.live, h.nodup, h.below, h.index⟩

theorem Inv.update {r : Bool} (h : Inv s) (hs : s.update home cfg l k val p = some (s', r)) : Inv s' := by
  unfold State.update at hs
  split at hs
  · cases hs
    exact h
  · split at hs
    · cases hs
      exact h.of_sys _
    · cases hs

theorem Inv.remove {v : ℕ} (h : Inv s) (hs : s.remove cfg k v = some s') : Inv s' := by
  obtain ⟨a, ha, hs⟩ := Option.bind_eq_some_iff.mp hs
  obtain ⟨sys, -, rfl⟩ := Option.map_eq_some_iff.mp hs
  have hkey := h.index k a ha
  obtain ⟨hlt, hnot⟩ := h.live a.1 a.2 (by rw [hkey]; simp)
  refine ⟨fun t o ho => ?_, fun t => ?_, fun t => ?_, fun k' b hb => ?_⟩
  · have hne : (t, o) ≠ a := by
      rintro rfl
      simp at ho
    have hlive := h.live t o (by simpa [hne] using ho)
    by_cases ht : t = a.1
    · subst ht
      have hoa : o ≠ a.2 := fun hoa => hne (by rw [hoa])
      simpa [hoa] using hlive
    · simpa [ht] using hlive
  · by_cases ht : t = a.1
    · subst ht
      simpa [List.nodup_append] using ⟨h.nodup a.1, fun x hx hxa => hnot (hxa ▸ hx)⟩
    · simpa [ht] using h.nodup t
  · by_cases ht : t = a.1
    · subst ht
      intro o ho
      simp only [Function.update_self, List.mem_append, List.mem_singleton] at ho ⊢
      rcases ho with ho | rfl
      · exact h.below a.1 o ho
      · exact hlt
    · simpa [ht] using h.below t
  · by_cases hk : k' = k
    · subst hk
      simp at hb
    · simp only [Function.update_of_ne hk] at hb
      have hb' := h.index k' b hb
      have hba : b ≠ a := by
        rintro rfl
        exact hk (Option.some.inj (hb'.symm.trans hkey))
      simpa [hba] using hb'

theorem Inv.step {x : Op} (h : Inv s) (hs : s.step home cfg entryNum x = some s') : Inv s' := by
  cases x with
  | insert l k val p =>
    obtain ⟨⟨t, r⟩, ht, rfl⟩ := Option.map_eq_some_iff.mp hs
    exact h.insert ht
  | update l k val p =>
    obtain ⟨⟨t, r⟩, ht, rfl⟩ := Option.map_eq_some_iff.mp hs
    exact h.update ht
  | remove k v => exact h.remove hs
  | background sys =>
    cases hs
    exact h.of_sys sys

/-! ## What an insert achieves -/

/-- The index finds an entry for `k` that resolves to `val`, and it is the only live one. -/
def Inserted (cfg : Config) (s : State) (k val : ℕ) : Prop :=
  ∃ a, s.index k = some a ∧ s.sys.resolve cfg a = some val ∧ ∀ b, s.keys b = some k → b = a

theorem resolve_record (sys : System AtId) (l : LogId) (k val : ℕ) (a : AtId) (p : Ptr) :
    (sys.record (fun _ => k) l a val p (linkToOl alloc p)).resolve cfg a = some val := by
  have hentry : (sys.record (fun _ => k) l a val p (linkToOl alloc p)).table a =
      ⟨⟨-1, -1⟩, putTaggedPtr p.addr oplogVal⟩ := by
    simp [System.record, linkToOl, alloc]
  have hpos : getValPos ((sys.record (fun _ => k) l a val p (linkToOl alloc p)).table a) = some .oplog := by
    rw [getValPos_eq_oplog_iff, hentry]
    exact ⟨fun hl => absurd hl.1 (lt_irrefl _), getTag_putTaggedPtr p (by decide)⟩
  have hptr : toPtr (getUntaggedPtr ((sys.record (fun _ => k) l a val p (linkToOl alloc p)).table a).valAddr) =
    some p := by
    rw [toPtr_eq_some_iff, hentry]
    simp
  rw [System.resolve, hpos]
  simp only [hptr, Option.map_some]
  simp [System.record]

/-- In every reachable state, an `insert` that returns true does what it says if and only
if the index has no entry for the key and no entry of the key is live. -/
theorem insert_inserted_iff (home : Ptr → Option LogId) (cfg : Config) (entryNum : ℕ) (s₀ s s' : State)
    (xs : List Op) (hs : Starting s₀) (hrun : run (State.step home cfg entryNum) s₀ xs = some s) (l : LogId)
    (k val : ℕ) (p : Ptr) (r : Bool) (hins : s.insert home entryNum l k val p = some (s', r)) :
    (r = true → Inserted cfg s' k val) ↔ s.index k = none ∧ ∀ a, s.keys a ≠ some k := by
  have hinv : Inv s := run_induction_of_step (I := Inv) (fun _ _ _ h hstep => h.step hstep) hs.inv hrun
  obtain ⟨-, a, t, ha, rfl, rfl⟩ := insert_spec hins
  obtain ⟨-, hkey, -, -, -, -⟩ := hinv.assign ha
  have hne : ∀ {b}, s.keys b = some k → b ≠ a := by
    rintro b hb rfl
    rw [hkey] at hb
    cases hb
  constructor
  · intro h
    obtain ⟨b, hindex, -, honly⟩ := h rfl
    simp only [indexInsert_apply, true_and] at hindex
    -- the new entry is live for the key
    have hab : a = b := honly a (by simp)
    subst hab
    have hnone : s.index k = none := by
      by_contra hsome
      rw [if_neg hsome] at hindex
      exact hne (hinv.index k a hindex) rfl
    refine ⟨hnone, fun b hb => hne hb (honly b ?_)⟩
    simpa [hne hb] using hb
  · rintro ⟨hnone, hfree⟩ -
    refine ⟨a, ?_, resolve_record t.sys l k val a p, fun b hb => ?_⟩
    · simp [indexInsert_apply, hnone]
    · by_contra hba
      exact hfree b (by simpa [hba] using hb)

/-- An empty store. -/
def freshState : State where
  sys := freshSystem smallConfig
  index _ := none
  pools _ := ⟨0, false, []⟩
  keys _ := none

theorem starting_freshState : Starting freshState := ⟨fun _ => rfl, fun _ => rfl, fun _ => rfl⟩

/-- Keys 3 and 4 are there when key 5 is inserted. -/
theorem insert_inserted_iff_otherKeys : ∃ s s', run (State.step sampleHome smallConfig 4) freshState
    [.insert (0, 0) 3 7 (entryPtr 0), .insert (1, 0) 4 8 (entryPtr 2)] = some s ∧
      s.index 3 = some (0, 0) ∧ s.index 4 = some (1, 0) ∧
      s.insert sampleHome 4 (0, 0) 5 10 (entryPtr 1) = some (s', true) ∧ Inserted smallConfig s' 5 10 := by
  refine ⟨_, _, rfl, rfl, rfl, rfl, ?_⟩
  have hiff := insert_inserted_iff sampleHome smallConfig 4 freshState _ _
    [.insert (0, 0) 3 7 (entryPtr 0), .insert (1, 0) 4 8 (entryPtr 2)] starting_freshState rfl (0, 0) 5 10
    (entryPtr 1) true rfl
  refine hiff.mpr ⟨rfl, fun a ha => ?_⟩ rfl
  have hkeys : Function.update (Function.update (fun _ => none) (0, 0) (some 3)) (1, 0) (some 4) a = some 5 := ha
  rw [Function.update_apply, Function.update_apply] at hkeys
  split_ifs at hkeys
  all_goals cases hkeys

/-- Key 5 is inserted twice: both calls return true, the index keeps the first entry and
its value, and the second entry stays live. -/
theorem insert_again_lost : ∃ s s',
    freshState.step sampleHome smallConfig 4 (.insert (0, 0) 5 10 (entryPtr 0)) = some s ∧
    s.insert sampleHome 4 (0, 0) 5 20 (entryPtr 1) = some (s', true) ∧ s'.keys (0, 1) = some 5 ∧
    ¬ Inserted smallConfig s' 5 20 := by
  refine ⟨_, _, rfl, rfl, by decide +kernel, ?_⟩
  rintro ⟨a, ha, hval, -⟩
  obtain rfl : (0, 0) = a := Option.some.inj ha
  have hten : some 10 = some 20 := hval
  cases hten

end Hkv.Mts
