import Hkv.AddressTable
import Mathlib.Data.List.Basic
import Mathlib.Data.List.Perm.Basic
import Mathlib.Algebra.Order.BigOperators.Group.List

/-!
# `MTSImpl::scan`

A scan looks at the selected entries one by one, takes the values that are in the cache or
in a log, and sorts the others by value storage. Then it looks at those once more, storage
by storage, and submits reads. Other threads run meanwhile: each look has the memory of
its own moment.

Every selected entry carries its number, so that what a scan returns can be told apart.
-/
namespace Hkv.Scan
open MtsConfig TaggedPointer AddressTable

/-- What a look finds. -/
structure Memory (A : Type) where
  table : A → AtEntry
  /-- `at_entry` and `val` of a `dc_entry` -/
  dc : Ptr → Option (A × ℕ)
  op : Ptr → OpEntry A

/-- A selected `at_entry`, the memory at each look of the first loop, and `vs_idx` when
`get_val_scan` looks. -/
structure Selected (A : Type) where
  atEntry : A
  looks : List (Memory A)
  later : VsIdx

inductive Found where
  | value (val : ℕ)
  | stored (vsId : ℕ)
  deriving DecidableEq

/-- The outcome of one look. -/
inductive Look where
  | found (f : Found)
  /-- `goto RETRY_SCAN` -/
  | retry
  /-- a dangling pointer, or no answer of `get_val_pos` -/
  | crash

/-- A read that `get_val_scan` submits, with the number of the entry that it is for. -/
structure Read where
  number : ℕ
  vsId : ℕ
  chunk : ℕ
  entry : ℕ
  deriving DecidableEq

variable {A : Type} [DecidableEq A]

def look (vsNum : ℕ) (a : A) (m : Memory A) : Look :=
  match getValPos (m.table a) with
  | some .dcache =>
    if getUntaggedPtr (m.table a).valAddr = 0 then .retry
    else match (toPtr (getUntaggedPtr (m.table a).valAddr)).bind m.dc with
      | none => .crash
      | some (b, val) => if b = a then .found (.value val) else .retry
  | some .oplog => match toPtr (getUntaggedPtr (m.table a).valAddr) with
      | none => .crash
      | some p => if (m.op p).opa = some a then .found (.value (m.op p).val) else .retry
  | some (.valuestorage vsId) => if vsId < vsNum then .found (.stored vsId.toNat) else .crash
  | none => .crash

/-- The looks up to the first that is not repeated. -/
def classify (vsNum : ℕ) (a : A) : List (Memory A) → Option Found
  | [] => none
  | m :: ms => match look vsNum a m with
    | .found f => some f
    | .retry => classify vsNum a ms
    | .crash => none

/-- `vec_result` with the numbers of its entries, and `vs_at_vec`. -/
structure Gathered (A : Type) where
  vecResult : List (ℕ × ℕ)
  vsAtVec : ℕ → List (ℕ × Selected A)

/-- The first loop. -/
def gather (vsNum : ℕ) : List (ℕ × Selected A) → Gathered A → Option (Gathered A)
  | [], g => some g
  | x :: xs, g => match classify vsNum x.2.atEntry x.2.looks with
    | none => none
    | some (.value val) => gather vsNum xs { g with vecResult := g.vecResult ++ [(x.1, val)] }
    | some (.stored v) =>
      gather vsNum xs { g with vsAtVec := Function.update g.vsAtVec v (g.vsAtVec v ++ [x]) }

/-- The loop of `get_val_scan` on a ring of `rQd` slots, with `entry_idx`. -/
def getValScan (cfg : Config) (rQd v : ℕ) : List (ℕ × Selected A) → ℕ → List Read
  | [], _ => []
  | x :: xs, entryIdx =>
    if x.2.later.vsOffset < 0 then getValScan cfg rQd v xs entryIdx
    else if rQd ≤ entryIdx then []
    else
      let offset := x.2.later.vsOffset.toNat
      ⟨x.1, v, offset / cfg.entriesPerChunk, offset % cfg.entriesPerChunk⟩ :: getValScan cfg rQd v xs
        (entryIdx + 1)

/-- What a scan of `sel` pushes and submits, and what it returns. -/
structure Outcome where
  vecResult : List (ℕ × ℕ)
  reads : List Read
  size : ℕ

def scan (cfg : Config) (rQd vsNum : ℕ) (sel : List (Selected A)) : Option Outcome :=
  (gather vsNum (sel.zipIdx.map Prod.swap) ⟨[], fun _ => []⟩).map fun g =>
    ⟨g.vecResult, (List.range vsNum).flatMap fun v => getValScan cfg rQd v (g.vsAtVec v) 0,
      g.vecResult.length + ((List.range vsNum).map fun v => (g.vsAtVec v).length).sum⟩

/-- Every selected entry contributes once, and a read is of the slot of its entry. -/
structure DropsNothing (cfg : Config) (sel : List (Selected A)) (o : Outcome) : Prop where
  once : (o.vecResult.map Prod.fst ++ o.reads.map Read.number).Perm (List.range sel.length)
  slot : ∀ r ∈ o.reads, ∀ x ∈ sel[r.number]?,
    x.later = ⟨r.vsId, (cfg.slotOffset r.chunk r.entry : ℕ)⟩

/-! ## The first loop -/

/-- Where the first loop finds the entry. -/
def Selected.found (vsNum : ℕ) (x : Selected A) : Option Found := classify vsNum x.atEntry x.looks

variable {vsNum : ℕ}

theorem look_stored_lt {a : A} {m : Memory A} {v : ℕ} (h : look vsNum a m = .found (.stored v)) : v < vsNum := by
  unfold look at h
  split at h
  · split at h
    · cases h
    · split at h
      · cases h
      · split at h <;> cases h
  · split at h
    · cases h
    · split at h <;> cases h
  · rename_i vsId hpos
    obtain ⟨hlinked, -, rfl⟩ := (getValPos_eq_valuestorage_iff _ _).mp hpos
    have hpos : -1 < (m.table a).vsIdx.vsId := hlinked.1
    split at h
    · cases h
      omega
    · cases h
  · cases h

theorem classify_stored_lt {a : A} {ms : List (Memory A)} {v : ℕ} (h : classify vsNum a ms = some (.stored v)) :
    v < vsNum := by
  induction ms with
  | nil => cases h
  | cons m ms ih =>
    simp only [classify] at h
    split at h
    · rename_i f hlook
      cases h
      exact look_stored_lt hlook
    · exact ih h
    · cases h

/-- The entries that the first loop puts into `vs_at_vec[v]`. -/
def storedIn (vsNum v : ℕ) (xs : List (ℕ × Selected A)) : List (ℕ × Selected A) :=
  xs.filter fun x => x.2.found vsNum = some (.stored v)

/-- The values that the first loop pushes. -/
def valuesOf (vsNum : ℕ) (xs : List (ℕ × Selected A)) : List (ℕ × ℕ) :=
  xs.filterMap fun x => match x.2.found vsNum with
    | some (.value val) => some (x.1, val)
    | _ => none

theorem gather_spec {xs : List (ℕ × Selected A)} {g g' : Gathered A} (h : gather vsNum xs g = some g') :
    g'.vecResult = g.vecResult ++ valuesOf vsNum xs ∧ (∀ v, g'.vsAtVec v = g.vsAtVec v ++ storedIn vsNum v xs) ∧
      ∀ x ∈ xs, x.2.found vsNum ≠ none := by
  induction xs generalizing g with
  | nil =>
    cases h
    simp [valuesOf, storedIn]
  | cons x xs ih =>
    simp only [gather] at h
    split at h
    · cases h
    · rename_i val hx
      obtain ⟨hvec, hvs, hall⟩ := ih h
      have hfound : x.2.found vsNum = some (.value val) := hx
      refine ⟨by simp [hvec, valuesOf, hfound], fun v => by simp [hvs, storedIn, hfound], ?_⟩
      exact List.forall_mem_cons.mpr ⟨by simp [hfound], hall⟩
    · rename_i v hx
      obtain ⟨hvec, hvs, hall⟩ := ih h
      have hfound : x.2.found vsNum = some (.stored v) := hx
      refine ⟨by simp [hvec, valuesOf, hfound], fun u => ?_,
        List.forall_mem_cons.mpr ⟨by simp [hfound], hall⟩⟩
      rw [hvs]
      by_cases huv : u = v
      · subst huv
        simp [storedIn, hfound]
      · have hne : v ≠ u := Ne.symm huv
        simp [storedIn, hfound, huv, hne]

theorem flatMap_update_perm {β : Type} {l : List ℕ} (f : ℕ → List β) {v : ℕ} (b : β) (hnd : l.Nodup)
    (hv : v ∈ l) : (l.flatMap (Function.update f v (b :: f v))).Perm (b :: l.flatMap f) := by
  obtain ⟨l₁, l₂, rfl⟩ := List.append_of_mem hv
  obtain ⟨-, hv₂, hcross⟩ := List.nodup_append.mp hnd
  have h₁ : l₁.flatMap (Function.update f v (b :: f v)) = l₁.flatMap f :=
    List.flatMap_congr fun x hx => Function.update_of_ne (hcross x hx v List.mem_cons_self) ..
  have h₂ : l₂.flatMap (Function.update f v (b :: f v)) = l₂.flatMap f :=
    List.flatMap_congr fun x hx => Function.update_of_ne (ne_of_mem_of_not_mem hx (List.nodup_cons.mp hv₂).1) ..
  simp only [List.flatMap_append, List.flatMap_cons, h₁, h₂, Function.update_self, List.cons_append]
  exact List.perm_middle

theorem numbers_perm {xs : List (ℕ × Selected A)} (hall : ∀ x ∈ xs, x.2.found vsNum ≠ none) :
    ((valuesOf vsNum xs).map Prod.fst ++ (List.range vsNum).flatMap fun v => (storedIn vsNum v xs).map Prod.fst).Perm
      (xs.map Prod.fst) := by
  induction xs with
  | nil => simp [valuesOf, storedIn]
  | cons x xs ih =>
    obtain ⟨hx, hxs⟩ := List.forall_mem_cons.mp hall
    have hperm := ih hxs
    obtain ⟨f, hf⟩ := Option.ne_none_iff_exists'.mp hx
    cases f with
    | value val =>
      have hvalues : valuesOf vsNum (x :: xs) = (x.1, val) :: valuesOf vsNum xs := by simp [valuesOf, hf]
      have hstored : ∀ v, storedIn vsNum v (x :: xs) = storedIn vsNum v xs := fun v => by simp [storedIn, hf]
      simpa [hvalues, hstored] using hperm
    | stored v =>
      have hvalues : valuesOf vsNum (x :: xs) = valuesOf vsNum xs := by simp [valuesOf, hf]
      have hstored : (fun u => (storedIn vsNum u (x :: xs)).map Prod.fst) =
          Function.update (fun u => (storedIn vsNum u xs).map Prod.fst) v
          (x.1 :: (storedIn vsNum v xs).map Prod.fst) := by
        funext u
        by_cases huv : u = v
        · subst huv
          simp [storedIn, hf]
        · have hne : v ≠ u := Ne.symm huv
          simp [storedIn, hf, huv, hne]
      rw [hvalues, hstored, List.map_cons]
      have hlt : v ∈ List.range vsNum := List.mem_range.mpr (classify_stored_lt hf)
      refine ((flatMap_update_perm (fun u => (storedIn vsNum u xs).map Prod.fst) x.1 List.nodup_range hlt).append_left
        _).trans (List.perm_middle.trans (hperm.cons _))

/-! ## The second loop -/

variable {cfg : Config} {rQd v : ℕ}

omit [DecidableEq A] in
theorem mem_getValScan {xs : List (ℕ × Selected A)} {n : ℕ} {r : Read} (hr : r ∈ getValScan cfg rQd v xs n) :
    ∃ x ∈ xs, r.number = x.1 ∧ r.vsId = v ∧ x.2.later.vsOffset = (cfg.slotOffset r.chunk r.entry : ℕ) := by
  induction xs generalizing n with
  | nil => cases hr
  | cons x xs ih =>
    have hlater : ∀ {n}, r ∈ getValScan cfg rQd v xs n → ∃ y ∈ x :: xs, r.number = y.1 ∧ r.vsId = v ∧
        y.2.later.vsOffset = (cfg.slotOffset r.chunk r.entry : ℕ) := fun hmem =>
      let ⟨y, hy, hrest⟩ := ih hmem
      ⟨y, List.mem_cons_of_mem _ hy, hrest⟩
    simp only [getValScan] at hr
    split at hr
    · exact hlater hr
    · rename_i hneg
      split at hr
      · cases hr
      · rcases List.mem_cons.mp hr with rfl | hr
        · refine ⟨x, List.mem_cons_self, rfl, rfl, ?_⟩
          simp only [Config.slotOffset]
          rw [Nat.mul_comm, Nat.div_add_mod]
          omega
        · exact hlater hr

omit [DecidableEq A] in
theorem getValScan_sublist (xs : List (ℕ × Selected A)) (n : ℕ) :
    ((getValScan cfg rQd v xs n).map Read.number).Sublist (xs.map Prod.fst) := by
  induction xs generalizing n with
  | nil => exact .slnil
  | cons x xs ih =>
    simp only [getValScan, List.map_cons]
    split
    · exact (ih n).cons _
    · split
      · exact List.nil_sublist _
      · exact (ih (n + 1)).cons_cons _

omit [DecidableEq A] in
/-- Every entry is read just if none has left and there is a slot of the ring for each. -/
theorem length_getValScan_eq_iff (xs : List (ℕ × Selected A)) {n : ℕ} (hn : n ≤ rQd) :
    (getValScan cfg rQd v xs n).length = xs.length ↔ (∀ x ∈ xs, 0 ≤ x.2.later.vsOffset) ∧
    n + xs.length ≤ rQd := by
  induction xs generalizing n with
  | nil => simp [getValScan, hn]
  | cons x xs ih =>
    have hle : ∀ k, (getValScan cfg rQd v xs k).length ≤ xs.length := fun k => by
      have hsub : ((getValScan cfg rQd v xs k).map Read.number).Sublist (xs.map Prod.fst) := getValScan_sublist xs k
      simpa using hsub.length_le
    simp only [getValScan, List.forall_mem_cons, List.length_cons]
    split
    · rename_i hneg
      have := hle n
      refine iff_of_false (by omega) fun h => ?_
      omega
    · rename_i hneg
      split
      · rename_i hfull
        exact iff_of_false (by simp) fun h => by omega
      · rename_i hfull
        rw [List.length_cons, Nat.add_right_cancel_iff, ih (by omega)]
        constructor
        · rintro ⟨hall, hroom⟩
          exact ⟨⟨Int.not_lt.mp hneg, hall⟩, by omega⟩
        · rintro ⟨⟨-, hall⟩, hroom⟩
          exact ⟨hall, by omega⟩

/-! ## The whole scan -/

theorem eq_of_sum_map_eq {l : List ℕ} {f g : ℕ → ℕ} (hle : ∀ x ∈ l, f x ≤ g x)
    (hsum : (l.map f).sum = (l.map g).sum) : ∀ x ∈ l, f x = g x := by
  induction l with
  | nil => simp
  | cons x l ih =>
    obtain ⟨hx, hl⟩ := List.forall_mem_cons.mp hle
    have hrest : (l.map f).sum ≤ (l.map g).sum := List.sum_le_sum hl
    simp only [List.map_cons, List.sum_cons] at hsum
    exact List.forall_mem_cons.mpr ⟨by omega, ih hl (by omega)⟩

/-- The selected entries with their numbers. -/
def numbered (sel : List (Selected A)) : List (ℕ × Selected A) := sel.zipIdx.map Prod.swap

omit [DecidableEq A] in
theorem numbered_fst (sel : List (Selected A)) : (numbered sel).map Prod.fst = List.range sel.length := by
  rw [numbered, List.map_map, List.range_eq_range']
  exact List.zipIdx_map_snd 0 sel

omit [DecidableEq A] in
theorem mem_numbered {sel : List (Selected A)} {x : ℕ × Selected A} (hx : x ∈ numbered sel) :
    sel[x.1]? = some x.2 := by
  obtain ⟨⟨y, i⟩, hy, rfl⟩ := List.mem_map.mp hx
  exact List.mem_zipIdx_iff_getElem?.mp hy

theorem scan_spec {sel : List (Selected A)} {o : Outcome} (h : scan cfg rQd vsNum sel = some o) :
    o.vecResult = valuesOf vsNum (numbered sel) ∧
      o.reads = ((List.range vsNum).flatMap fun v => getValScan cfg rQd v (storedIn vsNum v (numbered sel)) 0) ∧
      o.size = (valuesOf vsNum (numbered sel)).length +
        ((List.range vsNum).map fun v => (storedIn vsNum v (numbered sel)).length).sum ∧
      ((valuesOf vsNum (numbered sel)).map Prod.fst ++
        (List.range vsNum).flatMap fun v => (storedIn vsNum v (numbered sel)).map Prod.fst).Perm
    (List.range sel.length) := by
  obtain ⟨g, hg, rfl⟩ := Option.map_eq_some_iff.mp h
  obtain ⟨hvec, hvs, hall⟩ := gather_spec hg
  have hvs' : g.vsAtVec = fun v => storedIn vsNum v (numbered sel) := funext fun v => hvs v
  have hperm := numbers_perm hall
  rw [← numbered, numbered_fst] at hperm
  exact ⟨hvec, by rw [hvs'], by rw [hvs', hvec]; rfl, hperm⟩

theorem scan_size {sel : List (Selected A)} {o : Outcome} (h : scan cfg rQd vsNum sel = some o) :
    o.size = sel.length := by
  obtain ⟨-, -, hsize, hperm⟩ := scan_spec h
  have hlen := hperm.length_eq
  simp only [List.length_append, List.length_map, List.length_flatMap, List.length_range] at hlen
  rw [hsize, ← hlen]

/-- A storage is asked for no more entries than its ring has slots, and they are still there. -/
def Stays (vsNum rQd : ℕ) (sel : List (Selected A)) (v : ℕ) : Prop :=
  (sel.countP fun x => x.found vsNum = some (.stored v)) ≤ rQd ∧
    ∀ x ∈ sel, x.found vsNum = some (.stored v) → x.later.vsId = v ∧ 0 ≤ x.later.vsOffset

theorem stays_iff {sel : List (Selected A)} : Stays vsNum rQd sel v ↔
    (storedIn vsNum v (numbered sel)).length ≤ rQd ∧
      ∀ x ∈ storedIn vsNum v (numbered sel), x.2.later.vsId = v ∧ 0 ≤ x.2.later.vsOffset := by
  have hsnd : (numbered sel).map Prod.snd = sel := by simp [numbered, Function.comp_def]
  have hcount : (storedIn vsNum v (numbered sel)).length = sel.countP fun x => x.found vsNum = some (.stored v) := by
    rw [storedIn, ← List.countP_eq_length_filter]
    conv_rhs => rw [← hsnd, List.countP_map]
    rfl
  rw [Stays, hcount]
  refine and_congr_right fun _ => ⟨fun h x hx => ?_, fun h x hx hf => ?_⟩
  · obtain ⟨hmem, hf⟩ := List.mem_filter.mp hx
    exact h x.2 (hsnd ▸ List.mem_map_of_mem hmem) (of_decide_eq_true hf)
  · rw [← hsnd] at hx
    obtain ⟨y, hy, rfl⟩ := List.mem_map.mp hx
    exact h y (List.mem_filter.mpr ⟨hy, decide_eq_true hf⟩)

section Spec
variable {sel : List (Selected A)} {o : Outcome}

theorem getValScan_storedIn_sublist (v : ℕ) :
    ((getValScan cfg rQd v (storedIn vsNum v (numbered sel)) 0).map Read.number).Sublist
      ((storedIn vsNum v (numbered sel)).map Prod.fst) := getValScan_sublist _ 0

theorem number_reads (h : scan cfg rQd vsNum sel = some o) :
    o.reads.map Read.number = (List.range vsNum).flatMap fun v =>
    (getValScan cfg rQd v (storedIn vsNum v (numbered sel)) 0).map Read.number := by
  rw [(scan_spec h).2.1, List.map_flatMap]

/-- All reads of a scan that drops nothing are made, and of the storage that is asked. -/
theorem DropsNothing.stays (hd : DropsNothing cfg sel o) (h : scan cfg rQd vsNum sel = some o) (hv : v < vsNum) :
    Stays vsNum rQd sel v := by
  obtain ⟨hvec, hreads, -, hperm⟩ := scan_spec h
  have hsum :
    ((List.range vsNum).map fun v => (getValScan cfg rQd v (storedIn vsNum v (numbered sel)) 0).length).sum =
      ((List.range vsNum).map fun v => (storedIn vsNum v (numbered sel)).length).sum := by
    have hlen := (hd.once.trans hperm.symm).length_eq
    rw [hvec, number_reads h] at hlen
    simpa only [List.length_append, List.length_map, List.length_flatMap, Nat.add_left_cancel_iff] using hlen
  have hle : ∀ v ∈ List.range vsNum, (getValScan cfg rQd v (storedIn vsNum v (numbered sel)) 0).length ≤
      (storedIn vsNum v (numbered sel)).length := fun v _ => by
    have hsub : ((getValScan cfg rQd v (storedIn vsNum v (numbered sel)) 0).map Read.number).Sublist _ :=
      getValScan_storedIn_sublist v
    simpa using hsub.length_le
  have hlen := eq_of_sum_map_eq hle hsum v (List.mem_range.mpr hv)
  obtain ⟨hthere, hroom⟩ := (length_getValScan_eq_iff _ (Nat.zero_le rQd)).mp hlen
  refine stays_iff.mpr ⟨by omega, fun x hx => ⟨?_, hthere x hx⟩⟩
  have hnumber : x.1 ∈ (getValScan cfg rQd v (storedIn vsNum v (numbered sel)) 0).map Read.number := by
    rw [(getValScan_storedIn_sublist v).eq_of_length (by simpa using hlen)]
    exact List.mem_map_of_mem hx
  obtain ⟨r, hr, hrx⟩ := List.mem_map.mp hnumber
  obtain ⟨-, -, -, hid, -⟩ := mem_getValScan hr
  have hmem : r ∈ o.reads := hreads ▸ List.mem_flatMap.mpr ⟨v, List.mem_range.mpr hv, hr⟩
  have hlater := hd.slot r hmem x.2 (hrx ▸ mem_numbered (List.mem_filter.mp hx).1)
  rw [hlater, hid]

theorem dropsNothing_of_stays (h : scan cfg rQd vsNum sel = some o) (hstays : ∀ v < vsNum, Stays vsNum rQd sel v) :
    DropsNothing cfg sel o := by
  obtain ⟨hvec, hreads, -, hperm⟩ := scan_spec h
  have hall : ∀ v ∈ List.range vsNum, (getValScan cfg rQd v (storedIn vsNum v (numbered sel)) 0).map Read.number =
      (storedIn vsNum v (numbered sel)).map Prod.fst := by
    intro v hv
    obtain ⟨hroom, hthere⟩ := stays_iff.mp (hstays v (List.mem_range.mp hv))
    have hlen : (getValScan cfg rQd v (storedIn vsNum v (numbered sel)) 0).length = _ :=
      (length_getValScan_eq_iff _ (Nat.zero_le rQd)).mpr ⟨fun x hx => (hthere x hx).2, by omega⟩
    exact (getValScan_storedIn_sublist v).eq_of_length (by simpa using hlen)
  refine ⟨?_, fun r hr x hx => ?_⟩
  · rw [hvec, number_reads h, List.flatMap_congr hall]
    exact hperm
  · rw [hreads] at hr
    obtain ⟨v, hv, hr⟩ := List.mem_flatMap.mp hr
    obtain ⟨y, hy, hnumber, hid, hoffset⟩ := mem_getValScan hr
    have hsel : sel[r.number]? = some y.2 := hnumber ▸ mem_numbered (List.mem_filter.mp hy).1
    obtain rfl : y.2 = x := Option.some.inj (hsel.symm.trans hx)
    have hsame := ((stays_iff.mp (hstays v (List.mem_range.mp hv))).2 y hy).1
    rw [hid, ← hsame, ← hoffset]

end Spec

/-- A scan drops nothing just if every storage keeps what is asked of it, and is not asked
for too much. -/
theorem scan_dropsNothing_iff (cfg : Config) (rQd vsNum : ℕ) (sel : List (Selected A)) {o : Outcome}
    (h : scan cfg rQd vsNum sel = some o) : DropsNothing cfg sel o ↔ ∀ v < vsNum, Stays vsNum rQd sel v :=
  ⟨fun hd _ hv => hd.stays h hv, dropsNothing_of_stays h⟩

/-! ## Sample scans -/

/-- Entry 0 is in a log; any other entry `a` is in slot `a` of storage 0. -/
def sample : Memory ℕ where
  table a := if a = 0 then ⟨⟨-1, -1⟩, putTaggedPtr (entryPtr 0).addr oplogVal⟩ else ⟨⟨0, a⟩, 0⟩
  dc _ := none
  op _ := ⟨0, 50, some 0⟩

theorem found_logged (later : VsIdx) : (⟨0, [sample], later⟩ : Selected ℕ).found 1 = some (.value 50) := by
  have hpos : getValPos (sample.table 0) = some .oplog := by
    rw [getValPos_eq_oplog_iff]
    exact ⟨by decide, getTag_putTaggedPtr (entryPtr 0) (by decide)⟩
  have hptr : toPtr (getUntaggedPtr (sample.table 0).valAddr) = some (entryPtr 0) :=
    toPtr_eq_some_iff.mpr (by simp [sample])
  simp only [Selected.found, classify, look, hpos, hptr]
  rfl

theorem found_slot (a : ℕ) (later : VsIdx) :
    (⟨a + 1, [sample], later⟩ : Selected ℕ).found 1 = some (.stored 0) := by
  have hentry : sample.table (a + 1) = ⟨⟨0, (a + 1 : ℕ)⟩, 0⟩ := rfl
  have hlinked : (sample.table (a + 1)).Linked := by
    rw [hentry]
    exact ⟨show (-1 : ℤ) < 0 by decide, show (-1 : ℤ) < ((a + 1 : ℕ) : ℤ) by omega⟩
  have htag : getTag (sample.table (a + 1)).valAddr ≠ dcacheVal := by
    rw [hentry]
    show getTag 0 ≠ dcacheVal
    decide
  have hpos : getValPos (sample.table (a + 1)) = some (.valuestorage 0) := by
    rw [getValPos_of_linked hlinked htag, hentry]
  simp [Selected.found, classify, look, hpos]

theorem exists_gather (xs : List (ℕ × Selected A)) (g : Gathered A) (h : ∀ x ∈ xs, x.2.found vsNum ≠ none) :
    ∃ g', gather vsNum xs g = some g' := by
  induction xs generalizing g with
  | nil => exact ⟨g, rfl⟩
  | cons x xs ih =>
    obtain ⟨hx, hxs⟩ := List.forall_mem_cons.mp h
    obtain ⟨f, hf⟩ := Option.ne_none_iff_exists'.mp hx
    rw [Selected.found] at hf
    simp only [gather, hf]
    cases f with
    | value val => exact ih _ hxs
    | stored v => exact ih _ hxs

theorem exists_scan (cfg : Config) (rQd vsNum : ℕ) (sel : List (Selected A))
    (h : ∀ x ∈ sel, x.found vsNum ≠ none) : ∃ o, scan cfg rQd vsNum sel = some o := by
  obtain ⟨g, hg⟩ := exists_gather (numbered sel) ⟨[], fun _ => []⟩ fun x hx =>
    h x.2 (List.mem_of_getElem? (mem_numbered hx))
  exact ⟨_, by rw [scan, ← numbered, hg]; rfl⟩

/-- A logged entry and a stored one. -/
def logAndSlot : List (Selected ℕ) := [⟨0, [sample], ⟨-1, -1⟩⟩, ⟨5, [sample], ⟨0, 5⟩⟩]

theorem scan_dropsNothing_iff_logAndSlot : ∃ o, scan mtsConfig MtsConfig.rQd 1 logAndSlot = some o ∧
    DropsNothing mtsConfig logAndSlot o := by
  obtain ⟨o, ho⟩ :=
    exists_scan mtsConfig MtsConfig.rQd 1 logAndSlot (by simp [logAndSlot, found_logged, found_slot 4])
  refine ⟨o, ho, (scan_dropsNothing_iff _ _ _ _ ho).mpr fun v hv => ?_⟩
  obtain rfl : v = 0 := by omega
  simp [Stays, logAndSlot, found_logged, found_slot 4, MtsConfig.rQd]

/-- One entry more than the ring has slots. -/
def tooMany : List (Selected ℕ) := (List.range 65).map fun i : ℕ => ⟨i + 1, [sample], ⟨0, i + 1⟩⟩

/-- An entry that is updated between the looks. -/
def movedBack : List (Selected ℕ) := [⟨5, [sample], ⟨-1, -1⟩⟩]

theorem scan_drops :
    (∃ o, scan mtsConfig MtsConfig.rQd 1 tooMany = some o ∧ ¬ DropsNothing mtsConfig tooMany o) ∧
      ∃ o, scan mtsConfig MtsConfig.rQd 1 movedBack = some o ∧ ¬ DropsNothing mtsConfig movedBack o := by
  constructor
  · obtain ⟨o, ho⟩ := exists_scan mtsConfig MtsConfig.rQd 1 tooMany (by simp [tooMany, found_slot])
    refine ⟨o, ho, fun hd => ?_⟩
    have hcount := (hd.stays ho Nat.zero_lt_one).1
    simp [tooMany, List.countP_map, Function.comp_def, found_slot, MtsConfig.rQd] at hcount
  · obtain ⟨o, ho⟩ := exists_scan mtsConfig MtsConfig.rQd 1 movedBack (by simp [movedBack, found_slot 4])
    refine ⟨o, ho, fun hd => ?_⟩
    have hthere := (hd.stays ho Nat.zero_lt_one).2 _ List.mem_cons_self (found_slot 4 _)
    exact absurd hthere.2 (by decide)

end Hkv.Scan
