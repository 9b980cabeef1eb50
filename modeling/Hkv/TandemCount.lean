import Hkv.TandemRebalance

/-!
# What the inodes count

`coveredNodes` is exact until the first split. The loop that looks for the split node
starts counting at one, and `rebalanceInode` takes its counter for the number of nodes
that stay: the old inode keeps one node more in its count than in its range, and the new
one has a node more in its range than in its count. Where ever the same end of a range is
split again, the difference adds up, and the range outgrows every bound.
-/
namespace Hkv.Tandem
open LinkedChain DramSkiplist

namespace TandemIndex

/-- The number of vnodes from `cur` on, up to vnode `stop` or to the end of the chain. -/
def countTo (t : TandemIndex) (stop : Option ℕ) : ℕ → ℕ → Option ℕ
  | 0, _ => none
  | fuel + 1, cur =>
    if stop = some cur then some 0
    else match nodeAt vnodeNum (t.vnode cur).next with
      | none => if stop = none then some 1 else none
      | some next => (t.countTo stop fuel next).map (· + 1)

/-- Where the range of a level-0 inode ends: at the `down` of the next one, if there is one. -/
def rangeEnd (t : TandemIndex) (n : ℕ) : Option (Option ℕ) :=
  if (t.mainIndex.inode n).next = t.mainIndex.tail 0 then some none
  else do
    let next ← nodeAt inodeNum (t.mainIndex.inode n).next
    return some (← nodeAt vnodeNum (t.mainIndex.inode next).down)

/-- The number of vnodes in the range of a level-0 inode. -/
def covered (t : TandemIndex) (n : ℕ) : Option ℕ := do
  let stop ← t.rangeEnd n
  t.countTo stop vnodeNum (← nodeAt vnodeNum (t.mainIndex.inode n).down)

/-- On level 0, the header included, `coveredNodes` is the number of vnodes in the range. -/
def CoveredExact (t : TandemIndex) : Prop :=
  ∃ l, t.mainIndex.levelNodes 0 = some l ∧ ∀ n ∈ t.mainIndex.header 0 :: l,
    (t.covered n).map Nat.cast = some (t.mainIndex.inode n).coveredNodes

variable {t : TandemIndex} {chains run : ℕ → List ℕ}

theorem countTo_spec {stop : Option ℕ} {cur fuel : ℕ} {l : List ℕ}
    (hchain : Chain t.vnext cur l (stop.elim (-1) Nat.cast)) (hlt : ∀ v ∈ l, v < vnodeNum)
    (hstop : ∀ e ∈ stop, e < vnodeNum ∧ e ∉ cur :: l)
    (hfuel : l.length + 1 < fuel) : t.countTo stop fuel cur = some (l.length + 1) := by
  induction l generalizing cur fuel with
  | nil =>
    obtain ⟨fuel, rfl⟩ : ∃ k, fuel = k + 2 := Nat.exists_eq_add_of_le' hfuel
    have hnext : (t.vnode cur).next = stop.elim (-1) Nat.cast := hchain
    cases stop with
    | none => simp [countTo, hnext, nodeAt]
    | some e =>
      obtain ⟨he, hne⟩ := hstop e rfl
      have hcur : e ≠ cur := fun h => hne (h ▸ List.mem_cons_self)
      simp [countTo, hnext, nodeAt_of_lt he, hcur]
  | cons x l ih =>
    obtain ⟨fuel, rfl⟩ : ∃ k, fuel = k + 1 := Nat.exists_eq_add_of_le' (by omega)
    have hnext : (t.vnode cur).next = (x : ℤ) := hchain.1
    have hcur : stop ≠ some cur := fun h => (hstop cur h).2 List.mem_cons_self
    rw [countTo, if_neg hcur, hnext, nodeAt_of_lt (hlt x List.mem_cons_self)]
    have hrest : t.countTo stop fuel x = some (l.length + 1) := ih hchain.2
      (fun v hv => hlt v (List.mem_cons_of_mem _ hv))
      (fun e he => ⟨(hstop e he).1, fun hm => (hstop e he).2 (List.mem_cons_of_mem _ hm)⟩)
      (by rw [List.length_cons] at hfuel; omega)
    show Option.map _ (t.countTo stop fuel x) = _
    rw [hrest]
    rfl

/-- The count of the nodes `d :: l` that lie before the runs of the inodes behind `n`. -/
theorem Indexed.covered_eq (h : Indexed t chains run) {n d : ℕ} {l back : List ℕ}
    (hback : ∀ m ∈ back, m ∈ chains 0)
    (hlevel : Chain (fun m => (t.mainIndex.inode m).next) n back (t.mainIndex.tail 0))
    (hdown : (t.mainIndex.inode n).down = d) (hchain : Chain t.vnext d (l ++ back.flatMap run) (-1))
    (hnd : (d :: (l ++ back.flatMap run)).Nodup) (hsub : ∀ v ∈ d :: (l ++ back.flatMap run), v < vnodeNum)
    (hlen : l.length + 1 < vnodeNum) : t.covered n = some (l.length + 1) := by
  have hd : nodeAt vnodeNum (t.mainIndex.inode n).down = some d := by
    rw [hdown, nodeAt_of_lt (hsub d List.mem_cons_self)]
  have hl : ∀ v ∈ l, v < vnodeNum := fun v hv => hsub v (List.mem_cons_of_mem _ (List.mem_append_left _ hv))
  cases back with
  | nil =>
    have hnext : (t.mainIndex.inode n).next = t.mainIndex.tail 0 := hlevel
    rw [List.flatMap_nil, List.append_nil] at hchain
    simp only [covered, rangeEnd, hnext, if_true, Option.bind_eq_bind, Option.bind_some, hd]
    exact countTo_spec hchain hl (by simp) hlen
  | cons m back =>
    have hm := hback m List.mem_cons_self
    have hnext : (t.mainIndex.inode n).next = (m : ℤ) := hlevel.1
    have htail : (m : ℤ) ≠ t.mainIndex.tail 0 := fun he =>
      h.shape.toChained.tail_not_mem (by decide) (Int.ofNat.inj he ▸ hm)
    obtain ⟨e, k, hrun, hdown', -⟩ := h.first m hm
    rw [List.flatMap_cons, hrun, List.cons_append] at hchain hnd hsub
    have he : e < vnodeNum := hsub e (by simp)
    have hne : e ∉ d :: l := fun hm => by
      rw [← List.cons_append] at hnd
      exact (List.nodup_append.mp hnd).2.2 e hm e List.mem_cons_self rfl
    have hnode : nodeAt inodeNum (m : ℤ) = some m :=
      nodeAt_of_lt (h.shape.toChained.lt_inodeNum (by decide) (Shape.mem_levelIds_of_mem hm))
    simp only [covered, rangeEnd, hnext, if_neg htail, hnode, hdown', nodeAt_of_lt he, Option.bind_eq_bind,
      Option.bind_some, hd]
    exact countTo_spec (chain_append.mp hchain).1 hl (fun x hx => Option.some.inj hx ▸ ⟨he, hne⟩) hlen

theorem Indexed.covered_inode (h : Indexed t chains run) {n : ℕ} (hn : n ∈ chains 0) :
    t.covered n = some (run n).length := by
  obtain ⟨front, back, hsplit, hlevel, -⟩ := h.shape.toChained.split (by decide) (h.shape.abut 0 (by decide)) hn
  obtain ⟨d, l, hrun, hdown, -, hvs, -, hchain⟩ := h.cut hsplit
  have hnd := h.nodup
  rw [hvs] at hnd
  have hlt : ∀ v ∈ t.head :: (front.flatMap run ++ d :: (l ++ back.flatMap run)), v < vnodeNum :=
    fun v hv => h.lt_vnodeNum (hvs ▸ hv)
  have hlen := length_le_of_nodup hnd hlt
  simp only [List.length_cons, List.length_append] at hlen
  rw [hrun, List.length_cons]
  exact h.covered_eq (fun m hm => by simp [hsplit, hm]) hlevel hdown hchain
    (List.nodup_append.mp (List.nodup_cons.mp hnd).2).2.1
    (fun v hv => hlt v (List.mem_cons_of_mem _ (List.mem_append_right _ hv))) (by omega)

theorem Indexed.covered_header (h : Indexed t chains run)
    (hdown : (t.mainIndex.inode (t.mainIndex.header 0)).down = t.head) :
    t.covered (t.mainIndex.header 0) = some 1 :=
  h.covered_eq (l := []) (fun _ hm => hm) (h.shape.chain 0 (by decide)) hdown h.chain h.nodup
    (fun _ hv => h.lt_vnodeNum hv) (by decide)

theorem Exact.coveredExact (hx : Exact t chains run) (h : Indexed t chains run) : t.CoveredExact := by
  refine ⟨chains 0, h.shape.toChained.levelNodes_eq (by decide), fun n hn => ?_⟩
  rcases List.mem_cons.mp hn with rfl | hn
  · rw [h.covered_header hx.head, hx.header]
    rfl
  · rw [h.covered_inode hn, hx.inode n hn]
    rfl

theorem Indexed.not_coveredExact (h : Indexed t chains run) {n : ℕ} (hn : n ∈ chains 0)
    (hcount : (t.mainIndex.inode n).coveredNodes = (run n).length + 1) : ¬t.CoveredExact := by
  rintro ⟨l, hl, hall⟩
  rw [h.shape.toChained.levelNodes_eq (by decide)] at hl
  obtain rfl := Option.some.inj hl
  have hn' := hall n (List.mem_cons_of_mem _ hn)
  rw [h.covered_inode hn, hcount, Option.map_some] at hn'
  have := Option.some.inj hn'
  omega

/-! ## Runs -/

theorem Indexed.first_le (h : Indexed t chains run) {f n : ℕ} (hf : f ∈ (chains 0).head?) (hn : n ∈ chains 0) :
    (t.mainIndex.inode f).minKey ≤ (t.mainIndex.inode n).minKey := by
  obtain ⟨l, hl⟩ := List.head?_eq_some_iff.mp hf
  rw [hl] at hn
  rcases List.mem_cons.mp hn with rfl | hn
  · exact Nat.le_refl _
  · exact Nat.le_of_lt (h.min_lt (show chains 0 = [] ++ f :: l from hl) hn)

theorem Indexed.within_of_level (h : Indexed t chains run) (hone : t.mainIndex.level = 1) {c : Call}
    (hkey : c.key ≠ 0) : c.Within t := by
  rintro ⟨-, l, hl, n, hn, -⟩
  obtain rfl := Option.mem_def.mp hn
  obtain ⟨hnone, -⟩ | ⟨m, hlook, hcov⟩ := h.shape.lookup_found (Nat.pos_of_ne_zero hkey)
  · cases hl.symm.trans hnone
  obtain rfl : n = m := Option.some.inj (Option.some.inj (hl.symm.trans hlook))
  have hmem := hcov.mem
  obtain ⟨-, -, -, hmin, -⟩ := hcov
  refine (regular_iff h.shape).mpr ⟨fun f hf => ?_, fun _ hmax => ?_⟩
  · rw [hone] at hf
    exact Nat.le_trans (h.first_le hf hmem) hmin
  · rw [hone] at hmax
    exact absurd hmax (by decide)

/-- A state before the first split. -/
structure Unsplit (t : TandemIndex) (chains run : ℕ → List ℕ) : Prop where
  indexed : Indexed t chains run
  exact : Exact t chains run
  level : t.mainIndex.level = 1

/-- The call does not split an inode. -/
def Call.SplitsNot (t : TandemIndex) (c : Call) : Prop := t.splitKey c.key c.value = none

theorem Unsplit.insert_step (h : Unsplit t chains run) {c : Call} (hvalid : c.Valid)
    (hnew : ∀ w ∈ vnodes chains run, (t.vnode w).key ≠ c.key) {r : Bool × TandemIndex}
    (hrun : c.insert t = some r) :
    (r.2.CoveredExact ↔ c.SplitsNot t) ∧ (c.SplitsNot t → ∃ chains' run', Unsplit r.2 chains' run' ∧
      ∀ w ∈ vnodes chains' run', (r.2.vnode w).key = c.key ∨ ∃ v ∈ vnodes chains run,
        (r.2.vnode w).key = (t.vnode v).key) := by
  by_cases hroom : t.vCurrentIdx < vnodeNum
  · have hsome : t.insert c.key c.value c.newlevel ≠ none := fun hnone => by
      cases hrun.symm.trans hnone
    obtain ⟨t', chains', run', hins, hi, -⟩ :=
      h.indexed.insert_step (Nat.pos_of_ne_zero hvalid.1) hroom hvalid.2.1 hvalid.2.2 hnew (Or.inr hsome)
      (h.indexed.regular_of_within hvalid.1 hnew (h.indexed.within_of_level h.level hvalid.1))
    cases hrun.symm.trans hins
    have hgood : c.SplitsNot t → Unsplit t' chains' run' := fun hnot =>
      ⟨hi.indexed, (hi.kept hnot).2 h.exact, (hi.kept hnot).1.trans h.level⟩
    refine ⟨⟨fun hexact => ?_, fun hnot => (hgood hnot).exact.coveredExact hi.indexed⟩, fun hnot =>
      ⟨chains', run', hgood hnot, fun w hw => hi.key_cases hw⟩⟩
    refine Option.eq_none_iff_forall_not_mem.mpr fun k hk => ?_
    obtain ⟨n, hn, hcount⟩ := hi.drifted k hk
    exact hi.indexed.not_coveredExact hn hcount hexact
  · cases hrun.symm.trans (insert_of_no_room hroom)
    have hnot : c.SplitsNot t := splitKey_of_no_room hroom
    exact ⟨⟨fun _ => hnot, fun _ => h.exact.coveredExact h.indexed⟩, fun _ =>
      ⟨chains, run, h, fun w hw => Or.inr ⟨w, hw, rfl⟩⟩⟩

theorem Unsplit.insertAll_iff (h : Unsplit t chains run) {cs : List Call} (hnd : (cs.map Call.key).Nodup)
    (hvalid : ∀ c ∈ cs, c.Valid) (hnew : ∀ w ∈ vnodes chains run, ∀ c ∈ cs, (t.vnode w).key ≠ c.key)
    {r : List Bool × TandemIndex} (hrun : insertAll t cs = some r) :
    (∀ k, ∀ r ∈ insertAll t (cs.take k), r.2.CoveredExact) ↔ Along Call.SplitsNot t cs := by
  refine forall_take_iff_along (I := fun t cs => ∃ chains run, Unsplit t chains run ∧ (cs.map Call.key).Nodup ∧
    (∀ c ∈ cs, c.Valid) ∧ ∀ w ∈ vnodes chains run, ∀ c ∈ cs, (t.vnode w).key ≠ c.key) ?_
    ⟨chains, run, h, hnd, hvalid, hnew⟩ (h.exact.coveredExact h.indexed) hrun
  rintro t c cs r ⟨chains, run, h, hnd, hvalid, hnew⟩ - hfirst
  rw [List.map_cons, List.nodup_cons] at hnd
  obtain ⟨hiff, hnext⟩ :=
    h.insert_step (hvalid c List.mem_cons_self) (fun w hw => hnew w hw c List.mem_cons_self) hfirst
  refine ⟨hiff, fun hnot => ?_⟩
  obtain ⟨chains₁, run₁, h₁, hkeys⟩ := hnext hnot
  exact ⟨chains₁, run₁, h₁, hnd.2, fun d hd => hvalid d (List.mem_cons_of_mem _ hd),
    keys_ne hkeys hnd.1 hnew⟩

theorem new_counts : ∀ t ∈ TandemIndex.new, (t.mainIndex.inode (t.mainIndex.header 0)).down = t.head ∧
    (t.mainIndex.inode (t.mainIndex.header 0)).coveredNodes = 1 := by decide +kernel

theorem new_unsplit {t : TandemIndex} (hnew : TandemIndex.new = some t) : Unsplit t (fun _ => []) fun _ => [] :=
  ⟨new_indexed hnew, ⟨(new_counts t hnew).1, (new_counts t hnew).2, fun _ hn => absurd hn List.not_mem_nil⟩,
    (new_starting t hnew).1.1⟩

/-- The counts are exact in every state of a run of distinct keys if and only if no call of
the run splits an inode. -/
theorem insertAll_coveredExact_iff {t₀ : TandemIndex} (hnew : TandemIndex.new = some t₀) (cs : List Call)
    (hnd : (cs.map Call.key).Nodup) (hvalid : ∀ c ∈ cs, c.Valid) (rets : List Bool) (t : TandemIndex)
    (hrun : insertAll t₀ cs = some (rets, t)) :
    (∀ k, ∀ r ∈ insertAll t₀ (cs.take k), r.2.CoveredExact) ↔ Along Call.SplitsNot t₀ cs :=
  (new_unsplit hnew).insertAll_iff hnd hvalid (fun _ hw => absurd hw List.not_mem_nil) hrun

/-! ## Concrete runs -/

instance : ∀ t c, Decidable (Call.SplitsNot t c) := fun t c => by unfold Call.SplitsNot; infer_instance

/-- Ten keys fill the first inode without a split. -/
theorem insertAll_coveredExact_iff_ten : ∃ rets t, insertAll empty (ascending 10 2) = some (rets, t) ∧
    ∀ k, ∀ r ∈ insertAll empty ((ascending 10 2).take k), r.2.CoveredExact := by
  obtain ⟨r, hr⟩ := Option.isSome_iff_exists.mp
    (show (insertAll empty (ascending 10 2)).isSome = true by decide +kernel)
  exact ⟨r.1, r.2, hr,
    (insertAll_coveredExact_iff new_eq_empty (ascending 10 2) (by decide) (by decide) r.1 r.2 hr).mpr
    (by decide +kernel)⟩

/-- The eleventh key splits it: the old inode counts 6 and covers 5, the new one counts 5
and covers 6. -/
theorem insertAll_not_coveredExact : ¬ ∀ cs : List Call, (cs.map Call.key).Nodup → (∀ c ∈ cs, c.Valid) →
    ∀ rets t, insertAll empty cs = some (rets, t) → t.CoveredExact := by
  intro h
  have hcounts : (insertAll empty (ascending 11 2)).bind (fun r => (r.2.mainIndex.levelNodes 0).map
      (List.map fun n => (r.2.covered n, (r.2.mainIndex.inode n).coveredNodes))) =
      some [(some 5, 6), (some 6, 5)] := by
    decide +kernel
  obtain ⟨⟨rets, t⟩, hrun, hlevel⟩ := Option.bind_eq_some_iff.mp hcounts
  obtain ⟨l, hl, hall⟩ := h (ascending 11 2) (by decide) (by decide) rets t hrun
  rw [hl, Option.map_some] at hlevel
  have hmem : (some 5, (6 : ℤ)) ∈ l.map fun n => (t.covered n, (t.mainIndex.inode n).coveredNodes) := by
    rw [Option.some.inj hlevel]
    exact List.mem_cons_self
  obtain ⟨n, hn, he⟩ := List.mem_map.mp hmem
  obtain ⟨hcov, hcount⟩ := Prod.mk.inj he
  have hn' := hall n (List.mem_cons_of_mem _ hn)
  rw [hcov, hcount] at hn'
  exact absurd (Option.some.inj hn') (by decide)

/-! ## The length of a range -/

/-- `2 * (SEARCH_STABLITY_COEFFICIENT + 1)` -/
def walkBound : ℕ := 2 * (searchStabilityCoefficient.toNat + 1)

/-- No level-0 inode has more than `walkBound` vnodes in its range. -/
def WalkBounded (t : TandemIndex) : Prop :=
  ∃ l, t.mainIndex.levelNodes 0 = some l ∧ ∀ n ∈ l, ∃ k ∈ t.covered n, k ≤ walkBound

/-- If the call finds an inode that it does not split, the range of that inode has fewer
than `walkBound` vnodes. -/
def Call.Fits (t : TandemIndex) (c : Call) : Prop :=
  t.vCurrentIdx < vnodeNum → ∀ l ∈ t.mainIndex.lookup c.key, ∀ n ∈ l,
    (t.mainIndex.inode n).coveredNodes < searchStabilityCoefficient → ∀ k ∈ t.covered n, k < walkBound

theorem Indexed.walkBounded_iff (h : Indexed t chains run) :
    t.WalkBounded ↔ ∀ n ∈ chains 0, (run n).length ≤ walkBound := by
  have hlevel := h.shape.toChained.levelNodes_eq (i := 0) (by decide)
  constructor
  · rintro ⟨l, hl, hall⟩ n hn
    rw [hlevel] at hl
    obtain ⟨k, hk, hle⟩ := hall n (Option.some.inj hl ▸ hn)
    rw [h.covered_inode hn] at hk
    exact Option.some.inj hk ▸ hle
  · exact fun hall => ⟨chains 0, hlevel, fun n hn => ⟨_, h.covered_inode hn, hall n hn⟩⟩

theorem Indexed.splitKey_none_iff (h : Indexed t chains run) {c : Call} {n : ℕ} (hkey : c.key ≠ 0)
    (hroom : t.vCurrentIdx < vnodeNum) (hnew : ∀ w ∈ vnodes chains run, (t.vnode w).key ≠ c.key)
    (hlook : t.mainIndex.lookup c.key = some (some n)) (hcov : Shape.Covering t.mainIndex chains 0 c.key n) :
    t.splitKey c.key c.value = none ↔ (t.mainIndex.inode n).coveredNodes < searchStabilityCoefficient := by
  rw [splitKey_eq_rebalanced]
  constructor
  · intro hnone
    by_contra hfull
    obtain ⟨t₂, run₂, w, hreb, hs⟩ := h.splitting hroom hnew hlook hcov (Int.not_lt.mp hfull)
    rw [hreb, Option.bind_some, hs.node] at hnone
    cases hnone
  · intro hlt
    rw [h.rebalanced_none hkey hnew fun _ m hm hfull => ?_]
    · rfl
    · obtain rfl : n = m := Option.some.inj (Option.some.inj (hlook.symm.trans hm))
      exact absurd hlt (Int.not_lt.mpr hfull)

theorem Indexed.fits_iff (h : Indexed t chains run) {c : Call} (hkey : c.key ≠ 0) (hroom : t.vCurrentIdx < vnodeNum)
    (hnew : ∀ w ∈ vnodes chains run, (t.vnode w).key ≠ c.key) :
    c.Fits t ↔ (t.splitKey c.key c.value = none → ∀ n, t.mainIndex.lookup c.key = some (some n) →
      (run n).length < walkBound) := by
  rcases h.shape.lookup_found (Nat.pos_of_ne_zero hkey) with ⟨hlook, -⟩ | ⟨n, hlook, hcov⟩
  · refine iff_of_true (fun _ l hl n hn => ?_) fun _ n hn => ?_
    · obtain rfl : none = l := Option.some.inj (hlook.symm.trans hl)
      cases hn
    · cases hlook.symm.trans hn
  · have hiff := h.splitKey_none_iff hkey hroom hnew hlook hcov
    constructor
    · intro hfits hnone m hm
      obtain rfl : n = m := Option.some.inj (Option.some.inj (hlook.symm.trans hm))
      exact hfits hroom _ hlook n rfl (hiff.mp hnone) _ (h.covered_inode hcov.mem)
    · intro hlen _ l hl m hm hlt k hk
      obtain rfl : some n = l := Option.some.inj (hlook.symm.trans hl)
      obtain rfl : n = m := Option.some.inj hm
      rw [h.covered_inode hcov.mem] at hk
      exact Option.some.inj hk ▸ hlen (hiff.mpr hlt) n hlook

/-- The ranges stay within the bound in every state of a run of distinct keys, all of whose
calls are within, if and only if every call fits. -/
theorem insertAll_walkBounded_iff {t₀ : TandemIndex} (hnew : TandemIndex.new = some t₀) (cs : List Call)
    (hnd : (cs.map Call.key).Nodup) (hvalid : ∀ c ∈ cs, c.Valid) (hwithin : Along Call.Within t₀ cs)
    (rets : List Bool) (t : TandemIndex) (hrun : insertAll t₀ cs = some (rets, t)) :
    (∀ k, ∀ r ∈ insertAll t₀ (cs.take k), r.2.WalkBounded) ↔ Along Call.Fits t₀ cs := by
  have hready := new_ready hnew hnd hvalid hwithin
  refine forall_take_iff_along (I := fun t cs => ∃ chains run, Ready t chains run cs) ?_ ⟨_, _, hready⟩
    (hready.indexed.walkBounded_iff.mpr fun _ hn => absurd hn List.not_mem_nil) hrun
  rintro t c cs r ⟨chains, run, h⟩ hbound hr
  obtain ⟨chains', run', h', -, ⟨hroom, hkeeps⟩ | ⟨hroom, rfl, rfl⟩⟩ := h.step hr
  · refine ⟨?_, fun _ => ⟨chains', run', h'⟩⟩
    rw [h'.indexed.walkBounded_iff, hkeeps walkBound (by decide) (h.indexed.walkBounded_iff.mp hbound),
      h.indexed.fits_iff (h.valid c List.mem_cons_self).1 hroom fun w hw => h.new w hw c List.mem_cons_self]
  · refine ⟨iff_of_true ?_ fun hlt => absurd hlt hroom, fun _ => ⟨chains', run', h'⟩⟩
    exact h'.indexed.walkBounded_iff.mpr (h.indexed.walkBounded_iff.mp hbound)

instance (t : TandemIndex) (c : Call) : Decidable (c.Fits t) := by unfold Call.Fits; infer_instance

theorem insertAll_walkBounded_iff_eleven : ∃ rets t, insertAll empty (ascending 11 2) = some (rets, t) ∧
    ∀ k, ∀ r ∈ insertAll empty ((ascending 11 2).take k), r.2.WalkBounded := by
  obtain ⟨r, hr⟩ := Option.isSome_iff_exists.mp
    (show (insertAll empty (ascending 11 2)).isSome = true by decide +kernel)
  exact ⟨r.1, r.2, hr, (insertAll_walkBounded_iff new_eq_empty (ascending 11 2) (by decide) (by decide)
    (by decide +kernel) r.1 r.2 hr).mpr (by decide +kernel)⟩

/-- Ascending keys split the last inode fourteen times; it counts 10 and covers 24. -/
theorem insertAll_not_walkBounded : ¬ ∀ cs : List Call, (cs.map Call.key).Nodup → (∀ c ∈ cs, c.Valid) →
    ∀ rets t, insertAll empty cs = some (rets, t) → t.WalkBounded := by
  intro h
  have hcounts : (insertAll empty (ascending 94 1)).bind (fun r => (r.2.mainIndex.levelNodes 0).map
      (List.map fun n => r.2.covered n)) = some (List.replicate 14 (some 5) ++ [some 24]) := by decide +kernel
  obtain ⟨⟨rets, t⟩, hrun, hlevel⟩ := Option.bind_eq_some_iff.mp hcounts
  obtain ⟨l, hl, hall⟩ := h (ascending 94 1) (by decide) (by decide) rets t hrun
  rw [hl, Option.map_some] at hlevel
  have hmem : some 24 ∈ l.map fun n => t.covered n := by
    rw [Option.some.inj hlevel]
    exact List.mem_append_right _ List.mem_cons_self
  obtain ⟨n, hn, he⟩ := List.mem_map.mp hmem
  obtain ⟨k, hk, hle⟩ := hall n hn
  rw [he] at hk
  exact absurd (Option.some.inj hk ▸ hle) (by decide)

end TandemIndex

end Hkv.Tandem
