import Hkv.TandemAnchors

/-!
# Answers after runs with repeated keys

What `TandemIndex::lookup` answers for keys that were never inserted, and what it and
`ValueList::lookup` answer for keys that were inserted more than once. The first of them
begins at an anchor and takes the first copy from there on, the second takes the last copy
of the chain; a new copy goes before all others, or right behind an anchor.
-/
namespace Hkv.Tandem
open LinkedChain DramSkiplist

namespace TandemIndex
open Shape

variable {t t' : TandemIndex} {chains : ℕ → List ℕ} {l : List ℕ} {key value newlevel : ℕ}

/-! ## Runs -/

/-- If the call splits an inode, the split does not go behind the last inode of the top level. -/
def Call.SplitsWithinTop (t : TandemIndex) (c : Call) : Prop :=
  ∀ k ∈ t.splitKey c.key c.value, FitsTop t.mainIndex k c.newlevel

theorem insertedPairs_append {cs ds : List Call} {rets rets' : List Bool} (hlen : rets.length = cs.length) :
    insertedPairs (cs ++ ds) (rets ++ rets') = insertedPairs cs rets ++ insertedPairs ds rets' := by
  rw [insertedPairs, List.zip_append hlen.symm, List.filterMap_append]
  rfl

theorem insertedPairs_singleton (c : Call) (ret : Bool) :
    insertedPairs [c] [ret] = if ret then [(c.key, c.value)] else [] := by
  cases ret <;> rfl

theorem Added.pairs_perm {chains' : ℕ → List ℕ} {l' : List ℕ} (h : Added t t' chains chains' l l' key value) :
    (l'.map t'.pair).Perm ((key, value) :: l.map t.pair) := by
  refine (h.perm.map t'.pair).trans ?_
  rw [List.map_cons, h.new_pair, List.map_congr_left h.old_pair]

theorem new_anchored (hnew : TandemIndex.new = some t) : Anchored t (fun _ => []) [] := by
  have h := new_indexed hnew
  have hlt : ∀ v ∈ [t.head], v < t.vCurrentIdx := h.lt
  have hkey : (t.vnode t.head).key = 0 := by
    simp only [TandemIndex.new, Option.bind_eq_bind, Option.bind_eq_some_iff] at hnew
    obtain ⟨s, -, ⟨v, t₁⟩, -, hdone⟩ := hnew
    cases hdone
    simp [modifyVnode]
  exact ⟨⟨⟨h.shape.toLevels, fun _ _ _ hn => absurd hn List.not_mem_nil, h.tails,
    ⟨⟨h.used, hlt, List.nodup_singleton _, h.chain⟩, hkey, List.Pairwise.nil⟩,
    fun n hn => absurd hn List.not_mem_nil⟩, fun v hv => absurd hv List.not_mem_nil⟩,
    fun v hv => absurd hv List.not_mem_nil⟩

/-- After a run of valid calls whose splits stay within the top level, the chain holds just
the inserted pairs. -/
theorem Anchored.insertAll (h : Anchored t chains l) {cs : List Call} (hvalid : ∀ c ∈ cs, c.Valid)
    (hwithin : Along Call.SplitsWithinTop t cs) {rets : List Bool} (hrun : insertAll t cs = some (rets, t')) :
    ∃ chains' l', Anchored t' chains' l' ∧ (l'.map t'.pair).Perm (l.map t.pair ++ insertedPairs cs rets) ∧
      (Along Call.HasRoom t cs → rets = List.replicate cs.length true) := by
  induction cs generalizing t chains l rets with
  | nil =>
    cases hrun
    exact ⟨chains, l, h, by simp [insertedPairs], fun _ => rfl⟩
  | cons c cs ih =>
    obtain ⟨⟨ret, t₁⟩, ⟨rets', t₂⟩, hc, hrest, hrun⟩ := insertAll_cons_eq_some.mp hrun
    cases hrun
    obtain ⟨hkey, hpos, hle⟩ := hvalid c List.mem_cons_self
    have hvalid' : ∀ d ∈ cs, d.Valid := fun d hd => hvalid d (List.mem_cons_of_mem _ hd)
    have hfits := hwithin.1
    have hwithin' : Along Call.SplitsWithinTop t₁ cs := hwithin.2 _ hc
    rcases h.insert (Nat.pos_of_ne_zero hkey) hpos hle hfits hc with ⟨hfull, rfl, rfl⟩ |
      ⟨rfl, chains₁, l₁, h₁, hadd⟩
    · obtain ⟨chains', l', h', hperm, -⟩ := ih h hvalid' hwithin' hrest
      exact ⟨chains', l', h', by simpa [insertedPairs] using hperm, fun hroom => absurd hroom.1.1 hfull⟩
    · obtain ⟨chains', l', h', hperm, htrue⟩ := ih h₁ hvalid' hwithin' hrest
      refine ⟨chains', l', h', hperm.trans ?_, fun hroom => congrArg (true :: ·) (htrue (hroom.2 _ hc))⟩
      have hstep : insertedPairs (c :: cs) (true :: rets') = (c.key, c.value) :: insertedPairs cs rets' := rfl
      rw [hstep]
      exact (hadd.pairs_perm.append_right _).trans List.perm_middle.symm

section Run
variable {t₀ : TandemIndex} {cs : List Call} {rets : List Bool}

theorem insertAll_anchored (hnew : TandemIndex.new = some t₀) (hvalid : ∀ c ∈ cs, c.Valid)
    (hwithin : Along Call.SplitsWithinTop t₀ cs) (hrun : insertAll t₀ cs = some (rets, t)) :
    ∃ chains l, Anchored t chains l ∧ (l.map t.pair).Perm (insertedPairs cs rets) := by
  obtain ⟨chains, l, h, hperm, -⟩ := (new_anchored hnew).insertAll hvalid hwithin hrun
  exact ⟨chains, l, h, by simpa using hperm⟩

theorem insertedPairs_replicate (cs : List Call) :
    insertedPairs cs (List.replicate cs.length true) = cs.map fun c => (c.key, c.value) := by
  induction cs with
  | nil => rfl
  | cons c cs ih => exact congrArg ((c.key, c.value) :: ·) ih

theorem insertAll_anchored_of_room (hnew : TandemIndex.new = some t₀) (hvalid : ∀ c ∈ cs, c.Valid)
    (hroom : Along Call.HasRoom t₀ cs) (hwithin : Along Call.SplitsWithinTop t₀ cs)
    (hrun : insertAll t₀ cs = some (rets, t)) :
    ∃ chains l, Anchored t chains l ∧ (l.map t.pair).Perm (cs.map fun c => (c.key, c.value)) := by
  obtain ⟨chains, l, h, hperm, htrue⟩ := (new_anchored hnew).insertAll hvalid hwithin hrun
  rw [htrue hroom, insertedPairs_replicate] at hperm
  exact ⟨chains, l, h, by simpa using hperm⟩

end Run

/-! ## Absent keys -/

theorem lookup_zero (h : Levels t.mainIndex chains) : t.mainIndex.lookup 0 = some none := by
  have hlevel : t.mainIndex.level - 1 < maxLevel := by
    have hpos := h.level_pos
    have hle := h.level_le
    omega
  obtain ⟨-, hrun, rfl⟩ := h.toChained.descend_zero hlevel
  simp [DramSkiplist.lookup, hrun, h.header_min 0 (by decide)]

/-- For a key that is not on the chain, the search finds its place, or the end of the chain. -/
theorem Anchored.lookup_absent_iff (h : Anchored t chains l) (habsent : ∀ v ∈ l, (t.vnode v).key ≠ key) :
    t.lookup key = some notFound ↔ l = [] ∨ ∃ v ∈ l, key < (t.vnode v).key := by
  rcases Nat.eq_zero_or_pos key with rfl | hkey
  · refine iff_of_true (by simp [lookup, lookup_zero h.levels]) ?_
    cases l with
    | nil => exact .inl rfl
    | cons v l => exact .inr ⟨v, List.mem_cons_self, h.key_pos v List.mem_cons_self⟩
  rcases h.lookup_eq hkey with ⟨hlook, hlow⟩ | ⟨n, hn, d, a, b, -, hsplit, hle, hlook⟩
  · refine iff_of_true hlook ?_
    cases l with
    | nil => exact .inl rfl
    | cons v l => exact .inr ⟨v, List.mem_cons_self, hlow v List.mem_cons_self⟩
  rw [hlook]
  cases hfind : (d :: b).find? fun v => decide (key ≤ (t.vnode v).key) with
  | some v =>
    have hv : v ∈ l := by
      rw [hsplit]
      exact List.mem_append_right _ (List.mem_of_find?_eq_some hfind)
    have hkv : key ≤ (t.vnode v).key := by simpa using List.find?_some hfind
    refine iff_of_true (by simp [habsent v hv]) (.inr ⟨v, hv, Nat.lt_of_le_of_ne hkv (habsent v hv).symm⟩)
  | none =>
    -- nothing from `d` on reaches the key, and nothing before `d` does
    refine iff_of_false (by simp) ?_
    have hbeyond : ∀ v ∈ d :: b, (t.vnode v).key < key := fun v hv => by
      simpa using List.find?_eq_none.mp hfind v hv
    rintro (rfl | ⟨v, hv, hlt⟩)
    · exact absurd hsplit.symm (by simp)
    · rw [hsplit] at hv
      rcases List.mem_append.mp hv with hv | hv
      · have hsorted := h.values.sorted
        rw [hsplit] at hsorted
        have hd : (t.vnode v).key ≤ (t.vnode d).key := (List.pairwise_append.mp hsorted).2.2 v hv d (by simp)
        omega
      · exact Nat.lt_asymm hlt (hbeyond v hv)

/-- In a run whose splits stay within the top level, `lookup` of a key that was never
inserted returns -1 if and only if nothing was inserted or a larger key was. -/
theorem insertAll_lookup_absent_iff {t₀ : TandemIndex} (hnew : TandemIndex.new = some t₀) (cs : List Call)
    (hvalid : ∀ c ∈ cs, c.Valid) (hwithin : Along Call.SplitsWithinTop t₀ cs) (rets : List Bool)
    (t : TandemIndex) (hrun : insertAll t₀ cs = some (rets, t)) (key : ℕ)
    (habsent : key ∉ (insertedPairs cs rets).map Prod.fst) :
    t.lookup key = some notFound ↔ insertedPairs cs rets = [] ∨ ∃ p ∈ insertedPairs cs rets, key < p.1 := by
  obtain ⟨chains, l, h, hperm⟩ := insertAll_anchored hnew hvalid hwithin hrun
  have hmem : ∀ v ∈ l, t.pair v ∈ insertedPairs cs rets := fun v hv => hperm.mem_iff.mp (List.mem_map_of_mem hv)
  rw [h.lookup_absent_iff fun v hv he => habsent (List.mem_map.mpr ⟨_, hmem v hv, he⟩)]
  refine or_congr ?_ ⟨fun ⟨v, hv, hlt⟩ => ⟨_, hmem v hv, hlt⟩, fun ⟨p, hp, hlt⟩ => ?_⟩
  · rw [← List.length_eq_zero_iff, ← List.length_eq_zero_iff, ← hperm.length_eq, List.length_map]
  · obtain ⟨v, hv, rfl⟩ := List.mem_map.mp (hperm.mem_iff.mpr hp)
    exact ⟨v, hv, hlt⟩

instance (s : DramSkiplist) (key newlevel : ℕ) : Decidable (FitsTop s key newlevel) := by
  unfold FitsTop; infer_instance
instance (t : TandemIndex) (c : Call) : Decidable (c.SplitsWithinTop t) := by
  unfold Call.SplitsWithinTop; infer_instance

/-- Key 7 lies between two inserted ones. -/
theorem insertAll_lookup_absent_iff_between : ∃ rets t,
    insertAll empty [⟨9, 2, 1⟩, ⟨5, 1, 1⟩] = some (rets, t) ∧ t.lookup 7 = some notFound := by
  obtain ⟨⟨rets, t⟩, hr, hrets⟩ : ∃ r, insertAll empty [⟨9, 2, 1⟩, ⟨5, 1, 1⟩] = some r ∧
    r.1 = [true, true] := by
    have hview : (insertAll empty [⟨9, 2, 1⟩, ⟨5, 1, 1⟩]).map Prod.fst = some [true, true] := by
      decide +kernel
    exact Option.map_eq_some_iff.mp hview
  obtain rfl : rets = [true, true] := hrets
  exact ⟨_, t, hr,
    (insertAll_lookup_absent_iff new_eq_empty [⟨9, 2, 1⟩, ⟨5, 1, 1⟩] (by decide) (by decide +kernel) _ t
    hr 7 (by decide)).mpr (.inr ⟨(9, 2), by decide, by decide⟩)⟩

/-- Behind the last key the loop of `lookup` ends without a return. -/
theorem insertAll_lookup_beyond : ¬ ∀ cs : List Call, (∀ c ∈ cs, c.Valid) → ∀ rets t,
    insertAll empty cs = some (rets, t) → ∀ key ∉ (insertedPairs cs rets).map Prod.fst,
      t.lookup key = some notFound := by
  intro h
  have hview : (insertAll empty [⟨5, 1, 1⟩]).map (fun r => (r.1, r.2.lookup 6)) = some ([true], none) := by
    decide +kernel
  obtain ⟨⟨rets, t⟩, hr, hview⟩ := Option.map_eq_some_iff.mp hview
  obtain ⟨rfl, hnone⟩ := Prod.mk.inj hview
  have hsix := h [⟨5, 1, 1⟩] (by decide) [true] t hr 6 (by decide)
  cases hnone.symm.trans hsix

/-! ## Repeated keys -/

/-- The value of the most recent pair with the key. -/
def latest (log : List (ℕ × ℕ)) (key : ℕ) : Option ℕ := (log.reverse.find? fun p => p.1 = key).map Prod.snd

theorem latest_concat (log : List (ℕ × ℕ)) (key value : ℕ) :
    latest (log ++ [(key, value)]) key = some value := by
  simp [latest]

theorem mem_of_latest {log : List (ℕ × ℕ)} (h : latest log key = some value) : (key, value) ∈ log := by
  obtain ⟨⟨k, v⟩, hfind, rfl⟩ := Option.map_eq_some_iff.mp h
  obtain rfl : k = key := by simpa using List.find?_some hfind
  exact List.mem_reverse.mp (List.mem_of_find?_eq_some hfind)

/-- Both lookups answer with the value of the most recent insert. -/
def Agree (t : TandemIndex) (log : List (ℕ × ℕ)) : Prop :=
  ∀ key, ∀ value ∈ latest log key, t.lookup key = some value ∧ t.valueList.lookup key = some (value : ℤ)

/-- Every insert of a key has the same value. -/
def Consistent (log : List (ℕ × ℕ)) : Prop := ∀ p ∈ log, ∀ q ∈ log, p.1 = q.1 → p.2 = q.2

theorem Consistent.concat {log : List (ℕ × ℕ)} (h : Consistent log)
    (hsame : ∀ p ∈ log, p.1 = key → p.2 = value) : Consistent (log ++ [(key, value)]) := by
  intro p hp q hq heq
  rcases List.mem_append.mp hp with hp | hp <;> rcases List.mem_append.mp hq with hq | hq
  · exact h p hp q hq heq
  · obtain rfl := List.mem_singleton.mp hq
    exact hsame p hp heq
  · obtain rfl := List.mem_singleton.mp hp
    exact (hsame q hq heq.symm).symm
  · rw [List.mem_singleton.mp hp, List.mem_singleton.mp hq]

/-- A search that begins at a node that does not lie beyond the key finds the first copy from
there on. -/
theorem Pinned.lookup_copy {n d v : ℕ} {a b : List ℕ} (h : Pinned t chains l)
    (hlook : t.mainIndex.lookup (t.vnode v).key = some (some n)) (hdown : (t.mainIndex.inode n).down = (d : ℤ))
    (hsplit : l = a ++ d :: b) (hle : (t.vnode d).key ≤ (t.vnode v).key) (hv : v ∈ l) :
    ∃ w, ((d :: b).find? fun x => (t.vnode v).key ≤ (t.vnode x).key) = some w ∧
    (t.vnode w).key = (t.vnode v).key ∧
      t.lookup (t.vnode v).key = some (t.vnode w).value := by
  have hsorted := h.values.sorted
  rw [hsplit] at hsorted
  obtain ⟨-, hsorted, hcross⟩ := List.pairwise_append.mp hsorted
  -- a copy at the anchor or behind it
  obtain ⟨c, hc, hkey⟩ : ∃ c ∈ d :: b, (t.vnode c).key = (t.vnode v).key := by
    rw [hsplit] at hv
    rcases List.mem_append.mp hv with hv | hv
    · exact ⟨d, List.mem_cons_self, Nat.le_antisymm hle (hcross v hv d List.mem_cons_self)⟩
    · exact ⟨v, hv, rfl⟩
  obtain ⟨w, hw⟩ : ∃ w, ((d :: b).find? fun x => decide ((t.vnode v).key ≤ (t.vnode x).key)) = some w :=
    Option.isSome_iff_exists.mp (List.find?_isSome.mpr ⟨c, hc, by simp [hkey]⟩)
  have hwkey : (t.vnode w).key = (t.vnode v).key := by
    obtain ⟨hge, as, bs, hcut, has⟩ := List.find?_eq_some_iff_append.mp hw
    refine Nat.le_antisymm ?_ (by simpa using hge)
    rw [hcut] at hc hsorted
    rcases List.mem_append.mp hc with hc | hc
    · have hlt := has c hc
      simp [hkey] at hlt
    · rcases List.mem_cons.mp hc with rfl | hc
      · exact Nat.le_of_eq hkey
      · exact hkey ▸ (List.pairwise_cons.mp (List.pairwise_append.mp hsorted).2.1).1 c hc
  refine ⟨w, hw, hwkey, ?_⟩
  rw [h.lookup_eq hlook hdown hsplit, hw, Option.map_some, if_pos hwkey]

theorem Anchored.lookup_present (h : Anchored t chains l) {v : ℕ} (hv : v ∈ l) :
    ∃ n ∈ chains 0, ∃ d : ℕ, ∃ a b w, (t.mainIndex.inode n).down = (d : ℤ) ∧ l = a ++ d :: b ∧
      ((d :: b).find? fun x => (t.vnode v).key ≤ (t.vnode x).key) = some w ∧ (t.vnode w).key = (t.vnode v).key ∧
      t.lookup (t.vnode v).key = some (t.vnode w).value := by
  rcases h.lookup_cases (h.key_pos v hv) with ⟨-, hlow⟩ | ⟨n, d, a, b, hlook, hn, hdown, hsplit, hle⟩
  · exact absurd (hlow v hv) (Nat.lt_irrefl _)
  · obtain ⟨w, hfind, hkey, hfound⟩ := h.toPinned.lookup_copy hlook hdown hsplit hle hv
    exact ⟨n, hn, d, a, b, w, hdown, hsplit, hfind, hkey, hfound⟩

theorem Anchored.agree {log : List (ℕ × ℕ)} (h : Anchored t chains l) (hperm : (l.map t.pair).Perm log)
    (hcons : Consistent log) (hsmall : ∀ p ∈ log, p.2 < 2 ^ 31) : Agree t log := by
  intro key value hlatest
  have hlog := mem_of_latest hlatest
  obtain ⟨v, hv, hpair⟩ := List.mem_map.mp (hperm.mem_iff.mpr hlog)
  obtain ⟨rfl, -⟩ := Prod.mk.inj hpair
  have hsame : ∀ w ∈ l, (t.vnode w).key = (t.vnode v).key → (t.vnode w).value = value := fun w hw hkey =>
    hcons (t.pair w) (hperm.mem_iff.mp (List.mem_map_of_mem hw)) _ hlog hkey
  obtain ⟨-, -, d, a, b, w, -, hsplit, hfind, hkey, hlook⟩ := h.lookup_present hv
  obtain ⟨a', w', b', hsplit', hkey', -, hlook'⟩ := h.values.lookup_present hv
  constructor
  · rw [hlook, hsame w (by rw [hsplit]; exact List.mem_append_right _ (List.mem_of_find?_eq_some hfind)) hkey]
  · have hvalue : (t.valueList.vnode w').value = value := hsame w' (by simp [hsplit']) hkey'
    rw [hvalue, toInt_of_lt (hsmall _ hlog)] at hlook'
    exact hlook'

/-- If both lookups find the value of a new copy, an old copy has the same value: the plain
lookup does not find the new copy if it is the first one, and the index does not find it if
it lies behind another. -/
theorem Anchored.old_copy {chains' : ℕ → List ℕ} {l' : List ℕ} (h' : Anchored t' chains' l')
    (hadd : Added t t' chains chains' l l' key value)
    (hsmall : ∀ w ∈ l, (t.vnode w).value < 2 ^ 31) {u : ℕ} (hu : u ∈ l) (hkey : (t.vnode u).key = key)
    (hindex : t'.lookup key = some value) (hplain : t'.valueList.lookup key = some (value : ℤ)) :
    ∃ w ∈ l, t.pair w = (key, value) := by
  have hu' : u ∈ l' := hadd.perm.mem_iff.mpr (List.mem_cons_of_mem _ hu)
  have hkey' : (t'.vnode u).key = key := (congrArg Prod.fst (hadd.old_pair u hu)).trans hkey
  have hnd : l'.Nodup := (List.nodup_cons.mp h'.values.nodup).2
  have hold : ∀ w ∈ l', w ≠ t.vCurrentIdx → w ∈ l := fun w hw hne =>
    (List.mem_cons.mp (hadd.perm.mem_iff.mp hw)).resolve_left hne
  have hdone : ∀ w ∈ l', w ≠ t.vCurrentIdx → (t'.vnode w).key = key → (t'.vnode w).value = value →
      ∃ w ∈ l, t.pair w = (key, value) := fun w hw hne hk hv =>
    ⟨w, hold w hw hne, (hadd.old_pair w (hold w hw hne)).symm.trans (Prod.ext hk hv)⟩
  obtain ⟨a, b, hl, hl', hfirst | ⟨⟨a', d, rfl, hd⟩, hanchor⟩⟩ := hadd.place
  · -- the last copy is an old one
    obtain ⟨a₂, w, b₂, hsplit, hw, hb₂, hlook⟩ := h'.values.lookup_present hu'
    have hwl : w ∈ l' := by simp [hsplit]
    have hne : w ≠ t.vCurrentIdx := by
      rintro rfl
      have hub : u ∈ b := by
        rw [hl] at hu
        exact (List.mem_append.mp hu).resolve_left fun hm => Nat.lt_irrefl _ (hkey ▸ hfirst u hm)
      obtain ⟨-, rfl⟩ := split_unique (hsplit ▸ hnd) (hsplit.symm.trans hl')
      exact Nat.lt_irrefl _ (hb₂ u hub)
    refine hdone w hwl hne (hw.trans hkey') ?_
    have hpair : (t'.vnode w).value = (t.vnode w).value := congrArg Prod.snd (hadd.old_pair w (hold w hwl hne))
    have hsmall' : (t'.vnode w).value < 2 ^ 31 := hpair ▸ hsmall w (hold w hwl hne)
    rw [show (t'.valueList.vnode u).key = key from hkey', hplain] at hlook
    have htoInt : (value : ℤ) = toInt (t'.vnode w).value := Option.some.inj hlook
    rw [toInt_of_lt hsmall'] at htoInt
    omega
  · -- the copy before the new one is found first
    obtain ⟨n, hn, d', a₂, b₂, w, hdown, hsplit, hfind, hw, hlook⟩ := h'.lookup_present hu'
    have hwl : w ∈ l' := by
      rw [hsplit]
      exact List.mem_append_right _ (List.mem_of_find?_eq_some hfind)
    have hne : w ≠ t.vCurrentIdx := by
      rintro rfl
      obtain ⟨-, as, bs, hcut, has⟩ := List.find?_eq_some_iff_append.mp hfind
      rcases List.eq_nil_or_concat' as with rfl | ⟨as', y, rfl⟩
      · obtain rfl : d' = t.vCurrentIdx := (List.cons.inj hcut).1
        exact hanchor n hn hdown
      · have hcut' : l' = (a₂ ++ as' ++ [y]) ++ t.vCurrentIdx :: bs := by
          rw [hsplit, hcut]
          simp
        obtain ⟨hfront, -⟩ := split_unique (hcut' ▸ hnd) (hcut'.symm.trans hl')
        obtain rfl : y = d := List.singleton_inj.mp (List.append_inj' hfront rfl).2
        have hlt := has y (by simp)
        have hy : (t'.vnode y).key = key := (congrArg Prod.fst (hadd.old_pair y (by simp [hl]))).trans hd
        simp [hy, hkey'] at hlt
    rw [hkey', hindex] at hlook
    exact hdone w hwl hne (hw.trans hkey') (Option.some.inj hlook).symm

theorem mem_insertedPairs {cs : List Call} {rets : List Bool} {p : ℕ × ℕ} (h : p ∈ insertedPairs cs rets) :
    ∃ c ∈ cs, p = (c.key, c.value) := by
  obtain ⟨⟨c, ret⟩, hm, hp⟩ := List.mem_filterMap.mp h
  refine ⟨c, (List.of_mem_zip hm).1, ?_⟩
  cases ret with
  | false => simp at hp
  | true => exact (by simpa using hp : (c.key, c.value) = p).symm

section Run
variable {t₀ : TandemIndex} {cs : List Call} {rets : List Bool}

theorem consistent_of_agree (hnew : TandemIndex.new = some t₀) (hvalid : ∀ c ∈ cs, c.Valid)
    (hsmall : ∀ c ∈ cs, c.value < 2 ^ 31) (hwithin : Along Call.SplitsWithinTop t₀ cs)
    (hrun : insertAll t₀ cs = some (rets, t))
    (hall : ∀ ds, ds <+: cs → ∀ r ∈ insertAll t₀ ds, Agree r.2 (insertedPairs ds r.1)) :
    Consistent (insertedPairs cs rets) := by
  induction cs using List.reverseRecOn generalizing rets t with
  | nil =>
    intro p hp
    exact absurd hp List.not_mem_nil
  | append_singleton cs c ih =>
    have hfull := hall _ (List.prefix_refl _) _ hrun
    obtain ⟨⟨rets₁, t₁⟩, ⟨rets₂, t₂⟩, hfront, hlast, hdone⟩ := insertAll_append_eq_some.mp hrun
    cases hdone
    obtain ⟨⟨ret, t₂⟩, rest, hc, hnil, hend⟩ := insertAll_cons_eq_some.mp hlast
    cases hnil
    cases hend
    have hvalid₁ : ∀ d ∈ cs, d.Valid := fun d hd => hvalid d (List.mem_append_left _ hd)
    have hsmall₁ : ∀ d ∈ cs, d.value < 2 ^ 31 := fun d hd => hsmall d (List.mem_append_left _ hd)
    obtain ⟨hwithin₁, hstep⟩ := along_append.mp hwithin
    have hcons : Consistent (insertedPairs cs rets₁) := ih hvalid₁ hsmall₁ hwithin₁ hfront fun ds hds =>
      hall ds (hds.trans (List.prefix_append _ _))
    obtain ⟨chains, l, h, hperm⟩ := insertAll_anchored hnew hvalid₁ hwithin₁ hfront
    obtain ⟨hkey, hpos, hle⟩ := hvalid c (by simp)
    simp only [insertedPairs_append (insertAll_length hfront), insertedPairs_singleton] at hfull ⊢
    rcases h.insert (Nat.pos_of_ne_zero hkey) hpos hle (hstep _ hfront).1 hc with
      ⟨-, rfl, -⟩ | ⟨rfl, chains', l', h', hadd⟩
    · simpa using hcons
    · obtain ⟨hindex, hplain⟩ := hfull c.key c.value (latest_concat _ _ _)
      refine hcons.concat fun p hp heq => ?_
      obtain ⟨u, hu, rfl⟩ := List.mem_map.mp (hperm.mem_iff.mpr hp)
      have hvalues : ∀ w ∈ l, (t₁.vnode w).value < 2 ^ 31 := fun w hw => by
        obtain ⟨d, hd, he⟩ := mem_insertedPairs (hperm.mem_iff.mp (List.mem_map_of_mem hw))
        have hvalue : (t₁.vnode w).value = d.value := congrArg Prod.snd he
        exact hvalue ▸ hsmall₁ d hd
      obtain ⟨w, hw, hpair⟩ := h'.old_copy hadd hvalues hu heq hindex hplain
      exact hcons _ hp _ (hpair ▸ hperm.mem_iff.mp (List.mem_map_of_mem hw)) heq

end Run

/-- In a run whose splits stay within the top level, both lookups find the value of the most
recent insert in every state if and only if every insert of a key had the same value. -/
theorem insertAll_agree_iff {t₀ : TandemIndex} (hnew : TandemIndex.new = some t₀) (cs : List Call)
    (hvalid : ∀ c ∈ cs, c.Valid) (hsmall : ∀ c ∈ cs, c.value < 2 ^ 31)
    (hwithin : Along Call.SplitsWithinTop t₀ cs) (rets : List Bool) (t : TandemIndex)
    (hrun : insertAll t₀ cs = some (rets, t)) :
    (∀ ds, ds <+: cs → ∀ r ∈ insertAll t₀ ds, Agree r.2 (insertedPairs ds r.1)) ↔
      Consistent (insertedPairs cs rets) := by
  refine ⟨consistent_of_agree hnew hvalid hsmall hwithin hrun, ?_⟩
  rintro hcons ds ⟨es, rfl⟩ ⟨rets₁, t₁⟩ hfront
  obtain ⟨r, ⟨rets₂, t₂⟩, hfront', -, hdone⟩ := insertAll_append_eq_some.mp hrun
  cases hfront.symm.trans hfront'
  cases hdone
  rw [insertedPairs_append (insertAll_length hfront)] at hcons
  obtain ⟨chains, l, h, hperm⟩ := insertAll_anchored hnew (fun d hd => hvalid d (List.mem_append_left _ hd))
    (along_append.mp hwithin).1 hfront
  refine h.agree hperm (fun p hp q hq => hcons p (List.mem_append_left _ hp) q (List.mem_append_left _ hq))
    fun p hp => ?_
  obtain ⟨d, hd, rfl⟩ := mem_insertedPairs hp
  exact hsmall d (List.mem_append_left _ hd)

/-- Key 5 twice, with one value. -/
theorem insertAll_agree_iff_twice : ∃ rets t, insertAll empty [⟨5, 1, 1⟩, ⟨5, 1, 1⟩] = some (rets, t) ∧
    Agree t (insertedPairs [⟨5, 1, 1⟩, ⟨5, 1, 1⟩] rets) := by
  have hview : (insertAll empty [⟨5, 1, 1⟩, ⟨5, 1, 1⟩]).map Prod.fst = some [true, true] := by decide +kernel
  obtain ⟨⟨rets, t⟩, hr, hrets⟩ := Option.map_eq_some_iff.mp hview
  obtain rfl : rets = [true, true] := hrets
  refine ⟨_, t, hr,
    (insertAll_agree_iff new_eq_empty [⟨5, 1, 1⟩, ⟨5, 1, 1⟩] (by decide) (by decide) (by decide +kernel) _ t
    hr).mpr ?_ _ (List.prefix_refl _) _ hr⟩
  unfold Consistent
  decide

/-- Key 5 with value 1 and then with value 2: the index still finds the first one. -/
theorem insertAll_not_agree : ¬ ∀ cs : List Call, (∀ c ∈ cs, c.Valid) → (∀ c ∈ cs, c.value < 2 ^ 31) →
    ∀ rets t, insertAll empty cs = some (rets, t) → Agree t (insertedPairs cs rets) := by
  intro h
  have hview : (insertAll empty [⟨5, 1, 1⟩, ⟨5, 2, 1⟩]).map
    (fun r => (r.1, r.2.lookup 5, r.2.valueList.lookup 5)) =
      some ([true, true], some 1, some 2) := by decide +kernel
  obtain ⟨⟨rets, t⟩, hr, hview⟩ := Option.map_eq_some_iff.mp hview
  obtain ⟨rfl, hview⟩ := Prod.mk.inj hview
  obtain ⟨hindex, -⟩ := Prod.mk.inj hview
  have hagree := h [⟨5, 1, 1⟩, ⟨5, 2, 1⟩] (by decide) (by decide) _ t hr 5 2 (by decide)
  cases hindex.symm.trans hagree.1

end TandemIndex

end Hkv.Tandem
