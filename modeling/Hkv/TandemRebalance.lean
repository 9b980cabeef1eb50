import Hkv.TandemRun

/-!
# Which inode a rebalance splits

An insert finds the inode of its key by `lookup`, walks from there to the split node, and
`insertWhenRebalance` looks for the inode again, by another search. The two agree as long
as the first inode of the highest level in use does not begin beyond the inserted key:
only there can the second search step over the inode that it looks for. In a run of such
calls every insert returns true, and every inserted key is found with its value.
-/
namespace Hkv.Tandem
open LinkedChain DramSkiplist

namespace TandemIndex
open Shape

/-- The inode that an insert splits, and the index when it starts to: the new vnode is in
its place and counted. -/
def rebalanced (t : TandemIndex) (key value : ℕ) : Option (ℕ × TandemIndex) := do
  let (v, t) ← t.getNextVnode
  let (inode, t) ← (t.setVnode v key value).place key v
  let inode ← inode
  let (full, s) := t.mainIndex.increaseCoveredNodesAndVerifyRebalance inode
  if full then some (inode, { t with mainIndex := s }) else none

/-- The level-0 inode behind `n`, if `n` is not the last one. -/
def nextInode (t : TandemIndex) (n : ℕ) : Option ℕ :=
  if (t.mainIndex.inode n).next = t.mainIndex.tail 0 then none else nodeAt inodeNum (t.mainIndex.inode n).next

/-- `updates[0]` of `insertWhenRebalance`. -/
def pivot (s : DramSkiplist) (key vnode newlevel : ℕ) : Option ℕ := do
  let (s, inodes) ← s.newTower key newlevel
  let (_, s) := s.linkVnodeToInode (inodes 0) vnode
  let updates ← s.getPivotNodesForInsert key fun _ => 0
  return updates 0

/-- A rebalance of inode `n`: the walk ends at a vnode inside the range of `n`, and, unless
the inode pool is exhausted, `n` is the inode behind which the new one is linked. -/
def SplitsInode (t : TandemIndex) (n newlevel : ℕ) : Prop :=
  ∃ w, t.splitNode n = some w ∧ (t.mainIndex.inode n).minKey < (t.vnode w).key ∧
    (∀ m ∈ t.nextInode n, (t.vnode w).key < (t.mainIndex.inode m).minKey) ∧
    (t.mainIndex.currentIdx + newlevel ≤ inodeNum → pivot t.mainIndex (t.vnode w).key w newlevel = some n)

/-- If the call rebalances an inode, it splits that inode. -/
def Call.RebalancesFound (t : TandemIndex) (c : Call) : Prop :=
  ∀ r ∈ t.rebalanced c.key c.value, SplitsInode r.2 r.1 c.newlevel

/-- The call finds a full inode. -/
def Call.FindsFull (t : TandemIndex) (c : Call) : Prop :=
  t.vCurrentIdx < vnodeNum ∧ ∃ l ∈ t.mainIndex.lookup c.key, ∃ n ∈ l,
    searchStabilityCoefficient ≤ (t.mainIndex.inode n).coveredNodes

/-- If the call finds a full inode, the first inode of the highest level in use does not
begin beyond its key; and if that level is the top one and the drawn tower reaches it, the
last inode there does. -/
def Call.Within (t : TandemIndex) (c : Call) : Prop :=
  c.FindsFull t → Regular t.mainIndex c.key c.newlevel

/-- If the call finds a full inode, its key lies below everything on the levels that its
tower opens. -/
def Call.OpensClear (t : TandemIndex) (c : Call) : Prop :=
  c.FindsFull t → Clear t.mainIndex c.key c.newlevel

section Step
variable {t : TandemIndex} {chains run : ℕ → List ℕ} {key value : ℕ}

/-- The call splits inode `n` at vnode `w`. -/
structure Splitting (t t₂ : TandemIndex) (chains run run₂ : ℕ → List ℕ) (key value n w : ℕ) : Prop where
  room : t.vCurrentIdx < vnodeNum
  lookup : t.mainIndex.lookup key = some (some n)
  covering : Covering t.mainIndex chains 0 key n
  entered : Entered t t₂ chains run run₂ key value n
  full : searchStabilityCoefficient < ((t₂.counted n).mainIndex.inode n).coveredNodes
  node : (t₂.counted n).splitNode n = some w
  inside : Inside (t₂.counted n) chains run₂ n w

theorem rebalanced_eq {t₂ : TandemIndex} {n : ℕ} (hroom : t.vCurrentIdx < vnodeNum)
    (hplace : (t.withVnode key value).place key t.vCurrentIdx = some (some n, t₂)) :
    t.rebalanced key value = if searchStabilityCoefficient < ((t₂.counted n).mainIndex.inode n).coveredNodes then
      some (n, t₂.counted n) else none := by
  rw [rebalanced, getNextVnode_eq hroom]
  show ((t.withVnode key value).place key t.vCurrentIdx).bind _ = _
  rw [hplace]
  by_cases hfull : searchStabilityCoefficient < ((t₂.counted n).mainIndex.inode n).coveredNodes
  · have hb : (t₂.mainIndex.increaseCoveredNodesAndVerifyRebalance n).1 = true := decide_eq_true hfull
    simp only [Option.bind_eq_bind, Option.bind_some, hb, if_true, if_pos hfull]
    rfl
  · have hb : (t₂.mainIndex.increaseCoveredNodesAndVerifyRebalance n).1 = false := decide_eq_false hfull
    simp only [Option.bind_eq_bind, Option.bind_some, hb, if_neg hfull]
    rfl

theorem splitKey_eq_rebalanced (t : TandemIndex) (key value : ℕ) : t.splitKey key value =
    (t.rebalanced key value).bind fun r => (r.2.splitNode r.1).map fun w => (r.2.vnode w).key := by
  unfold splitKey rebalanced
  cases t.getNextVnode with
  | none => rfl
  | some p =>
    simp only [Option.bind_eq_bind, Option.bind_some, Option.bind_assoc]
    cases (p.2.setVnode p.1 key value).place key p.1 with
    | none => rfl
    | some q =>
      simp only [Option.bind_some]
      cases q.1 with
      | none => rfl
      | some n =>
        simp only [Option.bind_some, Option.map_eq_bind]
        split <;> rfl

theorem Indexed.splitting (h : Indexed t chains run) {n : ℕ} (hroom : t.vCurrentIdx < vnodeNum)
    (hnew : ∀ w ∈ vnodes chains run, (t.vnode w).key ≠ key) (hlook : t.mainIndex.lookup key = some (some n))
    (hcov : Covering t.mainIndex chains 0 key n)
    (hfull : searchStabilityCoefficient ≤ (t.mainIndex.inode n).coveredNodes) :
    ∃ t₂ run₂ w, t.rebalanced key value = some (n, t₂.counted n) ∧
    Splitting t t₂ chains run run₂ key value n w := by
  obtain ⟨t₂, run₂, he⟩ := h.enter value hroom hnew hlook hcov
  have hfull₂ : searchStabilityCoefficient < ((t₂.counted n).mainIndex.inode n).coveredNodes := by
    rw [counted, increaseCoveredNodes, modify_self, he.mainIndex]
    exact Int.lt_add_one_of_le hfull
  obtain ⟨w, l₁, l₂, hw, hsplit, -, hne⟩ := he.indexed.splitNode_spec hcov.mem hfull₂
  exact ⟨t₂, run₂, w, by rw [rebalanced_eq hroom he.place, if_pos hfull₂],
    hroom, hlook, hcov, he, hfull₂, hw, he.indexed.inside_of_split hcov.mem hsplit hne⟩

theorem Indexed.rebalanced_none (h : Indexed t chains run) (hkey : key ≠ 0)
    (hnew : ∀ w ∈ vnodes chains run, (t.vnode w).key ≠ key)
    (hnot : t.vCurrentIdx < vnodeNum → ∀ n, t.mainIndex.lookup key = some (some n) →
      ¬ searchStabilityCoefficient ≤ (t.mainIndex.inode n).coveredNodes) : t.rebalanced key value = none := by
  by_cases hroom : t.vCurrentIdx < vnodeNum
  · rcases h.shape.lookup_found (Nat.pos_of_ne_zero hkey) with ⟨hlook, hfirst⟩ | ⟨n, hlook, hcov⟩
    · obtain ⟨t₂, hplace, -⟩ := h.enter_head value hroom hnew hlook (h.below_all hfirst)
      rw [rebalanced, getNextVnode_eq hroom]
      show ((t.withVnode key value).place key t.vCurrentIdx).bind _ = _
      rw [hplace]
      rfl
    · obtain ⟨t₂, run₂, he⟩ := h.enter value hroom hnew hlook hcov
      rw [rebalanced_eq hroom he.place, if_neg]
      rw [counted, increaseCoveredNodes, modify_self, he.mainIndex]
      exact fun hlt => hnot hroom n hlook (Int.lt_add_one_iff.mp hlt)
  · rw [rebalanced, getNextVnode, if_neg hroom]
    rfl

theorem Indexed.rebalanced_cases (h : Indexed t chains run) (hkey : key ≠ 0)
    (hnew : ∀ w ∈ vnodes chains run, (t.vnode w).key ≠ key) {r : ℕ × TandemIndex}
    (hr : t.rebalanced key value = some r) :
    ∃ t₂ run₂ w, r.2 = t₂.counted r.1 ∧ Splitting t t₂ chains run run₂ key value r.1 w := by
  by_contra hnone
  have hn : t.rebalanced key value = none := h.rebalanced_none hkey hnew fun hroom n hlook hfull => by
    rcases h.shape.lookup_found (Nat.pos_of_ne_zero hkey) with ⟨hlook', -⟩ | ⟨n', hlook', hcov⟩
    · cases hlook.symm.trans hlook'
    · obtain rfl : n = n' := by cases hlook.symm.trans hlook'; rfl
      obtain ⟨t₂, run₂, w, hreb, hs⟩ := h.splitting hroom hnew hlook hcov hfull
      cases hr.symm.trans hreb
      exact hnone ⟨t₂, run₂, w, rfl, hs⟩
  rw [hr] at hn
  cases hn

theorem Indexed.splitKey_cases (h : Indexed t chains run) (hkey : key ≠ 0)
    (hnew : ∀ w ∈ vnodes chains run, (t.vnode w).key ≠ key) {k : ℕ} (hk : k ∈ t.splitKey key value) :
    ∃ n t₂ run₂ w, (t₂.vnode w).key = k ∧ Splitting t t₂ chains run run₂ key value n w := by
  rw [splitKey_eq_rebalanced] at hk
  obtain ⟨r, hr, hk⟩ := Option.bind_eq_some_iff.mp hk
  obtain ⟨t₂, run₂, w, hr₂, hs⟩ := h.rebalanced_cases hkey hnew hr
  rw [hr₂, hs.node] at hk
  exact ⟨r.1, t₂, run₂, w, Option.some.inj hk, hs⟩

/-! ## The inserted key and the split key -/

theorem Indexed.min_le_iff (h : Indexed t chains run) {n m k : ℕ} {front back : List ℕ}
    (hsplit : chains 0 = front ++ n :: back) (hle : (t.mainIndex.inode n).minKey ≤ k)
    (hlt : ∀ b ∈ back, k < (t.mainIndex.inode b).minKey) (hm : m ∈ chains 0) :
    (t.mainIndex.inode m).minKey ≤ k ↔ (t.mainIndex.inode m).minKey ≤ (t.mainIndex.inode n).minKey := by
  refine ⟨fun hmk => ?_, fun hmn => hmn.trans hle⟩
  rw [hsplit] at hm
  rcases List.mem_append.mp hm with hm | hm
  · obtain ⟨f₁, f₂, hfront⟩ := List.append_of_mem hm
    exact Nat.le_of_lt
      (h.min_lt (show chains 0 = f₁ ++ m :: (f₂ ++ n :: back) by simp [hsplit, hfront]) (by simp))
  · rcases List.mem_cons.mp hm with rfl | hm
    · exact Nat.le_refl _
    · exact absurd (hlt m hm) (Nat.not_lt.mpr hmk)

theorem Splitting.min_le_iff {t₂ : TandemIndex} {run₂ : ℕ → List ℕ} {n w m : ℕ} (h : Indexed t chains run)
    (hnew : ∀ v ∈ vnodes chains run, (t.vnode v).key ≠ key)
    (hs : Splitting t t₂ chains run run₂ key value n w)
    (hm : m ∈ chains 0) : (t.mainIndex.inode m).minKey ≤ key ↔
    (t.mainIndex.inode m).minKey ≤ (t₂.vnode w).key := by
  obtain ⟨front, back, hsplit, hmin, hmax⟩ := hs.covering
  have hmins := hs.entered.min
  refine (h.min_le_iff hsplit hmin (fun b hb => ?_) hm).trans (h.min_le_iff hsplit ?_ (fun b hb => ?_) hm).symm
  · -- a range does not begin at a new key
    have hb₀ : b ∈ chains 0 := by simp [hsplit, hb]
    obtain ⟨d, l, hrun, -, hkey⟩ := h.first b hb₀
    have hne := hnew d (Indexed.mem_vnodes hb₀ (by simp [hrun]))
    have hle := h.max_le hsplit hb
    have hle' := hmax.resolve_left (List.ne_nil_of_mem hb)
    omega
  · exact Nat.le_of_lt (hmins n ▸ hs.inside.min_lt)
  · exact hmins b ▸ hs.entered.indexed.order hsplit hb w hs.inside.covers

section Moved
variable {t₂ : TandemIndex} {run₂ : ℕ → List ℕ} {n w newlevel : ℕ}

theorem Splitting.le_iff (h : Indexed t chains run) (hnew : ∀ v ∈ vnodes chains run, (t.vnode v).key ≠ key)
    (hs : Splitting t t₂ chains run run₂ key value n w) {i m : ℕ} (hi : i < maxLevel) (hm : m ∈ chains i) :
    (t.mainIndex.inode m).minKey ≤ key ↔ (t.mainIndex.inode m).minKey ≤ (t₂.vnode w).key := by
  obtain ⟨b, hb, hbm⟩ := h.shape.toChained.min_bottom hi hm
  rw [← hbm]
  exact hs.min_le_iff h hnew hb

theorem Splitting.lt_iff (h : Indexed t chains run) (hnew : ∀ v ∈ vnodes chains run, (t.vnode v).key ≠ key)
    (hs : Splitting t t₂ chains run run₂ key value n w) {i m : ℕ} (hi : i < maxLevel) (hm : m ∈ chains i) :
    key < (t.mainIndex.inode m).minKey ↔ (t₂.vnode w).key < (t.mainIndex.inode m).minKey := by
  rw [← not_le, ← not_le]
  exact not_congr (hs.le_iff h hnew hi hm)

/-- A split is regular at the key of its node just if it is at the inserted one. -/
theorem Splitting.regular_iff (h : Indexed t chains run) (hnew : ∀ v ∈ vnodes chains run, (t.vnode v).key ≠ key)
    (hs : Splitting t t₂ chains run run₂ key value n w) :
    Regular t.mainIndex key newlevel ↔ Regular t.mainIndex (t₂.vnode w).key newlevel := by
  have hlevel : t.mainIndex.level - 1 < maxLevel := by
    have := h.shape.level_pos
    have := h.shape.level_le
    omega
  rw [TandemIndex.regular_iff h.shape, TandemIndex.regular_iff h.shape]
  refine and_congr (forall₂_congr fun f hf => hs.le_iff h hnew hlevel (List.mem_of_mem_head? hf)) ?_
  exact forall₂_congr fun _ _ => forall₂_congr fun m hm => hs.lt_iff h hnew (by decide)
    (List.mem_of_mem_getLast? hm)

theorem Splitting.clear_iff (h : Indexed t chains run) (hnew : ∀ v ∈ vnodes chains run, (t.vnode v).key ≠ key)
    (hs : Splitting t t₂ chains run run₂ key value n w) (hlevel : newlevel ≤ maxLevel) :
    Clear t.mainIndex key newlevel ↔ Clear t.mainIndex (t₂.vnode w).key newlevel := by
  refine forall₃_congr fun i hi _ => forall₂_congr fun l hl => forall₂_congr fun f hf => ?_
  rw [h.shape.toChained.levelNodes_eq (Nat.lt_of_lt_of_le hi hlevel), Option.mem_def, Option.some.injEq] at hl
  exact hs.lt_iff h hnew (Nat.lt_of_lt_of_le hi hlevel) (hl ▸ List.mem_of_mem_head? hf)

theorem Splitting.findsFull {c : Call} (hs : Splitting t t₂ chains run run₂ c.key c.value n w) :
    c.FindsFull t := by
  refine ⟨hs.room, some n, hs.lookup, n, rfl, ?_⟩
  have hfull := hs.full
  rw [counted, increaseCoveredNodes, modify_self, hs.entered.mainIndex] at hfull
  exact Int.lt_add_one_iff.mp hfull

end Moved

theorem Indexed.regular_of_within (h : Indexed t chains run) {c : Call} (hkey : c.key ≠ 0)
    (hnew : ∀ w ∈ vnodes chains run, (t.vnode w).key ≠ c.key) (hw : c.Within t) :
    ∀ k ∈ t.splitKey c.key c.value, Regular t.mainIndex k c.newlevel := by
  intro k hk
  obtain ⟨n, t₂, run₂, w, rfl, hs⟩ := h.splitKey_cases hkey hnew hk
  exact (hs.regular_iff h hnew).mp (hw hs.findsFull)

theorem Indexed.clear_of_opensClear (h : Indexed t chains run) {c : Call} (hvalid : c.Valid)
    (hnew : ∀ w ∈ vnodes chains run, (t.vnode w).key ≠ c.key) (hc : c.OpensClear t) :
    ∀ k ∈ t.splitKey c.key c.value, Clear t.mainIndex k c.newlevel := by
  intro k hk
  obtain ⟨n, t₂, run₂, w, rfl, hs⟩ := h.splitKey_cases hvalid.1 hnew hk
  exact (hs.clear_iff h hnew hvalid.2.2).mp (hc hs.findsFull)

/-! ## The two searches -/

theorem Indexed.nextInode_mem (h : Indexed t chains run) {front back : List ℕ} {n m : ℕ}
    (hsplit : chains 0 = front ++ n :: back) (hm : t.nextInode n = some m) : m ∈ back := by
  have hchain := h.shape.chain 0 (by decide)
  rw [hsplit] at hchain
  have hnext := (chain_append.mp hchain).2
  unfold nextInode at hm
  split at hm
  · cases hm
  next htail =>
    cases back with
    | nil => exact absurd hnext htail
    | cons b back =>
      have hb : (t.mainIndex.inode n).next = (b : ℤ) := hnext.1
      have hb₀ : b ∈ chains 0 := by simp [hsplit]
      rw [hb, nodeAt_of_lt (h.shape.toChained.lt_inodeNum (by decide) (mem_levelIds_of_mem hb₀))] at hm
      exact Option.some.inj hm ▸ List.mem_cons_self

theorem Indexed.pivot_eq (h : Indexed t chains run) {n w newlevel : ℕ} (hin : Inside t chains run n w)
    (hr : Regular t.mainIndex (t.vnode w).key newlevel) (hpos : 1 ≤ newlevel)
    (hroom : t.mainIndex.currentIdx + newlevel ≤ inodeNum) :
    pivot t.mainIndex (t.vnode w).key w newlevel = some n := by
  have hkey : 0 < (t.vnode w).key := Nat.lt_of_le_of_lt (Nat.zero_le _) hin.min_lt
  obtain ⟨s₁, inodes, s₂, htower, hlink, hb⟩ := build_spec h.shape.toChained (t.vnode w).key w hpos hroom
  obtain ⟨u, hget, hp⟩ := hb.pivots_spec h.shape.toLevels hroom hkey
  have hu : u 0 = n := hin.unique h (hp.covering (hr.starts h (List.ne_nil_of_mem hin.mem)) 0 (Nat.zero_le _))
  simp only [pivot, htower, hlink, hget, Option.bind_eq_bind, Option.bind_some, hu]
  rfl

theorem Splitting.splitsInode {t₂ : TandemIndex} {run₂ : ℕ → List ℕ} {n w newlevel : ℕ}
    (h : Indexed t chains run) (hs : Splitting t t₂ chains run run₂ key value n w) (hpos : 1 ≤ newlevel)
    (hr : Regular t.mainIndex (t₂.vnode w).key newlevel) : SplitsInode (t₂.counted n) n newlevel := by
  obtain ⟨front, back, hsplit, -⟩ := hs.covering
  refine ⟨w, hs.node, hs.inside.min_lt, fun m hm => ?_,
    fun hroom => hs.entered.indexed.pivot_eq hs.inside ?_ hpos hroom⟩
  · exact hs.entered.indexed.order hsplit (hs.entered.indexed.nextInode_mem hsplit hm) w hs.inside.covers
  · have hmain := hs.entered.mainIndex
    have hshape : Shape t₂.mainIndex chains := hmain ▸ h.shape
    refine Regular.increase hshape hs.covering.mem ?_
    rw [hmain]
    exact hr

end Step

/-! ## Runs -/

/-- The calls in `cs` have been made: the chain holds just their keys and values. -/
def Holds (t : TandemIndex) (chains run : ℕ → List ℕ) (cs : List Call) : Prop :=
  ((vnodes chains run).map fun v => ((t.vnode v).key, (t.vnode v).value)).Perm (cs.map fun c => (c.key, c.value))

theorem Inserted.holds {t t' : TandemIndex} {chains run chains' run' : ℕ → List ℕ} {cs : List Call} {c : Call}
    (hi : Inserted t t' chains run chains' run' c.key c.value) (hh : Holds t chains run cs) :
    Holds t' chains' run' (cs ++ [c]) := by
  have hold : (vnodes chains run).map (fun v => ((t'.vnode v).key, (t'.vnode v).value)) =
      (vnodes chains run).map fun v => ((t.vnode v).key, (t.vnode v).value) :=
    List.map_congr_left fun v hv => by rw [hi.old_key v hv, hi.old_value v hv]
  refine (hi.perm.map _).trans ?_
  rw [List.map_cons, hold, hi.new_key, hi.new_value, List.map_append, List.map_singleton]
  exact (List.Perm.cons _ hh).trans (List.perm_append_singleton _ _).symm

/-- A state before the calls `cs`, all of which are within. -/
structure Ready (t : TandemIndex) (chains run : ℕ → List ℕ) (cs : List Call) : Prop where
  indexed : Indexed t chains run
  nodup : (cs.map Call.key).Nodup
  valid : ∀ c ∈ cs, c.Valid
  new : ∀ w ∈ vnodes chains run, ∀ c ∈ cs, (t.vnode w).key ≠ c.key
  within : Along Call.Within t cs

namespace Ready
variable {t : TandemIndex} {chains run : ℕ → List ℕ} {c : Call} {cs : List Call}

theorem new_head (h : Ready t chains run (c :: cs)) : ∀ w ∈ vnodes chains run, (t.vnode w).key ≠ c.key :=
  fun w hw => h.new w hw c List.mem_cons_self

theorem regular (h : Ready t chains run (c :: cs)) : ∀ k ∈ t.splitKey c.key c.value,
    Regular t.mainIndex k c.newlevel :=
  h.indexed.regular_of_within (h.valid c List.mem_cons_self).1 h.new_head h.within.1

theorem next (h : Ready t chains run (c :: cs)) {r : Bool × TandemIndex} {chains' run' : ℕ → List ℕ}
    (hr : c.insert t = some r) (hi : Indexed r.2 chains' run')
    (hkeys : ∀ w ∈ vnodes chains' run', (r.2.vnode w).key = c.key ∨ ∃ v ∈ vnodes chains run,
      (r.2.vnode w).key = (t.vnode v).key) : Ready r.2 chains' run' cs := by
  have hnd := h.nodup
  rw [List.map_cons, List.nodup_cons] at hnd
  exact ⟨hi, hnd.2, fun d hd => h.valid d (List.mem_cons_of_mem _ hd), keys_ne hkeys hnd.1 h.new, h.within.2 _ hr⟩

theorem insert (h : Ready t chains run (c :: cs)) (hroom : t.vCurrentIdx < vnodeNum)
    (hgo : t.mainIndex.currentIdx + c.newlevel ≤ inodeNum ∨ c.insert t ≠ none) :
    ∃ t' chains' run', c.insert t = some (true, t') ∧ Inserted t t' chains run chains' run' c.key c.value ∧
      Ready t' chains' run' cs ∧
      (Increasing t.mainIndex chains → c.OpensClear t → Increasing t'.mainIndex chains') ∧
      KeepsBound t c.key c.value chains run chains' run' := by
  have hvalid := h.valid c List.mem_cons_self
  obtain ⟨t', chains', run', hins, hi, hinc, hbound⟩ := h.indexed.insert_step (Nat.pos_of_ne_zero hvalid.1) hroom
    hvalid.2.1 hvalid.2.2 h.new_head hgo h.regular
  exact ⟨t', chains', run', hins, hi, h.next hins hi.indexed fun w hw => hi.key_cases hw,
    fun ho hc => hinc ho (h.indexed.clear_of_opensClear hvalid h.new_head hc), hbound⟩

theorem step (h : Ready t chains run (c :: cs)) {r : Bool × TandemIndex} (hr : c.insert t = some r) :
    ∃ chains' run', Ready r.2 chains' run' cs ∧
      (Increasing t.mainIndex chains → c.OpensClear t → Increasing r.2.mainIndex chains') ∧
      (t.vCurrentIdx < vnodeNum ∧ KeepsBound t c.key c.value chains run chains' run' ∨
        ¬ t.vCurrentIdx < vnodeNum ∧ chains' = chains ∧ run' = run) := by
  by_cases hroom : t.vCurrentIdx < vnodeNum
  · obtain ⟨t', chains', run', hins, -, h', hinc, hbound⟩ := h.insert hroom (Or.inr (by simp [hr]))
    cases hr.symm.trans hins
    exact ⟨chains', run', h', hinc, Or.inl ⟨hroom, hbound⟩⟩
  · cases hr.symm.trans (insert_of_no_room hroom)
    exact ⟨chains, run, h.next hr h.indexed fun w hw => Or.inr ⟨w, hw, rfl⟩, fun ho _ => ho,
      Or.inr ⟨hroom, rfl, rfl⟩⟩

theorem rebalancesFound (h : Ready t chains run (c :: cs)) : c.RebalancesFound t := by
  intro r hr
  have hvalid := h.valid c List.mem_cons_self
  obtain ⟨t₂, run₂, w, hr₂, hs⟩ := h.indexed.rebalanced_cases hvalid.1 h.new_head hr
  rw [hr₂]
  refine hs.splitsInode h.indexed hvalid.2.1 (h.regular _ ?_)
  rw [splitKey_eq_rebalanced, hr, Option.bind_some, hr₂, hs.node]
  rfl

theorem insertAll_holds (h : Ready t chains run cs) (ds : List Call) (hh : Holds t chains run ds)
    (hroom : Along Call.HasRoom t cs) : ∃ t' chains' run',
      insertAll t cs = some (List.replicate cs.length true, t') ∧ Indexed t' chains' run' ∧
        Holds t' chains' run' (ds ++ cs) := by
  induction cs generalizing t chains run ds with
  | nil => exact ⟨t, chains, run, rfl, h.indexed, by rwa [List.append_nil]⟩
  | cons c cs ih =>
    obtain ⟨t₁, chains₁, run₁, hrun, hi, h₁, -⟩ := h.insert hroom.1.1 (Or.inl hroom.1.2)
    obtain ⟨t', chains', run', hrest, h', hh'⟩ := ih h₁ (ds ++ [c]) (hi.holds hh) (hroom.2 _ hrun)
    refine ⟨t', chains', run', ?_, h', by simpa using hh'⟩
    simp [TandemIndex.insertAll, hrun, hrest, List.replicate_succ]

end Ready

theorem new_ready {t₀ : TandemIndex} (hnew : TandemIndex.new = some t₀) {cs : List Call}
    (hnd : (cs.map Call.key).Nodup) (hvalid : ∀ c ∈ cs, c.Valid) (hwithin : Along Call.Within t₀ cs) :
    Ready t₀ (fun _ => []) (fun _ => []) cs :=
  ⟨new_indexed hnew, hnd, hvalid, fun _ hw => absurd hw List.not_mem_nil, hwithin⟩

/-- Every insert of a run of distinct keys whose calls are all within returns true, and every
inserted key is found with its value. -/
theorem insertAll_lookup {t₀ : TandemIndex} (hnew : TandemIndex.new = some t₀) (cs : List Call)
    (hnd : (cs.map Call.key).Nodup) (hvalid : ∀ c ∈ cs, c.Valid) (hroom : Along Call.HasRoom t₀ cs)
    (hwithin : Along Call.Within t₀ cs) :
    ∃ t, insertAll t₀ cs = some (List.replicate cs.length true, t) ∧
      ∀ c ∈ cs, t.lookup c.key = some c.value := by
  obtain ⟨t, chains, run, hrun, h, hh⟩ :=
    (new_ready hnew hnd hvalid hwithin).insertAll_holds [] (List.Perm.refl _) hroom
  refine ⟨t, hrun, fun c hc => ?_⟩
  have hm := hh.mem_iff.mpr (List.mem_map.mpr ⟨c, hc, rfl⟩)
  obtain ⟨v, hv, he⟩ := List.mem_map.mp hm
  obtain ⟨hk, hval⟩ := Prod.mk.inj he
  rw [← hk, ← hval]
  exact h.lookup_eq hv

/-- In a run of distinct keys whose calls are all within, every rebalance splits the inode
that `lookup` found, at a vnode inside its range. -/
theorem insertAll_rebalancesFound {t₀ : TandemIndex} (hnew : TandemIndex.new = some t₀) (cs : List Call)
    (hnd : (cs.map Call.key).Nodup) (hvalid : ∀ c ∈ cs, c.Valid) (hwithin : Along Call.Within t₀ cs) :
    Along Call.RebalancesFound t₀ cs := by
  refine along_of_step (I := fun t cs => ∃ chains run, Ready t chains run cs) ?_
    ⟨_, _, new_ready hnew hnd hvalid hwithin⟩
  rintro t c cs ⟨chains, run, h⟩
  refine ⟨h.rebalancesFound, fun r hr => ?_⟩
  obtain ⟨chains', run', h', -⟩ := h.step hr
  exact ⟨chains', run', h'⟩

/-! ## Concrete runs -/

instance (t : TandemIndex) (c : Call) : Decidable (c.FindsFull t) := by unfold Call.FindsFull; infer_instance
instance (t : TandemIndex) (c : Call) : Decidable (c.Within t) := by unfold Call.Within; infer_instance

/-- Eleven keys fill the first inode and split it. -/
theorem insertAll_lookup_eleven :
    ∃ t, insertAll empty (ascending 11 2) = some (List.replicate 11 true, t) ∧
      ∀ c ∈ ascending 11 2, t.lookup c.key = some c.value :=
  insertAll_lookup new_eq_empty (ascending 11 2) (by decide) (by decide) (by decide +kernel) (by decide +kernel)

/-- With towers of `MAX_LEVEL`, the second split loses key 1. -/
theorem insertAll_lookup_lost : ¬ ∀ cs : List Call, (cs.map Call.key).Nodup → (∀ c ∈ cs, c.Valid) →
    Along Call.HasRoom empty cs → ∃ t, insertAll empty cs = some (List.replicate cs.length true, t) ∧
      ∀ c ∈ cs, t.lookup c.key = some c.value := by
  intro h
  obtain ⟨t, hrun, hfound⟩ := h (ascending 17 maxLevel) (by decide) (by decide) (by decide +kernel)
  have hlost : (insertAll empty (ascending 17 maxLevel)).map (fun r => r.2.lookup 1) = some (some notFound) := by
    decide +kernel
  rw [hrun] at hlost
  have hone : t.lookup 1 = some 1 := hfound ⟨1, 1, 1⟩ (by decide)
  rw [Option.map_some, hone] at hlost
  exact absurd hlost (by decide)

/-- The eleventh key splits the first inode, at key 6. -/
theorem insertAll_rebalancesFound_eleven : Along Call.RebalancesFound empty (ascending 11 2) :=
  insertAll_rebalancesFound new_eq_empty (ascending 11 2) (by decide) (by decide) (by decide +kernel)

/-- Keys 10 to 110 in steps of 10, then 11 to 15: the first split opens level 1 at key 60,
and the second one, at key 15, starts its pivot walk there. -/
def overshooting : List Call :=
  ((List.range 11).map fun i => ⟨10 * (i + 1), 0, if i = 0 then 1 else 2⟩) ++
    (List.range 5).map fun i => ⟨i + 11, 0, 2⟩

/-- Keys 10 to 110 in steps of 10, then 11 to 15: the last call walks from the inode of
key 10 to key 15, but its second search ends at the inode of key 60. -/
theorem insertAll_not_rebalancesFound : ¬ ∀ cs : List Call, (cs.map Call.key).Nodup → (∀ c ∈ cs, c.Valid) →
    Along Call.RebalancesFound empty cs := by
  intro h
  have hall := h overshooting (by decide) (by decide)
  have hview : (insertAll empty (overshooting.take 15)).bind (fun r => (r.2.rebalanced 15 0).bind fun x =>
      (x.2.splitNode x.1).map fun w => (decide (x.2.mainIndex.currentIdx + 2 ≤ inodeNum),
        decide (pivot x.2.mainIndex (x.2.vnode w).key w 2 = some x.1))) = some (true, false) := by decide +kernel
  obtain ⟨r, hr, hview⟩ := Option.bind_eq_some_iff.mp hview
  obtain ⟨x, hx, hview⟩ := Option.bind_eq_some_iff.mp hview
  obtain ⟨w, hw, hview⟩ := Option.map_eq_some_iff.mp hview
  obtain ⟨hroom, hpivot⟩ := Prod.mk.inj hview
  have hcut : overshooting = overshooting.take 15 ++ [⟨15, 0, 2⟩] := by decide
  rw [hcut] at hall
  obtain ⟨w', hw', -, -, hfound⟩ := ((along_append.mp hall).2 r hr).1 x hx
  obtain rfl : w = w' := Option.some.inj (hw.symm.trans hw')
  exact of_decide_eq_false hpivot (hfound (of_decide_eq_true hroom))

end TandemIndex

end Hkv.Tandem
