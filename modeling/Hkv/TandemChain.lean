import Hkv.TandemRun

/-!
# The value chain of every run

Splits may go wrong, keys may repeat and levels may get out of order: the value chain
does not depend on any of it. It is enough that links do not leave their level, that
links down lead one level down, and that level 0 points into the chain.
-/
namespace Hkv.Tandem
open LinkedChain

namespace DramSkiplist

/-- A null link, or a link to an inode of level `i`. -/
def LinksTo (lev : ℕ → Option ℕ) (i : ℕ) (z : ℤ) : Prop := z = -1 ∨ ∃ m : ℕ, z = m ∧ lev m = some i

/-- `lev` tells the level of every inode in use, tails apart; `vs` are the vnodes that
level 0 may point to. -/
structure Leveled (s : DramSkiplist) (lev : ℕ → Option ℕ) (vs : List ℕ) : Prop where
  fresh : ∀ n, s.currentIdx ≤ n → s.inode n = poolInode ∧ lev n = none
  level_pos : 1 ≤ s.level
  level_le : s.level ≤ maxLevel
  header : ∀ i < maxLevel, lev (s.header i) = some i
  next : ∀ n i, lev n = some i → (s.inode n).next = s.tail i ∨ LinksTo lev i (s.inode n).next
  down : ∀ n i, lev n = some (i + 1) → LinksTo lev i (s.inode n).down
  bottom : ∀ n, lev n = some 0 → (s.inode n).down = -1 ∨ ∃ v ∈ vs, (s.inode n).down = (v : ℤ)

variable {s s' : DramSkiplist} {lev : ℕ → Option ℕ} {vs : List ℕ} {key : ℕ}

theorem LinksTo.nodeAt {num i : ℕ} {z : ℤ} {m : ℕ} (h : LinksTo lev i z) (hm : nodeAt num z = some m) :
    lev m = some i := by
  rcases h with rfl | ⟨k, rfl, hk⟩
  · simp [Tandem.nodeAt] at hm
  · unfold Tandem.nodeAt at hm
    split at hm
    · cases hm
      exact hk
    · cases hm

namespace Leveled

theorem lt (h : Leveled s lev vs) {n i : ℕ} (hn : lev n = some i) : n < s.currentIdx := by
  by_contra hge
  rw [(h.fresh n (Nat.le_of_not_lt hge)).2] at hn
  cases hn

theorem mono (h : Leveled s lev vs) {vs' : List ℕ} (hsub : vs ⊆ vs') : Leveled s lev vs' :=
  { h with bottom := fun n hn => (h.bottom n hn).imp_right fun ⟨v, hv, hd⟩ => ⟨v, hsub hv, hd⟩ }

theorem modify (h : Leveled s lev vs) {id j : ℕ} (hid : lev id = some j) {f : Inode → Inode}
    (hnext : (f (s.inode id)).next = s.tail j ∨ LinksTo lev j (f (s.inode id)).next)
    (hdown : ∀ i, j = i + 1 → LinksTo lev i (f (s.inode id)).down)
    (hbottom : j = 0 → (f (s.inode id)).down = -1 ∨ ∃ v ∈ vs, (f (s.inode id)).down = (v : ℤ)) :
    Leveled (s.modify id f) lev vs := by
  have hlt := h.lt hid
  refine ⟨fun n hn => ?_, h.level_pos, h.level_le, h.header, fun n i hn => ?_, fun n i hn => ?_, fun n hn => ?_⟩
  · have hn' : s.currentIdx ≤ n := hn
    rw [modify_of_ne _ _ _ (by omega)]
    exact h.fresh n hn
  all_goals
    by_cases hne : n = id
    · subst hne
      rw [modify_self]
      cases hid.symm.trans hn
      first
        | exact hnext
        | exact hdown _ rfl
        | exact hbottom rfl
    · rw [modify_of_ne _ _ _ hne]
      first
        | exact h.next n i hn
        | exact h.down n i hn
        | exact h.bottom n hn

theorem modify_data (h : Leveled s lev vs) {id j : ℕ} (hid : lev id = some j) {f : Inode → Inode}
    (hnext : (f (s.inode id)).next = (s.inode id).next) (hdown : (f (s.inode id)).down = (s.inode id).down) :
    Leveled (s.modify id f) lev vs :=
  h.modify hid (hnext ▸ h.next id j hid) (fun i hj => hdown ▸ h.down id i (hj ▸ hid))
    fun hj => hdown ▸ h.bottom id (hj ▸ hid)

theorem modify_next (h : Leveled s lev vs) {id j : ℕ} (hid : lev id = some j) {f : Inode → Inode}
    (hnext : (f (s.inode id)).next = s.tail j ∨ LinksTo lev j (f (s.inode id)).next)
    (hdown : (f (s.inode id)).down = (s.inode id).down) : Leveled (s.modify id f) lev vs :=
  h.modify hid hnext (fun i hj => hdown ▸ h.down id i (hj ▸ hid)) fun hj => hdown ▸ h.bottom id (hj ▸ hid)

theorem bottom_mem (h : Leveled s lev vs) {num n d : ℕ} (hn : lev n = some 0) (hlt : ∀ v ∈ vs, v < num)
    (hd : nodeAt num (s.inode n).down = some d) : d ∈ vs := by
  rcases h.bottom n hn with hnull | ⟨v, hv, hdown⟩
  · rw [hnull] at hd
    simp [nodeAt] at hd
  · rw [hdown, nodeAt_of_lt (hlt v hv)] at hd
    exact Option.some.inj hd ▸ hv

/-! ## Searches stay on their level -/

theorem walk (h : Leveled s lev vs) {i fuel : ℕ} {prev prev' : Option ℕ} {cur cur' : ℕ}
    (hcur : lev cur = some i) (hprev : ∀ p ∈ prev, lev p = some i)
    (hrun : walk s key i fuel prev cur = some (prev', cur')) :
    lev cur' = some i ∧ ∀ p ∈ prev', lev p = some i := by
  induction fuel generalizing prev cur with
  | zero => cases hrun
  | succ fuel ih =>
    unfold DramSkiplist.walk at hrun
    split at hrun
    · rename_i hgo
      obtain ⟨m, hm, hrun⟩ := Option.bind_eq_some_iff.mp hrun
      have hlev := ((h.next cur i hcur).resolve_left hgo.1).nodeAt hm
      exact ih hlev (fun p hp => Option.some.inj hp ▸ hcur) hrun
    · cases hrun
      exact ⟨hcur, hprev⟩

theorem stepBack {i : ℕ} {prev : Option ℕ} {cur : ℕ} (hcur : lev cur = some i)
    (hprev : ∀ p ∈ prev, lev p = some i) : lev (s.stepBack key prev cur) = some i := by
  unfold DramSkiplist.stepBack
  split
  · cases prev with
    | none => exact hcur
    | some p => exact hprev p rfl
  · exact hcur

theorem descend (h : Leveled s lev vs) {i cur n : ℕ} (hcur : lev cur = some i)
    (hrun : descend s key i cur = some n) : lev n = some 0 := by
  induction i generalizing cur with
  | zero =>
    obtain ⟨⟨p, c⟩, hw, hrun⟩ := Option.bind_eq_some_iff.mp hrun
    cases hrun
    obtain ⟨hc, hp⟩ := h.walk hcur (by simp) hw
    exact stepBack hc hp
  | succ i ih =>
    obtain ⟨⟨p, c⟩, hw, hrun⟩ := Option.bind_eq_some_iff.mp hrun
    obtain ⟨m, hm, hrun⟩ := Option.bind_eq_some_iff.mp hrun
    obtain ⟨hc, hp⟩ := h.walk hcur (by simp) hw
    exact ih ((h.down _ i (stepBack hc hp)).nodeAt hm) hrun

theorem header_top (h : Leveled s lev vs) : lev (s.header (s.level - 1)) = some (s.level - 1) := by
  have h₁ := h.level_pos
  have h₂ := h.level_le
  exact h.header _ (by omega)

theorem lookup (h : Leveled s lev vs) {n : ℕ} (hrun : s.lookup key = some (some n)) : lev n = some 0 := by
  obtain ⟨c, hc, hrun⟩ := Option.bind_eq_some_iff.mp hrun
  have hlev := h.descend h.header_top hc
  cases hrun' : decide ((s.inode c).minKey = 0) with
  | true => simp_all
  | false =>
    have hne : (s.inode c).minKey ≠ 0 := of_decide_eq_false hrun'
    rw [if_neg hne] at hrun
    cases hrun
    exact hlev

theorem pivots (h : Leveled s lev vs) {i cur : ℕ} {updates u : ℕ → ℕ} (hcur : lev cur = some i)
    (hrun : pivots s key i cur updates = some u) : ∀ j ≤ i, lev (u j) = some j := by
  induction i generalizing cur updates with
  | zero =>
    obtain ⟨⟨p, c⟩, hw, hrun⟩ := Option.bind_eq_some_iff.mp hrun
    cases hrun
    intro j hj
    obtain rfl : j = 0 := Nat.le_zero.mp hj
    rw [Function.update_self]
    exact (h.walk hcur (by simp) hw).1
  | succ i ih =>
    obtain ⟨⟨p, c⟩, hw, hrun⟩ := Option.bind_eq_some_iff.mp hrun
    obtain ⟨m, hm, hrun⟩ := Option.bind_eq_some_iff.mp hrun
    have hc := (h.walk hcur (by simp) hw).1
    intro j hj
    rcases Nat.lt_or_eq_of_le hj with hj | rfl
    · exact ih ((h.down c i hc).nodeAt hm) hrun j (Nat.lt_succ_iff.mp hj)
    · rw [pivots_above hrun _ (Nat.lt_succ_self i), Function.update_self]
      exact hc

end Leveled

/-! ## Insertions -/

/-- The levels with the inodes of a new tower. -/
def towerLev (s : DramSkiplist) (lev : ℕ → Option ℕ) (newlevel n : ℕ) : Option ℕ :=
  if s.currentIdx ≤ n ∧ n < s.currentIdx + newlevel then some (newlevel - 1 - (n - s.currentIdx)) else lev n

namespace Leveled

theorem towerLev_old (h : Leveled s lev vs) {newlevel n i : ℕ} (hn : lev n = some i) :
    towerLev s lev newlevel n = some i := by
  have := h.lt hn
  rw [towerLev, if_neg (by omega), hn]

theorem towerLev_links (h : Leveled s lev vs) {newlevel i : ℕ} {z : ℤ} (hz : LinksTo lev i z) :
    LinksTo (towerLev s lev newlevel) i z :=
  hz.imp_right fun ⟨m, hm, hl⟩ => ⟨m, hm, h.towerLev_old hl⟩

theorem tower (h : Leveled s lev vs) {inodes : ℕ → ℕ} {newlevel : ℕ} (hpos : 1 ≤ newlevel)
    (ht : Tower s s' inodes key newlevel) : Leveled s' (towerLev s lev newlevel) vs ∧
      ∀ i < newlevel, towerLev s lev newlevel (inodes i) = some i := by
  have hids : ∀ i < newlevel, towerLev s lev newlevel (inodes i) = some i := fun i hi => by
    have := ht.id i hi
    rw [towerLev, if_pos (by omega)]
    congr 1
    omega
  -- an inode with a level is an old one or one of the tower
  have hcases : ∀ n i, towerLev s lev newlevel n = some i →
      (i < newlevel ∧ n = inodes i) ∨ (lev n = some i ∧ n < s.currentIdx) := fun n i hn => by
    unfold towerLev at hn
    split at hn
    · rename_i hrange
      have hi : i = newlevel - 1 - (n - s.currentIdx) := (Option.some.inj hn).symm
      have := ht.id i (by omega)
      exact .inl ⟨by omega, by omega⟩
    · exact .inr ⟨hn, h.lt hn⟩
  have hc := ht.currentIdx
  have hnode : ∀ i < newlevel, (s'.inode (inodes i)).next = -1 := fun i hi => by
    cases i with
    | zero => rw [ht.bottom]
    | succ i => rw [ht.upper i hi]
  refine ⟨⟨fun n hn => ⟨ht.fresh n hn, ?_⟩, ht.level ▸ h.level_pos, ht.level ▸ h.level_le, fun i hi => ?_,
    fun n i hn => ?_, fun n i hn => ?_, fun n hn => ?_⟩, hids⟩
  · rw [towerLev, if_neg (by omega)]
    exact (h.fresh n (by omega)).2
  · rw [ht.header]
    exact h.towerLev_old (h.header i hi)
  · rw [ht.tail]
    rcases hcases n i hn with ⟨hi, rfl⟩ | ⟨hold, hlt⟩
    · exact .inr (.inl (hnode i hi))
    · rw [ht.old n hlt]
      exact (h.next n i hold).imp_right h.towerLev_links
  · rcases hcases n (i + 1) hn with ⟨hi, rfl⟩ | ⟨hold, hlt⟩
    · rw [ht.upper i hi]
      exact .inr ⟨inodes i, rfl, hids i (by omega)⟩
    · rw [ht.old n hlt]
      exact h.towerLev_links (h.down n i hold)
  · rcases hcases n 0 hn with ⟨-, rfl⟩ | ⟨hold, hlt⟩
    · rw [ht.bottom]
      exact .inl rfl
    · rw [ht.old n hlt]
      exact h.bottom n hold

theorem build (h : Leveled s lev vs) {v newlevel : ℕ} (hv : v ∈ vs) (hpos : 1 ≤ newlevel)
    {r : DramSkiplist × (ℕ → ℕ)}
    (hrun : newTower s key newlevel = some r) : ∃ lev', Leveled (r.1.linkVnodeToInode (r.2 0) v).2 lev' vs ∧
      (r.1.linkVnodeToInode (r.2 0) v).1 = true ∧ ∀ i < newlevel, lev' (r.2 i) = some i := by
  have hroom : s.currentIdx + newlevel ≤ inodeNum := newTower_room (by rw [hrun]; simp)
  obtain ⟨s₁, inodes, hrun', ht⟩ := newTower_spec key newlevel hpos hroom fun n hn => (h.fresh n hn).1
  cases hrun.symm.trans hrun'
  obtain ⟨h₁, hids⟩ := h.tower hpos ht
  have hbottom := hids 0 hpos
  have hnull : (s₁.inode (inodes 0)).down = -1 := by rw [ht.bottom]
  refine ⟨_, ?_, ?_, hids⟩
  · simp only [linkVnodeToInode, if_pos hnull]
    exact h₁.modify hbottom (h₁.next _ 0 hbottom) (by simp) fun _ => .inr ⟨v, hv, rfl⟩
  · simp only [linkVnodeToInode, if_pos hnull]

theorem linkHead (h : Leveled s lev vs) {id next i : ℕ} (hid : lev id = some i) (hi : i < maxLevel) :
    Leveled (s.linkHead key id (s.header i) next (s.inode (s.header i)).next) lev vs := by
  have hheader := h.header i hi
  have h₁ : Leveled (s.modify id fun n => { n with next := (s.inode (s.header i)).next }) lev vs :=
    h.modify_next hid (h.next _ i hheader) rfl
  have h₂ := h₁.modify_next (f := fun n => { n with next := id }) hheader (.inr (.inr ⟨id, rfl, hid⟩)) rfl
  unfold DramSkiplist.linkHead
  refine h₂.modify_data hid ?_ ?_ <;> rfl

theorem headLoop (h : Leveled s lev vs) {inodes : ℕ → ℕ} {i : ℕ} (hi : i ≤ maxLevel)
    (hids : ∀ j < i, lev (inodes j) = some j) (hrun : headLoop key inodes i s = some s') : Leveled s' lev vs := by
  induction i generalizing s with
  | zero =>
    cases hrun
    exact h
  | succ i ih =>
    obtain ⟨next, -, hrun⟩ := Option.bind_eq_some_iff.mp hrun
    exact ih (h.linkHead (hids i (Nat.lt_succ_self i)) hi) (Nat.le_of_succ_le hi)
      (fun j hj => hids j (Nat.lt_succ_of_lt hj)) hrun

theorem insert (h : Leveled s lev vs) {v newlevel : ℕ} {ret : Bool} (hv : v ∈ vs) (hpos : 1 ≤ newlevel)
    (hlevel : newlevel ≤ maxLevel) (hrun : s.insert key v newlevel = some (ret, s')) :
    ret = true ∧ ∃ lev', Leveled s' lev' vs := by
  obtain ⟨⟨s₁, inodes⟩, htower, hrun⟩ := Option.bind_eq_some_iff.mp hrun
  obtain ⟨lev', h₁, hlink, hids⟩ := h.build hv hpos htower
  cases hr : s₁.linkVnodeToInode (inodes 0) v with
  | mk b s₂ =>
    simp only [hr] at h₁ hlink hrun
    subst hlink
    obtain ⟨s₃, hloop, hrun⟩ := Option.bind_eq_some_iff.mp hrun
    cases hrun
    exact ⟨rfl, lev', h₁.headLoop hlevel hids hloop⟩

theorem splitRange (h : Leveled s lev vs) {id u i : ℕ} (hid : lev id = some i) (hu : lev u = some i)
    (hrun : s.splitRange key id u = some s') : Leveled s' lev vs := by
  unfold DramSkiplist.splitRange at hrun
  split at hrun
  · obtain ⟨next, -, hrun⟩ := Option.bind_eq_some_iff.mp hrun
    cases hrun
    exact h.modify_data hid rfl rfl
  · cases hrun
    have h₁ := h.modify_data (f := fun n => { n with maxKey := (s.inode u).maxKey }) hid rfl rfl
    have h₂ := h₁.modify_data (f := fun n => { n with maxKey := key }) hu rfl rfl
    exact h₂.modify_data hid rfl rfl

theorem splitLoop (h : Leveled s lev vs) {inodes u : ℕ → ℕ} {i : ℕ}
    (hids : ∀ j < i, lev (inodes j) = some j) (hu : ∀ j < i, lev (u j) = some j)
    (hrun : splitLoop key inodes u i s = some s') : Leveled s' lev vs := by
  induction i generalizing s with
  | zero =>
    cases hrun
    exact h
  | succ i ih =>
    obtain ⟨s₁, hrange, hrun⟩ := Option.bind_eq_some_iff.mp hrun
    have hid := hids i (Nat.lt_succ_self i)
    have hui := hu i (Nat.lt_succ_self i)
    have h₁ := h.splitRange hid hui hrange
    have h₂ : Leveled (s₁.modify (inodes i) fun n => { n with next := (s₁.inode (u i)).next }) lev vs :=
      h₁.modify_next hid (h₁.next _ i hui) rfl
    have h₃ :=
      h₂.modify_next (f := fun n => { n with next := inodes i }) hui (.inr (.inr ⟨inodes i, rfl, hid⟩)) rfl
    exact ih h₃ (fun j hj => hids j (Nat.lt_succ_of_lt hj)) (fun j hj => hu j (Nat.lt_succ_of_lt hj)) hrun

theorem raiseLevel (h : Leveled s lev vs) {newlevel : ℕ} {updates : ℕ → ℕ} (hlevel : newlevel ≤ maxLevel)
    (hu : ∀ j ≤ s.level - 1, lev (updates j) = some j) : Leveled (s.raiseLevel newlevel updates).1 lev vs ∧
      ∀ j < newlevel, lev ((s.raiseLevel newlevel updates).2 j) = some j := by
  have h₁ := h.level_pos
  have h₂ := h.level_le
  rw [raiseLevel_spec]
  refine ⟨⟨h.fresh, by simp only; omega, by simp only; omega, h.header, h.next, h.down, h.bottom⟩,
    fun j hj => ?_⟩
  simp only
  split
  · exact h.header j (by omega)
  · exact hu j (by omega)

theorem insertWhenRebalance (h : Leveled s lev vs) {v newlevel : ℕ} {count : ℤ} {ret : Bool} (hv : v ∈ vs)
    (hpos : 1 ≤ newlevel) (hlevel : newlevel ≤ maxLevel)
    (hrun : s.insertWhenRebalance key v newlevel count = some (ret, s')) :
    ret = true ∧ ∃ lev', Leveled s' lev' vs := by
  obtain ⟨⟨s₁, inodes⟩, htower, hrun⟩ := Option.bind_eq_some_iff.mp hrun
  obtain ⟨lev', h₁, -, hids⟩ := h.build hv hpos htower
  obtain ⟨u₀, hpiv, hrun⟩ := Option.bind_eq_some_iff.mp hrun
  have hu₀ := h₁.pivots h₁.header_top hpiv
  obtain ⟨h₂, hu⟩ := h₁.raiseLevel hlevel hu₀
  obtain ⟨s₃, hloop, hrun⟩ := Option.bind_eq_some_iff.mp hrun
  have h₃ := h₂.splitLoop hids hu hloop
  cases hrun
  refine ⟨rfl, lev', ?_⟩
  exact (h₃.modify_data (hids 0 hpos) rfl rfl).modify_data (hu 0 hpos) rfl rfl

end Leveled

end DramSkiplist

namespace TandemIndex
open DramSkiplist

/-! ## The chain -/

/-- The nodes behind `cur` on the value chain, up to a link that leads nowhere. -/
def valueNodes (t : TandemIndex) : ℕ → ℕ → Option (List ℕ)
  | 0, _ => none
  | fuel + 1, cur => match nodeAt vnodeNum (t.vnode cur).next with
    | none => some []
    | some x => (t.valueNodes fuel x).map (x :: ·)

def pair (t : TandemIndex) (v : ℕ) : ℕ × ℕ := ((t.vnode v).key, (t.vnode v).value)

variable {t t' : TandemIndex} {lev : ℕ → Option ℕ} {l : List ℕ}

theorem valueNodes_eq {fuel cur : ℕ} (hchain : Chain t.vnext cur l (-1)) (hlt : ∀ v ∈ l, v < vnodeNum)
    (hfuel : l.length < fuel) : t.valueNodes fuel cur = some l := by
  induction l generalizing cur fuel with
  | nil =>
    obtain ⟨fuel, rfl⟩ := Nat.exists_eq_succ_of_ne_zero (Nat.ne_of_gt hfuel)
    have hnext : (t.vnode cur).next = -1 := hchain
    simp [valueNodes, hnext, nodeAt]
  | cons x l ih =>
    obtain ⟨fuel, rfl⟩ := Nat.exists_eq_succ_of_ne_zero (Nat.ne_of_gt (Nat.lt_of_le_of_lt (Nat.zero_le _) hfuel))
    have hnext : (t.vnode cur).next = (x : ℤ) := hchain.1
    simp only [valueNodes, hnext, nodeAt_of_lt (hlt x List.mem_cons_self)]
    rw [ih hchain.2 (fun v hv => hlt v (List.mem_cons_of_mem _ hv)) (by simpa using hfuel), Option.map_some]

theorem chain_step {cur x : ℕ} (hchain : Chain t.vnext cur l (-1))
    (hx : nodeAt vnodeNum (t.vnode cur).next = some x) : ∃ l', l = x :: l' ∧ Chain t.vnext x l' (-1) := by
  cases l with
  | nil =>
    have hnext : (t.vnode cur).next = -1 := hchain
    simp [hnext, nodeAt] at hx
  | cons y l =>
    have hnext : (t.vnode cur).next = (y : ℤ) := hchain.1
    obtain rfl : y = x := by
      rw [hnext] at hx
      simp only [nodeAt] at hx
      split at hx
      · exact Option.some.inj hx
      · cases hx
    exact ⟨l, rfl, hchain.2⟩

theorem advance_mem {n cur w : ℕ} (hchain : Chain t.vnext cur l (-1)) (hrun : t.advance n cur = some w) :
    w ∈ cur :: l := by
  induction n generalizing cur l with
  | zero =>
    cases hrun
    exact List.mem_cons_self
  | succ n ih =>
    obtain ⟨x, hx, hrun⟩ := Option.bind_eq_some_iff.mp hrun
    obtain ⟨l', rfl, hrest⟩ := chain_step hchain hx
    exact List.mem_cons_of_mem _ (ih hrest hrun)

theorem chain_from {start : ℕ} {l₁ l₂ : List ℕ} (hchain : Chain t.vnext t.head l (-1))
    (hsplit : t.head :: l = l₁ ++ start :: l₂) : Chain t.vnext start l₂ (-1) := by
  cases l₁ with
  | nil =>
    obtain ⟨rfl, rfl⟩ := List.cons.inj hsplit
    exact hchain
  | cons x l₁ =>
    obtain ⟨rfl, hl⟩ := List.cons.inj hsplit
    subst hl
    exact (chain_append.mp hchain).2

/-- A node that is placed anywhere behind any node of the chain is on the chain. -/
theorem valueInsert_chain {start v : ℕ} {l₁ l₂ : List ℕ} (hchain : Chain t.vnext t.head l (-1))
    (hsplit : t.head :: l = l₁ ++ start :: l₂) (hnd : (v :: t.head :: l).Nodup)
    (hlt : ∀ w ∈ v :: t.head :: l, w < vnodeNum) :
    ∃ t' l', t.valueInsert start v = some t' ∧ Chain t'.vnext t.head l' (-1) ∧ l'.Perm (v :: l) ∧
      t.head :: l' = l₁ ++ start :: (l₂.takeWhile (t.before (t.vnode v).key) ++
        v :: l₂.dropWhile (t.before (t.vnode v).key)) ∧
      t'.mainIndex = t.mainIndex ∧ t'.head = t.head ∧ t'.vCurrentIdx = t.vCurrentIdx ∧ ∀ w,
      t'.pair w = t.pair w := by
  have hrest := chain_from hchain hsplit
  have hsub : ∀ w ∈ v :: start :: l₂, w ∈ v :: t.head :: l := by
    intro w hw
    rw [hsplit]
    simp only [List.mem_cons, List.mem_append] at hw ⊢
    tauto
  have hnd' : (v :: start :: l₂).Nodup := by
    rw [hsplit] at hnd
    refine List.Nodup.sublist ?_ hnd
    exact (List.sublist_append_right l₁ (start :: l₂)).cons_cons v
  obtain ⟨t', hrun, hp⟩ := valueInsert_spec v hrest hnd' fun w hw => hlt w (hsub w hw)
  have hpair : ∀ w, t'.pair w = t.pair w := fun w => by rw [pair, pair, hp.key, hp.value]
  let l₂' := l₂.takeWhile (t.before (t.vnode v).key) ++ v :: l₂.dropWhile (t.before (t.vnode v).key)
  have hperm : l₂'.Perm (v :: l₂) := by
    have :
      l₂'.Perm (v :: (l₂.takeWhile (t.before (t.vnode v).key) ++ l₂.dropWhile (t.before (t.vnode v).key))) :=
      List.perm_middle
    rwa [List.takeWhile_append_dropWhile] at this
  cases l₁ with
  | nil =>
    obtain ⟨rfl, rfl⟩ := List.cons.inj hsplit
    exact ⟨t', l₂', hrun, hp.chain, hperm, rfl, hp.mainIndex, hp.head, hp.vCurrentIdx, hpair⟩
  | cons y l₁ =>
    obtain ⟨rfl, hl⟩ := List.cons.inj hsplit
    have hl' : l = l₁ ++ start :: l₂ := hl
    subst hl'
    -- the front part is not written to
    have hfront : ∀ w ∈ t.head :: l₁, t'.vnext w = t.vnext w := by
      intro w hw
      have hne : w ≠ v ∧ w ∉ start :: l₂ := by
        rw [List.nodup_cons, ← List.cons_append, List.nodup_append] at hnd
        refine ⟨fun he => hnd.1 ?_, fun hm => hnd.2.2.2 w hw w hm rfl⟩
        rw [← he]
        exact List.mem_append_left _ hw
      rw [vnext, vnext, hp.other w hne.1 hne.2]
    refine ⟨t', l₁ ++ start :: l₂', hrun, ?_, ?_, rfl, hp.mainIndex, hp.head, hp.vCurrentIdx, hpair⟩
    · refine chain_append.mpr ⟨?_, hp.chain⟩
      exact (chain_append.mp hchain).1.congr (hfront _ List.mem_cons_self)
        fun w hw => hfront w (List.mem_cons_of_mem _ hw)
    · have h₁ : (l₁ ++ start :: l₂').Perm (l₁ ++ start :: v :: l₂) := (hperm.cons start).append_left l₁
      refine h₁.trans ?_
      have h₂ : (l₁ ++ start :: v :: l₂).Perm (l₁ ++ v :: start :: l₂) :=
        (List.Perm.swap v start l₂).append_left l₁
      exact h₂.trans List.perm_middle

/-- The chain behind the head holds every other vnode that was handed out. -/
structure Strand (t : TandemIndex) (l : List ℕ) : Prop where
  used : t.vCurrentIdx ≤ vnodeNum
  chain : Chain t.vnext t.head l (-1)
  perm : (t.head :: l).Perm (List.range t.vCurrentIdx)

namespace Strand

theorem lt (h : Strand t l) {v : ℕ} (hv : v ∈ t.head :: l) : v < t.vCurrentIdx :=
  List.mem_range.mp (h.perm.mem_iff.mp hv)

theorem lt_vnodeNum (h : Strand t l) {v : ℕ} (hv : v ∈ t.head :: l) : v < vnodeNum :=
  Nat.lt_of_lt_of_le (h.lt hv) h.used

theorem nodup (h : Strand t l) : (t.head :: l).Nodup := h.perm.nodup_iff.mpr List.nodup_range

theorem new_not_mem (h : Strand t l) : t.vCurrentIdx ∉ t.head :: l := fun hm => Nat.lt_irrefl _ (h.lt hm)

theorem withVnode (h : Strand t l) (key value : ℕ) : Chain (t.withVnode key value).vnext t.head l (-1) := by
  refine h.chain.congr ?_ fun v hv => ?_
  · rw [vnext, vnext, t.withVnode_of_ne key value (Nat.ne_of_lt (h.lt List.mem_cons_self))]
  · rw [vnext, vnext, t.withVnode_of_ne key value (Nat.ne_of_lt (h.lt (List.mem_cons_of_mem _ hv)))]

theorem valueInsert (h : Strand t l) {key value start : ℕ} (hroom : t.vCurrentIdx < vnodeNum)
    (hstart : start ∈ t.head :: l) {t₂ : TandemIndex}
    (hins : (t.withVnode key value).valueInsert start t.vCurrentIdx = some t₂) :
    ∃ l', Strand t₂ l' ∧ l'.Perm (t.vCurrentIdx :: l) ∧ t₂.mainIndex = t.mainIndex ∧
    t₂.head = t.head ∧
      (t₂.pair t.vCurrentIdx = (key, value)) ∧ ∀ v ∈ t.head :: l, t₂.pair v = t.pair v := by
  obtain ⟨l₁, l₂, hsplit⟩ := List.append_of_mem hstart
  obtain ⟨t₃, l', hins', hchain, hperm, -, hmain, hhead, hidx, hpair⟩ := valueInsert_chain
    (t := t.withVnode key value) (h.withVnode key value) hsplit (List.nodup_cons.mpr ⟨h.new_not_mem, h.nodup⟩)
    (List.forall_mem_cons.mpr ⟨hroom, fun w hw => h.lt_vnodeNum hw⟩)
  cases hins.symm.trans hins'
  refine ⟨l', ⟨by rw [hidx]; exact hroom, by rw [hhead]; exact hchain, ?_⟩, hperm, hmain, hhead, ?_,
    fun v hv => ?_⟩
  · rw [hhead, hidx, withVnode_vCurrentIdx, List.range_succ]
    refine ((hperm.cons t.head).trans (List.Perm.swap t.vCurrentIdx t.head l)).trans ?_
    exact (h.perm.cons _).trans (List.perm_append_singleton _ _).symm
  · rw [hpair, pair, withVnode_key, withVnode_value]
  · rw [hpair, pair, t.withVnode_of_ne key value (Nat.ne_of_lt (h.lt hv)), ← pair]

end Strand

/-- The chain holds every vnode that was handed out, and level 0 points into it. -/
structure Threaded (t : TandemIndex) (l : List ℕ) : Prop extends Strand t l where
  leveled : ∃ lev, Leveled t.mainIndex lev (t.head :: l)

theorem Threaded.place (h : Threaded t l) {key value : ℕ} (hlev : Leveled t.mainIndex lev (t.head :: l))
    (hroom : t.vCurrentIdx < vnodeNum) {o : Option ℕ} {t₂ : TandemIndex}
    (hrun : (t.withVnode key value).place key t.vCurrentIdx = some (o, t₂)) :
    ∃ l', Strand t₂ l' ∧ Leveled t₂.mainIndex lev (t₂.head :: l') ∧ t.vCurrentIdx ∈ t₂.head :: l' ∧
      (l'.map t₂.pair).Perm ((key, value) :: l.map t.pair) ∧ ∀ n ∈ o, lev n = some 0 := by
  obtain ⟨hlook, start, hins, hstart⟩ := place_cases hrun
  rw [withVnode_mainIndex] at hlook
  have ho : ∀ n ∈ o, lev n = some 0 := fun n hn => hlev.lookup (hlook.trans (congrArg some hn))
  have hmem : start ∈ t.head :: l := by
    rcases hstart with ⟨-, rfl⟩ | ⟨n, rfl, hdown⟩
    · exact List.mem_cons_self
    · exact hlev.bottom_mem (ho n rfl) (fun v hv => h.toStrand.lt_vnodeNum hv) hdown
  obtain ⟨l', hs, hperm, hmain, hhead, hnew, hold⟩ := h.toStrand.valueInsert hroom hmem hins
  refine ⟨l', hs, ?_, List.mem_cons_of_mem _ (hperm.mem_iff.mpr List.mem_cons_self), ?_, ho⟩
  · rw [hmain, hhead]
    exact hlev.mono (List.cons_subset_cons _ fun v hv => hperm.mem_iff.mpr (List.mem_cons_of_mem _ hv))
  · refine (hperm.map t₂.pair).trans ?_
    rw [List.map_cons, hnew, List.map_congr_left fun v hv => hold v (List.mem_cons_of_mem _ hv)]

theorem Strand.cover {n newlevel : ℕ} {ret : Bool} (h : Strand t l) (hlev : Leveled t.mainIndex lev (t.head :: l))
    (hn : lev n = some 0) (hpos : 1 ≤ newlevel) (hlevel : newlevel ≤ maxLevel)
    (hrun : t.cover n newlevel = some (ret, t')) : ret = true ∧ Threaded t' l ∧ t'.pair = t.pair := by
  have h₁ : Leveled (t.counted n).mainIndex lev (t.head :: l) :=
    hlev.modify_data (f := fun m => { m with coveredNodes := m.coveredNodes + 1 }) hn rfl rfl
  obtain ⟨-, rfl, rfl⟩ | ⟨-, w, s', hw, hins, rfl⟩ := cover_cases hrun
  · exact ⟨rfl, ⟨⟨h.used, h.chain, h.perm⟩, lev, h₁⟩, rfl⟩
  · have hmem : w ∈ t.head :: l := by
      obtain ⟨d, hd, hadv⟩ := Option.bind_eq_some_iff.mp hw
      obtain ⟨l₁, l₂, hsplit⟩ := List.append_of_mem (h₁.bottom_mem hn (fun v hv => h.lt_vnodeNum hv) hd)
      rw [hsplit]
      exact List.mem_append_right _ (advance_mem (t := t.counted n) (chain_from h.chain hsplit) hadv)
    obtain ⟨rfl, hs'⟩ := h₁.insertWhenRebalance hmem hpos hlevel hins
    exact ⟨rfl, ⟨⟨h.used, h.chain, h.perm⟩, hs'⟩, rfl⟩

theorem Threaded.insert (h : Threaded t l) {key value newlevel : ℕ} {ret : Bool} (hpos : 1 ≤ newlevel)
    (hlevel : newlevel ≤ maxLevel) (hrun : t.insert key value newlevel = some (ret, t')) :
    (ret = false ∧ t' = t) ∨ (ret = true ∧ ∃ l', Threaded t' l' ∧
      (l'.map t'.pair).Perm ((key, value) :: l.map t.pair)) := by
  obtain ⟨lev, hlev⟩ := h.leveled
  obtain ⟨-, hret, hsame⟩ | ⟨hroom, o, t₂, hplace, hindex⟩ := insert_cases hrun
  · exact .inl ⟨hret, hsame⟩
  obtain ⟨l', hs, hlev', hnew, hpairs, ho⟩ := h.place hlev hroom hplace
  obtain ⟨-, s', hins, rfl⟩ | ⟨n, rfl, hcover⟩ := hindex
  · obtain ⟨rfl, hs'⟩ := hlev'.insert hnew hpos hlevel hins
    exact .inr ⟨rfl, l', ⟨⟨hs.used, hs.chain, hs.perm⟩, hs'⟩, hpairs⟩
  · obtain ⟨rfl, h', hpair⟩ := hs.cover hlev' (ho n rfl) hpos hlevel hcover
    exact .inr ⟨rfl, l', h', hpair ▸ hpairs⟩

/-! ## Every run -/

/-- The pairs of the calls that returned true. -/
def insertedPairs (cs : List Call) (rets : List Bool) : List (ℕ × ℕ) :=
  (cs.zip rets).filterMap fun r => if r.2 then some (r.1.key, r.1.value) else none

theorem Threaded.insertAll (h : Threaded t l) {cs : List Call}
    (hlevel : ∀ c ∈ cs, 1 ≤ c.newlevel ∧ c.newlevel ≤ maxLevel) {rets : List Bool}
    (hrun : insertAll t cs = some (rets, t')) :
    ∃ l', Threaded t' l' ∧ (l'.map t'.pair).Perm (l.map t.pair ++ insertedPairs cs rets) := by
  induction cs generalizing t l rets with
  | nil =>
    cases hrun
    exact ⟨l, h, by simp [insertedPairs]⟩
  | cons c cs ih =>
    obtain ⟨⟨ret, t₁⟩, ⟨rets', t₂⟩, hc, hrest, hdone⟩ := insertAll_cons_eq_some.mp hrun
    cases hdone
    obtain ⟨hpos, hle⟩ := hlevel c List.mem_cons_self
    have hlevel' : ∀ d ∈ cs, 1 ≤ d.newlevel ∧ d.newlevel ≤ maxLevel :=
      fun d hd => hlevel d (List.mem_cons_of_mem _ hd)
    rcases h.insert hpos hle hc with ⟨rfl, rfl⟩ | ⟨rfl, l₁, h₁, hperm⟩
    · obtain ⟨l', h', hperm'⟩ := ih h hlevel' hrest
      exact ⟨l', h', by simpa [insertedPairs] using hperm'⟩
    · obtain ⟨l', h', hperm'⟩ := ih h₁ hlevel' hrest
      refine ⟨l', h', hperm'.trans ?_⟩
      have hstep : insertedPairs (c :: cs) (true :: rets') = (c.key, c.value) :: insertedPairs cs rets' := rfl
      rw [hstep]
      exact (hperm.append_right _).trans List.perm_middle.symm

theorem new_bottom : ∀ t ∈ TandemIndex.new, (t.mainIndex.inode (t.mainIndex.header 0)).down = t.head := by
  decide +kernel

theorem new_threaded (hnew : TandemIndex.new = some t) : Threaded t [] := by
  have h := (new_indexed hnew).shape
  obtain ⟨hstart, hidx, hhead, hnext⟩ := new_starting t hnew
  let lev := fun n => (List.range maxLevel).find? fun i => decide (t.mainIndex.header i = n)
  have hlev : ∀ {n i}, lev n = some i → i < maxLevel ∧ t.mainIndex.header i = n := fun hn =>
    ⟨List.mem_range.mp (List.mem_of_find?_eq_some hn), by simpa using List.find?_some hn⟩
  have hheader : ∀ i < maxLevel, t.mainIndex.header i ∈ t.mainIndex.levelIds (fun _ => []) i := fun i _ =>
    List.mem_cons_self
  have hself : ∀ i < maxLevel, lev (t.mainIndex.header i) = some i := fun i hi => by
    cases hi' : lev (t.mainIndex.header i) with
    | none => simpa using List.find?_eq_none.mp hi' i (List.mem_range.mpr hi)
    | some j =>
      obtain ⟨hj, he⟩ := hlev hi'
      by_contra hne
      have hij : j ≠ i := fun he' => hne (by rw [he'])
      exact h.disjoint j hj i hi hij (he ▸ hheader j hj) (hheader i hi)
  have hstrand : Strand t [] := by
    refine ⟨by rw [hidx]; decide, ?_, ?_⟩
    · rw [hhead]
      exact hnext
    · rw [hidx, hhead]
      exact List.Perm.refl _
  refine ⟨hstrand, lev, fun n hn => ⟨h.fresh n hn, ?_⟩, h.level_pos, h.level_le, hself, fun n i hn => ?_,
    fun n i hn => ?_, fun n hn => ?_⟩
  · rw [Option.eq_none_iff_forall_not_mem]
    intro i hi
    obtain ⟨hlt, rfl⟩ := hlev hi
    exact Nat.not_lt_of_ge hn (h.lt i hlt _ (hheader i hlt))
  · obtain ⟨hi, rfl⟩ := hlev hn
    exact .inl (h.chain i hi)
  · obtain ⟨hi, rfl⟩ := hlev hn
    exact .inr ⟨t.mainIndex.header i, h.header_down i hi, hself i (Nat.lt_of_succ_lt hi)⟩
  · obtain ⟨-, rfl⟩ := hlev hn
    exact .inr ⟨t.head, List.mem_cons_self, new_bottom t hnew⟩

/-- After every run, for any keys and drawn levels, the walk from the head ends, visits
every vnode that was handed out once, and finds just the pairs that were inserted. -/
theorem insertAll_value_chain {t₀ : TandemIndex} (hnew : TandemIndex.new = some t₀) (cs : List Call)
    (hlevel : ∀ c ∈ cs, 1 ≤ c.newlevel ∧ c.newlevel ≤ maxLevel) (rets : List Bool) (t : TandemIndex)
    (hrun : insertAll t₀ cs = some (rets, t)) :
    ∃ l, t.valueNodes vnodeNum t.head = some l ∧ (t.head :: l).Perm (List.range t.vCurrentIdx) ∧
      (l.map t.pair).Perm (insertedPairs cs rets) := by
  obtain ⟨l, h, hpairs⟩ := (new_threaded hnew).insertAll hlevel hrun
  refine ⟨l, ?_, h.perm, by simpa using hpairs⟩
  have hlen := h.perm.length_eq
  rw [List.length_cons, List.length_range] at hlen
  have := h.used
  exact valueNodes_eq h.chain (fun v hv => h.toStrand.lt_vnodeNum (List.mem_cons_of_mem _ hv)) (by omega)

/-- One key three times, and key 0. -/
def repeated : List Call := [⟨7, 1, 2⟩, ⟨7, 2, 1⟩, ⟨0, 3, 16⟩, ⟨7, 4, 1⟩, ⟨3, 5, 4⟩]

theorem insertAll_value_chain_repeated : ∃ rets t l, insertAll empty repeated = some (rets, t) ∧
    t.valueNodes vnodeNum t.head = some l ∧ (t.head :: l).Perm (List.range t.vCurrentIdx) ∧
    (l.map t.pair).Perm (insertedPairs repeated rets) := by
  obtain ⟨⟨rets, t⟩, hr⟩ :=
    Option.isSome_iff_exists.mp (show (insertAll empty repeated).isSome = true by decide +kernel)
  obtain ⟨l, hl⟩ := insertAll_value_chain new_eq_empty repeated (by decide) rets t hr
  exact ⟨rets, t, l, hr, hl⟩

end TandemIndex

end Hkv.Tandem
