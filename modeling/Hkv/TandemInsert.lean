import Hkv.TandemShape

/-!
# Inserting towers

Both insertion paths build a tower of fresh inodes and link it in, level by level. The
shape survives whichever predecessor a level is given, except that a split behind the
last inode of the top level takes that inode for the header.
-/
namespace Hkv.Tandem
open LinkedChain

namespace DramSkiplist

section Modify
variable (s : DramSkiplist) (id : ℕ) (f : Inode → Inode)

@[simp] theorem modify_self : (s.modify id f).inode id = f (s.inode id) := by simp [modify]

theorem modify_of_ne {n : ℕ} (h : n ≠ id) : (s.modify id f).inode n = s.inode n := by simp [modify, h]

@[simp] theorem modify_header : (s.modify id f).header = s.header := rfl
@[simp] theorem modify_tail : (s.modify id f).tail = s.tail := rfl
@[simp] theorem modify_level : (s.modify id f).level = s.level := rfl
@[simp] theorem modify_currentIdx : (s.modify id f).currentIdx = s.currentIdx := rfl

end Modify

/-! ## Building a tower -/

/-- `s'` is `s` with a tower of `newlevel` unlinked inodes for `key`. -/
structure Tower (s s' : DramSkiplist) (inodes : ℕ → ℕ) (key newlevel : ℕ) : Prop where
  header : s'.header = s.header
  tail : s'.tail = s.tail
  level : s'.level = s.level
  currentIdx : s'.currentIdx = s.currentIdx + newlevel
  id : ∀ i < newlevel, inodes i = s.currentIdx + (newlevel - 1 - i)
  old : ∀ n < s.currentIdx, s'.inode n = s.inode n
  fresh : ∀ n, s'.currentIdx ≤ n → s'.inode n = poolInode
  bottom : s'.inode (inodes 0) = ⟨-1, key, key, -1, 0⟩
  upper : ∀ i, i + 1 < newlevel → s'.inode (inodes (i + 1)) = ⟨-1, key, key, inodes i, 0⟩

theorem towerLoop_spec (key i : ℕ) (s : DramSkiplist) (inodes : ℕ → ℕ)
    (hroom : s.currentIdx + i ≤ inodeNum) (hfresh : ∀ n, s.currentIdx ≤ n → s.inode n = poolInode)
    (htop : inodes i < s.currentIdx) (hnode : s.inode (inodes i) = ⟨-1, key, key, -1, 0⟩) :
    ∃ s' inodes', towerLoop key i s inodes = some (s', inodes') ∧
      s'.header = s.header ∧ s'.tail = s.tail ∧ s'.level = s.level ∧
      s'.currentIdx = s.currentIdx + i ∧ (∀ j, i ≤ j → inodes' j = inodes j) ∧
      (∀ j < i, inodes' j = s.currentIdx + (i - 1 - j)) ∧
      (∀ n < s.currentIdx, n ≠ inodes i → s'.inode n = s.inode n) ∧
      (∀ n, s'.currentIdx ≤ n → s'.inode n = poolInode) ∧
      s'.inode (inodes' 0) = ⟨-1, key, key, -1, 0⟩ ∧
      ∀ j < i, s'.inode (inodes' (j + 1)) = ⟨-1, key, key, inodes' j, 0⟩ := by
  induction i generalizing s inodes with
  | zero =>
    exact ⟨s, inodes, rfl, rfl, rfl, rfl, rfl, fun _ _ => rfl, by simp, fun _ _ _ => rfl, hfresh, hnode, by simp⟩
  | succ i ih =>
    have hlt : s.currentIdx < inodeNum := by omega
    let id := s.currentIdx
    let s₁ : DramSkiplist := { s with currentIdx := id + 1 }
    let s₂ := (s₁.modify (inodes (i + 1)) fun n => { n with down := id }).initTowerInode id key
    have hne : inodes (i + 1) ≠ id := Nat.ne_of_lt htop
    have hid : s₂.inode id = ⟨-1, key, key, -1, 0⟩ := by
      have h₁ : (s₁.modify (inodes (i + 1)) fun n => { n with down := id }).inode id = poolInode := by
        rw [modify_of_ne _ _ _ hne.symm]
        exact hfresh id (Nat.le_refl _)
      simp only [s₂, initTowerInode, modify_self, h₁]
      rfl
    have hup : s₂.inode (inodes (i + 1)) = ⟨-1, key, key, id, 0⟩ := by
      simp only [s₂, initTowerInode]
      rw [modify_of_ne _ _ _ hne, modify_self]
      simp only [s₁, hnode]
    have hold : ∀ n, n ≠ id → n ≠ inodes (i + 1) → s₂.inode n = s.inode n := fun n h₁ h₂ => by
      simp only [s₂, initTowerInode]
      rw [modify_of_ne _ _ _ h₁, modify_of_ne _ _ _ h₂]
    obtain ⟨s', inodes', hrun, hh, ht, hl, hc, hge, hids, hkeep, hfr, hbot, hupper⟩ :=
      ih s₂ (Function.update inodes i id) (by show id + 1 + i ≤ inodeNum; omega)
        (fun n hn => by
          have hn' : id + 1 ≤ n := hn
          rw [hold n (by omega) (by omega)]
          exact hfresh n (by omega))
        (by rw [Function.update_self]; exact Nat.lt_succ_self id)
        (by rw [Function.update_self]; exact hid)
    rw [Function.update_self] at hkeep
    have hc' : s'.currentIdx = id + 1 + i := hc
    have htopid : inodes' (i + 1) = inodes (i + 1) := by
      rw [hge (i + 1) (Nat.le_succ i), Function.update_of_ne (Nat.succ_ne_self i)]
    have hiid : inodes' i = id := by rw [hge i (Nat.le_refl i), Function.update_self]
    refine ⟨s', inodes', ?_, hh, ht, hl, by omega, ?_, ?_, ?_, hfr, hbot, ?_⟩
    · simp only [towerLoop, getNextNode, hlt, if_true, Option.bind_eq_bind, Option.bind_some]
      exact hrun
    · intro j hj
      rw [hge j (by omega), Function.update_of_ne (by omega)]
    · intro j hj
      rcases Nat.lt_succ_iff_lt_or_eq.mp hj with hj | rfl
      · have hj' : inodes' j = id + 1 + (i - 1 - j) := hids j hj
        omega
      · rw [hiid]
        omega
    · intro n hn hne'
      rw [hkeep n (by show n < id + 1; omega) (Nat.ne_of_lt hn), hold n (Nat.ne_of_lt hn) hne']
    · intro j hj
      rcases Nat.lt_succ_iff_lt_or_eq.mp hj with hj | rfl
      · exact hupper j hj
      · rw [htopid, hiid, hkeep _ (by show inodes (j + 1) < id + 1; omega) hne, hup]

theorem newTower_spec {s : DramSkiplist} (key newlevel : ℕ) (hpos : 1 ≤ newlevel)
    (hroom : s.currentIdx + newlevel ≤ inodeNum) (hfresh : ∀ n, s.currentIdx ≤ n → s.inode n = poolInode) :
    ∃ s' inodes, newTower s key newlevel = some (s', inodes) ∧ Tower s s' inodes key newlevel := by
  have hlt : s.currentIdx < inodeNum := by omega
  let id := s.currentIdx
  let s₁ := ({ s with currentIdx := id + 1 } : DramSkiplist).initTowerInode id key
  have hid : s₁.inode id = ⟨-1, key, key, -1, 0⟩ := by
    have hpool : s.inode id = poolInode := hfresh id (Nat.le_refl _)
    simp only [s₁, initTowerInode, modify_self, hpool]
    rfl
  have hold : ∀ n, n ≠ id → s₁.inode n = s.inode n := fun n hn => by
    simp only [s₁, initTowerInode]
    rw [modify_of_ne _ _ _ hn]
  obtain ⟨s', inodes, hrun, hh, ht, hl, hc, hge, hids, hkeep, hfr, hbot, hup⟩ :=
    towerLoop_spec key (newlevel - 1) s₁ (Function.update (fun _ => 0) (newlevel - 1) id)
      (by show id + 1 + (newlevel - 1) ≤ inodeNum; omega)
      (fun n hn => by
        have hn' : id + 1 ≤ n := hn
        rw [hold n (by omega)]
        exact hfresh n (by omega))
      (by rw [Function.update_self]; exact Nat.lt_succ_self id) (by rw [Function.update_self]; exact hid)
  rw [Function.update_self] at hkeep
  have hc' : s'.currentIdx = id + 1 + (newlevel - 1) := hc
  refine ⟨s', inodes, ?_, hh, ht, hl, by omega, ?_, ?_, hfr, hbot, fun i hi => hup i (by omega)⟩
  · simp only [newTower, getNextNode, hlt, if_true, Option.bind_eq_bind, Option.bind_some]
    exact hrun
  · intro i hi
    rcases Nat.lt_or_ge i (newlevel - 1) with h | h
    · have hi' : inodes i = id + 1 + (newlevel - 1 - 1 - i) := hids i h
      omega
    · have heq : i = newlevel - 1 := by omega
      subst heq
      rw [hge _ (Nat.le_refl _), Function.update_self]
      omega
  · intro n hn
    rw [hkeep n (by show n < id + 1; omega) (Nat.ne_of_lt hn), hold n (Nat.ne_of_lt hn)]

theorem towerLoop_room {key i : ℕ} {s : DramSkiplist} {inodes : ℕ → ℕ} (hused : s.currentIdx ≤ inodeNum)
    (h : towerLoop key i s inodes ≠ none) : s.currentIdx + i ≤ inodeNum := by
  induction i generalizing s inodes with
  | zero => exact hused
  | succ i ih =>
    by_cases hlt : s.currentIdx < inodeNum
    · simp only [towerLoop, getNextNode, hlt, if_true, Option.bind_eq_bind, Option.bind_some] at h
      have hrest := ih (Nat.succ_le_of_lt hlt) h
      have hidx : s.currentIdx + 1 + i ≤ inodeNum := hrest
      omega
    · simp [towerLoop, getNextNode, hlt] at h

theorem newTower_room {key newlevel : ℕ} {s : DramSkiplist} (h : newTower s key newlevel ≠ none) :
    s.currentIdx + newlevel ≤ inodeNum := by
  by_cases hlt : s.currentIdx < inodeNum
  · simp only [newTower, getNextNode, hlt, if_true, Option.bind_eq_bind, Option.bind_some] at h
    have hrest := towerLoop_room (Nat.succ_le_of_lt hlt) h
    have hidx : s.currentIdx + 1 + (newlevel - 1) ≤ inodeNum := hrest
    omega
  · simp [newTower, getNextNode, hlt] at h

/-! ## Linking a tower in -/

/-- `s'` is `s` with `inodes i` linked in behind `u i` on every level below `newlevel`.
A predecessor with `max_key` 0 is treated as the header: it keeps its range. -/
structure Spliced (s s' : DramSkiplist) (inodes u : ℕ → ℕ) (key newlevel : ℕ) : Prop where
  header : s'.header = s.header
  tail : s'.tail = s.tail
  level : s'.level = s.level
  currentIdx : s'.currentIdx = s.currentIdx
  other : ∀ n, (∀ i < newlevel, n ≠ inodes i ∧ n ≠ u i) → s'.inode n = s.inode n
  new_next : ∀ i < newlevel, (s'.inode (inodes i)).next = (s.inode (u i)).next
  new_min : ∀ i < newlevel, (s'.inode (inodes i)).minKey = key
  new_max : ∀ i < newlevel, ∀ m : ℕ, (s.inode (u i)).next = m → (s'.inode (inodes i)).maxKey =
    if (s.inode (u i)).maxKey = 0 then (s.inode m).minKey else (s.inode (u i)).maxKey
  new_down : ∀ i < newlevel, (s'.inode (inodes i)).down = (s.inode (inodes i)).down
  new_covered : ∀ i < newlevel, (s'.inode (inodes i)).coveredNodes = (s.inode (inodes i)).coveredNodes
  pred : ∀ i < newlevel, s'.inode (u i) = { s.inode (u i) with
    next := inodes i, maxKey := if (s.inode (u i)).maxKey = 0 then 0 else key }

/-- What the loops need: the two ids of a level are different, and so are those of
different levels; the node behind a predecessor is none of them. -/
structure Splicable (s : DramSkiplist) (inodes u : ℕ → ℕ) (newlevel : ℕ) : Prop where
  new_ne : ∀ i < newlevel, ∀ j < newlevel, inodes i = inodes j → i = j
  pred_ne : ∀ i < newlevel, ∀ j < newlevel, u i = u j → i = j
  disjoint : ∀ i < newlevel, ∀ j < newlevel, inodes i ≠ u j
  next : ∀ i < newlevel, ∃ m : ℕ, (s.inode (u i)).next = m ∧ m < inodeNum ∧
    ∀ j < newlevel, m ≠ inodes j ∧ (m = u j → j = i)

/-- What linking `id` behind `u` does to one level, with `m` the node behind `u`. -/
structure Step (s s' : DramSkiplist) (key id u m : ℕ) : Prop where
  header : s'.header = s.header
  tail : s'.tail = s.tail
  level : s'.level = s.level
  currentIdx : s'.currentIdx = s.currentIdx
  other : ∀ n, n ≠ id → n ≠ u → s'.inode n = s.inode n
  new : s'.inode id = { s.inode id with
    next := m, minKey := key,
    maxKey := if (s.inode u).maxKey = 0 then (s.inode m).minKey else (s.inode u).maxKey }
  pred : s'.inode u = { s.inode u with next := id, maxKey := if (s.inode u).maxKey = 0 then 0 else key }

theorem splitStep_spec {s : DramSkiplist} (key : ℕ) {id u m : ℕ} (hne : id ≠ u) (hm : (s.inode u).next = m)
    (hlt : m < inodeNum) :
    ∃ s₁, s.splitRange key id u = some s₁ ∧ Step s ((s₁.modify id fun n =>
      { n with next := (s₁.inode u).next }).modify u fun n => { n with next := id }) key id u m := by
  by_cases hz : (s.inode u).maxKey = 0
  · refine ⟨s.modify id fun n => { n with minKey := key, maxKey := (s.inode m).minKey }, ?_, rfl, rfl, rfl, rfl,
      ?_, ?_, ?_⟩
    · simp [splitRange, hz, hm, nodeAt_of_lt hlt]
    · intro n h₁ h₂
      rw [modify_of_ne _ _ _ h₂, modify_of_ne _ _ _ h₁, modify_of_ne _ _ _ h₁]
    · rw [modify_of_ne _ _ _ hne, modify_self, modify_self, modify_of_ne _ _ _ hne.symm]
      simp [hz, hm]
    · rw [modify_self, modify_of_ne _ _ _ hne.symm, modify_of_ne _ _ _ hne.symm]
      simp [hz]
  · refine ⟨((s.modify id fun n => { n with maxKey := (s.inode u).maxKey }).modify u
      fun n => { n with maxKey := key }).modify id fun n => { n with minKey := key }, ?_, rfl, rfl, rfl, rfl,
      ?_, ?_, ?_⟩
    · simp [splitRange, hz]
    · intro n h₁ h₂
      rw [modify_of_ne _ _ _ h₂, modify_of_ne _ _ _ h₁, modify_of_ne _ _ _ h₁, modify_of_ne _ _ _ h₂,
        modify_of_ne _ _ _ h₁]
    · rw [modify_of_ne _ _ _ hne, modify_self, modify_self, modify_of_ne _ _ _ hne, modify_self,
        modify_of_ne _ _ _ hne.symm, modify_self, modify_of_ne _ _ _ hne.symm]
      simp [hz, hm]
    · rw [modify_self, modify_of_ne _ _ _ hne.symm, modify_of_ne _ _ _ hne.symm, modify_self,
        modify_of_ne _ _ _ hne.symm]
      simp [hz]

theorem linkHead_spec {s : DramSkiplist} (key : ℕ) {id u m : ℕ} (hne : id ≠ u) (hmid : m ≠ id) (hmu : m ≠ u)
    (hz : (s.inode u).maxKey = 0) : Step s (s.linkHead key id u m m) key id u m := by
  unfold linkHead
  refine ⟨rfl, rfl, rfl, rfl, fun n h₁ h₂ => ?_, ?_, ?_⟩
  · rw [modify_of_ne _ _ _ h₁, modify_of_ne _ _ _ h₂, modify_of_ne _ _ _ h₁]
  · rw [modify_self, modify_of_ne _ _ _ hne, modify_self, modify_of_ne _ _ _ hmu, modify_of_ne _ _ _ hmid]
    simp [hz]
  · rw [modify_of_ne _ _ _ hne.symm, modify_self, modify_of_ne _ _ _ hne.symm]
    simp [hz]

theorem Splicable.below {s s₁ : DramSkiplist} {inodes u : ℕ → ℕ} {key i m : ℕ}
    (h : Splicable s inodes u (i + 1)) (hs : Step s s₁ key (inodes i) (u i) m) :
    Splicable s₁ inodes u i := by
  refine ⟨fun a ha b hb => h.new_ne a (by omega) b (by omega), fun a ha b hb => h.pred_ne a (by omega) b (by omega),
    fun a ha b hb => h.disjoint a (by omega) b (by omega), fun a ha => ?_⟩
  obtain ⟨k, hk, hlt, hall⟩ := h.next a (by omega)
  have hu : s₁.inode (u a) = s.inode (u a) := by
    refine hs.other _ (h.disjoint i (by omega) a (by omega)).symm fun heq => ?_
    exact absurd (h.pred_ne a (by omega) i (by omega) heq) (Nat.ne_of_lt ha)
  exact ⟨k, by rw [hu, hk], hlt, fun j hj => hall j (by omega)⟩

theorem Spliced.succ {s s₁ s' : DramSkiplist} {inodes u : ℕ → ℕ} {key i m : ℕ}
    (h : Splicable s inodes u (i + 1)) (hm : (s.inode (u i)).next = m)
    (hs : Step s s₁ key (inodes i) (u i) m) (hr : Spliced s₁ s' inodes u key i) :
    Spliced s s' inodes u key (i + 1) := by
  -- levels below `i` see neither the new inode nor the predecessor of level `i`
  have hnew : ∀ j < i, s₁.inode (inodes j) = s.inode (inodes j) := fun j hj =>
    hs.other _ (fun heq => absurd (h.new_ne j (by omega) i (by omega) heq) (Nat.ne_of_lt hj))
      (h.disjoint j (by omega) i (by omega))
  have hpred : ∀ j < i, s₁.inode (u j) = s.inode (u j) := fun j hj =>
    hs.other _ (h.disjoint i (by omega) j (by omega)).symm
      (fun heq => absurd (h.pred_ne j (by omega) i (by omega) heq) (Nat.ne_of_lt hj))
  have htop : s'.inode (inodes i) = s₁.inode (inodes i) := hr.other _ fun j hj =>
    ⟨fun heq => absurd (h.new_ne i (by omega) j (by omega) heq) (Nat.ne_of_gt hj),
      h.disjoint i (by omega) j (by omega)⟩
  have htopu : s'.inode (u i) = s₁.inode (u i) := hr.other _ fun j hj =>
    ⟨(h.disjoint j (by omega) i (by omega)).symm,
      fun heq => absurd (h.pred_ne i (by omega) j (by omega) heq) (Nat.ne_of_gt hj)⟩
  refine ⟨hr.header.trans hs.header, hr.tail.trans hs.tail, hr.level.trans hs.level,
    hr.currentIdx.trans hs.currentIdx, ?_, ?_, ?_, ?_, ?_, ?_, ?_⟩
  · intro n hn
    rw [hr.other n fun j hj => hn j (by omega), hs.other n (hn i (by omega)).1 (hn i (by omega)).2]
  all_goals
    intro j hj
    rcases Nat.lt_succ_iff_lt_or_eq.mp hj with hj | rfl
  · rw [hr.new_next j hj, hpred j hj]
  · rw [htop, hs.new, hm]
  · exact hr.new_min j hj
  · rw [htop, hs.new]
  · intro k hk
    obtain ⟨k', hk', -, hall⟩ := h.next j (by omega)
    obtain rfl : k' = k := Int.ofNat.inj (hk'.symm.trans hk)
    have hkk : s₁.inode k' = s.inode k' := by
      refine hs.other _ (hall i (by omega)).1 fun heq => ?_
      exact absurd ((hall i (by omega)).2 heq) (Nat.ne_of_gt hj)
    rw [hr.new_max j hj k' (by rw [hpred j hj, hk]), hpred j hj, hkk]
  · intro k hk
    obtain rfl : m = k := Int.ofNat.inj (hm.symm.trans hk)
    rw [htop, hs.new]
  · rw [hr.new_down j hj, hnew j hj]
  · rw [htop, hs.new]
  · rw [hr.new_covered j hj, hnew j hj]
  · rw [htop, hs.new]
  · rw [hr.pred j hj, hpred j hj]
  · rw [htopu, hs.pred]

theorem splitLoop_spec (key : ℕ) {inodes u : ℕ → ℕ} (i : ℕ) {s : DramSkiplist}
    (h : Splicable s inodes u i) :
    ∃ s', splitLoop key inodes u i s = some s' ∧ Spliced s s' inodes u key i := by
  induction i generalizing s with
  | zero => exact ⟨s, rfl,
      ⟨rfl, rfl, rfl, rfl, fun _ _ => rfl, by simp, by simp, by simp, by simp, by simp, by simp⟩⟩
  | succ i ih =>
    obtain ⟨m, hm, hlt, hall⟩ := h.next i (Nat.lt_succ_self i)
    obtain ⟨s₁, hrange, hs⟩ := splitStep_spec key
      (h.disjoint i (Nat.lt_succ_self i) i (Nat.lt_succ_self i)) hm hlt
    obtain ⟨s', hrun, hr⟩ := ih (h.below hs)
    exact ⟨s', by simp [splitLoop, hrange, hrun], Spliced.succ h hm hs hr⟩

theorem headLoop_spec (key : ℕ) {inodes : ℕ → ℕ} (i : ℕ) {s : DramSkiplist}
    (h : Splicable s inodes s.header i) (hz : ∀ j < i, (s.inode (s.header j)).maxKey = 0)
    (hself : ∀ j < i, (s.inode (s.header j)).next ≠ s.header j) :
    ∃ s', headLoop key inodes i s = some s' ∧ Spliced s s' inodes s.header key i := by
  induction i generalizing s with
  | zero => exact ⟨s, rfl,
      ⟨rfl, rfl, rfl, rfl, fun _ _ => rfl, by simp, by simp, by simp, by simp, by simp, by simp⟩⟩
  | succ i ih =>
    obtain ⟨m, hm, hlt, hall⟩ := h.next i (Nat.lt_succ_self i)
    have hmu : m ≠ s.header i := fun heq => hself i (Nat.lt_succ_self i) (by rw [hm, heq])
    have hs := linkHead_spec key (h.disjoint i (Nat.lt_succ_self i) i (Nat.lt_succ_self i))
      (hall i (Nat.lt_succ_self i)).1 hmu (hz i (Nat.lt_succ_self i))
    have hsame : ∀ j < i, (s.linkHead key (inodes i) (s.header i) m m).inode (s.header j) =
        s.inode (s.header j) := fun j hj => hs.other (s.header j)
      (h.disjoint i (Nat.lt_succ_self i) j (by omega)).symm
      (fun heq => absurd (h.pred_ne j (by omega) i (Nat.lt_succ_self i) heq) (Nat.ne_of_lt hj))
    have hheader : (s.linkHead key (inodes i) (s.header i) m m).header = s.header := hs.header
    obtain ⟨s', hrun, hr⟩ := ih (s := s.linkHead key (inodes i) (s.header i) m m)
      (by rw [hheader]; exact h.below hs)
      (fun j hj => by rw [hheader, hsame j hj]; exact hz j (by omega))
      (fun j hj => by rw [hheader, hsame j hj]; exact hself j (by omega))
    rw [hheader] at hr
    exact ⟨s', by simp [headLoop, hm, nodeAt_of_lt hlt, hrun], Spliced.succ h hm hs hr⟩

/-! ## The shape after a splice -/

/-- Level list `l` with `n` behind `u`, where `h` is the header. -/
def insertBehind (h u n : ℕ) (l : List ℕ) : List ℕ :=
  if u = h then n :: l else l.flatMap fun x => if x = u then [x, n] else [x]

theorem insertBehind_header (h n : ℕ) (l : List ℕ) : insertBehind h h n l = n :: l := by simp [insertBehind]

theorem insertBehind_split {h u n : ℕ} {front back : List ℕ} (hu : u ≠ h) (hf : u ∉ front) (hb : u ∉ back) :
    insertBehind h u n (front ++ u :: back) = front ++ u :: n :: back := by
  have hsame : ∀ l : List ℕ, u ∉ l → (l.flatMap fun x => if x = u then [x, n] else [x]) = l := by
    intro l hl
    induction l with
    | nil => rfl
    | cons y l ih =>
      have hy : y ≠ u := fun he => hl (he ▸ List.mem_cons_self)
      simp [hy, ih fun hm => hl (List.mem_cons_of_mem _ hm)]
  simp [insertBehind, hu, hsame front hf, hsame back hb]

theorem mem_insertBehind {h u n x : ℕ} {l : List ℕ} (hu : u = h ∨ u ∈ l) :
    x ∈ insertBehind h u n l ↔ x = n ∨ x ∈ l := by
  by_cases hh : u = h
  · simp [insertBehind, hh]
  · have hul : u ∈ l := hu.resolve_left hh
    simp only [insertBehind, if_neg hh, List.mem_flatMap]
    constructor
    · rintro ⟨y, hy, hx⟩
      split at hx
      · rcases List.mem_cons.mp hx with rfl | hx
        · exact Or.inr hy
        · exact Or.inl (List.mem_singleton.mp hx)
      · exact Or.inr (List.mem_singleton.mp hx ▸ hy)
    · rintro (rfl | hx)
      · exact ⟨u, hul, by simp⟩
      · exact ⟨x, hx, by split <;> simp⟩

/-- `s'` is `s` with a tower for `key` linked in behind the nodes `u i`. Counters of
covered nodes are left open. -/
structure Grown (s s' : DramSkiplist) (inodes u : ℕ → ℕ) (key newlevel : ℕ) : Prop where
  header : s'.header = s.header
  tail : s'.tail = s.tail
  currentIdx : s'.currentIdx = s.currentIdx + newlevel
  id : ∀ i < newlevel, inodes i = s.currentIdx + (newlevel - 1 - i)
  fresh : ∀ n, s'.currentIdx ≤ n → s'.inode n = poolInode
  other : ∀ n < s.currentIdx, (∀ i < newlevel, n ≠ u i) → s'.inode n = s.inode n
  new_next : ∀ i < newlevel, (s'.inode (inodes i)).next = (s.inode (u i)).next
  new_min : ∀ i < newlevel, (s'.inode (inodes i)).minKey = key
  new_max : ∀ i < newlevel, ∀ m : ℕ, (s.inode (u i)).next = m → (s'.inode (inodes i)).maxKey =
    if (s.inode (u i)).maxKey = 0 then (s.inode m).minKey else (s.inode (u i)).maxKey
  new_down : ∀ i, i + 1 < newlevel → (s'.inode (inodes (i + 1))).down = inodes i
  pred_next : ∀ i < newlevel, (s'.inode (u i)).next = inodes i
  pred_min : ∀ i < newlevel, (s'.inode (u i)).minKey = (s.inode (u i)).minKey
  pred_max : ∀ i < newlevel, (s'.inode (u i)).maxKey = if (s.inode (u i)).maxKey = 0 then 0 else key
  pred_down : ∀ i < newlevel, (s'.inode (u i)).down = (s.inode (u i)).down

/-- The levels after the splice. -/
def grownChains (s : DramSkiplist) (chains : ℕ → List ℕ) (inodes u : ℕ → ℕ) (newlevel i : ℕ) :
    List ℕ :=
  if i < newlevel then insertBehind (s.header i) (u i) (inodes i) (chains i) else chains i

section Grow
variable {s s' : DramSkiplist} {chains : ℕ → List ℕ} {inodes u : ℕ → ℕ} {key newlevel : ℕ}

theorem mem_grownChains (hu : ∀ i < newlevel, OnLevel s chains i (u i)) {i x : ℕ} :
    x ∈ grownChains s chains inodes u newlevel i ↔ (i < newlevel ∧ x = inodes i) ∨ x ∈ chains i := by
  by_cases hi : i < newlevel
  · simp [grownChains, hi, mem_insertBehind (hu i hi)]
  · simp [grownChains, hi]

theorem Chained.grownChains_split (h : Chained s chains) {i : ℕ} {front back : List ℕ} (hi : i < maxLevel)
    (hin : i < newlevel) (hsplit : chains i = front ++ u i :: back) :
    u i ∉ front ∧ u i ∉ back ∧ grownChains s chains inodes u newlevel i = front ++
    u i :: inodes i :: back := by
  have hnd := h.chain_nodup hi
  rw [hsplit] at hnd
  obtain ⟨-, hback, hdis⟩ := List.nodup_append.mp hnd
  have huf : u i ∉ front := fun hf => hdis _ hf _ List.mem_cons_self rfl
  have hub : u i ∉ back := (List.nodup_cons.mp hback).1
  refine ⟨huf, hub, ?_⟩
  rw [grownChains, if_pos hin, hsplit]
  exact insertBehind_split (fun he => h.header_not_mem hi (he ▸ hsplit ▸ by simp)) huf hub

theorem OnLevel.lt (h : Chained s chains) {i n : ℕ} (hi : i < maxLevel) (hn : OnLevel s chains i n) :
    n < s.currentIdx := h.lt i hi n (Shape.mem_levelIds hn)

theorem Chained.pred_ne_of_mem (h : Chained s chains) (hlevel : newlevel ≤ maxLevel)
    (hu : ∀ i < newlevel, OnLevel s chains i (u i)) {i j n : ℕ} (hi : i < maxLevel)
    (hn : n ∈ s.levelIds chains i) (hj : j < newlevel) (hne : j ≠ i) : n ≠ u j := by
  rintro rfl
  exact h.disjoint i hi j (by omega) hne.symm hn (Shape.mem_levelIds (hu j hj))

theorem Grown.same (hg : Grown s s' inodes u key newlevel) (h : Chained s chains) (hlevel : newlevel ≤ maxLevel)
    (hu : ∀ i < newlevel, OnLevel s chains i (u i)) {i n : ℕ} (hi : i < maxLevel)
    (hn : n ∈ s.levelIds chains i) (hne : i < newlevel → n ≠ u i) : s'.inode n = s.inode n := by
  refine hg.other n (h.lt i hi n hn) fun j hj => ?_
  by_cases hji : j = i
  · subst hji
    exact hne hj
  · exact h.pred_ne_of_mem hlevel hu hi hn hj hji

theorem Grown.min_same (hg : Grown s s' inodes u key newlevel) (h : Chained s chains)
    (hlevel : newlevel ≤ maxLevel) (hu : ∀ i < newlevel, OnLevel s chains i (u i)) {i n : ℕ} (hi : i < maxLevel)
    (hn : n ∈ s.levelIds chains i) : (s'.inode n).minKey = (s.inode n).minKey := by
  by_cases hpred : i < newlevel ∧ n = u i
  · rw [hpred.2]
    exact hg.pred_min i hpred.1
  · rw [hg.same h hlevel hu hi hn fun hlt heq => hpred ⟨hlt, heq⟩]

theorem Grown.down_same (hg : Grown s s' inodes u key newlevel) (h : Chained s chains)
    (hlevel : newlevel ≤ maxLevel) (hu : ∀ i < newlevel, OnLevel s chains i (u i)) {i n : ℕ} (hi : i < maxLevel)
    (hn : n ∈ s.levelIds chains i) : (s'.inode n).down = (s.inode n).down := by
  by_cases hpred : i < newlevel ∧ n = u i
  · rw [hpred.2]
    exact hg.pred_down i hpred.1
  · rw [hg.same h hlevel hu hi hn fun hlt heq => hpred ⟨hlt, heq⟩]

end Grow

section GrowShape
variable {s s' : DramSkiplist} {chains : ℕ → List ℕ} {inodes u : ℕ → ℕ} {key newlevel : ℕ}

theorem Grown.chain (hg : Grown s s' inodes u key newlevel) (h : Chained s chains) (hlevel : newlevel ≤ maxLevel)
    (hu : ∀ i < newlevel, OnLevel s chains i (u i)) {i : ℕ} (hi : i < maxLevel) :
    Chain (fun n => (s'.inode n).next) (s'.header i) (grownChains s chains inodes u newlevel i) (s'.tail i) := by
  have hchain := h.chain i hi
  have hsame : ∀ n ∈ s.levelIds chains i, (i < newlevel → n ≠ u i) → (s'.inode n).next = (s.inode n).next :=
    fun n hn hne => by rw [hg.same h hlevel hu hi hn hne]
  rw [hg.header, hg.tail]
  by_cases hin : i < newlevel
  · have hnew := hg.new_next i hin
    have hpn := hg.pred_next i hin
    rcases hu i hin with hhead | hmem
    · rw [grownChains, if_pos hin, hhead, insertBehind_header]
      rw [hhead] at hnew hpn
      refine ⟨hpn, ?_⟩
      have hrest : ∀ n ∈ chains i, (s'.inode n).next = (s.inode n).next := fun n hn =>
        hsame n (Shape.mem_levelIds_of_mem hn) fun _ he => h.header_not_mem hi (hhead ▸ he ▸ hn)
      cases hc : chains i with
      | nil =>
        rw [hc] at hchain
        exact hnew.trans hchain
      | cons f l =>
        rw [hc] at hchain hrest
        exact ⟨hnew.trans hchain.1, hchain.2.congr (hrest f (by simp)) fun y hy => hrest y (by simp [hy])⟩
    · obtain ⟨front, back, hsplit⟩ := List.append_of_mem hmem
      obtain ⟨huf, hub, hgrown⟩ := h.grownChains_split hi hin hsplit
      rw [hsplit] at hchain
      obtain ⟨hfront, hrest⟩ := chain_append.mp hchain
      rw [hgrown]
      refine chain_append.mpr ⟨hfront.congr ?_ fun y hy => ?_, hpn, ?_⟩
      · exact hsame _ List.mem_cons_self fun _ he => h.header_not_mem hi (he ▸ hmem)
      · exact hsame y (Shape.mem_levelIds_of_mem (by simp [hsplit, hy])) fun _ he => huf (he ▸ hy)
      · have hb : ∀ n ∈ back, (s'.inode n).next = (s.inode n).next := fun n hn =>
          hsame n (Shape.mem_levelIds_of_mem (by simp [hsplit, hn])) fun _ he => hub (he ▸ hn)
        cases back with
        | nil => exact hnew.trans hrest
        | cons y l =>
          exact ⟨hnew.trans hrest.1, hrest.2.congr (hb y (by simp)) fun z hz => hb z (by simp [hz])⟩
  · rw [grownChains, if_neg hin]
    exact hchain.congr (hsame _ List.mem_cons_self fun hlt => absurd hlt hin)
      fun y hy => hsame y (Shape.mem_levelIds_of_mem hy) fun hlt => absurd hlt hin

/-- The ranges of a level still abut, unless the splice takes an inode of it for the header. -/
theorem Grown.abut (hg : Grown s s' inodes u key newlevel) (h : Chained s chains) (hlevel : newlevel ≤ maxLevel)
    (hu : ∀ i < newlevel, OnLevel s chains i (u i)) {i : ℕ} (hi : i < maxLevel)
    (habut : Abut s (chains i) (s.tail i))
    (hreal : i < newlevel → u i ∈ chains i → (s.inode (u i)).maxKey ≠ 0) :
    Abut s' (grownChains s chains inodes u newlevel i) (s'.tail i) := by
  have hmin : ∀ n ∈ s.levelIds chains i, (s'.inode n).minKey = (s.inode n).minKey :=
    fun n hn => hg.min_same h hlevel hu hi hn
  -- the end of the level is one of its ids
  have hmin' : ∀ n ∈ s.tail i :: chains i, (s'.inode n).minKey = (s.inode n).minKey :=
    fun n hn => hmin n (List.mem_cons_of_mem _ hn)
  have hmax : ∀ n ∈ s.levelIds chains i, (i < newlevel → n ≠ u i) →
    (s'.inode n).maxKey = (s.inode n).maxKey :=
    fun n hn hne => by rw [hg.same h hlevel hu hi hn hne]
  rw [hg.tail]
  by_cases hin : i < newlevel
  · rcases hu i hin with hhead | hmem
    · rw [grownChains, if_pos hin, hhead, insertBehind_header]
      have hz : (s.inode (u i)).maxKey = 0 := by rw [hhead]; exact h.header_max i hi
      have hrest : Abut s' (chains i) (s.tail i) := habut.congr
        (fun n hn => hmax n (Shape.mem_levelIds_of_mem hn) fun _ he => h.header_not_mem hi (hhead ▸ he ▸ hn))
        hmin'
      obtain ⟨m, hm, hmem⟩ := h.next_mem hi (Or.inl rfl)
      have hnm := hg.new_max i hin m (by rw [hhead, hm])
      rw [if_pos hz] at hnm
      cases hc : chains i with
      | nil =>
        rw [hc, List.mem_singleton] at hmem
        show (s'.inode (inodes i)).maxKey = (s'.inode (s.tail i)).minKey
        rw [hnm, hmem, hmin _ Shape.tail_mem_levelIds]
      | cons f l =>
        have hf : m = f := by
          have hfirst := h.chain i hi
          rw [hc] at hfirst
          exact Int.ofNat.inj (hm.symm.trans hfirst.1)
        rw [hc] at hrest
        exact ⟨by rw [hnm, hf, hmin f (Shape.mem_levelIds_of_mem (by simp [hc]))], hrest⟩
    · have hz := hreal hin hmem
      obtain ⟨front, back, hsplit⟩ := List.append_of_mem hmem
      obtain ⟨huf, hub, hgrown⟩ := h.grownChains_split hi hin hsplit
      rw [hsplit] at habut
      obtain ⟨hfront, hrest⟩ := abut_append.mp habut
      obtain ⟨m, hm, -⟩ := h.next_mem hi (Or.inr hmem)
      have hnm := hg.new_max i hin m hm
      rw [if_neg hz] at hnm
      have hin_level : ∀ n ∈ front ++ u i :: back, n ∈ s.levelIds chains i :=
        fun n hn => Shape.mem_levelIds_of_mem (hsplit ▸ hn)
      rw [hgrown]
      refine abut_append.mpr ⟨hfront.congr (fun n hn => ?_) (fun n hn => ?_), ?_, ?_⟩
      · exact hmax n (hin_level n (by simp [hn])) fun _ he => huf (he ▸ hn)
      · exact hmin n (hin_level n (by rcases List.mem_cons.mp hn with rfl | hn <;> simp_all))
      · rw [hg.pred_max i hin, if_neg hz, hg.new_min i hin]
      · have hb : Abut s' back (s.tail i) := hrest.tail.congr
          (fun n hn => hmax n (hin_level n (by simp [hn])) fun _ he => hub (he ▸ hn))
          (fun n hn => hmin' n (by rw [hsplit]; simp only [List.mem_cons, List.mem_append] at hn ⊢; tauto))
        cases back with
        | nil =>
          have hlast : (s.inode (u i)).maxKey = (s.inode (s.tail i)).minKey := hrest
          show (s'.inode (inodes i)).maxKey = (s'.inode (s.tail i)).minKey
          rw [hnm, hlast, hmin _ Shape.tail_mem_levelIds]
        | cons y l => exact ⟨by rw [hnm, hrest.1, hmin y (hin_level y (by simp))], hb⟩
  · rw [grownChains, if_neg hin]
    exact habut.congr (fun n hn => hmax n (Shape.mem_levelIds_of_mem hn) fun hlt => absurd hlt hin) hmin'

theorem Grown.id_lt (hg : Grown s s' inodes u key newlevel) {i : ℕ} (hi : i < newlevel) :
    s.currentIdx ≤ inodes i ∧ inodes i < s'.currentIdx := by
  have hid := hg.id i hi
  have hc := hg.currentIdx
  omega

theorem Grown.id_inj (hg : Grown s s' inodes u key newlevel) {i j : ℕ} (hi : i < newlevel) (hj : j < newlevel)
    (h : inodes i = inodes j) : i = j := by
  have h₁ := hg.id i hi
  have h₂ := hg.id j hj
  omega

theorem Grown.mem_levelIds (hg : Grown s s' inodes u key newlevel) (hu : ∀ i < newlevel, OnLevel s chains i (u i))
    {i n : ℕ} : n ∈ s'.levelIds (grownChains s chains inodes u newlevel) i ↔
      (i < newlevel ∧ n = inodes i) ∨ n ∈ s.levelIds chains i := by
  simp only [levelIds, hg.header, hg.tail, List.mem_cons, mem_grownChains hu]
  tauto

theorem insertBehind_nodup {h v n : ℕ} {l : List ℕ} (hl : l.Nodup) (hn : n ∉ l) (hv : v = h ∨ v ∈ l) :
    (insertBehind h v n l).Nodup := by
  by_cases hh : v = h
  · rw [hh, insertBehind_header]
    exact List.nodup_cons.mpr ⟨hn, hl⟩
  · obtain ⟨front, back, rfl⟩ := List.append_of_mem (hv.resolve_left hh)
    obtain ⟨hf, hb, hdis⟩ := List.nodup_append.mp hl
    have hvb := List.nodup_cons.mp hb
    rw [insertBehind_split hh (fun hm => hdis _ hm _ (by simp) rfl) hvb.1]
    simp only [List.mem_append, List.mem_cons, not_or] at hn
    refine List.nodup_append.mpr ⟨hf, ?_, fun a ha b hb' hab => ?_⟩
    · simp only [List.nodup_cons, List.mem_cons, not_or]
      exact ⟨⟨fun he => hn.2.1 he.symm, hvb.1⟩, hn.2.2, hvb.2⟩
    · rcases List.mem_cons.mp hb' with rfl | hb'
      · exact hdis a ha _ (by simp) hab
      · rcases List.mem_cons.mp hb' with rfl | hb'
        · exact hn.1 (hab ▸ ha)
        · exact hdis a ha _ (List.mem_cons_of_mem _ hb') hab

theorem Chained.grow (h : Chained s chains) (hg : Grown s s' inodes u key newlevel)
    (hlevel : newlevel ≤ maxLevel) (hroom : s.currentIdx + newlevel ≤ inodeNum)
    (hu : ∀ i < newlevel, OnLevel s chains i (u i)) (hpos : 1 ≤ s'.level) (hle : s'.level ≤ maxLevel) :
    Chained s' (grownChains s chains inodes u newlevel) := by
  have hold : ∀ i < maxLevel, ∀ n ∈ s.levelIds chains i, ∀ j < newlevel,
    n ≠ inodes j := fun i hi n hn j hj => by
    have h₁ := h.lt i hi n hn
    have h₂ := (hg.id_lt hj).1
    omega
  refine ⟨hpos, hle, by rw [hg.currentIdx]; exact hroom, hg.fresh, fun i hi => hg.chain h hlevel hu hi,
    ?_, ?_, ?_, ?_, ?_, ?_, ?_⟩
  · intro i hi n hn
    rcases (hg.mem_levelIds hu).mp hn with ⟨hlt, rfl⟩ | hn
    · exact (hg.id_lt hlt).2
    · have := h.lt i hi n hn
      have := hg.currentIdx
      omega
  · intro i hi
    have hnd := h.nodup i hi
    simp only [levelIds, List.nodup_cons, List.mem_cons, not_or] at hnd ⊢
    rw [hg.header, hg.tail]
    refine ⟨⟨hnd.1.1, fun hm => ?_⟩, fun hm => ?_, ?_⟩
    · rcases (mem_grownChains hu).mp hm with ⟨hlt, heq⟩ | hm
      · exact hold i hi _ List.mem_cons_self i hlt heq
      · exact hnd.1.2 hm
    · rcases (mem_grownChains hu).mp hm with ⟨hlt, heq⟩ | hm
      · exact hold i hi _ Shape.tail_mem_levelIds i hlt heq
      · exact hnd.2.1 hm
    · by_cases hlt : i < newlevel
      · rw [grownChains, if_pos hlt]
        exact insertBehind_nodup hnd.2.2 (fun hm => hold i hi _ (Shape.mem_levelIds_of_mem hm) i hlt rfl) (hu i hlt)
      · rw [grownChains, if_neg hlt]
        exact hnd.2.2
  · intro i hi j hj hij n hn hn'
    rcases (hg.mem_levelIds hu).mp hn with ⟨hlt, rfl⟩ | hn <;>
      rcases (hg.mem_levelIds hu).mp hn' with ⟨hlt', heq⟩ | hn'
    · exact hij (hg.id_inj hlt hlt' heq)
    · exact hold j hj _ hn' i hlt rfl
    · exact hold i hi _ hn j hlt' heq
    · exact h.disjoint i hi j hj hij hn hn'
  · intro i hi
    rw [hg.header, hg.min_same h hlevel hu hi List.mem_cons_self, h.header_min i hi]
  · intro i hi
    rw [hg.header]
    by_cases hpred : i < newlevel ∧ s.header i = u i
    · rw [hpred.2, hg.pred_max i hpred.1, ← hpred.2, h.header_max i hi]
      simp
    · rw [hg.same h hlevel hu hi List.mem_cons_self fun hlt heq => hpred ⟨hlt, heq⟩, h.header_max i hi]
  · intro i hi
    rw [hg.header, hg.down_same h hlevel hu hi List.mem_cons_self, h.header_down i hi]
  · intro i hi n hn
    rcases (mem_grownChains hu).mp hn with ⟨hlt, rfl⟩ | hn
    · refine ⟨inodes i, (mem_grownChains hu).mpr (Or.inl ⟨by omega, rfl⟩), hg.new_down i hlt, ?_⟩
      rw [hg.new_min i (by omega), hg.new_min (i + 1) hlt]
    · obtain ⟨m, hm, hdown, hmin⟩ := h.down i hi n hn
      have hi' : i < maxLevel := Nat.lt_of_succ_lt hi
      refine ⟨m, (mem_grownChains hu).mpr (Or.inr hm), ?_, ?_⟩
      · rw [hg.down_same h hlevel hu hi (Shape.mem_levelIds_of_mem hn), hdown]
      · rw [hg.min_same h hlevel hu hi' (Shape.mem_levelIds_of_mem hm),
          hg.min_same h hlevel hu hi (Shape.mem_levelIds_of_mem hn), hmin]

theorem Levels.grow (h : Levels s chains) (hg : Grown s s' inodes u key newlevel)
    (hlevel : newlevel ≤ maxLevel) (hroom : s.currentIdx + newlevel ≤ inodeNum)
    (hu : ∀ i < newlevel, OnLevel s chains i (u i))
    (hreal : ∀ i < newlevel, u i ∈ chains i → (s.inode (u i)).maxKey ≠ 0)
    (hpos : 1 ≤ s'.level) (hle : s'.level ≤ maxLevel) :
    Levels s' (grownChains s chains inodes u newlevel) :=
  ⟨h.toChained.grow hg hlevel hroom hu hpos hle, fun i hi =>
    hg.abut h.toChained hlevel hu hi (h.abut i hi) (hreal i)⟩

theorem Grown.min_pos (hg : Grown s s' inodes u key newlevel) (h : Chained s chains) (hkey : 0 < key)
    (hlevel : newlevel ≤ maxLevel) (hu : ∀ i < newlevel, OnLevel s chains i (u i))
    (hmin : ∀ i < maxLevel, ∀ n ∈ chains i, 0 < (s.inode n).minKey) :
    ∀ i < maxLevel, ∀ n ∈ grownChains s chains inodes u newlevel i, 0 < (s'.inode n).minKey := by
  intro i hi n hn
  rcases (mem_grownChains hu).mp hn with ⟨hlt, rfl⟩ | hn
  · rw [hg.new_min i hlt]
    exact hkey
  · rw [hg.min_same h hlevel hu hi (Shape.mem_levelIds_of_mem hn)]
    exact hmin i hi n hn

theorem Shape.grow (h : Shape s chains) (hg : Grown s s' inodes u key newlevel) (hkey : 0 < key)
    (hlevel : newlevel ≤ maxLevel) (hroom : s.currentIdx + newlevel ≤ inodeNum)
    (hu : ∀ i < newlevel, OnLevel s chains i (u i))
    (hreal : ∀ i < newlevel, u i ∈ chains i → (s.inode (u i)).maxKey ≠ 0)
    (hpos : 1 ≤ s'.level) (hle : s'.level ≤ maxLevel) :
    Shape s' (grownChains s chains inodes u newlevel) :=
  ⟨h.toLevels.grow hg hlevel hroom hu hreal hpos hle, hg.min_pos h.toChained hkey hlevel hu h.min_pos⟩

end GrowShape

/-! ## The two insertion functions -/

section Functions
variable {s : DramSkiplist} {chains : ℕ → List ℕ}

/-- The state after the tower is built and its bottom inode is linked to vnode `v`. -/
structure Built (s s' : DramSkiplist) (inodes : ℕ → ℕ) (key newlevel v : ℕ) : Prop where
  header : s'.header = s.header
  tail : s'.tail = s.tail
  level : s'.level = s.level
  currentIdx : s'.currentIdx = s.currentIdx + newlevel
  id : ∀ i < newlevel, inodes i = s.currentIdx + (newlevel - 1 - i)
  old : ∀ n < s.currentIdx, s'.inode n = s.inode n
  fresh : ∀ n, s'.currentIdx ≤ n → s'.inode n = poolInode
  bottom : s'.inode (inodes 0) = ⟨-1, key, key, v, 1⟩
  upper : ∀ i, i + 1 < newlevel → s'.inode (inodes (i + 1)) = ⟨-1, key, key, inodes i, 0⟩

theorem build_spec (h : Chained s chains) (key v : ℕ) {newlevel : ℕ} (hpos : 1 ≤ newlevel)
    (hroom : s.currentIdx + newlevel ≤ inodeNum) :
    ∃ s₁ inodes s₂, newTower s key newlevel = some (s₁, inodes) ∧
      s₁.linkVnodeToInode (inodes 0) v = (true, s₂) ∧ Built s s₂ inodes key newlevel v := by
  obtain ⟨s₁, inodes, hrun, ht⟩ := newTower_spec key newlevel hpos hroom h.fresh
  have hid := ht.id
  have hlink : s₁.linkVnodeToInode (inodes 0) v = (true, s₁.modify (inodes 0) fun n =>
      { n with down := v, coveredNodes := n.coveredNodes + 1 }) := by
    simp [linkVnodeToInode, ht.bottom]
  refine ⟨s₁, inodes, _, hrun, hlink, ht.header, ht.tail, ht.level, ht.currentIdx, ht.id, ?_, ?_, ?_, ?_⟩
  · intro n hn
    have h0 := hid 0 (by omega)
    rw [modify_of_ne _ _ _ (by omega), ht.old n hn]
  · intro n hn
    have h0 := hid 0 (by omega)
    have hc := ht.currentIdx
    have hn' : s₁.currentIdx ≤ n := hn
    rw [modify_of_ne _ _ _ (by omega), ht.fresh n hn']
  · rw [modify_self, ht.bottom]
    rfl
  · intro i hi
    have h0 := hid 0 (by omega)
    have h1 := hid (i + 1) hi
    rw [modify_of_ne _ _ _ (by omega), ht.upper i hi]

theorem Built.chained {s' : DramSkiplist} {inodes : ℕ → ℕ} {key newlevel v : ℕ}
    (hb : Built s s' inodes key newlevel v) (h : Chained s chains) (hroom : s.currentIdx + newlevel ≤ inodeNum) :
    Chained s' chains := by
  have hc := hb.currentIdx
  refine h.congr hb.header hb.tail hb.level (by omega) (by omega) hb.fresh fun i hi n hn => ?_
  rw [hb.old n (h.lt i hi n hn)]
  exact ⟨rfl, rfl, rfl, rfl⟩

theorem Built.levels {s' : DramSkiplist} {inodes : ℕ → ℕ} {key newlevel v : ℕ}
    (hb : Built s s' inodes key newlevel v) (h : Levels s chains)
    (hroom : s.currentIdx + newlevel ≤ inodeNum) : Levels s' chains := by
  refine ⟨hb.chained h.toChained hroom, fun i hi => ?_⟩
  have hold : ∀ n ∈ s.levelIds chains i, s'.inode n = s.inode n := fun n hn => hb.old n (h.lt i hi n hn)
  rw [hb.tail]
  exact (h.abut i hi).congr (fun n hn => by rw [hold n (Shape.mem_levelIds_of_mem hn)])
    fun n hn => by rw [hold n (List.mem_cons_of_mem _ hn)]

theorem Built.splicable {s' : DramSkiplist} {inodes u : ℕ → ℕ} {key newlevel v : ℕ}
    (hb : Built s s' inodes key newlevel v) (h : Chained s chains) (hlevel : newlevel ≤ maxLevel)
    (hu : ∀ i < newlevel, OnLevel s chains i (u i)) : Splicable s' inodes u newlevel := by
  have hlt : ∀ i < newlevel, u i < s.currentIdx := fun i hi => (hu i hi).lt h (by omega)
  refine ⟨fun i hi j hj heq => ?_, fun i hi j hj heq => ?_, fun i hi j hj heq => ?_, fun i hi => ?_⟩
  · have h₁ := hb.id i hi
    have h₂ := hb.id j hj
    omega
  · by_contra hij
    exact h.disjoint i (by omega) j (by omega) hij (Shape.mem_levelIds (hu i hi))
      (heq ▸ Shape.mem_levelIds (hu j hj))
  · have h₁ := hb.id i hi
    have h₂ := hlt j hj
    omega
  · have hi' : i < maxLevel := by omega
    obtain ⟨m, hm, hmem⟩ := h.next_mem hi' (hu i hi)
    have hlev : m ∈ s.levelIds chains i := List.mem_cons_of_mem _ hmem
    have hmlt := h.lt i hi' m hlev
    refine ⟨m, by rw [hb.old _ (hlt i hi), hm], Nat.lt_of_lt_of_le hmlt h.used,
      fun j hj => ⟨?_, fun heq => ?_⟩⟩
    · have := hb.id j hj
      omega
    · by_contra hji
      exact h.pred_ne_of_mem hlevel hu hi' hlev hj hji heq

theorem Built.grown {s₁ s₂ : DramSkiplist} {inodes u : ℕ → ℕ} {key newlevel v : ℕ}
    (hb : Built s s₁ inodes key newlevel v) (h : Chained s chains) (hlevel : newlevel ≤ maxLevel)
    (hu : ∀ i < newlevel, OnLevel s chains i (u i)) (hs : Spliced s₁ s₂ inodes u key newlevel) :
    Grown s s₂ inodes u key newlevel := by
  have hlt : ∀ i < newlevel, u i < s.currentIdx := fun i hi => (hu i hi).lt h (by omega)
  refine ⟨hs.header.trans hb.header, hs.tail.trans hb.tail, hs.currentIdx.trans hb.currentIdx, hb.id,
    ?_, ?_, ?_, hs.new_min, ?_, ?_, ?_, ?_, ?_, ?_⟩
  · intro n hn
    rw [hs.currentIdx] at hn
    have hc := hb.currentIdx
    rw [hs.other n fun i hi => ⟨by have := hb.id i hi; omega, by have := hlt i hi; omega⟩, hb.fresh n hn]
  · intro n hn hne
    rw [hs.other n fun i hi => ⟨by have := hb.id i hi; omega, hne i hi⟩, hb.old n hn]
  · intro i hi
    rw [hs.new_next i hi, hb.old _ (hlt i hi)]
  · intro i hi m hm
    have hold := hb.old _ (hlt i hi)
    obtain ⟨k, hk, hmem⟩ := h.next_mem (by omega) (hu i hi)
    obtain rfl : k = m := Int.ofNat.inj (hk.symm.trans hm)
    have hklt := h.lt i (by omega) k (List.mem_cons_of_mem _ hmem)
    rw [hs.new_max i hi k (hold ▸ hk), hold, hb.old k hklt]
  · intro i hi
    rw [hs.new_down (i + 1) hi, hb.upper i hi]
  all_goals
    intro i hi
    rw [hs.pred i hi, hb.old _ (hlt i hi)]

end Functions

/-! ## Pivots -/

theorem pivots_above {s : DramSkiplist} {key i cur : ℕ} {updates u : ℕ → ℕ}
    (h : pivots s key i cur updates = some u) : ∀ j, i < j → u j = updates j := by
  induction i generalizing cur updates with
  | zero =>
    simp only [pivots, Option.bind_eq_bind, Option.bind_eq_some_iff] at h
    obtain ⟨⟨p, n⟩, -, hu⟩ := h
    cases hu
    intro j hj
    exact Function.update_of_ne (Nat.ne_of_gt hj) _ _
  | succ i ih =>
    simp only [pivots, Option.bind_eq_bind, Option.bind_eq_some_iff] at h
    obtain ⟨⟨p, n⟩, -, m, -, hrest⟩ := h
    intro j hj
    rw [ih hrest j (by omega), Function.update_of_ne (by omega)]

theorem pivots_start {s : DramSkiplist} {key i cur n : ℕ} {p : Option ℕ} {updates u : ℕ → ℕ}
    (h : pivots s key i cur updates = some u) (hwalk : walk s key i inodeNum none cur = some (p, n)) : u i = n := by
  cases i with
  | zero =>
    simp only [pivots, hwalk, Option.bind_eq_bind, Option.bind_some, Option.pure_def, Option.some.injEq] at h
    rw [← h, Function.update_self]
  | succ i =>
    simp only [pivots, hwalk, Option.bind_eq_bind, Option.bind_some, Option.bind_eq_some_iff] at h
    obtain ⟨m, -, hrest⟩ := h
    rw [pivots_above hrest (i + 1) (Nat.lt_succ_self i), Function.update_self]

section Pivots
open Shape
variable {s : DramSkiplist} {chains : ℕ → List ℕ}

theorem pivots_rule {i key cur : ℕ} {I R : ℕ → ℕ → Prop} (updates : ℕ → ℕ)
    (hwalk : ∀ j ≤ i, ∀ n, I j n → ∃ p m, walk s key j inodeNum none n = some (p, m) ∧ R j m)
    (hdown : ∀ j < i, ∀ n, R (j + 1) n → ∃ m, nodeAt inodeNum (s.inode n).down = some m ∧ I j m)
    (hcur : I i cur) : ∃ u, pivots s key i cur updates = some u ∧ ∀ j ≤ i, R j (u j) := by
  induction i generalizing cur updates with
  | zero =>
    obtain ⟨p, n, hstep, hr⟩ := hwalk 0 (Nat.le_refl 0) cur hcur
    refine ⟨Function.update updates 0 n, by simp [pivots, hstep], fun j hj => ?_⟩
    obtain rfl : j = 0 := Nat.le_zero.mp hj
    rwa [Function.update_self]
  | succ i ih =>
    obtain ⟨p, n, hstep, hr⟩ := hwalk (i + 1) (Nat.le_refl _) cur hcur
    obtain ⟨m, hm, hI⟩ := hdown i (Nat.lt_succ_self i) n hr
    obtain ⟨u, hrun, hu⟩ := ih (Function.update updates (i + 1) n) (fun j hj => hwalk j (Nat.le_succ_of_le hj))
      (fun j hj => hdown j (Nat.lt_succ_of_lt hj)) hI
    refine ⟨u, by simp [pivots, hstep, hm, hrun], fun j hj => ?_⟩
    rcases Nat.lt_or_eq_of_le hj with hj | rfl
    · exact hu j (Nat.lt_succ_iff.mp hj)
    · rwa [pivots_above hrun (i + 1) (Nat.lt_succ_self i), Function.update_self]

theorem Chained.pivots_onLevel (h : Chained s chains) {i cur : ℕ} (key : ℕ) (hi : i < maxLevel)
    (hcur : OnLevel s chains i cur) (updates : ℕ → ℕ) :
    ∃ u, pivots s key i cur updates = some u ∧ ∀ j ≤ i, OnLevel s chains j (u j) := by
  apply pivots_rule (I := OnLevel s chains) (R := OnLevel s chains) updates ?_ ?_ hcur
  · intro j hj n hn
    obtain ⟨p, m, hwalk, hm, -⟩ := h.walk_onLevel key (by omega) hn
    exact ⟨p, m, hwalk, hm⟩
  · intro j hj n hn
    obtain ⟨m, hdown, hm, -⟩ := h.down_onLevel (by omega) hn
    exact ⟨m, hdown, hm⟩

/-- Pivots lie on their levels, on an inode if there is one. If no walk can overshoot, every
pivot covers the key. On the level where the descent begins, the pivot reaches up to the key
if a later inode does not begin below it. -/
structure Pivots (s : DramSkiplist) (chains : ℕ → List ℕ) (i key cur : ℕ) (u : ℕ → ℕ) : Prop where
  onLevel : ∀ j ≤ i, OnLevel s chains j (u j) ∧ (chains j ≠ [] → u j ∈ chains j)
  covering : Starts s chains i key cur → ∀ j ≤ i, Covering s chains j key (u j)
  stops : cur = s.header i → ∀ m ∈ (chains i).tail, key ≤ (s.inode m).minKey →
    key ≤ (s.inode (u i)).maxKey

theorem Levels.pivots_spec (h : Levels s chains) {i key cur : ℕ} (hi : i < maxLevel) (hkey : 0 < key)
    (hcur : OnLevel s chains i cur) (updates : ℕ → ℕ) :
    ∃ u, pivots s key i cur updates = some u ∧ Pivots s chains i key cur u := by
  obtain ⟨u, hrun, hon⟩ := pivots_rule (I := OnLevel s chains)
    (R := fun j n => OnLevel s chains j n ∧ (chains j ≠ [] → n ∈ chains j)) updates
    (fun j hj n hn => by
      obtain ⟨p, m, hwalk, hm, -⟩ := h.toChained.search_level (by omega) (h.abut j (by omega)) hkey hn
      exact ⟨p, m, hwalk, hm⟩)
    (fun j hj n hn => by
      obtain ⟨m, hdown, hm, -⟩ := h.toChained.down_onLevel (by omega) hn.1
      exact ⟨m, hdown, hm⟩) hcur
  refine ⟨u, hrun, hon, fun hstart => ?_, fun hhead m hm hle => ?_⟩
  · obtain ⟨u', hrun', hcov⟩ := pivots_rule (I := fun j n => Starts s chains j key n)
      (R := fun j n => Covering s chains j key n) updates
      (fun j hj n hn => hn.walk h (by omega) hkey)
      (fun j hj n hn => by
        -- below a covering inode the walk starts at an inode that begins at the same key
        obtain ⟨m, hm, hdown, hmin⟩ := h.down j (by omega) n hn.mem
        refine ⟨m, ?_, Or.inl ⟨hm, hmin ▸ Found.min_le h.toChained (by omega) (Or.inr hn)⟩⟩
        rw [hdown, nodeAt_of_lt (h.toChained.lt_inodeNum (by omega) (Shape.mem_levelIds_of_mem hm))]) hstart
    cases hrun.symm.trans hrun'
    exact hcov
  · obtain ⟨p, n, hwalk, hstop⟩ := h.walk_header_stops hi hkey hm hle
    rw [pivots_start hrun (hhead ▸ hwalk)]
    exact hstop

end Pivots

/-! ## What the two functions do -/

section Covered
variable (s : DramSkiplist) (id n : ℕ) (f : Inode → ℤ)

theorem modify_covered : let s' := s.modify id fun m => { m with coveredNodes := f m }
    (s'.inode n).next = (s.inode n).next ∧ (s'.inode n).minKey = (s.inode n).minKey ∧
      (s'.inode n).maxKey = (s.inode n).maxKey ∧ (s'.inode n).down = (s.inode n).down := by
  by_cases h : n = id
  · subst h
    simp
  · simp [modify_of_ne _ _ _ h]

variable {s id} in
theorem Chained.modify_covered {chains : ℕ → List ℕ} (h : Chained s chains) (hid : id < s.currentIdx) :
    Chained (s.modify id fun m => { m with coveredNodes := f m }) chains := by
  refine h.congr rfl rfl rfl (Nat.le_refl _) h.used (fun n hn => ?_)
    fun i _ n _ => DramSkiplist.modify_covered s id n f
  have hn' : s.currentIdx ≤ n := hn
  rw [modify_of_ne _ _ _ (by omega), h.fresh n hn']

theorem Abut.modify_covered {s : DramSkiplist} {l : List ℕ} {e : ℕ} (h : Abut s l e) :
    Abut (s.modify id fun m => { m with coveredNodes := f m }) l e :=
  h.congr (fun n _ => (DramSkiplist.modify_covered s id n f).2.2.1)
    fun n _ => (DramSkiplist.modify_covered s id n f).2.1

variable {s id} in
theorem Levels.modify_covered {chains : ℕ → List ℕ} (h : Levels s chains) (hid : id < s.currentIdx) :
    Levels (s.modify id fun m => { m with coveredNodes := f m }) chains :=
  ⟨h.toChained.modify_covered f hid, fun i hi => (h.abut i hi).modify_covered id f⟩

variable {s id} in
theorem Shape.modify_covered {chains : ℕ → List ℕ} (h : Shape s chains) (hid : id < s.currentIdx) :
    Shape (s.modify id fun m => { m with coveredNodes := f m }) chains :=
  ⟨h.toLevels.modify_covered f hid, fun i hi n hn =>
    (DramSkiplist.modify_covered s id n f).2.1 ▸ h.min_pos i hi n hn⟩

theorem increase_min : ((s.increaseCoveredNodes id).inode n).minKey = (s.inode n).minKey :=
  (modify_covered s id n fun m => m.coveredNodes + 1).2.1

end Covered

section Specs
open Shape
variable {s : DramSkiplist} {chains : ℕ → List ℕ}

theorem Grown.modify_covered {s' : DramSkiplist} {inodes u : ℕ → ℕ} {key newlevel id : ℕ} (f : Inode → ℤ)
    (hg : Grown s s' inodes u key newlevel) (hpos : 0 < newlevel) (hid : id = inodes 0 ∨ id = u 0)
    (hlt : id < s'.currentIdx) :
    Grown s (s'.modify id fun m => { m with coveredNodes := f m }) inodes u key newlevel := by
  have hsame := fun n => DramSkiplist.modify_covered s' id n f
  refine ⟨hg.header, hg.tail, hg.currentIdx, hg.id, fun n hn => ?_, fun n hn hne => ?_, fun i hi => ?_,
    fun i hi => ?_, fun i hi m hm => ?_, fun i hi => ?_, fun i hi => ?_, fun i hi => ?_, fun i hi => ?_,
    fun i hi => ?_⟩
  · have hn' : s'.currentIdx ≤ n := hn
    rw [modify_of_ne _ _ _ (by omega), hg.fresh n hn']
  · have hne' : n ≠ id := by
      rcases hid with rfl | rfl
      · have := (hg.id_lt hpos).1
        omega
      · exact hne 0 hpos
    rw [modify_of_ne _ _ _ hne', hg.other n hn hne]
  · rw [(hsame _).1, hg.new_next i hi]
  · rw [(hsame _).2.1, hg.new_min i hi]
  · rw [(hsame _).2.2.1, hg.new_max i hi m hm]
  · rw [(hsame _).2.2.2, hg.new_down i hi]
  · rw [(hsame _).1, hg.pred_next i hi]
  · rw [(hsame _).2.1, hg.pred_min i hi]
  · rw [(hsame _).2.2.1, hg.pred_max i hi]
  · rw [(hsame _).2.2.2, hg.pred_down i hi]

theorem insert_spec (h : Chained s chains) (key v : ℕ) {newlevel : ℕ} (hpos : 1 ≤ newlevel)
    (hlevel : newlevel ≤ maxLevel) (hroom : s.currentIdx + newlevel ≤ inodeNum) :
    ∃ s' inodes, insert s key v newlevel = some (true, s') ∧ Grown s s' inodes s.header key newlevel ∧
      s'.level = s.level ∧ (s'.inode (inodes 0)).down = v ∧ (s'.inode (inodes 0)).coveredNodes = 1 ∧
      (s'.inode (s.header 0)).coveredNodes = (s.inode (s.header 0)).coveredNodes := by
  obtain ⟨s₁, inodes, s₂, hrun, hlink, hb⟩ := build_spec h key v hpos hroom
  have hhead : ∀ i < newlevel, OnLevel s chains i (s.header i) := fun i _ => Or.inl rfl
  have hold : ∀ i < newlevel, s₂.inode (s.header i) = s.inode (s.header i) := fun i hi =>
    hb.old _ ((hhead i hi).lt h (by omega))
  obtain ⟨s₃, hloop, hs⟩ := headLoop_spec key newlevel
    (by rw [hb.header]; exact hb.splicable h hlevel hhead)
    (fun i hi => by rw [hb.header, hold i hi]; exact h.header_max i (by omega))
    (fun i hi => by
      rw [hb.header, hold i hi]
      obtain ⟨m, hm, hmem⟩ := h.next_mem (by omega) (hhead i hi)
      have hnd := h.nodup i (by omega)
      rw [hm]
      intro he
      exact (List.nodup_cons.mp hnd).1 (Int.ofNat.inj he ▸ hmem))
  rw [hb.header] at hs
  refine ⟨s₃, inodes, by simp [insert, hrun, hlink, hloop], hb.grown h hlevel hhead hs,
    hs.level.trans hb.level, ?_, ?_, ?_⟩
  · rw [hs.new_down 0 hpos, hb.bottom]
  · rw [hs.new_covered 0 hpos, hb.bottom]
  · rw [hs.pred 0 hpos, hold 0 hpos]

theorem insert_room {key v newlevel : ℕ} (h : insert s key v newlevel ≠ none) :
    s.currentIdx + newlevel ≤ inodeNum :=
  newTower_room fun (hnone : newTower s key newlevel = none) => h (by simp only [insert, hnone]; rfl)

theorem insertWhenRebalance_room {key v newlevel : ℕ} {count : ℤ}
    (h : insertWhenRebalance s key v newlevel count ≠ none) : s.currentIdx + newlevel ≤ inodeNum :=
  newTower_room fun (hnone : newTower s key newlevel = none) => h (by simp only [insertWhenRebalance, hnone]; rfl)

theorem Shape.Covering.congr {s' : DramSkiplist} {i key n : ℕ} (hc : Covering s' chains i key n)
    (hn : s'.inode n = s.inode n) : Covering s chains i key n := by
  obtain ⟨front, back, hsplit, hmin, hmax⟩ := hc
  exact ⟨front, back, hsplit, hn ▸ hmin, hn ▸ hmax⟩

/-- What a split does to any chained levels: it grows them behind the nodes `u`, which are
headers above the levels in use. -/
structure Raised (s s' : DramSkiplist) (chains : ℕ → List ℕ) (inodes u : ℕ → ℕ) (key v newlevel : ℕ)
    (count : ℤ) : Prop where
  grown : Grown s s' inodes u key newlevel
  level : s'.level = max s.level newlevel
  down : (s'.inode (inodes 0)).down = v
  new_covered : (s'.inode (inodes 0)).coveredNodes = (s.inode (u 0)).coveredNodes - count
  pred_covered : (s'.inode (u 0)).coveredNodes = count
  onLevel : ∀ i < newlevel, OnLevel s chains i (u i)
  above : ∀ i, s.level ≤ i → i < newlevel → u i = s.header i

/-- If no walk overshoots, the nodes `u` of a split are inodes that cover the key. -/
structure Split (s s' : DramSkiplist) (chains : ℕ → List ℕ) (inodes u : ℕ → ℕ) (key v newlevel : ℕ)
    (count : ℤ) : Prop extends Raised s s' chains inodes u key v newlevel count where
  pivots : Pivots s chains (s.level - 1) key (s.header (s.level - 1)) u

theorem Split.covering {s' : DramSkiplist} {inodes u : ℕ → ℕ} {key v newlevel : ℕ} {count : ℤ}
    (hs : Split s s' chains inodes u key v newlevel count)
    (hstart : Starts s chains (s.level - 1) key (s.header (s.level - 1))) :
    ∀ i < s.level, Covering s chains i key (u i) :=
  fun i hi => hs.pivots.covering hstart i (by omega)

theorem raiseLevel_spec (newlevel : ℕ) (updates : ℕ → ℕ) :
    s.raiseLevel newlevel updates = ({ s with level := max s.level newlevel },
      fun i => if s.level ≤ i ∧ i < newlevel then s.header i else updates i) := by
  unfold raiseLevel
  by_cases h : s.level < newlevel
  · rw [if_pos h, Nat.max_eq_right (Nat.le_of_lt h)]
  · rw [if_neg h, Nat.max_eq_left (Nat.le_of_not_lt h)]
    congr 1
    funext i
    rw [if_neg (by omega)]

theorem Spliced.of_level {s' : DramSkiplist} {inodes u : ℕ → ℕ} {key newlevel l : ℕ}
    (hs : Spliced { s with level := l } s' inodes u key newlevel) :
    Spliced s { s' with level := s.level } inodes u key newlevel :=
  ⟨hs.header, hs.tail, rfl, hs.currentIdx, hs.other, hs.new_next, hs.new_min, hs.new_max, hs.new_down,
    hs.new_covered, hs.pred⟩

theorem Grown.of_level {s' : DramSkiplist} {inodes u : ℕ → ℕ} {key newlevel l : ℕ}
    (hg : Grown s { s' with level := l } inodes u key newlevel) : Grown s s' inodes u key newlevel :=
  ⟨hg.header, hg.tail, hg.currentIdx, hg.id, hg.fresh, hg.other, hg.new_next, hg.new_min, hg.new_max,
    hg.new_down, hg.pred_next, hg.pred_min, hg.pred_max, hg.pred_down⟩

theorem Built.raised {s₁ s₂ : DramSkiplist} {inodes u₀ : ℕ → ℕ} {key newlevel v : ℕ} (count : ℤ)
    (h : Chained s chains) (hpos : 1 ≤ newlevel) (hlevel : newlevel ≤ maxLevel)
    (hrun : newTower s key newlevel = some (s₁, inodes)) (hlink : s₁.linkVnodeToInode (inodes 0) v = (true, s₂))
    (hb : Built s s₂ inodes key newlevel v) (hget : s₂.getPivotNodesForInsert key (fun _ => 0) = some u₀)
    (hu₀ : ∀ i < s.level, OnLevel s chains i (u₀ i)) :
    ∃ s' u, insertWhenRebalance s key v newlevel count = some (true, s') ∧
      Raised s s' chains inodes u key v newlevel count ∧ ∀ i < s.level, u i = u₀ i := by
  let u := fun i => if s₂.level ≤ i ∧ i < newlevel then s₂.header i else u₀ i
  have hbelow : ∀ i < s.level, u i = u₀ i := fun i hi => by
    simp only [u, hb.level]
    rw [if_neg (by omega)]
  have habove : ∀ i, s.level ≤ i → i < newlevel → u i = s.header i := fun i hli hi => by
    simp only [u, hb.level, if_pos (And.intro hli hi), hb.header]
  have hu : ∀ i < newlevel, OnLevel s chains i (u i) := fun i hi => by
    rcases Nat.lt_or_ge i s.level with hli | hli
    · rw [hbelow i hli]
      exact hu₀ i hli
    · exact Or.inl (habove i hli hi)
  obtain ⟨s₃, hloop, hs⟩ := splitLoop_spec key (u := u) newlevel
    (s := { s₂ with level := max s₂.level newlevel }) (by
      have hsp := hb.splicable h hlevel hu
      exact ⟨hsp.new_ne, hsp.pred_ne, hsp.disjoint, hsp.next⟩)
  have hg : Grown s s₃ inodes u key newlevel := (hb.grown h hlevel hu hs.of_level).of_level
  have hu0 : u 0 < s.currentIdx := (hu 0 hpos).lt h (by decide)
  have hne : inodes 0 ≠ u 0 := by
    have := (hg.id_lt hpos).1
    omega
  have hroom₃ := hg.currentIdx
  let s₄ := s₃.modify (inodes 0) fun n => { n with coveredNodes := (s₃.inode (u 0)).coveredNodes - count }
  let s₅ := s₄.modify (u 0) fun n => { n with coveredNodes := count }
  have hg₄ : Grown s s₄ inodes u key newlevel :=
    hg.modify_covered (fun _ => (s₃.inode (u 0)).coveredNodes - count) hpos (Or.inl rfl) (hg.id_lt hpos).2
  refine ⟨s₅, u, ?_, ⟨hg₄.modify_covered (fun _ => count) hpos (Or.inr rfl) ?_, ?_, ?_, ?_, ?_, hu, habove⟩,
    hbelow⟩
  · have hloop' : splitLoop key inodes u newlevel { s₂ with level := max s₂.level newlevel } = some s₃ := hloop
    simp only [insertWhenRebalance, hrun, hlink, hget, raiseLevel_spec, Option.bind_eq_bind, Option.bind_some]
    rw [hloop']
    rfl
  · have : s₄.currentIdx = s₃.currentIdx := rfl
    omega
  · show s₃.level = max s.level newlevel
    rw [hs.level, ← hb.level]
  · rw [(modify_covered s₄ (u 0) (inodes 0) fun _ => count).2.2.2,
      (modify_covered s₃ (inodes 0) (inodes 0) fun _ => _).2.2.2, hs.new_down 0 hpos]
    show (s₂.inode (inodes 0)).down = v
    rw [hb.bottom]
  · rw [modify_of_ne _ _ _ hne, modify_self]
    show (s₃.inode (u 0)).coveredNodes - count = _
    rw [hs.pred 0 hpos]
    show (s₂.inode (u 0)).coveredNodes - count = _
    rw [hb.old _ hu0]
  · rw [modify_self]

theorem Chained.insertWhenRebalance_raised (h : Chained s chains) {key newlevel : ℕ} (v : ℕ) (count : ℤ)
    (hpos : 1 ≤ newlevel) (hlevel : newlevel ≤ maxLevel) (hroom : s.currentIdx + newlevel ≤ inodeNum) :
    ∃ s' inodes u, insertWhenRebalance s key v newlevel count = some (true, s') ∧
      Raised s s' chains inodes u key v newlevel count := by
  have hlle := h.level_le
  obtain ⟨s₁, inodes, s₂, hrun, hlink, hb⟩ := build_spec h key v hpos hroom
  obtain ⟨u₀, hget, hon⟩ :=
    (hb.chained h hroom).pivots_onLevel key (i := s.level - 1) (by omega) (Or.inl rfl) fun _ => 0
  obtain ⟨s', u, hins, hr, -⟩ := hb.raised count h hpos hlevel hrun hlink
    (by rw [getPivotNodesForInsert, hb.level]; exact hget)
    (fun i hi => by simpa only [OnLevel, hb.header] using hon i (by omega))
  exact ⟨s', inodes, u, hins, hr⟩

theorem Built.pivots_spec {s₂ : DramSkiplist} {inodes : ℕ → ℕ} {key newlevel v : ℕ} (h : Levels s chains)
    (hb : Built s s₂ inodes key newlevel v) (hroom : s.currentIdx + newlevel ≤ inodeNum) (hkey : 0 < key) :
    ∃ u, s₂.getPivotNodesForInsert key (fun _ => 0) = some u ∧
      Pivots s chains (s.level - 1) key (s.header (s.level - 1)) u := by
  have hlpos := h.level_pos
  have hlle := h.level_le
  obtain ⟨u, hpiv, hp⟩ :=
    (hb.levels h hroom).pivots_spec (i := s.level - 1) (by omega) hkey (Or.inl rfl) fun _ => 0
  have hold : ∀ j < maxLevel, ∀ n, OnLevel s chains j n → s₂.inode n = s.inode n := fun j hj n hn =>
    hb.old n (hn.lt h.toChained hj)
  refine ⟨u, by rw [getPivotNodesForInsert, hb.level]; exact hpiv, fun i hi => ?_, fun hstart i hi => ?_,
    fun _ m hm hle => ?_⟩
  · simpa only [OnLevel, hb.header] using hp.onLevel i hi
  · have hstart₂ : Starts s₂ chains (s.level - 1) key (s₂.header (s.level - 1)) := by
      rw [hb.header]
      rcases hstart with ⟨hmem, -⟩ | ⟨-, f, hf, hmin⟩
      · exact absurd hmem (h.toChained.header_not_mem (by omega))
      · refine Or.inr ⟨by rw [hb.header], f, hf, ?_⟩
        rw [hold _ (by omega) f (Or.inr (List.mem_of_mem_head? hf))]
        exact hmin
    have hc := hp.covering hstart₂ i hi
    exact hc.congr (hold i (by omega) _ (Or.inr hc.mem))
  · have hon : OnLevel s chains (s.level - 1) (u (s.level - 1)) := by
      simpa only [OnLevel, hb.header] using (hp.onLevel _ le_rfl).1
    have hstop := hp.stops rfl m hm (by rwa [hold _ (by omega) m (Or.inr (List.mem_of_mem_tail hm))])
    rwa [hold _ (by omega) _ hon] at hstop

theorem insertWhenRebalance_spec (h : Levels s chains) {key newlevel : ℕ} (v : ℕ) (count : ℤ) (hkey : 0 < key)
    (hpos : 1 ≤ newlevel) (hlevel : newlevel ≤ maxLevel) (hroom : s.currentIdx + newlevel ≤ inodeNum) :
    ∃ s' inodes u, insertWhenRebalance s key v newlevel count = some (true, s') ∧
      Split s s' chains inodes u key v newlevel count := by
  have hlpos := h.level_pos
  obtain ⟨s₁, inodes, s₂, hrun, hlink, hb⟩ := build_spec h.toChained key v hpos hroom
  obtain ⟨u₀, hget, hp⟩ := hb.pivots_spec h hroom hkey
  obtain ⟨s', u, hins, hr, hui⟩ := hb.raised count h.toChained hpos hlevel hrun hlink hget
    fun i hi => (hp.onLevel i (by omega)).1
  refine ⟨s', inodes, u, hins, hr, fun i hi => ?_, fun hstart i hi => ?_, fun hhead => ?_⟩
  · exact hui i (by omega) ▸ hp.onLevel i hi
  · exact hui i (by omega) ▸ hp.covering hstart i hi
  · exact hui (s.level - 1) (by omega) ▸ hp.stops hhead

end Specs

end DramSkiplist

end Hkv.Tandem
