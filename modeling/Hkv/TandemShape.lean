import Hkv.TandemIndex

/-!
# The shape of the skip list

On every level the links lead from the header through a list of inodes to the tail,
and the key range of each inode ends where the next one begins. Nothing here asks for
the keys to be ordered.
-/
namespace Hkv.Tandem
open LinkedChain

namespace DramSkiplist

/-- The ids that level `i` uses. -/
def levelIds (s : DramSkiplist) (chains : ℕ → List ℕ) (i : ℕ) : List ℕ :=
  s.header i :: s.tail i :: chains i

/-- The range of each inode of the list ends at the `min_key` of its successor. -/
def Abut (s : DramSkiplist) : List ℕ → ℕ → Prop
  | [], _ => True
  | [x], last => (s.inode x).maxKey = (s.inode last).minKey
  | x :: y :: l, last => (s.inode x).maxKey = (s.inode y).minKey ∧ Abut s (y :: l) last

/-- The links of the levels, whatever the ranges of the inodes. -/
structure Chained (s : DramSkiplist) (chains : ℕ → List ℕ) : Prop where
  level_pos : 1 ≤ s.level
  level_le : s.level ≤ maxLevel
  used : s.currentIdx ≤ inodeNum
  fresh : ∀ n, s.currentIdx ≤ n → s.inode n = poolInode
  chain : ∀ i < maxLevel, Chain (fun n => (s.inode n).next) (s.header i) (chains i) (s.tail i)
  lt : ∀ i < maxLevel, ∀ n ∈ s.levelIds chains i, n < s.currentIdx
  nodup : ∀ i < maxLevel, (s.levelIds chains i).Nodup
  disjoint : ∀ i < maxLevel, ∀ j < maxLevel, i ≠ j → (s.levelIds chains i).Disjoint (s.levelIds chains j)
  header_min : ∀ i < maxLevel, (s.inode (s.header i)).minKey = 0
  header_max : ∀ i < maxLevel, (s.inode (s.header i)).maxKey = 0
  header_down : ∀ i, i + 1 < maxLevel → (s.inode (s.header (i + 1))).down = s.header i
  down : ∀ i, i + 1 < maxLevel → ∀ n ∈ chains (i + 1), ∃ m ∈ chains i,
    (s.inode n).down = m ∧ (s.inode m).minKey = (s.inode n).minKey

structure Levels (s : DramSkiplist) (chains : ℕ → List ℕ) : Prop extends Chained s chains where
  abut : ∀ i < maxLevel, Abut s (chains i) (s.tail i)

/-- No inode begins at key 0, which marks the headers. -/
structure Shape (s : DramSkiplist) (chains : ℕ → List ℕ) : Prop extends Levels s chains where
  min_pos : ∀ i < maxLevel, ∀ n ∈ chains i, 0 < (s.inode n).minKey

/-- What a search may stand on: the header or an inode of the level. -/
def OnLevel (s : DramSkiplist) (chains : ℕ → List ℕ) (i n : ℕ) : Prop := n = s.header i ∨ n ∈ chains i

theorem nodeAt_of_lt {num n : ℕ} (h : n < num) : nodeAt num (n : ℤ) = some n := by
  have h' : (n : ℤ) < num := Int.ofNat_lt.mpr h
  simp [nodeAt, h']

theorem Abut.tail {s : DramSkiplist} {x : ℕ} {l : List ℕ} {last : ℕ} (h : Abut s (x :: l) last) :
    Abut s l last := by
  cases l with
  | nil => trivial
  | cons y l => exact h.2

theorem Abut.congr {t t' : DramSkiplist} {l : List ℕ} {last : ℕ} (h : Abut t l last)
    (hmax : ∀ n ∈ l, (t'.inode n).maxKey = (t.inode n).maxKey)
    (hmin : ∀ n ∈ last :: l, (t'.inode n).minKey = (t.inode n).minKey) : Abut t' l last := by
  induction l with
  | nil => trivial
  | cons x l ih =>
    cases l with
    | nil =>
      have hx : (t.inode x).maxKey = (t.inode last).minKey := h
      show (t'.inode x).maxKey = (t'.inode last).minKey
      rw [hmax x (by simp), hmin last (by simp), hx]
    | cons y l =>
      refine ⟨by rw [hmax x (by simp), hmin y (by simp), h.1], ih h.2 (fun n hn => hmax n (by simp [hn])) ?_⟩
      intro n hn
      exact hmin n (by rcases List.mem_cons.mp hn with rfl | hn <;> simp_all)

theorem abut_append {t : DramSkiplist} {l₁ l₂ : List ℕ} {x last : ℕ} :
    Abut t (l₁ ++ x :: l₂) last ↔ Abut t l₁ x ∧ Abut t (x :: l₂) last := by
  induction l₁ with
  | nil => simp [Abut]
  | cons y l₁ ih =>
    cases l₁ with
    | nil => simp [Abut]
    | cons z l₁ => simp only [List.cons_append, Abut, and_assoc] at ih ⊢; rw [ih]

theorem Abut.max_ne_zero {t : DramSkiplist} {l : List ℕ} {last n : ℕ} (h : Abut t l last)
    (hlast : (t.inode last).minKey ≠ 0) (hpos : ∀ m ∈ l.tail, 0 < (t.inode m).minKey) (hn : n ∈ l) :
    (t.inode n).maxKey ≠ 0 := by
  obtain ⟨front, back, rfl⟩ := List.append_of_mem hn
  have hrest := (abut_append.mp h).2
  cases back with
  | nil =>
    have hmax : (t.inode n).maxKey = (t.inode last).minKey := hrest
    rwa [hmax]
  | cons m back =>
    rw [hrest.1]
    refine (hpos m ?_).ne'
    cases front <;> simp

variable {s : DramSkiplist} {chains : ℕ → List ℕ}

/-- The node a walk stops at, from a node `cur` with the rest `l` of the level before it:
the key lies beyond the nodes before, and not beyond this one if it is not the last. -/
theorem walk_split {i : ℕ} {l : List ℕ} {cur : ℕ} (key : ℕ) (prev : Option ℕ) (fuel : ℕ)
    (hchain : Chain (fun n => (s.inode n).next) cur l (s.tail i)) (htail : s.tail i ∉ l)
    (hlt : ∀ n ∈ l, n < inodeNum) (hfuel : l.length < fuel) :
    ∃ front n back, cur :: l = front ++ n :: back ∧
      walk s key i fuel prev cur = some (if front = [] then prev else front.getLast?, n) ∧
      (∀ x ∈ front, (s.inode x).maxKey < key) ∧ (back = [] ∨ key ≤ (s.inode n).maxKey) := by
  induction l generalizing cur prev fuel with
  | nil =>
    obtain ⟨fuel, rfl⟩ := Nat.exists_eq_succ_of_ne_zero (Nat.ne_of_gt hfuel)
    have hnext : (s.inode cur).next = s.tail i := hchain
    exact ⟨[], cur, [], rfl, by simp [walk, hnext], by simp, Or.inl rfl⟩
  | cons x l ih =>
    obtain ⟨fuel, rfl⟩ := Nat.exists_eq_succ_of_ne_zero (Nat.ne_of_gt (Nat.lt_of_le_of_lt (Nat.zero_le _) hfuel))
    have hnext : (s.inode cur).next = (x : ℤ) := hchain.1
    have hne : (s.inode cur).next ≠ s.tail i := by
      rw [hnext]
      exact fun he => htail (Int.ofNat.inj he ▸ List.mem_cons_self)
    by_cases hkey : (s.inode cur).maxKey < key
    · obtain ⟨front, n, back, hsplit, hwalk, hmax, hstop⟩ := ih (some cur) fuel hchain.2
        (fun h => htail (List.mem_cons_of_mem _ h)) (fun n hn => hlt n (List.mem_cons_of_mem _ hn))
        (by simpa using hfuel)
      refine ⟨cur :: front, n, back, by rw [hsplit]; rfl, ?_, List.forall_mem_cons.mpr ⟨hkey, hmax⟩, hstop⟩
      rw [walk, if_pos ⟨hne, hkey⟩, hnext, nodeAt_of_lt (hlt x List.mem_cons_self)]
      rw [Option.bind_eq_bind, Option.bind_some, hwalk]
      cases front with
      | nil => rfl
      | cons y front => simp [List.getLast?_cons_cons]
    · exact ⟨[], cur, x :: l, rfl, by simp [walk, hkey], by simp, Or.inr (Nat.le_of_not_lt hkey)⟩

/-- Where ranges abut, a walk stays at `cur` or goes on to a node that begins below the key. -/
theorem walk_spec {i : ℕ} {l : List ℕ} {cur : ℕ} (key : ℕ) (prev : Option ℕ) (fuel : ℕ)
    (hchain : Chain (fun n => (s.inode n).next) cur l (s.tail i)) (habut : Abut s (cur :: l) (s.tail i))
    (htail : s.tail i ∉ l) (hlt : ∀ n ∈ l, n < inodeNum) (hfuel : l.length < fuel) :
    ∃ front n back, cur :: l = front ++ n :: back ∧
      walk s key i fuel prev cur = some (if front = [] then prev else front.getLast?, n) ∧
      (front ≠ [] → (s.inode n).minKey < key) ∧ (back = [] ∨ key ≤ (s.inode n).maxKey) := by
  obtain ⟨front, n, back, hsplit, hwalk, hmax, hstop⟩ := walk_split key prev fuel hchain htail hlt hfuel
  refine ⟨front, n, back, hsplit, hwalk, fun hne => ?_, hstop⟩
  -- the range of the node before ends where this one begins
  obtain ⟨front, x, rfl⟩ := List.eq_nil_or_concat front |>.resolve_left hne
  rw [hsplit, List.concat_eq_append, List.append_assoc, List.singleton_append] at habut
  have hx := (abut_append.mp habut).2.1
  rw [← hx]
  exact hmax x (by simp)

theorem walk_stops {i : ℕ} {l : List ℕ} {cur m : ℕ} (key : ℕ) (prev : Option ℕ) (fuel : ℕ)
    (hchain : Chain (fun n => (s.inode n).next) cur l (s.tail i)) (habut : Abut s (cur :: l) (s.tail i))
    (htail : s.tail i ∉ l) (hlt : ∀ n ∈ l, n < inodeNum) (hfuel : l.length < fuel) (hm : m ∈ l)
    (hkey : key ≤ (s.inode m).minKey) :
    ∃ p n, walk s key i fuel prev cur = some (p, n) ∧ key ≤ (s.inode n).maxKey := by
  induction l generalizing cur prev fuel with
  | nil => cases hm
  | cons x l ih =>
    obtain ⟨fuel, rfl⟩ := Nat.exists_eq_succ_of_ne_zero (Nat.ne_of_gt (Nat.lt_of_le_of_lt (Nat.zero_le _) hfuel))
    have hnext : (s.inode cur).next = (x : ℤ) := hchain.1
    have hne : (s.inode cur).next ≠ s.tail i := by
      rw [hnext]
      exact fun he => htail (Int.ofNat.inj he ▸ List.mem_cons_self)
    by_cases hstop : (s.inode cur).maxKey < key
    · have hml : m ∈ l := by
        refine (List.mem_cons.mp hm).resolve_left fun he => ?_
        rw [habut.1, ← he] at hstop
        omega
      rw [walk, if_pos ⟨hne, hstop⟩, hnext, nodeAt_of_lt (hlt x List.mem_cons_self)]
      exact ih (some cur) fuel hchain.2 habut.tail (fun h => htail (List.mem_cons_of_mem _ h))
        (fun n hn => hlt n (List.mem_cons_of_mem _ hn)) (by simpa using hfuel) hml
    · exact ⟨prev, cur, by simp [walk, hstop], Nat.le_of_not_lt hstop⟩

theorem descend_rule {i key cur : ℕ} {I R : ℕ → ℕ → Prop}
    (hwalk : ∀ j ≤ i, ∀ n, I j n → ∃ p m, walk s key j inodeNum none n = some (p, m) ∧
      R j (stepBack s key p m))
    (hdown : ∀ j < i, ∀ n, R (j + 1) n → ∃ m, nodeAt inodeNum (s.inode n).down = some m ∧ I j m)
    (hcur : I i cur) : ∃ n, descend s key i cur = some n ∧ R 0 n := by
  induction i generalizing cur with
  | zero =>
    obtain ⟨p, n, hstep, hr⟩ := hwalk 0 (Nat.le_refl 0) cur hcur
    exact ⟨_, by simp [descend, hstep], hr⟩
  | succ i ih =>
    obtain ⟨p, n, hstep, hr⟩ := hwalk (i + 1) (Nat.le_refl _) cur hcur
    obtain ⟨m, hm, hI⟩ := hdown i (Nat.lt_succ_self i) _ hr
    obtain ⟨r, hrun, hend⟩ :=
      ih (fun j hj => hwalk j (Nat.le_succ_of_le hj)) (fun j hj => hdown j (Nat.lt_succ_of_lt hj)) hI
    exact ⟨r, by simp [descend, hstep, hm, hrun], hend⟩

namespace Shape

theorem mem_levelIds {i n : ℕ} (h : OnLevel s chains i n) : n ∈ s.levelIds chains i := by
  rcases h with rfl | h
  · exact List.mem_cons_self
  · exact List.mem_cons_of_mem _ (List.mem_cons_of_mem _ h)

theorem mem_levelIds_of_mem {i n : ℕ} (hn : n ∈ chains i) : n ∈ s.levelIds chains i :=
  mem_levelIds (Or.inr hn)

theorem tail_mem_levelIds {i : ℕ} : s.tail i ∈ s.levelIds chains i :=
  List.mem_cons_of_mem _ List.mem_cons_self

/-- Inode `n` of level `i` does not begin beyond the key, and it is the last one or reaches
up to the key. -/
def Covering (s : DramSkiplist) (chains : ℕ → List ℕ) (i key n : ℕ) : Prop :=
  ∃ front back, chains i = front ++ n :: back ∧ (s.inode n).minKey ≤ key ∧
    (back = [] ∨ key ≤ (s.inode n).maxKey)

/-- Where the search of one level ends: at the header, if the key lies before the first
inode, or at an inode that covers the key. -/
def Found (s : DramSkiplist) (chains : ℕ → List ℕ) (i key n : ℕ) : Prop :=
  (n = s.header i ∧ ∀ f ∈ (chains i).head?, key < (s.inode f).minKey) ∨ Covering s chains i key n

theorem Covering.mem {i key n : ℕ} (h : Covering s chains i key n) : n ∈ chains i := by
  obtain ⟨front, back, hsplit, -⟩ := h
  simp [hsplit]

theorem Found.onLevel {i key n : ℕ} (h : Found s chains i key n) : OnLevel s chains i n := by
  rcases h with ⟨rfl, -⟩ | h
  · exact Or.inl rfl
  · exact Or.inr h.mem

/-- Where a walk without a step back has to start to end at a covering inode: at an inode
that does not begin beyond the key, or before such an inode. -/
def Starts (s : DramSkiplist) (chains : ℕ → List ℕ) (i key cur : ℕ) : Prop :=
  (cur ∈ chains i ∧ (s.inode cur).minKey ≤ key) ∨
    (cur = s.header i ∧ ∃ f ∈ (chains i).head?, (s.inode f).minKey ≤ key)

end Shape

open Shape

namespace Chained

theorem lt_inodeNum (h : Chained s chains) {i n : ℕ} (hi : i < maxLevel) (hn : n ∈ s.levelIds chains i) :
    n < inodeNum :=
  Nat.lt_of_lt_of_le (h.lt i hi n hn) h.used

theorem tail_not_mem (h : Chained s chains) {i : ℕ} (hi : i < maxLevel) : s.tail i ∉ chains i := by
  have hnd := h.nodup i hi
  simp only [levelIds, List.nodup_cons] at hnd
  exact hnd.2.1

theorem header_not_mem (h : Chained s chains) {i : ℕ} (hi : i < maxLevel) : s.header i ∉ chains i := by
  have hnd := h.nodup i hi
  simp only [levelIds, List.nodup_cons, List.mem_cons, not_or] at hnd
  exact hnd.1.2

theorem chain_nodup (h : Chained s chains) {i : ℕ} (hi : i < maxLevel) : (chains i).Nodup := by
  have hnd := h.nodup i hi
  simp only [levelIds, List.nodup_cons] at hnd
  exact hnd.2.2

theorem length_lt (h : Chained s chains) {i : ℕ} (hi : i < maxLevel) : (chains i).length + 1 < inodeNum := by
  have hlen := length_le_of_nodup (h.nodup i hi) fun n hn => h.lt_inodeNum hi hn
  simp only [levelIds, List.length_cons] at hlen
  omega

/-- The shape reads of the inodes of its levels their links and their ranges. -/
theorem congr (h : Chained s chains) {s' : DramSkiplist} (hheader : s'.header = s.header) (htail : s'.tail = s.tail)
    (hlevel : s'.level = s.level) (hidx : s.currentIdx ≤ s'.currentIdx) (hused : s'.currentIdx ≤ inodeNum)
    (hfresh : ∀ n, s'.currentIdx ≤ n → s'.inode n = poolInode)
    (hsame : ∀ i < maxLevel, ∀ n ∈ s.levelIds chains i, (s'.inode n).next = (s.inode n).next ∧
      (s'.inode n).minKey = (s.inode n).minKey ∧ (s'.inode n).maxKey = (s.inode n).maxKey ∧
      (s'.inode n).down = (s.inode n).down) : Chained s' chains := by
  have hids : ∀ i, s'.levelIds chains i = s.levelIds chains i := fun i => by simp [levelIds, hheader, htail]
  have hmem : ∀ i < maxLevel, ∀ n ∈ chains i, _ := fun i hi n hn => hsame i hi n (mem_levelIds_of_mem hn)
  have hhead : ∀ i < maxLevel, _ := fun i hi => hsame i hi (s.header i) List.mem_cons_self
  refine ⟨hlevel ▸ h.level_pos, hlevel ▸ h.level_le, hused, hfresh, ?_, ?_, ?_, ?_, ?_, ?_, ?_, ?_⟩
  · intro i hi
    rw [hheader, htail]
    exact (h.chain i hi).congr (hhead i hi).1 fun y hy => (hmem i hi y hy).1
  · intro i hi n hn
    exact Nat.lt_of_lt_of_le (h.lt i hi n (hids i ▸ hn)) hidx
  · intro i hi
    exact hids i ▸ h.nodup i hi
  · intro i hi j hj hij
    rw [hids, hids]
    exact h.disjoint i hi j hj hij
  · intro i hi
    rw [hheader, (hhead i hi).2.1, h.header_min i hi]
  · intro i hi
    rw [hheader, (hhead i hi).2.2.1, h.header_max i hi]
  · intro i hi
    rw [hheader, (hhead _ hi).2.2.2, h.header_down i hi]
  · intro i hi n hn
    obtain ⟨m, hm, hdown, hmin⟩ := h.down i hi n hn
    refine ⟨m, hm, ?_, ?_⟩
    · rw [(hmem _ hi n hn).2.2.2, hdown]
    · rw [(hmem i (Nat.lt_of_succ_lt hi) m hm).2.1, (hmem _ hi n hn).2.1, hmin]

theorem rest (h : Chained s chains) {i n : ℕ} (hi : i < maxLevel) (hn : OnLevel s chains i n) :
    ∃ back, back <:+ chains i ∧ Chain (fun m => (s.inode m).next) n back (s.tail i) := by
  rcases hn with rfl | hn
  · exact ⟨chains i, List.suffix_rfl, h.chain i hi⟩
  · obtain ⟨front, back, hsplit⟩ := List.append_of_mem hn
    have hchain := h.chain i hi
    rw [hsplit] at hchain
    exact ⟨back, ⟨front ++ [n], by simp [hsplit]⟩, (chain_append.mp hchain).2⟩

theorem next_mem (h : Chained s chains) {i x : ℕ} (hi : i < maxLevel) (hx : OnLevel s chains i x) :
    ∃ m : ℕ, (s.inode x).next = m ∧ m ∈ s.tail i :: chains i := by
  rcases (h.chain i hi).next_mem (List.mem_cons.mpr hx) with hm | ⟨y, hy, hm⟩
  · exact ⟨s.tail i, hm, List.mem_cons_self⟩
  · exact ⟨y, hm, List.mem_cons_of_mem _ hy⟩

theorem walk_onLevel (h : Chained s chains) {i cur : ℕ} (key : ℕ) (hi : i < maxLevel)
    (hcur : OnLevel s chains i cur) :
    ∃ p n, walk s key i inodeNum none cur = some (p, n) ∧ OnLevel s chains i n ∧ ∀ q ∈ p,
    OnLevel s chains i q := by
  obtain ⟨back, hsuffix, hchain⟩ := h.rest hi hcur
  have hmem : ∀ n ∈ cur :: back, OnLevel s chains i n := List.forall_mem_cons.mpr
    ⟨hcur, fun n hn => Or.inr (hsuffix.mem hn)⟩
  obtain ⟨front, n, rest, hcut, hwalk, -⟩ := walk_split key none inodeNum hchain
    (fun ht => h.tail_not_mem hi (hsuffix.mem ht))
    (fun n hn => h.lt_inodeNum hi (mem_levelIds_of_mem (hsuffix.mem hn)))
    (Nat.lt_of_le_of_lt hsuffix.length_le (Nat.lt_of_succ_lt (h.length_lt hi)))
  refine ⟨_, n, hwalk, hmem n (by rw [hcut]; simp), fun q hq => hmem q ?_⟩
  rw [hcut]
  split at hq
  · cases hq
  · exact List.mem_append_left _ (List.mem_of_getLast? hq)

theorem split (h : Chained s chains) {i n : ℕ} (hi : i < maxLevel) (habut : Abut s (chains i) (s.tail i))
    (hn : n ∈ chains i) : ∃ front back, chains i = front ++ n :: back ∧
      Chain (fun m => (s.inode m).next) n back (s.tail i) ∧ Abut s (n :: back) (s.tail i) := by
  obtain ⟨front, back, hsplit⟩ := List.append_of_mem hn
  have hchain := h.chain i hi
  rw [hsplit] at hchain habut
  exact ⟨front, back, hsplit, (chain_append.mp hchain).2, (abut_append.mp habut).2⟩

/-- A walk that starts at an inode: it stays there or goes on to a later one that begins
below the key. -/
theorem walk_inode (h : Chained s chains) {i cur : ℕ} (key : ℕ) (hi : i < maxLevel)
    (habut : Abut s (chains i) (s.tail i)) (hcur : cur ∈ chains i) (prev : Option ℕ) (fuel : ℕ)
    (hfuel : (chains i).length ≤ fuel) :
    ∃ p n, walk s key i fuel prev cur = some (p, n) ∧ n ∈ chains i ∧
      ((p = prev ∧ n = cur) ∨ ((s.inode n).minKey < key ∧ n ∈ (chains i).tail)) ∧
      ((s.inode n).minKey ≤ key → Covering s chains i key n) := by
  obtain ⟨front, back, hsplit, hchain, habut⟩ := h.split hi habut hcur
  have hmem : ∀ n ∈ cur :: back, n ∈ chains i := fun n hn => by rw [hsplit]; exact List.mem_append_right _ hn
  obtain ⟨mid, n, rest, hcut, hwalk, hlow, hstop⟩ := walk_spec key prev fuel hchain habut
    (fun ht => h.tail_not_mem hi (hmem _ (List.mem_cons_of_mem _ ht)))
    (fun n hn => h.lt_inodeNum hi (mem_levelIds (Or.inr (hmem n (List.mem_cons_of_mem _ hn)))))
    (by have := congrArg List.length hsplit; simp at this; omega)
  refine ⟨_, n, hwalk, hmem n (by rw [hcut]; simp), ?_, fun hle => ⟨front ++ mid, rest, ?_, hle, hstop⟩⟩
  · cases mid with
    | nil => exact Or.inl ⟨rfl, (List.cons.inj hcut).1.symm⟩
    | cons y mid =>
      have hn : n ∈ back := by
        rw [(List.cons.inj hcut).2]
        simp
      refine Or.inr ⟨hlow (by simp), ?_⟩
      rw [hsplit]
      cases front <;> simp [hn]
  · rw [hsplit, hcut, List.append_assoc]

theorem walk_header (h : Chained s chains) {i key f : ℕ} {l : List ℕ} (hi : i < maxLevel) (hkey : 0 < key)
    (hc : chains i = f :: l) (prev : Option ℕ) (fuel : ℕ) :
    walk s key i (fuel + 1) prev (s.header i) = walk s key i fuel (some (s.header i)) f := by
  have hchain := h.chain i hi
  rw [hc] at hchain
  have hf : f ∈ chains i := by simp [hc]
  have hnext : (s.inode (s.header i)).next = (f : ℤ) := hchain.1
  have hne : (s.inode (s.header i)).next ≠ s.tail i := by
    rw [hnext]
    exact fun he => h.tail_not_mem hi (Int.ofNat.inj he ▸ hf)
  rw [walk, if_pos ⟨hne, by rw [h.header_max i hi]; exact hkey⟩, hnext,
    nodeAt_of_lt (h.lt_inodeNum hi (mem_levelIds (Or.inr hf)))]
  rfl

theorem walk_empty (h : Chained s chains) {i : ℕ} (key : ℕ) (hi : i < maxLevel) (hc : chains i = [])
    (prev : Option ℕ) (fuel : ℕ) : walk s key i (fuel + 1) prev (s.header i) = some (prev, s.header i) := by
  have hchain := h.chain i hi
  rw [hc] at hchain
  have hnext : (s.inode (s.header i)).next = s.tail i := hchain
  simp [walk, hnext]

/-- Every walk of a level ends on that level. From the header or from an inode that does
not begin beyond the key it ends, after the step back of `lookup`, where the key is. -/
theorem search_level (h : Chained s chains) {i key cur : ℕ} (hi : i < maxLevel)
    (habut : Abut s (chains i) (s.tail i)) (hkey : 0 < key) (hcur : OnLevel s chains i cur) :
    ∃ p n, walk s key i inodeNum none cur = some (p, n) ∧
    (OnLevel s chains i n ∧ (chains i ≠ [] → n ∈ chains i)) ∧
      ((s.inode cur).minKey ≤ key → Found s chains i key (stepBack s key p n)) ∧
      ((s.inode n).minKey ≤ key → Found s chains i key n) := by
  have hlen := h.length_lt hi
  obtain ⟨fuel, hfuel⟩ : ∃ fuel, inodeNum = fuel + 1 := ⟨9999, rfl⟩
  have hstay : ∀ {p n}, (s.inode n).minKey ≤ key → stepBack s key p n = n := fun hle => by
    simp [stepBack, Nat.not_lt.mpr hle]
  rcases hcur with rfl | hcur
  · rw [hfuel]
    cases hc : chains i with
    | nil =>
      have hfound : Found s chains i key (s.header i) := Or.inl ⟨rfl, by simp [hc]⟩
      exact ⟨none, s.header i, h.walk_empty key hi hc none fuel, ⟨Or.inl rfl, fun hne => absurd rfl hne⟩,
        fun hle => by rwa [hstay hle], fun _ => hfound⟩
    | cons f l =>
      have hf : f ∈ chains i := by simp [hc]
      rw [h.walk_header hi hkey hc]
      obtain ⟨p, n, hwalk, hn, hmove, hcov⟩ := h.walk_inode key hi habut hf (some (s.header i)) fuel (by omega)
      refine ⟨p, n, hwalk, ⟨Or.inr hn, fun _ => hc ▸ hn⟩, fun _ => ?_, fun hle => Or.inr (hcov hle)⟩
      rcases Nat.lt_or_ge key (s.inode n).minKey with hlt | hle
      · -- only the first inode can begin beyond the key; the search steps back to the header
        obtain ⟨rfl, rfl⟩ := hmove.resolve_right fun hm => Nat.not_lt_of_gt hlt hm.1
        refine Or.inl ⟨by simp [stepBack, hlt], fun g hg => ?_⟩
        rw [hc, List.head?_cons, Option.mem_some_iff] at hg
        exact hg ▸ hlt
      · rw [hstay hle]
        exact Or.inr (hcov hle)
  · obtain ⟨p, n, hwalk, hn, hmove, hcov⟩ := h.walk_inode key hi habut hcur none inodeNum (by omega)
    refine ⟨p, n, hwalk, ⟨Or.inr hn, fun _ => hn⟩, fun hmin => ?_, fun hle => Or.inr (hcov hle)⟩
    have hle : (s.inode n).minKey ≤ key := by
      rcases hmove with ⟨-, rfl⟩ | ⟨hlt, -⟩
      · exact hmin
      · exact Nat.le_of_lt hlt
    rw [hstay hle]
    exact Or.inr (hcov hle)

end Chained

namespace Levels

theorem walk_header_stops (h : Levels s chains) {i key m : ℕ} (hi : i < maxLevel) (hkey : 0 < key)
    (hm : m ∈ (chains i).tail) (hle : key ≤ (s.inode m).minKey) :
    ∃ p n, walk s key i inodeNum none (s.header i) = some (p, n) ∧ key ≤ (s.inode n).maxKey := by
  obtain ⟨f, l, hc⟩ := List.exists_cons_of_ne_nil (List.ne_nil_of_mem (List.mem_of_mem_tail hm))
  have hchain := h.chain i hi
  have habut := h.abut i hi
  have hlen := h.toChained.length_lt hi
  obtain ⟨fuel, hfuel⟩ : ∃ fuel, inodeNum = fuel + 1 := ⟨9999, rfl⟩
  rw [hfuel, h.toChained.walk_header hi hkey hc]
  rw [hc] at hchain habut hm hlen
  exact walk_stops key _ fuel hchain.2 habut
    (fun ht => h.toChained.tail_not_mem hi (by rw [hc]; exact List.mem_cons_of_mem _ ht))
    (fun n hn => h.toChained.lt_inodeNum hi (mem_levelIds_of_mem (by rw [hc]; exact List.mem_cons_of_mem _ hn)))
    (by simp at hlen; omega) hm hle

end Levels

namespace Shape

theorem Starts.walk (h : Levels s chains) {i key cur : ℕ} (hi : i < maxLevel) (hkey : 0 < key)
    (hcur : Starts s chains i key cur) :
    ∃ p n, walk s key i inodeNum none cur = some (p, n) ∧ Covering s chains i key n := by
  have hlen := h.toChained.length_lt hi
  -- an inode to start from, and the walk from there
  have hgo : ∀ f ∈ chains i, (s.inode f).minKey ≤ key → ∀ prev fuel, (chains i).length ≤ fuel →
      ∃ p n, DramSkiplist.walk s key i fuel prev f = some (p, n) ∧ Covering s chains i key n := by
    intro f hf hmin prev fuel hfuel
    obtain ⟨p, n, hwalk, -, hmove, hcov⟩ := h.toChained.walk_inode key hi (h.abut i hi) hf prev fuel hfuel
    refine ⟨p, n, hwalk, hcov ?_⟩
    rcases hmove with ⟨-, rfl⟩ | ⟨hlt, -⟩
    · exact hmin
    · exact Nat.le_of_lt hlt
  rcases hcur with ⟨hcur, hmin⟩ | ⟨rfl, f, hf, hmin⟩
  · exact hgo cur hcur hmin none inodeNum (by omega)
  · obtain ⟨l, hc⟩ := List.head?_eq_some_iff.mp hf
    obtain ⟨fuel, hfuel⟩ : ∃ fuel, inodeNum = fuel + 1 := ⟨9999, rfl⟩
    rw [hfuel, h.toChained.walk_header hi hkey hc]
    exact hgo f (by simp [hc]) hmin _ fuel (by omega)

theorem Found.min_le (h : Chained s chains) {i key n : ℕ} (hi : i < maxLevel) (hf : Found s chains i key n) :
    (s.inode n).minKey ≤ key := by
  rcases hf with ⟨rfl, -⟩ | ⟨-, -, -, hle, -⟩
  · rw [h.header_min i hi]
    exact Nat.zero_le _
  · exact hle

end Shape

namespace Chained

theorem down_onLevel (h : Chained s chains) {i n : ℕ} (hi : i + 1 < maxLevel) (hn : OnLevel s chains (i + 1) n) :
    ∃ m, nodeAt inodeNum (s.inode n).down = some m ∧ OnLevel s chains i m ∧
      (s.inode m).minKey = (s.inode n).minKey := by
  have hi' : i < maxLevel := Nat.lt_of_succ_lt hi
  rcases hn with rfl | hn
  · refine ⟨s.header i, ?_, Or.inl rfl, by rw [h.header_min i hi', h.header_min _ hi]⟩
    rw [h.header_down i hi, nodeAt_of_lt (h.lt_inodeNum hi' List.mem_cons_self)]
  · obtain ⟨m, hm, hdown, hmin⟩ := h.down i hi n hn
    exact ⟨m, by rw [hdown, nodeAt_of_lt (h.lt_inodeNum hi' (mem_levelIds (Or.inr hm)))], Or.inr hm, hmin⟩

theorem min_bottom (h : Chained s chains) {i n : ℕ} (hi : i < maxLevel) (hn : n ∈ chains i) :
    ∃ m ∈ chains 0, (s.inode m).minKey = (s.inode n).minKey := by
  induction i generalizing n with
  | zero => exact ⟨n, hn, rfl⟩
  | succ i ih =>
    obtain ⟨k, hk, -, hmin⟩ := h.down i hi n hn
    obtain ⟨m, hm, hmk⟩ := ih (Nat.lt_of_succ_lt hi) hk
    exact ⟨m, hm, hmk.trans hmin⟩

theorem descend_found (h : Chained s chains) {i key cur : ℕ} (hi : i < maxLevel)
    (habut : ∀ j ≤ i, Abut s (chains j) (s.tail j)) (hkey : 0 < key) (hcur : OnLevel s chains i cur)
    (hmin : (s.inode cur).minKey ≤ key) :
    ∃ n, descend s key i cur = some n ∧ Found s chains 0 key n := by
  apply descend_rule (I := fun j n => OnLevel s chains j n ∧ (s.inode n).minKey ≤ key)
    (R := fun j n => Found s chains j key n) ?_ ?_ ⟨hcur, hmin⟩
  · rintro j hj n ⟨hn, hle⟩
    obtain ⟨p, m, hwalk, -, hfound, -⟩ := h.search_level (by omega) (habut j hj) hkey hn
    exact ⟨p, m, hwalk, hfound hle⟩
  · intro j hj n hn
    obtain ⟨m, hdown, hm, hmmin⟩ := h.down_onLevel (by omega) hn.onLevel
    exact ⟨m, hdown, hm, hmmin ▸ Found.min_le h (by omega) hn⟩

theorem descend_zero (h : Chained s chains) {i : ℕ} (hi : i < maxLevel) :
    ∃ n, descend s 0 i (s.header i) = some n ∧ n = s.header 0 := by
  apply descend_rule (I := fun j n => n = s.header j) (R := fun j n => n = s.header j) ?_ ?_ rfl
  · intro j _ n hn
    refine ⟨none, n, ?_, (ite_self _).trans hn⟩
    rw [show inodeNum = 9999 + 1 from rfl, walk, if_neg fun hc => Nat.not_lt_zero _ hc.2]
  · rintro j hj n rfl
    refine ⟨s.header j, ?_, rfl⟩
    rw [h.header_down j (by omega), nodeAt_of_lt (h.lt_inodeNum (by omega) List.mem_cons_self)]

theorem descend_onLevel (h : Chained s chains) {i cur : ℕ} (key : ℕ) (hi : i < maxLevel)
    (hcur : OnLevel s chains i cur) : ∃ n, descend s key i cur = some n ∧ OnLevel s chains 0 n := by
  apply descend_rule (I := OnLevel s chains) (R := OnLevel s chains) ?_ ?_ hcur
  · intro j hj n hn
    obtain ⟨p, m, hwalk, hm, hp⟩ := h.walk_onLevel key (by omega) hn
    refine ⟨p, m, hwalk, ?_⟩
    rw [stepBack]
    split
    · cases p with
      | none => exact hm
      | some q => exact hp q rfl
    · exact hm
  · intro j hj n hn
    obtain ⟨m, hdown, hm, -⟩ := h.down_onLevel (by omega) hn
    exact ⟨m, hdown, hm⟩

theorem lookup_mem (h : Chained s chains) (key : ℕ) : ∃ o, lookup s key = some o ∧ ∀ n ∈ o,
    n ∈ chains 0 := by
  have hpos := h.level_pos
  have hle := h.level_le
  obtain ⟨n, hrun, hn⟩ := h.descend_onLevel key (i := s.level - 1) (by omega) (Or.inl rfl)
  refine ⟨if (s.inode n).minKey = 0 then none else some n, ?_, fun m hm => ?_⟩
  · simp only [lookup, hrun, Option.bind_eq_bind, Option.bind_some, Option.pure_def]
  split at hm
  · cases hm
  · rename_i hmin
    obtain rfl := Option.some.inj hm
    exact hn.resolve_left fun heq => hmin (heq ▸ h.header_min 0 (by decide))

end Chained

namespace Levels

/-- The header and the inode that begins at key 0 hold a search that meets no smaller key. -/
theorem descend_trap (h : Levels s chains) {i key cur : ℕ} (hi : i < maxLevel) (hkey : 0 < key)
    (hfirst : ∀ j ≤ i, ∀ f ∈ (chains j).head?, (s.inode f).minKey = 0 ∨ key < (s.inode f).minKey)
    (hlater : ∀ j ≤ i, ∀ n ∈ (chains j).tail, key ≤ (s.inode n).minKey)
    (hcur : cur = s.header i ∨ cur ∈ chains i ∧ (s.inode cur).minKey = 0) :
    ∃ n, descend s key i cur = some n ∧ (s.inode n).minKey = 0 := by
  suffices hend : ∃ n, descend s key i cur = some n ∧
    (n = s.header 0 ∨ n ∈ chains 0 ∧ (s.inode n).minKey = 0) by
    obtain ⟨n, hrun, rfl | ⟨-, hmin⟩⟩ := hend
    · exact ⟨_, hrun, h.header_min 0 (by decide)⟩
    · exact ⟨n, hrun, hmin⟩
  apply descend_rule (I := fun j n => n = s.header j ∨ n ∈ chains j ∧ (s.inode n).minKey = 0)
    (R := fun j n => n = s.header j ∨ n ∈ chains j ∧ (s.inode n).minKey = 0) ?_ ?_ hcur
  · intro j hj n hn
    have hlen := h.toChained.length_lt (i := j) (by omega)
    obtain ⟨fuel, hfuel⟩ : ∃ fuel, inodeNum = fuel + 1 := ⟨9999, rfl⟩
    rcases hn with rfl | ⟨hn, hzero⟩
    · rw [hfuel]
      cases hc : chains j with
      | nil =>
        refine ⟨none, s.header j, h.toChained.walk_empty key (by omega) hc none fuel, .inl ?_⟩
        rw [stepBack]
        split <;> rfl
      | cons f l =>
        have hf : f ∈ chains j := by simp [hc]
        rw [h.toChained.walk_header (by omega) hkey hc]
        obtain ⟨p, m, hwalk, -, ⟨rfl, rfl⟩ | ⟨hlt, hm⟩, -⟩ :=
          h.toChained.walk_inode key (by omega) (h.abut j (by omega)) hf (some (s.header j)) fuel (by omega)
        · refine ⟨_, m, hwalk, ?_⟩
          rcases hfirst j hj m (by simp [hc]) with hzero | hlt
          · exact .inr (by simp [stepBack, hzero])
          · exact .inl (by simp [stepBack, hlt])
        · exact absurd hlt (Nat.not_lt.mpr (hlater j hj m hm))
    · obtain ⟨p, m, hwalk, -, ⟨rfl, rfl⟩ | ⟨hlt, hm⟩, -⟩ :=
        h.toChained.walk_inode key (by omega) (h.abut j (by omega)) hn none inodeNum (by omega)
      · exact ⟨none, m, hwalk, .inr (by simpa [stepBack, hzero] using hn)⟩
      · exact absurd hlt (Nat.not_lt.mpr (hlater j hj m hm))
  · rintro j hj n (rfl | ⟨hn, hzero⟩)
    · refine ⟨s.header j, ?_, .inl rfl⟩
      rw [h.header_down j (by omega), nodeAt_of_lt (h.toChained.lt_inodeNum (by omega) List.mem_cons_self)]
    · obtain ⟨m, hm, hdown, hmin⟩ := h.down j (by omega) n hn
      refine ⟨m, ?_, .inr ⟨hm, hmin.trans hzero⟩⟩
      rw [hdown, nodeAt_of_lt (h.toChained.lt_inodeNum (by omega) (mem_levelIds_of_mem hm))]

end Levels

theorem Levels.lookup_eq (h : Levels s chains) {key : ℕ} (hkey : 0 < key) :
    ∃ n, lookup s key = some (if (s.inode n).minKey = 0 then none else some n) ∧ Found s chains 0 key n := by
  have hlevel : s.level - 1 < maxLevel := by
    have := h.level_pos
    have := h.level_le
    omega
  obtain ⟨n, hrun, hfound⟩ := h.toChained.descend_found hlevel
    (fun j hj => h.abut j (by omega)) hkey (Or.inl rfl)
    (by rw [h.header_min _ hlevel]; exact Nat.zero_le _)
  exact ⟨n, by simp [lookup, hrun], hfound⟩

theorem Shape.lookup_found (h : Shape s chains) {key : ℕ} (hkey : 0 < key) :
    (lookup s key = some none ∧ ∀ f ∈ (chains 0).head?, key < (s.inode f).minKey) ∨
      ∃ n, lookup s key = some (some n) ∧ Covering s chains 0 key n := by
  obtain ⟨n, hlook, ⟨rfl, hfirst⟩ | hcov⟩ := h.lookup_eq hkey
  · rw [if_pos (h.header_min 0 (by decide))] at hlook
    exact Or.inl ⟨hlook, hfirst⟩
  · rw [if_neg (h.min_pos 0 (by decide) n hcov.mem).ne'] at hlook
    exact Or.inr ⟨n, hlook, hcov⟩

/-! ## The inodes of a level -/

def levelWalk (s : DramSkiplist) (i : ℕ) : ℕ → ℕ → Option (List ℕ)
  | 0, _ => none
  | fuel + 1, cur =>
    if (s.inode cur).next = s.tail i then some []
    else do
      let n ← nodeAt inodeNum (s.inode cur).next
      return n :: (← levelWalk s i fuel n)

/-- The inodes between `header[i]` and `tail[i]`, if following `next` reaches the tail. -/
def levelNodes (s : DramSkiplist) (i : ℕ) : Option (List ℕ) := levelWalk s i inodeNum (s.header i)

theorem levelWalk_eq {i : ℕ} {l : List ℕ} {cur : ℕ} (fuel : ℕ)
    (hchain : Chain (fun n => (s.inode n).next) cur l (s.tail i)) (htail : s.tail i ∉ l)
    (hlt : ∀ n ∈ l, n < inodeNum) (hfuel : l.length < fuel) : levelWalk s i fuel cur = some l := by
  induction l generalizing cur fuel with
  | nil =>
    obtain ⟨fuel, rfl⟩ := Nat.exists_eq_succ_of_ne_zero (Nat.ne_of_gt hfuel)
    have hnext : (s.inode cur).next = s.tail i := hchain
    simp [levelWalk, hnext]
  | cons x l ih =>
    obtain ⟨fuel, rfl⟩ := Nat.exists_eq_succ_of_ne_zero (Nat.ne_of_gt (Nat.lt_of_le_of_lt (Nat.zero_le _) hfuel))
    have hnext : (s.inode cur).next = (x : ℤ) := hchain.1
    have hne : (s.inode cur).next ≠ s.tail i := by
      rw [hnext]
      exact fun he => htail (Int.ofNat.inj he ▸ List.mem_cons_self)
    have hrest := ih fuel hchain.2 (fun h => htail (List.mem_cons_of_mem _ h))
      (fun n hn => hlt n (List.mem_cons_of_mem _ hn)) (by simpa using hfuel)
    rw [levelWalk, if_neg hne, hnext, nodeAt_of_lt (hlt x List.mem_cons_self), Option.bind_eq_bind,
      Option.bind_some, hrest]
    rfl

theorem Chained.levelNodes_eq (h : Chained s chains) {i : ℕ} (hi : i < maxLevel) :
    s.levelNodes i = some (chains i) :=
  levelWalk_eq inodeNum (h.chain i hi) (h.tail_not_mem hi)
    (fun _ hn => h.lt_inodeNum hi (Shape.mem_levelIds_of_mem hn)) (by have := h.length_lt hi; omega)

end DramSkiplist

end Hkv.Tandem
