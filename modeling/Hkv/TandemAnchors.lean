import Hkv.ValueList

/-!
# Runs with repeated keys

The key may be on the chain already, any number of times. The counts of the inodes say
little then, and a split may put a level out of order; what remains is that the chain is
sorted, that ranges abut, and that every level-0 inode points to a node of the chain with
its own `min_key`. This is enough to know where a search ends.
-/
namespace Hkv.Tandem
open LinkedChain DramSkiplist

namespace TandemIndex
open Shape

variable {t t' : TandemIndex} {chains : ℕ → List ℕ} {l : List ℕ} {key value newlevel : ℕ}

/-- Level 0 points into the sorted chain `l`. At most the first inode of a level begins at
key 0. -/
structure Pinned (t : TandemIndex) (chains : ℕ → List ℕ) (l : List ℕ) : Prop where
  levels : Levels t.mainIndex chains
  later_pos : ∀ i < maxLevel, ∀ n ∈ (chains i).tail, 0 < (t.mainIndex.inode n).minKey
  tails : ∀ i, i + 1 < maxLevel → (t.mainIndex.inode (t.mainIndex.tail i)).minKey ≠ 0
  values : t.valueList.Ordered l
  anchor : ∀ n ∈ chains 0, ∃ d ∈ l, (t.mainIndex.inode n).down = d ∧
    (t.vnode d).key = (t.mainIndex.inode n).minKey

/-- The first inode does not begin beyond any node of the chain. -/
structure Rooted (t : TandemIndex) (chains : ℕ → List ℕ) (l : List ℕ) : Prop extends Pinned t chains l where
  least : ∀ v ∈ l, ∃ f ∈ (chains 0).head?, (t.mainIndex.inode f).minKey ≤ (t.vnode v).key

/-- Key 0 is not on the chain. -/
structure Anchored (t : TandemIndex) (chains : ℕ → List ℕ) (l : List ℕ) : Prop extends Rooted t chains l where
  key_pos : ∀ v ∈ l, 0 < (t.vnode v).key

theorem Pinned.lt_vnodeNum (h : Pinned t chains l) {v : ℕ} (hv : v ∈ l) : v < vnodeNum := h.values.lt_vnodeNum hv

theorem Pinned.min_mem (h : Pinned t chains l) {i n : ℕ} (hi : i < maxLevel) (hn : n ∈ chains i) :
    ∃ d ∈ l, (t.vnode d).key = (t.mainIndex.inode n).minKey := by
  obtain ⟨m, hm, hmin⟩ := h.levels.toChained.min_bottom hi hn
  obtain ⟨d, hd, -, hkey⟩ := h.anchor m hm
  exact ⟨d, hd, hkey.trans hmin⟩

/-- Where the search for a key begins on the chain: nowhere, if the key lies before every
node, or at an anchor that does not lie beyond it; but an inode that begins at key 0 is
taken for the header. -/
theorem Rooted.lookup_cases (h : Rooted t chains l) (hkey : 0 < key) :
    (t.mainIndex.lookup key = some none ∧ ∀ v ∈ l, key < (t.vnode v).key) ∨
      ∃ n d : ℕ, ∃ a b,
      t.mainIndex.lookup key = some (if (t.mainIndex.inode n).minKey = 0 then none else some n) ∧
        Covering t.mainIndex chains 0 key n ∧ (t.mainIndex.inode n).down = (d : ℤ) ∧ l = a ++ d :: b ∧
        (t.vnode d).key = (t.mainIndex.inode n).minKey ∧ (t.vnode d).key ≤ key := by
  obtain ⟨n, hlook, ⟨rfl, hfirst⟩ | hcov⟩ := h.levels.lookup_eq hkey
  · rw [if_pos (h.levels.header_min 0 (by decide))] at hlook
    refine .inl ⟨hlook, fun v hv => ?_⟩
    obtain ⟨f, hf, hle⟩ := h.least v hv
    exact Nat.lt_of_lt_of_le (hfirst f hf) hle
  · obtain ⟨d, hd, hdown, hmin⟩ := h.anchor n hcov.mem
    obtain ⟨a, b, hsplit⟩ := List.append_of_mem hd
    have hle : (t.mainIndex.inode n).minKey ≤ key := by
      obtain ⟨-, -, -, hle, -⟩ := hcov
      exact hle
    exact .inr ⟨n, d, a, b, hlook, hcov, hdown, hsplit, hmin, hmin ▸ hle⟩

theorem Anchored.lookup_cases (h : Anchored t chains l) (hkey : 0 < key) :
    (t.mainIndex.lookup key = some none ∧ ∀ v ∈ l, key < (t.vnode v).key) ∨
      ∃ n d : ℕ, ∃ a b, t.mainIndex.lookup key = some (some n) ∧ n ∈ chains 0 ∧
      (t.mainIndex.inode n).down = (d : ℤ) ∧
        l = a ++ d :: b ∧ (t.vnode d).key ≤ key := by
  rcases h.toRooted.lookup_cases hkey with hnone | ⟨n, d, a, b, hlook, hcov, hdown, hsplit, hmin, hle⟩
  · exact .inl hnone
  · have hpos := h.key_pos d (by simp [hsplit])
    rw [if_neg (by omega)] at hlook
    exact .inr ⟨n, d, a, b, hlook, hcov.mem, hdown, hsplit, hle⟩

/-! ## Lookup -/

theorem valueFind_eq {cur : ℕ} (key fuel : ℕ) (hchain : Chain t.vnext cur l (-1))
    (hlt : ∀ v ∈ l, v < vnodeNum)
    (hfuel : l.length < fuel) : t.valueFind key fuel cur = ((cur :: l).find? fun v => key ≤ (t.vnode v).key).map
      fun v => if (t.vnode v).key = key then (t.vnode v).value else notFound := by
  induction l generalizing cur fuel with
  | nil =>
    obtain ⟨fuel, rfl⟩ := Nat.exists_eq_succ_of_ne_zero (Nat.ne_of_gt hfuel)
    have hnext : (t.vnode cur).next = -1 := hchain
    rcases Nat.lt_trichotomy (t.vnode cur).key key with hkey | hkey | hkey
    · simp [valueFind, Nat.ne_of_lt hkey, Nat.not_lt_of_gt hkey, Nat.not_le_of_gt hkey, hnext, nodeAt]
    · simp [valueFind, hkey]
    · simp [valueFind, Nat.ne_of_gt hkey, hkey, Nat.le_of_lt hkey]
  | cons x l ih =>
    obtain ⟨fuel, rfl⟩ := Nat.exists_eq_succ_of_ne_zero (Nat.ne_of_gt (Nat.lt_of_le_of_lt (Nat.zero_le _) hfuel))
    have hnext : (t.vnode cur).next = (x : ℤ) := hchain.1
    rcases Nat.lt_trichotomy (t.vnode cur).key key with hkey | hkey | hkey
    · rw [valueFind, if_neg (Nat.ne_of_lt hkey), if_neg (Nat.not_lt_of_gt hkey), hnext,
        nodeAt_of_lt (hlt x List.mem_cons_self), List.find?_cons_of_neg (by simpa using hkey)]
      exact ih fuel hchain.2 (fun v hv => hlt v (List.mem_cons_of_mem _ hv)) (by simpa using hfuel)
    · simp [valueFind, hkey]
    · simp [valueFind, Nat.ne_of_gt hkey, hkey, Nat.le_of_lt hkey]

theorem Pinned.lookup_eq {n d : ℕ} {a b : List ℕ} (h : Pinned t chains l)
    (hlook : t.mainIndex.lookup key = some (some n)) (hdown : (t.mainIndex.inode n).down = (d : ℤ))
    (hsplit : l = a ++ d :: b) :
    t.lookup key = ((d :: b).find? fun v => key ≤ (t.vnode v).key).map
      fun v => if (t.vnode v).key = key then (t.vnode v).value else notFound := by
  have hnode : nodeAt vnodeNum (t.mainIndex.inode n).down = some d := by
    rw [hdown, nodeAt_of_lt (h.lt_vnodeNum (by simp [hsplit]))]
  have hchain : Chain t.vnext t.head (a ++ d :: b) (-1) := hsplit ▸ h.values.chain
  have hlen := h.values.length_lt
  rw [hsplit, List.length_append, List.length_cons] at hlen
  simp only [lookup, hlook, hnode, Option.bind_eq_bind, Option.bind_some]
  exact valueFind_eq key vnodeNum (chain_append.mp hchain).2
    (fun v hv => h.lt_vnodeNum (by simp [hsplit, hv])) (by omega)

theorem Anchored.lookup_eq (h : Anchored t chains l) (hkey : 0 < key) :
    (t.lookup key = some notFound ∧ ∀ v ∈ l, key < (t.vnode v).key) ∨
      ∃ n ∈ chains 0, ∃ d : ℕ, ∃ a b, (t.mainIndex.inode n).down = (d : ℤ) ∧ l = a ++ d :: b ∧
      (t.vnode d).key ≤ key ∧
        t.lookup key = ((d :: b).find? fun v => key ≤ (t.vnode v).key).map
          fun v => if (t.vnode v).key = key then (t.vnode v).value else notFound := by
  rcases h.lookup_cases hkey with ⟨hlook, hlow⟩ | ⟨n, d, a, b, hlook, hn, hdown, hsplit, hle⟩
  · exact .inl ⟨by simp [lookup, hlook], hlow⟩
  · exact .inr ⟨n, hn, d, a, b, hdown, hsplit, hle, h.toPinned.lookup_eq hlook hdown hsplit⟩

/-! ## One insert -/

/-- A split with this key and level does not go behind the last inode of the top level,
which is taken for the header. -/
def FitsTop (s : DramSkiplist) (key newlevel : ℕ) : Prop :=
  newlevel = maxLevel → s.level = maxLevel →
    ∀ l ∈ s.levelNodes (maxLevel - 1), ∃ m ∈ l.tail, key ≤ (s.inode m).minKey

/-- What the levels keep in a call for `key`. -/
structure Finer (s s' : DramSkiplist) (chains chains' : ℕ → List ℕ) (key : ℕ) : Prop where
  header : s'.header = s.header
  level : s.level ≤ s'.level
  first : ∀ i < s.level, ∀ f ∈ (chains i).head?, (s.inode f).minKey ≤ key → f ∈ (chains' i).head?
  old : ∀ i < maxLevel, ∀ n ∈ chains i, n ∈ chains' i ∧ (s'.inode n).minKey = (s.inode n).minKey
  new : ∀ i < maxLevel, ∀ n ∈ chains' i, n ∈ chains i ∨ (0 < key → 0 < (s'.inode n).minKey)

/-- What an insert adds to the chain: the new vnode comes before all others of its key, or
right behind one that a search begins at. -/
structure Added (t t' : TandemIndex) (chains chains' : ℕ → List ℕ) (l l' : List ℕ) (key value : ℕ) :
    Prop where
  finer : Finer t.mainIndex t'.mainIndex chains chains' key
  head : t'.head = t.head
  new_pair : t'.pair t.vCurrentIdx = (key, value)
  old_pair : ∀ v ∈ l, t'.pair v = t.pair v
  place : ∃ a b, l = a ++ b ∧ l' = a ++ t.vCurrentIdx :: b ∧ ((∀ x ∈ a, (t.vnode x).key < key) ∨
    (∃ a' d, a = a' ++ [d] ∧ (t.vnode d).key = key) ∧ ∀ n ∈ chains' 0,
    (t'.mainIndex.inode n).down ≠ t.vCurrentIdx)

theorem Added.perm {chains' : ℕ → List ℕ} {l' : List ℕ} (h : Added t t' chains chains' l l' key value) :
    l'.Perm (t.vCurrentIdx :: l) := by
  obtain ⟨a, b, rfl, rfl, -⟩ := h.place
  exact List.perm_middle

theorem Added.new_key {chains' : ℕ → List ℕ} {l' : List ℕ} (h : Added t t' chains chains' l l' key value) :
    (t'.vnode t.vCurrentIdx).key = key := congrArg Prod.fst h.new_pair

theorem Added.old_key {chains' : ℕ → List ℕ} {l' : List ℕ}
    (h : Added t t' chains chains' l l' key value) {v : ℕ}
    (hv : v ∈ l) : (t'.vnode v).key = (t.vnode v).key := congrArg Prod.fst (h.old_pair v hv)

theorem Pinned.enter {l' a b : List ℕ} (h : Pinned t chains l) (he : ValueList.Entered t t' l l' a b key value) :
    Pinned t' chains l' := by
  refine ⟨he.mainIndex ▸ h.levels, he.mainIndex ▸ h.later_pos, he.mainIndex ▸ h.tails, he.ordered,
    fun n hn => ?_⟩
  obtain ⟨d, hd, hdown, hmin⟩ := h.anchor n hn
  have hkey : (t'.vnode d).key = (t.vnode d).key := congrArg Prod.fst (he.old_pair d (List.mem_cons_of_mem _ hd))
  rw [he.mainIndex]
  exact ⟨d, he.perm.mem_iff.mpr (List.mem_cons_of_mem _ hd), hdown, hkey.trans hmin⟩

theorem Rooted.enter {l' a b : List ℕ} (h : Rooted t chains l) (he : ValueList.Entered t t' l l' a b key value)
    (hfirst : ∃ f ∈ (chains 0).head?, (t.mainIndex.inode f).minKey ≤ key) : Rooted t' chains l' := by
  refine ⟨h.toPinned.enter he, fun v hv => ?_⟩
  rw [he.mainIndex]
  rcases List.mem_cons.mp (he.perm.mem_iff.mp hv) with rfl | hv
  · have hself : (t'.vnode t.vCurrentIdx).key = key := congrArg Prod.fst he.new_pair
    rwa [hself]
  · have hkey : (t'.vnode v).key = (t.vnode v).key := congrArg Prod.fst (he.old_pair v (List.mem_cons_of_mem _ hv))
    rw [hkey]
    exact h.least v hv

theorem Rooted.counted (h : Rooted t chains l) {n : ℕ} (hn : n ∈ chains 0) : Rooted (t.counted n) chains l := by
  have hsame : ∀ m, _ := fun m => modify_covered t.mainIndex n m fun x => x.coveredNodes + 1
  have hlt := h.levels.lt 0 (by decide) n (mem_levelIds_of_mem hn)
  refine ⟨⟨h.levels.modify_covered (fun x => x.coveredNodes + 1) hlt, fun i hi m hm => ?_, fun i hi => ?_,
    h.values, fun m hm => ?_⟩, fun v hv => ?_⟩
  · exact (hsame m).2.1 ▸ h.later_pos i hi m hm
  · exact (hsame _).2.1 ▸ h.tails i hi
  · obtain ⟨d, hd, hdown, hmin⟩ := h.anchor m hm
    exact ⟨d, hd, (hsame m).2.2.2.trans hdown, hmin.trans (hsame m).2.1.symm⟩
  · obtain ⟨f, hf, hle⟩ := h.least v hv
    exact ⟨f, hf, (hsame f).2.1.symm ▸ hle⟩

theorem mem_tail_grownChains {s : DramSkiplist} (h : Chained s chains) {inodes u : ℕ → ℕ} {i x : ℕ}
    (hi : i < maxLevel) (hu : i < newlevel → OnLevel s chains i (u i))
    (hx : x ∈ (grownChains s chains inodes u newlevel i).tail) :
    x ∈ (chains i).tail ∨ i < newlevel ∧
    (u i ∈ chains i ∧ x = inodes i ∨ u i = s.header i ∧ x ∈ (chains i).head?) := by
  by_cases hin : i < newlevel
  · rcases hu hin with hhead | hmem
    · rw [grownChains, if_pos hin, hhead, insertBehind_header, List.tail_cons] at hx
      cases hc : chains i with
      | nil => simp [hc] at hx
      | cons f l =>
        rw [hc] at hx
        rcases List.mem_cons.mp hx with rfl | hx
        · exact .inr ⟨hin, .inr ⟨hhead, rfl⟩⟩
        · exact .inl hx
    · obtain ⟨front, back, hsplit⟩ := List.append_of_mem hmem
      rw [(h.grownChains_split hi hin hsplit).2.2] at hx
      by_cases hxi : x = inodes i
      · exact .inr ⟨hin, .inl ⟨hmem, hxi⟩⟩
      · left
        rw [hsplit]
        cases front with
        | nil => simpa [hxi] using hx
        | cons y front => simpa [hxi] using hx
  · rw [grownChains, if_neg hin] at hx
    exact .inl hx

theorem Pinned.grow {s' : DramSkiplist} {inodes u : ℕ → ℕ} {w : ℕ} (h : Pinned t chains l) (hw : w ∈ l)
    (hg : Grown t.mainIndex s' inodes u (t.vnode w).key newlevel) (hpos : 1 ≤ newlevel)
    (hlevel : newlevel ≤ maxLevel) (hroom : t.mainIndex.currentIdx + newlevel ≤ inodeNum)
    (hu : ∀ i < newlevel, OnLevel t.mainIndex chains i (u i))
    (hreal : ∀ i < newlevel, u i ∈ chains i → (t.mainIndex.inode (u i)).maxKey ≠ 0 ∧ 0 < (t.vnode w).key)
    (hfirst : ∀ i < newlevel, u i = t.mainIndex.header i → ∀ f ∈ (chains i).head?,
      0 < (t.mainIndex.inode f).minKey)
    (hpos' : 1 ≤ s'.level) (hle : s'.level ≤ maxLevel) (hdown : (s'.inode (inodes 0)).down = w) :
    Pinned { t with mainIndex := s' } (grownChains t.mainIndex chains inodes u newlevel) l := by
  have hmin : ∀ i < maxLevel, ∀ n ∈ chains i,
    (s'.inode n).minKey = (t.mainIndex.inode n).minKey := fun i hi n hn =>
    hg.min_same h.levels.toChained hlevel hu hi (mem_levelIds_of_mem hn)
  refine ⟨h.levels.grow hg hlevel hroom hu (fun i hi hm => (hreal i hi hm).1) hpos' hle, fun i hi n hn => ?_,
    tails_grown h.levels h.tails hg hlevel hu, h.values, fun n hn => ?_⟩
  · show 0 < (s'.inode n).minKey
    rcases mem_tail_grownChains h.levels.toChained hi (hu i) hn with hn | ⟨hin, ⟨hm, rfl⟩ | ⟨hhead, hf⟩⟩
    · rw [hmin i hi n (List.mem_of_mem_tail hn)]
      exact h.later_pos i hi n hn
    · rw [hg.new_min i hin]
      exact (hreal i hin hm).2
    · rw [hmin i hi n (List.mem_of_mem_head? hf)]
      exact hfirst i hin hhead n hf
  · show ∃ d ∈ l, (s'.inode n).down = d ∧ (t.vnode d).key = (s'.inode n).minKey
    rcases (mem_grownChains hu).mp hn with ⟨-, rfl⟩ | hn
    · exact ⟨w, hw, hdown, (hg.new_min 0 hpos).symm⟩
    · obtain ⟨d, hd, hdn, hkey⟩ := h.anchor n hn
      exact ⟨d, hd, (hg.down_same h.levels.toChained hlevel hu (by decide) (mem_levelIds_of_mem hn)).trans hdn,
        hkey.trans (hmin 0 (by decide) n hn).symm⟩

/-! ### A key for which the index has no inode -/

theorem Pinned.insert_none (h : Pinned t chains l) (hroom : t.vCurrentIdx < vnodeNum) (hpos : 1 ≤ newlevel)
    (hlevel : newlevel ≤ maxLevel) (hinodes : t.mainIndex.currentIdx + newlevel ≤ inodeNum)
    (hlook : t.mainIndex.lookup key = some none) (value : ℕ) :
    ∃ t₂ s' inodes l' b₁ b₂, t.insert key value newlevel = some (true, { t₂ with mainIndex := s' }) ∧
    l = b₁ ++ b₂ ∧
      (∀ x ∈ b₁, (t.vnode x).key < key) ∧ ValueList.Entered t t₂ l l' (t.head :: b₁) b₂ key value ∧
      Grown t.mainIndex s' inodes t.mainIndex.header key newlevel ∧ s'.level = t.mainIndex.level ∧
      (s'.inode (inodes 0)).down = t.vCurrentIdx := by
  have hhead : (t.vnode t.head).key = 0 := h.values.head_key
  obtain ⟨t₂, l', b₁, b₂, hins, hback, hb₁, -, he⟩ :=
    h.values.valueInsert hroom (show t.head :: l = [] ++ t.head :: l from rfl)
      (show (t.vnode t.head).key ≤ key by omega) value
  obtain ⟨s', inodes, hmain, hg, hsame, hdown, -⟩ :=
    insert_spec h.levels.toChained key t.vCurrentIdx hpos hlevel hinodes
  have hplace : (t.withVnode key value).place key t.vCurrentIdx = some (none, t₂) := by
    simp only [place, withVnode_mainIndex, hlook, Option.bind_eq_bind, Option.bind_some, withVnode_head]
    rw [hins]
    rfl
  refine ⟨t₂, s', inodes, l', b₁, b₂, ?_, hback, hb₁, he, hg, hsame, hdown⟩
  rw [insert_of_place_none hroom hplace, he.mainIndex, hmain]
  rfl

theorem Rooted.insert_head (h : Rooted t chains l) (hroom : t.vCurrentIdx < vnodeNum) (hpos : 1 ≤ newlevel)
    (hlevel : newlevel ≤ maxLevel) (hinodes : t.mainIndex.currentIdx + newlevel ≤ inodeNum)
    (hlook : t.mainIndex.lookup key = some none) (hlow : ∀ v ∈ l, key < (t.vnode v).key) (value : ℕ) :
    ∃ t' inodes, t.insert key value newlevel = some (true, t') ∧
      Rooted t' (grownChains t.mainIndex chains inodes t.mainIndex.header newlevel) (t.vCurrentIdx :: l) ∧
      Added t t' chains (grownChains t.mainIndex chains inodes t.mainIndex.header newlevel) l (t.vCurrentIdx :: l) key
        value ∧
      Grown t.mainIndex t'.mainIndex inodes t.mainIndex.header key newlevel ∧
      t'.mainIndex.level = t.mainIndex.level ∧ t'.vCurrentIdx = t.vCurrentIdx + 1 := by
  obtain ⟨t₂, s', inodes, l', b₁, b₂, hrun, hback, hb₁, he, hg, hsame, hdown⟩ :=
    h.toPinned.insert_none hroom hpos hlevel hinodes hlook value
  have hnil : b₁ = [] := List.eq_nil_iff_forall_not_mem.mpr fun x hx =>
    Nat.lt_asymm (hb₁ x hx) (hlow x (by simp [hback, hx]))
  subst hnil
  obtain rfl : l' = t.vCurrentIdx :: l := by
    have hcut := he.cut'
    rw [List.nil_append] at hback
    rw [← hback] at hcut
    simpa using hcut
  have hself : (t₂.vnode t.vCurrentIdx).key = key := congrArg Prod.fst he.new_pair
  have hbeyond : ∀ i < maxLevel, ∀ n ∈ chains i, key < (t.mainIndex.inode n).minKey := fun i hi n hn => by
    obtain ⟨d, hd, hmin⟩ := h.min_mem hi hn
    exact hmin ▸ hlow d hd
  have hu : ∀ i < newlevel, OnLevel t.mainIndex chains i (t.mainIndex.header i) := fun _ _ => Or.inl rfl
  have hmain := he.mainIndex
  have hpinned := (h.toPinned.enter he).grow (w := t.vCurrentIdx) List.mem_cons_self
    (by rw [hself, hmain]; exact hg) hpos hlevel (hmain ▸ hinodes) (hmain ▸ hu)
    (fun i hi hm => absurd hm (by rw [hmain]; exact h.levels.toChained.header_not_mem (by omega)))
    (fun i hi _ f hf => by
      rw [hmain]
      exact Nat.lt_of_le_of_lt (Nat.zero_le _) (hbeyond i (by omega) f (List.mem_of_mem_head? hf)))
    (hsame ▸ h.levels.level_pos) (hsame ▸ h.levels.level_le) hdown
  rw [hmain] at hpinned
  refine ⟨_, inodes, hrun, ⟨hpinned, fun v hv => ?_⟩,
    ⟨⟨hg.header, Nat.le_of_eq hsame.symm, fun i hi f hf hle => ?_,
    fun i hi n hn => ⟨(mem_grownChains hu).mpr (.inr hn), ?_⟩, fun i hi n hn => ?_⟩, he.head, he.new_pair,
    fun v hv => he.old_pair v (List.mem_cons_of_mem _ hv), [], l, rfl, rfl, .inl (by simp)⟩, hg, hsame,
    he.vCurrentIdx⟩
  · rw [grownChains_head hpos]
    refine ⟨inodes 0, rfl, ?_⟩
    show (s'.inode (inodes 0)).minKey ≤ (t₂.vnode v).key
    rw [hg.new_min 0 hpos]
    rcases List.mem_cons.mp hv with rfl | hv
    · exact Nat.le_of_eq hself.symm
    · have hold : (t₂.vnode v).key = (t.vnode v).key :=
        congrArg Prod.fst (he.old_pair v (List.mem_cons_of_mem _ hv))
      exact hold ▸ Nat.le_of_lt (hlow v hv)
  · have hlt : i < maxLevel := Nat.lt_of_lt_of_le hi h.levels.level_le
    exact absurd (hbeyond i hlt f (List.mem_of_mem_head? hf)) (Nat.not_lt.mpr hle)
  · exact hg.min_same h.levels.toChained hlevel hu hi (mem_levelIds_of_mem hn)
  · rcases (mem_grownChains hu).mp hn with ⟨hin, rfl⟩ | hn
    · exact .inr fun hkey => (hg.new_min i hin).symm ▸ hkey
    · exact .inl hn

/-! ### A key in the range of an inode -/

theorem fitsTop_iff {s : DramSkiplist} (h : Levels s chains) : FitsTop s key newlevel ↔
    (newlevel = maxLevel → s.level = maxLevel → ∃ m ∈ (chains (maxLevel - 1)).tail,
      key ≤ (s.inode m).minKey) := by
  have hnodes := h.toChained.levelNodes_eq (show maxLevel - 1 < maxLevel by decide)
  constructor
  · intro hf hn hs
    exact hf hn hs _ hnodes
  · intro hf hn hs l hl
    rw [hnodes] at hl
    exact Option.some.inj hl ▸ hf hn hs

theorem FitsTop.increase {s : DramSkiplist} (h : Levels s chains) {n : ℕ} (hn : n ∈ chains 0)
    (hf : FitsTop s key newlevel) : FitsTop (s.increaseCoveredNodes n) key newlevel := by
  have h' : Levels (s.increaseCoveredNodes n) chains :=
    h.modify_covered (fun x => x.coveredNodes + 1) (h.lt 0 (by decide) n (mem_levelIds_of_mem hn))
  refine (fitsTop_iff h').mpr ?_
  simp only [increase_min]
  exact (fitsTop_iff h).mp hf

theorem FitsTop.max_ne_zero {s s' : DramSkiplist} (h : Levels s chains)
    (hlater : ∀ i < maxLevel, ∀ n ∈ (chains i).tail, 0 < (s.inode n).minKey)
    (htails : ∀ i, i + 1 < maxLevel → (s.inode (s.tail i)).minKey ≠ 0) {inodes u : ℕ → ℕ} {v : ℕ}
    {count : ℤ} (hf : FitsTop s key newlevel) (hkey : 0 < key) (hlevel : newlevel ≤ maxLevel)
    (hs : Split s s' chains inodes u key v newlevel count) :
    ∀ i < newlevel, u i ∈ chains i → (s.inode (u i)).maxKey ≠ 0 := by
  intro i hi hmem
  by_cases hbelow : i + 1 < maxLevel
  · exact TandemIndex.max_ne_zero h htails hbelow (hlater i (by omega)) hmem
  · have hle := h.level_le
    have hused : i < s.level := Nat.lt_of_not_le fun hge =>
      h.toChained.header_not_mem (by omega) (hs.above i hge hi ▸ hmem)
    have hi' : i = s.level - 1 := by omega
    obtain ⟨m, hm, hmin⟩ := (fitsTop_iff h).mp hf (by omega) (by omega)
    have hstop := hs.pivots.stops rfl m (by rwa [show s.level - 1 = maxLevel - 1 by omega]) hmin
    rw [← hi'] at hstop
    omega

theorem head?_grownChains {s : DramSkiplist} (h : Chained s chains) {inodes u : ℕ → ℕ} {i : ℕ}
    (hi : i < maxLevel) (hu : i < newlevel → u i ∈ chains i) :
    (grownChains s chains inodes u newlevel i).head? = (chains i).head? := by
  by_cases hin : i < newlevel
  · obtain ⟨front, back, hsplit⟩ := List.append_of_mem (hu hin)
    rw [(h.grownChains_split hi hin hsplit).2.2, hsplit]
    cases front <;> rfl
  · rw [grownChains, if_neg hin]

theorem Rooted.split {s' : DramSkiplist} {ret : Bool} {w : ℕ} {count : ℤ} (h : Rooted t chains l) (hw : w ∈ l)
    (hkey : 0 < (t.vnode w).key) (hne : chains 0 ≠ [])
    (hopen : ∀ i < maxLevel, t.mainIndex.level ≤ i → ∀ f ∈ (chains i).head?,
      0 < (t.mainIndex.inode f).minKey)
    (hpos : 1 ≤ newlevel) (hlevel : newlevel ≤ maxLevel) (hf : FitsTop t.mainIndex (t.vnode w).key newlevel)
    (hrun : t.mainIndex.insertWhenRebalance (t.vnode w).key w newlevel count = some (ret, s')) :
    ret = true ∧ ∃ chains', Rooted { t with mainIndex := s' } chains' l ∧
      (∀ key, Finer t.mainIndex s' chains chains' key) ∧
      ∀ n ∈ chains' 0, (s'.inode n).down = w ∨ ∃ m ∈ chains 0,
      (s'.inode n).down = (t.mainIndex.inode m).down := by
  have hroom := insertWhenRebalance_room (by rw [hrun]; simp)
  obtain ⟨s₁, inodes, u, hrun', hs⟩ := insertWhenRebalance_spec h.levels w count hkey hpos hlevel hroom
  cases hrun.symm.trans hrun'
  have h₁ := h.levels.level_pos
  have h₂ := h.levels.level_le
  -- below the level in use, a tower goes behind inodes
  have hused : ∀ i < t.mainIndex.level, chains i ≠ [] → u i ∈ chains i := fun i hi =>
    (hs.pivots.onLevel i (by omega)).2
  have hmax := hf.max_ne_zero h.levels h.later_pos h.tails hkey hlevel hs
  have hmin : ∀ i < maxLevel, ∀ n ∈ chains i,
    (s'.inode n).minKey = (t.mainIndex.inode n).minKey := fun i hi n hn =>
    hs.grown.min_same h.levels.toChained hlevel hs.onLevel hi (mem_levelIds_of_mem hn)
  have hpinned := h.toPinned.grow hw hs.grown hpos hlevel hroom hs.onLevel (fun i hi hm => ⟨hmax i hi hm, hkey⟩)
    (fun i hi hhead f hf => by
      by_cases hlt : i < t.mainIndex.level
      · have hm := hused i hlt (List.ne_nil_of_mem (List.mem_of_mem_head? hf))
        exact absurd (hhead ▸ hm) (h.levels.toChained.header_not_mem (by omega))
      · exact hopen i (by omega) (Nat.not_lt.mp hlt) f hf)
    (by rw [hs.level]; omega) (by rw [hs.level]; omega) hs.down
  refine ⟨rfl, _, ⟨hpinned, fun v hv => ?_⟩, fun key => ⟨hs.grown.header, by rw [hs.level]; omega,
    fun i hi f hf _ => ?_, fun i hi n hn => ⟨(mem_grownChains hs.onLevel).mpr (.inr hn), hmin i hi n hn⟩,
    fun i hi n hn => ?_⟩, fun n hn => ?_⟩
  · obtain ⟨f, hf, hle⟩ := h.least v hv
    rw [head?_grownChains h.levels.toChained (by decide) fun _ => hused 0 h₁ hne]
    refine ⟨f, hf, ?_⟩
    show (s'.inode f).minKey ≤ (t.vnode v).key
    rwa [hmin 0 (by decide) f (List.mem_of_mem_head? hf)]
  · rwa [head?_grownChains h.levels.toChained (by omega) fun _ =>
      hused i hi (List.ne_nil_of_mem (List.mem_of_mem_head? hf))]
  · rcases (mem_grownChains hs.onLevel).mp hn with ⟨hin, rfl⟩ | hn
    · exact .inr fun _ => (hs.grown.new_min i hin).symm ▸ hkey
    · exact .inl hn
  · rcases (mem_grownChains hs.onLevel).mp hn with ⟨-, rfl⟩ | hn
    · exact .inl hs.down
    · exact .inr
        ⟨n, hn, hs.grown.down_same h.levels.toChained hlevel hs.onLevel (by decide) (mem_levelIds_of_mem hn)⟩

theorem Finer.congr {s s₂ s' : DramSkiplist} {chains' : ℕ → List ℕ} (h : Finer s₂ s' chains chains' key)
    (hheader : s₂.header = s.header) (hlevel : s₂.level = s.level)
    (hmin : ∀ n, (s₂.inode n).minKey = (s.inode n).minKey) : Finer s s' chains chains' key := by
  refine ⟨h.header.trans hheader, hlevel ▸ h.level, fun i hi f hf hle => ?_, fun i hi n hn => ?_, h.new⟩
  · exact h.first i (hlevel ▸ hi) f hf (hmin f ▸ hle)
  · exact ⟨(h.old i hi n hn).1, (h.old i hi n hn).2.trans (hmin n)⟩

theorem Finer.refl (s : DramSkiplist) (chains : ℕ → List ℕ) (key : ℕ) : Finer s s chains chains key :=
  ⟨rfl, Nat.le_refl _, fun _ _ _ hf _ => hf, fun _ _ _ hn => ⟨hn, rfl⟩, fun _ _ _ hn => .inl hn⟩

theorem advance_beyond {d v w n : ℕ} {b : List ℕ} (hchain : Chain t.vnext d (v :: b) (-1))
    (hrun : t.advance (n + 2) d = some w) : w ∈ b := by
  obtain ⟨x, hx, hrun⟩ := Option.bind_eq_some_iff.mp hrun
  obtain ⟨b₁, hb₁, hrest⟩ := chain_step hchain hx
  obtain ⟨rfl, rfl⟩ := List.cons.inj hb₁
  obtain ⟨y, hy, hrun⟩ := Option.bind_eq_some_iff.mp hrun
  obtain ⟨b₂, rfl, htail⟩ := chain_step hrest hy
  exact advance_mem htail hrun

theorem two_le_half {s : DramSkiplist} {n : ℕ} (hfull : searchStabilityCoefficient < (s.inode n).coveredNodes) :
    ∃ k, half s n = k + 2 := by
  unfold searchStabilityCoefficient at hfull
  refine ⟨half s n - 2, ?_⟩
  unfold half
  rw [Int.tdiv_eq_ediv_of_nonneg (by omega)]
  omega

theorem entered_place {l' a b b₁ b₂ : List ℕ} {d : ℕ} (hsorted : l.Pairwise t.KeyLe)
    (hsplit : l = a ++ d :: b) (hd : (t.vnode d).key ≤ key) (hback : b = b₁ ++ b₂)
    (hb₁ : ∀ x ∈ b₁, (t.vnode x).key < key)
    (hcut : t.head :: l' = (t.head :: a) ++ d :: b₁ ++ t.vCurrentIdx :: b₂) :
    l = (a ++ d :: b₁) ++ b₂ ∧ l' = (a ++ d :: b₁) ++ t.vCurrentIdx :: b₂ ∧
      ((∀ x ∈ a ++ d :: b₁, (t.vnode x).key < key) ∨ b₁ = [] ∧ (t.vnode d).key = key) := by
  refine ⟨by simp [hsplit, hback], by simpa using hcut, ?_⟩
  rw [hsplit] at hsorted
  obtain ⟨-, hdb, hcross⟩ := List.pairwise_append.mp hsorted
  rcases Nat.lt_or_eq_of_le hd with hlt | heq
  · refine .inl fun x hx => ?_
    rcases List.mem_append.mp hx with hx | hx
    · exact Nat.lt_of_le_of_lt (hcross x hx d (by simp)) hlt
    · rcases List.mem_cons.mp hx with rfl | hx
      · exact hlt
      · exact hb₁ x hx
  · refine .inr ⟨List.eq_nil_iff_forall_not_mem.mpr fun x hx => ?_, heq⟩
    have hle : (t.vnode d).key ≤ (t.vnode x).key := (List.pairwise_cons.mp hdb).1 x (by simp [hback, hx])
    have hlt := hb₁ x hx
    omega

theorem Rooted.splitNode_behind {n d w : ℕ} {a b : List ℕ} (h : Rooted t chains l)
    (hdown : (t.mainIndex.inode n).down = (d : ℤ)) (hsplit : l = a ++ d :: b) (hw : t.splitNode n = some w) :
    Chain t.vnext d b (-1) ∧ t.advance (half t.mainIndex n) d = some w ∧ w ∈ d :: b ∧
      (t.vnode d).key ≤ (t.vnode w).key := by
  have hchain : Chain t.vnext t.head l (-1) := h.values.chain
  have hsorted : l.Pairwise t.KeyLe := h.values.sorted
  rw [splitNode, hdown, nodeAt_of_lt (h.lt_vnodeNum (by simp [hsplit])), Option.bind_eq_bind, Option.bind_some] at hw
  rw [hsplit] at hchain hsorted
  have hrest := (chain_append.mp hchain).2
  have hmem := advance_mem hrest hw
  refine ⟨hrest, hw, hmem, ?_⟩
  rcases List.mem_cons.mp hmem with rfl | hb
  · exact Nat.le_refl _
  · exact (List.pairwise_cons.mp (List.pairwise_append.mp hsorted).2.1).1 w hb

/-- The new vnode joins the range of the inode that the index finds, and may split it. -/
theorem Rooted.insert_cover {ret : Bool} {n d : ℕ} {a b : List ℕ} (h : Rooted t chains l)
    (hroom : t.vCurrentIdx < vnodeNum) (hpos : 1 ≤ newlevel) (hlevel : newlevel ≤ maxLevel)
    (hlook : t.mainIndex.lookup key = some (some n)) (hn : n ∈ chains 0)
    (hdown : (t.mainIndex.inode n).down = (d : ℤ)) (hsplit : l = a ++ d :: b) (hdpos : 0 < (t.vnode d).key)
    (hd : (t.vnode d).key ≤ key)
    (hopen : ∀ i < maxLevel, t.mainIndex.level ≤ i → ∀ f ∈ (chains i).head?,
      0 < (t.mainIndex.inode f).minKey)
    (hfits : ∀ k ∈ t.splitKey key value, FitsTop t.mainIndex k newlevel)
    (hrun : t.insert key value newlevel = some (ret, t')) :
    ret = true ∧ ∃ chains' l', Rooted t' chains' l' ∧ Added t t' chains chains' l l' key value := by
  have hdl : d ∈ l := by simp [hsplit]
  have hnode : nodeAt vnodeNum (t.mainIndex.inode n).down = some d := by rw [hdown, nodeAt_of_lt (h.lt_vnodeNum hdl)]
  obtain ⟨t₂, l', b₁, b₂, hins, hback, hb₁, -, he⟩ :=
    h.values.valueInsert hroom (show t.head :: l = (t.head :: a) ++ d :: b by rw [hsplit]; rfl) hd value
  have hfirst : ∃ f ∈ (chains 0).head?, (t.mainIndex.inode f).minKey ≤ key := by
    obtain ⟨f, hf, hle⟩ := h.least d hdl
    exact ⟨f, hf, hle.trans hd⟩
  have h₂ := (h.enter he hfirst).counted hn
  have hnew : t.vCurrentIdx ∉ l := fun hm => Nat.lt_irrefl _ (h.values.lt _ (List.mem_cons_of_mem _ hm))
  have hold : ∀ m ∈ chains 0, (t.mainIndex.inode m).down ≠ t.vCurrentIdx := by
    intro m hm heq
    obtain ⟨x, hx, hdn, -⟩ := h.anchor m hm
    exact hnew (Int.ofNat.inj (hdn.symm.trans heq) ▸ hx)
  obtain ⟨hl, hl', hplace⟩ := entered_place h.values.sorted hsplit hd hback hb₁ he.cut'
  have hsame : ∀ m, ((t₂.counted n).mainIndex.inode m).minKey = (t.mainIndex.inode m).minKey ∧
      ((t₂.counted n).mainIndex.inode m).down = (t.mainIndex.inode m).down := fun m => by
    rw [← he.mainIndex]
    have hm := modify_covered t₂.mainIndex n m fun x => x.coveredNodes + 1
    exact ⟨hm.2.1, hm.2.2.2⟩
  have hheader : (t₂.counted n).mainIndex.header = t.mainIndex.header := by rw [← he.mainIndex]; rfl
  have hlevels : (t₂.counted n).mainIndex.level = t.mainIndex.level := by rw [← he.mainIndex]; rfl
  -- the added node, for an index that does not point to it
  have hadded : ∀ t₃ : TandemIndex, ∀ chains', t₃.vnode = t₂.vnode → t₃.head = t₂.head →
      Finer (t₂.counted n).mainIndex t₃.mainIndex chains chains' key →
      (b₁ = [] → ∀ m ∈ chains' 0, (t₃.mainIndex.inode m).down ≠ t.vCurrentIdx) →
      Added t t₃ chains chains' l l' key value := by
    intro t₃ chains' hv hh hf hne
    have hpair : t₃.pair = t₂.pair := funext fun x => by rw [pair, pair, hv]
    refine ⟨hf.congr hheader hlevels fun m => (hsame m).1, hh.trans he.head, hpair ▸ he.new_pair,
      fun v hv => hpair ▸ he.old_pair v (List.mem_cons_of_mem _ hv), a ++ d :: b₁, b₂, hl, hl',
      hplace.imp_right ?_⟩
    rintro ⟨rfl, heq⟩
    exact ⟨⟨a, d, rfl, heq⟩, hne rfl⟩
  have hplaced : (t.withVnode key value).place key t.vCurrentIdx = some (some n, t₂) := by
    simp only [place, withVnode_mainIndex, hlook, hnode, Option.bind_eq_bind, Option.bind_some]
    rw [hins]
    rfl
  rw [insert_of_place_some hroom hplaced] at hrun
  obtain ⟨-, rfl, rfl⟩ | ⟨hfull, w, s', hw, hreb, rfl⟩ := cover_cases hrun
  · exact ⟨rfl, chains, l', h₂, hadded _ _ rfl rfl (.refl _ _ _) fun _ m hm => (hsame m).2 ▸ hold m hm⟩
  · have hcut : l' = a ++ d :: (b₁ ++ t.vCurrentIdx :: b₂) := by rw [hl', List.append_assoc, List.cons_append]
    obtain ⟨hchain, hadv, hwd, hle⟩ := h₂.splitNode_behind ((hsame n).2.trans hdown) hcut hw
    have hwl : w ∈ l' := hcut ▸ List.mem_append_right _ hwd
    have hwpos : 0 < (t₂.vnode w).key := by
      have hkd : (t₂.vnode d).key = (t.vnode d).key :=
        congrArg Prod.fst (he.old_pair d (List.mem_cons_of_mem _ hdl))
      have hle' : (t₂.vnode d).key ≤ (t₂.vnode w).key := hle
      omega
    have hk : t.splitKey key value = some (t₂.vnode w).key := by
      rw [splitKey_eq hroom hplaced, if_pos hfull, hw, Option.map_some]
    have hf : FitsTop (t₂.counted n).mainIndex (t₂.vnode w).key newlevel := by
      have hlev : Levels t₂.mainIndex chains := he.mainIndex ▸ h.levels
      refine FitsTop.increase hlev hn ?_
      rw [he.mainIndex]
      exact hfits _ hk
    have hopen' : ∀ i < maxLevel, (t₂.counted n).mainIndex.level ≤ i → ∀ f ∈ (chains i).head?,
        0 < ((t₂.counted n).mainIndex.inode f).minKey := fun i hi hle f hf => by
      rw [(hsame f).1]
      exact hopen i hi (hlevels ▸ hle) f hf
    obtain ⟨rfl, chains', h', hfiner, hanchors⟩ :=
      h₂.split hwl hwpos (List.ne_nil_of_mem hn) hopen' hpos hlevel hf hreb
    refine ⟨rfl, chains', l', h', hadded _ _ rfl rfl (hfiner key) fun hnil m hm => ?_⟩
    rcases hanchors m hm with hself | ⟨k, hk, heq⟩
    · -- the split node lies two nodes or more behind `d`
      obtain ⟨j, hj⟩ := two_le_half hfull
      rw [hnil, List.nil_append] at hchain
      rw [hj] at hadv
      have hb₂ := advance_beyond hchain hadv
      intro heq
      obtain rfl : w = t.vCurrentIdx := Int.ofNat.inj (hself.symm.trans heq)
      exact hnew (by rw [hl]; exact List.mem_append_right _ hb₂)
    · intro hv
      exact hold k hk (((hsame k).2.symm.trans heq.symm).trans hv)

theorem Anchored.insert {ret : Bool} (h : Anchored t chains l) (hkey : 0 < key) (hpos : 1 ≤ newlevel)
    (hlevel : newlevel ≤ maxLevel) (hfits : ∀ k ∈ t.splitKey key value, FitsTop t.mainIndex k newlevel)
    (hrun : t.insert key value newlevel = some (ret, t')) :
    (¬ t.vCurrentIdx < vnodeNum ∧ ret = false ∧ t' = t) ∨
      (ret = true ∧ ∃ chains' l', Anchored t' chains' l' ∧ Added t t' chains chains' l l' key value) := by
  by_cases hroom : t.vCurrentIdx < vnodeNum
  · right
    have hdone : ∀ chains' l', Rooted t' chains' l' → Added t t' chains chains' l l' key value →
        Anchored t' chains' l' := by
      intro chains' l' h' hadd
      refine ⟨h', fun v hv => ?_⟩
      rcases List.mem_cons.mp (hadd.perm.mem_iff.mp hv) with rfl | hv
      · rwa [hadd.new_key]
      · rw [hadd.old_key hv]
        exact h.key_pos v hv
    rcases h.lookup_cases hkey with ⟨hlook, hlow⟩ | ⟨n, d, a, b, hlook, hn, hdown, hsplit, hle⟩
    · have hinodes : t.mainIndex.currentIdx + newlevel ≤ inodeNum := by
        by_contra hfull
        cases (insert_eq_none hroom (.inl hlook) (Nat.not_le.mp hfull)).symm.trans hrun
      obtain ⟨t₁, inodes, hrun', h', hadd, -⟩ :=
        h.toRooted.insert_head hroom hpos hlevel hinodes hlook hlow value
      cases hrun.symm.trans hrun'
      exact ⟨rfl, _, _, hdone _ _ h' hadd, hadd⟩
    · have hopen : ∀ i < maxLevel, t.mainIndex.level ≤ i → ∀ f ∈ (chains i).head?,
        0 < (t.mainIndex.inode f).minKey :=
        fun i hi _ f hf => by
          obtain ⟨x, hx, hmin⟩ := h.min_mem hi (List.mem_of_mem_head? hf)
          exact hmin ▸ h.key_pos x hx
      obtain ⟨rfl, chains', l', h', hadd⟩ := h.toRooted.insert_cover hroom hpos hlevel hlook hn hdown hsplit
        (h.key_pos d (by simp [hsplit])) hle hopen hfits hrun
      exact ⟨rfl, chains', l', hdone _ _ h' hadd, hadd⟩
  · cases hrun.symm.trans (insert_no_vnode hroom)
    exact .inl ⟨hroom, rfl, rfl⟩

end TandemIndex

end Hkv.Tandem
