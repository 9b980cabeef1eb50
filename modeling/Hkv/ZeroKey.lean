import Hkv.TandemRepeats

/-!
# Key 0

The index tells a header from an inode by the key 0, so the tower of an inserted key 0
passes for a header. It stands first on the levels below its height: a search that ends
there finds nothing, and an inode that is linked before it gets the `max_key` 0 of a header.
-/
namespace Hkv.Tandem
open LinkedChain DramSkiplist

namespace TandemIndex
open Shape

variable {t t' : TandemIndex} {chains : ℕ → List ℕ} {l : List ℕ} {key value newlevel z h : ℕ}

/-- Key 0 is the first node `z` of the chain, and its tower stands first on the levels below
`h`. -/
structure Zeroed (t : TandemIndex) (chains : ℕ → List ℕ) (z : ℕ) (l : List ℕ) (h : ℕ) : Prop where
  rooted : Rooted t chains (z :: l)
  zero_key : (t.vnode z).key = 0
  key_pos : ∀ v ∈ l, 0 < (t.vnode v).key
  tower : ∀ i < h, ∃ f ∈ (chains i).head?, (t.mainIndex.inode f).minKey = 0
  above : ∀ i < maxLevel, h ≤ i → ∀ n ∈ chains i, 0 < (t.mainIndex.inode n).minKey

/-- On a level in use that key 0 does not reach, the first inode begins at `key`. -/
def Guards (s : DramSkiplist) (h key : ℕ) : Prop :=
  ∃ g, h ≤ g ∧ g < s.level ∧ ∃ l ∈ s.levelNodes g, ∃ f ∈ l.head?, (s.inode f).minKey = key

theorem guards_iff {s : DramSkiplist} (hs : Levels s chains) :
    Guards s h key ↔ ∃ g, h ≤ g ∧ g < s.level ∧ ∃ f ∈ (chains g).head?, (s.inode f).minKey = key := by
  have hnodes : ∀ g < s.level, s.levelNodes g = some (chains g) := fun g hg =>
    hs.toChained.levelNodes_eq (Nat.lt_of_lt_of_le hg hs.level_le)
  constructor
  · rintro ⟨g, hle, hlt, l, hl, hf⟩
    rw [hnodes g hlt] at hl
    exact ⟨g, hle, hlt, Option.some.inj hl ▸ hf⟩
  · rintro ⟨g, hle, hlt, hf⟩
    exact ⟨g, hle, hlt, _, hnodes g hlt, hf⟩

/-! ## Searches -/

/-- The search at node `n` of level `i` does not end at key 0: it has reached an inode of
another key, or it stands at a header and a level below `b` that key 0 does not reach
begins before `key`. -/
def Escapes (s : DramSkiplist) (chains : ℕ → List ℕ) (h key b i n : ℕ) : Prop :=
  (n ∈ chains i ∧ 0 < (s.inode n).minKey ∧ (s.inode n).minKey ≤ key) ∨
    (n = s.header i ∧ ∃ g, h ≤ g ∧ g < b ∧ ∃ f ∈ (chains g).head?, (s.inode f).minKey ≤ key)

theorem Zeroed.walk_escapes (hz : Zeroed t chains z l h) {i cur : ℕ} (hi : i < maxLevel) (hkey : 0 < key)
    (hcur : Escapes t.mainIndex chains h key (i + 1) i cur) :
    ∃ p n, walk t.mainIndex key i inodeNum none cur = some (p, n) ∧
      Escapes t.mainIndex chains h key i i (stepBack t.mainIndex key p n) := by
  have hs := hz.rooted.levels
  rcases hcur with ⟨hcur, hpos, hle⟩ | ⟨rfl, g, hg, hgi, f, hf, hle⟩
  · have hlen := hs.toChained.length_lt hi
    obtain ⟨p, n, hwalk, hn, hmove, -⟩ :=
      hs.toChained.walk_inode key hi (hs.abut _ hi) hcur none inodeNum (by omega)
    have hrange : 0 < (t.mainIndex.inode n).minKey ∧ (t.mainIndex.inode n).minKey ≤ key := by
      rcases hmove with ⟨-, rfl⟩ | ⟨hlt, hn⟩
      · exact ⟨hpos, hle⟩
      · exact ⟨hz.rooted.later_pos i hi n hn, Nat.le_of_lt hlt⟩
    refine ⟨p, n, hwalk, .inl ?_⟩
    rw [stepBack, if_neg (Nat.not_lt.mpr hrange.2)]
    exact ⟨hn, hrange⟩
  · obtain ⟨p, n, hwalk, -, hfound, -⟩ := hs.toChained.search_level hi (hs.abut _ hi) hkey (Or.inl rfl)
    have hhead : (t.mainIndex.inode (t.mainIndex.header i)).minKey ≤ key := by
      rw [hs.header_min i hi]
      exact Nat.zero_le _
    refine ⟨p, n, hwalk, ?_⟩
    rcases hfound hhead with ⟨hback, hfirst⟩ | hcov
    · -- this level begins beyond the key, so it is not the one that helps
      have hne : g ≠ i := by
        rintro rfl
        exact Nat.not_lt.mpr hle (hfirst f hf)
      exact .inr ⟨hback, g, hg, by omega, f, hf, hle⟩
    · have hmem := hcov.mem
      obtain ⟨-, -, -, hmin, -⟩ := hcov
      exact .inl ⟨hmem, hz.above i hi (by omega) _ hmem, hmin⟩

theorem Zeroed.descend_escapes (hz : Zeroed t chains z l h) {i cur : ℕ} (hi : i < maxLevel) (hkey : 0 < key)
    (hcur : Escapes t.mainIndex chains h key (i + 1) i cur) :
    ∃ n ∈ chains 0, descend t.mainIndex key i cur = some n ∧ 0 < (t.mainIndex.inode n).minKey ∧
      (t.mainIndex.inode n).minKey ≤ key := by
  have hs := hz.rooted.levels
  have hdown : ∀ j < i, ∀ n, Escapes t.mainIndex chains h key (j + 1) (j + 1) n →
      ∃ m, nodeAt inodeNum (t.mainIndex.inode n).down = some m ∧
      Escapes t.mainIndex chains h key (j + 1) j m := by
    rintro j hj n (⟨hn, hpos, hle⟩ | ⟨rfl, hguard⟩)
    · obtain ⟨m, hm, hdown, hmin⟩ := hs.down j (by omega) n hn
      rw [← hmin] at hpos hle
      refine ⟨m, ?_, .inl ⟨hm, hpos, hle⟩⟩
      rw [hdown, nodeAt_of_lt (hs.toChained.lt_inodeNum (by omega) (mem_levelIds_of_mem hm))]
    · refine ⟨t.mainIndex.header j, ?_, .inr ⟨rfl, hguard⟩⟩
      rw [hs.header_down j (by omega), nodeAt_of_lt (hs.toChained.lt_inodeNum (by omega) List.mem_cons_self)]
  obtain ⟨n, hrun, ⟨hn, hrange⟩ | ⟨-, g, -, hlt, -⟩⟩ :=
    descend_rule (I := fun j n => Escapes t.mainIndex chains h key (j + 1) j n)
      (R := fun j n => Escapes t.mainIndex chains h key j j n)
      (fun j hj n hn => hz.walk_escapes (by omega) hkey hn) hdown hcur
  · exact ⟨n, hn, hrun, hrange⟩
  · exact absurd hlt (Nat.not_lt_zero g)

theorem Zeroed.lookup_guarded (hz : Zeroed t chains z l h) {k₀ : ℕ} (hguard : Guards t.mainIndex h k₀)
    (hkey : 0 < key) (hle : k₀ ≤ key) :
    ∃ n ∈ chains 0, t.mainIndex.lookup key = some (some n) ∧ 0 < (t.mainIndex.inode n).minKey ∧
      (t.mainIndex.inode n).minKey ≤ key := by
  have hs := hz.rooted.levels
  obtain ⟨g, hg, hlt, f, hf, rfl⟩ := (guards_iff hs).mp hguard
  have hlevel := hs.level_le
  have hstart : Escapes t.mainIndex chains h key (t.mainIndex.level - 1 + 1) (t.mainIndex.level - 1)
      (t.mainIndex.header (t.mainIndex.level - 1)) := .inr ⟨rfl, g, hg, by omega, f, hf, hle⟩
  obtain ⟨n, hn, hrun, hpos, hmin⟩ := hz.descend_escapes (by omega) hkey hstart
  refine ⟨n, hn, ?_, hpos, hmin⟩
  simp [DramSkiplist.lookup, hrun, Nat.ne_of_gt hpos]

theorem Zeroed.lookup_unguarded (hz : Zeroed t chains z l h) (hkey : 0 < key)
    (hleast : ∀ v ∈ l, key ≤ (t.vnode v).key) (hguard : ¬ Guards t.mainIndex h key) :
    t.lookup key = some notFound := by
  have hs := hz.rooted.levels
  have hpos := hs.level_pos
  have hlevel := hs.level_le
  -- a range that does not begin at key 0 begins at a key of the chain
  have hmin : ∀ i < maxLevel, ∀ n ∈ chains i, 0 < (t.mainIndex.inode n).minKey →
      key ≤ (t.mainIndex.inode n).minKey := by
    intro i hi n hn hn0
    obtain ⟨d, hd, hdkey⟩ := hz.rooted.min_mem hi hn
    rcases List.mem_cons.mp hd with rfl | hd
    · rw [hz.zero_key] at hdkey
      omega
    · exact hdkey ▸ hleast d hd
  have hfirst : ∀ j ≤ t.mainIndex.level - 1, ∀ f ∈ (chains j).head?,
      (t.mainIndex.inode f).minKey = 0 ∨ key < (t.mainIndex.inode f).minKey := by
    intro j hj f hf
    rcases Nat.eq_zero_or_pos (t.mainIndex.inode f).minKey with hf0 | hf0
    · exact .inl hf0
    · refine .inr (Nat.lt_of_le_of_ne (hmin j (by omega) f (List.mem_of_mem_head? hf) hf0) fun he => ?_)
      have hhj : h ≤ j := by
        by_contra hlt
        obtain ⟨f', hf', hzero⟩ := hz.tower j (Nat.not_le.mp hlt)
        obtain rfl : f = f' := Option.some.inj (hf.symm.trans hf')
        omega
      exact hguard ((guards_iff hs).mpr ⟨j, hhj, by omega, f, hf, he.symm⟩)
  obtain ⟨n, hrun, hzero⟩ := hs.descend_trap (by omega) hkey hfirst
    (fun j hj n hn => hmin j (by omega) n (List.mem_of_mem_tail hn) (hz.rooted.later_pos j (by omega) n hn))
    (.inl rfl)
  have hnone : t.mainIndex.lookup key = some none := by simp [DramSkiplist.lookup, hrun, hzero]
  simp [lookup, hnone]

/-! ## Inserts -/

/-- Key 0 goes before every other key, and its tower stands first on its levels. -/
theorem Anchored.insert_zero (ha : Anchored t chains l) (hroom : t.vCurrentIdx < vnodeNum) (hpos : 1 ≤ h)
    (hle : h ≤ maxLevel) (hinodes : t.mainIndex.currentIdx + h ≤ inodeNum) (value : ℕ) :
    ∃ t' chains', t.insert 0 value h = some (true, t') ∧ Zeroed t' chains' t.vCurrentIdx l h ∧
      (∀ v ∈ l, t'.pair v = t.pair v) ∧ ∀ key, Guards t'.mainIndex h key ↔ Guards t.mainIndex h key := by
  obtain ⟨t', inodes, hrun, hrooted, hadd, hg, hlevel, -⟩ :=
    ha.insert_head hroom hpos hle hinodes (lookup_zero ha.levels) ha.key_pos value
  have hbelow : ∀ i < h, grownChains t.mainIndex chains inodes t.mainIndex.header h i = inodes i :: chains i :=
    fun i hi => by rw [grownChains, if_pos hi, insertBehind_header]
  have habove : ∀ i, h ≤ i → grownChains t.mainIndex chains inodes t.mainIndex.header h i = chains i :=
    fun i hi => by rw [grownChains, if_neg (Nat.not_lt.mpr hi)]
  have hmin : ∀ i < maxLevel, ∀ n ∈ chains i, (t'.mainIndex.inode n).minKey = (t.mainIndex.inode n).minKey :=
    fun i hi n hn => (hadd.finer.old i hi n hn).2
  refine ⟨t', _, hrun, ⟨hrooted, hadd.new_key, fun v hv => ?_, fun i hi => ?_, fun i hi hhi n hn => ?_⟩,
    hadd.old_pair, fun key => ?_⟩
  · rw [hadd.old_key hv]
    exact ha.key_pos v hv
  · exact ⟨inodes i, by rw [hbelow i hi]; rfl, hg.new_min i hi⟩
  · rw [habove i hhi] at hn
    obtain ⟨d, hd, hdkey⟩ := ha.min_mem hi hn
    rw [hmin i hi n hn, ← hdkey]
    exact ha.key_pos d hd
  · rw [guards_iff hrooted.levels, guards_iff ha.levels, hlevel]
    refine exists_congr fun g => and_congr_right fun hhg => and_congr_right fun hlt => ?_
    rw [habove g hhg]
    refine exists_congr fun f => and_congr_right fun hf => ?_
    rw [hmin g (Nat.lt_of_lt_of_le hlt ha.levels.level_le) f (List.mem_of_mem_head? hf)]

theorem Finer.guards {s s' : DramSkiplist} {chains' : ℕ → List ℕ} {k₀ : ℕ}
    (hf : Finer s s' chains chains' key) (hs : Levels s chains) (hs' : Levels s' chains') (hle : k₀ ≤ key)
    (hguard : Guards s h k₀) :
    Guards s' h k₀ := by
  obtain ⟨g, hhg, hlt, f, hfirst, rfl⟩ := (guards_iff hs).mp hguard
  have hmax := hs.level_le
  exact (guards_iff hs').mpr ⟨g, hhg, Nat.lt_of_lt_of_le hlt hf.level, f, hf.first g hlt f hfirst hle,
    (hf.old g (by omega) f (List.mem_of_mem_head? hfirst)).2⟩

theorem Added.cons {chains' : ℕ → List ℕ} {l' : List ℕ}
    (hadd : Added t t' chains chains' (z :: l) l' key value) (hsorted : l'.Pairwise t'.KeyLe)
    (hlt : (t.vnode z).key < key) :
    ∃ l₁, l' = z :: l₁ ∧ (l₁.map t'.pair).Perm ((key, value) :: l.map t.pair) := by
  have hperm := hadd.pairs_perm
  have hkey := hadd.new_key
  have hz := hadd.old_key (List.mem_cons_self (a := z))
  have hpair := hadd.old_pair z List.mem_cons_self
  obtain ⟨a, b, hl, rfl, -⟩ := hadd.place
  cases a with
  | nil =>
    obtain rfl : z :: l = b := hl
    have hle : (t'.vnode t.vCurrentIdx).key ≤ (t'.vnode z).key :=
      (List.pairwise_cons.mp hsorted).1 z List.mem_cons_self
    omega
  | cons x a =>
    obtain ⟨rfl, -⟩ := List.cons.inj hl
    refine ⟨_, rfl, (List.perm_cons (t.pair z)).mp ?_⟩
    rw [List.cons_append, List.map_cons, List.map_cons, hpair] at hperm
    exact hperm.trans (List.Perm.swap _ _ _)

theorem Zeroed.insert {ret : Bool} {k₀ : ℕ} (hz : Zeroed t chains z l h) (hguard : Guards t.mainIndex h k₀)
    (hkey : 0 < key) (hlow : k₀ ≤ key) (hroom : t.vCurrentIdx < vnodeNum) (hpos : 1 ≤ newlevel)
    (hlevel : newlevel ≤ maxLevel) (hfits : ∀ k ∈ t.splitKey key value, FitsTop t.mainIndex k newlevel)
    (hrun : t.insert key value newlevel = some (ret, t')) :
    ∃ chains' l', Zeroed t' chains' z l' h ∧ Guards t'.mainIndex h k₀ ∧
      (l'.map t'.pair).Perm ((key, value) :: l.map t.pair) := by
  have hs := hz.rooted.levels
  obtain ⟨g, hhg, hgl, -⟩ := (guards_iff hs).mp hguard
  obtain ⟨n, hn, hlook, hnpos, hnle⟩ := hz.lookup_guarded hguard hkey hlow
  obtain ⟨d, hd, hdown, hdkey⟩ := hz.rooted.anchor n hn
  obtain ⟨a, b, hsplit⟩ := List.append_of_mem hd
  obtain ⟨-, chains', l', hrooted, hadd⟩ := hz.rooted.insert_cover hroom hpos hlevel hlook hn hdown hsplit
    (hdkey ▸ hnpos) (hdkey ▸ hnle) (fun i hi hle f hf => hz.above i hi (by omega) f (List.mem_of_mem_head? hf))
    hfits hrun
  obtain ⟨l₁, rfl, hperm⟩ := hadd.cons hrooted.values.sorted (by rw [hz.zero_key]; exact hkey)
  refine ⟨chains', l₁, ⟨hrooted, ?_, fun v hv => ?_, fun i hi => ?_, fun i hi hhi m hm => ?_⟩,
    hadd.finer.guards hs hrooted.levels hlow hguard, hperm⟩
  · rw [hadd.old_key List.mem_cons_self]
    exact hz.zero_key
  · have hv' : t'.pair v ∈ (key, value) :: l.map t.pair := hperm.mem_iff.mp (List.mem_map_of_mem hv)
    rcases List.mem_cons.mp hv' with heq | hmem
    · have hself : (t'.vnode v).key = key := congrArg Prod.fst heq
      rwa [hself]
    · obtain ⟨w, hw, heq⟩ := List.mem_map.mp hmem
      have hsame : (t.vnode w).key = (t'.vnode v).key := congrArg Prod.fst heq
      exact hsame ▸ hz.key_pos w hw
  · obtain ⟨f, hf, hzero⟩ := hz.tower i hi
    have hmax := hs.level_le
    refine ⟨f, hadd.finer.first i (by omega) f hf (by omega), ?_⟩
    exact (hadd.finer.old i (by omega) f (List.mem_of_mem_head? hf)).2.trans hzero
  · rcases hadd.finer.new i hi m hm with hold | hnew
    · rw [(hadd.finer.old i hi m hold).2]
      exact hz.above i hi hhi m hold
    · exact hnew hkey

theorem Zeroed.insertAll {k₀ : ℕ} {cs : List Call} {rets : List Bool} (hz : Zeroed t chains z l h)
    (hguard : Guards t.mainIndex h k₀) (hvalid : ∀ c ∈ cs, c.Valid) (hlow : ∀ c ∈ cs, k₀ ≤ c.key)
    (hroom : Along Call.HasRoom t cs) (hwithin : Along Call.SplitsWithinTop t cs)
    (hrun : insertAll t cs = some (rets, t')) :
    ∃ chains' l', Zeroed t' chains' z l' h ∧ Guards t'.mainIndex h k₀ ∧
      (l'.map t'.pair).Perm (l.map t.pair ++ cs.map fun c => (c.key, c.value)) := by
  induction cs generalizing t chains l rets with
  | nil =>
    cases hrun
    exact ⟨chains, l, hz, hguard, by simp⟩
  | cons c cs ih =>
    obtain ⟨⟨ret, t₁⟩, ⟨rets', t₂⟩, hc, hrest, hdone⟩ := insertAll_cons_eq_some.mp hrun
    cases hdone
    obtain ⟨hkey, hpos, hle⟩ := hvalid c List.mem_cons_self
    obtain ⟨chains₁, l₁, hz₁, hguard₁, hperm₁⟩ := hz.insert hguard (Nat.pos_of_ne_zero hkey)
      (hlow c List.mem_cons_self) hroom.1.1 hpos hle hwithin.1 hc
    obtain ⟨chains', l', hz', hguard', hperm⟩ :=
      ih hz₁ hguard₁ (fun d hd => hvalid d (List.mem_cons_of_mem _ hd))
      (fun d hd => hlow d (List.mem_cons_of_mem _ hd)) (hroom.2 _ hc) (hwithin.2 _ hc) hrest
    refine ⟨chains', l', hz', hguard', hperm.trans ?_⟩
    rw [List.map_cons]
    exact (hperm₁.append_right _).trans List.perm_middle.symm

/-- A key before all others gets an inode before that of key 0, and with it the `max_key` of
a header: the search for the key goes on to the inode of key 0. -/
theorem Zeroed.insert_lost (hz : Zeroed t chains z l h) (hh : 1 ≤ h) (hkey : 0 < key)
    (hlow : ∀ v ∈ l, key < (t.vnode v).key) (hroom : t.vCurrentIdx < vnodeNum) (hpos : 1 ≤ newlevel)
    (hlevel : newlevel ≤ maxLevel) (hinodes : t.mainIndex.currentIdx + newlevel ≤ inodeNum) (value : ℕ) :
    ∃ t', t.insert key value newlevel = some (true, t') ∧ t'.lookup key = some notFound := by
  have hs := hz.rooted.levels
  -- a range that does not begin beyond the key begins at key 0
  have hmin : ∀ n ∈ chains 0, (t.mainIndex.inode n).minKey ≤ key → (t.mainIndex.inode n).minKey = 0 := by
    intro n hn hle
    obtain ⟨d, hd, hdkey⟩ := hz.rooted.min_mem (by decide) hn
    rcases List.mem_cons.mp hd with rfl | hd
    · rw [← hdkey, hz.zero_key]
    · have hlt := hlow d hd
      omega
  have hlook : t.mainIndex.lookup key = some none := by
    rcases hz.rooted.lookup_cases hkey with ⟨hnone, -⟩ | ⟨n, d, -, -, hlook, hcov, -, -, hdkey, hle⟩
    · exact hnone
    · rwa [if_pos (hmin n hcov.mem (hdkey ▸ hle))] at hlook
  obtain ⟨t₂, s', inodes, -, -, -, hrun, -, -, he, hg, hsame, -⟩ :=
    hz.rooted.toPinned.insert_none hroom hpos hlevel hinodes hlook value
  have hu : ∀ i < newlevel, OnLevel t.mainIndex chains i (t.mainIndex.header i) := fun _ _ => Or.inl rfl
  have hs' := hs.grow hg hlevel hinodes hu (fun i hi hm => absurd hm (hs.toChained.header_not_mem (by omega)))
    (hsame ▸ hs.level_pos) (hsame ▸ hs.level_le)
  obtain ⟨f, hf, hfzero⟩ := hz.tower 0 hh
  obtain ⟨rest, hc⟩ := List.head?_eq_some_iff.mp hf
  have hchain : grownChains t.mainIndex chains inodes t.mainIndex.header newlevel 0 = inodes 0 :: f :: rest := by
    rw [grownChains_head hpos, hc]
  have hold : ∀ n ∈ chains 0, (s'.inode n).minKey = (t.mainIndex.inode n).minKey := fun n hn =>
    hg.min_same hs.toChained hlevel hu (by decide) (mem_levelIds_of_mem hn)
  have hmax : (s'.inode (inodes 0)).maxKey = 0 := by
    have habut := hs'.abut 0 (by decide)
    rw [hchain] at habut
    rw [habut.1, hold f (by simp [hc]), hfzero]
  obtain ⟨n, hlook', hfound⟩ := hs'.lookup_eq hkey
  have hzero : (s'.inode n).minKey = 0 := by
    rcases hfound with ⟨rfl, -⟩ | ⟨front, back, hsplit, hle, hstop⟩
    · exact hs'.header_min 0 (by decide)
    · rw [hchain] at hsplit
      cases front with
      | nil =>
        obtain ⟨rfl, rfl⟩ := List.cons.inj hsplit
        rcases hstop with hnil | hstop
        · cases hnil
        · omega
      | cons x front =>
        have hn : n ∈ chains 0 := by
          rw [hc, (List.cons.inj hsplit).2]
          simp
        rw [hold n hn] at hle ⊢
        exact hmin n hn hle
  rw [if_pos hzero] at hlook'
  refine ⟨_, hrun, ?_⟩
  simp [lookup, hlook']

/-! ## Two runs -/

theorem value_of_perm {cs : List Call} (hperm : (l.map t.pair).Perm (cs.map fun c => (c.key, c.value)))
    (hnd : (cs.map Call.key).Nodup) {c : Call} (hc : c ∈ cs) {w : ℕ} (hw : w ∈ l)
    (hkey : (t.vnode w).key = c.key) : (t.vnode w).value = c.value := by
  obtain ⟨d, hd, hpair⟩ := List.mem_map.mp (hperm.mem_iff.mp (List.mem_map_of_mem hw))
  obtain ⟨hdkey, hdvalue⟩ := Prod.mk.inj hpair
  obtain rfl : d = c := List.inj_on_of_nodup_map hnd hd hc (hdkey.trans hkey)
  exact hdvalue.symm

theorem Anchored.found {cs : List Call} (ha : Anchored t chains l)
    (hperm : (l.map t.pair).Perm (cs.map fun c => (c.key, c.value))) (hnd : (cs.map Call.key).Nodup) {c : Call}
    (hc : c ∈ cs) : t.lookup c.key = some c.value := by
  obtain ⟨v, hv, hpair⟩ := List.mem_map.mp (hperm.mem_iff.mpr (List.mem_map_of_mem hc))
  have hkey : (t.vnode v).key = c.key := congrArg Prod.fst hpair
  obtain ⟨-, -, d, a, b, w, -, hsplit, hfind, hw, hlook⟩ := ha.lookup_present hv
  have hwl : w ∈ l := by
    rw [hsplit]
    exact List.mem_append_right _ (List.mem_of_find?_eq_some hfind)
  rw [← hkey, hlook, value_of_perm hperm hnd hc hwl (hw.trans hkey)]

theorem Zeroed.found {cs : List Call} {k₀ : ℕ} (hz : Zeroed t chains z l h) (hguard : Guards t.mainIndex h k₀)
    (hleast : ∀ c ∈ cs, k₀ ≤ c.key) (hperm : (l.map t.pair).Perm (cs.map fun c => (c.key, c.value)))
    (hnd : (cs.map Call.key).Nodup) {c : Call} (hc : c ∈ cs) : t.lookup c.key = some c.value := by
  obtain ⟨v, hv, hpair⟩ := List.mem_map.mp (hperm.mem_iff.mpr (List.mem_map_of_mem hc))
  have hkey : (t.vnode v).key = c.key := congrArg Prod.fst hpair
  have hpos := hz.key_pos v hv
  obtain ⟨n, hn, hlook, -, hle⟩ := hz.lookup_guarded hguard hpos (hkey ▸ hleast c hc)
  obtain ⟨d, hd, hdown, hdkey⟩ := hz.rooted.anchor n hn
  obtain ⟨a, b, hsplit⟩ := List.append_of_mem hd
  obtain ⟨w, hfind, hw, hfound⟩ := hz.rooted.toPinned.lookup_copy hlook hdown hsplit (hdkey ▸ hle)
    (List.mem_cons_of_mem _ hv)
  have hwz : w ∈ z :: l := by
    rw [hsplit]
    exact List.mem_append_right _ (List.mem_of_find?_eq_some hfind)
  have hwl : w ∈ l := (List.mem_cons.mp hwz).resolve_left fun he => by
    rw [he, hz.zero_key] at hw
    omega
  rw [← hkey, hfound, value_of_perm hperm hnd hc hwl (hw.trans hkey)]

/-- Each key of the calls is found with its value in one index just if it is in the other. -/
def SameFound (t t' : TandemIndex) (cs : List Call) : Prop :=
  ∀ c ∈ cs, (t.lookup c.key = some c.value ↔ t'.lookup c.key = some c.value)

/-- Two runs from `t₀` for distinct keys, the second with a call for key 0 in between. Neither
exhausts a pool, splits stay within the top level, and both end. The value that stands for
"not found" is not inserted. -/
@[mk_iff]
structure TwinRuns (t₀ : TandemIndex) (cs₁ : List Call) (zero : Call) (cs₂ : List Call) : Prop where
  distinct : ((cs₁ ++ cs₂).map Call.key).Nodup
  valid : ∀ c ∈ cs₁ ++ cs₂, c.Valid
  value_ne : ∀ c ∈ cs₁ ++ cs₂, c.value ≠ notFound
  zero_key : zero.key = 0
  zero_level : 1 ≤ zero.newlevel ∧ zero.newlevel ≤ maxLevel
  room : Along Call.HasRoom t₀ (cs₁ ++ cs₂)
  zero_room : Along Call.HasRoom t₀ (cs₁ ++ zero :: cs₂)
  within : Along Call.SplitsWithinTop t₀ (cs₁ ++ cs₂)
  zero_within : Along Call.SplitsWithinTop t₀ (cs₁ ++ zero :: cs₂)
  ends : (insertAll t₀ (cs₁ ++ cs₂)).isSome
  zero_ends : (insertAll t₀ (cs₁ ++ zero :: cs₂)).isSome

section Twin
variable {t₀ : TandemIndex} {cs₁ cs₂ : List Call} {zero : Call}

theorem isSome_of_append {cs ds : List Call} (hends : (insertAll t (cs ++ ds)).isSome) : (insertAll t cs).isSome := by
  obtain ⟨r, hr⟩ := Option.isSome_iff_exists.mp hends
  obtain ⟨r₁, -, h₁, -⟩ := insertAll_append_eq_some.mp hr
  rw [h₁]
  rfl

theorem TwinRuns.front {ds : List Call} (hr : TwinRuns t₀ cs₁ zero cs₂) (hds : ds <+: cs₂) :
    TwinRuns t₀ cs₁ zero ds := by
  obtain ⟨es, rfl⟩ := hds
  obtain ⟨hnd, hvalid, hvalue, hkey, hlevel, hroom, hroom', hwithin, hwithin', hends, hends'⟩ := hr
  rw [← List.append_assoc] at hnd hvalid hvalue hroom hwithin hends
  rw [← List.cons_append, ← List.append_assoc] at hroom' hwithin' hends'
  refine ⟨?_, fun c hc => hvalid c (List.mem_append_left _ hc), fun c hc => hvalue c (List.mem_append_left _ hc),
    hkey, hlevel, (along_append.mp hroom).1, (along_append.mp hroom').1, (along_append.mp hwithin).1,
    (along_append.mp hwithin').1, isSome_of_append hends, isSome_of_append hends'⟩
  rw [List.map_append] at hnd
  exact (List.nodup_append.mp hnd).1

theorem TwinRuns.zeroed (hnew : TandemIndex.new = some t₀) (hr : TwinRuns t₀ cs₁ zero cs₂) :
    ∃ rets₁ t₁ t₂ chains z l, insertAll t₀ cs₁ = some (rets₁, t₁) ∧
    zero.insert t₁ = some (true, t₂) ∧
      Zeroed t₂ chains z l zero.newlevel ∧ (l.map t₂.pair).Perm (cs₁.map fun c => (c.key, c.value)) ∧
      ∀ key, Guards t₂.mainIndex zero.newlevel key ↔ Guards t₁.mainIndex zero.newlevel key := by
  obtain ⟨⟨rets₁, t₁⟩, hrun⟩ := Option.isSome_iff_exists.mp (isSome_of_append hr.ends)
  obtain ⟨chains₁, l, ha, hperm⟩ :=
    insertAll_anchored_of_room hnew (fun c hc => hr.valid c (List.mem_append_left _ hc))
    (along_append.mp hr.room).1 (along_append.mp hr.within).1 hrun
  obtain ⟨hvnode, hinodes⟩ := ((along_append.mp hr.zero_room).2 _ hrun).1
  obtain ⟨t₂, chains, hins, hz, hold, hguards⟩ :=
    ha.insert_zero hvnode hr.zero_level.1 hr.zero_level.2 hinodes zero.value
  refine ⟨rets₁, t₁, t₂, chains, _, l, hrun, ?_, hz, ?_, hguards⟩
  · rw [Call.insert, hr.zero_key]
    exact hins
  · rwa [List.map_congr_left hold]

theorem insertAll_zero {rets₁ : List Bool} {t₁ t₂ : TandemIndex} {r : List Bool × TandemIndex}
    (hrun : insertAll t₀ cs₁ = some (rets₁, t₁)) (hins : zero.insert t₁ = some (true, t₂))
    (hall : insertAll t₀ (cs₁ ++ zero :: cs₂) = some r) : ∃ rets,
    insertAll t₂ cs₂ = some (rets, r.2) := by
  obtain ⟨r₁, r₂, hfront, hrest, rfl⟩ := insertAll_append_eq_some.mp hall
  cases hrun.symm.trans hfront
  obtain ⟨r₃, r₄, hz, hlast, rfl⟩ := insertAll_cons_eq_some.mp hrest
  cases hins.symm.trans hz
  exact ⟨r₄.1, hlast⟩

/-- In every state behind the call for key 0, both runs find the same keys. -/
def Undisturbed (t₀ : TandemIndex) (cs₁ : List Call) (zero : Call) (cs₂ : List Call) : Prop :=
  ∀ ds, ds <+: cs₂ → ∀ r ∈ insertAll t₀ (cs₁ ++ ds), ∀ r' ∈ insertAll t₀ (cs₁ ++ zero :: ds),
    SameFound r.2 r'.2 (cs₁ ++ ds)

/-- The smallest key comes before key 0, and at that point it begins a level in use that key
0 does not reach. -/
def Shielded (t₀ : TandemIndex) (cs₁ : List Call) (zero : Call) (cs₂ : List Call) : Prop :=
  ∃ c₀ ∈ cs₁, (∀ c ∈ cs₁ ++ cs₂, c₀.key ≤ c.key) ∧
    ∀ r ∈ insertAll t₀ cs₁, Guards r.2.mainIndex zero.newlevel c₀.key

theorem Undisturbed.front {ds : List Call} (h : Undisturbed t₀ cs₁ zero cs₂) (hds : ds <+: cs₂) :
    Undisturbed t₀ cs₁ zero ds := fun _ hes => h _ (hes.trans hds)

theorem TwinRuns.found (hnew : TandemIndex.new = some t₀) (hr : TwinRuns t₀ cs₁ zero cs₂) :
    ∃ r, insertAll t₀ (cs₁ ++ cs₂) = some r ∧ ∀ c ∈ cs₁ ++ cs₂,
    r.2.lookup c.key = some c.value := by
  obtain ⟨r, hrun⟩ := Option.isSome_iff_exists.mp hr.ends
  obtain ⟨chains, l, ha, hperm⟩ := insertAll_anchored_of_room hnew hr.valid hr.room hr.within hrun
  exact ⟨r, hrun, fun c hc => ha.found hperm hr.distinct hc⟩

theorem TwinRuns.disturbed (hnew : TandemIndex.new = some t₀) (hr : TwinRuns t₀ cs₁ zero cs₂)
    {r : List Bool × TandemIndex} (hrun : insertAll t₀ (cs₁ ++ zero :: cs₂) = some r) {c : Call}
    (hc : c ∈ cs₁ ++ cs₂) (hlost : r.2.lookup c.key = some notFound) :
    ¬ Undisturbed t₀ cs₁ zero cs₂ := by
  intro hsame
  obtain ⟨r₁, hrun₁, hfound⟩ := hr.found hnew
  have hfound' := (hsame _ (List.prefix_refl _) r₁ hrun₁ r hrun c hc).mp (hfound c hc)
  exact hr.value_ne c hc (Option.some.inj (hfound'.symm.trans hlost))

theorem TwinRuns.disturbed_below {c : Call} {rets : List Bool} (hnew : TandemIndex.new = some t₀)
    (hr : TwinRuns t₀ cs₁ zero (cs₂ ++ [c])) (hrun : insertAll t₀ (cs₁ ++ zero :: cs₂) = some (rets, t))
    (hz : Zeroed t chains z l zero.newlevel) (hlow : ∀ v ∈ l, c.key < (t.vnode v).key) :
    ¬ Undisturbed t₀ cs₁ zero (cs₂ ++ [c]) := by
  have hassoc : cs₁ ++ zero :: (cs₂ ++ [c]) = (cs₁ ++ zero :: cs₂) ++ [c] := by simp
  have hroom := hr.zero_room
  rw [hassoc] at hroom
  obtain ⟨hvnode, hinodes⟩ := ((along_append.mp hroom).2 _ hrun).1
  obtain ⟨hkey, hpos, hle⟩ := hr.valid c (by simp)
  obtain ⟨t', hins, hlost⟩ :=
    hz.insert_lost hr.zero_level.1 (Nat.pos_of_ne_zero hkey) hlow hvnode hpos hle hinodes c.value
  refine hr.disturbed hnew (r := (rets ++ [true], t')) ?_ (c := c) (by simp) hlost
  rw [hassoc]
  exact insertAll_append_eq_some.mpr ⟨(rets, t), ([true], t'), hrun,
    insertAll_cons_eq_some.mpr ⟨(true, t'), ([], t'), hins, rfl, rfl⟩, rfl⟩

theorem TwinRuns.zeroed_run {k₀ : ℕ} (hnew : TandemIndex.new = some t₀) (hr : TwinRuns t₀ cs₁ zero cs₂)
    (hguard : ∀ r ∈ insertAll t₀ cs₁, Guards r.2.mainIndex zero.newlevel k₀)
    (hlow : ∀ c ∈ cs₂, k₀ ≤ c.key) {r : List Bool × TandemIndex}
    (hrun : insertAll t₀ (cs₁ ++ zero :: cs₂) = some r) :
    ∃ chains z l, Zeroed r.2 chains z l zero.newlevel ∧ Guards r.2.mainIndex zero.newlevel k₀ ∧
      (l.map r.2.pair).Perm ((cs₁ ++ cs₂).map fun c => (c.key, c.value)) := by
  obtain ⟨rets₁, t₁, t₂, chains, z, l, hfront, hins, hz, hperm, hguards⟩ := hr.zeroed hnew
  obtain ⟨rets, hrest⟩ := insertAll_zero hfront hins hrun
  obtain ⟨chains', l', hz', hguard', hperm'⟩ := hz.insertAll ((hguards _).mpr (hguard _ hfront))
    (fun c hc => hr.valid c (List.mem_append_right _ hc)) hlow (((along_append.mp hr.zero_room).2 _ hfront).2 _ hins)
    (((along_append.mp hr.zero_within).2 _ hfront).2 _ hins) hrest
  refine ⟨chains', z, l', hz', hguard', ?_⟩
  rw [List.map_append]
  exact hperm'.trans (hperm.append_right _)

theorem TwinRuns.undisturbed_of_shielded (hnew : TandemIndex.new = some t₀) (hr : TwinRuns t₀ cs₁ zero cs₂)
    (hshield : Shielded t₀ cs₁ zero cs₂) : Undisturbed t₀ cs₁ zero cs₂ := by
  intro ds hds r hrun r' hrun' c hc
  have hr₁ := hr.front hds
  obtain ⟨c₀, -, hleast, hguard⟩ := hshield
  have hleast₁ : ∀ d ∈ cs₁ ++ ds, c₀.key ≤ d.key := fun d hd =>
    hleast d (List.mem_append.mpr ((List.mem_append.mp hd).imp_right fun hd => hds.subset hd))
  obtain ⟨r₁, hrun₁, hfound⟩ := hr₁.found hnew
  cases hrun₁.symm.trans hrun
  obtain ⟨chains, z, l, hz, hguard', hperm⟩ :=
    hr₁.zeroed_run hnew hguard (fun d hd => hleast₁ d (List.mem_append_right _ hd)) hrun'
  exact iff_of_true (hfound c hc) (hz.found hguard' hleast₁ hperm hr₁.distinct hc)

theorem TwinRuns.shielded_of_undisturbed (hnew : TandemIndex.new = some t₀) (hr : TwinRuns t₀ cs₁ zero cs₂)
    (hsame : Undisturbed t₀ cs₁ zero cs₂) : (cs₁ = [] ∧ cs₂ = []) ∨ Shielded t₀ cs₁ zero cs₂ := by
  obtain ⟨rets₁, t₁, t₂, chains, z, l, hfront, hins, hz, hperm, hguards⟩ := hr.zeroed hnew
  have hzero : insertAll t₀ (cs₁ ++ [zero]) = some (rets₁ ++ [true], t₂) :=
    insertAll_append_eq_some.mpr ⟨(rets₁, t₁), ([true], t₂), hfront,
      insertAll_cons_eq_some.mpr ⟨(true, t₂), ([], t₂), hins, rfl, rfl⟩, rfl⟩
  cases l with
  | nil =>
    have hnil : cs₁ = [] := by simpa using hperm.symm.eq_nil
    refine .inl ⟨hnil, ?_⟩
    cases cs₂ with
    | nil => rfl
    | cons c cs₂ =>
      -- the first key behind key 0 comes before all others
      have hfirst : [] ++ [c] <+: c :: cs₂ := List.prefix_append [c] cs₂
      exact absurd (hsame.front hfirst)
        ((hr.front hfirst).disturbed_below hnew hzero hz fun v hv => absurd hv List.not_mem_nil)
  | cons v₀ l =>
    obtain ⟨c₀, hc₀, hpair⟩ := List.mem_map.mp (hperm.mem_iff.mp (List.mem_map_of_mem List.mem_cons_self))
    have hkey : c₀.key = (t₂.vnode v₀).key := congrArg Prod.fst hpair
    have hleast : ∀ v ∈ v₀ :: l, c₀.key ≤ (t₂.vnode v).key := by
      intro v hv
      rw [hkey]
      rcases List.mem_cons.mp hv with rfl | hv
      · exact Nat.le_refl _
      · exact (List.pairwise_cons.mp (List.pairwise_cons.mp hz.rooted.values.sorted).2).1 v hv
    have hleast₁ : ∀ c ∈ cs₁, c₀.key ≤ c.key := fun c hc => by
      obtain ⟨v, hv, he⟩ := List.mem_map.mp (hperm.mem_iff.mpr (List.mem_map_of_mem hc))
      have hvkey : (t₂.vnode v).key = c.key := congrArg Prod.fst he
      exact hvkey ▸ hleast v hv
    have hguard : Guards t₁.mainIndex zero.newlevel c₀.key := by
      by_contra hno
      have hlost := hz.lookup_unguarded (hkey ▸ hz.key_pos v₀ List.mem_cons_self) hleast
        fun hguard => hno ((hguards _).mp hguard)
      have hfirst : [] <+: cs₂ := List.nil_prefix
      exact (hr.front hfirst).disturbed hnew hzero (by simpa using hc₀) hlost (hsame.front hfirst)
    refine .inr ⟨c₀, hc₀, fun c hc => ?_, fun r hrun => by cases hfront.symm.trans hrun; exact hguard⟩
    rcases List.mem_append.mp hc with hc | hc
    · exact hleast₁ c hc
    by_contra hsmall
    -- the first smaller key behind key 0
    obtain ⟨d, hd⟩ := Option.isSome_iff_exists.mp
      (List.find?_isSome (p := fun c => decide (c.key < c₀.key)).mpr ⟨c, hc, by simpa using hsmall⟩)
    obtain ⟨hlt, ds, es, rfl, hds⟩ := List.find?_eq_some_iff_append.mp hd
    have hlt : d.key < c₀.key := by simpa using hlt
    have hlow : ∀ e ∈ ds, c₀.key ≤ e.key := fun e he => by simpa using hds e he
    have hupto : ds ++ [d] <+: ds ++ d :: es := ⟨es, (List.append_cons ds d es).symm⟩
    have hr₁ := hr.front (List.prefix_append ds (d :: es))
    obtain ⟨⟨rets, t₃⟩, hrun⟩ := Option.isSome_iff_exists.mp hr₁.zero_ends
    obtain ⟨chains₃, z₃, l₃, hz₃, -, hperm₃⟩ := hr₁.zeroed_run hnew
      (fun r hrun => by cases hfront.symm.trans hrun; exact hguard) hlow hrun
    refine (hr.front hupto).disturbed_below hnew hrun hz₃ (fun v hv => ?_) (hsame.front hupto)
    obtain ⟨e, he, hpair⟩ := List.mem_map.mp (hperm₃.mem_iff.mp (List.mem_map_of_mem hv))
    have hvkey : e.key = (t₃.vnode v).key := congrArg Prod.fst hpair
    rw [← hvkey]
    exact Nat.lt_of_lt_of_le hlt ((List.mem_append.mp he).elim (hleast₁ e) (hlow e))

end Twin

/-- An insert of key 0 leaves the other keys undisturbed, in every state of a run of distinct
keys, if and only if there are no other keys, or the smallest one comes before key 0 and
begins a level in use that key 0 does not reach. -/
theorem insert_zero_undisturbed_iff {t₀ : TandemIndex} (hnew : TandemIndex.new = some t₀)
    (cs₁ cs₂ : List Call) (zero : Call) (hr : TwinRuns t₀ cs₁ zero cs₂) :
    Undisturbed t₀ cs₁ zero cs₂ ↔ (cs₁ = [] ∧ cs₂ = []) ∨ Shielded t₀ cs₁ zero cs₂ := by
  refine ⟨hr.shielded_of_undisturbed hnew, ?_⟩
  rintro (⟨rfl, rfl⟩ | hshield)
  · intro ds hds r _ r' _ c hc
    rw [List.prefix_nil.mp hds] at hc
    exact absurd hc List.not_mem_nil
  · exact hr.undisturbed_of_shielded hnew hshield

instance (s : DramSkiplist) (h key : ℕ) : Decidable (Guards s h key) :=
  decidable_of_iff (∃ g ∈ List.range s.level, h ≤ g ∧ ∃ l ∈ s.levelNodes g, ∃ f ∈ l.head?,
    (s.inode f).minKey = key) ⟨fun ⟨g, hlt, hle, hf⟩ => ⟨g, hle, List.mem_range.mp hlt, hf⟩,
      fun ⟨g, hle, hlt, hf⟩ => ⟨g, List.mem_range.mpr hlt, hle, hf⟩⟩
instance (t₀ : TandemIndex) (cs₁ : List Call) (zero : Call) (cs₂ : List Call) :
    Decidable (TwinRuns t₀ cs₁ zero cs₂) :=
  decidable_of_iff' _ (twinRuns_iff t₀ cs₁ zero cs₂)

/-- Keys 10 to 20 open level 1, and key 5 goes before them on both levels. -/
def shielding : List Call := ((List.range 11).map fun i : ℕ => ⟨i + 10, i, if i = 0 then 1 else 2⟩) ++
    [⟨5, 5, 2⟩]

theorem insert_zero_undisturbed_iff_shielding : Undisturbed empty shielding ⟨0, 9, 1⟩ [⟨7, 7, 1⟩] :=
  (insert_zero_undisturbed_iff new_eq_empty shielding [⟨7, 7, 1⟩] ⟨0, 9, 1⟩ (by decide +kernel)).mpr
    (.inr ⟨⟨5, 5, 2⟩, by decide, by decide, by decide +kernel⟩)

/-- Key 5 and then key 0: key 5 is not found any more. -/
theorem insert_zero_disturbs : ¬ ∀ cs₁ zero cs₂, TwinRuns empty cs₁ zero cs₂ →
    ∀ r ∈ insertAll empty (cs₁ ++ cs₂), ∀ r' ∈ insertAll empty (cs₁ ++ zero :: cs₂),
      SameFound r.2 r'.2 (cs₁ ++ cs₂) := by
  intro hall
  have hfound : (insertAll empty [⟨5, 1, 1⟩]).map (fun r => r.2.lookup 5) = some (some 1) := by decide +kernel
  have hlost : (insertAll empty [⟨5, 1, 1⟩, ⟨0, 2, 1⟩]).map (fun r => r.2.lookup 5) =
    some (some notFound) := by
    decide +kernel
  obtain ⟨r, hr, hfound⟩ := Option.map_eq_some_iff.mp hfound
  obtain ⟨r', hr', hlost⟩ := Option.map_eq_some_iff.mp hlost
  have hsame := hall [⟨5, 1, 1⟩] ⟨0, 2, 1⟩ [] (by decide +kernel) r hr r' hr' ⟨5, 1, 1⟩ (by simp)
  cases (hsame.mp hfound).symm.trans hlost

end TandemIndex

end Hkv.Tandem
