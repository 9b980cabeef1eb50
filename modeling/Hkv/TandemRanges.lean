import Hkv.TandemChain
import Hkv.TandemOrder

/-!
# Ranges that abut

A split may take its predecessors from the wrong place, and then a level is out of order.
Its ranges still abut: behind an inode whose range does not end at key 0 the new inode takes
over the rest of that range, wherever it lies. Only the top level has a tail that begins at
key 0, so only there an inode can be taken for a header.
-/
namespace Hkv.Tandem
open LinkedChain

namespace DramSkiplist
open Shape

variable {s s' : DramSkiplist} {chains : ℕ → List ℕ} {inodes u : ℕ → ℕ} {key newlevel : ℕ}

/-- Chained levels whose ranges abut below the top level. -/
structure Ranged (s : DramSkiplist) (chains : ℕ → List ℕ) : Prop where
  chained : Chained s chains
  min_pos : ∀ i < maxLevel, ∀ n ∈ chains i, 0 < (s.inode n).minKey
  tails : ∀ i, i + 1 < maxLevel → (s.inode (s.tail i)).minKey = Tandem.maxKey
  abut : ∀ i, i + 1 < maxLevel → Abut s (chains i) (s.tail i)

namespace Ranged

theorem max_ne_zero (h : Ranged s chains) {i n : ℕ} (hi : i + 1 < maxLevel) (hn : n ∈ chains i) :
    (s.inode n).maxKey ≠ 0 :=
  (h.abut i hi).max_ne_zero (by rw [h.tails i hi]; decide)
    (fun m hm => h.min_pos i (Nat.lt_of_succ_lt hi) m (List.mem_of_mem_tail hm)) hn

theorem grow (h : Ranged s chains) (hg : Grown s s' inodes u key newlevel) (hkey : 0 < key)
    (hlevel : newlevel ≤ maxLevel) (hroom : s.currentIdx + newlevel ≤ inodeNum)
    (hu : ∀ i < newlevel, OnLevel s chains i (u i)) (hpos : 1 ≤ s'.level) (hle : s'.level ≤ maxLevel) :
    Ranged s' (grownChains s chains inodes u newlevel) := by
  refine ⟨h.chained.grow hg hlevel hroom hu hpos hle, hg.min_pos h.chained hkey hlevel hu h.min_pos, fun i hi => ?_,
    fun i hi => hg.abut h.chained hlevel hu (Nat.lt_of_succ_lt hi) (h.abut i hi) fun _ hm => h.max_ne_zero hi hm⟩
  rw [hg.tail, hg.min_same h.chained hlevel hu (Nat.lt_of_succ_lt hi) tail_mem_levelIds]
  exact h.tails i hi

theorem modify_covered (h : Ranged s chains) {id : ℕ} (f : Inode → ℤ) (hid : id < s.currentIdx) :
    Ranged (s.modify id fun m => { m with coveredNodes := f m }) chains := by
  have hmin := fun n => (DramSkiplist.modify_covered s id n f).2.1
  exact ⟨h.chained.modify_covered f hid, fun i hi n hn => (hmin n).symm ▸ h.min_pos i hi n hn,
    fun i hi => (hmin _).trans (h.tails i hi), fun i hi => (h.abut i hi).modify_covered id f⟩

theorem descend_min_le (h : Ranged s chains) {i : ℕ} (key : ℕ) (hi : i + 1 < maxLevel) :
    ∃ n, descend s key i (s.header i) = some n ∧ (s.inode n).minKey ≤ key := by
  have hi' := Nat.lt_of_succ_lt hi
  rcases Nat.eq_zero_or_pos key with rfl | hkey
  · obtain ⟨n, hrun, rfl⟩ := h.chained.descend_zero hi'
    exact ⟨_, hrun, Nat.le_of_eq (h.chained.header_min 0 (by decide))⟩
  · have hheader : (s.inode (s.header i)).minKey ≤ key := by
      rw [h.chained.header_min i hi']
      exact Nat.zero_le key
    obtain ⟨n, hrun, hn⟩ :=
      h.chained.descend_found hi' (fun j hj => h.abut j (by omega)) hkey (Or.inl rfl) hheader
    exact ⟨n, hrun, Found.min_le h.chained (by decide) hn⟩

theorem lookup_min_le (h : Ranged s chains) (key : ℕ) (hlevel : s.level < maxLevel) :
    ∃ o, s.lookup key = some o ∧ ∀ n ∈ o, (s.inode n).minKey ≤ key := by
  have hpos := h.chained.level_pos
  obtain ⟨n, hrun, hle⟩ := h.descend_min_le key (i := s.level - 1) (by omega)
  refine ⟨if (s.inode n).minKey = 0 then none else some n, ?_, fun m hm => ?_⟩
  · simp only [lookup, hrun, Option.bind_eq_bind, Option.bind_some, Option.pure_def]
  · split at hm
    · cases hm
    · exact Option.some.inj hm ▸ hle

end Ranged

end DramSkiplist

namespace TandemIndex
open DramSkiplist Shape

variable {t t' : TandemIndex} {chains : ℕ → List ℕ} {l : List ℕ} {key value newlevel : ℕ}

/-- Every inode of level 0 begins at the key of the vnode that it points to. -/
structure Backed (t : TandemIndex) (chains : ℕ → List ℕ) (l : List ℕ) : Prop where
  strand : Strand t l
  ranged : Ranged t.mainIndex chains
  key_pos : ∀ v ∈ l, 0 < (t.vnode v).key
  header : (t.mainIndex.inode (t.mainIndex.header 0)).down = t.head ∧ (t.vnode t.head).key = 0
  anchor : ∀ n ∈ chains 0, ∃ d ∈ l, (t.mainIndex.inode n).down = (d : ℤ) ∧
    (t.vnode d).key = (t.mainIndex.inode n).minKey

namespace Backed

theorem place (h : Backed t chains l) (hroom : t.vCurrentIdx < vnodeNum) (hkey : 0 < key) {o : Option ℕ}
    {t₂ : TandemIndex} (hrun : (t.withVnode key value).place key t.vCurrentIdx = some (o, t₂)) :
    ∃ l', Backed t₂ chains l' ∧ t.vCurrentIdx ∈ l' ∧ (t₂.vnode t.vCurrentIdx).key = key ∧ ∀ n ∈ o,
    n ∈ chains 0 := by
  obtain ⟨hlook, start, hins, hstart⟩ := place_cases hrun
  have ho : ∀ n ∈ o, n ∈ chains 0 := by
    obtain ⟨o', hlook', ho'⟩ := h.ranged.chained.lookup_mem key
    cases hlook.symm.trans hlook'
    exact ho'
  have hmem : start ∈ t.head :: l := by
    rcases hstart with ⟨-, rfl⟩ | ⟨n, rfl, hdown⟩
    · exact List.mem_cons_self
    · obtain ⟨d, hd, hdn, -⟩ := h.anchor n (ho n rfl)
      rw [withVnode_mainIndex, hdn, nodeAt_of_lt (h.strand.lt_vnodeNum (List.mem_cons_of_mem _ hd))] at hdown
      exact List.mem_cons_of_mem _ (Option.some.inj hdown ▸ hd)
  obtain ⟨l', hs, hperm, hmain, hhead, hnew, hold⟩ := h.strand.valueInsert hroom hmem hins
  have hkeys : ∀ v ∈ t.head :: l, (t₂.vnode v).key = (t.vnode v).key :=
    fun v hv => congrArg Prod.fst (hold v hv)
  have hnewkey : (t₂.vnode t.vCurrentIdx).key = key := congrArg Prod.fst hnew
  refine ⟨l', ⟨hs, hmain ▸ h.ranged, fun v hv => ?_, ?_, fun n hn => ?_⟩,
    hperm.mem_iff.mpr List.mem_cons_self, hnewkey, ho⟩
  · rcases List.mem_cons.mp (hperm.mem_iff.mp hv) with rfl | hv
    · rwa [hnewkey]
    · rw [hkeys v (List.mem_cons_of_mem _ hv)]
      exact h.key_pos v hv
  · rw [hmain, hhead, hkeys _ List.mem_cons_self]
    exact h.header
  · obtain ⟨d, hd, hdown, hmin⟩ := h.anchor n hn
    refine ⟨d, hperm.mem_iff.mpr (List.mem_cons_of_mem _ hd), by rw [hmain, hdown], ?_⟩
    rw [hkeys d (List.mem_cons_of_mem _ hd), hmain, hmin]

theorem grow {s' : DramSkiplist} {inodes u : ℕ → ℕ} {w : ℕ} (h : Backed t chains l) (hw : w ∈ l)
    (hg : Grown t.mainIndex s' inodes u (t.vnode w).key newlevel) (hpos : 1 ≤ newlevel)
    (hlevel : newlevel ≤ maxLevel) (hroom : t.mainIndex.currentIdx + newlevel ≤ inodeNum)
    (hu : ∀ i < newlevel, OnLevel t.mainIndex chains i (u i)) (hpos' : 1 ≤ s'.level) (hle : s'.level ≤ maxLevel)
    (hdown : (s'.inode (inodes 0)).down = w) :
    Backed { t with mainIndex := s' } (grownChains t.mainIndex chains inodes u newlevel) l := by
  have hc := h.ranged.chained
  refine ⟨⟨h.strand.used, h.strand.chain, h.strand.perm⟩,
    h.ranged.grow hg (h.key_pos w hw) hlevel hroom hu hpos' hle, h.key_pos, ⟨?_, h.header.2⟩, fun n hn => ?_⟩
  · show (s'.inode (s'.header 0)).down = t.head
    rw [hg.header, hg.down_same hc hlevel hu (by decide) List.mem_cons_self, h.header.1]
  · rcases (mem_grownChains hu).mp hn with ⟨-, rfl⟩ | hn
    · exact ⟨w, hw, hdown, (hg.new_min 0 hpos).symm⟩
    · obtain ⟨d, hd, hdn, hmin⟩ := h.anchor n hn
      have hn' := mem_levelIds_of_mem (s := t.mainIndex) hn
      refine ⟨d, hd, (hg.down_same hc hlevel hu (by decide) hn').trans hdn, ?_⟩
      exact hmin.trans (hg.min_same hc hlevel hu (by decide) hn').symm

theorem counted {n : ℕ} (h : Backed t chains l) (hn : n ∈ chains 0) : Backed (t.counted n) chains l := by
  have hsame := fun m => modify_covered t.mainIndex n m fun x => x.coveredNodes + 1
  have hlt := h.ranged.chained.lt 0 (by decide) n (mem_levelIds_of_mem hn)
  refine ⟨⟨h.strand.used, h.strand.chain, h.strand.perm⟩,
    h.ranged.modify_covered (fun x => x.coveredNodes + 1) hlt,
    h.key_pos, ⟨(hsame _).2.2.2.trans h.header.1, h.header.2⟩, fun m hm => ?_⟩
  obtain ⟨d, hd, hdown, hmin⟩ := h.anchor m hm
  exact ⟨d, hd, (hsame m).2.2.2.trans hdown, hmin.trans (hsame m).2.1.symm⟩

theorem splitNode_mem {n w : ℕ} (h : Backed t chains l) (hn : n ∈ chains 0) (hw : t.splitNode n = some w) :
    w ∈ l := by
  obtain ⟨d, hd, hdown, -⟩ := h.anchor n hn
  rw [splitNode, hdown, nodeAt_of_lt (h.strand.lt_vnodeNum (List.mem_cons_of_mem _ hd)), Option.bind_eq_bind,
    Option.bind_some] at hw
  obtain ⟨a, b, rfl⟩ := List.append_of_mem hd
  exact List.mem_append_right _ (advance_mem (chain_append.mp h.strand.chain).2 hw)

theorem cover {n : ℕ} {ret : Bool} (h : Backed t chains l) (hn : n ∈ chains 0) (hpos : 1 ≤ newlevel)
    (hlevel : newlevel ≤ maxLevel) (hrun : t.cover n newlevel = some (ret, t')) :
    ∃ chains', Backed t' chains' l := by
  have h₁ := h.counted hn
  obtain ⟨-, -, rfl⟩ | ⟨-, w, s', hw, hins, rfl⟩ := cover_cases hrun
  · exact ⟨chains, h₁⟩
  · have hroom := insertWhenRebalance_room (by rw [hins]; simp)
    obtain ⟨s₁, inodes, u, hins', hr⟩ :=
      h₁.ranged.chained.insertWhenRebalance_raised w _ hpos hlevel hroom
    cases hins.symm.trans hins'
    have hpos' := h₁.ranged.chained.level_pos
    have hle := h₁.ranged.chained.level_le
    have hraised : s'.level = max (t.counted n).mainIndex.level newlevel := hr.level
    exact ⟨_, h₁.grow (h₁.splitNode_mem hn hw) hr.grown hpos hlevel hroom hr.onLevel
      (by show 1 ≤ s'.level; omega)
      (by show s'.level ≤ maxLevel; omega) hr.down⟩

theorem insert {ret : Bool} (h : Backed t chains l) (hkey : 0 < key) (hpos : 1 ≤ newlevel)
    (hlevel : newlevel ≤ maxLevel)
    (hrun : t.insert key value newlevel = some (ret, t')) : ∃ chains' l', Backed t' chains' l' := by
  obtain ⟨-, -, rfl⟩ | ⟨hroom, o, t₂, hplace, hindex⟩ := insert_cases hrun
  · exact ⟨chains, l, h⟩
  obtain ⟨l', h₂, hnew, hnewkey, ho⟩ := h.place hroom hkey hplace
  obtain ⟨-, s', hins, rfl⟩ | ⟨n, rfl, hcover⟩ := hindex
  · have hinodes := insert_room (by rw [hins]; simp)
    obtain ⟨s₁, inodes, hins', hg, hsame, hdown, -⟩ :=
      insert_spec h₂.ranged.chained key t.vCurrentIdx hpos hlevel hinodes
    cases hins.symm.trans hins'
    exact ⟨_, l', h₂.grow hnew (hnewkey.symm ▸ hg) hpos hlevel hinodes (fun _ _ => Or.inl rfl)
      (hsame ▸ h₂.ranged.chained.level_pos) (hsame ▸ h₂.ranged.chained.level_le) hdown⟩
  · obtain ⟨chains', h'⟩ := h₂.cover (ho n rfl) hpos hlevel hcover
    exact ⟨chains', l', h'⟩

theorem insertAll (h : Backed t chains l) {cs : List Call} (hvalid : ∀ c ∈ cs, c.Valid) {rets : List Bool}
    (hrun : insertAll t cs = some (rets, t')) : ∃ chains' l', Backed t' chains' l' := by
  induction cs generalizing t chains l rets with
  | nil =>
    cases hrun
    exact ⟨chains, l, h⟩
  | cons c cs ih =>
    obtain ⟨⟨ret, t₁⟩, ⟨rets', t₂⟩, hc, hrest, hdone⟩ := insertAll_cons_eq_some.mp hrun
    cases hdone
    obtain ⟨hkey, hpos, hlevel⟩ := hvalid c List.mem_cons_self
    obtain ⟨chains₁, l₁, h₁⟩ := h.insert (Nat.pos_of_ne_zero hkey) hpos hlevel hc
    exact ih h₁ (fun d hd => hvalid d (List.mem_cons_of_mem _ hd)) hrest

end Backed

theorem new_head_key : ∀ t ∈ TandemIndex.new, (t.vnode t.head).key = 0 := by decide +kernel

theorem new_backed (hnew : TandemIndex.new = some t) : Backed t (fun _ => []) [] := by
  have hs := (new_indexed hnew).shape
  obtain ⟨hstart, -⟩ := new_starting t hnew
  refine ⟨(new_threaded hnew).toStrand, ⟨hs.toChained, hs.min_pos, fun i hi => ?_, fun i hi => ?_⟩, by simp,
    ⟨new_bottom t hnew, new_head_key t hnew⟩, by simp⟩
  · exact (hstart.2.2.2.1 i (by omega)).2
  · exact hs.abut i (Nat.lt_of_succ_lt hi)

/-- After every run with keys other than 0: below the top level the ranges abut, up to a tail
that begins at the maximal key; links down lead to the same key, from level 0 to a vnode; and
a search that starts below the top level does not end beyond its key. -/
theorem insertAll_ranges_abut {t₀ : TandemIndex} (hnew : TandemIndex.new = some t₀) (cs : List Call)
    (hvalid : ∀ c ∈ cs, c.Valid) (rets : List Bool) (t : TandemIndex)
    (hrun : insertAll t₀ cs = some (rets, t)) :
    ∃ chains : ℕ → List ℕ, (∀ i < maxLevel, t.mainIndex.levelNodes i = some (chains i)) ∧
      (∀ i, i + 1 < maxLevel → Abut t.mainIndex (chains i) (t.mainIndex.tail i) ∧
        (t.mainIndex.inode (t.mainIndex.tail i)).minKey = Tandem.maxKey) ∧
      (∀ n ∈ t.mainIndex.header 0 :: chains 0, ∃ v < t.vCurrentIdx, (t.mainIndex.inode n).down = (v : ℤ) ∧
        (t.vnode v).key = (t.mainIndex.inode n).minKey) ∧
      (∀ i, i + 1 < maxLevel → ∀ n ∈ t.mainIndex.header (i + 1) :: chains (i + 1),
        ∃ m ∈ t.mainIndex.header i :: chains i, (t.mainIndex.inode n).down = (m : ℤ) ∧
          (t.mainIndex.inode m).minKey = (t.mainIndex.inode n).minKey) ∧
      (∀ i, i + 1 < maxLevel → ∀ key, ∃ n, t.mainIndex.descend key i (t.mainIndex.header i) = some n ∧
        (t.mainIndex.inode n).minKey ≤ key) ∧
      (t.mainIndex.level < maxLevel → ∀ key, ∃ o, t.mainIndex.lookup key = some o ∧
        ∀ n ∈ o, (t.mainIndex.inode n).minKey ≤ key) := by
  obtain ⟨chains, l, h⟩ := (new_backed hnew).insertAll hvalid hrun
  have hc := h.ranged.chained
  refine ⟨chains, fun i hi => hc.levelNodes_eq hi, fun i hi => ⟨h.ranged.abut i hi, h.ranged.tails i hi⟩,
    List.forall_mem_cons.mpr ⟨?_, fun n hn => ?_⟩, fun i hi => List.forall_mem_cons.mpr ⟨?_, fun n hn => ?_⟩,
    fun i hi key => h.ranged.descend_min_le key hi, fun hlevel key => h.ranged.lookup_min_le key hlevel⟩
  · refine ⟨t.head, h.strand.lt List.mem_cons_self, h.header.1, ?_⟩
    rw [h.header.2, hc.header_min 0 (by decide)]
  · obtain ⟨d, hd, hdown, hkey⟩ := h.anchor n hn
    exact ⟨d, h.strand.lt (List.mem_cons_of_mem _ hd), hdown, hkey⟩
  · refine ⟨t.mainIndex.header i, List.mem_cons_self, hc.header_down i hi, ?_⟩
    rw [hc.header_min _ hi, hc.header_min i (Nat.lt_of_succ_lt hi)]
  · obtain ⟨m, hm, hdown, hmin⟩ := hc.down i hi n hn
    exact ⟨m, List.mem_cons_of_mem _ hm, hdown, hmin⟩

/-- The level with key 15 behind key 60. -/
theorem insertAll_ranges_abut_overshooting : ∃ rets t l, insertAll empty overshooting = some (rets, t) ∧
    t.mainIndex.levelNodes 0 = some l ∧ l.map (fun n => (t.mainIndex.inode n).minKey) = [10, 60, 15] ∧
    Abut t.mainIndex l (t.mainIndex.tail 0) := by
  obtain ⟨⟨rets, t⟩, hrun, hlevel⟩ := Option.bind_eq_some_iff.mp overshooting_mins
  obtain ⟨chains, hnodes, habut, -⟩ := insertAll_ranges_abut new_eq_empty overshooting (by decide) rets t hrun
  have hbottom := hnodes 0 (by decide)
  rw [hbottom, Option.map_some] at hlevel
  exact ⟨rets, t, chains 0, hrun, hbottom, Option.some.inj hlevel, (habut 0 (by decide)).1⟩

end TandemIndex

end Hkv.Tandem
