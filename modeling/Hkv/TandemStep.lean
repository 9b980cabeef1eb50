import Hkv.TandemCoverage

/-!
# One insert

An insert puts its vnode in front of the chain and builds a tower for it, or puts it into
the run of one inode and, when that run is full, cuts the run in two.
-/
namespace Hkv.Tandem
open LinkedChain DramSkiplist

namespace TandemIndex
open Shape

section Head
variable {t t' : TandemIndex} {chains run : ℕ → List ℕ}

theorem Indexed.place_head (h : Indexed t chains run) {v : ℕ} (hv : v < t.vCurrentIdx)
    (hfresh : v ∉ t.head :: vnodes chains run)
    (hlow : ∀ n ∈ chains 0, (t.vnode v).key < (t.mainIndex.inode n).minKey) :
    ∃ t', t.valueInsert t.head v = some t' ∧ Placed t t' t.head v (vnodes chains run) ∧
      Chain t'.vnext t'.head (v :: vnodes chains run) (-1) := by
  obtain ⟨t', hins, hp⟩ := valueInsert_spec v h.chain (List.nodup_cons.mpr ⟨hfresh, h.nodup⟩) (fun w hw => by
    rcases List.mem_cons.mp hw with rfl | hw
    · exact Nat.lt_of_lt_of_le hv h.used
    · exact h.lt_vnodeNum hw)
  have hbeyond : ∀ w ∈ vnodes chains run, t.before (t.vnode v).key w = false := fun w hw => by
    obtain ⟨n, hn, hwn⟩ := List.mem_flatMap.mp hw
    exact decide_eq_false (Nat.not_lt_of_gt (Nat.lt_of_lt_of_le (hlow n hn) (h.min_le hn hwn)))
  obtain ⟨htake, hdrop⟩ := span_append [] hbeyond
  refine ⟨t', hins, hp, ?_⟩
  have hchain := hp.chain
  rw [List.nil_append] at htake hdrop
  rw [htake, hdrop] at hchain
  rw [hp.head]
  exact hchain

theorem tails_grown {s s' : DramSkiplist} (h : Levels s chains)
    (htails : ∀ i, i + 1 < maxLevel → (s.inode (s.tail i)).minKey ≠ 0) {inodes u : ℕ → ℕ}
    {key newlevel : ℕ} (hg : Grown s s' inodes u key newlevel) (hlevel : newlevel ≤ maxLevel)
    (hu : ∀ i < newlevel, OnLevel s chains i (u i)) :
    ∀ i, i + 1 < maxLevel → (s'.inode (s'.tail i)).minKey ≠ 0 := by
  intro i hi
  rw [hg.tail, hg.min_same h.toChained hlevel hu (Nat.lt_of_succ_lt hi) tail_mem_levelIds]
  exact htails i hi

theorem grownChains_head {s : DramSkiplist} {inodes : ℕ → ℕ} {newlevel : ℕ} (hpos : 1 ≤ newlevel) :
    grownChains s chains inodes s.header newlevel 0 = inodes 0 :: chains 0 := by
  rw [grownChains, if_pos (by omega), insertBehind_header]

theorem grownChains_ne_nil {s : DramSkiplist} {inodes u : ℕ → ℕ} {newlevel i : ℕ}
    (hu : ∀ i < newlevel, OnLevel s chains i (u i)) (hne : chains i ≠ []) :
    grownChains s chains inodes u newlevel i ≠ [] := by
  obtain ⟨n, l, hc⟩ := List.exists_cons_of_ne_nil hne
  exact List.ne_nil_of_mem ((mem_grownChains hu).mpr (Or.inr (hc ▸ List.mem_cons_self)))

theorem Indexed.ne_new (h : Indexed t chains run) {s' : DramSkiplist} {inodes u : ℕ → ℕ} {key newlevel n : ℕ}
    (hg : Grown t.mainIndex s' inodes u key newlevel) (hpos : 1 ≤ newlevel) (hn : n ∈ chains 0) :
    n ≠ inodes 0 := by
  have h₁ := h.shape.lt 0 (by decide) n (mem_levelIds_of_mem hn)
  have h₂ := (hg.id_lt hpos).1
  omega

theorem Indexed.head_same (h : Indexed t chains run) {s' : DramSkiplist} {inodes : ℕ → ℕ} {key newlevel n : ℕ}
    (hg : Grown t.mainIndex s' inodes t.mainIndex.header key newlevel) (hlevel : newlevel ≤ maxLevel)
    (hn : n ∈ chains 0) : s'.inode n = t.mainIndex.inode n :=
  hg.same h.shape.toChained hlevel (fun _ _ => Or.inl rfl) (by decide) (mem_levelIds_of_mem hn)
    fun _ he => h.shape.toChained.header_not_mem (by decide) (he ▸ hn)

theorem Indexed.grow_head (h : Indexed t chains run) {s' : DramSkiplist} {inodes : ℕ → ℕ} {newlevel v : ℕ}
    (hp : Placed t t' t.head v (vnodes chains run)) (hchain : Chain t'.vnext t'.head (v :: vnodes chains run) (-1))
    (hv : v < t.vCurrentIdx) (hfresh : v ∉ t.head :: vnodes chains run) (hkey : 0 < (t.vnode v).key)
    (hlow : ∀ n ∈ chains 0, (t.vnode v).key < (t.mainIndex.inode n).minKey)
    (hpos : 1 ≤ newlevel) (hlevel : newlevel ≤ maxLevel) (hroom : t.mainIndex.currentIdx + newlevel ≤ inodeNum)
    (hg : Grown t.mainIndex s' inodes t.mainIndex.header (t.vnode v).key newlevel)
    (hsame : s'.level = t.mainIndex.level) (hdown : (s'.inode (inodes 0)).down = v)
    (hcount : (s'.inode (inodes 0)).coveredNodes = 1) :
    Indexed { t' with mainIndex := s' } (grownChains t.mainIndex chains inodes t.mainIndex.header newlevel)
        (Function.update run (inodes 0) [v]) ∧
      vnodes (grownChains t.mainIndex chains inodes t.mainIndex.header newlevel)
        (Function.update run (inodes 0) [v]) = v :: vnodes chains run := by
  let chains' := grownChains t.mainIndex chains inodes t.mainIndex.header newlevel
  let run' := Function.update run (inodes 0) [v]
  have hu : ∀ i < newlevel, OnLevel t.mainIndex chains i (t.mainIndex.header i) := fun i _ => Or.inl rfl
  have hold : ∀ n ∈ chains 0, n ≠ inodes 0 := fun n hn => h.ne_new hg hpos hn
  have hkeep : ∀ n ∈ chains 0, s'.inode n = t.mainIndex.inode n := fun n hn => h.head_same hg hlevel hn
  have hbottom : chains' 0 = inodes 0 :: chains 0 := grownChains_head hpos
  have hvs : vnodes chains' run' = v :: vnodes chains run := by
    have hrest : (chains 0).flatMap run' = (chains 0).flatMap run :=
      List.flatMap_congr fun n hn => Function.update_of_ne (hold n hn) _ _
    rw [vnodes, hbottom, List.flatMap_cons, hrest]
    simp [run', vnodes]
  have hkeys : t'.KeyLt = t.KeyLt := by
    funext a b
    rw [KeyLt, KeyLt, hp.key, hp.key]
  have hreal : ∀ i < newlevel, t.mainIndex.header i ∈ chains i →
      (t.mainIndex.inode (t.mainIndex.header i)).maxKey ≠ 0 :=
    fun i hi hm => absurd hm (h.shape.toChained.header_not_mem (by omega))
  refine ⟨⟨h.shape.grow hg hkey hlevel hroom hu hreal (hsame ▸ h.shape.level_pos) (hsame ▸ h.shape.level_le),
    tails_grown h.shape.toLevels h.tails hg hlevel hu, ?_, by rw [hp.vCurrentIdx]; exact h.used, ?_, ?_, ?_, ?_, ?_,
    ?_⟩, hvs⟩
  · show s'.level = 1 ∨ chains' (s'.level - 1) ≠ []
    rw [hsame]
    exact h.top.imp_right (grownChains_ne_nil hu)
  · intro w hw
    show w < t'.vCurrentIdx
    have hw' : w ∈ t'.head :: vnodes chains' run' := hw
    rw [hp.vCurrentIdx]
    rw [hp.head, hvs] at hw'
    simp only [List.mem_cons] at hw'
    rcases hw' with rfl | rfl | hw'
    · exact h.lt _ List.mem_cons_self
    · exact hv
    · exact h.lt w (List.mem_cons_of_mem _ hw')
  · show t'.head ∉ vnodes chains' run'
    rw [hp.head, hvs, List.mem_cons]
    rintro (he | hm)
    · exact hfresh (he ▸ List.mem_cons_self)
    · exact h.head hm
  · show Chain t'.vnext t'.head (vnodes chains' run') (-1)
    rw [hvs]
    exact hchain
  · show (vnodes chains' run').Pairwise t'.KeyLt
    rw [hkeys, hvs]
    refine List.pairwise_cons.mpr ⟨fun w hw => ?_, h.sorted⟩
    obtain ⟨n, hn, hwn⟩ := List.mem_flatMap.mp hw
    exact Nat.lt_of_lt_of_le (hlow n hn) (h.min_le hn hwn)
  · intro n hn
    have hn' : n ∈ chains' 0 := hn
    rw [hbottom] at hn'
    rcases List.mem_cons.mp hn' with rfl | hn'
    · refine ⟨v, [], Function.update_self .., hdown, ?_⟩
      show (t'.vnode v).key = (s'.inode (inodes 0)).minKey
      rw [hp.key, hg.new_min 0 hpos]
    · obtain ⟨d, l, hrun, hdn, hk⟩ := h.first n hn'
      refine ⟨d, l, by rw [Function.update_of_ne (hold n hn'), hrun], ?_, ?_⟩
      · show (s'.inode n).down = d
        rw [hkeep n hn', hdn]
      · show (t'.vnode d).key = (s'.inode n).minKey
        rw [hp.key, hkeep n hn', hk]
  · intro n hn
    show (s'.inode n).coveredNodes ≤ _
    have hn' : n ∈ chains' 0 := hn
    rw [hbottom] at hn'
    rcases List.mem_cons.mp hn' with rfl | hn'
    · rw [hcount, Function.update_self]
      simp
    · rw [hkeep n hn', Function.update_of_ne (hold n hn')]
      exact h.count n hn'

theorem Exact.grow_head (hx : Exact t chains run) (h : Indexed t chains run) {s' : DramSkiplist}
    {inodes : ℕ → ℕ} {key newlevel v : ℕ} (hhead : t'.head = t.head) (hpos : 1 ≤ newlevel)
    (hlevel : newlevel ≤ maxLevel) (hg : Grown t.mainIndex s' inodes t.mainIndex.header key newlevel)
    (hcount : (s'.inode (inodes 0)).coveredNodes = 1)
    (hheader : (s'.inode (t.mainIndex.header 0)).coveredNodes =
      (t.mainIndex.inode (t.mainIndex.header 0)).coveredNodes) :
    Exact { t' with mainIndex := s' } (grownChains t.mainIndex chains inodes t.mainIndex.header newlevel)
      (Function.update run (inodes 0) [v]) := by
  refine ⟨?_, ?_, fun n hn => ?_⟩
  · show (s'.inode (s'.header 0)).down = t'.head
    rw [hg.header, hg.pred_down 0 hpos, hx.head, hhead]
  · show (s'.inode (s'.header 0)).coveredNodes = 1
    rw [hg.header, hheader, hx.header]
  · show (s'.inode n).coveredNodes = _
    rw [grownChains_head hpos] at hn
    rcases List.mem_cons.mp hn with rfl | hn
    · rw [hcount, Function.update_self]
      rfl
    · rw [h.head_same hg hlevel hn, Function.update_of_ne (h.ne_new hg hpos hn), hx.inode n hn]

end Head

section Cover
variable {t : TandemIndex} {chains run : ℕ → List ℕ}

theorem Indexed.increase (h : Indexed t chains run) {n : ℕ} (hn : n ∈ chains 0)
    (hcount : (t.mainIndex.inode n).coveredNodes ≤ (run n).length) :
    Indexed { t with mainIndex := t.mainIndex.increaseCoveredNodes n } chains run := by
  have hsame : ∀ m, _ := fun m => modify_covered t.mainIndex n m fun x => x.coveredNodes + 1
  have hlt := h.shape.lt 0 (by decide) n (mem_levelIds_of_mem hn)
  refine ⟨h.shape.modify_covered (fun x => x.coveredNodes + 1) hlt, fun i hi => ?_, h.top, h.used, h.lt, h.head,
    h.chain, h.sorted, fun m hm => ?_, fun m hm => ?_⟩
  · exact (hsame _).2.1 ▸ h.tails i hi
  · obtain ⟨d, l, hrun, hdown, hkey⟩ := h.first m hm
    exact ⟨d, l, hrun, (hsame m).2.2.2.trans hdown, hkey.trans (hsame m).2.1.symm⟩
  · show ((t.mainIndex.increaseCoveredNodes n).inode m).coveredNodes ≤ (run m).length + 1
    unfold increaseCoveredNodes
    by_cases hmn : m = n
    · subst hmn
      rw [modify_self]
      exact Int.add_le_add_right hcount 1
    · rw [modify_of_ne _ _ _ hmn]
      exact h.count m hm

theorem Indexed.half_lt (h : Indexed t chains run) {n : ℕ} (hn : n ∈ chains 0)
    (hfull : searchStabilityCoefficient < (t.mainIndex.inode n).coveredNodes) :
    0 < half t.mainIndex n ∧ half t.mainIndex n < (run n).length := by
  have hc := h.count n hn
  unfold half
  unfold searchStabilityCoefficient at hfull
  rw [Int.tdiv_eq_ediv_of_nonneg (by omega)]
  omega

theorem Indexed.splitNode_spec (h : Indexed t chains run) {n : ℕ} (hn : n ∈ chains 0)
    (hfull : searchStabilityCoefficient < (t.mainIndex.inode n).coveredNodes) :
    ∃ w l₁ l₂, t.splitNode n = some w ∧ run n = l₁ ++ w :: l₂ ∧ l₁.length = half t.mainIndex n ∧
      l₁ ≠ [] := by
  obtain ⟨hpos, hlt⟩ := h.half_lt hn hfull
  obtain ⟨front, back, hsplit⟩ := List.append_of_mem hn
  obtain ⟨d, l, hrun, hdown, -, hvs, -, hchain⟩ := h.cut hsplit
  obtain ⟨l₁, w, l₂, hcut, hlen⟩ : ∃ l₁ w l₂, run n = l₁ ++ w :: l₂ ∧
    l₁.length = half t.mainIndex n := by
    refine ⟨(run n).take (half t.mainIndex n), (run n)[half t.mainIndex n],
      (run n).drop (half t.mainIndex n + 1), ?_, ?_⟩
    · rw [← List.drop_eq_getElem_cons hlt, List.take_append_drop]
    · rw [List.length_take]
      omega
  have hd : d < vnodeNum := h.lt_vnodeNum (by simp [hvs])
  have hadv : t.advance l₁.length d = some w := by
    refine advance_spec hchain (fun x hx => h.lt_vnodeNum ?_) (l₂ ++ back.flatMap run) ?_
    · rw [hvs]
      exact List.mem_cons_of_mem _ (List.mem_append_right _ (List.mem_cons_of_mem _ hx))
    · rw [← List.cons_append, ← hrun, hcut]
      simp
  refine ⟨w, l₁, l₂, ?_, hcut, hlen, fun he => ?_⟩
  · simpa [splitNode, hdown, nodeAt_of_lt hd, hlen] using hadv
  · rw [he, List.length_nil] at hlen
    omega

end Cover

section Split
variable {t : TandemIndex} {chains run : ℕ → List ℕ}

/-- What a split of the index needs of the state before it: no pivot walk overshoots, as the
first inode of the highest level in use does not begin beyond the key; and on the top level
the key does not fall to the last inode, whose `max_key` is that of the header. -/
structure Regular (s : DramSkiplist) (key newlevel : ℕ) : Prop where
  reach : ∀ l ∈ s.levelNodes (s.level - 1), ∀ f ∈ l.head?, (s.inode f).minKey ≤ key
  top : newlevel = maxLevel → s.level = maxLevel →
    ∀ l ∈ s.levelNodes (maxLevel - 1), ∀ n ∈ l.getLast?, key < (s.inode n).minKey

theorem regular_iff {s : DramSkiplist} (h : Shape s chains) {key newlevel : ℕ} :
    Regular s key newlevel ↔ (∀ f ∈ (chains (s.level - 1)).head?, (s.inode f).minKey ≤ key) ∧
      (newlevel = maxLevel → s.level = maxLevel →
        ∀ n ∈ (chains (maxLevel - 1)).getLast?, key < (s.inode n).minKey) := by
  have hlevel : s.level - 1 < maxLevel := by
    have := h.level_pos
    have := h.level_le
    omega
  have h₁ := h.toChained.levelNodes_eq hlevel
  have h₂ := h.toChained.levelNodes_eq (show maxLevel - 1 < maxLevel by decide)
  constructor
  · intro hr
    exact ⟨hr.reach _ h₁, fun hn hs => hr.top hn hs _ h₂⟩
  · rintro ⟨hreach, htop⟩
    refine ⟨fun l hl => ?_, fun hn hs l hl => ?_⟩
    · rw [h₁] at hl
      exact Option.some.inj hl ▸ hreach
    · rw [h₂] at hl
      exact Option.some.inj hl ▸ htop hn hs

theorem Regular.increase {s : DramSkiplist} (h : Shape s chains) {key newlevel n : ℕ} (hn : n ∈ chains 0)
    (hr : Regular s key newlevel) : Regular (s.increaseCoveredNodes n) key newlevel := by
  have h' : Shape (s.increaseCoveredNodes n) chains :=
    h.modify_covered (fun x => x.coveredNodes + 1) (h.lt 0 (by decide) n (mem_levelIds_of_mem hn))
  refine (regular_iff h').mpr ?_
  simp only [increase_min]
  exact (regular_iff h).mp hr

/-- A key inside the run of `n`, behind its first node. -/
structure Inside (t : TandemIndex) (chains run : ℕ → List ℕ) (n w : ℕ) : Prop where
  mem : n ∈ chains 0
  covers : w ∈ run n
  min_lt : (t.mainIndex.inode n).minKey < (t.vnode w).key

theorem Inside.min_ne (h : Indexed t chains run) {n w m : ℕ} (hw : Inside t chains run n w) (hm : m ∈ chains 0) :
    (t.mainIndex.inode m).minKey ≠ (t.vnode w).key := by
  obtain ⟨front, back, hsplit⟩ := List.append_of_mem hw.mem
  have hlt := hw.min_lt
  rw [hsplit] at hm
  rcases List.mem_append.mp hm with hm | hm
  · obtain ⟨f₁, f₂, hfront⟩ := List.append_of_mem hm
    have := h.min_lt (show chains 0 = f₁ ++ m :: (f₂ ++ n :: back) by simp [hsplit, hfront])
      (show n ∈ f₂ ++ n :: back by simp)
    omega
  · rcases List.mem_cons.mp hm with rfl | hm
    · exact Nat.ne_of_lt hlt
    · exact (Nat.ne_of_lt (h.order hsplit hm w hw.covers)).symm

theorem Inside.unique (h : Indexed t chains run) {n w m : ℕ} (hw : Inside t chains run n w)
    (hm : Covering t.mainIndex chains 0 (t.vnode w).key m) : m = n := by
  obtain ⟨front, back, hsplit, hmin, hmax⟩ := hm
  have hlt := hw.min_lt
  have hn := hw.mem
  rw [hsplit] at hn
  rcases List.mem_append.mp hn with hn | hn
  · obtain ⟨f₁, f₂, hfront⟩ := List.append_of_mem hn
    have := h.order (show chains 0 = f₁ ++ n :: (f₂ ++ m :: back) by simp [hsplit, hfront])
      (show m ∈ f₂ ++ m :: back by simp) w hw.covers
    omega
  · rcases List.mem_cons.mp hn with rfl | hn
    · rfl
    · have h₁ := h.max_le hsplit hn
      have h₂ := hmax.resolve_left (List.ne_nil_of_mem hn)
      omega

theorem max_ne_zero {s : DramSkiplist} (h : Levels s chains)
    (htails : ∀ i, i + 1 < maxLevel → (s.inode (s.tail i)).minKey ≠ 0) {i n : ℕ} (hi : i + 1 < maxLevel)
    (hpos : ∀ m ∈ (chains i).tail, 0 < (s.inode m).minKey) (hn : n ∈ chains i) : (s.inode n).maxKey ≠ 0 :=
  (h.abut i (Nat.lt_of_succ_lt hi)).max_ne_zero (htails i hi) hpos hn

theorem Regular.starts (h : Indexed t chains run) {key newlevel : ℕ} (hr : Regular t.mainIndex key newlevel)
    (hne : chains 0 ≠ []) :
    Starts t.mainIndex chains (t.mainIndex.level - 1) key (t.mainIndex.header (t.mainIndex.level - 1)) := by
  have hused : chains (t.mainIndex.level - 1) ≠ [] := by
    rcases h.top with hone | htop
    · rw [hone]
      exact hne
    · exact htop
  obtain ⟨f, l, hc⟩ := List.exists_cons_of_ne_nil hused
  exact Or.inr ⟨rfl, f, by simp [hc], ((regular_iff h.shape).mp hr).1 f (by simp [hc])⟩

theorem Regular.max_ne_zero (h : Indexed t chains run) {s' : DramSkiplist} {inodes u : ℕ → ℕ}
    {key v newlevel : ℕ} {count : ℤ} (hr : Regular t.mainIndex key newlevel) (hne : chains 0 ≠ [])
    (hkey : 0 < key) (hlevel : newlevel ≤ maxLevel)
    (hs : Split t.mainIndex s' chains inodes u key v newlevel count) :
    ∀ i < newlevel, u i ∈ chains i → (t.mainIndex.inode (u i)).maxKey ≠ 0 := by
  intro i hi hmem
  by_cases hbelow : i + 1 < maxLevel
  · exact TandemIndex.max_ne_zero h.shape.toLevels h.tails hbelow
      (fun m hm => h.shape.min_pos i (Nat.lt_of_succ_lt hbelow) m (List.mem_of_mem_tail hm)) hmem
  · have hle := h.shape.level_le
    have hi' : i < maxLevel := by omega
    have hused : i < t.mainIndex.level := Nat.lt_of_not_le fun hle =>
      h.shape.toChained.header_not_mem hi' (hs.above i hle hi ▸ hmem)
    obtain ⟨front, back, hsplit, hmin, hmax⟩ := hs.covering (hr.starts h hne) i hused
    rcases hmax with rfl | hmax
    · -- the pivot is the last inode of the top level
      have hi₁ : i = maxLevel - 1 := by omega
      have hlow := ((regular_iff h.shape).mp hr).2 (by omega) (by omega) (u i) (by rw [← hi₁, hsplit]; simp)
      omega
    · omega

/-- The runs after a split: `n` keeps `l₁`, and the new inode gets `l`. -/
def cutRun (run : ℕ → List ℕ) (n new : ℕ) (l₁ l : List ℕ) : ℕ → List ℕ :=
  Function.update (Function.update run n l₁) new l

section CutRun
variable {n new : ℕ} {l₁ l : List ℕ}

theorem cutRun_new : cutRun run n new l₁ l new = l := Function.update_self ..

theorem cutRun_self (hn : n ≠ new) : cutRun run n new l₁ l n = l₁ := by
  rw [cutRun, Function.update_of_ne hn, Function.update_self]

theorem cutRun_of_ne {m : ℕ} (hnew : m ≠ new) (hn : m ≠ n) : cutRun run n new l₁ l m = run m := by
  rw [cutRun, Function.update_of_ne hnew, Function.update_of_ne hn]

theorem vnodes_cutRun {chains' : ℕ → List ℕ} {front back : List ℕ} (hsplit : chains 0 = front ++ n :: back)
    (hgrown : chains' 0 = front ++ n :: new :: back) (hf : n ∉ front) (hb : n ∉ back) (hnew : new ∉ chains 0)
    (hrun : run n = l₁ ++ l) : vnodes chains' (cutRun run n new l₁ l) = vnodes chains run := by
  have hne : ∀ m ∈ chains 0, m ≠ new := fun m hm he => hnew (he ▸ hm)
  have hsame : ∀ k : List ℕ, (∀ m ∈ k, m ∈ chains 0) → n ∉ k →
      k.flatMap (cutRun run n new l₁ l) = k.flatMap run := fun k hk hnk =>
    List.flatMap_congr fun m hm => cutRun_of_ne (hne m (hk m hm)) fun he => hnk (he ▸ hm)
  rw [vnodes, vnodes, hgrown, hsplit]
  simp only [List.flatMap_append, List.flatMap_cons]
  rw [hsame front (fun m hm => by simp [hsplit, hm]) hf, hsame back (fun m hm => by simp [hsplit, hm]) hb,
    cutRun_self (hne n (by simp [hsplit])), cutRun_new, hrun]
  simp

end CutRun

/-- A split cuts the run of `n` before `w` and gives the rest to the new inode. -/
theorem Indexed.grow_split (h : Indexed t chains run) {s' : DramSkiplist} {inodes u : ℕ → ℕ}
    {n w newlevel : ℕ} {l₁ l₂ : List ℕ} (hn : n ∈ chains 0) (hrun : run n = l₁ ++ w :: l₂)
    (hne : l₁ ≠ []) (hkey : 0 < (t.vnode w).key)
    (hpos : 1 ≤ newlevel) (hlevel : newlevel ≤ maxLevel) (hroom : t.mainIndex.currentIdx + newlevel ≤ inodeNum)
    (hs : Split t.mainIndex s' chains inodes u (t.vnode w).key w newlevel (l₁.length + 1)) (hu₀ : u 0 = n)
    (hreal : ∀ i < newlevel, u i ∈ chains i → (t.mainIndex.inode (u i)).maxKey ≠ 0) :
    ∃ run', Indexed { t with mainIndex := s' } (grownChains t.mainIndex chains inodes u newlevel) run' ∧
      vnodes (grownChains t.mainIndex chains inodes u newlevel) run' = vnodes chains run ∧ run' n = l₁ ∧
      ∀ m ∈ grownChains t.mainIndex chains inodes u newlevel 0, run' m = l₁ ∨ run' m = w :: l₂ ∨
        m ∈ chains 0 ∧ m ≠ n ∧ run' m = run m := by
  let chains' := grownChains t.mainIndex chains inodes u newlevel
  let run' := cutRun run n (inodes 0) l₁ (w :: l₂)
  have hg := hs.grown
  have hmem : ∀ {i x}, x ∈ chains' i ↔ (i < newlevel ∧ x = inodes i) ∨ x ∈ chains i :=
    mem_grownChains hs.onLevel
  have hold : ∀ m ∈ chains 0, m ≠ inodes 0 := fun m hm => h.ne_new hg hpos hm
  have hkeep : ∀ m ∈ chains 0, m ≠ n → s'.inode m = t.mainIndex.inode m := fun m hm hmn =>
    hg.same h.shape.toChained hlevel hs.onLevel (by decide) (mem_levelIds_of_mem hm) fun _ he => hmn (he.trans hu₀)
  have hrun' : ∀ m ∈ chains 0, m ≠ n → run' m = run m := fun m hm hmn => cutRun_of_ne (hold m hm) hmn
  have hrunn : run' n = l₁ := cutRun_self (hold n hn)
  have hrunw : run' (inodes 0) = w :: l₂ := cutRun_new
  have hvs : vnodes chains' run' = vnodes chains run := by
    obtain ⟨front, back, hsplit⟩ := List.append_of_mem hn
    obtain ⟨hf, hb, hgrown⟩ : u 0 ∉ front ∧ u 0 ∉ back ∧ chains' 0 = front ++ u 0 :: inodes 0 :: back :=
      h.shape.toChained.grownChains_split (by decide) hpos (hu₀ ▸ hsplit)
    rw [hu₀] at hf hb hgrown
    exact vnodes_cutRun hsplit hgrown hf hb (fun hm => hold _ hm rfl) hrun
  refine ⟨run', ⟨h.shape.grow hg hkey hlevel hroom hs.onLevel hreal ?_ ?_,
    tails_grown h.shape.toLevels h.tails hg hlevel hs.onLevel, ?_, h.used, ?_, ?_, ?_, ?_, ?_, ?_⟩, hvs, hrunn,
    fun m hm => ?_⟩
  · have h₁ := h.shape.level_pos
    rw [hs.level]
    omega
  · have h₁ := h.shape.level_le
    rw [hs.level]
    omega
  · show s'.level = 1 ∨ chains' (s'.level - 1) ≠ []
    rw [hs.level]
    rcases Nat.le_total newlevel t.mainIndex.level with hle | hle
    · rw [Nat.max_eq_left hle]
      exact h.top.imp_right (grownChains_ne_nil hs.onLevel)
    · rw [Nat.max_eq_right hle]
      exact Or.inr (List.ne_nil_of_mem (hmem.mpr (Or.inl ⟨by omega, rfl⟩)))
  · show ∀ v ∈ t.head :: vnodes chains' run', v < t.vCurrentIdx
    rw [hvs]
    exact h.lt
  · show t.head ∉ vnodes chains' run'
    rw [hvs]
    exact h.head
  · show Chain t.vnext t.head (vnodes chains' run') (-1)
    rw [hvs]
    exact h.chain
  · show (vnodes chains' run').Pairwise t.KeyLt
    rw [hvs]
    exact h.sorted
  · intro m hm
    rcases hmem.mp hm with ⟨-, rfl⟩ | hm
    · exact ⟨w, l₂, hrunw, hs.down, (hg.new_min 0 hpos).symm⟩
    · obtain ⟨d, l, hr, hdown, hk⟩ := h.first m hm
      have hmin : (s'.inode m).minKey = (t.mainIndex.inode m).minKey :=
        hg.min_same h.shape.toChained hlevel hs.onLevel (by decide) (mem_levelIds_of_mem hm)
      have hdn : (s'.inode m).down = (t.mainIndex.inode m).down :=
        hg.down_same h.shape.toChained hlevel hs.onLevel (by decide) (mem_levelIds_of_mem hm)
      refine ⟨d, ?_⟩
      by_cases hmn : m = n
      · subst hmn
        obtain ⟨x, l₁', hl₁⟩ := List.exists_cons_of_ne_nil hne
        have hx : x = d := by
          rw [hr, hl₁] at hrun
          exact (List.cons.inj hrun).1.symm
        exact ⟨l₁', by rw [hrunn, hl₁, hx], hdn.trans hdown, hk.trans hmin.symm⟩
      · exact ⟨l, by rw [hrun' m hm hmn, hr], hdn.trans hdown, hk.trans hmin.symm⟩
  · intro m hm
    show (s'.inode m).coveredNodes ≤ (run' m).length + 1
    have hc := h.count n hn
    have hlen := congrArg List.length hrun
    simp only [List.length_append, List.length_cons] at hlen
    rcases hmem.mp hm with ⟨-, rfl⟩ | hm
    · rw [hs.new_covered, hrunw, hu₀, List.length_cons]
      omega
    · by_cases hmn : m = n
      · subst hmn
        rw [hrunn, ← hu₀, hs.pred_covered]
      · rw [hkeep m hm hmn, hrun' m hm hmn]
        exact h.count m hm
  · rcases hmem.mp hm with ⟨-, rfl⟩ | hm
    · exact Or.inr (Or.inl hrunw)
    · by_cases hmn : m = n
      · exact Or.inl (hmn ▸ hrunn)
      · exact Or.inr (Or.inr ⟨hm, hmn, hrun' m hm hmn⟩)

end Split

/-! ## Order on the levels -/

section Order
variable {s s' : DramSkiplist} {chains : ℕ → List ℕ}

/-- Every level is strictly increasing in `min_key`. -/
def Increasing (s : DramSkiplist) (chains : ℕ → List ℕ) : Prop :=
  ∀ i < maxLevel, (chains i).Pairwise fun n m => (s.inode n).minKey < (s.inode m).minKey

/-- The key belongs right behind `u` on level `i`. -/
def Fits (s : DramSkiplist) (chains : ℕ → List ℕ) (i key u : ℕ) : Prop :=
  (u = s.header i ∧ ∀ m ∈ chains i, key < (s.inode m).minKey) ∨
    ∃ front back, chains i = front ++ u :: back ∧ (s.inode u).minKey < key ∧ ∀ m ∈ back,
    key < (s.inode m).minKey

theorem Increasing.grow (h : Shape s chains) {inodes u : ℕ → ℕ} {key newlevel : ℕ} (ho : Increasing s chains)
    (hg : Grown s s' inodes u key newlevel) (hlevel : newlevel ≤ maxLevel)
    (hu : ∀ i < newlevel, OnLevel s chains i (u i)) (hfits : ∀ i < newlevel, Fits s chains i key (u i)) :
    Increasing s' (grownChains s chains inodes u newlevel) := by
  intro i hi
  have hmin : ∀ m ∈ chains i, (s'.inode m).minKey = (s.inode m).minKey := fun m hm =>
    hg.min_same h.toChained hlevel hu hi (mem_levelIds_of_mem hm)
  have hold : (chains i).Pairwise fun n m => (s'.inode n).minKey < (s'.inode m).minKey :=
    List.Pairwise.imp_of_mem (fun {a b} ha hb hlt => by rw [hmin a ha, hmin b hb]; exact hlt) (ho i hi)
  by_cases hin : i < newlevel
  · have hnew := hg.new_min i hin
    rcases hfits i hin with ⟨hhead, hlow⟩ | ⟨front, back, hsplit, hlt, hback⟩
    · rw [grownChains, if_pos hin, hhead, insertBehind_header]
      refine List.pairwise_cons.mpr ⟨fun m hm => ?_, hold⟩
      rw [hnew, hmin m hm]
      exact hlow m hm
    · rw [(h.toChained.grownChains_split hi hin hsplit).2.2]
      have hcut : front ++ u i :: inodes i :: back = (front ++ [u i]) ++ inodes i :: back := by simp
      have hwhole : (front ++ [u i]) ++ back = chains i := by simp [hsplit]
      rw [hcut]
      refine pairwise_insert (hwhole ▸ hold) (fun a ha => ?_) fun b hb => ?_
      · have hle : (s.inode a).minKey ≤ (s.inode (u i)).minKey := by
          have hord := ho i hi
          rw [hsplit] at hord
          rcases List.mem_append.mp ha with ha | ha
          · exact Nat.le_of_lt ((List.pairwise_append.mp hord).2.2 a ha _ (by simp))
          · rw [List.mem_singleton.mp ha]
        rw [hnew, hmin a (hwhole ▸ List.mem_append_left _ ha)]
        omega
      · rw [hnew, hmin b (hwhole ▸ List.mem_append_right _ hb)]
        exact hback b hb
  · rw [grownChains, if_neg hin]
    exact hold

theorem Increasing.fits (h : Shape s chains) {i key n : ℕ} (ho : Increasing s chains) (hi : i < maxLevel)
    (hne : ∀ m ∈ chains 0, (s.inode m).minKey ≠ key) (hcov : Covering s chains i key n) :
    Fits s chains i key n := by
  obtain ⟨front, back, hsplit, hmin, hmax⟩ := hcov
  have hnot : ∀ m ∈ chains i, (s.inode m).minKey ≠ key := fun m hm he => by
    obtain ⟨k, hk, hkm⟩ := h.toChained.min_bottom hi hm
    exact hne k hk (hkm.trans he)
  refine Or.inr ⟨front, back, hsplit, Nat.lt_of_le_of_ne hmin (hnot n (by simp [hsplit])), fun m hm => ?_⟩
  have hord := ho i hi
  have habut := h.abut i hi
  have hmi := hnot m (by simp [hsplit, hm])
  rw [hsplit] at hord habut
  cases back with
  | nil => simp at hm
  | cons b back =>
    have hb : (s.inode n).maxKey = (s.inode b).minKey := (abut_append.mp habut).2.1
    have hle := hmax.resolve_left (by simp)
    rcases List.mem_cons.mp hm with rfl | hm
    · omega
    · have hbm := (List.pairwise_cons.mp (List.pairwise_cons.mp (List.pairwise_append.mp hord).2.1).2).1 m hm
      omega

/-- On the levels that a split opens, its key lies below everything. -/
def Clear (s : DramSkiplist) (key newlevel : ℕ) : Prop :=
  ∀ i < newlevel, s.level ≤ i → ∀ l ∈ s.levelNodes i, ∀ f ∈ l.head?, key < (s.inode f).minKey

theorem Clear.lt (h : Shape s chains) {i key newlevel : ℕ} (hc : Clear s key newlevel) (ho : Increasing s chains)
    (hlevel : newlevel ≤ maxLevel) (hi : i < newlevel) (hopen : s.level ≤ i) :
    ∀ m ∈ chains i, key < (s.inode m).minKey := by
  intro m hm
  have hi' : i < maxLevel := by omega
  obtain ⟨f, l, hl⟩ := List.exists_cons_of_ne_nil (List.ne_nil_of_mem hm)
  have hf := hc i hi hopen _ (h.toChained.levelNodes_eq hi') f (by simp [hl])
  have hord := ho i hi'
  rw [hl] at hm hord
  rcases List.mem_cons.mp hm with rfl | hm
  · exact hf
  · exact Nat.lt_trans hf ((List.pairwise_cons.mp hord).1 m hm)

end Order

end TandemIndex

end Hkv.Tandem
