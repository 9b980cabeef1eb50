import Hkv.TandemInsert
import Hkv.ValueChain

/-!
# What the inodes cover

The value chain is sorted and falls into the runs of the level-0 inodes: each run starts
at the vnode that its inode points to, which carries the inode's `min_key`. An inode
counts at most one node more than its run holds.
-/
namespace Hkv.Tandem
open LinkedChain DramSkiplist

namespace TandemIndex

/-- The value nodes, by the level-0 inodes that cover them. -/
def vnodes (chains run : ℕ → List ℕ) : List ℕ := (chains 0).flatMap run

/-- The order of the value chain. -/
def KeyLt (t : TandemIndex) (v w : ℕ) : Prop := (t.vnode v).key < (t.vnode w).key

/-- The order of a value chain whose keys may repeat. -/
def KeyLe (t : TandemIndex) (v w : ℕ) : Prop := (t.vnode v).key ≤ (t.vnode w).key

structure Indexed (t : TandemIndex) (chains run : ℕ → List ℕ) : Prop where
  shape : Shape t.mainIndex chains
  tails : ∀ i, i + 1 < maxLevel → (t.mainIndex.inode (t.mainIndex.tail i)).minKey ≠ 0
  top : t.mainIndex.level = 1 ∨ chains (t.mainIndex.level - 1) ≠ []
  used : t.vCurrentIdx ≤ vnodeNum
  lt : ∀ v ∈ t.head :: vnodes chains run, v < t.vCurrentIdx
  head : t.head ∉ vnodes chains run
  chain : Chain t.vnext t.head (vnodes chains run) (-1)
  sorted : (vnodes chains run).Pairwise t.KeyLt
  first : ∀ n ∈ chains 0, ∃ d l, run n = d :: l ∧ (t.mainIndex.inode n).down = d ∧
    (t.vnode d).key = (t.mainIndex.inode n).minKey
  count : ∀ n ∈ chains 0, (t.mainIndex.inode n).coveredNodes ≤ (run n).length + 1

/-- Each inode counts just its run, and the header the head of the value list. -/
structure Exact (t : TandemIndex) (chains run : ℕ → List ℕ) : Prop where
  head : (t.mainIndex.inode (t.mainIndex.header 0)).down = t.head
  header : (t.mainIndex.inode (t.mainIndex.header 0)).coveredNodes = 1
  inode : ∀ n ∈ chains 0, (t.mainIndex.inode n).coveredNodes = (run n).length

namespace Indexed
open Shape
variable {t : TandemIndex} {chains run : ℕ → List ℕ}

theorem mem_vnodes {n v : ℕ} (hn : n ∈ chains 0) (hv : v ∈ run n) : v ∈ vnodes chains run :=
  List.mem_flatMap.mpr ⟨n, hn, hv⟩

theorem nodup (h : Indexed t chains run) : (t.head :: vnodes chains run).Nodup :=
  List.nodup_cons.mpr ⟨h.head, h.sorted.imp fun hlt he => by simp [KeyLt, he] at hlt⟩

theorem lt_vnodeNum (h : Indexed t chains run) {v : ℕ} (hv : v ∈ t.head :: vnodes chains run) : v < vnodeNum :=
  Nat.lt_of_lt_of_le (h.lt v hv) h.used

theorem min_le (h : Indexed t chains run) {n v : ℕ} (hn : n ∈ chains 0) (hv : v ∈ run n) :
    (t.mainIndex.inode n).minKey ≤ (t.vnode v).key := by
  obtain ⟨d, l, hrun, -, hkey⟩ := h.first n hn
  have hsorted := (List.pairwise_flatMap.mp h.sorted).1 n hn
  rw [hrun] at hsorted hv
  rcases List.mem_cons.mp hv with rfl | hv
  · exact Nat.le_of_eq hkey.symm
  · exact Nat.le_of_lt (hkey ▸ (List.pairwise_cons.mp hsorted).1 v hv)

theorem order (h : Indexed t chains run) {front back : List ℕ} {n m : ℕ} (hsplit : chains 0 = front ++ n :: back)
    (hm : m ∈ back) : ∀ v ∈ run n, (t.vnode v).key < (t.mainIndex.inode m).minKey := by
  intro v hv
  have hord := (List.pairwise_flatMap.mp h.sorted).2
  rw [hsplit] at hord
  obtain ⟨d, l, hrun, -, hkey⟩ := h.first m (by simp [hsplit, hm])
  have hlt := (List.pairwise_cons.mp (List.pairwise_append.mp hord).2.1).1 m hm v hv d (by simp [hrun])
  exact hkey ▸ hlt

theorem min_lt (h : Indexed t chains run) {front back : List ℕ} {n m : ℕ} (hsplit : chains 0 = front ++ n :: back)
    (hm : m ∈ back) : (t.mainIndex.inode n).minKey < (t.mainIndex.inode m).minKey := by
  obtain ⟨d, l, hrun, -, hkey⟩ := h.first n (by simp [hsplit])
  rw [← hkey]
  exact h.order hsplit hm d (by simp [hrun])

theorem max_le (h : Indexed t chains run) {front back : List ℕ} {n m : ℕ} (hsplit : chains 0 = front ++ n :: back)
    (hm : m ∈ back) : (t.mainIndex.inode n).maxKey ≤ (t.mainIndex.inode m).minKey := by
  have habut := h.shape.abut 0 (by decide)
  rw [hsplit] at habut
  cases back with
  | nil => simp at hm
  | cons b back =>
    have hmax : (t.mainIndex.inode n).maxKey = (t.mainIndex.inode b).minKey := (abut_append.mp habut).2.1
    rcases List.mem_cons.mp hm with rfl | hm
    · exact Nat.le_of_eq hmax
    · have hlt := h.min_lt (show chains 0 = (front ++ [n]) ++ b :: back by simp [hsplit]) hm
      omega

theorem cut (h : Indexed t chains run) {front back : List ℕ} {n : ℕ} (hsplit : chains 0 = front ++ n :: back) :
    ∃ d l, run n = d :: l ∧ (t.mainIndex.inode n).down = d ∧ (t.vnode d).key = (t.mainIndex.inode n).minKey ∧
      vnodes chains run = front.flatMap run ++ d :: (l ++ back.flatMap run) ∧
      Chain t.vnext t.head (front.flatMap run) d ∧ Chain t.vnext d (l ++ back.flatMap run) (-1) := by
  obtain ⟨d, l, hrun, hdown, hkey⟩ := h.first n (by simp [hsplit])
  have hv : vnodes chains run = front.flatMap run ++ d :: (l ++ back.flatMap run) := by
    simp [vnodes, hsplit, hrun]
  have hchain := h.chain
  rw [hv] at hchain
  exact ⟨d, l, hrun, hdown, hkey, hv, chain_append.mp hchain⟩

theorem lookup_eq (h : Indexed t chains run) {v : ℕ} (hv : v ∈ vnodes chains run) :
    t.lookup (t.vnode v).key = some (t.vnode v).value := by
  obtain ⟨n₀, hn₀, hv₀⟩ := List.mem_flatMap.mp hv
  have hle := h.min_le hn₀ hv₀
  have hpos : 0 < (t.vnode v).key := Nat.lt_of_lt_of_le (h.shape.min_pos 0 (by decide) n₀ hn₀) hle
  rcases h.shape.lookup_found hpos with ⟨-, hfirst⟩ | ⟨n, hlook, front, back, hsplit, hmin, -⟩
  · -- the first inode does not begin beyond any covered key
    exfalso
    obtain ⟨f, l, hc⟩ := List.exists_cons_of_ne_nil (List.ne_nil_of_mem hn₀)
    have hf := hfirst f (by simp [hc])
    rw [hc] at hn₀
    rcases List.mem_cons.mp hn₀ with rfl | hn₀
    · omega
    · have := h.min_lt (show chains 0 = [] ++ f :: l from hc) hn₀
      omega
  · obtain ⟨d, l, hrun, hdown, hkey, hvs, -, hchain⟩ := h.cut hsplit
    have hd : d ∈ vnodes chains run := by simp [hvs]
    have hsorted := h.sorted
    rw [hvs] at hsorted
    have hmem : v ∈ d :: (l ++ back.flatMap run) := by
      rw [hvs] at hv
      refine (List.mem_append.mp hv).resolve_left fun hfront => ?_
      have hlt : (t.vnode v).key < (t.vnode d).key := (List.pairwise_append.mp hsorted).2.2 v hfront d (by simp)
      omega
    have hlt : ∀ w ∈ t.head :: (front.flatMap run ++ d :: (l ++ back.flatMap run)), w < vnodeNum :=
      fun w hw => h.lt_vnodeNum (hvs ▸ hw)
    have hlen := length_le_of_nodup (hvs ▸ h.nodup) hlt
    simp only [List.length_cons, List.length_append] at hlen
    have hfind := valueFind_spec vnodeNum hchain (List.pairwise_append.mp hsorted).2.1 hmem
      (fun w hw => hlt w (by rcases List.mem_append.mp hw with hw | hw <;> simp [hw]))
      (by rw [List.length_append]; omega)
    simp [lookup, hlook, hdown, nodeAt_of_lt (h.lt_vnodeNum (List.mem_cons_of_mem _ hd)), hfind]

end Indexed

/-! ## Placing a vnode -/

/-- A new vnode from the pool, with its key and value. -/
def withVnode (t : TandemIndex) (key value : ℕ) : TandemIndex :=
  ({ t with vCurrentIdx := t.vCurrentIdx + 1 } : TandemIndex).setVnode t.vCurrentIdx key value

section WithVnode
variable (t : TandemIndex) (key value : ℕ)

@[simp] theorem withVnode_mainIndex : (t.withVnode key value).mainIndex = t.mainIndex := rfl
@[simp] theorem withVnode_head : (t.withVnode key value).head = t.head := rfl
@[simp] theorem withVnode_vCurrentIdx : (t.withVnode key value).vCurrentIdx = t.vCurrentIdx + 1 := rfl

@[simp] theorem withVnode_key : ((t.withVnode key value).vnode t.vCurrentIdx).key = key := by
  simp [withVnode, setVnode]

@[simp] theorem withVnode_value : ((t.withVnode key value).vnode t.vCurrentIdx).value = value := by
  simp [withVnode, setVnode]

theorem withVnode_of_ne {v : ℕ} (h : v ≠ t.vCurrentIdx) : (t.withVnode key value).vnode v = t.vnode v :=
  by rw [withVnode, setVnode, modifyVnode_of_ne _ _ _ h]

end WithVnode

theorem key_lt_of_mem_takeWhile {t : TandemIndex} {key v : ℕ} {l : List ℕ}
    (hv : v ∈ l.takeWhile (t.before key)) : (t.vnode v).key < key :=
  of_decide_eq_true (List.all_eq_true.mp List.all_takeWhile v hv)

theorem not_before_of_mem_dropWhile {t : TandemIndex} {key v : ℕ} {l : List ℕ} (hsorted : l.Pairwise t.KeyLe)
    (hv : v ∈ l.dropWhile (t.before key)) : key ≤ (t.vnode v).key := by
  induction l with
  | nil => simp at hv
  | cons x l ih =>
    by_cases hx : (t.vnode x).key < key
    · rw [List.dropWhile_cons_of_pos (by simpa [before] using hx)] at hv
      exact ih (List.pairwise_cons.mp hsorted).2 hv
    · rw [List.dropWhile_cons_of_neg (by simpa [before] using hx)] at hv
      rcases List.mem_cons.mp hv with rfl | hv
      · exact Nat.le_of_not_lt hx
      · exact (Nat.le_of_not_lt hx).trans ((List.pairwise_cons.mp hsorted).1 v hv)

theorem span_append {p : ℕ → Bool} (l₁ : List ℕ) {l₂ : List ℕ} (h : ∀ v ∈ l₂, p v = false) :
    (l₁ ++ l₂).takeWhile p = l₁.takeWhile p ∧ (l₁ ++ l₂).dropWhile p = l₁.dropWhile p ++ l₂ := by
  induction l₁ with
  | nil =>
    cases l₂ with
    | nil => exact ⟨rfl, rfl⟩
    | cons x l₂ => simp [h x List.mem_cons_self]
  | cons x l₁ ih => cases hx : p x <;> simp [hx, ih]

namespace Indexed
open Shape
variable {t t' : TandemIndex} {chains run : ℕ → List ℕ}

theorem of_vnode (h : Indexed t chains run) (hmain : t'.mainIndex = t.mainIndex) (hhead : t'.head = t.head)
    (hidx : t.vCurrentIdx ≤ t'.vCurrentIdx) (hused : t'.vCurrentIdx ≤ vnodeNum)
    (hsame : ∀ v ∈ t.head :: vnodes chains run, t'.vnode v = t.vnode v) : Indexed t' chains run := by
  have hmem : ∀ v ∈ vnodes chains run, t'.vnode v = t.vnode v := fun v hv => hsame v (List.mem_cons_of_mem _ hv)
  refine ⟨hmain ▸ h.shape, hmain ▸ h.tails, hmain ▸ h.top, hused, fun v hv => ?_, hhead ▸ h.head, ?_, ?_,
    fun n hn => ?_, hmain ▸ h.count⟩
  · exact Nat.lt_of_lt_of_le (h.lt v (hhead ▸ hv)) hidx
  · rw [hhead]
    exact h.chain.congr (by rw [vnext, hsame _ List.mem_cons_self]; rfl) fun v hv => by rw [vnext, hmem v hv]; rfl
  · refine List.Pairwise.imp_of_mem (fun {v w} hv hw hlt => ?_) h.sorted
    rw [KeyLt, hmem v hv, hmem w hw]
    exact hlt
  · obtain ⟨d, l, hrun, hdown, hkey⟩ := h.first n hn
    refine ⟨d, l, hrun, hmain ▸ hdown, ?_⟩
    rw [hmem d (mem_vnodes hn (by simp [hrun])), hmain, hkey]

theorem withVnode (h : Indexed t chains run) (hroom : t.vCurrentIdx < vnodeNum) (key value : ℕ) :
    Indexed (t.withVnode key value) chains run := by
  refine h.of_vnode rfl rfl (Nat.le_succ _) hroom fun v hv => t.withVnode_of_ne key value ?_
  exact Nat.ne_of_lt (h.lt v hv)

end Indexed

theorem vnodes_update {chains : ℕ → List ℕ} (run : ℕ → List ℕ) {front back : List ℕ} {n : ℕ}
    (l : List ℕ) (hsplit : chains 0 = front ++ n :: back) (hnd : (chains 0).Nodup) :
    vnodes chains (Function.update run n l) = front.flatMap run ++ (l ++ back.flatMap run) := by
  rw [hsplit] at hnd
  obtain ⟨-, hb, hdis⟩ := List.nodup_append.mp hnd
  have hsame : ∀ k : List ℕ, n ∉ k → k.flatMap (Function.update run n l) = k.flatMap run := fun k hk =>
    List.flatMap_congr fun x hx => by rw [Function.update_of_ne (fun he : x = n => hk (he ▸ hx))]
  rw [vnodes, hsplit, List.flatMap_append, List.flatMap_cons, Function.update_self,
    hsame front fun hf => hdis n hf n (by simp) rfl, hsame back (List.nodup_cons.mp hb).1]

theorem vnodes_update_perm {chains run : ℕ → List ℕ} {front back l : List ℕ} {n v : ℕ}
    (hsplit : chains 0 = front ++ n :: back) (hnd : (chains 0).Nodup) (hl : l.Perm (v :: run n)) :
    (vnodes chains (Function.update run n l)).Perm (v :: vnodes chains run) := by
  have hold : vnodes chains run = front.flatMap run ++ (run n ++ back.flatMap run) := by simp [vnodes, hsplit]
  rw [vnodes_update run l hsplit hnd, hold]
  exact ((hl.append_right _).append_left _).trans List.perm_middle

theorem pairwise_insert {R : ℕ → ℕ → Prop} {l₁ l₂ : List ℕ} {x : ℕ} (h : (l₁ ++ l₂).Pairwise R)
    (h₁ : ∀ a ∈ l₁, R a x) (h₂ : ∀ b ∈ l₂, R x b) : (l₁ ++ x :: l₂).Pairwise R := by
  obtain ⟨hl₁, hl₂, hcross⟩ := List.pairwise_append.mp h
  refine List.pairwise_append.mpr ⟨hl₁, List.pairwise_cons.mpr ⟨h₂, hl₂⟩, fun a ha b hb => ?_⟩
  rcases List.mem_cons.mp hb with rfl | hb
  · exact h₁ a ha
  · exact hcross a ha b hb

/-- A run `d :: l` with the new node `v` in its place. -/
def placeIn (t : TandemIndex) (v d : ℕ) (l : List ℕ) : List ℕ :=
  d :: (l.takeWhile (t.before (t.vnode v).key) ++ v :: l.dropWhile (t.before (t.vnode v).key))

theorem placeIn_perm (t : TandemIndex) (v d : ℕ) (l : List ℕ) : (t.placeIn v d l).Perm (v :: d :: l) := by
  unfold placeIn
  refine (List.Perm.cons d List.perm_middle).trans ?_
  rw [List.takeWhile_append_dropWhile]
  exact List.Perm.swap v d l

theorem placeIn_sorted {t : TandemIndex} {v d : ℕ} {l₁ l l₂ : List ℕ}
    (hsorted : (l₁ ++ d :: (l ++ l₂)).Pairwise t.KeyLt) (hd : t.KeyLt d v) (hl₂ : ∀ w ∈ l₂, t.KeyLt v w)
    (hne : ∀ w ∈ l, (t.vnode w).key ≠ (t.vnode v).key) :
    (l₁ ++ (t.placeIn v d l ++ l₂)).Pairwise t.KeyLt := by
  let p := t.before (t.vnode v).key
  have hcut : (l₁ ++ d :: l.takeWhile p) ++ (l.dropWhile p ++ l₂) = l₁ ++ d :: (l ++ l₂) := by
    simp only [List.append_assoc, List.cons_append]
    rw [← List.append_assoc (l.takeWhile p), List.takeWhile_append_dropWhile]
  have hplace : l₁ ++ (t.placeIn v d l ++ l₂) = (l₁ ++ d :: l.takeWhile p) ++ v :: (l.dropWhile p ++ l₂) := by
    simp [placeIn, p]
  obtain ⟨-, hdl, hcross⟩ := List.pairwise_append.mp hsorted
  have hl : l.Pairwise t.KeyLt := (List.pairwise_append.mp (List.pairwise_cons.mp hdl).2).1
  rw [hplace]
  refine pairwise_insert (hcut ▸ hsorted) (fun a ha => ?_) fun b hb => ?_
  · rcases List.mem_append.mp ha with ha | ha
    · exact Nat.lt_trans (hcross a ha d (by simp)) hd
    · rcases List.mem_cons.mp ha with rfl | ha
      · exact hd
      · exact key_lt_of_mem_takeWhile ha
  · rcases List.mem_append.mp hb with hb | hb
    · have hle := not_before_of_mem_dropWhile (hl.imp Nat.le_of_lt) hb
      exact Nat.lt_of_le_of_ne hle (hne b ((List.dropWhile_suffix p).subset hb)).symm
    · exact hl₂ b hb

namespace Indexed
open Shape
variable {t t' : TandemIndex} {chains run : ℕ → List ℕ}

theorem beyond (h : Indexed t chains run) {front back : List ℕ} {n key : ℕ}
    (hsplit : chains 0 = front ++ n :: back) (hmax : back = [] ∨ key ≤ (t.mainIndex.inode n).maxKey)
    (hnew : ∀ w ∈ vnodes chains run, (t.vnode w).key ≠ key) :
    ∀ w ∈ back.flatMap run, key < (t.vnode w).key := by
  intro w hw
  obtain ⟨m, hm, hwm⟩ := List.mem_flatMap.mp hw
  have hm₀ : m ∈ chains 0 := by simp [hsplit, hm]
  have h₁ := h.max_le hsplit hm
  have h₂ := h.min_le hm₀ hwm
  have h₃ := hmax.resolve_left (List.ne_nil_of_mem hm)
  have h₄ := hnew w (mem_vnodes hm₀ hwm)
  omega

theorem place_inode (h : Indexed t chains run) {n v : ℕ} (hcov : Covering t.mainIndex chains 0 (t.vnode v).key n)
    (hv : v < t.vCurrentIdx) (hfresh : v ∉ t.head :: vnodes chains run)
    (hnew : ∀ w ∈ vnodes chains run, (t.vnode w).key ≠ (t.vnode v).key) :
    ∃ d t' rest run', nodeAt vnodeNum (t.mainIndex.inode n).down = some d ∧ t.valueInsert d v = some t' ∧
      Placed t t' d v rest ∧ Indexed t' chains run' ∧ (run' n).length = (run n).length + 1 ∧
      (∀ m, m ≠ n → run' m = run m) ∧ (vnodes chains run').Perm (v :: vnodes chains run) := by
  obtain ⟨front, back, hsplit, hmin, hmax⟩ := hcov
  obtain ⟨d, l, hrun, hdown, hkey, hvs, hfront, hrest⟩ := h.cut hsplit
  have hnd₀ := h.shape.toChained.chain_nodup (i := 0) (by decide)
  have hbeyond := h.beyond hsplit hmax hnew
  have hd : d < vnodeNum := h.lt_vnodeNum (by simp [hvs])
  have hdv : t.KeyLt d v := Nat.lt_of_le_of_ne (hkey ▸ hmin) (hnew d (by simp [hvs]))
  have hnd : ((t.head :: front.flatMap run) ++ d :: (l ++ back.flatMap run)).Nodup := by
    rw [List.cons_append, ← hvs]
    exact h.nodup
  have hfresh' : v ∉ (t.head :: front.flatMap run) ++ d :: (l ++ back.flatMap run) := by
    rw [List.cons_append, ← hvs]
    exact hfresh
  obtain ⟨-, hndd, hoff⟩ := List.nodup_append.mp hnd
  obtain ⟨t', hins, hp⟩ := valueInsert_spec v hrest
    (List.nodup_cons.mpr ⟨fun hm => hfresh' (List.mem_append_right _ hm), hndd⟩)
    (fun w hw => by
      rcases List.mem_cons.mp hw with rfl | hw
      · exact Nat.lt_of_lt_of_le hv h.used
      · exact h.lt_vnodeNum (by rw [hvs]; exact List.mem_cons_of_mem _ (List.mem_append_right _ hw)))
  have hperm : (t.placeIn v d l).Perm (v :: run n) := hrun ▸ t.placeIn_perm v d l
  have hvs' := vnodes_update run (t.placeIn v d l) hsplit hnd₀
  have hall := vnodes_update_perm hsplit hnd₀ hperm
  have hkeys : t'.KeyLt = t.KeyLt := by
    funext a b
    rw [KeyLt, KeyLt, hp.key, hp.key]
  refine ⟨d, t', _, _, by rw [hdown, nodeAt_of_lt hd], hins, hp, ?_,
    by rw [Function.update_self]; exact hperm.length_eq, fun m hm => Function.update_of_ne hm _ _, hall⟩
  refine ⟨hp.mainIndex ▸ h.shape, hp.mainIndex ▸ h.tails, hp.mainIndex ▸ h.top, hp.vCurrentIdx ▸ h.used,
    ?_, ?_, ?_, ?_, ?_, ?_⟩
  · intro w hw
    rw [hp.vCurrentIdx]
    rcases List.mem_cons.mp hw with rfl | hw
    · exact h.lt _ (by rw [hp.head]; simp)
    · rcases List.mem_cons.mp (hall.mem_iff.mp hw) with rfl | hw
      · exact hv
      · exact h.lt w (List.mem_cons_of_mem _ hw)
  · rw [hp.head, hall.mem_iff, List.mem_cons]
    rintro (he | hm)
    · exact hfresh (he ▸ List.mem_cons_self)
    · exact h.head hm
  · -- the links before the run are as they were
    have hsame : ∀ w ∈ t.head :: front.flatMap run, t'.vnext w = t.vnext w := fun w hw => by
      have hne : w ≠ v := fun he => hfresh' (List.mem_append_left _ (he ▸ hw))
      rw [vnext, hp.other w hne fun hm => hoff w hw w hm rfl]
      rfl
    obtain ⟨htake, hdrop⟩ := span_append (p := t.before (t.vnode v).key) l fun w hw =>
      decide_eq_false (Nat.not_lt_of_gt (hbeyond w hw))
    have hchain := hp.chain
    rw [htake, hdrop] at hchain
    rw [hp.head, hvs']
    simp only [placeIn, List.cons_append, List.append_assoc]
    exact chain_append.mpr ⟨hfront.congr (hsame _ List.mem_cons_self)
      fun w hw => hsame w (List.mem_cons_of_mem _ hw), hchain⟩
  · rw [hkeys, hvs']
    exact placeIn_sorted (hvs ▸ h.sorted) hdv hbeyond fun w hw => hnew w (by simp [hvs, hw])
  · intro m hm
    obtain ⟨d', k, hrun', hdown', hkey'⟩ := h.first m hm
    rw [hp.mainIndex]
    by_cases hmn : m = n
    · subst hmn
      rw [Function.update_self]
      exact ⟨d, _, rfl, hdown, by rw [hp.key, hkey]⟩
    · rw [Function.update_of_ne hmn]
      exact ⟨d', k, hrun', hdown', by rw [hp.key, hkey']⟩
  · intro m hm
    have hc := h.count m hm
    rw [hp.mainIndex]
    by_cases hmn : m = n
    · subst hmn
      rw [Function.update_self, hperm.length_eq, List.length_cons]
      omega
    · rw [Function.update_of_ne hmn]
      exact hc

end Indexed

end TandemIndex

end Hkv.Tandem
