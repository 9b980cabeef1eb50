import Hkv.TandemShape

/-!
# The value chain

Every value node is on one chain behind the list head. Searching, inserting and counting
along it are functions of the list of nodes that the chain visits.
-/
namespace Hkv.Tandem
open LinkedChain

namespace TandemIndex
variable {t : TandemIndex}

section Modify
variable (t : TandemIndex) (id : ℕ) (f : Vnode → Vnode)

@[simp] theorem modifyVnode_self : (t.modifyVnode id f).vnode id = f (t.vnode id) := by simp [modifyVnode]

theorem modifyVnode_of_ne {v : ℕ} (h : v ≠ id) : (t.modifyVnode id f).vnode v = t.vnode v := by
  simp [modifyVnode, h]

@[simp] theorem modifyVnode_mainIndex : (t.modifyVnode id f).mainIndex = t.mainIndex := rfl
@[simp] theorem modifyVnode_head : (t.modifyVnode id f).head = t.head := rfl
@[simp] theorem modifyVnode_vCurrentIdx : (t.modifyVnode id f).vCurrentIdx = t.vCurrentIdx := rfl

end Modify

/-- The link of a value node. -/
def vnext (t : TandemIndex) (v : ℕ) : ℤ := (t.vnode v).next

/-- The nodes that come before `key`. -/
def before (t : TandemIndex) (key v : ℕ) : Bool := decide ((t.vnode v).key < key)

theorem valueWalk_spec {cur : ℕ} {l : List ℕ} (key fuel : ℕ) (hchain : Chain t.vnext cur l (-1))
    (hlt : ∀ v ∈ l, v < vnodeNum) (hfuel : l.length < fuel) :
    t.valueWalk key fuel cur = some ((l.takeWhile (t.before key)).getLastD cur) := by
  induction l generalizing cur fuel with
  | nil =>
    obtain ⟨fuel, rfl⟩ := Nat.exists_eq_succ_of_ne_zero (Nat.ne_of_gt hfuel)
    have hnext : (t.vnode cur).next = -1 := hchain
    simp [valueWalk, hnext, nodeAt]
  | cons x l ih =>
    obtain ⟨fuel, rfl⟩ := Nat.exists_eq_succ_of_ne_zero (Nat.ne_of_gt (Nat.lt_of_le_of_lt (Nat.zero_le _) hfuel))
    have hnext : (t.vnode cur).next = (x : ℤ) := hchain.1
    simp only [valueWalk, hnext, DramSkiplist.nodeAt_of_lt (hlt x List.mem_cons_self)]
    by_cases hkey : (t.vnode x).key < key
    · rw [if_pos hkey, ih fuel hchain.2 (fun v hv => hlt v (List.mem_cons_of_mem _ hv)) (by simpa using hfuel),
        List.takeWhile_cons_of_pos (by simpa [before] using hkey)]
      rw [List.getLastD_cons]
    · rw [if_neg hkey, List.takeWhile_cons_of_neg (by simpa [before] using hkey)]
      rfl

theorem valueWalk_congr {t' : TandemIndex} {cur : ℕ} {l : List ℕ} (key fuel : ℕ)
    (hchain : Chain t.vnext cur l (-1)) (hlt : ∀ v ∈ l, v < vnodeNum)
    (h : ∀ v ∈ cur :: l, t'.vnode v = t.vnode v) :
    t'.valueWalk key fuel cur = t.valueWalk key fuel cur := by
  induction l generalizing cur fuel with
  | nil =>
    have hnext : (t.vnode cur).next = -1 := hchain
    cases fuel with
    | zero => rfl
    | succ fuel => simp [valueWalk, h cur List.mem_cons_self, hnext, nodeAt]
  | cons x l ih =>
    have hnext : (t.vnode cur).next = (x : ℤ) := hchain.1
    have hrest := ih (fuel - 1) hchain.2 (fun v hv => hlt v (List.mem_cons_of_mem _ hv))
      fun v hv => h v (List.mem_cons_of_mem _ hv)
    cases fuel with
    | zero => rfl
    | succ fuel =>
      simp only [valueWalk, h cur List.mem_cons_self, hnext, DramSkiplist.nodeAt_of_lt (hlt x List.mem_cons_self),
        h x (List.mem_cons_of_mem _ List.mem_cons_self)]
      rw [show t'.valueWalk key fuel x = t.valueWalk key fuel x from hrest]

/-- `t'` is `t` with vnode `new` linked in behind `start`, before the first node of the
rest `l` that does not come before it. -/
structure Placed (t t' : TandemIndex) (start new : ℕ) (l : List ℕ) : Prop where
  mainIndex : t'.mainIndex = t.mainIndex
  head : t'.head = t.head
  vCurrentIdx : t'.vCurrentIdx = t.vCurrentIdx
  key : ∀ v, (t'.vnode v).key = (t.vnode v).key
  value : ∀ v, (t'.vnode v).value = (t.vnode v).value
  chain : Chain t'.vnext start (l.takeWhile (t.before (t.vnode new).key) ++
    new :: l.dropWhile (t.before (t.vnode new).key)) (-1)
  other : ∀ v, v ≠ new → v ∉ start :: l → t'.vnode v = t.vnode v

theorem valueInsert_spec {start : ℕ} (new : ℕ) {l : List ℕ} (hchain : Chain t.vnext start l (-1))
    (hnd : (new :: start :: l).Nodup) (hlt : ∀ v ∈ new :: start :: l, v < vnodeNum) :
    ∃ t', t.valueInsert start new = some t' ∧ Placed t t' start new l := by
  have hlen := length_le_of_nodup hnd hlt
  simp only [List.length_cons] at hlen
  let p := t.before (t.vnode new).key
  let c := (l.takeWhile p).getLastD start
  have hwalk : t.valueWalk (t.vnode new).key vnodeNum start = some c :=
    valueWalk_spec _ vnodeNum hchain (fun v hv => hlt v (by simp [hv])) (by omega)
  have hc : c ∈ start :: l :=
    List.cons_subset_cons start (List.takeWhile_prefix p).subset List.getLastD_mem_cons
  have hnc : new ≠ c := fun he => (List.nodup_cons.mp hnd).1 (he ▸ hc)
  let t₁ := t.modifyVnode new fun n => { n with next := (t.vnode c).next }
  let t' := t₁.modifyVnode c fun n => { n with next := new }
  have hnew : t'.vnode new = { t.vnode new with next := (t.vnode c).next } := by
    rw [modifyVnode_of_ne _ _ _ hnc, modifyVnode_self]
  have hpred : t'.vnode c = { t.vnode c with next := new } := by
    rw [modifyVnode_self, modifyVnode_of_ne _ _ _ hnc.symm]
  have hother : ∀ v, v ≠ new → v ≠ c → t'.vnode v = t.vnode v := fun v h₁ h₂ => by
    rw [modifyVnode_of_ne _ _ _ h₂, modifyVnode_of_ne _ _ _ h₁]
  have hlink : t'.vnext = Function.update (Function.update t.vnext new (t.vnext c)) c new := by
    funext v
    by_cases h₂ : v = c
    · rw [h₂, Function.update_self, vnext, hpred]
    · rw [Function.update_of_ne h₂]
      by_cases h₁ : v = new
      · rw [h₁, Function.update_self, vnext, hnew]
        rfl
      · rw [Function.update_of_ne h₁, vnext, hother v h₁ h₂]
        rfl
  have hdata : ∀ v, (t'.vnode v).key = (t.vnode v).key ∧ (t'.vnode v).value = (t.vnode v).value := fun v => by
    by_cases h₂ : v = c
    · rw [h₂, hpred]
      exact ⟨rfl, rfl⟩
    · by_cases h₁ : v = new
      · rw [h₁, hnew]
        exact ⟨rfl, rfl⟩
      · rw [hother v h₁ h₂]
        exact ⟨rfl, rfl⟩
  refine ⟨t', by simp only [valueInsert, hwalk]; rfl, rfl, rfl, rfl, fun v => (hdata v).1, fun v => (hdata v).2,
    ?_, fun v h₁ h₂ => hother v h₁ fun he => h₂ (he ▸ hc)⟩
  rw [hlink]
  exact Chain.insert (by rwa [List.takeWhile_append_dropWhile]) (by rwa [List.takeWhile_append_dropWhile])

theorem valueFind_spec {cur v : ℕ} {l : List ℕ} (fuel : ℕ) (hchain : Chain t.vnext cur l (-1))
    (hsorted : (cur :: l).Pairwise fun v w => (t.vnode v).key < (t.vnode w).key) (hv : v ∈ cur :: l)
    (hlt : ∀ w ∈ l, w < vnodeNum) (hfuel : l.length < fuel) :
    t.valueFind (t.vnode v).key fuel cur = some (t.vnode v).value := by
  induction l generalizing cur fuel with
  | nil =>
    obtain ⟨fuel, rfl⟩ := Nat.exists_eq_succ_of_ne_zero (Nat.ne_of_gt hfuel)
    obtain rfl : v = cur := List.mem_singleton.mp hv
    simp [valueFind]
  | cons x l ih =>
    obtain ⟨fuel, rfl⟩ := Nat.exists_eq_succ_of_ne_zero (Nat.ne_of_gt (Nat.lt_of_le_of_lt (Nat.zero_le _) hfuel))
    rcases List.mem_cons.mp hv with rfl | hv
    · simp [valueFind]
    · have hkey := (List.pairwise_cons.mp hsorted).1 v hv
      have hnext : (t.vnode cur).next = (x : ℤ) := hchain.1
      rw [valueFind, if_neg (Nat.ne_of_lt hkey), if_neg (Nat.not_lt_of_gt hkey), hnext,
        DramSkiplist.nodeAt_of_lt (hlt x List.mem_cons_self)]
      exact ih fuel hchain.2 (List.pairwise_cons.mp hsorted).2 hv
        (fun w hw => hlt w (List.mem_cons_of_mem _ hw)) (by simpa using hfuel)

theorem advance_spec {cur v : ℕ} {l front : List ℕ} (hchain : Chain t.vnext cur l (-1))
    (hlt : ∀ w ∈ l, w < vnodeNum) (back : List ℕ) (hsplit : cur :: l = front ++ v :: back) :
    t.advance front.length cur = some v := by
  induction front generalizing cur l with
  | nil =>
    obtain rfl : cur = v := (List.cons.inj hsplit).1
    rfl
  | cons y front ih =>
    obtain ⟨rfl, hl⟩ := List.cons.inj hsplit
    obtain ⟨x, l', hx⟩ : ∃ x l', l = x :: l' := by
      rw [hl]
      cases front <;> simp
    rw [hx] at hchain hlt hl
    have hnext : (t.vnode cur).next = (x : ℤ) := hchain.1
    rw [List.length_cons, advance, hnext, DramSkiplist.nodeAt_of_lt (hlt x List.mem_cons_self)]
    exact ih hchain.2 (fun w hw => hlt w (List.mem_cons_of_mem _ hw)) hl

end TandemIndex

end Hkv.Tandem
