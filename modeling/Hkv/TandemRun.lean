import Hkv.TandemStep

/-!
# Runs of inserts

What an insert of a new key does to the ranges, if the split that it may make is regular,
and runs of inserts from the empty index.
-/
namespace Hkv.Tandem
open LinkedChain DramSkiplist

namespace DramSkiplist

/-! ## The empty index -/

/-- The nodes handed out lie before the untouched rest of the pool. -/
structure Pooled (s : DramSkiplist) : Prop where
  fresh : ∀ n, s.currentIdx ≤ n → s.inode n = poolInode
  header_lt : ∀ j, s.header j < s.currentIdx
  tail_lt : ∀ j, s.tail j < s.currentIdx

namespace Pooled
variable {s s' : DramSkiplist} {i id : ℕ}

theorem modify (h : Pooled s) (hid : id < s.currentIdx) (f : Inode → Inode) : Pooled (s.modify id f) :=
  ⟨fun n hn => by
    have hn' : s.currentIdx ≤ n := hn
    rw [modify_of_ne _ _ _ (by omega), h.fresh n hn'], h.header_lt, h.tail_lt⟩

theorem getNextNode (h : Pooled s) (hrun : s.getNextNode = some (id, s')) : Pooled s' ∧ id < s'.currentIdx := by
  unfold DramSkiplist.getNextNode at hrun
  split at hrun
  · cases hrun
    exact ⟨⟨fun n hn => h.fresh n (Nat.le_of_succ_le hn), fun j => Nat.lt_succ_of_lt (h.header_lt j),
      fun j => Nat.lt_succ_of_lt (h.tail_lt j)⟩, Nat.lt_succ_self _⟩
  · cases hrun

theorem setHeader (h : Pooled s) (hid : id < s.currentIdx) :
    Pooled { s with header := Function.update s.header i id } := by
  refine ⟨h.fresh, fun j => ?_, h.tail_lt⟩
  show Function.update s.header i id j < s.currentIdx
  rw [Function.update_apply]
  split
  exacts [hid, h.header_lt j]

theorem setTail (h : Pooled s) (hid : id < s.currentIdx) :
    Pooled { s with tail := Function.update s.tail i id } := by
  refine ⟨h.fresh, h.header_lt, fun j => ?_⟩
  show Function.update s.tail i id j < s.currentIdx
  rw [Function.update_apply]
  split
  exacts [hid, h.tail_lt j]

theorem headerLoop (h : Pooled s) (hrun : DramSkiplist.headerLoop i s = some s') : Pooled s' := by
  induction i generalizing s with
  | zero => exact Option.some.inj hrun ▸ h
  | succ i ih =>
    simp only [DramSkiplist.headerLoop, Option.bind_eq_bind, Option.bind_eq_some_iff] at hrun
    obtain ⟨⟨id, s₁⟩, hnext, hrest⟩ := hrun
    obtain ⟨h₁, hid⟩ := h.getNextNode hnext
    exact ih (((h₁.modify (h₁.header_lt _) _).modify hid _).setHeader hid) hrest

theorem tailLoop (h : Pooled s) (hrun : DramSkiplist.tailLoop i s = some s') : Pooled s' := by
  induction i generalizing s with
  | zero => exact Option.some.inj hrun ▸ h
  | succ i ih =>
    simp only [DramSkiplist.tailLoop, Option.bind_eq_bind, Option.bind_eq_some_iff] at hrun
    obtain ⟨⟨id, s₁⟩, hnext, hrest⟩ := hrun
    obtain ⟨h₁, hid⟩ := h.getNextNode hnext
    exact ih (((h₁.modify (h₁.tail_lt _) _).modify hid _).setTail hid) hrest

theorem joinLoop (h : Pooled s) : Pooled (joinLoop i s) ∧
    (DramSkiplist.joinLoop i s).currentIdx = s.currentIdx := by
  induction i with
  | zero => exact ⟨h, rfl⟩
  | succ i ih => exact ⟨ih.1.modify (ih.2 ▸ h.header_lt i) _, ih.2⟩

theorem new (hrun : DramSkiplist.new = some s) : Pooled s := by
  simp only [DramSkiplist.new, Option.bind_eq_bind, Option.bind_eq_some_iff] at hrun
  obtain ⟨⟨id, s₁⟩, hnext, s₂, hheader, ⟨id', s₃⟩, hnext', s₄, htail, hdone⟩ := hrun
  have h₁ : Pooled s₁ ∧ id < s₁.currentIdx := by
    cases hnext
    exact ⟨⟨fun _ _ => rfl, fun _ => Nat.zero_lt_one, fun _ => Nat.zero_lt_one⟩, Nat.zero_lt_one⟩
  have h₂ : Pooled s₂ := ((h₁.1.modify h₁.2 _).setHeader h₁.2).headerLoop hheader
  obtain ⟨h₃, hid⟩ := h₂.getNextNode hnext'
  have h₄ := ((h₃.setTail hid).tailLoop htail).joinLoop (i := maxLevel)
  cases hdone
  exact ⟨h₄.1.fresh, h₄.1.header_lt, h₄.1.tail_lt⟩

end Pooled

/-- The headers and tails of different levels are different nodes. -/
def Apart (s : DramSkiplist) : Prop :=
  ∀ i < maxLevel, ∀ j < maxLevel, i ≠ j →
    s.header i ≠ s.header j ∧ s.tail i ≠ s.tail j ∧ s.header i ≠ s.tail j ∧ s.tail i ≠ s.header j

/-- Every level is empty. -/
def Joined (s : DramSkiplist) : Prop :=
  ∀ i < maxLevel, s.header i ≠ s.tail i ∧ (s.inode (s.header i)).next = s.tail i ∧
    (s.inode (s.header i)).minKey = 0 ∧ (s.inode (s.header i)).maxKey = 0

instance (s : DramSkiplist) : Decidable (Apart s) := by unfold Apart; infer_instance
instance (s : DramSkiplist) : Decidable (Joined s) := by unfold Joined; infer_instance

/-- What the constructor leaves behind. -/
def Starting (s : DramSkiplist) : Prop :=
  s.level = 1 ∧ s.currentIdx = 2 * maxLevel ∧ Joined s ∧
    (∀ i < maxLevel - 1, (s.inode (s.header (i + 1))).down = s.header i ∧
      (s.inode (s.tail i)).minKey = Tandem.maxKey) ∧ Apart s

instance (s : DramSkiplist) : Decidable (Starting s) := by unfold Starting; infer_instance

theorem Starting.shape {s : DramSkiplist} (h : Starting s) (hp : Pooled s) : Shape s fun _ => [] := by
  obtain ⟨hlevel, hidx, hheader, hdown, hdis⟩ := h
  refine ⟨⟨⟨hlevel ▸ Nat.le_refl 1, by rw [hlevel]; decide, by rw [hidx]; decide, hp.fresh,
    fun i hi => (hheader i hi).2.1, fun i _ n hn => ?_, fun i hi => ?_, fun i hi j hj hij n hn hn' => ?_,
    fun i hi => (hheader i hi).2.2.1, fun i hi => (hheader i hi).2.2.2, fun i hi => (hdown i (by omega)).1,
    fun _ _ _ hn => absurd hn List.not_mem_nil⟩, fun _ _ => trivial⟩,
    fun _ _ _ hn => absurd hn List.not_mem_nil⟩
  · simp only [levelIds, List.mem_cons, List.not_mem_nil, or_false] at hn
    rcases hn with rfl | rfl
    exacts [hp.header_lt i, hp.tail_lt i]
  · simpa [levelIds] using (hheader i hi).1
  · obtain ⟨h₁, h₂, h₃, h₄⟩ := hdis i hi j hj hij
    simp only [levelIds, List.mem_cons, List.not_mem_nil, or_false] at hn hn'
    rcases hn with rfl | rfl <;> rcases hn' with he | he
    exacts [h₁ he, h₃ he, h₄ he, h₂ he]

end DramSkiplist

namespace TandemIndex
open Shape

theorem new_starting : ∀ t ∈ TandemIndex.new,
    Starting t.mainIndex ∧ t.vCurrentIdx = 1 ∧ t.head = 0 ∧ (t.vnode 0).next = -1 := by decide +kernel

theorem new_indexed {t : TandemIndex} (hnew : TandemIndex.new = some t) :
    Indexed t (fun _ => []) fun _ => [] := by
  obtain ⟨hs, hidx, hhead, hnext⟩ := new_starting t hnew
  have hp : Pooled t.mainIndex := by
    simp only [TandemIndex.new, Option.bind_eq_bind, Option.bind_eq_some_iff] at hnew
    obtain ⟨s, hmain, ⟨v, t₁⟩, -, hdone⟩ := hnew
    cases hdone
    have h := Pooled.new hmain
    show Pooled (s.linkVnodeToInode (s.header 0) v).2
    unfold linkVnodeToInode
    split
    · exact h.modify (h.header_lt 0) fun n => { n with down := v, coveredNodes := n.coveredNodes + 1 }
    · exact h
  refine ⟨hs.shape hp, fun i hi => ?_, Or.inl hs.1, by rw [hidx]; decide, fun v hv => ?_, by simp [vnodes],
    ?_, by simp [vnodes], fun _ hn => absurd hn List.not_mem_nil, fun _ hn => absurd hn List.not_mem_nil⟩
  · rw [(hs.2.2.2.1 i (by omega)).2]
    decide
  · simp only [vnodes, List.flatMap_nil, List.mem_singleton] at hv
    rw [hv, hhead, hidx]
    exact Nat.zero_lt_one
  · show t.vnext t.head = -1
    rw [hhead]
    exact hnext

/-- The key with which an insert calls `insertWhenRebalance`, if it does. -/
def splitKey (t : TandemIndex) (key value : ℕ) : Option ℕ := do
  let (v, t) ← t.getNextVnode
  let (inode, t) ← (t.setVnode v key value).place key v
  let inode ← inode
  let (full, s) := t.mainIndex.increaseCoveredNodesAndVerifyRebalance inode
  let t := { t with mainIndex := s }
  if full then do return (t.vnode (← t.splitNode inode)).key else none

/-- A bound on the lengths of the runs survives an insert just if it leaves room in the
run that the new vnode joins; a split makes room. -/
def KeepsBound (t : TandemIndex) (key value : ℕ) (chains run chains' run' : ℕ → List ℕ) : Prop :=
  ∀ b, 1 ≤ b → (∀ n ∈ chains 0, (run n).length ≤ b) → ((∀ n ∈ chains' 0, (run' n).length ≤ b) ↔
    (t.splitKey key value = none → ∀ n, t.mainIndex.lookup key = some (some n) → (run n).length < b))

/-- What an insert that returned did. -/
structure Inserted (t t' : TandemIndex) (chains run chains' run' : ℕ → List ℕ) (key value : ℕ) : Prop where
  indexed : Indexed t' chains' run'
  perm : (vnodes chains' run').Perm (t.vCurrentIdx :: vnodes chains run)
  new_key : (t'.vnode t.vCurrentIdx).key = key
  new_value : (t'.vnode t.vCurrentIdx).value = value
  old_key : ∀ v ∈ vnodes chains run, (t'.vnode v).key = (t.vnode v).key
  old_value : ∀ v ∈ vnodes chains run, (t'.vnode v).value = (t.vnode v).value
  /-- Without a split, the counts stay exact. -/
  kept : t.splitKey key value = none →
    t'.mainIndex.level = t.mainIndex.level ∧ (Exact t chains run → Exact t' chains' run')
  /-- A split counts the first node of the new inode in the old one. -/
  drifted : ∀ k ∈ t.splitKey key value, ∃ n ∈ chains' 0,
    (t'.mainIndex.inode n).coveredNodes = (run' n).length + 1

section Step
variable {t : TandemIndex} {chains run : ℕ → List ℕ} {key value newlevel : ℕ}

theorem Placed.inserted {t₂ t₃ : TandemIndex} {start : ℕ} {rest : List ℕ} {chains' run' : ℕ → List ℕ}
    (h : Indexed t chains run) (hp : Placed (t.withVnode key value) t₂ start t.vCurrentIdx rest)
    (hv : t₃.vnode = t₂.vnode) (hi : Indexed t₃ chains' run')
    (hperm : (vnodes chains' run').Perm (t.vCurrentIdx :: vnodes chains run))
    (hkept : t.splitKey key value = none →
      t₃.mainIndex.level = t.mainIndex.level ∧ (Exact t chains run → Exact t₃ chains' run'))
    (hdrift : ∀ k ∈ t.splitKey key value, ∃ n ∈ chains' 0,
      (t₃.mainIndex.inode n).coveredNodes = (run' n).length + 1) :
    Inserted t t₃ chains run chains' run' key value := by
  have hold : ∀ v ∈ vnodes chains run, (t.withVnode key value).vnode v = t.vnode v := fun v hv =>
    t.withVnode_of_ne key value (Nat.ne_of_lt (h.lt v (List.mem_cons_of_mem _ hv)))
  refine ⟨hi, hperm, ?_, ?_, fun v hm => ?_, fun v hm => ?_, hkept, hdrift⟩
  · rw [hv, hp.key, withVnode_key]
  · rw [hv, hp.value, withVnode_value]
  · rw [hv, hp.key, hold v hm]
  · rw [hv, hp.value, hold v hm]

theorem getNextVnode_eq (hroom : t.vCurrentIdx < vnodeNum) :
    t.getNextVnode = some (t.vCurrentIdx, { t with vCurrentIdx := t.vCurrentIdx + 1 }) := if_pos hroom

theorem insert_no_vnode (hroom : ¬ t.vCurrentIdx < vnodeNum) : t.insert key value newlevel = some (false, t) := by
  rw [insert, getNextVnode, if_neg hroom]

theorem insert_of_place_none {t₂ : TandemIndex} (hroom : t.vCurrentIdx < vnodeNum)
    (hplace : (t.withVnode key value).place key t.vCurrentIdx = some (none, t₂)) :
    t.insert key value newlevel = (t₂.mainIndex.insert key t.vCurrentIdx newlevel).bind fun r =>
      some (r.1, { t₂ with mainIndex := r.2 }) := by
  rw [insert, getNextVnode_eq hroom]
  show ((t.withVnode key value).place key t.vCurrentIdx).bind _ = _
  rw [hplace, Option.bind_some]
  rfl

theorem insert_of_place_some {t₂ : TandemIndex} {n : ℕ} (hroom : t.vCurrentIdx < vnodeNum)
    (hplace : (t.withVnode key value).place key t.vCurrentIdx = some (some n, t₂)) :
    t.insert key value newlevel = t₂.cover n newlevel := by
  rw [insert, getNextVnode_eq hroom]
  show ((t.withVnode key value).place key t.vCurrentIdx).bind _ = _
  rw [hplace, Option.bind_some]

/-- What an insert that returned did: there was no vnode left, or it placed one, and the index
took a new first inode or counted the vnode. -/
theorem insert_cases {ret : Bool} (hrun : t.insert key value newlevel = some (ret, t')) :
    (¬ t.vCurrentIdx < vnodeNum ∧ ret = false ∧ t' = t) ∨ (t.vCurrentIdx < vnodeNum ∧ ∃ o t₂,
      (t.withVnode key value).place key t.vCurrentIdx = some (o, t₂) ∧
      ((o = none ∧ ∃ s', t₂.mainIndex.insert key t.vCurrentIdx newlevel = some (ret, s') ∧
        t' = { t₂ with mainIndex := s' }) ∨ ∃ n, o = some n ∧ t₂.cover n newlevel = some (ret, t'))) := by
  by_cases hroom : t.vCurrentIdx < vnodeNum
  · right
    have hopen := hrun
    rw [insert, getNextVnode_eq hroom] at hopen
    obtain ⟨⟨o, t₂⟩, hplace, -⟩ := Option.bind_eq_some_iff.mp hopen
    refine ⟨hroom, o, t₂, hplace, ?_⟩
    cases o with
    | none =>
      rw [insert_of_place_none hroom hplace] at hrun
      obtain ⟨⟨b, s'⟩, hins, hdone⟩ := Option.bind_eq_some_iff.mp hrun
      cases hdone
      exact .inl ⟨rfl, s', hins, rfl⟩
    | some n => exact .inr ⟨n, rfl, insert_of_place_some hroom hplace ▸ hrun⟩
  · cases hrun.symm.trans (insert_no_vnode hroom)
    exact .inl ⟨hroom, rfl, rfl⟩

theorem place_cases {t₂ : TandemIndex} {o : Option ℕ} {v : ℕ} (hplace : t.place key v = some (o, t₂)) :
    t.mainIndex.lookup key = some o ∧ ∃ start, t.valueInsert start v = some t₂ ∧
      ((o = none ∧ start = t.head) ∨ ∃ n, o = some n ∧
        nodeAt vnodeNum (t.mainIndex.inode n).down = some start) := by
  obtain ⟨found, hlook, hrest⟩ := Option.bind_eq_some_iff.mp hplace
  cases found with
  | none =>
    obtain ⟨t₁, hins, hdone⟩ := Option.bind_eq_some_iff.mp hrest
    cases hdone
    exact ⟨hlook, t.head, hins, .inl ⟨rfl, rfl⟩⟩
  | some n =>
    obtain ⟨start, hstart, hrest⟩ := Option.bind_eq_some_iff.mp hrest
    obtain ⟨t₁, hins, hdone⟩ := Option.bind_eq_some_iff.mp hrest
    cases hdone
    exact ⟨hlook, start, hins, .inr ⟨n, rfl, hstart⟩⟩

theorem Indexed.new_vnode (h : Indexed t chains run) (value : ℕ)
    (hnew : ∀ w ∈ vnodes chains run, (t.vnode w).key ≠ key) :
    t.vCurrentIdx ∉ t.head :: vnodes chains run ∧
      ∀ w ∈ vnodes chains run, ((t.withVnode key value).vnode w).key ≠ key := by
  refine ⟨fun hm => Nat.lt_irrefl _ (h.lt _ hm), fun w hw => ?_⟩
  rw [t.withVnode_of_ne key value (Nat.ne_of_lt (h.lt w (List.mem_cons_of_mem _ hw)))]
  exact hnew w hw

theorem splitKey_of_head {t₂ : TandemIndex} (hroom : t.vCurrentIdx < vnodeNum)
    (hplace : (t.withVnode key value).place key t.vCurrentIdx = some (none, t₂)) : t.splitKey key value = none := by
  rw [splitKey, getNextVnode_eq hroom]
  show ((t.withVnode key value).place key t.vCurrentIdx).bind _ = _
  rw [hplace]
  rfl

theorem splitKey_of_no_room (hroom : ¬ t.vCurrentIdx < vnodeNum) : t.splitKey key value = none := by
  rw [splitKey, getNextVnode, if_neg hroom]
  rfl

theorem Indexed.enter_head (h : Indexed t chains run) (value : ℕ) (hroom : t.vCurrentIdx < vnodeNum)
    (hnew : ∀ w ∈ vnodes chains run, (t.vnode w).key ≠ key) (hlook : t.mainIndex.lookup key = some none)
    (hlow : ∀ n ∈ chains 0, key < (t.mainIndex.inode n).minKey) :
    ∃ t₂, (t.withVnode key value).place key t.vCurrentIdx = some (none, t₂) ∧
      Placed (t.withVnode key value) t₂ t.head t.vCurrentIdx (vnodes chains run) ∧
      Chain t₂.vnext t₂.head (t.vCurrentIdx :: vnodes chains run) (-1) := by
  obtain ⟨t₂, hins, hp, hchain⟩ :=
    (h.withVnode hroom key value).place_head (v := t.vCurrentIdx) (Nat.lt_succ_self _)
    (h.new_vnode value hnew).1 (fun n hn => by rw [withVnode_key]; exact hlow n hn)
  refine ⟨t₂, ?_, hp, hchain⟩
  simp only [place, withVnode_mainIndex, hlook, Option.bind_eq_bind, Option.bind_some]
  rw [hins]
  rfl

theorem Indexed.insert_head (h : Indexed t chains run) (hkey : 0 < key) (hroom : t.vCurrentIdx < vnodeNum)
    (hpos : 1 ≤ newlevel) (hlevel : newlevel ≤ maxLevel)
    (hnew : ∀ w ∈ vnodes chains run, (t.vnode w).key ≠ key)
    (hlook : t.mainIndex.lookup key = some none) (hlow : ∀ n ∈ chains 0, key < (t.mainIndex.inode n).minKey)
    (hgo : t.mainIndex.currentIdx + newlevel ≤ inodeNum ∨ t.insert key value newlevel ≠ none) :
    ∃ t' chains' run', t.insert key value newlevel = some (true, t') ∧
      Inserted t t' chains run chains' run' key value ∧
      (Increasing t.mainIndex chains → Increasing t'.mainIndex chains') ∧
      KeepsBound t key value chains run chains' run' := by
  let v := t.vCurrentIdx
  let t₁ := t.withVnode key value
  have h₁ : Indexed t₁ chains run := h.withVnode hroom key value
  have hfresh := (h.new_vnode value hnew).1
  obtain ⟨t₂, hplace, hp, hchain⟩ := h.enter_head value hroom hnew hlook hlow
  have hrun : t.insert key value newlevel = (t.mainIndex.insert key v newlevel).bind fun r =>
      some (r.1, { t₂ with mainIndex := r.2 }) := by
    rw [insert_of_place_none hroom hplace, hp.mainIndex]
    rfl
  have hinodes : t.mainIndex.currentIdx + newlevel ≤ inodeNum :=
    hgo.elim id fun hsome => insert_room fun hnone => hsome (by rw [hrun, hnone]; rfl)
  obtain ⟨s', inodes, hmain, hg, hsame, hdown, hcount, hheader⟩ :=
    insert_spec h.shape.toChained key v hpos hlevel hinodes
  obtain ⟨hi, hvs⟩ := h₁.grow_head hp hchain (Nat.lt_succ_self _) hfresh
    (by rw [withVnode_key]; exact hkey) (fun n hn => by rw [withVnode_key]; exact hlow n hn) hpos hlevel hinodes
    (by rw [withVnode_key]; exact hg) hsame hdown hcount
  have hnone := splitKey_of_head hroom hplace
  refine ⟨{ t₂ with mainIndex := s' }, _, _, by rw [hrun, hmain]; rfl,
    hp.inserted h rfl hi (List.Perm.of_eq hvs) (fun _ => ⟨hsame, fun hx => ?_⟩) (by simp [hnone]), fun ho => ?_,
    fun b hb hle => iff_of_true (fun n hn => ?_) fun _ n hn => by rw [hlook] at hn; cases hn⟩
  · exact hx.grow_head h hp.head hpos hlevel hg hcount hheader
  · exact ho.grow h.shape hg hlevel (fun i _ => Or.inl rfl) fun i hin => Or.inl ⟨rfl, fun m hm => by
      obtain ⟨k, hk, hkm⟩ := h.shape.toChained.min_bottom (by omega) hm
      exact hkm ▸ hlow k hk⟩
  · rw [grownChains_head hpos] at hn
    rcases List.mem_cons.mp hn with rfl | hn
    · rwa [Function.update_self]
    · rw [Function.update_of_ne (h.ne_new hg hpos hn)]
      exact hle n hn

theorem Indexed.inside_of_split (h : Indexed t chains run) {n w : ℕ} {l₁ l₂ : List ℕ} (hn : n ∈ chains 0)
    (hsplit : run n = l₁ ++ w :: l₂) (hne : l₁ ≠ []) : Inside t chains run n w := by
  refine ⟨hn, by simp [hsplit], ?_⟩
  obtain ⟨d, l, hrun, -, hkey⟩ := h.first n hn
  obtain ⟨x, l₁', rfl⟩ := List.exists_cons_of_ne_nil hne
  have hsorted := (List.pairwise_flatMap.mp h.sorted).1 n hn
  rw [hsplit] at hrun hsorted
  obtain rfl : x = d := (List.cons.inj hrun).1
  exact hkey ▸ (List.pairwise_cons.mp hsorted).1 w (by simp)

theorem Indexed.split_step (h : Indexed t chains run) {n w : ℕ} {l₁ l₂ : List ℕ} (hn : n ∈ chains 0)
    (hsplit : run n = l₁ ++ w :: l₂) (hne : l₁ ≠ []) (hpos : 1 ≤ newlevel) (hlevel : newlevel ≤ maxLevel)
    (hroom : t.mainIndex.currentIdx + newlevel ≤ inodeNum) (hr : Regular t.mainIndex (t.vnode w).key newlevel) :
    ∃ s' chains' run', t.mainIndex.insertWhenRebalance (t.vnode w).key w newlevel (l₁.length + 1) =
    some (true, s') ∧
      Indexed { t with mainIndex := s' } chains' run' ∧ vnodes chains' run' = vnodes chains run ∧
      (n ∈ chains' 0 ∧ (s'.inode n).coveredNodes = (run' n).length + 1) ∧
      (Increasing t.mainIndex chains → Clear t.mainIndex (t.vnode w).key newlevel → Increasing s' chains') ∧
      ∀ m ∈ chains' 0, run' m = l₁ ∨ run' m = w :: l₂ ∨ m ∈ chains 0 ∧ m ≠ n ∧
      run' m = run m := by
  have hin := h.inside_of_split hn hsplit hne
  have hkey : 0 < (t.vnode w).key := Nat.lt_of_le_of_lt (Nat.zero_le _) hin.min_lt
  have hne₀ : chains 0 ≠ [] := List.ne_nil_of_mem hn
  obtain ⟨s', inodes, u, hrun, hs⟩ :=
    insertWhenRebalance_spec h.shape.toLevels w (l₁.length + 1) hkey hpos hlevel hroom
  have hcov := hs.covering (hr.starts h hne₀)
  have hu₀ : u 0 = n := hin.unique h (hcov 0 h.shape.level_pos)
  obtain ⟨run', hi, hvs, hleft, hruns⟩ := h.grow_split hn hsplit hne hkey hpos hlevel hroom hs hu₀
    (hr.max_ne_zero h hne₀ hkey hlevel hs)
  refine ⟨s', _, run', hrun, hi, hvs, ⟨(mem_grownChains hs.onLevel).mpr (Or.inr hn), ?_⟩,
    fun ho hclear => ?_, hruns⟩
  · rw [hleft, ← hu₀, hs.pred_covered]
  · refine ho.grow h.shape hs.grown hlevel hs.onLevel fun i hi => ?_
    rcases Nat.lt_or_ge i t.mainIndex.level with hlt | hge
    · exact ho.fits h.shape (by omega) (fun m hm => hin.min_ne h hm) (hcov i hlt)
    · exact Or.inl ⟨hs.above i hge hi, hclear.lt h.shape ho hlevel hi hge⟩

/-- The state in which a covering inode has counted the new vnode. -/
def counted (t : TandemIndex) (n : ℕ) : TandemIndex :=
  { t with mainIndex := t.mainIndex.increaseCoveredNodes n }

theorem cover_of_not_full {n : ℕ}
    (hfull : ¬ searchStabilityCoefficient < ((t.counted n).mainIndex.inode n).coveredNodes) :
    t.cover n newlevel = some (true, t.counted n) := by
  have hb : (t.mainIndex.increaseCoveredNodesAndVerifyRebalance n).1 = false := decide_eq_false hfull
  simp only [cover, hb]
  rfl

theorem cover_of_full {n : ℕ} (newlevel : ℕ)
    (hfull : searchStabilityCoefficient < ((t.counted n).mainIndex.inode n).coveredNodes) :
    t.cover n newlevel = ((t.counted n).splitNode n).bind fun w =>
      ((t.counted n).mainIndex.insertWhenRebalance (t.vnode w).key w newlevel
        (half (t.counted n).mainIndex n + 1)).bind fun r => some (r.1, { t with mainIndex := r.2 }) := by
  have hb : (t.mainIndex.increaseCoveredNodesAndVerifyRebalance n).1 = true := decide_eq_true hfull
  simp only [cover, hb, if_true]
  rfl

theorem cover_cases {n : ℕ} {ret : Bool} (hrun : t.cover n newlevel = some (ret, t')) :
    (¬ searchStabilityCoefficient < ((t.counted n).mainIndex.inode n).coveredNodes ∧ ret = true ∧
      t' = t.counted n) ∨ (searchStabilityCoefficient < ((t.counted n).mainIndex.inode n).coveredNodes ∧ ∃ w s',
        (t.counted n).splitNode n = some w ∧ (t.counted n).mainIndex.insertWhenRebalance (t.vnode w).key w newlevel
          (half (t.counted n).mainIndex n + 1) = some (ret, s') ∧ t' = { t with mainIndex := s' }) := by
  by_cases hfull : searchStabilityCoefficient < ((t.counted n).mainIndex.inode n).coveredNodes
  · rw [cover_of_full newlevel hfull] at hrun
    obtain ⟨w, hw, hrun⟩ := Option.bind_eq_some_iff.mp hrun
    obtain ⟨⟨b, s'⟩, hins, hdone⟩ := Option.bind_eq_some_iff.mp hrun
    cases hdone
    exact .inr ⟨hfull, w, s', hw, hins, rfl⟩
  · cases hrun.symm.trans (cover_of_not_full hfull)
    exact .inl ⟨hfull, rfl, rfl⟩

theorem splitKey_eq {t₂ : TandemIndex} {n : ℕ} (hroom : t.vCurrentIdx < vnodeNum)
    (hplace : (t.withVnode key value).place key t.vCurrentIdx = some (some n, t₂)) :
    t.splitKey key value = if searchStabilityCoefficient < ((t₂.counted n).mainIndex.inode n).coveredNodes then
      ((t₂.counted n).splitNode n).map fun w => (t₂.vnode w).key else none := by
  rw [splitKey, getNextVnode_eq hroom]
  show ((t.withVnode key value).place key t.vCurrentIdx).bind _ = _
  rw [hplace]
  by_cases hfull : searchStabilityCoefficient < ((t₂.counted n).mainIndex.inode n).coveredNodes
  · have hb : (t₂.mainIndex.increaseCoveredNodesAndVerifyRebalance n).1 = true := decide_eq_true hfull
    simp only [Option.bind_eq_bind, Option.bind_some, hb, if_true, if_pos hfull, Option.map_eq_bind]
    rfl
  · have hb : (t₂.mainIndex.increaseCoveredNodesAndVerifyRebalance n).1 = false := decide_eq_false hfull
    simp only [Option.bind_eq_bind, Option.bind_some, hb, if_neg hfull]
    rfl

/-- The call builds a tower: it finds no inode for the key, or splits the one that it finds. -/
def NeedsTower (t : TandemIndex) (key value : ℕ) : Prop :=
  t.mainIndex.lookup key = some none ∨ t.splitKey key value ≠ none

theorem place_mainIndex {t t₂ : TandemIndex} {o : Option ℕ} {v : ℕ} (hplace : t.place key v = some (o, t₂)) :
    t₂.mainIndex = t.mainIndex ∧ t.mainIndex.lookup key = some o := by
  obtain ⟨hlook, start, hins, -⟩ := place_cases hplace
  obtain ⟨cur, -, hdone⟩ := Option.bind_eq_some_iff.mp hins
  cases hdone
  exact ⟨rfl, hlook⟩

theorem insert_eq_none (hroom : t.vCurrentIdx < vnodeNum) (hneeds : t.NeedsTower key value)
    (hfull : inodeNum < t.mainIndex.currentIdx + newlevel) : t.insert key value newlevel = none := by
  rw [Option.eq_none_iff_forall_not_mem]
  rintro ⟨ret, t'⟩ hrun
  obtain ⟨hno, -⟩ | ⟨-, o, t₂, hplace, hindex⟩ := insert_cases hrun
  · exact hno hroom
  obtain ⟨hmain, hlook⟩ := place_mainIndex hplace
  rw [withVnode_mainIndex] at hmain hlook
  obtain ⟨rfl, s', hins, -⟩ | ⟨n, rfl, hcover⟩ := hindex
  · have hle := insert_room (by rw [hins]; simp)
    rw [hmain] at hle
    omega
  · have hsplit : t.splitKey key value ≠ none := hneeds.resolve_left (by rw [hlook]; simp)
    rw [splitKey_eq hroom hplace] at hsplit
    obtain ⟨hnot, -⟩ | ⟨-, w, s', -, hins, -⟩ := cover_cases hcover
    · exact hsplit (if_neg hnot)
    · have hle := insertWhenRebalance_room (by rw [hins]; simp)
      have hidx : (t₂.counted n).mainIndex.currentIdx = t.mainIndex.currentIdx := by rw [← hmain]; rfl
      omega

/-- The new vnode has joined the run of inode `n`, and the inode has counted it. -/
structure Entered (t t₂ : TandemIndex) (chains run run₂ : ℕ → List ℕ) (key value n : ℕ) : Prop where
  place : (t.withVnode key value).place key t.vCurrentIdx = some (some n, t₂)
  placed : ∃ d rest, Placed (t.withVnode key value) t₂ d t.vCurrentIdx rest
  mainIndex : t₂.mainIndex = t.mainIndex
  indexed : Indexed (t₂.counted n) chains run₂
  length : (run₂ n).length = (run n).length + 1
  other : ∀ m, m ≠ n → run₂ m = run m
  perm : (vnodes chains run₂).Perm (t.vCurrentIdx :: vnodes chains run)

theorem Indexed.enter (h : Indexed t chains run) {n : ℕ} (value : ℕ) (hroom : t.vCurrentIdx < vnodeNum)
    (hnew : ∀ w ∈ vnodes chains run, (t.vnode w).key ≠ key)
    (hlook : t.mainIndex.lookup key = some (some n)) (hcov : Covering t.mainIndex chains 0 key n) :
    ∃ t₂ run₂, Entered t t₂ chains run run₂ key value n := by
  obtain ⟨hfresh, hother⟩ := h.new_vnode value hnew
  obtain ⟨d, t₂, rest, run₂, hnode, hins, hp, h₂, hlen, hsame, hperm⟩ :=
    (h.withVnode hroom key value).place_inode (n := n) (v := t.vCurrentIdx) (by rw [withVnode_key]; exact hcov)
      (Nat.lt_succ_self _) hfresh (by rw [withVnode_key]; exact hother)
  have hmain : t₂.mainIndex = t.mainIndex := hp.mainIndex
  refine ⟨t₂, run₂, ?_, ⟨d, rest, hp⟩, hmain, h₂.increase hcov.mem ?_, hlen, hsame, hperm⟩
  · have hnode' : nodeAt vnodeNum (t.mainIndex.inode n).down = some d := hnode
    simp only [TandemIndex.place, withVnode_mainIndex, hlook, hnode', Option.bind_eq_bind, Option.bind_some]
    rw [hins]
    rfl
  · have hc := h.count n hcov.mem
    rw [hmain, hlen]
    exact_mod_cast hc

namespace Entered
variable {t₂ : TandemIndex} {run₂ : ℕ → List ℕ} {n : ℕ}

theorem min (he : Entered t t₂ chains run run₂ key value n) (m : ℕ) :
    ((t₂.counted n).mainIndex.inode m).minKey = (t.mainIndex.inode m).minKey :=
  (increase_min _ n m).trans (by rw [he.mainIndex])

theorem increasing (he : Entered t t₂ chains run run₂ key value n) (ho : Increasing t.mainIndex chains) :
    Increasing (t₂.counted n).mainIndex chains := by
  intro i hi
  simp only [he.min]
  exact ho i hi

theorem exact (he : Entered t t₂ chains run run₂ key value n) (h : Indexed t chains run) (hn : n ∈ chains 0)
    (hx : Exact t chains run) : Exact (t₂.counted n) chains run₂ := by
  obtain ⟨d, rest, hp⟩ := he.placed
  have hne : t.mainIndex.header 0 ≠ n := fun hh => h.shape.toChained.header_not_mem (by decide) (hh ▸ hn)
  have hinode : ∀ m, m ≠ n → (t₂.counted n).mainIndex.inode m = t.mainIndex.inode m := fun m hm => by
    rw [counted, increaseCoveredNodes, modify_of_ne _ _ _ hm, he.mainIndex]
  have hheader : (t₂.counted n).mainIndex.header 0 = t.mainIndex.header 0 :=
    congrArg (fun s => s.header 0) he.mainIndex
  refine ⟨?_, ?_, fun m hm => ?_⟩
  · rw [hheader, hinode _ hne, hx.head]
    exact congrArg Nat.cast hp.head.symm
  · rw [hheader, hinode _ hne, hx.header]
  · by_cases hmn : m = n
    · subst hmn
      rw [counted, increaseCoveredNodes, modify_self, he.mainIndex, hx.inode m hm, he.length]
      rfl
    · rw [hinode m hmn, he.other m hmn, hx.inode m hm]

end Entered

theorem Indexed.insert_cover (h : Indexed t chains run) {n : ℕ} (hroom : t.vCurrentIdx < vnodeNum)
    (hpos : 1 ≤ newlevel) (hlevel : newlevel ≤ maxLevel)
    (hnew : ∀ w ∈ vnodes chains run, (t.vnode w).key ≠ key)
    (hlook : t.mainIndex.lookup key = some (some n)) (hcov : Covering t.mainIndex chains 0 key n)
    (hgo : t.mainIndex.currentIdx + newlevel ≤ inodeNum ∨ t.insert key value newlevel ≠ none)
    (hreg : ∀ k ∈ t.splitKey key value, Regular t.mainIndex k newlevel) :
    ∃ t' chains' run', t.insert key value newlevel = some (true, t') ∧
      Inserted t t' chains run chains' run' key value ∧
      (Increasing t.mainIndex chains → (∀ k ∈ t.splitKey key value, Clear t.mainIndex k newlevel) →
        Increasing t'.mainIndex chains') ∧
      KeepsBound t key value chains run chains' run' := by
  have hn := hcov.mem
  obtain ⟨t₂, run₂, he⟩ := h.enter value hroom hnew hlook hcov
  obtain ⟨d, rest, hp⟩ := he.placed
  have hmain := he.mainIndex
  have hrun : t.insert key value newlevel = t₂.cover n newlevel := insert_of_place_some hroom he.place
  have hkey := splitKey_eq hroom he.place
  by_cases hfull : searchStabilityCoefficient < ((t₂.counted n).mainIndex.inode n).coveredNodes
  · obtain ⟨w, l₁, l₂, hw, hsplit, hhalf, hne⟩ := he.indexed.splitNode_spec hn hfull
    have hk : t.splitKey key value = some (t₂.vnode w).key := by rw [hkey, if_pos hfull, hw, Option.map_some]
    have hcover := cover_of_full newlevel hfull
    rw [hw, Option.bind_some, ← hhalf] at hcover
    have hinodes : (t₂.counted n).mainIndex.currentIdx + newlevel ≤ inodeNum := by
      rcases hgo with hle | hsome
      · show t₂.mainIndex.currentIdx + newlevel ≤ inodeNum
        rw [hmain]
        exact hle
      · rw [hrun, hcover] at hsome
        exact insertWhenRebalance_room fun hnone => hsome (by rw [hnone, Option.bind_none])
    have hr : Regular (t₂.counted n).mainIndex (t₂.vnode w).key newlevel := by
      have hshape : Shape t₂.mainIndex chains := hmain ▸ h.shape
      refine Regular.increase hshape hn ?_
      rw [hmain]
      exact hreg _ hk
    obtain ⟨s', chains', run', hreb, hi, hvs, hdrift, hinc, hruns⟩ :=
      he.indexed.split_step hn hsplit hne hpos hlevel hinodes hr
    have hreb' : (t₂.counted n).mainIndex.insertWhenRebalance (t₂.vnode w).key w newlevel (l₁.length + 1) =
        some (true, s') := hreb
    refine ⟨{ t₂ with mainIndex := s' }, chains', run', ?_,
      hp.inserted h rfl hi (hvs ▸ he.perm) (by simp [hk]) fun _ _ => ⟨n, hdrift⟩, fun ho hclear => ?_,
      fun b _ hle => iff_of_true (fun m hm => ?_) (by simp [hk])⟩
    · rw [hrun, hcover, hreb', Option.bind_some]
    · refine hinc (he.increasing ho) fun i hi hopen l hl f hf => ?_
      rw [he.min]
      refine hclear _ hk i hi (by rw [← hmain]; exact hopen) l ?_ f hf
      rwa [he.indexed.shape.toChained.levelNodes_eq (by omega), ← h.shape.toChained.levelNodes_eq (by omega)] at hl
    · -- both halves are shorter than the run they come from
      have hlen := congrArg List.length hsplit
      have hlen' := List.length_pos_iff.mpr hne
      have hle' := hle n hn
      rw [he.length, List.length_append, List.length_cons] at hlen
      rcases hruns m hm with hm' | hm' | ⟨hm', hmn, heq⟩
      · rw [hm']
        omega
      · rw [hm', List.length_cons]
        omega
      · rw [heq, he.other m hmn]
        exact hle m hm'
  · have hnone : t.splitKey key value = none := by rw [hkey, if_neg hfull]
    refine ⟨t₂.counted n, chains, run₂, by rw [hrun, cover_of_not_full hfull],
      hp.inserted h rfl he.indexed he.perm (fun _ => ⟨?_, he.exact h hn⟩) (by simp [hnone]),
      fun ho _ => he.increasing ho, fun b _ hle => ⟨fun hb _ m hm => ?_,
        fun hb m hm => ?_⟩⟩
    · show t₂.mainIndex.level = t.mainIndex.level
      rw [hmain]
    · obtain rfl : n = m := by
        rw [hlook] at hm
        exact Option.some.inj (Option.some.inj hm)
      have := hb n hn
      rw [he.length] at this
      exact this
    · by_cases hmn : m = n
      · rw [hmn, he.length]
        exact hb hnone n hlook
      · rw [he.other m hmn]
        exact hle m hm

end Step

/-! ## Runs -/

section Run
variable {t : TandemIndex} {chains run : ℕ → List ℕ} {key value newlevel : ℕ}

theorem Indexed.below_all (h : Indexed t chains run)
    (hfirst : ∀ f ∈ (chains 0).head?, key < (t.mainIndex.inode f).minKey) :
    ∀ n ∈ chains 0, key < (t.mainIndex.inode n).minKey := by
  intro n hn
  obtain ⟨f, l, hc⟩ := List.exists_cons_of_ne_nil (List.ne_nil_of_mem hn)
  have hf := hfirst f (by simp [hc])
  rw [hc] at hn
  rcases List.mem_cons.mp hn with rfl | hn
  · exact hf
  · exact Nat.lt_trans hf (h.min_lt (show chains 0 = [] ++ f :: l from hc) hn)

theorem Indexed.insert_step (h : Indexed t chains run) (hkey : 0 < key) (hroom : t.vCurrentIdx < vnodeNum)
    (hpos : 1 ≤ newlevel) (hlevel : newlevel ≤ maxLevel)
    (hnew : ∀ w ∈ vnodes chains run, (t.vnode w).key ≠ key)
    (hgo : t.mainIndex.currentIdx + newlevel ≤ inodeNum ∨ t.insert key value newlevel ≠ none)
    (hreg : ∀ k ∈ t.splitKey key value, Regular t.mainIndex k newlevel) :
    ∃ t' chains' run', t.insert key value newlevel = some (true, t') ∧
      Inserted t t' chains run chains' run' key value ∧
      (Increasing t.mainIndex chains → (∀ k ∈ t.splitKey key value, Clear t.mainIndex k newlevel) →
        Increasing t'.mainIndex chains') ∧
      KeepsBound t key value chains run chains' run' := by
  rcases h.shape.lookup_found hkey with ⟨hlook, hfirst⟩ | ⟨n, hlook, hcov⟩
  · obtain ⟨t', chains', run', hrun, hins, hinc, hbound⟩ := h.insert_head hkey hroom hpos hlevel hnew hlook
      (h.below_all hfirst) hgo
    exact ⟨t', chains', run', hrun, hins, fun ho _ => hinc ho, hbound⟩
  · exact h.insert_cover hroom hpos hlevel hnew hlook hcov hgo hreg

/-- One call of `TandemIndex::insert`, with the level that is drawn if it draws one. -/
structure Call where
  key : ℕ
  value : ℕ
  newlevel : ℕ
  deriving DecidableEq

def Call.insert (c : Call) (t : TandemIndex) : Option (Bool × TandemIndex) := t.insert c.key c.value c.newlevel

/-- The returned values of a run, and the index after it. -/
def insertAll : TandemIndex → List Call → Option (List Bool × TandemIndex)
  | t, [] => some ([], t)
  | t, c :: cs => do
    let (ret, t) ← c.insert t
    let (rets, t) ← insertAll t cs
    return (ret :: rets, t)

/-- `P` holds of every call of a run and the state before it. -/
def Along (P : TandemIndex → Call → Prop) : TandemIndex → List Call → Prop
  | _, [] => True
  | t, c :: cs => P t c ∧ ∀ r ∈ c.insert t, Along P r.2 cs

theorem insertAll_append (t : TandemIndex) (cs ds : List Call) : insertAll t (cs ++ ds) =
    (insertAll t cs).bind fun r => (insertAll r.2 ds).map fun r' => (r.1 ++ r'.1, r'.2) := by
  induction cs generalizing t with
  | nil => simp [insertAll]
  | cons c cs ih =>
    simp only [List.cons_append, insertAll, Option.bind_eq_bind, Option.bind_assoc, ih, Option.bind_some,
      Option.pure_def, Option.map_eq_bind, Function.comp_def]

theorem insertAll_append_eq_some {cs ds : List Call} {r : List Bool × TandemIndex} :
    insertAll t (cs ++ ds) = some r ↔
    ∃ r₁ r₂, insertAll t cs = some r₁ ∧ insertAll r₁.2 ds = some r₂ ∧
    r = (r₁.1 ++ r₂.1, r₂.2) := by
  simp only [insertAll_append, Option.bind_eq_some_iff, Option.map_eq_some_iff]
  constructor
  · rintro ⟨r₁, h₁, r₂, h₂, rfl⟩
    exact ⟨r₁, r₂, h₁, h₂, rfl⟩
  · rintro ⟨r₁, r₂, h₁, h₂, rfl⟩
    exact ⟨r₁, h₁, r₂, h₂, rfl⟩

theorem insertAll_cons_eq_some {c : Call} {cs : List Call} {r : List Bool × TandemIndex} :
    insertAll t (c :: cs) = some r ↔
      ∃ r₁ r₂, c.insert t = some r₁ ∧ insertAll r₁.2 cs = some r₂ ∧
      r = (r₁.1 :: r₂.1, r₂.2) := by
  simp only [insertAll, Option.bind_eq_bind, Option.bind_eq_some_iff, Option.pure_def]
  constructor
  · rintro ⟨r₁, h₁, r₂, h₂, hr⟩
    exact ⟨r₁, r₂, h₁, h₂, (Option.some.inj hr).symm⟩
  · rintro ⟨r₁, r₂, h₁, h₂, rfl⟩
    exact ⟨r₁, h₁, r₂, h₂, rfl⟩

theorem insertAll_length {cs : List Call} {r : List Bool × TandemIndex} (hrun : insertAll t cs = some r) :
    r.1.length = cs.length := by
  induction cs generalizing t r with
  | nil =>
    cases hrun
    rfl
  | cons c cs ih =>
    obtain ⟨r₁, -, hrun⟩ := Option.bind_eq_some_iff.mp hrun
    obtain ⟨r₂, hrest, hdone⟩ := Option.bind_eq_some_iff.mp hrun
    cases hdone
    exact congrArg (· + 1) (ih hrest)

theorem along_append {P : TandemIndex → Call → Prop} {cs ds : List Call} :
    Along P t (cs ++ ds) ↔ Along P t cs ∧ ∀ r ∈ insertAll t cs, Along P r.2 ds := by
  induction cs generalizing t with
  | nil => simp [Along, insertAll]
  | cons c cs ih =>
    simp only [List.cons_append, Along, ih, and_assoc, insertAll]
    refine and_congr_right fun _ => ⟨fun h => ⟨fun r hr => (h r hr).1, fun r hr => ?_⟩,
      fun h r hr => ⟨h.1 r hr, fun r' hr' => ?_⟩⟩
    · obtain ⟨r₁, hfirst, hr⟩ := Option.bind_eq_some_iff.mp hr
      obtain ⟨r₂, hrest, hdone⟩ := Option.bind_eq_some_iff.mp hr
      cases hdone
      exact (h r₁ hfirst).2 r₂ hrest
    · exact h.2 (r.1 :: r'.1, r'.2) (by
        rw [Option.mem_def] at hr hr'
        simp only [hr, hr', Option.bind_eq_bind, Option.bind_some, Option.pure_def, Option.mem_def])

theorem along_of_step {I : TandemIndex → List Call → Prop} {Q : TandemIndex → Call → Prop}
    (hstep : ∀ t c cs, I t (c :: cs) → Q t c ∧ ∀ r ∈ c.insert t, I r.2 cs) {cs : List Call} (h : I t cs) :
    Along Q t cs := by
  induction cs generalizing t with
  | nil => trivial
  | cons c cs ih =>
    obtain ⟨hq, hnext⟩ := hstep t c cs h
    exact ⟨hq, fun r hr => ih (hnext r hr)⟩

/-- If `Q` of a call decides `P` of the state after it, `P` holds in every state of the run
just if `Q` holds of every call. -/
theorem forall_take_iff_along {I : TandemIndex → List Call → Prop} {P : TandemIndex → Prop}
    {Q : TandemIndex → Call → Prop} (hstep : ∀ t c cs r, I t (c :: cs) → P t → c.insert t = some r →
      (P r.2 ↔ Q t c) ∧ (Q t c → I r.2 cs))
    {cs : List Call} (h : I t cs) (hP : P t) {r : List Bool × TandemIndex}
    (hrun : insertAll t cs = some r) : (∀ k, ∀ r ∈ insertAll t (cs.take k), P r.2) ↔ Along Q t cs := by
  induction cs generalizing t r with
  | nil =>
    refine iff_of_true (fun k r hr => ?_) trivial
    rw [List.take_nil] at hr
    cases hr
    exact hP
  | cons c cs ih =>
    obtain ⟨r₁, r₂, hfirst, hrest, -⟩ := insertAll_cons_eq_some.mp hrun
    obtain ⟨hiff, hnext⟩ := hstep t c cs r₁ h hP hfirst
    have hrec : Q t c → ((∀ k, ∀ r ∈ insertAll r₁.2 (cs.take k), P r.2) ↔ Along Q r₁.2 cs) := fun hq =>
      ih (hnext hq) (hiff.mpr hq) hrest
    -- the states of the run are this one and those of the rest
    have hcons : ∀ k r, insertAll t ((c :: cs).take (k + 1)) = some r →
        ∃ r', insertAll r₁.2 (cs.take k) = some r' ∧ r.2 = r'.2 := fun k r hr => by
      simp only [List.take_succ_cons, insertAll, hfirst, Option.bind_eq_bind, Option.bind_some,
        Option.bind_eq_some_iff] at hr
      obtain ⟨r', hr', hdone⟩ := hr
      cases hdone
      exact ⟨r', hr', rfl⟩
    have hcons' : ∀ k r', insertAll r₁.2 (cs.take k) = some r' →
        insertAll t ((c :: cs).take (k + 1)) = some (r₁.1 :: r'.1, r'.2) := fun k r' hr' => by
      simp only [List.take_succ_cons, insertAll, hfirst, Option.bind_eq_bind, Option.bind_some, hr']
      rfl
    constructor
    · intro hall
      have hq := hiff.mp (hall 1 _ (hcons' 0 ([], r₁.2) rfl))
      refine ⟨hq, fun r' hr' => ?_⟩
      obtain rfl : r₁ = r' := Option.some.inj (hfirst.symm.trans hr')
      exact (hrec hq).mp fun k r' hr' => hall (k + 1) (r₁.1 :: r'.1, r'.2) (hcons' k r' hr')
    · rintro ⟨hq, halong⟩ k r hr
      cases k with
      | zero =>
        cases hr
        exact hP
      | succ k =>
        obtain ⟨r', hr', he⟩ := hcons k r hr
        rw [he]
        exact (hrec hq).mpr (halong r₁ hfirst) k r' hr'

/-- Neither pool runs out in the call. -/
def Call.HasRoom (t : TandemIndex) (c : Call) : Prop :=
  t.vCurrentIdx < vnodeNum ∧ t.mainIndex.currentIdx + c.newlevel ≤ inodeNum

/-- A call as `insert` and `generateRandomLevel` allow it. -/
def Call.Valid (c : Call) : Prop := c.key ≠ 0 ∧ 1 ≤ c.newlevel ∧ c.newlevel ≤ maxLevel

theorem insert_of_no_room {c : Call} (hroom : ¬ t.vCurrentIdx < vnodeNum) : c.insert t = some (false, t) :=
  insert_no_vnode hroom

theorem Inserted.key_cases {t' : TandemIndex} {chains' run' : ℕ → List ℕ} {key value w : ℕ}
    (hi : Inserted t t' chains run chains' run' key value) (hw : w ∈ vnodes chains' run') :
    (t'.vnode w).key = key ∨ ∃ v ∈ vnodes chains run, (t'.vnode w).key = (t.vnode v).key := by
  rcases List.mem_cons.mp (hi.perm.mem_iff.mp hw) with rfl | hw
  · exact Or.inl hi.new_key
  · exact Or.inr ⟨w, hw, hi.old_key w hw⟩

theorem keys_ne {t' : TandemIndex} {chains' run' : ℕ → List ℕ} {c : Call} {cs : List Call}
    (hkeys : ∀ w ∈ vnodes chains' run', (t'.vnode w).key = c.key ∨ ∃ v ∈ vnodes chains run,
      (t'.vnode w).key = (t.vnode v).key)
    (hnd : c.key ∉ cs.map Call.key)
    (hnew : ∀ w ∈ vnodes chains run, ∀ d ∈ c :: cs, (t.vnode w).key ≠ d.key) :
    ∀ w ∈ vnodes chains' run', ∀ d ∈ cs, (t'.vnode w).key ≠ d.key := by
  intro w hw d hd he
  rcases hkeys w hw with hk | ⟨v, hv, hk⟩
  · exact hnd (List.mem_map.mpr ⟨d, hd, he.symm.trans hk⟩)
  · exact hnew v hv d (List.mem_cons_of_mem _ hd) (hk.symm.trans he)

end Run

/-! ## Concrete runs -/

section Concrete

instance decidableAlong (P : TandemIndex → Call → Prop) [∀ t c, Decidable (P t c)] :
    ∀ t cs, Decidable (Along P t cs)
  | _, [] => isTrue trivial
  | t, c :: cs =>
    haveI : DecidablePred fun r : Bool × TandemIndex => Along P r.2 cs := fun r => decidableAlong P r.2 cs
    inferInstanceAs (Decidable (P t c ∧ ∀ r ∈ c.insert t, Along P r.2 cs))

instance (s : DramSkiplist) (key newlevel : ℕ) : Decidable (Regular s key newlevel) :=
  decidable_of_iff ((∀ l ∈ s.levelNodes (s.level - 1), ∀ f ∈ l.head?, (s.inode f).minKey ≤ key) ∧
    (newlevel = maxLevel → s.level = maxLevel →
      ∀ l ∈ s.levelNodes (maxLevel - 1), ∀ n ∈ l.getLast?, key < (s.inode n).minKey))
    ⟨fun h => ⟨h.1, h.2⟩, fun h => ⟨h.reach, h.top⟩⟩

instance : ∀ t c, Decidable (Call.HasRoom t c) := fun t c => by unfold Call.HasRoom; infer_instance
instance : ∀ c, Decidable (Call.Valid c) := fun c => by unfold Call.Valid; infer_instance

theorem new_isSome : TandemIndex.new.isSome = true := by decide +kernel

/-- The index as its constructor leaves it. -/
def empty : TandemIndex := TandemIndex.new.get new_isSome

theorem new_eq_empty : TandemIndex.new = some empty := (Option.some_get new_isSome).symm

/-- Keys `1` to `n` in order, each with itself as value; the first tower has one level. -/
def ascending (n newlevel : ℕ) : List Call :=
  (List.range n).map fun i => ⟨i + 1, i + 1, if i = 0 then 1 else newlevel⟩

end Concrete

end TandemIndex

end Hkv.Tandem
