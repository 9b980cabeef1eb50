import Hkv.CacheLists

/-!
# The structure of the cache

The cache thread works through its batches while other threads update the same entries
and link them to new slots. One item of a batch is a step of its own, so that the others
may come between any two.
-/
namespace Hkv.DramCache.CacheThread
open MtsConfig TaggedPointer AddressTable

variable {A : Type} {c c' : CacheThread A} {t : ListType} {d : Ptr} {M : ListType → ℤ} {L : ListType → List Ptr}
  {o s : Option Ptr} {xs ys : List Ptr} {pages : ℕ} {scan : Bool}

/-! ## The functions of `CacheThread` on the lists -/

/-- The lists of a cache without scan links. -/
structure Sound (c : CacheThread A) (M : ListType → ℤ) (L : ListType → List Ptr) (o : Option Ptr) : Prop
    extends Lists c M L o where
  unchained : c.Unchained

theorem Lists.of_table (h : Lists c M L o) (hheap : c'.heap = c.heap) (hlist : c'.list = c.list) :
    Lists c' M L o where
  listed t := (h.listed t).congr (congrFun hlist t) fun d _ => congrFun hheap d
  typeOf t d hd := by
    rw [CacheThread.typeOf, hheap]
    exact h.typeOf t d hd
  owned d hd := h.owned d (hheap ▸ hd)
  loose d hd := hheap ▸ h.loose d hd
  maxSize t := hlist ▸ h.maxSize t
  curSize t := hlist ▸ h.curSize t

theorem Sound.insertHead (h : Sound c M L (some d)) (t : ListType) :
    ∃ c', c.insertHead t d = some c' ∧ Sound c' M (Function.update L t (d :: L t)) none := by
  obtain ⟨c', hc, hlists⟩ := h.toLists.insertHead t
  exact ⟨c', hc, hlists, (insertHead_relisted hc).unchained h.unchained⟩

theorem Sound.moveToHead (h : Sound c M L none) (ht : L t = xs ++ d :: ys) :
    ∃ c', c.moveToHead t d = some c' ∧ Sound c' M (Function.update L t (d :: (xs ++ ys))) none := by
  obtain ⟨c', hc, hlists⟩ := h.toLists.moveToHead ht
  exact ⟨c', hc, hlists, (moveToHead_relisted hc).unchained h.unchained⟩

theorem Sound.removeTail (h : Sound c M L none) (ht : L t = xs ++ [d]) (hne : xs ≠ []) :
    ∃ c', c.removeTail t = some (d, c') ∧ Sound c' M (Function.update L t xs) (some d) := by
  obtain ⟨c', hc, hlists⟩ := h.toLists.removeTail ht hne
  exact ⟨c', hc, hlists, (removeTail_relisted hc).unchained h.unchained⟩

theorem Sound.allocEntry {a : A} {q : CqEntry A} (h : Sound c M L none) (hd : c.heap d = none) (t : ListType) :
    ∃ c', c.allocEntry t d a q = some c' ∧ Sound c' M L (some d) := by
  obtain ⟨c', hc, hlists⟩ := h.toLists.allocEntry hd t
  obtain ⟨-, -, -, -, hu⟩ := allocEntry_spec hc
  exact ⟨c', hc, hlists, hu h.unchained⟩

theorem Sound.freeEntry (h : Sound c M L (some d)) : ∃ c', c.freeEntry d = some c' ∧ Sound c' M L none := by
  obtain ⟨c', hc, hlists⟩ := h.toLists.freeEntry h.unchained
  exact ⟨c', hc, hlists, freeEntry_unchained h.unchained hc⟩

theorem chainScan_of_unchained (hu : c.Unchained) (hs : ∀ x ∈ s, c.heap x ≠ none) (hd : c.heap d ≠ none) :
    c.chainScan scan s d = some c := by
  have hprev : ∀ x ∈ s, c.chainPrev x d = some c := by
    intro x hx
    obtain ⟨e, he⟩ := Option.ne_none_iff_exists'.mp (hs x hx)
    simp [chainPrev, he, (hu x e he).1]
  have hnext : ∀ x, c.chainNext x d = some c := by
    intro x
    obtain ⟨e, he⟩ := Option.ne_none_iff_exists'.mp hd
    simp [chainNext, he, (hu d e he).2]
  unfold chainScan
  split
  · rename_i x
    rw [hprev x rfl, Option.bind_some, hnext x]
  · rfl

variable [DecidableEq A]

theorem Sound.removeEntry (h : Sound c M L none) (ht : L t = xs ++ d :: ys) :
    ∃ c', c.removeEntry t d = some c' ∧ Sound c' M (Function.update L t (xs ++ ys)) (some d) := by
  obtain ⟨c₁, hunlink, hheap, hlists⟩ := h.toLists.unlink ht
  obtain ⟨e, he⟩ := Option.ne_none_iff_exists'.mp ((h.listed t).alloc d (by simp [ht]))
  have hremove : c.removeEntry t d =
      some ((c₁.setEntry e.atEntry uncache).setList t fun l => { l with curSize := l.curSize - 1 }) := by
    simp only [CacheThread.removeEntry, hunlink, Option.bind_eq_bind, Option.bind_some, hheap, he, Option.pure_def]
  obtain ⟨-, -, -, -, hu⟩ := removeEntry_spec hremove
  exact ⟨_, hremove, hlists.of_table rfl rfl, hu h.unchained⟩

theorem Sound.linkToAt (h : Sound c M L o) (hd : c.heap d ≠ none) :
    ∃ c', c.linkToAt d = some c' ∧ Sound c' M L o := by
  obtain ⟨e, he⟩ := Option.ne_none_iff_exists'.mp hd
  have hlink : c.linkToAt d = some (c.setEntry e.atEntry (cacheLink d)) := by
    simp [CacheThread.linkToAt, he]
  exact ⟨_, hlink, h.toLists.of_table rfl rfl, linkToAt_unchained h.unchained hlink⟩

theorem Sound.chain_link (h : Sound c M L none) (scan : Bool) (hs : ∀ x ∈ s, ∃ t, x ∈ L t) (hd : d ∈ L t) :
    ∃ c', (c.chainScan scan s d).bind (CacheThread.linkToAt · d) = some c' ∧ Sound c' M L none := by
  have halloc : ∀ {x t}, x ∈ L t → c.heap x ≠ none := fun {x t} hx => (h.listed t).alloc x hx
  rw [chainScan_of_unchained h.unchained (fun x hx => (hs x hx).elim fun _ => halloc) (halloc hd), Option.bind_some]
  exact h.linkToAt (halloc hd)

/-! ## Eviction -/

theorem Sound.evictOne (h : Sound c M L none) (hne : L .inactive ≠ []) :
    ∃ c', c.evictOne = some c' ∧ Sound c' M (Function.update L .inactive (L .inactive).dropLast) none := by
  have ht : L .inactive = (L .inactive).dropLast ++ (L .inactive).getLast hne :: [] :=
    (List.dropLast_append_getLast hne).symm
  have htail : (c.list .inactive).tail = some ((L .inactive).getLast hne) := by
    rw [(h.listed .inactive).tail, List.getLast?_eq_getLast_of_ne_nil hne]
  obtain ⟨e, he⟩ := (h.listed .inactive).exists_heap (List.getLast_mem hne)
  obtain ⟨c₁, hremove, h₁⟩ := h.removeEntry ht
  obtain ⟨c', hfree, h'⟩ := h₁.freeEntry
  refine ⟨c', ?_, by simpa using h'⟩
  rw [evictOne_of_unchained h.unchained htail, he, Option.bind_some, hremove, Option.bind_some, hfree]

theorem Sound.evictEntry (n : ℕ) (h : Sound c M L none) (hn : (n + 1) / 2 ≤ (L .inactive).length) :
    ∃ c', c.evictEntry n = some c' ∧ Sound c' M
      (Function.update L .inactive ((L .inactive).take ((L .inactive).length - (n + 1) / 2))) none := by
  induction n using Nat.strong_induction_on generalizing c L with
  | _ n ih =>
    have hdrop : (L .inactive).dropLast = (L .inactive).take ((L .inactive).length - 1) := List.dropLast_eq_take
    match n with
    | 0 => exact ⟨c, rfl, by simpa using h⟩
    | 1 => simpa [hdrop, CacheThread.evictEntry] using h.evictOne (List.length_pos_iff.mp (by omega))
    | n + 2 =>
      obtain ⟨c₁, h₁, hs₁⟩ := h.evictOne (List.length_pos_iff.mp (by omega))
      obtain ⟨c', h', hs'⟩ := ih n (by omega) hs₁ (by simp; omega)
      refine ⟨c', ?_, ?_⟩
      · rw [CacheThread.evictEntry, h₁, Option.bind_some, h']
      · have hcount : (L .inactive).length - (n + 2 + 1) / 2 = (L .inactive).length - 1 - (n + 1) / 2 := by omega
        have hmin : min ((L .inactive).length - 1 - (n + 1) / 2) ((L .inactive).length - 1) =
            (L .inactive).length - 1 - (n + 1) / 2 := by omega
        simpa [hdrop, List.take_take, hcount, hmin] using hs'

theorem Sound.evictWhenFull (h : Sound c M L none) (hpos : 1 ≤ pages) (hpages : pages ≤ M .inactive)
    (hlen : (L .inactive).length ≤ M .inactive + 1) : ∃ c' k, c.evictWhenFull pages = some c' ∧ 1 ≤ k ∧
      (2 ≤ M .inactive → 2 ≤ k) ∧ Sound c' M (Function.update L .inactive ((L .inactive).take k)) none ∧
      ((L .inactive).take k).length ≤ M .inactive := by
  have hmax := h.maxSize .inactive
  have hcur := h.curSize .inactive
  by_cases hfull : (c.list .inactive).maxSize < (c.list .inactive).curSize
  · rw [hmax, hcur] at hfull
    obtain ⟨c', hc, hs⟩ := h.evictEntry pages (by omega)
    refine ⟨c', _, ?_, ?_, ?_, hs, ?_⟩
    · rw [CacheThread.evictWhenFull, if_pos (by rw [hmax, hcur]; exact hfull), hc]
    · omega
    · omega
    · rw [List.length_take]
      omega
  · refine ⟨c, (L .inactive).length + 2, by rw [CacheThread.evictWhenFull, if_neg hfull], by omega, by omega, ?_,
      ?_⟩
    · simpa [List.take_of_length_le] using h
    · rw [List.length_take]
      omega

/-! ## The cases of `cacheOperation` -/

/-- `d` is the first entry of a list. -/
def Front (L : ListType → List Ptr) (d : Ptr) : Prop := ∃ t, (L t).head? = some d

theorem Front.mem (h : Front L d) : ∃ t, d ∈ L t := h.imp fun _ => List.mem_of_head?

/-- What was the first entry of a list is still on one. A list of one inactive entry
loses it to the next. -/
def KeepsFront (M : ListType → ℤ) (L L' : ListType → List Ptr) : Prop :=
  2 ≤ M .inactive → ∀ x, Front L x → ∃ t, x ∈ L' t

/-- Neither list is longer than it may be, and `d` is the first entry of one. -/
structure Done (c : CacheThread A) (M : ListType → ℤ) (L : ListType → List Ptr) (d : Ptr) : Prop
    extends Sound c M L none where
  bound : ∀ t, (L t).length ≤ M t
  front : Front L d

theorem Sound.evict_done (h : Sound c M L none) (hpos : 1 ≤ pages) (hpages : pages ≤ M .inactive)
    (hlen : (L .inactive).length ≤ M .inactive + 1) (hactive : (L .active).length ≤ M .active)
    (hd : Front L d) : ∃ c' L', c.evictWhenFull pages = some c' ∧ Done c' M L' d ∧
      (2 ≤ M .inactive → ∀ x, x ∈ L .active ∨ x ∈ (L .inactive).take 2 → ∃ t, x ∈ L' t) := by
  obtain ⟨c', k, hc, hk, hk₂, hs, hle⟩ := h.evictWhenFull hpos hpages hlen
  refine ⟨c', _, hc, ⟨hs, fun t => ?_, ?_⟩, fun hM x hx => ?_⟩
  · cases t with
    | active => simpa using hactive
    | inactive => simpa using hle
  · obtain ⟨t, ht⟩ := hd
    refine ⟨t, ?_⟩
    cases t with
    | active => simpa using ht
    | inactive => simpa [List.head?_take, show k ≠ 0 by omega] using ht
  · rcases hx with hx | hx
    · exact ⟨.active, by simpa using hx⟩
    · refine ⟨.inactive, ?_⟩
      rw [Function.update_self]
      exact (List.take_subset_take_left _ (hk₂ hM)) hx

theorem Sound.firstAccess {a : A} {q : CqEntry A} (h : Sound c M L none) (hpos : 1 ≤ pages)
    (hpages : pages ≤ M .inactive) (hbound : ∀ t, (L t).length ≤ M t) (scan : Bool)
    (hs : ∀ x ∈ s, ∃ t, x ∈ L t) (hd : c.heap d = none) :
    ∃ c' L', c.firstAccess pages scan s d a q = some c' ∧ Done c' M L' d ∧ KeepsFront M L L' := by
  obtain ⟨c₁, h₁, hs₁⟩ := h.allocEntry (a := a) (q := q) hd .inactive
  obtain ⟨c₂, h₂, hs₂⟩ := hs₁.insertHead .inactive
  have hsub : ∀ x t, x ∈ L t → x ∈ Function.update L .inactive (d :: L .inactive) t := fun x t hx => by
    cases t <;> simp [hx]
  obtain ⟨c₃, h₃, hs₃⟩ := hs₂.chain_link scan (s := s) (d := d) (t := .inactive)
    (fun x hx => (hs x hx).imp (hsub x)) (by simp)
  obtain ⟨c', L', h', hdone, hkeep⟩ := hs₃.evict_done (d := d) hpos hpages (by simpa using hbound .inactive)
    (by simpa using hbound .active) ⟨.inactive, by simp⟩
  refine ⟨c', L', ?_, hdone, fun hM x hx => hkeep hM x ?_⟩
  rotate_left
  · obtain ⟨t, ht⟩ := hx
    obtain ⟨l, hl⟩ := List.head?_eq_some_iff.mp ht
    cases t with
    | active => exact .inl (by simp [hl])
    | inactive => exact .inr (by simp [hl])
  simp only [CacheThread.firstAccess, h₁, h₂, Option.bind_eq_bind, Option.bind_some]
  rw [← Option.bind_assoc, h₃, Option.bind_some, h']

theorem Sound.hitActive (h : Sound c M L none) (hbound : ∀ t, (L t).length ≤ M t) (scan : Bool)
    (hs : ∀ x ∈ s, ∃ t, x ∈ L t)
    (hd : d ∈ L .active) : ∃ c' L', c.hitActive scan s d = some c' ∧ Done c' M L' d ∧ KeepsFront M L L' := by
  obtain ⟨xs, ys, hL⟩ := List.append_of_mem hd
  obtain ⟨c₁, h₁, hs₁⟩ := h.moveToHead hL
  have hmem : ∀ x t, x ∈ L t → x ∈ Function.update L .active (d :: (xs ++ ys)) t := fun x t hx => by
    cases t with
    | active => simpa [hL, or_left_comm] using hx
    | inactive => simpa using hx
  obtain ⟨c', h', hs'⟩ :=
    hs₁.chain_link scan (s := s) (d := d) (t := .active) (fun x hx => (hs x hx).imp (hmem x)) (by simp)
  refine ⟨c', _, ?_, ⟨hs', fun t => ?_, .active, by simp⟩, fun _ x hx => hx.mem.imp (hmem x)⟩
  · simp only [CacheThread.hitActive, h₁, Option.bind_eq_bind, Option.bind_some]
    exact h'
  · cases t with
    | active =>
      have hlen := hbound .active
      rw [hL] at hlen
      simp at hlen ⊢
      omega
    | inactive => simpa using hbound .inactive

theorem Sound.hitInactive (h : Sound c M L none) (hpos : 1 ≤ pages) (hpages : pages ≤ M .inactive)
    (hactive : 1 ≤ M .active) (hbound : ∀ t, (L t).length ≤ M t) (scan : Bool)
    (hs : ∀ x ∈ s, ∃ t, x ∈ L t) (hd : d ∈ L .inactive) :
    ∃ c' L', c.hitInactive pages scan s d = some c' ∧ Done c' M L' d ∧ KeepsFront M L L' := by
  obtain ⟨xs, ys, hL⟩ := List.append_of_mem hd
  have hinactive := hbound .inactive
  rw [hL, List.length_append, List.length_cons] at hinactive
  obtain ⟨c₁, h₁, hs₁⟩ := h.removeEntry hL
  obtain ⟨c₂, h₂, hs₂⟩ := hs₁.insertHead .active
  have hmem : ∀ x, (∃ t, x ∈ L t) →
      ∃ t, x ∈ Function.update (Function.update L .inactive (xs ++ ys)) .active
        (d :: Function.update L .inactive (xs ++ ys) .active) t := by
    rintro x ⟨t, hx⟩
    cases t with
    | active => exact ⟨.active, by simp [hx]⟩
    | inactive =>
      rw [hL] at hx
      by_cases hxd : x = d
      · exact ⟨.active, by simp [hxd]⟩
      · exact ⟨.inactive, by simpa [hxd] using hx⟩
  obtain ⟨c₃, h₃, hs₃⟩ :=
    hs₂.chain_link scan (s := s) (d := d) (t := .active) (fun x hx => hmem x (hs x hx)) (by simp)
  simp only [CacheThread.hitInactive, h₁, h₂, Option.bind_eq_bind, Option.bind_some]
  rw [← Option.bind_assoc, h₃, Option.bind_some, hs₃.maxSize, hs₃.curSize]
  split
  · rename_i hfull
    simp only [Function.update_self, ne_eq, reduceCtorEq, not_false_eq_true, Function.update_of_ne,
      List.length_cons, Nat.cast_add, Nat.cast_one] at hfull
    have hne : L .active ≠ [] := by
      rintro hnil
      rw [hnil] at hfull
      simp at hfull
      omega
    have htail : Function.update (Function.update L .inactive (xs ++ ys)) .active
        (d :: Function.update L .inactive (xs ++ ys) .active) .active =
        (d :: (L .active).dropLast) ++ [(L .active).getLast hne] := by
      simp [List.dropLast_append_getLast]
    obtain ⟨c₄, h₄, hs₄⟩ := hs₃.removeTail htail (by simp)
    obtain ⟨c₅, h₅, hs₅⟩ := hs₄.insertHead .inactive
    have hactive' : ((d :: (L .active).dropLast).length : ℤ) ≤ M .active := by
      have hlen := hbound .active
      have hpos := List.length_pos_iff.mpr hne
      simp only [List.length_cons, List.length_dropLast]
      omega
    obtain ⟨c', L', h', hdone, hkeep⟩ :=
      hs₅.evict_done (d := d) hpos hpages (by simp; omega) (by simpa using hactive')
      ⟨.active, by simp⟩
    refine ⟨c', L', ?_, hdone, fun hM x hx => hkeep hM x ?_⟩
    · rw [h₄, Option.bind_some, h₅, Option.bind_some, h']
    · obtain ⟨t, ht⟩ := hx
      cases t with
      | active =>
        -- the tail that moved over is the first inactive entry now
        have hx := List.mem_of_head? ht
        rw [← List.dropLast_append_getLast hne, List.mem_append, List.mem_singleton] at hx
        rcases hx with hx | hx
        · exact .inl (by simp [hx])
        · exact .inr (by simp [hx])
      | inactive =>
        rw [hL] at ht
        cases xs with
        | nil =>
          obtain rfl : d = x := by simpa using ht
          exact .inl (by simp)
        | cons x' xs =>
          obtain rfl : x' = x := by simpa using ht
          exact .inr (by simp)
  · rename_i hfull
    refine ⟨c₃, _, rfl, ⟨hs₃, fun t => ?_, .active, by simp⟩, fun _ x hx => hmem x hx.mem⟩
    cases t with
    | active => omega
    | inactive =>
      simp
      omega

theorem Sound.hit (h : Sound c M L none) (hpos : 1 ≤ pages) (hpages : pages ≤ M .inactive)
    (hactive : 1 ≤ M .active) (hbound : ∀ t, (L t).length ≤ M t) (scan : Bool)
    (hs : ∀ x ∈ s, ∃ t, x ∈ L t)
    (hd : c.heap d ≠ none) : ∃ c' L', c.hit pages scan s d = some c' ∧ Done c' M L' d ∧
    KeepsFront M L L' := by
  obtain ⟨e, he⟩ := Option.ne_none_iff_exists'.mp hd
  obtain ⟨t, hmem⟩ := (h.owned d hd).resolve_right (by simp)
  have htype : e.listType = t := by simpa [CacheThread.typeOf, he] using h.typeOf t d hmem
  rw [CacheThread.hit, he, Option.bind_some, htype]
  cases t with
  | active => exact h.hitActive hbound scan hs hmem
  | inactive => exact h.hitInactive hpos hpages hactive hbound scan hs hmem

/-! ## One item of a batch -/

/-- One iteration of the loop of `cacheOperation`. The result has `s_dc_entry` and the
addresses that `malloc` has left. -/
def cacheItem (pages : ℕ) (scan : Bool) (q : CqEntry A) (s : Option Ptr) (malloc : List Ptr) (c : CacheThread A) :
    Option (Option Ptr × List Ptr × CacheThread A) :=
  match q.atEntry with
  | none => some (s, malloc, c)
  | some a =>
    if InLog (c.table a) then some (s, malloc, c)
    else if getTag (c.table a).valAddr = dcacheVal then
      if getUntaggedPtr (c.table a).valAddr = 0 then some (s, malloc, c)
      else do
        let d ← toPtr (getUntaggedPtr (c.table a).valAddr)
        let c ← c.hit pages scan s d
        return (if scan then some d else s, malloc, c)
    else match malloc with
      | [] => none
      | d :: malloc => do
        let c ← c.firstAccess pages scan s d a q
        return (if scan then some d else s, malloc, c)

/-- The `dc_entry` of an item, if the item is not skipped. -/
def itemEntry (c : CacheThread A) (q : CqEntry A) (malloc : List Ptr) : Option Ptr :=
  q.atEntry.bind fun a =>
    if InLog (c.table a) then none
    else if getTag (c.table a).valAddr = dcacheVal then
      if getUntaggedPtr (c.table a).valAddr = 0 then none else toPtr (getUntaggedPtr (c.table a).valAddr)
    else malloc.head?

theorem cacheEntries_cons (pages : ℕ) (scan : Bool) (q : CqEntry A) (qs : List (CqEntry A)) (s : Option Ptr)
    (malloc : List Ptr) (c : CacheThread A) : cacheEntries pages scan (q :: qs) s malloc c =
      (cacheItem pages scan q s malloc c).bind fun r => cacheEntries pages scan qs r.1 r.2.1 r.2.2 := by
  rw [cacheEntries, cacheItem]
  cases q.atEntry with
  | none => rfl
  | some a =>
    by_cases hlog : InLog (c.table a)
    · simp only [if_pos hlog, Option.bind_some]
    · by_cases htag : getTag (c.table a).valAddr = dcacheVal
      · by_cases hnull : getUntaggedPtr (c.table a).valAddr = 0
        · simp only [if_neg hlog, if_pos htag, if_pos hnull, Option.bind_some]
        · simp only [if_neg hlog, if_pos htag, if_neg hnull, Option.bind_eq_bind, Option.bind_assoc, Option.pure_def,
            Option.bind_some]
      · simp only [if_neg hlog, if_neg htag]
        cases malloc with
        | nil => rfl
        | cons d malloc =>
          simp only [Option.bind_eq_bind, Option.bind_assoc, Option.pure_def, Option.bind_some]

theorem cacheItem_traced {q : CqEntry A} {malloc : List Ptr} {r : Option Ptr × List Ptr × CacheThread A}
    (h : c.cacheItem pages scan q s malloc = some r) : Traced [q] malloc c r.2.2 := by
  have hone : c.cacheEntries pages scan [q] s malloc = some r.2.2 := by
    rw [cacheEntries_cons, h]
    rfl
  exact cacheEntries_traced (fun _ h => h) (fun _ h => h) hone

theorem cacheItem_malloc {q : CqEntry A} {malloc : List Ptr} {r : Option Ptr × List Ptr × CacheThread A}
    (h : c.cacheItem pages scan q s malloc = some r) : ∀ d ∈ r.2.1, d ∈ malloc := by
  unfold cacheItem at h
  split at h
  · cases h
    exact fun _ hd => hd
  · split at h
    · cases h
      exact fun _ hd => hd
    · split at h
      · split at h
        · cases h
          exact fun _ hd => hd
        · obtain ⟨x, -, h⟩ := Option.bind_eq_some_iff.mp h
          obtain ⟨c₁, -, h⟩ := Option.bind_eq_some_iff.mp h
          obtain rfl := Option.some.inj h
          exact fun _ hd => hd
      · cases malloc with
        | nil => cases h
        | cons x malloc =>
          obtain ⟨c₁, -, h⟩ := Option.bind_eq_some_iff.mp h
          obtain rfl := Option.some.inj h
          exact fun _ hd => List.mem_cons_of_mem _ hd

theorem Traced.heap_ne_none {vec : List (CqEntry A)} {malloc : List Ptr} (h : Traced vec malloc c c')
    (hd : c'.heap d ≠ none) : c.heap d ≠ none ∨ d ∈ malloc := by
  have hblock : ∀ {u v : View A}, Block vec malloc u v → v.data d ≠ none → u.data d ≠ none ∨
    d ∈ malloc := by
    intro u v huv hv
    cases huv with
    | again a x y tag ptr data => exact .inl hv
    | promote a x y tag ptr data => exact .inl hv
    | cached a x q mem entry free addr log =>
      by_cases hx : d = x
      · exact .inr (hx ▸ addr)
      · exact .inl (by simpa [hx] using hv)
    | evict x y data =>
      by_cases hx : d = x
      · simp [hx] at hv
      · exact .inl (by simpa [hx] using hv)
  have hdata : ∀ c : CacheThread A, c.heap d ≠ none ↔ c.view.data d ≠ none := fun c =>
    not_congr (by simp [CacheThread.view, data])
  rw [hdata] at hd ⊢
  have hmain : ∀ {v : View A}, Relation.ReflTransGen (Block vec malloc) c.view v → v.data d ≠ none →
      c.view.data d ≠ none ∨ d ∈ malloc := by
    intro v hv
    induction hv with
    | refl => exact .inl
    | tail _ hb ih => exact fun hv => (hblock hb hv).elim ih .inr
  exact hmain h.blocks hd

/-- The cache between two items. -/
structure Cached (c : CacheThread A) (M : ListType → ℤ) (L : ListType → List Ptr) : Prop
    extends Sound c M L none where
  bound : ∀ t, (L t).length ≤ M t
  nonnull : ∀ d, c.heap d ≠ none → d.addr ≠ 0
  serves : Serves (fun _ _ => True) c.view

/-- `s_dc_entry` is the first entry of a list. -/
def Follows (scan : Bool) (s : Option Ptr) (L : ListType → List Ptr) : Prop :=
  ∀ x ∈ s, scan = true ∧ Front L x

theorem Follows.listed (h : Follows scan s L) : ∀ x ∈ s, ∃ t, x ∈ L t := fun x hx => (h x hx).2.mem

/-- `malloc` returns a free address if the item is a first access. -/
def Supplied (c : CacheThread A) (q : CqEntry A) (malloc : List Ptr) : Prop :=
  ∀ a ∈ q.atEntry, ¬ InLog (c.table a) → getTag (c.table a).valAddr ≠ dcacheVal →
    ∃ d ∈ malloc.head?, c.heap d = none

theorem supplied_of_cacheItem {q : CqEntry A} {malloc : List Ptr} {r : Option Ptr × List Ptr × CacheThread A}
    (h : c.cacheItem pages scan q s malloc = some r) : Supplied c q malloc := by
  intro a ha hlog htag
  rw [Option.mem_def] at ha
  simp only [cacheItem, ha, if_neg hlog, if_neg htag] at h
  cases malloc with
  | nil => cases h
  | cons d malloc =>
    obtain ⟨c₁, hfirst, -⟩ := Option.bind_eq_some_iff.mp h
    obtain ⟨c₂, halloc, -⟩ := Option.bind_eq_some_iff.mp hfirst
    obtain ⟨hfree, -⟩ := allocEntry_spec halloc
    exact ⟨d, rfl, by simpa [data] using hfree⟩

theorem Cached.cacheItem_cases {q : CqEntry A} {malloc : List Ptr} (h : Cached c M L) (hpos : 1 ≤ pages)
    (hpages : pages ≤ M .inactive) (hactive : 1 ≤ M .active) (hs : Follows scan s L)
    (hsupply : Supplied c q malloc) :
    ∃ r, c.cacheItem pages scan q s malloc = some r ∧ (c.itemEntry q malloc = none ∧ r = (s, malloc, c) ∨
      ∃ d L', c.itemEntry q malloc = some d ∧ Done r.2.2 M L' d ∧ KeepsFront M L L' ∧
        r.1 = if scan then some d else s) := by
  unfold CacheThread.cacheItem itemEntry
  cases ha : q.atEntry with
  | none => exact ⟨_, rfl, .inl ⟨rfl, rfl⟩⟩
  | some a =>
    rw [Option.bind_some]
    by_cases hlog : InLog (c.table a)
    · exact ⟨_, if_pos hlog, .inl ⟨if_pos hlog, rfl⟩⟩
    simp only [if_neg hlog]
    by_cases htag : getTag (c.table a).valAddr = dcacheVal
    · obtain ⟨d, key, val, hpt, hdata, -⟩ := h.serves a htag
      obtain ⟨e, he, -⟩ := data_eq_some.mp hdata
      have halloc : c.heap d ≠ none := by simp [he]
      have haddr : getUntaggedPtr (c.table a).valAddr = d.addr := hpt
      have hnull : getUntaggedPtr (c.table a).valAddr ≠ 0 := haddr ▸ h.nonnull d halloc
      have hptr := toPtr_eq_some_iff.mpr haddr
      obtain ⟨c', L', hhit, hdone, hkeep⟩ := h.hit hpos hpages hactive h.bound scan hs.listed halloc
      refine ⟨(if scan then some d else s, malloc, c'), ?_, .inr ⟨d, L', ?_, hdone, hkeep, rfl⟩⟩
      · simp only [if_pos htag, if_neg hnull, hptr, Option.bind_eq_bind, Option.bind_some, hhit, Option.pure_def]
      · simp only [if_pos htag, if_neg hnull, hptr]
    · obtain ⟨d, hd, hfree⟩ := hsupply a ha hlog htag
      obtain ⟨rest, rfl⟩ := List.head?_eq_some_iff.mp hd
      obtain ⟨c', L', hfirst, hdone, hkeep⟩ :=
        h.firstAccess (a := a) (q := q) hpos hpages h.bound scan hs.listed hfree
      refine ⟨(if scan then some d else s, rest, c'), ?_,
        .inr ⟨d, L', by rw [if_neg htag, hd], hdone, hkeep, rfl⟩⟩
      simp only [if_neg htag, Option.bind_eq_bind, hfirst, Option.bind_some, Option.pure_def]

theorem Cached.cacheItem {q : CqEntry A} {malloc : List Ptr} (h : Cached c M L) (hpos : 1 ≤ pages)
    (hpages : pages ≤ M .inactive) (hactive : 1 ≤ M .active) (hs : Follows scan s L)
    (hnull : ∀ d ∈ malloc, d.addr ≠ 0) (hsupply : Supplied c q malloc) :
    ∃ r L', c.cacheItem pages scan q s malloc = some r ∧ Cached r.2.2 M L' ∧ Follows scan r.1 L' ∧
      (c.itemEntry q malloc = none ∧ r.1 = s ∧ L' = L ∨
        ∃ d, c.itemEntry q malloc = some d ∧ KeepsFront M L L' ∧ Front L' d ∧
        r.1 = if scan then some d else s) := by
  obtain ⟨r, hr, ⟨hskip, rfl⟩ | ⟨d, L', hd, hdone, hkeep, hs'⟩⟩ :=
    h.cacheItem_cases hpos hpages hactive hs hsupply
  · exact ⟨_, L, hr, h, hs, .inl ⟨hskip, rfl, rfl⟩⟩
  · have ht := cacheItem_traced hr
    refine ⟨r, L', hr, ⟨hdone.toSound, hdone.bound, fun x hx => (ht.heap_ne_none hx).elim (h.nonnull x) (hnull x),
      h.serves.traced (fun _ _ _ _ _ => trivial) ht⟩, fun x hx => ?_, .inr ⟨d, hd, hkeep, hdone.front, hs'⟩⟩
    rw [hs'] at hx
    cases scan with
    | true =>
      obtain rfl := Option.some.inj hx
      exact ⟨rfl, hdone.front⟩
    | false => exact absurd (hs x hx).1 (by simp)

theorem Cached.setEntry (h : Cached c M L) (a : A) (f : AtEntry → AtEntry)
    (hf : ∀ e, getTag (f e).valAddr = dcacheVal → (f e).valAddr = e.valAddr) : Cached (c.setEntry a f) M L where
  toLists := h.toLists.of_table rfl rfl
  unchained := h.unchained
  bound := h.bound
  nonnull := h.nonnull
  serves b hb := by
    by_cases hab : b = a
    · subst hab
      have hself : (c.setEntry b f).view.table b = f (c.table b) := Function.update_self ..
      rw [hself] at hb ⊢
      have hsame := hf _ hb
      rw [hsame] at hb
      obtain ⟨d, key, val, hpt, hdata, hfree, -⟩ := h.serves b hb
      refine ⟨d, key, val, ?_, hdata, hfree, trivial⟩
      rw [AtEntry.PointsTo, hsame]
      exact hpt
    · have hother : (c.setEntry a f).view.table b = c.table b := Function.update_of_ne hab ..
      rw [hother] at hb ⊢
      exact h.serves b hb

end Hkv.DramCache.CacheThread

/-! ## Runs -/

namespace Hkv.DramCache
open MtsConfig TaggedPointer AddressTable StepRun CacheThread

variable {A : Type}

/-- A cache thread in the middle of a batch: whether it is a scan, `s_dc_entry`, and the
items to come. -/
structure CacheRun (A : Type) where
  cache : CacheThread A
  scan : Bool
  sDcEntry : Option Ptr
  items : List (CqEntry A)

inductive CacheStep (A : Type) where
  /-- `cacheOperation` begins. -/
  | batch (vec : List (CqEntry A))
  /-- One iteration, with the addresses that `malloc` returns. -/
  | item (malloc : List Ptr)
  /-- `link_to_ol` of an update. -/
  | update (a : A) (op : Ptr)
  /-- A reclaim or the garbage collection links the entry to a slot. -/
  | relink (a : A) (idx : VsIdx)

namespace CacheRun

/-- A new cache over an address table. -/
def new (table : A → AtEntry) (M : ListType → ℤ) : CacheRun A where
  cache := ⟨table, fun _ => none, fun t => ⟨none, none, M t, 0⟩⟩
  scan := false
  sDcEntry := none
  items := []

variable [DecidableEq A]

def step (pages : ℕ) (r : CacheRun A) : CacheStep A → Option (CacheRun A)
  | .batch vec =>
    match r.items, vec with
    | [], q :: _ => some { r with scan := q.ops == .scan, sDcEntry := none, items := vec }
    | _, _ => none
  | .item malloc =>
    match r.items with
    | [] => none
    | q :: qs =>
      if ∀ d ∈ malloc, d.addr ≠ 0 then
        (r.cache.cacheItem pages r.scan q r.sDcEntry malloc).map fun x =>
          { r with cache := x.2.2, sDcEntry := x.1, items := qs }
      else none
  | .update a op => some { r with cache := r.cache.setEntry a fun e => (linkToOlPast e op).1 }
  | .relink a idx => some { r with cache := r.cache.setEntry a fun e => { e with vsIdx := idx } }

end CacheRun

/-- The entries `L t` form the list `t`, and what is cached is on a list. -/
structure Structured (c : CacheThread A) (L : ListType → List Ptr) : Prop where
  listed : ∀ t, c.Listed t (L t)
  disjoint : (L .active).Disjoint (L .inactive)
  typeOf : ∀ t, ∀ d ∈ L t, c.typeOf d = some t
  curSize : ∀ t, (c.list t).curSize = (L t).length
  maxSize : ∀ t, (c.list t).curSize ≤ (c.list t).maxSize
  cached : ∀ a, getTag (c.table a).valAddr = dcacheVal → ∃ t, ∃ d ∈ L t, (c.table a).PointsTo d ∧
    ∃ e, c.heap d = some e ∧ e.atEntry = a

variable {M : ListType → ℤ} {L : ListType → List Ptr} {pages : ℕ}

theorem Structured.of_cached {c : CacheThread A} (h : c.Cached M L) : Structured c L where
  listed := h.listed
  disjoint _ hd := h.disjoint (by simp) hd
  typeOf := h.typeOf
  curSize := h.curSize
  maxSize t := by
    rw [h.curSize, h.maxSize]
    exact h.bound t
  cached a ha := by
    obtain ⟨d, key, val, hpt, hdata, -⟩ := h.serves a ha
    obtain ⟨e, he, hx⟩ := data_eq_some.mp hdata
    obtain ⟨t, ht⟩ := (h.owned d (by simp [he])).resolve_right (by simp)
    exact ⟨t, d, ht, hpt, e, he, congrArg Prod.fst hx⟩

namespace CacheRun

/-- Between two steps the cache is as it should be, and so is `s_dc_entry`. -/
def Kept (M : ListType → ℤ) (r : CacheRun A) : Prop :=
  ∃ L, r.cache.Cached M L ∧ Follows r.scan r.sDcEntry L

theorem kept_new (table : A → AtEntry) (htable : ∀ a, getTag (table a).valAddr ≠ dcacheVal)
    (hM : ∀ t, 0 ≤ M t) : (new table M).Kept M := by
  have hlisted : ∀ t, (new table M).cache.Listed t [] := fun t => ⟨rfl, rfl, trivial, List.nodup_nil, by simp⟩
  refine ⟨fun _ => [], ⟨⟨⟨hlisted, by simp, ?_, by simp, fun _ => rfl, fun _ => rfl⟩, ?_⟩, ?_, ?_, ?_⟩,
    ?_⟩
  · exact fun d hd => absurd rfl hd
  · exact fun d e he => by cases he
  · simpa using hM
  · exact fun d hd => absurd rfl hd
  · exact fun a ha => absurd ha (htable a)
  · exact fun x hx => by cases hx

variable [DecidableEq A]

theorem step_batch {r r' : CacheRun A} {vec : List (CqEntry A)} (h : r.step pages (.batch vec) = some r') :
    ∃ scan, r' = { r with scan := scan, sDcEntry := none, items := vec } := by
  simp only [CacheRun.step] at h
  split at h
  · cases h
    exact ⟨_, rfl⟩
  · cases h

theorem step_item {r r' : CacheRun A} {malloc : List Ptr} (h : r.step pages (.item malloc) = some r') :
    ∃ q qs y, r.items = q :: qs ∧ (∀ d ∈ malloc, d.addr ≠ 0) ∧
      r.cache.cacheItem pages r.scan q r.sDcEntry malloc = some y ∧
      r' = { r with cache := y.2.2, sDcEntry := y.1, items := qs } := by
  simp only [CacheRun.step] at h
  split at h
  · cases h
  · rename_i q qs hitems
    split at h
    · rename_i hnull
      obtain ⟨y, hy, rfl⟩ := Option.map_eq_some_iff.mp h
      exact ⟨q, qs, y, hitems, hnull, hy, rfl⟩
    · cases h

theorem cached_update {c : CacheThread A} (h : c.Cached M L) (a : A) (op : Ptr) :
    (c.setEntry a fun e => (linkToOlPast e op).1).Cached M L := by
  refine h.setEntry a (fun e => (linkToOlPast e op).1) fun e he => absurd he ?_
  rw [linkToOlPast, getTag_putTaggedPtr op (by decide)]
  decide

theorem cached_relink {c : CacheThread A} (h : c.Cached M L) (a : A) (idx : VsIdx) :
    (c.setEntry a fun e => { e with vsIdx := idx }).Cached M L :=
  h.setEntry a (fun e => { e with vsIdx := idx }) fun _ _ => rfl

theorem Kept.step {r r' : CacheRun A} {x : CacheStep A} (hpos : 1 ≤ pages) (hpages : pages ≤ M .inactive)
    (hactive : 1 ≤ M .active) (h : r.Kept M) (hstep : r.step pages x = some r') : r'.Kept M := by
  obtain ⟨L, hc, hs⟩ := h
  cases x with
  | batch vec =>
    obtain ⟨scan, rfl⟩ := step_batch hstep
    exact ⟨L, hc, by simp [Follows]⟩
  | item malloc =>
    obtain ⟨q, qs, y, -, hnull, hy, rfl⟩ := step_item hstep
    obtain ⟨y', L', hy', hc', hs', -⟩ := hc.cacheItem hpos hpages hactive hs hnull (supplied_of_cacheItem hy)
    obtain rfl := Option.some.inj (hy'.symm.trans hy)
    exact ⟨L', hc', hs'⟩
  | update a op =>
    cases hstep
    exact ⟨L, cached_update hc a op, hs⟩
  | relink a idx =>
    cases hstep
    exact ⟨L, cached_relink hc a idx, hs⟩

theorem Kept.exists_item {r : CacheRun A} {d : Ptr} (hpos : 1 ≤ pages) (hpages : pages ≤ M .inactive)
    (hactive : 1 ≤ M .active) (h : r.Kept M) (hitems : r.items ≠ []) (hfree : r.cache.heap d = none)
    (hnull : d.addr ≠ 0) : ∃ r', r.step pages (.item [d]) = some r' := by
  obtain ⟨L, hc, hs⟩ := h
  obtain ⟨q, qs, hq⟩ := List.exists_cons_of_ne_nil hitems
  have hnulls : ∀ x ∈ [d], x.addr ≠ 0 := by simpa using hnull
  obtain ⟨y, -, hy, -⟩ := hc.cacheItem (q := q) hpos hpages hactive hs hnulls fun a _ _ _ => ⟨d, rfl, hfree⟩
  refine ⟨{ r with cache := y.2.2, sDcEntry := y.1, items := qs }, ?_⟩
  simp only [CacheRun.step, hq, if_pos hnulls, hy, Option.map_some]

theorem run_of_cacheEntries {malloc : List Ptr} {qs : List (CqEntry A)} {r : CacheRun A} {c' : CacheThread A}
    (hnull : ∀ d ∈ malloc, d.addr ≠ 0) (hqs : r.items = qs)
    (h : r.cache.cacheEntries pages r.scan qs r.sDcEntry malloc = some c') :
    ∃ xs r', run (step pages) r xs = some r' ∧ r'.cache = c' ∧ r'.items = [] := by
  induction qs generalizing r malloc with
  | nil =>
    cases h
    exact ⟨[], r, rfl, rfl, hqs⟩
  | cons q qs ih =>
    rw [cacheEntries_cons] at h
    obtain ⟨y, hy, h⟩ := Option.bind_eq_some_iff.mp h
    have hstep : r.step pages (.item malloc) = some { r with cache := y.2.2, sDcEntry := y.1, items := qs } := by
      simp only [CacheRun.step, hqs, if_pos hnull, hy, Option.map_some]
    obtain ⟨xs, r', hrun, hr'⟩ := ih (r := { r with cache := y.2.2, sDcEntry := y.1, items := qs })
      (fun d hd => hnull d (cacheItem_malloc hy d hd)) rfl h
    exact ⟨.item malloc :: xs, r', (run_cons hstep).trans hrun, hr'⟩

theorem run_of_cacheOperation {vec : List (CqEntry A)} {malloc : List Ptr} {r : CacheRun A} {c' : CacheThread A}
    (hnull : ∀ d ∈ malloc, d.addr ≠ 0) (hitems : r.items = [])
    (h : r.cache.cacheOperation pages vec malloc = some c') :
    ∃ xs r', run (step pages) r (.batch vec :: xs) = some r' ∧ r'.cache = c' ∧ r'.items = [] := by
  cases vec with
  | nil => cases h
  | cons q qs =>
    have hstep : r.step pages (.batch (q :: qs)) =
        some { r with scan := q.ops == .scan, sDcEntry := none, items := q :: qs } := by
      simp only [CacheRun.step, hitems]
    obtain ⟨xs, r', hrun, hr'⟩ := run_of_cacheEntries
      (r := { r with scan := q.ops == .scan, sDcEntry := none, items := q :: qs }) hnull rfl h
    exact ⟨xs, r', (run_cons hstep).trans hrun, hr'⟩

/-- The cache keeps its structure. -/
theorem run_structured (hpos : 1 ≤ pages) (hpages : pages ≤ M .inactive) (hactive : 1 ≤ M .active)
    (table : A → AtEntry) (htable : ∀ a, getTag (table a).valAddr ≠ dcacheVal) {xs : List (CacheStep A)}
    {r : CacheRun A} (hrun : run (step pages) (new table M) xs = some r) : (∃ L, Structured r.cache L) ∧
      ∀ d, r.items ≠ [] → r.cache.heap d = none → d.addr ≠ 0 →
        ∃ r', r.step pages (.item [d]) = some r' := by
  have hM : ∀ t, 0 ≤ M t := fun t => by cases t <;> omega
  have hkept : r.Kept M := run_induction_of_step (fun _ _ _ hk hs => hk.step hpos hpages hactive hs)
    (kept_new table htable hM) hrun
  refine ⟨hkept.imp fun L h => .of_cached h.1, fun d hitems hfree hnull => ?_⟩
  exact hkept.exists_item hpos hpages hactive hitems hfree hnull

/-- The second entry evicts the first one; read again, it becomes active. -/
theorem run_structured_evict : ∃ r, run (step 1)
      (new (fun _ : ℕ => (⟨⟨0, 0⟩, 0⟩ : AtEntry)) fun _ => 1)
      [.batch [⟨some 0, 5, 50, .scan⟩, ⟨some 1, 6, 60, .scan⟩, ⟨some 1, 6, 60, .scan⟩],
        .item [⟨16, by decide⟩], .item [⟨32, by decide⟩], .relink 1 ⟨2, 3⟩, .item [],
        .update 0 ⟨48, by decide⟩] = some r ∧
      ((r.cache.list .active).curSize = 1 ∧ getTag (r.cache.table 1).valAddr = dcacheVal) ∧
      ∃ L, Structured r.cache L := by
  have hsome : (run (step 1) (new (fun _ : ℕ => (⟨⟨0, 0⟩, 0⟩ : AtEntry)) fun _ => 1)
      [.batch [⟨some 0, 5, 50, .scan⟩, ⟨some 1, 6, 60, .scan⟩, ⟨some 1, 6, 60, .scan⟩],
        .item [⟨16, by decide⟩],
        .item [⟨32, by decide⟩], .relink 1 ⟨2, 3⟩, .item [], .update 0 ⟨48, by decide⟩]).map (fun r =>
          decide ((r.cache.list .active).curSize = 1 ∧ getTag (r.cache.table 1).valAddr = dcacheVal)) =
            some true := by
    decide +kernel
  obtain ⟨r, hrun, hr⟩ := Option.map_eq_some_iff.mp hsome
  refine ⟨r, hrun, of_decide_eq_true hr,
    (run_structured (by decide) (by decide) (by decide) _ (fun a => ?_) hrun).1⟩
  decide

end CacheRun

end Hkv.DramCache
