import Mathlib.Data.List.Count
import Mathlib.Logic.Function.Basic

/-!
# A pool of resources

The resources of a pool are handed out from a list of free ones, filled by whoever holds
them and let go. A resource that nobody holds and that is empty again goes back to the
list. In a conserved pool every resource is free, held by exactly one holder, or closed:
let go with content in it. Such a pool is exclusive, and no resource is lost.
-/
namespace Hkv.ResourcePool

@[ext] structure Pool (O C : Type) where
  free : List C
  used : C → Bool
  held : O → Option C

variable {O C : Type} [DecidableEq C]

namespace Pool

/-- The three conditions of a resource, which exclude each other. -/
inductive Stands (p : Pool O C) (c : C) : Prop where
  | free (listed : p.free.count c = 1) (empty : p.used c = false) (unheld : ∀ o, p.held o ≠ some c)
  | held (o : O) (holds : p.held o = some c) (only : ∀ o', p.held o' = some c → o' = o)
    (unlisted : p.free.count c = 0)
  | closed (unlisted : p.free.count c = 0) (unheld : ∀ o, p.held o ≠ some c) (used : p.used c = true)

/-- Every resource of `D` is in one of the three conditions. -/
def Conserved (D : Set C) (p : Pool O C) : Prop := ∀ c ∈ D, p.Stands c

/-- `c` is listed at most once and has at most one holder, and not both. -/
structure Sole (p : Pool O C) (c : C) : Prop where
  once : p.free.count c ≤ 1
  listed : c ∈ p.free → p.used c = false ∧ ∀ o, p.held o ≠ some c
  only : ∀ o o', p.held o = some c → p.held o' = some c → o' = o

def Exclusive (D : Set C) (p : Pool O C) : Prop := ∀ c ∈ D, p.Sole c

/-- `c` is empty, and nobody will ever find it again. -/
structure Lost (p : Pool O C) (c : C) : Prop where
  unlisted : c ∉ p.free
  unheld : ∀ o, p.held o ≠ some c
  empty : p.used c = false

def NoneLost (D : Set C) (p : Pool O C) : Prop := ∀ c ∈ D, ¬ p.Lost c

variable {D : Set C} {p : Pool O C} {c : C}

theorem stands_iff : p.Stands c ↔ p.Sole c ∧ ¬ p.Lost c := by
  constructor
  · intro h
    cases h with
    | free listed empty unheld =>
      refine ⟨⟨Nat.le_of_eq listed, fun _ => ⟨empty, unheld⟩, fun o _ ho => absurd ho (unheld o)⟩,
        fun hl => ?_⟩
      exact hl.unlisted (List.count_pos_iff.mp (by omega))
    | held o holds only unlisted =>
      have hmem : c ∉ p.free := List.count_eq_zero.mp unlisted
      refine ⟨⟨by omega, fun hc => absurd hc hmem, fun o₁ o₂ h₁ h₂ => ?_⟩,
        fun hl => hl.unheld o holds⟩
      rw [only o₁ h₁, only o₂ h₂]
    | closed unlisted unheld used =>
      have hmem : c ∉ p.free := List.count_eq_zero.mp unlisted
      refine ⟨⟨by omega, fun hc => absurd hc hmem, fun o _ ho => absurd ho (unheld o)⟩, fun hl => ?_⟩
      simp [hl.empty] at used
  · rintro ⟨hs, hl⟩
    by_cases hmem : c ∈ p.free
    · have hpos : 0 < p.free.count c := List.count_pos_iff.mpr hmem
      obtain ⟨hempty, hunheld⟩ := hs.listed hmem
      exact .free (by have := hs.once; omega) hempty hunheld
    · have hzero := List.count_eq_zero.mpr hmem
      by_cases hheld : ∃ o, p.held o = some c
      · obtain ⟨o, ho⟩ := hheld
        exact .held o ho (fun o' => hs.only o o' ho) hzero
      · have hunheld : ∀ o, p.held o ≠ some c := fun o ho => hheld ⟨o, ho⟩
        refine .closed hzero hunheld ?_
        by_contra hused
        exact hl ⟨hmem, hunheld, by simpa using hused⟩

theorem conserved_iff : p.Conserved D ↔ p.Exclusive D ∧ p.NoneLost D := by
  constructor
  · exact fun h => ⟨fun c hc => (stands_iff.mp (h c hc)).1, fun c hc => (stands_iff.mp (h c hc)).2⟩
  · exact fun h c hc => stands_iff.mpr ⟨h.1 c hc, h.2 c hc⟩

theorem Sole.unlisted_of_held (h : p.Sole c) {o : O} (ho : p.held o = some c) : c ∉ p.free :=
  fun hc => (h.listed hc).2 o ho

theorem Sole.unlisted_of_used (h : p.Sole c) (hu : p.used c = true) : c ∉ p.free := fun hc => by
  simp [(h.listed hc).1] at hu

/-! ## The operations -/

section Holders
variable [DecidableEq O]

/-- `o` gets the free resource `c`, after which `rest` is free. -/
def take (p : Pool O C) (o : O) (c : C) (rest : List C) : Pool O C :=
  { p with free := rest, held := Function.update p.held o (some c) }

/-- `o` lets go of what it holds. -/
def release (p : Pool O C) (o : O) : Pool O C := { p with held := Function.update p.held o none }

/-- `o` returns `c` to the list. -/
def giveBack (p : Pool O C) (o : O) (c : C) : Pool O C :=
  { p with free := p.free ++ [c], held := Function.update p.held o none }

end Holders

/-- Something is put into `c`. -/
def fill (p : Pool O C) (c : C) : Pool O C := { p with used := Function.update p.used c true }

/-- The last thing is taken out of `c`, which goes to the list. -/
def drain (p : Pool O C) (c : C) : Pool O C :=
  { p with free := p.free ++ [c], used := Function.update p.used c false }

@[simp] theorem fill_used_self (p : Pool O C) (c : C) : (p.fill c).used c = true := Function.update_self ..

theorem fill_used_of_ne (p : Pool O C) {d : C} (h : d ≠ c) : (p.fill c).used d = p.used d :=
    Function.update_of_ne h ..

@[simp] theorem drain_used_self (p : Pool O C) (c : C) : (p.drain c).used c = false := Function.update_self ..

theorem drain_used_of_ne (p : Pool O C) {d : C} (h : d ≠ c) : (p.drain c).used d = p.used d :=
  Function.update_of_ne h ..

theorem count_append_of_ne {l : List C} {d : C} (h : d ≠ c) : (l ++ [c]).count d = l.count d := by
  rw [List.count_append, List.count_singleton, if_neg (by simpa using Ne.symm h), Nat.add_zero]

section Holders
variable [DecidableEq O] {o : O}

omit [DecidableEq C] in
theorem held_of_update_none {o' : O} (h : Function.update p.held o none o' = some c) :
    o' ≠ o ∧ p.held o' = some c := by
  by_cases ho : o' = o
  · subst ho
    simp at h
  · exact ⟨ho, by rwa [Function.update_of_ne ho] at h⟩

theorem Exclusive.take (h : p.Exclusive D) {rest : List C} (hfree : p.free = c :: rest) :
    (p.take o c rest).Exclusive D := by
  intro d hd
  have hs := h d hd
  have honce := hs.once
  rw [hfree] at honce
  have hmem : d ∈ rest → d ∈ p.free := fun hm => by simp [hfree, hm]
  by_cases hdc : d = c
  · subst hdc
    -- the new holder is the only one, since nobody held a listed resource
    rw [List.count_cons_self] at honce
    have hunheld := (hs.listed (by simp [hfree])).2
    have hrest : d ∉ rest := List.count_eq_zero.mp (by omega)
    have hself : ∀ o', (p.take o d rest).held o' = some d → o' = o := by
      intro o' ho'
      by_contra hne
      exact hunheld o' (by simpa [Pool.take, hne] using ho')
    exact ⟨by change rest.count d ≤ 1; omega, fun hm => absurd hm hrest,
      fun o₁ o₂ h₁ h₂ => (hself o₂ h₂).trans (hself o₁ h₁).symm⟩
  · have hheld : ∀ o', (p.take o c rest).held o' = some d → p.held o' = some d := by
      intro o' ho'
      by_cases hoo : o' = o
      · subst hoo
        simp [Pool.take, Ne.symm hdc] at ho'
      · simpa [Pool.take, hoo] using ho'
    refine ⟨?_, fun hm => ?_, fun o₁ o₂ h₁ h₂ => hs.only o₁ o₂ (hheld o₁ h₁) (hheld o₂ h₂)⟩
    · rw [List.count_cons_of_ne (Ne.symm hdc)] at honce
      exact honce
    · obtain ⟨hu, hn⟩ := hs.listed (hmem hm)
      exact ⟨hu, fun o' ho' => hn o' (hheld o' ho')⟩

theorem Exclusive.release (h : p.Exclusive D) : (p.release o).Exclusive D := fun d hd =>
  ⟨(h d hd).once,
    fun hm => ⟨((h d hd).listed hm).1, fun o' ho' => ((h d hd).listed hm).2 o' (held_of_update_none ho').2⟩,
    fun o₁ o₂ h₁ h₂ => (h d hd).only o₁ o₂ (held_of_update_none h₁).2 (held_of_update_none h₂).2⟩

theorem Exclusive.giveBack (h : p.Exclusive D) (ho : p.held o = some c) (hu : p.used c = false) :
    (p.giveBack o c).Exclusive D := by
  intro d hd
  have hs := h.release (o := o) d hd
  by_cases hdc : d = c
  · subst hdc
    have hzero := List.count_eq_zero.mpr ((h d hd).unlisted_of_held ho)
    refine ⟨by simp [Pool.giveBack, hzero], fun _ => ⟨hu, fun o' ho' => ?_⟩, hs.only⟩
    obtain ⟨hne, ho'⟩ := held_of_update_none ho'
    exact hne ((h d hd).only o o' ho ho')
  · refine ⟨Nat.le_trans (Nat.le_of_eq (count_append_of_ne hdc)) hs.once, fun hm => hs.listed ?_, hs.only⟩
    simpa [Pool.giveBack, Pool.release, hdc] using hm

omit [DecidableEq C] in
theorem noneLost_take_iff {rest : List C} (hfree : p.free = c :: rest) (ho : p.held o = none) :
    (p.take o c rest).NoneLost D ↔ p.NoneLost D := by
  have hself : (p.take o c rest).held o = some c := Function.update_self ..
  have hother : ∀ o', o' ≠ o → (p.take o c rest).held o' = p.held o' := fun o' h => Function.update_of_ne h ..
  refine forall₂_congr fun d _ => not_congr ⟨fun hl => ?_, fun hl => ?_⟩
  · have hdc : d ≠ c := by
      rintro rfl
      exact hl.unheld o hself
    refine ⟨fun hm => hl.unlisted (by simpa [Pool.take, hfree, hdc] using hm), fun o' ho' => ?_, hl.empty⟩
    have hne : o' ≠ o := by
      rintro rfl
      simp [ho] at ho'
    exact hl.unheld o' ((hother o' hne).trans ho')
  · refine ⟨fun hm => hl.unlisted (hfree ▸ List.mem_cons_of_mem _ hm), fun o' ho' => ?_, hl.empty⟩
    by_cases hoo : o' = o
    · subst hoo
      rw [hself] at ho'
      exact hl.unlisted (by simp [hfree, Option.some.inj ho'])
    · exact hl.unheld o' ((hother o' hoo).symm.trans ho')

/-- Letting go is right for a resource with content only. -/
theorem noneLost_release_iff (he : p.Exclusive D) :
    (p.release o).NoneLost D ↔ p.NoneLost D ∧ ∀ c ∈ D, p.held o = some c → p.used c = true := by
  constructor
  · intro hn
    refine ⟨fun c hc hl => ?_, fun c hc ho => ?_⟩
    · exact hn c hc ⟨hl.unlisted, fun o' ho' => hl.unheld o' (held_of_update_none ho').2, hl.empty⟩
    · by_contra hu
      refine hn c hc ⟨(he c hc).unlisted_of_held ho, fun o' ho' => ?_, by simpa [Pool.release] using hu⟩
      obtain ⟨hne, ho'⟩ := held_of_update_none ho'
      exact hne ((he c hc).only o o' ho ho')
  · rintro ⟨h, hu⟩ c hc hl
    refine h c hc ⟨hl.unlisted, fun o' ho' => ?_, hl.empty⟩
    by_cases hoo : o' = o
    · subst hoo
      have hempty : p.used c = false := hl.empty
      simp [hu c hc ho'] at hempty
    · exact hl.unheld o' (by simpa [Pool.release, hoo] using ho')

omit [DecidableEq C] in
theorem noneLost_giveBack_iff (ho : p.held o = some c) : (p.giveBack o c).NoneLost D ↔ p.NoneLost D := by
  refine forall₂_congr fun d _ => not_congr ⟨fun hl => ?_, fun hl => ?_⟩
  · have hdc : d ≠ c := by
      rintro rfl
      exact hl.unlisted (by simp [Pool.giveBack])
    refine ⟨fun hm => hl.unlisted (List.mem_append_left _ hm), fun o' ho' => ?_, hl.empty⟩
    have hne : o' ≠ o := by
      rintro rfl
      exact hdc (Option.some.inj (ho'.symm.trans ho))
    exact hl.unheld o' (by simpa [Pool.giveBack, hne] using ho')
  · have hdc : d ≠ c := by
      rintro rfl
      exact hl.unheld o ho
    refine ⟨fun hm => hl.unlisted (by simpa [Pool.giveBack, hdc] using hm), fun o' ho' => ?_, hl.empty⟩
    exact hl.unheld o' (held_of_update_none ho').2

end Holders

theorem Exclusive.fill (h : p.Exclusive D) {o : O} (ho : p.held o = some c) : (p.fill c).Exclusive D := by
  intro d hd
  refine ⟨(h d hd).once, fun hm => ?_, (h d hd).only⟩
  obtain ⟨hu, hn⟩ := (h d hd).listed hm
  have hdc : d ≠ c := by
    rintro rfl
    exact hn o ho
  exact ⟨(fill_used_of_ne p hdc).trans hu, hn⟩

/-- Listing an emptied resource is right if nobody holds it. -/
theorem exclusive_drain_iff (h : p.Exclusive D) (hu : p.used c = true) (hc : c ∈ D) :
    (p.drain c).Exclusive D ↔ ∀ o, p.held o ≠ some c := by
  constructor
  · exact fun hs => ((hs c hc).listed (by simp [drain])).2
  · intro hunheld d hd
    have hs := h d hd
    by_cases hdc : d = c
    · subst hdc
      have hzero := List.count_eq_zero.mpr (hs.unlisted_of_used hu)
      exact ⟨by simp [drain, hzero], fun _ => ⟨drain_used_self p d, hunheld⟩, hs.only⟩
    · refine ⟨Nat.le_trans (Nat.le_of_eq (count_append_of_ne hdc)) hs.once, fun hm => ?_, hs.only⟩
      obtain ⟨hu', hn⟩ := hs.listed (by simpa [drain, hdc] using hm)
      exact ⟨(drain_used_of_ne p hdc).trans hu', hn⟩

theorem noneLost_fill_iff {o : O} (ho : p.held o = some c) : (p.fill c).NoneLost D ↔ p.NoneLost D := by
  refine forall₂_congr fun d _ => not_congr ?_
  by_cases hdc : d = c
  · subst hdc
    exact ⟨fun hl => absurd ho (hl.unheld o), fun hl => absurd ho (hl.unheld o)⟩
  · exact ⟨fun hl => ⟨hl.unlisted, hl.unheld, fill_used_of_ne p hdc ▸ hl.empty⟩,
      fun hl => ⟨hl.unlisted, hl.unheld, (fill_used_of_ne p hdc).trans hl.empty⟩⟩

theorem noneLost_drain_iff (hu : p.used c = true) : (p.drain c).NoneLost D ↔ p.NoneLost D := by
  refine forall₂_congr fun d _ => not_congr ⟨fun hl => ?_, fun hl => ?_⟩
  · have hdc : d ≠ c := by
      rintro rfl
      exact hl.unlisted (by simp [drain])
    exact ⟨fun hm => hl.unlisted (List.mem_append_left _ hm), hl.unheld, drain_used_of_ne p hdc ▸ hl.empty⟩
  · have hdc : d ≠ c := by
      rintro rfl
      simp [hl.empty] at hu
    exact ⟨fun hm => hl.unlisted (by simpa [drain, hdc] using hm), hl.unheld,
      (drain_used_of_ne p hdc).trans hl.empty⟩

end Pool

end Hkv.ResourcePool
