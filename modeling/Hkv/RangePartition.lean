import Mathlib.Data.List.Basic
import Mathlib.Order.Lattice

/-!
# Ranges that follow each other

A list of half-open ranges without gaps and without overlaps. Nothing here is specific to the
project.
-/
namespace Hkv.RangePartition

variable {P κ : Type*} [LinearOrder κ] {low high low' high' : P → κ} {lo hi mid k : κ} {p q : P}
    {xs ys ps : List P}

/-- The ranges `[low p, high p)` of the list are not empty and lead from `lo` to `hi`. -/
def Abut (low high : P → κ) : κ → List P → κ → Prop
  | lo, [], hi => lo = hi
  | lo, p :: ps, hi => low p = lo ∧ lo < high p ∧ Abut low high (high p) ps hi

theorem abut_append : Abut low high lo (xs ++ ys) hi ↔
    ∃ mid, Abut low high lo xs mid ∧ Abut low high mid ys hi := by
  induction xs generalizing lo with
  | nil => simp [Abut]
  | cons x xs ih => simp [Abut, ih, and_assoc]

theorem Abut.congr (h : Abut low high lo ps hi) (hlow : ∀ p ∈ ps, low' p = low p)
    (hhigh : ∀ p ∈ ps, high' p = high p) : Abut low' high' lo ps hi := by
  induction ps generalizing lo with
  | nil => exact h
  | cons p ps ih =>
    rw [List.forall_mem_cons] at hlow hhigh
    obtain ⟨hlo, hlt, hps⟩ := h
    refine ⟨hlow.1.trans hlo, ?_, ?_⟩
    · rwa [hhigh.1]
    · rw [hhigh.1]
      exact ih hps hlow.2 hhigh.2

theorem Abut.le (h : Abut low high lo ps hi) : lo ≤ hi := by
  induction ps generalizing lo with
  | nil => exact le_of_eq h
  | cons p ps ih => exact le_of_lt (lt_of_lt_of_le h.2.1 (ih h.2.2))

theorem Abut.bounds (h : Abut low high lo (xs ++ p :: ys) hi) :
    lo ≤ low p ∧ low p < high p ∧ high p ≤ hi := by
  obtain ⟨mid, hxs, hlow, hlt, hys⟩ := abut_append.mp h
  rw [hlow]
  exact ⟨hxs.le, hlt, hys.le⟩

theorem Abut.bounds_of_mem (h : Abut low high lo ps hi) (hp : p ∈ ps) :
    lo ≤ low p ∧ low p < high p ∧ high p ≤ hi := by
  obtain ⟨xs, ys, rfl⟩ := List.mem_iff_append.mp hp
  exact h.bounds

/-- Earlier ranges end before a range begins, later ones begin after it ends. -/
theorem Abut.order (h : Abut low high lo (xs ++ p :: ys) hi) :
    (∀ q ∈ xs, high q ≤ low p) ∧ ∀ q ∈ ys, high p ≤ low q := by
  obtain ⟨mid, hxs, hlow, hlt, hys⟩ := abut_append.mp h
  constructor
  · intro q hq
    rw [hlow]
    exact (hxs.bounds_of_mem hq).2.2
  · intro q hq
    exact (hys.bounds_of_mem hq).1

/-- Every point is in one of the ranges. -/
theorem Abut.exists_covering (h : Abut low high lo ps hi) (hlo : lo ≤ k) (hhi : k < hi) :
    ∃ xs p ys, ps = xs ++ p :: ys ∧ low p ≤ k ∧ k < high p := by
  induction ps generalizing lo with
  | nil =>
    have heq : lo = hi := h
    exact absurd (lt_of_le_of_lt hlo hhi) (by simp [heq])
  | cons p ps ih =>
    obtain ⟨hlow, hlt, hps⟩ := h
    rcases lt_or_ge k (high p) with hk | hk
    · exact ⟨[], p, ps, rfl, by rwa [hlow], hk⟩
    · obtain ⟨xs, q, ys, rfl, hq⟩ := ih hps hk
      exact ⟨p :: xs, q, ys, rfl, hq⟩

/-- Two ranges of the list with a common point are the same one. -/
theorem Abut.unique (h : Abut low high lo ps hi) (hp : p ∈ ps) (hq : q ∈ ps) (hpk : low p ≤ k ∧ k < high p)
    (hqk : low q ≤ k ∧ k < high q) : p = q := by
  obtain ⟨xs, ys, rfl⟩ := List.mem_iff_append.mp hp
  rcases List.mem_append.mp hq with hq | hq
  · exact absurd (lt_of_lt_of_le hqk.2 (h.order.1 q hq)) (not_lt.mpr hpk.1)
  · rcases List.mem_cons.mp hq with rfl | hq
    · rfl
    · exact absurd (lt_of_lt_of_le hpk.2 (h.order.2 q hq)) (not_lt.mpr hqk.1)

/-- One range is cut in two. -/
theorem Abut.cut (h : Abut low high lo (xs ++ p :: ys) hi) (hmid : low p < high' p) (hmid' : high' p < high p)
    (hp : low' p = low p) (hq : low' q = high' p) (hq' : high' q = high p)
    (hlow : ∀ r ∈ xs ++ ys, low' r = low r) (hhigh : ∀ r ∈ xs ++ ys, high' r = high r) :
    Abut low' high' lo (xs ++ p :: q :: ys) hi := by
  obtain ⟨mid, hxs, hpl, -, hys⟩ := abut_append.mp h
  rw [List.forall_mem_append] at hlow hhigh
  refine abut_append.mpr ⟨mid, hxs.congr hlow.1 hhigh.1, hp.trans hpl, ?_, hq, ?_, ?_⟩
  · rwa [← hpl]
  · rwa [hq']
  · rw [hq']
    exact hys.congr hlow.2 hhigh.2

/-- One range takes over the next one. -/
theorem Abut.join (h : Abut low high lo (xs ++ p :: q :: ys) hi) (hp : low' p = low p) (hp' : high' p = high q)
    (hlow : ∀ r ∈ xs ++ ys, low' r = low r) (hhigh : ∀ r ∈ xs ++ ys, high' r = high r) :
    Abut low' high' lo (xs ++ p :: ys) hi := by
  obtain ⟨mid, hxs, hpl, hlt, hql, hlt', hys⟩ := abut_append.mp h
  rw [List.forall_mem_append] at hlow hhigh
  refine abut_append.mpr ⟨mid, hxs.congr hlow.1 hhigh.1, hp.trans hpl, ?_, ?_⟩
  · rw [hp']
    exact lt_trans hlt hlt'
  · rw [hp']
    exact hys.congr hlow.2 hhigh.2

end Hkv.RangePartition
