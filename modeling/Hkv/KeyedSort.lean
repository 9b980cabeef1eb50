import Mathlib.Data.List.Sort
import Mathlib.Data.List.Perm.Basic
import Mathlib.Data.List.Nodup

/-!
# Sorting by a numeric key with an unspecified tie order

`StdSort` is any sorting routine that returns a permutation ordered by the
comparator; equal keys may come out in any order. What it returns is determined
where the keys are distinct, and the lemmas below are the cases of that fact in
which two routines must agree on one permutation.
-/
namespace Hkv.KeyedSort

/-- The comparator that compares a numeric key. -/
def byKey {α : Type} (key : α → ℕ) (a b : α) : Bool := decide (key a < key b)

structure StdSort where
  sort : {α : Type} → (α → α → Bool) → List α → List α
  perm : ∀ {α : Type} (lt : α → α → Bool) (l : List α), (sort lt l).Perm l
  sorted : ∀ {α : Type} (key : α → ℕ) (l : List α),
    (sort (byKey key) l).Pairwise (fun a b => key a ≤ key b)

namespace StdSort

variable (S : StdSort) {α β : Type}

@[simp] theorem length_sort (lt : α → α → Bool) (l : List α) : (S.sort lt l).length = l.length :=
  (S.perm lt l).length_eq

@[simp] theorem mem_sort (lt : α → α → Bool) (l : List α) {a : α} : a ∈ S.sort lt l ↔ a ∈ l :=
  (S.perm lt l).mem_iff

/-- An ordered permutation is the sorted list, provided that equal keys mean equal elements. -/
theorem eq_sort_of_perm (key : α → ℕ) {l l' : List α} (hp : l'.Perm l)
    (hs : l'.Pairwise (fun a b => key a ≤ key b))
    (hkey : ∀ a ∈ l, ∀ b ∈ l, key a = key b → a = b) : l' = S.sort (byKey key) l := by
  refine List.Perm.eq_of_pairwise ?_ hs (S.sorted key l) (hp.trans (S.perm _ l).symm)
  intro a b ha hb hab hba
  exact hkey a (hp.mem_iff.mp ha) b ((S.mem_sort _ l).mp hb) (Nat.le_antisymm hab hba)

theorem eq_of_nodup_keys (key : α → ℕ) {l : List α} (hn : (l.map key).Nodup) :
    ∀ a ∈ l, ∀ b ∈ l, key a = key b → a = b :=
  fun _ ha _ hb h => List.inj_on_of_nodup_map hn ha hb h

/-- Sorting images by a key that the map carries over is mapping the sorted list. -/
theorem sort_map (key : α → ℕ) (key' : β → ℕ) (g : α → β) {l : List α}
    (hg : ∀ a ∈ l, key' (g a) = key a) (hn : (l.map key).Nodup) :
    S.sort (byKey key') (l.map g) = (S.sort (byKey key) l).map g := by
  symm
  apply S.eq_sort_of_perm key' ((S.perm _ l).map g)
  · rw [List.pairwise_map]
    refine (S.sorted key l).imp_of_mem ?_
    intro a b ha hb hab
    rw [hg a ((S.mem_sort _ l).mp ha), hg b ((S.mem_sort _ l).mp hb)]
    exact hab
  · intro x hx y hy hxy
    obtain ⟨a, ha, rfl⟩ := List.mem_map.mp hx
    obtain ⟨b, hb, rfl⟩ := List.mem_map.mp hy
    rw [hg a ha, hg b hb] at hxy
    rw [eq_of_nodup_keys key hn a ha b hb hxy]

theorem nodup_keys_sort (key : α → ℕ) {l : List α} (hn : (l.map key).Nodup) :
    ((S.sort (byKey key) l).map key).Nodup :=
  ((S.perm _ l).map key).nodup_iff.mpr hn

/-- Elements with larger keys do not disturb the sorted prefix. -/
theorem sort_append (key : α → ℕ) {l m : List α} (hn : (l.map key).Nodup)
    (hlt : ∀ a ∈ l, ∀ b ∈ m, key a < key b) :
    ∃ rest, S.sort (byKey key) (l ++ m) = S.sort (byKey key) l ++ rest := by
  let low : α → Bool := fun x => l.any (fun a => decide (key x ≤ key a))
  let whole := S.sort (byKey key) (l ++ m)
  have hlow : ∀ a ∈ l, low a = true := fun a ha =>
    List.any_eq_true.mpr ⟨a, ha, by simp⟩
  have hhigh : ∀ b ∈ m, low b = false := by
    intro b hb
    rw [List.any_eq_false]
    intro a ha
    simp [hlt a ha b hb]
  -- A sorted list is its low part followed by its high part.
  have hsplit : ∀ w : List α, w.Pairwise (fun a b => key a ≤ key b) →
      w = w.filter low ++ w.filter (fun x => !low x) := by
    intro w hw
    induction w with
    | nil => rfl
    | cons x w ih =>
      obtain ⟨hx, hw⟩ := List.pairwise_cons.mp hw
      cases hlx : low x with
      | true => simpa [hlx] using congrArg (List.cons x) (ih hw)
      | false =>
        have hall : ∀ y ∈ w, low y = false := by
          intro y hy
          rw [List.any_eq_false] at hlx ⊢
          intro a ha
          have hxa := hlx a ha
          have hxy := hx y hy
          simp only [decide_eq_true_eq, not_le] at hxa ⊢
          omega
        have hnil : w.filter low = [] := List.filter_eq_nil_iff.mpr (fun y hy => by simp [hall y hy])
        have hself : w.filter (fun x => !low x) = w :=
          List.filter_eq_self.mpr (fun y hy => by simp [hall y hy])
        simp [hlx, hnil, hself]
  have hfirst : whole.filter low = S.sort (byKey key) l := by
    apply S.eq_sort_of_perm key ?_ ((S.sorted key _).filter _) (eq_of_nodup_keys key hn)
    have hp := (S.perm (byKey key) (l ++ m)).filter low
    have hl : l.filter low = l := List.filter_eq_self.mpr hlow
    have hm : m.filter low = [] := List.filter_eq_nil_iff.mpr (fun b hb => by simp [hhigh b hb])
    simpa [List.filter_append, hl, hm] using hp
  exact ⟨whole.filter (fun x => !low x), hfirst ▸ hsplit whole (S.sorted key _)⟩

/-- Sorting a list in which every element stands twice. -/
theorem sort_doubled (key : α → ℕ) {l : List α} (hn : (l.map key).Nodup) :
    S.sort (byKey key) (l.flatMap fun a => [a, a]) =
      (S.sort (byKey key) l).flatMap fun a => [a, a] := by
  have hmem : ∀ {a : α}, a ∈ l.flatMap (fun a => [a, a]) → a ∈ l := by
    intro a ha
    obtain ⟨b, hb, hab⟩ := List.mem_flatMap.mp ha
    simp only [List.mem_cons, List.not_mem_nil, or_false, or_self] at hab
    exact hab ▸ hb
  symm
  apply S.eq_sort_of_perm key ((S.perm _ l).flatMap_right _)
  · rw [List.pairwise_flatMap]
    refine ⟨by simp, (S.sorted key l).imp ?_⟩
    intro a b hab x hx y hy
    simp only [List.mem_cons, List.not_mem_nil, or_false, or_self] at hx hy
    rw [hx, hy]
    exact hab
  · intro a ha b hb
    exact eq_of_nodup_keys key hn a (hmem ha) b (hmem hb)

end StdSort

/-- A stable instance, on which closed inputs can be evaluated. -/
def insertion : StdSort where
  sort lt l := l.insertionSort (fun a b => lt b a = false)
  perm lt l := List.perm_insertionSort _ l
  sorted key l := by
    have ht : Std.Total (fun a b => byKey key b a = false) := ⟨fun a b => by
      simp only [byKey, decide_eq_false_iff_not]; omega⟩
    have htr : IsTrans _ (fun a b => byKey key b a = false) := ⟨fun a b c hab hbc => by
      simp only [byKey, decide_eq_false_iff_not] at *; omega⟩
    refine (List.pairwise_insertionSort (fun a b => byKey key b a = false) l).imp ?_
    intro a b h
    simpa [byKey] using h

end Hkv.KeyedSort
