import Mathlib.Data.List.Nodup
import Mathlib.Logic.Function.Basic
import Mathlib.Data.Int.Basic
import Mathlib.Data.Finset.Card
import Mathlib.Data.Finset.Range

/-!
# Chains of links

`Chain next a l b` says that following `next` from `a` visits the list `l` and then
arrives at `b`. Links are integers, so that an end marker is a value like any other.
-/
namespace Hkv.LinkedChain

/-- From `a` the links visit `l` and then lead to `b`. -/
def Chain (next : ℕ → ℤ) (a : ℕ) : List ℕ → ℤ → Prop
  | [], b => next a = b
  | x :: l, b => next a = x ∧ Chain next x l b

variable {next next' : ℕ → ℤ} {a x n : ℕ} {l l₁ l₂ : List ℕ} {b : ℤ}

@[simp] theorem chain_nil : Chain next a [] b ↔ next a = b := Iff.rfl

@[simp] theorem chain_cons : Chain next a (x :: l) b ↔ next a = x ∧ Chain next x l b := Iff.rfl

theorem chain_append : Chain next a (l₁ ++ x :: l₂) b ↔ Chain next a l₁ x ∧ Chain next x l₂ b := by
  induction l₁ generalizing a with
  | nil => rfl
  | cons y l₁ ih => simp only [List.cons_append, chain_cons, ih, and_assoc]

/-- The link of a node of the chain leads to a later node or to the end. -/
theorem Chain.next_mem (h : Chain next a l b) (hx : x ∈ a :: l) : next x = b ∨ ∃ y ∈ l, next x = y := by
  induction l generalizing a with
  | nil =>
    obtain rfl := List.mem_singleton.mp hx
    exact .inl h
  | cons y l ih =>
    rcases List.mem_cons.mp hx with rfl | hx
    · exact .inr ⟨y, List.mem_cons_self, h.1⟩
    · exact (ih h.2 hx).imp_right fun ⟨z, hz, he⟩ => ⟨z, List.mem_cons_of_mem _ hz, he⟩

/-- Links outside the chain do not matter. -/
theorem Chain.congr (h : Chain next a l b) (ha : next' a = next a) (hl : ∀ y ∈ l, next' y = next y) :
    Chain next' a l b := by
  induction l generalizing a with
  | nil => exact ha.trans h
  | cons y l ih =>
    refine ⟨ha.trans h.1, ih h.2 (hl y List.mem_cons_self) fun z hz => hl z (List.mem_cons_of_mem _ hz)⟩

/-- A fresh id `n` is linked in behind `x`, the last id of the front part. -/
theorem Chain.insertAfter (h : Chain next x l b) (hx : n ≠ x) (hl : n ∉ l) (hxl : x ∉ l) :
    Chain (Function.update (Function.update next n (next x)) x n) x (n :: l) b := by
  refine ⟨by rw [Function.update_self], ?_⟩
  have hn : Function.update (Function.update next n (next x)) x (n : ℤ) n = next x := by
    rw [Function.update_of_ne hx, Function.update_self]
  cases l with
  | nil => exact hn.trans h
  | cons y l =>
    refine ⟨hn.trans h.1, h.2.congr ?_ fun z hz => ?_⟩
    · have hy₁ : y ≠ x := fun he => hxl (he ▸ List.mem_cons_self)
      have hy₂ : y ≠ n := fun he => hl (he ▸ List.mem_cons_self)
      rw [Function.update_of_ne hy₁, Function.update_of_ne hy₂]
    · have hz₁ : z ≠ x := fun he => hxl (he ▸ List.mem_cons_of_mem _ hz)
      have hz₂ : z ≠ n := fun he => hl (he ▸ List.mem_cons_of_mem _ hz)
      rw [Function.update_of_ne hz₁, Function.update_of_ne hz₂]

/-- A fresh id `n` is linked in behind the last id of the front part `l₁`. -/
theorem Chain.insert (h : Chain next a (l₁ ++ l₂) b) (hnd : (n :: a :: (l₁ ++ l₂)).Nodup) :
    Chain (Function.update (Function.update next n (next (l₁.getLastD a))) (l₁.getLastD a) n) a
      (l₁ ++ n :: l₂) b := by
  induction l₁ generalizing a with
  | nil =>
    simp only [List.nil_append, List.nodup_cons, List.mem_cons, not_or] at hnd
    exact h.insertAfter hnd.1.1 hnd.1.2 hnd.2.1
  | cons y l₁ ih =>
    simp only [List.cons_append, List.nodup_cons, List.mem_cons, not_or] at hnd
    obtain ⟨⟨hna, hny, hnl⟩, ⟨hay, hal⟩, hyl⟩ := hnd
    have ha : a ≠ l₁.getLastD y := fun he => by
      rcases List.mem_cons.mp (he ▸ List.getLastD_mem_cons : a ∈ y :: l₁) with h' | h'
      exacts [hay h', hal (List.mem_append_left _ h')]
    rw [List.getLastD_cons]
    refine ⟨?_, ih h.2 ?_⟩
    · rw [Function.update_of_ne ha, Function.update_of_ne (Ne.symm hna)]
      exact h.1
    · simp only [List.nodup_cons, List.mem_cons, not_or]
      exact ⟨⟨hny, hnl⟩, hyl⟩

/-- Distinct ids of a pool are no more than the pool holds. -/
theorem length_le_of_nodup {N : ℕ} (hnd : l.Nodup) (hlt : ∀ n ∈ l, n < N) : l.length ≤ N := by
  have hsub : l.toFinset ⊆ Finset.range N := fun n hn => Finset.mem_range.mpr (hlt n (List.mem_toFinset.mp hn))
  have hcard := Finset.card_le_card hsub
  rwa [List.toFinset_card_of_nodup hnd, Finset.card_range] at hcard

/-- A node stands at one place of a chain only. -/
theorem split_unique {a b a' b' : List ℕ} {v : ℕ} (hnd : (a ++ v :: b).Nodup) (h : a ++ v :: b = a' ++ v :: b') :
    a = a' ∧ b = b' := by
  have hv : v ∉ a ++ b := (List.nodup_cons.mp (List.nodup_middle.mp hnd)).1
  obtain ⟨ha, -, hb⟩ := (List.append_cons_inj_of_notMem (fun hm => hv (List.mem_append_left _ hm))
    fun hm => hv (List.mem_append_right _ hm)).mp h
  exact ⟨ha, hb⟩

end Hkv.LinkedChain
