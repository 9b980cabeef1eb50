import Mathlib.Data.BitVec

/-!
# Scanning the bits of a word

Words built from a predicate, the two scan instructions of the machine, and the loop that
takes the highest bit of a word until a test succeeds. Nothing here is specific to the project.
-/
namespace Hkv.BitScan

variable {w : ℕ} {x : BitVec w} {f p : ℕ → Bool} {i j : ℕ}

/-- The word whose bit `i` is `f i`. -/
def mask (f : ℕ → Bool) : (w : ℕ) → BitVec w
  | 0 => 0#0
  | w + 1 => BitVec.cons (f w) (mask f w)

@[simp] theorem getLsbD_mask : (mask f w).getLsbD i = (decide (i < w) && f i) := by
  induction w with
  | zero => simp [mask]
  | succ w ih =>
    rw [mask, BitVec.getLsbD_cons, ih]
    by_cases hi : i = w
    · simp [hi]
    · have hlt : i < w + 1 ↔ i < w := by omega
      simp [hi, hlt]

/-- What a loop over the bits keeps from round to round. -/
theorem foldl_range {β : Type} {P : ℕ → β → Prop} {g : β → ℕ → β} {b : β} (h0 : P 0 b)
    (hstep : ∀ t < w, ∀ a, P t a → P (t + 1) (g a t)) : P w ((List.range w).foldl g b) := by
  induction w with
  | zero => exact h0
  | succ w ih =>
    rw [List.range_succ, List.foldl_append]
    exact hstep w (Nat.lt_succ_self w) _ (ih fun t ht => hstep t (Nat.lt_succ_of_lt ht))

/-- The highest set bit; the instruction is not used on zero. -/
def bsr (x : BitVec w) : ℕ := x.toNat.log2

/-- The lowest set bit. -/
def bsf (x : BitVec w) : ℕ := x.ctz.toNat

theorem getLsbD_bsr (hx : x ≠ 0#w) : x.getLsbD (bsr x) = true := by
  have hne : x.toNat ≠ 0 := fun h => hx (BitVec.eq_of_toNat_eq (by simpa using h))
  exact Nat.testBit_log2 hne

theorem le_bsr (h : x.getLsbD i = true) : i ≤ bsr x := by
  have hpow : 2 ^ i ≤ x.toNat := Nat.ge_two_pow_of_testBit h
  by_contra hlt
  have hle : bsr x + 1 ≤ i := by omega
  have hself : x.toNat < 2 ^ (bsr x + 1) := Nat.lt_log2_self
  have hmono : 2 ^ (bsr x + 1) ≤ 2 ^ i := Nat.pow_le_pow_right (by decide) hle
  omega

theorem getLsbD_bsf (hx : x ≠ 0#w) : x.getLsbD (bsf x) = true := BitVec.getLsbD_true_ctz_of_ne_zero hx

/-- The word with one bit set. -/
def set (x : BitVec w) (i : ℕ) : BitVec w := x ||| 1#w <<< i

/-- The word with one bit cleared. -/
def reset (x : BitVec w) (i : ℕ) : BitVec w := x &&& ~~~(1#w <<< i)

theorem getLsbD_one_shift : (1#w <<< i).getLsbD j = (decide (j < w) && decide (i = j)) := by
  rw [← BitVec.twoPow_eq, BitVec.getLsbD_twoPow]
  by_cases hij : i = j
  · simp [hij]
  · simp [hij]

@[simp] theorem getLsbD_set : (set x i).getLsbD j = (x.getLsbD j || decide (j < w) && decide (i = j)) := by
  rw [set, BitVec.getLsbD_or, getLsbD_one_shift]

@[simp] theorem getLsbD_reset : (reset x i).getLsbD j = (x.getLsbD j && !decide (i = j)) := by
  rw [reset, BitVec.getLsbD_and, BitVec.getLsbD_not, getLsbD_one_shift]
  by_cases hj : j < w
  · simp [hj]
  · simp [hj, BitVec.getLsbD_of_ge x j (by omega)]

/-- The loop that tests the set bits of a word from the highest one down; `n` bounds its rounds. -/
def searchDown (p : ℕ → Bool) : ℕ → BitVec w → Option ℕ
  | 0, _ => none
  | n + 1, x =>
    if x = 0#w then none
    else if p (bsr x) then some (bsr x)
    else searchDown p n (reset x (bsr x))

theorem searchDown_spec {n : ℕ} (h : searchDown p n x = some i) : x.getLsbD i = true ∧ p i = true := by
  induction n generalizing x with
  | zero => cases h
  | succ n ih =>
    rw [searchDown] at h
    split_ifs at h with hx hp
    · obtain rfl := Option.some.inj h
      exact ⟨getLsbD_bsr hx, hp⟩
    · obtain ⟨hbit, hpi⟩ := ih h
      simp only [getLsbD_reset, Bool.and_eq_true] at hbit
      exact ⟨hbit.1, hpi⟩

/-- The loop misses no bit that lies below its bound. -/
theorem not_of_searchDown_eq_none {n : ℕ} (hn : ∀ i, x.getLsbD i = true → i < n) (h : searchDown p n x = none)
    (hi : x.getLsbD i = true) : p i = false := by
  induction n generalizing x with
  | zero => exact absurd (hn i hi) (by omega)
  | succ n ih =>
    have hx : x ≠ 0#w := by
      rintro rfl
      simp at hi
    rw [searchDown, if_neg hx] at h
    split_ifs at h with hp
    by_cases hib : bsr x = i
    · simpa [hib] using hp
    · refine ih (x := reset x (bsr x)) (fun j hj => ?_) h ?_
      · simp only [getLsbD_reset, Bool.and_eq_true, Bool.not_eq_true', decide_eq_false_iff_not] at hj
        have hjb := le_bsr hj.1
        have hb := hn _ (getLsbD_bsr hx)
        have hne := hj.2
        omega
      · simpa [hib] using hi

end Hkv.BitScan
