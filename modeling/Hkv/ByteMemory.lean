import Mathlib.Logic.Function.Basic
import Mathlib.Data.Nat.Basic
import Mathlib.Data.UInt

/-!
# Byte memory

Numbers of a fixed width in a memory of bytes, low byte first. Nothing here is specific
to the project.
-/
namespace Hkv.ByteMemory

abbrev Memory := ℕ → UInt8

/-- `v` is written to the `n` bytes from `a` on; higher bytes of `v` are lost. -/
def store : ℕ → Memory → ℕ → ℕ → Memory
  | 0, m, _, _ => m
  | n + 1, m, a, v => store n (Function.update m a (UInt8.ofNat v)) (a + 1) (v / 256)

/-- The number in the `n` bytes from `a` on. -/
def load : ℕ → Memory → ℕ → ℕ
  | 0, _, _ => 0
  | n + 1, m, a => (m a).toNat + 256 * load n m (a + 1)

variable {n k a b v x : ℕ} {m m' : Memory}

theorem store_apply_of_outside (h : x < a ∨ a + n ≤ x) : store n m a v x = m x := by
  induction n generalizing m a v with
  | zero => rfl
  | succ n ih =>
    have hx : x ≠ a := by omega
    rw [store, ih (by omega), Function.update_of_ne hx]

theorem load_congr (h : ∀ x, a ≤ x → x < a + n → m x = m' x) : load n m a = load n m' a := by
  induction n generalizing a with
  | zero => rfl
  | succ n ih =>
    have hrest : load n m (a + 1) = load n m' (a + 1) := ih fun x hlow hhigh => h x (by omega) (by omega)
    rw [load, load, h a le_rfl (by omega), hrest]

theorem load_store_of_disjoint (h : b + k ≤ a ∨ a + n ≤ b) : load k (store n m a v) b = load k m b :=
  load_congr fun x hlow hhigh => store_apply_of_outside (by omega)

theorem load_store_self : load n (store n m a v) a = v % 256 ^ n := by
  induction n generalizing m a v with
  | zero => rw [load, pow_zero, Nat.mod_one]
  | succ n ih =>
    have hfirst : store (n + 1) m a v a = UInt8.ofNat v := by
      rw [store, store_apply_of_outside (by omega), Function.update_self]
    have hbyte : (UInt8.ofNat v).toNat = v % 256 := UInt8.toNat_ofNat'
    rw [load, hfirst, hbyte, store, ih, pow_succ' 256 n, Nat.mod_mul]

end Hkv.ByteMemory
