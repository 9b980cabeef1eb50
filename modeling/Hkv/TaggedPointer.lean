import Hkv.MtsConfig
import Mathlib.Data.BitVec
import Mathlib.Tactic.IntervalCases

/-!
# Tagged pointers

`val_addr` packs a location tag into the top byte of a pointer. The functions are
those of `util.cpp`, on 64-bit words with arithmetic right shifts.
-/
namespace Hkv.TaggedPointer

/-- An `intptr_t`. -/
abbrev Word := BitVec 64

/-- A user-space address: its top seventeen bits are zero, so that sign extension
from bit 47 leaves it alone. -/
structure Ptr where
  addr : Word
  user : addr.toNat < 2 ^ 47
  deriving DecidableEq

theorem entryNum_neZero : NeZero 1048576 := ⟨by decide⟩

/-- The `i`-th entry of a mapped log file of 1 KiB entries. -/
def entryPtr (i : Fin 1048576) : Ptr where
  addr := BitVec.ofNat 64 (1024 * (i + 1))
  user := by
    rw [BitVec.toNat_ofNat]
    omega

def getUntaggedPtr (entry : Word) : Word := (entry <<< 16).sshiftRight 16

def putTaggedPtr (entry : Word) (tag : ℕ) : Word :=
  (getUntaggedPtr entry &&& ~~~(1#64 <<< 48)) ||| (BitVec.ofNat 64 tag <<< 56)

/-- The address an untagged `val_addr` designates. -/
def toPtr (w : Word) : Option Ptr := if h : w.toNat < 2 ^ 47 then some ⟨w, h⟩ else none

def getTag (entry : Word) : ℤ := (entry.sshiftRight 56).toInt

private theorem user_bit (p : Ptr) {i : ℕ} (h : 47 ≤ i) : p.addr.getLsbD i = false :=
  Nat.testBit_lt_two_pow (lt_of_lt_of_le p.user (Nat.pow_le_pow_right (by norm_num) h))

private theorem getUntaggedPtr_bit (w : Word) {i : ℕ} (hi : i < 64) :
    (getUntaggedPtr w).getLsbD i = w.getLsbD (min i 47) := by
  simp only [getUntaggedPtr, BitVec.getLsbD_sshiftRight, BitVec.getLsbD_shiftLeft,
    BitVec.msb_eq_getLsbD_last]
  by_cases h : i < 48
  · rw [show min i 47 = i by omega]
    simp [hi]
    grind
  · rw [show min i 47 = 47 by omega]
    simp
    grind

private theorem putTaggedPtr_bit (w : Word) (t : ℕ) {i : ℕ} (hi : i < 64) :
    (putTaggedPtr w t).getLsbD i = (((getUntaggedPtr w).getLsbD i && !decide (i = 48)) ||
      (decide (56 ≤ i) && t.testBit (i - 56))) := by
  simp only [putTaggedPtr, BitVec.getLsbD_or, BitVec.getLsbD_and, BitVec.getLsbD_not,
    BitVec.getLsbD_shiftLeft, BitVec.getLsbD_one]
  simp only [BitVec.getLsbD_ofNat]
  grind

@[simp] theorem getUntaggedPtr_user (p : Ptr) : getUntaggedPtr p.addr = p.addr := by
  apply BitVec.eq_of_getLsbD_eq
  intro i hi
  rw [getUntaggedPtr_bit _ hi]
  by_cases h : i < 47
  · rw [min_eq_left (by omega)]
  · rw [min_eq_right (by omega), user_bit p le_rfl, user_bit p (by omega)]

@[simp] theorem getUntaggedPtr_putTaggedPtr (w : Word) (t : ℕ) :
    getUntaggedPtr (putTaggedPtr w t) = getUntaggedPtr w := by
  apply BitVec.eq_of_getLsbD_eq
  intro i hi
  rw [getUntaggedPtr_bit _ hi, putTaggedPtr_bit _ _ (by omega), getUntaggedPtr_bit _ (by omega),
    getUntaggedPtr_bit _ hi]
  have h56 : ¬ 56 ≤ min i 47 := by omega
  have h48 : min i 47 ≠ 48 := by omega
  simp [h56, h48]

@[simp] theorem putTaggedPtr_putTaggedPtr (w : Word) (t t' : ℕ) :
    putTaggedPtr (putTaggedPtr w t) t' = putTaggedPtr w t' := by
  rw [putTaggedPtr, getUntaggedPtr_putTaggedPtr, ← putTaggedPtr]

private theorem putTaggedPtr_user_bit (p : Ptr) (t : ℕ) {i : ℕ} (hi : i < 64) :
    (putTaggedPtr p.addr t).getLsbD i =
      ((decide (56 ≤ i) && t.testBit (i - 56)) || p.addr.getLsbD i) := by
  rw [putTaggedPtr_bit _ _ hi, getUntaggedPtr_user]
  by_cases h : 47 ≤ i
  · simp [user_bit p h]
  · simp [show i ≠ 48 by omega, show ¬ 56 ≤ i by omega]

@[simp] theorem putTaggedPtr_zero (p : Ptr) : putTaggedPtr p.addr 0 = p.addr := by
  apply BitVec.eq_of_getLsbD_eq
  intro i hi
  rw [putTaggedPtr_user_bit p 0 hi]
  simp

@[simp] theorem getTag_putTaggedPtr (p : Ptr) {t : ℕ} (ht : t < 4) :
    getTag (putTaggedPtr p.addr t) = t := by
  have hbig : ∀ {j : ℕ}, 2 ≤ j → t.testBit j = false := fun hj =>
    Nat.testBit_lt_two_pow (lt_of_lt_of_le (show t < 2 ^ 2 from ht)
      (Nat.pow_le_pow_right (by norm_num) hj))
  have hw : (putTaggedPtr p.addr t).sshiftRight 56 = BitVec.ofNat 64 t := by
    apply BitVec.eq_of_getLsbD_eq
    intro i hi
    rw [BitVec.getLsbD_sshiftRight, BitVec.msb_eq_getLsbD_last, BitVec.getLsbD_ofNat]
    by_cases h : 56 + i < 64
    · rw [putTaggedPtr_user_bit p t h, user_bit p (by omega)]
      simp [h, hi]
    · have hi2 : t.testBit i = false := hbig (by omega)
      have hmsb : (putTaggedPtr p.addr t).getLsbD 63 = false := by
        rw [putTaggedPtr_user_bit p t (by omega), user_bit p (by omega), hbig (by omega)]
        rfl
      simp only [h, hi, hi2, Nat.add_one_sub_one, hmsb, if_false, Bool.and_false]
  rw [getTag, hw]
  interval_cases t <;> rfl

theorem getTag_putTaggedPtr_valuestorage_ne (w : Word) :
    getTag (putTaggedPtr w MtsConfig.valuestorageVal) ≠ MtsConfig.dcacheVal := by
  intro h
  have hw : (putTaggedPtr w MtsConfig.valuestorageVal).sshiftRight 56 = 1#64 :=
    BitVec.eq_of_toInt_eq h
  -- the second bit of the tag tells the two apart
  have hbit := congrArg (BitVec.getLsbD · 1) hw
  simp only [BitVec.getLsbD_sshiftRight] at hbit
  rw [putTaggedPtr_bit w _ (by decide)] at hbit
  have htag : MtsConfig.valuestorageVal.testBit 1 = true := by decide
  simp [htag] at hbit

theorem toPtr_eq_some_iff {w : Word} {p : Ptr} : toPtr w = some p ↔ w = p.addr := by
  unfold toPtr
  constructor
  · intro h
    split at h
    · rw [← Option.some.inj h]
    · simp at h
  · rintro rfl
    rw [dif_pos p.user]

theorem putTaggedPtr_inj {p q : Ptr} {t u : ℕ} (h : putTaggedPtr p.addr t = putTaggedPtr q.addr u) :
    p = q := by
  have ha := congrArg getUntaggedPtr h
  rw [getUntaggedPtr_putTaggedPtr, getUntaggedPtr_putTaggedPtr, getUntaggedPtr_user,
    getUntaggedPtr_user] at ha
  cases p; cases q; cases ha; rfl

/-- A user pointer with one of the tags. -/
def Tagged (w : Word) : Prop := ∃ p : Ptr, ∃ t < 4, w = putTaggedPtr p.addr t

theorem tagged_putTaggedPtr (p : Ptr) {t : ℕ} (ht : t < 4) : Tagged (putTaggedPtr p.addr t) := ⟨p, t, ht, rfl⟩

theorem tagged_zero : Tagged 0 := ⟨⟨0, by decide⟩, 0, by decide, (putTaggedPtr_zero ⟨0, by decide⟩).symm⟩

theorem Tagged.putTaggedPtr {w : Word} (h : Tagged w) {t : ℕ} (ht : t < 4) : Tagged (putTaggedPtr w t) := by
  obtain ⟨p, u, -, rfl⟩ := h
  exact ⟨p, t, ht, putTaggedPtr_putTaggedPtr ..⟩

theorem Tagged.eq_addr {w : Word} {p : Ptr} (h : Tagged w) (htag : getTag w = 0)
    (hp : getUntaggedPtr w = p.addr) : w = p.addr := by
  obtain ⟨q, t, ht, rfl⟩ := h
  rw [getTag_putTaggedPtr q ht] at htag
  obtain rfl : t = 0 := Int.natCast_eq_zero.mp htag
  rw [putTaggedPtr_zero, getUntaggedPtr_user] at hp
  rw [putTaggedPtr_zero, hp]

end Hkv.TaggedPointer
