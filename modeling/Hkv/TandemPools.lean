import Hkv.TandemOrder
import Hkv.TandemRepeats

/-!
# Exhausted pools

`TandemIndex::insert` takes a vnode first and returns false if there is none. The inodes of
a tower are taken when the value list already holds the new vnode, and the source writes to
each of them without a test for the null pointer.
-/
namespace Hkv.Tandem
open DramSkiplist

namespace TandemIndex

variable {t t' : TandemIndex} {chains : ℕ → List ℕ} {l : List ℕ}

/-- A pool has no node left for some allocation of the call. -/
def Call.Exhausts (t : TandemIndex) (c : Call) : Prop :=
  vnodeNum ≤ t.vCurrentIdx ∨ t.NeedsTower c.key c.value ∧ inodeNum < t.mainIndex.currentIdx + c.newlevel

/-! ## A run that uses up the inodes -/

/-- Keys `n + 1` to `2`, in descending order and with towers of `MAX_LEVEL`. -/
def descending : ℕ → List Call
  | 0 => []
  | n + 1 => ⟨n + 2, 0, maxLevel⟩ :: descending n

theorem Anchored.insertAll_descending (h : Anchored t chains l) {n : ℕ}
    (hlow : ∀ v ∈ l, n + 1 < (t.vnode v).key) (hvnodes : t.vCurrentIdx + n ≤ vnodeNum)
    (hinodes : t.mainIndex.currentIdx + maxLevel * n ≤ inodeNum) :
    ∃ rets t' chains' l', t.insertAll (descending n) = some (rets, t') ∧ Anchored t' chains' l' ∧
      (∀ v ∈ l', 1 < (t'.vnode v).key) ∧ t'.vCurrentIdx = t.vCurrentIdx + n ∧
      t'.mainIndex.currentIdx = t.mainIndex.currentIdx + maxLevel * n := by
  induction n generalizing t chains l with
  | zero => exact ⟨[], t, chains, l, rfl, h, hlow, rfl, rfl⟩
  | succ n ih =>
    have hlook : t.mainIndex.lookup (n + 2) = some none := by
      rcases h.lookup_cases (Nat.succ_pos (n + 1)) with ⟨hlook, -⟩ | ⟨-, d, a, b, -, -, -, hsplit, hle⟩
      · exact hlook
      · exact absurd (hlow d (by simp [hsplit])) (Nat.not_lt.mpr hle)
    rw [Nat.mul_succ] at hinodes ⊢
    obtain ⟨t₁, inodes, hrun, h₁, hadd, hg, -, hv⟩ := h.toRooted.insert_head (by omega) (by decide)
      (Nat.le_refl maxLevel) (by omega) hlook hlow 0
    have hi := hg.currentIdx
    have hlow₁ : ∀ v ∈ t.vCurrentIdx :: l, n + 1 < (t₁.vnode v).key := by
      intro v hv
      rcases List.mem_cons.mp hv with rfl | hv
      · have hnew := hadd.new_key
        omega
      · have hold := hadd.old_key hv
        have hlt := hlow v hv
        omega
    obtain ⟨rets, t', chains', l', hrest, h', hlow', hv', hi'⟩ :=
      ih ⟨h₁, fun v hv => Nat.zero_lt_of_lt (hlow₁ v hv)⟩ hlow₁ (by omega) (by omega)
    have hc : Call.insert ⟨n + 2, 0, maxLevel⟩ t = some (true, t₁) := hrun
    refine ⟨true :: rets, t', chains', l', ?_, h', hlow', by omega, by omega⟩
    simp only [descending, TandemIndex.insertAll, hc, hrest, Option.bind_eq_bind, Option.bind_some, Option.pure_def]

theorem descending_valid {n : ℕ} : ∀ c ∈ descending n, c.Valid := by
  induction n with
  | zero => simp [descending]
  | succ n ih =>
    intro c hc
    rcases List.mem_cons.mp hc with rfl | hc
    · exact ⟨Nat.succ_ne_zero _, Nat.succ_pos 15, Nat.le_refl _⟩
    · exact ih c hc

/-- 623 towers of `MAX_LEVEL` take the whole pool of inodes, and the next new smallest key needs
one more. -/
theorem exists_insertAll_descending : ∃ rets t, insertAll empty (descending 623) = some (rets, t) ∧
    t.vCurrentIdx < vnodeNum ∧ t.NeedsTower 1 0 ∧ inodeNum < t.mainIndex.currentIdx + 1 := by
  obtain ⟨⟨-, hi₀, -⟩, hv₀, -⟩ := new_starting empty new_eq_empty
  obtain ⟨rets, t, chains, l, hrun, h, hlow, hv, hi⟩ := (new_anchored new_eq_empty).insertAll_descending
    (show ∀ v ∈ [], 623 + 1 < (empty.vnode v).key by simp) (by rw [hv₀]; decide) (by rw [hi₀]; decide)
  refine ⟨rets, t, hrun, ?_, .inl ?_, ?_⟩
  · rw [hv, hv₀]
    decide
  · rcases h.lookup_cases Nat.one_pos with ⟨hlook, -⟩ | ⟨-, d, a, b, -, -, -, hsplit, hle⟩
    · exact hlook
    · exact absurd (hlow d (by simp [hsplit])) (Nat.not_lt.mpr hle)
  · rw [hi, hi₀]
    decide

/-! ## Calls that exhaust a pool -/

/-- A call that exhausts a pool returns false and changes nothing if and only if it is the
pool of vnodes that has no node left. -/
theorem insert_exhausted_iff (t : TandemIndex) (c : Call) (hex : c.Exhausts t) :
    c.insert t = some (false, t) ↔ vnodeNum ≤ t.vCurrentIdx := by
  refine ⟨fun hrun => ?_, fun hfull => insert_of_no_room (Nat.not_lt.mpr hfull)⟩
  by_contra hroom
  obtain ⟨hneeds, hfull⟩ := hex.resolve_left hroom
  have hnone : c.insert t = none := insert_eq_none (Nat.not_le.mp hroom) hneeds hfull
  cases hnone.symm.trans hrun

/-- The pool of inodes is used up by a run, and in the second case no vnode is left. -/
theorem insert_exhausted_iff_descending :
    (∃ rets t, insertAll empty (descending 623) = some (rets, t) ∧ Call.Exhausts t ⟨1, 0, 1⟩ ∧
      Call.insert ⟨1, 0, 1⟩ t ≠ some (false, t)) ∧
    Call.insert ⟨5, 1, 1⟩ { empty with vCurrentIdx := vnodeNum } =
      some (false, { empty with vCurrentIdx := vnodeNum }) := by
  obtain ⟨rets, t, hrun, hroom, hneeds, hfull⟩ := exists_insertAll_descending
  have hex : Call.Exhausts t ⟨1, 0, 1⟩ := .inr ⟨hneeds, hfull⟩
  refine ⟨⟨rets, t, hrun, hex, fun hfalse => ?_⟩, ?_⟩
  · exact Nat.not_le.mpr hroom ((insert_exhausted_iff t ⟨1, 0, 1⟩ hex).mp hfalse)
  · exact (insert_exhausted_iff { empty with vCurrentIdx := vnodeNum } ⟨5, 1, 1⟩ (.inl le_rfl)).mpr le_rfl

/-- The next new smallest key meets a null pointer. -/
theorem insert_not_atomic : ¬ ∀ cs : List Call, (∀ c ∈ cs, c.Valid) →
    ∀ rets t, insertAll empty cs = some (rets, t) →
    ∀ c : Call, c.Valid → c.Exhausts t → c.insert t = some (false, t) := by
  intro hall
  obtain ⟨rets, t, hrun, hroom, hneeds, hfull⟩ := exists_insertAll_descending
  have hnone : Call.insert ⟨1, 0, 1⟩ t = none := insert_eq_none hroom hneeds hfull
  have hfalse := hall _ descending_valid rets t hrun ⟨1, 0, 1⟩ (by decide) (.inr ⟨hneeds, hfull⟩)
  cases hnone.symm.trans hfalse

end TandemIndex

end Hkv.Tandem
