import Mathlib.Data.List.Nodup
import Mathlib.Data.List.Perm.Basic
import Mathlib.Order.Lattice

/-!
# Finite maps in the order of their keys

A map is the list of its entries with strictly increasing keys, so that equal maps are equal
lists and the entries from a key on are a part of the list. Nothing here is specific to the
project.
-/
namespace Hkv

structure OrderedMap (κ υ : Type) [LinearOrder κ] where
  entries : List (κ × υ)
  sorted : entries.Pairwise (fun a b => a.1 < b.1)

namespace OrderedMap

variable {κ υ : Type} [LinearOrder κ] {m m' : OrderedMap κ υ} {k k' : κ} {v v' : υ} {l l' : List (κ × υ)}

/-- A strictly ordered list is determined by its members. -/
theorem eq_of_sorted (hl : l.Pairwise (fun a b => a.1 < b.1)) (hl' : l'.Pairwise (fun a b => a.1 < b.1))
    (h : ∀ e, e ∈ l ↔ e ∈ l') : l = l' := by
  have hnodup : ∀ {x : List (κ × υ)}, x.Pairwise (fun a b => a.1 < b.1) → x.Nodup := fun hx =>
    hx.imp fun hab he => (ne_of_lt hab) (congrArg Prod.fst he)
  have hperm : l.Perm l' := (List.perm_ext_iff_of_nodup (hnodup hl) (hnodup hl')).mpr h
  exact hperm.eq_of_pairwise (fun a b _ _ hab hba => absurd hab (lt_asymm hba)) hl hl'

theorem value_unique (hv : (k, v) ∈ m.entries) (hv' : (k, v') ∈ m.entries) : v = v' := by
  have hnodup : (m.entries.map Prod.fst).Nodup := List.pairwise_map.mpr (m.sorted.imp fun hab => ne_of_lt hab)
  exact congrArg Prod.snd (List.inj_on_of_nodup_map hnodup hv hv' rfl)

def find? (m : OrderedMap κ υ) (k : κ) : Option υ := (m.entries.find? (fun e => e.1 == k)).map Prod.snd

theorem find?_eq_some_iff : m.find? k = some v ↔ (k, v) ∈ m.entries := by
  constructor
  · intro h
    obtain ⟨e, he, rfl⟩ := Option.map_eq_some_iff.mp h
    have hkey : e.1 = k := by simpa using List.find?_some he
    exact hkey ▸ List.mem_of_find?_eq_some he
  · intro h
    cases hf : m.entries.find? (fun e => e.1 == k) with
    | none => exact absurd (List.find?_eq_none.mp hf (k, v) h) (by simp)
    | some e =>
      have hkey : e.1 = k := by simpa using List.find?_some hf
      have hmem : (k, e.2) ∈ m.entries := hkey ▸ List.mem_of_find?_eq_some hf
      rw [find?, hf, Option.map_some, value_unique hmem h]

def single (k : κ) (v : υ) : OrderedMap κ υ := ⟨[(k, v)], List.pairwise_singleton _ _⟩

theorem find?_single : (single k v).find? k' = some v' ↔ k' = k ∧ v' = v := by
  rw [find?_eq_some_iff, single, List.mem_singleton, Prod.mk.injEq]

/-- The map with the value of one key set. -/
def set (m : OrderedMap κ υ) (k : κ) (v : υ) : OrderedMap κ υ where
  entries := m.entries.filter (fun e => e.1 < k) ++ (k, v) :: m.entries.filter (fun e => k < e.1)
  sorted := by
    rw [List.pairwise_append, List.pairwise_cons]
    refine ⟨m.sorted.filter _, ⟨fun b hb => ?_, m.sorted.filter _⟩, fun a ha b hb => ?_⟩
    · simpa using (List.mem_filter.mp hb).2
    · have hak : a.1 < k := by simpa using (List.mem_filter.mp ha).2
      rcases List.mem_cons.mp hb with rfl | hb
      · exact hak
      · exact lt_trans hak (by simpa using (List.mem_filter.mp hb).2)

theorem find?_set : (m.set k v).find? k' = some v' ↔ k' = k ∧ v' = v ∨ k' ≠ k ∧ m.find? k' = some v' := by
  rw [find?_eq_some_iff, find?_eq_some_iff]
  simp only [set, List.mem_append, List.mem_cons, List.mem_filter, decide_eq_true_eq, Prod.mk.injEq, ne_eq]
  rcases lt_trichotomy k' k with hlt | rfl | hgt
  · simp [hlt, ne_of_lt hlt, lt_asymm hlt]
  · simp
  · simp [hgt, ne_of_gt hgt, lt_asymm hgt]

/-- The map without one key. -/
def erase (m : OrderedMap κ υ) (k : κ) : OrderedMap κ υ where
  entries := m.entries.filter (fun e => e.1 ≠ k)
  sorted := m.sorted.filter _

theorem find?_erase : (m.erase k).find? k' = some v' ↔ k' ≠ k ∧ m.find? k' = some v' := by
  rw [find?_eq_some_iff, find?_eq_some_iff, erase, List.mem_filter, decide_eq_true_eq, and_comm]

/-- The entries from a key on. -/
def entriesFrom (m : OrderedMap κ υ) (k : κ) : List (κ × υ) := m.entries.filter (fun e => k ≤ e.1)

/-- An ordered list of the entries from a key on is that part of the map. -/
theorem eq_entriesFrom (hl : l.Pairwise (fun a b => a.1 < b.1))
    (h : ∀ k' v', (k', v') ∈ l ↔ k ≤ k' ∧ m.find? k' = some v') : l = m.entriesFrom k := by
  refine eq_of_sorted hl (m.sorted.filter _) fun e => ?_
  rw [entriesFrom, List.mem_filter, decide_eq_true_eq, and_comm, ← find?_eq_some_iff]
  exact h e.1 e.2

end OrderedMap

end Hkv
