import Mathlib.Logic.Function.Basic
import Mathlib.Data.List.Basic

/-!
# Persistent memory

Every address has a durable content and the stores that have not been made durable. A
crash keeps any of those stores and loses the others. The type of an address's content
may depend on the address.
-/
namespace Hkv.PersistentMemory

structure Pmem (α : Type) (β : α → Type) where
  durable : ∀ a, β a
  /-- Oldest first. -/
  pending : ∀ a, List (β a)

/-- What a program does to the memory. -/
inductive Act (α : Type) (β : α → Type) where
  | store (a : α) (x : β a)
  /-- Exactly these addresses are made durable. -/
  | persist (as : List α)

variable {α : Type} {β : α → Type}

/-- The address that is stored to. -/
def Act.target : Act α β → Option α
  | .store a _ => some a
  | .persist _ => none

namespace Pmem

/-- What the running program sees. -/
def read (m : Pmem α β) (a : α) : β a := (m.pending a).getLastD (m.durable a)

/-- The contents an address may have after a crash. -/
def possible (m : Pmem α β) (a : α) : List (β a) := m.durable a :: m.pending a

/-- The memory after a crash: of the stores to an address some subset has arrived, in order. -/
def Image (m : Pmem α β) (img : ∀ a, β a) : Prop :=
  ∀ a, ∃ l : List (β a), l.Sublist (m.pending a) ∧ img a = l.getLastD (m.durable a)

variable [DecidableEq α]

def exec (m : Pmem α β) : Act α β → Pmem α β
  | .store a x => { m with pending := Function.update m.pending a (m.pending a ++ [x]) }
  | .persist as =>
    { durable := fun a => if a ∈ as then m.read a else m.durable a
      pending := fun a => if a ∈ as then [] else m.pending a }

def run (m : Pmem α β) (prog : List (Act α β)) : Pmem α β := prog.foldl exec m

@[simp] theorem run_nil (m : Pmem α β) : m.run [] = m := rfl

@[simp] theorem run_cons (m : Pmem α β) (x : Act α β) (prog : List (Act α β)) :
    m.run (x :: prog) = (m.exec x).run prog := rfl

theorem run_append (m : Pmem α β) (xs ys : List (Act α β)) : m.run (xs ++ ys) = (m.run xs).run ys :=
    List.foldl_append

variable {m : Pmem α β} {img : ∀ a, β a} {prog : List (Act α β)}

omit [DecidableEq α] in
theorem image_iff : m.Image img ↔ ∀ a, img a ∈ m.possible a := by
  refine forall_congr' fun a => ⟨?_, fun h => ?_⟩
  · rintro ⟨l, hl, he⟩
    rw [he]
    exact List.cons_subset_cons _ hl.subset List.getLastD_mem_cons
  · rcases List.mem_cons.mp h with h | h
    · exact ⟨[], List.nil_sublist _, h⟩
    · exact ⟨[img a], List.singleton_sublist.mpr h, rfl⟩

omit [DecidableEq α] in
theorem read_mem_possible (m : Pmem α β) (a : α) : m.read a ∈ m.possible a := List.getLastD_mem_cons

omit [DecidableEq α] in
theorem image_read (m : Pmem α β) : m.Image m.read := image_iff.mpr m.read_mem_possible

/-- A crash can leave any possible content at an address. -/
theorem exists_image_eq {a : α} {x : β a} (h : x ∈ m.possible a) : ∃ img, m.Image img ∧ img a = x := by
  refine ⟨Function.update m.read a x, image_iff.mpr fun b => ?_, Function.update_self ..⟩
  by_cases hb : b = a
  · subst hb
    rwa [Function.update_self]
  · rw [Function.update_of_ne hb]
    exact m.read_mem_possible b

@[simp] theorem read_store_self (m : Pmem α β) (a : α) (x : β a) : (m.exec (.store a x)).read a = x := by
  simp [read, exec]

theorem read_store_of_ne (m : Pmem α β) {a b : α} (x : β a) (h : b ≠ a) :
    (m.exec (.store a x)).read b = m.read b := by
  simp [read, exec, h]

@[simp] theorem read_persist (m : Pmem α β) (as : List α) (a : α) : (m.exec (.persist as)).read a = m.read a := by
  by_cases h : a ∈ as <;> simp [read, exec, h]

/-- Nothing but the stores of the program becomes possible. -/
theorem possible_exec {act : Act α β} {a : α} {x : β a} (h : x ∈ (m.exec act).possible a) :
    x ∈ m.possible a ∨ act = .store a x := by
  cases act with
  | store b y =>
    by_cases hb : a = b
    · subst hb
      simp only [possible, exec, Function.update_self, List.mem_cons, List.mem_append, List.not_mem_nil,
        or_false] at h ⊢
      rcases h with h | h | rfl
      · exact .inl (.inl h)
      · exact .inl (.inr h)
      · exact .inr rfl
    · simp only [possible, exec, Function.update_of_ne hb] at h
      exact .inl h
  | persist as =>
    by_cases hmem : a ∈ as
    · simp only [possible, exec, hmem, if_true, List.mem_singleton] at h
      exact .inl (h ▸ m.read_mem_possible a)
    · simp only [possible, exec, hmem, if_false] at h
      exact .inl h

/-- Where nothing is stored, nothing becomes possible. -/
theorem possible_exec_subset {act : Act α β} {a : α} (h : act.target ≠ some a) :
    (m.exec act).possible a ⊆ m.possible a := by
  intro x hx
  refine (possible_exec hx).resolve_right ?_
  rintro rfl
  exact h rfl

theorem read_exec_of_ne {act : Act α β} {a : α} (h : act.target ≠ some a) : (m.exec act).read a = m.read a := by
  cases act with
  | store b x => exact read_store_of_ne m x fun he => h (congrArg some he.symm)
  | persist as => exact read_persist m as a

/-- A flush leaves what the program sees. -/
theorem possible_persist {as : List α} {a : α} (h : a ∈ as) : (m.exec (.persist as)).possible a = [m.read a] := by
  simp [possible, exec, h]

theorem possible_run {a : α} {x : β a} (h : x ∈ (m.run prog).possible a) :
    x ∈ m.possible a ∨ .store a x ∈ prog := by
  induction prog generalizing m with
  | nil => exact .inl h
  | cons act prog ih =>
    rcases ih h with h | h
    · rcases possible_exec h with h | rfl
      · exact .inl h
      · exact .inr List.mem_cons_self
    · exact .inr (List.mem_cons_of_mem _ h)

/-- Stores only add to what is possible. -/
theorem possible_store (m : Pmem α β) (a b : α) (x : β a) :
    m.possible b ⊆ (m.exec (.store a x)).possible b := by
  intro y hy
  by_cases hb : b = a
  · subst hb
    simp only [possible, exec, Function.update_self, List.mem_cons, List.mem_append] at hy ⊢
    tauto
  · simpa only [possible, exec, Function.update_of_ne hb] using hy

theorem possible_stores (h : ∀ act ∈ prog, ∃ a x, act = .store a x) (b : α) :
    m.possible b ⊆ (m.run prog).possible b := by
  induction prog generalizing m with
  | nil => exact fun _ hy => hy
  | cons act prog ih =>
    obtain ⟨a, x, rfl⟩ := h act List.mem_cons_self
    exact fun y hy => ih (fun act' h' => h act' (List.mem_cons_of_mem _ h')) (m.possible_store a b x hy)

/-- What is stored is possible at once. -/
theorem mem_possible_store (m : Pmem α β) (a : α) (x : β a) : x ∈ (m.exec (.store a x)).possible a := by
  simp [possible, exec]

end Pmem

end Hkv.PersistentMemory
