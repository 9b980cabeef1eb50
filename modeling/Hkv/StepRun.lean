import Mathlib.Data.Option.Basic

/-!
# Runs of a partial step function

A system is a function that takes a state and the label of a step to the next state;
`none` says that the step cannot be taken. A run is a list of labels, so that every
interleaving of the actors of the system is a run.
-/
namespace Hkv.StepRun

variable {σ α : Type} (step : σ → α → Option σ)

def run : σ → List α → Option σ
  | s, [] => some s
  | s, x :: xs => (step s x).bind (run · xs)

/-- Every step of the run satisfies `P` in the state in which it is taken. -/
def Along (P : σ → α → Prop) : σ → List α → Prop
  | _, [] => True
  | s, x :: xs => P s x ∧ ∀ s', step s x = some s' → Along P s' xs

variable {step} {P Q : σ → α → Prop} {I : σ → Prop} {s s' : σ} {x : α} {xs ys : List α}

@[simp] theorem run_nil : run step s [] = some s := rfl

theorem run_cons (h : step s x = some s') : run step s (x :: xs) = run step s' xs := by
  simp [run, h]

theorem run_append (h : run step s xs = some s') : run step s (xs ++ ys) = run step s' ys := by
  induction xs generalizing s with
  | nil =>
    cases h
    rfl
  | cons x xs ih =>
    obtain ⟨s₁, hx, hxs⟩ := Option.bind_eq_some_iff.mp h
    rw [List.cons_append, run_cons hx, ih hxs]

@[simp] theorem along_nil : Along step P s [] := trivial

theorem along_append (hrun : run step s xs = some s') (hxs : Along step P s xs) (hys : Along step P s' ys) :
    Along step P s (xs ++ ys) := by
  induction xs generalizing s with
  | nil => exact Option.some.inj hrun ▸ hys
  | cons x xs ih =>
    obtain ⟨s₁, hx, hrest⟩ := Option.bind_eq_some_iff.mp hrun
    refine ⟨hxs.1, fun s₂ h₂ => ?_⟩
    obtain rfl : s₁ = s₂ := Option.some.inj (hx.symm.trans h₂)
    exact ih hrest (hxs.2 s₁ hx)

theorem along_cons (hp : P s x) (hx : step s x = some s') (h : Along step P s' xs) :
    Along step P s (x :: xs) := by
  refine ⟨hp, fun s₁ h₁ => ?_⟩
  obtain rfl : s' = s₁ := Option.some.inj (hx.symm.trans h₁)
  exact h

instance decidableAlong [∀ s x, Decidable (P s x)] : ∀ s xs, Decidable (Along step P s xs)
  | _, [] => isTrue trivial
  | s, x :: xs => match h : step s x with
    | none => decidable_of_iff (P s x) (by simp [Along, h])
    | some s' =>
      haveI := decidableAlong s' xs
      decidable_of_iff (P s x ∧ Along step P s' xs) (by simp [Along, h])

/-- What the initial state has and every step keeps holds wherever a run ends. -/
theorem run_induction (hstep : ∀ s x s', I s → P s x → step s x = some s' → I s') (hs : I s)
    (halong : Along step P s xs) (hrun : run step s xs = some s') : I s' := by
  induction xs generalizing s with
  | nil => exact Option.some.inj hrun ▸ hs
  | cons x xs ih =>
    obtain ⟨s₁, hx, hxs⟩ := Option.bind_eq_some_iff.mp hrun
    exact ih (hstep s x s₁ hs halong.1 hx) (halong.2 s₁ hx) hxs

theorem along_of_forall_mem (h : ∀ s, ∀ x ∈ xs, P s x) : Along step P s xs := by
  induction xs generalizing s with
  | nil => trivial
  | cons x xs ih =>
      exact ⟨h s x List.mem_cons_self, fun _ _ => ih fun s y hy => h s y (List.mem_cons_of_mem _ hy)⟩

/-- A condition on the labels of a run that is taken to its end. -/
theorem forall_mem_of_along {P : α → Prop} (hrun : run step s xs = some s')
    (h : Along step (fun _ x => P x) s xs) : ∀ x ∈ xs, P x := by
  induction xs generalizing s with
  | nil => simp
  | cons x xs ih =>
    obtain ⟨s₁, hx, hxs⟩ := Option.bind_eq_some_iff.mp hrun
    exact List.forall_mem_cons.mpr ⟨h.1, ih hxs (h.2 s₁ hx)⟩

/-- `Along` by the states that the parts of a run reach. -/
theorem along_iff : Along step P s xs ↔ ∀ ys x, ys ++ [x] <+: xs → ∀ t, run step s ys = some t → P t x := by
  induction xs generalizing s with
  | nil => simp
  | cons x xs ih =>
    constructor
    · rintro ⟨hp, halong⟩ ys y hys t ht
      cases ys with
      | nil =>
        obtain ⟨rfl, -⟩ := List.cons_prefix_cons.mp hys
        exact Option.some.inj ht ▸ hp
      | cons z ys =>
        obtain ⟨rfl, hys'⟩ := List.cons_prefix_cons.mp hys
        obtain ⟨s₁, hx, ht'⟩ := Option.bind_eq_some_iff.mp ht
        exact ih.mp (halong s₁ hx) ys y hys' t ht'
    · intro h
      refine ⟨h [] x (by simp) s rfl, fun s₁ hx => ih.mpr fun ys y hys t ht => ?_⟩
      exact h (x :: ys) y (List.cons_prefix_cons.mpr ⟨rfl, hys⟩) t (by rw [run_cons hx, ht])

theorem along_and : Along step (fun s x => P s x ∧ Q s x) s xs ↔ Along step P s xs ∧ Along step Q s xs := by
  simp only [along_iff]
  exact ⟨fun h => ⟨fun ys x hys t ht => (h ys x hys t ht).1, fun ys x hys t ht => (h ys x hys t ht).2⟩,
    fun h ys x hys t ht => ⟨h.1 ys x hys t ht, h.2 ys x hys t ht⟩⟩

theorem along_imp (h : Along step P s xs) (hpq : ∀ s, ∀ x, P s x → Q s x) : Along step Q s xs :=
  along_iff.mpr fun ys x hys t ht => hpq t x (along_iff.mp h ys x hys t ht)

/-- The part of a run before a step satisfies what the run satisfies. -/
theorem along_of_isPrefix (h : Along step P s xs) (hys : ys <+: xs) : Along step P s ys :=
  along_iff.mpr fun zs x hzs => along_iff.mp h zs x (hzs.trans hys)

/-- The rule for a property that every step keeps unconditionally. -/
theorem run_induction_of_step (hstep : ∀ s x s', I s → step s x = some s' → I s') (hs : I s)
    (hrun : run step s xs = some s') : I s' :=
  run_induction (P := fun _ _ => True) (fun s x s' hi _ => hstep s x s' hi) hs
    (along_of_forall_mem fun _ _ _ => trivial) hrun

/-- A property that a step keeps exactly under `P` holds all along a run if and only if
every step of the run satisfies `P`. The invariant `J` is kept as long as the property holds. -/
theorem forall_run_iff_along {J : σ → Prop} (hrun : run step s xs = some s')
    (hinv : ∀ s, ∀ x ∈ xs, ∀ s', J s → I s → step s x = some s' → J s')
    (hstep : ∀ s, ∀ x ∈ xs, ∀ s', J s → I s → step s x = some s' → (I s' ↔ P s x)) (hj : J s)
    (hs : I s) : (∀ ys, ys <+: xs → ∀ t, run step s ys = some t → I t) ↔ Along step P s xs := by
  induction xs generalizing s with
  | nil =>
    simp only [List.prefix_nil, along_nil, iff_true]
    rintro ys rfl t ht
    exact Option.some.inj ht ▸ hs
  | cons x xs ih =>
    obtain ⟨s₁, hx, hxs⟩ := Option.bind_eq_some_iff.mp hrun
    have hone := hstep s x List.mem_cons_self s₁ hj hs hx
    have hrest := fun h => ih (s := s₁) hxs (fun t y hy => hinv t y (List.mem_cons_of_mem _ hy))
      (fun t y hy => hstep t y (List.mem_cons_of_mem _ hy)) (hinv s x List.mem_cons_self s₁ hj hs hx) h
    constructor
    · intro h
      have hi : I s₁ := h [x] (by simp) s₁ (by rw [run_cons hx, run_nil])
      refine along_cons (hone.mp hi) hx ((hrest hi).mp fun ys hys t ht => ?_)
      exact h (x :: ys) (List.cons_prefix_cons.mpr ⟨rfl, hys⟩) t (by rw [run_cons hx, ht])
    · rintro ⟨hp, halong⟩ ys hys t ht
      cases ys with
      | nil => exact Option.some.inj ht ▸ hs
      | cons y ys =>
        obtain ⟨rfl, hys'⟩ := List.cons_prefix_cons.mp hys
        rw [run_cons hx] at ht
        exact (hrest (hone.mpr hp)).mpr (halong s₁ hx) ys hys' t ht

theorem exists_run_of_total (htotal : ∀ s x, (step s x).isSome = true) (s : σ) (xs : List α) :
    ∃ s', run step s xs = some s' := by
  induction xs generalizing s with
  | nil => exact ⟨s, rfl⟩
  | cons x xs ih =>
    obtain ⟨s₁, hx⟩ := Option.isSome_iff_exists.mp (htotal s x)
    rw [run_cons hx]
    exact ih s₁

end Hkv.StepRun
