import Hkv.MtsConfig
import Hkv.StepRun
import Mathlib.Data.Fintype.Basic

/-!
# Rings for reads

A value storage has a ring for each thread id. The leader of the combined lookups submits
on ring `0`, a scan on the ring of its thread. Each of them waits until `pending_ios` is
`0`, submits, and then sets it to the number of its reads, for the completer to reap that
many completions and set it back to `0`. Nothing keeps two submitters of one ring from
passing the wait together.
-/
namespace Hkv.IoRing
open MtsConfig StepRun

inductive Submitter where
  /-- the leader in `apply_ops`; there is one at a time -/
  | lookup
  | scan
  deriving DecidableEq

instance : Fintype Submitter := ⟨{.lookup, .scan}, fun w => by cases w <;> simp⟩

/-- How far a submitter has come after its wait for `pending_ios`. -/
inductive Phase where
  | idle
  | checked
  /-- `n` entries of the submission queue are filled -/
  | prepared (n : ℕ)
  /-- `io_uring_submit` has returned -/
  | submitted (n : ℕ)
  deriving DecidableEq

/-- `r_ring` and `pending_ios` of one value storage and one ring. -/
structure Ring where
  pendingIos : ℕ
  /-- Filled entries that are not submitted yet, of any submitter. -/
  unsubmitted : ℕ
  phase : Submitter → Phase
  /-- `entry_idx` of `complete_pending_ios`, while it runs -/
  completer : Option ℕ
  /-- The reads submitted and the completions reaped so far. -/
  submitted : ℕ
  reaped : ℕ

inductive RingStep where
  /-- the wait for `pending_ios` is over -/
  | check (w : Submitter)
  /-- the loop of `get_val_ccsync` or `get_val_scan` over `n` entries of the value storage -/
  | prepare (w : Submitter) (n : ℕ)
  | submit (w : Submitter)
  /-- `pending_ios[ring_idx] = pending` -/
  | set (w : Submitter)
  /-- `complete_pending_ios` is called -/
  | start
  /-- one completion is reaped -/
  | reap
  /-- `pending_ios[ring_idx] = 0` -/
  | finish
  deriving DecidableEq

/-- The submitter that takes the step. -/
def RingStep.submitter : RingStep → Option Submitter
  | .check w | .prepare w _ | .submit w | .set w => some w
  | .start | .reap | .finish => none

namespace Ring

def setPhase (r : Ring) (w : Submitter) (p : Phase) : Ring := { r with phase := Function.update r.phase w p }

/-- The entries of the submission queue that are left. -/
def slots (r : Ring) : ℕ := rQd - r.unsubmitted

def step (r : Ring) : RingStep → Option Ring
  | .check w => if r.phase w = .idle ∧ r.pendingIos = 0 then some (r.setPhase w .checked) else none
  | .prepare w n =>
    if r.phase w = .checked then
      -- the loop ends early when `io_uring_get_sqe` fails
      let pending := min n r.slots
      some { r.setPhase w (if pending = 0 then .idle else .prepared pending) with
        unsubmitted := r.unsubmitted + pending }
    else none
  | .submit w =>
    match r.phase w with
    | .prepared pending =>
      -- everything in the queue is submitted; any other number than `pending` ends the process
      if r.unsubmitted = pending then
        some { r.setPhase w (.submitted pending) with unsubmitted := 0, submitted := r.submitted + pending }
      else none
    | _ => none
  | .set w =>
    match r.phase w with
    | .submitted pending => some { r.setPhase w .idle with pendingIos := pending }
    | _ => none
  | .start => if r.completer = none ∧ r.pendingIos ≠ 0 then some { r with completer := some 0 } else none
  | .reap =>
    match r.completer with
    | some i =>
      if i < r.pendingIos ∧ r.reaped < r.submitted then
        some { r with completer := some (i + 1), reaped := r.reaped + 1 }
      else none
    | none => none
  | .finish =>
    match r.completer with
    | some i => if i < r.pendingIos then none else some { r with pendingIos := 0, completer := none }
    | none => none

/-- A submitter that is about to set `pending_ios` finds it `0`. -/
def SetsZero (r : Ring) : RingStep → Prop
  | .set w => ∀ n, r.phase w = .submitted n → r.pendingIos = 0
  | _ => True

/-- All submitters are done, and so is the completer. -/
def AtRest (r : Ring) : Prop := (∀ w, r.phase w = .idle) ∧ r.pendingIos = 0

/-- A submitter ends its wait while no other one of the ring is at work. -/
def Exclusive (r : Ring) : RingStep → Prop
  | .check w => ∀ w', w' ≠ w → r.phase w' = .idle
  | _ => True

instance (r : Ring) : Decidable r.AtRest := inferInstanceAs (Decidable (_ ∧ _))

instance (r : Ring) : (x : RingStep) → Decidable (r.Exclusive x)
  | .check w => inferInstanceAs (Decidable (∀ w', w' ≠ w → r.phase w' = .idle))
  | .prepare .. | .submit _ | .set _ | .start | .reap | .finish => isTrue trivial

theorem step_phase {r r' : Ring} {x : RingStep} {w : Submitter} (hstep : r.step x = some r')
    (hw : x.submitter ≠ some w) : r'.phase w = r.phase w := by
  have hne : ∀ {w'}, x.submitter = some w' → w ≠ w' := fun h heq => hw (heq ▸ h)
  cases x with
  | check w' | prepare w' n =>
    simp only [step, Option.ite_none_right_eq_some, Option.some.injEq] at hstep
    obtain ⟨-, rfl⟩ := hstep
    exact Function.update_of_ne (hne rfl) ..
  | submit w' =>
    simp only [step] at hstep
    split at hstep
    · simp only [Option.ite_none_right_eq_some, Option.some.injEq] at hstep
      obtain ⟨-, rfl⟩ := hstep
      exact Function.update_of_ne (hne rfl) ..
    · cases hstep
  | set w' =>
    simp only [step] at hstep
    split at hstep
    · cases hstep
      exact Function.update_of_ne (hne rfl) ..
    · cases hstep
  | start =>
    simp only [step, Option.ite_none_right_eq_some, Option.some.injEq] at hstep
    obtain ⟨-, rfl⟩ := hstep
    rfl
  | reap | finish =>
    simp only [step] at hstep
    split at hstep
    · split at hstep <;> cases hstep
      rfl
    · cases hstep

/-- One submitter at a time, and its reads are reaped before the next one. -/
structure Inv (r : Ring) : Prop where
  busy : ∀ w, r.phase w ≠ .idle → r.pendingIos = 0 ∧ r.completer = none ∧ ∀ w',
    w' ≠ w → r.phase w' = .idle
  free : (∀ w, r.phase w = .idle) →
    r.unsubmitted = 0 ∧ r.submitted + r.completer.getD 0 = r.reaped + r.pendingIos
  reaping : ∀ i, r.completer = some i → i ≤ r.pendingIos ∧ r.pendingIos ≠ 0
  checked : ∀ w, r.phase w = .checked → r.unsubmitted = 0 ∧ r.submitted = r.reaped
  prepared : ∀ w n, r.phase w = .prepared n → r.unsubmitted = n ∧ r.submitted = r.reaped
  submitted : ∀ w n, r.phase w = .submitted n → r.unsubmitted = 0 ∧ r.submitted = r.reaped + n

variable {r r' : Ring}

theorem Inv.setsZero (h : r.Inv) (x : RingStep) : r.SetsZero x := by
  cases x with
  | set w => exact fun n hn => (h.busy w (by simp [hn])).1
  | _ => trivial

theorem Inv.reaped_eq (h : r.Inv) (hrest : r.AtRest) : r.reaped = r.submitted := by
  obtain ⟨hidle, hzero⟩ := hrest
  have hnone : r.completer = none := by
    cases hc : r.completer with
    | none => rfl
    | some i => exact absurd hzero (h.reaping i hc).2
  have hcount := (h.free hidle).2
  rw [hnone, hzero] at hcount
  simpa using hcount.symm

theorem Inv.of_alone {w : Submitter} (hidle : ∀ w', w' ≠ w → r'.phase w' = .idle) (hne : r'.phase w ≠ .idle)
    (hzero : r'.pendingIos = 0) (hnone : r'.completer = none)
    (hchecked : r'.phase w = .checked → r'.unsubmitted = 0 ∧ r'.submitted = r'.reaped)
    (hprepared : ∀ n, r'.phase w = .prepared n → r'.unsubmitted = n ∧ r'.submitted = r'.reaped)
    (hsubmitted : ∀ n, r'.phase w = .submitted n → r'.unsubmitted = 0 ∧ r'.submitted = r'.reaped + n) :
    r'.Inv := by
  have honly : ∀ w', r'.phase w' ≠ .idle → w' = w := fun w' h => by
    by_contra hw
    exact h (hidle w' hw)
  refine ⟨fun w' hw' => ?_, fun h => absurd (h w) hne, fun i hi => ?_, fun w' hw' => ?_, fun w' n hw' => ?_,
    fun w' n hw' => ?_⟩
  · obtain rfl := honly w' hw'
    exact ⟨hzero, hnone, hidle⟩
  · rw [hnone] at hi
    cases hi
  · obtain rfl := honly w' (by simp [hw'])
    exact hchecked hw'
  · obtain rfl := honly w' (by simp [hw'])
    exact hprepared n hw'
  · obtain rfl := honly w' (by simp [hw'])
    exact hsubmitted n hw'

theorem Inv.of_idle (hidle : ∀ w, r'.phase w = .idle) (hun : r'.unsubmitted = 0)
    (hcount : r'.submitted + r'.completer.getD 0 = r'.reaped + r'.pendingIos)
    (hreaping : ∀ i, r'.completer = some i → i ≤ r'.pendingIos ∧ r'.pendingIos ≠ 0) : r'.Inv := by
  refine ⟨fun w hw => absurd (hidle w) hw, fun _ => ⟨hun, hcount⟩, hreaping, fun w hw => ?_, fun w n hw => ?_,
    fun w n hw => ?_⟩ <;> simp [hidle w] at hw

theorem inv_initial : (⟨0, 0, fun _ => .idle, none, 0, 0⟩ : Ring).Inv := .of_idle (fun _ => rfl) rfl rfl (by simp)

theorem Inv.step_check {w : Submitter} (h : r.Inv) (hex : r.Exclusive (.check w))
    (hstep : r.step (.check w) = some r') : r'.Inv := by
  simp only [step] at hstep
  split at hstep
  · rename_i hc
    cases hstep
    have hidle : ∀ w', r.phase w' = .idle := fun w' => by
      by_cases hw : w' = w
      · exact hw ▸ hc.1
      · exact hex w' hw
    have hnone : r.completer = none := by
      cases hcm : r.completer with
      | none => rfl
      | some i => exact absurd hc.2 (h.reaping i hcm).2
    have hfree := h.free hidle
    rw [hnone, hc.2] at hfree
    exact .of_alone (w := w) (fun w' hw => by simp [setPhase, hw, hidle w']) (by simp [setPhase]) hc.2 hnone
      (fun _ => by simpa [setPhase] using hfree) (by simp [setPhase]) (by simp [setPhase])
  · cases hstep

theorem Inv.step_prepare {w : Submitter} {n : ℕ} (h : r.Inv) (hstep : r.step (.prepare w n) = some r') :
    r'.Inv := by
  simp only [step] at hstep
  split at hstep
  · rename_i hc
    cases hstep
    obtain ⟨hzero, hnone, hidle⟩ := h.busy w (by simp [hc])
    obtain ⟨hun, hcount⟩ := h.checked w hc
    by_cases hmin : min n r.slots = 0
    · refine .of_idle (fun w' => ?_) ?_ ?_ ?_
      · by_cases hw : w' = w
        · simp [setPhase, hw, hmin]
        · simp [setPhase, hw, hidle w' hw]
      · simp [hmin, hun]
      · simp [setPhase, hnone, hzero, hcount]
      · simp [setPhase, hnone]
    · refine .of_alone (w := w) (fun w' hw => by simp [setPhase, hw, hidle w' hw])
        (by simp [setPhase, hmin]) hzero hnone
        (by simp [setPhase, hmin]) (fun m hm => ?_) (by simp [setPhase, hmin])
      have hm' : min n r.slots = m := by simpa [setPhase, hmin] using hm
      exact ⟨by simp [hun, hm'], hcount⟩
  · cases hstep

theorem Inv.step_submit {w : Submitter} (h : r.Inv) (hstep : r.step (.submit w) = some r') : r'.Inv := by
  simp only [step] at hstep
  split at hstep
  · rename_i pending hp
    split at hstep
    · cases hstep
      obtain ⟨hzero, hnone, hidle⟩ := h.busy w (by simp [hp])
      obtain ⟨-, hcount⟩ := h.prepared w pending hp
      refine .of_alone (w := w) (fun w' hw => by simp [setPhase, hw, hidle w' hw]) (by simp [setPhase]) hzero hnone
        (by simp [setPhase]) (by simp [setPhase]) fun m hm => ?_
      have hm' : pending = m := by simpa [setPhase] using hm
      exact ⟨rfl, by simp [setPhase, hcount, hm']⟩
    · cases hstep
  · cases hstep

theorem Inv.step_set {w : Submitter} (h : r.Inv) (hstep : r.step (.set w) = some r') : r'.Inv := by
  simp only [step] at hstep
  split at hstep
  · rename_i pending hp
    cases hstep
    obtain ⟨-, hnone, hidle⟩ := h.busy w (by simp [hp])
    obtain ⟨hun, hcount⟩ := h.submitted w pending hp
    refine .of_idle (fun w' => ?_) hun ?_ ?_
    · by_cases hw : w' = w
      · simp [setPhase, hw]
      · simp [setPhase, hw, hidle w' hw]
    · simpa [setPhase, hnone] using hcount
    · simp [setPhase, hnone]
  · cases hstep

theorem Inv.idle_of_completer (h : r.Inv) (hc : r.pendingIos ≠ 0) (w : Submitter) : r.phase w = .idle := by
  by_contra hw
  exact hc (h.busy w hw).1

theorem Inv.step_completer {x : RingStep} (h : r.Inv) (hx : x = .start ∨ x = .reap ∨ x = .finish)
    (hstep : r.step x = some r') : r'.Inv := by
  rcases hx with rfl | rfl | rfl
  · simp only [step] at hstep
    split at hstep
    · rename_i hc
      cases hstep
      have hidle := h.idle_of_completer hc.2
      obtain ⟨hun, hcount⟩ := h.free hidle
      rw [hc.1] at hcount
      exact .of_idle hidle hun (by simpa using hcount) fun i hi => by
        obtain rfl := Option.some.inj hi
        exact ⟨Nat.zero_le _, hc.2⟩
    · cases hstep
  · simp only [step] at hstep
    split at hstep
    · rename_i i hi
      split at hstep
      · rename_i hlt
        cases hstep
        have hidle := h.idle_of_completer (h.reaping i hi).2
        obtain ⟨hun, hcount⟩ := h.free hidle
        rw [hi] at hcount
        refine .of_idle hidle hun ?_ fun j hj => ?_
        · simp only [Option.getD_some] at hcount ⊢
          omega
        · obtain rfl := Option.some.inj hj
          exact ⟨hlt.1, (h.reaping i hi).2⟩
      · cases hstep
    · cases hstep
  · simp only [step] at hstep
    split at hstep
    · rename_i i hi
      split at hstep
      · cases hstep
      · rename_i hge
        cases hstep
        have hidle := h.idle_of_completer (h.reaping i hi).2
        obtain ⟨hun, hcount⟩ := h.free hidle
        rw [hi] at hcount
        have hle := (h.reaping i hi).1
        refine .of_idle hidle hun ?_ (by simp)
        simp only [Option.getD_some, Option.getD_none] at hcount ⊢
        omega
    · cases hstep

theorem Inv.step (h : r.Inv) {x : RingStep} (hex : r.Exclusive x) (hstep : r.step x = some r') : r'.Inv := by
  cases x with
  | check w => exact h.step_check hex hstep
  | prepare w n => exact h.step_prepare hstep
  | submit w => exact h.step_submit hstep
  | set w => exact h.step_set hstep
  | start => exact h.step_completer (.inl rfl) hstep
  | reap => exact h.step_completer (.inr (.inl rfl)) hstep
  | finish => exact h.step_completer (.inr (.inr rfl)) hstep

theorem Inv.exists_drain (h : r.Inv) :
    ∃ xs r', (∀ x ∈ xs, x.submitter = none) ∧ run Ring.step r xs = some r' ∧ r'.pendingIos = 0 := by
  by_cases hzero : r.pendingIos = 0
  · exact ⟨[], r, by simp, rfl, hzero⟩
  -- by induction on what is left to reap
  have hreap : ∀ k i, ∀ r : Ring, r.Inv → r.completer = some i → r.pendingIos = i + k →
      ∃ xs r', (∀ x ∈ xs, x.submitter = none) ∧ run Ring.step r xs = some r' ∧ r'.pendingIos = 0 := by
    intro k
    induction k with
    | zero =>
      intro i r h hi hk
      refine ⟨[.finish], { r with pendingIos := 0, completer := none }, by simp [RingStep.submitter], ?_, rfl⟩
      simp [run, Ring.step, hi, hk]
    | succ k ih =>
      intro i r h hi hk
      have hcount := (h.free (h.idle_of_completer (h.reaping i hi).2)).2
      rw [hi, Option.getD_some] at hcount
      have hstep : r.step .reap = some { r with completer := some (i + 1), reaped := r.reaped + 1 } := by
        simp only [Ring.step, hi]
        exact if_pos (by omega)
      obtain ⟨xs, r', hxs, hrun, hzero⟩ :=
        ih (i + 1) _ (h.step (x := .reap) trivial hstep) rfl (by simp only; omega)
      refine ⟨.reap :: xs, r', ?_, by rw [run_cons hstep, hrun], hzero⟩
      simpa [RingStep.submitter] using hxs
  cases hc : r.completer with
  | some i =>
    have hle := (h.reaping i hc).1
    exact hreap (r.pendingIos - i) i r h hc (by omega)
  | none =>
    have hstep : r.step .start = some { r with completer := some 0 } := by
      simp only [Ring.step]
      exact if_pos ⟨hc, hzero⟩
    obtain ⟨xs, r', hxs, hrun, hzero⟩ := hreap r.pendingIos 0 _ (h.step (x := .start) trivial hstep) rfl (by simp)
    refine ⟨.start :: xs, r', ?_, by rw [run_cons hstep, hrun], hzero⟩
    simpa [RingStep.submitter] using hxs

end Ring

/-! ## All rings -/

/-- The rings by value storage and thread id. -/
abbrev Rings := ℕ → ℕ → Ring

/-- A step at ring `i` of value storage `v`. -/
structure RingsStep where
  v : ℕ
  i : ℕ
  ring : RingStep

namespace Rings

def initial : Rings := fun _ _ => ⟨0, 0, fun _ => .idle, none, 0, 0⟩

/-- Lookups use ring `0`. -/
def step (s : Rings) (x : RingsStep) : Option Rings :=
  if x.ring.submitter = some .lookup ∧ x.i ≠ 0 then none
  else ((s x.v x.i).step x.ring).map fun r => Function.update s x.v (Function.update (s x.v) x.i r)

def SetsZero (s : Rings) (x : RingsStep) : Prop := (s x.v x.i).SetsZero x.ring

/-- On ring `0`, a leader and a scan of thread `0` do not pass their wait together. -/
def Exclusive (s : Rings) (x : RingsStep) : Prop := x.i = 0 → (s x.v x.i).Exclusive x.ring

instance (s : Rings) (x : RingsStep) : Decidable (Exclusive s x) := inferInstanceAs (Decidable (_ → _))

/-- Every ring has one submitter at a time. -/
def Inv (s : Rings) : Prop := ∀ v i, (s v i).Inv ∧ (i ≠ 0 → (s v i).phase .lookup = .idle)

theorem inv_initial : Inv initial := fun _ _ => ⟨Ring.inv_initial, fun _ => rfl⟩

variable {s s' : Rings} {x : RingsStep}

theorem Inv.exclusive (h : Inv s) (hex : Exclusive s x) (hx : ¬ (x.ring.submitter = some .lookup ∧ x.i ≠ 0)) :
    (s x.v x.i).Exclusive x.ring := by
  by_cases hi : x.i = 0
  · exact hex hi
  · cases hring : x.ring with
    | check w =>
      have hw : w ≠ .lookup := fun hw => hx ⟨by rw [hring, hw]; rfl, hi⟩
      intro w' hw'
      obtain rfl : w' = .lookup := by
        cases w <;> cases w' <;> simp_all
      exact (h x.v x.i).2 hi
    | _ => trivial

theorem step_cases (hstep : s.step x = some s') : ¬ (x.ring.submitter = some .lookup ∧ x.i ≠ 0) ∧
    ∃ r, (s x.v x.i).step x.ring = some r ∧ s' x.v x.i = r ∧ ∀ v i,
    (v, i) ≠ (x.v, x.i) → s' v i = s v i := by
  unfold step at hstep
  split at hstep
  · cases hstep
  · rename_i hx
    obtain ⟨r, hr, rfl⟩ := Option.map_eq_some_iff.mp hstep
    refine ⟨hx, r, hr, by simp, fun v i hne => ?_⟩
    by_cases hv : v = x.v
    · subst hv
      have hi : i ≠ x.i := fun hi => hne (by rw [hi])
      simp [hi]
    · simp [hv]

theorem Inv.step (h : Inv s) (hex : Exclusive s x) (hstep : s.step x = some s') : Inv s' := by
  obtain ⟨hx, r, hr, hself, hother⟩ := step_cases hstep
  intro v i
  by_cases hvi : (v, i) = (x.v, x.i)
  · obtain ⟨rfl, rfl⟩ := Prod.mk.inj hvi
    rw [hself]
    refine ⟨(h x.v x.i).1.step (h.exclusive hex hx) hr, fun hi => ?_⟩
    rw [Ring.step_phase hr fun hw => hx ⟨hw, hi⟩]
    exact (h x.v x.i).2 hi
  · rw [hother v i hvi]
    exact h v i

/-- If no two submitters of ring `0` pass their wait together, then no `pending_ios` is
overwritten, and what was submitted is reaped. -/
theorem along_setsZero {xs : List RingsStep} (hex : Along step Exclusive initial xs) :
    Along step SetsZero initial xs ∧ ∀ s, run step initial xs = some s →
      ∀ v i, (s v i).AtRest → (s v i).reaped = (s v i).submitted := by
  refine ⟨along_iff.mpr fun ys x hys t ht => ?_, fun s hs v i hrest => ?_⟩
  · have hinv : Inv t := run_induction (I := Inv) (fun _ _ _ h hp hstep => h.step hp hstep) inv_initial
      (along_of_isPrefix hex ((List.prefix_append ys [x]).trans hys)) ht
    exact (hinv x.v x.i).1.setsZero x.ring
  · have hinv : Inv s := run_induction (I := Inv) (fun _ _ _ h hp hstep => h.step hp hstep) inv_initial hex hs
    exact (hinv v i).1.reaped_eq hrest

/-- A scan of thread `0` after a lookup. -/
theorem along_setsZero_inTurn : Along step SetsZero initial
      ([.check .lookup, .prepare .lookup 1, .submit .lookup, .set .lookup, .start, .reap, .finish,
        .check .scan, .prepare .scan 2, .submit .scan, .set .scan].map (RingsStep.mk 0 0)) :=
  (along_setsZero (by decide +kernel)).1

/-- The leader of a lookup and a scan of thread `0` both find `pending_ios` to be `0`. The
scan overwrites it, and the completion of the lookup is never reaped. -/
theorem rings_not_setsZero :
    (∃ s, run step initial ([.check .lookup, .check .scan, .prepare .lookup 1, .submit .lookup, .prepare .scan 2,
        .submit .scan, .set .lookup].map (RingsStep.mk 0 0)) = some s ∧ ¬ SetsZero s ⟨0, 0, .set .scan⟩) ∧
    ∃ s, run step initial ([.check .lookup, .check .scan, .prepare .lookup 1, .submit .lookup, .prepare .scan 2,
        .submit .scan, .set .lookup, .set .scan, .start, .reap, .reap, .finish].map (RingsStep.mk 0 0)) = some s ∧
      (s 0 0).AtRest ∧ (s 0 0).reaped = 2 ∧ (s 0 0).submitted = 3 := by
  have hset :
    ((run step initial ([.check .lookup, .check .scan, .prepare .lookup 1, .submit .lookup, .prepare .scan 2,
      .submit .scan, .set .lookup].map (RingsStep.mk 0 0))).map fun s =>
        decide ((s 0 0).phase .scan = .submitted 2 ∧ (s 0 0).pendingIos = 1)) = some true := by
    decide +kernel
  have hrest :
    ((run step initial ([.check .lookup, .check .scan, .prepare .lookup 1, .submit .lookup, .prepare .scan 2,
      .submit .scan, .set .lookup, .set .scan, .start, .reap, .reap, .finish].map (RingsStep.mk 0 0))).map fun s =>
        decide ((s 0 0).AtRest ∧ (s 0 0).reaped = 2 ∧ (s 0 0).submitted = 3)) = some true := by
    decide +kernel
  obtain ⟨s, hs, hdec⟩ := Option.map_eq_some_iff.mp hset
  obtain ⟨t, ht, hdec'⟩ := Option.map_eq_some_iff.mp hrest
  obtain ⟨hphase, hone⟩ := of_decide_eq_true hdec
  refine ⟨⟨s, hs, fun hzero => ?_⟩, t, ht, of_decide_eq_true hdec'⟩
  exact absurd (hone.symm.trans (hzero 2 hphase)) (by decide)

end Rings

end Hkv.IoRing
