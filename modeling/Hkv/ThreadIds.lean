import Hkv.MtsConfig
import Hkv.StepRun
import Mathlib.Logic.Function.Basic
import Mathlib.Tactic.Linarith

/-!
# Thread ids

`registerThread` takes its id from a counter that `unregisterThread` decrements. Logs,
address tables, cache queues and combiner states are indexed by these ids, without
locks, so that two live threads must not share one.
-/
namespace Hkv.ThreadIds
open StepRun MtsConfig

/-- The fields of `MTSThread` that registration uses. -/
structure MtsThread where
  threadId : ℤ
  phase : ℤ
  finish : Bool

structure State (T : Type) where
  /-- `std::atomic<uint32_t>` -/
  numThreads : BitVec 32
  /-- `g_phase` -/
  gPhase : ℤ → ℤ
  /-- `curMTSThread`, which is thread local -/
  cur : T → Option MtsThread

inductive Call (T : Type) where
  | registerThread (t : T)
  | unregisterThread (t : T)

variable {T : Type}

namespace State
variable [DecidableEq T]

/-- The counter is converted to `int`. -/
def registerThread (s : State T) (t : T) : State T :=
  let threadId := s.numThreads.toInt
  { s with
    numThreads := s.numThreads + 1
    cur := Function.update s.cur t (some ⟨threadId, s.gPhase threadId, false⟩) }

/-- `curMTSThread` stays set, so that a second call counts down again. -/
def unregisterThread (s : State T) (t : T) : State T :=
  match s.cur t with
  | none => s
  | some mt =>
    let mt' := { mt with phase := mt.phase - 1, finish := true }
    { numThreads := s.numThreads - 1
      gPhase := Function.update s.gPhase mt.threadId mt'.phase
      cur := Function.update s.cur t (some mt') }

def step (s : State T) : Call T → Option (State T)
  | .registerThread t => some (s.registerThread t)
  | .unregisterThread t => some (s.unregisterThread t)

end State

/-- The id of a thread that is registered. -/
def State.liveId (s : State T) (t : T) : Option ℤ :=
  (s.cur t).bind fun mt => if mt.finish then none else some mt.threadId

/-- Registered threads have ids of their own, all below `n`. -/
structure Exclusive (n : ℤ) (s : State T) : Prop where
  inj : ∀ t t' i, s.liveId t = some i → s.liveId t' = some i → t = t'
  range : ∀ t i, s.liveId t = some i → 0 ≤ i ∧ i < n

/-- No other registered thread has the id that the counter is at, and it is in range. -/
def Fresh (n : ℤ) (s : State T) : Call T → Prop
  | .registerThread t => (∀ t', t' ≠ t → s.liveId t' ≠ some s.numThreads.toInt) ∧
      0 ≤ s.numThreads.toInt ∧ s.numThreads.toInt < n
  | .unregisterThread _ => True

/-- `MTSImpl::MTSImpl` -/
def initial (T : Type) : State T := ⟨0, fun _ => 3, fun _ => none⟩

variable [DecidableEq T] {n : ℤ} {s s' : State T} {t t' : T}

theorem liveId_registerThread_self (s : State T) (t : T) :
    (s.registerThread t).liveId t = some s.numThreads.toInt := by
  simp [State.liveId, State.registerThread]

theorem liveId_registerThread_ne (h : t' ≠ t) : (s.registerThread t).liveId t' = s.liveId t' := by
  simp [State.liveId, State.registerThread, h]

theorem liveId_unregisterThread_self (s : State T) (t : T) : (s.unregisterThread t).liveId t = none := by
  unfold State.unregisterThread
  split
  · rename_i h
    simp [State.liveId, h]
  · simp [State.liveId]

theorem liveId_unregisterThread_ne (h : t' ≠ t) : (s.unregisterThread t).liveId t' = s.liveId t' := by
  unfold State.unregisterThread
  split
  · rfl
  · simp [State.liveId, h]

theorem Exclusive.registerThread_iff (h : Exclusive n s) :
    Exclusive n (s.registerThread t) ↔ Fresh n s (.registerThread t) := by
  have hself := liveId_registerThread_self s t
  constructor
  · intro h'
    refine ⟨fun t' hne hid => hne (h'.inj t' t _ ?_ hself), h'.range t _ hself⟩
    rwa [liveId_registerThread_ne hne]
  · rintro ⟨hfresh, hrange⟩
    have hother : ∀ {t₁ i}, t₁ ≠ t → (s.registerThread t).liveId t₁ = some i →
      s.liveId t₁ = some i := by
      intro t₁ i hne hid
      rwa [liveId_registerThread_ne hne] at hid
    refine ⟨fun t₁ t₂ i h₁ h₂ => ?_, fun t₁ i h₁ => ?_⟩
    · by_cases ht₁ : t₁ = t
      · by_cases ht₂ : t₂ = t
        · rw [ht₁, ht₂]
        · subst ht₁
          obtain rfl := Option.some.inj (hself.symm.trans h₁)
          exact absurd (hother ht₂ h₂) (hfresh t₂ ht₂)
      · by_cases ht₂ : t₂ = t
        · subst ht₂
          obtain rfl := Option.some.inj (hself.symm.trans h₂)
          exact absurd (hother ht₁ h₁) (hfresh t₁ ht₁)
        · exact h.inj t₁ t₂ i (hother ht₁ h₁) (hother ht₂ h₂)
    · by_cases ht₁ : t₁ = t
      · subst ht₁
        obtain rfl := Option.some.inj (hself.symm.trans h₁)
        exact hrange
      · exact h.range t₁ i (hother ht₁ h₁)

theorem Exclusive.unregisterThread (h : Exclusive n s) (t : T) : Exclusive n (s.unregisterThread t) := by
  have hlive : ∀ {t₁ i}, (s.unregisterThread t).liveId t₁ = some i → s.liveId t₁ = some i := by
    intro t₁ i hid
    by_cases ht : t₁ = t
    · subst ht
      rw [liveId_unregisterThread_self] at hid
      cases hid
    · rwa [liveId_unregisterThread_ne ht] at hid
  exact ⟨fun t₁ t₂ i h₁ h₂ => h.inj t₁ t₂ i (hlive h₁) (hlive h₂),
    fun t₁ i h₁ => h.range t₁ i (hlive h₁)⟩

theorem exclusive_step_iff {x : Call T} (h : Exclusive n s) (hs : s.step x = some s') :
    Exclusive n s' ↔ Fresh n s x := by
  cases x with
  | registerThread t =>
    cases hs
    exact h.registerThread_iff
  | unregisterThread t =>
    cases hs
    exact iff_of_true (h.unregisterThread t) trivial

/-! ## All orders of calls -/

/-- Ids are exclusive at every moment of a run if and only if every registration finds
the counter at an id that is free and in range. -/
theorem exclusive_iff_fresh (n : ℤ) (xs : List (Call T)) :
    (∀ ys, ys <+: xs → ∀ s, run State.step (initial T) ys = some s → Exclusive n s) ↔
      Along State.step (Fresh n) (initial T) xs := by
  have hinit : Exclusive n (initial T) := ⟨fun _ _ _ h => by simp [State.liveId, initial] at h,
    fun _ _ h => by simp [State.liveId, initial] at h⟩
  have htotal : ∀ (s : State T) x, (s.step x).isSome = true := fun s x => by cases x <;> rfl
  obtain ⟨s, hrun⟩ := exists_run_of_total htotal (initial T) xs
  exact forall_run_iff_along (J := fun _ => True) hrun (fun _ _ _ _ _ _ _ => trivial)
    (fun s x _ s' _ h hs => exclusive_step_iff h hs) trivial hinit

/-- Two threads register, the first one leaves, and a third one registers. -/
def earlyLeave : List (Call ℕ) :=
  [.registerThread 0, .registerThread 1, .unregisterThread 0, .registerThread 2]

theorem earlyLeave_shares_id : ∃ s, run State.step (initial ℕ) earlyLeave = some s ∧ s.liveId 1 = some 1 ∧
    s.liveId 2 = some 1 ∧ ¬ Exclusive threadNum s := by
  refine ⟨_, rfl, by decide, by decide, fun h => ?_⟩
  exact absurd (h.inj 1 2 1 (by decide) (by decide)) (by decide)

/-! ## Phases

The threads of a benchmark phase all register before the first one leaves, and all leave
before the next phase begins. Such runs meet the condition. -/

/-- The ids in use are below the counter. -/
structure Compact (k : ℕ) (s : State T) : Prop where
  count : s.numThreads = BitVec.ofNat 32 k
  below : ∀ t i, s.liveId t = some i → i < k

/-- Nobody is registered. -/
structure Idle (s : State T) : Prop where
  count : s.numThreads = 0
  live : ∀ t, s.liveId t = none

omit [DecidableEq T] in
theorem Compact.toInt {k : ℕ} (h : Compact k s) (hk : (k : ℤ) < 2 ^ 31) : s.numThreads.toInt = k := by
  rw [h.count, BitVec.toInt_eq_toNat_of_lt] <;> simp only [BitVec.toNat_ofNat] <;> omega

theorem Compact.registerThread {k : ℕ} (h : Compact k s) (hk : (k : ℤ) < 2 ^ 31) (t : T) :
    Compact (k + 1) (s.registerThread t) := by
  refine ⟨?_, fun t' i hi => ?_⟩
  · simp only [State.registerThread, h.count, BitVec.ofNat_add]
    rfl
  · by_cases ht : t' = t
    · subst ht
      rw [liveId_registerThread_self, h.toInt hk] at hi
      rw [← Option.some.inj hi]
      omega
    · rw [liveId_registerThread_ne ht] at hi
      have := h.below t' i hi
      omega

theorem Compact.registerAll {k : ℕ} (h : Compact k s) (ts : List T) (hn : n ≤ 2 ^ 31)
    (hlen : (k + ts.length : ℤ) ≤ n) : ∃ s', run State.step s (ts.map .registerThread) = some s' ∧
      Along State.step (Fresh n) s (ts.map .registerThread) ∧ s'.numThreads = BitVec.ofNat 32 (k + ts.length) ∧
      (∀ t ∈ ts, (s'.cur t).isSome = true) ∧ ∀ t, t ∉ ts → s'.cur t = s.cur t := by
  induction ts generalizing k s with
  | nil => exact ⟨s, rfl, trivial, h.count, by simp, fun _ _ => rfl⟩
  | cons t ts ih =>
    rw [List.length_cons] at hlen
    push_cast at hlen
    have hk : (k : ℤ) < 2 ^ 31 := by omega
    obtain ⟨s', hrun, halong, hcount, hcur, hsame⟩ := ih (h.registerThread hk t) (by push_cast; omega)
    refine ⟨s', hrun, along_cons ⟨fun t' _ hid => ?_, ?_⟩ rfl halong, ?_, fun t' ht' => ?_, fun t' ht' => ?_⟩
    · have := h.below t' _ hid
      rw [h.toInt hk] at this
      omega
    · rw [h.toInt hk]
      omega
    · rw [hcount, List.length_cons]
      congr 1
      omega
    · by_cases hmem : t' ∈ ts
      · exact hcur t' hmem
      · obtain rfl := (List.mem_cons.mp ht').resolve_right hmem
        rw [hsame t' hmem]
        simp [State.registerThread]
    · rw [hsame t' (List.not_mem_of_not_mem_cons ht')]
      simp [State.registerThread, List.ne_of_not_mem_cons ht']

theorem unregisterAll (us : List T) (hcur : ∀ u ∈ us, (s.cur u).isSome = true) :
    ∃ s', run State.step s (us.map .unregisterThread) = some s' ∧
      s'.numThreads = s.numThreads - BitVec.ofNat 32 us.length ∧ (∀ u ∈ us, s'.liveId u = none) ∧
      ∀ t, t ∉ us → s'.liveId t = s.liveId t := by
  induction us generalizing s with
  | nil => exact ⟨s, rfl, by simp, by simp, fun _ _ => rfl⟩
  | cons u us ih =>
    obtain ⟨mt, hmt⟩ := Option.isSome_iff_exists.mp (hcur u List.mem_cons_self)
    have hstay : ∀ v ∈ us, ((s.unregisterThread u).cur v).isSome = true := by
      intro v hv
      by_cases huv : v = u
      · simp [State.unregisterThread, hmt, huv]
      · simpa [State.unregisterThread, hmt, huv] using hcur v (List.mem_cons_of_mem _ hv)
    obtain ⟨s', hrun, hcount, hlive, hsame⟩ := ih hstay
    refine ⟨s', hrun, ?_, fun v hv => ?_, fun v hv => ?_⟩
    · have hone : (s.unregisterThread u).numThreads = s.numThreads - 1 := by simp [State.unregisterThread, hmt]
      rw [hcount, hone, List.length_cons, BitVec.ofNat_add]
      bv_omega
    · by_cases hmem : v ∈ us
      · exact hlive v hmem
      · obtain rfl := (List.mem_cons.mp hv).resolve_right hmem
        rw [hsame v hmem]
        exact liveId_unregisterThread_self s v
    · rw [hsame v (List.not_mem_of_not_mem_cons hv)]
      exact liveId_unregisterThread_ne (List.ne_of_not_mem_cons hv)

/-- A phase of at most `n` threads keeps ids exclusive and leaves nobody behind. -/
theorem Idle.phase (h : Idle s) {ts us : List T} (hperm : us.Perm ts) (hn : n ≤ 2 ^ 31)
    (hlen : (ts.length : ℤ) ≤ n) :
    ∃ s', run State.step s (ts.map .registerThread ++ us.map .unregisterThread) = some s' ∧ Idle s' ∧
      Along State.step (Fresh n) s (ts.map .registerThread ++ us.map .unregisterThread) := by
  have hcompact : Compact 0 s := ⟨h.count, fun t i hi => by simp [h.live t] at hi⟩
  obtain ⟨s₁, hrun₁, halong, hcount₁, hcur₁, hsame₁⟩ := hcompact.registerAll ts hn (by simpa using hlen)
  obtain ⟨s₂, hrun₂, hcount₂, hlive₂, hsame₂⟩ :=
    unregisterAll us fun u hu => hcur₁ u (hperm.mem_iff.mp hu)
  refine ⟨s₂, (run_append hrun₁).trans hrun₂, ⟨?_, fun t => ?_⟩, along_append hrun₁ halong ?_⟩
  · rw [hcount₂, hcount₁, hperm.length_eq]
    simp
  · by_cases ht : t ∈ us
    · exact hlive₂ t ht
    · have hlive : s₁.liveId t = s.liveId t := by
        rw [State.liveId, State.liveId, hsame₁ t fun hmem => ht (hperm.mem_iff.mpr hmem)]
      rw [hsame₂ t ht, hlive, h.live t]
  · refine along_of_forall_mem fun _ x hx => ?_
    obtain ⟨u, -, rfl⟩ := List.mem_map.mp hx
    trivial

end Hkv.ThreadIds
