import Mathlib.Tactic.NormNum
import Mathlib.Tactic.Ring
import Mathlib.Logic.Function.Basic
import Hkv.StepRun

/-!
# The versioned lock of the data layer

Writers exclude each other by making the version odd; readers remember the version and check
at the end of their section that it has not moved. The upper half of the version is meant for
the generation of the index, which `Recovery` counts up: a version of another generation is
reset by the next thread that wants the lock. In generation 0 that happens when the version has
counted up to `2 ^ 32`. In later generations it happens every time, because the generation is
shifted as a number of 32 bits and never gets into the version.
-/
namespace Hkv.PacTree.VersionedLock

open StepRun

/-- `ver >> 32`. -/
def lockGenId (ver : ℕ) : ℕ := ver / 2 ^ 32

/-- `(genId << 32) + low`, computed in `uint32_t`; the shift by the full width, which C++
leaves undefined, is taken to leave 0. -/
def newVer (genId low : BitVec 32) : ℕ := ((genId <<< 32) + low).toNat

/-- The second half of `write_lock`: `ver` was loaded before, `cur` is the version now. The
answer and the new version; 0 means that the lock was not taken. -/
def casWrite (genId : BitVec 32) (ver cur : ℕ) : ℕ × ℕ :=
  if lockGenId ver ≠ genId.toNat then
    if cur = ver then (newVer genId 3, newVer genId 3) else (0, cur)
  else if ver % 2 = 0 ∧ cur = ver then (ver, ver + 1)
  else (0, cur)

def casRead (genId : BitVec 32) (ver cur : ℕ) : ℕ × ℕ :=
  if lockGenId ver ≠ genId.toNat then
    if cur = ver then (newVer genId 2, newVer genId 2) else (0, cur)
  else if ver % 2 ≠ 0 then (0, cur)
  else (ver, cur)

/-- `write_lock` without interruption. -/
def writeLock (genId : BitVec 32) (ver : ℕ) : ℕ × ℕ := casWrite genId ver ver

def readLock (genId : BitVec 32) (ver : ℕ) : ℕ × ℕ := casRead genId ver ver

def readUnlock (old ver : ℕ) : Bool := ver == old

def writeUnlock (ver : ℕ) : ℕ := ver + 1

/-- Nobody holds the lock. -/
def Free (ver : ℕ) : Prop := ver % 2 = 0 ∧ 0 < ver

variable {ver : ℕ} {genId : BitVec 32}

theorem newVer_eq (low : BitVec 32) : newVer genId low = low.toNat := by
  rw [newVer, BitVec.shiftLeft_eq_zero le_rfl, BitVec.zero_add]

theorem casWrite_zero {cur : ℕ} : casWrite 0 ver cur =
    if 2 ^ 32 ≤ ver then if cur = ver then (3, 3) else (0, cur)
    else if ver % 2 = 0 ∧ cur = ver then (ver, ver + 1) else (0, cur) := by
  rw [casWrite, newVer_eq]
  simp [lockGenId]

theorem casRead_zero {cur : ℕ} : casRead 0 ver cur =
    if 2 ^ 32 ≤ ver then if cur = ver then (2, 2) else (0, cur)
    else if ver % 2 ≠ 0 then (0, cur) else (ver, cur) := by
  rw [casRead, newVer_eq]
  simp [lockGenId]

theorem Free.lock_write (h : Free ver) : (writeLock 0 ver).1 ≠ 0 ∧ (writeLock 0 ver).2 % 2 = 1 := by
  obtain ⟨heven, hpos⟩ := h
  rw [writeLock, casWrite_zero]
  by_cases htop : 2 ^ 32 ≤ ver
  · rw [if_pos htop, if_pos rfl]
    exact ⟨by decide, rfl⟩
  · rw [if_neg htop, if_pos ⟨heven, rfl⟩]
    exact ⟨Nat.ne_of_gt hpos, by omega⟩

theorem free_writeUnlock (h : ver % 2 = 1) : Free (writeUnlock ver) := by
  unfold writeUnlock Free
  omega

theorem lock_of_odd (hodd : ver % 2 = 1) (hlt : ver < 2 ^ 32) :
    writeLock 0 ver = (0, ver) ∧ readLock 0 ver = (0, ver) := by
  rw [writeLock, readLock, casWrite_zero, casRead_zero, if_neg (Nat.not_le.mpr hlt), if_neg (Nat.not_le.mpr hlt)]
  simp [hodd]

theorem lock_of_even (heven : ver % 2 = 0) (hlt : ver < 2 ^ 32) :
    writeLock 0 ver = (ver, ver + 1) ∧ readLock 0 ver = (ver, ver) := by
  rw [writeLock, readLock, casWrite_zero, casRead_zero, if_neg (Nat.not_le.mpr hlt), if_neg (Nat.not_le.mpr hlt)]
  simp [heven]

/-! ### All interleavings -/

inductive Pc where
  | idle
  | wantWrite (ver : ℕ)
  | writing
  | wantRead (ver : ℕ)
  | reading (ver : ℕ)
  deriving DecidableEq

inductive Act where
  | loadWrite
  | casWrite
  | writeUnlock
  | loadRead
  | casRead
  | readUnlock
  /-- `compare_exchange_weak` fails although the version is the one that was loaded. -/
  | casFail

/-- The version and the places of the threads, with the number of write sections begun. -/
structure State (T : Type) where
  version : ℕ
  pc : T → Pc
  begun : ℕ

variable {T : Type} [DecidableEq T]

def State.init : State T where
  version := 2
  pc _ := .idle
  begun := 0

def State.goto (s : State T) (t : T) (pc : Pc) : State T := { s with pc := Function.update s.pc t pc }

def step (genId : BitVec 32) (s : State T) (x : T × Act) : Option (State T) :=
  match x.2, s.pc x.1 with
  | .loadWrite, .idle => some (s.goto x.1 (.wantWrite s.version))
  | .casWrite, .wantWrite ver =>
    let r := VersionedLock.casWrite genId ver s.version
    if r.1 = 0 then some (s.goto x.1 .idle)
    else some { s.goto x.1 .writing with version := r.2, begun := s.begun + 1 }
  | .writeUnlock, .writing => some { s.goto x.1 .idle with version := VersionedLock.writeUnlock s.version }
  | .loadRead, .idle => some (s.goto x.1 (.wantRead s.version))
  | .casRead, .wantRead ver =>
    let r := VersionedLock.casRead genId ver s.version
    if r.1 = 0 then some (s.goto x.1 .idle) else some { s.goto x.1 (.reading r.1) with version := r.2 }
  | .readUnlock, .reading _ => some (s.goto x.1 .idle)
  | .casFail, .wantWrite _ => some (s.goto x.1 .idle)
  | .casFail, .wantRead ver => if lockGenId ver ≠ genId.toNat then some (s.goto x.1 .idle) else none
  | _, _ => none

/-- The write sections between two resets of the version. -/
def period : ℕ := 2 ^ 31 - 1

theorem two_pow_add_period (r : ℕ) : 2 ^ 32 + 2 * period * r = 2 + 2 * period * (r + 1) := by
  have hperiod : 2 ^ 32 = 2 + 2 * period := by norm_num [period]
  rw [hperiod]
  ring

/-- A writer is alone and makes the version odd; the version counts the write sections, up to its
resets. -/
structure Inv (s : State T) (resets : ℕ) : Prop where
  odd : ∀ t, s.pc t = .writing → s.version % 2 = 1
  alone : ∀ t u, s.pc t = .writing → s.pc u = .writing → t = u
  high : s.version ≤ 2 ^ 32
  count : s.version + s.version % 2 + 2 * period * resets = 2 + 2 * s.begun

variable {s s' : State T} {t u : T} {resets : ℕ} {pc : Pc} {x : T × Act} {xs ys : List (T × Act)}

omit [DecidableEq T] in
theorem inv_init : Inv (State.init : State T) 0 :=
  ⟨by simp [State.init], by simp [State.init], by norm_num [State.init], by simp [State.init]⟩

omit [DecidableEq T] in
theorem Inv.top (h : Inv s resets) (htop : 2 ^ 32 ≤ s.version) : s.version = 2 ^ 32 := h.high.antisymm htop

theorem writing_goto (hpc : pc ≠ .writing) (h : (s.goto t pc).pc u = .writing) : s.pc u = .writing := by
  by_cases hut : u = t
  · subst hut
    exact absurd (by simpa [State.goto] using h) hpc
  · simpa [State.goto, hut] using h

theorem Inv.goto (h : Inv s resets) (t : T) (hpc : pc ≠ .writing) : Inv (s.goto t pc) resets :=
  ⟨fun u hu => h.odd u (writing_goto hpc hu),
    fun u u' hu hu' => h.alone u u' (writing_goto hpc hu) (writing_goto hpc hu'), h.high, h.count⟩

theorem Inv.begin (h : Inv s resets) {v : ℕ} {r : ℕ × ℕ} (hr : casWrite 0 v s.version = r) (hne : r.1 ≠ 0) :
    ∃ resets', Inv { s.goto t .writing with version := r.2, begun := s.begun + 1 } resets' := by
  have hcount := h.count
  have honly : s.version % 2 = 0 → ∀ u, (s.goto t .writing).pc u = .writing → u = t := by
    intro heven u hu
    by_contra hut
    have hodd := h.odd u (by simpa [State.goto, hut] using hu)
    omega
  have halone : s.version % 2 = 0 → ∀ u u', (s.goto t .writing).pc u = .writing →
      (s.goto t .writing).pc u' = .writing → u = u' := fun heven u u' hu hu' =>
    (honly heven u hu).trans (honly heven u' hu').symm
  rw [casWrite_zero] at hr
  split_ifs at hr with htop hcur hcas
  · subst hr hcur
    rw [h.top htop] at hcount halone
    refine ⟨resets + 1, fun _ _ => show 3 % 2 = 1 from rfl, halone (by norm_num), by norm_num, ?_⟩
    change 3 + 3 % 2 + 2 * period * (resets + 1) = 2 + 2 * (s.begun + 1)
    have hreset := two_pow_add_period resets
    omega
  · subst hr
    exact absurd rfl hne
  · subst hr
    obtain ⟨heven, rfl⟩ := hcas
    refine ⟨resets, fun _ _ => ?_, halone heven, Nat.not_le.mp htop, ?_⟩
    · change (s.version + 1) % 2 = 1
      omega
    · change s.version + 1 + (s.version + 1) % 2 + 2 * period * resets = 2 + 2 * (s.begun + 1)
      omega
  · subst hr
    exact absurd rfl hne

theorem Inv.finish (h : Inv s resets) (ht : s.pc t = .writing) :
    Inv { s.goto t .idle with version := VersionedLock.writeUnlock s.version } resets := by
  have hodd := h.odd t ht
  have hhigh := h.high
  have hcount := h.count
  have hnobody : ∀ u, (s.goto t .idle).pc u ≠ .writing := by
    intro u hu
    have hut := h.alone u t (writing_goto (by simp) hu) ht
    simp [State.goto, hut] at hu
  refine ⟨fun u hu => absurd hu (hnobody u), fun u _ hu => absurd hu (hnobody u), ?_, ?_⟩
  · change s.version + 1 ≤ 2 ^ 32
    omega
  · change s.version + 1 + (s.version + 1) % 2 + 2 * period * resets = 2 + 2 * s.begun
    omega

theorem Inv.read (h : Inv s resets) {v : ℕ} {r : ℕ × ℕ} (hr : casRead 0 v s.version = r) (hne : r.1 ≠ 0) :
    ∃ resets', Inv { s.goto t (.reading r.1) with version := r.2 } resets' := by
  have hgoto : Inv (s.goto t (.reading r.1)) resets := h.goto t (by simp)
  have hcount := h.count
  rw [casRead_zero] at hr
  split_ifs at hr with htop hcur hodd
  · subst hr hcur
    have heq := h.top htop
    refine ⟨resets + 1, fun u hu => absurd (hgoto.odd u hu) ?_, hgoto.alone, by norm_num, ?_⟩
    · change ¬ s.version % 2 = 1
      omega
    · change 2 + 2 % 2 + 2 * period * (resets + 1) = 2 + 2 * s.begun
      have hreset := two_pow_add_period resets
      omega
  · subst hr
    exact absurd rfl hne
  · subst hr
    exact absurd rfl hne
  · subst hr
    exact ⟨resets, hgoto⟩

theorem inv_step (h : Inv s resets) (hstep : step 0 s x = some s') : ∃ resets', Inv s' resets' := by
  unfold step at hstep
  split at hstep
  next =>
    cases hstep
    exact ⟨resets, h.goto _ (by simp)⟩
  next =>
    dsimp only at hstep
    split_ifs at hstep with hr
    · cases hstep
      exact ⟨resets, h.goto _ (by simp)⟩
    · cases hstep
      exact h.begin rfl hr
  next hpc =>
    cases hstep
    exact ⟨resets, h.finish hpc⟩
  next =>
    cases hstep
    exact ⟨resets, h.goto _ (by simp)⟩
  next =>
    dsimp only at hstep
    split_ifs at hstep with hr
    · cases hstep
      exact ⟨resets, h.goto _ (by simp)⟩
    · cases hstep
      exact h.read rfl hr
  next =>
    cases hstep
    exact ⟨resets, h.goto _ (by simp)⟩
  next =>
    cases hstep
    exact ⟨resets, h.goto _ (by simp)⟩
  next =>
    split_ifs at hstep
    cases hstep
    exact ⟨resets, h.goto _ (by simp)⟩
  next => cases hstep

def Consistent (s : State T) : Prop := ∃ resets, Inv s resets

theorem Consistent.run (h : Consistent s) (hrun : StepRun.run (step 0) s xs = some s') : Consistent s' :=
  run_induction_of_step (I := Consistent) (fun _ _ _ ⟨_, hi⟩ hstep => inv_step hi hstep) h hrun

theorem step_begun (hstep : step genId s x = some s') :
    s'.begun = s.begun ∧ (∀ t, s'.pc t = .writing → s.pc t = .writing) ∨ s'.begun = s.begun + 1 := by
  unfold step at hstep
  split at hstep
  case h_2 =>
    dsimp only at hstep
    split_ifs at hstep
    · cases hstep
      exact Or.inl ⟨rfl, fun u => writing_goto (by simp)⟩
    · cases hstep
      exact Or.inr rfl
  case h_8 =>
    split_ifs at hstep
    cases hstep
    exact Or.inl ⟨rfl, fun u => writing_goto (by simp)⟩
  case h_9 => cases hstep
  all_goals
    try
      dsimp only at hstep
      split_ifs at hstep
    all_goals
      cases hstep
      exact Or.inl ⟨rfl, fun u => writing_goto (by simp)⟩

theorem begun_le (hrun : run (step genId) s xs = some s') : s.begun ≤ s'.begun := by
  refine run_induction_of_step (I := fun u => s.begun ≤ u.begun) (fun u x u' hu hstep => ?_) le_rfl hrun
  rcases step_begun hstep with ⟨he, -⟩ | he
  · rwa [he]
  · rw [he]
    exact Nat.le_succ_of_le hu

theorem not_writing_of_begun (hs : ∀ t, s.pc t ≠ .writing) (hrun : run (step genId) s xs = some s')
    (hbegun : s'.begun = s.begun) : ∀ t, s'.pc t ≠ .writing := by
  refine (run_induction_of_step
    (I := fun u => s.begun ≤ u.begun ∧ (u.begun = s.begun → ∀ t, u.pc t ≠ .writing))
    (fun u x u' hu hstep => ?_) ⟨le_rfl, fun _ => hs⟩ hrun).2 hbegun
  rcases step_begun hstep with ⟨he, hpc⟩ | he
  · exact ⟨by rw [he]; exact hu.1, fun hb t ht => hu.2 (he.symm.trans hb) t (hpc t ht)⟩
  · have hle := hu.1
    exact ⟨by omega, fun hb => absurd hb (by omega)⟩

omit [DecidableEq T] in
theorem dvd_begun (h : Consistent s) (h' : Consistent s') (heven : s.version % 2 = 0) (hv : s'.version = s.version)
    (hle : s.begun ≤ s'.begun) : period ∣ s'.begun - s.begun := by
  obtain ⟨resets, hi⟩ := h
  obtain ⟨resets', hi'⟩ := h'
  have hcount := hi.count
  have hcount' := hi'.count
  refine ⟨resets' - resets, ?_⟩
  rw [hv] at hcount'
  rw [Nat.mul_sub]
  rw [Nat.mul_assoc] at hcount hcount'
  omega

/-- In every interleaving at most one thread is in a write section. A read section that begins
when the version is even and ends when the version is the same has overlapped no write section,
provided that fewer than `period` write sections began meanwhile. -/
def Excludes (genId : BitVec 32) (T : Type) [DecidableEq T] : Prop :=
  ∀ xs s, run (step genId) (State.init : State T) xs = some s →
    (∀ t t', s.pc t = .writing → s.pc t' = .writing → t = t') ∧
      ∀ ys s', run (step genId) s ys = some s' → s.version % 2 = 0 → s'.version = s.version →
        s'.begun < s.begun + period →
          ∀ zs u, zs <+: ys → run (step genId) s zs = some u → ∀ t, u.pc t ≠ .writing

theorem excludes_zero : Excludes 0 T := by
  intro xs s hrun
  have hcons : Consistent s := Consistent.run ⟨0, inv_init⟩ hrun
  have ⟨_, hi⟩ := hcons
  constructor
  · exact hi.alone
  · rintro ys s' hys heven hv hfew zs u ⟨ws, rfl⟩ hzs t ht
    have hws : run (step 0) u ws = some s' := by rwa [run_append hzs] at hys
    have hle := begun_le hzs
    have hle' := begun_le hws
    have hdvd := dvd_begun hcons (hcons.run hys) heven hv (hle.trans hle')
    have hzero := Nat.eq_zero_of_dvd_of_lt hdvd (by omega)
    exact not_writing_of_begun (fun t ht => by have := hi.odd t ht; omega) hzs (by omega) t ht

/-- In a later generation a thread that wants the write lock gets it, whoever has it. -/
theorem run_write_of_ne (hgen : lockGenId s.version ≠ genId.toNat) (ht : s.pc t = .idle) :
    run (step genId) s [(t, .loadWrite), (t, .casWrite)] =
      some { s.goto t .writing with version := 3, begun := s.begun + 1 } := by
  simp [run, step, ht, State.goto, VersionedLock.casWrite, hgen, newVer_eq]

/-- The lock does what it is for as long as the index has not been recovered, and not after
that. -/
theorem excludes_iff_genId_eq_zero [Nontrivial T] : Excludes genId T ↔ genId = 0 := by
  constructor
  · intro hex
    by_contra hne
    obtain ⟨t, u, htu⟩ := exists_pair_ne T
    have hgen : ∀ ver < 2 ^ 32, lockGenId ver ≠ genId.toNat := by
      intro ver hver heq
      rw [lockGenId, Nat.div_eq_of_lt hver] at heq
      exact hne (BitVec.eq_of_toNat_eq heq.symm)
    -- the second writer finds the version 3 of the first one, which has no generation in it
    have hfirst : run (step genId) (State.init : State T) [(t, .loadWrite), (t, .casWrite)] = some _ :=
      run_write_of_ne (hgen 2 (by norm_num)) rfl
    have hsecond : run (step genId) { (State.init : State T).goto t .writing with version := 3, begun := 1 }
        [(u, .loadWrite), (u, .casWrite)] = some _ :=
      run_write_of_ne (hgen 3 (by norm_num)) (by simp [State.goto, State.init, htu.symm])
    refine htu ((hex _ _ ((run_append hfirst).trans hsecond)).1 t u ?_ ?_)
    · simp [State.goto, htu]
    · simp [State.goto]
  · rintro rfl
    exact excludes_zero

theorem excludes_iff_genId_eq_zero_recovered : Excludes 0 Bool ∧ ¬ Excludes 1 Bool :=
  ⟨excludes_iff_genId_eq_zero.mpr rfl, fun h => absurd (excludes_iff_genId_eq_zero.mp h) (by decide)⟩

end Hkv.PacTree.VersionedLock
