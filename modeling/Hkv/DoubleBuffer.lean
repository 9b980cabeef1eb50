import Hkv.OpLog

/-!
# The double-buffering protocol

As long as no spawned thread is still waiting to be scheduled when the working log
fills up, one reclaim is outstanding at most, it works on the other log, and an `enq`
that switches finds that log empty. The flag that should enforce this is set by the
thread itself, so a second switch can come before it.
-/
namespace Hkv.Pwb
open StepRun

variable {cfg : LogConfig} {s s' : OpLog} {t : ReclaimThread} {o : Oplog} {key val : ℕ}

/-! ## Logs -/

def Oplog.Empty (o : Oplog) : Prop := oplogUsed o = 0

/-- `put_ol_entry` returns `NEED_RECLAIM`. -/
def Oplog.NeedReclaim (cfg : LogConfig) (o : Oplog) : Prop := cfg.highMark < oplogNext cfg o

@[simp] theorem getAnotherOplog_getAnotherOplog (id : Fin 2) :
    getAnotherOplog (getAnotherOplog id) = id := by
  revert id
  decide

theorem getAnotherOplog_ne (id : Fin 2) : getAnotherOplog id ≠ id := by
  revert id
  decide

theorem eq_or_eq_getAnotherOplog (id id' : Fin 2) : id = id' ∨ id = getAnotherOplog id' := by
  revert id id'
  decide

theorem putOlEntry_of_needReclaim (h : o.NeedReclaim cfg) :
    putOlEntry cfg o key val = some (none, o) := if_pos h

theorem putOlEntry_of_room (h : ¬ o.NeedReclaim cfg) (key val : ℕ) :
    ∃ p o', putOlEntry cfg o key val = some (some p, o') ∧
      o'.headCnt = o.headCnt ∧ o'.tailCnt = o.tailCnt + cfg.entrySize := by
  have hsize : ¬ cfg.logSize < cfg.entrySize := Nat.not_lt.mpr (cfg.entry_le.trans cfg.mark_le)
  unfold Oplog.NeedReclaim at h
  have hroom : ¬ cfg.logSize < oplogNext cfg o := fun hlt => h (cfg.mark_le.trans_lt hlt)
  rw [putOlEntry, if_neg h, oplogEnq, nvlogEnq, if_neg hsize, if_neg hroom]
  exact ⟨_, _, rfl, rfl, rfl⟩

theorem Oplog.Empty.not_needReclaim (h : o.Empty) : ¬ o.NeedReclaim cfg := by
  have := cfg.entry_le
  simp only [Oplog.Empty, oplogUsed, unsignedDiff] at h
  simp only [Oplog.NeedReclaim, oplogNext, unsignedDiff]
  omega

theorem Oplog.empty_of_eq (h : o.headCnt = o.tailCnt) : o.Empty := by
  simp [Oplog.Empty, oplogUsed, unsignedDiff, h]

/-! ## The invariant -/

/-- The thread has been spawned and has not cleared `reclaim_lock`. -/
def ReclaimThread.Outstanding (t : ReclaimThread) : Prop := t.phase ≠ .finished

instance (cfg : LogConfig) (o : Oplog) : Decidable (o.NeedReclaim cfg) := inferInstanceAs (Decidable (_ < _))

instance (t : ReclaimThread) : Decidable t.Outstanding := inferInstanceAs (Decidable (_ ≠ _))

/-- The thread has entries of its log still to drain. -/
def ReclaimThread.MustDrain (t : ReclaimThread) : Prop := t.phase = .created ∨ t.phase = .draining

/-- What the protocol promises in a state. -/
structure OpLog.Protocol (s : OpLog) : Prop where
  /-- No `enq` has returned `NEED_RECLAIM`. -/
  returns : none ∉ s.returns
  working : ∀ t ∈ s.threads, t.MustDrain → t.id ≠ s.workingOplog
  single : (s.threads.filter (fun t => decide t.Outstanding)).length ≤ 1

/-- The only outstanding thread is the newest; it works on the other log and holds
the lock from its first step on. -/
structure OpLog.Buffered (s : OpLog) : Prop where
  returns : none ∉ s.returns
  older : ∀ t ∈ s.threads.tail, t.phase = .finished
  other : ∀ t ∈ s.threads.head?, t.Outstanding → t.id = getAnotherOplog s.workingOplog
  lock : ∀ t ∈ s.threads.head?, t.Outstanding → t.phase ≠ .created → s.reclaimLock = true
  drained : ∀ t ∈ s.threads.head?, t.phase = .drained ∨ t.phase = .reset → (s.oplog t.id).Empty
  /-- Between two reclaims the other log is empty. -/
  idle : (∀ t ∈ s.threads.head?, t.phase = .finished) → (s.oplog (getAnotherOplog s.workingOplog)).Empty

theorem OpLog.Buffered.protocol (h : s.Buffered) : s.Protocol := by
  refine ⟨h.returns, fun t ht hd => ?_, ?_⟩
  · have hout : t.Outstanding := by
      rcases hd with hd | hd <;> simp [ReclaimThread.Outstanding, hd]
    cases hs : s.threads with
    | nil => simp [hs] at ht
    | cons t₀ ts =>
      rcases List.mem_cons.mp (hs ▸ ht) with rfl | ht
      · rw [h.other t (by simp [hs]) hout]
        exact getAnotherOplog_ne _
      · exact absurd (h.older t (by simpa [hs] using ht)) hout
  · cases hs : s.threads with
    | nil => simp
    | cons t₀ ts =>
      have hts : ts.filter (fun t => decide t.Outstanding) = [] := by
        refine List.filter_eq_nil_iff.mpr fun t ht => ?_
        have := h.older t (by simpa [hs] using ht)
        simp [ReclaimThread.Outstanding, this]
      rw [List.filter_cons]
      split <;> simp [hts]

theorem OpLog.new_buffered : OpLog.new.Buffered where
  returns := by simp [OpLog.new]
  older := by simp [OpLog.new]
  other := by simp [OpLog.new]
  lock := by simp [OpLog.new]
  drained := by simp [OpLog.new]
  idle _ := Oplog.empty_of_eq rfl

/-! ## Steps -/

theorem OpLog.Buffered.store (h : s.Buffered) (p : ℕ) (o : Oplog) : (s.store (some p, o)).Buffered where
  returns := by simpa [OpLog.store] using h.returns
  older := h.older
  other := h.other
  lock := h.lock
  drained t ht hp := by
    have hne : t.id ≠ s.workingOplog := by
      rw [h.other t ht (by rcases hp with hp | hp <;> simp [ReclaimThread.Outstanding, hp])]
      exact getAnotherOplog_ne _
    simpa [OpLog.store, hne] using h.drained t ht hp
  idle hf := by
    simpa [OpLog.store, getAnotherOplog_ne] using h.idle hf

theorem OpLog.Buffered.switch (h : s.Buffered) (hf : ∀ t ∈ s.threads.head?, t.phase = .finished)
    (hs : s.switch cfg key val = some s') : s'.Buffered := by
  have hroom : ¬ (s.oplog (getAnotherOplog s.workingOplog)).NeedReclaim cfg := (h.idle hf).not_needReclaim
  obtain ⟨p, o, hput, -, -⟩ := putOlEntry_of_room hroom key val
  rw [OpLog.switch, hput] at hs
  cases hs
  refine ⟨by simpa [OpLog.store, OpLog.spawn] using h.returns, fun t ht => ?_, ?_, ?_, ?_, ?_⟩
  · have ht : t ∈ s.threads := ht
    cases hs : s.threads with
    | nil => simp [hs] at ht
    | cons t₀ ts =>
      rcases List.mem_cons.mp (hs ▸ ht) with rfl | ht
      · exact hf t (by simp [hs])
      · exact h.older t (by simpa [hs] using ht)
  · simp [OpLog.store, OpLog.spawn]
  · simp [OpLog.store, OpLog.spawn]
  · simp [OpLog.store, OpLog.spawn]
  · simp [OpLog.store, OpLog.spawn]

/-- No spawned thread is still waiting to be scheduled when an `enq` finds the working
log full. -/
def OpLog.Scheduled (cfg : LogConfig) (s : OpLog) : Step → Prop
  | .enq _ _ => (s.oplog s.workingOplog).NeedReclaim cfg → ∀ t ∈ s.threads, t.phase ≠ .created
  | _ => True

instance (cfg : LogConfig) (s : OpLog) : ∀ x, Decidable (s.Scheduled cfg x)
  | .enq _ _ => inferInstanceAs (Decidable (_ → ∀ t ∈ s.threads, _))
  | .join => isTrue trivial
  | .reclaim _ => isTrue trivial

theorem OpLog.Buffered.enq (h : s.Buffered) (hsched : s.Scheduled cfg (.enq key val))
    (hs : s.enq cfg key val = some s') : s'.Buffered := by
  by_cases hfull : (s.oplog s.workingOplog).NeedReclaim cfg
  · simp only [OpLog.enq, putOlEntry_of_needReclaim hfull, Option.bind_eq_bind, Option.bind_some,
      Option.isSome_none, Bool.false_eq_true, if_false] at hs
    split at hs
    · cases hs
      exact ⟨h.returns, h.older, h.other, h.lock, h.drained, h.idle⟩
    · rename_i hlock
      refine h.switch (fun t ht => ?_) hs
      -- a started thread would hold the lock
      by_contra hout
      exact hlock (h.lock t ht hout (hsched hfull t (List.mem_of_mem_head? ht)))
  · obtain ⟨p, o, hput, -, -⟩ := putOlEntry_of_room hfull key val
    simp only [OpLog.enq, hput, Option.bind_eq_bind, Option.bind_some, Option.isSome_some, if_true] at hs
    cases hs
    exact h.store p o

theorem OpLog.Buffered.join (h : s.Buffered) (hs : s.join cfg = some s') : s'.Buffered := by
  unfold OpLog.join at hs
  split at hs
  · rename_i t ts _ hts
    split at hs
    · rename_i hfin
      refine h.switch (fun t' ht' => ?_) hs
      rw [hts, List.head?_cons, Option.mem_some_iff] at ht'
      exact ht' ▸ hfin
    · cases hs
  · cases hs

theorem OpLog.Buffered.advance {ts : List ReclaimThread} {t' : ReclaimThread} (h : s.Buffered)
    (hts : s.threads = t :: ts) (hout : t.Outstanding) (hreturns : s'.returns = s.returns)
    (hworking : s'.workingOplog = s.workingOplog) (hid : t'.id = t.id)
    (hlock : t'.Outstanding → t'.phase ≠ .created → s'.reclaimLock = true)
    (hempty : t'.phase ≠ .created → t'.phase ≠ .draining → (s'.oplog t.id).Empty) :
    OpLog.Buffered { s' with threads := t' :: ts } := by
  have hother : t.id = getAnotherOplog s.workingOplog := h.other t (by simp [hts]) hout
  refine ⟨by simpa [hreturns] using h.returns, fun x hx => h.older x (by simpa [hts] using hx), ?_, ?_, ?_, ?_⟩
  · simpa [hworking, hid] using fun _ => hother
  · simpa using hlock
  · intro x hx hp
    obtain rfl : t' = x := by simpa using hx
    rw [hid]
    exact hempty (by rcases hp with hp | hp <;> simp [hp]) (by rcases hp with hp | hp <;> simp [hp])
  · intro hf
    have hfin : t'.phase = .finished := hf t' rfl
    simp only [hworking, ← hother]
    exact hempty (by simp [hfin]) (by simp [hfin])

theorem OpLog.Buffered.reclaim {ts : List ReclaimThread} {t' : ReclaimThread} (h : s.Buffered)
    (hts : s.threads = t :: ts) (hs : s.reclaim cfg t = some (s', t')) :
    OpLog.Buffered { s' with threads := t' :: ts } := by
  have hmem : t ∈ s.threads.head? := by simp [hts]
  unfold OpLog.reclaim at hs
  cases hp : t.phase with
  | created =>
    simp only [hp] at hs
    cases hs
    exact h.advance hts (by simp [ReclaimThread.Outstanding, hp]) rfl rfl rfl (fun _ _ => rfl) (by simp)
  | draining =>
    have hout : t.Outstanding := by simp [ReclaimThread.Outstanding, hp]
    have hlock := h.lock t hmem hout (by simp [hp])
    simp only [hp] at hs
    split at hs
    · rename_i hempty
      cases hs
      exact h.advance hts hout rfl rfl rfl (fun _ _ => hlock) fun _ _ => Oplog.empty_of_eq hempty
    · cases hs
      refine h.advance hts hout rfl rfl (by split <;> rfl) (fun _ _ => hlock) fun _ hne => ?_
      split at hne
      · rename_i hused
        simp only [OpLog.setOplog, Function.update_self]
        exact hused
      · exact absurd hp hne
  | drained =>
    have hout : t.Outstanding := by simp [ReclaimThread.Outstanding, hp]
    have hlock := h.lock t hmem hout (by simp [hp])
    have hempty := h.drained t hmem (.inl hp)
    simp only [hp] at hs
    cases hs
    split
    · exact h.advance hts hout rfl rfl rfl (fun _ _ => hlock) fun _ _ => hempty
    · refine h.advance hts hout rfl rfl rfl (fun _ _ => hlock) fun _ _ => ?_
      exact Oplog.empty_of_eq (by simp [OpLog.setOplog])
  | reset =>
    have hout : t.Outstanding := by simp [ReclaimThread.Outstanding, hp]
    simp only [hp] at hs
    cases hs
    refine h.advance hts hout rfl rfl rfl (fun ho => absurd rfl ho) fun _ _ => h.drained t hmem (.inr hp)
  | finished => simp [hp] at hs

theorem OpLog.reclaim_threads {t' : ReclaimThread} (hs : s.reclaim cfg t = some (s', t')) :
    s'.threads = s.threads := by
  unfold OpLog.reclaim at hs
  cases hp : t.phase <;> simp only [hp] at hs
  case finished => cases hs
  case draining => split at hs <;> cases hs <;> rfl
  case drained =>
    cases hs
    split <;> rfl
  all_goals
    cases hs
    rfl

theorem OpLog.Buffered.step {x : Step} (h : s.Buffered) (hsched : s.Scheduled cfg x)
    (hs : s.step cfg x = some s') : s'.Buffered := by
  cases x with
  | enq key val =>
    simp only [OpLog.step] at hs
    split at hs
    · cases hs
    · exact h.enq hsched hs
  | join => exact h.join hs
  | reclaim i =>
    simp only [OpLog.step, Option.bind_eq_bind, Option.bind_eq_some_iff] at hs
    obtain ⟨t, ht, ⟨s₁, t'⟩, hr, hs'⟩ := hs
    cases hs'
    have hthreads := OpLog.reclaim_threads hr
    cases hts : s.threads with
    | nil => simp [hts] at ht
    | cons t₀ ts =>
      cases i with
      | zero =>
        obtain rfl : t₀ = t := by simpa [hts] using ht
        simpa [hthreads, hts] using h.reclaim hts hr
      | succ i =>
        -- an older thread has finished
        have hmem : t ∈ ts := List.mem_of_getElem? (by simpa [hts] using ht)
        have hfin := h.older t (by simpa [hts] using hmem)
        simp [OpLog.reclaim, hfin] at hr

/-! ## Two switches before the first thread starts -/

/-- What a row of `enq` calls below the high mark changes of the counters. -/
structure OpLog.Appended (cfg : LogConfig) (k : ℕ) (s s' : OpLog) : Prop where
  working : s'.workingOplog = s.workingOplog
  lock : s'.reclaimLock = s.reclaimLock
  threads : s'.threads = s.threads
  joining : s'.joining = none
  headCnt : ∀ id, (s'.oplog id).headCnt = (s.oplog id).headCnt
  tailCnt : (s'.oplog s.workingOplog).tailCnt = (s.oplog s.workingOplog).tailCnt + k * cfg.entrySize
  other : (s'.oplog (getAnotherOplog s.workingOplog)).tailCnt =
    (s.oplog (getAnotherOplog s.workingOplog)).tailCnt

theorem run_enq_appended (hmark : cfg.highMark < 2 ^ 64) (s : OpLog) (key val k : ℕ) (hjoin : s.joining = none)
    (hhead : (s.oplog s.workingOplog).headCnt = 0)
    (hroom : (s.oplog s.workingOplog).tailCnt + k * cfg.entrySize ≤ cfg.highMark) :
    ∃ s', run (OpLog.step cfg) s (List.replicate k (.enq key val)) = some s' ∧ s.Appended cfg k s' := by
  induction k generalizing s with
  | zero => exact ⟨s, rfl, rfl, rfl, rfl, hjoin, fun _ => rfl, by simp, rfl⟩
  | succ k ih =>
    have hfull : ¬ (s.oplog s.workingOplog).NeedReclaim cfg := by
      simp only [Oplog.NeedReclaim, oplogNext, unsignedDiff, hhead]
      rw [Nat.add_mul] at hroom
      omega
    obtain ⟨p, o, hput, hh, ht⟩ := putOlEntry_of_room hfull key val
    have hstep : s.step cfg (.enq key val) = some (s.store (some p, o)) := by
      simp [OpLog.step, hjoin, OpLog.enq, hput]
    obtain ⟨s', hrun, ha⟩ := ih (s.store (some p, o)) hjoin (by simpa [OpLog.store, hh] using hhead) (by
      simp only [OpLog.store, Function.update_self, ht]
      rw [Nat.add_mul] at hroom
      omega)
    have hne := getAnotherOplog_ne s.workingOplog
    refine ⟨s', ?_, ha.working, ha.lock, ha.threads, ha.joining, fun id => ?_, ?_, ?_⟩
    · rw [List.replicate_succ, run_cons hstep, hrun]
    · rw [ha.headCnt id]
      by_cases hid : id = s.workingOplog
      · subst hid
        simp [OpLog.store, hh]
      · simp [OpLog.store, hid]
    · have := ha.tailCnt
      simp only [OpLog.store, Function.update_self, ht] at this
      rw [this, Nat.add_mul]
      omega
    · have := ha.other
      simpa [OpLog.store, hne] using this

theorem step_enq_of_needReclaim (hjoin : s.joining = none) (hlock : s.reclaimLock = false)
    (hfull : (s.oplog s.workingOplog).NeedReclaim cfg) :
    s.step cfg (.enq key val) = s.switch cfg key val := by
  simp [OpLog.step, hjoin, OpLog.enq, putOlEntry_of_needReclaim hfull, hlock]

/-! ## Every run -/

/-- In every run in which no spawned thread is still unscheduled when the working log
fills up, every state satisfies the protocol. -/
theorem run_protocol (cfg : LogConfig) (steps : List Step) (s : OpLog)
    (hsched : Along (OpLog.step cfg) (OpLog.Scheduled cfg) OpLog.new steps)
    (hrun : run (OpLog.step cfg) OpLog.new steps = some s) : s.Protocol :=
  (run_induction (fun _ _ _ h hp hs => OpLog.Buffered.step h hp hs) OpLog.new_buffered hsched hrun).protocol

/-- Logs of two entries each. -/
def twoEntries : LogConfig := ⟨1024, 2048, 2048, by decide, le_rfl⟩

/-- Two rounds: the log fills up and is switched, its thread runs to the end before the
next switch the first time and is joined the second time. -/
def twoRounds : List Step :=
  List.replicate 3 (Step.enq 1 10) ++ List.replicate 5 (Step.reclaim 0) ++ List.replicate 2 (Step.enq 2 20) ++
    [Step.reclaim 0, Step.enq 3 30, Step.enq 4 40] ++ List.replicate 4 (Step.reclaim 0) ++ [Step.join]

theorem run_protocol_twoRounds : ∃ s, run (OpLog.step twoEntries) OpLog.new twoRounds = some s ∧ s.Protocol := by
  obtain ⟨s, hs⟩ := Option.isSome_iff_exists.mp
    (show (run (OpLog.step twoEntries) OpLog.new twoRounds).isSome = true by decide +kernel)
  exact ⟨s, hs, run_protocol twoEntries twoRounds s (by decide +kernel) hs⟩

theorem Oplog.needReclaim_of_full (hmark : cfg.highMark + cfg.entrySize < 2 ^ 64) (hsize : 0 < cfg.entrySize)
    (hhead : o.headCnt = 0) (htail : o.tailCnt = cfg.highMark) : o.NeedReclaim cfg := by
  simp only [Oplog.NeedReclaim, oplogNext, unsignedDiff, hhead, htail]
  omega

/-- The state after one switch and `k` more puts, all while the new thread waits. -/
theorem run_first_switch (hmark : cfg.highMark + cfg.entrySize < 2 ^ 64) (hsize : 0 < cfg.entrySize)
    (hjoin : s.joining = none) (hlock : s.reclaimLock = false) (hhead : ∀ id, (s.oplog id).headCnt = 0)
    (hfull : (s.oplog s.workingOplog).tailCnt = cfg.highMark)
    (hempty : (s.oplog (getAnotherOplog s.workingOplog)).tailCnt = 0) (key val k : ℕ)
    (hk : (k + 1) * cfg.entrySize = cfg.highMark) : ∃ s',
      run (OpLog.step cfg) s (List.replicate (k + 1) (.enq key val)) = some s' ∧ s'.joining = none ∧
      s'.reclaimLock = false ∧ s'.threads = ⟨s.workingOplog, .created, 0⟩ :: s.threads ∧
      s'.workingOplog = getAnotherOplog s.workingOplog ∧
      ∀ id, (s'.oplog id).headCnt = 0 ∧ (s'.oplog id).tailCnt = cfg.highMark := by
  have hroom : ¬ (s.oplog (getAnotherOplog s.workingOplog)).NeedReclaim cfg :=
    (Oplog.empty_of_eq ((hhead _).trans hempty.symm)).not_needReclaim
  obtain ⟨p, o, hput, hh, ht⟩ := putOlEntry_of_room hroom key val
  have hstep : s.step cfg (.enq key val) = some (s.spawn.store (some p, o)) := by
    rw [step_enq_of_needReclaim hjoin hlock (Oplog.needReclaim_of_full hmark hsize (hhead _) hfull),
      OpLog.switch, hput]
    rfl
  have hne := getAnotherOplog_ne s.workingOplog
  rw [Nat.add_mul, Nat.one_mul] at hk
  obtain ⟨s', hrun, ha⟩ := run_enq_appended (Nat.lt_of_le_of_lt (Nat.le_add_right _ _) hmark)
    (s.spawn.store (some p, o)) key val k rfl (by simp [OpLog.store, OpLog.spawn, hh, hhead])
    (by simp only [OpLog.store, OpLog.spawn, Function.update_self, ht, hempty]; omega)
  refine ⟨s', by rw [List.replicate_succ, run_cons hstep, hrun], ha.joining, ha.lock.trans hlock,
    ha.threads, ha.working, fun id => ?_⟩
  have hhead' := ha.headCnt id
  have htail := ha.tailCnt
  have hother := ha.other
  simp only [OpLog.store, OpLog.spawn, getAnotherOplog_getAnotherOplog, Function.update_self,
    Function.update_of_ne hne.symm, ht, hempty, hfull] at hhead' htail hother
  rcases eq_or_eq_getAnotherOplog id s.workingOplog with rfl | rfl
  · exact ⟨by rw [hhead', Function.update_of_ne hne.symm, hhead], hother⟩
  · exact ⟨by rw [hhead', Function.update_self, hh, hhead], by rw [htail]; omega⟩

/-- The owner fills both logs before the thread of the first switch has run. The second
switch finds `reclaim_lock` clear, goes back to the log that is still full, and `enq`
returns `NEED_RECLAIM`. -/
theorem run_two_switches : ∃ s,
    run (OpLog.step oplogConfig) OpLog.new (List.replicate 2097153 (.enq 1 10)) = some s ∧
      none ∈ s.returns ∧ (∃ t ∈ s.threads, t.MustDrain ∧ t.id = s.workingOplog) ∧
      1 < (s.threads.filter (fun t => decide t.Outstanding)).length := by
  have hmark : oplogConfig.highMark + oplogConfig.entrySize < 2 ^ 64 := by decide
  have hsize : 0 < oplogConfig.entrySize := by decide
  obtain ⟨s₁, hrun₁, h₁⟩ :=
    run_enq_appended (by decide : oplogConfig.highMark < 2 ^ 64) OpLog.new 1 10 1048576
    rfl rfl (by decide)
  have hw₁ : s₁.workingOplog = 0 := h₁.working
  obtain ⟨s₂, hrun₂, hj₂, hl₂, ht₂, hw₂, ho₂⟩ :=
    run_first_switch hmark hsize h₁.joining h₁.lock h₁.headCnt
    (by rw [hw₁]; exact h₁.tailCnt) (by rw [hw₁]; exact h₁.other) 1 10 1048575 (by decide)
  have hfull : ∀ id, (s₂.oplog id).NeedReclaim oplogConfig := fun id =>
    Oplog.needReclaim_of_full hmark hsize (ho₂ id).1 (ho₂ id).2
  have hstep : s₂.step oplogConfig (.enq 1 10) =
      some (s₂.spawn.store (none, s₂.oplog (getAnotherOplog s₂.workingOplog))) := by
    rw [step_enq_of_needReclaim hj₂ hl₂ (hfull _), OpLog.switch, putOlEntry_of_needReclaim (hfull _)]
    rfl
  refine ⟨s₂.spawn.store (none, s₂.oplog (getAnotherOplog s₂.workingOplog)), ?_, ?_,
    ⟨⟨0, .created, 0⟩, ?_, .inl rfl, ?_⟩, ?_⟩
  · rw [show 2097153 = 1048576 + (1048576 + 1) from rfl, List.replicate_add, run_append hrun₁,
      List.replicate_succ', run_append hrun₂, run_cons hstep, run_nil]
  · exact List.mem_cons_self
  · simp [OpLog.store, OpLog.spawn, ht₂, hw₁]
  · simp [OpLog.store, OpLog.spawn, hw₂, hw₁]
  · simp [OpLog.store, OpLog.spawn, ht₂, ReclaimThread.Outstanding]

end Hkv.Pwb
