import Hkv.SearchDelivery

/-!
# The end of the search layer

The combiner goes on for some rounds after it was told to stop. Two rounds are enough: if the
threads are at rest when two rounds are left, both queues of every log are emptied, and the
combiner does not end before the worker has been through all merged logs.
-/
namespace Hkv.PacTree.SearchLog

open StepRun KeyedSort

variable {n : ℕ}

/-- The rounds that the combiner has not begun yet, once it is told to stop. -/
def Combiner.rounds : Combiner n → Option ℕ
  | .combine (some k) => some (k + 1)
  | .collect left _ _ _ => left
  | .send left => left
  | .free (some _) => some 0
  | .delete (some _) _ => some 0
  | .done => some 0
  | _ => none

/-- The logs that have not been emptied in this round. -/
def Visit.todo : Visit n → List (Fin n)
  | .lock todo => todo
  | .copy t todo => t :: todo
  | .reset t todo => t :: todo
  | .unlock _ todo => todo

def Combiner.pending : Combiner n → Fin n × Fin 2 → Prop
  | .collect _ q _ visit, x => x.2 = q ∧ x.1 ∈ visit.todo
  | _, _ => False

/-- No thread hands in, and a queue with operations has not had its turn since `curQ` was `c`. -/
structure Draining (c k : ℕ) (s : State n) : Prop where
  idle : ∀ t, s.producer t = .idle
  rounds : ∃ r, s.combiner.rounds = some r ∧ s.curQ + r = c + k
  cleared : ∀ x, s.op x ≠ [] → ∀ i, c ≤ i → i < s.curQ → qnum i = x.2 → s.combiner.pending x
  finished : s.combiner = .done → s.freed = s.mergedLogs.length

variable {S : StdSort} {s s' : State n} {left : Option ℕ} {q : Fin 2} {merged : List Op} {visit : Visit n}
    {c k : ℕ}

theorem rounds_endRound (hleft : left ≠ none) : (endRound left : Combiner n).rounds = left := by
  rcases left with _ | _ | k
  · exact absurd rfl hleft
  · rfl
  · rfl

theorem endRound_ne_done : (endRound left : Combiner n) ≠ .done :=
  endRound_elim (P := (· ≠ _)) (fun _ => nofun) fun _ => nofun

theorem Draining.goto (h : Draining c k s) (hproducer : s'.producer = s.producer) (hcurQ : s'.curQ = s.curQ)
    (hop : ∀ x, s'.op x ≠ [] → s.op x ≠ []) (hrounds : s'.combiner.rounds = s.combiner.rounds)
    (hpending : ∀ x, s'.op x ≠ [] → s.combiner.pending x → s'.combiner.pending x)
    (hdone : s'.combiner ≠ .done) : Draining c k s' := by
  refine ⟨fun t => by rw [hproducer]; exact h.idle t, ?_, fun x hx i hi hlt hq => ?_, fun heq => absurd heq hdone⟩
  · rw [hrounds, hcurQ]
    exact h.rounds
  · rw [hcurQ] at hlt
    exact hpending x hx (h.cleared x (hop x hx) i hi hlt hq)

theorem Draining.collectStep (h : Draining c k s) (hc : s.combiner = .collect left q merged visit)
    (hs : collectStep S s left q merged visit = some s') : Draining c k s' := by
  have hleft : left ≠ none := by
    obtain ⟨r, hr, -⟩ := h.rounds
    rw [hc] at hr
    exact fun hnone => Option.some_ne_none r (hr.symm.trans hnone)
  unfold SearchLog.collectStep at hs
  split at hs
  case h_1 =>
    have hnone : ∀ x, ¬ s.combiner.pending x := by
      intro x hx
      rw [hc] at hx
      exact List.not_mem_nil hx.2
    dsimp only at hs
    split_ifs at hs with hempty
    · obtain rfl := Option.some.inj hs
      exact h.goto rfl rfl (fun _ => id) (by rw [rounds_endRound hleft, hc]; rfl) (fun x _ hx => absurd hx (hnone x))
        endRound_ne_done
    · obtain rfl := Option.some.inj hs
      exact h.goto rfl rfl (fun _ => id) (by rw [hc]; rfl) (fun x _ hx => absurd hx (hnone x)) nofun
  case h_4 t todo =>
    -- the queue is emptied and is no longer pending
    obtain rfl := Option.some.inj hs
    have hself : ∀ x, Function.update s.op (t, q) [] x ≠ [] → x ≠ (t, q) := by
      intro x hx heq
      rw [heq, Function.update_self] at hx
      exact hx rfl
    refine h.goto rfl rfl (fun x hx => ?_) (by rw [hc]; rfl) (fun x hx hpending => ?_) nofun
    · have hne := hself x hx
      change Function.update s.op (t, q) [] x ≠ [] at hx
      rwa [Function.update_of_ne hne] at hx
    · rw [hc] at hpending
      refine ⟨hpending.1, (List.mem_cons.mp hpending.2).resolve_left fun ht => ?_⟩
      exact hself x hx (Prod.ext ht hpending.1)
  all_goals
    try split_ifs at hs
    all_goals
      obtain rfl := Option.some.inj hs
      exact h.goto rfl rfl (fun _ => id) (by rw [hc]; rfl) (fun x _ hx => by rw [hc] at hx; exact hx)
        nofun

theorem Draining.combinerStep (h : Draining c k s) (hs : combinerStep S s = some s') : Draining c k s' := by
  obtain ⟨r, hr, hsum⟩ := h.rounds
  unfold SearchLog.combinerStep at hs
  split at hs
  · next hc =>
    rw [hc] at hr
    cases hr
  · next left hc =>
    -- the next round begins, and every log is pending in it
    obtain rfl := Option.some.inj hs
    rw [hc] at hr
    cases left with
    | none => cases hr
    | some j =>
      obtain rfl := Option.some.inj hr
      refine ⟨h.idle, ⟨j, rfl, by change s.curQ + 1 + j = c + k; omega⟩, fun x hx i hi hlt hq => ?_, nofun⟩
      refine ⟨?_, List.mem_finRange _⟩
      have hlast : i = s.curQ := by
        by_contra hne
        have hpending := h.cleared x hx i hi (Nat.lt_of_le_of_ne (Nat.lt_succ_iff.mp hlt) hne) hq
        rw [hc] at hpending
        exact hpending
      rw [← hq, hlast]
  · next left q merged visit hc => exact h.collectStep hc hs
  · next left hc =>
    obtain rfl := Option.some.inj hs
    have hleft : left ≠ none := by
      rw [hc] at hr
      exact fun hnone => Option.some_ne_none r (hr.symm.trans hnone)
    exact h.goto rfl rfl (fun _ => id) (by rw [rounds_endRound hleft, hc]; rfl)
      (fun x _ hx => by rw [hc] at hx; exact hx.elim) endRound_ne_done
  · next hc =>
    rw [hc] at hr
    cases hr
  · next j hc =>
    split_ifs at hs with hall
    · obtain rfl := Option.some.inj hs
      rw [hc] at hr
      refine ⟨h.idle, ⟨r, hr, hsum⟩, fun x hx i hi hlt hq => ?_, fun _ => hall⟩
      have hpending := h.cleared x hx i hi hlt hq
      rw [hc] at hpending
      exact hpending
    · obtain rfl := Option.some.inj hs
      exact h.goto rfl rfl (fun _ => id) (by rw [hc]; rfl) (fun x _ hx => by rw [hc] at hx; exact hx) nofun
  · next left m hc =>
    cases left with
    | none =>
      rw [hc] at hr
      cases hr
    | some j =>
      rw [if_neg (Option.some_ne_none j)] at hs
      split_ifs at hs
      · obtain rfl := Option.some.inj hs
        exact h.goto rfl rfl (fun _ => id) rfl (fun _ _ => id) (by rw [hc]; exact nofun)
      · obtain rfl := Option.some.inj hs
        exact h.goto rfl rfl (fun _ => id) (by rw [hc]; rfl) (fun x _ hx => by rw [hc] at hx; exact hx)
          nofun
  · cases hs

theorem Draining.step (h : Draining c k s) {a : Act n} (hs : step S s a = some s')
    (hquiet : ∀ t op, a ≠ .enq t op) : Draining c k s' := by
  cases a with
  | enq t op => exact absurd rfl (hquiet t op)
  | thread t =>
    -- a thread at rest has no next step
    rw [SearchLog.step, threadStep, h.idle t] at hs
    cases hs
  | stop =>
    obtain rfl := Option.some.inj hs
    exact ⟨h.idle, h.rounds, h.cleared, h.finished⟩
  | combiner => exact h.combinerStep hs
  | worker =>
    obtain ⟨d, rfl, hlogs, hfreed, -⟩ := workerStep_frame hs
    exact ⟨h.idle, h.rounds, h.cleared, by rw [hlogs, hfreed]; exact h.finished⟩

theorem qnum_cover (c : ℕ) (q : Fin 2) : qnum c = q ∨ qnum (c + 1) = q := by
  unfold qnum
  simp only [Fin.ext_iff]
  omega

theorem Draining.op_eq_nil (h : Draining c (k + 2) s) (hdone : s.combiner = .done) (x : Fin n × Fin 2) :
    s.op x = [] := by
  obtain ⟨r, hr, hsum⟩ := h.rounds
  rw [hdone] at hr
  obtain rfl := Option.some.inj hr
  by_contra hx
  have hpending : s.combiner.pending x := by
    cases qnum_cover c x.2 with
    | inl hq => exact h.cleared x hx c le_rfl (by omega) hq
    | inr hq => exact h.cleared x hx (c + 1) (Nat.le_succ c) (by omega) hq
  rw [hdone] at hpending
  exact hpending

theorem Delivered.consumed_eq {sent : ℕ} {d : Delivery} (h : Delivered sent d)
    (hfreed : d.freed = d.mergedLogs.length) : d.consumed = d.mergedLogs.flatten := by
  have hall : d.logDoneCount = d.mergedLogs.length :=
    (h.done_le.trans h.sent_le).antisymm (hfreed ▸ h.freed_le)
  rw [consumed_of_ne_apply, hall, List.take_length]
  intro log pos hw
  obtain ⟨hlog, hlt⟩ := h.working log pos hw
  have hle := h.sent_le
  omega

/-- If the threads have come to rest when the combiner has at least two rounds left, then every
operation that was handed in and is meant for the worker has been applied by the time the
combiner is done, whatever the order of the steps, and all merged logs have been deleted. -/
theorem applied_of_shutdown {as bs : List (Act n)} (hrun : run (step S) (State.init n) as = some s)
    (hleft : s.combiner = .combine (some (k + 1))) (hidle : ∀ t, s.producer t = .idle)
    (hrun' : run (step S) s bs = some s') (hquiet : ∀ a ∈ bs, ∀ t op, a ≠ .enq t op)
    (hdone : s'.combiner = .done) (hroom : Along (step S) HasRoom (State.init n) (as ++ bs))
    (hnodup : s'.pushed.Nodup) :
    s'.applied.Perm (s'.pushed.filter (·.hash = 0)) ∧ s'.freed = s'.mergedLogs.length := by
  have hstart : Draining s.curQ (k + 2) s := by
    refine ⟨hidle, ⟨k + 2, by rw [hleft]; rfl, rfl⟩, fun x _ i hi hlt => absurd hlt (Nat.not_lt.mpr hi), ?_⟩
    rw [hleft]
    exact nofun
  have hend : Draining s.curQ (k + 2) s' :=
    run_induction (fun _ _ _ h hq hs => h.step hs hq) hstart (along_of_forall_mem fun _ => hquiet) hrun'
  have hinv : Inv s' := inv_init.run (by rw [run_append hrun]; exact hrun') hroom hnodup
  have hfreed := hend.finished hdone
  refine ⟨?_, hfreed⟩
  rw [hinv.delivered.applied, hinv.delivered.consumed_eq hfreed]
  refine List.Perm.filter _ (Multiset.coe_eq_coe.mp ?_)
  have hempty : ∀ x, s'.queued x = [] := by
    intro x
    rw [queued_of_not_holds (by rw [hdone]; rfl), hend.op_eq_nil hdone]
  rw [hinv.collected.conserved, hdone]
  simp [hempty, Combiner.inHand]

/-- One thread hands in an operation, and the combiner is told to stop. -/
def splitAndStop : List (Act 1) :=
  .enq ⟨0, Nat.one_pos⟩ ⟨8, 0, 5, 3⟩ :: List.replicate 4 (.thread ⟨0, Nat.one_pos⟩) ++ [.stop, .combiner]

def lastRounds : List (Act 1) :=
  List.replicate 121 .combiner ++ List.replicate 3 .worker ++ List.replicate 4 .combiner

theorem applied_of_shutdown_splitAndStop :
    ∃ s, run (step insertion) (State.init 1) (splitAndStop ++ lastRounds) = some s ∧
      s.applied.Perm (s.pushed.filter (·.hash = 0)) ∧ s.pushed = [⟨8, 0, 5, 3⟩] ∧
      s.freed = s.mergedLogs.length := by
  obtain ⟨s, hs⟩ :=
    Option.isSome_iff_exists.mp (show (run (step insertion) (State.init 1) splitAndStop).isSome by decide)
  have hleft : (run (step insertion) (State.init 1) splitAndStop).map State.combiner = some (.combine (some 19)) := by
    decide
  have hidle : (run (step insertion) (State.init 1) splitAndStop).map (fun s => s.producer 0) = some .idle := by
    decide
  obtain ⟨s', hs'⟩ := Option.isSome_iff_exists.mp
    (show (run (step insertion) (State.init 1) (splitAndStop ++ lastRounds)).isSome by decide +kernel)
  have hend : (run (step insertion) (State.init 1) (splitAndStop ++ lastRounds)).map
      (fun s => (s.combiner, s.pushed)) = some (.done, [⟨8, 0, 5, 3⟩]) := by decide +kernel
  have hrun := hs'
  rw [run_append hs] at hrun
  rw [hs] at hleft hidle
  rw [hs', Option.map_some, Option.some_inj, Prod.mk.injEq] at hend
  have hnodup : s'.pushed.Nodup := by
    rw [hend.2]
    exact List.nodup_singleton _
  obtain ⟨hperm, hfreed⟩ :=
    applied_of_shutdown hs (Option.some.inj hleft) (fun t => Subsingleton.elim 0 t ▸ Option.some.inj hidle)
    hrun (fun a ha t op heq => by simp [lastRounds, heq] at ha) hend.1 (by decide +kernel) hnodup
  exact ⟨s', hs', hperm, hend.2, hfreed⟩

end Hkv.PacTree.SearchLog
