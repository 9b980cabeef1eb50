import Hkv.SearchLog

/-!
# The worker of the search layer

The worker is sent the merged logs in the order of their index and applies the operations of one
log after the other. It never reads a log that was deleted and never finds an operation that was
applied before.
-/
namespace Hkv.PacTree.SearchLog

open StepRun KeyedSort

variable {n : ℕ}

/-- The number of merged logs that have been sent to the worker. -/
def State.sent (s : State n) : ℕ :=
  match s.combiner with
  | .send _ => s.mergedLogs.length - 1
  | _ => s.mergedLogs.length

/-- The operations that the worker has gone through. -/
def Delivery.consumed (d : Delivery) : List Op :=
  (d.mergedLogs.take d.logDoneCount).flatten ++
    match d.worker with
    | .apply log pos => (d.mergedLogs.getD log []).take pos
    | _ => []

/-- The worker goes through the `sent` logs that it was sent one after the other, and no log is
deleted before that. -/
structure Delivered (sent : ℕ) (d : Delivery) : Prop where
  sent_le : sent ≤ d.mergedLogs.length
  queue : d.workQueue = List.range' d.logDoneCount (sent - d.logDoneCount)
  done_le : d.logDoneCount ≤ sent
  freed_le : d.freed ≤ d.logDoneCount
  working : ∀ log pos, d.worker = .apply log pos → log = d.logDoneCount ∧ log < sent
  applied : d.applied = d.consumed.filter (·.hash = 0)
  running : d.crashed = false

theorem delivered_init : Delivered 0 (State.init n).toDelivery :=
  ⟨le_rfl, rfl, le_rfl, le_rfl, nofun, rfl, rfl⟩

variable {S : StdSort} {s s' : State n} {d : Delivery} {left : Option ℕ} {sent : ℕ} {q : Fin 2} {merged : List Op}
  {visit : Visit n}

/-! ### Delivering -/

theorem Delivered.merge (h : Delivered sent d) (m : List Op) :
    Delivered sent { d with mergedLogs := d.mergedLogs ++ [m] } := by
  refine ⟨?_, h.queue, h.done_le, h.freed_le, h.working, ?_, h.running⟩
  · rw [List.length_append]
    exact h.sent_le.trans (Nat.le_add_right _ _)
  · rw [h.applied]
    congr 1
    unfold Delivery.consumed
    dsimp only
    rw [List.take_append_of_le_length (h.done_le.trans h.sent_le)]
    congr 1
    split
    · next log pos hw =>
      rw [List.getD_eq_getElem?_getD, List.getD_eq_getElem?_getD,
        List.getElem?_append_left (lt_of_lt_of_le (h.working log pos hw).2 h.sent_le)]
    · rfl

theorem Delivered.send (h : Delivered sent d) (hsent : sent + 1 = d.mergedLogs.length) :
    Delivered (sent + 1) { d with workQueue := d.workQueue ++ [d.mergedLogs.length - 1] } := by
  refine ⟨hsent.le, ?_, h.done_le.trans (Nat.le_succ _), h.freed_le, fun log pos hw => ?_, h.applied, h.running⟩
  · have hlast : d.mergedLogs.length - 1 = d.logDoneCount + 1 * (sent - d.logDoneCount) := by
      have hle := h.done_le
      omega
    rw [Nat.succ_sub h.done_le, List.range'_concat, ← h.queue, hlast]
  · obtain ⟨hlog, hlt⟩ := h.working log pos hw
    exact ⟨hlog, hlt.trans (Nat.lt_succ_self _)⟩

theorem Delivered.queue_cons {log : ℕ} {rest : List ℕ} (h : Delivered sent d)
    (hqueue : d.workQueue = log :: rest) : log = d.logDoneCount ∧ log < sent := by
  have hfirst := h.queue
  rw [hqueue] at hfirst
  cases hk : sent - d.logDoneCount with
  | zero =>
    rw [hk] at hfirst
    cases hfirst
  | succ k =>
    rw [hk, List.range'_succ, List.cons.injEq] at hfirst
    exact ⟨hfirst.1, by omega⟩

theorem consumed_of_apply {log pos : ℕ} (hw : d.worker = .apply log pos) :
    d.consumed = (d.mergedLogs.take d.logDoneCount).flatten ++ (d.mergedLogs.getD log []).take pos := by
  unfold Delivery.consumed
  rw [hw]

theorem consumed_of_ne_apply (hw : ∀ log pos, d.worker ≠ .apply log pos) :
    d.consumed = (d.mergedLogs.take d.logDoneCount).flatten := by
  unfold Delivery.consumed
  split
  · next log pos hw' => exact absurd hw' (hw log pos)
  · exact List.append_nil _

theorem flatten_split {logs : List (List Op)} {i : ℕ} (hi : i < logs.length) :
    logs.flatten = (logs.take i).flatten ++ (logs.getD i [] ++ (logs.drop (i + 1)).flatten) := by
  have hget : logs.getD i [] = logs[i] := by
    rw [List.getD_eq_getElem?_getD, List.getElem?_eq_getElem hi, Option.getD_some]
  conv_lhs => rw [← List.take_append_drop i logs, List.drop_eq_getElem_cons hi]
  rw [List.flatten_append, List.flatten_cons, hget]

theorem Delivered.consumed_isPrefix (h : Delivered sent d) : d.consumed <+: d.mergedLogs.flatten := by
  unfold Delivery.consumed
  split
  · next log pos hw =>
    obtain ⟨hlog, hlt⟩ := h.working log pos hw
    rw [flatten_split (lt_of_lt_of_le hlt h.sent_le), ← hlog, List.prefix_append_right_inj]
    exact (List.take_prefix _ _).trans (List.prefix_append _ _)
  · rw [List.append_nil]
    refine ⟨(d.mergedLogs.drop d.logDoneCount).flatten, ?_⟩
    rw [← List.flatten_append, List.take_append_drop]

theorem Delivered.notMem_applied {log pos : ℕ} {op : Op} (h : Delivered sent d) (hw : d.worker = .apply log pos)
    (hnodup : d.mergedLogs.flatten.Nodup) (hop : (d.mergedLogs.getD log [])[pos]? = some op) : op ∉ d.applied := by
  obtain ⟨hlog, hlt⟩ := h.working log pos hw
  have hsplit : d.mergedLogs.getD log [] = (d.mergedLogs.getD log []).take pos ++
      op :: (d.mergedLogs.getD log []).drop (pos + 1) := by
    obtain ⟨hpos, hget⟩ := List.getElem?_eq_some_iff.mp hop
    conv_lhs => rw [← List.take_append_drop pos (d.mergedLogs.getD log []), List.drop_eq_getElem_cons hpos, hget]
  intro hdone
  rw [h.applied, consumed_of_apply hw, ← hlog] at hdone
  rw [flatten_split (lt_of_lt_of_le hlt h.sent_le), hsplit, List.append_assoc, ← List.append_assoc] at hnodup
  exact (List.nodup_append.mp hnodup).2.2 op (List.mem_of_mem_filter hdone) op (by simp) rfl

/-- One entry of a log. The log has not been deleted, and no operation is found twice. -/
theorem Delivered.next {log pos : ℕ} (h : Delivered sent d) (hw : d.worker = .apply log pos)
    (hnodup : d.mergedLogs.flatten.Nodup) : Delivered sent (applyStep d log pos) := by
  obtain ⟨hlog, hlt⟩ := h.working log pos hw
  have hlength : log < d.mergedLogs.length := lt_of_lt_of_le hlt h.sent_le
  unfold applyStep
  rw [if_neg (by rw [hlog]; exact Nat.not_lt.mpr h.freed_le)]
  split
  · next hend =>
    -- the end of the log: it counts as done
    have hall : (d.mergedLogs.getD log []).take pos = d.mergedLogs.getD log [] :=
      List.take_of_length_le (List.getElem?_eq_none_iff.mp hend)
    refine ⟨h.sent_le, ?_, hlog ▸ hlt, h.freed_le.trans (Nat.le_succ _), nofun, ?_, h.running⟩
    · rw [h.queue]
      obtain ⟨k, hk⟩ : ∃ k, sent - d.logDoneCount = k + 1 := ⟨sent - d.logDoneCount - 1, by omega⟩
      rw [hk, List.range'_succ, List.tail_cons, show sent - (d.logDoneCount + 1) = k by omega]
    · rw [consumed_of_ne_apply (by simp), h.applied, consumed_of_apply hw, hall]
      rw [hlog] at hlength ⊢
      rw [List.take_add_one, List.flatten_append, List.getElem?_eq_getElem hlength, List.getD_eq_getElem?_getD,
        List.getElem?_eq_getElem hlength]
      simp
  · next op hop =>
    have hnext : ∀ a, Delivery.consumed { d with applied := a, worker := .apply log (pos + 1) } = d.consumed ++
      [op] := by
      intro a
      rw [consumed_of_apply hw, consumed_of_apply rfl, List.append_assoc]
      dsimp only
      rw [List.take_add_one, hop, Option.toList_some]
    have hworking : ∀ log' pos', Worker.apply log (pos + 1) = .apply log' pos' →
        log' = d.logDoneCount ∧ log' < sent := by
      intro log' pos' heq
      obtain ⟨rfl, -⟩ := Worker.apply.inj heq
      exact ⟨hlog, hlt⟩
    split_ifs with hhash hdone
    · refine ⟨h.sent_le, h.queue, h.done_le, h.freed_le, hworking, ?_, h.running⟩
      rw [hnext, List.filter_append, List.filter_singleton, decide_eq_false hhash, h.applied]
      simp
    · exact absurd hdone (h.notMem_applied hw hnodup hop)
    · refine ⟨h.sent_le, h.queue, h.done_le, h.freed_le, hworking, ?_, h.running⟩
      rw [hnext, List.filter_append, List.filter_singleton, decide_eq_true (not_not.mp hhash), h.applied]
      simp

theorem Delivered.workerStep (h : Delivered sent s.toDelivery) (hs : workerStep s = some s')
    (hnodup : s.mergedLogs.flatten.Nodup) : Delivered sent s'.toDelivery := by
  unfold SearchLog.workerStep at hs
  split at hs
  · next log rest hw hqueue =>
    obtain rfl := Option.some.inj hs
    obtain ⟨hlog, hlt⟩ := h.queue_cons hqueue
    refine ⟨h.sent_le, h.queue, h.done_le, h.freed_le, fun log' pos heq => ?_, ?_, h.running⟩
    · obtain ⟨rfl, -⟩ := Worker.apply.inj heq
      exact ⟨hlog, hlt⟩
    · have hnone : s.consumed = _ := consumed_of_ne_apply (by simp [hw])
      rw [consumed_of_apply rfl, h.applied, hnone]
      simp
  · next hw hqueue =>
    split_ifs at hs
    obtain rfl := Option.some.inj hs
    refine ⟨h.sent_le, h.queue, h.done_le, h.freed_le, nofun, ?_, h.running⟩
    have hnone : s.consumed = _ := consumed_of_ne_apply (by simp [hw])
    rw [consumed_of_ne_apply (by simp), h.applied, hnone]
  · next log pos hw =>
    obtain rfl := Option.some.inj hs
    exact h.next hw hnodup
  · cases hs

/-! ### All steps -/

/-- The work queue has room. A log that is sent to a full queue is dropped. -/
def HasRoom (s : State n) (_ : Act n) : Prop := s.workQueue.length < capacity

instance (s : State n) (a : Act n) : Decidable (HasRoom s a) := inferInstanceAs (Decidable (_ < _))

structure Inv (s : State n) : Prop where
  collected : Collected s
  delivered : Delivered s.sent s.toDelivery
  sending : ∀ left, s.combiner = .send left → s.mergedLogs ≠ []
  deleting : ∀ left m, s.combiner = .delete left m → m ≤ s.logDoneCount

theorem inv_init : Inv (State.init n) :=
  ⟨collected_init, delivered_init, nofun, nofun⟩

theorem sent_of_ne (h : ∀ left, s.combiner ≠ .send left) : s.sent = s.mergedLogs.length := by
  unfold State.sent
  split
  · next left hc => exact absurd hc (h left)
  · rfl

theorem sent_congr (hc : s'.combiner = s.combiner) (hlogs : s'.mergedLogs = s.mergedLogs) : s'.sent = s.sent := by
  unfold State.sent
  rw [hc, hlogs]

theorem endRound_ne_send {left' : Option ℕ} : (endRound left : Combiner n) ≠ .send left' :=
  endRound_elim (P := (· ≠ _)) (fun _ => nofun) fun _ => nofun

theorem endRound_ne_delete {left' : Option ℕ} {m : ℕ} : (endRound left : Combiner n) ≠ .delete left' m :=
  endRound_elim (P := (· ≠ _)) (fun _ => nofun) fun _ => nofun

theorem Inv.congr (h : Inv s) (hs : Collected s') (hsame : s'.toDelivery = s.toDelivery)
    (hc : s'.combiner = s.combiner) : Inv s' := by
  refine ⟨hs, ?_, fun left hl => ?_, fun left m hl => ?_⟩
  · rw [sent_congr hc (by rw [hsame]), hsame]
    exact h.delivered
  · rw [hsame]
    exact h.sending left (hc ▸ hl)
  · rw [hsame]
    exact h.deleting left m (hc ▸ hl)

theorem Inv.goto (h : Inv s) (hs : Collected s') (hsame : s'.toDelivery = s.toDelivery)
    (hfrom : ∀ left, s.combiner ≠ .send left) (hto : ∀ left, s'.combiner ≠ .send left)
    (hdelete : ∀ left m, s'.combiner = .delete left m → m ≤ s'.logDoneCount) : Inv s' := by
  refine ⟨hs, ?_, fun left hc => absurd hc (hto left), hdelete⟩
  rw [sent_of_ne hto, hsame, ← sent_of_ne hfrom]
  exact h.delivered

theorem Inv.collectStep (h : Inv s) (hc : s.combiner = .collect left q merged visit)
    (hs : collectStep S s left q merged visit = some s') : Inv s' := by
  have hcollected := h.collected.collectStep hc hs
  have hfrom : ∀ left, s.combiner ≠ .send left := by
    rw [hc]
    exact nofun
  unfold SearchLog.collectStep at hs
  split at hs
  case h_1 =>
    dsimp only at hs
    split_ifs at hs
    · obtain rfl := Option.some.inj hs
      exact h.goto hcollected rfl hfrom (fun _ => endRound_ne_send)
        fun _ _ heq => absurd heq endRound_ne_delete
    · obtain rfl := Option.some.inj hs
      refine ⟨hcollected, ?_, fun _ _ => List.concat_ne_nil _ _, nofun⟩
      have hsent : State.sent { s with
          mergedLogs := s.mergedLogs ++ [S.sort (byKey Op.addr) merged], combiner := .send left } = s.sent := by
        rw [sent_of_ne hfrom]
        change (s.mergedLogs ++ [S.sort (byKey Op.addr) merged]).length - 1 = _
        rw [List.length_append, List.length_singleton, Nat.add_sub_cancel]
      rw [hsent]
      exact h.delivered.merge _
  all_goals
    try split_ifs at hs
    all_goals
      obtain rfl := Option.some.inj hs
      exact h.goto hcollected rfl hfrom nofun nofun

theorem Inv.combinerStep (h : Inv s) (hs : combinerStep S s = some s') (hroom : HasRoom s .combiner) : Inv s' := by
  have hcollected := h.collected.combinerStep hs
  unfold SearchLog.combinerStep at hs
  split at hs
  case h_3 left q merged visit hc => exact h.collectStep hc hs
  case h_8 => cases hs
  case h_4 left hc =>
    obtain rfl := Option.some.inj hs
    have hpos : 0 < s.mergedLogs.length := List.length_pos_of_ne_nil (h.sending left hc)
    have hsent : s.sent + 1 = s.mergedLogs.length := by
      unfold State.sent
      rw [hc]
      exact Nat.sub_add_cancel hpos
    refine ⟨hcollected, ?_, fun _ heq => absurd heq endRound_ne_send,
      fun _ _ heq => absurd heq endRound_ne_delete⟩
    rw [sent_of_ne fun _ => endRound_ne_send]
    simp only [if_pos (show s.workQueue.length < capacity from hroom)]
    have hsend := h.delivered.send hsent
    rw [hsent] at hsend
    exact hsend
  case h_7 left m hc =>
    have hfrom : ∀ left, s.combiner ≠ .send left := by
      rw [hc]
      exact nofun
    split_ifs at hs with hmore hnone
    · obtain rfl := Option.some.inj hs
      have hfreed : s.freed < s.logDoneCount := lt_of_lt_of_le hmore.2 (h.deleting left m hc)
      have hd := h.delivered
      exact ⟨hcollected, ⟨hd.sent_le, hd.queue, hd.done_le, hfreed, hd.working, hd.applied, hd.running⟩,
        h.sending, h.deleting⟩
    all_goals
      obtain rfl := Option.some.inj hs
      exact h.goto hcollected rfl hfrom nofun nofun
  all_goals
    rename_i hc
    try split_ifs at hs
    all_goals
      obtain rfl := Option.some.inj hs
      refine h.goto hcollected rfl (by simp [hc]) (by simp) ?_
      simp

theorem Collected.nodup_flatten (h : Collected s) (hnodup : s.pushed.Nodup) : s.mergedLogs.flatten.Nodup := by
  have hsub : (s.mergedLogs.flatten : Multiset Op) ≤ s.pushed := by
    rw [h.conserved]
    exact Multiset.le_add_left _ _
  exact Multiset.coe_nodup.mp (Multiset.nodup_of_le hsub (Multiset.coe_nodup.mpr hnodup))

theorem Inv.step (h : Inv s) {a : Act n} (hs : step S s a = some s') (hroom : HasRoom s a) (hnodup : s.pushed.Nodup) :
    Inv s' := by
  have hcollected := h.collected.step hs
  cases a with
  | enq t op =>
    obtain rfl := enq_frame hs
    exact h.congr hcollected rfl rfl
  | thread t =>
    obtain ⟨hsame, hc, -⟩ := threadStep_frame hs
    exact h.congr hcollected hsame hc
  | stop =>
    obtain rfl := Option.some.inj hs
    exact h.congr hcollected rfl rfl
  | combiner => exact h.combinerStep hs hroom
  | worker =>
    have hdelivered := h.delivered.workerStep hs (h.collected.nodup_flatten hnodup)
    obtain ⟨d, rfl, hlogs, -, hdone⟩ := workerStep_frame hs
    refine ⟨hcollected, ?_, fun left hl => hlogs ▸ h.sending left hl,
      fun left m hl => (h.deleting left m hl).trans hdone⟩
    have hsent : State.sent { s with toDelivery := d } = s.sent := sent_congr rfl hlogs
    rwa [hsent]

theorem Inv.run {as : List (Act n)} (h : Inv s) (hrun : run (SearchLog.step S) s as = some s')
    (hroom : Along (SearchLog.step S) HasRoom s as) (hnodup : s'.pushed.Nodup) : Inv s' := by
  -- what is handed in twice stays so, hence nothing was handed in twice before the end
  have hinv : s'.pushed.Nodup → Inv s' := by
    refine run_induction (I := fun s => s.pushed.Nodup → Inv s) (fun s a s' ih hroom hs hnodup => ?_)
      (fun _ => h) hroom hrun
    have hbefore := hnodup.sublist (pushed_mono hs).sublist
    exact (ih hbefore).step hs hroom hbefore
  exact hinv hnodup

/-! ### Runs -/

/-- In every interleaving of the threads, the combiner and the worker, no deleted log is read and
no operation is applied twice; each operation that was handed in is in a queue, in the hand of
the combiner or in a merged log, and the worker has applied, in the order of the logs, those
that it has gone through and that are meant for it. -/
theorem exactly_once {as : List (Act n)} (hrun : run (step S) (State.init n) as = some s)
    (hroom : Along (step S) HasRoom (State.init n) as) (hnodup : s.pushed.Nodup) :
    s.crashed = false ∧
      (s.pushed : Multiset Op) = ∑ x, (s.queued x : Multiset Op) + s.combiner.inHand + s.mergedLogs.flatten ∧
      s.consumed <+: s.mergedLogs.flatten ∧ s.applied = s.consumed.filter (·.hash = 0) ∧ s.applied.Nodup := by
  have h := inv_init.run hrun hroom hnodup
  have hprefix := h.delivered.consumed_isPrefix
  refine ⟨h.delivered.running, h.collected.conserved, hprefix, h.delivered.applied, ?_⟩
  rw [h.delivered.applied]
  exact ((h.collected.nodup_flatten hnodup).sublist hprefix.sublist).filter _

/-- One thread hands in an operation, which is collected, sent and applied. -/
def oneSplit : List (Act 1) :=
  .enq ⟨0, Nat.one_pos⟩ ⟨8, 0, 5, 3⟩ :: List.replicate 4 (.thread ⟨0, Nat.one_pos⟩) ++
    List.replicate 8 .combiner ++ List.replicate 3 .worker

theorem exactly_once_oneSplit : ∃ s, run (step insertion) (State.init 1) oneSplit = some s ∧
    s.applied = [⟨8, 0, 5, 3⟩] ∧ s.crashed = false ∧ s.applied = s.consumed.filter (·.hash = 0) ∧
    s.applied.Nodup := by
  obtain ⟨s, hs⟩ :=
    Option.isSome_iff_exists.mp (show (run (step insertion) (State.init 1) oneSplit).isSome by decide)
  have happlied : (run (step insertion) (State.init 1) oneSplit).map (fun s => (s.applied, s.pushed)) =
      some ([⟨8, 0, 5, 3⟩], [⟨8, 0, 5, 3⟩]) := by decide
  rw [hs, Option.map_some, Option.some_inj, Prod.mk.injEq] at happlied
  have hnodup : s.pushed.Nodup := by
    rw [happlied.2]
    exact List.nodup_singleton _
  obtain ⟨hrunning, -, -, hfilter, honce⟩ := exactly_once hs (by decide) hnodup
  exact ⟨s, hs, happlied.1, hrunning, hfilter, honce⟩

end Hkv.PacTree.SearchLog
