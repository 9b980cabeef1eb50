import Mathlib.Algebra.BigOperators.Fin
import Mathlib.Algebra.Order.BigOperators.Group.Finset
import Mathlib.Data.Fintype.BigOperators
import Mathlib.Tactic.Abel
import Hkv.KeyedSort
import Hkv.StepRun

/-!
# The log between the data layer and the search layer

A split hands its operation to the log of its thread. Each log has two queues; the combiner
switches between them, collects one queue of every log, and sends the merged log to the worker,
which applies the operations to the search layer. In every interleaving each operation that was
handed in is at one place between its thread and the search layer.

The search layer has one worker, as the store sets it up. A thread that has not registered its
log yet is a thread whose queues are empty. The mutex of a queue is held by who is between its
lock and its unlock.
-/
namespace Hkv.PacTree.SearchLog

open StepRun KeyedSort

/-- The part of an operation that the log looks at. `split` does not set `hash`, so it is
whatever the memory held. -/
structure Op where
  addr : ℕ
  hash : ℕ
  key : ℕ
  newNode : ℕ
  deriving DecidableEq

/-- Where a thread is in `Oplog::enq`. -/
inductive Producer where
  | idle
  | load (op : Op)
  | tryLock (op : Op) (qnum : Fin 2)
  | push (op : Op) (qnum : Fin 2)
  | unlock (qnum : Fin 2)
  deriving DecidableEq

/-- Where the combiner is in the loop of `combineLogs`; `todo` are the logs that follow. -/
inductive Visit (n : ℕ) where
  | lock (todo : List (Fin n))
  | copy (t : Fin n) (todo : List (Fin n))
  | reset (t : Fin n) (todo : List (Fin n))
  | unlock (t : Fin n) (todo : List (Fin n))
  deriving DecidableEq

/-- Where the combiner is. `left` counts the rounds that are left when the main loop is over. -/
inductive Combiner (n : ℕ) where
  | top
  | combine (left : Option ℕ)
  | collect (left : Option ℕ) (qnum : Fin 2) (merged : List Op) (visit : Visit n)
  | send (left : Option ℕ)
  | free (left : Option ℕ)
  | delete (left : Option ℕ) (minDoneCountWt : ℕ)
  | done
  deriving DecidableEq

/-- Where the worker is: between two logs, or at an entry of a log. -/
inductive Worker where
  | poll
  | apply (log pos : ℕ)
  | exited

/-- The merged logs on their way from the combiner to the search layer. -/
structure Delivery where
  worker : Worker
  /-- The merged logs by their index, those that have been deleted included. -/
  mergedLogs : List (List Op)
  /-- The logs with a lower index have been deleted. -/
  freed : ℕ
  workQueue : List ℕ
  logDoneCount : ℕ
  /-- The operations that the search layer was given; they are marked as done. -/
  applied : List Op
  /-- A deleted log was read, or an operation was found that is marked as done. -/
  crashed : Bool

structure State (n : ℕ) extends Delivery where
  curQ : ℕ
  op : Fin n × Fin 2 → List Op
  producer : Fin n → Producer
  combiner : Combiner n
  globalStop : Bool
  combinerStop : Bool
  /-- The operations that were handed in. -/
  pushed : List Op

/-- A thread begins `enq`, or someone takes the next step. -/
inductive Act (n : ℕ) where
  | enq (t : Fin n) (op : Op)
  | thread (t : Fin n)
  | stop
  | combiner
  | worker

def State.init (n : ℕ) : State n where
  curQ := 0
  op _ := []
  producer _ := .idle
  combiner := .top
  worker := .poll
  mergedLogs := []
  freed := 0
  workQueue := []
  logDoneCount := 0
  globalStop := false
  combinerStop := false
  applied := []
  pushed := []
  crashed := false

/-- The capacity of a work queue; a log that finds it full is dropped. -/
def capacity : ℕ := 1000000

def qnum (curQ : ℕ) : Fin 2 := ⟨curQ % 2, Nat.mod_lt _ Nat.two_pos⟩

variable {n : ℕ}

/-- The thread has the mutex of its queue. -/
def Producer.holds : Producer → Fin 2 → Bool
  | .push _ q, q' => q = q'
  | .unlock q, q' => q = q'
  | _, _ => false

def Visit.log : Visit n → Option (Fin n)
  | .lock _ => none
  | .copy t _ => some t
  | .reset t _ => some t
  | .unlock t _ => some t

def Combiner.holds : Combiner n → Fin n × Fin 2 → Bool
  | .collect _ q _ visit, x => visit.log = some x.1 ∧ x.2 = q
  | _, _ => false

def State.setProducer (s : State n) (t : Fin n) (p : Producer) : State n :=
  { s with producer := Function.update s.producer t p }

/-- One step of `Oplog::enq`. A thread that does not get the mutex looks at `curQ` again. -/
def threadStep (s : State n) (t : Fin n) : Option (State n) :=
  match s.producer t with
  | .idle => none
  | .load op => some (s.setProducer t (.tryLock op (qnum s.curQ)))
  | .tryLock op q => some (s.setProducer t (if s.combiner.holds (t, q) then .load op else .push op q))
  | .push op q =>
    some { s.setProducer t (.unlock q) with
      op := Function.update s.op (t, q) (s.op (t, q) ++ [op]), pushed := s.pushed ++ [op] }
  | .unlock _ => some (s.setProducer t .idle)

/-- What the combiner does after a round. -/
def endRound : Option ℕ → Combiner n
  | none => .free none
  | some 0 => .free (some 0)
  | some (k + 1) => .combine (some k)

/-- One step in the loop of `combineLogs` and behind it. The combiner waits for a mutex. -/
def collectStep (S : StdSort) (s : State n) (left : Option ℕ) (q : Fin 2) (merged : List Op) :
    Visit n → Option (State n)
  | .lock [] =>
    let mergedLog := S.sort (byKey Op.addr) merged
    if mergedLog = [] then some { s with combiner := endRound left }
    else some { s with mergedLogs := s.mergedLogs ++ [mergedLog], combiner := .send left }
  | .lock (t :: todo) =>
    if (s.producer t).holds q then none else some { s with combiner := .collect left q merged (.copy t todo) }
  | .copy t todo => some { s with combiner := .collect left q (merged ++ s.op (t, q)) (.reset t todo) }
  | .reset t todo =>
    some { s with op := Function.update s.op (t, q) [], combiner := .collect left q merged (.unlock t todo) }
  | .unlock _ todo => some { s with combiner := .collect left q merged (.lock todo) }

/-- One step of `combinerThreadExec`. -/
def combinerStep (S : StdSort) (s : State n) : Option (State n) :=
  match s.combiner with
  | .top => some { s with combiner := .combine (if s.globalStop then some 19 else none) }
  | .combine left =>
    some { s with curQ := s.curQ + 1, combiner := .collect left (qnum s.curQ) [] (.lock (List.finRange n)) }
  | .collect left q merged visit => collectStep S s left q merged visit
  | .send left =>
    some { s with
      workQueue := if s.workQueue.length < capacity then s.workQueue ++ [s.mergedLogs.length - 1] else s.workQueue
      combiner := endRound left }
  | .free none =>
    if s.mergedLogs.length - s.freed < 100 then some { s with combiner := .top }
    else some { s with combiner := .delete none s.logDoneCount }
  | .free (some k) =>
    if s.freed = s.mergedLogs.length then some { s with combinerStop := true, combiner := .done }
    else some { s with combiner := .delete (some k) s.logDoneCount }
  | .delete left minDoneCountWt =>
    if s.freed < s.mergedLogs.length ∧ s.freed < minDoneCountWt then some { s with freed := s.freed + 1 }
    else some { s with combiner := if left = none then .top else .free left }
  | .done => none

/-- One step of the loop of `applyOperation`. -/
def applyStep (d : Delivery) (log pos : ℕ) : Delivery :=
  if log < d.freed then { d with crashed := true }
  else
    match (d.mergedLogs.getD log [])[pos]? with
    | none => { d with workQueue := d.workQueue.tail, logDoneCount := d.logDoneCount + 1, worker := .poll }
    | some op =>
      if op.hash ≠ 0 then { d with worker := .apply log (pos + 1) }
      else if op ∈ d.applied then { d with crashed := true }
      else { d with applied := d.applied ++ [op], worker := .apply log (pos + 1) }

/-- One step of `workerThreadExec`. -/
def workerStep (s : State n) : Option (State n) :=
  match s.worker, s.workQueue with
  | .poll, log :: _ => some { s with worker := .apply log 0 }
  | .poll, [] => if s.combinerStop then some { s with worker := .exited } else none
  | .apply log pos, _ => some { s with toDelivery := applyStep s.toDelivery log pos }
  | .exited, _ => none

def step (S : StdSort) (s : State n) : Act n → Option (State n)
  | .enq t op => if s.producer t = .idle then some (s.setProducer t (.load op)) else none
  | .thread t => threadStep s t
  | .stop => some { s with globalStop := true }
  | .combiner => combinerStep S s
  | .worker => workerStep s

variable {S : StdSort} {s s' : State n} {t : Fin n} {q : Fin 2} {x : Fin n × Fin 2} {left : Option ℕ}
  {visit : Visit n} {merged : List Op} {p : Producer}

/-! ### What a step leaves alone -/

theorem threadStep_frame (hs : threadStep s t = some s') :
    s'.toDelivery = s.toDelivery ∧ s'.combiner = s.combiner ∧ s.pushed <+: s'.pushed := by
  unfold threadStep at hs
  split at hs
  case h_1 => cases hs
  case h_4 =>
    obtain rfl := Option.some.inj hs
    exact ⟨rfl, rfl, List.prefix_append _ _⟩
  all_goals
    obtain rfl := Option.some.inj hs
    exact ⟨rfl, rfl, List.prefix_rfl⟩

theorem enq_frame {op : Op} (hs : step S s (.enq t op) = some s') : s' = s.setProducer t (.load op) := by
  rw [step] at hs
  split_ifs at hs
  exact (Option.some.inj hs).symm

theorem applyStep_frame {d : Delivery} {log pos : ℕ} : (applyStep d log pos).mergedLogs = d.mergedLogs ∧
    (applyStep d log pos).freed = d.freed ∧ d.logDoneCount ≤ (applyStep d log pos).logDoneCount := by
  unfold applyStep
  split_ifs
  · exact ⟨rfl, rfl, le_rfl⟩
  · split
    · exact ⟨rfl, rfl, Nat.le_succ _⟩
    · split_ifs
      · exact ⟨rfl, rfl, le_rfl⟩
      · exact ⟨rfl, rfl, le_rfl⟩
      · exact ⟨rfl, rfl, le_rfl⟩

theorem workerStep_frame (hs : workerStep s = some s') : ∃ d : Delivery, s' = { s with toDelivery := d } ∧
    d.mergedLogs = s.mergedLogs ∧ d.freed = s.freed ∧ s.logDoneCount ≤ d.logDoneCount := by
  unfold workerStep at hs
  split at hs
  · exact ⟨_, (Option.some.inj hs).symm, rfl, rfl, le_rfl⟩
  · split_ifs at hs
    exact ⟨_, (Option.some.inj hs).symm, rfl, rfl, le_rfl⟩
  · exact ⟨_, (Option.some.inj hs).symm, applyStep_frame⟩
  · cases hs

theorem collectStep_pushed (hs : collectStep S s left q merged visit = some s') :
    s'.producer = s.producer ∧ s'.pushed = s.pushed := by
  unfold collectStep at hs
  dsimp only at hs
  split at hs
  all_goals
    try split_ifs at hs
    all_goals
      obtain rfl := Option.some.inj hs
      exact ⟨rfl, rfl⟩

theorem combinerStep_pushed (hs : combinerStep S s = some s') :
    s'.producer = s.producer ∧ s'.pushed = s.pushed := by
  unfold combinerStep at hs
  split at hs
  case h_3 => exact collectStep_pushed hs
  case h_8 => cases hs
  all_goals
    try split_ifs at hs
    all_goals
      obtain rfl := Option.some.inj hs
      exact ⟨rfl, rfl⟩

theorem pushed_mono {a : Act n} (hs : step S s a = some s') : s.pushed <+: s'.pushed := by
  cases a with
  | enq t op => exact enq_frame hs ▸ List.prefix_rfl
  | thread t => exact (threadStep_frame hs).2.2
  | stop =>
    obtain rfl := Option.some.inj hs
    exact List.prefix_rfl
  | combiner => exact (combinerStep_pushed hs).2 ▸ List.prefix_rfl
  | worker =>
    obtain ⟨d, rfl, -⟩ := workerStep_frame hs
    exact List.prefix_rfl

/-! ### Where an operation is -/

/-- The operations that the combiner has collected in this round. -/
def Combiner.inHand : Combiner n → List Op
  | .collect _ _ merged _ => merged
  | _ => []

/-- The operations that wait in a queue. Between copying a queue and clearing it they count as
collected. -/
def State.queued (s : State n) (x : Fin n × Fin 2) : List Op :=
  match s.combiner with
  | .collect _ q _ (.reset t _) => if x = (t, q) then [] else s.op x
  | _ => s.op x

/-- Each operation that was handed in is in a queue, in the hand of the combiner or in a merged
log, and nobody else works on the queue that the combiner is at. -/
structure Collected (s : State n) : Prop where
  exclusive : ∀ x, s.combiner.holds x = true → (s.producer x.1).holds x.2 = false
  conserved : (s.pushed : Multiset Op) = ∑ x, (s.queued x : Multiset Op) + s.combiner.inHand + s.mergedLogs.flatten

theorem collected_init : Collected (State.init n) := by
  refine ⟨nofun, ?_⟩
  simp [State.init, State.queued, Combiner.inHand]

theorem sum_update {f g : Fin n × Fin 2 → Multiset Op} {a : Multiset Op} (hx : f x = g x + a)
    (helse : ∀ y, y ≠ x → f y = g y) : ∑ y, f y = ∑ y, g y + a := by
  rw [← Finset.add_sum_erase Finset.univ f (Finset.mem_univ x),
    ← Finset.add_sum_erase Finset.univ g (Finset.mem_univ x),
    hx, Finset.sum_congr rfl fun y hy => helse y (Finset.ne_of_mem_erase hy), add_right_comm]

theorem Collected.setProducer (h : Collected s) (hp : ∀ q, p.holds q = true → s.combiner.holds (t, q) = false) :
    Collected (s.setProducer t p) := by
  refine ⟨fun x hx => ?_, h.conserved⟩
  change (Function.update s.producer t p x.1).holds x.2 = false
  by_cases hxt : x.1 = t
  · rw [hxt, Function.update_self]
    by_contra hheld
    have hfree := hp x.2 (by simpa using hheld)
    rw [← hxt] at hfree
    exact Bool.noConfusion (hfree.symm.trans hx)
  · rw [Function.update_of_ne hxt]
    exact h.exclusive x hx

theorem queued_of_not_holds (hno : s.combiner.holds x = false) : s.queued x = s.op x := by
  unfold State.queued
  split
  · next left q merged t todo hc =>
    rw [hc] at hno
    refine if_neg fun hx => ?_
    rw [hx] at hno
    simp [Combiner.holds, Visit.log] at hno
  · rfl

theorem queued_congr (hc : s'.combiner = s.combiner) (hop : s'.op x = s.op x) : s'.queued x = s.queued x := by
  unfold State.queued
  rw [hc]
  split
  · rw [hop]
  · exact hop

/-- The thread holds the mutex, so the queue is not between copying and clearing. -/
theorem Collected.push {op : Op} (h : Collected s) (hp : s.producer t = .push op q)
    (hs' : s' = { s.setProducer t (.unlock q) with
      op := Function.update s.op (t, q) (s.op (t, q) ++ [op]), pushed := s.pushed ++ [op] }) : Collected s' := by
  have hno : s.combiner.holds (t, q) = false := by
    by_contra hholds
    have hfree := h.exclusive (t, q) (by simpa using hholds)
    rw [hp] at hfree
    simp [Producer.holds] at hfree
  have hmove : Collected (s.setProducer t (.unlock q)) := by
    refine h.setProducer fun q' hq => ?_
    obtain rfl : q = q' := by simpa [Producer.holds] using hq
    exact hno
  have hc : s'.combiner = s.combiner := by rw [hs']; rfl
  have hop : s'.op = Function.update s.op (t, q) (s.op (t, q) ++ [op]) := by rw [hs']
  have hsum : ∑ x, (s'.queued x : Multiset Op) = ∑ x, (s.queued x : Multiset Op) + {op} := by
    refine sum_update (x := (t, q)) ?_ fun y hy => ?_
    · rw [queued_of_not_holds hno, queued_of_not_holds (hc ▸ hno), hop, Function.update_self, ← Multiset.coe_add,
        Multiset.coe_singleton]
    · rw [queued_congr hc (by rw [hop, Function.update_of_ne hy])]
  have hconserved : (s'.pushed : Multiset Op) =
      ∑ x, (s'.queued x : Multiset Op) + s'.combiner.inHand + s'.mergedLogs.flatten := by
    rw [hsum, hc, hs']
    change ((s.pushed ++ [op] : List Op) : Multiset Op) = _ + _ + _ + s.mergedLogs.flatten
    rw [← Multiset.coe_add, h.conserved, Multiset.coe_singleton]
    abel
  subst hs'
  exact ⟨hmove.exclusive, hconserved⟩

theorem Collected.threadStep (h : Collected s) (hs : threadStep s t = some s') : Collected s' := by
  unfold SearchLog.threadStep at hs
  split at hs
  · cases hs
  · obtain rfl := Option.some.inj hs
    exact h.setProducer nofun
  · next op q hp =>
    obtain rfl := Option.some.inj hs
    refine h.setProducer fun q' hq => ?_
    split_ifs at hq with hheld
    · nomatch hq
    · obtain rfl : q = q' := by simpa [Producer.holds] using hq
      simpa using hheld
  · next op q hp => exact h.push hp (Option.some.inj hs).symm
  · obtain rfl := Option.some.inj hs
    exact h.setProducer nofun

/-! ### Collecting -/

theorem Collected.goto (h : Collected s) (hop : s'.op = s.op) (hpushed : s'.pushed = s.pushed)
    (hfrom : ∀ x, s.combiner.holds x = false) (hto : ∀ x, s'.combiner.holds x = false)
    (hhand : (s'.combiner.inHand + s'.mergedLogs.flatten : Multiset Op) = s.combiner.inHand + s.mergedLogs.flatten) :
    Collected s' := by
  refine ⟨fun x hx => Bool.noConfusion ((hto x).symm.trans hx), ?_⟩
  have hqueued : ∀ x, s'.queued x = s.queued x := fun x => by
    rw [queued_of_not_holds (hfrom x), queued_of_not_holds (hto x), hop]
  rw [hpushed, h.conserved, add_assoc, add_assoc, hhand]
  simp only [hqueued]

theorem endRound_elim {P : Combiner n → Prop} (hfree : ∀ left, P (.free left))
    (hcombine : ∀ left, P (.combine left)) : P (endRound left) := by
  rcases left with _ | _ | k
  · exact hfree none
  · exact hfree (some 0)
  · exact hcombine (some k)

theorem holds_endRound : (endRound left : Combiner n).holds x = false :=
  endRound_elim (P := (·.holds x = false)) (fun _ => rfl) fun _ => rfl

theorem inHand_endRound : (endRound left : Combiner n).inHand = [] :=
  endRound_elim (P := (·.inHand = [])) (fun _ => rfl) fun _ => rfl

theorem Collected.collectStep (h : Collected s) (hc : s.combiner = .collect left q merged visit)
    (hs : collectStep S s left q merged visit = some s') : Collected s' := by
  obtain ⟨delivery, curQ, op, producer, combiner, stop, stop', pushed⟩ := s
  subst hc
  have hcons := h.conserved
  cases visit with
  | lock todo =>
    have hfrom : ∀ x, (Combiner.collect left q merged (.lock todo)).holds x = false := fun x => by
      simp [Combiner.holds, Visit.log]
    cases todo with
    | nil =>
      have hperm : ((S.sort (byKey Op.addr) merged : List Op) : Multiset Op) = merged :=
        Multiset.coe_eq_coe.mpr (S.perm _ merged)
      rw [SearchLog.collectStep] at hs
      dsimp only at hs
      split_ifs at hs with hempty
      · obtain rfl := Option.some.inj hs
        refine h.goto rfl rfl hfrom (fun _ => holds_endRound) ?_
        rw [hempty] at hperm
        rw [inHand_endRound, hperm]
        rfl
      · obtain rfl := Option.some.inj hs
        refine h.goto rfl rfl hfrom (fun _ => rfl) ?_
        rw [List.flatten_append, List.flatten_singleton, ← Multiset.coe_add, hperm]
        change (0 + _ : Multiset Op) = (merged : Multiset Op) + _
        rw [zero_add, add_comm]
    | cons t todo =>
      rw [SearchLog.collectStep] at hs
      split_ifs at hs with hheld
      obtain rfl := Option.some.inj hs
      refine ⟨fun x hx => ?_, hcons⟩
      obtain ⟨hx, hq⟩ : some t = some x.1 ∧ x.2 = q := by simpa [Combiner.holds, Visit.log] using hx
      rw [hq, ← Option.some.inj hx]
      simpa using hheld
  | copy t todo =>
    obtain rfl := Option.some.inj hs
    refine ⟨h.exclusive, ?_⟩
    -- the operations of a queue are in hand from the moment the queue has been copied
    have hsum : ∑ x, (op x : Multiset Op) = ∑ x, ((if x = (t, q) then [] else op x : List Op) : Multiset Op) +
        (op (t, q) : Multiset Op) := by
      refine sum_update (x := (t, q)) ?_ fun y hy => ?_
      · rw [if_pos rfl, Multiset.coe_nil, zero_add]
      · rw [if_neg hy]
    change (pushed : Multiset Op) = ∑ x, (op x : Multiset Op) + (merged : Multiset Op) + _ at hcons
    change (pushed : Multiset Op) = ∑ x, ((if x = (t, q) then [] else op x : List Op) : Multiset Op) +
      ((merged ++ op (t, q) : List Op) : Multiset Op) + _
    rw [hcons, hsum, ← Multiset.coe_add]
    abel
  | reset t todo =>
    obtain rfl := Option.some.inj hs
    refine ⟨h.exclusive, ?_⟩
    have hqueued : ∀ x, Function.update op (t, q) [] x = if x = (t, q) then [] else op x :=
      fun x => Function.update_apply op (t, q) [] x
    change (pushed : Multiset Op) = ∑ x, (Function.update op (t, q) [] x : Multiset Op) + _ + _
    simp only [hqueued]
    exact hcons
  | unlock t todo =>
    obtain rfl := Option.some.inj hs
    refine ⟨fun x hx => ?_, hcons⟩
    simp [Combiner.holds, Visit.log] at hx

theorem Collected.combinerStep (h : Collected s) (hs : combinerStep S s = some s') : Collected s' := by
  unfold SearchLog.combinerStep at hs
  split at hs
  case h_3 => exact h.collectStep (by assumption) hs
  case h_8 => cases hs
  case h_4 left hc =>
    obtain rfl := Option.some.inj hs
    refine h.goto rfl rfl (fun x => by rw [hc]; rfl) (fun _ => holds_endRound) ?_
    rw [hc, inHand_endRound]
    rfl
  case h_2 left hc =>
    obtain rfl := Option.some.inj hs
    exact h.goto rfl rfl (fun x => by rw [hc]; rfl) (fun x => by simp [Combiner.holds, Visit.log]) (by rw [hc]; rfl)
  case h_7 left m hc =>
    have hfrom : ∀ x, s.combiner.holds x = false := by rw [hc]; exact fun _ => rfl
    split_ifs at hs
    · obtain rfl := Option.some.inj hs
      exact h.goto rfl rfl hfrom hfrom rfl
    · obtain rfl := Option.some.inj hs
      exact h.goto rfl rfl hfrom (fun _ => rfl) (by rw [hc]; rfl)
    · obtain rfl := Option.some.inj hs
      exact h.goto rfl rfl hfrom (fun _ => rfl) (by rw [hc]; rfl)
  all_goals
    rename_i hc
    try split_ifs at hs
    all_goals
      obtain rfl := Option.some.inj hs
      exact h.goto rfl rfl (fun x => by rw [hc]; rfl) (fun _ => rfl) (by rw [hc]; rfl)

theorem Collected.step (h : Collected s) {a : Act n} (hs : step S s a = some s') : Collected s' := by
  cases a with
  | enq t op =>
    rw [enq_frame hs]
    exact h.setProducer nofun
  | thread t => exact h.threadStep hs
  | stop =>
    obtain rfl := Option.some.inj hs
    exact ⟨h.exclusive, h.conserved⟩
  | combiner => exact h.combinerStep hs
  | worker =>
    obtain ⟨d, rfl, hlogs, -⟩ := workerStep_frame hs
    refine ⟨h.exclusive, ?_⟩
    rw [hlogs]
    exact h.conserved

end Hkv.PacTree.SearchLog
