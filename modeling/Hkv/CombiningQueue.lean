import Hkv.IoRing
import Mathlib.Data.List.Nodup

/-!
# The combining queue of the lookups

`apply_ops` is a queue lock in which the holder does the work of those that wait. A call
swaps a fresh node into the tail and fills the node that was there. The call whose node is
unlocked first is the leader: it walks the queue, collects the `at_entry` of each node,
and submits them together.

A step is one access to shared memory. `st_thread->next` and the locals belong to their
thread; the former is written together with the swap.
-/
namespace Hkv.AioQueue
open MtsConfig StepRun IoRing

/-- The node of `aio_struct_init`, or the one that `aio_thread_state_init` gives a thread. -/
abbrev Node (T : Type) := Option T

structure AioNode (T A : Type) where
  next : Option (Node T)
  tmp : Option A
  locked : Bool
  completed : Bool

/-- Where a thread is in `apply_ops`; `p` is the node that the leader is at. -/
inductive Pc (T A : Type) where
  | idle
  /-- `next_node` is initialised -/
  | swapping (a : A)
  /-- the tail is swapped; `n` is `next_node` -/
  | publishing (a : A) (n : Node T)
  /-- `cur->tmp` is written -/
  | linking (n : Node T)
  /-- `cur->next` is written -/
  | spinning
  /-- `cur->locked` was false -/
  | woken
  /-- before the test of the inner loop -/
  | combining (p : Node T) (counter : ℕ)
  /-- `n` is `tmp_next` -/
  | helping (p n : Node T) (counter : ℕ)
  /-- `p->tmp` is in the vector -/
  | completing (p n : Node T) (counter : ℕ)
  /-- `p->completed` is written -/
  | releasing (p n : Node T) (counter : ℕ)
  /-- before the test of the outer loop -/
  | checking (p : Node T) (counter : ℕ)
  /-- in `get_val_ccsync`, before its loop -/
  | reading (p : Node T)
  /-- before `io_uring_submit` -/
  | submitting (p : Node T)
  /-- before the store to `pending_ios` -/
  | setting (p : Node T)
  /-- before the last store to `p->locked` -/
  | unlocking (p : Node T)

/-- `next_node`, while its thread has not stored it in `cur->next`. -/
def Pc.nextNode {T A : Type} : Pc T A → Option (Node T)
  | .publishing _ n | .linking n => some n
  | _ => none

/-- `at_entry`, while its thread has not stored it in `cur->tmp`. -/
def Pc.atEntry {T A : Type} : Pc T A → Option A
  | .publishing a _ => some a
  | _ => none

/-- The thread has no node in the queue yet. -/
def Pc.Outside {T A : Type} : Pc T A → Prop
  | .idle | .swapping _ => True
  | _ => False

/-- The queue of one ring. The last four fields are a record that no step reads. -/
structure Combiner (T A : Type) where
  node : Node T → AioNode T A
  tail : Node T
  /-- `st_thread->next`: the node of the next call, or of the current one after its swap -/
  next : T → Node T
  pc : T → Pc T A
  srcAtEntryVec : List A
  ring : Ring
  /-- What was passed to `apply_ops`. -/
  calls : List A
  /-- The calls before their swap. -/
  starting : List (T × A)
  /-- The calls whose `at_entry` was not collected yet, in the order of their swaps. -/
  queue : List (T × A)
  /-- The vectors handed to `get_val_ccsync`. -/
  batches : List (List A)

inductive Step (T A : Type) where
  /-- `apply_ops` is called and initialises `next_node` -/
  | call (t : T) (a : A)
  /-- the next access of `t`; `linked` says which entries of the vector are in the value storage -/
  | thread (t : T) (linked : ℕ → Bool)
  /-- a step of the completer of the ring -/
  | completer (x : RingStep)

namespace Combiner
variable {T A : Type}

def initial : Combiner T A where
  node _ := ⟨none, none, false, false⟩
  tail := none
  next := some
  pc _ := .idle
  srcAtEntryVec := []
  ring := ⟨0, 0, fun _ => .idle, none, 0, 0⟩
  calls := []
  starting := []
  queue := []
  batches := []

variable [DecidableEq T]

def setPc (s : Combiner T A) (t : T) (pc : Pc T A) : Combiner T A := { s with pc := Function.update s.pc t pc }

def setNode (s : Combiner T A) (x : Node T) (f : AioNode T A → AioNode T A) : Combiner T A :=
  { s with node := Function.update s.node x (f (s.node x)) }

def setRing (s : Combiner T A) (r : Ring) : Combiner T A := { s with ring := r }

/-- The stores to `next_node`. -/
def initNode (s : Combiner T A) (t : T) (a : A) : Combiner T A :=
  { (s.setNode (s.next t) fun x => { x with next := none, locked := true, completed := false }).setPc t
      (.swapping a) with
    calls := s.calls ++ [a]
    starting := (t, a) :: s.starting }

/-- `SWAP(&l->tail, next_node)` -/
def swapTail [DecidableEq A] (s : Combiner T A) (t : T) (a : A) : Combiner T A :=
  { s.setPc t (.publishing a (s.next t)) with
    tail := s.next t
    next := Function.update s.next t s.tail
    starting := s.starting.erase (t, a)
    queue := s.queue ++ [(t, a)] }

/-- `batching_io` for the node at the front. -/
def batchingIo (s : Combiner T A) (t : T) (a : A) (pc : Pc T A) : Combiner T A :=
  { s.setPc t pc with
    srcAtEntryVec := s.srcAtEntryVec ++ [a]
    queue := s.queue.tail }

/-- The loop of `get_val_ccsync`, which empties the vector. -/
def getValCcsync (s : Combiner T A) (t : T) (p : Node T) (linked : ℕ → Bool) : Option (Combiner T A) :=
  (s.ring.step (.prepare .lookup ((List.range s.srcAtEntryVec.length).countP linked))).map fun r =>
    { (s.setPc t (if r.phase .lookup = .idle then .unlocking p else .submitting p)).setRing r with
      srcAtEntryVec := []
      batches := s.batches ++ [s.srcAtEntryVec] }

/-- What thread `t` does next. `none` is a thread that spins or is not in `apply_ops`. -/
def advance [DecidableEq A] (s : Combiner T A) (t : T) (linked : ℕ → Bool) : Option (Combiner T A) :=
  match s.pc t with
  | .idle => none
  | .swapping a => some (s.swapTail t a)
  | .publishing a n => some ((s.setNode (s.next t) fun x => { x with tmp := some a }).setPc t (.linking n))
  | .linking n => some ((s.setNode (s.next t) fun x => { x with next := some n }).setPc t .spinning)
  | .spinning => if (s.node (s.next t)).locked then none else some (s.setPc t .woken)
  | .woken => some (s.setPc t (if (s.node (s.next t)).completed then .idle else .combining (s.next t) 0))
  | .combining p counter =>
    match (s.node p).next with
    | some n => some (s.setPc t (if counter < rQd then .helping p n (counter + 1) else .checking p counter))
    | none => some (s.setPc t (.checking p counter))
  | .helping p n counter => (s.node p).tmp.map fun a => s.batchingIo t a (.completing p n counter)
  | .completing p n counter =>
    some ((s.setNode p fun x => { x with completed := true }).setPc t (.releasing p n counter))
  | .releasing p n counter => some ((s.setNode p fun x => { x with locked := false }).setPc t (.combining n counter))
  | .checking p counter =>
    if s.ring.pendingIos = 0 then
      (s.ring.step (.check .lookup)).map fun r => (s.setPc t (.reading p)).setRing r
    else some (s.setPc t (.combining p counter))
  | .reading p => s.getValCcsync t p linked
  | .submitting p => (s.ring.step (.submit .lookup)).map fun r => (s.setPc t (.setting p)).setRing r
  | .setting p => (s.ring.step (.set .lookup)).map fun r => (s.setPc t (.unlocking p)).setRing r
  | .unlocking p => some ((s.setNode p fun x => { x with locked := false }).setPc t .idle)

def step [DecidableEq A] (s : Combiner T A) : Step T A → Option (Combiner T A)
  | .call t a =>
    match s.pc t with
    | .idle => some (s.initNode t a)
    | _ => none
  | .thread t linked => s.advance t linked
  | .completer x => if x.submitter = none then (s.ring.step x).map s.setRing else none

omit [DecidableEq T]

/-! ## What the queue looks like -/

/-- The nodes of the calls `q`, up to the tail. -/
def nodes (s : Combiner T A) (q : List (T × A)) : List (Node T) := q.map (fun x => s.next x.1) ++ [s.tail]

/-- The node in front of the calls `q`. -/
def front (s : Combiner T A) : List (T × A) → Node T
  | [] => s.tail
  | x :: _ => s.next x.1

/-- The node behind that of `t`: before it is stored, only `t` knows it. -/
def succ (s : Combiner T A) (t : T) : Option (Node T) := (s.pc t).nextNode.or (s.node (s.next t)).next

/-- The `at_entry` of the call of `t`, once it has swapped. -/
def arg (s : Combiner T A) (t : T) : Option A := (s.pc t).atEntry.or (s.node (s.next t)).tmp

/-- The nodes of the calls `q` are linked up to the tail. -/
def Links (s : Combiner T A) : List (T × A) → Prop
  | [] => True
  | x :: q => s.succ x.1 = some (s.front q) ∧ s.Links q

def Queued (s : Combiner T A) (t : T) : Prop := t ∈ s.queue.map Prod.fst

structure Shape (s : Combiner T A) : Prop where
  inj : Function.Injective s.next
  ne_tail : ∀ t, s.next t ≠ s.tail
  nodup : (s.queue.map Prod.fst).Nodup
  links : s.Links s.queue
  args : ∀ x ∈ s.queue, s.arg x.1 = some x.2
  tail_next : (s.node s.tail).next = none
  outside : ∀ t, (s.pc t).Outside → ¬ s.Queued t
  fresh : ∀ t a, s.pc t = .swapping a → (s.node (s.next t)).next = none
  entering : ∀ t, (s.pc t).nextNode ≠ none → s.Queued t ∧ (s.node (s.next t)).next = none

variable {s s' : Combiner T A} {t t' : T} {a : A} {p n : Node T} {q : List (T × A)}

theorem mem_nodes {x : Node T} : x ∈ s.nodes q ↔ (∃ t ∈ q.map Prod.fst, s.next t = x) ∨ x = s.tail := by
  simp [nodes]

theorem nodes_eq_cons (s : Combiner T A) (q : List (T × A)) : s.nodes q = s.front q :: (s.nodes q).tail := by
  cases q <;> rfl

theorem front_mem_nodes (s : Combiner T A) (q : List (T × A)) : s.front q ∈ s.nodes q := by
  rw [nodes_eq_cons]
  exact List.mem_cons_self

theorem front_mem_nodes_tail (s : Combiner T A) (x : T × A) (q : List (T × A)) :
    s.front q ∈ (s.nodes (x :: q)).tail :=
  s.front_mem_nodes q

theorem front_congr (hnext : ∀ t ∈ q.map Prod.fst, s'.next t = s.next t) (htail : s'.tail = s.tail) :
    s'.front q = s.front q := by
  cases q with
  | nil => exact htail
  | cons x q => exact hnext x.1 (by simp)

theorem nodes_congr (hnext : s'.next = s.next) (htail : s'.tail = s.tail) : s'.nodes q = s.nodes q := by
  simp [nodes, hnext, htail]

theorem Links.congr (h : s.Links q) (hsucc : ∀ t ∈ q.map Prod.fst, s'.succ t = s.succ t)
    (hnext : ∀ t ∈ q.map Prod.fst, s'.next t = s.next t) (htail : s'.tail = s.tail) : s'.Links q := by
  induction q with
  | nil => trivial
  | cons x q ih =>
    have hfront : s'.front q = s.front q := front_congr (fun t ht => hnext t (List.mem_cons_of_mem _ ht)) htail
    refine ⟨?_, ih h.2 (fun t ht => hsucc t (List.mem_cons_of_mem _ ht))
      fun t ht => hnext t (List.mem_cons_of_mem _ ht)⟩
    rw [hsucc x.1 (by simp), hfront]
    exact h.1

theorem Shape.next_notMem_nodes (h : s.Shape) (ht : ¬ s.Queued t) : s.next t ∉ s.nodes s.queue := by
  rw [mem_nodes]
  rintro (⟨t', ht', heq⟩ | heq)
  · exact ht (h.inj heq ▸ ht')
  · exact h.ne_tail t heq

theorem Shape.nodup_nodes (h : s.Shape) : (s.nodes s.queue).Nodup := by
  refine List.nodup_append.mpr ⟨?_, List.nodup_singleton _, ?_⟩
  · have hmap := h.nodup.map h.inj
    rwa [List.map_map] at hmap
  · rintro _ hx _ hy rfl
    obtain ⟨x, -, hx⟩ := List.mem_map.mp hx
    exact h.ne_tail x.1 (hx.trans (List.mem_singleton.mp hy))

theorem Shape.congr (h : s.Shape) (hnext : s'.next = s.next) (htail : s'.tail = s.tail)
    (hqueue : s'.queue = s.queue)
    (hnode : ∀ x, x ≠ s.next t → (s'.node x).next = (s.node x).next ∧ (s'.node x).tmp = (s.node x).tmp)
    (hpc : ∀ t', t' ≠ t → s'.pc t' = s.pc t')
    (hsucc : s.Queued t → s'.succ t = s.succ t) (harg : s.Queued t → s'.arg t = s.arg t)
    (hout : (s'.pc t).Outside → ¬ s.Queued t)
    (hfresh : ∀ a, s'.pc t = .swapping a → (s'.node (s.next t)).next = none)
    (hentering : (s'.pc t).nextNode ≠ none → s.Queued t ∧ (s'.node (s.next t)).next = none) : s'.Shape := by
  have hne_next : ∀ {t'}, t' ≠ t → s.next t' ≠ s.next t := fun ht' heq => ht' (h.inj heq)
  have hqueued : ∀ t', s'.Queued t' ↔ s.Queued t' := fun t' => by rw [Queued, Queued, hqueue]
  refine ⟨hnext ▸ h.inj, by simpa [hnext, htail] using h.ne_tail, hqueue ▸ h.nodup, ?_, ?_, ?_, ?_, ?_, ?_⟩
  · rw [hqueue]
    refine h.links.congr (fun t' ht' => ?_) (fun _ _ => by rw [hnext]) htail
    obtain rfl | hne := eq_or_ne t' t
    · exact hsucc ht'
    · rw [succ, succ, hpc t' hne, hnext, (hnode _ (hne_next hne)).1]
  · rw [hqueue]
    rintro ⟨t', a'⟩ hx
    rw [← h.args _ hx]
    obtain rfl | hne := eq_or_ne t' t
    · exact harg (List.mem_map_of_mem hx)
    · show s'.arg t' = s.arg t'
      rw [arg, arg, hpc t' hne, hnext, (hnode _ (hne_next hne)).2]
  · rw [htail, (hnode _ (h.ne_tail t).symm).1]
    exact h.tail_next
  · intro t' ht'
    rw [hqueued]
    obtain rfl | hne := eq_or_ne t' t
    · exact hout ht'
    · exact h.outside t' (hpc t' hne ▸ ht')
  · intro t' a' ht'
    rw [hnext]
    obtain rfl | hne := eq_or_ne t' t
    · exact hfresh a' ht'
    · rw [(hnode _ (hne_next hne)).1]
      exact h.fresh t' a' (hpc t' hne ▸ ht')
  · intro t' ht'
    rw [hqueued, hnext]
    obtain rfl | hne := eq_or_ne t' t
    · exact hentering ht'
    · rw [(hnode _ (hne_next hne)).1]
      exact h.entering t' (hpc t' hne ▸ ht')

theorem Shape.quiet (h : s.Shape) (hnext : s'.next = s.next) (htail : s'.tail = s.tail)
    (hqueue : s'.queue = s.queue)
    (hnode : ∀ x, (s'.node x).next = (s.node x).next ∧ (s'.node x).tmp = (s.node x).tmp)
    (hpc : ∀ t', t' ≠ t → s'.pc t' = s.pc t')
    (hbefore : (s.pc t).nextNode = none ∧ (s.pc t).atEntry = none)
    (hafter : (s'.pc t).nextNode = none ∧ (s'.pc t).atEntry = none)
    (hout : (s'.pc t).Outside → s'.pc t = .idle ∧ ¬ s.Queued t) : s'.Shape := by
  apply h.congr (t := t) hnext htail hqueue (fun x _ => hnode x) hpc
  · intro _
    rw [succ, succ, hbefore.1, hafter.1, hnext, (hnode _).1]
  · intro _
    rw [arg, arg, hbefore.2, hafter.2, hnext, (hnode _).2]
  · exact fun ht => (hout ht).2
  · intro a ha
    rw [ha] at hout
    cases (hout trivial).1
  · exact fun hne => absurd hafter.1 hne

variable [DecidableEq T]

@[simp] theorem setPc_pc_self (s : Combiner T A) (t : T) (pc : Pc T A) : (s.setPc t pc).pc t = pc :=
  Function.update_self ..

@[simp] theorem setPc_node (s : Combiner T A) (t : T) (pc : Pc T A) : (s.setPc t pc).node = s.node := rfl

@[simp] theorem setPc_next (s : Combiner T A) (t : T) (pc : Pc T A) : (s.setPc t pc).next = s.next := rfl

theorem setPc_pc_of_ne (s : Combiner T A) (pc : Pc T A) (hne : t' ≠ t) : (s.setPc t pc).pc t' = s.pc t' :=
  Function.update_of_ne hne ..

@[simp] theorem setNode_node_self (s : Combiner T A) (x : Node T) (f : AioNode T A → AioNode T A) :
    (s.setNode x f).node x = f (s.node x) :=
  Function.update_self ..

theorem setNode_node_of_ne (s : Combiner T A) {x y : Node T} (f : AioNode T A → AioNode T A) (hne : y ≠ x) :
    (s.setNode x f).node y = s.node y :=
  Function.update_of_ne hne ..

theorem initNode_node_self (s : Combiner T A) (t : T) (a : A) :
    (s.initNode t a).node (s.next t) = ⟨none, (s.node (s.next t)).tmp, true, false⟩ :=
  Function.update_self ..

theorem initNode_node_of_ne (s : Combiner T A) {x : Node T} (a : A) (hne : x ≠ s.next t) :
    (s.initNode t a).node x = s.node x :=
  Function.update_of_ne hne ..

theorem Shape.initNode (h : s.Shape) (hpc : s.pc t = .idle) (a : A) : (s.initNode t a).Shape := by
  have hout : ¬ s.Queued t := h.outside t (by rw [hpc]; trivial)
  have hpc' : (s.initNode t a).pc t = .swapping a := setPc_pc_self ..
  refine h.congr (t := t) rfl rfl rfl ?_ (fun t' hne => setPc_pc_of_ne _ _ hne) (fun hq => absurd hq hout)
    (fun hq => absurd hq hout) (fun _ => hout) ?_ ?_
  · intro x hx
    rw [initNode_node_of_ne s a hx]
    exact ⟨rfl, rfl⟩
  · intro a' _
    rw [initNode_node_self]
  · intro hne
    rw [hpc'] at hne
    exact absurd rfl hne

/-- A call stores one field of `cur`, for those behind it in the queue to read. -/
theorem Shape.store (h : s.Shape) {f : AioNode T A → AioNode T A} {pc : Pc T A}
    (hqueued : s.Queued t)
    (hsucc : pc.nextNode.or (f (s.node (s.next t))).next = s.succ t)
    (harg : pc.atEntry.or (f (s.node (s.next t))).tmp = s.arg t) (hout : ¬ pc.Outside)
    (hentering : pc.nextNode ≠ none → (f (s.node (s.next t))).next = none) :
    ((s.setNode (s.next t) f).setPc t pc).Shape := by
  have hself : ((s.setNode (s.next t) f).setPc t pc).node (s.next t) = f (s.node (s.next t)) := setNode_node_self ..
  refine h.congr (t := t) rfl rfl rfl ?_ (fun t' hne => setPc_pc_of_ne _ _ hne) (fun _ => ?_) (fun _ => ?_) ?_ ?_ ?_
  · intro x hx
    rw [show ((s.setNode (s.next t) f).setPc t pc).node x = s.node x from setNode_node_of_ne _ _ hx]
    exact ⟨rfl, rfl⟩
  · rw [← hsucc, ← hself, succ, setPc_pc_self]
    rfl
  · rw [← harg, ← hself, arg, setPc_pc_self]
    rfl
  · rw [setPc_pc_self]
    exact fun h => absurd h hout
  · intro a ha
    rw [setPc_pc_self] at ha
    rw [ha] at hout
    exact absurd trivial hout
  · rw [setPc_pc_self, hself]
    exact fun hne => ⟨hqueued, hentering hne⟩

theorem Shape.publish (h : s.Shape) (hpc : s.pc t = .publishing a n) :
    ((s.setNode (s.next t) fun x => { x with tmp := some a }).setPc t (.linking n)).Shape := by
  have hent := h.entering t (by simp [hpc, Pc.nextNode])
  apply h.store hent.1
  · simp [succ, hpc, Pc.nextNode]
  · simp [arg, hpc, Pc.atEntry]
  · exact id
  · exact fun _ => hent.2

theorem Shape.link (h : s.Shape) (hpc : s.pc t = .linking n) :
    ((s.setNode (s.next t) fun x => { x with next := some n }).setPc t .spinning).Shape := by
  have hent := h.entering t (by simp [hpc, Pc.nextNode])
  apply h.store hent.1
  · simp [succ, hpc, Pc.nextNode]
  · simp [arg, hpc, Pc.atEntry]
  · exact id
  · exact fun hne => absurd rfl hne

section swap
variable [DecidableEq A]

@[simp] theorem swapTail_next_self (s : Combiner T A) (t : T) (a : A) : (s.swapTail t a).next t = s.tail :=
  Function.update_self ..

theorem swapTail_next_of_ne (s : Combiner T A) (a : A) (hne : t' ≠ t) : (s.swapTail t a).next t' = s.next t' :=
  Function.update_of_ne hne ..

@[simp] theorem swapTail_pc_self (s : Combiner T A) (t : T) (a : A) :
    (s.swapTail t a).pc t = .publishing a (s.next t) :=
  Function.update_self ..

theorem swapTail_pc_of_ne (s : Combiner T A) (a : A) (hne : t' ≠ t) : (s.swapTail t a).pc t' = s.pc t' :=
  Function.update_of_ne hne ..

theorem queued_swapTail : (s.swapTail t a).Queued t' ↔ s.Queued t' ∨ t' = t := by
  simp [Queued, swapTail]

theorem nodes_swapTail (a : A) (ht : t ∉ q.map Prod.fst) :
    (s.swapTail t a).nodes (q ++ [(t, a)]) = s.nodes q ++ [s.next t] := by
  have hq : q.map (fun x => (s.swapTail t a).next x.1) = q.map fun x => s.next x.1 := by
    apply List.map_congr_left
    intro x hx
    exact s.swapTail_next_of_ne a fun heq => ht (List.mem_map.mpr ⟨x, hx, heq⟩)
  rw [nodes, nodes, List.map_append, hq, List.map_singleton, swapTail_next_self]
  rfl

theorem front_swapTail (a : A) (ht : t ∉ q.map Prod.fst) :
    (s.swapTail t a).front (q ++ [(t, a)]) = s.front q := by
  cases q with
  | nil => exact s.swapTail_next_self t a
  | cons x q => exact s.swapTail_next_of_ne a fun heq => ht (by simp [heq])

theorem Links.swapTail (h : s.Links q) (ht : t ∉ q.map Prod.fst) :
    (s.swapTail t a).Links (q ++ [(t, a)]) := by
  induction q with
  | nil =>
    refine ⟨?_, trivial⟩
    rw [succ, swapTail_pc_self]
    rfl
  | cons x q ih =>
    have hne : x.1 ≠ t := fun heq => ht (by simp [heq])
    have hq : t ∉ q.map Prod.fst := fun hq => ht (List.mem_cons_of_mem _ hq)
    refine ⟨?_, ih h.2 hq⟩
    rw [List.append_eq, front_swapTail a hq, ← h.1, succ, succ, swapTail_pc_of_ne s a hne,
      swapTail_next_of_ne s a hne]
    rfl

theorem Shape.swapTail (h : s.Shape) (hpc : s.pc t = .swapping a) : (s.swapTail t a).Shape := by
  have hout : ¬ s.Queued t := h.outside t (by rw [hpc]; trivial)
  refine ⟨?_, ?_, ?_, h.links.swapTail hout, ?_, h.fresh t a hpc, ?_, ?_, ?_⟩
  · intro t₁ t₂ heq
    by_contra hne
    by_cases h₁ : t₁ = t
    · subst h₁
      rw [swapTail_next_self, swapTail_next_of_ne s a (Ne.symm hne)] at heq
      exact h.ne_tail t₂ heq.symm
    · rw [swapTail_next_of_ne s a h₁] at heq
      by_cases h₂ : t₂ = t
      · subst h₂
        rw [swapTail_next_self] at heq
        exact h.ne_tail t₁ heq
      · rw [swapTail_next_of_ne s a h₂] at heq
        exact hne (h.inj heq)
  · intro t'
    by_cases ht' : t' = t
    · subst ht'
      rw [swapTail_next_self]
      exact (h.ne_tail t').symm
    · rw [swapTail_next_of_ne s a ht']
      exact fun heq => ht' (h.inj heq)
  · have hnodup := List.nodup_append.mpr ⟨h.nodup, List.nodup_singleton t, by
      rintro b hb c hc rfl
      exact hout (List.mem_singleton.mp hc ▸ hb)⟩
    simpa [Combiner.swapTail] using hnodup
  · intro x hx
    obtain hx | hx := List.mem_append.mp hx
    · have hne : x.1 ≠ t := fun heq => hout (List.mem_map.mpr ⟨x, hx, heq⟩)
      rw [← h.args x hx, arg, arg, swapTail_pc_of_ne s a hne, swapTail_next_of_ne s a hne]
      rfl
    · obtain rfl := List.mem_singleton.mp hx
      rw [arg, swapTail_pc_self]
      rfl
  · intro t' ht'
    obtain rfl | hne := eq_or_ne t' t
    · rw [swapTail_pc_self] at ht'
      exact ht'.elim
    · rw [swapTail_pc_of_ne s a hne] at ht'
      rw [queued_swapTail]
      exact not_or.mpr ⟨h.outside t' ht', hne⟩
  · intro t' a' ht'
    obtain rfl | hne := eq_or_ne t' t
    · rw [swapTail_pc_self] at ht'
      cases ht'
    · rw [swapTail_pc_of_ne s a hne] at ht'
      rw [swapTail_next_of_ne s a hne]
      exact h.fresh t' a' ht'
  · intro t' ht'
    obtain rfl | hne := eq_or_ne t' t
    · rw [swapTail_next_self]
      exact ⟨queued_swapTail.mpr (Or.inr rfl), h.tail_next⟩
    · rw [swapTail_pc_of_ne s a hne] at ht'
      rw [swapTail_next_of_ne s a hne]
      obtain ⟨hq, hnone⟩ := h.entering t' ht'
      exact ⟨queued_swapTail.mpr (Or.inl hq), hnone⟩

end swap

theorem Shape.batchingIo (h : s.Shape) {x : T × A} (hqueue : s.queue = x :: q) (hx : (s.pc x.1).nextNode = none)
    {pc : Pc T A} (hbefore : (s.pc t).nextNode = none ∧ (s.pc t).atEntry = none)
    (hafter : pc.nextNode = none ∧ pc.atEntry = none) (hout : ¬ pc.Outside) (a : A) :
    (s.batchingIo t a pc).Shape := by
  -- first the call at the front leaves the queue
  have hpop : ({ s with srcAtEntryVec := s.srcAtEntryVec ++ [a], queue := s.queue.tail } : Combiner T A).Shape := by
    have hnodup := h.nodup
    have hlinks := h.links
    rw [hqueue] at hnodup hlinks ⊢
    have hsub : ∀ {t'}, t' ∈ q.map Prod.fst → s.Queued t' := fun ht' => by
      rw [Queued, hqueue]
      exact List.mem_cons_of_mem _ ht'
    refine ⟨h.inj, h.ne_tail, hnodup.of_cons, ?_, ?_, h.tail_next, fun t' ht' hq => h.outside t' ht' (hsub hq),
      h.fresh, ?_⟩
    · exact hlinks.2.congr (fun _ _ => rfl) (fun _ _ => rfl) rfl
    · intro y hy
      exact h.args y (hqueue ▸ List.mem_cons_of_mem _ hy)
    · intro t' ht'
      obtain ⟨hq, hnone⟩ := h.entering t' ht'
      rw [Queued, hqueue] at hq
      obtain rfl | hq := List.mem_cons.mp hq
      · exact absurd hx ht'
      · exact ⟨hq, hnone⟩
  refine hpop.quiet (t := t) rfl rfl rfl (fun _ => ⟨rfl, rfl⟩)
    (fun t' hne => setPc_pc_of_ne _ _ hne) hbefore ?_ ?_
  · rw [show (s.batchingIo t a pc).pc t = pc from setPc_pc_self ..]
    exact hafter
  · rw [show (s.batchingIo t a pc).pc t = pc from setPc_pc_self ..]
    exact fun h => absurd h hout

end Combiner

end Hkv.AioQueue
