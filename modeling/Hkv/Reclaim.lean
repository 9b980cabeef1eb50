import Hkv.GcFrame
import Hkv.StepRun
import Mathlib.Tactic.IntervalCases

/-!
# The reclaim thread

`OpLog::reclaim` as a machine that stops before every access to shared data: the
validation of an entry, the put, each single link of a sync. Other threads move between
any two of its steps. They append to other logs only.
-/
namespace Hkv.Reclaim
open MtsConfig TaggedPointer AddressTable KeyedSort ValueStorage StepRun

variable {A : Type}

/-- What follows a `sync_with_at`: the rest of `put_vs_entry` on a full chunk, or the
end of `forced_write_chunk`. -/
inductive Cont (A : Type) where
  | put (key val : ℕ) (a : A)
  | finish
  deriving DecidableEq

/-- The next action of the thread. -/
inductive Pc (A : Type) where
  /-- `oplog_peek_head` and the validation test -/
  | peek
  /-- the entry of `put_vs_entry` -/
  | put (key val : ℕ) (a : A)
  /-- `alloc` and the store into `w_buffer` -/
  | append (key val : ℕ) (a : A)
  /-- the links of `sync_with_at` still to be made -/
  | sync (moved : List (MovedEntry A)) (cont : Cont A)
  | deq
  | force
  | returned
  deriving DecidableEq

structure State (A : Type) where
  store : Store A
  op : Ptr → OpEntry A
  /-- The entries from `head_cnt` to `tail_cnt`. -/
  queue : List Ptr
  pc : Pc A

section Thread
variable [DecidableEq A] (cfg : Config) (S : StdSort) (w : ℕ)

/-- The head of a `sync_with_at`: the chunk is written and the list sorted. -/
def startSync (s : State A) (cont : Cont A) : State A :=
  { s with
    store := writeChunk cfg S s.store w
    pc := .sync (sortMovedEntry S (s.store.wChunk w).movedEntryList) cont }

def peek (s : State A) : Option (State A) :=
  match s.queue with
  | [] => some { s with pc := .returned }
  | p :: _ => match (s.op p).opa with
    | none => none
    | some a =>
      if (s.store.table a).PointsTo p then some { s with pc := .put (s.op p).key (s.op p).val a }
      else some { s with pc := .deq }

/-- The branches of `put_vs_entry`. -/
def put (s : State A) (key val : ℕ) (a : A) : Option (State A) :=
  if (s.store.wChunk w).entryOffset = 0 then do
    return { s with store := ← initWChunk cfg S s.store w, pc := .append key val a }
  else if (s.store.wChunk w).entryOffset < cfg.entriesPerChunk then some { s with pc := .append key val a }
  else if (s.store.wChunk w).entryOffset = cfg.entriesPerChunk then some (startSync cfg S w s (.put key val a))
  else some { s with pc := .deq }

/-- The list is linked and cleared. -/
def endSync (s : State A) : Cont A → Option (State A)
  | .put key val a => do
    return { s with store := ← initWChunk cfg S (clearMoved s.store w) w, pc := .append key val a }
  | .finish =>
    let t := clearMoved s.store w
    some { s with store := setWChunk t w { t.wChunk w with entryOffset := 0 }, pc := .returned }

def threadStep (s : State A) : Option (State A) :=
  match s.pc with
  | .peek => peek s
  | .put key val a => put cfg S w s key val a
  | .append key val a => some { s with store := appendEntry s.store w key val a, pc := .deq }
  | .sync [] cont => endSync cfg S w s cont
  | .sync (m :: ms) cont => do
    return { s with store := ← linkToAt cfg s.store m.chunkOffset m.entryOffset m.atEntry, pc := .sync ms cont }
  | .deq => some { s with queue := s.queue.tail, pc := if s.queue.tail = [] then .force else .peek }
  | .force => if (s.store.wChunk w).isInit then some (startSync cfg S w s .finish) else none
  | .returned => none

end Thread

/-! ## Other threads -/

/-- What other threads do to an address-table entry. An update or insert goes through
`op`, a slot of another log. -/
inductive Other (A : Type) where
  | insert (key val : ℕ) (a : A) (op : Ptr)
  | update (key val : ℕ) (a : A) (op : Ptr)
  | put (a : A)
  | link (a : A) (vsId chunk entry : ℕ)
  | gcLink (a : A) (vsId chunk entry : ℕ)

variable [DecidableEq A] (cfg : Config) (S : StdSort) (w : ℕ) (log : List Ptr)

def setEntry (s : State A) (a : A) (e : AtEntry) : State A :=
  { s with store := { s.store with table := Function.update s.store.table a e } }

def setOp (s : State A) (p : Ptr) (e : OpEntry A) : State A := { s with op := Function.update s.op p e }

/-- `unlink_to_at` for the past slot of an update, if it is in this store. -/
def unlinkPast (s : State A) (past : VsIdx) : State A :=
  if past.vsId = s.store.vsId ∧ 0 ≤ past.vsOffset then
    let offset := past.vsOffset.toNat
    { s with store := unlinkToAt cfg s.store (offset / cfg.entriesPerChunk) (offset % cfg.entriesPerChunk) }
  else s

/-- A put by another reclaim passes its own validation test, so the entry does not
point into this log. -/
def otherStep (s : State A) : Other A → Option (State A)
  | .insert key val a p =>
    if p ∈ log then none
    else some (setEntry (setOp s p ⟨key, val, some a⟩) a (linkToOl alloc p))
  | .update key val a p =>
    if p ∈ log then none
    else
      let r := linkToOlPast (s.store.table a) p
      some (unlinkPast cfg (setEntry (setOp s p ⟨key, val, some a⟩) a r.1) r.2)
  | .put a =>
    if ∃ p ∈ log, (s.store.table a).PointsTo p then none
    else some (setEntry s a (preAtEntry (s.store.table a)))
  | .link a vsId chunk entry =>
    some (((linkAtEntry cfg vsId chunk entry (s.store.table a)).map (setEntry s a)).getD s)
  | .gcLink a vsId chunk entry =>
    some (((gcLinkAtEntry cfg vsId chunk entry (s.store.table a)).map (setEntry s a)).getD s)

inductive Step (A : Type) where
  | thread
  | other (o : Other A)

def step (s : State A) : Step A → Option (State A)
  | .thread => threadStep cfg S w s
  | .other o => otherStep cfg log s o

/-! ## What is still to be done for an entry -/

variable {cfg S w log} {s s' : State A}

/-- `a` resolves into the log: it is not linked to a slot and points to an entry of the log. -/
def Resolves (log : List Ptr) (e : AtEntry) : Prop := ¬ e.Linked ∧ ∃ p ∈ log, e.PointsTo p

/-- The entries the loop has not dealt with. -/
def undrained (s : State A) : List Ptr :=
  match s.pc with
  | .deq => s.queue.tail
  | _ => s.queue

/-- The links still to be made. -/
def pending (w : ℕ) (s : State A) : List (MovedEntry A) :=
  match s.pc with
  | .sync ms _ => ms
  | _ => (s.store.wChunk w).movedEntryList

/-- The loop will still come to the update `a` points to, or the copy of it is pending. -/
def Covered (queue : List Ptr) (moved : List (MovedEntry A)) (op : Ptr → OpEntry A) (a : A) (e : AtEntry) : Prop :=
  (∃ p ∈ queue, e.PointsTo p ∧ (op p).opa = some a) ∨
    e.vsIdx.vsOffset ≠ newlyUpdatedVal ∧ some a ∈ moved.map MovedEntry.atEntry

/-- What the position of the thread says about the queue and the chunk. -/
def Pc.Agrees (cfg : Config) (w : ℕ) (s : State A) : Pc A → Prop
  | .peek => s.queue = [] → (s.store.wChunk w).movedEntryList = []
  | .put _ _ a => ∃ p rest, s.queue = p :: rest ∧ (s.op p).opa = some a
  | .append _ _ a => (∃ p rest, s.queue = p :: rest ∧ (s.op p).opa = some a) ∧
      (s.store.wChunk w).entryOffset < cfg.entriesPerChunk
  | .sync _ (.put _ _ a) => ∃ p rest, s.queue = p :: rest ∧ (s.op p).opa = some a
  | .sync _ .finish => s.queue = []
  | .force => s.queue = []
  | .deq => True
  | .returned => s.queue = [] ∧ (s.store.wChunk w).movedEntryList = []

structure Inv (cfg : Config) (w : ℕ) (log : List Ptr) (s : State A) : Prop where
  le : (s.store.wChunk w).entryOffset ≤ cfg.entriesPerChunk
  queue : ∀ p ∈ s.queue, p ∈ log
  agrees : s.pc.Agrees cfg w s
  covered : ∀ a, Resolves log (s.store.table a) → Covered (undrained s) (pending w s) s.op a (s.store.table a)

omit [DecidableEq A] in
theorem Inv.not_resolves (h : Inv cfg w log s) (hpc : s.pc = .returned) (a : A) :
    ¬ Resolves log (s.store.table a) := by
  intro hr
  have hag := h.agrees
  rw [hpc] at hag
  obtain ⟨hq, hm⟩ := hag
  rcases h.covered a hr with ⟨p, hp, -⟩ | ⟨-, hmem⟩
  · simp [undrained, hpc, hq] at hp
  · simp [pending, hpc, hm] at hmem

omit [DecidableEq A] in
theorem Inv.frame (h : Inv cfg w log s) (hpc : s'.pc = s.pc) (hq : s'.queue = s.queue)
    (hw : s'.store.wChunk w = s.store.wChunk w) (hop : ∀ p ∈ log, s'.op p = s.op p)
    (ht : ∀ a, Resolves log (s'.store.table a) → s'.store.table a = s.store.table a) : Inv cfg w log s' := by
  have hund : undrained s' = undrained s := by rw [undrained, undrained, hpc, hq]
  have hpend : pending w s' = pending w s := by rw [pending, pending, hpc, hw]
  have hsub : ∀ p ∈ undrained s, p ∈ log := by
    intro p hp
    refine h.queue p ?_
    unfold undrained at hp
    split at hp
    exacts [List.mem_of_mem_tail hp, hp]
  refine ⟨hw ▸ h.le, hq ▸ h.queue, ?_, fun a ha => ?_⟩
  · have hag := h.agrees
    have hhead : ∀ {a : A}, (∃ p rest, s.queue = p :: rest ∧ (s.op p).opa = some a) →
        ∃ p rest, s'.queue = p :: rest ∧ (s'.op p).opa = some a := by
      rintro a ⟨p, rest, hp, hopa⟩
      exact ⟨p, rest, hq.trans hp, by rwa [hop p (h.queue p (by simp [hp]))]⟩
    rw [hpc]
    cases hs : s.pc with
    | peek => simpa [Pc.Agrees, hs, hq, hw] using hag
    | put key val a => exact hhead (by simpa [Pc.Agrees, hs] using hag)
    | append key val a =>
      rw [hs] at hag
      exact ⟨hhead hag.1, hw ▸ hag.2⟩
    | sync ms cont =>
      rw [hs] at hag
      cases cont with
      | put key val a => exact hhead hag
      | finish => exact hq.trans hag
    | deq => trivial
    | force => simpa [Pc.Agrees, hs, hq] using hag
    | returned => simpa [Pc.Agrees, hs, hq, hw] using hag
  · have heq := ht a ha
    rw [heq] at ha
    rw [hund, hpend, heq]
    refine (h.covered a ha).imp (fun ⟨p, hp, hpt, hopa⟩ => ⟨p, hp, hpt, ?_⟩) id
    rwa [hop p (hsub p hp)]

/-! ## Steps of other threads -/

omit [DecidableEq A] in
theorem unlinkPast_frame (cfg : Config) (s : State A) (past : VsIdx) :
    (unlinkPast cfg s past).pc = s.pc ∧ (unlinkPast cfg s past).queue = s.queue ∧
      (unlinkPast cfg s past).store.wChunk = s.store.wChunk ∧ (unlinkPast cfg s past).op = s.op ∧
      (unlinkPast cfg s past).store.table = s.store.table := by
  unfold unlinkPast
  split
  · exact ⟨rfl, rfl, (unlinkToAt_gcFrame cfg _ _ _).wChunk, rfl, unlinkToAt_table _ _ _ _⟩
  · exact ⟨rfl, rfl, rfl, rfl, rfl⟩

theorem setEntry_ne {a : A} {e : AtEntry} (he : ¬ Resolves log e) (b : A) :
    Resolves log ((setEntry s a e).store.table b) → (setEntry s a e).store.table b = s.store.table b := by
  intro hr
  by_cases hab : b = a
  · subst hab
    simp [setEntry] at hr
    exact absurd hr he
  · simp [setEntry, hab]

theorem not_resolves_of_oplog {i : VsIdx} {p : Ptr} {t : ℕ} (hp : p ∉ log) :
    ¬ Resolves log ⟨i, putTaggedPtr p.addr t⟩ := by
  rintro ⟨-, q, hq, hpt⟩
  rw [pointsTo_putTaggedPtr] at hpt
  exact hp (hpt ▸ hq)

omit [DecidableEq A] in
theorem setOp_of_mem {p q : Ptr} {e : OpEntry A} (hp : p ∉ log) (hq : q ∈ log) :
    (setOp s p e).op q = s.op q :=
  Function.update_of_ne (fun h : q = p => hp (h ▸ hq)) _ _

theorem Inv.otherStep {o : Other A} (h : Inv cfg w log s) (hs : otherStep cfg log s o = some s') :
    Inv cfg w log s' := by
  cases o with
  | insert key val a p =>
    simp only [Reclaim.otherStep] at hs
    split at hs
    · cases hs
    · rename_i hp
      cases hs
      exact h.frame rfl rfl rfl (fun q hq => setOp_of_mem hp hq) (setEntry_ne (not_resolves_of_oplog hp))
  | update key val a p =>
    simp only [Reclaim.otherStep] at hs
    split at hs
    · cases hs
    · rename_i hp
      cases hs
      set s₁ := setEntry (setOp s p ⟨key, val, some a⟩) a (linkToOlPast (s.store.table a) p).1 with hs₁
      obtain ⟨hpc, hq, hw, hop, ht⟩ := unlinkPast_frame cfg s₁ (linkToOlPast (s.store.table a) p).2
      refine h.frame hpc hq (by rw [hw]; rfl) (fun q hq => by rw [hop]; exact setOp_of_mem hp hq) fun b => ?_
      rw [ht]
      exact setEntry_ne (not_resolves_of_oplog hp) b
  | put a =>
    simp only [Reclaim.otherStep] at hs
    split at hs
    · cases hs
    · rename_i hp
      cases hs
      exact h.frame rfl rfl rfl (fun _ _ => rfl) (setEntry_ne fun hr => hp hr.2)
  | link a vsId chunk entry =>
    simp only [Reclaim.otherStep] at hs
    cases hs
    cases hl : linkAtEntry cfg vsId chunk entry (s.store.table a) with
    | none => exact h
    | some e =>
      exact h.frame rfl rfl rfl (fun _ _ => rfl) (setEntry_ne fun hr => hr.1 (linkAtEntry_linked hl))
  | gcLink a vsId chunk entry =>
    simp only [Reclaim.otherStep] at hs
    cases hs
    cases hl : gcLinkAtEntry cfg vsId chunk entry (s.store.table a) with
    | none => exact h
    | some e =>
      refine h.frame rfl rfl rfl (fun _ _ => rfl) fun b hr => ?_
      by_cases hab : b = a
      · subst hab
        simp only [Option.map_some, Option.getD_some, setEntry, Function.update_self] at hr ⊢
        exact (relinked_gcLinkAtEntry hl).eq_of_not_linked hr.1
      · simp [setEntry, hab]

/-! ## Steps of the thread -/

omit [DecidableEq A] in
theorem Covered.tail {p : Ptr} {rest : List Ptr} {moved : List (MovedEntry A)} {op : Ptr → OpEntry A} {a b : A}
    {e : AtEntry} (hcov : Covered (p :: rest) moved op a e) (hopa : (op p).opa = some b)
    (hhead : a = b → ¬ e.PointsTo p) : Covered rest moved op a e := by
  rcases hcov with ⟨q, hmem, hpt, hqa⟩ | hmoved
  · rcases List.mem_cons.mp hmem with rfl | hmem
    · exact absurd hpt (hhead (Option.some.inj (hqa.symm.trans hopa)))
    · exact .inl ⟨q, hmem, hpt, hqa⟩
  · exact .inr hmoved

omit [DecidableEq A] in
theorem Inv.peek (h : Inv cfg w log s) (hpc : s.pc = .peek) (hs : peek s = some s') : Inv cfg w log s' := by
  have hag := h.agrees
  have hcov := h.covered
  simp only [undrained, pending, hpc] at hag hcov
  unfold Reclaim.peek at hs
  split at hs
  · rename_i hq
    cases hs
    exact ⟨h.le, h.queue, ⟨hq, hag hq⟩, hcov⟩
  · rename_i p rest hq
    split at hs
    · cases hs
    · rename_i a hopa
      split at hs
      · cases hs
        exact ⟨h.le, h.queue, ⟨p, rest, hq, hopa⟩, hcov⟩
      · rename_i hvalid
        cases hs
        refine ⟨h.le, h.queue, trivial, fun b hb => ?_⟩
        have hb' := hcov b hb
        rw [hq] at hb'
        simp only [undrained, hq, List.tail_cons]
        exact hb'.tail hopa fun hba => hba ▸ hvalid

theorem initWChunk_table (log : List Ptr) {t t' : Store A} (h : initWChunk cfg S t w = some t') :
    (t'.wChunk w).movedEntryList = (t.wChunk w).movedEntryList ∧ (t'.wChunk w).entryOffset = 0 ∧
      ∀ a, Resolves log (t'.table a) → t'.table a = t.table a := by
  obtain ⟨c, hw, -, ht⟩ := initWChunk_frame cfg S h
  have hself : t'.wChunk w = { t.wChunk w with isInit := true, chunkOffset := c, entryOffset := 0 } := by
    rw [hw, Function.update_self]
  exact ⟨by rw [hself], by rw [hself], fun a ha => (ht a).eq_of_not_linked ha.1⟩

omit [DecidableEq A] in
theorem Inv.startSync {cont : Cont A} (h : Inv cfg w log s) (hund : undrained s = s.queue)
    (hpend : pending w s = (s.store.wChunk w).movedEntryList)
    (hag : (Pc.sync [] cont).Agrees cfg w s) : Inv cfg w log (startSync cfg S w s cont) := by
  refine ⟨by simpa [Reclaim.startSync, writeChunk, sortWBuffer] using h.le, h.queue, ?_, fun a ha => ?_⟩
  · cases cont <;> exact hag
  · have hcov := h.covered a ha
    rw [hund, hpend] at hcov
    exact hcov.imp id fun hm => ⟨hm.1, (perm_sortMovedEntry S _).mem_iff.mpr hm.2⟩

theorem Inv.put {key val : ℕ} {a : A} (h : Inv cfg w log s) (hpc : s.pc = .put key val a)
    (hs : put cfg S w s key val a = some s') : Inv cfg w log s' := by
  have hund : undrained s = s.queue := by simp [undrained, hpc]
  have hpend : pending w s = (s.store.wChunk w).movedEntryList := by simp [pending, hpc]
  have hag := h.agrees
  have hcov := h.covered
  rw [hpc] at hag
  rw [hund, hpend] at hcov
  unfold Reclaim.put at hs
  split_ifs at hs with hz hlt hfull
  · obtain ⟨t, ht, hs⟩ := Option.bind_eq_some_iff.mp hs
    cases hs
    obtain ⟨hm, ho, htab⟩ := initWChunk_table log ht
    refine ⟨by simp [ho], h.queue, ⟨hag, by simpa [ho] using cfg.entries_pos⟩, fun b hb => ?_⟩
    have heq : t.table b = s.store.table b := htab b hb
    have hb' := hcov b (heq ▸ hb)
    rw [← hm, ← heq] at hb'
    exact hb'
  · cases hs
    exact ⟨h.le, h.queue, ⟨hag, hlt⟩, hcov⟩
  · cases hs
    exact h.startSync hund hpend hag
  · -- the offset of a chunk never exceeds its size
    exact absurd (Nat.lt_or_eq_of_le h.le) (by simp [hlt, hfull])

theorem Inv.append {key val : ℕ} {a : A} (h : Inv cfg w log s) (hpc : s.pc = .append key val a) :
    Inv cfg w log { s with store := appendEntry s.store w key val a, pc := .deq } := by
  have hag := h.agrees
  have hcov := h.covered
  simp only [undrained, pending, hpc] at hag hcov
  obtain ⟨⟨p, rest, hq, hopa⟩, hlt⟩ := hag
  refine ⟨by simp only [appendEntry, setWChunk_self]; exact hlt, h.queue, trivial, fun b hb => ?_⟩
  simp only [undrained, pending, hq, List.tail_cons, appendEntry, setWChunk_self, setWChunk_table,
    addMovedEntry] at hb ⊢
  by_cases hab : b = a
  · -- the new copy
    subst hab
    exact .inr ⟨by simp [preAtEntry, preValuestorageVal, newlyUpdatedVal], by simp⟩
  · rw [Function.update_of_ne hab] at hb ⊢
    have hb' := hcov b hb
    rw [hq] at hb'
    refine (hb'.tail hopa fun h => absurd h hab).imp id fun hm => ⟨hm.1, ?_⟩
    rw [List.map_append]
    exact List.mem_append_left _ hm.2

theorem Inv.endSync {cont : Cont A} (h : Inv cfg w log s) (hpc : s.pc = .sync [] cont)
    (hs : endSync cfg S w s cont = some s') : Inv cfg w log s' := by
  have hag := h.agrees
  have hcov := h.covered
  simp only [undrained, pending, hpc] at hag hcov
  have hnil : ∀ a, Resolves log (s.store.table a) → ∃ p ∈ s.queue,
    (s.store.table a).PointsTo p ∧ (s.op p).opa = some a :=
    fun a ha => (hcov a ha).resolve_right (by simp)
  cases cont with
  | put key val a =>
    obtain ⟨t, ht, hs⟩ := Option.bind_eq_some_iff.mp hs
    cases hs
    obtain ⟨hm, ho, htab⟩ := initWChunk_table log ht
    refine ⟨by simp [ho], h.queue, ⟨hag, by simpa [ho] using cfg.entries_pos⟩, fun b hb => ?_⟩
    have heq : t.table b = s.store.table b := htab b hb
    have hb' := hnil b (heq ▸ hb)
    rw [← heq] at hb'
    exact .inl hb'
  | finish =>
    cases hs
    refine ⟨by simp, h.queue, ⟨hag, by simp [clearMoved]⟩, fun b hb => ?_⟩
    exact .inl (hnil b hb)

/-- One link: the entry becomes linked, or it was updated and has left the log. -/
theorem Inv.link {m : MovedEntry A} {ms : List (MovedEntry A)} {cont : Cont A} {t : Store A}
    (h : Inv cfg w log s) (hpc : s.pc = .sync (m :: ms) cont)
    (hs : linkToAt cfg s.store m.chunkOffset m.entryOffset m.atEntry = some t) :
    Inv cfg w log { s with store := t, pc := .sync ms cont } := by
  have hag : (Pc.sync ms cont).Agrees cfg w s := by
    have := h.agrees
    rw [hpc] at this
    cases cont <;> exact this
  have hcov := h.covered
  simp only [undrained, pending, hpc, List.map_cons, List.mem_cons, Covered] at hcov
  cases hat : m.atEntry with
  | none => simp [hat, linkToAt] at hs
  | some a =>
    rw [hat] at hs hcov
    simp only [linkToAt] at hs
    split at hs
    · rename_i hskip
      cases hs
      have hoff : (s.store.table a).vsIdx.vsOffset = newlyUpdatedVal := by
        unfold linkAtEntry at hskip
        split at hskip
        · assumption
        · cases hskip
      refine ⟨h.le, h.queue, by cases cont <;> exact hag, fun b hb => ?_⟩
      refine (hcov b hb).imp id fun hm => ⟨hm.1, hm.2.resolve_left fun hba => hm.1 ?_⟩
      rw [Option.some.inj hba]
      exact hoff
    · rename_i e he
      cases hs
      refine ⟨h.le, h.queue, by cases cont <;> exact hag, fun b hb => ?_⟩
      simp only [setVsBitmapInfo] at hb ⊢
      by_cases hab : b = a
      · subst hab
        rw [Function.update_self] at hb
        exact absurd (linkAtEntry_linked he) hb.1
      · rw [Function.update_of_ne hab] at hb ⊢
        exact (hcov b hb).imp id fun hm => ⟨hm.1, hm.2.resolve_left fun hba => hab (Option.some.inj hba)⟩

theorem Inv.threadStep (h : Inv cfg w log s) (hs : threadStep cfg S w s = some s') : Inv cfg w log s' := by
  unfold Reclaim.threadStep at hs
  cases hpc : s.pc with
  | peek =>
    simp only [hpc] at hs
    exact h.peek hpc hs
  | put key val a =>
    simp only [hpc] at hs
    exact h.put hpc hs
  | append key val a =>
    simp only [hpc] at hs
    cases hs
    exact h.append hpc
  | sync ms cont =>
    cases ms with
    | nil =>
      simp only [hpc] at hs
      exact h.endSync hpc hs
    | cons m ms =>
      simp only [hpc] at hs
      obtain ⟨t, ht, hs⟩ := Option.bind_eq_some_iff.mp hs
      cases hs
      exact h.link hpc ht
  | deq =>
    simp only [hpc] at hs
    cases hs
    have hcov := h.covered
    simp only [undrained, pending, hpc] at hcov
    have hq : ∀ p ∈ s.queue.tail, p ∈ log := fun p hp => h.queue p (List.mem_of_mem_tail hp)
    by_cases htail : s.queue.tail = []
    · simp only [htail, if_true]
      rw [htail] at hcov
      exact ⟨h.le, by simp, rfl, hcov⟩
    · simp only [htail, if_false]
      exact ⟨h.le, hq, fun hnil => absurd hnil htail, hcov⟩
  | force =>
    simp only [hpc] at hs
    split at hs
    · cases hs
      refine h.startSync (by simp [undrained, hpc]) (by simp [pending, hpc]) ?_
      have := h.agrees
      rw [hpc] at this
      exact this
    · cases hs
  | returned => simp [hpc] at hs

theorem Inv.step {x : Step A} (h : Inv cfg w log s) (hs : step cfg S w log s x = some s') : Inv cfg w log s' := by
  cases x with
  | thread => exact h.threadStep hs
  | other o => exact h.otherStep hs

/-! ## The thread on its own -/

/-- The validation test and the put of one entry. -/
def reclaimEntry (cfg : Config) (S : StdSort) (w : ℕ) (e : OpEntry A) (p : Ptr) (t : Store A) : Option (Store A) :=
  e.opa.bind fun a => if (t.table a).PointsTo p then putVsEntry cfg S t w e.key e.val a else some t

/-- `OpLog::reclaim` without other threads: the loop over the entries of the log. -/
def reclaim (cfg : Config) (S : StdSort) (w : ℕ) (op : Ptr → OpEntry A) :
    List Ptr → Store A → Option (Store A)
  | [], t => some t
  | p :: rest, t => do
    let t ← reclaimEntry cfg S w (op p) p t
    if rest = [] then forcedWriteChunk cfg S t w else reclaim cfg S w op rest t

/-- Some number of uninterrupted steps of the thread leads from `s` to `s'`. -/
def Alone (cfg : Config) (S : StdSort) (w : ℕ) (log : List Ptr) (s s' : State A) : Prop :=
  ∃ k, run (step cfg S w log) s (List.replicate k .thread) = some s'

theorem Alone.refl (s : State A) : Alone cfg S w log s s := ⟨0, rfl⟩

theorem Alone.trans {s₁ s₂ s₃ : State A} (h : Alone cfg S w log s₁ s₂) (h' : Alone cfg S w log s₂ s₃) :
    Alone cfg S w log s₁ s₃ := by
  obtain ⟨k, hk⟩ := h
  obtain ⟨k', hk'⟩ := h'
  exact ⟨k + k', by rw [List.replicate_add, run_append hk, hk']⟩

theorem Alone.head {s₁ s₂ s₃ : State A} (hs : threadStep cfg S w s₁ = some s₂)
    (h : Alone cfg S w log s₂ s₃) : Alone cfg S w log s₁ s₃ := by
  obtain ⟨k, hk⟩ := h
  refine ⟨k + 1, ?_⟩
  rw [List.replicate_succ, run_cons (show step cfg S w log s₁ .thread = some s₂ from hs), hk]

theorem alone_links {ms : List (MovedEntry A)} {cont : Cont A} {t : Store A}
    (h : linkAll cfg s.store ms = some t) :
    Alone cfg S w log { s with pc := .sync ms cont } { s with store := t, pc := .sync [] cont } := by
  induction ms generalizing s with
  | nil =>
    cases h
    exact .refl _
  | cons m ms ih =>
    simp only [linkAll, Option.bind_eq_bind, Option.bind_eq_some_iff] at h
    obtain ⟨t₁, hm, hms⟩ := h
    exact .head (by simp only [threadStep, hm]; rfl) (ih (s := { s with store := t₁ }) hms)

theorem alone_flush (log : List Ptr) (s : State A) (cont : Cont A) {t : Store A}
    (h : flush cfg S s.store w = some t) : ∃ t₁, t = clearMoved t₁ w ∧
      Alone cfg S w log (startSync cfg S w s cont) { s with store := t₁, pc := .sync [] cont } := by
  simp only [flush, syncWithAt, Option.bind_eq_bind, Option.bind_eq_some_iff, writeChunk_moved] at h
  obtain ⟨t₁, hl, ht⟩ := h
  cases ht
  exact ⟨t₁, rfl, alone_links (s := { s with store := writeChunk cfg S s.store w }) hl⟩

theorem alone_append (s : State A) (key val : ℕ) (a : A) :
    Alone cfg S w log { s with pc := .append key val a }
      { s with store := appendEntry s.store w key val a, pc := .deq } :=
  .head rfl (.refl _)

theorem alone_put {key val : ℕ} {a : A} {t : Store A} (hpc : s.pc = .put key val a)
    (h : putVsEntry cfg S s.store w key val a = some t) :
    Alone cfg S w log s { s with store := t, pc := .deq } := by
  obtain ⟨store, op, queue, pc⟩ := s
  cases hpc
  by_cases hz : (store.wChunk w).entryOffset = 0
  · cases hi : initWChunk cfg S store w with
    | none => simp [putVsEntry, initWhenIdle, hz, hi] at h
    | some t₁ =>
      rw [putVsEntry_of_idle hz hi] at h
      cases h
      exact .head (by simp only [threadStep, put, hz, if_true, hi]; rfl)
        (alone_append ⟨t₁, op, queue, .peek⟩ key val a)
  · rcases lt_trichotomy (store.wChunk w).entryOffset cfg.entriesPerChunk with hlt | hfull | hgt
    · rw [putVsEntry_of_room hz hlt] at h
      cases h
      exact .head (by simp only [threadStep, put, hz, if_false, hlt, if_true])
        (alone_append ⟨store, op, queue, .peek⟩ key val a)
    · rw [putVsEntry_of_full hfull, Option.bind_eq_some_iff] at h
      obtain ⟨t₁, hf, h⟩ := h
      obtain ⟨t₂, hi, rfl⟩ := Option.map_eq_some_iff.mp h
      obtain ⟨t₃, rfl, hlinks⟩ := alone_flush log ⟨store, op, queue, .put key val a⟩ (.put key val a) hf
      refine .head ?_ (hlinks.trans (.head ?_ (alone_append ⟨t₂, op, queue, .peek⟩ key val a)))
      · simp [threadStep, put, hfull, cfg.entries_pos.ne']
      · simp only [threadStep, endSync, hi]
        rfl
    · have hidle : putVsEntry cfg S store w key val a = some store := by
        simp [putVsEntry, initWhenIdle, hz, putOpen, Nat.not_lt.mpr hgt.le, hgt.ne']
      cases h.symm.trans hidle
      exact .head (by simp [threadStep, put, hz, Nat.not_lt.mpr hgt.le, hgt.ne']) (.refl _)

theorem alone_force {t : Store A} (hpc : s.pc = .force) (h : forcedWriteChunk cfg S s.store w = some t) :
    Alone cfg S w log s { s with store := t, pc := .returned } := by
  obtain ⟨store, op, queue, pc⟩ := s
  cases hpc
  unfold forcedWriteChunk at h
  split at h
  · rename_i hinit
    obtain ⟨t₁, hf, h⟩ := Option.bind_eq_some_iff.mp h
    cases h
    obtain ⟨t₂, rfl, hlinks⟩ := alone_flush log ⟨store, op, queue, .force⟩ .finish hf
    have hstart : threadStep cfg S w ⟨store, op, queue, .force⟩ =
        some (startSync cfg S w ⟨store, op, queue, .force⟩ .finish) := if_pos hinit
    exact .head hstart (hlinks.trans (.head rfl (.refl _)))
  · cases h

theorem alone_entry {op : Ptr → OpEntry A} {p : Ptr} {t t' : Store A} (rest : List Ptr)
    (h : reclaimEntry cfg S w (op p) p t = some t') :
    Alone cfg S w log ⟨t, op, p :: rest, .peek⟩ ⟨t', op, p :: rest, .deq⟩ := by
  obtain ⟨a, hopa, h⟩ := Option.bind_eq_some_iff.mp h
  split at h
  · rename_i hvalid
    have hstep : threadStep cfg S w ⟨t, op, p :: rest, .peek⟩ =
        some ⟨t, op, p :: rest, .put (op p).key (op p).val a⟩ := by
      simp [threadStep, peek, hopa, hvalid]
    exact .head hstep (alone_put rfl h)
  · rename_i hvalid
    cases h
    have hstep : threadStep cfg S w ⟨t, op, p :: rest, .peek⟩ = some ⟨t, op, p :: rest, .deq⟩ := by
      simp [threadStep, peek, hopa, hvalid]
    exact .head hstep (.refl _)

theorem alone_reclaim {t : Store A} (hpc : s.pc = .peek)
    (h : reclaim cfg S w s.op s.queue s.store = some t) :
    Alone cfg S w log s { s with store := t, queue := [], pc := .returned } := by
  obtain ⟨store, op, queue, pc⟩ := s
  cases hpc
  simp only at h ⊢
  induction queue generalizing store with
  | nil =>
    cases h
    have hstep : threadStep cfg S w ⟨t, op, [], .peek⟩ = some ⟨t, op, [], .returned⟩ := rfl
    exact .head hstep (.refl _)
  | cons p rest ih =>
    obtain ⟨t₁, hput, hrest⟩ := Option.bind_eq_some_iff.mp h
    have hentry : Alone cfg S w log _ _ := alone_entry rest hput
    have hdeq : threadStep cfg S w ⟨t₁, op, p :: rest, .deq⟩ =
        some ⟨t₁, op, rest, if rest = [] then .force else .peek⟩ := rfl
    refine hentry.trans (.head hdeq ?_)
    by_cases hnil : rest = []
    · subst hnil
      exact alone_force rfl (by simpa using hrest)
    · rw [if_neg hnil] at hrest ⊢
      exact ih t₁ hrest

/-! ## Every run -/

/-- A reclaim about to run: the chunk is idle, and an entry that resolves into the log
is named by the update it points to, which is in the queue. -/
structure Starting (w : ℕ) (log : List Ptr) (s : State A) : Prop where
  pc : s.pc = .peek
  entryOffset : (s.store.wChunk w).entryOffset = 0
  moved : (s.store.wChunk w).movedEntryList = []
  queue : ∀ p ∈ s.queue, p ∈ log
  named : ∀ a, Resolves log (s.store.table a) →
    ∃ p ∈ s.queue, (s.store.table a).PointsTo p ∧ (s.op p).opa = some a

omit [DecidableEq A] in
theorem Starting.inv (h : Starting w log s) : Inv cfg w log s where
  le := by simp [h.entryOffset]
  queue := h.queue
  agrees := by
    rw [h.pc]
    exact fun _ => h.moved
  covered a ha := by
    simp only [undrained, h.pc]
    exact .inl (h.named a ha)

/-- In every run of a reclaim among other threads, once it has returned, no entry of
the address table resolves into its log. -/
theorem run_returned_not_oplog (cfg : Config) (S : StdSort) (w : ℕ) (log : List Ptr) (s₀ s : State A)
    (steps : List (Step A)) (hstart : Starting w log s₀) (hrun : run (step cfg S w log) s₀ steps = some s)
    (hret : s.pc = .returned) (a : A) (p : Ptr) (hp : p ∈ log) :
    ¬ (getValPos (s.store.table a) = some .oplog ∧ getUntaggedPtr (s.store.table a).valAddr = p.addr) := by
  have hinv : Inv cfg w log s := run_induction_of_step (fun _ _ _ h hs => Inv.step h hs) hstart.inv hrun
  rintro ⟨hpos, haddr⟩
  exact hinv.not_resolves hret a ⟨((getValPos_eq_oplog_iff _).mp hpos).1, p, hp, haddr⟩

/-- Chunks of two entries. -/
def twoSlots : Config := ⟨2, 8, Nat.two_pos⟩

attribute [local instance] oplogNum_neZero entryNum_neZero

/-- Three updates wait in a log. -/
def threeUpdates : State ℕ where
  store := { freshStore twoSlots with
    table := fun a => if a < 3 then linkToOl alloc (entryPtr (Fin.ofNat _ a)) else alloc }
  op p := if p = entryPtr 0 then ⟨10, 100, some 0⟩ else if p = entryPtr 1 then ⟨11, 110, some 1⟩
    else ⟨12, 120, some 2⟩
  queue := [entryPtr 0, entryPtr 1, entryPtr 2]
  pc := .peek

theorem threeUpdates_starting : Starting 0 [entryPtr 0, entryPtr 1, entryPtr 2] threeUpdates where
  pc := rfl
  entryOffset := rfl
  moved := rfl
  queue p hp := hp
  named a ha := by
    obtain ⟨-, p, hp, hpt⟩ := ha
    refine ⟨p, hp, hpt, ?_⟩
    by_cases hlt : a < 3
    · have hq : entryPtr (Fin.ofNat _ a) = p := by
        simpa [threeUpdates, hlt, linkToOl] using hpt
      subst hq
      interval_cases a <;> decide +kernel
    · have hnull : ∀ p ∈ [entryPtr 0, entryPtr 1, entryPtr 2], ¬ alloc.PointsTo p := by decide +kernel
      simp only [threeUpdates, if_neg hlt] at hpt
      exact absurd hpt (hnull p hp)

/-- The second update is overtaken while its chunk is being linked. -/
def overtaken : List (Step ℕ) :=
  List.replicate 11 .thread ++ [.other (.update 11 111 1 (entryPtr 9))] ++ List.replicate 7 .thread

theorem run_returned_not_oplog_overtaken : ∃ s,
    run (step twoSlots insertion 0 [entryPtr 0, entryPtr 1, entryPtr 2]) threeUpdates overtaken = some s ∧
      s.pc = .returned ∧ ¬ (getValPos (s.store.table 2) = some .oplog ∧
        getUntaggedPtr (s.store.table 2).valAddr = (entryPtr 2).addr) := by
  have hrun : (run (step twoSlots insertion 0 [entryPtr 0, entryPtr 1, entryPtr 2]) threeUpdates overtaken).map
      State.pc = some .returned := by decide +kernel
  obtain ⟨s, hs, hpc⟩ := Option.map_eq_some_iff.mp hrun
  exact ⟨s, hs, hpc, run_returned_not_oplog twoSlots insertion 0 _ threeUpdates s overtaken threeUpdates_starting
    hs hpc 2 (entryPtr 2) (by simp)⟩

end Hkv.Reclaim
