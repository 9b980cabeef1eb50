import Hkv.PersistentMemory
import Hkv.MtsImpl

/-!
# Acknowledged writes and crashes

`insert` and `update` fill a log entry, link it to its `at_entry` and point the `at_entry`
to it. The flush of `oplog_enq` is given the address of the local variable that holds the
pointer, so that key and value of the entry are stored and not flushed; everything else is
written by `pmem_memcpy`.

Any number of threads run these programs, one store or flush at a time. Which slot and
which `at_entry` a program gets is left open: a slot that is not in use, an `at_entry`
without a key for an insert, and that of the key for an update. The rest of the store may
do to the memory what it likes, except to entries in use.
-/
namespace Hkv.LogDurability
open MtsConfig TaggedPointer AddressTable PersistentMemory StepRun Prism Mts

/-- The persistent fields of `op_entry_t`, `at_entry_t` and `ts_nvlog_store_t`. -/
inductive Cell where
  | opKey (p : Ptr)
  | opVal (p : Ptr)
  | opOpa (p : Ptr)
  | opSize (p : Ptr)
  | atVal (a : AtId)
  | atIdx (a : AtId)
  | tailCnt (l : LogId)
  deriving DecidableEq

abbrev Cell.type : Cell → Type
  | .opKey _ => ℕ
  | .opVal _ => ℕ
  | .opOpa _ => Option AtId
  | .opSize _ => ℕ
  | .atVal _ => Word
  | .atIdx _ => VsIdx
  | .tailCnt _ => ℕ

abbrev Mem := Pmem Cell Cell.type
abbrev MemAct := Act Cell Cell.type
abbrev Image := ∀ c : Cell, c.type

/-- A write of a value to a key, with the entries it uses. -/
structure Write where
  entry : AtId
  slot : Ptr
  key : ℕ
  val : ℕ
  deriving DecidableEq

inductive Kind where
  | insert | update
  deriving DecidableEq

/-! ## Programs -/

/-- `oplog_enq` with `nvlog_enq` and `oplog_enq_persist`. The flush covers the stack slot
of `op_entry`. -/
def enqActs (l : LogId) (tail : ℕ) (w : Write) : List MemAct :=
  [.store (.opSize w.slot) kvSize, .store (.opKey w.slot) w.key, .store (.opVal w.slot) w.val, .persist [],
    .store (.tailCnt l) tail]

/-- `put_at_entry` of `AddressTable::assign` -/
def assignActs (a : AtId) : List MemAct :=
  [.store (.atIdx a) alloc.vsIdx, .store (.atVal a) alloc.valAddr, .persist [.atIdx a, .atVal a]]

/-- `OpLog::link_to_at` -/
def linkToAtActs (w : Write) : List MemAct := [.store (.opOpa w.slot) (some w.entry), .persist [.opOpa w.slot]]

/-- The value that `link_to_ol` stores into `val_addr`. -/
def Write.link (w : Write) : Word := putTaggedPtr w.slot.addr oplogVal

/-- A program up to the store of `val_addr`. The copy of an update writes `vs_idx` first. -/
def before (l : LogId) (tail : ℕ) (w : Write) : Kind → List MemAct
  | .insert => enqActs l tail w ++ assignActs w.entry ++ linkToAtActs w
  | .update => enqActs l tail w ++ linkToAtActs w ++ [.store (.atIdx w.entry) ⟨-1, -1⟩]

/-- The flush of `link_to_ol`. -/
def after (w : Write) : Kind → MemAct
  | .insert => .persist [.atVal w.entry]
  | .update => .persist [.atIdx w.entry, .atVal w.entry]

/-- A whole program. -/
def program (l : LogId) (tail : ℕ) (w : Write) (kind : Kind) : List MemAct :=
  before l tail w kind ++ [.store (.atVal w.entry) w.link, after w kind]

/-- The entries as a memory has them. -/
def entryOf (img : Image) (a : AtId) : AtEntry := ⟨img (.atIdx a), img (.atVal a)⟩

def opOf (img : Image) (p : Ptr) : OpEntry AtId := ⟨img (.opKey p), img (.opVal p), img (.opOpa p)⟩

theorem read_program (m : Mem) (l : LogId) (tail : ℕ) (w : Write) (kind : Kind) :
    entryOf (m.run (program l tail w kind)).read w.entry = (match kind with
      | .insert => linkToOl alloc w.slot
      | .update => (linkToOlPast (entryOf m.read w.entry) w.slot).1) ∧
    opOf (m.run (program l tail w kind)).read w.slot = ⟨w.key, w.val, some w.entry⟩ := by
  cases kind <;>
    simp [program, before, after, enqActs, assignActs, linkToAtActs, entryOf, opOf, Pmem.read_store_of_ne, linkToOl,
      linkToOlPast, Write.link, alloc]

/-- Where a program is: before the store of `val_addr`, with the rest up to it; behind it;
behind its flush. -/
inductive Stage where
  | storing (todo : List MemAct)
  | linked
  | flushed

def Stage.Linked : Stage → Prop
  | .storing _ => False
  | _ => True

structure Running where
  write : Write
  kind : Kind
  stage : Stage

/-- The state of memory and threads. The last four fields are a record of what happened;
only the side conditions of the steps read them. -/
structure State (T : Type) where
  mem : Mem
  pc : T → Option Running
  /-- The newest write to an entry that has returned and whose slot is not reclaimed. -/
  last : AtId → Option Write
  /-- The writes linked after that one, newest first. -/
  later : AtId → List Write
  keys : AtId → Option ℕ
  inUse : Ptr → Bool

inductive Step (T : Type) where
  /-- A call of `insert` or `update` by a thread; `l` and `tail` are its log and the tail counter. -/
  | begin (t : T) (kind : Kind) (l : LogId) (tail : ℕ) (w : Write)
  | advance (t : T)
  | reclaim (p : Ptr)
  /-- `remove` -/
  | forget (a : AtId)
  /-- Anything else that writes or flushes memory. -/
  | other (act : MemAct)

namespace State
variable {T : Type} [Fintype T] [DecidableEq T]

def setPc (s : State T) (t : T) (r : Option Running) : State T := { s with pc := Function.update s.pc t r }

/-- No program is at work on the entry. -/
def Quiet (s : State T) (a : AtId) : Prop := ∀ t, ∀ r ∈ s.pc t, r.write.entry ≠ a

instance (s : State T) (a : AtId) : Decidable (s.Quiet a) := by unfold Quiet; infer_instance

/-- The `at_entry` that `assign` or the key index yields. -/
def Yields (s : State T) (w : Write) : Kind → Prop
  | .insert => s.keys w.entry = none ∧ s.Quiet w.entry
  | .update => s.keys w.entry = some w.key

instance (s : State T) (w : Write) (kind : Kind) : Decidable (s.Yields w kind) := by
  cases kind <;> unfold Yields <;> infer_instance

def begin (s : State T) (t : T) (kind : Kind) (l : LogId) (tail : ℕ) (w : Write) : Option (State T) :=
  if s.pc t = none ∧ s.inUse w.slot = false ∧ s.Yields w kind then
    some { s.setPc t (some ⟨w, kind, .storing (before l tail w kind)⟩) with
      inUse := Function.update s.inUse w.slot true }
  else none

/-- The store of `val_addr`. -/
def link (s : State T) (t : T) (r : Running) : State T :=
  { s.setPc t (some { r with stage := .linked }) with
    mem := s.mem.exec (.store (.atVal r.write.entry) r.write.link)
    later := Function.update s.later r.write.entry (r.write :: s.later r.write.entry) }

/-- The return of a program. Writes linked before this one are history. -/
def finish (s : State T) (t : T) (r : Running) : State T :=
  let a := r.write.entry
  let s : State T := { s.setPc t none with keys := Function.update s.keys a (some r.write.key) }
  if r.write ∈ s.later a then
    { s with
      last := Function.update s.last a (some r.write)
      later := Function.update s.later a ((s.later a).takeWhile (· ≠ r.write)) }
  else s

def advance (s : State T) (t : T) : Option (State T) :=
  (s.pc t).map fun r => match r.stage with
    | .storing [] => s.link t r
    | .storing (act :: todo) => { s.setPc t (some { r with stage := .storing todo }) with mem := s.mem.exec act }
    | .linked => { s.setPc t (some { r with stage := .flushed }) with mem := s.mem.exec (after r.write r.kind) }
    | .flushed => s.finish t r

/-- `OpLog::reclaim` of one entry: its value has been moved to a value storage. -/
def reclaim (s : State T) (p : Ptr) : Option (State T) :=
  if ∀ t, ∀ r ∈ s.pc t, r.write.slot ≠ p then
    some { s with
      last := fun a => (s.last a).filter fun w => w.slot ≠ p
      inUse := Function.update s.inUse p false }
  else none

def forget (s : State T) (a : AtId) : Option (State T) :=
  if s.Quiet a then
    some { s with last := Function.update s.last a none, keys := Function.update s.keys a none }
  else none

/-- What the rest of the store may write to. -/
def Free (s : State T) : Cell → Prop
  | .opKey p => s.inUse p = false
  | .opVal p => s.inUse p = false
  | .atVal a => s.last a = none ∧ s.Quiet a
  | _ => True

instance (s : State T) (c : Cell) : Decidable (s.Free c) := by cases c <;> unfold Free <;> infer_instance

def step (s : State T) : Step T → Option (State T)
  | .begin t kind l tail w => s.begin t kind l tail w
  | .advance t => s.advance t
  | .reclaim p => s.reclaim p
  | .forget a => s.forget a
  | .other act => if ∀ c ∈ act.target, s.Free c then some { s with mem := s.mem.exec act } else none

end State

/-! ## Durability -/

/-- The log entry of the write has its key and value. -/
def Write.HeldBy (w : Write) (img : Image) : Prop := img (.opKey w.slot) = w.key ∧ img (.opVal w.slot) = w.val

/-- No crash loses key or value. -/
def Safe (m : Mem) (w : Write) : Prop := ∀ img, m.Image img → w.HeldBy img

/-- Whatever a crash leaves, the `at_entry` of a write that has returned designates a log
entry that holds the write, or one of the same key that was linked later. -/
def State.Durable {T : Type} (s : State T) : Prop :=
  ∀ a w, s.last a = some w → ∀ img, s.mem.Image img →
    ∃ w' ∈ s.later a ++ [w], w'.key = w.key ∧ img (.atVal a) = w'.link ∧ w'.HeldBy img

/-! ## The invariant -/

/-- Stores before the link go to the log entry of the write or, in an insert, to its
`at_entry`. -/
def Own (w : Write) (kind : Kind) : Cell → Prop
  | .opKey p => p = w.slot
  | .opVal p => p = w.slot
  | .atVal a => a = w.entry ∧ kind = .insert
  | _ => True

theorem before_own {l : LogId} {tail : ℕ} {w : Write} {kind : Kind} {act : MemAct}
    (h : act ∈ before l tail w kind) : ∀ c ∈ act.target, Own w kind c := by
  cases kind <;>
    simp only [before, enqActs, assignActs, linkToAtActs, List.cons_append, List.nil_append, List.mem_cons,
      List.not_mem_nil, or_false] at h <;>
    rcases h with rfl | rfl | rfl | rfl | rfl | rfl | rfl | rfl | rfl | rfl <;>
    simp [Act.target, Own]

variable {T : Type} {s : State T}

/-- The writes that the entry may designate after a crash, newest first. -/
def State.candidates (s : State T) (a : AtId) : List Write := s.later a ++ (s.last a).toList

/-- What holds of the threads, the slots and the keys. -/
structure State.Wf (s : State T) : Prop where
  used : ∀ t r, s.pc t = some r → s.inUse r.write.slot = true
  last_used : ∀ a w, s.last a = some w → s.inUse w.slot = true
  slot_inj : ∀ t r t' r', s.pc t = some r → s.pc t' = some r' → r.write.slot = r'.write.slot → t = t'
  apart : ∀ t r a w, s.pc t = some r → s.last a = some w → w.slot ≠ r.write.slot
  later : ∀ a, ∀ w ∈ s.later a, w.entry = a ∧ ∃ t r, s.pc t = some r ∧ r.write = w ∧ r.stage.Linked
  nodup : ∀ a, (s.later a).Nodup
  last : ∀ a w, s.last a = some w → w.entry = a ∧ s.keys a = some w.key
  insert : ∀ t r, s.pc t = some r → r.kind = .insert → s.keys r.write.entry = none ∧
    ∀ t' r', s.pc t' = some r' → r'.write.entry = r.write.entry → t' = t
  update : ∀ t r, s.pc t = some r → r.kind = .update → s.keys r.write.entry = some r.write.key
  own : ∀ t r todo, s.pc t = some r → r.stage = .storing todo → ∀ act ∈ todo, ∀ c ∈ act.target,
    Own r.write r.kind c

/-- What holds of the memory. -/
structure State.Kept (s : State T) : Prop where
  safe : ∀ a, ∀ w ∈ s.candidates a, Safe s.mem w
  /-- Only candidates are possible. -/
  points : ∀ a w, s.last a = some w → ∀ x ∈ s.mem.possible (.atVal a), ∃ w' ∈ s.candidates a, x = w'.link
  newest : ∀ a, ∀ w ∈ (s.candidates a).head?, s.mem.read (.atVal a) = w.link
  /-- After its flush, nothing older than a write is possible. -/
  flushed : ∀ t r, s.pc t = some r → r.stage = .flushed → ∀ newer older,
    s.later r.write.entry = newer ++ r.write :: older →
    ∀ x ∈ s.mem.possible (.atVal r.write.entry), ∃ w' ∈ newer ++ [r.write], x = w'.link

theorem safe_iff {m : Mem} {w : Write} : Safe m w ↔
    (∀ x ∈ m.possible (.opKey w.slot), x = w.key) ∧ ∀ x ∈ m.possible (.opVal w.slot), x = w.val := by
  constructor
  · intro h
    refine ⟨fun x hx => ?_, fun x hx => ?_⟩
    · obtain ⟨img, himg, rfl⟩ := Pmem.exists_image_eq hx
      exact (h img himg).1
    · obtain ⟨img, himg, rfl⟩ := Pmem.exists_image_eq hx
      exact (h img himg).2
  · rintro ⟨hk, hv⟩ img himg
    exact ⟨hk _ (Pmem.image_iff.mp himg _), hv _ (Pmem.image_iff.mp himg _)⟩

/-- The cells whose contents the invariant speaks of. -/
def State.Guarded (s : State T) : Cell → Prop
  | .opKey p => ∃ a, ∃ w ∈ s.candidates a, w.slot = p
  | .opVal p => ∃ a, ∃ w ∈ s.candidates a, w.slot = p
  | .atVal a => s.candidates a ≠ []
  | _ => False

theorem State.Wf.durable (hw : s.Wf) (h : s.Kept) : s.Durable := by
  intro a w hlast img himg
  have hcand : s.candidates a = s.later a ++ [w] := by rw [candidates, hlast]; rfl
  obtain ⟨w', hmem, hx⟩ := h.points a w hlast _ (Pmem.image_iff.mp himg (.atVal a))
  refine ⟨w', hcand ▸ hmem, ?_, hx, h.safe a w' hmem img himg⟩
  rw [hcand] at hmem
  rcases List.mem_append.mp hmem with hmem | hmem
  · obtain ⟨rfl, t, r, hpc, rfl, -⟩ := hw.later a w' hmem
    have hkey := (hw.last _ w hlast).2
    cases hkind : r.kind with
    | insert => exact absurd (hw.insert t r hpc hkind).1 (by simp [hkey])
    | update => exact Option.some.inj ((hw.update t r hpc hkind).symm.trans hkey)
  · rw [List.mem_singleton.mp hmem]

theorem State.Kept.of_mem (h : s.Kept) {m : Mem} (hpos : ∀ c, s.Guarded c → m.possible c ⊆ s.mem.possible c)
    (hread : ∀ c, s.Guarded c → m.read c = s.mem.read c) : ({ s with mem := m } : State T).Kept := by
  refine ⟨fun a w hw => ?_, fun a w hlast x hx => ?_, fun a w hw => ?_, fun t r hpc hst newer older hl x hx => ?_⟩
  · obtain ⟨hk, hv⟩ := safe_iff.mp (h.safe a w hw)
    have hguard : ∃ a, ∃ w' ∈ s.candidates a, w'.slot = w.slot := ⟨a, w, hw, rfl⟩
    exact safe_iff.mpr
      ⟨fun x hx => hk x (hpos (.opKey w.slot) hguard hx), fun x hx => hv x (hpos (.opVal w.slot) hguard hx)⟩
  · have hlast' : s.last a = some w := hlast
    have hne : s.candidates a ≠ [] := by simp [candidates, hlast']
    exact h.points a w hlast x (hpos (.atVal a) hne hx)
  · have hne : s.candidates a ≠ [] := List.ne_nil_of_mem (List.mem_of_mem_head? hw)
    exact (hread (.atVal a) hne).trans (h.newest a w hw)
  · have hl' : s.later r.write.entry = newer ++ r.write :: older := hl
    have hne : s.candidates r.write.entry ≠ [] := by simp [candidates, hl']
    exact h.flushed t r hpc hst newer older hl x (hpos (.atVal r.write.entry) hne hx)

theorem State.Kept.exec (h : s.Kept) {act : MemAct} (hfree : ∀ c ∈ act.target, ¬s.Guarded c) :
    ({ s with mem := s.mem.exec act } : State T).Kept :=
  h.of_mem (fun _ hc => Pmem.possible_exec_subset fun he => hfree _ he hc)
    fun _ hc => Pmem.read_exec_of_ne fun he => hfree _ he hc

/-! ## Steps -/

section Steps
variable {t : T} {r : Running}

theorem State.Wf.not_mem_later (hw : s.Wf) (hpc : s.pc t = some r) (hst : ¬r.stage.Linked) :
    r.write ∉ s.later r.write.entry := by
  intro hm
  obtain ⟨-, t', r', hpc', he, hlinked⟩ := hw.later _ _ hm
  obtain rfl := hw.slot_inj t r t' r' hpc hpc' (by rw [he])
  cases hpc.symm.trans hpc'
  exact hst hlinked

theorem State.Wf.slot_ne (hw : s.Wf) (hpc : s.pc t = some r) (hst : ¬r.stage.Linked) {a : AtId} {w : Write}
    (hm : w ∈ s.candidates a) : w.slot ≠ r.write.slot := by
  rcases List.mem_append.mp hm with hm | hm
  · obtain ⟨-, t', r', hpc', rfl, hlinked⟩ := hw.later a w hm
    intro he
    obtain rfl := hw.slot_inj t' r' t r hpc' hpc he
    cases hpc.symm.trans hpc'
    exact hst hlinked
  · exact hw.apart t r a w hpc (by simpa using hm)

theorem State.Wf.insert_candidates (hw : s.Wf) (hpc : s.pc t = some r) (hst : ¬r.stage.Linked)
    (hkind : r.kind = .insert) : s.candidates r.write.entry = [] := by
  obtain ⟨hnone, hall⟩ := hw.insert t r hpc hkind
  refine List.eq_nil_iff_forall_not_mem.mpr fun w hm => ?_
  rcases List.mem_append.mp hm with hm | hm
  · obtain ⟨he, t', r', hpc', rfl, hlinked⟩ := hw.later _ w hm
    obtain rfl := hall t' r' hpc' he
    cases hpc.symm.trans hpc'
    exact hst hlinked
  · have hkey := (hw.last _ w (by simpa using hm)).2
    rw [hnone] at hkey
    cases hkey

theorem State.Wf.own_free (hw : s.Wf) (hpc : s.pc t = some r) (hst : ¬r.stage.Linked) {c : Cell}
    (hc : Own r.write r.kind c) : ¬s.Guarded c := by
  cases c with
  | opKey p =>
    rintro ⟨a, w, hm, he⟩
    exact hw.slot_ne hpc hst hm (he.trans hc)
  | opVal p =>
    rintro ⟨a, w, hm, he⟩
    exact hw.slot_ne hpc hst hm (he.trans hc)
  | atVal a =>
    obtain ⟨rfl, hkind⟩ := hc
    exact fun hne => hne (hw.insert_candidates hpc hst hkind)
  | _ => exact id

theorem State.Wf.free_not_guarded (hw : s.Wf) {c : Cell} (hc : s.Free c) : ¬s.Guarded c := by
  have hused : ∀ {a w}, w ∈ s.candidates a → s.inUse w.slot = true := fun {a w} hm => by
    rcases List.mem_append.mp hm with hm | hm
    · obtain ⟨-, t, r, hpc, rfl, -⟩ := hw.later a w hm
      exact hw.used t r hpc
    · exact hw.last_used a w (by simpa using hm)
  have hslot : ∀ {p}, s.inUse p = false → ¬∃ a, ∃ w ∈ s.candidates a, w.slot = p := by
    rintro p hp ⟨a, w, hm, rfl⟩
    rw [hused hm] at hp
    cases hp
  cases c with
  | opKey p => exact hslot hc
  | opVal p => exact hslot hc
  | atVal a =>
    obtain ⟨hlast, hquiet⟩ := hc
    refine fun hne => hne (List.eq_nil_iff_forall_not_mem.mpr fun w hm => ?_)
    rcases List.mem_append.mp hm with hm | hm
    · obtain ⟨he, t, r, hpc, rfl, -⟩ := hw.later a w hm
      exact hquiet t r hpc he
    · simp [hlast] at hm
  | _ => exact id

theorem State.Wf.drop (hw : s.Wf) {last : AtId → Option Write} {keys : AtId → Option ℕ} {inUse : Ptr → Bool}
    (hlast : ∀ a w, last a = some w → s.last a = some w ∧ keys a = s.keys a ∧ inUse w.slot = s.inUse w.slot)
    (hpc : ∀ t r, s.pc t = some r → keys r.write.entry = s.keys r.write.entry ∧
      inUse r.write.slot = s.inUse r.write.slot) :
    ({ s with last := last, keys := keys, inUse := inUse } : State T).Wf := by
  refine ⟨fun t r h => (hpc t r h).2.trans (hw.used t r h), fun a w h => ?_, hw.slot_inj,
    fun t r a w h hl => hw.apart t r a w h (hlast a w hl).1, hw.later, hw.nodup, fun a w h => ?_, fun t r h hk => ?_,
    fun t r h hk => (hpc t r h).1.trans (hw.update t r h hk), hw.own⟩
  · obtain ⟨h, -, huse⟩ := hlast a w h
    exact huse.trans (hw.last_used a w h)
  · obtain ⟨h, hkeys, -⟩ := hlast a w h
    exact ⟨(hw.last a w h).1, hkeys.trans (hw.last a w h).2⟩
  · exact ⟨(hpc t r h).1.trans (hw.insert t r h hk).1, (hw.insert t r h hk).2⟩

theorem State.Kept.drop (h : s.Kept) {last : AtId → Option Write} {keys : AtId → Option ℕ}
    {inUse : Ptr → Bool} (hlast : ∀ a w, last a = some w → s.last a = some w) :
    ({ s with last := last, keys := keys, inUse := inUse } : State T).Kept := by
  have hcand : ∀ a, s.candidates a = s.later a ++ (last a).toList ∨ last a = none := fun a => by
    cases hl : last a with
    | none => exact .inr rfl
    | some w => exact .inl (by rw [candidates, hlast a w hl])
  refine ⟨fun a w hm => ?_, fun a w hl => ?_, fun a w hm => ?_, h.flushed⟩
  · rcases hcand a with he | he
    · exact h.safe a w (by rw [he]; exact hm)
    · have hm' : w ∈ s.later a ++ (last a).toList := hm
      rw [he] at hm'
      exact h.safe a w (List.mem_append_left _ (by simpa using hm'))
  · have he := (hcand a).resolve_right fun he => by cases he.symm.trans hl
    show ∀ x ∈ s.mem.possible (.atVal a), ∃ w' ∈ s.later a ++ (last a).toList, x = w'.link
    rw [← he]
    exact h.points a w (hlast a w hl)
  · refine h.newest a w ?_
    have hm' : w ∈ (s.later a ++ (last a).toList).head? := hm
    rcases hcand a with he | he
    · rwa [he]
    · rw [he] at hm'
      rw [candidates, List.head?_append]
      have : (s.later a).head? = some w := by simpa using hm'
      rw [this]
      rfl

variable [DecidableEq T] {s' : State T}

theorem setPc_some {q : Option Running} {t₁ : T} {r₁ : Running} (h : (s.setPc t q).pc t₁ = some r₁) :
    t₁ = t ∧ q = some r₁ ∨ t₁ ≠ t ∧ s.pc t₁ = some r₁ := by
  by_cases ht : t₁ = t
  · subst ht
    exact .inl ⟨rfl, by simpa [State.setPc] using h⟩
  · exact .inr ⟨ht, by simpa [State.setPc, ht] using h⟩

theorem State.Wf.setStage (hw : s.Wf) (hpc : s.pc t = some r) (st : Stage) (hlinked : r.stage.Linked → st.Linked)
    (hown : ∀ todo, st = .storing todo → ∀ act ∈ todo, ∀ c ∈ act.target, Own r.write r.kind c) :
    (s.setPc t (some { r with stage := st })).Wf := by
  have hold : ∀ {t₁ r₁}, (s.setPc t (some { r with stage := st })).pc t₁ = some r₁ →
      ∃ r₀, s.pc t₁ = some r₀ ∧ r₁.write = r₀.write ∧ r₁.kind = r₀.kind := fun h => by
    rcases setPc_some h with ⟨rfl, he⟩ | ⟨-, h⟩
    · exact ⟨r, hpc, Option.some.inj he ▸ rfl, Option.some.inj he ▸ rfl⟩
    · exact ⟨_, h, rfl, rfl⟩
  refine ⟨fun t₁ r₁ h₁ => ?_, hw.last_used, fun t₁ r₁ t₂ r₂ h₁ h₂ => ?_,
    fun t₁ r₁ a w h₁ hl => ?_, fun a w hm => ?_,
    hw.nodup, hw.last, fun t₁ r₁ h₁ hk => ?_, fun t₁ r₁ h₁ hk => ?_, fun t₁ r₁ todo h₁ hst => ?_⟩
  · obtain ⟨r₀, h₀, he, -⟩ := hold h₁
    rw [he]
    exact hw.used t₁ r₀ h₀
  · obtain ⟨r₁', h₁', he₁, -⟩ := hold h₁
    obtain ⟨r₂', h₂', he₂, -⟩ := hold h₂
    rw [he₁, he₂]
    exact hw.slot_inj t₁ r₁' t₂ r₂' h₁' h₂'
  · obtain ⟨r₀, h₀, he, -⟩ := hold h₁
    rw [he]
    exact hw.apart t₁ r₀ a w h₀ hl
  · obtain ⟨ha, t₁, r₁, h₁, he, hst⟩ := hw.later a w hm
    refine ⟨ha, ?_⟩
    by_cases ht : t₁ = t
    · subst ht
      obtain rfl := Option.some.inj (hpc.symm.trans h₁)
      exact ⟨t₁, { r with stage := st }, by simp [setPc], he, hlinked hst⟩
    · exact ⟨t₁, r₁, by simpa [setPc, ht] using h₁, he, hst⟩
  · obtain ⟨r₀, h₀, he, hkind⟩ := hold h₁
    obtain ⟨hnone, hall⟩ := hw.insert t₁ r₀ h₀ (hkind ▸ hk)
    refine ⟨he ▸ hnone, fun t₂ r₂ h₂ hentry => ?_⟩
    obtain ⟨r₂', h₂', he₂, -⟩ := hold h₂
    exact hall t₂ r₂' h₂' (by rw [← he₂, hentry, he])
  · obtain ⟨r₀, h₀, he, hkind⟩ := hold h₁
    rw [he]
    exact hw.update t₁ r₀ h₀ (hkind ▸ hk)
  · rcases setPc_some h₁ with ⟨rfl, he⟩ | ⟨-, h₁⟩
    · cases he
      exact hown todo hst
    · exact hw.own t₁ r₁ todo h₁ hst

theorem State.Kept.setPc (h : s.Kept) (q : Option Running)
    (hflushed : ∀ r ∈ q, r.stage = .flushed → ∀ newer older,
      s.later r.write.entry = newer ++ r.write :: older →
      ∀ x ∈ s.mem.possible (.atVal r.write.entry), ∃ w' ∈ newer ++ [r.write], x = w'.link) :
    (s.setPc t q).Kept := by
  refine ⟨h.safe, h.points, h.newest, fun t₁ r₁ h₁ hst newer older hl => ?_⟩
  rcases setPc_some h₁ with ⟨-, hq⟩ | ⟨-, h₁⟩
  · exact hflushed r₁ hq hst newer older hl
  · exact h.flushed t₁ r₁ h₁ hst newer older hl

theorem State.Wf.link (hw : s.Wf) (hpc : s.pc t = some r) (hst : ¬r.stage.Linked) : (s.link t r).Wf := by
  have hw' := hw.setStage hpc .linked (fun _ => trivial) (by simp)
  have hpc' : (s.setPc t (some { r with stage := .linked })).pc t = some { r with stage := .linked } := by
    simp [setPc]
  refine ⟨hw'.used, hw'.last_used, hw'.slot_inj, hw'.apart, fun a w hm => ?_, fun a => ?_, hw'.last, hw'.insert,
    hw'.update, hw'.own⟩
  · have hm' : w ∈ Function.update s.later r.write.entry (r.write :: s.later r.write.entry) a := hm
    by_cases ha : a = r.write.entry
    · rw [ha, Function.update_self] at hm'
      rcases List.mem_cons.mp hm' with rfl | hm'
      · exact ⟨ha.symm, t, _, hpc', rfl, trivial⟩
      · exact hw'.later a w (ha ▸ hm')
    · rw [Function.update_of_ne ha] at hm'
      exact hw'.later a w hm'
  · show (Function.update s.later r.write.entry (r.write :: s.later r.write.entry) a).Nodup
    by_cases ha : a = r.write.entry
    · rw [ha, Function.update_self]
      exact List.nodup_cons.mpr ⟨hw.not_mem_later hpc hst, hw.nodup _⟩
    · rw [Function.update_of_ne ha]
      exact hw.nodup a

theorem candidates_link (s : State T) (t : T) (r : Running) (a : AtId) : (s.link t r).candidates a =
    if a = r.write.entry then r.write :: s.candidates a else s.candidates a := by
  show Function.update s.later r.write.entry (r.write :: s.later r.write.entry) a ++ (s.last a).toList = _
  by_cases ha : a = r.write.entry
  · rw [if_pos ha, ha, Function.update_self]
    rfl
  · rw [if_neg ha, Function.update_of_ne ha]
    rfl

theorem State.Kept.link (h : s.Kept) (hw : s.Wf) (hpc : s.pc t = some r)
    (hsafe : Safe s.mem r.write) : (s.link t r).Kept := by
  let link : MemAct := .store (.atVal r.write.entry) r.write.link
  have hother : ∀ c, c ≠ .atVal r.write.entry → (s.mem.exec link).possible c ⊆ s.mem.possible c := fun c hc =>
    Pmem.possible_exec_subset fun he => hc (Option.some.inj he).symm
  have hkeep : ∀ w, Safe s.mem w → Safe (s.mem.exec link) w := fun w hw => by
    obtain ⟨hk, hv⟩ := safe_iff.mp hw
    exact safe_iff.mpr ⟨fun x hx => hk x (hother _ (by simp) hx), fun x hx => hv x (hother _ (by simp) hx)⟩
  have hnew : ∀ x ∈ (s.mem.exec link).possible (.atVal r.write.entry),
      x ∈ s.mem.possible (.atVal r.write.entry) ∨ x = r.write.link := fun x hx => by
    refine (Pmem.possible_exec hx).imp_right fun he => ?_
    injection he with _ he
    exact he.symm
  refine ⟨fun a w hm => ?_, fun a w hlast x hx => ?_, fun a w hm => ?_,
    fun t' r' h' hst' newer older hl x hx => ?_⟩
  · rw [candidates_link] at hm
    split at hm
    · rcases List.mem_cons.mp hm with rfl | hm
      · exact hkeep _ hsafe
      · exact hkeep w (h.safe a w hm)
    · exact hkeep w (h.safe a w hm)
  · have hlast' : s.last a = some w := hlast
    rw [candidates_link]
    by_cases ha : a = r.write.entry
    · subst ha
      rw [if_pos rfl]
      rcases hnew x hx with hx | rfl
      · obtain ⟨w', hw', he⟩ := h.points _ w hlast' x hx
        exact ⟨w', List.mem_cons_of_mem _ hw', he⟩
      · exact ⟨r.write, List.mem_cons_self, rfl⟩
    · rw [if_neg ha]
      exact h.points a w hlast' x (hother _ (by simpa using ha) hx)
  · rw [candidates_link] at hm
    show (s.mem.exec link).read (.atVal a) = w.link
    by_cases ha : a = r.write.entry
    · subst ha
      rw [if_pos rfl] at hm
      cases hm
      exact Pmem.read_store_self ..
    · rw [if_neg ha] at hm
      rw [Pmem.read_exec_of_ne fun he => ha (by injection he with he; injection he with he; exact he.symm)]
      exact h.newest a w hm
  · rcases setPc_some h' with ⟨-, he⟩ | ⟨ht, h'⟩
    · cases he
      cases hst'
    · by_cases ha : r'.write.entry = r.write.entry
      · have hl' : r.write :: s.later r'.write.entry = newer ++ r'.write :: older := by
          have : Function.update s.later r.write.entry (r.write :: s.later r.write.entry) r'.write.entry = _ := hl
          rwa [ha, Function.update_self, ← ha] at this
        cases newer with
        | nil =>
          have hsame : r.write = r'.write := (List.cons.inj hl').1
          exact absurd (hw.slot_inj t' r' t r h' hpc (by rw [hsame])) ht
        | cons w newer =>
          obtain ⟨rfl, hrest⟩ := List.cons.inj hl'
          rw [ha] at hx
          rcases hnew x hx with hx | rfl
          · obtain ⟨w', hw', he⟩ := h.flushed t' r' h' hst' newer older hrest x (ha ▸ hx)
            exact ⟨w', List.mem_cons_of_mem _ hw', he⟩
          · exact ⟨r.write, List.mem_cons_self, rfl⟩
      · have hl' : s.later r'.write.entry = newer ++ r'.write :: older := by
          have : Function.update s.later r.write.entry (r.write :: s.later r.write.entry) r'.write.entry = _ := hl
          rwa [Function.update_of_ne ha] at this
        exact h.flushed t' r' h' hst' newer older hl' x (hother _ (by simpa using ha) hx)

theorem State.Kept.flush (h : s.Kept) {act : MemAct}
    (hact : ∃ as, act = .persist as ∧ .atVal r.write.entry ∈ as) :
    ({ s.setPc t (some { r with stage := .flushed }) with mem := s.mem.exec act } : State T).Kept := by
  obtain ⟨as, rfl, hmem⟩ := hact
  have h' : ({ s with mem := s.mem.exec (.persist as) } : State T).Kept := h.exec (by simp [Act.target])
  refine h'.setPc (s := { s with mem := s.mem.exec (.persist as) }) _ fun r₁ hr₁ _ newer older hl x hx => ?_
  cases hr₁
  have hl' : s.later r.write.entry = newer ++ r.write :: older := hl
  have hx' : x ∈ (s.mem.exec (.persist as)).possible (.atVal r.write.entry) := hx
  rw [Pmem.possible_persist hmem, List.mem_singleton] at hx'
  have hcand : s.candidates r.write.entry = newer ++ r.write :: (older ++ (s.last r.write.entry).toList) := by
    rw [candidates, hl', List.append_assoc, List.cons_append]
  cases newer with
  | nil => exact ⟨r.write, by simp, hx'.trans (h.newest _ r.write (by rw [hcand]; rfl))⟩
  | cons w newer => exact ⟨w, by simp, hx'.trans (h.newest _ w (by rw [hcand]; rfl))⟩

theorem finish_of_not_mem (hm : r.write ∉ s.later r.write.entry) : s.finish t r =
    { s.setPc t none with keys := Function.update s.keys r.write.entry (some r.write.key) } := if_neg hm

theorem finish_of_mem {newer older : List Write} (hnd : (s.later r.write.entry).Nodup)
    (hl : s.later r.write.entry = newer ++ r.write :: older) : s.finish t r =
    { s.setPc t none with
      keys := Function.update s.keys r.write.entry (some r.write.key)
      last := Function.update s.last r.write.entry (some r.write)
      later := Function.update s.later r.write.entry newer } := by
  have hm : r.write ∈ s.later r.write.entry := by simp [hl]
  have hnew : ∀ w ∈ newer, decide (w ≠ r.write) = true := fun w hw => by
    rw [hl] at hnd
    exact decide_eq_true ((List.nodup_append.mp hnd).2.2 w hw r.write List.mem_cons_self)
  have htake : (s.later r.write.entry).takeWhile (fun w => decide (w ≠ r.write)) = newer := by
    rw [hl, List.takeWhile_append_of_pos hnew, List.takeWhile_cons_of_neg (by simp), List.append_nil]
  refine (if_pos hm).trans ?_
  show State.mk _ _ _ (Function.update s.later _ ((s.later r.write.entry).takeWhile _)) _ _ = _
  rw [htake]
  rfl

theorem State.Wf.unlock (hw : s.Wf) (hpc : s.pc t = some r) (hm : r.write ∉ s.later r.write.entry) :
    ({ s.setPc t none with keys := Function.update s.keys r.write.entry (some r.write.key) } : State T).Wf := by
  have hold : ∀ {t₁ r₁}, (s.setPc t none).pc t₁ = some r₁ → t₁ ≠ t ∧
    s.pc t₁ = some r₁ := fun h => by
    rcases setPc_some h with ⟨-, he⟩ | h
    · cases he
    · exact h
  -- whoever else knows a key of the entry knows the same
  have hkey : ∀ {a k}, s.keys a = some k → Function.update s.keys r.write.entry (some r.write.key) a = some k :=
    fun {a k} hk => by
      by_cases ha : a = r.write.entry
      · subst ha
        rw [Function.update_self]
        cases hkind : r.kind with
        | insert => exact absurd (hw.insert t r hpc hkind).1 (by simp [hk])
        | update => exact (hw.update t r hpc hkind).symm.trans hk
      · rwa [Function.update_of_ne ha]
  refine ⟨fun t₁ r₁ h₁ => hw.used t₁ r₁ (hold h₁).2, hw.last_used,
    fun t₁ r₁ t₂ r₂ h₁ h₂ => hw.slot_inj t₁ r₁ t₂ r₂ (hold h₁).2 (hold h₂).2,
    fun t₁ r₁ a w h₁ => hw.apart t₁ r₁ a w (hold h₁).2, fun a w hmem => ?_, hw.nodup,
    fun a w hl => ⟨(hw.last a w hl).1, hkey (hw.last a w hl).2⟩, fun t₁ r₁ h₁ hk => ?_,
    fun t₁ r₁ h₁ hk => hkey (hw.update t₁ r₁ (hold h₁).2 hk),
    fun t₁ r₁ todo h₁ => hw.own t₁ r₁ todo (hold h₁).2⟩
  · obtain ⟨ha, t₁, r₁, h₁, he, hst⟩ := hw.later a w hmem
    have ht : t₁ ≠ t := by
      rintro rfl
      cases hpc.symm.trans h₁
      subst he
      exact hm (ha ▸ hmem)
    exact ⟨ha, t₁, r₁, by simpa [setPc, ht] using h₁, he, hst⟩
  · obtain ⟨ht, h₁⟩ := hold h₁
    obtain ⟨hnone, hall⟩ := hw.insert t₁ r₁ h₁ hk
    refine ⟨?_, fun t₂ r₂ h₂ => hall t₂ r₂ (hold h₂).2⟩
    show Function.update s.keys r.write.entry (some r.write.key) r₁.write.entry = none
    rw [Function.update_of_ne fun ha => ht (hall t r hpc ha.symm).symm, hnone]

theorem State.Wf.finish (hw : s.Wf) (hpc : s.pc t = some r) : (s.finish t r).Wf := by
  by_cases hm : r.write ∈ s.later r.write.entry
  · obtain ⟨newer, older, hl⟩ := List.append_of_mem hm
    rw [finish_of_mem (hw.nodup _) hl]
    -- dropping the older writes first
    let s₁ : State T := { s with later := Function.update s.later r.write.entry newer }
    have hsub : ∀ a, (s₁.later a).Sublist (s.later a) := fun a => by
      show (Function.update s.later r.write.entry newer a).Sublist _
      by_cases ha : a = r.write.entry
      · rw [ha, Function.update_self, hl]
        exact List.sublist_append_left ..
      · rw [Function.update_of_ne ha]
    have hw₁ : s₁.Wf :=
      ⟨hw.used, hw.last_used, hw.slot_inj, hw.apart, fun a w hm => hw.later a w ((hsub a).subset hm),
      fun a => (hw.nodup a).sublist (hsub a), hw.last, hw.insert, hw.update, hw.own⟩
    have hnot : r.write ∉ s₁.later r.write.entry := by
      show r.write ∉ Function.update s.later r.write.entry newer r.write.entry
      rw [Function.update_self]
      intro hm
      have hnd := hw.nodup r.write.entry
      rw [hl] at hnd
      exact (List.nodup_append.mp hnd).2.2 _ hm _ List.mem_cons_self rfl
    have hw₂ := hw₁.unlock (s := s₁) hpc hnot
    have hlast : ∀ {a w}, Function.update s.last r.write.entry (some r.write) a = some w →
        a = r.write.entry ∧ w = r.write ∨ s.last a = some w := fun {a w} h => by
      by_cases ha : a = r.write.entry
      · rw [ha, Function.update_self] at h
        exact .inl ⟨ha, (Option.some.inj h).symm⟩
      · rw [Function.update_of_ne ha] at h
        exact .inr h
    refine ⟨hw₂.used, fun a w h => ?_, hw₂.slot_inj, fun t₁ r₁ a w h₁ h => ?_, hw₂.later, hw₂.nodup,
      fun a w h => ?_, hw₂.insert, hw₂.update, hw₂.own⟩
    · rcases hlast h with ⟨-, rfl⟩ | h
      · exact hw.used t r hpc
      · exact hw.last_used a w h
    · rcases hlast h with ⟨-, rfl⟩ | h
      · rcases setPc_some h₁ with ⟨-, he⟩ | ⟨ht, h₁⟩
        · cases he
        · exact fun he => ht (hw.slot_inj t r t₁ r₁ hpc h₁ he).symm
      · exact hw₂.apart t₁ r₁ a w h₁ h
    · rcases hlast h with ⟨rfl, rfl⟩ | h
      · exact ⟨rfl, Function.update_self ..⟩
      · exact hw₂.last a w h
  · rw [finish_of_not_mem hm]
    exact hw.unlock hpc hm

theorem State.Kept.finish (h : s.Kept) (hw : s.Wf) (hpc : s.pc t = some r) (hst : r.stage = .flushed) :
    (s.finish t r).Kept := by
  by_cases hm : r.write ∈ s.later r.write.entry
  · obtain ⟨newer, older, hl⟩ := List.append_of_mem hm
    have hpoints := h.flushed t r hpc hst newer older hl
    rw [finish_of_mem (hw.nodup _) hl]
    have hcand : ∀ a, (Function.update s.later r.write.entry newer a ++
        (Function.update s.last r.write.entry (some r.write) a).toList) =
        if a = r.write.entry then newer ++ [r.write] else s.candidates a := fun a => by
      by_cases ha : a = r.write.entry
      · rw [if_pos ha, ha, Function.update_self, Function.update_self]
        rfl
      · rw [if_neg ha, Function.update_of_ne ha, Function.update_of_ne ha]
        rfl
    have hold : s.candidates r.write.entry = (newer ++ [r.write]) ++ (older ++ (s.last r.write.entry).toList) := by
      simp [candidates, hl]
    refine ⟨fun a w hm => ?_, fun a w hlast x hx => ?_, fun a w hm => ?_,
      fun t₁ r₁ h₁ hst₁ newer₁ older₁ hl₁ => ?_⟩
    · rw [candidates, hcand] at hm
      split at hm
      · exact h.safe r.write.entry w (hold ▸ List.mem_append_left _ hm)
      · exact h.safe a w hm
    · rw [candidates, hcand]
      by_cases ha : a = r.write.entry
      · rw [if_pos ha]
        subst ha
        exact hpoints x hx
      · rw [if_neg ha]
        have hlast' : Function.update s.last r.write.entry (some r.write) a = some w := hlast
        rw [Function.update_of_ne ha] at hlast'
        exact h.points a w hlast' x hx
    · rw [candidates, hcand] at hm
      split at hm
      · rename_i ha
        subst ha
        refine h.newest r.write.entry w ?_
        rw [hold, List.head?_append, hm]
        rfl
      · exact h.newest a w hm
    · rcases setPc_some h₁ with ⟨-, he⟩ | ⟨-, h₁⟩
      · cases he
      · have hl' : Function.update s.later r.write.entry newer r₁.write.entry = newer₁ ++
          r₁.write :: older₁ := hl₁
        by_cases ha : r₁.write.entry = r.write.entry
        · rw [ha, Function.update_self] at hl'
          exact h.flushed t₁ r₁ h₁ hst₁ newer₁ (older₁ ++ r.write :: older) (by rw [ha, hl, hl']; simp)
        · rw [Function.update_of_ne ha] at hl'
          exact h.flushed t₁ r₁ h₁ hst₁ newer₁ older₁ hl'
  · rw [finish_of_not_mem hm]
    have h' : (s.setPc t none).Kept := h.setPc none (by simp)
    exact ⟨h'.safe, h'.points, h'.newest, h'.flushed⟩

/-- The write that a step links. -/
def State.linking (s : State T) : Step T → Option Write
  | .advance t => (s.pc t).bind fun r => match r.stage with
    | .storing [] => some r.write
    | _ => none
  | _ => none

/-- A link is made only when no crash could lose the key or the value of its log entry. -/
def State.LinksSafely (s : State T) (x : Step T) : Prop := ∀ w ∈ s.linking x, Safe s.mem w

theorem State.Kept.advance (h : s.Kept) (hw : s.Wf) (hsafe : s.LinksSafely (.advance t))
    (hrun : s.advance t = some s') : s'.Wf ∧ s'.Kept := by
  obtain ⟨⟨w, kind, stage⟩, hpc, he⟩ := Option.map_eq_some_iff.mp hrun
  cases stage with
  | storing todo =>
    cases todo with
    | nil =>
      obtain rfl : s.link t _ = s' := he
      have hsafe' : Safe s.mem w := hsafe w (by simp [linking, hpc])
      exact ⟨hw.link hpc id, h.link hw hpc hsafe'⟩
    | cons act todo =>
      cases he
      have hown := hw.own t _ _ hpc rfl
      have hw' := hw.setStage hpc (.storing todo) id fun todo' he act' ha => by
        cases he
        exact hown act' (List.mem_cons_of_mem _ ha)
      have h' : ({ s with mem := s.mem.exec act } : State T).Kept :=
        h.exec fun c hc => hw.own_free hpc id (hown act List.mem_cons_self c hc)
      refine ⟨⟨hw'.used, hw'.last_used, hw'.slot_inj, hw'.apart, hw'.later, hw'.nodup, hw'.last, hw'.insert,
        hw'.update, hw'.own⟩, h'.setPc (s := { s with mem := s.mem.exec act }) _ fun r hr hst => ?_⟩
      cases hr
      cases hst
  | linked =>
    cases he
    have hw' := hw.setStage hpc .flushed id (by simp)
    refine ⟨⟨hw'.used, hw'.last_used, hw'.slot_inj, hw'.apart, hw'.later, hw'.nodup, hw'.last, hw'.insert,
      hw'.update, hw'.own⟩, h.flush (r := ⟨w, kind, .linked⟩) ?_⟩
    cases kind with
    | insert => exact ⟨_, rfl, by simp⟩
    | update => exact ⟨_, rfl, by simp⟩
  | flushed =>
    obtain rfl : s.finish t _ = s' := he
    exact ⟨hw.finish hpc, h.finish hw hpc rfl⟩

variable [Fintype T]

theorem State.Wf.begin (hw : s.Wf) {kind : Kind} {l : LogId} {tail : ℕ} {w : Write}
    (hrun : s.begin t kind l tail w = some s') : s'.Wf := by
  obtain ⟨⟨hnone, hfree, hyields⟩, he⟩ := Option.ite_none_right_eq_some.mp hrun
  obtain rfl := Option.some.inj he
  let r : Running := ⟨w, kind, .storing (before l tail w kind)⟩
  have hold : ∀ {t₁ r₁}, (s.setPc t (some r)).pc t₁ = some r₁ →
      t₁ = t ∧ r₁ = r ∨ t₁ ≠ t ∧ s.pc t₁ = some r₁ := fun h => by
    rcases setPc_some h with ⟨ht, he⟩ | h
    · exact .inl ⟨ht, (Option.some.inj he).symm⟩
    · exact .inr h
  have huse : ∀ {p}, s.inUse p = true → p ≠ w.slot ∧
    Function.update s.inUse w.slot true p = true := fun {p} hp => by
    have hne : p ≠ w.slot := by
      rintro rfl
      rw [hfree] at hp
      cases hp
    exact ⟨hne, by rwa [Function.update_of_ne hne]⟩
  refine ⟨fun t₁ r₁ h₁ => ?_, fun a w' hl => (huse (hw.last_used a w' hl)).2,
    fun t₁ r₁ t₂ r₂ h₁ h₂ he => ?_,
    fun t₁ r₁ a w' h₁ hl => ?_, fun a w' hm => ?_, hw.nodup, hw.last, fun t₁ r₁ h₁ hk => ?_,
    fun t₁ r₁ h₁ hk => ?_, fun t₁ r₁ todo h₁ hst => ?_⟩
  · rcases hold h₁ with ⟨-, rfl⟩ | ⟨-, h₁⟩
    · exact Function.update_self ..
    · exact (huse (hw.used t₁ r₁ h₁)).2
  · rcases hold h₁ with ⟨rfl, rfl⟩ | ⟨-, h₁'⟩ <;> rcases hold h₂ with ⟨rfl, rfl⟩ | ⟨-, h₂'⟩
    · rfl
    · exact absurd he.symm (huse (hw.used t₂ r₂ h₂')).1
    · exact absurd he (huse (hw.used t₁ r₁ h₁')).1
    · exact hw.slot_inj t₁ r₁ t₂ r₂ h₁' h₂' he
  · rcases hold h₁ with ⟨-, rfl⟩ | ⟨-, h₁⟩
    · exact (huse (hw.last_used a w' hl)).1
    · exact hw.apart t₁ r₁ a w' h₁ hl
  · obtain ⟨ha, t₁, r₁, h₁, he, hst⟩ := hw.later a w' hm
    have ht : t₁ ≠ t := by
      rintro rfl
      cases hnone.symm.trans h₁
    exact ⟨ha, t₁, r₁, by simpa [setPc, ht] using h₁, he, hst⟩
  · -- an insert has chosen an entry on which nobody works
    rcases hold h₁ with ⟨rfl, rfl⟩ | ⟨-, h₁'⟩
    · obtain rfl : kind = .insert := hk
      refine ⟨hyields.1, fun t₂ r₂ h₂ he => ?_⟩
      rcases hold h₂ with ⟨ht, -⟩ | ⟨-, h₂'⟩
      · exact ht
      · exact absurd he (hyields.2 t₂ r₂ h₂')
    · obtain ⟨hkey, hall⟩ := hw.insert t₁ r₁ h₁' hk
      refine ⟨hkey, fun t₂ r₂ h₂ he => ?_⟩
      rcases hold h₂ with ⟨rfl, rfl⟩ | ⟨-, h₂'⟩
      · have he' : w.entry = r₁.write.entry := he
        cases kind with
        | insert => exact absurd he'.symm (hyields.2 t₁ r₁ h₁')
        | update =>
          have hyields' : s.keys w.entry = some w.key := hyields
          rw [he', hkey] at hyields'
          cases hyields'
      · exact hall t₂ r₂ h₂' he
  · rcases hold h₁ with ⟨rfl, rfl⟩ | ⟨-, h₁⟩
    · obtain rfl : kind = .update := hk
      exact hyields
    · exact hw.update t₁ r₁ h₁ hk
  · rcases hold h₁ with ⟨rfl, rfl⟩ | ⟨-, h₁⟩
    · cases hst
      exact fun act hact => before_own hact
    · exact hw.own t₁ r₁ todo h₁ hst

theorem State.Kept.begin (h : s.Kept) {kind : Kind} {l : LogId} {tail : ℕ} {w : Write}
    (hrun : s.begin t kind l tail w = some s') : s'.Kept := by
  obtain ⟨-, he⟩ := Option.ite_none_right_eq_some.mp hrun
  obtain rfl := Option.some.inj he
  have h' : (s.setPc t (some ⟨w, kind, .storing (before l tail w kind)⟩)).Kept :=
    h.setPc _ fun r hr hst => by
      cases hr
      cases hst
  exact ⟨h'.safe, h'.points, h'.newest, h'.flushed⟩

theorem State.Kept.step (h : s.Kept) (hw : s.Wf) {x : Step T} (hsafe : s.LinksSafely x) (hrun : s.step x = some s') :
    s'.Wf ∧ s'.Kept := by
  cases x with
  | begin t kind l tail w => exact ⟨hw.begin hrun, h.begin hrun⟩
  | advance t => exact h.advance hw hsafe hrun
  | reclaim p =>
    obtain ⟨hnot, he⟩ := Option.ite_none_right_eq_some.mp hrun
    obtain rfl := Option.some.inj he
    have hlast : ∀ a w, (s.last a).filter (fun w => decide (w.slot ≠ p)) = some w → s.last a = some w ∧
      w.slot ≠ p :=
      fun a w hl => by simpa using Option.filter_eq_some_iff.mp hl
    refine ⟨hw.drop (fun a w hl => ⟨(hlast a w hl).1, rfl, ?_⟩) fun t r hpc => ⟨rfl, ?_⟩,
      h.drop fun a w hl => (hlast a w hl).1⟩
    · exact Function.update_of_ne (hlast a w hl).2 _ _
    · exact Function.update_of_ne (hnot t r hpc) _ _
  | forget a =>
    obtain ⟨hquiet, he⟩ := Option.ite_none_right_eq_some.mp hrun
    obtain rfl := Option.some.inj he
    have hlast : ∀ b w, Function.update s.last a none b = some w → b ≠ a ∧
      s.last b = some w := fun b w hl => by
      by_cases hb : b = a
      · rw [hb, Function.update_self] at hl
        cases hl
      · exact ⟨hb, by rwa [Function.update_of_ne hb] at hl⟩
    refine ⟨hw.drop (fun b w hl => ⟨(hlast b w hl).2, ?_, rfl⟩) fun t r hpc => ⟨?_, rfl⟩,
      h.drop fun b w hl => (hlast b w hl).2⟩
    · exact Function.update_of_ne (hlast b w hl).1 _ _
    · exact Function.update_of_ne (hquiet t r hpc) _ _
  | other act =>
    obtain ⟨hfree, he⟩ := Option.ite_none_right_eq_some.mp hrun
    obtain rfl := Option.some.inj he
    exact ⟨⟨hw.used, hw.last_used, hw.slot_inj, hw.apart, hw.later, hw.nodup, hw.last, hw.insert, hw.update,
      hw.own⟩, h.exec fun c hc => hw.free_not_guarded (hfree c hc)⟩

end Steps

/-! ## Runs -/

/-- No write was made yet; the memory may be anything. -/
def fresh (T : Type) (m : Mem) : State T where
  mem := m
  pc _ := none
  last _ := none
  later _ := []
  keys _ := none
  inUse _ := false

theorem fresh_wf (m : Mem) : (fresh T m).Wf where
  used t r h := by cases h
  last_used a w h := by cases h
  slot_inj t r t' r' h := by cases h
  apart t r a w h := by cases h
  later a w hm := absurd hm List.not_mem_nil
  nodup a := List.nodup_nil
  last a w h := by cases h
  insert t r h := by cases h
  update t r h := by cases h
  own t r todo h := by cases h

theorem fresh_kept (m : Mem) : (fresh T m).Kept where
  safe a w hm := absurd hm List.not_mem_nil
  points a w h := by cases h
  newest a w hm := by cases hm
  flushed t r h := by cases h

/-- Acknowledged writes are durable in every state of a run whose links are all safe. -/
theorem run_durable [Fintype T] [DecidableEq T] (m : Mem) (xs : List (Step T))
    (hsafe : Along State.step State.LinksSafely (fresh T m) xs) (s : State T)
    (hrun : run State.step (fresh T m) xs = some s) : s.Durable := by
  have hinv : s.Wf ∧ s.Kept := run_induction (I := fun s : State T => s.Wf ∧ s.Kept)
    (fun s x s' hi hx hstep => hi.2.step hi.1 hx hstep) ⟨fresh_wf m, fresh_kept m⟩ hsafe hrun
  exact hinv.1.durable hinv.2

/-! ## Concrete runs -/

instance (m : Mem) (w : Write) : Decidable (Safe m w) :=
  haveI : DecidableEq (Cell.opKey w.slot).type := inferInstanceAs (DecidableEq ℕ)
  haveI : DecidableEq (Cell.opVal w.slot).type := inferInstanceAs (DecidableEq ℕ)
  decidable_of_iff _ safe_iff.symm

instance (s : State T) (x : Step T) : Decidable (s.LinksSafely x) := by unfold State.LinksSafely; infer_instance

/-- Pools as they come from a new file. -/
def blank : Mem where
  durable c := match c with
    | .opKey _ => 0
    | .opVal _ => 0
    | .opOpa _ => none
    | .opSize _ => 0
    | .atVal _ => 0
    | .atIdx _ => ⟨-1, -1⟩
    | .tailCnt _ => 0
  pending _ := []

attribute [local instance] oplogNum_neZero entryNum_neZero

/-- Key 5 with value 10. -/
def sampleWrite : Write := ⟨(0, 0), entryPtr 0, 5, 10⟩

/-- One thread inserts it; `flush` comes right before the link. -/
def sampleRun (flush : List (Step (Fin 1))) : List (Step (Fin 1)) :=
  [.begin 0 .insert (0, 0) kvSize sampleWrite] ++ List.replicate 10 (.advance 0) ++ flush ++
    List.replicate 3 (.advance 0)

/-- With a flush of the entry itself, the insert is durable when it returns. -/
theorem run_durable_flushed : ∃ s : State (Fin 1),
    run State.step (fresh (Fin 1) blank)
      (sampleRun [.other (.persist [.opKey (entryPtr 0), .opVal (entryPtr 0)])]) = some s ∧
    s.last (0, 0) = some sampleWrite ∧ s.Durable := by
  have hlast : (run State.step (fresh (Fin 1) blank)
      (sampleRun [.other (.persist [.opKey (entryPtr 0), .opVal (entryPtr 0)])])).map (fun s => s.last (0, 0)) =
      some (some sampleWrite) := by decide +kernel
  obtain ⟨s, hrun, hs⟩ := Option.map_eq_some_iff.mp hlast
  exact ⟨s, hrun, hs, run_durable blank _ (by decide +kernel) s hrun⟩

/-- Without one, the first insert returns, and a crash may leave its `at_entry` pointing to
a log entry without key and value. -/
theorem run_not_durable : ∃ s : State (Fin 1),
    run State.step (fresh (Fin 1) blank) (sampleRun []) = some s ∧ s.last (0, 0) = some sampleWrite ∧
    ¬s.Durable := by
  have hend : (run State.step (fresh (Fin 1) blank) (sampleRun [])).map (fun s =>
      (s.last (0, 0), s.later (0, 0), decide (0 ∈ s.mem.possible (.opKey (entryPtr 0))))) =
      some (some sampleWrite, [], true) := by decide +kernel
  obtain ⟨s, hrun, hs⟩ := Option.map_eq_some_iff.mp hend
  obtain ⟨hlast, hs⟩ := Prod.mk.inj hs
  obtain ⟨hlater, hpossible⟩ := Prod.mk.inj hs
  refine ⟨s, hrun, hlast, fun hdurable => ?_⟩
  obtain ⟨img, himg, hkey⟩ := Pmem.exists_image_eq (of_decide_eq_true hpossible)
  obtain ⟨w, hw, -, -, hheld⟩ := hdurable (0, 0) sampleWrite hlast img himg
  rw [hlater, List.nil_append, List.mem_singleton] at hw
  subst hw
  exact absurd (hkey.symm.trans hheld.1) (by decide)

end Hkv.LogDurability
