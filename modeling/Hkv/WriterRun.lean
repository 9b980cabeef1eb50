import Hkv.GcFrame

/-!
# Runs of one writer slot

A run is any sequence of `put_vs_entry` and `forced_write_chunk` calls of one slot.
The batch is the list of entries put since the last flush; it is read off the calls
and the chunk boundaries, not off the buffer.
-/
namespace Hkv.ValueStorage
open MtsConfig TaggedPointer AddressTable KeyedSort

variable {A : Type}

inductive Call (A : Type) where
  | put (key val : ℕ) (a : A)
  | force

/-- A `write_chunk; sync_with_at` pair about to run, with the batch it flushes. -/
structure FlushPoint (A : Type) where
  before : Store A
  batch : List (VsEntry A)

/-- The entry a put hands over. -/
def entryOf (key val : ℕ) (a : A) : VsEntry A := ⟨some a, key, val⟩

section Runs
variable [DecidableEq A] (cfg : Config) (S : StdSort) (w : ℕ)

def doCall (s : Store A) : Call A → Option (Store A)
  | .put key val a => putVsEntry cfg S s w key val a
  | .force => forcedWriteChunk cfg S s w

/-- Whether a call flushes the chunk it finds. -/
def flushes (s : Store A) : Call A → Bool
  | .put _ _ _ => decide ((s.wChunk w).entryOffset = cfg.entriesPerChunk)
  | .force => true

def nextBatch (s : Store A) (batch : List (VsEntry A)) : Call A → List (VsEntry A)
  | .put key val a => if flushes cfg w s (.put key val a) then [entryOf key val a]
      else batch ++ [entryOf key val a]
  | .force => []

/-- Every flush of a run, in order. -/
def flushPoints : Store A → List (VsEntry A) → List (Call A) → List (FlushPoint A)
  | _, _, [] => []
  | s, batch, c :: cs =>
    (if flushes cfg w s c then [⟨s, batch⟩] else []) ++
      match doCall cfg S w s c with
      | none => []
      | some s' => flushPoints s' (nextBatch cfg w s batch c) cs

end Runs

/-- The chunk is not forced out empty, and its keys are distinct. -/
def FlushPoint.Admissible (f : FlushPoint A) : Prop :=
  f.batch ≠ [] ∧ (f.batch.map VsEntry.key).Nodup

/-- Entries of earlier chunks that the scan of `sort_w_buffer` still picks up have
larger keys than all of the batch. -/
def FlushPoint.Clean (cfg : Config) (w : ℕ) (f : FlushPoint A) : Prop :=
  ∀ e ∈ f.batch, ∀ x ∈ (scanBuffer cfg (f.before.wChunk w).wBuffer).drop f.batch.length, e.key < x.key

/-- The flush returns, and every `at_entry` of the batch ends up linked to a slot of
the written chunk that holds an entry put for it. -/
def FlushPoint.Good [DecidableEq A] (cfg : Config) (S : StdSort) (w : ℕ) (f : FlushPoint A) : Prop :=
  ∃ s', flush cfg S f.before w = some s' ∧
    ∀ a, (∃ e ∈ f.batch, e.atEntry = some a) → ∃ e ∈ f.batch, e.atEntry = some a ∧
      ∃ i < cfg.entriesPerChunk,
        (s'.table a).vsIdx = ⟨s'.vsId, cfg.slotOffset (f.before.wChunk w).chunkOffset i⟩ ∧
        s'.disk (f.before.wChunk w).chunkOffset i = e

/-- Slot `w` holds exactly the batch, and no entry of the batch was updated. -/
structure Pending (cfg : Config) (s : Store A) (w : ℕ) (batch : List (VsEntry A)) : Prop where
  offset : (s.wChunk w).entryOffset = batch.length
  le : batch.length ≤ cfg.entriesPerChunk
  buffer : ∀ i e, batch[i]? = some e → (s.wChunk w).wBuffer i = e
  moved : (s.wChunk w).movedEntryList = movedOf (s.wChunk w).chunkOffset batch
  isInit : batch ≠ [] → (s.wChunk w).isInit = true
  marked : ∀ e ∈ batch, ∃ a, e.atEntry = some a ∧ (s.table a).vsIdx.vsOffset = preValuestorageVal

variable {cfg : Config} {S : StdSort} {w : ℕ} {s : Store A} {batch : List (VsEntry A)}

theorem Pending.of_idle (ho : (s.wChunk w).entryOffset = 0) (hm : (s.wChunk w).movedEntryList = []) :
    Pending cfg s w [] :=
  ⟨ho, Nat.zero_le _, by simp, hm, by simp, by simp⟩

theorem Pending.scan (h : Pending cfg s w batch) :
    scanBuffer cfg (s.wChunk w).wBuffer =
      batch ++ (scanBuffer cfg (s.wChunk w).wBuffer).drop batch.length := by
  have hall : ∀ e ∈ batch, e.atEntry.isSome = true := fun e he => by
    obtain ⟨a, ha, -⟩ := h.marked e he
    simp [ha]
  rw [scanBuffer_of_front cfg h.le h.buffer hall, List.drop_left]

theorem Pending.linkable (h : Pending cfg s w batch) (hn : (batch.map VsEntry.key).Nodup) :
    Linkable (writeChunk cfg S s w) (sortMovedEntry S (movedOf (s.wChunk w).chunkOffset batch)) := by
  intro m hm
  obtain ⟨e, he, hat, -⟩ := mem_sortMovedEntry S hn hm
  have hmem : e ∈ batch := (S.mem_sort _ batch).mp (List.mem_of_getElem? he)
  obtain ⟨a, ha, hoff⟩ := h.marked e hmem
  exact ⟨a, hat.trans ha, by simp [hoff, newlyUpdatedVal, preValuestorageVal]⟩

variable [DecidableEq A]

theorem flush_eq (h : Pending cfg s w batch) (hn : (batch.map VsEntry.key).Nodup) :
    ∃ s₁, Linked cfg (writeChunk cfg S s w) s₁
        (sortMovedEntry S (movedOf (s.wChunk w).chunkOffset batch)) ∧
      flush cfg S s w = some (clearMoved s₁ w) := by
  obtain ⟨s₁, hrun, hl⟩ := linkAll_linkable cfg (h.linkable hn (S := S))
  refine ⟨s₁, hl, ?_⟩
  rw [flush, syncWithAt, writeChunk_moved, h.moved, hrun]
  rfl

theorem Pending.flush_good (h : Pending cfg s w batch) (hn : (batch.map VsEntry.key).Nodup)
    (hclean : FlushPoint.Clean cfg w ⟨s, batch⟩) : FlushPoint.Good cfg S w ⟨s, batch⟩ := by
  obtain ⟨s₁, hl, hflush⟩ := flush_eq (S := S) h hn
  refine ⟨_, hflush, ?_⟩
  intro a ⟨e, he, hea⟩
  obtain ⟨m₀, hm₀, hm₀a⟩ := exists_mem_sortMovedEntry S hn (c := (s.wChunk w).chunkOffset) he
  obtain ⟨m, hm, hma, hidx⟩ := hl.link a ⟨m₀, hm₀, hm₀a.trans hea⟩
  obtain ⟨e', he', hat, hc⟩ := mem_sortMovedEntry S hn hm
  have hlt : m.entryOffset < batch.length := by
    have := (List.getElem?_eq_some_iff.mp he').1
    simpa [sortedEntries] using this
  refine ⟨e', (S.mem_sort _ batch).mp (List.mem_of_getElem? he'), hat.symm.trans hma,
    m.entryOffset, Nat.lt_of_lt_of_le hlt h.le, ?_, ?_⟩
  · have hv : s₁.vsId = s.vsId := hl.vsId
    simp only [clearMoved, setWChunk_table, setWChunk_vsId, hidx, hc, hv, writeChunk_vsId]
  · have hbuf := sortWBuffer_entries cfg S h.scan hn hclean he'
    simp only [clearMoved, setWChunk_disk, hl.disk, writeChunk_disk, hbuf]

/-! ## The batch follows the calls -/

omit [DecidableEq A] in
theorem Pending.idle (h : Pending cfg s w batch) (hz : (s.wChunk w).entryOffset = 0) : batch = [] :=
  List.eq_nil_of_length_eq_zero (h.offset ▸ hz)

theorem initWChunk_pending {s' : Store A} (hm : (s.wChunk w).movedEntryList = [])
    (h : initWChunk cfg S s w = some s') : Pending cfg s' w [] ∧ (s'.wChunk w).isInit = true := by
  obtain ⟨c, hw, -, -⟩ := initWChunk_frame cfg S h
  have hself : s'.wChunk w =
      { s.wChunk w with isInit := true, chunkOffset := c, entryOffset := 0 } := by
    rw [hw, Function.update_self]
  exact ⟨.of_idle (by rw [hself]) (by rw [hself]; exact hm), by rw [hself]⟩

theorem Pending.append (h : Pending cfg s w batch) (hlt : batch.length < cfg.entriesPerChunk)
    (hinit : (s.wChunk w).isInit = true) (key val : ℕ) (a : A) :
    Pending cfg (appendEntry s w key val a) w (batch ++ [entryOf key val a]) := by
  refine ⟨by simp [appendEntry, h.offset], by simp; omega, ?_, ?_, ?_, ?_⟩
  · intro i e hi
    simp only [appendEntry, setWChunk_self, h.offset]
    by_cases hi' : i < batch.length
    · rw [List.getElem?_append_left hi'] at hi
      rw [Function.update_of_ne (by omega)]
      exact h.buffer i e hi
    · have hlen : i = batch.length := by
        have := (List.getElem?_eq_some_iff.mp hi).1
        simp at this
        omega
      subst hlen
      simpa [entryOf] using hi
  · simp only [appendEntry, setWChunk_self, h.moved, h.offset]
    exact (movedOf_concat _ _ _).symm
  · intro
    simpa [appendEntry] using hinit
  · intro e he
    simp only [appendEntry, setWChunk_table]
    rcases List.mem_append.mp he with he | he
    · obtain ⟨b, hb, hoff⟩ := h.marked e he
      refine ⟨b, hb, ?_⟩
      by_cases hab : b = a
      · subst hab
        simp [preAtEntry]
      · simpa [hab] using hoff
    · rw [List.mem_singleton.mp he]
      exact ⟨a, rfl, by simp [preAtEntry]⟩

theorem flush_moved {s' : Store A} (h : flush cfg S s w = some s') :
    (s'.wChunk w).movedEntryList = [] := by
  simp only [flush, syncWithAt, Option.bind_eq_bind, Option.bind_eq_some_iff] at h
  obtain ⟨s₁, -, hs'⟩ := h
  cases hs'
  simp [clearMoved]

theorem doCall_pending {s' : Store A} {c : Call A} (h : Pending cfg s w batch)
    (hc : doCall cfg S w s c = some s') : Pending cfg s' w (nextBatch cfg w s batch c) := by
  cases c with
  | force =>
    simp only [doCall, forcedWriteChunk] at hc
    split at hc
    · simp only [Option.bind_eq_bind, Option.bind_eq_some_iff] at hc
      obtain ⟨s₁, hf, hs'⟩ := hc
      cases hs'
      exact .of_idle (by simp) (by simpa using flush_moved hf)
    · cases hc
  | put key val a =>
    rw [doCall] at hc
    by_cases hz : (s.wChunk w).entryOffset = 0
    · -- an idle slot opens a chunk first
      obtain rfl := h.idle hz
      have hnf : ¬ (s.wChunk w).entryOffset = cfg.entriesPerChunk := by
        rw [hz]
        exact cfg.entries_pos.ne
      cases hi : initWChunk cfg S s w with
      | none => simp [putVsEntry, initWhenIdle, hz, hi] at hc
      | some s₁ =>
        rw [putVsEntry_of_idle hz hi] at hc
        cases hc
        obtain ⟨hp, hin⟩ := initWChunk_pending h.moved hi
        simpa [nextBatch, flushes, hnf] using hp.append cfg.entries_pos hin key val a
    · have hne : batch ≠ [] := fun hb => hz (by rw [h.offset, hb]; rfl)
      rcases Nat.lt_or_eq_of_le h.le with hlt | heq
      · have hnf : ¬ (s.wChunk w).entryOffset = cfg.entriesPerChunk := by
          rw [h.offset]
          omega
        rw [putVsEntry_of_room hz (h.offset ▸ hlt)] at hc
        cases hc
        simpa [nextBatch, flushes, hnf] using h.append hlt (h.isInit hne) key val a
      · have hfull : (s.wChunk w).entryOffset = cfg.entriesPerChunk := h.offset.trans heq
        rw [putVsEntry_of_full hfull, Option.bind_eq_some_iff] at hc
        obtain ⟨s₁, hf, hc⟩ := hc
        obtain ⟨s₂, hi, rfl⟩ := Option.map_eq_some_iff.mp hc
        obtain ⟨hp, hin⟩ := initWChunk_pending (flush_moved hf) hi
        simpa [nextBatch, flushes, hfull] using hp.append cfg.entries_pos hin key val a

theorem pending_of_mem_flushPoints {calls : List (Call A)} {f : FlushPoint A}
    (h : Pending cfg s w batch) (hf : f ∈ flushPoints cfg S w s batch calls) :
    Pending cfg f.before w f.batch := by
  induction calls generalizing s batch with
  | nil => simp [flushPoints] at hf
  | cons c cs ih =>
    rw [flushPoints, List.mem_append] at hf
    rcases hf with hf | hf
    · split at hf
      · rw [List.mem_singleton.mp hf]
        exact h
      · simp at hf
    · split at hf
      · simp at hf
      · rename_i s' hc
        exact ih (doCall_pending h hc) hf

/-! ## A partial chunk over a used buffer -/

theorem initWChunk_of_free {c : ℕ} {cs : List ℕ} (hfree : s.freeChunkList = c :: cs)
    (hempty : isEmpty cfg s c = true) (hc : c < cfg.chunkNum)
    (hused : notEnoughFreeChunk cfg s = false) :
    initWChunk cfg S s w = some (setWChunk { s with freeChunkList := cs } w
      { s.wChunk w with isInit := true, chunkOffset := c, entryOffset := 0 }) := by
  simp [initWChunk, gcWhenNeeded, hused, getFreeChunkOffset, hfree, dropUsed, hempty, hc]

omit [DecidableEq A] in
@[simp] theorem flushes_force : flushes cfg w s .force = true := rfl

theorem flushPoints_cons {s' : Store A} {c : Call A} {cs : List (Call A)}
    (hc : doCall cfg S w s c = some s') :
    flushPoints cfg S w s batch (c :: cs) = (if flushes cfg w s c then [⟨s, batch⟩] else []) ++
      flushPoints cfg S w s' (nextBatch cfg w s batch c) cs := by
  rw [flushPoints, hc]

theorem flushPoints_singleton (c : Call A) :
    flushPoints cfg S w s batch [c] = if flushes cfg w s c then [⟨s, batch⟩] else [] := by
  rw [flushPoints]
  cases doCall cfg S w s c <;> simp [flushPoints]

/-- Two entries are forced out, then a third one alone. -/
def leftoverRun : List (Call ℕ) := [.put 1 10 1, .put 2 20 2, .force, .put 3 30 3, .force]

/-- The store after the first put. -/
def onePending : Store ℕ :=
  appendEntry (setWChunk { freshStore mtsConfig with freeChunkList := List.range' 1 1048575 } 0
    ⟨true, 0, 0, fun _ => zeroEntry, []⟩) 0 1 10 1

def twoPending : Store ℕ := appendEntry onePending 0 2 20 2

def afterForce : Store ℕ :=
  (forcedWriteChunk mtsConfig insertion twoPending 0).getD (freshStore mtsConfig)

/-- The third entry stands alone in a chunk, over the buffer of the first two. -/
def thirdPending : Store ℕ :=
  appendEntry (setWChunk { afterForce with freeChunkList := List.range' 2 1048574 } 0
    { afterForce.wChunk 0 with isInit := true, chunkOffset := 1, entryOffset := 0 }) 0 3 30 3

def afterThird : Store ℕ := (flush mtsConfig insertion thirdPending 0).getD (freshStore mtsConfig)

theorem doCall_onePending :
    doCall mtsConfig insertion 0 (freshStore mtsConfig) (.put 1 10 1) = some onePending := by
  have hfree : (freshStore mtsConfig : Store ℕ).freeChunkList = 0 :: List.range' 1 1048575 := rfl
  have hused : notEnoughFreeChunk mtsConfig (freshStore mtsConfig : Store ℕ) = false := by
    simp [notEnoughFreeChunk, getUsedChunkNum, freshStore]
  exact putVsEntry_of_idle rfl (initWChunk_of_free hfree rfl (by decide) hused) _ _ _

theorem doCall_twoPending : doCall mtsConfig insertion 0 onePending (.put 2 20 2) = some twoPending :=
  putVsEntry_of_room (by decide) (by decide) _ _ _

theorem doCall_afterForce : doCall mtsConfig insertion 0 twoPending .force = some afterForce :=
  (Option.getD_of_ne_none (Option.isSome_iff_ne_none.mp rfl) _).symm

theorem afterForce_bitFrame :
    afterForce.freeChunkList = 1 :: List.range' 2 1048574 ∧ afterForce.bitmap 1 = fun _ => false := by
  have hforce := doCall_afterForce
  have hinit : (twoPending.wChunk 0).isInit = true := rfl
  simp only [doCall, forcedWriteChunk, hinit, if_true, Option.bind_eq_bind, Option.bind_eq_some_iff] at hforce
  obtain ⟨s₁, hf, hs₁⟩ := hforce
  have hframe := flush_bitFrame mtsConfig insertion hf
  rw [← Option.some.inj hs₁]
  exact ⟨hframe.free, hframe.bitmap 1 (by decide)⟩

theorem doCall_thirdPending : doCall mtsConfig insertion 0 afterForce (.put 3 30 3) = some thirdPending := by
  obtain ⟨hfree, hbits⟩ := afterForce_bitFrame
  have hidle : (afterForce.wChunk 0).entryOffset = 0 := rfl
  have hempty : isEmpty mtsConfig afterForce 1 = true := by
    simp [isEmpty, entryCount, hbits]
  have hused : notEnoughFreeChunk mtsConfig afterForce = false := by
    rw [notEnoughFreeChunk, getUsedChunkNum, hfree, List.length_cons, List.length_range']
    rfl
  exact putVsEntry_of_idle hidle (initWChunk_of_free hfree hempty (by decide) hused) _ _ _

theorem flush_thirdPending : flush mtsConfig insertion thirdPending 0 = some afterThird :=
  (Option.getD_of_ne_none (Option.isSome_iff_ne_none.mp rfl) _).symm

theorem flushPoints_leftoverRun :
    flushPoints mtsConfig insertion 0 (freshStore mtsConfig) [] leftoverRun =
      [⟨twoPending, [entryOf 1 10 1, entryOf 2 20 2]⟩, ⟨thirdPending, [entryOf 3 30 3]⟩] := by
  have h₀ : flushes mtsConfig 0 (freshStore mtsConfig) (.put 1 10 1) = false := rfl
  have h₁ : flushes mtsConfig 0 onePending (.put 2 20 2) = false := rfl
  have h₂ : flushes mtsConfig 0 afterForce (.put 3 30 3) = false := rfl
  rw [leftoverRun, flushPoints_cons doCall_onePending, flushPoints_cons doCall_twoPending,
    flushPoints_cons doCall_afterForce, flushPoints_cons doCall_thirdPending, flushPoints_singleton]
  simp only [nextBatch, h₀, h₁, h₂, flushes_force, if_true, Bool.false_eq_true, if_false, List.nil_append,
    List.cons_append]

theorem flushPoints_forcedPair :
    flushPoints mtsConfig insertion 0 (freshStore mtsConfig) [] (leftoverRun.take 3) =
      [⟨twoPending, [entryOf 1 10 1, entryOf 2 20 2]⟩] := by
  have h₀ : flushes mtsConfig 0 (freshStore mtsConfig) (.put 1 10 1) = false := rfl
  have h₁ : flushes mtsConfig 0 onePending (.put 2 20 2) = false := rfl
  rw [leftoverRun, List.take_succ_cons, List.take_succ_cons, List.take_succ_cons, List.take_zero,
    flushPoints_cons doCall_onePending, flushPoints_cons doCall_twoPending, flushPoints_singleton]
  simp only [nextBatch, h₀, h₁, flushes_force, if_true, Bool.false_eq_true, if_false, List.nil_append,
    List.cons_append]

/-! ## Every flush of a run -/

/-- Every flush of every run of a writer slot links each `at_entry` of its batch to
its own entry, provided that no flush scans a leftover entry that sorts among the
batch. -/
theorem flushPoints_good (cfg : Config) (S : StdSort) (w : ℕ) (s : Store A) (calls : List (Call A))
    (hidle : (s.wChunk w).entryOffset = 0) (hmoved : (s.wChunk w).movedEntryList = [])
    (hadm : ∀ f ∈ flushPoints cfg S w s [] calls, f.Admissible)
    (hclean : ∀ f ∈ flushPoints cfg S w s [] calls, f.Clean cfg w) :
    ∀ f ∈ flushPoints cfg S w s [] calls, f.Good cfg S w := by
  intro f hf
  have hp := pending_of_mem_flushPoints (.of_idle hidle hmoved) hf
  exact hp.flush_good (hadm f hf).2 (hclean f hf)

/-- The first forced chunk of the run is scanned over a zeroed buffer. -/
theorem flushPoints_good_forcedPair : FlushPoint.Good mtsConfig insertion 0
    ⟨twoPending, [entryOf 1 10 1, entryOf 2 20 2]⟩ := by
  have hscan : (scanBuffer mtsConfig (twoPending.wChunk 0).wBuffer).drop 2 = [] :=
    List.isEmpty_iff.mp rfl
  refine flushPoints_good mtsConfig insertion 0 (freshStore mtsConfig) (leftoverRun.take 3) rfl rfl
    ?_ ?_ _ (by rw [flushPoints_forcedPair]; simp)
  · simp [flushPoints_forcedPair, FlushPoint.Admissible, entryOf]
  · intro f hf
    rw [flushPoints_forcedPair, List.mem_singleton] at hf
    subst hf
    intro e _ x hx
    simp [hscan] at hx

/-- The third entry is forced out alone, and its `at_entry` is linked to the slot that
holds the second one. -/
theorem leftoverRun_not_good :
    (∀ f ∈ flushPoints mtsConfig insertion 0 (freshStore mtsConfig) [] leftoverRun, f.Admissible) ∧
      ¬ ∀ f ∈ flushPoints mtsConfig insertion 0 (freshStore mtsConfig) [] leftoverRun,
        f.Good mtsConfig insertion 0 := by
  rw [flushPoints_leftoverRun]
  refine ⟨by simp [FlushPoint.Admissible, entryOf], fun h => ?_⟩
  obtain ⟨s', hs', hgood⟩ := h ⟨thirdPending, [entryOf 3 30 3]⟩ (by simp)
  have heq : s' = afterThird := Option.some.inj (hs'.symm.trans flush_thirdPending)
  obtain ⟨e, he, -, i, hi, hidx, hdisk⟩ := hgood 3 ⟨entryOf 3 30 3, by simp, rfl⟩
  have hchunk : (thirdPending.wChunk 0).chunkOffset = 1 := rfl
  have hslot : (afterThird.table 3).vsIdx.vsOffset = mtsConfig.slotOffset 1 0 := rfl
  have hkey : (afterThird.disk 1 0).key = 2 := rfl
  simp only [heq, hchunk] at hidx hdisk
  have hoff : mtsConfig.slotOffset 1 0 = mtsConfig.slotOffset 1 i := by
    rw [hidx] at hslot
    exact (Int.ofNat.inj hslot).symm
  have hzero : 0 = i := (mtsConfig.slotOffset_inj mtsConfig.entries_pos hi hoff).2
  rw [← hzero, List.mem_singleton.mp he] at hdisk
  rw [hdisk] at hkey
  exact absurd hkey (by decide)

end Hkv.ValueStorage
