import Hkv.GarbageCollection

/-!
# A collection needs one free chunk

A chunk that a collection writes was free. It is written when it is full or when no
victim is left, and either way some victim was drained for it and joins the free list
by the sync. So the next target is always found, and the chunks in use do not become
more. None of this needs the links of the address table: a record that
`gc_link_to_at` skips only leaves a slot of the target unused.
-/
namespace Hkv.ValueStorage
open MtsConfig TaggedPointer AddressTable KeyedSort

variable {A : Type}

/-- The number of chunks that hold a valid entry. -/
def nonEmptyCount (cfg : Config) (s : Store A) : ℕ :=
  ((Finset.range cfg.chunkNum).filter fun c => isEmpty cfg s c = false).card

/-- The valid slots of chunk `c` hold entries with an `at_entry`. -/
def Named (cfg : Config) (s : Store A) (c : ℕ) : Prop :=
  ∀ e < cfg.entriesPerChunk, s.bitmap c e = true → (s.disk c e).atEntry.isSome = true

variable {cfg : Config} {S : StdSort} {s s' : Store A}

theorem nonEmptyCount_le {t c : ℕ} (hother : ∀ d, d ≠ t → isEmpty cfg s d = true → isEmpty cfg s' d = true)
    (hlt : c < cfg.chunkNum) (hc : isEmpty cfg s c = false) (hc' : isEmpty cfg s' c = true) :
    nonEmptyCount cfg s' ≤ nonEmptyCount cfg s := by
  set used := (Finset.range cfg.chunkNum).filter fun c => isEmpty cfg s c = false with hused
  have hmem : c ∈ used := Finset.mem_filter.mpr ⟨Finset.mem_range.mpr hlt, hc⟩
  have hsub : ((Finset.range cfg.chunkNum).filter fun c => isEmpty cfg s' c = false) ⊆ insert t (used.erase c) := by
    intro d hd
    obtain ⟨hdlt, hd'⟩ := Finset.mem_filter.mp hd
    by_cases hdt : d = t
    · exact hdt ▸ Finset.mem_insert_self _ _
    refine Finset.mem_insert_of_mem (Finset.mem_erase.mpr ⟨?_, Finset.mem_filter.mpr ⟨hdlt, ?_⟩⟩)
    · rintro rfl
      rw [hc'] at hd'
      cases hd'
    · refine Bool.eq_false_iff.mpr fun he => ?_
      rw [hother d hdt he] at hd'
      cases hd'
  calc nonEmptyCount cfg s' ≤ (insert t (used.erase c)).card := Finset.card_le_card hsub
    _ ≤ (used.erase c).card + 1 := Finset.card_insert_le _ _
    _ = nonEmptyCount cfg s := Finset.card_erase_add_one hmem

/-! ## Free chunks -/

theorem dropUsed_of_exists {cs : List ℕ} (h : ∃ c ∈ cs, isEmpty cfg s c = true) :
    ∃ t ts, dropUsed cfg s cs = t :: ts ∧ isEmpty cfg s t = true ∧ (∀ c ∈ t :: ts, c ∈ cs) := by
  induction cs with
  | nil => simp at h
  | cons c cs ih =>
    cases hc : isEmpty cfg s c with
    | true => exact ⟨c, cs, by simp [dropUsed, hc], hc, fun _ hx => hx⟩
    | false =>
      obtain ⟨t, ts, hd, ht, hsub⟩ := ih (by simpa [hc] using h)
      exact ⟨t, ts, by simp [dropUsed, hc, hd], ht, fun x hx => List.mem_cons_of_mem _ (hsub x hx)⟩

theorem getFreeChunkOffset_of_exists (hlist : ∀ c ∈ s.freeChunkList, c < cfg.chunkNum)
    (h : ∃ c ∈ s.freeChunkList, isEmpty cfg s c = true) :
    ∃ t ts, getFreeChunkOffset cfg s = some (t, { s with freeChunkList := ts }) ∧ isEmpty cfg s t = true ∧
      ∀ c ∈ ts, c ∈ s.freeChunkList := by
  obtain ⟨t, ts, hd, ht, hsub⟩ := dropUsed_of_exists h
  have hlt : t < cfg.chunkNum := hlist t (hsub t List.mem_cons_self)
  exact ⟨t, ts, by simp [getFreeChunkOffset, hd, hlt], ht, fun c hc => hsub c (List.mem_cons_of_mem _ hc)⟩

theorem unlinkToAt_freed {v j c : ℕ} (h : isEmpty cfg (unlinkToAt cfg s v j) c = true) :
    isEmpty cfg s c = true ∨ c ∈ (unlinkToAt cfg s v j).freeChunkList := by
  by_cases hc : c = v
  · subst hc
    unfold unlinkToAt clearVsBitmapInfo at h ⊢
    split_ifs at h ⊢ with hbit hzero
    · exact .inr (List.mem_append_right _ (List.mem_singleton.mpr rfl))
    · simp [isEmpty, hzero] at h
    · exact .inl h
  · refine .inl ?_
    rwa [← isEmpty_congr (s := s)]
    funext e
    simp [unlinkToAt_bitmap, hc]

theorem mem_unlinkToAt {v j c : ℕ} (h : c ∈ s.freeChunkList) : c ∈ (unlinkToAt cfg s v j).freeChunkList := by
  unfold unlinkToAt clearVsBitmapInfo
  split_ifs
  · exact List.mem_append_left _ h
  · exact h
  · exact h

/-! ## The sync -/

/-- What relinking the records `ms`, with all inserts in chunk `t`, does outside `t`. -/
structure Swept (cfg : Config) (t : ℕ) (ms : List (MovedEntry A)) (s s' : Store A) : Prop where
  disk : s'.disk = s.disk
  gcWChunk : s'.gcWChunk = s.gcWChunk
  gcRBuffer : s'.gcRBuffer = s.gcRBuffer
  bits : ∀ c e, c ≠ t → (s'.bitmap c e = true ↔ s.bitmap c e = true ∧
    ¬ ∃ m ∈ ms, m.opType = .remove ∧ m.chunkOffset = c ∧ m.entryOffset = e)
  listed : ∀ c ∈ s'.freeChunkList, c ∈ s.freeChunkList ∨ ∃ m ∈ ms,
    m.opType = .remove ∧ m.chunkOffset = c
  kept : ∀ c ∈ s.freeChunkList, c ∈ s'.freeChunkList
  freed : ∀ c, c ≠ t → isEmpty cfg s' c = true → isEmpty cfg s c = true ∨ c ∈ s'.freeChunkList

theorem Swept.cons {t : ℕ} {m : MovedEntry A} {ms : List (MovedEntry A)} {s₁ s₂ s₃ : Store A}
    (h : Swept cfg t [m] s₁ s₂) (h' : Swept cfg t ms s₂ s₃) : Swept cfg t (m :: ms) s₁ s₃ where
  disk := h'.disk.trans h.disk
  gcWChunk := h'.gcWChunk.trans h.gcWChunk
  gcRBuffer := h'.gcRBuffer.trans h.gcRBuffer
  bits := by
    intro c e hc
    rw [h'.bits c e hc, h.bits c e hc]
    simp only [List.mem_cons, List.not_mem_nil, or_false, exists_eq_left, exists_eq_or_imp,
      not_or, and_assoc]
  listed := by
    intro c hc
    rcases h'.listed c hc with hc | ⟨x, hx, hxc⟩
    · refine (h.listed c hc).imp id ?_
      rintro ⟨x, hx, hxc⟩
      exact ⟨x, List.mem_singleton.mp hx ▸ List.mem_cons_self, hxc⟩
    · exact .inr ⟨x, List.mem_cons_of_mem _ hx, hxc⟩
  kept := fun c hc => h'.kept c (h.kept c hc)
  freed := by
    intro c hct hc
    rcases h'.freed c hct hc with hc | hc
    · exact (h.freed c hct hc).imp id (h'.kept c)
    · exact .inr hc

theorem gcLinkToAt_swept [DecidableEq A] {m : MovedEntry A} (hop : m.opType = .insert)
    (ha : m.atEntry.isSome = true) : ∃ s', gcLinkOne cfg s m = some s' ∧ Swept cfg m.chunkOffset [m] s s' := by
  obtain ⟨a, ha⟩ := Option.isSome_iff_exists.mp ha
  have hsome : ∃ s', gcLinkOne cfg s m = some s' := by
    simp only [gcLinkOne, hop, ha, gcLinkToAt]
    split <;> exact ⟨_, rfl⟩
  obtain ⟨s', hs'⟩ := hsome
  obtain ⟨-, hdisk, hgw, hgr, -⟩ := gcLinkOne_spec hs'
  have hspace : gcLinkToAt cfg s m.chunkOffset m.entryOffset m.atEntry = some s' := by
    simpa only [gcLinkOne, hop] using hs'
  obtain ⟨hfree, hbits⟩ := gcLinkToAt_space hspace
  have hbit : ∀ c, c ≠ m.chunkOffset → s'.bitmap c = s.bitmap c := by
    intro c hc
    rcases hbits with hb | hb
    · rw [hb]
    · simp [hb, setVsBitmapInfo, hc]
  refine ⟨s', hs', hdisk, hgw, hgr, fun c e hc => ?_, fun c hc => .inl (hfree ▸ hc), fun c hc => hfree ▸ hc,
    fun c hct hc => .inl ?_⟩
  · simp [hbit c hc, hop]
  · rwa [isEmpty_congr (hbit c hct)] at hc

theorem unlinkToAt_swept {m : MovedEntry A} (t : ℕ) (hop : m.opType = .remove) :
    Swept cfg t [m] s (unlinkToAt cfg s m.chunkOffset m.entryOffset) := by
  obtain ⟨-, hdisk, -, hgw, hgr⟩ := unlinkToAt_fields cfg s m.chunkOffset m.entryOffset
  refine ⟨hdisk, hgw, hgr, fun c e _ => ?_, fun c hc => ?_, fun c hc => mem_unlinkToAt hc,
    fun c _ hc => unlinkToAt_freed hc⟩
  · simp only [unlinkToAt_bitmap, Bool.and_eq_true, Bool.not_eq_true', decide_eq_false_iff_not, List.mem_singleton,
      exists_eq_left, hop, true_and, eq_comm (a := m.chunkOffset), eq_comm (a := m.entryOffset)]
  · exact (unlinkToAt_listed hc).imp id fun hv => ⟨m, List.mem_singleton.mpr rfl, hop, hv.1.symm⟩

theorem gcLinkAll_swept [DecidableEq A] {t : ℕ} {ms : List (MovedEntry A)}
    (h : ∀ m ∈ ms, m.opType = .insert → m.chunkOffset = t ∧ m.atEntry.isSome = true) :
    ∃ s', gcLinkAll cfg s ms = some s' ∧ Swept cfg t ms s s' := by
  induction ms generalizing s with
  | nil => exact ⟨s, rfl, rfl, rfl, rfl, by simp, fun _ hc => .inl hc, fun _ hc => hc, fun _ _ hc => .inl hc⟩
  | cons m ms ih =>
    have hone : ∃ s₁, gcLinkOne cfg s m = some s₁ ∧ Swept cfg t [m] s s₁ := by
      cases hop : m.opType with
      | insert =>
        obtain ⟨rfl, ha⟩ := h m List.mem_cons_self hop
        exact gcLinkToAt_swept hop ha
      | remove => exact ⟨_, by simp [gcLinkOne, hop], unlinkToAt_swept t hop⟩
    obtain ⟨s₁, hm, h₁⟩ := hone
    obtain ⟨s', hms, h₂⟩ := ih (s := s₁) fun x hx => h x (List.mem_cons_of_mem _ hx)
    exact ⟨s', by simp [gcLinkAll, hm, hms], h₁.cons h₂⟩

theorem exists_remove_iff {t c e : ℕ} {ps : List (Copy A)} :
    (∃ m ∈ sortMovedEntry S (copiesMoved t 0 ps), m.opType = .remove ∧ m.chunkOffset = c ∧
      m.entryOffset = e) ↔ ∃ p ∈ ps, p.chunk = c ∧ p.slot = e := by
  constructor
  · rintro ⟨m, hm, hop, rfl, rfl⟩
    obtain ⟨m', hm', hc, he, hop'⟩ := mem_of_mem_sortMovedEntry hm
    obtain ⟨p, hp, -, ⟨hins, -⟩ | ⟨-, hpc, hps⟩⟩ := mem_copiesMoved hm'
    · simp [hop', hop] at hins
    · exact ⟨p, hp, hpc.trans hc, hps.trans he⟩
  · rintro ⟨p, hp, rfl, rfl⟩
    have hmem := List.mem_map_of_mem (f := fun m : MovedEntry A => (m.opType, m.chunkOffset, m.entryOffset))
      (remove_mem_copiesMoved (t := t) hp 0)
    rw [← map_sortMovedEntry S _ _ fun _ _ => rfl, List.mem_map] at hmem
    obtain ⟨m, hm, heq⟩ := hmem
    simp only [Prod.mk.injEq] at heq
    exact ⟨m, hm, heq⟩

/-! ## Filling one target -/

/-- The collector has an empty chunk open and holds the copies `ps` of valid entries;
at most `n` chunks are in use. -/
structure Gathering (cfg : Config) (n : ℕ) (s : Store A) (ps : List (Copy A)) : Prop where
  target : isEmpty cfg s s.gcWChunk.chunkOffset = true
  moved : s.gcWChunk.movedEntryList = copiesMoved s.gcWChunk.chunkOffset 0 ps
  source : ∀ p ∈ ps, p.chunk < cfg.chunkNum ∧ p.slot < cfg.entriesPerChunk ∧ s.bitmap p.chunk p.slot = true
  named : ∀ p ∈ ps, p.entry.atEntry.isSome = true
  nodup : (ps.map fun p => (p.chunk, p.slot)).Nodup
  listed : ∀ c ∈ s.freeChunkList, c < cfg.chunkNum
  count : nonEmptyCount cfg s ≤ n

/-- The copies `ps` are written and their sources cleared. -/
structure Synced (cfg : Config) (s s' : Store A) (ps : List (Copy A)) : Prop where
  moved : s'.gcWChunk.movedEntryList = []
  gcRBuffer : s'.gcRBuffer = s.gcRBuffer
  disk : ∀ c, c ≠ s.gcWChunk.chunkOffset → s'.disk c = s.disk c
  source : ∀ c e, c ≠ s.gcWChunk.chunkOffset → (s'.bitmap c e = true ↔
    s.bitmap c e = true ∧ ∀ p ∈ ps, ¬ (p.chunk = c ∧ p.slot = e))
  listed : ∀ c ∈ s'.freeChunkList, c < cfg.chunkNum
  freed : ∀ c, c ≠ s.gcWChunk.chunkOffset → isEmpty cfg s' c = true →
    isEmpty cfg s c = true ∨ c ∈ s'.freeChunkList

section Target
variable {n : ℕ} {ps : List (Copy A)}

theorem Gathering.nonEmpty (h : Gathering cfg n s ps) {p : Copy A} (hp : p ∈ ps) :
    isEmpty cfg s p.chunk = false := by
  obtain ⟨-, he, hbit⟩ := h.source p hp
  refine Bool.eq_false_iff.mpr fun hempty => ?_
  rw [isEmpty_iff.mp hempty _ he] at hbit
  cases hbit

theorem Gathering.chunk_ne (h : Gathering cfg n s ps) {p : Copy A} (hp : p ∈ ps) :
    p.chunk ≠ s.gcWChunk.chunkOffset := fun heq => by
  have hused := h.nonEmpty hp
  rw [heq, h.target] at hused
  cases hused

theorem Gathering.flush [DecidableEq A] (h : Gathering cfg n s ps) :
    ∃ s', gcFlush cfg S s = some s' ∧ Synced cfg s s' ps := by
  set ms := sortMovedEntry S (copiesMoved s.gcWChunk.chunkOffset 0 ps) with hms
  have hinsert : ∀ m ∈ ms, m.opType = .insert → m.chunkOffset = s.gcWChunk.chunkOffset ∧
    m.atEntry.isSome = true := by
    intro m hm hop
    obtain ⟨m', hm', hc, -, hop'⟩ := mem_of_mem_sortMovedEntry hm
    obtain ⟨x, hx, hxm⟩ := List.mem_map.mp ((perm_sortMovedEntry S _).mem_iff.mp (List.mem_map_of_mem hm))
    obtain ⟨p, hp, hpx, -⟩ := mem_copiesMoved hx
    obtain ⟨-, -, -, ⟨-, ht⟩ | ⟨hrem, -⟩⟩ := mem_copiesMoved hm'
    · exact ⟨hc.symm.trans ht, by rw [← hxm, hpx, h.named p hp]⟩
    · simp [hop', hop] at hrem
  obtain ⟨s₂, hrun, hw⟩ := gcLinkAll_swept (s := writeGcWChunk cfg S s) hinsert
  have hmoved : (writeGcWChunk cfg S s).gcWChunk.movedEntryList = copiesMoved s.gcWChunk.chunkOffset 0 ps := h.moved
  refine ⟨{ s₂ with gcWChunk := { s₂.gcWChunk with movedEntryList := [] } }, ?_, rfl, hw.gcRBuffer, ?_, ?_, ?_,
    hw.freed⟩
  · rw [gcFlush, gcSyncWithAt, hmoved, hrun]
    rfl
  · intro c hc
    have htarget : c ≠ (sortWBuffer cfg S s.gcWChunk).chunkOffset := hc
    simp [hw.disk, writeGcWChunk, htarget]
  · intro c e hc
    have hbits := hw.bits c e hc
    rw [exists_remove_iff] at hbits
    rw [hbits]
    push Not
    rfl
  · intro c hc
    rcases hw.listed c hc with hc | ⟨m, hm, hop, rfl⟩
    · exact h.listed c hc
    · obtain ⟨p, hp, hpc, -⟩ := exists_remove_iff.mp ⟨m, hm, hop, rfl, rfl⟩
      exact hpc ▸ (h.source p hp).1

theorem Synced.isEmpty_of_ne (h : Synced cfg s s' ps) {c : ℕ} (hc : c ≠ s.gcWChunk.chunkOffset)
    (he : isEmpty cfg s c = true) : isEmpty cfg s' c = true := by
  refine isEmpty_iff.mpr fun e hlt => Bool.eq_false_iff.mpr fun hb => ?_
  have hzero := isEmpty_iff.mp he e hlt
  rw [((h.source c e hc).mp hb).1] at hzero
  cases hzero

theorem Synced.paid (h : Synced cfg s s' ps) (hg : Gathering cfg n s ps) {p : Copy A} (hp : p ∈ ps)
    (hdr : Drained cfg s ps p.chunk) :
    (∃ c ∈ s'.freeChunkList, isEmpty cfg s' c = true) ∧ nonEmptyCount cfg s' ≤ n := by
  have hct := hg.chunk_ne hp
  have hempty : isEmpty cfg s' p.chunk = true := by
    refine isEmpty_iff.mpr fun e he => Bool.eq_false_iff.mpr fun hb => ?_
    obtain ⟨hb₀, hno⟩ := (h.source p.chunk e hct).mp hb
    obtain ⟨q, hq, hqe⟩ := hdr e he hb₀
    exact hno q hq hqe
  refine ⟨⟨p.chunk, (h.freed _ hct hempty).resolve_left (by simp [hg.nonEmpty hp]), hempty⟩, ?_⟩
  exact (nonEmptyCount_le (fun d hd he => h.isEmpty_of_ne hd he) (hg.source p hp).1 (hg.nonEmpty hp) hempty).trans
    hg.count

theorem initGcWChunk_gathering (hlist : ∀ c ∈ s.freeChunkList, c < cfg.chunkNum)
    (hfree : ∃ c ∈ s.freeChunkList, isEmpty cfg s c = true) (hmoved : s.gcWChunk.movedEntryList = [])
    (hcount : nonEmptyCount cfg s ≤ n) : ∃ s', initGcWChunk cfg s = some s' ∧ Gathering cfg n s' [] ∧
      s'.bitmap = s.bitmap ∧ s'.disk = s.disk ∧ s'.gcRBuffer = s.gcRBuffer := by
  obtain ⟨t, ts, hget, ht, hsub⟩ := getFreeChunkOffset_of_exists hlist hfree
  have hinit : initGcWChunk cfg s = some { s with
      freeChunkList := ts
      gcWChunk := { s.gcWChunk with isInit := true, chunkOffset := t, entryOffset := 0 } } := by
    rw [initGcWChunk, hget]
    rfl
  refine ⟨_, hinit, ?_, rfl, rfl, rfl⟩
  exact ⟨ht, hmoved, by simp, by simp, List.nodup_nil, fun c hc => hlist c (hsub c hc), hcount⟩

end Target

/-! ## The loop over the victims -/

/-- Between two victims. -/
structure Paused (cfg : Config) (n : ℕ) (g : GcState A) (ps : List (Copy A)) (rest : List (ℕ × ℕ)) : Prop where
  gathering : Gathering cfg n g.store ps
  offset : g.wOffset = ps.length
  room : ps.length < cfg.entriesPerChunk
  drained : ∀ p ∈ ps, Drained cfg g.store ps p.chunk
  unvisited : Unvisited cfg g.store ps rest
  named : ∀ x ∈ rest, Named cfg g.store x.1

/-- Inside victim `v`, with the slots below `i` done. -/
structure Visiting (cfg : Config) (n v i : ℕ) (g : GcState A) (ps : List (Copy A)) (rest : List (ℕ × ℕ)) :
    Prop where
  gathering : Gathering cfg n g.store ps
  offset : g.wOffset = ps.length
  room : ps.length < cfg.entriesPerChunk
  walked : Walked cfg g.store v i ps rest
  buffer : ∀ j < cfg.entriesPerChunk, g.store.bitmap v j = true → (g.store.gcRBuffer j).atEntry.isSome = true
  named : ∀ x ∈ rest, Named cfg g.store x.1

section Loop
variable {n v i : ℕ} {g : GcState A} {ps : List (Copy A)} {rest : List (ℕ × ℕ)}

theorem Paused.enter {k : ℕ} (h : Paused cfg n g ps ((v, k) :: rest)) (hk : k ≠ cfg.entriesPerChunk) :
    Visiting cfg n v 0 { g with store := readGcRChunk g.store v } ps rest := by
  have hg := h.gathering
  have hw : Walked cfg g.store v 0 ps rest := .enter h.unvisited h.drained hk
  exact ⟨⟨hg.target, hg.moved, hg.source, hg.named, hg.nodup, hg.listed, hg.count⟩, h.offset, h.room,
    hw.of_bitmap rfl, h.named (v, k) List.mem_cons_self, fun x hx => h.named x (List.mem_cons_of_mem _ hx)⟩

theorem Visiting.leave (h : Visiting cfg n v cfg.entriesPerChunk g ps rest) (used : ℤ) :
    Paused cfg n { g with usedChunkNum := used } ps rest :=
  ⟨h.gathering, h.offset, h.room, h.walked.leave, h.walked.unvisited, h.named⟩

theorem Visiting.copy (h : Visiting cfg n v i g ps rest) (hi : i < cfg.entriesPerChunk)
    (hbit : g.store.bitmap v i = true) :
    Gathering cfg n (gcCopyEntry g.store v g.wOffset i) (ps ++ [⟨v, i, g.store.gcRBuffer i⟩]) := by
  have hg := h.gathering
  refine ⟨hg.target, ?_, ?_, ?_, h.walked.nodup_copy hg.nodup _, hg.listed, hg.count⟩
  · have hmoved := copiesMoved_concat g.store.gcWChunk.chunkOffset 0 ps ⟨v, i, g.store.gcRBuffer i⟩
    rw [Nat.zero_add, ← hg.moved, ← h.offset] at hmoved
    exact hmoved.symm
  · intro p hp
    rcases List.mem_append.mp hp with hp | hp
    · exact hg.source p hp
    · rw [List.mem_singleton.mp hp]
      exact ⟨h.walked.victim_lt, hi, hbit⟩
  · intro p hp
    rcases List.mem_append.mp hp with hp | hp
    · exact hg.named p hp
    · rw [List.mem_singleton.mp hp]
      exact h.buffer i hi hbit

theorem Visiting.walked_copy (h : Visiting cfg n v i g ps rest) :
    Walked cfg (gcCopyEntry g.store v g.wOffset i) v (i + 1) (ps ++ [⟨v, i, g.store.gcRBuffer i⟩]) rest :=
  (h.walked.copy _).of_bitmap rfl

variable [DecidableEq A]

/-- A full chunk is written: the count still holds, and a walk that goes on finds a
new target. -/
theorem Visiting.flush_full (h : Visiting cfg n v i g ps rest) (hi : i < cfg.entriesPerChunk)
    (hbit : g.store.bitmap v i = true) (hfull : ps.length + 1 = cfg.entriesPerChunk) (used : ℤ) :
    ∃ s', gcFlush cfg S (gcCopyEntry g.store v g.wOffset i) = some s' ∧ nonEmptyCount cfg s' ≤ n ∧
      ∃ s'', initGcWChunk cfg s' = some s'' ∧ Visiting cfg n v (i + 1) ⟨s'', 0, used⟩ [] rest := by
  have hg := h.copy hi hbit
  have hw := h.walked_copy
  obtain ⟨s', hrun, hs⟩ := hg.flush (S := S)
  obtain ⟨p, hp, hdr⟩ := hw.exists_drained (by simpa using hfull) hg.nodup
    fun p hp => ⟨(hg.source p hp).2.1, (hg.source p hp).2.2⟩
  obtain ⟨hfree, hcount⟩ := hs.paid hg hp hdr
  obtain ⟨s'', hinit, hnew, hbm, hdk, hrb⟩ := initGcWChunk_gathering hs.listed hfree hs.moved hcount
  have hvt : v ≠ (gcCopyEntry g.store v g.wOffset i).gcWChunk.chunkOffset :=
    hg.chunk_ne (p := ⟨v, i, g.store.gcRBuffer i⟩) (by simp)
  refine ⟨s', hrun, hcount, s'', hinit, hnew, rfl, cfg.entries_pos,
    (hw.flushed hvt hg.target hs.source).of_bitmap hbm, fun j hj hb => ?_, fun x hx e he hb => ?_⟩
  · rw [hbm] at hb
    rw [hrb, hs.gcRBuffer]
    exact h.buffer j hj ((hs.source v j hvt).mp hb).1
  · -- an unvisited victim is not the target, which was empty
    have hxt : x.1 ≠ (gcCopyEntry g.store v g.wOffset i).gcWChunk.chunkOffset := fun heq => by
      obtain ⟨-, hcnt, hpos, -⟩ := hw.unvisited.2 x hx
      have hzero := hg.target
      rw [← heq, isEmpty, hcnt, beq_iff_eq] at hzero
      omega
    rw [hbm] at hb
    rw [hdk, hs.disk x.1 hxt]
    exact h.named x hx e he ((hs.source x.1 e hxt).mp hb).1

theorem gcMoveEntry_visiting (before : ℤ) (h : Visiting cfg n v i g ps rest) (hi : i < cfg.entriesPerChunk) :
    (∃ s', gcMoveEntry cfg S before v i g = some (.returned s') ∧ nonEmptyCount cfg s' ≤ n) ∨
      ∃ g', gcMoveEntry cfg S before v i g = some (.running g') ∧ ∃ ps',
      Visiting cfg n v (i + 1) g' ps' rest := by
  cases hbit : g.store.bitmap v i with
  | false => exact Or.inr ⟨g, by simp [gcMoveEntry, hbit], ps, { h with walked := h.walked.skip hbit }⟩
  | true =>
    have hoff := h.offset
    by_cases hfull : g.wOffset = cfg.entriesPerChunk - 1
    · have hpos := cfg.entries_pos
      obtain ⟨s', hrun, hcount, s'', hinit, hin⟩ :=
        h.flush_full (S := S) hi hbit (by omega) (g.usedChunkNum + 1)
      rw [hfull] at hrun
      cases hstop : gcStops cfg before (g.usedChunkNum + 1) with
      | true => exact Or.inl ⟨s', by simp [gcMoveEntry, hbit, hfull, hrun, hstop], hcount⟩
      | false => exact Or.inr ⟨_, by simp [gcMoveEntry, hbit, hfull, hrun, hstop, hinit], [], hin⟩
    · have hroom := h.room
      refine Or.inr ⟨⟨gcCopyEntry g.store v g.wOffset i, g.wOffset + 1, g.usedChunkNum⟩,
        by simp [gcMoveEntry, hbit, hfull], _, h.copy hi hbit, ?_, ?_, h.walked_copy, h.buffer, h.named⟩
      · simp [hoff]
      · rw [List.length_append, List.length_singleton]
        omega

theorem gcFinish_paused (h : Paused cfg n g ps rest) :
    ∃ s', gcFinish cfg S g.store = some s' ∧ nonEmptyCount cfg s' ≤ n := by
  have hg := h.gathering
  cases ps with
  | nil =>
    have hmoved : g.store.gcWChunk.movedEntryList = [] := hg.moved
    have hrun : gcFinish cfg S g.store = some (addFreeChunkList g.store g.store.gcWChunk.chunkOffset) := by
      simp [gcFinish, hmoved]
    exact ⟨_, hrun, hg.count⟩
  | cons p ps =>
    obtain ⟨s', hrun, hs⟩ := hg.flush (S := S)
    have hne : g.store.gcWChunk.movedEntryList.isEmpty = false := by rw [hg.moved]; rfl
    exact ⟨s', by simp [gcFinish, hne, hrun], (hs.paid hg List.mem_cons_self (h.drained p List.mem_cons_self)).2⟩

end Loop

/-- A collection that runs alone returns when some chunk is free, and leaves no more
chunks in use than it found. That it returns says that each `get_free_chunk_offset` on
its way found a chunk: the model has no result otherwise. Between two collections the
collector's record list is empty, and a valid slot holds an entry with an `at_entry`. -/
theorem garbageCollection_nonEmptyCount_le [DecidableEq A] (cfg : Config) (S : StdSort) (opened : Set ℕ)
    (s : Store A) (hfree : FreeOk cfg opened s) (hne : s.freeChunkList ≠ [])
    (hmoved : s.gcWChunk.movedEntryList = []) (hnamed : ∀ c < cfg.chunkNum, Named cfg s c) :
    ∃ s', garbageCollection cfg S s = some s' ∧ nonEmptyCount cfg s' ≤ nonEmptyCount cfg s := by
  have hlist : ∀ c ∈ s.freeChunkList, c < cfg.chunkNum ∧ isEmpty cfg s c = true := fun c hc =>
    ⟨((hfree.mem_iff c).mp hc).1, ((hfree.mem_iff c).mp hc).2.1⟩
  obtain ⟨c, hc⟩ := List.exists_mem_of_ne_nil _ hne
  have hunv := createUsedChunkList_unvisited cfg S s
  rw [garbageCollection]
  split
  · rename_i c₁ n₁ c₂ n₂ rest hused
    split
    · exact ⟨s, rfl, le_rfl⟩
    · rw [hused] at hunv
      obtain ⟨s₁, hinit, hg, hbm, hdk, -⟩ := initGcWChunk_gathering (fun c hc => (hlist c hc).1)
        ⟨c, hc, (hlist c hc).2⟩ hmoved le_rfl
      have hstart : Paused cfg (nonEmptyCount cfg s) ⟨s₁, 0, usedChunkNumInt cfg s⟩ []
          ((c₁, n₁) :: (c₂, n₂) :: rest) := by
        refine ⟨hg, rfl, cfg.entries_pos, by simp, hunv.of_bitmap hbm, fun x hx e he hb => ?_⟩
        rw [hbm] at hb
        rw [hdk]
        exact hnamed x.1 (hunv.2 x hx).1 e he hb
      have hloop := gcVictims_rule S (usedChunkNumInt cfg s)
        (fun g rest => ∃ ps, Paused cfg (nonEmptyCount cfg s) g ps rest)
        (fun v i g rest => ∃ ps, Visiting cfg (nonEmptyCount cfg s) v i g ps rest)
        (fun s' => nonEmptyCount cfg s' ≤ nonEmptyCount cfg s)
        (by rintro g v k rest ⟨ps, h⟩ hk; exact ⟨ps, h.enter hk⟩)
        (by rintro v rest i hi g ⟨ps, h⟩; exact gcMoveEntry_visiting _ h hi)
        (by rintro g v rest ⟨ps, h⟩; exact ⟨ps, h.leave _⟩)
        (by rintro g rest ⟨ps, h⟩; exact gcFinish_paused h) ⟨[], hstart⟩
      obtain ⟨s', hrun, hcount⟩ := hloop
      exact ⟨s', by simp [hinit, hrun], hcount⟩
  · exact ⟨s, rfl, le_rfl⟩

/-- Chunks 0 and 1 are gathered in chunk 2. -/
theorem garbageCollection_nonEmptyCount_le_halfUsed :
    ∃ s', garbageCollection twoByFour insertion halfUsed = some s' ∧
      nonEmptyCount twoByFour s' ≤ nonEmptyCount twoByFour halfUsed :=
  garbageCollection_nonEmptyCount_le twoByFour insertion ∅ halfUsed halfUsed_coherent.free (by decide) rfl
    fun c _ e _ hb => by
      obtain ⟨hc, rfl⟩ : c < 2 ∧ e = 0 := by simpa [halfUsed] using hb
      have : c = 0 ∨ c = 1 := by omega
      rcases this with rfl | rfl <;> rfl

end Hkv.ValueStorage
