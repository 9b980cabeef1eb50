import Hkv.ChunkPool
import Hkv.UpdateRuns

/-!
# Slots and the entries that are linked to them

A holder of a chunk may still link the slots it awaits; nobody is linked to them, and
their bits are clear. Every linked slot has its bit, except while a collection relinks
the entries it has gathered. So an open chunk that is not written yet has no linked slot.
-/
namespace Hkv.Prism
open MtsConfig TaggedPointer AddressTable KeyedSort ValueStorage StepRun ResourcePool

variable {A : Type}

/-- Entry `a` is linked to slot `i` of chunk `c` of store `v`. -/
structure System.LinkedTo (cfg : Config) (s : System A) (a : A) (v c i : ℕ) : Prop where
  lt : i < cfg.entriesPerChunk
  idx : (s.table a).vsIdx = ⟨v, cfg.slotOffset c i⟩

def GcPc.syncing : GcPc A → Bool
  | .sync .. => true
  | _ => false

/-- The holder may still link slot `i` of its chunk: every slot before the write, then
those of the records to be done. -/
def System.awaits (s : System A) (v : ℕ) : Holder → ℕ → Prop
  | .writer w, i => s.sync v w = none ∨ ∃ m ∈ s.pending v w, m.entryOffset = i
  | .collector, i => (s.gc v).pc.syncing = false ∨ ∃ m ∈ s.gcPending v, m.opType = .insert ∧ m.entryOffset = i

/-- No holder will link slot `i` of chunk `c`. -/
def System.Settled (s : System A) (v c i : ℕ) : Prop := ∀ o, s.opens v o = some c → ¬ s.awaits v o i

/-- The collector of `v` has gathered `ps`; a copy of a slot names the entry linked to it. -/
structure Gathers (cfg : Config) (s : System A) (v : ℕ) (ps : List (Copy A)) : Prop where
  moved : (s.stores v).gcWChunk.movedEntryList = copiesMoved (s.stores v).gcWChunk.chunkOffset 0 ps
  keys : ((ps.map Copy.entry).map VsEntry.key).Nodup
  names : ∀ p ∈ ps, ∀ a, s.LinkedTo cfg a v p.chunk p.slot → p.entry.atEntry = some a

/-- The records of a sync of the collector. -/
structure Relinks (cfg : Config) (s : System A) (v : ℕ) (moved : List (MovedEntry A)) : Prop where
  offsets : ((moved.filter (fun m => m.opType = .insert)).map MovedEntry.entryOffset).Nodup
  names : ∀ m ∈ moved, m.opType = .remove → ∀ a, s.LinkedTo cfg a v m.chunkOffset m.entryOffset →
    ∃ m' ∈ moved, m'.opType = .insert ∧ m'.atEntry = some a

def GcLinks (cfg : Config) (s : System A) (v : ℕ) : GcPc A → Prop
  | .idle => True
  | .victims _ | .entries _ => ∃ ps, Gathers cfg s v ps ∧ (s.gc v).wOffset = ps.length
  | .write _ => ∃ ps, Gathers cfg s v ps
  | .sync moved _ => Relinks cfg s v moved

/-- The invariant for store `v`. -/
structure LinksAt (cfg : Config) (s : System A) (v : ℕ) : Prop where
  unique : ∀ a b c i, s.LinkedTo cfg a v c i → s.LinkedTo cfg b v c i → a = b
  bit : ∀ a c i, s.LinkedTo cfg a v c i → (s.stores v).bitmap c i = true ∨
    ∃ m ∈ (s.gc v).pc.records, m.opType = .insert ∧ m.atEntry = some a
  blank : ∀ o c i, s.opens v o = some c → s.awaits v o i →
    (s.stores v).bitmap c i = false ∧ ∀ a, ¬ s.LinkedTo cfg a v c i
  offsets : ∀ w, ((s.pending v w).map MovedEntry.entryOffset).Nodup
  fill : ∀ w, s.sync v w = none → ∀ m ∈ s.pending v w, m.entryOffset < ((s.stores v).wChunk w).entryOffset
  settled : ∀ m ∈ s.gcPending v, m.opType = .remove → s.Settled v m.chunkOffset m.entryOffset
  collector : GcLinks cfg s v (s.gc v).pc

def Links (cfg : Config) (s : System A) : Prop := ∀ v, LinksAt cfg s v

/-- The entry read for a valid slot of a victim names the entry linked to the slot, and
its key is not gathered yet. -/
def ReadOk (cfg : Config) (s : System A) (v : ℕ) : GcPc A → Prop
  | .entries (victim, i :: _, _) => (s.stores v).bitmap victim i = true →
      (∀ a, s.LinkedTo cfg a v victim i → ((s.stores v).gcRBuffer i).atEntry = some a) ∧
      ∀ m ∈ (s.stores v).gcWChunk.movedEntryList, m.key ≠ ((s.stores v).gcRBuffer i).key
  | _ => True

variable {home : Ptr → Option LogId} {keyOf : A → ℕ} {cfg : Config} {S : StdSort} {s s' : System A}
    {l : LogId} {a : A}
  {v : ℕ}

/-! ## Steps that only take links away -/

theorem Gathers.mono {ps : List (Copy A)} (h : Gathers cfg s v ps)
    (hl : ∀ m ∈ (s.stores v).gcWChunk.movedEntryList, m.opType = .remove → ∀ a,
      s'.LinkedTo cfg a v m.chunkOffset m.entryOffset → s.LinkedTo cfg a v m.chunkOffset m.entryOffset)
    (hg : (s'.stores v).gcWChunk.movedEntryList = (s.stores v).gcWChunk.movedEntryList)
    (hc : (s'.stores v).gcWChunk.chunkOffset = (s.stores v).gcWChunk.chunkOffset) : Gathers cfg s' v ps :=
  ⟨by rw [hg, hc]; exact h.moved, h.keys, fun p hp a ha =>
    h.names p hp a (hl _ (h.moved ▸ remove_mem_copiesMoved hp 0) rfl a ha)⟩

/-- The collector's records survive a step that makes no link to a slot they remove. -/
theorem GcLinks.mono (h : GcLinks cfg s v (s.gc v).pc)
    (hl : ∀ m ∈ s.gcPending v, m.opType = .remove → ∀ a, s'.LinkedTo cfg a v m.chunkOffset m.entryOffset →
      s.LinkedTo cfg a v m.chunkOffset m.entryOffset)
    (hg : (s'.stores v).gcWChunk = (s.stores v).gcWChunk) (hgc : s'.gc v = s.gc v) :
    GcLinks cfg s' v (s'.gc v).pc := by
  have hmono : ∀ ps, (∀ m c, (s.gc v).pc ≠ .sync m c) → Gathers cfg s v ps →
    Gathers cfg s' v ps := fun ps hne hps =>
    hps.mono (by rw [gcPending_of_ne hne] at hl; exact hl) (by rw [hg]) (by rw [hg])
  rw [hgc]
  cases hpc : (s.gc v).pc with
  | idle => trivial
  | victims _ =>
    rw [hpc] at h
    obtain ⟨ps, hps, hlen⟩ := h
    exact ⟨ps, hmono ps (by simp [hpc]) hps, hgc ▸ hlen⟩
  | entries _ =>
    rw [hpc] at h
    obtain ⟨ps, hps, hlen⟩ := h
    exact ⟨ps, hmono ps (by simp [hpc]) hps, hgc ▸ hlen⟩
  | write _ =>
    rw [hpc] at h
    obtain ⟨ps, hps⟩ := h
    exact ⟨ps, hmono ps (by simp [hpc]) hps⟩
  | sync moved cont =>
    rw [hpc] at h
    have hpend : s.gcPending v = moved := by rw [System.gcPending, hpc]
    exact ⟨h.offsets, fun m hm hop a ha => h.names m hm hop a (hl m (hpend ▸ hm) hop a ha)⟩

/-- A step that takes links away, clears bits of slots that are not linked, and opens no
chunk. -/
theorem LinksAt.of_shrink (h : LinksAt cfg s v)
    (hl : ∀ a c i, s'.LinkedTo cfg a v c i → s.LinkedTo cfg a v c i)
    (hbit : ∀ a c i, s'.LinkedTo cfg a v c i → (s.stores v).bitmap c i = true → (s'.stores v).bitmap c i = true)
    (hclear : ∀ c i, (s'.stores v).bitmap c i = true → (s.stores v).bitmap c i = true)
    (hawait : ∀ o c i, s'.opens v o = some c → s'.awaits v o i → s.opens v o = some c ∧ s.awaits v o i)
    (hoffsets : ∀ w, ((s'.pending v w).map MovedEntry.entryOffset).Nodup)
    (hfill : ∀ w, s'.sync v w = none → ∀ m ∈ s'.pending v w,
      m.entryOffset < ((s'.stores v).wChunk w).entryOffset)
    (hgc : s'.gc v = s.gc v) (hg : (s'.stores v).gcWChunk = (s.stores v).gcWChunk) : LinksAt cfg s' v where
  unique a b c i ha hb := h.unique a b c i (hl a c i ha) (hl b c i hb)
  bit a c i ha := by
    rw [hgc]
    exact (h.bit a c i (hl a c i ha)).imp_left (hbit a c i ha)
  blank o c i ho hi := by
    obtain ⟨ho', hi'⟩ := hawait o c i ho hi
    obtain ⟨hzero, hno⟩ := h.blank o c i ho' hi'
    refine ⟨?_, fun a ha => hno a (hl a c i ha)⟩
    by_contra hb
    simp [hclear c i (by simpa using hb)] at hzero
  offsets := hoffsets
  fill := hfill
  settled m hm hop o ho hi := by
    have hrec : s'.gcPending v = s.gcPending v := gcPending_congr (by rw [hg]) (by rw [hgc])
    obtain ⟨ho', hi'⟩ := hawait o _ _ ho hi
    exact h.settled m (hrec ▸ hm) hop o ho' hi'
  collector := h.collector.mono (fun _ _ _ a => hl a _ _) hg hgc

theorem LinksAt.of_same (h : LinksAt cfg s v) (hl : ∀ a c i, s'.LinkedTo cfg a v c i → s.LinkedTo cfg a v c i)
    (hst : s'.stores v = s.stores v) (hsync : s'.sync v = s.sync v) (hgc : s'.gc v = s.gc v) : LinksAt cfg s' v := by
  have hpend : ∀ w, s'.pending v w = s.pending v w := fun w => System.pending_congr (congrFun hsync w) (by rw [hst])
  have hopens : s'.opens v = s.opens v := congrArg Pool.held (pool_of_same hst hgc : s'.pool cfg v = s.pool cfg v)
  have hrec : s'.gcPending v = s.gcPending v := gcPending_congr (by rw [hst]) (by rw [hgc])
  refine h.of_shrink hl (fun _ _ _ _ hb => by rwa [hst]) (fun _ _ hb => by rwa [hst] at hb) (fun o c i ho hi => ?_)
    (fun w => by rw [hpend]; exact h.offsets w) (fun w hw => by rw [hpend, hst]; exact h.fill w (hsync ▸ hw)) hgc
    (by rw [hst])
  refine ⟨hopens ▸ ho, ?_⟩
  cases o with
  | writer w => simpa only [System.awaits, hsync, hpend] using hi
  | collector => simpa only [System.awaits, hgc, hrec] using hi

theorem Links.of_elsewhere (h : Links cfg s) (he : Elsewhere s s' v)
    (hl : ∀ u, u ≠ v → ∀ a c i, s'.LinkedTo cfg a u c i → s.LinkedTo cfg a u c i) (hv : LinksAt cfg s' v) :
    Links cfg s' := fun u => by
  by_cases hu : u = v
  · rwa [hu]
  · obtain ⟨hst, hsync, hgc⟩ := he u hu
    exact (h u).of_same (hl u hu) hst hsync hgc

theorem Links.of_quiet (h : Links cfg s) (hl : ∀ v a c i, s'.LinkedTo cfg a v c i → s.LinkedTo cfg a v c i)
    (hst : s'.stores = s.stores) (hsync : s'.sync = s.sync) (hgc : s'.gc = s.gc) : Links cfg s' := fun v =>
  (h v).of_same (hl v) (by rw [hst]) (by rw [hsync]) (by rw [hgc])

theorem System.LinkedTo.of_table {u : ℕ} {c i : ℕ} (h : s'.LinkedTo cfg a u c i) (ht : s'.table a = s.table a) :
    s.LinkedTo cfg a u c i := ⟨h.lt, ht ▸ h.idx⟩

theorem System.LinkedTo.offset {u c i : ℕ} (h : s.LinkedTo cfg a u c i) : 0 ≤ (s.table a).vsIdx.vsOffset := by
  rw [h.idx]
  exact Int.natCast_nonneg _

theorem System.LinkedTo.vsId {u c i : ℕ} (h : s.LinkedTo cfg a u c i) : (s.table a).vsIdx.vsId = u := by
  rw [h.idx]

/-! ## Writes -/

section Writers
variable [DecidableEq A]

theorem linkedTo_of_record {b : A} {val : ℕ} {p : Ptr} {e : AtEntry} {u c i : ℕ} (he : e.vsIdx.vsOffset < 0)
    (h : (s.record keyOf l a val p e).LinkedTo cfg b u c i) : b ≠ a ∧ s.LinkedTo cfg b u c i := by
  by_cases hb : b = a
  · subst hb
    have hoff := h.offset
    simp only [System.record, Function.update_self] at hoff
    omega
  · exact ⟨hb, h.of_table (by simp [System.record, hb])⟩

theorem insert_links {val : ℕ} {p : Ptr} (h : Links cfg s) (hs : s.insert home keyOf l a val p = some s') :
    Links cfg s' := by
  obtain ⟨-, rfl⟩ := System.insert_spec hs
  refine h.of_quiet (fun v b c i hb => (linkedTo_of_record ?_ hb).2) rfl rfl rfl
  simp [linkToOl, alloc]

omit [DecidableEq A] in
theorem setStore_unlink_links {c₀ i₀ : ℕ} (h : Links cfg s) (hno : ∀ a, ¬ s.LinkedTo cfg a v c₀ i₀) :
    Links cfg (s.setStore v (unlinkToAt cfg (s.store v) c₀ i₀)) := by
  set s' := s.setStore v (unlinkToAt cfg (s.store v) c₀ i₀) with hs'
  have hst : s'.stores v = unlinkToAt cfg (s.store v) c₀ i₀ := by simp [hs', System.setStore]
  obtain ⟨ht, -, -, hg, -⟩ := unlinkToAt_fields cfg (s.store v) c₀ i₀
  have hw := (unlinkToAt_gcFrame cfg (s.store v) c₀ i₀).wChunk
  have htable : s'.table = s.table := ht
  rw [← hst] at hg hw
  have hl : ∀ {a u c i}, s'.LinkedTo cfg a u c i → s.LinkedTo cfg a u c i :=
    fun ha => ha.of_table (by rw [htable])
  have hpend : ∀ w, s'.pending v w = s.pending v w := fun w => System.pending_congr rfl (by rw [hw]; rfl)
  have hopens : s'.opens v = s.opens v :=
    opens_congr (fun w => by rw [hw]; exact ⟨rfl, rfl⟩) (by rw [hg]; rfl) rfl
  have hrec : s'.gcPending v = s.gcPending v := gcPending_congr (by rw [hg]; rfl) rfl
  refine h.of_elsewhere (elsewhere_setStore s v _) (fun u _ a c i => hl) ((h v).of_shrink (fun a c i => hl)
    (fun a c i ha hb => ?_) (fun c i hb => ?_) (fun o c i ho hi => ⟨hopens ▸ ho, ?_⟩) (fun w => ?_)
    (fun w hw' => ?_) rfl hg)
  · have hne : ¬ (c = c₀ ∧ i = i₀) := by
      rintro ⟨rfl, rfl⟩
      exact hno a (hl ha)
    rw [hst, unlinkToAt_bitmap]
    simp [hne, hb]
  · rw [hst, unlinkToAt_bitmap] at hb
    exact (Bool.and_eq_true_iff.mp hb).1
  · cases o with
    | writer w => rwa [System.awaits, hpend] at hi
    | collector => rwa [System.awaits, hrec] at hi
  · rw [hpend]
    exact (h v).offsets w
  · rw [hpend, hw]
    exact (h v).fill w hw'

theorem update_links {val : ℕ} {p : Ptr} (h : Links cfg s) (hs : s.update home keyOf cfg l a val p = some s') :
    Links cfg s' := by
  obtain ⟨-, rfl⟩ := System.update_spec hs
  have hl : ∀ {b u c i}, (s.record keyOf l a val p (linkToOlPast (s.table a) p).1).LinkedTo cfg b u c i →
      b ≠ a ∧ s.LinkedTo cfg b u c i := fun hb => linkedTo_of_record (by simp [linkToOlPast]) hb
  have hq : Links cfg (s.record keyOf l a val p (linkToOlPast (s.table a) p).1) :=
    h.of_quiet (fun v b c i hb => (hl hb).2) rfl rfl rfl
  unfold System.unlinkPast
  split
  · rename_i hpast
    refine setStore_unlink_links hq fun b hb => ?_
    obtain ⟨hba, hb⟩ := hl hb
    refine hba ((h _).unique b a _ _ hb ⟨hb.lt, ?_⟩)
    have hoff : cfg.slotOffset ((s.table a).vsIdx.vsOffset.toNat / cfg.entriesPerChunk)
        ((s.table a).vsIdx.vsOffset.toNat % cfg.entriesPerChunk) = (s.table a).vsIdx.vsOffset.toNat := by
      rw [Config.slotOffset, Nat.mul_comm]
      exact Nat.div_add_mod _ _
    simp only [linkToOlPast] at hpast ⊢
    rw [hoff, Int.toNat_of_nonneg hpast.1, Int.toNat_of_nonneg hpast.2]
  · exact hq

/-! ## Reclaim -/

theorem put_idle {w key val : ℕ} (hs : s.put cfg v w key val a = some s')
    (hz : ((s.stores v).wChunk w).entryOffset = 0) : (s.gc v).pc.isIdle = true := by
  simp only [System.put] at hs
  split at hs
  · rename_i hc
    exact hc.2.2 hz
  · cases hs

omit [DecidableEq A] in
theorem LinksAt.blank_of_isEmpty (h : LinksAt cfg s v) (ht : TidyAt cfg s v) (hr : (s.gc v).pc.records = []) {c : ℕ}
    (hc : isEmpty cfg (s.stores v) c = true) (i : ℕ) :
    (s.stores v).bitmap c i = false ∧ ∀ a, ¬ s.LinkedTo cfg a v c i := by
  have hzero : (s.stores v).bitmap c i = false := by
    by_contra hb
    rw [Bool.not_eq_false] at hb
    simp [ValueStorage.isEmpty_iff.mp hc i (ht.bits c i hb).2] at hb
  refine ⟨hzero, fun a ha => ?_⟩
  rcases h.bit a c i ha with hb | ⟨m, hm, -⟩
  · simp [hzero] at hb
  · simp [hr] at hm

theorem put_links {w key val : ℕ} (h : Links cfg s) (ht : Tidy cfg s) (he : Exclusive cfg s)
    (hs : s.put cfg v w key val a = some s') : Links cfg s' := by
  obtain ⟨hsync, -, -⟩ := put_spec hs
  obtain ⟨htable, -⟩ := put_frame hs
  obtain ⟨hsync', hgc, -, -, hg, -⟩ := put_rest hs
  obtain ⟨i₀, c₀, hchunk, hsame⟩ := put_chunk hs
  obtain ⟨hb, hcase⟩ := put_space (ht v) (he v) hs
  have hopens := put_opens hs
  have hcw : ((s'.stores v).wChunk w).chunkOffset = c₀ := by simp [hchunk]
  have hl : ∀ {b u c i}, s'.LinkedTo cfg b u c i → s.LinkedTo cfg b u c i := by
    intro b u c i hl
    by_cases hba : b = a
    · subst hba
      have hoff := hl.offset
      simp [htable, preAtEntry, preValuestorageVal] at hoff
    · exact hl.of_table (by simp [htable, hba])
  have hrec : s'.gcPending v = s.gcPending v := gcPending_congr (by rw [hg]) (by rw [hgc])
  have hother : ∀ w', w' ≠ w → s'.pending v w' = s.pending v w' := fun w' hw =>
    System.pending_congr (by rw [hsync']) (by simp [hchunk, hw])
  have hpend : s'.pending v w = s.pending v w ++
      [⟨key, some a, c₀, ((s.stores v).wChunk w).entryOffset, .insert⟩] := by
    simp [System.pending, hsync', hsync, hchunk, addMovedEntry]
  -- slots that other holders await are awaited before the put
  have hawait : ∀ o i, o ≠ .writer w → s'.awaits v o i → s.awaits v o i := by
    intro o i ho hi
    cases o with
    | writer w' => rwa [System.awaits, hsync', hother w' fun hw => ho (by rw [hw])] at hi
    | collector => rwa [System.awaits, hgc, hrec] at hi
  have hstill : ∀ o c, o ≠ .writer w → s'.opens v o = some c → s.opens v o = some c := by
    intro o c ho hc
    rwa [hopens, Function.update_of_ne ho] at hc
  have hnew : ∀ c, s'.opens v (.writer w) = some c → c = c₀ := by
    intro c hc
    rw [hopens, Function.update_self, hcw] at hc
    exact (Option.some.inj hc).symm
  have hall : ∀ i, s.awaits v (.writer w) i := fun _ => .inl hsync
  have hopened : ∀ {c}, s.opens v (.writer w) ≠ some c → s'.opens v (.writer w) = some c →
      (s.gc v).pc.isIdle = true ∧ isEmpty cfg (s.stores v) c = true := by
    intro c hc hc'
    rcases hcase with ⟨hne, -⟩ | ⟨hz, c', rest, -, -, hempty, -, hcc⟩
    · rw [hnew c hc', hsame hne] at hc
      exact absurd (opens_writer hne) hc
    · rw [hnew c hc', ← hcw, hcc]
      exact ⟨put_idle hs hz, hempty⟩
  refine h.of_elsewhere (put_elsewhere hs) (fun _ _ _ _ _ => hl)
    ⟨fun b b' c i hb' hb'' => (h v).unique b b' c i (hl hb') (hl hb''),
    fun b c i hb' => ?_, fun o c i ho hi => ?_, fun w' => ?_, fun w' hw' m hm => ?_, fun m hm hop o ho hi => ?_, ?_⟩
  · rw [hb, hgc]
    exact (h v).bit b c i (hl hb')
  · rw [hb]
    suffices hbl : (s.stores v).bitmap c i = false ∧ ∀ b, ¬ s.LinkedTo cfg b v c i from
      ⟨hbl.1, fun b hb' => hbl.2 b (hl hb')⟩
    by_cases how : o = .writer w
    · subst how
      by_cases hc : s.opens v (.writer w) = some c
      · exact (h v).blank _ c i hc (hall i)
      · obtain ⟨hidle, hempty⟩ := hopened hc ho
        exact (h v).blank_of_isEmpty (ht v) (GcPc.records_of_isIdle hidle) hempty i
    · exact (h v).blank o c i (hstill o c how ho) (hawait o i how hi)
  · by_cases hw : w' = w
    · subst hw
      rw [hpend, List.map_append]
      refine List.nodup_append.mpr ⟨(h v).offsets w', by simp, fun x hx y hy hxy => ?_⟩
      obtain ⟨m, hm, rfl⟩ := List.mem_map.mp hx
      have hlt := (h v).fill w' hsync m hm
      simp only [List.map_cons, List.map_nil, List.mem_singleton] at hy
      omega
    · rw [hother w' hw]
      exact (h v).offsets w'
  · by_cases hw : w' = w
    · subst hw
      have hnext : ((s'.stores v).wChunk w').entryOffset = ((s.stores v).wChunk w').entryOffset + 1 := by
        simp [hchunk]
      rw [hpend] at hm
      rcases List.mem_append.mp hm with hm | hm
      · have hlt := (h v).fill w' hsync m hm
        omega
      · rw [List.mem_singleton.mp hm, hnext]
        exact Nat.lt_succ_self _
    · rw [hother w' hw] at hm
      rw [hsync'] at hw'
      simpa [hchunk, hw] using (h v).fill w' hw' m hm
  · rw [hrec] at hm
    by_cases how : o = .writer w
    · subst how
      by_cases hc : s.opens v (.writer w) = some m.chunkOffset
      · exact (h v).settled m hm hop _ hc (hall _)
      · obtain ⟨hidle, -⟩ := hopened hc ho
        have hphase := (ht v).phase
        cases hpc : (s.gc v).pc with
        | idle =>
          rw [hpc] at hphase
          rw [gcPending_of_ne (by simp [hpc]), hphase] at hm
          cases hm
        | _ => simp [hpc, GcPc.isIdle] at hidle
    · exact (h v).settled m hm hop o (hstill o _ how ho) (hawait o _ how hi)
  · exact (h v).collector.mono (fun _ _ _ _ => hl) (hg v) (by rw [hgc])

theorem reclaim_links (h : Links cfg s) (ht : Tidy cfg s) (he : Exclusive cfg s) (hs : s.reclaim cfg l = some s') :
    Links cfg s' := by
  obtain ⟨v, p, rest, a, -, -, -, ⟨-, hput⟩ | ⟨-, rfl⟩⟩ := reclaim_spec hs
  · have hq : Kept cfg s (s.deq l v p rest) True True := .of_quiet ht he rfl rfl rfl
    have hql : Links cfg (s.deq l v p rest) := h.of_quiet (fun _ _ _ _ hb => hb.of_table rfl) rfl rfl rfl
    exact put_links hql hq.tidy (hq.exclusive.mpr trivial) hput
  · exact h.of_quiet (fun _ _ _ _ hb => hb.of_table rfl) rfl rfl rfl

omit [DecidableEq A] in
theorem write_links (h : Links cfg s) (hs : s.write cfg S l = some s') : Links cfg s' := by
  obtain ⟨v, -, hw⟩ := written_of_write hs
  have hl : ∀ {a u c i}, s'.LinkedTo cfg a u c i → s.LinkedTo cfg a u c i :=
    fun ha => ha.of_table (by rw [hw.table])
  have hopens : s'.opens v = s.opens v := opens_congr hw.chunk (by rw [hw.gcWChunk]) (by rw [hw.gc])
  have hrec : s'.gcPending v = s.gcPending v := gcPending_congr (by rw [hw.gcWChunk]) (by rw [hw.gc])
  refine h.of_elsewhere hw.elsewhere (fun _ _ _ _ _ => hl) ((h v).of_shrink (fun _ _ _ => hl)
    (fun _ _ _ _ hb => by rwa [hw.bitmap]) (fun _ _ hb => by rwa [hw.bitmap] at hb)
    (fun o c i ho hi => ⟨hopens ▸ ho, ?_⟩) (fun w => ?_) (fun w hnone m hm => ?_) (by rw [hw.gc]) hw.gcWChunk)
  · cases o with
    | writer w =>
      by_cases hwl : w = l.1
      · subst hwl
        exact .inl hw.unsynced
      · rwa [System.awaits, (hw.other w hwl).1, (hw.other w hwl).2] at hi
    | collector => rwa [System.awaits, hw.gc, hrec] at hi
  · by_cases hwl : w = l.1
    · subst hwl
      rw [hw.pending, map_sortMovedEntry S _ MovedEntry.entryOffset fun _ _ => rfl]
      exact (h v).offsets l.1
    · rw [(hw.other w hwl).2]
      exact (h v).offsets w
  · by_cases hwl : w = l.1
    · subst hwl
      exact absurd hnone hw.synced
    · rw [(hw.other w hwl).1] at hnone
      rw [(hw.other w hwl).2] at hm
      rw [(hw.chunk w).1]
      exact (h v).fill w hnone m hm

theorem close_links (h : Links cfg s) (hs : s.close l = some s') : Links cfg s' := by
  obtain ⟨v, -, hc⟩ := closed_of_close hs
  have hl : ∀ {a u c i}, s'.LinkedTo cfg a u c i → s.LinkedTo cfg a u c i :=
    fun ha => ha.of_table (by rw [hc.table])
  have hrec : s'.gcPending v = s.gcPending v := gcPending_congr (by rw [hc.gcWChunk]) (by rw [hc.gc])
  refine h.of_elsewhere hc.elsewhere (fun _ _ _ _ _ => hl) ((h v).of_shrink (fun _ _ _ => hl)
    (fun _ _ _ _ hb => by rwa [hc.bitmap]) (fun _ _ hb => by rwa [hc.bitmap] at hb) (fun o c i ho hi => ?_)
    (fun w => ?_) (fun w hnone m hm => ?_) (by rw [hc.gc]) hc.gcWChunk)
  · by_cases how : o = .writer l.1
    · subst how
      simp [hc.opens] at ho
    · rw [hc.opens, Function.update_of_ne how] at ho
      refine ⟨ho, ?_⟩
      cases o with
      | writer w =>
        obtain ⟨hsync, hpend, -⟩ := hc.other w fun hw => how (by rw [hw])
        rwa [System.awaits, hsync, hpend] at hi
      | collector => rwa [System.awaits, hc.gc, hrec] at hi
  · by_cases hw : w = l.1
    · subst hw
      simp [hc.pending]
    · rw [(hc.other w hw).2.1]
      exact (h v).offsets w
  · by_cases hw : w = l.1
    · subst hw
      simp [hc.pending] at hm
    · obtain ⟨hsync, hpend, hchunk⟩ := hc.other w hw
      rw [hchunk]
      exact (h v).fill w (hsync ▸ hnone) m (hpend ▸ hm)

/-! ## Links -/

theorem linkToAt_effect {t t' : Store A} {c i : ℕ} {o : Option A} (h : linkToAt cfg t c i o = some t') :
    ∃ a, o = some a ∧ (t'.table = t.table ∧ t'.bitmap = t.bitmap ∨
      t'.table = Function.update t.table a { t.table a with vsIdx := ⟨t.vsId, cfg.slotOffset c i⟩ } ∧
        t'.bitmap = (setVsBitmapInfo t c i).bitmap) := by
  cases o with
  | none => cases h
  | some a =>
    refine ⟨a, rfl, ?_⟩
    simp only [linkToAt, linkAtEntry] at h
    split_ifs at h
    · cases h
      exact .inl ⟨rfl, rfl⟩
    · cases h
      exact .inr ⟨rfl, rfl⟩

theorem gcLinkToAt_effect {t t' : Store A} {c i : ℕ} {o : Option A} (h : gcLinkToAt cfg t c i o = some t') :
    ∃ a, o = some a ∧
    (t'.table = t.table ∧ t'.bitmap = t.bitmap ∧
      ((t.table a).vsIdx.vsOffset < 0 ∨ (t.table a).vsIdx.vsId ≠ t.vsId) ∨
      t'.table = Function.update t.table a { t.table a with vsIdx := ⟨t.vsId, cfg.slotOffset c i⟩ } ∧
        t'.bitmap = (setVsBitmapInfo t c i).bitmap) := by
  cases o with
  | none => cases h
  | some a =>
    refine ⟨a, rfl, ?_⟩
    simp only [gcLinkToAt, gcLinkAtEntry] at h
    split_ifs at h with h₁ h₂ h₃
    · cases h
      exact .inl ⟨rfl, rfl, .inl (by rw [h₁]; decide)⟩
    · cases h
      exact .inl ⟨rfl, rfl, .inl (by rw [h₂]; decide)⟩
    · cases h
      exact .inl ⟨rfl, rfl, .inr h₃⟩
    · cases h
      exact .inr ⟨rfl, rfl⟩

/-- Holder `o` of store `v` links `a` to slot `(c, i)`, which it awaited. -/
structure Linking (cfg : Config) (s s' : System A) (v : ℕ) (o : Holder) (a : A) (c i : ℕ) : Prop where
  lt : i < cfg.entriesPerChunk
  holds : s.opens v o = some c
  awaited : s.awaits v o i
  table : s'.table = Function.update s.table a { s.table a with vsIdx := ⟨v, cfg.slotOffset c i⟩ }
  bitmap : (s'.stores v).bitmap = (setVsBitmapInfo (s.store v) c i).bitmap
  opens : s'.opens v = s.opens v
  awaits : ∀ o' j, s'.awaits v o' j → s.awaits v o' j
  done : ¬ s'.awaits v o i

namespace Linking
variable {o : Holder} {c i : ℕ}

theorem cases_of_linkedTo (hk : Linking cfg s s' v o a c i) {b : A} {u d j : ℕ} (h : s'.LinkedTo cfg b u d j) :
    b ≠ a ∧ s.LinkedTo cfg b u d j ∨ b = a ∧ u = v ∧ d = c ∧ j = i := by
  by_cases hb : b = a
  · subst hb
    have hidx := h.idx
    simp only [hk.table, Function.update_self, VsIdx.mk.injEq, Nat.cast_inj] at hidx
    obtain ⟨rfl, hoff⟩ := hidx
    obtain ⟨rfl, rfl⟩ := cfg.slotOffset_inj hk.lt h.lt hoff
    exact .inr ⟨rfl, rfl, rfl, rfl⟩
  · exact .inl ⟨hb, h.of_table (by simp [hk.table, hb])⟩

theorem bit_of_bit (hk : Linking cfg s s' v o a c i) {d j : ℕ} (h : (s.stores v).bitmap d j = true) :
    (s'.stores v).bitmap d j = true := by
  rw [hk.bitmap]
  by_cases hd : d = c
  · subst hd
    by_cases hj : j = i
    · simp [setVsBitmapInfo, hj]
    · simpa [setVsBitmapInfo, hj] using h
  · simpa [setVsBitmapInfo, hd] using h

theorem ne_of_awaits (hk : Linking cfg s s' v o a c i) (ht : TidyAt cfg s v)
    (he : (s.pool cfg v).Exclusive (chunks cfg)) {o' : Holder} {d j : ℕ} (ho : s'.opens v o' = some d)
    (hj : s'.awaits v o' j) : ¬ (d = c ∧ j = i) := by
  rintro ⟨rfl, rfl⟩
  rw [hk.opens] at ho
  have hoo : o' = o := (he d (ht.opened o d hk.holds)).only o o' hk.holds ho
  exact hk.done (hoo ▸ hj)

theorem unique (hk : Linking cfg s s' v o a c i) (h : LinksAt cfg s v) (b b' : A) (d j : ℕ)
    (hb : s'.LinkedTo cfg b v d j) (hb' : s'.LinkedTo cfg b' v d j) : b = b' := by
  have hblank := (h.blank o c i hk.holds hk.awaited).2
  rcases hk.cases_of_linkedTo hb with ⟨-, h₁⟩ | ⟨rfl, -, rfl, rfl⟩ <;>
    rcases hk.cases_of_linkedTo hb' with ⟨-, h₂⟩ | ⟨rfl, -, h₃, h₄⟩
  · exact h.unique b b' d j h₁ h₂
  · exact absurd h₁ (h₃ ▸ h₄ ▸ hblank b)
  · exact absurd h₂ (hblank b')
  · rfl

theorem bit_self (hk : Linking cfg s s' v o a c i) : (s'.stores v).bitmap c i = true := by
  simp [hk.bitmap, setVsBitmapInfo]

theorem blank (hk : Linking cfg s s' v o a c i) (h : LinksAt cfg s v) (ht : TidyAt cfg s v)
    (he : (s.pool cfg v).Exclusive (chunks cfg)) (o' : Holder) (d j : ℕ) (ho : s'.opens v o' = some d)
    (hj : s'.awaits v o' j) : (s'.stores v).bitmap d j = false ∧ ∀ b, ¬ s'.LinkedTo cfg b v d j := by
  have hne := hk.ne_of_awaits ht he ho hj
  obtain ⟨hzero, hno⟩ := h.blank o' d j (hk.opens ▸ ho) (hk.awaits o' j hj)
  refine ⟨?_, fun b hb => ?_⟩
  · by_contra hbit
    rw [hk.bitmap, Bool.not_eq_false] at hbit
    rcases setVsBitmapInfo_bit hbit with hdj | hbit
    · exact hne hdj
    · have hzero' : (s.store v).bitmap d j = false := hzero
      simp [hzero'] at hbit
  · rcases hk.cases_of_linkedTo hb with ⟨-, hb⟩ | ⟨-, -, hd, hj'⟩
    · exact hno b hb
    · exact hne ⟨hd, hj'⟩

theorem settled (hk : Linking cfg s s' v o a c i) {d j : ℕ} (h : s.Settled v d j) : s'.Settled v d j :=
  fun o' ho hj => h o' (hk.opens ▸ ho) (hk.awaits o' j hj)

theorem linkedTo_of_settled (hk : Linking cfg s s' v o a c i) {d j : ℕ} {b : A} (h : s.Settled v d j)
    (hb : s'.LinkedTo cfg b v d j) : b ≠ a ∧ s.LinkedTo cfg b v d j := by
  rcases hk.cases_of_linkedTo hb with hb | ⟨-, -, rfl, rfl⟩
  · exact hb
  · exact absurd hk.awaited (h o hk.holds)

theorem linkedTo_elsewhere (hk : Linking cfg s s' v o a c i) {b : A} {u d j : ℕ} (hu : u ≠ v)
    (hb : s'.LinkedTo cfg b u d j) : s.LinkedTo cfg b u d j := by
  rcases hk.cases_of_linkedTo hb with ⟨-, hb⟩ | ⟨-, huv, -⟩
  · exact hb
  · exact absurd huv hu

end Linking

theorem nodup_map_erase {l : List (MovedEntry A)} {m : MovedEntry A}
    (hn : (l.map MovedEntry.entryOffset).Nodup) (hm : m ∈ l) :
    m.entryOffset ∉ (l.erase m).map MovedEntry.entryOffset ∧ ((l.erase m).map MovedEntry.entryOffset).Nodup := by
  have hperm := (List.perm_cons_erase hm).map MovedEntry.entryOffset
  exact List.nodup_cons.mp (hperm.nodup_iff.mp hn)

theorem link_links {m : MovedEntry A} (h : Links cfg s) (ht : Tidy cfg s) (he : Exclusive cfg s)
    (hs : s.link cfg l m = some s') : Links cfg s' := by
  obtain ⟨v, moved, t, -, hmoved, hm, ht', rfl⟩ := link_spec hs
  obtain ⟨-, -, hw, -, hg, -⟩ := linkToAt_spec ht'
  obtain ⟨a, -, hcase⟩ := linkToAt_effect ht'
  have hpend : s.pending v l.1 = moved := by rw [System.pending, hmoved]
  obtain ⟨hne, hchunk, hent⟩ := (ht v).writers l.1 m (hpend ▸ hm)
  set s' := (s.setStore v t).setSync v l.1 (some (moved.erase m)) with hs'
  have hst : s'.stores v = t := by simp [hs', System.setSync, System.setStore]
  have hv : Elsewhere s s' v := (elsewhere_setStore s v t).setSync _ _
  rw [← hst] at hw hg
  have hopens : s'.opens v = s.opens v :=
    opens_congr (fun w => by rw [hw]; exact ⟨rfl, rfl⟩) (by rw [hg]; rfl) rfl
  have hrec : s'.gcPending v = s.gcPending v := gcPending_congr (by rw [hg]; rfl) rfl
  have hself : s'.pending v l.1 = moved.erase m := System.pending_setSync_self ..
  have hsself : s'.sync v l.1 ≠ none := by simp [hs', System.setSync]
  have hother : ∀ w, w ≠ l.1 → s'.sync v w = s.sync v w ∧ s'.pending v w = s.pending v w := fun w hwl => by
    have hsync : s'.sync v w = s.sync v w := by simp [hs', System.setSync, hwl]
    exact ⟨hsync, System.pending_congr hsync (by rw [hw]; rfl)⟩
  obtain ⟨hdone, hnodup⟩ := nodup_map_erase (hpend ▸ (h v).offsets l.1) hm
  have hawaits : ∀ o j, s'.awaits v o j → s.awaits v o j := by
    intro o j hj
    cases o with
    | writer w =>
      by_cases hwl : w = l.1
      · subst hwl
        rcases hj with hj | ⟨m', hm', hj⟩
        · exact absurd hj hsself
        · exact .inr ⟨m', hpend ▸ List.mem_of_mem_erase (hself ▸ hm'), hj⟩
      · rwa [System.awaits, (hother w hwl).1, (hother w hwl).2] at hj
    | collector => rwa [System.awaits, hrec] at hj
  have hoffsets : ∀ w, ((s'.pending v w).map MovedEntry.entryOffset).Nodup := by
    intro w
    by_cases hwl : w = l.1
    · subst hwl
      rwa [hself]
    · rw [(hother w hwl).2]
      exact (h v).offsets w
  have hfill : ∀ w, s'.sync v w = none → ∀ m' ∈ s'.pending v w,
    m'.entryOffset < ((s'.stores v).wChunk w).entryOffset := by
    intro w hnone m' hm'
    by_cases hwl : w = l.1
    · subst hwl
      exact absurd hnone hsself
    · rw [(hother w hwl).1] at hnone
      rw [(hother w hwl).2] at hm'
      rw [hw]
      exact (h v).fill w hnone m' hm'
  rcases hcase with ⟨htable, hb⟩ | ⟨htable, hb⟩
  · have hl : ∀ {b u c i}, s'.LinkedTo cfg b u c i → s.LinkedTo cfg b u c i :=
      fun hb => hb.of_table (congrFun htable _)
    have hb' : (s'.stores v).bitmap = (s.stores v).bitmap := hst ▸ hb
    exact h.of_elsewhere hv (fun _ _ _ _ _ => hl) ((h v).of_shrink (fun _ _ _ => hl) (fun _ _ _ _ hb => by rwa [hb'])
      (fun _ _ hb => by rwa [hb'] at hb) (fun o c i ho hi => ⟨hopens ▸ ho, hawaits o i hi⟩) hoffsets
      hfill rfl hg)
  · have hk : Linking cfg s s' v (.writer l.1) a m.chunkOffset m.entryOffset := by
      refine ⟨hent, ?_, .inr ⟨m, hpend ▸ hm, rfl⟩, htable, hst ▸ hb, hopens, hawaits, ?_⟩
      · rw [opens_writer hne, hchunk]
      · rintro (hj | ⟨m', hm', hj⟩)
        · exact hsself hj
        · exact hdone (List.mem_map.mpr ⟨m', hself ▸ hm', hj⟩)
    refine h.of_elsewhere hv (fun u hu b c i => hk.linkedTo_elsewhere hu) ⟨hk.unique (h v), fun b c i hb' => ?_,
      hk.blank (h v) (ht v) (he v), hoffsets, hfill,
      fun m' hm' hop => hk.settled ((h v).settled m' (hrec ▸ hm') hop), ?_⟩
    · rcases hk.cases_of_linkedTo hb' with ⟨-, hb'⟩ | ⟨-, -, rfl, rfl⟩
      · exact ((h v).bit b c i hb').imp_left hk.bit_of_bit
      · exact .inl hk.bit_self
    · exact (h v).collector.mono
        (fun m' hm' hop b hb' => (hk.linkedTo_of_settled ((h v).settled m' hm' hop) hb').2) hg rfl

end Writers

/-! ## The collector -/

theorem LinksAt.of_gc (h : LinksAt cfg s v) (htable : s'.table = s.table) (hsync : s'.sync v = s.sync v)
    (hw : (s'.stores v).wChunk = (s.stores v).wChunk) (hb : (s'.stores v).bitmap = (s.stores v).bitmap)
    (hr : (s.gc v).pc.records = [])
    (hcoll : ∀ c i, s'.opens v .collector = some c → s'.awaits v .collector i →
      (s.stores v).bitmap c i = false ∧ ∀ a, ¬ s.LinkedTo cfg a v c i)
    (hsettled : ∀ m ∈ s'.gcPending v, m.opType = .remove → s'.Settled v m.chunkOffset m.entryOffset)
    (hgc : GcLinks cfg s' v (s'.gc v).pc) : LinksAt cfg s' v := by
  have hl : ∀ {a c i}, s'.LinkedTo cfg a v c i → s.LinkedTo cfg a v c i := fun ha => ha.of_table (by rw [htable])
  have hpend : ∀ w, s'.pending v w = s.pending v w := fun w => System.pending_congr (congrFun hsync w) (by rw [hw])
  refine ⟨fun a b c i ha hb' => h.unique a b c i (hl ha) (hl hb'), fun a c i ha => ?_, fun o c i ho hi => ?_,
    fun w => by rw [hpend]; exact h.offsets w, fun w hnone => by rw [hpend, hw]; exact h.fill w (hsync ▸ hnone),
    hsettled, hgc⟩
  · rw [hb]
    rcases h.bit a c i (hl ha) with hbit | ⟨m, hm, -⟩
    · exact .inl hbit
    · simp [hr] at hm
  · rw [hb]
    suffices hbl : (s.stores v).bitmap c i = false ∧ ∀ a, ¬ s.LinkedTo cfg a v c i from
      ⟨hbl.1, fun a ha => hbl.2 a (hl ha)⟩
    cases o with
    | writer w =>
      refine h.blank (.writer w) c i ?_ ?_
      · rw [System.opens] at ho ⊢
        rwa [← hw]
      · rwa [System.awaits, hsync, hpend] at hi
    | collector => exact hcoll c i ho hi

theorem LinksAt.of_gather (h : LinksAt cfg s v) (htable : s'.table = s.table) (hsync : s'.sync v = s.sync v)
    (hw : (s'.stores v).wChunk = (s.stores v).wChunk) (hb : (s'.stores v).bitmap = (s.stores v).bitmap)
    (hc : (s'.stores v).gcWChunk.chunkOffset = (s.stores v).gcWChunk.chunkOffset)
    (hidle : (s.gc v).pc.isIdle = false) (hidle' : (s'.gc v).pc.isIdle = false) (hns : (s.gc v).pc.syncing = false)
    (hsettled : ∀ m ∈ s'.gcPending v, m.opType = .remove → s.Settled v m.chunkOffset m.entryOffset)
    (hgc : GcLinks cfg s' v (s'.gc v).pc) : LinksAt cfg s' v := by
  have hopens : s'.opens v = s.opens v :=
    opens_congr (fun w => by rw [hw]; exact ⟨rfl, rfl⟩) hc (by rw [hidle, hidle'])
  have hr : (s.gc v).pc.records = [] := by
    cases hpc : (s.gc v).pc <;> simp_all [GcPc.syncing, GcPc.records]
  refine h.of_gc htable hsync hw hb hr (fun c i ho _ => h.blank .collector c i (hopens ▸ ho) (.inl hns))
    (fun m hm hop o ho hi => ?_) hgc
  refine hsettled m hm hop o (hopens ▸ ho) ?_
  cases o with
  | writer w =>
    have hpend : s'.pending v w = s.pending v w := System.pending_congr (congrFun hsync w) (by rw [hw])
    rwa [System.awaits, hsync, hpend] at hi
  | collector => exact .inl hns

theorem gcOpen_links {t : Store A} {g : GcThread A} (h : Links cfg s) (ht : Tidy cfg s) (he : Exclusive cfg s)
    (hr : (s.gc v).pc.records = []) (hm : (s.stores v).gcWChunk.movedEntryList = [])
    (hi : initGcWChunk cfg (s.store v) = some t) (hpc : g.pc.isIdle = false) (hsync : ∀ m c, g.pc ≠ .sync m c)
    (hw : g.wOffset = 0) : Links cfg ((s.setStore v t).setGc v g) := by
  obtain ⟨c, rest, -, -, hempty, rfl⟩ := initGcWChunk_exclusive (ht v) (he v) hi
  set s' := (s.setStore v _).setGc v g with hs'
  have hst : s'.stores v = { s.store v with
      freeChunkList := rest
      gcWChunk := { (s.stores v).gcWChunk with isInit := true, chunkOffset := c, entryOffset := 0 } } :=
        stores_setGc ..
  have hgc : s'.gc v = g := gc_setGc ..
  have hpend : s'.gcPending v = [] := by rw [gcPending_of_ne (by rw [hgc]; exact hsync), hst, hm]
  have hgather : Gathers cfg s' v [] := ⟨by rw [hst, hm]; rfl, List.nodup_nil, by simp⟩
  refine h.of_elsewhere ((elsewhere_setStore s v _).setGc g) (fun _ _ _ _ _ ha => ha.of_table rfl)
    ((h v).of_gc rfl rfl (by rw [hst]; rfl) (by rw [hst]; rfl) hr (fun d i hd _ => ?_) (by simp [hpend]) ?_)
  · rw [opens_collector (by rw [hgc, hpc]), hst] at hd
    rw [← Option.some.inj hd]
    exact (h v).blank_of_isEmpty (ht v) hr hempty i
  · rw [hgc]
    cases hg : g.pc with
    | idle => simp [hg, GcPc.isIdle] at hpc
    | victims _ => exact ⟨[], hgather, by rw [hgc, hw]; rfl⟩
    | entries _ => exact ⟨[], hgather, by rw [hgc, hw]; rfl⟩
    | write _ => exact ⟨[], hgather⟩
    | sync m c => exact absurd hg (hsync m c)

theorem gcIdle_links {t : Store A} {g : GcThread A} (h : Links cfg s) (hr : (s.gc v).pc.records = [])
    (htable : t.table = s.table) (hw : t.wChunk = (s.stores v).wChunk) (hb : t.bitmap = (s.stores v).bitmap)
    (hm : t.gcWChunk.movedEntryList = []) (hpc : g.pc = .idle) : Links cfg ((s.setStore v t).setGc v g) := by
  set s' := (s.setStore v t).setGc v g with hs'
  have hst : s'.stores v = t := stores_setGc ..
  have hgc : (s'.gc v).pc = .idle := by rw [hs', gc_setGc, hpc]
  refine h.of_elsewhere ((elsewhere_setStore s v t).setGc g)
    (fun _ _ _ _ _ ha => ha.of_table (by rw [← htable]; rfl))
    ((h v).of_gc htable rfl (by rw [hst, hw]) (by rw [hst, hb]) hr (fun c i ho => ?_) (fun m hm' => ?_)
      (by rw [hgc]; trivial))
  · rw [System.opens, hgc] at ho
    cases ho
  · rw [gcPending_of_ne (by simp [hgc]), hst, hm] at hm'
    cases hm'

theorem copiesMoved_offsets (t k : ℕ) (ps : List (Copy A)) :
    ((copiesMoved t k ps).filter (fun m => m.opType = .insert)).map MovedEntry.entryOffset =
    List.range' k ps.length := by
  induction ps generalizing k with
  | nil => rfl
  | cons p ps ih => simp [copiesMoved, ih, List.range'_succ]

theorem insert_mem_relinks {t k : ℕ} {ps : List (Copy A)} {es : List (VsEntry A)} (hlen : es.length = ps.length)
    {e : VsEntry A} (he : e ∈ es) : ∃ m ∈ relinks t k ps es, m.opType = .insert ∧ m.atEntry = e.atEntry := by
  induction ps generalizing k es with
  | nil => simp_all
  | cons p ps ih =>
    cases es with
    | nil => cases he
    | cons e' es =>
      rcases List.mem_cons.mp he with rfl | he
      · exact ⟨_, List.mem_cons_self, rfl, rfl⟩
      · obtain ⟨m, hm, hop, hat⟩ := ih (k := k + 1) (by simpa using hlen) he
        exact ⟨m, List.mem_cons_of_mem _ (List.mem_cons_of_mem _ hm), hop, hat⟩

theorem Gathers.relinks {ps : List (Copy A)} (h : Gathers cfg s v ps)
    (hl : ∀ a c i, s'.LinkedTo cfg a v c i → s.LinkedTo cfg a v c i) :
    Relinks cfg s' v (sortMovedEntry S (s.stores v).gcWChunk.movedEntryList) := by
  refine ⟨?_, fun m hm hop a ha => ?_⟩
  · have hmap := map_sortMovedEntry S (s.stores v).gcWChunk.movedEntryList (fun m => (m.opType, m.entryOffset))
      fun _ _ => rfl
    have hoff : ∀ ms : List (MovedEntry A), (ms.filter (fun m => m.opType = .insert)).map MovedEntry.entryOffset =
        ((ms.map fun m => (m.opType, m.entryOffset)).filter fun x => x.1 = .insert).map Prod.snd := by
      intro ms
      rw [List.filter_map, List.map_map]
      rfl
    rw [hoff, hmap, ← hoff, h.moved, copiesMoved_offsets]
    exact List.nodup_range'
  · obtain ⟨m', hm', hc, hent, hop'⟩ := mem_of_mem_sortMovedEntry hm
    rw [h.moved] at hm'
    obtain ⟨p, hp, -, ⟨hins, -⟩ | ⟨-, hpc, hps⟩⟩ := mem_copiesMoved hm'
    · simp [hop', hop] at hins
    have hat : p.entry.atEntry = some a := by
      refine h.names p hp a ?_
      rw [hpc, hps, hc, hent]
      exact hl a _ _ ha
    rw [h.moved, sortMovedEntry_copiesMoved S _ h.keys]
    obtain ⟨m'', hm'', hins, hat'⟩ := insert_mem_relinks (t := (s.stores v).gcWChunk.chunkOffset) (k := 0)
      (show (sortedEntries S (ps.map Copy.entry)).length = ps.length by simp [sortedEntries]) (e := p.entry)
      ((S.mem_sort _ _).mpr (List.mem_map_of_mem hp))
    exact ⟨m'', hm'', hins, hat'.trans hat⟩

theorem Gathers.concat {ps : List (Copy A)} {p : Copy A} (h : Gathers cfg s v ps)
    (hm : (s'.stores v).gcWChunk.movedEntryList = addMovedEntry (addMovedEntry (s.stores v).gcWChunk.movedEntryList
      (s.stores v).gcWChunk.chunkOffset ps.length p.entry .insert) p.chunk p.slot p.entry .remove)
    (hc : (s'.stores v).gcWChunk.chunkOffset = (s.stores v).gcWChunk.chunkOffset)
    (hl : ∀ a c i, s'.LinkedTo cfg a v c i → s.LinkedTo cfg a v c i)
    (hkey : ∀ m ∈ (s.stores v).gcWChunk.movedEntryList, m.key ≠ p.entry.key)
    (hname : ∀ a, s.LinkedTo cfg a v p.chunk p.slot → p.entry.atEntry = some a) :
    Gathers cfg s' v (ps ++ [p]) := by
  have hnew : p.entry.key ∉ (ps.map Copy.entry).map VsEntry.key := by
    intro hmem
    rw [List.map_map, List.mem_map] at hmem
    obtain ⟨q, hq, hqk⟩ := hmem
    obtain ⟨m, hm', hmk, -⟩ := exists_mem_copiesMoved hq 0
    exact hkey m (h.moved ▸ hm') (hmk.trans hqk)
  refine ⟨?_, ?_, fun q hq a ha => ?_⟩
  · rw [hm, hc, copiesMoved_concat, Nat.zero_add, h.moved]
  · simp only [List.map_append, List.map_cons, List.map_nil]
    exact List.nodup_append.mpr ⟨h.keys, by simp, fun x hx y hy hxy =>
      hnew (by rw [← List.mem_singleton.mp hy, ← hxy]; exact hx)⟩
  · rcases List.mem_append.mp hq with hq | hq
    · exact h.names q hq a (hl a _ _ ha)
    · rw [List.mem_singleton.mp hq] at ha ⊢
      exact hname a (hl a _ _ ha)

section Collector
variable [DecidableEq A]

theorem gcCopy_links {victim i : ℕ} {is : List ℕ} {rest : List (ℕ × ℕ)} {g : GcThread A} (h : Links cfg s)
    (hpc : (s.gc v).pc = .entries (victim, i :: is, rest)) (hbit : (s.stores v).bitmap victim i = true)
    (hread : ReadOk cfg s v (s.gc v).pc) (hnew : g.pc.isIdle = false) (hsync : ∀ m c, g.pc ≠ .sync m c)
    (hoff : (∃ cont, g.pc = .write cont) ∨ g.wOffset = (s.gc v).wOffset + 1) :
    Links cfg ((s.gcCopy v victim i).setGc v g) := by
  rw [hpc] at hread
  obtain ⟨hname, hkey⟩ := hread hbit
  have hcoll := (h v).collector
  rw [hpc] at hcoll
  obtain ⟨ps, hps, hlen⟩ := hcoll
  set s' := (s.gcCopy v victim i).setGc v g with hs'
  have hst : s'.stores v = gcCopyEntry (s.store v) victim (s.gc v).wOffset i := by
    simp [hs', System.setGc, System.gcCopy, System.setStore]
  have hgc : s'.gc v = g := gc_setGc ..
  have htable : s'.table = s.table := rfl
  have hl : ∀ {a u c j}, s'.LinkedTo cfg a u c j → s.LinkedTo cfg a u c j :=
    fun ha => ha.of_table (by rw [htable])
  have hv : Elsewhere s s' v := fun u hu => by simp [hs', System.setGc, System.gcCopy, System.setStore, hu]
  have hgather : Gathers cfg s' v (ps ++ [⟨victim, i, (s.stores v).gcRBuffer i⟩]) :=
    hps.concat (by rw [hst, ← hlen]; rfl) (by rw [hst]; rfl) (fun _ _ _ => hl) hkey hname
  refine h.of_elsewhere hv (fun _ _ _ _ _ => hl) ((h v).of_gather htable rfl (by rw [hst]; rfl) (by rw [hst]; rfl)
    (by rw [hst]; rfl) (by rw [hpc]; rfl) (by rw [hgc, hnew]) (by rw [hpc]; rfl) (fun m hm hop => ?_) ?_)
  · rw [gcPending_of_ne (by rw [hgc]; exact hsync), hst] at hm
    simp only [gcCopyEntry, addMovedEntry, List.mem_append, List.mem_singleton] at hm
    rcases hm with (hm | rfl) | rfl
    · exact (h v).settled m (by rw [gcPending_of_ne (by simp [hpc])]; exact hm) hop
    · cases hop
    · -- the slot has its bit, so that nobody awaits it
      intro o ho hi
      simp [((h v).blank o victim i ho hi).1] at hbit
  · rw [hgc]
    cases hg : g.pc with
    | idle => simp [hg, GcPc.isIdle] at hnew
    | victims _ => exact ⟨_, hgather, by simpa [hgc, hlen, hg] using hoff⟩
    | entries _ => exact ⟨_, hgather, by simpa [hgc, hlen, hg] using hoff⟩
    | write _ => exact ⟨_, hgather⟩
    | sync m c => exact absurd hg (hsync m c)

theorem gcEntry_links {victim i : ℕ} {is : List ℕ} {rest : List (ℕ × ℕ)} (h : Links cfg s)
    (hpc : (s.gc v).pc = .entries (victim, i :: is, rest)) (hread : ReadOk cfg s v (s.gc v).pc) :
    Links cfg (s.gcEntry cfg v victim i is rest) := by
  simp only [System.gcEntry]
  split
  · rename_i hbit
    split
    · exact gcCopy_links h hpc hbit hread rfl (by simp) (.inl ⟨_, rfl⟩)
    · exact gcCopy_links h hpc hbit hread rfl (by simp) (.inr rfl)
  · have hcoll := (h v).collector
    rw [hpc] at hcoll
    obtain ⟨ps, hps, hlen⟩ := hcoll
    refine h.of_elsewhere ((elsewhere_refl s v).setGc _) (fun _ _ _ _ _ ha => ha.of_table rfl)
      ((h v).of_gather rfl rfl rfl
      rfl rfl (by rw [hpc]; rfl) (by rw [gc_setGc]; rfl) (by rw [hpc]; rfl) (fun m hm hop => ?_) ?_)
    · rw [gcPending_of_ne (by simp)] at hm
      exact (h v).settled m (by rw [gcPending_of_ne (by simp [hpc])]; exact hm) hop
    · rw [gc_setGc]
      exact ⟨ps, hps.mono (fun _ _ _ _ ha => ha.of_table rfl) rfl rfl, by rw [gc_setGc]; exact hlen⟩

omit [DecidableEq A] in
theorem gcLast_links {used : List (ℕ × ℕ)} (h : Links cfg s) (hpc : (s.gc v).pc = .victims used) :
    Links cfg (s.gcLast v) := by
  unfold System.gcLast
  split
  · rename_i hm
    exact gcIdle_links h (by rw [hpc]; rfl) rfl rfl rfl (List.isEmpty_iff.mp hm) rfl
  · have hcoll := (h v).collector
    rw [hpc] at hcoll
    obtain ⟨ps, hps, -⟩ := hcoll
    refine h.of_elsewhere ((elsewhere_refl s v).setGc _) (fun _ _ _ _ _ ha => ha.of_table rfl)
      ((h v).of_gather rfl rfl rfl
      rfl rfl (by rw [hpc]; rfl) (by rw [gc_setGc]; rfl) (by rw [hpc]; rfl) (fun m hm hop => ?_) ?_)
    · rw [gcPending_of_ne (by simp)] at hm
      exact (h v).settled m (by rw [gcPending_of_ne (by simp [hpc])]; exact hm) hop
    · rw [gc_setGc]
      exact ⟨ps, hps.mono (fun _ _ _ _ ha => ha.of_table rfl) rfl rfl⟩

omit [DecidableEq A] in
theorem gcMoveOn_links (h : Links cfg s) (hv : Elsewhere s s' v) (htable : s'.table = s.table)
    (hsync : s'.sync v = s.sync v) (hw : (s'.stores v).wChunk = (s.stores v).wChunk)
    (hb : (s'.stores v).bitmap = (s.stores v).bitmap) (hg : (s'.stores v).gcWChunk = (s.stores v).gcWChunk)
    (hidle : (s.gc v).pc.isIdle = false) (hns : ∀ m c, (s.gc v).pc ≠ .sync m c)
    (hcoll : ∃ ps, Gathers cfg s v ps ∧ (s.gc v).wOffset = ps.length)
    (hoff : (s'.gc v).wOffset = (s.gc v).wOffset)
    (hpc : (∃ used, (s'.gc v).pc = .victims used) ∨ ∃ cont, (s'.gc v).pc = .entries cont) : Links cfg s' := by
  have hl : ∀ {a u c i}, s'.LinkedTo cfg a u c i → s.LinkedTo cfg a u c i :=
    fun ha => ha.of_table (by rw [htable])
  have hsyncing : (s.gc v).pc.syncing = false := by
    cases hp : (s.gc v).pc with
    | sync m c => exact absurd hp (hns m c)
    | _ => rfl
  have hns' : ∀ m c, (s'.gc v).pc ≠ .sync m c := by
    rcases hpc with ⟨_, hpc⟩ | ⟨_, hpc⟩ <;> simp [hpc]
  have hpend : s'.gcPending v = s.gcPending v := by rw [gcPending_of_ne hns, gcPending_of_ne hns', hg]
  obtain ⟨ps, hps, hlen⟩ := hcoll
  have hgather : ∃ ps, Gathers cfg s' v ps ∧ (s'.gc v).wOffset = ps.length :=
    ⟨ps, hps.mono (fun _ _ _ _ => hl) (by rw [hg]) (by rw [hg]), by rw [hoff, hlen]⟩
  refine h.of_elsewhere hv (fun _ _ _ _ _ => hl) ((h v).of_gather htable hsync hw hb (by rw [hg]) hidle ?_ hsyncing
    (fun m hm => (h v).settled m (hpend ▸ hm)) ?_)
  · rcases hpc with ⟨_, hpc⟩ | ⟨_, hpc⟩ <;> rw [hpc] <;> rfl
  · rcases hpc with ⟨_, hpc⟩ | ⟨_, hpc⟩ <;> rw [hpc] <;> exact hgather

omit [DecidableEq A] in
theorem gcWrite_links {cont : Option GcCont} (h : Links cfg s) (hpc : (s.gc v).pc = .write cont) :
    Links cfg (s.gcWrite cfg S v cont) := by
  have hcoll := (h v).collector
  rw [hpc] at hcoll
  obtain ⟨ps, hps⟩ := hcoll
  set s' := s.gcWrite cfg S v cont with hs'
  have hst : s'.stores v = writeGcWChunk cfg S (s.store v) := stores_setGc ..
  have hgc : (s'.gc v).pc = .sync (sortMovedEntry S (s.stores v).gcWChunk.movedEntryList) cont := by
    rw [hs', System.gcWrite, gc_setGc]
    rfl
  refine h.of_elsewhere ((elsewhere_setStore s v _).setGc _) (fun _ _ _ _ _ ha => ha.of_table rfl)
    ((h v).of_gather rfl rfl (by rw [hst]; rfl) (by rw [hst]; rfl) (by rw [hst]; rfl) (by rw [hpc]; rfl)
      (by rw [hgc]; rfl)
      (by rw [hpc]; rfl) (fun m hm hop => ?_) ?_)
  · rw [System.gcPending, hgc] at hm
    obtain ⟨m', hm', hc, hent, hop'⟩ := mem_of_mem_sortMovedEntry hm
    rw [← hc, ← hent]
    exact (h v).settled m' (by rw [gcPending_of_ne (by simp [hpc])]; exact hm') (hop'.trans hop)
  · rw [hgc]
    exact hps.relinks fun _ _ _ ha => ha.of_table rfl

theorem gcStep_links (h : Links cfg s) (ht : Tidy cfg s) (he : Exclusive cfg s)
    (hread : ReadOk cfg s v (s.gc v).pc) (hs : s.gcStep cfg S v = some s') : Links cfg s' := by
  cases gcMove_of_gcStep hs with
  | start r hpc hr =>
    have hphase := (ht v).phase
    rw [hpc] at hphase
    exact gcOpen_links h ht he (by rw [hpc]; rfl) hphase (gcStart_spec hr) rfl (by simp) rfl
  | last used hpc => exact gcLast_links h hpc
  | read victim n rest hpc =>
    have hcoll := (h v).collector
    rw [hpc] at hcoll
    exact gcMoveOn_links h ((elsewhere_setStore s v _).setGc _) rfl rfl (by rw [stores_setGc]; rfl)
      (by rw [stores_setGc]; rfl)
      (by rw [stores_setGc]; rfl) (by rw [hpc]; rfl) (by simp [hpc]) hcoll (by rw [gc_setGc])
      (.inr ⟨_, by rw [gc_setGc]⟩)
  | next victim rest hpc =>
    have hcoll := (h v).collector
    rw [hpc] at hcoll
    exact gcMoveOn_links h ((elsewhere_refl s v).setGc _) rfl rfl rfl rfl rfl (by rw [hpc]; rfl) (by simp [hpc]) hcoll
      (by rw [gc_setGc]) (.inl ⟨_, by rw [gc_setGc]⟩)
  | entry victim i is rest hpc => exact gcEntry_links h hpc hread
  | write cont hpc => exact gcWrite_links h hpc
  | done hpc => exact gcIdle_links h (by rw [hpc]; rfl) rfl rfl rfl rfl rfl
  | reopen cont t hpc hi =>
    set s₁ := (s.setStore v (System.gcClear (s.store v))).setGc v { s.gc v with pc := .idle } with hs₁
    have hk₁ := gcRelease_kept (v := v) ht he
    rw [← hs₁] at hk₁
    have hl₁ : Links cfg s₁ := gcIdle_links h (by rw [hpc]; rfl) rfl rfl rfl rfl rfl
    have hstore : s₁.store v = System.gcClear (s.store v) := by
      simp only [System.store, hs₁, stores_setGc]
      rfl
    have hl₂ := gcOpen_links (v := v) (g := { s.gc v with pc := .entries cont, wOffset := 0 }) hl₁ hk₁.tidy
      (hk₁.exclusive.mpr trivial) (by simp [hs₁, GcPc.records]) (by simp [hs₁, System.gcClear])
      (hstore ▸ hi) rfl (by simp) rfl
    have hs' : (s₁.setStore v t).setGc v { s.gc v with pc := .entries cont, wOffset := 0 } =
        (s.setStore v t).setGc v { s.gc v with pc := .entries cont, wOffset := 0 } := by
      simp [hs₁, System.setGc, System.setStore]
    exact hs' ▸ hl₂

/-! ## The records of the collector -/

/-- The collector of `v` is done with record `m` of its sync; nothing else of the store
but its bits may change. -/
structure Retiring (s s' : System A) (v : ℕ) (moved : List (MovedEntry A)) (m : MovedEntry A) : Prop where
  mem : m ∈ moved
  pc : ∃ cont, (s.gc v).pc = .sync moved cont ∧ (s'.gc v).pc = .sync (moved.erase m) cont
  sync : s'.sync v = s.sync v
  wChunk : (s'.stores v).wChunk = (s.stores v).wChunk
  gcWChunk : (s'.stores v).gcWChunk = (s.stores v).gcWChunk

namespace Retiring
variable {moved : List (MovedEntry A)} {m : MovedEntry A}

theorem isIdle (hr : Retiring s s' v moved m) : (s.gc v).pc.isIdle = false := by
  obtain ⟨cont, hpc, -⟩ := hr.pc
  rw [hpc]
  rfl

theorem gcPending (hr : Retiring s s' v moved m) : s.gcPending v = moved := by
  obtain ⟨cont, hpc, -⟩ := hr.pc
  rw [System.gcPending, hpc]

theorem gcPending_erase (hr : Retiring s s' v moved m) : s'.gcPending v = moved.erase m := by
  obtain ⟨cont, -, hpc⟩ := hr.pc
  rw [System.gcPending, hpc]

theorem relinks (hr : Retiring s s' v moved m) (h : LinksAt cfg s v) : Relinks cfg s v moved := by
  obtain ⟨cont, hpc, -⟩ := hr.pc
  have hrel := h.collector
  rwa [hpc] at hrel

theorem opens (hr : Retiring s s' v moved m) : s'.opens v = s.opens v := by
  obtain ⟨cont, hpc, hpc'⟩ := hr.pc
  exact opens_congr (fun w => by rw [hr.wChunk]; exact ⟨rfl, rfl⟩) (by rw [hr.gcWChunk]) (by rw [hpc, hpc']; rfl)

theorem pending (hr : Retiring s s' v moved m) (w : ℕ) : s'.pending v w = s.pending v w :=
  System.pending_congr (by rw [hr.sync]) (by rw [hr.wChunk])

theorem awaits_collector (hr : Retiring s s' v moved m) {j : ℕ} (hj : s'.awaits v .collector j) :
    ∃ m' ∈ moved.erase m, m'.opType = .insert ∧ m'.entryOffset = j := by
  obtain ⟨cont, -, hpc⟩ := hr.pc
  rcases hj with hj | hj
  · rw [hpc] at hj
    cases hj
  · rwa [hr.gcPending_erase] at hj

theorem awaits (hr : Retiring s s' v moved m) (o : Holder) (j : ℕ) (hj : s'.awaits v o j) : s.awaits v o j := by
  cases o with
  | writer w => rwa [System.awaits, hr.pending, hr.sync] at hj
  | collector =>
    obtain ⟨m', hm', hj⟩ := hr.awaits_collector hj
    exact .inr ⟨m', hr.gcPending ▸ List.mem_of_mem_erase hm', hj⟩

theorem offsets (hr : Retiring s s' v moved m) (h : LinksAt cfg s v) (w : ℕ) :
    ((s'.pending v w).map MovedEntry.entryOffset).Nodup := by
  rw [hr.pending]
  exact h.offsets w

theorem fill (hr : Retiring s s' v moved m) (h : LinksAt cfg s v) (w : ℕ) (hnone : s'.sync v w = none) :
    ∀ m' ∈ s'.pending v w, m'.entryOffset < ((s'.stores v).wChunk w).entryOffset := by
  rw [hr.pending, hr.wChunk]
  exact h.fill w (hr.sync ▸ hnone)

theorem settled (hr : Retiring s s' v moved m) (h : LinksAt cfg s v) {m' : MovedEntry A} (hm' : m' ∈ s'.gcPending v)
    (hop : m'.opType = .remove) : s.Settled v m'.chunkOffset m'.entryOffset :=
  h.settled m' (hr.gcPending ▸ List.mem_of_mem_erase (hr.gcPending_erase ▸ hm')) hop

theorem keep {b : A} (hb : m.opType = .insert → m.atEntry ≠ some b)
    (hm' : ∃ m' ∈ moved, m'.opType = .insert ∧ m'.atEntry = some b) :
    ∃ m' ∈ moved.erase m, m'.opType = .insert ∧ m'.atEntry = some b := by
  obtain ⟨m', hm', hop, ha⟩ := hm'
  refine ⟨m', (List.mem_erase_of_ne ?_).mpr hm', hop, ha⟩
  rintro rfl
  exact hb hop ha

theorem bit (hr : Retiring s s' v moved m) (h : LinksAt cfg s v) {b : A} {c i : ℕ} (hl : s.LinkedTo cfg b v c i)
    (hb : m.opType = .insert → m.atEntry ≠ some b) :
    (s.stores v).bitmap c i = true ∨ ∃ m' ∈ moved.erase m, m'.opType = .insert ∧ m'.atEntry = some b := by
  obtain ⟨cont, hpc, -⟩ := hr.pc
  refine (h.bit b c i hl).imp_right fun hm' => keep hb ?_
  rwa [hpc] at hm'

theorem relinks_erase (hr : Retiring s s' v moved m) (h : LinksAt cfg s v)
    (hl : ∀ m' ∈ moved.erase m, m'.opType = .remove → ∀ b,
      s'.LinkedTo cfg b v m'.chunkOffset m'.entryOffset →
      s.LinkedTo cfg b v m'.chunkOffset m'.entryOffset ∧ (m.opType = .insert → m.atEntry ≠ some b)) :
    GcLinks cfg s' v (s'.gc v).pc := by
  obtain ⟨cont, -, hpc⟩ := hr.pc
  have hrel := hr.relinks h
  rw [hpc]
  refine ⟨hrel.offsets.sublist ((List.erase_sublist.filter _).map _), fun m' hm' hop b hb => ?_⟩
  obtain ⟨hb, hne⟩ := hl m' hm' hop b hb
  exact keep hne (hrel.names m' (List.mem_of_mem_erase hm') hop b hb)

theorem done (hr : Retiring s s' v moved m) (h : LinksAt cfg s v) (hop : m.opType = .insert) :
    ¬ s'.awaits v .collector m.entryOffset := by
  intro hj
  obtain ⟨m', hm', hop', hj⟩ := hr.awaits_collector hj
  have hperm := ((List.perm_cons_erase hr.mem).filter fun m => m.opType = .insert).map MovedEntry.entryOffset
  rw [List.filter_cons_of_pos (by simpa using hop)] at hperm
  refine (List.nodup_cons.mp (hperm.nodup_iff.mp (hr.relinks h).offsets)).1 (List.mem_map.mpr ⟨m', ?_, hj⟩)
  exact List.mem_filter.mpr ⟨hm', by simpa using hop'⟩

theorem linksAt_of_shrink (hr : Retiring s s' v moved m) (h : LinksAt cfg s v)
    (hl : ∀ {b c i}, s'.LinkedTo cfg b v c i → s.LinkedTo cfg b v c i)
    (hne : ∀ {b c i}, s.LinkedTo cfg b v c i → m.opType = .insert → m.atEntry ≠ some b)
    (hkeep : ∀ b c i, s.LinkedTo cfg b v c i → (s.stores v).bitmap c i = true →
      (s'.stores v).bitmap c i = true ∨ ∃ m' ∈ moved, m'.opType = .insert ∧ m'.atEntry = some b)
    (hzero : ∀ c i, (s.stores v).bitmap c i = false → (s'.stores v).bitmap c i = false) : LinksAt cfg s' v := by
  refine ⟨fun a b c i ha hb => h.unique a b c i (hl ha) (hl hb), fun b c i hb => ?_, fun o c i ho hi => ?_,
    hr.offsets h, hr.fill h, fun m' hm' hop o ho hi => hr.settled h hm' hop o (hr.opens ▸ ho) (hr.awaits o _ hi),
    hr.relinks_erase h fun m' hm' hop b hb => ⟨hl hb, hne (hl hb)⟩⟩
  · obtain ⟨cont, -, hpc⟩ := hr.pc
    rw [hpc]
    rcases hr.bit h (hl hb) (hne (hl hb)) with hbit | hm'
    · exact (hkeep b c i (hl hb) hbit).imp_right (keep (hne (hl hb)))
    · exact .inr hm'
  · obtain ⟨hclear, hno⟩ := h.blank o c i (hr.opens ▸ ho) (hr.awaits o i hi)
    exact ⟨hzero c i hclear, fun b hb => hno b (hl hb)⟩

theorem linksAt_of_linking (hr : Retiring s s' v moved m) (h : LinksAt cfg s v) (ht : TidyAt cfg s v)
    (he : (s.pool cfg v).Exclusive (chunks cfg)) (ha : m.atEntry = some a)
    (hk : Linking cfg s s' v .collector a m.chunkOffset m.entryOffset) : LinksAt cfg s' v := by
  have hne : ∀ {b}, b ≠ a → m.opType = .insert → m.atEntry ≠ some b := by
    rintro b hba - hmb
    exact hba (Option.some.inj (hmb.symm.trans ha))
  refine ⟨hk.unique h, fun b c i hb => ?_, hk.blank h ht he, hr.offsets h, hr.fill h,
    fun m' hm' hop => hk.settled (hr.settled h hm' hop), hr.relinks_erase h fun m' hm' hop b hb => ?_⟩
  · obtain ⟨cont, -, hpc⟩ := hr.pc
    rw [hpc]
    rcases hk.cases_of_linkedTo hb with ⟨hba, hb⟩ | ⟨-, -, rfl, rfl⟩
    · exact (hr.bit h hb (hne hba)).imp_left hk.bit_of_bit
    · exact .inl hk.bit_self
  · obtain ⟨hba, hb⟩ := hk.linkedTo_of_settled (hr.settled h (hr.gcPending_erase ▸ hm') hop) hb
    exact ⟨hb, hne hba⟩

end Retiring

theorem gcLink_links {m : MovedEntry A} (h : Links cfg s) (ht : Tidy cfg s) (he : Exclusive cfg s)
    (hs : s.gcLink cfg v m = some s') : Links cfg s' := by
  obtain ⟨moved, cont, t, hpc, hm, ht', rfl⟩ := gcLink_spec hs
  obtain ⟨hw, -, hg, -⟩ := gcLinkOne_spec ht'
  set s' := (s.setStore v t).setGc v { s.gc v with pc := .sync (moved.erase m) cont } with hs'
  have hst : s'.stores v = t := stores_setGc ..
  have hgc : (s'.gc v).pc = .sync (moved.erase m) cont := by rw [hs', gc_setGc]
  have hv : Elsewhere s s' v := (elsewhere_setStore s v t).setGc _
  rw [← hst] at hw hg
  have hr : Retiring s s' v moved m := ⟨hm, ⟨cont, hpc, hgc⟩, rfl, hw, hg⟩
  unfold gcLinkOne at ht'
  cases hop : m.opType with
  | remove =>
    rw [hop] at ht'
    cases ht'
    have htable : s'.table = s.table := (unlinkToAt_fields cfg (s.store v) m.chunkOffset m.entryOffset).1
    have hl : ∀ {b u c i}, s'.LinkedTo cfg b u c i → s.LinkedTo cfg b u c i :=
      fun hb => hb.of_table (by rw [htable])
    refine h.of_elsewhere hv (fun _ _ _ _ _ => hl) (hr.linksAt_of_shrink (h v) hl (by simp [hop])
      (fun b c i hb hbit => ?_) (fun c i hzero => ?_))
    · by_cases hci : c = m.chunkOffset ∧ i = m.entryOffset
      · obtain ⟨rfl, rfl⟩ := hci
        exact .inr ((hr.relinks (h v)).names m hm hop b hb)
      · have hbit' : (s.store v).bitmap c i = true := hbit
        rw [hst, unlinkToAt_bitmap]
        simp [hci, hbit']
    · have hzero' : (s.store v).bitmap c i = false := hzero
      rw [hst, unlinkToAt_bitmap, hzero', Bool.false_and]
  | insert =>
    rw [hop] at ht'
    obtain ⟨a, ha, ⟨htable, hb, hskip⟩ | ⟨htable, hb⟩⟩ := gcLinkToAt_effect ht'
    · -- an entry that was updated since it was copied is passed over
      have hl : ∀ {b u c i}, s'.LinkedTo cfg b u c i → s.LinkedTo cfg b u c i :=
        fun hb => hb.of_table (congrFun htable _)
      have hb' : (s'.stores v).bitmap = (s.stores v).bitmap := hst ▸ hb
      refine h.of_elsewhere hv (fun _ _ _ _ _ => hl) (hr.linksAt_of_shrink (h v) hl ?_
        (fun b c i _ hbit => .inl (by rwa [hb'])) (fun c i hzero => by rwa [hb']))
      rintro b c i hlb - hmb
      obtain rfl : a = b := Option.some.inj (ha.symm.trans hmb)
      have h₁ : 0 ≤ ((s.store v).table a).vsIdx.vsOffset := hlb.offset
      have h₂ : ((s.store v).table a).vsIdx.vsId = (s.store v).vsId := hlb.vsId
      rcases hskip with hskip | hskip
      · omega
      · exact hskip h₂
    · obtain ⟨hchunk, hent⟩ := (ht v).records m (hr.gcPending ▸ hm) hop
      have ho := opens_collector hr.isIdle
      rw [← hchunk] at ho
      have hk : Linking cfg s s' v .collector a m.chunkOffset m.entryOffset :=
        ⟨hent, ho, .inr ⟨m, hr.gcPending ▸ hm, hop, rfl⟩, htable, hst ▸ hb, hr.opens, hr.awaits,
          hr.done (h v) hop⟩
      exact h.of_elsewhere hv (fun u hu b c i => hk.linkedTo_elsewhere hu)
        (hr.linksAt_of_linking (h v) (ht v) (he v) ha hk)

/-- The copies of a collection are read from the entries that are linked to the slots. -/
def KeepsLinks (cfg : Config) (s : System A) : Step A → Prop
  | .gc v => ReadOk cfg s v (s.gc v).pc
  | _ => True

theorem step_links {x : Step A} (h : Links cfg s) (ht : Tidy cfg s) (he : Exclusive cfg s) (hx : KeepsLinks cfg s x)
    (hs : step home keyOf cfg S s x = some s') : Links cfg s' := by
  cases x with
  | insert l a val p => exact insert_links h hs
  | update l a val p => exact update_links h hs
  | start l v =>
    obtain ⟨-, rfl⟩ := System.start_spec hs
    exact h.of_quiet (fun _ _ _ _ hb => hb.of_table rfl) rfl rfl rfl
  | reclaim l => exact reclaim_links h ht he hs
  | write l => exact write_links h hs
  | link l m => exact link_links h ht he hs
  | close l => exact close_links h hs
  | finish l =>
    obtain ⟨-, rfl⟩ := System.finish_spec hs
    exact h.of_quiet (fun _ _ _ _ hb => hb.of_table rfl) rfl rfl rfl
  | gc v => exact gcStep_links h ht he hx hs
  | gcLink v m => exact gcLink_links h ht he hs

end Collector

theorem not_linkedTo_freshSystem (a : A) (v c i : ℕ) :
    ¬ (freshSystem cfg : System A).LinkedTo cfg a v c i := fun h => by
  have hoff : (0 : ℤ) ≤ -1 := h.offset
  omega

theorem links_freshSystem : Links cfg (freshSystem cfg : System A) := by
  intro v
  refine ⟨fun a b c i ha => absurd ha (not_linkedTo_freshSystem a v c i),
    fun a c i ha => absurd ha (not_linkedTo_freshSystem a v c i), fun o c i ho => ?_, fun w => List.nodup_nil,
    fun w _ m hm => ?_, fun m hm => ?_, trivial⟩
  · cases o <;> cases ho
  · cases hm
  · cases hm

end Hkv.Prism


