import Hkv.Prism

/-!
# Where the value of an entry is

At every moment the value of a live entry is in a log, on its way to a chunk, or linked
to a slot. Each step moves at most one entry, and only along these places.
-/
namespace Hkv.Prism
open MtsConfig TaggedPointer AddressTable KeyedSort ValueStorage StepRun

variable {A : Type}

namespace System

/-- A copy of `a` waits in slot `w` of store `v` to be linked. -/
def InFlight (s : System A) (v w : ℕ) (a : A) : Prop := some a ∈ (s.pending v w).map MovedEntry.atEntry

end System

/-- The three places of a value. -/
inductive Place (keyOf : A → ℕ) (s : System A) (a : A) : Prop where
  | logged (l : LogId) (p : Ptr) (mem : p ∈ (s.log l).queue) (op : s.op p = ⟨keyOf a, s.latest a, some a⟩)
      (entry : s.table a = ⟨⟨-1, newlyUpdatedVal⟩, putTaggedPtr p.addr oplogVal⟩)
  | moving (l : LogId) (p : Ptr) (v : ℕ) (mem : p ∈ (s.log l).drained) (vs : (s.log l).phase.vs = some v)
      (op : s.op p = ⟨keyOf a, s.latest a, some a⟩)
      (entry : s.table a = ⟨⟨-1, preValuestorageVal⟩, putTaggedPtr p.addr oplogVal⟩)
      (flight : s.InFlight v l.1 a) (newest : s.putAt v l.1 a = s.version a)
  | linked (slot : (s.table a).Linked)
      (past : ∀ l, ∀ p ∈ (s.log l).queue, (s.op p).opa = some a → ¬ (s.table a).PointsTo p)

/-- Slots of a log are used once a round, and every live entry has its place. -/
structure Placed (home : Ptr → Option LogId) (keyOf : A → ℕ) (s : System A) : Prop where
  home : ∀ l, ∀ p ∈ (s.log l).queue ++ (s.log l).drained, home p = some l
  nodup : ∀ l, ((s.log l).queue ++ (s.log l).drained).Nodup
  place : ∀ a, s.values a ≠ [] → Place keyOf s a

variable {home : Ptr → Option LogId} {keyOf : A → ℕ} {cfg : Config} {S : StdSort} {s s' : System A} {l : LogId}
    {a b : A}

/-! ## Steps that leave an entry in its place -/

/-- Nothing that says where `b` is differs. -/
structure Untouched (s s' : System A) (b : A) : Prop where
  table : s'.table b = s.table b
  values : s'.values b = s.values b
  putAt : ∀ v w, s'.putAt v w b = s.putAt v w b
  op : ∀ l, ∀ p ∈ (s.log l).queue ++ (s.log l).drained, s'.op p = s.op p
  queue : ∀ l, ∀ p ∈ (s.log l).queue, (s.op p).opa = some b → (s.table b).PointsTo p →
    p ∈ (s'.log l).queue
  queue_back : ∀ l, ∀ p ∈ (s'.log l).queue, (s'.op p).opa = some b → p ∈ (s.log l).queue
  move : ∀ l v, ∀ p ∈ (s.log l).drained, (s.log l).phase.vs = some v → s.InFlight v l.1 b →
    p ∈ (s'.log l).drained ∧ (s'.log l).phase.vs = some v ∧ s'.InFlight v l.1 b

theorem Place.of_untouched (h : Place keyOf s b) (hu : Untouched s s' b) : Place keyOf s' b := by
  have hlatest : s'.latest b = s.latest b := by rw [System.latest, System.latest, hu.values]
  have hversion : s'.version b = s.version b := by rw [System.version, System.version, hu.values]
  cases h with
  | logged l p mem op entry =>
    refine .logged l p (hu.queue l p mem (by rw [op]) (by simp [entry])) ?_ (hu.table.trans entry)
    rw [hu.op l p (List.mem_append_left _ mem), op, hlatest]
  | moving l p v mem vs op entry flight newest =>
    obtain ⟨mem', vs', flight'⟩ := hu.move l v p mem vs flight
    refine .moving l p v mem' vs' ?_ (hu.table.trans entry) flight' ?_
    · rw [hu.op l p (List.mem_append_right _ mem), op, hlatest]
    · rw [hu.putAt, newest, hversion]
  | linked slot past =>
    refine .linked (hu.table ▸ slot) fun l p mem opa => ?_
    have mem' := hu.queue_back l p mem opa
    rw [hu.op l p (List.mem_append_left _ mem')] at opa
    rw [hu.table]
    exact past l p mem' opa

theorem Untouched.of_eq (ht : s'.table b = s.table b) (hv : s'.values = s.values) (hp : s'.putAt = s.putAt)
    (ho : s'.op = s.op) (hl : s'.log = s.log) (hf : ∀ v w, s.InFlight v w b → s'.InFlight v w b) :
    Untouched s s' b where
  table := ht
  values := congrFun hv b
  putAt v w := congrFun (congrFun (congrFun hp v) w) b
  op _ _ _ := congrFun ho _
  queue _ _ mem _ _ := hl ▸ mem
  queue_back _ _ mem _ := hl ▸ mem
  move l v _ mem vs flight := ⟨hl ▸ mem, hl ▸ vs, hf v l.1 flight⟩

namespace Placed

theorem log_eq (h : Placed home keyOf s) {l l' : LogId} {p : Ptr}
    (hp : p ∈ (s.log l).queue ++ (s.log l).drained) (hp' : p ∈ (s.log l').queue ++ (s.log l').drained) :
    l = l' := Option.some.inj ((h.home l p hp).symm.trans (h.home l' p hp'))

theorem not_queued (h : Placed home keyOf s) {l l' : LogId} {p q : Ptr} {i : VsIdx} {t : ℕ}
    (hp : p ∈ (s.log l).drained) (hq : q ∈ (s.log l').queue) :
    ¬ AtEntry.PointsTo ⟨i, putTaggedPtr p.addr t⟩ q := by
  rw [pointsTo_putTaggedPtr]
  rintro rfl
  obtain rfl := h.log_eq (List.mem_append_right _ hp) (List.mem_append_left _ hq)
  exact (List.disjoint_of_nodup_append (h.nodup l)) hq hp

theorem of_sublist (h : Placed home keyOf s)
    (hsub : ∀ l, ((s'.log l).queue ++ (s'.log l).drained).Sublist ((s.log l).queue ++ (s.log l).drained))
    (hplace : ∀ a, s'.values a ≠ [] → Place keyOf s' a) : Placed home keyOf s' :=
  ⟨fun l p hp => h.home l p ((hsub l).subset hp), fun l => (h.nodup l).sublist (hsub l), hplace⟩

theorem of_untouched (h : Placed home keyOf s)
    (hsub : ∀ l, ((s'.log l).queue ++ (s'.log l).drained).Sublist ((s.log l).queue ++ (s.log l).drained))
    (hu : ∀ b, Untouched s s' b) : Placed home keyOf s' :=
  h.of_sublist hsub fun b hb => (h.place b ((hu b).values ▸ hb)).of_untouched (hu b)

end Placed

/-! ## Pending records -/

namespace System

@[simp] theorem setStore_log (s : System A) (v : ℕ) (t : Store A) : (s.setStore v t).log = s.log := rfl
@[simp] theorem setStore_op (s : System A) (v : ℕ) (t : Store A) : (s.setStore v t).op = s.op := rfl
@[simp] theorem setStore_table (s : System A) (v : ℕ) (t : Store A) : (s.setStore v t).table = t.table := rfl
@[simp] theorem setStore_values (s : System A) (v : ℕ) (t : Store A) : (s.setStore v t).values = s.values := rfl
@[simp] theorem setStore_putAt (s : System A) (v : ℕ) (t : Store A) : (s.setStore v t).putAt = s.putAt := rfl
@[simp] theorem setStore_sync (s : System A) (v : ℕ) (t : Store A) : (s.setStore v t).sync = s.sync := rfl
@[simp] theorem setStore_gc (s : System A) (v : ℕ) (t : Store A) : (s.setStore v t).gc = s.gc := rfl
@[simp] theorem setStore_copiedAt (s : System A) (v : ℕ) (t : Store A) :
    (s.setStore v t).copiedAt = s.copiedAt := rfl

@[simp] theorem store_table (s : System A) (v : ℕ) : (s.store v).table = s.table := rfl
@[simp] theorem store_vsId (s : System A) (v : ℕ) : (s.store v).vsId = v := rfl
@[simp] theorem store_wChunk (s : System A) (v : ℕ) : (s.store v).wChunk = (s.stores v).wChunk := rfl
@[simp] theorem store_disk (s : System A) (v : ℕ) : (s.store v).disk = (s.stores v).disk := rfl
@[simp] theorem store_bitmap (s : System A) (v : ℕ) : (s.store v).bitmap = (s.stores v).bitmap := rfl
@[simp] theorem store_gcWChunk (s : System A) (v : ℕ) : (s.store v).gcWChunk = (s.stores v).gcWChunk := rfl
@[simp] theorem store_gcRBuffer (s : System A) (v : ℕ) : (s.store v).gcRBuffer = (s.stores v).gcRBuffer := rfl

theorem pending_congr {v w : ℕ} (hs : s'.sync v w = s.sync v w)
    (hm : ((s'.stores v).wChunk w).movedEntryList = ((s.stores v).wChunk w).movedEntryList) :
    s'.pending v w = s.pending v w := by
  rw [pending, pending, hs, hm]

theorem pending_setStore {v v' w : ℕ} {t : Store A}
    (ht : (t.wChunk w).movedEntryList = ((s.stores v).wChunk w).movedEntryList) :
    (s.setStore v t).pending v' w = s.pending v' w := by
  refine pending_congr rfl ?_
  by_cases hv : v' = v
  · subst hv
    simpa [setStore] using ht
  · simp [setStore, hv]

theorem pending_setSync_self (s : System A) (v w : ℕ) (moved : List (MovedEntry A)) :
    (s.setSync v w (some moved)).pending v w = moved := by
  simp [pending, setSync]

theorem pending_setSync_ne {v w v' w' : ℕ} (h : v' = v → w' ≠ w) (moved : Option (List (MovedEntry A))) :
    (s.setSync v w moved).pending v' w' = s.pending v' w' := by
  refine pending_congr ?_ rfl
  by_cases hv : v' = v
  · subst hv
    simp [setSync, h rfl]
  · simp [setSync, hv]

end System

/-- A step that no entry, log or writer slot notices. -/
structure Backstage (s s' : System A) : Prop where
  table : s'.table = s.table
  op : s'.op = s.op
  log : s'.log = s.log
  values : s'.values = s.values
  putAt : s'.putAt = s.putAt
  sync : s'.sync = s.sync
  wChunk : ∀ v, (s'.stores v).wChunk = (s.stores v).wChunk

theorem Backstage.setStore (s : System A) (v : ℕ) (t : Store A) (g : GcThread A) (ht : t.table = s.table)
    (hw : t.wChunk = (s.stores v).wChunk) : Backstage s ((s.setStore v t).setGc v g) := by
  refine ⟨ht, rfl, rfl, rfl, rfl, rfl, fun v' => ?_⟩
  by_cases hv : v' = v
  · subst hv
    simpa [System.setGc, System.setStore] using hw
  · simp [System.setGc, System.setStore, hv]

theorem Backstage.setGc (s : System A) (v : ℕ) (g : GcThread A) : Backstage s (s.setGc v g) :=
  ⟨rfl, rfl, rfl, rfl, rfl, rfl, fun _ => rfl⟩

theorem Backstage.inFlight (h : Backstage s s') {v w : ℕ} : s'.InFlight v w a ↔ s.InFlight v w a := by
  rw [System.InFlight, System.InFlight,
    System.pending_congr (congrFun (congrFun h.sync v) w) (by rw [h.wChunk v])]

theorem Placed.of_backstage (h : Placed home keyOf s) (hb : Backstage s s') : Placed home keyOf s' := by
  refine h.of_untouched (fun l => ?_) fun b =>
    .of_eq (congrFun hb.table b) hb.values hb.putAt hb.op hb.log fun _ _ => hb.inFlight.mpr
  rw [hb.log]

theorem unlinkPast_stores {β : Type} (cfg : Config) (s : System A) (past : VsIdx) (f : Store A → β)
    (hf : ∀ v c e, f (unlinkToAt cfg (s.store v) c e) = f (s.stores v)) (v : ℕ) :
    f ((s.unlinkPast cfg past).stores v) = f (s.stores v) := by
  unfold System.unlinkPast
  split
  · by_cases hv : v = past.vsId.toNat
    · subst hv
      simpa [System.setStore] using hf _ _ _
    · simp [System.setStore, hv]
  · rfl

theorem Backstage.unlinkPast (cfg : Config) (s : System A) (past : VsIdx) : Backstage s (s.unlinkPast cfg past) := by
  have hw := unlinkPast_stores cfg s past Store.wChunk fun v c e => (unlinkToAt_gcFrame cfg (s.store v) c e).wChunk
  refine ⟨?_, ?_, ?_, ?_, ?_, ?_, hw⟩
  · unfold System.unlinkPast
    split
    · rw [System.setStore_table, unlinkToAt_table]
      rfl
    · rfl
  all_goals
    unfold System.unlinkPast
    split <;> rfl

namespace Placed
variable [DecidableEq A]

/-! ## Writes -/

theorem perm_append_slot (q d : List Ptr) (p : Ptr) : ((q ++ [p]) ++ d).Perm (p :: (q ++ d)) := by
  rw [List.append_assoc]
  exact List.perm_middle

theorem record (h : Placed home keyOf s) {p : Ptr} (hp : s.Fresh home l p) (val : ℕ) :
    Placed home keyOf (s.record keyOf l a val p ⟨⟨-1, newlyUpdatedVal⟩, putTaggedPtr p.addr oplogVal⟩) := by
  obtain ⟨hhome, hq, hd⟩ := hp
  have hslots : p ∉ (s.log l).queue ++ (s.log l).drained := by
    simp [hq, hd]
  have hne : ∀ l', ∀ q ∈ (s.log l').queue ++ (s.log l').drained, q ≠ p := by
    rintro l' q hmem rfl
    obtain rfl := Option.some.inj ((h.home l' q hmem).symm.trans hhome)
    exact hslots hmem
  refine ⟨fun l' q hq' => ?_, fun l' => ?_, fun b hb => ?_⟩
  · by_cases hl : l' = l
    · subst hl
      simp only [System.record, Function.update_self] at hq'
      rcases List.mem_cons.mp ((perm_append_slot _ _ p).mem_iff.mp hq') with rfl | hq'
      · exact hhome
      · exact h.home l' q hq'
    · simp only [System.record, Function.update_of_ne hl] at hq'
      exact h.home l' q hq'
  · by_cases hl : l' = l
    · subst hl
      simp only [System.record, Function.update_self]
      exact (perm_append_slot _ _ p).nodup_iff.mpr (List.nodup_cons.mpr ⟨hslots, h.nodup l'⟩)
    · simp only [System.record, Function.update_of_ne hl]
      exact h.nodup l'
  · by_cases hab : b = a
    · subst hab
      exact .logged l p (by simp [System.record]) (by simp [System.record, System.latest])
        (by simp [System.record])
    · have hb' : s.values b ≠ [] := by simpa [System.record, hab] using hb
      refine (h.place b hb').of_untouched ⟨by simp [System.record, hab], by simp [System.record, hab],
        fun _ _ => rfl, fun l' q hq' => ?_, fun l' q hq' _ _ => ?_, fun l' q hq' hopa => ?_,
        fun l' v q hq' hvs hf => ?_⟩
      · simp [System.record, hne l' q hq']
      · by_cases hl : l' = l
        · subst hl
          simp [System.record, hq']
        · simpa [System.record, hl] using hq'
      · by_cases hl : l' = l
        · subst hl
          simp only [System.record, Function.update_self, List.mem_append, List.mem_singleton] at hq'
          rcases hq' with hq' | rfl
          · exact hq'
          · -- the new slot is for `a`
            simp [System.record] at hopa
            exact absurd hopa.symm hab
        · simpa [System.record, hl] using hq'
      · by_cases hl : l' = l
        · subst hl
          simpa [System.record] using ⟨hq', hvs, hf⟩
        · simpa [System.record, hl] using ⟨hq', hvs, hf⟩

theorem insert (h : Placed home keyOf s) {val : ℕ} {p : Ptr} (hs : s.insert home keyOf l a val p = some s') :
    Placed home keyOf s' := by
  obtain ⟨hfresh, rfl⟩ := System.insert_spec hs
  exact h.record hfresh.1 val

theorem update (h : Placed home keyOf s) {val : ℕ} {p : Ptr}
    (hs : s.update home keyOf cfg l a val p = some s') : Placed home keyOf s' := by
  obtain ⟨hfresh, rfl⟩ := System.update_spec hs
  exact (h.record hfresh.1 val).of_backstage (.unlinkPast cfg _ _)

/-! ## Reclaim -/

omit [DecidableEq A] in
theorem start (h : Placed home keyOf s) {v : ℕ} (hs : s.start l v = some s') : Placed home keyOf s' := by
  obtain ⟨hidle, rfl⟩ := System.start_spec hs
  have hlog : ∀ l', ((s.setLog l { s.log l with phase := .draining v }).log l').queue = (s.log l').queue ∧
      ((s.setLog l { s.log l with phase := .draining v }).log l').drained = (s.log l').drained := by
    intro l'
    by_cases hl : l' = l
    · subst hl
      simp [System.setLog]
    · simp [System.setLog, hl]
  refine h.of_untouched (fun l' => ?_) fun b => ?_
  · rw [(hlog l').1, (hlog l').2]
  · refine ⟨rfl, rfl, fun _ _ => rfl, fun _ _ _ => rfl, fun l' p hp _ _ => ?_, fun l' p hp _ => ?_,
      fun l' v' p hp hvs hf => ?_⟩
    · rwa [(hlog l').1]
    · rwa [(hlog l').1] at hp
    · by_cases hl : l' = l
      · subst hl
        rw [hidle.1] at hvs
        cases hvs
      · exact ⟨by rwa [(hlog l').2], by simpa [System.setLog, hl] using hvs, hf⟩

end Placed

theorem openWhenIdle_spec {t t' : Store A} {w : ℕ} (h : System.openWhenIdle cfg t w = some t') :
    (∃ i c, t'.wChunk = Function.update t.wChunk w { t.wChunk w with isInit := i, chunkOffset := c } ∧
        ((t.wChunk w).entryOffset ≠ 0 → c = (t.wChunk w).chunkOffset)) ∧
      t'.table = t.table ∧ t'.disk = t.disk ∧ t'.gcWChunk = t.gcWChunk ∧ t'.gcRBuffer = t.gcRBuffer := by
  unfold System.openWhenIdle at h
  split at h
  · rename_i hz
    obtain ⟨⟨c, t₁⟩, hf, rfl⟩ := Option.map_eq_some_iff.mp h
    unfold getFreeChunkOffset at hf
    split at hf
    · cases hf
    · split at hf
      · cases hf
        refine ⟨⟨true, c, ?_, fun hne => absurd hz hne⟩, rfl, rfl, rfl, rfl⟩
        simp [setWChunk, hz]
      · cases hf
  · cases h
    exact ⟨⟨(t.wChunk w).isInit, (t.wChunk w).chunkOffset, by simp, fun _ => rfl⟩, rfl, rfl, rfl, rfl⟩

section Put
variable [DecidableEq A] {v w key val : ℕ}

theorem put_spec (h : s.put cfg v w key val a = some s') : s.sync v w = none ∧
    ((s.stores v).wChunk w).entryOffset < cfg.entriesPerChunk ∧
    ∃ t, System.openWhenIdle cfg (s.store v) w = some t ∧
      s' = { s.setStore v (appendEntry t w key val a) with
        putAt := Function.update s.putAt v (Function.update (s.putAt v) w
          (Function.update (s.putAt v w) a (s.version a))) } := by
  simp only [System.put] at h
  split at h
  · rename_i hguard
    obtain ⟨t, ht, rfl⟩ := Option.map_eq_some_iff.mp h
    exact ⟨hguard.1, hguard.2.1, t, ht, rfl⟩
  · cases h

theorem put_pending (h : s.put cfg v w key val a = some s') (v' w' : ℕ) :
    (s'.pending v' w').map MovedEntry.atEntry =
      (s.pending v' w').map MovedEntry.atEntry ++ if v' = v ∧ w' = w then [some a] else [] := by
  obtain ⟨hsync, -, t, ht, rfl⟩ := put_spec h
  obtain ⟨⟨i, c, hchunk, -⟩, -⟩ := openWhenIdle_spec ht
  by_cases hv : v' = v
  · subst hv
    by_cases hw : w' = w
    · subst hw
      simp [System.pending, hsync, System.setStore, appendEntry, hchunk, addMovedEntry]
    · simp [System.pending, System.setStore, appendEntry, setWChunk, hw, hchunk]
  · simp [System.pending, System.setStore, hv]

theorem put_inFlight (h : s.put cfg v w key val a = some s') {v' w' : ℕ} (hf : s.InFlight v' w' b) :
    s'.InFlight v' w' b := by
  rw [System.InFlight, put_pending h]
  exact List.mem_append_left _ hf

theorem put_inFlight_self (h : s.put cfg v w key val a = some s') : s'.InFlight v w a := by
  rw [System.InFlight, put_pending h]
  simp

theorem put_frame (h : s.put cfg v w key val a = some s') :
    s'.table = Function.update s.table a (preAtEntry (s.table a)) ∧ s'.op = s.op ∧ s'.log = s.log ∧
      s'.values = s.values ∧ s'.putAt v w a = s.version a ∧
      ∀ b v' w', (v' = v → w' = w → b ≠ a) → s'.putAt v' w' b = s.putAt v' w' b := by
  obtain ⟨-, -, t, ht, rfl⟩ := put_spec h
  obtain ⟨-, htable, -⟩ := openWhenIdle_spec ht
  refine ⟨by simp [appendEntry, htable], rfl, rfl, rfl, by simp, fun b v' w' hb => ?_⟩
  by_cases hv : v' = v
  · subst hv
    by_cases hw : w' = w
    · subst hw
      simp [hb rfl rfl]
    · simp [hw]
  · simp [hv]

end Put

namespace Placed
variable [DecidableEq A]

omit [DecidableEq A] in
theorem deq_slots (s : System A) {v : ℕ} {p : Ptr} {rest : List Ptr} (hq : (s.log l).queue = p :: rest)
    (l' : LogId) : (((s.deq l v p rest).log l').queue ++ ((s.deq l v p rest).log l').drained).Perm
      ((s.log l').queue ++ (s.log l').drained) := by
  by_cases hl : l' = l
  · subst hl
    simp only [System.deq, System.setLog, Function.update_self, hq]
    exact List.perm_middle
  · simp [System.deq, System.setLog, hl]

omit [DecidableEq A] in
theorem deq_untouched {v : ℕ} {p : Ptr} {rest : List Ptr} (hphase : (s.log l).phase = .draining v)
    (hq : (s.log l).queue = p :: rest) (hb : (s.op p).opa = some b → ¬ (s.table b).PointsTo p) :
    Untouched s (s.deq l v p rest) b := by
  refine ⟨rfl, rfl, fun _ _ => rfl, fun _ _ _ => rfl, fun l' q hmem hopa hpt => ?_, fun l' q hmem _ => ?_,
    fun l' v' q hmem hvs hf => ?_⟩
  · by_cases hl : l' = l
    · subst hl
      rw [hq] at hmem
      rcases List.mem_cons.mp hmem with rfl | hmem
      · exact absurd hpt (hb hopa)
      · simpa [System.deq, System.setLog] using hmem
    · simpa [System.deq, System.setLog, hl] using hmem
  · by_cases hl : l' = l
    · subst hl
      rw [hq]
      simp only [System.deq, System.setLog, Function.update_self] at hmem
      exact List.mem_cons_of_mem _ hmem
    · simpa [System.deq, System.setLog, hl] using hmem
  · by_cases hl : l' = l
    · subst hl
      have hv : v = v' := by
        rw [hphase] at hvs
        exact Option.some.inj hvs
      subst hv
      simp only [System.deq, System.setLog, Function.update_self]
      refine ⟨List.mem_cons_of_mem _ hmem, ?_, hf⟩
      split <;> rfl
    · exact ⟨by simpa [System.deq, System.setLog, hl] using hmem,
        by simpa [System.deq, System.setLog, hl] using hvs, hf⟩

omit [DecidableEq A] in
theorem deq (h : Placed home keyOf s) {v : ℕ} {p : Ptr} {rest : List Ptr} (hq : (s.log l).queue = p :: rest)
    (hs : s'.log = (s.deq l v p rest).log) (hplace : ∀ b, s'.values b ≠ [] → Place keyOf s' b) :
    Placed home keyOf s' := by
  refine ⟨fun l' q hmem => ?_, fun l' => ?_, hplace⟩
  · rw [hs] at hmem
    exact h.home l' q ((deq_slots s hq l').mem_iff.mp hmem)
  · rw [hs]
    exact (deq_slots s hq l').nodup_iff.mpr (h.nodup l')

end Placed

section Steps
variable [DecidableEq A]

theorem reclaim_spec (hs : s.reclaim cfg l = some s') : ∃ v p rest a, (s.log l).phase = .draining v ∧
    (s.log l).queue = p :: rest ∧ (s.op p).opa = some a ∧
    ((s.table a).PointsTo p ∧ (s.deq l v p rest).put cfg v l.1 (s.op p).key (s.op p).val a = some s' ∨
      ¬ (s.table a).PointsTo p ∧ s' = s.deq l v p rest) := by
  unfold System.reclaim at hs
  split at hs
  · rename_i v p rest hphase hq
    split at hs
    · cases hs
    · rename_i a hopa
      refine ⟨v, p, rest, a, hphase, hq, hopa, ?_⟩
      split at hs
      · rename_i hpt
        exact .inl ⟨hpt, hs⟩
      · rename_i hpt
        cases hs
        exact .inr ⟨hpt, rfl⟩
  · cases hs

omit [DecidableEq A] in
theorem Placed.logged_of_head (h : Placed home keyOf s) {p : Ptr} (ha : s.values a ≠ [])
    (hmem : p ∈ (s.log l).queue) (hopa : (s.op p).opa = some a) (hpt : (s.table a).PointsTo p) :
    s.op p = ⟨keyOf a, s.latest a, some a⟩ ∧
      s.table a = ⟨⟨-1, newlyUpdatedVal⟩, putTaggedPtr p.addr oplogVal⟩ := by
  cases h.place a ha with
  | logged l' q mem op entry =>
    rw [entry, pointsTo_putTaggedPtr] at hpt
    subst hpt
    exact ⟨op, entry⟩
  | moving l' q v mem vs op entry flight newest =>
    rw [entry] at hpt
    exact absurd hpt (h.not_queued mem hmem)
  | linked slot past => exact absurd hpt (past l p hmem hopa)

theorem Placed.reclaim (h : Placed home keyOf s) (hs : s.reclaim cfg l = some s') : Placed home keyOf s' := by
  obtain ⟨v, p, rest, a, hphase, hq, hopa, ⟨hpt, hput⟩ | ⟨hpt, rfl⟩⟩ := reclaim_spec hs
  · obtain ⟨htable, hop, hlog, hvalues, hself, hother⟩ := put_frame hput
    refine h.deq hq hlog fun b hb => ?_
    have hb' : s.values b ≠ [] := by
      rw [hvalues] at hb
      exact hb
    by_cases hab : b = a
    · -- the value of `a` is on its way
      subst hab
      have hmem : p ∈ (s.log l).queue := by simp [hq]
      obtain ⟨hopp, hentry⟩ := h.logged_of_head hb' hmem hopa hpt
      have hlatest : s'.latest b = s.latest b := by
        rw [System.latest, hvalues]
        rfl
      refine .moving l p v ?_ ?_ ?_ ?_ (put_inFlight_self hput) ?_
      · simp [hlog, System.deq, System.setLog]
      · simp only [hlog, System.deq, System.setLog, Function.update_self]
        split <;> rfl
      · rw [hop, hlatest]
        exact hopp
      · have hdeq : (s.deq l v p rest).table = s.table := rfl
        rw [htable, Function.update_self, hdeq, hentry]
        rfl
      · rw [hself, System.version, System.version, hvalues]
    · have hu := Placed.deq_untouched (s := s) hphase hq (b := b) fun hopb =>
        absurd (Option.some.inj (hopb.symm.trans hopa)) hab
      have hu' : Untouched (s.deq l v p rest) s' b := by
        refine ⟨?_, congrFun hvalues b, fun v' w' => hother b v' w' fun _ _ => hab, fun _ q _ => congrFun hop q,
          fun l' q hmem _ _ => hlog ▸ hmem, fun l' q hmem _ => hlog ▸ hmem,
          fun l' v' q hmem hvs hf => ⟨hlog ▸ hmem, hlog ▸ hvs, put_inFlight hput hf⟩⟩
        rw [htable, Function.update_of_ne hab]
      exact ((h.place b hb').of_untouched hu).of_untouched hu'
  · refine h.deq hq rfl fun b hb => (h.place b hb).of_untouched ?_
    refine Placed.deq_untouched hphase hq fun hopb => ?_
    obtain rfl := Option.some.inj (hopb.symm.trans hopa)
    exact hpt

omit [DecidableEq A] in
theorem write_spec (hs : s.write cfg S l = some s') : ∃ v, (s.log l).phase.vs = some v ∧ s.sync v l.1 = none ∧
    s' = (s.setStore v (writeChunk cfg S (s.store v) l.1)).setSync v l.1
      (some (sortMovedEntry S ((s.stores v).wChunk l.1).movedEntryList)) := by
  have hsync : ∀ {v}, s.startSync cfg S v l.1 = some s' → s.sync v l.1 = none ∧
      s' = (s.setStore v (writeChunk cfg S (s.store v) l.1)).setSync v l.1
        (some (sortMovedEntry S ((s.stores v).wChunk l.1).movedEntryList)) := by
    intro v h
    unfold System.startSync at h
    split at h
    · rename_i hnone
      cases h
      exact ⟨hnone, rfl⟩
    · cases h
  unfold System.write at hs
  split at hs
  · rename_i v hphase
    split at hs
    · exact ⟨v, by rw [hphase]; rfl, hsync hs⟩
    · cases hs
  · rename_i v hphase
    split at hs
    · exact ⟨v, by rw [hphase]; rfl, hsync hs⟩
    · cases hs
  · cases hs

omit [DecidableEq A] in
theorem write_inFlight (hs : s.write cfg S l = some s') {v w : ℕ} (hf : s.InFlight v w b) : s'.InFlight v w b := by
  obtain ⟨v₀, -, hnone, rfl⟩ := write_spec hs
  by_cases hvw : v = v₀ ∧ w = l.1
  · obtain ⟨rfl, rfl⟩ := hvw
    rw [System.InFlight, System.pending_setSync_self]
    rw [System.InFlight, System.pending, hnone] at hf
    exact (perm_sortMovedEntry S _).mem_iff.mpr hf
  · rw [System.InFlight, System.pending_setSync_ne (fun hv hw => hvw ⟨hv, hw⟩), System.pending_setStore]
    · exact hf
    · by_cases hw : w = l.1
      · subst hw
        exact writeChunk_moved cfg S (s.store v₀) l.1
      · simp [writeChunk, setWChunk, hw, System.store]

omit [DecidableEq A] in
theorem Placed.write (h : Placed home keyOf s) (hs : s.write cfg S l = some s') : Placed home keyOf s' := by
  have hf := fun {b : A} {v w : ℕ} => write_inFlight (b := b) (v := v) (w := w) hs
  obtain ⟨v, -, -, rfl⟩ := write_spec hs
  exact h.of_untouched (fun _ => List.Sublist.refl _) fun b => .of_eq rfl rfl rfl rfl rfl fun _ _ => hf

theorem link_spec {m : MovedEntry A} (hs : s.link cfg l m = some s') : ∃ v moved t, (s.log l).phase.vs = some v ∧
    s.sync v l.1 = some moved ∧ m ∈ moved ∧
    linkToAt cfg (s.store v) m.chunkOffset m.entryOffset m.atEntry = some t ∧
    s' = (s.setStore v t).setSync v l.1 (some (moved.erase m)) := by
  obtain ⟨v, hv, hs⟩ := Option.bind_eq_some_iff.mp hs
  obtain ⟨moved, hmoved, hs⟩ := Option.bind_eq_some_iff.mp hs
  split at hs
  · rename_i hm
    obtain ⟨t, ht, rfl⟩ := Option.map_eq_some_iff.mp hs
    exact ⟨v, moved, t, hv, hmoved, hm, ht, rfl⟩
  · cases hs

theorem linkToAt_spec {t t' : Store A} {chunk entry : ℕ} {o : Option A}
    (h : linkToAt cfg t chunk entry o = some t') :
    ∃ a, o = some a ∧ t'.wChunk = t.wChunk ∧ t'.disk = t.disk ∧ t'.gcWChunk = t.gcWChunk ∧
    t'.gcRBuffer = t.gcRBuffer ∧
      (t'.table = t.table ∧ (t.table a).vsIdx.vsOffset = newlyUpdatedVal ∨
        (t.table a).vsIdx.vsOffset ≠ newlyUpdatedVal ∧ t'.table = Function.update t.table a
          { t.table a with vsIdx := ⟨t.vsId, cfg.slotOffset chunk entry⟩ }) := by
  cases o with
  | none => cases h
  | some a =>
    simp only [linkToAt, linkAtEntry] at h
    refine ⟨a, rfl, ?_⟩
    by_cases hu : (t.table a).vsIdx.vsOffset = newlyUpdatedVal
    · simp only [hu, if_true, Option.some.injEq] at h
      subst h
      exact ⟨rfl, rfl, rfl, rfl, .inl ⟨rfl, hu⟩⟩
    · simp only [hu, if_false, Option.some.injEq] at h
      subst h
      exact ⟨rfl, rfl, rfl, rfl, .inr ⟨hu, rfl⟩⟩

theorem link_inFlight {m : MovedEntry A} (hs : s.link cfg l m = some s') {v w : ℕ} (hb : m.atEntry ≠ some b)
    (hf : s.InFlight v w b) : s'.InFlight v w b := by
  obtain ⟨v₀, moved, t, -, hmoved, -, ht, rfl⟩ := link_spec hs
  obtain ⟨a, -, hw, -⟩ := linkToAt_spec ht
  by_cases hvw : v = v₀ ∧ w = l.1
  · obtain ⟨rfl, rfl⟩ := hvw
    rw [System.InFlight, System.pending_setSync_self]
    rw [System.InFlight, System.pending, hmoved] at hf
    obtain ⟨m', hm', hb'⟩ := List.mem_map.mp hf
    have hne : m' ≠ m := by
      rintro rfl
      exact hb hb'
    exact List.mem_map.mpr ⟨m', (List.mem_erase_of_ne hne).mpr hm', hb'⟩
  · rw [System.InFlight, System.pending_setSync_ne (fun hv hw => hvw ⟨hv, hw⟩), System.pending_setStore]
    · exact hf
    · rw [hw]
      rfl

theorem linked_slot (v n : ℕ) (e : AtEntry) : AtEntry.Linked { e with vsIdx := ⟨v, n⟩ } :=
  ⟨by simp only; omega, by simp only; omega⟩

omit [DecidableEq A] in
theorem Placed.relink (h : Placed home keyOf s) (ha : s.values a ≠ []) {v n : ℕ}
    (hu : (s.table a).vsIdx.vsOffset ≠ newlyUpdatedVal) (hlog : s'.log = s.log) (hop : s'.op = s.op)
    (ht : s'.table a = { s.table a with vsIdx := ⟨v, n⟩ }) : Place keyOf s' a := by
  refine .linked (ht ▸ linked_slot v n _) fun l p mem opa => ?_
  rw [hlog] at mem
  rw [hop] at opa
  rw [ht]
  cases h.place a ha with
  | logged l' q mem' op entry => exact absurd (by rw [entry]) hu
  | moving l' q v' mem' vs op entry flight newest =>
    rw [entry]
    exact h.not_queued mem' mem
  | linked slot past => exact past l p mem opa

theorem Placed.link (h : Placed home keyOf s) {m : MovedEntry A} (hs : s.link cfg l m = some s') :
    Placed home keyOf s' := by
  have hf := fun {b : A} {v w : ℕ} => link_inFlight (b := b) (v := v) (w := w) hs
  obtain ⟨v, moved, t, -, -, -, ht, rfl⟩ := link_spec hs
  obtain ⟨a, ha, -, -, -, -, ⟨htable, hupd⟩ | ⟨hupd, htable⟩⟩ := linkToAt_spec ht
  · -- the entry was updated meanwhile: its record is dropped
    refine h.of_sublist (fun _ => List.Sublist.refl _) fun b hb => ?_
    by_cases hab : b = a
    · subst hab
      have hupd' : (s.table b).vsIdx.vsOffset = newlyUpdatedVal := hupd
      cases h.place b hb with
      | logged l' q mem op entry => exact .logged l' q mem op ((congrFun htable b).trans entry)
      | moving l' q v' mem vs op entry flight newest =>
        rw [entry] at hupd'
        cases hupd'
      | linked slot past =>
        have hlt := slot.2
        rw [hupd'] at hlt
        exact absurd hlt (by decide)
    · have hne : m.atEntry ≠ some b := fun he => hab (Option.some.inj (he.symm.trans ha))
      exact (h.place b hb).of_untouched (.of_eq (congrFun htable b) rfl rfl rfl rfl fun _ _ => hf hne)
  · refine h.of_sublist (fun _ => List.Sublist.refl _) fun b hb => ?_
    by_cases hab : b = a
    · subst hab
      exact h.relink hb hupd rfl rfl ((congrFun htable b).trans (Function.update_self ..))
    · have hne : m.atEntry ≠ some b := fun he => hab (Option.some.inj (he.symm.trans ha))
      exact (h.place b hb).of_untouched
        (.of_eq ((congrFun htable b).trans (Function.update_of_ne hab ..)) rfl rfl rfl rfl fun _ _ => hf hne)

theorem close_spec (hs : s.close l = some s') : ∃ v phase, (s.log l).phase.vs = some v ∧
    s.sync v l.1 = some [] ∧ (phase = (s.log l).phase ∨ phase = .finished) ∧
    s' = ((s.setStore v (System.closeChunk (s.store v) l.1)).setSync v l.1 none).setLog l
    { s.log l with phase := phase } := by
  obtain ⟨v, hv, hs⟩ := Option.bind_eq_some_iff.mp hs
  split at hs
  · rename_i hsync
    cases hs
    refine ⟨v, _, hv, hsync, ?_, rfl⟩
    split
    · exact .inr rfl
    · exact .inl rfl
  · cases hs

theorem close_inFlight (hs : s.close l = some s') {v w : ℕ} : s'.InFlight v w b ↔ s.InFlight v w b := by
  obtain ⟨v₀, phase, -, hsync, -, rfl⟩ := close_spec hs
  by_cases hvw : v = v₀ ∧ w = l.1
  · obtain ⟨rfl, rfl⟩ := hvw
    simp [System.InFlight, System.pending, System.setLog, System.setSync, System.setStore, System.closeChunk, hsync]
  · have hpend : ((((s.setStore v₀ (System.closeChunk (s.store v₀) l.1)).setSync v₀ l.1 none).setLog l
        { s.log l with phase := phase })).pending v w =
        ((s.setStore v₀ (System.closeChunk (s.store v₀) l.1)).setSync v₀ l.1 none).pending v w := rfl
    rw [System.InFlight, hpend, System.pending_setSync_ne (fun hv hw => hvw ⟨hv, hw⟩)]
    by_cases hw : w = l.1
    · have hv : v ≠ v₀ := fun hv => hvw ⟨hv, hw⟩
      have hsame : (s.setStore v₀ (System.closeChunk (s.store v₀) l.1)).pending v w = s.pending v w :=
        System.pending_congr rfl (by simp [System.setStore, hv])
      rw [hsame]
      rfl
    · rw [System.pending_setStore (by simp [System.closeChunk, setWChunk, hw, System.store])]
      rfl

theorem Placed.close (h : Placed home keyOf s) (hs : s.close l = some s') : Placed home keyOf s' := by
  have hf := fun {b : A} {v w : ℕ} => close_inFlight (b := b) (v := v) (w := w) hs
  obtain ⟨v, phase, hv, hsync, hphase, rfl⟩ := close_spec hs
  set s' := ((s.setStore v (System.closeChunk (s.store v) l.1)).setSync v l.1 none).setLog l
    { s.log l with phase := phase } with hs'
  have hlog : ∀ l', (s'.log l').queue = (s.log l').queue ∧ (s'.log l').drained = (s.log l').drained := by
    intro l'
    by_cases hl : l' = l
    · subst hl
      simp [hs', System.setLog]
    · simp [hs', System.setLog, hl, System.setSync]
  refine h.of_untouched (fun l' => ?_) fun b => ?_
  · rw [(hlog l').1, (hlog l').2]
  · refine ⟨rfl, rfl, fun _ _ => rfl, fun _ _ _ => rfl, fun l' p hp _ _ => ?_, fun l' p hp _ => ?_,
      fun l' v' p hp hvs hfl => ⟨?_, ?_, hf.mpr hfl⟩⟩
    · rwa [(hlog l').1]
    · rwa [(hlog l').1] at hp
    · rwa [(hlog l').2]
    · by_cases hl : l' = l
      · -- the reclaim that closes the chunk has nothing in flight
        subst hl
        obtain rfl := Option.some.inj (hv.symm.trans hvs)
        simp [System.InFlight, System.pending, hsync] at hfl
      · simpa [hs', System.setLog, hl, System.setSync] using hvs

omit [DecidableEq A] in
theorem Placed.finish (h : Placed home keyOf s) (hs : s.finish l = some s') : Placed home keyOf s' := by
  obtain ⟨hdone, rfl⟩ := System.finish_spec hs
  have hlog : ∀ l', l' ≠ l → (s.setLog l ⟨[], [], .idle⟩).log l' = s.log l' := fun l' hl => by
    simp [System.setLog, hl]
  refine h.of_untouched (fun l' => ?_) fun b => ?_
  · by_cases hl : l' = l
    · subst hl
      simp [System.setLog]
    · rw [hlog l' hl]
  · refine ⟨rfl, rfl, fun _ _ => rfl, fun _ _ _ => rfl, fun l' p hp _ _ => ?_, fun l' p hp _ => ?_,
      fun l' v p hp hvs hf => ?_⟩
    · by_cases hl : l' = l
      · subst hl
        simp [hdone.2] at hp
      · rwa [hlog l' hl]
    · by_cases hl : l' = l
      · subst hl
        simp [System.setLog] at hp
      · rwa [hlog l' hl] at hp
    · by_cases hl : l' = l
      · subst hl
        rw [hdone.1] at hvs
        cases hvs
      · rw [hlog l' hl]
        exact ⟨hp, hvs, hf⟩

/-! ## Garbage collection -/

omit [DecidableEq A] in
theorem Backstage.gcLast (s : System A) (v : ℕ) : Backstage s (s.gcLast v) := by
  unfold System.gcLast
  split
  · exact .setStore s v _ _ rfl rfl
  · exact .setGc s v _

theorem Backstage.gcCopy (s : System A) (v victim i : ℕ) (g : GcThread A) :
    Backstage s ((s.gcCopy v victim i).setGc v g) := by
  refine ⟨rfl, rfl, rfl, rfl, rfl, rfl, fun v' => ?_⟩
  by_cases hv : v' = v
  · subst hv
    simp [System.setGc, System.gcCopy, System.setStore, gcCopyEntry, System.store]
  · simp [System.setGc, System.gcCopy, System.setStore, hv]

theorem Backstage.gcEntry (s : System A) (v victim i : ℕ) (is : List ℕ) (rest : List (ℕ × ℕ)) :
    Backstage s (s.gcEntry cfg v victim i is rest) := by
  simp only [System.gcEntry]
  split
  · split
    · exact .gcCopy s v victim i _
    · exact .gcCopy s v victim i _
  · exact .setGc s v _

omit [DecidableEq A] in
theorem initGcWChunk_spec {t t' : Store A} (h : initGcWChunk cfg t = some t') :
    t'.table = t.table ∧ t'.wChunk = t.wChunk ∧ t'.disk = t.disk ∧ t'.gcRBuffer = t.gcRBuffer ∧
      t'.gcWChunk.wBuffer = t.gcWChunk.wBuffer ∧ t'.gcWChunk.movedEntryList = t.gcWChunk.movedEntryList := by
  simp only [initGcWChunk, Option.bind_eq_bind, Option.bind_eq_some_iff] at h
  obtain ⟨⟨c, t₁⟩, hf, ht'⟩ := h
  cases ht'
  unfold getFreeChunkOffset at hf
  split at hf
  · cases hf
  · split at hf
    · cases hf
      exact ⟨rfl, rfl, rfl, rfl, rfl, rfl⟩
    · cases hf

omit [DecidableEq A] in
theorem gcStart_spec {t : Store A} {r : Store A × List (ℕ × ℕ)} (h : System.gcStart cfg S t = some r) :
    initGcWChunk cfg t = some r.1 := by
  unfold System.gcStart at h
  split at h
  · split at h
    · obtain ⟨t', ht', rfl⟩ := Option.map_eq_some_iff.mp h
      exact ht'
    · cases h
  · cases h

theorem Backstage.gcStep {v : ℕ} (hs : s.gcStep cfg S v = some s') : Backstage s s' := by
  simp only [System.gcStep] at hs
  split at hs
  · obtain ⟨r, hr, rfl⟩ := Option.map_eq_some_iff.mp hs
    obtain ⟨ht, hw, -⟩ := initGcWChunk_spec (gcStart_spec hr)
    exact .setStore s v _ _ ht hw
  · cases hs
    exact .gcLast s v
  · split at hs
    · cases hs
      exact .gcLast s v
    · cases hs
      exact .setStore s v _ _ rfl rfl
  · cases hs
    exact .setGc s v _
  · cases hs
    exact .gcEntry s v _ _ _ _
  · cases hs
    exact .setStore s v _ _ rfl rfl
  · cases hs
    exact .setStore s v _ _ rfl rfl
  · obtain ⟨t, ht, rfl⟩ := Option.map_eq_some_iff.mp hs
    obtain ⟨ht, hw, -⟩ := initGcWChunk_spec ht
    exact .setStore s v _ _ ht hw
  · cases hs

theorem gcLink_spec {v : ℕ} {m : MovedEntry A} (hs : s.gcLink cfg v m = some s') : ∃ moved cont t,
    (s.gc v).pc = .sync moved cont ∧ m ∈ moved ∧ gcLinkOne cfg (s.store v) m = some t ∧
    s' = (s.setStore v t).setGc v { s.gc v with pc := .sync (moved.erase m) cont } := by
  unfold System.gcLink at hs
  split at hs
  · rename_i moved cont hpc
    split at hs
    · rename_i hm
      obtain ⟨t, ht, rfl⟩ := Option.map_eq_some_iff.mp hs
      exact ⟨moved, cont, t, hpc, hm, ht, rfl⟩
    · cases hs
  · cases hs

theorem gcLink_inFlight {v v' w : ℕ} {m : MovedEntry A} (hs : s.gcLink cfg v m = some s') :
    s'.InFlight v' w a ↔ s.InFlight v' w a := by
  obtain ⟨moved, cont, t, -, -, ht, rfl⟩ := gcLink_spec hs
  obtain ⟨hw, -⟩ := gcLinkOne_spec ht
  have hpend : (s.setStore v t).pending v' w = s.pending v' w := System.pending_setStore (by rw [hw]; rfl)
  rw [System.InFlight, System.InFlight, ← hpend]
  rfl

theorem Placed.gcLink (h : Placed home keyOf s) {v : ℕ} {m : MovedEntry A} (hs : s.gcLink cfg v m = some s') :
    Placed home keyOf s' := by
  have hf : ∀ {b : A} {u w : ℕ}, s.InFlight u w b → s'.InFlight u w b := (gcLink_inFlight hs).mpr
  obtain ⟨moved, cont, t, -, -, ht, rfl⟩ := gcLink_spec hs
  obtain ⟨-, -, -, -, htable | ⟨a, -, -, hupd, -, -, htable⟩⟩ := gcLinkOne_spec ht
  · exact h.of_untouched (fun _ => List.Sublist.refl _) fun b =>
      .of_eq (congrFun htable b) rfl rfl rfl rfl fun _ _ => hf
  · refine h.of_sublist (fun _ => List.Sublist.refl _) fun b hb => ?_
    by_cases hab : b = a
    · subst hab
      exact h.relink hb hupd rfl rfl ((congrFun htable b).trans (Function.update_self ..))
    · exact (h.place b hb).of_untouched
        (.of_eq ((congrFun htable b).trans (Function.update_of_ne hab ..)) rfl rfl rfl rfl fun _ _ => hf)

/-! ## Every step -/

theorem Placed.step {x : Step A} (h : Placed home keyOf s) (hs : step home keyOf cfg S s x = some s') :
    Placed home keyOf s' := by
  cases x with
  | insert l a val p => exact h.insert hs
  | update l a val p => exact h.update hs
  | start l v => exact h.start hs
  | reclaim l => exact h.reclaim hs
  | write l => exact h.write hs
  | link l m => exact h.link hs
  | close l => exact h.close hs
  | finish l => exact h.finish hs
  | gc v => exact h.of_backstage (.gcStep hs)
  | gcLink v m => exact h.gcLink hs

omit [DecidableEq A] in
theorem Starting.placed (h : Starting s) : Placed home keyOf s :=
  ⟨fun l p hp => by simp [h.log l] at hp, fun l => by simp [h.log l], fun a ha => absurd (h.values a) ha⟩

end Steps

/-! ## The store does not write cache tags -/

section Address
variable [DecidableEq A]

/-- A step leaves the pointer and the value of an entry as they are, or makes it point
into a log. -/
def Readdressed (s s' : System A) (a : A) : Prop :=
  (s'.table a).valAddr = (s.table a).valAddr ∧ s'.values a = s.values a ∨ getTag (s'.table a).valAddr = oplogVal

omit [DecidableEq A] in
theorem Readdressed.of_eq (ht : s'.table = s.table) (hv : s'.values = s.values) (a : A) : Readdressed s s' a :=
  .inl ⟨by rw [ht], by rw [hv]⟩

theorem readdressed_record {l : LogId} {b : A} {val : ℕ} {p : Ptr} {i : VsIdx} :
    Readdressed s (s.record keyOf l b val p ⟨i, putTaggedPtr p.addr oplogVal⟩) a := by
  by_cases hab : a = b
  · subst hab
    right
    simp [System.record, oplogVal]
  · left
    simp [System.record, hab]

theorem readdressed_update {b : A} {i : VsIdx}
    (ht : s'.table = Function.update s.table b { s.table b with vsIdx := i })
    (hv : s'.values = s.values) : Readdressed s s' a := by
  refine .inl ⟨?_, by rw [hv]⟩
  by_cases hab : a = b
  · subst hab
    rw [ht, Function.update_self]
  · rw [ht, Function.update_of_ne hab]

theorem step_readdressed {x : Step A} (hs : step home keyOf cfg S s x = some s') (a : A) : Readdressed s s' a := by
  cases x with
  | insert l b val p =>
    obtain ⟨-, rfl⟩ := System.insert_spec hs
    exact readdressed_record
  | update l b val p =>
    obtain ⟨-, rfl⟩ := System.update_spec hs
    have hb := Backstage.unlinkPast cfg (s.record keyOf l b val p (linkToOlPast (s.table b) p).1)
      (linkToOlPast (s.table b) p).2
    have hrec : Readdressed s (s.record keyOf l b val p (linkToOlPast (s.table b) p).1) a := readdressed_record
    rcases hrec with ⟨h₁, h₂⟩ | h
    · exact .inl ⟨by rw [hb.table]; exact h₁, by rw [hb.values]; exact h₂⟩
    · exact .inr (by rw [hb.table]; exact h)
  | start l v =>
    obtain ⟨-, rfl⟩ := System.start_spec hs
    exact .of_eq rfl rfl a
  | reclaim l =>
    obtain ⟨v, p, rest, b, -, -, -, ⟨-, hput⟩ | ⟨-, rfl⟩⟩ := reclaim_spec hs
    · obtain ⟨ht, -, -, hv, -⟩ := put_frame hput
      have hput' : Readdressed (s.deq l v p rest) s' a := readdressed_update ht hv
      exact hput'
    · exact .of_eq rfl rfl a
  | write l =>
    obtain ⟨v, -, -, rfl⟩ := write_spec hs
    exact .of_eq rfl rfl a
  | link l m =>
    obtain ⟨v, moved, t, -, -, -, ht, rfl⟩ := link_spec hs
    obtain ⟨b, -, -, -, -, -, ⟨htable, -⟩ | ⟨-, htable⟩⟩ := linkToAt_spec ht
    · exact .inl ⟨congrArg AtEntry.valAddr (congrFun htable a), rfl⟩
    · exact readdressed_update htable rfl
  | close l =>
    obtain ⟨v, phase, -, -, -, rfl⟩ := close_spec hs
    exact .of_eq rfl rfl a
  | finish l =>
    obtain ⟨-, rfl⟩ := System.finish_spec hs
    exact .of_eq rfl rfl a
  | gc v =>
    have hb := Backstage.gcStep hs
    exact .of_eq hb.table hb.values a
  | gcLink v m =>
    obtain ⟨moved, cont, t, -, -, ht, rfl⟩ := gcLink_spec hs
    obtain ⟨-, -, -, -, htable | ⟨b, -, -, -, -, -, htable⟩⟩ := gcLinkOne_spec ht
    · exact .inl ⟨congrArg AtEntry.valAddr (congrFun htable a), rfl⟩
    · exact readdressed_update htable rfl

end Address

end Hkv.Prism
