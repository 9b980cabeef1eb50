import Hkv.MtsImpl
import Hkv.Reclaim
import Hkv.WriterRun

/-!
# Reclaim after removes

`remove` clears `opa` of the update that the key's entry points to, and leaves the
update in its log. The reclaim of that log follows `opa` without looking.
-/
namespace Hkv.Mts
open MtsConfig TaggedPointer AddressTable KeyedSort ValueStorage StepRun Prism

/-! ## The puts of a reclaim -/

section Calls
variable {A : Type}

/-- The calls of `put_vs_entry` in the loop of `OpLog::reclaim`. `none` is the access
through a null `opa`. -/
def reclaimCalls (op : Ptr → OpEntry A) (table : A → AtEntry) : List Ptr → Option (List (Call A))
  | [] => some []
  | p :: rest => (op p).opa.bind fun a => (reclaimCalls op table rest).map fun calls =>
      if (table a).PointsTo p then .put (op p).key (op p).val a :: calls else calls

/-- The pointers into logs and cache are the same. -/
def SameAddr (t t' : Store A) : Prop := ∀ a, (t'.table a).valAddr = (t.table a).valAddr

theorem SameAddr.trans {t₁ t₂ t₃ : Store A} (h : SameAddr t₁ t₂) (h' : SameAddr t₂ t₃) :
    SameAddr t₁ t₃ :=
  fun a => (h' a).trans (h a)

variable {cfg : Config} {S : StdSort} {w : ℕ} {op : Ptr → OpEntry A} {t t' : Store A}

theorem SameAddr.calls (h : SameAddr t t') (queue : List Ptr) :
    reclaimCalls op t'.table queue = reclaimCalls op t.table queue := by
  induction queue with
  | nil => rfl
  | cons p rest ih =>
    cases hopa : (op p).opa with
    | none => simp only [reclaimCalls, hopa, Option.bind_none]
    | some a =>
      have hpoint : (t'.table a).PointsTo p ↔ (t.table a).PointsTo p := by
        rw [AtEntry.PointsTo, h a, ← AtEntry.PointsTo]
      simp only [reclaimCalls, hopa, Option.bind_some, hpoint, ih]

variable [DecidableEq A]

theorem linkToAt_sameAddr {chunk entry : ℕ} {a : Option A} (h : linkToAt cfg t chunk entry a = some t') :
    SameAddr t t' := by
  cases a with
  | none => cases h
  | some a =>
    simp only [linkToAt] at h
    split at h
    · cases h
      exact fun _ => rfl
    · rename_i e he
      cases h
      intro b
      unfold linkAtEntry at he
      split at he
      · cases he
      · cases he
        by_cases hb : b = a
        · subst hb
          simp [setVsBitmapInfo]
        · simp [setVsBitmapInfo, hb]

theorem linkAll_sameAddr {ms : List (MovedEntry A)} (h : linkAll cfg t ms = some t') : SameAddr t t' := by
  induction ms generalizing t with
  | nil =>
    cases h
    exact fun _ => rfl
  | cons m ms ih =>
    obtain ⟨t₁, hm, hms⟩ := Option.bind_eq_some_iff.mp h
    exact (linkToAt_sameAddr hm).trans (ih hms)

theorem flush_sameAddr (h : flush cfg S t w = some t') : SameAddr t t' := by
  obtain ⟨t₁, hl, ht⟩ := Option.bind_eq_some_iff.mp h
  cases ht
  have h₁ : SameAddr (writeChunk cfg S t w) t₁ := linkAll_sameAddr hl
  exact h₁

theorem initWChunk_sameAddr (h : initWChunk cfg S t w = some t') : SameAddr t t' := by
  obtain ⟨-, -, -, htable⟩ := initWChunk_frame cfg S h
  exact fun a => (htable a).valAddr

theorem appendEntry_sameAddr (t : Store A) (w key val : ℕ) (a : A) : SameAddr t (appendEntry t w key val a) := by
  intro b
  by_cases hb : b = a
  · subst hb
    simp [appendEntry, setWChunk, preAtEntry]
  · simp [appendEntry, setWChunk, hb]

theorem putVsEntry_sameAddr {key val : ℕ} {a : A} (h : putVsEntry cfg S t w key val a = some t') :
    SameAddr t t' := by
  obtain ⟨t₁, hidle, hput⟩ := Option.bind_eq_some_iff.mp h
  have h₁ : SameAddr t t₁ := by
    unfold initWhenIdle at hidle
    split at hidle
    · exact initWChunk_sameAddr hidle
    · cases hidle
      exact fun _ => rfl
  refine h₁.trans ?_
  unfold putOpen at hput
  split_ifs at hput
  · cases hput
    exact appendEntry_sameAddr t₁ w key val a
  · obtain ⟨t₂, hf, hput⟩ := Option.bind_eq_some_iff.mp hput
    obtain ⟨t₃, hi, hput⟩ := Option.bind_eq_some_iff.mp hput
    cases hput
    exact ((flush_sameAddr hf).trans (initWChunk_sameAddr hi)).trans (appendEntry_sameAddr t₃ w key val a)
  · cases hput
    exact fun _ => rfl

theorem reclaim_eq_calls {queue : List Ptr} (hne : queue ≠ []) :
    Reclaim.reclaim cfg S w op queue t =
      (reclaimCalls op t.table queue).bind fun calls => run (doCall cfg S w) t (calls ++ [.force]) := by
  induction queue generalizing t with
  | nil => exact absurd rfl hne
  | cons p rest ih =>
    have hrest : ∀ {t₁ : Store A}, SameAddr t t₁ →
        (if rest = [] then forcedWriteChunk cfg S t₁ w else Reclaim.reclaim cfg S w op rest t₁) =
          (reclaimCalls op t.table rest).bind fun calls => run (doCall cfg S w) t₁ (calls ++ [.force]) := by
      intro t₁ h
      rw [← h.calls]
      split
      · rename_i hnil
        subst hnil
        simp [reclaimCalls, run, doCall]
      · rename_i hnil
        exact ih hnil
    cases hopa : (op p).opa with
    | none => simp [Reclaim.reclaim, Reclaim.reclaimEntry, reclaimCalls, hopa]
    | some a =>
      by_cases hvalid : (t.table a).PointsTo p
      · cases hput : putVsEntry cfg S t w (op p).key (op p).val a with
        | none =>
          cases hcalls : reclaimCalls op t.table rest <;>
            simp [Reclaim.reclaim, Reclaim.reclaimEntry, reclaimCalls, hopa, hvalid, hput, run, doCall, hcalls]
        | some t₁ =>
          have := hrest (putVsEntry_sameAddr hput)
          simpa [Reclaim.reclaim, Reclaim.reclaimEntry, reclaimCalls, hopa, hvalid, hput, run, doCall,
            Option.bind_map, Function.comp_def] using this
      · have := @hrest t fun _ => rfl
        simpa [Reclaim.reclaim, Reclaim.reclaimEntry, reclaimCalls, hopa, hvalid] using this

end Calls

/-! ## Live keys -/

/-- The puts that are due for a log: the entries with a live key that their `at_entry`
still points to. -/
def liveCalls (s : State) (queue : List Ptr) : List (Call AtId) :=
  queue.filterMap fun p => (s.sys.op p).opa.bind fun a =>
    if s.index (s.sys.op p).key ≠ none ∧ (s.sys.table a).PointsTo p then
      some (.put (s.sys.op p).key (s.sys.op p).val a)
    else none

/-- A reclaim of log `l` gets through the log and makes exactly the puts that are due. -/
def ReclaimsLive (l : LogId) (s : State) : Prop :=
  reclaimCalls s.sys.op s.sys.table (s.sys.log l).queue = some (liveCalls s (s.sys.log l).queue)

/-- A remove finds no valid entry of its key in log `l`. -/
def Settled (l : LogId) (s : State) : Op → Prop
  | .remove k _ => ∀ p ∈ (s.sys.log l).queue, (s.sys.op p).key = k → ∀ a ∈ (s.sys.op p).opa,
      ¬ (s.sys.table a).PointsTo p
  | _ => True

instance (l : LogId) (s : State) : ∀ x, Decidable (Settled l s x)
  | .insert .. => isTrue trivial
  | .update .. => isTrue trivial
  | .remove k _ => inferInstanceAs (Decidable (∀ p ∈ (s.sys.log l).queue, (s.sys.op p).key = k →
      ∀ a ∈ (s.sys.op p).opa, ¬ (s.sys.table a).PointsTo p))
  | .background _ => isTrue trivial

variable {home : Ptr → Option LogId} {cfg : Config} {entryNum : ℕ} {s s' : State} {l : LogId} {k val : ℕ}
    {p : Ptr}
  {a : AtId}

theorem ReclaimsLive.reclaim (h : ReclaimsLive l s) (hne : (s.sys.log l).queue ≠ []) (S : StdSort) (v : ℕ) :
    Reclaim.reclaim cfg S l.1 s.sys.op (s.sys.log l).queue (s.sys.store v) =
      run (doCall cfg S l.1) (s.sys.store v) (liveCalls s (s.sys.log l).queue ++ [.force]) := by
  rw [reclaim_eq_calls hne, show (s.sys.store v).table = s.sys.table from rfl, h]
  rfl

theorem liveCalls_cons {rest : List Ptr} (hopa : (s.sys.op p).opa = some a) : liveCalls s (p :: rest) =
    if s.index (s.sys.op p).key ≠ none ∧ (s.sys.table a).PointsTo p then
      .put (s.sys.op p).key (s.sys.op p).val a :: liveCalls s rest
    else liveCalls s rest := by
  simp only [liveCalls, List.filterMap_cons, hopa, Option.bind_some]
  split_ifs <;> rfl

theorem length_liveCalls_le {queue : List Ptr} {calls : List (Call AtId)}
    (h : reclaimCalls s.sys.op s.sys.table queue = some calls) : (liveCalls s queue).length ≤ calls.length := by
  induction queue generalizing calls with
  | nil => simp [liveCalls]
  | cons p rest ih =>
    obtain ⟨a, hopa, h⟩ := Option.bind_eq_some_iff.mp h
    obtain ⟨calls', hrest, rfl⟩ := Option.map_eq_some_iff.mp h
    have := ih hrest
    rw [liveCalls_cons hopa]
    split_ifs with hlive hvalid hvalid
    · simpa using this
    · exact absurd hlive.2 hvalid
    · rw [List.length_cons]
      omega
    · exact this

theorem calls_eq_live_iff (queue : List Ptr) : reclaimCalls s.sys.op s.sys.table queue = some (liveCalls s queue) ↔
    ∀ p ∈ queue, ∃ a, (s.sys.op p).opa = some a ∧
      ((s.sys.table a).PointsTo p → s.index (s.sys.op p).key ≠ none) := by
  induction queue with
  | nil => simp [reclaimCalls, liveCalls]
  | cons p rest ih =>
    rw [List.forall_mem_cons, ← ih]
    constructor
    · intro h
      obtain ⟨a, hopa, h⟩ := Option.bind_eq_some_iff.mp h
      obtain ⟨calls, hrest, h⟩ := Option.map_eq_some_iff.mp h
      have hle := length_liveCalls_le hrest
      rw [liveCalls_cons hopa] at h
      split_ifs at h with hvalid hlive hlive
      · exact ⟨⟨a, hopa, fun _ => hlive.1⟩, by rw [hrest, (List.cons.inj h).2]⟩
      · -- a call that is not due makes the list too long
        have := congrArg List.length h
        rw [List.length_cons] at this
        omega
      · exact absurd hlive.2 hvalid
      · exact ⟨⟨a, hopa, fun hv => absurd hv hvalid⟩, by rw [hrest, h]⟩
    · rintro ⟨⟨a, hopa, hlive⟩, hrest⟩
      rw [liveCalls_cons hopa, reclaimCalls, hopa, Option.bind_some, hrest, Option.map_some]
      split_ifs with hvalid hboth hboth
      · rfl
      · exact absurd ⟨hlive hvalid, hvalid⟩ hboth
      · exact absurd hboth.2 hvalid
      · rfl

/-! ## What the operations do -/

/-- Every live entry points to an update that is in its log and names the entry. -/
structure Coherent (home : Ptr → Option LogId) (s : State) : Prop where
  inv : Inv s
  home : ∀ l, ∀ p ∈ (s.sys.log l).queue, home p = some l
  points : ∀ a k, s.keys a = some k → ∃ l p, p ∈ (s.sys.log l).queue ∧ s.sys.table a = linkToOl alloc p ∧
    (s.sys.op p).opa = some a ∧ (s.sys.op p).key = k

/-- What an insert and an update have in common: `p` is new in log `l`, and entry `a` of
key `k` points to it. -/
structure Written (s s' : State) (l : LogId) (k val : ℕ) (p : Ptr) (a : AtId) : Prop where
  table : s'.sys.table = Function.update s.sys.table a (linkToOl alloc p)
  op : s'.sys.op = Function.update s.sys.op p ⟨k, val, some a⟩
  log : s'.sys.log = Function.update s.sys.log l { s.sys.log l with queue := (s.sys.log l).queue ++ [p] }
  keys : s'.keys = Function.update s.keys a (some k)
  index : s'.index k ≠ none ∧ ∀ k', s.index k' ≠ none → s'.index k' ≠ none

theorem insert_written {r : Bool} (hs : s.insert home entryNum l k val p = some (s', r)) :
    s.sys.Fresh home l p ∧ ∃ a, Written s s' l k val p a := by
  obtain ⟨hfresh, a, t, ha, -, rfl⟩ := insert_spec hs
  obtain ⟨⟨o, pool⟩, -, ht⟩ := Option.map_eq_some_iff.mp ha
  cases ht
  refine ⟨hfresh, (l.1, o), ?_, rfl, rfl, rfl, ?_, fun k' hk' => ?_⟩
  · simp [System.record]
  · simp only [indexInsert_apply]
    split_ifs with hnone
    · simp
    · simpa using hnone
  · simp only [indexInsert_apply]
    split_ifs
    · simp
    · exact hk'

theorem Coherent.update_written {r : Bool} (h : Coherent home s) (hs : s.update home cfg l k val p = some (s', r)) :
    s' = s ∨ s.sys.Fresh home l p ∧ ∃ a, Written s s' l k val p a := by
  unfold State.update at hs
  split at hs
  · cases hs
    exact .inl rfl
  · rename_i a ha
    split at hs
    · rename_i hfresh
      cases hs
      have hkey := h.inv.index k a ha
      obtain ⟨-, q, -, htable, -, -⟩ := h.points a k hkey
      have hpast : ∀ t : System AtId, t.unlinkPast cfg (linkToOlPast (s.sys.table a) p).2 = t := fun t => by
        rw [htable]
        rfl
      refine .inr ⟨hfresh, a, ?_, ?_, ?_, ?_, ?_, fun _ hk' => hk'⟩
      · simp only [hpast]
        rfl
      · simp only [hpast]
        rfl
      · simp only [hpast]
        rfl
      · rw [← hkey, Function.update_eq_self]
      · simp [ha]
    · cases hs

/-- A remove clears the update the entry points to, the entry and the mapping. -/
structure Removed (s s' : State) (k : ℕ) (p : Ptr) (a : AtId) : Prop where
  mapped : s.index k = some a
  points : s.sys.table a = linkToOl alloc p
  opa : (s.sys.op p).opa = some a
  key : (s.sys.op p).key = k
  table : s'.sys.table = Function.update s.sys.table a ⟨⟨-1, -1⟩, putTaggedPtr 0 0⟩
  op : s'.sys.op = Function.update s.sys.op p { s.sys.op p with opa := none }
  log : s'.sys.log = s.sys.log
  keys : s'.keys = Function.update s.keys a none
  index : s'.index = Function.update s.index k none

theorem Coherent.removed {v : ℕ} (h : Coherent home s) (hs : s.remove cfg k v = some s') :
    ∃ p a, Removed s s' k p a := by
  obtain ⟨a, ha, hs⟩ := Option.bind_eq_some_iff.mp hs
  obtain ⟨sys, hunlink, rfl⟩ := Option.map_eq_some_iff.mp hs
  obtain ⟨-, p, -, htable, hopa, hkey⟩ := h.points a k (h.inv.index k a ha)
  have hpos : getValPos (s.sys.table a) = some .oplog := by
    rw [getValPos_eq_oplog_iff, htable]
    exact ⟨fun hl => absurd hl.1 (lt_irrefl _), getTag_putTaggedPtr p (by decide)⟩
  have hptr : toPtr (getUntaggedPtr (s.sys.table a).valAddr) = some p := by
    rw [toPtr_eq_some_iff, htable]
    simp [linkToOl]
  simp only [State.unlinkValue, hpos, State.unlinkOp, hptr, Option.map_some, Option.some.injEq] at hunlink
  subst hunlink
  refine ⟨p, a, ha, htable, hopa, hkey, ?_, rfl, rfl, rfl, rfl⟩
  simp [State.freeEntry]

/-! ## Every run -/

theorem Fresh.ne (h : Coherent home s) (hfresh : s.sys.Fresh home l p) {l' : LogId} {q : Ptr}
    (hq : q ∈ (s.sys.log l').queue) : q ≠ p := by
  rintro rfl
  obtain rfl : l' = l := Option.some.inj ((h.home l' q hq).symm.trans hfresh.1)
  exact hfresh.2.1 hq

theorem Written.mem_queue (hw : Written s s' l k val p a) {l' : LogId} {q : Ptr} :
    q ∈ (s'.sys.log l').queue ↔ q ∈ (s.sys.log l').queue ∨ l' = l ∧ q = p := by
  rw [hw.log]
  by_cases hl : l' = l
  · subst hl
    simp
  · simp [hl]

theorem Coherent.written (h : Coherent home s) (hfresh : s.sys.Fresh home l p) (hw : Written s s' l k val p a)
    (hinv : Inv s') : Coherent home s' := by
  refine ⟨hinv, fun l' q hq => ?_, fun b k' hb => ?_⟩
  · rcases hw.mem_queue.mp hq with hq | ⟨rfl, rfl⟩
    · exact h.home l' q hq
    · exact hfresh.1
  · rw [hw.keys] at hb
    rw [hw.table, hw.op]
    by_cases hba : b = a
    · subst hba
      simp only [Function.update_self, Option.some.injEq] at hb
      exact ⟨l, p, hw.mem_queue.mpr (.inr ⟨rfl, rfl⟩), by simp, by simp, by simp [hb]⟩
    · rw [Function.update_of_ne hba] at hb
      obtain ⟨l', q, hq, htable, hopa, hkey⟩ := h.points b k' hb
      have hqp := Fresh.ne h hfresh hq
      exact ⟨l', q, hw.mem_queue.mpr (.inl hq), by simpa [hba] using htable, by simpa [hqp] using hopa,
        by simpa [hqp] using hkey⟩

theorem ReclaimsLive.written {l' : LogId} (h : Coherent home s) (hlive : ReclaimsLive l' s)
    (hfresh : s.sys.Fresh home l p) (hw : Written s s' l k val p a) : ReclaimsLive l' s' := by
  rw [ReclaimsLive, calls_eq_live_iff] at hlive ⊢
  intro q hq
  rw [hw.op, hw.table]
  rcases hw.mem_queue.mp hq with hq | ⟨-, rfl⟩
  · have hqp := Fresh.ne h hfresh hq
    obtain ⟨b, hopa, hb⟩ := hlive q hq
    refine ⟨b, by simpa [hqp] using hopa, fun hpoint => ?_⟩
    rw [Function.update_of_ne hqp]
    by_cases hba : b = a
    · -- the entry has moved on to the new update
      subst hba
      rw [Function.update_self] at hpoint
      exact absurd ((pointsTo_putTaggedPtr _ _ _ _).mp hpoint).symm hqp
    · rw [Function.update_of_ne hba] at hpoint
      exact hw.index.2 _ (hb hpoint)
  · exact ⟨a, by simp, fun _ => by simpa using hw.index.1⟩

theorem Coherent.remove (h : Coherent home s) (hr : Removed s s' k p a) (hinv : Inv s') : Coherent home s' := by
  refine ⟨hinv, fun l q hq => h.home l q (hr.log ▸ hq), fun b k' hb => ?_⟩
  rw [hr.keys] at hb
  have hba : b ≠ a := by
    rintro rfl
    simp at hb
  rw [Function.update_of_ne hba] at hb
  obtain ⟨l, q, hq, htable, hopa, hkey⟩ := h.points b k' hb
  have hqp : q ≠ p := by
    rintro rfl
    exact hba (Option.some.inj (hopa.symm.trans hr.opa))
  rw [hr.table, hr.op, hr.log]
  exact ⟨l, q, hq, by simpa [hba] using htable, by simpa [hqp] using hopa, by simpa [hqp] using hkey⟩

/-- A remove keeps a log reclaimable if and only if the log holds no valid entry of the
key. -/
theorem ReclaimsLive.remove_iff {v : ℕ} (hnull : ∀ p, home p ≠ none → p.addr ≠ 0) (h : Coherent home s)
    (hlive : ReclaimsLive l s) (hr : Removed s s' k p a) : ReclaimsLive l s' ↔ Settled l s (.remove k v) := by
  have hpa : (s.sys.table a).PointsTo p := by
    rw [hr.points]
    exact (pointsTo_putTaggedPtr _ _ _ _).mpr rfl
  rw [ReclaimsLive, calls_eq_live_iff] at hlive ⊢
  rw [hr.op, hr.table, hr.log, hr.index]
  constructor
  · intro hlive' q hq hkey b hopa hpoint
    obtain ⟨c, hopa', hc⟩ := hlive' q hq
    by_cases hqp : q = p
    · simp [hqp] at hopa'
    · rw [Function.update_of_ne hqp] at hopa' hc
      obtain rfl : b = c := Option.some.inj (hopa.symm.trans hopa')
      have hba : b ≠ a := by
        rintro rfl
        exact hqp (hpoint.inj hpa)
      rw [Function.update_of_ne hba] at hc
      exact hc hpoint (by simp [hkey])
  · intro hset q hq
    have hqp : q ≠ p := by
      rintro rfl
      exact hset q hq hr.key a hr.opa hpa
    obtain ⟨b, hopa, hb⟩ := hlive q hq
    rw [Function.update_of_ne hqp]
    refine ⟨b, hopa, fun hpoint => ?_⟩
    by_cases hba : b = a
    · -- the freed entry is null
      subst hba
      rw [Function.update_self] at hpoint
      have haddr : q.addr = 0 := by
        rw [← hpoint]
        simp
        decide
      exact absurd haddr (hnull q (by simp [h.home l q hq]))
    · rw [Function.update_of_ne hba] at hpoint
      have hkey : (s.sys.op q).key ≠ k := fun hk => hset q hq hk b hopa hpoint
      rw [Function.update_of_ne hkey]
      exact hb hpoint

theorem Coherent.step {x : Op} (hx : ∀ sys, x ≠ .background sys) (h : Coherent home s)
    (hs : s.step home cfg entryNum x = some s') : Coherent home s' := by
  have hinv := h.inv.step hs
  cases x with
  | insert l k val p =>
    obtain ⟨⟨t, r⟩, ht, rfl⟩ := Option.map_eq_some_iff.mp hs
    obtain ⟨hfresh, a, hw⟩ := insert_written ht
    exact h.written hfresh hw hinv
  | update l k val p =>
    obtain ⟨⟨t, r⟩, ht, rfl⟩ := Option.map_eq_some_iff.mp hs
    rcases h.update_written ht with rfl | ⟨hfresh, a, hw⟩
    · exact h
    · exact h.written hfresh hw hinv
  | remove k v =>
    obtain ⟨p, a, hr⟩ := h.removed hs
    exact h.remove hr hinv
  | background sys => exact absurd rfl (hx sys)

theorem reclaimsLive_step_iff (hnull : ∀ p, home p ≠ none → p.addr ≠ 0) {x : Op}
    (hx : ∀ sys, x ≠ .background sys) (h : Coherent home s) (hlive : ReclaimsLive l s)
    (hs : s.step home cfg entryNum x = some s') :
    ReclaimsLive l s' ↔ Settled l s x := by
  cases x with
  | insert l' k val p =>
    obtain ⟨⟨t, r⟩, ht, rfl⟩ := Option.map_eq_some_iff.mp hs
    obtain ⟨hfresh, a, hw⟩ := insert_written ht
    exact iff_of_true (hlive.written h hfresh hw) trivial
  | update l' k val p =>
    obtain ⟨⟨t, r⟩, ht, rfl⟩ := Option.map_eq_some_iff.mp hs
    rcases h.update_written ht with rfl | ⟨hfresh, a, hw⟩
    · exact iff_of_true hlive trivial
    · exact iff_of_true (hlive.written h hfresh hw) trivial
  | remove k v =>
    obtain ⟨p, a, hr⟩ := h.removed hs
    exact hlive.remove_iff hnull h hr
  | background sys => exact absurd rfl (hx sys)

/-- In every run of inserts, updates and removes, a reclaim of log `l` is right at every
moment if and only if no remove finds a valid entry of its key in that log. -/
theorem run_reclaimsLive_iff (home : Ptr → Option LogId) (hnull : ∀ p, home p ≠ none → p.addr ≠ 0)
    (cfg : Config) (entryNum : ℕ) (s₀ s : State) (xs : List Op) (hs : Starting s₀)
    (hempty : ∀ l, (s₀.sys.log l).queue = []) (hxs : ∀ sys, .background sys ∉ xs)
    (hrun : run (State.step home cfg entryNum) s₀ xs = some s) (l : LogId) :
    (∀ ys, ys <+: xs → ∀ t, run (State.step home cfg entryNum) s₀ ys = some t → ReclaimsLive l t) ↔
      Along (State.step home cfg entryNum) (Settled l) s₀ xs := by
  have hco : Coherent home s₀ := ⟨hs.inv, by simp [hempty], by simp [hs.keys]⟩
  have hlive : ReclaimsLive l s₀ := by simp [ReclaimsLive, hempty, reclaimCalls, liveCalls]
  have hclient : ∀ x ∈ xs, ∀ sys, x ≠ .background sys := by
    rintro x hx sys rfl
    exact hxs sys hx
  exact forall_run_iff_along hrun (fun t x hx t' ht _ => ht.step (hclient x hx))
    (fun t x hx t' ht hl => reclaimsLive_step_iff hnull (hclient x hx) ht hl) hco hlive

theorem addr_ne_zero_of_sampleHome (p : Ptr) (h : sampleHome p ≠ none) : p.addr ≠ 0 := by
  unfold sampleHome at h
  split_ifs at h with h₁ h₂ h₃
  · rcases h₁ with rfl | rfl <;> decide
  · rcases h₂ with rfl | rfl <;> decide
  · rcases h₃ with rfl | rfl <;> decide
  · exact absurd rfl h

attribute [local instance] oplogNum_neZero entryNum_neZero

/-- Key 6 is inserted through log `(0, 0)`, updated through log `(1, 0)` and removed. -/
def removeElsewhere : List Op :=
  [.insert (0, 0) 5 10 (entryPtr 0), .insert (0, 0) 6 11 (entryPtr 1), .update (1, 0) 6 12 (entryPtr 2), .remove 6 0]

theorem run_reclaimsLive_iff_removeElsewhere : ∃ s,
    run (State.step sampleHome smallConfig 4) freshState removeElsewhere = some s ∧ ReclaimsLive (0, 0) s := by
  have halong : Along (State.step sampleHome smallConfig 4) (Settled (0, 0)) freshState removeElsewhere := by
    decide +kernel
  have hrun : (run (State.step sampleHome smallConfig 4) freshState removeElsewhere).isSome = true := by
    decide +kernel
  obtain ⟨s, hs⟩ := Option.isSome_iff_exists.mp hrun
  refine ⟨s, hs, ?_⟩
  exact (run_reclaimsLive_iff sampleHome addr_ne_zero_of_sampleHome smallConfig 4 freshState s removeElsewhere
    starting_freshState (fun _ => rfl) (by simp [removeElsewhere]) hs (0, 0)).mpr halong removeElsewhere
    (List.prefix_refl _) s hs

/-- Key 5 is inserted and removed. The reclaim of the log follows a null pointer. -/
theorem removed_breaks_reclaim : ∃ s,
    run (State.step sampleHome smallConfig 4) freshState [.insert (0, 0) 5 10 (entryPtr 0), .remove 5 0] = some s ∧
    (s.sys.log (0, 0)).queue = [entryPtr 0] ∧ (s.sys.op (entryPtr 0)).opa = none ∧
    Reclaim.reclaim smallConfig insertion 0 s.sys.op [entryPtr 0] (s.sys.store 0) = none ∧
    ¬ ReclaimsLive (0, 0) s := by
  have hrun :
    (run (State.step sampleHome smallConfig 4) freshState [.insert (0, 0) 5 10 (entryPtr 0), .remove 5 0]).map
      (fun s => ((s.sys.log (0, 0)).queue, (s.sys.op (entryPtr 0)).opa)) = some ([entryPtr 0], none) := by
    decide +kernel
  obtain ⟨s, hs, hend⟩ := Option.map_eq_some_iff.mp hrun
  obtain ⟨hqueue, hopa⟩ := Prod.mk.inj hend
  refine ⟨s, hs, hqueue, hopa, ?_, fun hlive => ?_⟩
  · simp [Reclaim.reclaim, Reclaim.reclaimEntry, hopa]
  · rw [ReclaimsLive, hqueue, reclaimCalls, hopa] at hlive
    cases hlive

end Hkv.Mts
