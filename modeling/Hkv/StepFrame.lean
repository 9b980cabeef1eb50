import Hkv.Placement

/-!
# What the steps leave alone

Every step of a reclaim works on one writer slot, and a link writes one entry of the
address table.
-/
namespace Hkv.Prism
open MtsConfig TaggedPointer AddressTable KeyedSort ValueStorage StepRun

variable {A : Type} {home : Ptr → Option LogId} {keyOf : A → ℕ} {cfg : Config} {S : StdSort} {s s' : System A}
    {l : LogId}
  {a : A}

/-! ## Values -/

/-- Values are only ever added. -/
def Aged (s s' : System A) : Prop := ∀ a, s'.values a = s.values a ∨ s.version a < s'.version a

theorem Aged.of_eq (h : s'.values = s.values) : Aged s s' := fun a => .inl (congrFun h a)

theorem Aged.trans_eq {t : System A} (h : Aged s t) (ht : s'.values = t.values) : Aged s s' := fun a => by
  simpa only [System.version, ht] using h a

theorem Aged.le (h : Aged s s') (a : A) : s.version a ≤ s'.version a := by
  rcases h a with hv | hlt
  · rw [System.version, System.version, hv]
  · exact hlt.le

theorem Aged.fresh (h : Aged s s') {n : ℕ} (hle : n ≤ s.version a) (heq : n = s'.version a) :
    n = s.version a ∧ s'.latest a = s.latest a := by
  rcases h a with hv | hlt
  · exact ⟨by rw [heq, System.version, System.version, hv], by rw [System.latest, System.latest, hv]⟩
  · omega

section Steps
variable [DecidableEq A]

theorem aged_record {val : ℕ} {p : Ptr} {e : AtEntry} : Aged s (s.record keyOf l a val p e) := by
  intro b
  by_cases hab : b = a
  · subst hab
    right
    simp [System.version, System.record]
  · left
    simp [System.record, hab]

/-! ## Steps -/

theorem put_chunk {v w key val : ℕ} (hs : s.put cfg v w key val a = some s') : ∃ i c,
    (s'.stores v).wChunk = Function.update (s.stores v).wChunk w
      { (s.stores v).wChunk w with
        isInit := i
        chunkOffset := c
        wBuffer :=
          Function.update ((s.stores v).wChunk w).wBuffer ((s.stores v).wChunk w).entryOffset ⟨some a, key, val⟩
        movedEntryList := addMovedEntry ((s.stores v).wChunk w).movedEntryList c ((s.stores v).wChunk w).entryOffset
          ⟨some a, key, val⟩ .insert
        entryOffset := ((s.stores v).wChunk w).entryOffset + 1 } ∧
    (((s.stores v).wChunk w).entryOffset ≠ 0 → c = ((s.stores v).wChunk w).chunkOffset) := by
  obtain ⟨-, -, t, ht, rfl⟩ := put_spec hs
  obtain ⟨⟨i, c, hchunk, hc⟩, -⟩ := openWhenIdle_spec ht
  refine ⟨i, c, ?_, hc⟩
  simp [System.setStore, appendEntry, setWChunk, hchunk]

theorem put_rest {v w key val : ℕ} (hs : s.put cfg v w key val a = some s') : s'.sync = s.sync ∧ s'.gc = s.gc ∧
    s'.copiedAt = s.copiedAt ∧ (∀ v', (s'.stores v').disk = (s.stores v').disk) ∧
    (∀ v', (s'.stores v').gcWChunk = (s.stores v').gcWChunk) ∧
    ∀ v', v' ≠ v → (s'.stores v').wChunk = (s.stores v').wChunk := by
  obtain ⟨-, -, t, ht, rfl⟩ := put_spec hs
  obtain ⟨-, -, hd, hg, -⟩ := openWhenIdle_spec ht
  refine ⟨rfl, rfl, rfl, fun v' => ?_, fun v' => ?_, fun v' hv => ?_⟩
  · by_cases hv : v' = v
    · subst hv
      simpa [System.setStore, appendEntry, setWChunk] using hd
    · simp [System.setStore, hv]
  · by_cases hv : v' = v
    · subst hv
      simpa [System.setStore, appendEntry, setWChunk] using hg
    · simp [System.setStore, hv]
  · simp [System.setStore, hv]

omit [DecidableEq A] in
theorem write_stores (hs : s.write cfg S l = some s') : ∃ v, (s.log l).phase.vs = some v ∧ s.sync v l.1 = none ∧
    s'.sync v l.1 = some (sortMovedEntry S ((s.stores v).wChunk l.1).movedEntryList) ∧
    (s'.stores v).disk ((s.stores v).wChunk l.1).chunkOffset =
    (sortWBuffer cfg S ((s.stores v).wChunk l.1)).wBuffer ∧
    (∀ v' c, (v' = v → c ≠ ((s.stores v).wChunk l.1).chunkOffset) →
      (s'.stores v').disk c = (s.stores v').disk c) ∧
    (∀ v' w, (v' = v → w ≠ l.1) → s'.sync v' w = s.sync v' w ∧
      (s'.stores v').wChunk w = (s.stores v').wChunk w) ∧
    ∀ v', (s'.stores v').gcWChunk = (s.stores v').gcWChunk := by
  obtain ⟨v, hv, hnone, rfl⟩ := write_spec hs
  refine ⟨v, hv, hnone, by simp [System.setSync], ?_, fun v' c hc => ?_, fun v' w hw => ?_, fun v' => ?_⟩
  · simpa [System.setSync, System.setStore] using writeChunk_disk cfg S (s.store v) l.1
  · by_cases hvv : v' = v
    · subst hvv
      simp [System.setSync, System.setStore, writeChunk, sortWBuffer, hc rfl]
    · simp [System.setSync, System.setStore, hvv]
  · by_cases hvv : v' = v
    · subst hvv
      simp [System.setSync, System.setStore, writeChunk, setWChunk, hw rfl]
    · simp [System.setSync, System.setStore, hvv]
  · by_cases hvv : v' = v
    · subst hvv
      simp [System.setSync, System.setStore, writeChunk, setWChunk]
    · simp [System.setSync, System.setStore, hvv]

theorem link_rest {m : MovedEntry A} (hs : s.link cfg l m = some s') : ∃ v moved, (s.log l).phase.vs = some v ∧
    s.sync v l.1 = some moved ∧ m ∈ moved ∧ s'.sync v l.1 = some (moved.erase m) ∧
    (∀ v' w, (v' = v → w ≠ l.1) → s'.sync v' w = s.sync v' w) ∧
    ∀ v', (s'.stores v').wChunk = (s.stores v').wChunk ∧ (s'.stores v').disk = (s.stores v').disk ∧
      (s'.stores v').gcWChunk = (s.stores v').gcWChunk := by
  obtain ⟨v, moved, t, hv, hmoved, hm, ht, rfl⟩ := link_spec hs
  obtain ⟨-, -, hw, hd, hg, -⟩ := linkToAt_spec ht
  refine ⟨v, moved, hv, hmoved, hm, by simp [System.setSync], fun v' w hne => ?_, fun v' => ?_⟩
  · by_cases hvv : v' = v
    · subst hvv
      simp [System.setSync, hne rfl]
    · simp [System.setSync, hvv]
  · by_cases hvv : v' = v
    · subst hvv
      simpa [System.setSync, System.setStore] using ⟨hw, hd, hg⟩
    · simp [System.setSync, System.setStore, hvv]

theorem close_rest (hs : s.close l = some s') : ∃ v, (s'.sync v l.1 = none ∧ s.sync v l.1 = some [] ∧
      ((s'.stores v).wChunk l.1).entryOffset = 0 ∧ ((s'.stores v).wChunk l.1).movedEntryList = []) ∧
    (∀ v' w, (v' = v → w ≠ l.1) → s'.sync v' w = s.sync v' w ∧
      (s'.stores v').wChunk w = (s.stores v').wChunk w) ∧
    (∀ v', (s'.stores v').disk = (s.stores v').disk ∧ (s'.stores v').gcWChunk = (s.stores v').gcWChunk) ∧
    ∀ l', (s'.log l').queue = (s.log l').queue := by
  obtain ⟨v, phase, -, hsync, -, rfl⟩ := close_spec hs
  refine ⟨v, ⟨?_, hsync, ?_, ?_⟩, fun v' w hne => ?_, fun v' => ?_, fun l' => ?_⟩
  · simp [System.setLog, System.setSync]
  · simp [System.setLog, System.setSync, System.setStore, System.closeChunk]
  · simp [System.setLog, System.setSync, System.setStore, System.closeChunk]
  · by_cases hvv : v' = v
    · subst hvv
      simp [System.setLog, System.setSync, System.setStore, System.closeChunk, setWChunk, hne rfl]
    · simp [System.setLog, System.setSync, System.setStore, hvv]
  · by_cases hvv : v' = v
    · subst hvv
      simp [System.setLog, System.setSync, System.setStore, System.closeChunk, setWChunk]
    · simp [System.setLog, System.setSync, System.setStore, hvv]
  · by_cases hl : l' = l
    · subst hl
      simp [System.setLog]
    · simp [System.setLog, System.setSync, hl]

theorem gcLink_rest {v : ℕ} {m : MovedEntry A} (hs : s.gcLink cfg v m = some s') : ∃ moved cont,
    (s.gc v).pc = .sync moved cont ∧ m ∈ moved ∧ (s'.gc v).pc = .sync (moved.erase m) cont ∧
    (∀ v', v' ≠ v → s'.gc v' = s.gc v') ∧
    ∀ v', (s'.stores v').wChunk = (s.stores v').wChunk ∧ (s'.stores v').disk = (s.stores v').disk ∧
      (s'.stores v').gcWChunk = (s.stores v').gcWChunk := by
  obtain ⟨moved, cont, t, hpc, hm, ht, rfl⟩ := gcLink_spec hs
  obtain ⟨hw, hd, hg, -⟩ := gcLinkOne_spec ht
  refine ⟨moved, cont, hpc, hm, by simp [System.setGc], fun v' hv => by simp [System.setGc, hv], fun v' => ?_⟩
  by_cases hv : v' = v
  · subst hv
    simpa [System.setGc, System.setStore] using ⟨hw, hd, hg⟩
  · simp [System.setGc, System.setStore, hv]

theorem step_aged {x : Step A} (hs : Prism.step home keyOf cfg S s x = some s') : Aged s s' := by
  cases x with
  | insert l a val p =>
    obtain ⟨-, rfl⟩ := System.insert_spec hs
    exact aged_record
  | update l a val p =>
    obtain ⟨-, rfl⟩ := System.update_spec hs
    exact aged_record.trans_eq (Backstage.unlinkPast cfg _ _).values
  | start l v =>
    obtain ⟨-, rfl⟩ := System.start_spec hs
    exact .of_eq rfl
  | reclaim l =>
    obtain ⟨v, p, rest, a, -, -, -, ⟨-, hput⟩ | ⟨-, rfl⟩⟩ := reclaim_spec hs
    · exact .of_eq (put_frame hput).2.2.2.1
    · exact .of_eq rfl
  | write l =>
    obtain ⟨_, -, -, rfl⟩ := write_spec hs
    exact .of_eq rfl
  | link l m =>
    obtain ⟨_, _, _, -, -, -, -, rfl⟩ := link_spec hs
    exact .of_eq rfl
  | close l =>
    obtain ⟨_, _, -, -, -, rfl⟩ := close_spec hs
    exact .of_eq rfl
  | finish l =>
    obtain ⟨-, rfl⟩ := System.finish_spec hs
    exact .of_eq rfl
  | gc v => exact .of_eq (Backstage.gcStep hs).values
  | gcLink v m =>
    obtain ⟨_, _, _, -, -, -, rfl⟩ := gcLink_spec hs
    exact .of_eq rfl

/-! ## The slots a run uses -/

/-- Reclaims write to slots below `k` of stores below `n`, and the other slots are idle. -/
structure Within (n k : ℕ) (s : System A) : Prop where
  phase : ∀ l v, (s.log l).phase.vs = some v → v < n ∧ l.1 < k
  slot : ∀ v w, ¬ (v < n ∧ w < k) → s.sync v w = none ∧ ((s.stores v).wChunk w).movedEntryList = []

def Step.Within (n k : ℕ) : Step A → Prop
  | .start l v => v < n ∧ l.1 < k
  | _ => True

instance (n k : ℕ) : ∀ x : Step A, Decidable (x.Within n k)
  | .start _ _ => inferInstanceAs (Decidable (_ ∧ _))
  | .insert .. | .update .. | .reclaim .. | .write .. | .link .. | .close .. | .finish .. | .gc .. | .gcLink .. =>
      isTrue trivial

namespace Within
variable {n k : ℕ}

omit [DecidableEq A] in
theorem of_slot (h : Within n k s) {v w : ℕ} (hvw : v < n ∧ w < k)
    (hlog : ∀ l v, (s'.log l).phase.vs = some v → (s.log l).phase.vs = some v)
    (hother : ∀ v' w', (v' = v → w' ≠ w) → s'.sync v' w' = s.sync v' w' ∧
      ((s'.stores v').wChunk w').movedEntryList = ((s.stores v').wChunk w').movedEntryList) : Within n k s' := by
  refine ⟨fun l v hl => h.phase l v (hlog l v hl), fun v' w' hout => ?_⟩
  obtain ⟨hs, hm⟩ := hother v' w' fun hv hw => hout (by rw [hv, hw]; exact hvw)
  rw [hs, hm]
  exact h.slot v' w' hout

omit [DecidableEq A] in
theorem of_same (h : Within n k s) (hlog : ∀ l v, (s'.log l).phase.vs = some v → v < n ∧ l.1 < k)
    (hs : s'.sync = s.sync) (hw : ∀ v, (s'.stores v).wChunk = (s.stores v).wChunk) : Within n k s' := by
  refine ⟨hlog, fun v w hout => ?_⟩
  rw [hs, hw]
  exact h.slot v w hout

omit [DecidableEq A] in
theorem of_backstage (h : Within n k s) (hb : Backstage s s') : Within n k s' :=
  h.of_same (fun l v hl => h.phase l v (hb.log ▸ hl)) hb.sync hb.wChunk

theorem record (h : Within n k s) {l : LogId} {a : A} {val : ℕ} {p : Ptr} {e : AtEntry} :
    Within n k (s.record keyOf l a val p e) := by
  refine h.of_same (fun l' v hl => ?_) rfl fun _ => rfl
  by_cases hll : l' = l
  · subst hll
    simp only [System.record, Function.update_self] at hl
    exact h.phase l' v hl
  · simp only [System.record, Function.update_of_ne hll] at hl
    exact h.phase l' v hl

omit [DecidableEq A] in
theorem setLog (h : Within n k s) {log : WriteLog} (hl : ∀ v, log.phase.vs = some v → v < n ∧ l.1 < k) :
    Within n k (s.setLog l log) := by
  refine h.of_same (fun l' v hv => ?_) rfl fun _ => rfl
  by_cases hll : l' = l
  · subst hll
    simp only [System.setLog, Function.update_self] at hv
    exact hl v hv
  · simp only [System.setLog, Function.update_of_ne hll] at hv
    exact h.phase l' v hv

theorem reclaim (h : Within n k s) (hs : s.reclaim cfg l = some s') : Within n k s' := by
  obtain ⟨v, p, rest, a, hphase, hq, -, hcase⟩ := reclaim_spec hs
  have hv : v < n ∧ l.1 < k := h.phase l v (by rw [hphase]; rfl)
  have hdeq : Within n k (s.deq l v p rest) := by
    refine h.setLog fun v' hv' => ?_
    obtain rfl : v = v' := by
      split at hv' <;> exact Option.some.inj hv'
    exact hv
  rcases hcase with ⟨-, hput⟩ | ⟨-, rfl⟩
  · obtain ⟨-, -, hlog, -⟩ := put_frame hput
    obtain ⟨hsync, -, -, -, -, hst⟩ := put_rest hput
    obtain ⟨i, c, hchunk, -⟩ := put_chunk hput
    refine hdeq.of_slot hv (fun l v hl => hlog ▸ hl) fun v' w' hne => ⟨by rw [hsync], ?_⟩
    by_cases hvv : v' = v
    · subst hvv
      rw [hchunk, Function.update_of_ne (hne rfl)]
    · rw [hst v' hvv]
  · exact hdeq

omit [DecidableEq A] in
theorem not_inFlight (h : Within n k s)
    (hin : ∀ v < n, ∀ w < k, some a ∉ (s.pending v w).map MovedEntry.atEntry)
    (v w : ℕ) : ¬ s.InFlight v w a := by
  intro hf
  by_cases hvw : v < n ∧ w < k
  · exact hin v hvw.1 w hvw.2 hf
  · simp [System.InFlight, System.pending, h.slot v w hvw] at hf

end Within

theorem Within.step {n k : ℕ} {x : Step A} (h : Within n k s) (hx : x.Within n k)
    (hs : Prism.step home keyOf cfg S s x = some s') : Within n k s' := by
  cases x with
  | insert l a val p =>
    obtain ⟨-, rfl⟩ := System.insert_spec hs
    exact h.record
  | update l a val p =>
    obtain ⟨-, rfl⟩ := System.update_spec hs
    exact h.record.of_backstage (.unlinkPast cfg _ _)
  | start l v =>
    obtain ⟨-, rfl⟩ := System.start_spec hs
    exact h.setLog fun v' hv' => Option.some.inj hv' ▸ hx
  | reclaim l => exact h.reclaim hs
  | write l =>
    obtain ⟨v, hv, -, -, -, -, hother, -⟩ := write_stores hs
    obtain ⟨_, -, -, rfl⟩ := write_spec hs
    refine h.of_slot (h.phase l v hv) (fun _ _ hl => hl) fun v' w' hne => ?_
    obtain ⟨hs', hw'⟩ := hother v' w' hne
    exact ⟨hs', by rw [hw']⟩
  | link l m =>
    obtain ⟨v, _, hv, -, -, -, hother, hst⟩ := link_rest hs
    obtain ⟨_, _, _, -, -, -, -, rfl⟩ := link_spec hs
    exact h.of_slot (h.phase l v hv) (fun _ _ hl => hl) fun v' w' hne => ⟨hother v' w' hne, by rw [(hst v').1]⟩
  | close l =>
    obtain ⟨v, phase, hv, -, hphase, rfl⟩ := close_spec hs
    have hslot : Within n k ((s.setStore v (System.closeChunk (s.store v) l.1)).setSync v l.1 none) := by
      refine h.of_slot (h.phase l v hv) (fun _ _ hl => hl) fun v' w' hne => ?_
      by_cases hvv : v' = v
      · subst hvv
        simp [System.setSync, System.setStore, System.closeChunk, setWChunk, hne rfl]
      · simp [System.setSync, System.setStore, hvv]
    refine hslot.setLog fun v' hv' => ?_
    rcases hphase with rfl | rfl
    · exact h.phase l v' hv'
    · cases hv'
  | finish l =>
    obtain ⟨-, rfl⟩ := System.finish_spec hs
    exact h.setLog fun v hv => by cases hv
  | gc v => exact h.of_backstage (.gcStep hs)
  | gcLink v m =>
    obtain ⟨_, _, -, -, -, -, hst⟩ := gcLink_rest hs
    obtain ⟨_, _, _, -, -, -, rfl⟩ := gcLink_spec hs
    exact h.of_same (fun l v hl => h.phase l v hl) rfl fun v' => (hst v').1

omit [DecidableEq A] in
theorem Starting.within {n k : ℕ} (h : Starting s) : Within n k s := by
  refine ⟨fun l v hl => ?_, fun v w _ => ⟨h.sync v w, (h.chunk v w).2⟩⟩
  rw [h.log l] at hl
  cases hl

theorem Within.run {n k : ℕ} {xs : List (Step A)} (hs : Starting s) (hx : ∀ x ∈ xs, x.Within n k)
    (hrun : StepRun.run (Prism.step home keyOf cfg S) s xs = some s') : Within n k s' :=
  run_induction (P := fun _ x => x.Within n k) (fun _ _ _ h hx hstep => h.step hx hstep) hs.within
    (along_of_forall_mem fun _ => hx) hrun

end Steps

end Hkv.Prism
