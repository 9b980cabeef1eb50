import Hkv.CacheThread
import Hkv.StepRun
import Mathlib.Logic.Relation

/-!
# What the cache thread changes

The lists are private to the cache thread. What other threads see is the address table
and, through it, the `at_entry`, key and value of each cached entry. The lemmas say how
each function acts on these.
-/
namespace Hkv.DramCache.CacheThread
open MtsConfig TaggedPointer AddressTable

variable {A : Type} {c c' c₁ : CacheThread A} {t : ListType} {d : Ptr}

/-- The part of a `dc_entry` that a lookup reads. -/
def DcEntry.data (e : DcEntry A) : A × ℕ × ℕ := (e.atEntry, e.key, e.val)

def data (c : CacheThread A) (d : Ptr) : Option (A × ℕ × ℕ) := (c.heap d).map DcEntry.data

/-- No scan link is set. -/
def Unchained (c : CacheThread A) : Prop :=
  ∀ d e, c.heap d = some e → e.sPrev = none ∧ e.sNext = none

/-- Only list links differ. -/
structure Relisted (c c' : CacheThread A) : Prop where
  table : c'.table = c.table
  data : ∀ d, c'.data d = c.data d
  unchained : c.Unchained → c'.Unchained

theorem Relisted.refl (c : CacheThread A) : Relisted c c := ⟨rfl, fun _ => rfl, id⟩

theorem Relisted.trans (h : Relisted c c₁) (h' : Relisted c₁ c') : Relisted c c' :=
  ⟨h'.table.trans h.table, fun d => (h'.data d).trans (h.data d), fun hu => h'.unchained (h.unchained hu)⟩

theorem setList_relisted (c : CacheThread A) (t : ListType) (f : LruList → LruList) :
    Relisted c (c.setList t f) := ⟨rfl, fun _ => rfl, id⟩

theorem modify_data {f : DcEntry A → DcEntry A} (h : c.modify d f = some c')
    (hf : ∀ e, DcEntry.data (f e) = DcEntry.data e) : c'.table = c.table ∧ ∀ d', c'.data d' = c.data d' := by
  obtain ⟨e, he, rfl⟩ := Option.map_eq_some_iff.mp h
  refine ⟨rfl, fun d' => ?_⟩
  by_cases hd : d' = d
  · subst hd
    simp [data, he, hf]
  · simp [data, hd]

/-- The update touches `prev`, `next` and `list_type` only. -/
structure Local (f : DcEntry A → DcEntry A) : Prop where
  data : ∀ e, DcEntry.data (f e) = DcEntry.data e
  sPrev : ∀ e, (f e).sPrev = e.sPrev
  sNext : ∀ e, (f e).sNext = e.sNext

theorem modify_relisted {f : DcEntry A → DcEntry A} (h : c.modify d f = some c') (hf : Local f) :
    Relisted c c' := by
  obtain ⟨ht, hd⟩ := modify_data h hf.data
  refine ⟨ht, hd, fun hu d' e' he' => ?_⟩
  obtain ⟨e, he, rfl⟩ := Option.map_eq_some_iff.mp h
  by_cases hd' : d' = d
  · subst hd'
    simp only [Function.update_self, Option.some.injEq] at he'
    rw [← he', hf.sPrev, hf.sNext]
    exact hu d' e he
  · simp only [Function.update_of_ne hd'] at he'
    exact hu d' e' he'

theorem modifyAt_relisted {f : DcEntry A → DcEntry A} {p : Option Ptr} (h : c.modifyAt p f = some c')
    (hf : Local f) : Relisted c c' := by
  obtain ⟨d, -, h⟩ := Option.bind_eq_some_iff.mp h
  exact modify_relisted h hf

theorem linkHead_relisted (h : c.linkHead t d = some c') : Relisted c c' := by
  unfold linkHead at h
  split at h
  · obtain ⟨c₁, h₁, h⟩ := Option.bind_eq_some_iff.mp h
    cases h
    exact (modify_relisted h₁ ⟨fun _ => rfl, fun _ => rfl, fun _ => rfl⟩).trans (setList_relisted _ _ _)
  · obtain ⟨c₁, h₁, h⟩ := Option.bind_eq_some_iff.mp h
    obtain ⟨c₂, h₂, h⟩ := Option.bind_eq_some_iff.mp h
    cases h
    exact ((modify_relisted h₁ ⟨fun _ => rfl, fun _ => rfl, fun _ => rfl⟩).trans
      (modify_relisted h₂ ⟨fun _ => rfl, fun _ => rfl, fun _ => rfl⟩)).trans (setList_relisted _ _ _)

theorem insertHead_relisted (h : c.insertHead t d = some c') : Relisted c c' := by
  obtain ⟨c₁, h₁, h⟩ := Option.bind_eq_some_iff.mp h
  obtain ⟨c₂, h₂, h⟩ := Option.bind_eq_some_iff.mp h
  cases h
  exact ((linkHead_relisted h₁).trans
    (modify_relisted h₂ ⟨fun _ => rfl, fun _ => rfl, fun _ => rfl⟩)).trans (setList_relisted _ _ _)

theorem cutOut_relisted (h : c.cutOut t d = some c') : Relisted c c' := by
  obtain ⟨e, -, h⟩ := Option.bind_eq_some_iff.mp h
  split at h
  · exact (setList_relisted _ _ _).trans (modifyAt_relisted h ⟨fun _ => rfl, fun _ => rfl, fun _ => rfl⟩)
  · obtain ⟨c₁, h₁, h⟩ := Option.bind_eq_some_iff.mp h
    exact (modifyAt_relisted h₁ ⟨fun _ => rfl, fun _ => rfl, fun _ => rfl⟩).trans
      (modifyAt_relisted h ⟨fun _ => rfl, fun _ => rfl, fun _ => rfl⟩)

theorem moveToHead_relisted (h : c.moveToHead t d = some c') : Relisted c c' := by
  unfold moveToHead at h
  split at h
  · cases h
    exact .refl c
  · obtain ⟨c₁, h₁, h⟩ := Option.bind_eq_some_iff.mp h
    obtain ⟨c₂, h₂, h⟩ := Option.bind_eq_some_iff.mp h
    obtain ⟨c₃, h₃, h⟩ := Option.bind_eq_some_iff.mp h
    obtain ⟨c₄, h₄, h⟩ := Option.bind_eq_some_iff.mp h
    cases h
    exact ((((cutOut_relisted h₁).trans
      (modify_relisted h₂ ⟨fun _ => rfl, fun _ => rfl, fun _ => rfl⟩)).trans
      (modifyAt_relisted h₃ ⟨fun _ => rfl, fun _ => rfl, fun _ => rfl⟩)).trans
      (modify_relisted h₄ ⟨fun _ => rfl, fun _ => rfl, fun _ => rfl⟩)).trans (setList_relisted _ _ _)

theorem removeTail_relisted (h : c.removeTail t = some (d, c')) : Relisted c c' := by
  obtain ⟨d₁, -, h⟩ := Option.bind_eq_some_iff.mp h
  obtain ⟨e, -, h⟩ := Option.bind_eq_some_iff.mp h
  obtain ⟨c₁, h₁, h⟩ := Option.bind_eq_some_iff.mp h
  cases h
  exact ((setList_relisted _ _ _).trans
    (modifyAt_relisted h₁ ⟨fun _ => rfl, fun _ => rfl, fun _ => rfl⟩)).trans (setList_relisted _ _ _)

theorem unlink_relisted (h : c.unlink t d = some c') : Relisted c c' := by
  unfold unlink at h
  split at h
  · cases h
    exact setList_relisted _ _ _
  · obtain ⟨e, -, h⟩ := Option.bind_eq_some_iff.mp h
    split_ifs at h
    · exact (setList_relisted _ _ _).trans (modifyAt_relisted h ⟨fun _ => rfl, fun _ => rfl, fun _ => rfl⟩)
    · exact (setList_relisted _ _ _).trans (modifyAt_relisted h ⟨fun _ => rfl, fun _ => rfl, fun _ => rfl⟩)
    · obtain ⟨c₁, h₁, h⟩ := Option.bind_eq_some_iff.mp h
      exact (modifyAt_relisted h₁ ⟨fun _ => rfl, fun _ => rfl, fun _ => rfl⟩).trans
        (modifyAt_relisted h ⟨fun _ => rfl, fun _ => rfl, fun _ => rfl⟩)

theorem chainPrev_relisted {s : Ptr} (h : c.chainPrev s d = some c') : Relisted c c' := by
  obtain ⟨x, hx, h⟩ := Option.bind_eq_some_iff.mp h
  split at h
  · rename_i hsome
    obtain ⟨ht, hd⟩ := modify_data h fun _ => rfl
    exact ⟨ht, hd, fun hu => by simp [(hu s x hx).1] at hsome⟩
  · cases h
    exact .refl c

theorem chainNext_relisted {s : Ptr} (h : c.chainNext s d = some c') : Relisted c c' := by
  obtain ⟨x, hx, h⟩ := Option.bind_eq_some_iff.mp h
  split at h
  · rename_i hsome
    obtain ⟨ht, hd⟩ := modify_data h fun _ => rfl
    exact ⟨ht, hd, fun hu => by simp [(hu d x hx).2] at hsome⟩
  · cases h
    exact .refl c

theorem chainScan_relisted {scan : Bool} {s : Option Ptr} (h : c.chainScan scan s d = some c') :
    Relisted c c' := by
  unfold chainScan at h
  split at h
  · obtain ⟨c₁, h₁, h⟩ := Option.bind_eq_some_iff.mp h
    exact (chainPrev_relisted h₁).trans (chainNext_relisted h)
  · cases h
    exact .refl c

/-! ## Functions that other threads notice -/

theorem data_eq_some {x : A × ℕ × ℕ} : c.data d = some x ↔ ∃ e, c.heap d = some e ∧ DcEntry.data e = x :=
  Option.map_eq_some_iff

theorem modifySome_data {f : DcEntry A → DcEntry A} {p : Option Ptr} (h : c.modifySome p f = some c')
    (hf : ∀ e, DcEntry.data (f e) = DcEntry.data e) : c'.table = c.table ∧ ∀ d, c'.data d = c.data d := by
  cases p with
  | none =>
    cases h
    exact ⟨rfl, fun _ => rfl⟩
  | some d => exact modify_data h hf

theorem uncouple_data {e : DcEntry A} (h : c.uncouple e = some c') :
    c'.table = c.table ∧ ∀ d, c'.data d = c.data d := by
  obtain ⟨c₁, h₁, h⟩ := Option.bind_eq_some_iff.mp h
  obtain ⟨ht₁, hd₁⟩ := modifySome_data h₁ fun _ => rfl
  obtain ⟨ht₂, hd₂⟩ := modifySome_data h fun _ => rfl
  exact ⟨ht₂.trans ht₁, fun d => (hd₂ d).trans (hd₁ d)⟩

theorem freeEntry_spec (h : c.freeEntry d = some c') :
    c'.table = c.table ∧ (∀ d', d' ≠ d → c'.data d' = c.data d') ∧ c'.data d = none := by
  obtain ⟨e, -, h⟩ := Option.bind_eq_some_iff.mp h
  obtain ⟨c₁, h₁, h⟩ := Option.bind_eq_some_iff.mp h
  cases h
  obtain ⟨ht, hd⟩ := uncouple_data h₁
  refine ⟨ht, fun d' hne => ?_, by simp [data]⟩
  rw [← hd d']
  simp [data, hne]

theorem freeEntry_unchained (hu : c.Unchained) (h : c.freeEntry d = some c') : c'.Unchained := by
  obtain ⟨e, he, h⟩ := Option.bind_eq_some_iff.mp h
  obtain ⟨hp, hn⟩ := hu d e he
  have hsame : c.uncouple e = some c := by simp [uncouple, modifySome, hp, hn]
  rw [hsame] at h
  cases h
  intro d' e' he'
  by_cases hd : d' = d
  · simp [hd] at he'
  · simp only [Function.update_of_ne hd] at he'
    exact hu d' e' he'

theorem allocEntry_spec {a : A} {q : CqEntry A} (h : c.allocEntry t d a q = some c') :
    c.data d = none ∧ c'.table = c.table ∧ (∀ d', d' ≠ d → c'.data d' = c.data d') ∧
      c'.data d = some (a, q.key, q.val) ∧ (c.Unchained → c'.Unchained) := by
  unfold allocEntry at h
  split at h
  · cases h
  · rename_i hnone
    cases h
    refine ⟨by simp [data, hnone], rfl, fun d' hne => by simp [data, hne], by simp [data, DcEntry.data], ?_⟩
    intro hu d' e' he'
    by_cases hd : d' = d
    · simp only [hd, Function.update_self, Option.some.injEq] at he'
      rw [← he']
      exact ⟨rfl, rfl⟩
    · simp only [Function.update_of_ne hd] at he'
      exact hu d' e' he'

variable [DecidableEq A]

theorem removeEntry_spec (h : c.removeEntry t d = some c') : ∃ x, c.data d = some x ∧
    c'.table = Function.update c.table x.1 (uncache (c.table x.1)) ∧ (∀ d', c'.data d' = c.data d') ∧
    (c.Unchained → c'.Unchained) := by
  obtain ⟨c₁, h₁, h⟩ := Option.bind_eq_some_iff.mp h
  obtain ⟨e, he, h⟩ := Option.bind_eq_some_iff.mp h
  cases h
  have hr := unlink_relisted h₁
  refine ⟨DcEntry.data e, ?_, ?_, hr.data, hr.unchained⟩
  · rw [← hr.data d, data, he]
    rfl
  · rw [← hr.table]
    rfl

theorem linkToAt_spec (h : c.linkToAt d = some c') : ∃ x, c.data d = some x ∧
    c'.table = Function.update c.table x.1 (cacheLink d (c.table x.1)) ∧ c'.heap = c.heap := by
  obtain ⟨e, he, h⟩ := Option.bind_eq_some_iff.mp h
  cases h
  exact ⟨DcEntry.data e, by simp [data, he], rfl, rfl⟩

end Hkv.DramCache.CacheThread

/-! ## The cache without its lists -/

namespace Hkv.DramCache
open MtsConfig TaggedPointer AddressTable StepRun

variable {A : Type}

/-- The address table and the data of each cached entry. `freeing` is the entry that
was taken off its list and is about to be freed. -/
@[ext] structure View (A : Type) where
  table : A → AtEntry
  data : Ptr → Option (A × ℕ × ℕ)
  freeing : Option Ptr

def CacheThread.view (c : CacheThread A) : View A := ⟨c.table, c.data, none⟩

/-- The accesses of the cache thread to data that other threads see. -/
inductive Act (A : Type) where
  | alloc (d : Ptr) (x : A × ℕ × ℕ)
  /-- `CacheThread::link_to_at` -/
  | link (d : Ptr)
  /-- `LRUList::remove_entry` of an entry that stays in the cache -/
  | remove (d : Ptr)
  /-- `LRUList::remove_entry` of an entry that is then freed -/
  | evict (d : Ptr)
  | free

namespace View
variable [DecidableEq A]

def setEntry (c : View A) (a : A) (f : AtEntry → AtEntry) : View A :=
  { c with table := Function.update c.table a (f (c.table a)) }

def act (c : View A) : Act A → Option (View A)
  | .alloc d x =>
    if c.freeing = none ∧ c.data d = none then some { c with data := Function.update c.data d (some x) } else none
  | .link d => if c.freeing = none then (c.data d).map fun x => c.setEntry x.1 (cacheLink d) else none
  | .remove d => if c.freeing = none then (c.data d).map fun x => c.setEntry x.1 uncache else none
  | .evict d => if c.freeing = none then
      (c.data d).map fun x => { c.setEntry x.1 uncache with freeing := some d } else none
  | .free => c.freeing.map fun d => { c with data := Function.update c.data d none, freeing := none }

end View

/-- What `cacheOperation` on `vec` does between two visits of its loops. -/
inductive Block [DecidableEq A] (vec : List (CqEntry A)) (malloc : List Ptr) (c : View A) : View A → Prop where
  /-- a hit on the active list -/
  | again (a : A) (d : Ptr) (x : A × ℕ × ℕ) (tag : getTag (c.table a).valAddr = dcacheVal)
      (ptr : (c.table a).PointsTo d) (data : c.data d = some x) : Block vec malloc c (c.setEntry x.1 (cacheLink d))
  /-- a hit on the inactive list -/
  | promote (a : A) (d : Ptr) (x : A × ℕ × ℕ) (tag : getTag (c.table a).valAddr = dcacheVal)
      (ptr : (c.table a).PointsTo d) (data : c.data d = some x) :
      Block vec malloc c ((c.setEntry x.1 uncache).setEntry x.1 (cacheLink d))
  /-- a first access -/
  | cached (a : A) (d : Ptr) (q : CqEntry A) (mem : q ∈ vec) (entry : q.atEntry = some a) (free : c.data d = none)
      (addr : d ∈ malloc) (log : ¬ InLog (c.table a)) :
      Block vec malloc c
        { c.setEntry a (cacheLink d) with data := Function.update c.data d (some (a, q.key, q.val)) }
  | evict (d : Ptr) (x : A × ℕ × ℕ) (data : c.data d = some x) :
      Block vec malloc c { c.setEntry x.1 uncache with data := Function.update c.data d none }

namespace CacheThread
open Relation

variable {c c' : CacheThread A} {t : ListType} {d : Ptr}

theorem Relisted.view (h : Relisted c c') : c'.view = c.view :=
  View.ext h.table (funext h.data) rfl

variable [DecidableEq A] {vec : List (CqEntry A)} {malloc : List Ptr} {pages : ℕ} {scan : Bool} {s : Option Ptr}

theorem removeEntry_view (h : c.removeEntry t d = some c') :
    ∃ x, c.data d = some x ∧ c'.view = c.view.setEntry x.1 uncache := by
  obtain ⟨x, hx, ht, hd, -⟩ := removeEntry_spec h
  exact ⟨x, hx, View.ext ht (funext hd) rfl⟩

theorem linkToAt_view (h : c.linkToAt d = some c') :
    ∃ x, c.data d = some x ∧ c'.view = c.view.setEntry x.1 (cacheLink d) := by
  obtain ⟨x, hx, ht, hd⟩ := linkToAt_spec h
  refine ⟨x, hx, View.ext ht (funext fun d' => ?_) rfl⟩
  simp only [CacheThread.view, View.setEntry, data, hd]

/-- The shared data changes block by block, and no scan link appears. -/
structure Traced (vec : List (CqEntry A)) (malloc : List Ptr) (c c' : CacheThread A) : Prop where
  blocks : ReflTransGen (Block vec malloc) c.view c'.view
  unchained : c.Unchained → c'.Unchained

theorem Traced.refl (c : CacheThread A) : Traced vec malloc c c := ⟨.refl, id⟩

theorem Traced.trans {c₁ : CacheThread A} (h : Traced vec malloc c c₁) (h' : Traced vec malloc c₁ c') :
    Traced vec malloc c c' :=
  ⟨h.blocks.trans h'.blocks, fun hu => h'.unchained (h.unchained hu)⟩

theorem Relisted.traced (h : Relisted c c') : Traced vec malloc c c' := ⟨h.view ▸ .refl, h.unchained⟩

theorem evictOne_traced (h : c.evictOne = some c') : Traced vec malloc c c' := by
  obtain ⟨d, -, h⟩ := Option.bind_eq_some_iff.mp h
  obtain ⟨e, -, h⟩ := Option.bind_eq_some_iff.mp h
  split at h
  · obtain ⟨c₁, hr, hf⟩ := Option.bind_eq_some_iff.mp h
    obtain ⟨x, hx, hview⟩ := removeEntry_view hr
    obtain ⟨-, -, -, -, hu⟩ := removeEntry_spec hr
    obtain ⟨ht, hother, hself⟩ := freeEntry_spec hf
    have hdata : c₁.data = c.data := congrArg View.data hview
    have htable : c₁.table = (c.view.setEntry x.1 uncache).table := congrArg View.table hview
    have heq : c'.view = { c.view.setEntry x.1 uncache with data := Function.update c.view.data d none } := by
      refine View.ext (ht.trans htable) (funext fun d' => ?_) rfl
      by_cases hd : d' = d
      · subst hd
        simpa [CacheThread.view] using hself
      · simp only [CacheThread.view, Function.update_of_ne hd]
        rw [hother d' hd, hdata]
    exact ⟨.single (heq ▸ .evict d x hx), fun h => freeEntry_unchained (hu h) hf⟩
  · cases h

theorem evictOne_of_unchained (hu : c.Unchained) (htail : (c.list .inactive).tail = some d) :
    c.evictOne = (c.heap d).bind fun _ => (c.removeEntry .inactive d).bind (freeEntry · d) := by
  simp only [evictOne, htail, Option.bind_eq_bind, Option.bind_some]
  cases he : c.heap d with
  | none => simp
  | some e =>
    have hnone : e.sPrev = none := (hu d e he).1
    simp only [Option.bind_some, hnone, or_true, if_true]

theorem evictEntry_traced (n : ℕ) (h : c.evictEntry n = some c') : Traced vec malloc c c' := by
  induction n using Nat.strong_induction_on generalizing c with
  | _ n ih =>
    match n with
    | 0 =>
      cases h
      exact .refl _
    | 1 => exact evictOne_traced h
    | n + 2 =>
      obtain ⟨c₁, h₁, h⟩ := Option.bind_eq_some_iff.mp h
      exact (evictOne_traced h₁).trans (ih n (by omega) h)

theorem evictWhenFull_traced (h : c.evictWhenFull pages = some c') : Traced vec malloc c c' := by
  unfold evictWhenFull at h
  split at h
  · exact evictEntry_traced pages h
  · cases h
    exact .refl c

theorem linkToAt_unchained (hu : c.Unchained) (h : c.linkToAt d = some c') : c'.Unchained := by
  obtain ⟨-, -, -, hheap⟩ := linkToAt_spec h
  intro d' e he
  exact hu d' e (hheap ▸ he)

theorem hitActive_traced {a : A} (htag : getTag (c.table a).valAddr = dcacheVal) (hptr : (c.table a).PointsTo d)
    (h : c.hitActive scan s d = some c') : Traced vec malloc c c' := by
  obtain ⟨c₁, h₁, h⟩ := Option.bind_eq_some_iff.mp h
  obtain ⟨c₂, h₂, h⟩ := Option.bind_eq_some_iff.mp h
  have hrel := (moveToHead_relisted h₁).trans (chainScan_relisted h₂)
  obtain ⟨x, hx, hview⟩ := linkToAt_view h
  rw [hrel.view] at hview
  rw [hrel.data d] at hx
  exact ⟨.single (hview ▸ .again a d x htag hptr hx), fun hu => linkToAt_unchained (hrel.unchained hu) h⟩

theorem hitInactive_traced {a : A} (htag : getTag (c.table a).valAddr = dcacheVal) (hptr : (c.table a).PointsTo d)
    (h : c.hitInactive pages scan s d = some c') : Traced vec malloc c c' := by
  obtain ⟨c₁, h₁, h⟩ := Option.bind_eq_some_iff.mp h
  obtain ⟨c₂, h₂, h⟩ := Option.bind_eq_some_iff.mp h
  obtain ⟨c₃, h₃, h⟩ := Option.bind_eq_some_iff.mp h
  obtain ⟨c₄, h₄, h⟩ := Option.bind_eq_some_iff.mp h
  obtain ⟨x, hx, hview₁⟩ := removeEntry_view h₁
  obtain ⟨-, -, -, -, hu₁⟩ := removeEntry_spec h₁
  have hrel := (insertHead_relisted h₂).trans (chainScan_relisted h₃)
  obtain ⟨y, hy, hview₄⟩ := linkToAt_view h₄
  have hxy : x = y := by
    have hdata : c₁.data = c.data := congrArg View.data hview₁
    rw [hrel.data d, hdata, hx] at hy
    exact Option.some.inj hy
  subst hxy
  rw [hrel.view, hview₁] at hview₄
  have hfirst : Traced vec malloc c c₄ :=
    ⟨.single (hview₄ ▸ .promote a d x htag hptr hx),
      fun hu => linkToAt_unchained (hrel.unchained (hu₁ hu)) h₄⟩
  split at h
  · obtain ⟨⟨m, c₅⟩, h₅, h⟩ := Option.bind_eq_some_iff.mp h
    obtain ⟨c₆, h₆, h⟩ := Option.bind_eq_some_iff.mp h
    have hrel' := (removeTail_relisted h₅).trans (insertHead_relisted h₆)
    exact (hfirst.trans hrel'.traced).trans (evictWhenFull_traced h)
  · cases h
    exact hfirst

theorem firstAccess_traced {a : A} {q : CqEntry A} (hq : q ∈ vec) (ha : q.atEntry = some a)
    (hd : d ∈ malloc) (hlog : ¬ InLog (c.table a)) (h : c.firstAccess pages scan s d a q = some c') :
    Traced vec malloc c c' := by
  obtain ⟨c₁, h₁, h⟩ := Option.bind_eq_some_iff.mp h
  obtain ⟨c₂, h₂, h⟩ := Option.bind_eq_some_iff.mp h
  obtain ⟨c₃, h₃, h⟩ := Option.bind_eq_some_iff.mp h
  obtain ⟨c₄, h₄, h⟩ := Option.bind_eq_some_iff.mp h
  obtain ⟨hfree, htable, hother, hself, hu₁⟩ := allocEntry_spec h₁
  have hrel := (insertHead_relisted h₂).trans (chainScan_relisted h₃)
  obtain ⟨x, hx, hview⟩ := linkToAt_view h₄
  have hxa : x = (a, q.key, q.val) := by
    rw [hrel.data d, hself] at hx
    exact (Option.some.inj hx).symm
  subst hxa
  have heq : c₄.view = { c.view.setEntry a (cacheLink d) with
      data := Function.update c.view.data d (some (a, q.key, q.val)) } := by
    rw [hview, hrel.view]
    refine View.ext ?_ (funext fun d' => ?_) rfl
    · simp only [View.setEntry, CacheThread.view, htable]
    · by_cases hdd : d' = d
      · subst hdd
        simpa [View.setEntry, CacheThread.view] using hself
      · simpa [View.setEntry, CacheThread.view, hdd] using hother d' hdd
  have hfirst : Traced vec malloc c c₄ :=
    ⟨.single (heq ▸ .cached a d q hq ha hfree hd hlog),
      fun hu => linkToAt_unchained (hrel.unchained (hu₁ hu)) h₄⟩
  exact hfirst.trans (evictWhenFull_traced h)

theorem hit_traced {a : A} (htag : getTag (c.table a).valAddr = dcacheVal) (hptr : (c.table a).PointsTo d)
    (h : c.hit pages scan s d = some c') : Traced vec malloc c c' := by
  obtain ⟨e, -, h⟩ := Option.bind_eq_some_iff.mp h
  cases ht : e.listType with
  | inactive =>
    rw [ht] at h
    exact hitInactive_traced htag hptr h
  | active =>
    rw [ht] at h
    exact hitActive_traced htag hptr h

theorem cacheEntries_traced {qs : List (CqEntry A)} {addrs : List Ptr} (hqs : ∀ q ∈ qs, q ∈ vec)
    (haddrs : ∀ d ∈ addrs, d ∈ malloc) (h : c.cacheEntries pages scan qs s addrs = some c') :
    Traced vec malloc c c' := by
  induction qs generalizing s addrs c with
  | nil =>
    cases h
    exact .refl _
  | cons q qs ih =>
    have hrest : ∀ q ∈ qs, q ∈ vec := fun q hq => hqs q (List.mem_cons_of_mem _ hq)
    rw [cacheEntries] at h
    split at h
    · exact ih hrest haddrs h
    · rename_i a ha
      split at h
      · exact ih hrest haddrs h
      · rename_i hlog
        split at h
        · rename_i htag
          split at h
          · exact ih hrest haddrs h
          · obtain ⟨d, hd, h⟩ := Option.bind_eq_some_iff.mp h
            obtain ⟨c₁, h₁, h⟩ := Option.bind_eq_some_iff.mp h
            exact (hit_traced htag (toPtr_eq_some_iff.mp hd) h₁).trans (ih hrest haddrs h)
        · split at h
          · cases h
          · rename_i d addrs
            obtain ⟨c₁, h₁, h⟩ := Option.bind_eq_some_iff.mp h
            have hfirst := firstAccess_traced (hqs q List.mem_cons_self) ha (haddrs d List.mem_cons_self) hlog h₁
            exact hfirst.trans (ih hrest (fun d hd => haddrs d (List.mem_cons_of_mem _ hd)) h)

theorem cacheOperation_traced (h : c.cacheOperation pages vec malloc = some c') : Traced vec malloc c c' := by
  unfold cacheOperation at h
  split at h
  · cases h
  · exact cacheEntries_traced (fun _ h => h) (fun _ h => h) h

end CacheThread

/-! ## What a cached entry points to -/

/-- Every entry with the cache tag points to a `dc_entry` of its own, whose value is as
`P` says and which is not about to be freed. -/
def Serves (P : A → ℕ → Prop) (c : View A) : Prop :=
  ∀ a, getTag (c.table a).valAddr = dcacheVal →
    ∃ d key val, (c.table a).PointsTo d ∧ c.data d = some (a, key, val) ∧ c.freeing ≠ some d ∧ P a val

section Serves
variable [DecidableEq A] {P : A → ℕ → Prop} {c c' : View A} {a b : A} {d : Ptr}

omit [DecidableEq A] in
theorem putTaggedPtr_of_pointsTo {e : AtEntry} (h : e.PointsTo d) (t : ℕ) :
    putTaggedPtr e.valAddr t = putTaggedPtr d.addr t := by
  rw [putTaggedPtr, putTaggedPtr, show getUntaggedPtr e.valAddr = d.addr from h, getUntaggedPtr_user]

omit [DecidableEq A] in
theorem uncache_tag {e : AtEntry} (h : getTag e.valAddr = dcacheVal → e.PointsTo d) :
    getTag (uncache e).valAddr ≠ dcacheVal := by
  unfold uncache
  split
  · rename_i htag
    rw [putTaggedPtr_of_pointsTo (h htag), getTag_putTaggedPtr d (by decide)]
    decide
  · assumption

omit [DecidableEq A] in
theorem uncache_pointsTo (e : AtEntry) : (uncache e).PointsTo d ↔ e.PointsTo d := by
  unfold uncache
  split
  · simp [AtEntry.PointsTo]
  · rfl

@[simp] theorem setEntry_table_self (c : View A) (a : A) (f : AtEntry → AtEntry) :
    (c.setEntry a f).table a = f (c.table a) := Function.update_self ..

theorem setEntry_table_ne (c : View A) (f : AtEntry → AtEntry) (h : b ≠ a) :
    (c.setEntry a f).table b = c.table b := Function.update_of_ne h ..

theorem Serves.uncache (h : Serves P c) (a : A) : Serves P (c.setEntry a uncache) ∧
    getTag ((c.setEntry a DramCache.uncache).table a).valAddr ≠ dcacheVal := by
  have htag : getTag ((c.setEntry a DramCache.uncache).table a).valAddr ≠ dcacheVal := by
    rw [setEntry_table_self]
    by_cases hc : getTag (c.table a).valAddr = dcacheVal
    · obtain ⟨d, -, -, hpt, -⟩ := h a hc
      exact uncache_tag fun _ => hpt
    · simp [DramCache.uncache, hc]
  refine ⟨fun b hb => ?_, htag⟩
  by_cases hab : b = a
  · subst hab
    exact absurd hb htag
  · rw [setEntry_table_ne _ _ hab] at hb ⊢
    exact h b hb

theorem Serves.cacheLink {key val : ℕ} (h : Serves P c) (hd : c.data d = some (a, key, val))
    (hf : c.freeing ≠ some d) (hp : ¬ InLog (c.table a) → P a val) : Serves P (c.setEntry a (cacheLink d)) := by
  intro b hb
  by_cases hab : b = a
  · subst hab
    rw [setEntry_table_self] at hb ⊢
    unfold DramCache.cacheLink at hb ⊢
    by_cases hlog : InLog (c.table b)
    · rw [if_pos hlog] at hb ⊢
      exact h b hb
    · rw [if_neg hlog]
      exact ⟨d, key, val, by simp, hd, hf, hp hlog⟩
  · rw [setEntry_table_ne _ _ hab] at hb ⊢
    exact h b hb

omit [DecidableEq A] in
theorem Serves.alloc (h : Serves P c) (hd : c.data d = none) (x : A × ℕ × ℕ) :
    Serves P { c with data := Function.update c.data d (some x) } := by
  intro a ha
  obtain ⟨d', key, val, hpt, hdata, hfree, hp⟩ := h a ha
  have hne : d' ≠ d := by
    rintro rfl
    rw [hd] at hdata
    cases hdata
  exact ⟨d', key, val, hpt, by simpa [hne] using hdata, hfree, hp⟩

omit [DecidableEq A] in
theorem Serves.free (h : Serves P c)
    (hd : ∀ a, getTag (c.table a).valAddr = dcacheVal → ¬ (c.table a).PointsTo d) (f : Option Ptr)
    (hf : f = none) : Serves P { c with data := Function.update c.data d none, freeing := f } := by
  intro a ha
  obtain ⟨d', key, val, hpt, hdata, hfree, hp⟩ := h a ha
  have hne : d' ≠ d := by
    rintro rfl
    exact hd a ha hpt
  exact ⟨d', key, val, hpt, by simpa [hne] using hdata, by simp [hf], hp⟩

omit [DecidableEq A] in
theorem uncache_of_inLog {e : AtEntry} (h : InLog e) : uncache e = e := by
  have hne : getTag e.valAddr ≠ dcacheVal := fun hd => absurd (h.2.symm.trans hd) (by decide)
  rw [uncache, if_neg hne]

/-- One block of `cacheOperation`: what it serves from its queue must be as `P` says. -/
theorem Serves.block {vec : List (CqEntry A)} {malloc : List Ptr} (h : Serves P c) (hf : c.freeing = none)
    (hb : Block vec malloc c c')
    (hp : ∀ q ∈ vec, ∀ a, q.atEntry = some a → ¬ InLog (c.table a) → P a q.val) :
    Serves P c' := by
  -- what a hit finds is the entry that the cache serves already
  have hhit : ∀ {a d} {x : A × ℕ × ℕ}, getTag (c.table a).valAddr = dcacheVal → (c.table a).PointsTo d →
      c.data d = some x → x.1 = a ∧ P a x.2.2 := by
    intro a d x htag hpt hx
    obtain ⟨d', key, val, hpt', hdata, -, hP⟩ := h a htag
    obtain rfl := hpt'.inj hpt
    obtain rfl := Option.some.inj (hdata.symm.trans hx)
    exact ⟨rfl, hP⟩
  cases hb with
  | again a d x tag ptr data =>
    obtain ⟨rfl, hP⟩ := hhit tag ptr data
    exact h.cacheLink data (by rw [hf]; simp) fun _ => hP
  | promote a d x tag ptr data =>
    obtain ⟨rfl, hP⟩ := hhit tag ptr data
    have hdata : (c.setEntry x.1 DramCache.uncache).data d = some x := data
    exact (h.uncache x.1).1.cacheLink hdata (by rw [View.setEntry, hf]; simp) fun _ => hP
  | cached a d q mem entry free addr log =>
    have hdata : Function.update c.data d (some (a, q.key, q.val)) d = some (a, q.key, q.val) :=
      Function.update_self ..
    exact (h.alloc free (a, q.key, q.val)).cacheLink hdata (by rw [hf]; simp) fun _ => hp q mem a entry log
  | evict d x data =>
    obtain ⟨hserves, htag⟩ := h.uncache x.1
    refine hserves.free (fun b hb hpt => ?_) c.freeing hf
    obtain ⟨d', key, val, hpt', hdata, -⟩ := hserves b hb
    obtain rfl := hpt'.inj hpt
    obtain rfl : (b, key, val) = x := Option.some.inj (hdata.symm.trans data)
    exact htag hb

theorem Block.inLog {vec : List (CqEntry A)} {malloc : List Ptr} (hb : Block vec malloc c c')
    (ha : InLog (c.table a)) : InLog (c'.table a) := by
  have hset : ∀ {c : View A} {b : A} {f : AtEntry → AtEntry},
    InLog (c.table a) → (∀ e, InLog e → f e = e) →
      InLog ((c.setEntry b f).table a) := by
    intro c b f ha hf
    by_cases hab : a = b
    · subst hab
      rw [setEntry_table_self, hf _ ha]
      exact ha
    · rw [setEntry_table_ne _ _ hab]
      exact ha
  have hlink : ∀ (d : Ptr) (e : AtEntry), InLog e → DramCache.cacheLink d e = e := fun d e he => if_pos he
  cases hb with
  | again b d x tag ptr data => exact hset ha (hlink d)
  | promote b d x tag ptr data => exact hset (hset ha fun e => uncache_of_inLog) (hlink d)
  | cached b d q mem entry free addr log => exact hset ha (hlink d)
  | evict d x data => exact hset ha fun e => uncache_of_inLog

theorem Block.freeing {vec : List (CqEntry A)} {malloc : List Ptr} (hb : Block vec malloc c c') :
    c'.freeing = c.freeing := by
  cases hb <;> rfl

theorem Serves.traced {vec : List (CqEntry A)} {malloc : List Ptr} {t t' : CacheThread A}
    (h : Serves P t.view) (hp : ∀ q ∈ vec, ∀ a, q.atEntry = some a → ¬ InLog (t.table a) → P a q.val)
    (ht : t.Traced vec malloc t') : Serves P t'.view := by
  have hmain : ∀ {v : View A}, Relation.ReflTransGen (Block vec malloc) t.view v →
      Serves P v ∧ v.freeing = none ∧ ∀ a, InLog (t.table a) → InLog (v.table a) := by
    intro v hv
    induction hv with
    | refl => exact ⟨h, rfl, fun _ ha => ha⟩
    | tail _ hblock ih =>
      obtain ⟨hs, hf, hlog⟩ := ih
      exact ⟨hs.block hf hblock fun q hq a ha hnot => hp q hq a ha fun hin => hnot (hlog a hin),
        hblock.freeing.trans hf, fun a ha => hblock.inLog (hlog a ha)⟩
  exact (hmain ht.blocks).1

theorem Serves.cacheOperation {pages : ℕ} {vec : List (CqEntry A)} {malloc : List Ptr} {t t' : CacheThread A}
    (h : Serves P t.view) (hp : ∀ q ∈ vec, ∀ a, q.atEntry = some a → ¬ InLog (t.table a) → P a q.val)
    (ht : t.cacheOperation pages vec malloc = some t') : Serves P t'.view :=
  h.traced hp (CacheThread.cacheOperation_traced ht)

end Serves

end Hkv.DramCache
