import Hkv.CacheStructure
import Hkv.MtsImpl

/-!
# Removing a cached key

`MTSImpl::remove` queues the `at_entry` of a cached key for the cache thread, which takes
its `dc_entry` from there. The queue holds the address of the `at_entry` only, and by the
time it is read the entry may be in any of several states. The steps of a remove are
separate here, so that evictions, inserts and the cache thread may come between them.
-/
namespace Hkv.DramCache.CacheThread
open MtsConfig TaggedPointer AddressTable

variable {A : Type} [DecidableEq A] {c c₁ c' : CacheThread A} {t : ListType} {d : Ptr} {a : A}
    {M : ListType → ℤ}
  {L : ListType → List Ptr}

/-- `remove_entry` and `free_entry` -/
def drop (c : CacheThread A) (t : ListType) (d : Ptr) : Option (CacheThread A) :=
  (c.removeEntry t d).bind (freeEntry · d)

/-- The `smp_cas` of `freeOperation`. -/
def casNull (c : CacheThread A) (a : A) : CacheThread A := c.setEntry a fun e => { e with valAddr := 0 }

/-- `freeOperation`. The tag of `val_addr` is not taken off: `toPtr` fails on a tagged
pointer, whose dereference faults. -/
def freeOperation (c : CacheThread A) (a : A) : Option (CacheThread A) :=
  if (c.table a).valAddr = 0 then some c
  else do
    let d ← toPtr (c.table a).valAddr
    let e ← (c.casNull a).heap d
    (c.casNull a).drop e.listType d

theorem Sound.drop (h : Sound c M L none) (hd : d ∈ L t) : ∃ c' L',
    c.drop t d = some c' ∧ Sound c' M L' none := by
  obtain ⟨xs, ys, hL⟩ := List.append_of_mem hd
  obtain ⟨c₁, h₁, hs₁⟩ := h.removeEntry hL
  obtain ⟨c', h', hs'⟩ := hs₁.freeEntry
  exact ⟨c', _, by rw [CacheThread.drop, h₁, Option.bind_some, h'], hs'⟩

/-- No entry comes to point to an entry of the heap, and the heap gets no new entry. -/
structure Shrinks (c c' : CacheThread A) : Prop where
  ptr : ∀ a d, c'.heap d ≠ none → (c'.table a).PointsTo d → (c.table a).PointsTo d
  data : ∀ d x, c'.data d = some x → c.data d = some x

omit [DecidableEq A] in
theorem Shrinks.refl (c : CacheThread A) : Shrinks c c := ⟨fun _ _ _ h => h, fun _ _ h => h⟩

omit [DecidableEq A] in
theorem heap_ne_none_iff : c.heap d ≠ none ↔ ∃ x, c.data d = some x := by
  rw [← Option.ne_none_iff_exists', data, ne_eq, ne_eq, Option.map_eq_none_iff]

omit [DecidableEq A] in
theorem Shrinks.heap (h : Shrinks c c') (hd : c'.heap d ≠ none) : c.heap d ≠ none := by
  obtain ⟨x, hx⟩ := heap_ne_none_iff.mp hd
  exact heap_ne_none_iff.mpr ⟨x, h.data d x hx⟩

omit [DecidableEq A] in
theorem Shrinks.trans (h : Shrinks c c₁) (h' : Shrinks c₁ c') : Shrinks c c' :=
  ⟨fun a d hd hp => h.ptr a d (h'.heap hd) (h'.ptr a d hd hp), fun d x hx => h.data d x (h'.data d x hx)⟩

theorem shrinks_setEntry {f : AtEntry → AtEntry}
    (hptr : ∀ d, c.heap d ≠ none → (f (c.table a)).PointsTo d → (c.table a).PointsTo d) :
    Shrinks c (c.setEntry a f) := by
  refine ⟨fun b d hd hp => ?_, fun _ _ hx => hx⟩
  by_cases hb : b = a
  · subst hb
    exact hptr d hd (by simpa [CacheThread.setEntry] using hp)
  · simpa [CacheThread.setEntry, hb] using hp

theorem not_pointsTo_of_zero {e : AtEntry} (he : e.valAddr = 0) (hd : d.addr ≠ 0) : ¬ e.PointsTo d := by
  rw [AtEntry.PointsTo, he]
  exact fun h => hd (h.symm.trans (by decide))

theorem drop_spec (h : c.drop t d = some c') : Shrinks c c' ∧ c'.heap d = none ∧
    (∀ x, x ≠ d → c.heap x ≠ none → c'.heap x ≠ none) ∧
    ∀ a, c'.table a = c.table a ∨ c'.table a = uncache (c.table a) := by
  obtain ⟨c₁, h₁, h₂⟩ := Option.bind_eq_some_iff.mp h
  obtain ⟨x, -, htable, hdata, -⟩ := removeEntry_spec h₁
  obtain ⟨htable', hother, hnone⟩ := freeEntry_spec h₂
  have hcases : ∀ a, c'.table a = c.table a ∨ c'.table a = uncache (c.table a) := fun a => by
    rw [htable', htable]
    by_cases ha : a = x.1
    · exact .inr (by rw [ha, Function.update_self])
    · exact .inl (Function.update_of_ne ha ..)
  refine ⟨⟨fun a y _ hp => ?_, fun y z hz => ?_⟩, by simpa [data] using hnone, fun y hy hheap => ?_, hcases⟩
  · rcases hcases a with heq | heq
    · exact heq ▸ hp
    · rw [heq] at hp
      exact (uncache_pointsTo _).mp hp
  · have hne : y ≠ d := by
      rintro rfl
      rw [hnone] at hz
      cases hz
    rw [← hdata y, ← hother y hne, hz]
  · rw [heap_ne_none_iff] at hheap ⊢
    rw [hother y hy, hdata y]
    exact hheap

end Hkv.DramCache.CacheThread

namespace Hkv.Mts
open MtsConfig TaggedPointer AddressTable ValueStorage StepRun Prism DramCache

/-- How far a remove has come. -/
inductive Stage where
  /-- the value is unlinked -/
  | unlinked
  /-- `cache_free_kv_items` has returned or was not called -/
  | pushed
  /-- `AddressTable::free` has returned -/
  | freed
  deriving DecidableEq

/-- The local variables of `MTSImpl::remove`; `cached` says that `val_pos` is `DCACHE_VAL`. -/
structure Removal where
  key : ℕ
  atEntry : AtId
  cached : Bool
  stage : Stage

structure FreeSystem where
  mts : State
  /-- The address table of this record is not used; see `FreeSystem.thread`. -/
  cache : CacheThread AtId
  /-- The removes under way, by thread. -/
  removes : ℕ → Option Removal
  /-- `g_cacheFreeQueue`. The key that was removed is recorded with the entry. -/
  queue : List (AtId × ℕ)

inductive FreeStep where
  /-- the lookup and the unlinking of the value -/
  | unlink (i k v : ℕ)
  /-- `cache_free_kv_items` -/
  | push (i : ℕ)
  /-- `AddressTable::free` -/
  | free (i : ℕ)
  /-- the removal from the key index -/
  | removeIndex (i : ℕ)
  | insert (l : LogId) (k val : ℕ) (p : Ptr)
  /-- one round of `evict_entry` -/
  | evict
  | freeOperation (a : AtId) (k : ℕ)

/-- `MTSImpl::is_cached` -/
def isCached (e : AtEntry) : Bool := decide (getTag e.valAddr = dcacheVal)

namespace FreeSystem

/-- The cache thread on the shared address table. -/
def thread (s : FreeSystem) : CacheThread AtId := { s.cache with table := s.mts.sys.table }

def setThread (s : FreeSystem) (c : CacheThread AtId) : FreeSystem :=
  { s with mts := { s.mts with sys := { s.mts.sys with table := c.table } }, cache := c }

def setStage (s : FreeSystem) (i : ℕ) (r : Removal) (stage : Stage) : FreeSystem :=
  { s with removes := Function.update s.removes i (some { r with stage := stage }) }

/-- The remove of thread `i`, if it has come to `stage`. -/
def removal (s : FreeSystem) (i : ℕ) (stage : Stage) : Option Removal :=
  (s.removes i).filter fun r => decide (r.stage = stage)

variable (home : Ptr → Option LogId) (cfg : Config) (entryNum : ℕ)

def step (s : FreeSystem) : FreeStep → Option FreeSystem
  | .unlink i k v =>
    if s.removes i = none then
      (s.mts.index k).bind fun a => (State.unlinkValue cfg s.mts.sys v a).map fun sys =>
        { s with
          mts := { s.mts with sys := sys }
          removes := Function.update s.removes i
            (some ⟨k, a, decide (getValPos (s.mts.sys.table a) = some .dcache), .unlinked⟩) }
    else none
  | .push i => (s.removal i .unlinked).map fun r =>
      { s.setStage i r .pushed with
        queue := if r.cached && isCached (s.mts.sys.table r.atEntry)
          then s.queue ++ [(r.atEntry, r.key)] else s.queue }
  | .free i => (s.removal i .pushed).map fun r =>
      { s.setStage i r .freed with
        mts := { s.mts with
          sys := { s.mts.sys with
            table := Function.update s.mts.sys.table r.atEntry (State.freeEntry (s.mts.sys.table r.atEntry)) }
          pools := Function.update s.mts.pools r.atEntry.1
            { s.mts.pools r.atEntry.1 with
              freeAtOffsetList := (s.mts.pools r.atEntry.1).freeAtOffsetList ++ [r.atEntry.2] }
          keys := Function.update s.mts.keys r.atEntry none } }
  | .removeIndex i => (s.removal i .freed).map fun r =>
      { s with
        mts := { s.mts with index := Function.update s.mts.index r.key none }
        removes := Function.update s.removes i none }
  | .insert l k val p => (s.mts.insert home entryNum l k val p).map fun r => { s with mts := r.1 }
  | .evict => s.thread.evictOne.map s.setThread
  | .freeOperation a k =>
    if (a, k) ∈ s.queue then
      (s.thread.freeOperation a).map fun c => { s.setThread c with queue := s.queue.erase (a, k) }
    else none

theorem run_remove (s : FreeSystem) {i : ℕ} (hi : s.removes i = none) (k v : ℕ) :
    (run (step home cfg entryNum) s [.unlink i k v, .push i, .free i, .removeIndex i]).map FreeSystem.mts =
      s.mts.remove cfg k v := by
  unfold State.remove
  cases hk : s.mts.index k with
  | none => simp [run, step, hi, hk]
  | some a =>
    cases hu : State.unlinkValue cfg s.mts.sys v a with
    | none => simp [run, step, hi, hk, hu]
    | some sys => simp [run, step, hi, hk, hu, removal, setStage, Option.filter]

/-! ## What should happen -/

/-- `freeOperation` takes out only an entry that is on the list that it names and that
belongs to the removed key, and leaves an `at_entry` alone that is in use again. -/
structure FreesOwn (s : FreeSystem) (a : AtId) (k : ℕ) : Prop where
  frees : ∃ c, s.thread.freeOperation a = some c ∧ ∀ d, s.thread.heap d ≠ none → c.heap d = none →
    ∃ e, s.thread.heap d = some e ∧ (∃ ds, s.thread.Listed e.listType ds ∧ d ∈ ds) ∧ e.atEntry = a ∧
    e.key = k
  keeps : s.mts.keys a ≠ none → ((s.thread.casNull a).table a).valAddr = (s.thread.table a).valAddr

/-- `val_addr` is null, or `AddressTable::free` has cleaned it, no insert has used the
entry again, and the `dc_entry` has not been evicted. -/
def Timely (s : FreeSystem) (a : AtId) : Prop :=
  (s.mts.sys.table a).valAddr = 0 ∨
    getTag (s.mts.sys.table a).valAddr = cleanEntry ∧
      ∃ d ∈ toPtr (getUntaggedPtr (s.mts.sys.table a).valAddr), s.cache.heap d ≠ none

instance (s : FreeSystem) (a : AtId) : Decidable (s.Timely a) := inferInstanceAs (Decidable (_ ∨ _ ∧ _))

/-- A `dc_entry` to which `a` points is that of the key `k`. -/
def Names (c : CacheThread AtId) (a : AtId) (k : ℕ) : Prop :=
  ∀ d x, (c.table a).PointsTo d → c.data d = some x → x.1 = a ∧ x.2.1 = k

variable {home cfg entryNum} {M : ListType → ℤ} {s s' : FreeSystem} {a : AtId} {k : ℕ}

theorem Names.shrinks {c c' : CacheThread AtId} (h : Names c a k) (hs : c.Shrinks c') : Names c' a k := by
  intro d x hp hx
  exact h d x (hs.ptr a d (CacheThread.heap_ne_none_iff.mpr ⟨x, hx⟩) hp) (hs.data d x hx)

/-- The lists of the cache are sound and their entries lie outside of the logs. An entry in
use is not clean. The `dc_entry` of a cached key belongs to it, also if the key is being
removed. -/
structure Ready (home : Ptr → Option LogId) (M : ListType → ℤ) (s : FreeSystem) : Prop where
  sound : ∃ L, s.thread.Sound M L none
  heap : ∀ d, s.thread.heap d ≠ none → d.addr ≠ 0 ∧ home d = none
  tagged : ∀ a, Tagged (s.thread.table a).valAddr
  assigned : ∀ a, s.mts.keys a ≠ none → getTag (s.thread.table a).valAddr = cleanEntry →
    (s.thread.table a).valAddr = 0
  index : ∀ k a, s.mts.index k = some a → getTag (s.thread.table a).valAddr = dcacheVal → Names s.thread a k
  removes : ∀ i r, s.removes i = some r → r.cached = true → Names s.thread r.atEntry r.key
  queue : ∀ x ∈ s.queue, Names s.thread x.1 x.2

theorem Ready.freesOwn_iff (h : Ready home M s) (hq : (a, k) ∈ s.queue) : s.FreesOwn a k ↔ s.Timely a := by
  constructor
  · rintro ⟨⟨c, hfree, -⟩, -⟩
    by_cases hzero : (s.thread.table a).valAddr = 0
    · exact .inl hzero
    rw [CacheThread.freeOperation, if_neg hzero] at hfree
    obtain ⟨d, hd, hfree⟩ := Option.bind_eq_some_iff.mp hfree
    obtain ⟨e, he, -⟩ := Option.bind_eq_some_iff.mp hfree
    have haddr : (s.mts.sys.table a).valAddr = d.addr := toPtr_eq_some_iff.mp hd
    refine .inr ⟨?_, d, ?_, ?_⟩
    · rw [haddr, ← putTaggedPtr_zero, getTag_putTaggedPtr d (by decide)]
      rfl
    · rw [haddr, getUntaggedPtr_user]
      exact toPtr_eq_some_iff.mpr rfl
    · exact Option.ne_none_iff_exists'.mpr ⟨e, he⟩
  · rintro (hzero | ⟨htag, d, hptr, hd⟩)
    · have hval : (s.thread.table a).valAddr = 0 := hzero
      refine ⟨⟨s.thread, if_pos hval, fun d hd hnone => absurd hnone hd⟩, fun _ => ?_⟩
      simp [CacheThread.casNull, CacheThread.setEntry, hval]
    · have hpt : (s.thread.table a).PointsTo d := toPtr_eq_some_iff.mp hptr
      have hpos : d.addr ≠ 0 := (h.heap d hd).1
      have hclean : (s.thread.table a).valAddr = d.addr := (h.tagged a).eq_addr htag hpt
      obtain ⟨L, hsound⟩ := h.sound
      obtain ⟨e, he⟩ := Option.ne_none_iff_exists'.mp hd
      have he' : s.thread.heap d = some e := he
      obtain ⟨t, hmem⟩ := (hsound.owned d hd).resolve_right (by simp)
      have htype : e.listType = t := by simpa [CacheThread.typeOf, he'] using hsound.typeOf t d hmem
      subst htype
      have hcas : (s.thread.casNull a).Sound M L none := ⟨hsound.toLists.of_table rfl rfl, hsound.unchained⟩
      obtain ⟨c, -, hdrop, -⟩ := hcas.drop hmem
      obtain ⟨-, -, hother, -⟩ := CacheThread.drop_spec hdrop
      have hzero : (s.thread.table a).valAddr ≠ 0 := hclean ▸ hpos
      refine ⟨⟨c, ?_, fun x hx hnone => ?_⟩, fun hkey => absurd (h.assigned a hkey htag) hzero⟩
      · rw [CacheThread.freeOperation, if_neg hzero, hclean, toPtr_eq_some_iff.mpr rfl]
        exact (congrArg (Option.bind · _) he').trans hdrop
      · obtain rfl : x = d := by
          by_contra hne
          exact hother x hne hx hnone
        obtain ⟨hat, hkey⟩ :=
          h.queue _ hq x (CacheThread.DcEntry.data e) hpt (CacheThread.data_eq_some.mpr ⟨e, he', rfl⟩)
        exact ⟨e, he', ⟨_, hsound.listed e.listType, hmem⟩, hat, hkey⟩

/-! ## The steps -/

/-- What every step does to the cache and the address table. -/
structure Moves (M : ListType → ℤ) (c c' : CacheThread AtId) : Prop where
  sound : ∃ L, c'.Sound M L none
  shrinks : c.Shrinks c'
  tagged : ∀ a, Tagged (c'.table a).valAddr
  cached : ∀ a, getTag (c'.table a).valAddr = dcacheVal → getTag (c.table a).valAddr = dcacheVal

/-- The names of entries come from the index through the removes to the queue. -/
theorem Ready.of_moves {c : CacheThread AtId} (h : Ready home M s) (hthread : s'.thread = c) (hm : Moves M s.thread c)
    (hassigned : ∀ a, s'.mts.keys a ≠ none → getTag (c.table a).valAddr = cleanEntry →
      (c.table a).valAddr = 0)
    (hindex : ∀ k a, s'.mts.index k = some a → s.mts.index k = some a ∨
      getTag (c.table a).valAddr ≠ dcacheVal)
    (hremoves : ∀ i r, s'.removes i = some r → r.cached = true →
      (∃ r₀, s.removes i = some r₀ ∧ r₀.cached = true ∧ r₀.atEntry = r.atEntry ∧ r₀.key = r.key) ∨
        s.mts.index r.key = some r.atEntry ∧ getTag (s.thread.table r.atEntry).valAddr = dcacheVal)
    (hqueue : ∀ x ∈ s'.queue, x ∈ s.queue ∨ ∃ i r, s.removes i = some r ∧ r.cached = true ∧
      x = (r.atEntry, r.key)) :
    Ready home M s' := by
  subst hthread
  constructor
  case sound => exact hm.sound
  case heap => exact fun d hd => h.heap d (hm.shrinks.heap hd)
  case tagged => exact hm.tagged
  case assigned => exact hassigned
  case index =>
    intro k a hk htag
    have hold := (hindex k a hk).resolve_right (not_not_intro htag)
    exact (h.index k a hold (hm.cached a htag)).shrinks hm.shrinks
  case removes =>
    intro i r hr hcached
    rcases hremoves i r hr hcached with ⟨r₀, hr₀, hc₀, hat, hkey⟩ | ⟨hold, htag⟩
    · exact hat ▸ hkey ▸ (h.removes i r₀ hr₀ hc₀).shrinks hm.shrinks
    · exact (h.index _ _ hold htag).shrinks hm.shrinks
  case queue =>
    intro x hx
    rcases hqueue x hx with hold | ⟨i, r, hr, hcached, rfl⟩
    · exact (h.queue x hold).shrinks hm.shrinks
    · exact (h.removes i r hr hcached).shrinks hm.shrinks

theorem Ready.moves_refl (h : Ready home M s) : Moves M s.thread s.thread :=
    ⟨h.sound, .refl _, h.tagged, fun _ ha => ha⟩

theorem Ready.moves_setEntry {f : AtEntry → AtEntry} (h : Ready home M s)
    (htag : Tagged (f (s.thread.table a)).valAddr) (hne : getTag (f (s.thread.table a)).valAddr ≠ dcacheVal)
    (hptr : ∀ d, s.thread.heap d ≠ none → (f (s.thread.table a)).PointsTo d → (s.thread.table a).PointsTo d) :
    Moves M s.thread (s.thread.setEntry a f) := by
  refine ⟨h.sound.imp fun L hL => ⟨hL.toLists.of_table rfl rfl, hL.unchained⟩,
    CacheThread.shrinks_setEntry hptr, fun b => ?_, fun b => ?_⟩
  · by_cases hb : b = a
    · subst hb
      simpa [CacheThread.setEntry] using htag
    · simpa [CacheThread.setEntry, hb] using h.tagged b
  · by_cases hb : b = a
    · subst hb
      simp [CacheThread.setEntry, hne]
    · simp [CacheThread.setEntry, hb]

theorem Ready.moves_casNull (h : Ready home M s) (a : AtId) : Moves M s.thread (s.thread.casNull a) :=
  h.moves_setEntry tagged_zero (show getTag 0 ≠ dcacheVal by decide) fun _ hd hp =>
    absurd hp (CacheThread.not_pointsTo_of_zero rfl (h.heap _ hd).1)

theorem Moves.drop {c₀ c c' : CacheThread AtId} {t : ListType} {d : Ptr} (h : Moves M c₀ c)
    (hsound : ∃ L, c'.Sound M L none) (hdrop : c.drop t d = some c') : Moves M c₀ c' := by
  obtain ⟨hshrinks, -, -, htable⟩ := CacheThread.drop_spec hdrop
  refine ⟨hsound, h.shrinks.trans hshrinks, fun a => ?_, fun a ha => h.cached a ?_⟩
  · rcases htable a with heq | heq
    · rw [heq]
      exact h.tagged a
    · rw [heq, uncache]
      split
      · exact (h.tagged a).putTaggedPtr (by decide)
      · exact h.tagged a
  · rcases htable a with heq | heq
    · exact heq ▸ ha
    · by_contra hne
      rw [heq, uncache, if_neg hne] at ha
      exact hne ha

theorem clean_of_drop {c c' : CacheThread AtId} {t : ListType} {d : Ptr} (hdrop : c.drop t d = some c')
    (htagged : Tagged (c.table a).valAddr) (hclean : getTag (c'.table a).valAddr = cleanEntry) :
    c'.table a = c.table a := by
  obtain ⟨-, -, -, htable⟩ := CacheThread.drop_spec hdrop
  rcases htable a with heq | heq
  · exact heq
  · rw [heq, uncache]
    by_cases htag : getTag (c.table a).valAddr = dcacheVal
    · obtain ⟨p, t, ht, hval⟩ := htagged
      rw [heq, uncache, if_pos htag, hval, putTaggedPtr_putTaggedPtr, getTag_putTaggedPtr p (by decide)] at hclean
      exact absurd hclean (by decide)
    · rw [if_neg htag]

theorem Ready.evictOne_drop {c : CacheThread AtId} (h : Ready home M s) (hevict : s.thread.evictOne = some c) :
    (∃ L, c.Sound M L none) ∧ ∃ d, s.thread.drop .inactive d = some c := by
  obtain ⟨L, hsound⟩ := h.sound
  have hevict' := hevict
  obtain ⟨d, htail, -⟩ := Option.bind_eq_some_iff.mp hevict
  have hne : L .inactive ≠ [] := by
    rintro hnil
    rw [(hsound.listed .inactive).tail, hnil] at htail
    cases htail
  obtain ⟨c', hc', hs'⟩ := hsound.evictOne hne
  obtain rfl := Option.some.inj (hc'.symm.trans hevict)
  rw [CacheThread.evictOne_of_unchained hsound.unchained htail] at hevict'
  obtain ⟨e, -, hdrop⟩ := Option.bind_eq_some_iff.mp hevict'
  exact ⟨⟨_, hs'⟩, d, hdrop⟩

theorem unlinkValue_table {sys sys' : System AtId} {v : ℕ} (h : State.unlinkValue cfg sys v a = some sys') :
    sys'.table = sys.table ∨ sys'.table = Function.update sys.table a { sys.table a with valAddr := 0 } := by
  have hslot : ∀ v, State.unlinkSlot cfg sys v a = some sys' → sys'.table = sys.table := by
    intro v hv
    unfold State.unlinkSlot at hv
    dsimp only at hv
    split at hv
    · cases hv
      exact unlinkToAt_table ..
    · cases hv
  unfold State.unlinkValue at h
  split at h
  · obtain ⟨p, -, rfl⟩ := Option.map_eq_some_iff.mp h
    exact .inr rfl
  · exact .inl (hslot _ h)
  · exact .inl (hslot _ h)
  · cases h

theorem removal_eq_some {i : ℕ} {stage : Stage} {r : Removal} (h : s.removal i stage = some r) :
    s.removes i = some r := (Option.filter_eq_some_iff.mp h).1

theorem Ready.assigned_setEntry {f : AtEntry → AtEntry} (h : Ready home M s)
    (hf : s'.mts.keys a ≠ none → getTag (f (s.thread.table a)).valAddr = cleanEntry →
      (f (s.thread.table a)).valAddr = 0) (hkeys : ∀ b ≠ a, s'.mts.keys b = s.mts.keys b) (b : AtId)
    (hb : s'.mts.keys b ≠ none) (hclean : getTag ((s.thread.setEntry a f).table b).valAddr = cleanEntry) :
    ((s.thread.setEntry a f).table b).valAddr = 0 := by
  by_cases hba : b = a
  · subst hba
    simp only [CacheThread.setEntry, Function.update_self] at hclean ⊢
    exact hf hb hclean
  · simp only [CacheThread.setEntry, Function.update_of_ne hba] at hclean ⊢
    exact h.assigned b (hkeys b hba ▸ hb) hclean

theorem Ready.step_unlink {i k v : ℕ} (h : Ready home M s)
    (hstep : s.step home cfg entryNum (.unlink i k v) = some s') : Ready home M s' := by
  simp only [step] at hstep
  split at hstep
  · obtain ⟨a, ha, hstep⟩ := Option.bind_eq_some_iff.mp hstep
    obtain ⟨sys, hsys, rfl⟩ := Option.map_eq_some_iff.mp hstep
    have hremoves : ∀ j r, Function.update s.removes i
        (some ⟨k, a, decide (getValPos (s.mts.sys.table a) = some .dcache), .unlinked⟩) j = some r →
        r.cached = true →
        (∃ r₀, s.removes j = some r₀ ∧ r₀.cached = true ∧ r₀.atEntry = r.atEntry ∧
          r₀.key = r.key) ∨
          s.mts.index r.key = some r.atEntry ∧ getTag (s.thread.table r.atEntry).valAddr = dcacheVal := by
      intro j r hr hcached
      by_cases hj : j = i
      · subst hj
        rw [Function.update_self] at hr
        cases hr
        exact .inr ⟨ha, ((getValPos_eq_dcache_iff _).mp (of_decide_eq_true hcached)).2⟩
      · rw [Function.update_of_ne hj] at hr
        exact .inl ⟨r, hr, hcached, rfl, rfl⟩
    rcases unlinkValue_table hsys with htable | htable
    · exact h.of_moves (by simp [thread, htable]) h.moves_refl h.assigned (fun _ _ hk => .inl hk) hremoves
        fun _ hx => .inl hx
    · refine h.of_moves (c := s.thread.casNull a) ?_ (h.moves_casNull a)
        (h.assigned_setEntry (fun _ _ => rfl) fun _ _ => rfl) (fun _ _ hk => .inl hk) hremoves fun _ hx => .inl hx
      simp [thread, htable, CacheThread.casNull, CacheThread.setEntry]
  · cases hstep

theorem setStage_removes {i j : ℕ} {r r' : Removal} {stage : Stage} (hi : s.removes i = some r)
    (hr' : (s.setStage i r stage).removes j = some r') (hcached : r'.cached = true) :
    ∃ r₀, s.removes j = some r₀ ∧ r₀.cached = true ∧ r₀.atEntry = r'.atEntry ∧ r₀.key = r'.key := by
  by_cases hj : j = i
  · subst hj
    simp only [setStage, Function.update_self, Option.some.injEq] at hr'
    subst hr'
    exact ⟨r, hi, hcached, rfl, rfl⟩
  · simp only [setStage, Function.update_of_ne hj] at hr'
    exact ⟨r', hr', hcached, rfl, rfl⟩

theorem Ready.step_push {i : ℕ} (h : Ready home M s) (hstep : s.step home cfg entryNum (.push i) = some s') :
    Ready home M s' := by
  obtain ⟨r, hr, rfl⟩ := Option.map_eq_some_iff.mp hstep
  have hi := removal_eq_some hr
  refine h.of_moves rfl h.moves_refl h.assigned (fun _ _ hk => .inl hk)
    (fun _ _ hr' hc => .inl (setStage_removes hi hr' hc)) fun x hx => ?_
  dsimp only at hx
  split at hx
  · rename_i hcached
    rw [Bool.and_eq_true] at hcached
    rcases List.mem_append.mp hx with hx | hx
    · exact .inl hx
    · exact .inr ⟨i, r, hi, hcached.1, List.mem_singleton.mp hx⟩
  · exact .inl hx

theorem freeEntry_tag {e : AtEntry} (he : Tagged e.valAddr) : getTag (State.freeEntry e).valAddr ≠ dcacheVal := by
  obtain ⟨p, t, ht, hval⟩ := he
  rw [State.freeEntry, hval, putTaggedPtr_putTaggedPtr, getTag_putTaggedPtr p (by decide)]
  decide

theorem Ready.step_free {i : ℕ} (h : Ready home M s) (hstep : s.step home cfg entryNum (.free i) = some s') :
    Ready home M s' := by
  obtain ⟨r, hr, rfl⟩ := Option.map_eq_some_iff.mp hstep
  have hmoves : Moves M s.thread (s.thread.setEntry r.atEntry State.freeEntry) :=
    h.moves_setEntry ((h.tagged _).putTaggedPtr (by decide)) (freeEntry_tag (h.tagged _)) fun d _ hp => by
      simpa [AtEntry.PointsTo, State.freeEntry] using hp
  refine h.of_moves rfl hmoves (h.assigned_setEntry (fun hkey _ => ?_) fun b hb => ?_) (fun _ _ hk => .inl hk)
    (fun _ _ hr' hc => .inl (setStage_removes (removal_eq_some hr) hr' hc)) fun _ hx => .inl hx
  · simp at hkey
  · simp [hb]

theorem Ready.step_removeIndex {i : ℕ} (h : Ready home M s)
    (hstep : s.step home cfg entryNum (.removeIndex i) = some s') : Ready home M s' := by
  obtain ⟨r, hr, rfl⟩ := Option.map_eq_some_iff.mp hstep
  refine h.of_moves rfl h.moves_refl h.assigned (fun k a hk => .inl ?_)
    (fun j r' hr' hc => .inl ⟨r', ?_, hc, rfl, rfl⟩) fun _ hx => .inl hx
  · by_cases hkey : k = r.key
    · simp [hkey] at hk
    · simpa [hkey] using hk
  · by_cases hj : j = i
    · simp [hj] at hr'
    · simpa [hj] using hr'

theorem Ready.step_insert {l : LogId} {k val : ℕ} {p : Ptr} (h : Ready home M s)
    (hstep : s.step home cfg entryNum (.insert l k val p) = some s') : Ready home M s' := by
  obtain ⟨⟨mts, ok⟩, hinsert, rfl⟩ := Option.map_eq_some_iff.mp hstep
  unfold State.insert at hinsert
  split at hinsert
  · rename_i hfresh
    obtain ⟨⟨a, s₁⟩, hassign, hmts⟩ := Option.map_eq_some_iff.mp hinsert
    obtain ⟨⟨o, pool⟩, -, hs₁⟩ := Option.map_eq_some_iff.mp hassign
    cases hs₁
    cases hmts
    have hfar : ∀ d, s.thread.heap d ≠ none → ¬ (linkToOl alloc p).PointsTo d := by
      intro d hd hp
      have hdp : d = p := hp.inj (by simp [AtEntry.PointsTo, linkToOl])
      have hnone := (h.heap d hd).2
      rw [hdp, hfresh.1] at hnone
      cases hnone
    have hmoves : Moves M s.thread (s.thread.setEntry (l.1, o) fun _ => linkToOl alloc p) :=
      h.moves_setEntry (tagged_putTaggedPtr p (by decide)) (by simp [linkToOl, oplogVal, dcacheVal]) fun d hd hp =>
        absurd hp (hfar d hd)
    refine h.of_moves ?_ hmoves (h.assigned_setEntry (fun _ hclean => ?_) fun b hb => ?_) (fun k' a ha => ?_)
      (fun _ r hr hc => .inl ⟨r, hr, hc, rfl, rfl⟩) fun _ hx => .inl hx
    · simp [thread, CacheThread.setEntry, System.record]
    · rw [linkToOl, getTag_putTaggedPtr p (by decide)] at hclean
      exact absurd hclean (by decide)
    · simp [hb]
    · simp only [State.indexInsert] at ha
      split at ha
      · by_cases hk : k' = k
        · subst hk
          obtain rfl : (l.1, o) = a := by simpa using ha
          exact .inr (by simp [CacheThread.setEntry, linkToOl, oplogVal, dcacheVal])
        · exact .inl (by simpa [hk] using ha)
      · exact .inl ha
  · cases hinsert

theorem Ready.step_evict (h : Ready home M s) (hstep : s.step home cfg entryNum .evict = some s') :
    Ready home M s' := by
  obtain ⟨c, hevict, rfl⟩ := Option.map_eq_some_iff.mp hstep
  obtain ⟨hsound, d, hdrop⟩ := h.evictOne_drop hevict
  refine h.of_moves (c := c) rfl (h.moves_refl.drop hsound hdrop) (fun a ha hclean => ?_) (fun _ _ hk => .inl hk)
    (fun _ r hr hc => .inl ⟨r, hr, hc, rfl, rfl⟩) fun _ hx => .inl hx
  have heq := clean_of_drop hdrop (h.tagged a) hclean
  rw [heq] at hclean ⊢
  exact h.assigned a ha hclean

theorem Ready.step_freeOperation (h : Ready home M s)
    (hstep : s.step home cfg entryNum (.freeOperation a k) = some s') : Ready home M s' := by
  simp only [step] at hstep
  split at hstep
  · obtain ⟨c, hfree, rfl⟩ := Option.map_eq_some_iff.mp hstep
    have hqueue : ∀ x ∈ s.queue.erase (a, k), x ∈ s.queue := fun x hx => List.mem_of_mem_erase hx
    by_cases hzero : (s.thread.table a).valAddr = 0
    · rw [CacheThread.freeOperation, if_pos hzero] at hfree
      cases hfree
      exact h.of_moves (c := s.thread) rfl h.moves_refl h.assigned (fun _ _ hk => .inl hk)
        (fun _ r hr hc => .inl ⟨r, hr, hc, rfl, rfl⟩) fun x hx => .inl (hqueue x hx)
    · rw [CacheThread.freeOperation, if_neg hzero] at hfree
      obtain ⟨d, -, hfree⟩ := Option.bind_eq_some_iff.mp hfree
      obtain ⟨e, he, hdrop⟩ := Option.bind_eq_some_iff.mp hfree
      have hcas := h.moves_casNull a
      have hsound : ∃ L, c.Sound M L none := by
        obtain ⟨L, hL⟩ := hcas.sound
        obtain ⟨t, hmem⟩ := (hL.owned d (by simp [he])).resolve_right (by simp)
        have htype : e.listType = t := by simpa [CacheThread.typeOf, he] using hL.typeOf t d hmem
        obtain ⟨c', L', hc', hs'⟩ := hL.drop (htype ▸ hmem)
        obtain rfl := Option.some.inj (hc'.symm.trans hdrop)
        exact ⟨L', hs'⟩
      refine h.of_moves (c := c) rfl (hcas.drop hsound hdrop) (fun b hb hclean => ?_) (fun _ _ hk => .inl hk)
        (fun _ r hr hc => .inl ⟨r, hr, hc, rfl, rfl⟩) fun x hx => .inl (hqueue x hx)
      have heq := clean_of_drop hdrop (hcas.tagged b) hclean
      rw [heq] at hclean ⊢
      exact h.assigned_setEntry (fun _ _ => rfl) (fun _ _ => rfl) b hb hclean
  · cases hstep

theorem Ready.step {x : FreeStep} (h : Ready home M s) (hstep : s.step home cfg entryNum x = some s') :
    Ready home M s' := by
  cases x with
  | unlink i k v => exact h.step_unlink hstep
  | push i => exact h.step_push hstep
  | free i => exact h.step_free hstep
  | removeIndex i => exact h.step_removeIndex hstep
  | insert l k val p => exact h.step_insert hstep
  | evict => exact h.step_evict hstep
  | freeOperation a k => exact h.step_freeOperation hstep

/-! ## Runs -/

/-- The step is not a `freeOperation`, or one that does what it should. -/
def FreesRight (s : FreeSystem) : FreeStep → Prop
  | .freeOperation a k => (a, k) ∈ s.queue → s.FreesOwn a k
  | _ => True

/-- A `freeOperation` comes after `AddressTable::free` and before the entry is assigned
again, and its `dc_entry` was not evicted. -/
def InTime (s : FreeSystem) : FreeStep → Prop
  | .freeOperation a k => (a, k) ∈ s.queue → s.Timely a
  | _ => True

instance (s : FreeSystem) : (x : FreeStep) → Decidable (s.InTime x)
  | .freeOperation a k => inferInstanceAs (Decidable ((a, k) ∈ s.queue → s.Timely a))
  | .unlink .. | .push _ | .free _ | .removeIndex _ | .insert .. | .evict => isTrue trivial

theorem Ready.freesRight_iff (h : Ready home M s) (x : FreeStep) : s.FreesRight x ↔ s.InTime x := by
  cases x with
  | freeOperation a k => exact imp_congr_right h.freesOwn_iff
  | _ => exact .rfl

/-- A run frees what it should exactly if every `freeOperation` comes in time. -/
theorem along_freesRight_iff (h : Ready home M s) (xs : List FreeStep) :
    Along (step home cfg entryNum) FreesRight s xs ↔ Along (step home cfg entryNum) InTime s xs := by
  induction xs generalizing s with
  | nil => exact .rfl
  | cons x xs ih =>
    exact and_congr (h.freesRight_iff x) (forall_congr' fun s₁ => imp_congr_right fun hs => ih (h.step hs))

theorem cachedPtr_user : (16 : Word).toNat < 2 ^ 47 := by decide

/-- The only `dc_entry` of `cachedKey`. -/
def cachedPtr : Ptr := ⟨16, cachedPtr_user⟩

/-- Key `5` is cached, and the next insert gets the first entry that is freed. -/
def cachedKey : FreeSystem where
  mts := {
    sys := { freshSystem mtsConfig with
      table := fun a => if a = (0, 0) then ⟨⟨0, 0⟩, putTaggedPtr cachedPtr.addr dcacheVal⟩ else alloc }
    index := fun k => if k = 5 then some (0, 0) else none
    pools := fun _ => ⟨1, true, []⟩
    keys := fun a => if a = (0, 0) then some 5 else none }
  cache := {
    table := fun _ => alloc
    heap := fun d => if d = cachedPtr then some ⟨(0, 0), 5, 50, .inactive, none, none, none, none⟩ else none
    list := fun t => match t with
      | .active => ⟨none, none, 1, 0⟩
      | .inactive => ⟨some cachedPtr, some cachedPtr, 1, 1⟩ }
  removes := fun _ => none
  queue := []

/-- The entry of the inactive list of `cachedKey`. -/
def cachedLists : ListType → List Ptr
  | .active => []
  | .inactive => [cachedPtr]

theorem heap_cachedKey {d : Ptr} {e : DcEntry AtId} (h : cachedKey.thread.heap d = some e) :
    d = cachedPtr ∧ e = ⟨(0, 0), 5, 50, .inactive, none, none, none, none⟩ := by
  by_cases hd : d = cachedPtr
  · refine ⟨hd, (Option.some.inj ?_).symm⟩
    rw [← h, hd]
    rfl
  · rw [show cachedKey.thread.heap d = none from if_neg hd] at h
    cases h

theorem table_cachedKey (a : AtId) : (a = (0, 0) ∧
    cachedKey.thread.table a = ⟨⟨0, 0⟩, putTaggedPtr cachedPtr.addr dcacheVal⟩) ∨
      a ≠ (0, 0) ∧ cachedKey.thread.table a = alloc := by
  by_cases ha : a = (0, 0)
  · exact .inl ⟨ha, if_pos ha⟩
  · exact .inr ⟨ha, if_neg ha⟩

theorem sound_cachedKey : cachedKey.thread.Sound (fun _ => 1) cachedLists none := by
  refine ⟨⟨fun t => ?_, fun t d hd => ?_, fun d hd => ?_, by simp, fun t => ?_, fun t => ?_⟩,
    fun d e he => ?_⟩
  · cases t with
    | active => exact ⟨rfl, rfl, trivial, List.nodup_nil, by simp [cachedLists]⟩
    | inactive =>
      refine ⟨rfl, rfl, ⟨rfl, rfl, trivial⟩, List.nodup_singleton _, fun d hd => ?_⟩
      obtain rfl := List.mem_singleton.mp hd
      exact Option.some_ne_none _
  · cases t with
    | active => simp [cachedLists] at hd
    | inactive =>
      obtain rfl := List.mem_singleton.mp hd
      rfl
  · obtain ⟨e, he⟩ := Option.ne_none_iff_exists'.mp hd
    exact .inl ⟨.inactive, by simp [cachedLists, (heap_cachedKey he).1]⟩
  · cases t <;> rfl
  · cases t <;> rfl
  · rw [(heap_cachedKey he).2]
    exact ⟨rfl, rfl⟩

theorem ready_cachedKey : Ready sampleHome (fun _ => 1) cachedKey := by
  refine ⟨⟨_, sound_cachedKey⟩, fun d hd => ?_, fun a => ?_, fun a ha htag => ?_, fun k a hk _ d x hp hx => ?_,
    fun _ _ hr => ?_, fun _ hx => ?_⟩
  · obtain ⟨e, he⟩ := Option.ne_none_iff_exists'.mp hd
    rw [(heap_cachedKey he).1]
    decide
  · rcases table_cachedKey a with ⟨-, h⟩ | ⟨-, h⟩
    · rw [h]
      exact tagged_putTaggedPtr _ (by decide)
    · rw [h]
      exact tagged_zero
  · rcases table_cachedKey a with ⟨-, h⟩ | ⟨-, h⟩
    · rw [h, getTag_putTaggedPtr cachedPtr (by decide)] at htag
      exact absurd htag (by decide)
    · rw [h]
      rfl
  · obtain ⟨e, he, rfl⟩ := CacheThread.data_eq_some.mp hx
    rw [(heap_cachedKey he).2]
    by_cases h₅ : k = 5
    · subst h₅
      exact ⟨Option.some.inj hk, rfl⟩
    · rw [show cachedKey.mts.index k = none from if_neg h₅] at hk
      cases hk
  · cases hr
  · cases hx

/-- The cache thread is told after the remove. -/
theorem along_freesRight_iff_cachedKey : Along (step sampleHome mtsConfig 1) FreesRight cachedKey
    [.unlink 0 5 0, .push 0, .free 0, .removeIndex 0, .freeOperation (0, 0) 5] :=
  (along_freesRight_iff ready_cachedKey _).mpr (by decide +kernel)

theorem not_freesOwn_of_none (h : s.thread.freeOperation a = none) : ¬ s.FreesOwn a k := by
  rintro ⟨⟨c, hc, -⟩, -⟩
  rw [h] at hc
  cases hc

/-- The tag is still on the pointer, or the `dc_entry` is gone, or the entry belongs to
another key, whose pointer is lost. -/
theorem freeOperation_not_freesOwn :
    (∃ s, run (step sampleHome mtsConfig 1) cachedKey [.unlink 0 5 0, .push 0] = some s ∧
      ((0, 0), 5) ∈ s.queue ∧ ¬ s.FreesOwn (0, 0) 5) ∧
    (∃ s, run (step sampleHome mtsConfig 1) cachedKey
        [.unlink 0 5 0, .push 0, .free 0, .removeIndex 0, .evict] = some s ∧
      ((0, 0), 5) ∈ s.queue ∧ ¬ s.FreesOwn (0, 0) 5) ∧
    ∃ s, run (step sampleHome mtsConfig 1) cachedKey
        [.unlink 0 5 0, .push 0, .free 0, .removeIndex 0, .insert (0, 0) 6 60 (entryPtr 0)] = some s ∧
      ((0, 0), 5) ∈ s.queue ∧ s.mts.index 6 = some (0, 0) ∧
      ((s.thread.casNull (0, 0)).table (0, 0)).valAddr ≠ (s.thread.table (0, 0)).valAddr := by
  have hrun : ∀ xs, ((run (step sampleHome mtsConfig 1) cachedKey xs).map fun s =>
      decide (((0, 0), 5) ∈ s.queue ∧ (s.thread.freeOperation (0, 0)).isNone = true)) = some true →
      ∃ s, run (step sampleHome mtsConfig 1) cachedKey xs = some s ∧ ((0, 0), 5) ∈ s.queue ∧
        ¬ s.FreesOwn (0, 0) 5 := by
    intro xs hxs
    obtain ⟨s, hs, hdec⟩ := Option.map_eq_some_iff.mp hxs
    obtain ⟨hq, hnone⟩ := of_decide_eq_true hdec
    exact ⟨s, hs, hq, not_freesOwn_of_none (Option.isNone_iff_eq_none.mp hnone)⟩
  refine ⟨hrun _ (by decide +kernel), hrun _ (by decide +kernel), ?_⟩
  have hreused : ((run (step sampleHome mtsConfig 1) cachedKey
      [.unlink 0 5 0, .push 0, .free 0, .removeIndex 0, .insert (0, 0) 6 60 (entryPtr 0)]).map fun s =>
      decide (((0, 0), 5) ∈ s.queue ∧ s.mts.index 6 = some (0, 0) ∧
        ((s.thread.casNull (0, 0)).table (0, 0)).valAddr ≠ (s.thread.table (0, 0)).valAddr)) = some true := by
    decide +kernel
  obtain ⟨s, hs, hdec⟩ := Option.map_eq_some_iff.mp hreused
  exact ⟨s, hs, of_decide_eq_true hdec⟩

end FreeSystem

end Hkv.Mts
