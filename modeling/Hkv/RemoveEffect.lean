import Hkv.MtsImpl
import Hkv.ChunkSpace

/-!
# What a remove does to the rest of the store

`remove` takes the slot of a value from the wrong field: it reads `val_addr` as if it were
`vs_idx`. For a cached value it also uses a store number that was never set. And it does
not look whether the key is there.
-/
namespace Hkv.Mts
open MtsConfig TaggedPointer AddressTable ValueStorage Prism

/-- A slot: store, chunk and entry. -/
abbrev Slot := ℕ × ℕ × ℕ

def bit (s : System AtId) (x : Slot) : Bool := (s.stores x.1).bitmap x.2.1 x.2.2

/-- The slot that the entry of a key is linked to. -/
def slotOf (cfg : Config) (s : System AtId) (a : AtId) : Slot :=
  let vsIdx := (s.table a).vsIdx
  (vsIdx.vsId.toNat, vsIdx.vsOffset.toNat / cfg.entriesPerChunk, vsIdx.vsOffset.toNat % cfg.entriesPerChunk)

/-- The slot that `remove` clears; `v` is what the variable `vs_id` happens to hold. -/
def slotCleared (cfg : Config) (s : System AtId) (v : ℕ) (a : AtId) : Slot :=
  let offset := State.wrongOffset (s.table a)
  (if getValPos (s.table a) = some .dcache then v else (s.table a).vsIdx.vsId.toNat,
    offset / cfg.entriesPerChunk, offset % cfg.entriesPerChunk)

/-- The slot of the key loses its bit, no other slot does, and the other keys resolve as
before. -/
structure Gone (cfg : Config) (s s' : State) (k : ℕ) (a : AtId) : Prop where
  bits : ∀ x, bit s'.sys x = (bit s.sys x && !decide (x = slotOf cfg s.sys a))
  index : ∀ k' ≠ k, s'.index k' = s.index k'
  others : ∀ k' ≠ k, ∀ b, s.index k' = some b →
    s'.sys.table b = s.sys.table b ∧ s'.sys.resolve cfg b = s.sys.resolve cfg b

/-- An absent key changes nothing, a key with a slot is removed. -/
def RemovesCleanly (cfg : Config) (s : State) (k v : ℕ) : Prop :=
  match s.index k with
  | none => s.remove cfg k v = some s
  | some a => ∃ s', s.remove cfg k v = some s' ∧ Gone cfg s s' k a

variable {cfg : Config} {s s' : State} {k v : ℕ} {a : AtId}

/-- The store after `remove` has cleared a slot for `a`. -/
def clearSlot (cfg : Config) (s : System AtId) (v : ℕ) (a : AtId) : System AtId :=
  let x := slotCleared cfg s v a
  s.setStore x.1 (unlinkToAt cfg (s.store x.1) x.2.1 x.2.2)

theorem unlinkValue_of_linked (sys : System AtId) (hl : (sys.table a).Linked) : State.unlinkValue cfg sys v a =
    if (slotCleared cfg sys v a).2.1 < 2 * cfg.chunkNum then some (clearSlot cfg sys v a) else none := by
  by_cases htag : getTag (sys.table a).valAddr = dcacheVal
  · have hpos := (getValPos_eq_dcache_iff _).mpr ⟨hl, htag⟩
    simp only [State.unlinkValue, hpos, State.unlinkSlot, clearSlot, slotCleared, if_true]
  · have hpos := getValPos_of_linked hl htag
    simp only [State.unlinkValue, hpos, State.unlinkSlot, clearSlot, slotCleared, reduceCtorEq, if_false,
      Option.some.injEq]

theorem bit_setStore_unlink (sys : System AtId) (x y : Slot) :
    bit (sys.setStore x.1 (unlinkToAt cfg (sys.store x.1) x.2.1 x.2.2)) y = (bit sys y && !decide (y = x)) := by
  obtain ⟨u, c, e⟩ := x
  obtain ⟨u', c', e'⟩ := y
  by_cases hu : u' = u
  · subst hu
    simp only [bit, System.setStore, Function.update_self, unlinkToAt_bitmap, Prod.mk.injEq, true_and]
    rfl
  · simp [bit, System.setStore, hu]

theorem resolve_congr {sys sys' : System AtId} {b : AtId} (ht : sys'.table b = sys.table b) (hop : sys'.op = sys.op)
    (hd : ∀ v, (sys'.stores v).disk = (sys.stores v).disk) : sys'.resolve cfg b = sys.resolve cfg b := by
  simp only [System.resolve, ht, hop, hd]

theorem clearSlot_disk (sys : System AtId) (v : ℕ) (a : AtId) (u : ℕ) :
    ((clearSlot cfg sys v a).stores u).disk = (sys.stores u).disk := by
  by_cases hu : u = (slotCleared cfg sys v a).1
  · subst hu
    simp only [clearSlot, System.setStore, Function.update_self]
    exact (unlinkToAt_fields cfg _ _ _).2.1
  · simp [clearSlot, System.setStore, hu]

theorem clearSlot_table (sys : System AtId) (v : ℕ) (a : AtId) : (clearSlot cfg sys v a).table = sys.table :=
  (unlinkToAt_fields cfg (sys.store _) _ _).1

theorem clear_eq_iff (sys : System AtId) (x y : Slot) :
    (∀ z, (bit sys z && !decide (z = x)) = (bit sys z && !decide (z = y))) ↔
      x = y ∨ bit sys x = false ∧ bit sys y = false := by
  constructor
  · intro h
    by_cases hxy : x = y
    · exact .inl hxy
    · have hx := h x
      have hy := h y
      simp only [decide_true, Bool.not_true, Bool.and_false, hxy, decide_false, Bool.not_false, Bool.and_true,
        Ne.symm hxy] at hx hy
      exact .inr ⟨hx.symm, hy⟩
  · rintro (rfl | ⟨hx, hy⟩) z
    · rfl
    · by_cases hzx : z = x
      · simp [hzx, hx]
      · by_cases hzy : z = y
        · simp [hzy, hy]
        · simp [hzx, hzy]

/-- In a store whose keys have entries of their own, and for a key that is absent or has a
slot, `remove` does what it should if and only if the key is there and the slot it clears
is the slot of the key, or neither has its bit set. -/
theorem remove_cleanly_iff (cfg : Config) (s : State) (k v : ℕ) (hinv : Inv s)
    (hpos : ∀ a, s.index k = some a → (s.sys.table a).Linked) :
    RemovesCleanly cfg s k v ↔ ∃ a, s.index k = some a ∧ (slotCleared cfg s.sys v a).2.1 < 2 * cfg.chunkNum ∧
      (slotCleared cfg s.sys v a = slotOf cfg s.sys a ∨
        bit s.sys (slotCleared cfg s.sys v a) = false ∧ bit s.sys (slotOf cfg s.sys a) = false) := by
  unfold RemovesCleanly
  cases ha : s.index k with
  | none =>
    have hcrash : s.remove cfg k v = none := by simp [State.remove, ha]
    simp [hcrash]
  | some a =>
    have hl := hpos a ha
    simp only [State.remove, ha, Option.bind_some, unlinkValue_of_linked s.sys hl, Option.some.injEq, exists_eq_left']
    split_ifs with hchunk
    · simp only [Option.map_some, Option.some.injEq, exists_eq_left', hchunk, true_and]
      rw [← clear_eq_iff]
      constructor
      · intro h z
        rw [← h.bits z]
        exact (bit_setStore_unlink s.sys _ z).symm
      · intro h
        refine ⟨fun z => ?_, fun k' hk' => Function.update_of_ne hk' _ _, fun k' hk' b hb => ?_⟩
        · rw [← h z]
          exact bit_setStore_unlink s.sys _ z
        · have hba : b ≠ a := by
            rintro rfl
            exact hk' (Option.some.inj ((hinv.index k' b hb).symm.trans (hinv.index k b ha)))
          have htable : Function.update (clearSlot cfg s.sys v a).table a
              (State.freeEntry ((clearSlot cfg s.sys v a).table a)) b = s.sys.table b := by
            rw [Function.update_of_ne hba, clearSlot_table]
          exact ⟨htable, resolve_congr htable rfl (clearSlot_disk s.sys v a)⟩
    · simp [hchunk]

attribute [local instance] oplogNum_neZero entryNum_neZero

/-- Keys `5` and `6`, with the slots at `offset` and `3 * 2 ^ 24` of the first store. -/
def twoKeys (offset : ℕ) : State where
  sys := { freshSystem mtsConfig with
    table := fun a =>
      ⟨⟨0, if a = (0, 0) then offset else 3 * 2 ^ 24⟩, putTaggedPtr (entryPtr 0).addr valuestorageVal⟩
    stores := fun _ => { freshStore mtsConfig with
      bitmap := fun c e => decide (c = offset / 128 ∧ e = offset % 128 ∨ c = 3 * 2 ^ 17 ∧ e = 0) } }
  index k := if k = 5 then some (0, 0) else if k = 6 then some (0, 1) else none
  pools _ := ⟨2, false, []⟩
  keys a := if a = (0, 0) then some 5 else if a = (0, 1) then some 6 else none

theorem inv_twoKeys (offset : ℕ) : Inv (twoKeys offset) := by
  refine ⟨fun t o ho => ⟨?_, by simp [twoKeys]⟩, fun _ => List.nodup_nil,
    fun _ _ ho => absurd ho List.not_mem_nil, fun k a ha => ?_⟩
  · by_contra hlt
    have h₀ : (t, o) ≠ (0, 0) := fun h => hlt (by rw [(Prod.mk.inj h).2]; simp [twoKeys])
    have h₁ : (t, o) ≠ (0, 1) := fun h => hlt (by rw [(Prod.mk.inj h).2]; simp [twoKeys])
    simp [twoKeys, h₀, h₁] at ho
  · by_cases h₅ : k = 5
    · subst h₅
      obtain rfl : (0, 0) = a := by simpa [twoKeys] using ha
      rfl
    · by_cases h₆ : k = 6
      · subst h₆
        obtain rfl : (0, 1) = a := by simpa [twoKeys] using ha
        rfl
      · simp [twoKeys, h₅, h₆] at ha

theorem linked_twoKeys (offset : ℕ) (a : AtId) : ((twoKeys offset).sys.table a).Linked := by
  refine ⟨show (-1 : ℤ) < 0 by decide, ?_⟩
  simp only [twoKeys]
  omega

/-- The upper half of the pointer of key `6` happens to be its slot. -/
theorem remove_cleanly_iff_twoKeys : RemovesCleanly mtsConfig (twoKeys 3) 6 0 :=
  (remove_cleanly_iff mtsConfig (twoKeys 3) 6 0 (inv_twoKeys 3) fun a _ => linked_twoKeys 3 a).mpr
    ⟨(0, 1), rfl, by decide +kernel, .inl (by decide +kernel)⟩

/-- An absent key is looked up through a null pointer. And the remove of key `5` leaves its
own bit and clears that of key `6`. -/
theorem remove_not_cleanly : (twoKeys 3).index 7 = none ∧ (twoKeys 3).remove mtsConfig 7 0 = none ∧
    ∃ s', (twoKeys 3).remove mtsConfig 5 0 = some s' ∧
      bit s'.sys (slotOf mtsConfig (twoKeys 3).sys (0, 0)) = true ∧
      bit (twoKeys 3).sys (slotOf mtsConfig (twoKeys 3).sys (0, 1)) = true ∧
      bit s'.sys (slotOf mtsConfig (twoKeys 3).sys (0, 1)) = false := by
  refine ⟨rfl, rfl, ?_⟩
  have hrun : (((twoKeys 3).remove mtsConfig 5 0).map fun s' => (bit s'.sys (slotOf mtsConfig (twoKeys 3).sys (0, 0)),
      bit s'.sys (slotOf mtsConfig (twoKeys 3).sys (0, 1)))) = some (true, false) := by
    decide +kernel
  obtain ⟨s', hs', hfacts⟩ := Option.map_eq_some_iff.mp hrun
  simp only [Prod.mk.injEq] at hfacts
  exact ⟨s', hs', hfacts.1, by decide +kernel, hfacts.2⟩

end Hkv.Mts
