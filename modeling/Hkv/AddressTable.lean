import Hkv.TaggedPointer

/-!
# Address-table entries

An `at_entry` says where the value of a key is: `vs_idx` names a slot of a value
storage or holds a negative marker, and `val_addr` is a tagged pointer into a
write buffer or the DRAM cache.
-/
namespace Hkv.AddressTable
open MtsConfig TaggedPointer

structure VsIdx where
  vsId : ℤ
  vsOffset : ℤ
  deriving DecidableEq

structure AtEntry where
  vsIdx : VsIdx
  valAddr : Word
  deriving DecidableEq

/-- `AddressTable::alloc`: the entry that `assign` copies into a free slot. -/
def alloc : AtEntry := ⟨⟨-1, -1⟩, 0⟩

/-- `AddressTable::link_to_ol` of an insert. Only the pointer is written. -/
def linkToOl (e : AtEntry) (op : Ptr) : AtEntry :=
  { e with valAddr := putTaggedPtr op.addr oplogVal }

/-- `AddressTable::link_to_ol` of an update. It returns the past slot and marks the
entry as updated. -/
def linkToOlPast (e : AtEntry) (op : Ptr) : AtEntry × VsIdx :=
  (⟨⟨-1, -1⟩, putTaggedPtr op.addr oplogVal⟩, e.vsIdx)

/-- Both halves of `vs_idx` name a slot. -/
def AtEntry.Linked (e : AtEntry) : Prop := -1 < e.vsIdx.vsId ∧ -1 < e.vsIdx.vsOffset

instance (e : AtEntry) : Decidable e.Linked := inferInstanceAs (Decidable (_ ∧ _))

/-- The three places `MTSImpl::get_val_pos` can name. -/
inductive ValPos where
  | dcache | oplog | valuestorage (vsId : ℤ)
  deriving DecidableEq

/-- `MTSImpl::get_val_pos`. `none` is control running off the end of the function. -/
def getValPos (e : AtEntry) : Option ValPos :=
  if -1 < e.vsIdx.vsId ∧ -1 < e.vsIdx.vsOffset then
    if getTag e.valAddr = dcacheVal then some .dcache
    else some (.valuestorage e.vsIdx.vsId)
  else if getTag e.valAddr = oplogVal then some .oplog
  else none

theorem getValPos_of_linked {e : AtEntry} (h : e.Linked) (ht : getTag e.valAddr ≠ dcacheVal) :
    getValPos e = some (.valuestorage e.vsIdx.vsId) := by
  unfold AtEntry.Linked at h
  simp [getValPos, h, ht]

theorem getValPos_eq_dcache_iff (e : AtEntry) :
    getValPos e = some .dcache ↔ e.Linked ∧ getTag e.valAddr = dcacheVal := by
  unfold AtEntry.Linked getValPos
  split_ifs <;> simp_all

theorem getValPos_eq_oplog_iff (e : AtEntry) :
    getValPos e = some .oplog ↔ ¬ e.Linked ∧ getTag e.valAddr = oplogVal := by
  unfold AtEntry.Linked getValPos
  split_ifs <;> simp_all

theorem getValPos_eq_valuestorage_iff (e : AtEntry) (vsId : ℤ) : getValPos e = some (.valuestorage vsId) ↔
    e.Linked ∧ getTag e.valAddr ≠ dcacheVal ∧ e.vsIdx.vsId = vsId := by
  unfold AtEntry.Linked getValPos
  split_ifs <;> simp_all

/-! ## Log entries -/

/-- `op_entry_t`: an update and the address-table entry it is for. -/
structure OpEntry (A : Type) where
  key : ℕ
  val : ℕ
  opa : Option A
  deriving DecidableEq

/-- The validation test of `OpLog::reclaim`: the entry still points to this update. -/
def AtEntry.PointsTo (e : AtEntry) (op : Ptr) : Prop := getUntaggedPtr e.valAddr = op.addr

instance (e : AtEntry) (op : Ptr) : Decidable (e.PointsTo op) := inferInstanceAs (Decidable (_ = _))

theorem AtEntry.PointsTo.inj {e : AtEntry} {p q : Ptr} (hp : e.PointsTo p) (hq : e.PointsTo q) : p = q := by
  have ha : p.addr = q.addr := hp.symm.trans hq
  cases p
  cases q
  cases ha
  rfl

@[simp] theorem pointsTo_putTaggedPtr (i : VsIdx) (p q : Ptr) (t : ℕ) :
    AtEntry.PointsTo ⟨i, putTaggedPtr p.addr t⟩ q ↔ p = q := by
  constructor
  · intro h
    exact AtEntry.PointsTo.inj (e := ⟨i, putTaggedPtr p.addr t⟩) (by simp [AtEntry.PointsTo]) h
  · rintro rfl
    simp [AtEntry.PointsTo]

end Hkv.AddressTable
