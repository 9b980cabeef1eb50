import Hkv.OpLog
import Hkv.TableSlots
import Mathlib.Data.List.FinRange

/-!
# The owner of an address-table entry

`remove` has the address of an entry only. It asks each table in turn whether the address
is its own, and the first one that says so puts the index of the entry on its free list.
A table also claims the address behind its last entry, which is the first entry of a table
mapped right behind it.
-/
namespace Hkv.Mts
open AddressTable

/-- `MTS_AT_SIZE` and `MTS_AT_ENTRY_SIZE`. -/
structure AtConfig where
  atSize : ℕ
  entrySize : ℕ
  pos : 0 < entrySize

def AtConfig.entryNum (cfg : AtConfig) : ℕ := cfg.atSize / cfg.entrySize

theorem AtConfig.entryNum_mul_le (cfg : AtConfig) : cfg.entryNum * cfg.entrySize ≤ cfg.atSize :=
  Nat.div_mul_le_self _ _

/-- The mappings of `n` tables, in user space and apart from each other. -/
structure Mapping (cfg : AtConfig) (n : ℕ) where
  atStartingAddr : Fin n → ℕ
  user : ∀ i, atStartingAddr i + cfg.atSize ≤ 2 ^ 47
  disjoint : ∀ i j, i ≠ j →
    atStartingAddr i + cfg.atSize ≤ atStartingAddr j ∨ atStartingAddr j + cfg.atSize ≤ atStartingAddr i

/-- The mapped entries by address, and the allocators. -/
structure AtState (n : ℕ) where
  mem : ℕ → AtEntry
  pools : Fin n → AtPool

namespace Mapping
variable {cfg : AtConfig} {n : ℕ} (m : Mapping cfg n)

/-- `&at_starting_addr[k]` of table `i`. -/
def addr (i : Fin n) (k : ℕ) : ℕ := m.atStartingAddr i + k * cfg.entrySize

def getAtId (i : Fin n) (p : ℕ) : ℤ :=
  if m.addr i 0 ≤ p ∧ p ≤ m.addr i cfg.entryNum then (i : ℕ) else -1

def getAtOffset (i : Fin n) (p : ℕ) : ℕ :=
  let interval := Pwb.unsignedDiff (m.addr i 1) (m.addr i 0)
  Pwb.unsignedDiff p (m.addr i 0) / interval

/-- The loop of `MTSImpl::remove` over the rest of the tables. Without a match the last
table is the one that is used. -/
def selectTable (p : ℕ) : List (Fin n) → Option (Fin n)
  | [] => none
  | [i] => some i
  | i :: i' :: is => if -1 < m.getAtId i p then some i else selectTable p (i' :: is)

/-- `AddressTable::free` of table `i`. -/
def free (s : AtState n) (i : Fin n) (p : ℕ) : AtState n where
  mem := Function.update s.mem p (State.freeEntry (s.mem p))
  pools := Function.update s.pools i
    { s.pools i with freeAtOffsetList := (s.pools i).freeAtOffsetList ++ [m.getAtOffset i p] }

/-- Step 3 of `MTSImpl::remove`. -/
def freeAtEntry (s : AtState n) (p : ℕ) : Option (AtState n) :=
  (m.selectTable p (List.finRange n)).map (m.free s · p)

/-- Table `i` without its addresses. -/
def table (s : AtState n) (i : Fin n) : Table := ⟨fun k => s.mem (m.addr i k), s.pools i⟩

variable {m} {i j : Fin n} {k k' p : ℕ} {is : List (Fin n)}

theorem lt_getAtId_iff : -1 < m.getAtId i p ↔ m.addr i 0 ≤ p ∧ p ≤ m.addr i cfg.entryNum := by
  unfold getAtId
  split
  · rename_i h
    exact iff_of_true (by omega) h
  · rename_i h
    exact iff_of_false (by omega) h

theorem addr_zero_le (i : Fin n) (k : ℕ) : m.addr i 0 ≤ m.addr i k := by simp [addr]

theorem addr_add_le (i : Fin n) (hk : k < cfg.entryNum) : m.addr i k + cfg.entrySize ≤ m.addr i 0 + cfg.atSize := by
  have hmul : (k + 1) * cfg.entrySize ≤ cfg.atSize :=
    (Nat.mul_le_mul_right _ hk).trans cfg.entryNum_mul_le
  rw [Nat.succ_mul] at hmul
  simp only [addr, Nat.zero_mul, Nat.add_zero]
  omega

theorem addr_injective (i : Fin n) : Function.Injective (m.addr i) := fun _ _ h =>
  Nat.eq_of_mul_eq_mul_right cfg.pos (Nat.add_left_cancel h)

theorem lt_getAtId_addr_iff (hk : k < cfg.entryNum) (hne : i ≠ j) :
    -1 < m.getAtId i (m.addr j k) ↔ k = 0 ∧ m.addr i cfg.entryNum = m.addr j 0 := by
  rw [lt_getAtId_iff]
  constructor
  · rintro ⟨hlow, hhigh⟩
    have hend := addr_add_le (m := m) j hk
    have hpos := cfg.pos
    rcases m.disjoint i j hne with h | h
    · -- table `i` ends at or before the first entry of table `j`
      have hi : m.addr i cfg.entryNum ≤ m.addr j 0 := by
        have := cfg.entryNum_mul_le
        simp only [addr, Nat.zero_mul, Nat.add_zero]
        omega
      have heq : m.addr j k = m.addr j 0 := by
        have := addr_zero_le (m := m) j k
        omega
      exact ⟨addr_injective j heq, by omega⟩
    · simp only [addr, Nat.zero_mul, Nat.add_zero] at hlow hend
      omega
  · rintro ⟨rfl, heq⟩
    exact ⟨heq ▸ addr_zero_le i _, heq.ge⟩

theorem lt_getAtId_self (hk : k < cfg.entryNum) : -1 < m.getAtId i (m.addr i k) :=
  lt_getAtId_iff.mpr ⟨addr_zero_le i k, Nat.add_le_add_left (Nat.mul_le_mul_right _ hk.le) _⟩

theorem selectTable_eq_some_iff (hsorted : is.Pairwise (· < ·)) (hj : j ∈ is) (hown : -1 < m.getAtId j p) :
    m.selectTable p is = some j ↔ ∀ i ∈ is, i < j → ¬ -1 < m.getAtId i p := by
  induction is with
  | nil => cases hj
  | cons i is ih =>
    cases is with
    | nil =>
      obtain rfl := List.mem_singleton.mp hj
      simp [selectTable]
    | cons i' is =>
      obtain ⟨hlt, hrest⟩ := List.pairwise_cons.mp hsorted
      rw [selectTable]
      rcases List.mem_cons.mp hj with rfl | hmem
      · rw [if_pos hown]
        refine iff_of_true rfl fun x hx hxj => ?_
        rcases List.mem_cons.mp hx with rfl | hx
        · exact absurd hxj (lt_irrefl _)
        · exact absurd (hlt x hx) (lt_asymm hxj)
      · by_cases hi : -1 < m.getAtId i p
        · rw [if_pos hi]
          refine iff_of_false (fun h => ?_) fun h => h i List.mem_cons_self (hlt j hmem) hi
          exact absurd (hlt j hmem) (Option.some.inj h ▸ lt_irrefl _)
        · rw [if_neg hi, ih hrest hmem]
          exact ⟨fun h => List.forall_mem_cons.mpr ⟨fun _ => hi, h⟩, fun h => (List.forall_mem_cons.mp h).2⟩

theorem selectTable_addr_iff (hk : k < cfg.entryNum) : m.selectTable (m.addr j k) (List.finRange n) = some j ↔
    ¬ (k = 0 ∧ ∃ i < j, m.addr i cfg.entryNum = m.addr j 0) := by
  rw [selectTable_eq_some_iff (List.pairwise_lt_finRange n) (List.mem_finRange j) (lt_getAtId_self hk)]
  constructor
  · rintro h ⟨hzero, i, hi, heq⟩
    exact h i (List.mem_finRange i) hi ((lt_getAtId_addr_iff hk hi.ne).mpr ⟨hzero, heq⟩)
  · intro h i _ hi hclaim
    obtain ⟨hzero, heq⟩ := (lt_getAtId_addr_iff hk hi.ne).mp hclaim
    exact h ⟨hzero, i, hi, heq⟩

theorem getAtOffset_addr (hk : k < cfg.entryNum) : m.getAtOffset i (m.addr i k) = k := by
  have hend := addr_add_le (m := m) i hk
  have huser := m.user i
  have hdiff : ∀ x, m.addr i x - m.addr i 0 = x * cfg.entrySize := fun x => by simp [addr]
  have hle : ∀ x, x * cfg.entrySize < 2 ^ 64 → Pwb.unsignedDiff (m.addr i x) (m.addr i 0) = x * cfg.entrySize :=
    fun x hx => by rw [Pwb.unsignedDiff_of_le (addr_zero_le i x) (hdiff x ▸ hx), hdiff]
  simp only [addr, Nat.zero_mul, Nat.add_zero] at hend
  rw [getAtOffset, hle k (by omega), hle 1 (by omega), Nat.one_mul, Nat.mul_div_cancel _ cfg.pos]

theorem addr_ne (hne : i ≠ j) (hk' : k' < cfg.entryNum) (hk : k < cfg.entryNum) : m.addr i k' ≠ m.addr j k := by
  intro heq
  have hi := addr_add_le (m := m) i hk'
  have hj := addr_add_le (m := m) j hk
  have hpos := cfg.pos
  rcases m.disjoint i j hne with h | h <;> simp only [addr, Nat.zero_mul, Nat.add_zero] at * <;> omega

theorem table_free (s : AtState n) (j : Fin n) (hk : k < cfg.entryNum) :
    m.table (m.free s j (m.addr j k)) j = (m.table s j).free k := by
  simp only [table, free, Table.free, Function.update_self, getAtOffset_addr hk, Table.mk.injEq, and_true]
  funext x
  by_cases hx : x = k
  · simp [hx]
  · rw [Function.update_of_ne hx, Function.update_of_ne fun heq => hx (addr_injective j heq)]

/-- The mapped memory and its allocators are the address tables of the store. -/
structure Mirrors (m : Mapping cfg n) (s : AtState n) (sys : Prism.System AtId) (pools : ℕ → AtPool) : Prop where
  mem : ∀ (i : Fin n), ∀ k < cfg.entryNum, s.mem (m.addr i k) = sys.table (i, k)
  pools : ∀ i : Fin n, s.pools i = pools i

/-- `State.remove` frees the entry by its table and index. The search by address does the same,
unless the entry is the first one of its table and an earlier table ends where it begins. -/
theorem Mirrors.remove {vsCfg : MtsConfig.Config} {s : AtState n} {t t' : State} {sys : Prism.System AtId}
    {key v : ℕ} (h : m.Mirrors s sys t.pools) (hindex : t.index key = some (↑j, k)) (hk : k < cfg.entryNum)
    (hunlink : State.unlinkValue vsCfg t.sys v (↑j, k) = some sys) (hremove : t.remove vsCfg key v = some t')
    (hown : ¬ (k = 0 ∧ ∃ i < j, m.addr i cfg.entryNum = m.addr j 0)) :
    ∃ s', m.freeAtEntry s (m.addr j k) = some s' ∧ m.Mirrors s' t'.sys t'.pools := by
  have hselect := (selectTable_addr_iff hk).mpr hown
  rw [State.remove, hindex, Option.bind_some, hunlink, Option.map_some] at hremove
  cases hremove
  refine ⟨m.free s j (m.addr j k), congrArg (Option.map _) hselect, fun i k' hk' => ?_, fun i => ?_⟩
  · by_cases heq : i = j ∧ k' = k
    · obtain ⟨rfl, rfl⟩ := heq
      simp only [free, Function.update_self, h.mem i k' hk']
    · have haddr : m.addr i k' ≠ m.addr j k := by
        by_cases hij : i = j
        · subst hij
          exact fun hsame => heq ⟨rfl, addr_injective i hsame⟩
        · exact addr_ne hij hk' hk
      have hid : ((i : ℕ), k') ≠ (↑j, k) := fun hsame =>
        heq ⟨Fin.ext (Prod.mk.inj hsame).1, (Prod.mk.inj hsame).2⟩
      simp only [free]
      rw [Function.update_of_ne haddr, Function.update_of_ne hid, h.mem i k' hk']
  · by_cases hij : i = j
    · subst hij
      simp only [free, Function.update_self, getAtOffset_addr hk, h.pools]
    · simp only [free]
      rw [Function.update_of_ne hij, Function.update_of_ne fun hsame => hij (Fin.ext hsame), h.pools]

/-- `remove` frees an entry in its own table, under its own index, unless it is the first
entry of the table and an earlier table ends where it begins. -/
theorem freeAtEntry_owner_iff (m : Mapping cfg n) (s : AtState n) (j : Fin n) (hk : k < cfg.entryNum) :
    (m.selectTable (m.addr j k) (List.finRange n) = some j ∧
      ∃ s', m.freeAtEntry s (m.addr j k) = some s' ∧ m.table s' j = (m.table s j).free k ∧
        ∀ i ≠ j, s'.pools i = s.pools i ∧ ∀ k' < cfg.entryNum, s'.mem (m.addr i k') = s.mem (m.addr i k')) ↔
      ¬ (k = 0 ∧ ∃ i < j, m.addr i cfg.entryNum = m.addr j 0) := by
  rw [← selectTable_addr_iff hk]
  refine ⟨And.left,
    fun hselect => ⟨hselect, _, congrArg (Option.map _) hselect, table_free s j hk, fun i hi => ?_⟩⟩
  refine ⟨Function.update_of_ne hi .., fun k' hk' => ?_⟩
  exact Function.update_of_ne (addr_ne hi hk' hk) ..

/-- The eight tables of `mts-config.h`, one behind the other. -/
def adjacent : Mapping ⟨2 ^ 30, 16, by decide⟩ 8 where
  atStartingAddr i := 2 ^ 30 * (i + 1)
  user i := by
    show 2 ^ 30 * (i.val + 1) + 2 ^ 30 ≤ 2 ^ 47
    omega
  disjoint i j hne := by
    have hval := Fin.val_ne_of_ne hne
    show 2 ^ 30 * (i.val + 1) + 2 ^ 30 ≤ 2 ^ 30 * (j.val + 1) ∨
      2 ^ 30 * (j.val + 1) + 2 ^ 30 ≤ 2 ^ 30 * (i.val + 1)
    omega

/-- Tables in which no entry was freed. -/
def unfreed : AtState 8 := ⟨fun _ => alloc, fun _ => ⟨6, false, []⟩⟩

theorem freeAtEntry_owner_iff_inside : adjacent.selectTable (adjacent.addr 3 5) (List.finRange 8) = some 3 ∧
    ∃ s', adjacent.freeAtEntry unfreed (adjacent.addr 3 5) = some s' ∧
      adjacent.table s' 3 = (adjacent.table unfreed 3).free 5 ∧
      ∀ i ≠ 3, s'.pools i = unfreed.pools i ∧
        ∀ k' < 2 ^ 26, s'.mem (adjacent.addr i k') = unfreed.mem (adjacent.addr i k') :=
  (freeAtEntry_owner_iff adjacent unfreed 3 (by decide)).mpr fun h => absurd h.1 (by decide)

/-- The first entry of table 1 is taken for an entry of table 0, and its index there is
behind the last one. -/
theorem freeAtEntry_behind : adjacent.selectTable (adjacent.addr 1 0) (List.finRange 8) = some 0 ∧
    (adjacent.freeAtEntry unfreed (adjacent.addr 1 0)).map (fun s =>
      ((s.pools 0).freeAtOffsetList, (s.pools 1).freeAtOffsetList)) =
        some ([(⟨2 ^ 30, 16, by decide⟩ : AtConfig).entryNum], []) := by
  decide

end Mapping

end Hkv.Mts
