import Hkv.DataMerge
import Hkv.DataScan
import Hkv.DataSplit

/-!
# Runs of the data layer

Whatever calls are made on a new data layer, and from whatever nodes of the list the search
layer lets them start, every call returns what a map would return.
-/
namespace Hkv.PacTree

open DoublyLinked RangePartition KeyedSort

inductive Call where
  | insert (key value : ℕ)
  | update (key value : ℕ)
  | remove (key : ℕ)
  | probe (key : ℕ)
  | lookup (key : ℕ)
  | scan (startKey range : ℕ)
  deriving DecidableEq

inductive Answer where
  | done (success : Bool)
  | value (value : Option ℕ)
  | values (rangeVector : List ℕ)
  deriving DecidableEq

namespace Call

def key : Call → ℕ
  | insert key _ => key
  | update key _ => key
  | remove key => key
  | probe key => key
  | lookup key => key
  | scan startKey _ => startKey

def isRemove : Call → Bool
  | remove _ => true
  | _ => false

/-- What a call does to a map. -/
def apply (m : OrderedMap ℕ ℕ) : Call → OrderedMap ℕ ℕ × Answer
  | insert key value => (if (m.find? key).isNone then m.set key value else m, .done (m.find? key).isNone)
  | update key value => (if (m.find? key).isSome then m.set key value else m, .done (m.find? key).isSome)
  | remove key => (if (m.find? key).isSome then m.erase key else m, .done (m.find? key).isSome)
  | probe key => (m, .done (m.find? key).isSome)
  | lookup key => (m, .value (m.find? key))
  | scan startKey range => (m, .values (((m.entriesFrom startKey).take range).map Prod.snd))

/-- The call on the list, from the node `head`. -/
def exec (S : StdSort) (fuel : ℕ) (l : LinkedList) (head : Ptr) : Call → Option (LinkedList × Answer)
  | insert key value => (l.insert S key value fuel head).map fun r => (r.1, .done r.2)
  | update key value => (l.update key value fuel head).map fun r => (r.1, .done r.2)
  | remove key => (l.remove key fuel head).map fun r => (r.1, .done r.2)
  | probe key => (l.probe key fuel head).map fun r => (r.1, .done r.2)
  | lookup key => (l.lookup key fuel head).map fun r => (r.1, .value r.2)
  | scan startKey range => (l.scan S startKey range fuel head).map fun r => (r.1, .values r.2)

end Call

def applyAll (m : OrderedMap ℕ ℕ) : List Call → OrderedMap ℕ ℕ × List Answer
  | [] => (m, [])
  | call :: calls =>
    let r := applyAll (call.apply m).1 calls
    (r.1, (call.apply m).2 :: r.2)

namespace ListNode

variable {n : ListNode} {k v k' v' lo hi : ℕ}

theorem holds_single (raw : ListNode) (keyHash : BitVec 8) :
    (raw.construct.insertAtIndex (k, v) 0 keyHash).Holds k' v' ↔ k' = k ∧ v' = v := by
  rw [holds_insertAtIndex (by decide) test_construct, or_iff_right not_holds_construct, Prod.mk.injEq, eq_comm,
    @eq_comm _ v v']

theorem atRest_single (raw : ListNode) (p : Ptr) (next prev : Option Ptr) (hlo : lo ≤ k) (hhi : k < hi) (v : ℕ) :
    AtRest 0 p { raw.construct.insertAtIndex (k, v) 0 (getKeyFingerPrint k) with
      nextPtr := next, prevPtr := prev, curPtr := p, min := lo, max := hi } := by
  have hsound : (raw.construct.insertAtIndex (k, v) 0 (getKeyFingerPrint k)).Sound :=
    sound_construct.insertAtIndex fun v => not_holds_construct
  have hfree : VersionedLock.Free 2 := ⟨rfl, Nat.two_pos⟩
  refine ⟨⟨hsound.finger, hsound.distinct⟩, fun k' v' hkv => ?_, rfl, rfl, hfree, le_rfl, Nat.zero_le 2,
    fun heq => ?_, hfree⟩
  · rw [((holds_single raw (getKeyFingerPrint k)).mp hkv).1]
    exact ⟨hlo, hhi⟩
  · have hne : (0 : ℕ) = 2 := heq
    omega

theorem full_allOnes (h : n.bitMap = BitVec.allOnes 64) : n.Full := by
  intro i hi
  rw [test, h, BitVec.getLsbD_allOnes]
  exact decide_eq_true hi

end ListNode

namespace LinkedList

/-- The calls one after the other, each from its own node. -/
def execAll (S : StdSort) (fuel : ℕ) (l : LinkedList) : List (Call × Ptr) → Option (LinkedList × List Answer)
  | [] => some (l, [])
  | (call, head) :: calls =>
    (call.exec S fuel l head).bind fun r => (r.1.execAll S fuel calls).map fun s => (s.1, r.2 :: s.2)

/-- The nodes that are reached from the first one. -/
def live (l : LinkedList) : List Ptr := (follow l.next l.size (some l.headPtr)).getD []

/-- Every call starts at a node that is in the list at that time. -/
def StartsLive (S : StdSort) (fuel : ℕ) (l : LinkedList) : List (Call × Ptr) → Prop
  | [] => True
  | (call, head) :: calls => head ∈ l.live ∧ ∀ r, call.exec S fuel l head = some r →
      r.1.StartsLive S fuel calls

variable {S : StdSort} {c fuel key : ℕ} {l : LinkedList} {ps : List Ptr} {p tail : Ptr} {m : OrderedMap ℕ ℕ}
  {call : Call} {calls : List (Call × Ptr)}

/-! ### The nodes of the chain -/

theorem Chain.length_lt_size (h : Chain c l ps tail) : ps.length < l.size := by
  have hsub : ps ++ [tail] ⊆ List.range l.size := fun p hp => List.mem_range.mpr (h.alloc p hp)
  have hle := (List.subperm_of_subset h.nodup hsub).length_le
  rw [List.length_append, List.length_range, List.length_singleton] at hle
  exact hle

theorem Chain.live_eq (h : Chain c l ps tail) : l.live = ps ++ [tail] := by
  have hhead : (ps ++ [tail]).head? = some l.headPtr := by
    rw [List.head?_append, h.head, Option.some_or]
  have hle : (ps ++ [tail]).length ≤ l.size := by
    rw [List.length_append, List.length_singleton]
    exact h.length_lt_size
  rw [live, ← hhead, follow_mono h.linked.follow_next hle, Option.getD_some]

/-! ### One call -/

section Calls

variable (h : Chain c l ps tail) (hm : Represents l ps m) (hc : c < VersionedLock.period) (hp : p ∈ ps ++ [tail])
  (hfuel : ps.length + 3 ≤ fuel)

include h hm hc hp hfuel

theorem Chain.probe (hkey : key < keyMax) : LinkedList.probe key fuel l p = some (l, (m.find? key).isSome) := by
  obtain ⟨q, hq, hrange, hcall⟩ := h.readLoop hc hkey hp hfuel (·.probe key)
  rw [LinkedList.probe, hcall, Option.some.injEq, Prod.mk.injEq, Bool.eq_iff_iff, Option.isSome_iff_exists,
    (h.node q hq).sound.probe_eq_true_iff]
  exact ⟨rfl, exists_congr fun v => (hm.find?_iff h hq hrange).symm⟩

theorem Chain.lookup (hkey : key < keyMax) : LinkedList.lookup key fuel l p = some (l, m.find? key) := by
  obtain ⟨q, hq, hrange, hcall⟩ := h.readLoop hc hkey hp hfuel (·.lookup key)
  rw [LinkedList.lookup, hcall, Option.some.injEq, Prod.mk.injEq]
  refine ⟨rfl, Option.ext fun v => ?_⟩
  rw [(h.node q hq).sound.lookup_eq_some_iff, hm.find?_iff h hq hrange]

/-- Every call returns what the map says and leaves a chain for the new map. Only a `remove` takes
nodes out of the chain. -/
theorem Chain.exec (hkey : call.key < keyMax) : ∃ l', call.exec S fuel l p = some (l', (call.apply m).2) ∧
    l'.size ≤ l.size + 1 ∧
      Valid (c + 1) l' tail (call.apply m).1 ∧
      (call.isRemove = false → Kept (c + 1) l ps l' tail (call.apply m).1) := by
  have hlater : ∀ {l' ps'}, Chain c l' ps' tail → Chain (c + 1) l' ps' tail := fun h =>
    { h with node := fun p hp => (h.node p hp).mono (Nat.le_succ c) }
  have hsame : Kept (c + 1) l ps l tail m := ⟨ps, hlater h, hm, rfl⟩
  cases call with
  | insert key value =>
    obtain ⟨l', hcall, hsize, hkept⟩ := h.insert (S := S) hm hc (show key < keyMax from hkey) hp hfuel
    exact ⟨l', by rw [Call.exec, hcall]; rfl, hsize, hkept.valid, fun _ => hkept⟩
  | update key value =>
    obtain ⟨l', hcall, hsize, hkept⟩ := h.update hm hc (show key < keyMax from hkey) hp hfuel
    exact ⟨l', by rw [Call.exec, hcall]; rfl, by omega, hkept.valid, fun _ => hkept⟩
  | remove key =>
    obtain ⟨l', hcall, hsize, hvalid⟩ := h.remove hm hc (show key < keyMax from hkey) hp hfuel
    exact ⟨l', by rw [Call.exec, hcall]; rfl, by omega, hvalid, nofun⟩
  | probe key =>
    have hcall := h.probe hm hc hp hfuel (show key < keyMax from hkey)
    exact ⟨l, by rw [Call.exec, hcall]; rfl, Nat.le_succ _, hsame.valid, fun _ => hsame⟩
  | lookup key =>
    have hcall := h.lookup hm hc hp hfuel (show key < keyMax from hkey)
    exact ⟨l, by rw [Call.exec, hcall]; rfl, Nat.le_succ _, hsame.valid, fun _ => hsame⟩
  | scan startKey range =>
    obtain ⟨l', hcall, hsize, ps', hchain', hm', hlength⟩ :=
      h.scan (S := S) hm hc (show startKey < keyMax from hkey) hp hfuel
    have hkept : Kept (c + 1) l ps l' tail m := ⟨ps', hlater hchain', hm', hlength⟩
    exact ⟨l', by rw [Call.exec, hcall]; rfl, by omega, hkept.valid, fun _ => hkept⟩

end Calls

theorem Valid.exec (h : Valid c l tail m) (hc : c < VersionedLock.period) (hkey : call.key < keyMax)
    (hp : p ∈ l.live) (hfuel : l.size + 2 ≤ fuel) :
    ∃ l', call.exec S fuel l p = some (l', (call.apply m).2) ∧ l'.size ≤ l.size + 1 ∧
      Valid (c + 1) l' tail (call.apply m).1 := by
  obtain ⟨ps, hchain, hm⟩ := h
  have hlength := hchain.length_lt_size
  rw [hchain.live_eq] at hp
  have henough : ps.length + 3 ≤ fuel := by omega
  obtain ⟨l', hcall, hsize, hvalid, -⟩ := hchain.exec (S := S) hm hc hp henough hkey
  exact ⟨l', hcall, hsize, hvalid⟩

/-! ### Runs -/

theorem Valid.execAll (h : Valid c l tail m) (hlen : c + calls.length ≤ VersionedLock.period)
    (hkeys : ∀ e ∈ calls, e.1.key < keyMax) (hlive : l.StartsLive S fuel calls)
    (hfuel : l.size + calls.length + 2 ≤ fuel) :
    ∃ l', l.execAll S fuel calls = some (l', (applyAll m (calls.map Prod.fst)).2) ∧
      Valid (c + calls.length) l' tail (applyAll m (calls.map Prod.fst)).1 := by
  induction calls generalizing c l m with
  | nil => exact ⟨l, rfl, h⟩
  | cons e calls ih =>
    obtain ⟨call, head⟩ := e
    rw [List.length_cons] at hlen hfuel
    rw [List.forall_mem_cons] at hkeys
    have hfuel₁ : l.size + 2 ≤ fuel := by omega
    obtain ⟨l₁, hcall, hsize, hvalid⟩ := h.exec (S := S) (by omega) hkeys.1 hlive.1 hfuel₁
    obtain ⟨l₂, hrest, hvalid'⟩ := ih hvalid (by omega) hkeys.2 (hlive.2 _ hcall) (by omega)
    refine ⟨l₂, ?_, ?_⟩
    · rw [LinkedList.execAll, hcall, Option.bind_some, hrest, Option.map_some]
      rfl
    · rw [List.length_cons, Nat.add_comm calls.length 1, ← Nat.add_assoc]
      exact hvalid'

theorem Valid.startsLive (h : Valid c l tail m) (hlen : c + calls.length ≤ VersionedLock.period)
    (hkeys : ∀ e ∈ calls, e.1.key < keyMax) (hheads : ∀ e ∈ calls, e.2 = tail)
    (hfuel : l.size + calls.length + 2 ≤ fuel) : l.StartsLive S fuel calls := by
  induction calls generalizing c l m with
  | nil => trivial
  | cons e calls ih =>
    obtain ⟨call, head⟩ := e
    rw [List.length_cons] at hlen hfuel
    rw [List.forall_mem_cons] at hkeys hheads
    have hlive : head ∈ l.live := by
      obtain ⟨ps, hchain, -⟩ := h
      rw [hchain.live_eq, show head = tail from hheads.1]
      exact List.mem_append_right ps List.mem_cons_self
    refine ⟨hlive, fun r hr => ?_⟩
    have hfuel₁ : l.size + 2 ≤ fuel := by omega
    obtain ⟨l₁, hcall, hsize, hvalid⟩ := h.exec (S := S) (by omega) hkeys.1 hlive hfuel₁
    rw [hcall, Option.some.injEq] at hr
    subst hr
    exact ih hvalid (by omega) hkeys.2 hheads.2 (show l₁.size + _ + 2 ≤ fuel by omega)

theorem chain_initializeList (raw : Ptr → ListNode) : Chain 0 (initializeList raw) [0] 1 ∧
    Represents (initializeList raw) [0] (OrderedMap.single 0 0) := by
  have hmax : 0 < keyMax := by decide
  have halloc : ∀ p ∈ [0] ++ [1], p < 2 := by decide
  have hfirst := ListNode.atRest_single (raw 0) 0 (some 1) none (le_refl 0) hmax 0
  constructor
  · refine ⟨⟨rfl, rfl, rfl, rfl, trivial⟩, by decide, halloc, rfl, ⟨rfl, hmax, rfl⟩, fun p hp => ?_, rfl,
      ?_, rfl, rfl⟩
    · rw [List.mem_singleton.mp hp]
      exact hfirst
    · exact ListNode.full_allOnes rfl
  · intro k v
    have hholds : ((initializeList raw).nodes 0).Holds k v ↔ k = 0 ∧ v = 0 :=
      ListNode.holds_single (raw 0) (getKeyFingerPrint 0)
    rw [OrderedMap.find?_single, ← hholds]
    simp

theorem valid_initializeList (raw : Ptr → ListNode) : Valid 0 (initializeList raw) 1 (OrderedMap.single 0 0) :=
  ⟨[0], chain_initializeList raw⟩

/-- The calls on a new list return what a map returns that holds key 0 with value 0, as long as
there are fewer calls than versions of a lock and every call starts at a node of the list. -/
theorem execAll_eq_applyAll (raw : Ptr → ListNode) (hlen : calls.length ≤ VersionedLock.period)
    (hkeys : ∀ e ∈ calls, e.1.key < keyMax) (hlive : (initializeList raw).StartsLive S fuel calls)
    (hfuel : calls.length + 4 ≤ fuel) :
    ((initializeList raw).execAll S fuel calls).map Prod.snd =
      some (applyAll (OrderedMap.single 0 0) (calls.map Prod.fst)).2 := by
  have hsize : (initializeList raw).size = 2 := rfl
  obtain ⟨l', hrun, -⟩ := (valid_initializeList raw).execAll (by omega) hkeys hlive (by omega)
  rw [hrun, Option.map_some]

/-- Inserts that fill the first node and split it, all from the last node. -/
def fill : List (Call × Ptr) := (List.range maxEntries).map fun i => (.insert (i + 1) i, 1)

/-- Removes that leave 1 key in the first node and 30 in the second one. -/
def thin : List (Call × Ptr) := ((List.range 31).map (· + 1) ++ [64, 63, 62]).map fun key => (.remove key, 1)

/-- The next remove after `fill ++ thin` merges the two nodes. -/
theorem execAll_eq_applyAll_fill_thin : ((initializeList fun _ => default).execAll insertion 110
    (fill ++ thin ++ [(.remove 0, 1), (.scan 0 3, 1)])).map Prod.snd =
      some (List.replicate 99 (.done true) ++ [.values [31, 32, 33]]) := by
  have hkeys : ∀ e ∈ fill ++ thin ++ [(Call.remove 0, 1), (Call.scan 0 3, 1)], e.1.key < keyMax := by
    decide +kernel
  have hlive : (initializeList fun _ => default).StartsLive insertion 110
      (fill ++ thin ++ [(Call.remove 0, 1), (Call.scan 0 3, 1)]) :=
    (valid_initializeList _).startsLive (by decide) hkeys (by decide) (by decide)
  rw [execAll_eq_applyAll (fun _ => default) (by decide) hkeys hlive (by decide)]
  decide +kernel

end LinkedList

end Hkv.PacTree
