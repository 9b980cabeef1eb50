import Hkv.LockedNodes

/-!
# Where calls on the data layer may start

The search layer names the node from which a call walks to its key. It lags behind the data
layer: new nodes reach it late, and nodes that were merged away stay in it. Without removes
that does no harm, since every node that was ever made is still in the list. A node that
`mergeWithNext` has emptied stays locked, and calls that start there for a key of its old range
never return. A node that `mergeWithPrev` has emptied is open, and what is inserted there is
lost.
-/
namespace Hkv.PacTree.LinkedList

open DoublyLinked RangePartition KeyedSort

variable {S : StdSort} {c fuel key : ℕ} {l l' : LinkedList} {ps xs ys : List Ptr} {p q a b tail : Ptr}
  {m : OrderedMap ℕ ℕ} {call : Call} {calls : List (Call × Ptr)}

/-! ### Without removes -/

/-- Every call starts at a node that has been made by then. -/
def StartsAllocated (S : StdSort) (fuel : ℕ) (l : LinkedList) : List (Call × Ptr) → Prop
  | [] => True
  | (call, head) :: calls => head < l.size ∧ ∀ r, call.exec S fuel l head = some r →
      r.1.StartsAllocated S fuel calls

/-- All nodes that have been made are in the chain. -/
def Intact (c : ℕ) (l : LinkedList) (tail : Ptr) (m : OrderedMap ℕ ℕ) : Prop :=
  ∃ ps, Chain c l ps tail ∧ Represents l ps m ∧ l.size = ps.length + 1

theorem Intact.mem_live (h : Intact c l tail m) (hp : p < l.size) : p ∈ l.live := by
  obtain ⟨ps, hchain, -, hsize⟩ := h
  have hsub : ps ++ [tail] ⊆ List.range l.size := fun p hp => List.mem_range.mpr (hchain.alloc p hp)
  have hperm : (ps ++ [tail]).Perm (List.range l.size) := by
    refine (List.subperm_of_subset hchain.nodup hsub).perm_of_length_le ?_
    rw [List.length_range, List.length_append, List.length_singleton, hsize]
  rw [hchain.live_eq]
  exact hperm.mem_iff.mpr (List.mem_range.mpr hp)

theorem Intact.valid (h : Intact c l tail m) : Valid c l tail m := by
  obtain ⟨ps, hchain, hm, -⟩ := h
  exact ⟨ps, hchain, hm⟩

theorem Intact.exec (h : Intact c l tail m) (hc : c < VersionedLock.period) (hkey : call.key < keyMax)
    (hkeep : call.isRemove = false) (hp : p < l.size) (hfuel : l.size + 2 ≤ fuel) :
    ∃ l', call.exec S fuel l p = some (l', (call.apply m).2) ∧ l'.size ≤ l.size + 1 ∧
      Intact (c + 1) l' tail (call.apply m).1 := by
  have hlive := h.mem_live hp
  obtain ⟨ps, hchain, hm, hlength⟩ := h
  rw [hchain.live_eq] at hlive
  have henough : ps.length + 3 ≤ fuel := by omega
  obtain ⟨l', hcall, hsize, -, hkept⟩ := hchain.exec (S := S) hm hc hlive henough hkey
  obtain ⟨ps', hchain', hm', hlength'⟩ := hkept hkeep
  exact ⟨l', hcall, hsize, ps', hchain', hm', by omega⟩

theorem Intact.startsLive (h : Intact c l tail m) (hlen : c + calls.length ≤ VersionedLock.period)
    (hkeys : ∀ e ∈ calls, e.1.key < keyMax) (hkeep : ∀ e ∈ calls, e.1.isRemove = false)
    (hstarts : l.StartsAllocated S fuel calls) (hfuel : l.size + calls.length + 2 ≤ fuel) :
    l.StartsLive S fuel calls := by
  induction calls generalizing c l m with
  | nil => trivial
  | cons e calls ih =>
    obtain ⟨call, head⟩ := e
    rw [List.length_cons] at hlen hfuel
    rw [List.forall_mem_cons] at hkeys hkeep
    refine ⟨h.mem_live hstarts.1, fun r hr => ?_⟩
    have hfuel₁ : l.size + 2 ≤ fuel := by omega
    obtain ⟨l₁, hcall, hsize, hintact⟩ := h.exec (S := S) (by omega) hkeys.1 hkeep.1 hstarts.1 hfuel₁
    rw [hcall, Option.some.injEq] at hr
    subst hr
    exact ih hintact (by omega) hkeys.2 hkeep.2 (hstarts.2 _ hcall) (show l₁.size + _ + 2 ≤ fuel by omega)

/-- Without removes the calls on a new list return what a map returns, from whatever nodes that
have been made the search layer lets them start. -/
theorem execAll_of_startsAllocated (raw : Ptr → ListNode) (hlen : calls.length ≤ VersionedLock.period)
    (hkeys : ∀ e ∈ calls, e.1.key < keyMax) (hkeep : ∀ e ∈ calls, e.1.isRemove = false)
    (hstarts : (initializeList raw).StartsAllocated S fuel calls) (hfuel : calls.length + 4 ≤ fuel) :
    ((initializeList raw).execAll S fuel calls).map Prod.snd =
      some (applyAll (OrderedMap.single 0 0) (calls.map Prod.fst)).2 := by
  have hsize : (initializeList raw).size = 2 := rfl
  have hintact : Intact 0 (initializeList raw) 1 (OrderedMap.single 0 0) :=
    ⟨[0], (chain_initializeList raw).1, (chain_initializeList raw).2, rfl⟩
  have hlive := hintact.startsLive (by omega) hkeys hkeep hstarts (by omega)
  obtain ⟨l', hrun, -⟩ := hintact.valid.execAll (by omega) hkeys hlive (by omega)
  rw [hrun, Option.map_some]

theorem Intact.startsAllocated (h : Intact c l tail m) (hlen : c + calls.length ≤ VersionedLock.period)
    (hkeys : ∀ e ∈ calls, e.1.key < keyMax) (hkeep : ∀ e ∈ calls, e.1.isRemove = false)
    (hheads : ∀ e ∈ calls, e.2 = 0) (hfuel : l.size + calls.length + 2 ≤ fuel) :
    l.StartsAllocated S fuel calls := by
  induction calls generalizing c l m with
  | nil => trivial
  | cons e calls ih =>
    obtain ⟨call, head⟩ := e
    rw [List.length_cons] at hlen hfuel
    rw [List.forall_mem_cons] at hkeys hkeep hheads
    obtain rfl : head = 0 := hheads.1
    have hmade : 0 < l.size := by
      obtain ⟨ps, -, -, hsize⟩ := h
      omega
    refine ⟨hmade, fun r hr => ?_⟩
    have hfuel₁ : l.size + 2 ≤ fuel := by omega
    obtain ⟨l₁, hcall, hsize, hintact⟩ := h.exec (S := S) (by omega) hkeys.1 hkeep.1 hmade hfuel₁
    rw [hcall, Option.some.injEq] at hr
    subst hr
    exact ih hintact (by omega) hkeys.2 hkeep.2 hheads.2 (show l₁.size + _ + 2 ≤ fuel by omega)

/-- The search layer has not heard of the new node when the first one has been split. -/
theorem execAll_of_startsAllocated_fill : ((initializeList fun _ => default).execAll insertion 70
    (fill.map (fun e => (e.1, 0)) ++ [(.lookup 64, 0), (.lookup 65, 0)])).map Prod.snd =
      some (List.replicate 64 (.done true) ++ [.value (some 63), .value none]) := by
  have hkeys : ∀ e ∈ fill.map (fun e => (e.1, 0)) ++ [(Call.lookup 64, 0), (Call.lookup 65, 0)],
      e.1.key < keyMax := by decide +kernel
  have hkeep : ∀ e ∈ fill.map (fun e => (e.1, 0)) ++ [(Call.lookup 64, 0), (Call.lookup 65, 0)],
      e.1.isRemove = false := by decide
  have hchain := chain_initializeList fun _ => default
  have hintact : Intact 0 (initializeList fun _ => default) 1 (OrderedMap.single 0 0) :=
    ⟨[0], hchain.1, hchain.2, rfl⟩
  have hstarts : (initializeList fun _ => default).StartsAllocated insertion 70
      (fill.map (fun e => (e.1, 0)) ++ [(Call.lookup 64, 0), (Call.lookup 65, 0)]) :=
    hintact.startsAllocated (by decide) hkeys hkeep (by decide) (by decide)
  rw [execAll_of_startsAllocated (fun _ => default) (by decide) hkeys hkeep hstarts (by decide)]
  decide +kernel

/-! ### Nodes that were merged away -/

theorem Chain.remove_at {v : ℕ} (h : Chain c l (xs ++ q :: ys) tail) (hc : c < VersionedLock.period)
    (hkey : (l.nodes q).checkRange key = true) (hholds : (l.nodes q).Holds key v) (hp : p ∈ xs ++ q :: ys ++ [tail])
    (hfuel : (xs ++ q :: ys).length + 3 ≤ fuel) :
    ∃ i, (l.nodes q).test i = true ∧ ((l.nodes q).keyArray i).1 = key ∧
      LinkedList.remove key fuel l p = (l.removeSection q i).map fun l => (l, true) := by
  have hbound := ListNode.checkRange_eq_true_iff.mp hkey
  have hmax : key < keyMax := lt_of_lt_of_le hbound.2 h.ranges.bounds.2.2
  have hsound := (h.node q (by simp)).sound
  obtain ⟨xs', q', ys', hsplit, hq, hcall⟩ := h.writeLoop hc hmax hp hfuel (nodeRemove key)
    fun l head => (l.nodes head).prevPtr.getD head
  obtain rfl : q' = q := h.ranges.unique (hsplit ▸ by simp) (by simp) (ListNode.checkRange_eq_true_iff.mp hq) hbound
  cases hindex : (l.nodes q').getKeyIndex key (getKeyFingerPrint key) with
  | none => exact absurd hholds (hsound.getKeyIndex_eq_none_iff.mp hindex v)
  | some i =>
    obtain ⟨hi, hkeyi⟩ := hsound.getKeyIndex_eq_some_iff.mp hindex
    refine ⟨i, hi, hkeyi, ?_⟩
    rw [LinkedList.remove, hcall, nodeRemove_of_index hindex]

/-- A `remove` merges the node `b` into the node `a` before it and leaves `b` locked. Whatever
calls return after that, a call other than `remove` that starts at `b` with a key of its old
range does not. -/
theorem Chain.stuck_at_merged {v : ℕ} (h : Chain c l (xs ++ a :: b :: ys) tail) (hc : c < VersionedLock.period)
    (hkey : (l.nodes a).checkRange key = true) (hholds : (l.nodes a).Holds key v)
    (hsmall : (l.nodes a).getNumEntries + (l.nodes b).getNumEntries < maxEntries / 2)
    (hp : p ∈ xs ++ a :: b :: ys ++ [tail]) (hfuel : (xs ++ a :: b :: ys).length + 3 ≤ fuel) :
    ∃ l', LinkedList.remove key fuel l p = some (l', true) ∧
      ∀ fuel₁ calls r, l'.execAll S fuel₁ calls = some r →
        ∀ call : Call, (l.nodes b).checkRange call.key = true → call.isRemove = false →
          (∀ startKey, call ≠ .scan startKey 0) → ∀ fuel₂, call.exec S fuel₂ r.1 b = none := by
  obtain ⟨i, -, -, hremove⟩ := h.remove_at hc hkey hholds hp hfuel
  obtain ⟨l', hl', hmerged, hb⟩ := h.section_mergeWithNext (i := i) hc hsmall
  rw [hl', Option.map_some] at hremove
  have hnode := h.node b (by simp)
  have heven := hnode.free.1
  have hlt := hnode.version_lt hc
  have hver : (l'.nodes b).verLock = (l.nodes b).verLock + 1 := by
    rw [hb]
    rfl
  -- the version before was even, so the next one is below the next generation too
  have hheld : Held b (l.low b) (l.high b) l' := by
    refine ⟨hmerged.size ▸ h.alloc b (by simp), by omega, by omega, ?_, ?_⟩
    · rw [hb]
      rfl
    · rw [hb]
      rfl
  refine ⟨l', hremove, fun fuel₁ calls r hr call hcall hkeep hscan fuel₂ => ?_⟩
  have hrange := ListNode.checkRange_eq_true_iff.mp hcall
  exact (hheld.execAll hr).exec_eq_none hrange.1 hrange.2 hkeep hscan

theorem exists_execAll_fill_thin : ∃ l answers,
    (initializeList fun _ => default).execAll insertion 110 (fill ++ thin) =
    some (l, answers) ∧ Chain 98 l [0, 2] 1 ∧
      Represents l [0, 2] (applyAll (OrderedMap.single 0 0) ((fill ++ thin).map Prod.fst)).1 ∧
      (l.nodes 0).getNumEntries = 1 ∧ (l.nodes 2).getNumEntries = 30 ∧ (l.nodes 1).getNumEntries = 64 ∧
      l.next 2 = some 1 ∧ (l.nodes 0).checkRange 0 = true ∧ (l.nodes 0).Holds 0 0 ∧
      (∀ key ∈ [40, 61, 63], (l.nodes 2).checkRange key = true) ∧ (l.nodes 2).Holds 61 60 := by
  have hkeys : ∀ e ∈ fill ++ thin, e.1.key < keyMax := by decide +kernel
  have hlive : (initializeList fun _ => default).StartsLive insertion 110 (fill ++ thin) :=
    (valid_initializeList _).startsLive (by decide) hkeys (by decide) (by decide)
  obtain ⟨l, hrun, ps, hchain, hm⟩ :=
    (valid_initializeList fun _ => default).execAll (by decide) hkeys hlive (by decide)
  have heval : ((initializeList fun _ => default).execAll insertion 110 (fill ++ thin)).map (fun r =>
      r.1.live == [0, 2, 1] && (r.1.nodes 0).getNumEntries == 1 && (r.1.nodes 2).getNumEntries == 30 &&
        (r.1.nodes 1).getNumEntries == 64 && r.1.next 2 == some 1 && (r.1.nodes 0).checkRange 0 &&
        ((r.1.nodes 0).test 0 && (r.1.nodes 0).keyArray 0 == (0, 0)) &&
        [40, 61, 63].all (r.1.nodes 2).checkRange &&
        ((r.1.nodes 2).test 29 && (r.1.nodes 2).keyArray 29 == (61, 60))) = some true := by decide +kernel
  rw [hrun, Option.map_some, Option.some.injEq] at heval
  simp only [Bool.and_eq_true, beq_iff_eq, List.all_eq_true] at heval
  obtain ⟨⟨⟨⟨⟨⟨⟨⟨hnodes, h0⟩, h2⟩, h1⟩, hnext⟩, hrange⟩, hentry⟩, hranges⟩,
    hentry'⟩ := heval
  rw [hchain.live_eq] at hnodes
  obtain rfl : ps = [0, 2] := List.append_cancel_right (hnodes.trans (show _ = [0, 2] ++ [1] from rfl))
  exact ⟨l, _, hrun, hchain, hm, h0, h2, h1, hnext, hrange, ⟨0, hentry⟩, hranges, ⟨29, hentry'⟩⟩

theorem stuck_at_merged_fill_thin : ∃ l answers l', (initializeList fun _ => default).execAll insertion 110
    (fill ++ thin) = some (l, answers) ∧ LinkedList.remove 0 110 l 1 = some (l', true) ∧
      ∀ fuel calls r, l'.execAll insertion fuel calls = some r →
        (Call.lookup 40).exec insertion fuel r.1 2 = none := by
  obtain ⟨l, answers, hrun, hchain, -, h0, h2, -, -, hrange, hholds, hranges, -⟩ := exists_execAll_fill_thin
  have hchain' : Chain 98 l ([] ++ 0 :: 2 :: []) 1 := hchain
  obtain ⟨l', hremove, hstuck⟩ := hchain'.stuck_at_merged (S := insertion) (p := 1) (by decide) hrange hholds
    (by rw [h0, h2]; decide) (by decide) (show 2 + 3 ≤ 110 by decide)
  exact ⟨l, answers, l', hrun, hremove, fun fuel calls r hr =>
    hstuck fuel calls r hr (.lookup 40) (hranges 40 (by decide)) rfl nofun fuel⟩

theorem Chain.congr (h : Chain c l ps tail) (hhead : l'.headPtr = l.headPtr) (hsize : l'.size = l.size)
    (hnodes : ∀ p ∈ ps ++ [tail], l'.nodes p = l.nodes p) : Chain c l' ps tail := by
  have hbody : ∀ p ∈ ps, l'.nodes p = l.nodes p := fun p hp => hnodes p (List.mem_append_left _ hp)
  refine ⟨?_, h.nodup, fun p hp => hsize ▸ h.alloc p hp, hhead ▸ h.head, ?_, fun p hp => ?_, ?_⟩
  · exact h.linked.congr (fun p hp => congrArg ListNode.nextPtr (hnodes p hp))
      fun p hp => congrArg ListNode.prevPtr (hnodes p hp)
  · exact h.ranges.congr (fun p hp => congrArg ListNode.min (hbody p hp))
      fun p hp => congrArg ListNode.max (hbody p hp)
  · rw [hbody p hp]
    exact h.node p hp
  · rw [hnodes tail (by simp)]
    exact h.last

theorem insert_at {c : ℕ} (hrest : (l.nodes b).AtRest c b) (hc : c < VersionedLock.period)
    (hkey : (l.nodes b).checkRange key = true) (hno : ∀ v, ¬ (l.nodes b).Holds key v)
    (hroom : (l.nodes b).getNumEntries < maxEntries) (value : ℕ) :
    ∃ f, LinkedList.insert S key value (fuel + 2) l b = some (l.modify b f, true) := by
  have hspec := hrest.sound.getFreeIndex_spec key
  rw [LinkedList.insert, writeLoop_at hrest hc hkey (findNode_of_checkRange hkey), nodeInsert, getFreeIndex_locked]
  cases hindex : (l.nodes b).getFreeIndex key (getKeyFingerPrint key) with
  | keyExists =>
    rw [hindex] at hspec
    obtain ⟨v, hv⟩ := hspec
    exact absurd hv (hno v)
  | noFree =>
    rw [hindex] at hspec
    have hfull : (l.nodes b).Full := hspec.2
    exact absurd hfull.getNumEntries (Nat.ne_of_lt hroom)
  | index i =>
    refine ⟨fun n => (n.insertAtIndex (key, value) i (getKeyFingerPrint key)).setVersion (n.verLock + 2), ?_⟩
    dsimp only
    rw [Option.map_some]
    dsimp only
    rw [writeUnlock_locked fun _ _ => rfl]

/-- A `remove` from the node `b` merges it into the node `a` before it and leaves `b` open for
inserts. An `insert` that starts there reports success, but no call that starts in the list
finds the key. -/
theorem Chain.lost_at_merged {v : ℕ} (h : Chain c l (xs ++ a :: b :: ys) tail)
    (hm : Represents l (xs ++ a :: b :: ys) m) (hc : c + 1 < VersionedLock.period)
    (hkey : (l.nodes b).checkRange key = true) (hholds : (l.nodes b).Holds key v)
    (hbig : ∀ nx, l.next b = some nx → ¬ (l.nodes b).getNumEntries + (l.nodes nx).getNumEntries < maxEntries / 2)
    (hsmall : (l.nodes b).getNumEntries + (l.nodes a).getNumEntries < maxEntries / 2)
    (hp : p ∈ xs ++ a :: b :: ys ++ [tail]) (hfuel : (xs ++ a :: b :: ys).length + 3 ≤ fuel) :
    ∃ l', LinkedList.remove key fuel l p = some (l', true) ∧
      ∀ key' value, (l.nodes b).checkRange key' = true → (m.erase key).find? key' = none →
        ∃ l'', LinkedList.insert S key' value fuel l' b = some (l'', true) ∧
          ∀ p' ∈ l''.live, LinkedList.lookup key' fuel l'' p' = some (l'', none) := by
  have h' := h.second
  obtain ⟨i, hi, hkeyi, hremove⟩ := h'.remove_at (by omega) hkey hholds (by simpa using hp) (by simpa using hfuel)
  obtain ⟨l', hl', hmerged, hb⟩ := h.section_mergeWithPrev (i := i) (by omega) hbig hsmall
  rw [hl', Option.map_some] at hremove
  have hnode := h.node b (by simp)
  have hAB := (h.mergeable (i := i) (by omega)).2
  have hchain := h.merge hAB hmerged
  have hleft : ∀ k v, ((l.nodes b).removeFromIndex i).Holds k v ↔ k ≠ key ∧
    (l.nodes b).Holds k v := fun k v =>
    hnode.sound.holds_removeFromIndex hi hkeyi
  have hrep : Represents l' (xs ++ a :: ys) (m.erase key) := 
    hmerged.erase_second h hAB (by simpa using hm) hkey hleft rfl
  refine ⟨l', hremove, fun key' value hkey' hnone => ?_⟩
  have hrange : (l'.nodes b).checkRange key' = true := by
    rw [hb]
    exact hkey'
  have hrest : (l'.nodes b).AtRest (c + 1) b := by
    rw [hb]
    exact hnode.written hnode.sound.removeFromIndex.setVersion (fun k v hkv => hnode.range k v ((hleft k v).mp hkv).2)
      ⟨rfl, rfl, rfl, rfl⟩ rfl
  have hno : ∀ w, ¬ (l'.nodes b).Holds key' w := by
    intro w hw
    rw [hb] at hw
    obtain ⟨hne, hold⟩ := (hleft key' w).mp hw
    have hfind := OrderedMap.find?_erase.mpr ⟨hne, (hm key' w).mpr ⟨b, by simp, hold⟩⟩
    rw [hnone] at hfind
    cases hfind
  have hroom : (l'.nodes b).getNumEntries < maxEntries := by
    have hle : (l'.nodes b).getNumEntries ≤ (l.nodes b).getNumEntries := by
      rw [hb]
      exact ListNode.getNumEntries_removeFromIndex_le
    unfold maxEntries at *
    omega
  obtain ⟨f, rfl⟩ : ∃ f, fuel = f + 2 := ⟨fuel - 2, by omega⟩
  obtain ⟨g, hinsert⟩ := insert_at (S := S) hrest hc hrange hno hroom value
  -- the chain does not go through `b`, so it is as it was
  have helse : ∀ r ∈ xs ++ a :: ys ++ [tail], (l'.modify b g).nodes r = l'.nodes r := fun r hr =>
    modify_nodes_of_ne (h'.ne_of_mem (by grind))
  have hchain' : Chain (c + 1) (l'.modify b g) (xs ++ a :: ys) tail := hchain.congr rfl rfl helse
  have hrep' : Represents (l'.modify b g) (xs ++ a :: ys) (m.erase key) := by
    intro k w
    rw [hrep k w]
    refine exists_congr fun r => and_congr_right fun hr => ?_
    rw [helse r (List.mem_append_left _ hr)]
  refine ⟨l'.modify b g, hinsert, fun p' hp' => ?_⟩
  have hmax : key' < keyMax :=
    lt_of_lt_of_le (ListNode.checkRange_eq_true_iff.mp hkey').2 h'.ranges.bounds.2.2
  have henough : (xs ++ a :: ys).length + 3 ≤ f + 2 := by
    simp only [List.length_append, List.length_cons] at hfuel ⊢
    omega
  rw [hchain'.live_eq] at hp'
  rw [hchain'.lookup hrep' hc hp' henough hmax, hnone]

theorem lost_at_merged_fill_thin : ∃ l answers l' l'', (initializeList fun _ => default).execAll insertion 110
    (fill ++ thin) = some (l, answers) ∧ LinkedList.remove 61 110 l 1 = some (l', true) ∧
      LinkedList.insert insertion 63 7 110 l' 2 = some (l'', true) ∧
      ∀ p ∈ l''.live, LinkedList.lookup 63 110 l'' p = some (l'', none) := by
  obtain ⟨l, answers, hrun, hchain, hm, h0, h2, h1, hnext, -, -, hranges, hholds⟩ := exists_execAll_fill_thin
  have hchain' : Chain 98 l ([] ++ 0 :: 2 :: []) 1 := hchain
  have hbig : ∀ nx, l.next 2 = some nx →
      ¬ (l.nodes 2).getNumEntries + (l.nodes nx).getNumEntries < maxEntries / 2 := by
    intro nx hnx
    obtain rfl : 1 = nx := Option.some.inj (hnext.symm.trans hnx)
    rw [h2, h1]
    decide
  obtain ⟨l', hremove, hlost⟩ := hchain'.lost_at_merged (S := insertion) (p := 1) hm (by decide)
    (hranges 61 (by decide)) hholds hbig (by rw [h0, h2]; decide) (by decide) (show 2 + 3 ≤ 110 by decide)
  obtain ⟨l'', hinsert, hlookup⟩ := hlost 63 7 (hranges 63 (by decide)) (by decide +kernel)
  exact ⟨l, answers, l', l'', hrun, hremove, hinsert, hlookup⟩

end Hkv.PacTree.LinkedList
