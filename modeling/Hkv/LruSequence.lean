import Hkv.CacheLists

/-!
# `LRUList` is a sequence

Calls of the functions of `LRUList`, on the two lists in any order, against the same calls
on sequences of addresses. The callers put an entry on a list only while it is on none,
name members, and ask for the tail of a list of two entries or more.
-/
namespace Hkv.DramCache
open TaggedPointer DoublyLinked

variable {A : Type} {L : ListType → List Ptr} {t : ListType} {d : Ptr} {xs ys l : List Ptr}

inductive LruOp where
  | insertHead (d : Ptr)
  | moveToHead (d : Ptr)
  | moveToTail (d : Ptr)
  | removeEntry (d : Ptr)
  | removeTail
  deriving DecidableEq

namespace LruOp

/-- The call on a sequence, most recent entry first. -/
def act : LruOp → List Ptr → List Ptr
  | .insertHead d, xs => d :: xs
  | .moveToHead d, xs => d :: xs.erase d
  | .moveToTail d, xs => xs.erase d ++ [d]
  | .removeEntry d, xs => xs.erase d
  | .removeTail, xs => xs.dropLast

/-- The entry that the call returns. -/
def answer : LruOp → List Ptr → Option Ptr
  | .removeEntry d, _ => some d
  | .removeTail, xs => xs.getLast?
  | _, _ => none

/-- What the callers guarantee; `alloc` are the entries that are not freed. -/
def Allowed (alloc : Ptr → Prop) (L : ListType → List Ptr) (t : ListType) : LruOp → Prop
  | .insertHead d => alloc d ∧ ∀ t', d ∉ L t'
  | .moveToHead d => d ∈ L t
  | .moveToTail d => d ∈ L t
  | .removeEntry d => d ∈ L t
  | .removeTail => 2 ≤ (L t).length

/-- Every call is allowed on the sequences that the calls before it leave. -/
def AllAllowed (alloc : Ptr → Prop) : (ListType → List Ptr) → List (ListType × LruOp) → Prop
  | _, [] => True
  | L, (t, op) :: ops => op.Allowed alloc L t ∧ AllAllowed alloc (Function.update L t (op.act (L t))) ops

/-- The sequences after the calls, and what the calls return. -/
def actAll : (ListType → List Ptr) → List (ListType × LruOp) → List (Option Ptr) × (ListType → List Ptr)
  | L, [] => ([], L)
  | L, (t, op) :: ops =>
    let r := actAll (Function.update L t (op.act (L t))) ops
    (op.answer (L t) :: r.1, r.2)

section
variable [DecidableEq A]

def call (t : ListType) (c : CacheThread A) : LruOp → Option (Option Ptr × CacheThread A)
  | .insertHead d => (c.insertHead t d).map (none, ·)
  | .moveToHead d => (c.moveToHead t d).map (none, ·)
  | .moveToTail d => (c.moveToTail t d).map (none, ·)
  | .removeEntry d => (c.removeEntry t d).map (some d, ·)
  | .removeTail => (c.removeTail t).map fun r => (some r.1, r.2)

def callAll : CacheThread A → List (ListType × LruOp) → Option (List (Option Ptr) × CacheThread A)
  | c, [] => some ([], c)
  | c, (t, op) :: ops => do
    let (r, c) ← op.call t c
    let (rs, c) ← callAll c ops
    return (r :: rs, c)

end

end LruOp

namespace CacheThread
variable {c c' : CacheThread A}

/-- The pointers of the list `t` represent `xs`: both walks end, each is the reverse of the
other, and neither goes through a freed entry. -/
structure Represents (c : CacheThread A) (t : ListType) (xs : List Ptr) : Prop where
  next_walk : follow c.next xs.length (c.list t).head = some xs
  prev_walk : follow c.prev xs.length (c.list t).tail = some xs.reverse
  nodup : xs.Nodup
  alloc : ∀ d ∈ xs, c.heap d ≠ none
  curSize : (c.list t).curSize = xs.length

/-- The lists hold the sequences `L`, no entry twice. -/
structure Sequences (c : CacheThread A) (L : ListType → List Ptr) : Prop where
  listed : ∀ t, Listed c t (L t)
  disjoint : ∀ {t t'}, t' ≠ t → ∀ d ∈ L t, d ∉ L t'
  curSize : ∀ t, (c.list t).curSize = (L t).length

theorem Sequences.represents (h : Sequences c L) (t : ListType) : Represents c t (L t) where
  next_walk := (h.listed t).head ▸ (h.listed t).linked.follow_next
  prev_walk := (h.listed t).tail ▸ (h.listed t).linked.follow_prev
  nodup := (h.listed t).nodup
  alloc := (h.listed t).alloc
  curSize := h.curSize t

theorem sequences_empty (h : ∀ t, (c.list t).head = none ∧ (c.list t).tail = none ∧ (c.list t).curSize = 0) :
    Sequences c fun _ => [] where
  listed t := ⟨(h t).1, (h t).2.1, trivial, List.nodup_nil, by simp⟩
  disjoint := by simp
  curSize t := (h t).2.2

theorem Sequences.replace (h : Sequences c L) (hlisted : Listed c' t l) (hwithin : Within c c' t xs)
    (hxs : ∀ x ∈ xs, ∀ t' ≠ t, x ∉ L t') (hl : ∀ x ∈ l, ∀ t' ≠ t, x ∉ L t')
    (hcur : (c'.list t).curSize = l.length) : Sequences c' (Function.update L t l) where
  listed t' := by
    by_cases ht : t' = t
    · subst ht
      rwa [Function.update_self]
    · rw [Function.update_of_ne ht]
      exact (h.listed t').congr (hwithin.list t' ht) fun x hx => hwithin.heap x fun hmem => hxs x hmem t' ht hx
  disjoint {t₁ t₂} hne x hx := by
    by_cases h₁ : t₁ = t
    · subst h₁
      rw [Function.update_self] at hx
      rw [Function.update_of_ne hne]
      exact hl x hx t₂ hne
    · rw [Function.update_of_ne h₁] at hx
      by_cases h₂ : t₂ = t
      · subst h₂
        rw [Function.update_self]
        exact fun hmem => hl x hmem t₁ h₁ hx
      · rw [Function.update_of_ne h₂]
        exact h.disjoint hne x hx
  curSize t' := by
    by_cases ht : t' = t
    · subst ht
      rwa [Function.update_self]
    · rw [Function.update_of_ne ht, hwithin.list t' ht]
      exact h.curSize t'

theorem Sequences.rewire (h : Sequences c L) (hlisted : Listed c' t l) (hrew : Rewired c c' t l)
    (hperm : l.Perm (L t)) : Sequences c' (Function.update L t l) := by
  have hl : ∀ x ∈ l, ∀ t' ≠ t, x ∉ L t' := fun x hx t' ht => h.disjoint ht x (hperm.mem_iff.mp hx)
  exact h.replace hlisted hrew.toWithin hl hl (by rw [hrew.curSize, h.curSize, hperm.length_eq])

theorem Sequences.unlink (h : Sequences c L) (ht : L t = xs ++ d :: ys) : ∃ c', c.unlink t d = some c' ∧
    c'.heap d = c.heap d ∧ (∀ x, c'.heap x ≠ none ↔ c.heap x ≠ none) ∧
    Sequences (c'.setList t fun l => { l with curSize := l.curSize - 1 }) (Function.update L t (xs ++ ys)) := by
  have hlisted := h.listed t
  rw [ht] at hlisted
  obtain ⟨c', hunlink, hlisted', hrew⟩ := hlisted.unlink
  have hd : d ∉ xs ++ ys := (List.nodup_cons.mp (List.nodup_middle.mp hlisted.nodup)).1
  have hl : ∀ x ∈ xs ++ ys, ∀ t' ≠ t, x ∉ L t' := fun x hx t' hne => h.disjoint hne x (by
    rw [ht]
    exact List.perm_middle.mem_iff.mpr (List.mem_cons_of_mem _ hx))
  refine ⟨c', hunlink, hrew.heap d hd, hrew.alloc, h.replace (hlisted'.setList rfl rfl)
    (hrew.toWithin.trans (.setList rfl)) hl hl ?_⟩
  rw [list_setList, hrew.curSize, h.curSize, ht, List.perm_middle.length_eq, List.length_cons, Nat.cast_succ,
    add_sub_cancel_right]

theorem Sequences.split (h : Sequences c L) (hd : d ∈ L t) :
    ∃ xs ys, L t = xs ++ d :: ys ∧ (L t).erase d = xs ++ ys := by
  obtain ⟨xs, ys, ht⟩ := List.append_of_mem hd
  have hnodup := (h.listed t).nodup
  rw [ht] at hnodup ⊢
  have hxs : d ∉ xs := fun hmem => (List.nodup_append'.mp hnodup).2.2 hmem List.mem_cons_self
  exact ⟨xs, ys, rfl, by rw [List.erase_append_right _ hxs, List.erase_cons_head]⟩

variable [DecidableEq A]

theorem Sequences.call {op : LruOp} (h : Sequences c L) (hop : op.Allowed (c.heap · ≠ none) L t) :
    ∃ c', op.call t c = some (op.answer (L t), c') ∧ Sequences c' (Function.update L t (op.act (L t))) ∧
      ∀ x, c'.heap x ≠ none ↔ c.heap x ≠ none := by
  cases op with
  | insertHead d =>
    obtain ⟨halloc, hd⟩ := hop
    obtain ⟨e, he⟩ := Option.ne_none_iff_exists'.mp halloc
    obtain ⟨c', hinsert, hlisted, hwithin, hcur, -⟩ := (h.listed t).insertHead he (hd t)
    have hl : ∀ x ∈ d :: L t, ∀ t' ≠ t, x ∉ L t' := by
      intro x hx t' ht
      rcases List.mem_cons.mp hx with rfl | hx
      · exact hd t'
      · exact h.disjoint ht x hx
    refine ⟨c', congrArg (Option.map _) hinsert, h.replace hlisted hwithin hl hl ?_, hwithin.alloc⟩
    rw [hcur, h.curSize, LruOp.act, List.length_cons, Nat.cast_succ]
  | moveToHead d =>
    obtain ⟨xs, ys, ht, herase⟩ := h.split hop
    obtain ⟨c', hmove, hlisted, hrew⟩ := (ht ▸ h.listed t).moveToHead
    refine ⟨c', congrArg (Option.map _) hmove, ?_, hrew.alloc⟩
    rw [LruOp.act, herase]
    exact h.rewire hlisted hrew (ht ▸ List.perm_middle.symm)
  | moveToTail d =>
    obtain ⟨xs, ys, ht, herase⟩ := h.split hop
    obtain ⟨c', hmove, hlisted, hrew⟩ := (ht ▸ h.listed t).moveToTail
    refine ⟨c', congrArg (Option.map _) hmove, ?_, hrew.alloc⟩
    rw [LruOp.act, herase]
    refine h.rewire hlisted hrew (ht ▸ ?_)
    exact (List.perm_append_singleton d _).trans List.perm_middle.symm
  | removeEntry d =>
    obtain ⟨xs, ys, ht, herase⟩ := h.split hop
    obtain ⟨c₁, hunlink, hheap, halloc, hseq⟩ := h.unlink ht
    obtain ⟨e, he⟩ := (h.listed t).exists_heap hop
    have hremove : c.removeEntry t d =
        some ((c₁.setEntry e.atEntry uncache).setList t fun l => { l with curSize := l.curSize - 1 }) := by
      simp only [CacheThread.removeEntry, hunlink, Option.bind_eq_bind, Option.bind_some, hheap, he, Option.pure_def]
    refine ⟨_, congrArg (Option.map _) hremove, ?_, halloc⟩
    rw [LruOp.act, herase]
    -- the address table is no part of the list
    exact ⟨fun t' => (hseq.listed t').congr rfl fun _ _ => rfl, hseq.disjoint, hseq.curSize⟩
  | removeTail =>
    have hlen : 2 ≤ (L t).length := hop
    have hne : L t ≠ [] := List.ne_nil_of_length_pos (by omega)
    have ht : L t = (L t).dropLast ++ (L t).getLast hne :: [] := (List.dropLast_append_getLast hne).symm
    have hlast : (L t).getLast? = some ((L t).getLast hne) := List.getLast?_eq_getLast_of_ne_nil hne
    obtain ⟨c₁, hunlink, -, halloc, hseq⟩ := h.unlink ht
    rw [List.append_nil] at hseq
    refine ⟨_, ?_, hseq, halloc⟩
    rw [LruOp.call, removeTail_eq_unlink ((h.listed t).head_ne_tail hlen) ((h.listed t).tail.trans hlast), hunlink,
      LruOp.answer, hlast]
    rfl

theorem Sequences.callAll {ops : List (ListType × LruOp)} (h : Sequences c L)
    (hops : LruOp.AllAllowed (c.heap · ≠ none) L ops) :
    ∃ c', LruOp.callAll c ops = some ((LruOp.actAll L ops).1, c') ∧
      Sequences c' (LruOp.actAll L ops).2 := by
  induction ops generalizing c L with
  | nil => exact ⟨c, rfl, h⟩
  | cons top ops ih =>
    obtain ⟨t, op⟩ := top
    obtain ⟨hop, hrest⟩ := hops
    obtain ⟨c₁, hcall, hseq, halloc⟩ := h.call hop
    have hsame : (fun x => c.heap x ≠ none) = fun x => c₁.heap x ≠ none :=
      funext fun x => propext (halloc x).symm
    rw [hsame] at hrest
    obtain ⟨c', hcalls, hseq'⟩ := ih hseq hrest
    refine ⟨c', ?_, hseq'⟩
    simp only [LruOp.callAll, hcall, hcalls, Option.bind_eq_bind, Option.bind_some, Option.pure_def, LruOp.actAll]

/-- Allowed calls never go through a null pointer, answer as the calls on sequences do, and
leave lists that represent those sequences. -/
theorem callAll_represents
    (hempty : ∀ t, (c.list t).head = none ∧ (c.list t).tail = none ∧ (c.list t).curSize = 0)
    {ops : List (ListType × LruOp)} (hops : LruOp.AllAllowed (c.heap · ≠ none) (fun _ => []) ops) :
    ∃ c', LruOp.callAll c ops = some ((LruOp.actAll (fun _ => []) ops).1, c') ∧
      ∀ t, Represents c' t ((LruOp.actAll (fun _ => []) ops).2 t) := by
  obtain ⟨c', hcalls, hseq⟩ := (sequences_empty hempty).callAll hops
  exact ⟨c', hcalls, hseq.represents⟩

/-- Three entries on no list, with links left from their last one. -/
def unlisted : CacheThread ℕ where
  table _ := ⟨⟨0, 0⟩, 0⟩
  heap d := if d.addr ∈ [16, 32, 48] then some ⟨0, 5, 50, .inactive, some d, some d, none, none⟩ else none
  list _ := ⟨none, none, 8, 0⟩

/-- The entry that is moved to the tail is the one `remove_tail` returns. -/
theorem callAll_represents_tail : ∃ c', LruOp.callAll unlisted
      [(.active, .insertHead ⟨16, by decide⟩), (.active, .insertHead ⟨32, by decide⟩),
        (.inactive, .insertHead ⟨48, by decide⟩), (.active, .moveToTail ⟨32, by decide⟩),
        (.active, .removeTail)] =
      some ([none, none, none, none, some ⟨32, by decide⟩], c') ∧
    Represents c' .active [⟨16, by decide⟩] ∧ Represents c' .inactive [⟨48, by decide⟩] := by
  have hops : LruOp.AllAllowed (unlisted.heap · ≠ none) (fun _ => [])
      [(.active, .insertHead ⟨16, by decide⟩), (.active, .insertHead ⟨32, by decide⟩),
        (.inactive, .insertHead ⟨48, by decide⟩), (.active, .moveToTail ⟨32, by decide⟩),
        (.active, .removeTail)] := by
    refine ⟨⟨by decide, fun t => ?_⟩, ⟨by decide, fun t => ?_⟩, ⟨by decide, fun t => ?_⟩, ?_, ?_,
      trivial⟩
    · cases t <;> decide
    · cases t <;> decide
    · cases t <;> decide
    · show _ ∈ _
      decide
    · show _ ≤ _
      decide
  obtain ⟨c', hcalls, hrep⟩ := callAll_represents (fun _ => ⟨rfl, rfl, rfl⟩) hops
  exact ⟨c', hcalls, hrep .active, hrep .inactive⟩

end CacheThread

end Hkv.DramCache
