import Mathlib.Data.List.Induction
import Mathlib.Data.List.Nodup

/-!
# Doubly linked lists

A list of nodes whose `next` and `prev` fields agree, between what stands before the first
node and what stands behind the last. Nothing here is specific to the project.
-/
namespace Hkv.DoublyLinked

variable {P : Type*} {next prev next' prev' : P → Option P} {p q : Option P} {d : P} {xs ys : List P}

/-- The nodes `xs` in the order of `next`, with `p` before the first and `q` behind the last. -/
def Linked (next prev : P → Option P) : Option P → List P → Option P → Prop
  | _, [], _ => True
  | p, x :: xs, q => prev x = p ∧ next x = xs.head?.or q ∧ Linked next prev (some x) xs q

theorem linked_append : Linked next prev p (xs ++ ys) q ↔
    Linked next prev p xs (ys.head?.or q) ∧ Linked next prev (xs.getLast?.or p) ys q := by
  induction xs generalizing p with
  | nil => simp [Linked]
  | cons x xs ih =>
    have hlast : (x :: xs).getLast?.or p = xs.getLast?.or (some x) := by
      cases xs <;> simp [List.getLast?_cons]
    rw [List.cons_append, Linked, Linked, ih, hlast, List.head?_append, Option.or_assoc, and_assoc, and_assoc]

/-- Only the fields of the nodes of the list matter. -/
theorem Linked.congr (h : Linked next prev p xs q) (hnext : ∀ x ∈ xs, next' x = next x)
    (hprev : ∀ x ∈ xs, prev' x = prev x) : Linked next' prev' p xs q := by
  induction xs generalizing p with
  | nil => trivial
  | cons x xs ih =>
    obtain ⟨hp, hn, hxs⟩ := h
    refine ⟨(hprev x List.mem_cons_self).trans hp, (hnext x List.mem_cons_self).trans hn, ?_⟩
    exact ih hxs (fun y hy => hnext y (List.mem_cons_of_mem _ hy)) fun y hy => hprev y (List.mem_cons_of_mem _ hy)

theorem Linked.next_eq {i : ℕ} {x : P} (h : Linked next prev p xs none) (hx : xs[i]? = some x) :
    next x = xs[i + 1]? := by
  induction xs generalizing p i with
  | nil => simp at hx
  | cons y xs ih =>
    obtain ⟨-, hn, hxs⟩ := h
    cases i with
    | zero =>
      obtain rfl : y = x := by simpa using hx
      rw [hn, Option.or_none, List.getElem?_cons_succ, List.head?_eq_getElem?]
    | succ i => exact ih hxs hx

theorem Linked.prev_eq {i : ℕ} {x : P} (h : Linked next prev p xs q) (hx : xs[i + 1]? = some x) :
    prev x = xs[i]? := by
  induction xs generalizing p i with
  | nil => simp at hx
  | cons y xs ih =>
    cases i with
    | zero =>
      cases xs with
      | nil => simp at hx
      | cons z xs =>
        obtain rfl : z = x := by simpa using hx
        exact h.2.2.1
    | succ i => exact ih h.2.2 hx

/-- The list read backwards. -/
theorem Linked.reverse (h : Linked next prev p xs q) : Linked prev next q xs.reverse p := by
  induction xs generalizing p with
  | nil => trivial
  | cons x xs ih =>
    obtain ⟨hp, hn, hxs⟩ := h
    rw [List.reverse_cons]
    refine linked_append.mpr ⟨ih hxs, ?_, hp, trivial⟩
    rw [hn, List.getLast?_reverse]

/-- The nodes that `link` leads through from `p`, if there are no more than `n`. -/
def follow (link : P → Option P) : ℕ → Option P → Option (List P)
  | _, none => some []
  | 0, some _ => none
  | n + 1, some x => (follow link n (link x)).map (x :: ·)

theorem follow_mono {link : P → Option P} {n n' : ℕ} (h : follow link n p = some xs) (hn : n ≤ n') :
    follow link n' p = some xs := by
  induction n generalizing n' p xs with
  | zero =>
    cases p with
    | none =>
      cases n' with
      | zero => exact h
      | succ n' => exact h
    | some x => simp [follow] at h
  | succ n ih =>
    obtain ⟨k, rfl⟩ : ∃ k, n' = k + 1 := ⟨n' - 1, by omega⟩
    cases p with
    | none => exact h
    | some x =>
      obtain ⟨ys, hys, rfl⟩ := Option.map_eq_some_iff.mp h
      rw [follow, ih hys (Nat.le_of_succ_le_succ hn), Option.map_some]

theorem Linked.follow_next (h : Linked next prev p xs none) : follow next xs.length xs.head? = some xs := by
  induction xs generalizing p with
  | nil => rfl
  | cons x xs ih =>
    obtain ⟨-, hn, hxs⟩ := h
    rw [Option.or_none] at hn
    rw [List.head?_cons, List.length_cons, follow, hn, ih hxs, Option.map_some]

theorem Linked.follow_prev (h : Linked next prev none xs q) :
    follow prev xs.length xs.getLast? = some xs.reverse := by
  have hwalk := h.reverse.follow_next
  rwa [List.length_reverse, List.head?_reverse] at hwalk

variable [DecidableEq P]

/-- Another node may stand before the first one. -/
theorem Linked.relink_first (h : Linked next prev p ys q) (p' : Option P) (hnodup : ys.Nodup)
    (hnext : ∀ y ∈ ys, next' y = next y)
    (hprev : ∀ y ∈ ys, prev' y = if ys.head? = some y then p' else prev y) :
    Linked next' prev' p' ys q := by
  cases ys with
  | nil => trivial
  | cons y ys =>
    obtain ⟨-, hn, hys⟩ := h
    refine ⟨by simpa using hprev y List.mem_cons_self, (hnext y List.mem_cons_self).trans hn, ?_⟩
    refine hys.congr (fun z hz => hnext z (List.mem_cons_of_mem _ hz)) fun z hz => ?_
    have hne : y ≠ z := by
      rintro rfl
      exact (List.nodup_cons.mp hnodup).1 hz
    simpa [hne] using hprev z (List.mem_cons_of_mem _ hz)

/-- Another node may stand behind the last one. -/
theorem Linked.relink_last (h : Linked next prev p xs q) (q' : Option P) (hnodup : xs.Nodup)
    (hnext : ∀ x ∈ xs, next' x = if xs.getLast? = some x then q' else next x)
    (hprev : ∀ x ∈ xs, prev' x = prev x) : Linked next' prev' p xs q' := by
  induction xs using List.reverseRecOn with
  | nil => trivial
  | append_singleton xs x _ =>
    obtain ⟨hxs, hp, -⟩ := linked_append.mp h
    have hx : x ∉ xs := fun hmem => (List.nodup_append'.mp hnodup).2.2 hmem (List.mem_singleton_self x)
    refine linked_append.mpr ⟨hxs.congr (fun y hy => ?_) (fun y hy => ?_), ?_, ?_, trivial⟩
    · have hne : x ≠ y := by
        rintro rfl
        exact hx hy
      simpa [hne] using hnext y (List.mem_append_left _ hy)
    · exact hprev y (List.mem_append_left _ hy)
    · exact (hprev x (by simp)).trans hp
    · simpa using hnext x (by simp)

omit [DecidableEq P] in
/-- A node in the list knows its neighbours. -/
theorem Linked.neighbours (h : Linked next prev p (xs ++ d :: ys) q) :
    prev d = xs.getLast?.or p ∧ next d = ys.head?.or q := by
  obtain ⟨-, hprev, hnext, -⟩ := linked_append.mp h
  exact ⟨hprev, hnext⟩

/-- A node enters the list behind `d`. -/
theorem Linked.insert_after {e : P} (h : Linked next prev p (xs ++ d :: ys) q) (hnodup : (xs ++ d :: ys).Nodup)
    (hd : next' d = some e) (hd' : prev' d = prev d) (he : next' e = next d) (he' : prev' e = some d)
    (hnext : ∀ x ∈ xs ++ ys, next' x = next x)
    (hprev : ∀ x ∈ xs ++ ys, prev' x = if ys.head? = some x then some e else prev x) :
    Linked next' prev' p (xs ++ d :: e :: ys) q := by
  obtain ⟨hxs, hpd, hnd, hys⟩ := linked_append.mp h
  obtain ⟨-, hny, hdisj⟩ := List.nodup_append'.mp hnodup
  refine linked_append.mpr ⟨?_, hd'.trans hpd, ?_, he', he.trans hnd, ?_⟩
  · refine hxs.congr (fun x hx => hnext x (List.mem_append_left _ hx)) fun x hx => ?_
    have hnot : ¬ ys.head? = some x := fun hh => hdisj hx (List.mem_cons_of_mem _ (List.mem_of_head? hh))
    rw [hprev x (List.mem_append_left _ hx), if_neg hnot]
  · simpa using hd
  · refine hys.relink_first _ (List.nodup_cons.mp hny).2
      (fun y hy => hnext y (List.mem_append_right _ hy)) fun y hy => ?_
    exact hprev y (List.mem_append_right _ hy)

/-- A node leaves the list when its neighbours point to each other. -/
theorem Linked.remove (h : Linked next prev p (xs ++ d :: ys) q) (hnodup : (xs ++ d :: ys).Nodup)
    (hnext : ∀ x ∈ xs ++ ys, next' x = if xs.getLast? = some x then next d else next x)
    (hprev : ∀ x ∈ xs ++ ys, prev' x = if ys.head? = some x then prev d else prev x) :
    Linked next' prev' p (xs ++ ys) q := by
  obtain ⟨hpd, hnd⟩ := h.neighbours
  obtain ⟨hxs, -, -, hys⟩ := linked_append.mp h
  obtain ⟨hnx, hny, hdisj⟩ := List.nodup_append'.mp hnodup
  refine linked_append.mpr ⟨hxs.relink_last _ hnx (fun x hx => ?_) (fun x hx => ?_),
    hys.relink_first _ (List.nodup_cons.mp hny).2 (fun y hy => ?_) fun y hy => ?_⟩
  · rw [hnext x (List.mem_append_left _ hx), hnd]
  · have hnot : ¬ ys.head? = some x := fun hh => hdisj hx (List.mem_cons_of_mem _ (List.mem_of_head? hh))
    rw [hprev x (List.mem_append_left _ hx), if_neg hnot]
  · have hnot : ¬ xs.getLast? = some y := fun hl => hdisj (List.mem_of_getLast? hl) (List.mem_cons_of_mem _ hy)
    rw [hnext y (List.mem_append_right _ hy), if_neg hnot]
  · rw [hprev y (List.mem_append_right _ hy), hpd]

end Hkv.DoublyLinked
