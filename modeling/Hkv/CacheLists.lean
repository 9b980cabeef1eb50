import Hkv.CacheFrame
import Hkv.DoublyLinked

/-!
# The lists of the cache thread

Each function of `LRUList` on the lists that it maintains, as lists of addresses. A
function may leave one `dc_entry` on neither list, between its removal and its insertion
or its release.
-/
namespace Hkv.DramCache.CacheThread
open MtsConfig TaggedPointer AddressTable DoublyLinked

variable {A : Type} {c c' : CacheThread A} {t : ListType} {d : Ptr}

def next (c : CacheThread A) (d : Ptr) : Option Ptr := (c.heap d).bind DcEntry.next

def prev (c : CacheThread A) (d : Ptr) : Option Ptr := (c.heap d).bind DcEntry.prev

def typeOf (c : CacheThread A) (d : Ptr) : Option ListType := (c.heap d).map DcEntry.listType

/-- `d` holds `e`. -/
def set (c : CacheThread A) (d : Ptr) (e : DcEntry A) : CacheThread A :=
  { c with heap := Function.update c.heap d (some e) }

theorem modify_eq {e : DcEntry A} (h : c.heap d = some e) (f : DcEntry A → DcEntry A) :
    c.modify d f = some (c.set d (f e)) := by
  rw [modify, h]
  rfl

@[simp] theorem heap_set (c : CacheThread A) (d : Ptr) (e : DcEntry A) :
    (c.set d e).heap = Function.update c.heap d (some e) := rfl

@[simp] theorem list_set (c : CacheThread A) (d : Ptr) (e : DcEntry A) : (c.set d e).list = c.list := rfl

theorem next_set (c : CacheThread A) (d x : Ptr) (e : DcEntry A) :
    (c.set d e).next x = if x = d then e.next else c.next x := by
  by_cases h : x = d <;> simp [next, h]

theorem prev_set (c : CacheThread A) (d x : Ptr) (e : DcEntry A) :
    (c.set d e).prev x = if x = d then e.prev else c.prev x := by
  by_cases h : x = d <;> simp [prev, h]

theorem next_set_prev {e : DcEntry A} (he : c.heap d = some e) (p : Option Ptr) (x : Ptr) :
    (c.set d { e with prev := p }).next x = c.next x := by
  by_cases h : x = d <;> simp [next, h, he]

theorem prev_set_next {e : DcEntry A} (he : c.heap d = some e) (n : Option Ptr) (x : Ptr) :
    (c.set d { e with next := n }).prev x = c.prev x := by
  by_cases h : x = d <;> simp [prev, h, he]

@[simp] theorem heap_setList (c : CacheThread A) (t : ListType) (f : LruList → LruList) :
    (c.setList t f).heap = c.heap := rfl

@[simp] theorem list_setList (c : CacheThread A) (t : ListType) (f : LruList → LruList) :
    (c.setList t f).list t = f (c.list t) := Function.update_self ..

theorem list_setList_ne {t' : ListType} (h : t' ≠ t) (c : CacheThread A) (f : LruList → LruList) :
    (c.setList t f).list t' = c.list t' := Function.update_of_ne h ..

/-- The list `t` holds the entries at `ds`, from its head to its tail. -/
structure Listed (c : CacheThread A) (t : ListType) (ds : List Ptr) : Prop where
  head : (c.list t).head = ds.head?
  tail : (c.list t).tail = ds.getLast?
  linked : Linked c.next c.prev none ds none
  nodup : ds.Nodup
  alloc : ∀ d ∈ ds, c.heap d ≠ none

variable {xs ys ds : List Ptr}

theorem Listed.exists_heap (h : Listed c t ds) (hd : d ∈ ds) : ∃ e, c.heap d = some e :=
  Option.ne_none_iff_exists'.mp (h.alloc d hd)

theorem Listed.head_ne_tail (h : Listed c t ds) (hlen : 1 < ds.length) : (c.list t).head ≠ (c.list t).tail := by
  match ds, hlen with
  | x :: y :: ds, _ =>
    rw [h.head, h.tail, List.head?_cons, List.getLast?_cons_cons]
    intro heq
    exact (List.nodup_cons.mp h.nodup).1 (List.mem_of_getLast? heq.symm)

theorem Listed.congr (h : Listed c t ds) (hlist : c'.list t = c.list t) (hheap : ∀ d ∈ ds, c'.heap d = c.heap d) :
    Listed c' t ds where
  head := hlist ▸ h.head
  tail := hlist ▸ h.tail
  linked := h.linked.congr (fun d hd => congrArg (Option.bind · DcEntry.next) (hheap d hd))
    fun d hd => congrArg (Option.bind · DcEntry.prev) (hheap d hd)
  nodup := h.nodup
  alloc d hd := hheap d hd ▸ h.alloc d hd

theorem Listed.setList {f : LruList → LruList} (h : Listed c t ds) (hhead : (f (c.list t)).head = (c.list t).head)
    (htail : (f (c.list t)).tail = (c.list t).tail) : Listed (c.setList t f) t ds where
  head := by rw [list_setList, hhead, h.head]
  tail := by rw [list_setList, htail, h.tail]
  linked := h.linked
  nodup := h.nodup
  alloc := h.alloc

theorem Listed.retype {e : DcEntry A} (h : Listed c t ds) (he : c.heap d = some e) (t' : ListType) :
    Listed (c.set d { e with listType := t' }) t ds where
  head := h.head
  tail := h.tail
  linked := h.linked.congr (fun x _ => by by_cases hx : x = d <;> simp [next, hx, he])
    fun x _ => by by_cases hx : x = d <;> simp [prev, hx, he]
  nodup := h.nodup
  alloc x hx := by
    by_cases hxd : x = d
    · simp [hxd]
    · simpa [hxd] using h.alloc x hx

/-- The changes are to the list `t` and to entries at `ds`. -/
structure Within (c c' : CacheThread A) (t : ListType) (ds : List Ptr) : Prop where
  heap : ∀ x ∉ ds, c'.heap x = c.heap x
  alloc : ∀ x, c'.heap x ≠ none ↔ c.heap x ≠ none
  list : ∀ t' ≠ t, c'.list t' = c.list t'
  maxSize : (c'.list t).maxSize = (c.list t).maxSize

/-- The changes are to the links of the list `t` and of entries at `ds`. -/
structure Rewired (c c' : CacheThread A) (t : ListType) (ds : List Ptr) : Prop extends Within c c' t ds where
  typeOf : ∀ x, c'.typeOf x = c.typeOf x
  curSize : (c'.list t).curSize = (c.list t).curSize

theorem Within.mono (h : Within c c' t xs) (hsub : ∀ x ∈ xs, x ∈ ds) : Within c c' t ds :=
  { h with heap := fun x hx => h.heap x fun hmem => hx (hsub x hmem) }

theorem Within.trans {c₁ : CacheThread A} (h : Within c c₁ t ds) (h' : Within c₁ c' t ds) :
    Within c c' t ds where
  heap x hx := (h'.heap x hx).trans (h.heap x hx)
  alloc x := (h'.alloc x).trans (h.alloc x)
  list t' ht := (h'.list t' ht).trans (h.list t' ht)
  maxSize := h'.maxSize.trans h.maxSize

theorem Within.set {e : DcEntry A} (he : c.heap d = some e) (hd : d ∈ ds) (e' : DcEntry A) :
    Within c (c.set d e') t ds where
  heap x hx := by
    have hne : x ≠ d := by
      rintro rfl
      exact hx hd
    simp [hne]
  alloc x := by
    by_cases hx : x = d
    · simp [hx, he]
    · simp [hx]
  list _ _ := rfl
  maxSize := rfl

theorem Within.setList {f : LruList → LruList} (hmax : (f (c.list t)).maxSize = (c.list t).maxSize) :
    Within c (c.setList t f) t ds where
  heap _ _ := rfl
  alloc _ := .rfl
  list _ ht := list_setList_ne ht _ _
  maxSize := by rw [list_setList, hmax]

theorem Rewired.mono (h : Rewired c c' t xs) (hsub : ∀ x ∈ xs, x ∈ ds) : Rewired c c' t ds :=
  { h with toWithin := h.toWithin.mono hsub }

theorem Rewired.trans {c₁ : CacheThread A} (h : Rewired c c₁ t ds) (h' : Rewired c₁ c' t ds) :
    Rewired c c' t ds where
  toWithin := h.toWithin.trans h'.toWithin
  typeOf x := (h'.typeOf x).trans (h.typeOf x)
  curSize := h'.curSize.trans h.curSize

theorem Rewired.set {e e' : DcEntry A} (he : c.heap d = some e) (ht : e'.listType = e.listType) (hd : d ∈ ds) :
    Rewired c (c.set d e') t ds where
  toWithin := .set he hd e'
  typeOf x := by
    by_cases hx : x = d
    · simp [CacheThread.typeOf, hx, he, ht]
    · simp [CacheThread.typeOf, hx]
  curSize := rfl

theorem Rewired.setList {f : LruList → LruList} (hmax : (f (c.list t)).maxSize = (c.list t).maxSize)
    (hcur : (f (c.list t)).curSize = (c.list t).curSize) : Rewired c (c.setList t f) t ds where
  toWithin := .setList hmax
  typeOf _ := rfl
  curSize := by rw [list_setList, hcur]

theorem Listed.remove (h : Listed c t (xs ++ d :: ys)) (hhead : (c'.list t).head = (xs ++ ys).head?)
    (htail : (c'.list t).tail = (xs ++ ys).getLast?)
    (hnext : ∀ x ∈ xs ++ ys, c'.next x = if xs.getLast? = some x then c.next d else c.next x)
    (hprev : ∀ x ∈ xs ++ ys, c'.prev x = if ys.head? = some x then c.prev d else c.prev x)
    (hrew : Rewired c c' t (xs ++ ys)) : Listed c' t (xs ++ ys) where
  head := hhead
  tail := htail
  linked := h.linked.remove h.nodup hnext hprev
  nodup := (List.nodup_middle.mp h.nodup).of_cons
  alloc x hx := (hrew.alloc x).mpr (h.alloc x (by
    rw [List.mem_append] at hx ⊢
    exact hx.imp id (List.mem_cons_of_mem _)))

theorem Listed.unlink (h : Listed c t (xs ++ d :: ys)) :
    ∃ c', c.unlink t d = some c' ∧ Listed c' t (xs ++ ys) ∧ Rewired c c' t (xs ++ ys) := by
  obtain ⟨hp, hn⟩ := h.linked.neighbours
  obtain ⟨e, he⟩ := h.exists_heap (d := d) (by simp)
  obtain ⟨hd, hnodup⟩ := List.nodup_cons.mp (List.nodup_middle.mp h.nodup)
  rw [Option.or_none] at hp hn
  have hep : e.prev = xs.getLast? := by rw [← hp, prev, he, Option.bind_some]
  have hen : e.next = ys.head? := by rw [← hn, next, he, Option.bind_some]
  have hhead := h.head
  have htail := h.tail
  cases xs using List.reverseRecOn with
  | nil =>
    cases ys with
    | nil =>
      refine ⟨c.setList t fun l => { l with head := none, tail := none }, ?_, ?_, .setList rfl rfl⟩
      · simp [CacheThread.unlink, hhead, htail]
      · exact h.remove (by simp) (by simp) (by simp) (by simp) (.setList rfl rfl)
    | cons y ys =>
      obtain ⟨ey, hy⟩ := h.exists_heap (d := y) (by simp)
      simp only [List.nil_append, List.getLast?_cons_cons, List.head?_cons] at hhead htail hen
      have hy' : (c.setList t fun l => { l with head := some y }).heap y = some ey := hy
      have hrew : Rewired c ((c.setList t fun l => { l with head := some y }).set y { ey with prev := none }) t
          ([] ++ y :: ys) := (Rewired.setList rfl rfl).trans (.set hy' rfl (by simp))
      refine ⟨_, ?_, ?_, hrew⟩
      · rw [CacheThread.unlink, if_neg (h.head_ne_tail (by simp)), hhead, he]
        simp only [Option.bind_eq_bind, Option.bind_some, if_true, hen, modifyAt]
        exact modify_eq hy' _
      · refine h.remove (by simp) (by simpa using htail) (fun x _ => ?_) (fun x _ => ?_) hrew
        · rw [next_set_prev hy']
          rfl
        · rw [prev_set, hp]
          simp [eq_comm, prev]
  | append_singleton xs x _ =>
    obtain ⟨ex, hx⟩ := h.exists_heap (d := x) (by simp)
    have hfirst : (xs ++ [x]).head? ≠ some d := fun hh => hd (List.mem_append_left _ (List.mem_of_head? hh))
    have hfirst' : (xs ++ [x] ++ d :: ys).head? = (xs ++ [x]).head? := by cases xs <;> rfl
    rw [hfirst'] at hhead
    simp only [List.getLast?_concat] at hep
    cases ys with
    | nil =>
      have hx' : (c.setList t fun l => { l with tail := some x }).heap x = some ex := hx
      have hrew : Rewired c ((c.setList t fun l => { l with tail := some x }).set x { ex with next := none }) t
          (xs ++ [x] ++ []) := (Rewired.setList rfl rfl).trans (.set hx' rfl (by simp))
      refine ⟨_, ?_, ?_, hrew⟩
      · simp only [List.getLast?_concat] at htail
        rw [CacheThread.unlink, if_neg (h.head_ne_tail (by simp)), hhead, htail, he]
        simp only [Option.bind_eq_bind, Option.bind_some, if_neg hfirst, if_true, hep, modifyAt]
        exact modify_eq hx' _
      · refine h.remove ?_ (by simp) (fun z _ => ?_) (fun z _ => ?_) hrew
        · simpa using hhead
        · rw [next_set, hn]
          simp [eq_comm, next]
        · rw [prev_set_next hx']
          rfl
    | cons y ys =>
      obtain ⟨ey, hy⟩ := h.exists_heap (d := y) (by simp)
      have hlast : (y :: ys).getLast? ≠ some d := fun hl =>
        hd (List.mem_append_right _ (List.mem_of_getLast? hl))
      have hlast' : (xs ++ [x] ++ d :: y :: ys).getLast? = (y :: ys).getLast? := by
        simp [List.getLast?_append, List.getLast?_cons]
      have hxy : y ≠ x := by
        rintro rfl
        exact List.disjoint_of_nodup_append hnodup (by simp) List.mem_cons_self
      have hy' : (c.set x { ex with next := some y }).heap y = some ey := by simpa [hxy] using hy
      have hrew : Rewired c ((c.set x { ex with next := some y }).set y { ey with prev := some x }) t
          (xs ++ [x] ++ y :: ys) := by
        refine (Rewired.set hx ?_ ?_).trans (.set hy' ?_ ?_) <;> simp
      refine ⟨_, ?_, ?_, hrew⟩
      · rw [hlast'] at htail
        rw [CacheThread.unlink, if_neg (h.head_ne_tail (by simp; omega)), hhead, htail, he]
        simp only [Option.bind_eq_bind, Option.bind_some, if_neg hfirst, if_neg hlast, hep, hen, modifyAt,
          List.head?_cons, modify_eq hx]
        exact modify_eq hy' _
      · refine h.remove ?_ ?_ (fun z _ => ?_) (fun z _ => ?_) hrew
        · rw [list_set, list_set, hhead]
          cases xs <;> rfl
        · rw [list_set, list_set, htail, hlast']
          simp [List.getLast?_append, List.getLast?_cons]
        · rw [next_set_prev hy', next_set, hn]
          simp [eq_comm]
        · rw [prev_set, prev_set_next hx, hp]
          simp [eq_comm]

theorem Listed.linkHead {e : DcEntry A} (h : Listed c t xs) (he : c.heap d = some e) (hd : d ∉ xs) :
    ∃ c', c.linkHead t d = some c' ∧ Listed c' t (d :: xs) ∧ Rewired c c' t (d :: xs) := by
  cases xs with
  | nil =>
    have hrew : Rewired c ((c.set d { e with prev := none, next := none }).setList t fun l =>
        { l with head := some d, tail := some d }) t [d] := by
      refine (Rewired.set he ?_ ?_).trans (.setList rfl rfl) <;> simp
    refine ⟨_, ?_, ⟨by simp, by simp, ?_, by simp, by simp⟩, hrew⟩
    · simp only [CacheThread.linkHead, h.head, List.head?_nil, modify_eq he]
      rfl
    · exact ⟨by simp [prev], by simp [next], trivial⟩
  | cons x xs =>
    obtain ⟨ex, hx⟩ := h.exists_heap (d := x) List.mem_cons_self
    have hne : d ≠ x := by
      rintro rfl
      exact hd List.mem_cons_self
    have he' : (c.set x { ex with prev := some d }).heap d = some e := by simpa [hne] using he
    have hrew : Rewired c (((c.set x { ex with prev := some d }).set d
        { e with next := some x, prev := none }).setList t fun l => { l with head := some d }) t (d :: x :: xs) := by
      refine ((Rewired.set hx ?_ ?_).trans (.set he' ?_ ?_)).trans (.setList rfl rfl) <;> simp
    refine ⟨_, ?_, ⟨by simp, ?_, ⟨?_, ?_, h.linked.relink_first _ h.nodup (fun y hy => ?_) fun y hy => ?_⟩,
      ?_, ?_⟩, hrew⟩
    · simp only [CacheThread.linkHead, h.head, List.head?_cons, modify_eq hx, Option.bind_eq_bind, Option.bind_some,
        modify_eq he', Option.pure_def]
    · simp [h.tail]
    · simp [prev]
    · simp [next]
    · have hyd : y ≠ d := fun h => hd (h ▸ hy)
      refine Eq.trans (next_set _ _ _ _) ?_
      rw [if_neg hyd, next_set_prev hx]
    · have hyd : y ≠ d := fun h => hd (h ▸ hy)
      refine Eq.trans (prev_set _ _ _ _) ?_
      rw [if_neg hyd, prev_set]
      simp [eq_comm]
    · exact List.nodup_cons.mpr ⟨hd, h.nodup⟩
    · intro y hy
      refine (hrew.alloc y).mpr ?_
      rcases List.mem_cons.mp hy with rfl | hy
      · simp [he]
      · exact h.alloc y hy

theorem Listed.insertHead {e : DcEntry A} (h : Listed c t xs) (he : c.heap d = some e) (hd : d ∉ xs) :
    ∃ c', c.insertHead t d = some c' ∧ Listed c' t (d :: xs) ∧ Within c c' t (d :: xs) ∧
      (c'.list t).curSize = (c.list t).curSize + 1 ∧ ∀ x, c'.typeOf x = if x = d then some t else c.typeOf x := by
  obtain ⟨c₁, hlink, hlisted, hrew⟩ := h.linkHead he hd
  obtain ⟨e₁, he₁⟩ := hlisted.exists_heap (d := d) List.mem_cons_self
  have hwithin :
    Within c ((c₁.set d { e₁ with listType := t }).setList t fun l => { l with curSize := l.curSize + 1 })
      t (d :: xs) := (hrew.toWithin.trans (.set he₁ List.mem_cons_self _)).trans (.setList rfl)
  refine ⟨_, ?_, (hlisted.retype he₁ t).setList rfl rfl, hwithin, ?_, fun x => ?_⟩
  · simp only [CacheThread.insertHead, hlink, Option.bind_eq_bind, Option.bind_some, modify_eq he₁,
      Option.pure_def]
  · rw [list_setList, list_set, hrew.curSize]
  · rw [← hrew.typeOf]
    by_cases hx : x = d <;> simp [CacheThread.typeOf, hx]

/-! ## The other functions take the same steps -/

theorem set_comm {d' : Ptr} (h : d ≠ d') (c : CacheThread A) (e e' : DcEntry A) :
    (c.set d e).set d' e' = (c.set d' e').set d e := by
  simp only [set, Function.update_comm h]

@[simp] theorem set_set (c : CacheThread A) (d : Ptr) (e e' : DcEntry A) : (c.set d e).set d e' = c.set d e' := by
  simp [set]

theorem cutOut_eq_unlink (hne : (c.list t).head ≠ (c.list t).tail) (hd : (c.list t).head ≠ some d) :
    c.cutOut t d = c.unlink t d := by
  simp only [cutOut, unlink, if_neg hne, if_neg hd]

theorem removeTail_eq_unlink (hne : (c.list t).head ≠ (c.list t).tail) (hd : (c.list t).tail = some d) :
    c.removeTail t = (c.unlink t d).map fun c => (d, c.setList t fun l => { l with curSize := l.curSize - 1 }) := by
  rw [hd] at hne
  simp only [removeTail, unlink, hd, if_neg hne, Option.bind_eq_bind, Option.bind_some, if_true, Option.map_bind]
  cases c.heap d with
  | none => rfl
  | some e =>
    simp only [Option.bind_some, Function.comp_apply]
    exact Option.map_eq_bind.symm

theorem moveToHead_eq_linkHead {c₁ : CacheThread A} {x : Ptr} {e ex : DcEntry A} (hd : (c.list t).head ≠ some d)
    (hcut : c.cutOut t d = some c₁) (hhead : (c₁.list t).head = some x) (hx : c₁.heap x = some ex)
    (he : c₁.heap d = some e) (hne : d ≠ x) : c.moveToHead t d = c₁.linkHead t d := by
  have hx' : (c₁.set d { e with next := some x }).heap x = some ex := by simpa [hne.symm] using hx
  have he' : (c₁.set x { ex with prev := some d }).heap d = some e := by simpa [hne] using he
  have he'' : ((c₁.set d { e with next := some x }).set x { ex with prev := some d }).heap d =
      some { e with next := some x } := by simp [hne]
  simp only [moveToHead, if_neg hd, hcut, Option.bind_eq_bind, Option.bind_some, hhead, modifyAt, modify_eq he,
    modify_eq hx', modify_eq he'', linkHead, modify_eq hx, modify_eq he']
  rw [set_comm hne, set_set]

theorem Listed.moveToHead (h : Listed c t (xs ++ d :: ys)) :
    ∃ c', c.moveToHead t d = some c' ∧ Listed c' t (d :: (xs ++ ys)) ∧ Rewired c c' t (d :: (xs ++ ys)) := by
  cases xs with
  | nil =>
    refine ⟨c, by simp [CacheThread.moveToHead, h.head], h, ?_⟩
    exact ⟨⟨fun _ _ => rfl, fun _ => .rfl, fun _ _ => rfl, rfl⟩, fun _ => rfl, rfl⟩
  | cons x xs =>
    have hmid : d ∉ x :: xs ++ ys := (List.nodup_cons.mp (List.nodup_middle.mp h.nodup)).1
    have hne : d ≠ x := fun heq => hmid (by simp [heq])
    have hhead : (c.list t).head ≠ some d := by
      rw [h.head]
      simpa using hne.symm
    obtain ⟨c₁, hcut, hlisted, hrew⟩ := h.unlink
    rw [← cutOut_eq_unlink (h.head_ne_tail (by simp)) hhead] at hcut
    obtain ⟨e, he⟩ := h.exists_heap (d := d) (by simp)
    have he₁ : c₁.heap d = some e := (hrew.heap d hmid).trans he
    obtain ⟨ex, hx⟩ := hlisted.exists_heap (d := x) (by simp)
    obtain ⟨c', hlink, hlisted', hrew'⟩ := hlisted.linkHead he₁ hmid
    refine ⟨c', ?_, hlisted', ?_⟩
    · rw [moveToHead_eq_linkHead hhead hcut hlisted.head hx he₁ hne]
      exact hlink
    · exact (hrew.mono fun z hz => List.mem_cons_of_mem _ hz).trans hrew'

theorem modify_comm {d' : Ptr} (h : d ≠ d') (c : CacheThread A) (f g : DcEntry A → DcEntry A) :
    (c.modify d f).bind (modify · d' g) = (c.modify d' g).bind (modify · d f) := by
  cases he : c.heap d <;> cases he' : c.heap d' <;> simp [modify, he, he', h, h.symm, Function.update_comm h]

theorem cutFront_eq_unlink {e : DcEntry A} (hne : (c.list t).head ≠ (c.list t).tail)
    (hd : (c.list t).tail ≠ some d) (he : c.heap d = some e)
    (hpn : (c.list t).head ≠ some d → ∀ x ∈ e.prev, ∀ y ∈ e.next, x ≠ y) :
    c.cutFront t d = c.unlink t d := by
  simp only [cutFront, unlink, if_neg hne, if_neg hd, he, Option.bind_eq_bind, Option.bind_some]
  split
  · rfl
  · rename_i hhead
    cases hp : e.prev <;> cases hn : e.next <;> simp only [modifyAt, Option.bind_none, Option.bind_some]
    · exact Option.bind_fun_none _
    · exact (Option.bind_fun_none _).symm
    · exact modify_comm (hpn hhead _ hp _ hn).symm _ _ _

theorem Listed.linkTail {x : Ptr} {e : DcEntry A} (h : Listed c t (xs ++ [x])) (he : c.heap d = some e)
    (hd : d ∉ xs ++ [x]) :
    ∃ c', c.linkTail t d = some c' ∧ Listed c' t (xs ++ [x] ++ [d]) ∧ Rewired c c' t (xs ++ [x] ++ [d]) := by
  obtain ⟨ex, hx⟩ := h.exists_heap (d := x) (by simp)
  have hne : d ≠ x := fun heq => hd (by simp [heq])
  have htail : (c.list t).tail = some x := by rw [h.tail, List.getLast?_concat]
  have hx' : (c.set d { e with prev := some x }).heap x = some ex := by simpa [hne.symm] using hx
  have he' : ((c.set d { e with prev := some x }).set x { ex with next := some d }).heap d =
      some { e with prev := some x } := by simp [hne]
  have heq : c.linkTail t d = some (((c.set x { ex with next := some d }).set d
      { e with prev := some x, next := none }).setList t fun l => { l with tail := some d }) := by
    simp only [CacheThread.linkTail, htail, modifyAt, modify_eq he, modify_eq hx', modify_eq he', Option.bind_eq_bind,
      Option.bind_some, Option.pure_def]
    rw [set_comm hne, set_set]
  have hd' : (c.set x { ex with next := some d }).heap d = some e := by simpa [hne] using he
  have hrew : Rewired c (((c.set x { ex with next := some d }).set d
      { e with prev := some x, next := none }).setList t fun l => { l with tail := some d }) t
      (xs ++ [x] ++ [d]) := by
    refine ((Rewired.set hx ?_ ?_).trans (.set hd' ?_ ?_)).trans (.setList rfl rfl) <;> simp
  have hother : ∀ y ∈ xs ++ [x], y ≠ d := fun y hy heq => hd (heq ▸ hy)
  refine ⟨_, heq,
    ⟨?_, by simp, linked_append.mpr ⟨h.linked.relink_last _ h.nodup (fun y hy => ?_) fun y hy => ?_, ?_⟩,
    ?_, fun y hy => (hrew.alloc y).mpr ?_⟩, hrew⟩
  · rw [list_setList, List.head?_append_of_ne_nil _ (by simp)]
    exact h.head
  · refine Eq.trans (next_set _ _ _ _) ?_
    rw [if_neg (hother y hy), next_set]
    simp [eq_comm]
  · refine Eq.trans (prev_set _ _ _ _) ?_
    rw [if_neg (hother y hy), prev_set_next hx]
  · exact ⟨by simp [prev], by simp [next], trivial⟩
  · exact List.nodup_append'.mpr ⟨h.nodup, List.nodup_singleton d, List.disjoint_singleton.mpr hd⟩
  · rcases List.mem_append.mp hy with hy | hy
    · exact h.alloc y hy
    · rw [List.mem_singleton.mp hy, he]
      simp

theorem Listed.moveToTail (h : Listed c t (xs ++ d :: ys)) :
    ∃ c', c.moveToTail t d = some c' ∧ Listed c' t (xs ++ ys ++ [d]) ∧ Rewired c c' t (xs ++ ys ++ [d]) := by
  cases ys using List.reverseRecOn with
  | nil =>
    refine ⟨c, by simp [CacheThread.moveToTail, h.tail], by simpa using h, ?_⟩
    exact ⟨⟨fun _ _ => rfl, fun _ => .rfl, fun _ _ => rfl, rfl⟩, fun _ => rfl, rfl⟩
  | append_singleton ys y _ =>
    obtain ⟨hmid, hnodup⟩ := List.nodup_cons.mp (List.nodup_middle.mp h.nodup)
    have htail : (c.list t).tail ≠ some d := by
      have hlast : (xs ++ d :: (ys ++ [y])).getLast? = some y := by simp [List.getLast?_append, List.getLast?_cons]
      rw [h.tail, hlast]
      intro heq
      exact hmid (by simp [Option.some.inj heq])
    obtain ⟨e, he⟩ := h.exists_heap (d := d) (by simp)
    obtain ⟨c₁, hcut, hlisted, hrew⟩ := h.unlink
    rw [← cutFront_eq_unlink (h.head_ne_tail (by simp; omega)) htail he ?_] at hcut
    · have he₁ : c₁.heap d = some e := (hrew.heap d hmid).trans he
      rw [← List.append_assoc] at hlisted hmid
      obtain ⟨c', hlink, hlisted', hrew'⟩ := hlisted.linkTail he₁ hmid
      rw [← List.append_assoc]
      refine ⟨c', ?_, hlisted', ?_⟩
      · rw [CacheThread.moveToTail, if_neg htail, hcut]
        exact hlink
      · exact (hrew.mono fun z hz => List.mem_append_left _ (by simpa using hz)).trans hrew'
    · -- in the middle the two neighbours differ
      obtain ⟨hp, hn⟩ := h.linked.neighbours
      rw [Option.or_none] at hp hn
      have hep : e.prev = xs.getLast? := by rw [← hp, prev, he, Option.bind_some]
      have hen : e.next = (ys ++ [y]).head? := by rw [← hn, next, he, Option.bind_some]
      intro _ u hu v hv huv
      exact List.disjoint_of_nodup_append hnodup (List.mem_of_getLast? (hep ▸ hu))
        (List.mem_of_head? (huv ▸ hen ▸ hv))

/-! ## Both lists -/

/-- The lists hold the entries `L`, of at most `M` each; `o` is on neither, and every
other entry of the heap is on the list that its `list_type` names. -/
structure Lists (c : CacheThread A) (M : ListType → ℤ) (L : ListType → List Ptr) (o : Option Ptr) : Prop where
  listed : ∀ t, Listed c t (L t)
  typeOf : ∀ t, ∀ d ∈ L t, c.typeOf d = some t
  owned : ∀ d, c.heap d ≠ none → (∃ t, d ∈ L t) ∨ o = some d
  loose : ∀ d ∈ o, c.heap d ≠ none ∧ ∀ t, d ∉ L t
  maxSize : ∀ t, (c.list t).maxSize = M t
  curSize : ∀ t, (c.list t).curSize = (L t).length

variable {M : ListType → ℤ} {L : ListType → List Ptr} {o : Option Ptr}

theorem Lists.disjoint (h : Lists c M L o) {t t' : ListType} (hne : t' ≠ t) (hd : d ∈ L t) :
    d ∉ L t' := fun hd' =>
  hne (Option.some.inj ((h.typeOf t' d hd').symm.trans (h.typeOf t d hd)))

/-- A function on the list `t` that leaves `l` there and `o'` on neither list. -/
theorem Lists.replace {l : List Ptr} {o' : Option Ptr} (h : Lists c M L o) (hlisted : Listed c' t l)
    (hwithin : Within c c' t ds) (hds : ∀ x ∈ ds, x ∈ L t ∨ o = some x)
    (htype : ∀ x ∈ l, c'.typeOf x = some t) (hcur : (c'.list t).curSize = l.length)
    (howned : ∀ x, x ∈ l ∨ o' = some x ↔ x ∈ L t ∨ o = some x)
    (hloose : ∀ x ∈ o', x ∉ l) : Lists c' M (Function.update L t l) o' := by
  have hnot : ∀ {t'} {x}, t' ≠ t → x ∈ L t ∨ o = some x → x ∉ L t' := fun ht hor =>
    hor.elim (h.disjoint ht) fun ho => (h.loose _ ho).2 _
  have hheap : ∀ t' ≠ t, ∀ x ∈ L t', c'.heap x = c.heap x := fun t' ht x hx =>
    hwithin.heap x fun hmem => hnot ht (hds x hmem) hx
  constructor
  case listed =>
    intro t'
    by_cases ht : t' = t
    · subst ht
      simpa using hlisted
    · simpa [ht] using (h.listed t').congr (hwithin.list t' ht) (hheap t' ht)
  case typeOf =>
    intro t' x hx
    by_cases ht : t' = t
    · subst ht
      exact htype x (by simpa using hx)
    · rw [Function.update_of_ne ht] at hx
      rw [CacheThread.typeOf, hheap t' ht x hx]
      exact h.typeOf t' x hx
  case owned =>
    intro x hx
    have hold : x ∈ L t ∨ o = some x → (∃ t', x ∈ Function.update L t l t') ∨ o' = some x := fun hor =>
      ((howned x).mpr hor).imp (fun hl => ⟨t, by simpa using hl⟩) id
    rcases h.owned x ((hwithin.alloc x).mp hx) with ⟨t', ht'⟩ | ho
    · by_cases ht : t' = t
      · exact hold (.inl (ht ▸ ht'))
      · exact .inl ⟨t', by simpa [ht] using ht'⟩
    · exact hold (.inr ho)
  case loose =>
    intro x hx
    have hold := (howned x).mp (.inr hx)
    refine ⟨(hwithin.alloc x).mpr (hold.elim ((h.listed t).alloc x) fun ho => (h.loose x ho).1), fun t' => ?_⟩
    by_cases ht : t' = t
    · subst ht
      simpa using hloose x hx
    · rw [Function.update_of_ne ht]
      exact hnot ht hold
  case maxSize =>
    intro t'
    by_cases ht : t' = t
    · rw [ht, hwithin.maxSize, h.maxSize]
    · rw [hwithin.list t' ht, h.maxSize]
  case curSize =>
    intro t'
    by_cases ht : t' = t
    · subst ht
      simpa using hcur
    · rw [hwithin.list t' ht, h.curSize, Function.update_of_ne ht]

theorem Lists.insertHead (h : Lists c M L (some d)) (t : ListType) :
    ∃ c', c.insertHead t d = some c' ∧ Lists c' M (Function.update L t (d :: L t)) none := by
  obtain ⟨halloc, hloose⟩ := h.loose d rfl
  obtain ⟨e, he⟩ := Option.ne_none_iff_exists'.mp halloc
  obtain ⟨c', hinsert, hlisted, hwithin, hcur, htype⟩ := (h.listed t).insertHead he (hloose t)
  refine ⟨c', hinsert, h.replace hlisted hwithin (fun x hx => ?_) (fun x hx => ?_) ?_ (fun x => ?_) (by simp)⟩
  · simpa [eq_comm, or_comm] using hx
  · rw [htype]
    split
    · rfl
    · rename_i hxd
      exact h.typeOf t x (List.mem_of_ne_of_mem hxd hx)
  · rw [hcur, h.curSize, List.length_cons, Nat.cast_succ]
  · simp [eq_comm, or_comm]

theorem Lists.unlink (h : Lists c M L none) (ht : L t = xs ++ d :: ys) : ∃ c', c.unlink t d = some c' ∧
    c'.heap d = c.heap d ∧ Lists (c'.setList t fun l => { l with curSize := l.curSize - 1 }) M
      (Function.update L t (xs ++ ys)) (some d) := by
  have hlisted := h.listed t
  rw [ht] at hlisted
  obtain ⟨c', hunlink, hlisted', hrew⟩ := hlisted.unlink
  have hd : d ∉ xs ++ ys := (List.nodup_cons.mp (List.nodup_middle.mp hlisted.nodup)).1
  have hsub : ∀ x ∈ xs ++ ys, x ∈ L t := fun x hx => by
    rw [ht]
    simp only [List.mem_append, List.mem_cons] at hx ⊢
    exact hx.imp id .inr
  refine ⟨c', hunlink, hrew.heap d hd, h.replace (hlisted'.setList rfl rfl) (hrew.toWithin.trans (.setList rfl))
    (fun x hx => .inl (hsub x hx)) (fun x hx => (hrew.typeOf x).trans (h.typeOf t x (hsub x hx))) ?_
    (fun x => ?_) ?_⟩
  · rw [list_setList, hrew.curSize, h.curSize, ht]
    simp
    omega
  · rw [ht]
    simp only [List.mem_append, List.mem_cons, Option.some.injEq, reduceCtorEq, or_false]
    tauto
  · simpa using hd

theorem Lists.moveToHead (h : Lists c M L none) (ht : L t = xs ++ d :: ys) :
    ∃ c', c.moveToHead t d = some c' ∧ Lists c' M (Function.update L t (d :: (xs ++ ys))) none := by
  have hlisted := h.listed t
  rw [ht] at hlisted
  obtain ⟨c', hmove, hlisted', hrew⟩ := hlisted.moveToHead
  have hmem : ∀ x, x ∈ d :: (xs ++ ys) ↔ x ∈ L t := fun x => by
    rw [ht]
    exact List.perm_middle.mem_iff.symm
  refine ⟨c', hmove, h.replace hlisted' hrew.toWithin (fun x hx => .inl ((hmem x).mp hx))
    (fun x hx => (hrew.typeOf x).trans (h.typeOf t x ((hmem x).mp hx))) ?_ (fun x => ?_) (by simp)⟩
  · rw [hrew.curSize, h.curSize, ht]
    simp
    omega
  · simp only [hmem]

theorem Lists.removeTail (h : Lists c M L none) (ht : L t = xs ++ [d]) (hne : xs ≠ []) :
    ∃ c', c.removeTail t = some (d, c') ∧ Lists c' M (Function.update L t xs) (some d) := by
  have hlisted := h.listed t
  rw [ht] at hlisted
  obtain ⟨c', hunlink, -, hlists⟩ := h.unlink ht
  have hlen : 1 < (xs ++ [d]).length := by
    have := List.length_pos_iff.mpr hne
    simpa using this
  refine ⟨_, ?_, List.append_nil xs ▸ hlists⟩
  have htail : (c.list t).tail = some d := by simp [hlisted.tail]
  rw [removeTail_eq_unlink (hlisted.head_ne_tail hlen) htail, hunlink]
  rfl

theorem Lists.outside {o' : Option Ptr} (h : Lists c M L o) (hlist : c'.list = c.list)
    (hheap : ∀ x ≠ d, c'.heap x = c.heap x) (hnot : ∀ t, d ∉ L t)
    (howned : ∀ x, c'.heap x ≠ none → (∃ t, x ∈ L t) ∨ o' = some x)
    (hloose : ∀ x ∈ o', c'.heap x ≠ none ∧ ∀ t, x ∉ L t) : Lists c' M L o' := by
  have hsame : ∀ t, ∀ x ∈ L t, c'.heap x = c.heap x := fun t x hx =>
    hheap x fun heq => hnot t (heq ▸ hx)
  refine ⟨fun t => (h.listed t).congr (congrFun hlist t) (hsame t), fun t x hx => ?_, howned, hloose,
    fun t => hlist ▸ h.maxSize t, fun t => hlist ▸ h.curSize t⟩
  rw [CacheThread.typeOf, hsame t x hx]
  exact h.typeOf t x hx

theorem Lists.allocEntry {a : A} {q : CqEntry A} (h : Lists c M L none) (hd : c.heap d = none) (t : ListType) :
    ∃ c', c.allocEntry t d a q = some c' ∧ Lists c' M L (some d) := by
  have hnot : ∀ t, d ∉ L t := fun t hmem => (h.listed t).alloc d hmem hd
  refine ⟨c.set d ⟨a, q.key, q.val, t, none, none, none, none⟩, by simp [CacheThread.allocEntry, hd, set],
    h.outside rfl (fun x hx => by simp [hx]) hnot (fun x hx => ?_) ?_⟩
  · by_cases hxd : x = d
    · exact .inr (congrArg some hxd.symm)
    · exact .inl ((h.owned x (by simpa [hxd] using hx)).resolve_right (by simp))
  · rintro x ⟨⟩
    exact ⟨by simp, hnot⟩

theorem Lists.freeEntry (h : Lists c M L (some d)) (hu : c.Unchained) :
    ∃ c', c.freeEntry d = some c' ∧ Lists c' M L none := by
  obtain ⟨halloc, hnot⟩ := h.loose d rfl
  obtain ⟨e, he⟩ := Option.ne_none_iff_exists'.mp halloc
  obtain ⟨hp, hn⟩ := hu d e he
  refine ⟨{ c with heap := Function.update c.heap d none }, ?_,
    h.outside rfl (fun x hx => by simp [hx]) hnot (fun x hx => ?_) (by simp)⟩
  · simp [CacheThread.freeEntry, he, uncouple, modifySome, hp, hn]
  · have hxd : x ≠ d := by
      rintro rfl
      simp at hx
    have hold := h.owned x (by simpa [hxd] using hx)
    exact .inl (hold.resolve_right (by simpa using hxd.symm))

end Hkv.DramCache.CacheThread
