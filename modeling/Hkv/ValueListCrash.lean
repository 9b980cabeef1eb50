import Hkv.PersistentMemory
import Hkv.TandemChain

/-!
# The value list and crashes

`ValueList::insert` stores into the new vnode and into its predecessor, and then flushes
the one and the other. A crash may keep the second store without the first.
-/
namespace Hkv.Tandem
open LinkedChain PersistentMemory DramSkiplist

/-- The fields of a vnode that change; the pool writes `id` once. -/
inductive Field where
  | next | key | value
  deriving DecidableEq

abbrev Field.type : Field → Type
  | .next => ℤ
  | .key => ℕ
  | .value => ℕ

abbrev Cell := ℕ × Field
abbrev VnodeMem := Pmem Cell fun c => c.2.type
abbrev VnodeAct := Act Cell fun c => c.2.type
abbrev VnodeImage := ∀ c : Cell, c.2.type

def vnodeOf (img : VnodeImage) (v : ℕ) : Vnode := ⟨img (v, .next), img (v, .key), img (v, .value)⟩

/-- The `sizeof(Vnode)` bytes of a vnode. -/
def cells (v : ℕ) : List Cell := [(v, .next), (v, .key), (v, .value)]

/-- The two forms of `ValueList::insert`. -/
inductive Overload where
  | pair (key value : ℕ)
  | vnode (startNode : ℕ)

/-- The key that is inserted: the second form finds it in the new vnode. -/
def Overload.key (m : VnodeMem) (new : ℕ) : Overload → ℕ
  | .pair key _ => key
  | .vnode _ => m.read (new, .key)

def Overload.value (m : VnodeMem) (new : ℕ) : Overload → ℕ
  | .pair _ value => value
  | .vnode _ => m.read (new, .value)

/-- What an insert behind `cur` is to make of the vnode `new`. -/
def Overload.contents (m : VnodeMem) (new cur : ℕ) (o : Overload) : Vnode :=
  ⟨m.read (cur, .next), o.key m new, o.value m new⟩

namespace TandemIndex

/-- The index with the value list as the memory has it. -/
def onImage (t : TandemIndex) (img : VnodeImage) : TandemIndex := { t with vnode := vnodeOf img }

/-- Only the first form stores key and value itself. -/
def dataStores (new : ℕ) : Overload → List VnodeAct
  | .pair key value => [.store (new, .key) key, .store (new, .value) value]
  | .vnode _ => []

def startOf (t : TandemIndex) : Overload → ℕ
  | .pair _ _ => t.head
  | .vnode startNode => startNode

def linkStores (m : VnodeMem) (new cur : ℕ) : List VnodeAct :=
  [.store (new, .next) (m.read (cur, .next)), .store (cur, .next) (new : ℤ), .persist (cells new),
    .persist (cells cur)]

/-- The program of an insert behind `cur`. -/
def actsBehind (m : VnodeMem) (new cur : ℕ) (o : Overload) : List VnodeAct :=
  dataStores new o ++ linkStores (m.run (dataStores new o)) new cur

/-- What `ValueList::insert` of vnode `new` does to the memory. -/
def insertActs (t : TandemIndex) (m : VnodeMem) (new : ℕ) (o : Overload) : Option (List VnodeAct) :=
  let m₁ := m.run (dataStores new o)
  ((t.onImage m₁.read).valueWalk (m₁.read (new, .key)) vnodeNum (t.startOf o)).map fun cur =>
    actsBehind m new cur o

/-- The vnodes from the head on with their contents, if the walk ends. -/
def chainOf (t : TandemIndex) (img : VnodeImage) : Option (List (ℕ × Vnode)) :=
  ((t.onImage img).valueNodes vnodeNum t.head).map fun l => (t.head :: l).map fun v => (v, vnodeOf img v)

/-- Whenever the program is interrupted, the chain is that before it or that after it. -/
def CrashConsistent (t : TandemIndex) (m : VnodeMem) (acts : List VnodeAct) : Prop :=
  ∀ k img, (m.run (acts.take k)).Image img →
    t.chainOf img = t.chainOf m.read ∨ t.chainOf img = t.chainOf (m.run acts).read

/-- A value list, a place to start and a vnode that no crash could leave on the chain. -/
structure Insertable (t : TandemIndex) (m : VnodeMem) (new : ℕ) (o : Overload) (l : List ℕ) : Prop where
  chain : Chain (t.onImage m.read).vnext t.head l (-1)
  nodup : (new :: t.head :: l).Nodup
  lt : ∀ v ∈ new :: t.head :: l, v < vnodeNum
  start : t.startOf o ∈ t.head :: l
  unlinked : ∀ img, m.Image img → ∀ c, t.chainOf img = some c → new ∉ c.map Prod.fst

variable {t : TandemIndex} {m : VnodeMem} {img img' : VnodeImage} {new cur : ℕ} {o : Overload} {l : List ℕ}

theorem chainOf_eq (hchain : Chain (t.onImage img).vnext t.head l (-1)) (hnd : (t.head :: l).Nodup)
    (hlt : ∀ v ∈ t.head :: l, v < vnodeNum) :
    t.chainOf img = some ((t.head :: l).map fun v => (v, vnodeOf img v)) := by
  have hlen := length_le_of_nodup hnd hlt
  rw [List.length_cons] at hlen
  rw [chainOf, valueNodes_eq hchain (fun v hv => hlt v (List.mem_cons_of_mem _ hv)) (Nat.lt_of_succ_le hlen),
    Option.map_some]

theorem chainOf_congr (hchain : Chain (t.onImage img).vnext t.head l (-1)) (hnd : (t.head :: l).Nodup)
    (hlt : ∀ v ∈ t.head :: l, v < vnodeNum) (h : ∀ v ∈ t.head :: l, vnodeOf img' v = vnodeOf img v) :
    t.chainOf img' = t.chainOf img := by
  have hnext : ∀ v ∈ t.head :: l, (t.onImage img').vnext v = (t.onImage img).vnext v := fun v hv => by
    show (vnodeOf img' v).next = (vnodeOf img v).next
    rw [h v hv]
  have hchain' : Chain (t.onImage img').vnext t.head l (-1) :=
    hchain.congr (hnext _ List.mem_cons_self) fun v hv => hnext v (List.mem_cons_of_mem _ hv)
  rw [chainOf_eq hchain hnd hlt, chainOf_eq hchain' hnd hlt]
  congr 1
  exact List.map_congr_left fun v hv => by rw [h v hv]

theorem vnodeOf_of_mem_chainOf {c : List (ℕ × Vnode)} (h : t.chainOf img = some c) {v : ℕ} {x : Vnode}
    (hv : (v, x) ∈ c) : vnodeOf img v = x := by
  obtain ⟨l, -, rfl⟩ := Option.map_eq_some_iff.mp h
  obtain ⟨w, -, he⟩ := List.mem_map.mp hv
  cases he
  rfl

/-! ## What an insert does to the memory -/

theorem read_dataStores {v : ℕ} (hv : v ≠ new) (f : Field) :
    (m.run (dataStores new o)).read (v, f) = m.read (v, f) := by
  have hne : ∀ g, (v, f) ≠ (new, g) := fun g he => hv (congrArg Prod.fst he)
  cases o with
  | pair key value =>
    simp only [dataStores, Pmem.run_cons, Pmem.run_nil, Pmem.read_store_of_ne _ _ (hne _)]
  | vnode startNode => rfl

theorem vnodeOf_dataStores (m : VnodeMem) (new : ℕ) (o : Overload) :
    vnodeOf (m.run (dataStores new o)).read new = ⟨m.read (new, .next), o.key m new, o.value m new⟩ := by
  have hne : ∀ {f g : Field}, f ≠ g → (new, f) ≠ (new, g) := fun hf he => hf (congrArg Prod.snd he)
  cases o with
  | pair key value =>
    simp only [vnodeOf, dataStores, Pmem.run_cons, Pmem.run_nil, Pmem.read_store_self,
      Pmem.read_store_of_ne _ _ (hne (show Field.next ≠ .value by decide)),
      Pmem.read_store_of_ne _ _ (hne (show Field.next ≠ .key by decide)),
      Pmem.read_store_of_ne _ _ (hne (show Field.key ≠ .value by decide)), Overload.key, Overload.value]
  | vnode startNode => rfl

theorem vnodeOf_store_next (m : VnodeMem) (v : ℕ) (x : ℤ) : vnodeOf (m.exec (.store (v, .next) x)).read =
    Function.update (vnodeOf m.read) v { vnodeOf m.read v with next := x } := by
  funext w
  by_cases hw : w = v
  · subst hw
    have hf : ∀ f, f ≠ Field.next → (w, f) ≠ (w, Field.next) := fun f hf he => hf (congrArg Prod.snd he)
    simp only [vnodeOf, Pmem.read_store_self, Pmem.read_store_of_ne _ _ (hf .key (by simp)),
      Pmem.read_store_of_ne _ _ (hf .value (by simp)), Function.update_self]
  · have hf : ∀ f, (w, f) ≠ (v, Field.next) := fun f he => hw (congrArg Prod.fst he)
    simp only [vnodeOf, Pmem.read_store_of_ne _ _ (hf _), Function.update_of_ne hw]

theorem vnodeOf_actsBehind (m : VnodeMem) (new cur : ℕ) (o : Overload) :
    let m₁ := m.run (dataStores new o)
    let linked :=
    Function.update (vnodeOf m₁.read) new { vnodeOf m₁.read new with next := m₁.read (cur, .next) }
    vnodeOf (m.run (actsBehind m new cur o)).read = Function.update linked cur { linked cur with next := new } := by
  intro m₁ linked
  have hpersist : ∀ (m : VnodeMem) as, vnodeOf (m.exec (.persist as)).read = vnodeOf m.read := fun m as => by
    funext v
    simp only [vnodeOf, Pmem.read_persist]
  simp only [actsBehind, Pmem.run_append, linkStores, Pmem.run_cons, Pmem.run_nil, hpersist, vnodeOf_store_next]
  rfl

theorem insertActs_valueInsert (t : TandemIndex) (m : VnodeMem) (new : ℕ) (o : Overload) :
    (t.insertActs m new o).map (fun acts => t.onImage (m.run acts).read) =
      (t.onImage (m.run (dataStores new o)).read).valueInsert (t.startOf o) new := by
  have hacts : ∀ cur, t.onImage (m.run (actsBehind m new cur o)).read =
      ((t.onImage (m.run (dataStores new o)).read).modifyVnode new fun n =>
        { n with next := (m.run (dataStores new o)).read (cur, .next) }).modifyVnode cur fun n =>
          { n with next := new } :=
    fun cur => by rw [onImage, vnodeOf_actsBehind]; rfl
  have hkey : ((t.onImage (m.run (dataStores new o)).read).vnode new).key =
    (m.run (dataStores new o)).read (new, .key) := rfl
  rw [insertActs, valueInsert, Option.map_map, hkey, Option.map_eq_bind]
  exact congrArg (Option.bind _) (funext fun cur => congrArg some (hacts cur))

/-- What the memory shows after an insert behind `cur`. -/
structure Written (m m' : VnodeMem) (new cur : ℕ) (o : Overload) : Prop where
  other : ∀ v, v ≠ new → v ≠ cur → vnodeOf m'.read v = vnodeOf m.read v
  pred : vnodeOf m'.read cur = { vnodeOf m.read cur with next := new }
  new : vnodeOf m'.read new = o.contents m new cur

theorem written (hne : cur ≠ new) : Written m (m.run (actsBehind m new cur o)) new cur o := by
  have hdata : ∀ v, v ≠ new → vnodeOf (m.run (dataStores new o)).read v = vnodeOf m.read v := fun v hv => by
    simp only [vnodeOf, read_dataStores hv]
  refine ⟨fun v h₁ h₂ => ?_, ?_, ?_⟩ <;> rw [vnodeOf_actsBehind]
  · rw [Function.update_of_ne h₂, Function.update_of_ne h₁, hdata v h₁]
  · rw [Function.update_self, Function.update_of_ne hne, hdata cur hne]
  · rw [Function.update_of_ne hne.symm, Function.update_self, read_dataStores hne, vnodeOf_dataStores]
    rfl

theorem Insertable.head_ne (h : Insertable t m new o l) {v : ℕ} (hv : v ∈ t.head :: l) : v ≠ new := by
  rintro rfl
  exact (List.nodup_cons.mp h.nodup).1 hv

theorem exists_getLastD {a x : ℕ} (h : x ∈ a :: l) : ∃ f g, l = f ++ g ∧ f.getLastD a = x := by
  rcases List.mem_cons.mp h with rfl | h
  · exact ⟨[], l, rfl, rfl⟩
  · obtain ⟨f, g, rfl⟩ := List.append_of_mem h
    exact ⟨f ++ [x], g, by simp, by simp⟩

/-- An insert returns, and links the vnode in behind the node at which the walk for its key ends. -/
theorem Insertable.insertActs_eq (h : Insertable t m new o l) : ∃ f g, l = f ++ g ∧
    (t.onImage m.read).valueWalk (o.key m new) vnodeNum (t.startOf o) = some (f.getLastD t.head) ∧
    t.insertActs m new o = some (actsBehind m new (f.getLastD t.head) o) := by
  obtain ⟨l₁, l₂, hsplit⟩ := List.append_of_mem h.start
  have hrest := chain_from h.chain hsplit
  have hsub : ∀ v ∈ t.startOf o :: l₂, v ∈ t.head :: l := fun v hv => by
    rw [show t.head :: l = l₁ ++ t.startOf o :: l₂ from hsplit]
    exact List.mem_append_right _ hv
  have hlt : ∀ v ∈ t.startOf o :: l₂, v < vnodeNum := fun v hv => h.lt v (List.mem_cons_of_mem _ (hsub v hv))
  have hlt₂ : ∀ v ∈ l₂, v < vnodeNum := fun v hv => hlt v (List.mem_cons_of_mem _ hv)
  have hnd : (t.startOf o :: l₂).Nodup := by
    have hall := (List.nodup_cons.mp h.nodup).2
    rw [show t.head :: l = l₁ ++ t.startOf o :: l₂ from hsplit] at hall
    exact (List.nodup_append.mp hall).2.1
  have hlen := length_le_of_nodup hnd hlt
  rw [List.length_cons] at hlen
  have hwalk := valueWalk_spec (o.key m new) vnodeNum hrest hlt₂ (Nat.lt_of_succ_le hlen)
  -- the node the walk stops at, as the last one of a front part of the chain
  have hmem := hsub _ (List.cons_subset_cons (t.startOf o) (List.takeWhile_prefix _).subset
    (List.getLastD_mem_cons (l := l₂.takeWhile ((t.onImage m.read).before (o.key m new)))))
  obtain ⟨f, g, hfg, hlast⟩ := exists_getLastD hmem
  rw [← hlast] at hwalk
  -- the stores to the new vnode come before the walk, but do not change the chain
  have hsame : ∀ v ∈ t.startOf o :: l₂,
    (t.onImage (m.run (dataStores new o)).read).vnode v = (t.onImage m.read).vnode v := by
    intro v hv
    show vnodeOf _ v = vnodeOf _ v
    simp only [vnodeOf, read_dataStores (h.head_ne (hsub v hv))]
  have hkey : (m.run (dataStores new o)).read (new, .key) = o.key m new :=
    congrArg Vnode.key (vnodeOf_dataStores m new o)
  refine ⟨f, g, hfg, hwalk, ?_⟩
  rw [insertActs, hkey]
  exact congrArg (Option.map _) ((valueWalk_congr _ _ hrest hlt₂ hsame).trans hwalk)

theorem Written.chain {m' : VnodeMem} {f g : List ℕ} (h : Insertable t m new o (f ++ g))
    (hw : Written m m' new (f.getLastD t.head) o) : Chain (t.onImage m'.read).vnext t.head (f ++ new :: g) (-1) := by
  have hlink : (t.onImage m'.read).vnext = Function.update (Function.update (t.onImage m.read).vnext new
      ((t.onImage m.read).vnext (f.getLastD t.head))) (f.getLastD t.head) new := by
    funext v
    show (vnodeOf m'.read v).next = _
    by_cases h₁ : v = f.getLastD t.head
    · rw [h₁, Function.update_self, hw.pred]
    · rw [Function.update_of_ne h₁]
      by_cases h₂ : v = new
      · rw [h₂, Function.update_self, hw.new]
        rfl
      · rw [Function.update_of_ne h₂, hw.other v h₂ h₁]
        rfl
  rw [hlink]
  exact h.chain.insert h.nodup

/-! ## Crashes -/

theorem store_other {v : ℕ} {f : Field} {x : f.type} (hv : v ≠ new)
    (h : (.store (v, f) x : VnodeAct) ∈ actsBehind m new cur o) : (v, f) = (cur, .next) := by
  cases o <;> simp_all [actsBehind, dataStores, linkStores]

theorem store_pred {x : ℤ} (hne : cur ≠ new) (h : (.store (cur, .next) x : VnodeAct) ∈ actsBehind m new cur o) :
    x = new := by
  cases o <;> simp_all [actsBehind, dataStores, linkStores]

theorem store_new {f : Field} {x : f.type} (hne : cur ≠ new)
    (h : (.store (new, f) x : VnodeAct) ∈ actsBehind m new cur o) :
    x = (m.run (actsBehind m new cur o)).read (new, f) := by
  have hfinal := (written (m := m) (o := o) hne).new
  have hnext : (m.run (actsBehind m new cur o)).read (new, .next) = m.read (cur, .next) := congrArg Vnode.next hfinal
  have hkey : (m.run (actsBehind m new cur o)).read (new, .key) = o.key m new := congrArg Vnode.key hfinal
  have hvalue : (m.run (actsBehind m new cur o)).read (new, .value) = o.value m new := congrArg Vnode.value hfinal
  have hcur : ∀ f, (m.run (dataStores new o)).read (cur, f) = m.read (cur, f) := read_dataStores hne
  cases f with
  | next =>
    rw [hnext, ← hcur]
    cases o <;> simpa [actsBehind, dataStores, linkStores, hne.symm] using h
  | key =>
    rw [hkey]
    cases o with
    | pair key value => simpa [actsBehind, dataStores, linkStores, Overload.key] using h
    | vnode startNode => simp [actsBehind, dataStores, linkStores] at h
  | value =>
    rw [hvalue]
    cases o with
    | pair key value => simpa [actsBehind, dataStores, linkStores, Overload.value] using h
    | vnode startNode => simp [actsBehind, dataStores, linkStores] at h

theorem image_pred (new cur : ℕ) (o : Overload) (himg : m.Image img) :
    ∃ k, (m.run ((actsBehind m new cur o).take k)).Image (Function.update img (cur, .next) (new : ℤ)) := by
  let stores : List VnodeAct :=
    dataStores new o ++ [.store (new, .next) ((m.run (dataStores new o)).read (cur, .next))]
  let link : VnodeAct := .store (cur, .next) (new : ℤ)
  have hsplit : actsBehind m new cur o = (stores ++ [link]) ++ [.persist (cells new), .persist (cells cur)] := by
    simp [actsBehind, linkStores, stores, link]
  refine ⟨(stores ++ [link]).length, ?_⟩
  rw [hsplit, List.take_left, Pmem.run_append]
  refine Pmem.image_iff.mpr fun c => ?_
  by_cases hc : c = (cur, .next)
  · subst hc
    rw [Function.update_self]
    exact Pmem.mem_possible_store ..
  · rw [Function.update_of_ne hc]
    refine Pmem.possible_store _ _ _ _ (Pmem.possible_stores (fun act hact => ?_) c (Pmem.image_iff.mp himg c))
    cases o <;> simp [stores, dataStores] at hact <;> grind

/-- An insert behind `cur`: the chain before it and the chain after it. -/
structure Splice (t : TandemIndex) (m m' : VnodeMem) (new cur : ℕ) (o : Overload) (l l' : List ℕ) : Prop where
  pred : cur ∈ t.head :: l
  pred_ne : cur ≠ new
  written : Written m m' new cur o
  nodes : ∀ v, v ∈ t.head :: l' ↔ v = new ∨ v ∈ t.head :: l
  before : t.chainOf m.read = some ((t.head :: l).map fun v => (v, vnodeOf m.read v))
  after : t.chainOf m'.read = some ((t.head :: l').map fun v => (v, vnodeOf m'.read v))
  congr : ∀ img, (∀ v ∈ t.head :: l, vnodeOf img v = vnodeOf m.read v) → t.chainOf img = t.chainOf m.read
  congr' : ∀ img, (∀ v ∈ t.head :: l', vnodeOf img v = vnodeOf m'.read v) → t.chainOf img = t.chainOf m'.read

theorem Insertable.splice {f g : List ℕ} (h : Insertable t m new o (f ++ g)) :
    Splice t m (m.run (actsBehind m new (f.getLastD t.head) o)) new (f.getLastD t.head) o (f ++ g)
    (f ++ new :: g) := by
  have hcur : f.getLastD t.head ∈ t.head :: (f ++ g) :=
    List.cons_subset_cons _ (List.subset_append_left f g) List.getLastD_mem_cons
  have hne := h.head_ne hcur
  have hperm : (t.head :: (f ++ new :: g)).Perm (new :: t.head :: (f ++ g)) :=
    (List.perm_middle.cons t.head).trans (List.Perm.swap new t.head (f ++ g))
  have hnd := (List.nodup_cons.mp h.nodup).2
  have hlt : ∀ v ∈ t.head :: (f ++ g), v < vnodeNum := fun v hv => h.lt v (List.mem_cons_of_mem _ hv)
  have hw : Written m (m.run (actsBehind m new (f.getLastD t.head) o)) new (f.getLastD t.head) o := written hne
  have hnd' : (t.head :: (f ++ new :: g)).Nodup := hperm.nodup_iff.mpr h.nodup
  have hlt' : ∀ v ∈ t.head :: (f ++ new :: g), v < vnodeNum := fun v hv => h.lt v (hperm.mem_iff.mp hv)
  exact ⟨hcur, hne, hw, fun v => hperm.mem_iff.trans List.mem_cons, chainOf_eq h.chain hnd hlt,
    chainOf_eq (hw.chain h) hnd' hlt', fun img => chainOf_congr h.chain hnd hlt,
    fun img => chainOf_congr (hw.chain h) hnd' hlt'⟩

section Moments
variable {m' : VnodeMem} {l' : List ℕ}

theorem Splice.vnodeOf_eq (h : Splice t m m' new cur o l l')
    (himg : vnodeOf img cur = { vnodeOf m.read cur with next := new })
    (hlink : (vnodeOf m.read cur).next ≠ new)
    (hsafe : t.chainOf img = t.chainOf m.read ∨ t.chainOf img = t.chainOf m'.read) :
    vnodeOf img new = vnodeOf m'.read new := by
  rcases hsafe with he | he
  · have hpred := vnodeOf_of_mem_chainOf (he.trans h.before) (List.mem_map.mpr ⟨cur, h.pred, rfl⟩)
    rw [himg] at hpred
    exact absurd (congrArg Vnode.next hpred).symm hlink
  · exact vnodeOf_of_mem_chainOf (he.trans h.after) (List.mem_map.mpr ⟨new, (h.nodes new).mpr (.inl rfl), rfl⟩)

end Moments

theorem Insertable.pred_next_ne (h : Insertable t m new o l) (hcur : cur ∈ t.head :: l) :
    (vnodeOf m.read cur).next ≠ new := by
  intro hnext
  rcases h.chain.next_mem hcur with hend | ⟨y, hy, hlink⟩
  · have : (new : ℤ) = -1 := hnext.symm.trans hend
    omega
  · have : (new : ℤ) = y := hnext.symm.trans hlink
    obtain rfl : new = y := by omega
    exact (List.nodup_cons.mp h.nodup).1 (List.mem_cons_of_mem _ hy)

theorem CrashConsistent.before {f g : List ℕ} (h : Insertable t m new o (f ++ g))
    (hsafe : t.CrashConsistent m (actsBehind m new (f.getLastD t.head) o)) (himg : m.Image img) :
    t.chainOf img = t.chainOf m.read ∧
      vnodeOf img new = vnodeOf (m.run (actsBehind m new (f.getLastD t.head) o)).read new := by
  have hs := h.splice
  have hold : t.chainOf img = t.chainOf m.read := by
    refine (hsafe 0 img himg).resolve_right fun he => ?_
    refine h.unlinked img himg _ (he.trans hs.after)
      (List.mem_map.mpr ⟨(new, _), List.mem_map.mpr ⟨new, ?_, rfl⟩, rfl⟩)
    exact (hs.nodes new).mpr (.inl rfl)
  refine ⟨hold, ?_⟩
  obtain ⟨k, hk⟩ := image_pred new (f.getLastD t.head) o himg
  have hnew : ∀ f', (new, f') ≠ (f.getLastD t.head, Field.next) :=
    fun _ he => hs.pred_ne (congrArg Prod.fst he).symm
  have hsame : vnodeOf (Function.update img (f.getLastD t.head, .next) (new : ℤ)) new = vnodeOf img new := by
    simp only [vnodeOf, Function.update_of_ne (hnew _)]
  have hpred := vnodeOf_of_mem_chainOf (hold.trans hs.before) (List.mem_map.mpr ⟨_, hs.pred, rfl⟩)
  have hlinked : vnodeOf (Function.update img (f.getLastD t.head, .next) (new : ℤ)) (f.getLastD t.head) =
      { vnodeOf m.read (f.getLastD t.head) with next := (new : ℤ) } := by
    rw [← hpred]
    simp [vnodeOf]
  rw [← hsame]
  exact hs.vnodeOf_eq hlinked (h.pred_next_ne hs.pred) (hsafe k _ hk)

/-- The converse, cell by cell: a cell holds what a crash before the insert could leave,
or what the insert stores there. -/
theorem crashConsistent_of_before {f g : List ℕ} (h : Insertable t m new o (f ++ g))
    (hall : ∀ img, m.Image img → t.chainOf img = t.chainOf m.read ∧
      vnodeOf img new = vnodeOf (m.run (actsBehind m new (f.getLastD t.head) o)).read new) :
    t.CrashConsistent m (actsBehind m new (f.getLastD t.head) o) := by
  have hs := h.splice
  have hne := hs.pred_ne
  have hnew : ∀ {f' x}, x ∈ m.possible (new, f') →
      x = (m.run (actsBehind m new (f.getLastD t.head) o)).read (new, f') := by
    intro f' x hx
    obtain ⟨img₀, himg₀, rfl⟩ := Pmem.exists_image_eq hx
    have hv := (hall img₀ himg₀).2
    cases f'
    exacts [congrArg Vnode.next hv, congrArg Vnode.key hv, congrArg Vnode.value hv]
  have hkeep : ∀ {v}, v ∈ t.head :: (f ++ g) → ∀ {f' x}, x ∈ m.possible (v, f') → x = m.read (v, f') := by
    intro v hv f' x hx
    obtain ⟨img₀, himg₀, rfl⟩ := Pmem.exists_image_eq hx
    have hv := vnodeOf_of_mem_chainOf ((hall img₀ himg₀).1.trans hs.before) (List.mem_map.mpr ⟨v, hv, rfl⟩)
    cases f'
    exacts [congrArg Vnode.next hv, congrArg Vnode.key hv, congrArg Vnode.value hv]
  intro k img himg
  have hcell : ∀ c, img c ∈ m.possible c ∨
    .store c (img c) ∈ actsBehind m new (f.getLastD t.head) o := fun c =>
    (Pmem.possible_run (Pmem.image_iff.mp himg c)).imp_right List.mem_of_mem_take
  have hfinal : ∀ f', img (new, f') = (m.run (actsBehind m new (f.getLastD t.head) o)).read (new, f') :=
    fun f' => (hcell (new, f')).elim hnew (store_new hne)
  have hother : ∀ v ∈ t.head :: (f ++ g), ∀ f', (v, f') ≠ (f.getLastD t.head, .next) →
    img (v, f') = m.read (v, f') :=
    fun v hv f' hc => hkeep hv ((hcell (v, f')).resolve_right fun hst => hc (store_other (h.head_ne hv) hst))
  rcases hcell (f.getLastD t.head, .next) with hp | hst
  · left
    refine hs.congr img fun v hv => ?_
    have hread : ∀ f', img (v, f') = m.read (v, f') := fun f' => by
      by_cases hc : (v, f') = (f.getLastD t.head, .next)
      · obtain ⟨rfl, rfl⟩ := Prod.mk.inj hc
        exact hkeep hv hp
      · exact hother v hv f' hc
    rw [vnodeOf, hread, hread, hread, ← vnodeOf]
  · right
    refine hs.congr' img fun v hv => ?_
    rcases (hs.nodes v).mp hv with rfl | hv
    · rw [vnodeOf, hfinal, hfinal, hfinal, ← vnodeOf]
    · by_cases hvc : v = f.getLastD t.head
      · rw [hvc, hs.written.pred, vnodeOf, store_pred hne hst, hother _ hs.pred .key (by simp),
          hother _ hs.pred .value (by simp)]
        rfl
      · have hread : ∀ f', img (v, f') = m.read (v, f') := fun f' =>
          hother v hv f' fun hc => hvc (congrArg Prod.fst hc)
        rw [hs.written.other v (h.head_ne hv) hvc, vnodeOf, hread, hread, hread, ← vnodeOf]

/-- An insert is safe at every moment if and only if, in every memory that a crash before
it could leave, the old chain is there and the new vnode has the key, the value and the link
that the insert is to give it. -/
theorem insert_crashConsistent_iff (t : TandemIndex) (m : VnodeMem) (new : ℕ) (o : Overload) (l : List ℕ)
    (h : Insertable t m new o l) : ∃ cur acts,
      (t.onImage m.read).valueWalk (o.key m new) vnodeNum (t.startOf o) = some cur ∧
      t.insertActs m new o = some acts ∧
      (t.CrashConsistent m acts ↔ ∀ img, m.Image img →
        t.chainOf img = t.chainOf m.read ∧ vnodeOf img new = o.contents m new cur) := by
  obtain ⟨f, g, rfl, hwalk, hacts⟩ := h.insertActs_eq
  have hnew := h.splice.written.new
  refine ⟨_, _, hwalk, hacts, fun hsafe img himg => ?_,
    fun hall => crashConsistent_of_before h fun img himg => ?_⟩
  · rw [← hnew]
    exact hsafe.before h himg
  · rw [hnew]
    exact hall img himg

theorem image_of_durable (hm : ∀ c, m.pending c = []) (h : m.Image img) : img = m.read := by
  funext c
  have hc := Pmem.image_iff.mp h c
  simpa [Pmem.possible, Pmem.read, hm c] using hc

theorem empty_head : empty.head = 0 := (new_starting empty new_eq_empty).2.2.1

/-- The memory with nothing on its way: keys 3 and 9 in the list, and vnode 1. -/
def settledPair (x : Vnode) : VnodeMem where
  durable c := match c with
    | (v, .next) => if v = 0 then 2 else if v = 1 then x.next else if v = 2 then 3 else -1
    | (v, .key) => if v = 1 then x.key else if v = 2 then 3 else if v = 3 then 9 else 0
    | (v, .value) => if v = 1 then x.value else if v = 2 then 30 else if v = 3 then 90 else 0
  pending _ := []

theorem insertable_settledPair (x : Vnode) (key value : ℕ) :
    Insertable empty (settledPair x) 1 (.pair key value) [2, 3] := by
  have hchain : Chain (empty.onImage (settledPair x).read).vnext empty.head [2, 3] (-1) := by
    rw [empty_head]
    exact ⟨rfl, rfl, rfl⟩
  have hnd : ([1, empty.head, 2, 3] : List ℕ).Nodup := by simp [empty_head]
  have hlt : ∀ v ∈ [1, empty.head, 2, 3], v < vnodeNum := by
    rw [empty_head]
    decide
  refine ⟨hchain, hnd, hlt, List.mem_cons_self, fun img himg c hc => ?_⟩
  rw [image_of_durable (fun _ => rfl) himg, chainOf_eq hchain (List.nodup_cons.mp hnd).2
    fun v hv => hlt v (List.mem_cons_of_mem _ hv)] at hc
  cases hc
  simp [empty_head]

/-- Key 5 goes between keys 3 and 9 into a vnode that has its contents already: no crash does
harm. -/
theorem insert_crashConsistent_iff_settledPair : Insertable empty (settledPair ⟨3, 5, 7⟩) 1 (.pair 5 7) [2, 3] ∧
    ∃ acts, empty.insertActs (settledPair ⟨3, 5, 7⟩) 1 (.pair 5 7) = some acts ∧
      empty.CrashConsistent (settledPair ⟨3, 5, 7⟩) acts := by
  have h := insertable_settledPair ⟨3, 5, 7⟩ 5 7
  obtain ⟨cur, acts, hwalk, hacts, hiff⟩ := insert_crashConsistent_iff _ _ _ _ _ h
  refine ⟨h, acts, hacts, hiff.mpr fun img himg => ?_⟩
  have hcur : (empty.onImage (settledPair ⟨3, 5, 7⟩).read).valueWalk 5 vnodeNum empty.head = some 2 := by
    rw [empty_head]
    rfl
  obtain rfl : cur = 2 := Option.some.inj (hwalk.symm.trans hcur)
  rw [image_of_durable (fun _ => rfl) himg]
  exact ⟨rfl, rfl⟩

/-- The memory with nothing on its way: the head of an empty list, and vnode 1. -/
def settled (x : Vnode) : VnodeMem where
  durable c := match c with
    | (v, .next) => if v = 1 then x.next else if v = 0 then -1 else 0
    | (v, .key) => if v = 1 then x.key else 0
    | (v, .value) => if v = 1 then x.value else 0
  pending _ := []

theorem insertable_settled (x : Vnode) (key value : ℕ) : Insertable empty (settled x) 1 (.pair key value) [] := by
  have hchain : Chain (empty.onImage (settled x).read).vnext empty.head [] (-1) := by
    rw [empty_head]
    rfl
  have hnd : ([1, empty.head] : List ℕ).Nodup := by simp [empty_head]
  have hlt : ∀ v ∈ [1, empty.head], v < vnodeNum := by
    rw [empty_head]
    decide
  refine ⟨hchain, hnd, hlt, List.mem_cons_self, fun img himg c hc => ?_⟩
  rw [image_of_durable (fun _ => rfl) himg, chainOf_eq hchain (List.nodup_cons.mp hnd).2
    fun v hv => hlt v (List.mem_cons_of_mem _ hv)] at hc
  cases hc
  simp [empty_head]

/-- The first insert into a fresh pool, whose vnodes are all zero. Interrupted before the
flushes, it may leave the head linked to a vnode without key, value and end of list. -/
theorem insert_not_crashConsistent : ∃ acts k img,
    empty.insertActs (settled ⟨0, 0, 0⟩) 1 (.pair 5 7) = some acts ∧
    ((settled ⟨0, 0, 0⟩).run (acts.take k)).Image img ∧ vnodeOf img 0 = ⟨1, 0, 0⟩ ∧
    vnodeOf img 1 = ⟨0, 0, 0⟩ ∧ ¬empty.CrashConsistent (settled ⟨0, 0, 0⟩) acts := by
  have h := insertable_settled ⟨0, 0, 0⟩ 5 7
  obtain ⟨f, g, hfg, -, hacts⟩ := h.insertActs_eq
  obtain ⟨rfl, rfl⟩ := List.append_eq_nil_iff.mp hfg.symm
  have himg : (settled ⟨0, 0, 0⟩).Image (settled ⟨0, 0, 0⟩).read := Pmem.image_read _
  obtain ⟨k, hk⟩ := image_pred 1 0 (.pair 5 7) himg
  have hfinal : vnodeOf ((settled ⟨0, 0, 0⟩).run (actsBehind (settled ⟨0, 0, 0⟩) 1 0 (.pair 5 7))).read 1 =
    ⟨-1, 5, 7⟩ := rfl
  rw [List.getLastD_nil, empty_head] at hacts
  refine ⟨_, k, _, hacts, hk, rfl, rfl, fun hsafe => ?_⟩
  have hsafe' : empty.CrashConsistent (settled ⟨0, 0, 0⟩)
      (actsBehind (settled ⟨0, 0, 0⟩) 1 (List.getLastD [] empty.head) (.pair 5 7)) := by
    rwa [List.getLastD_nil, empty_head]
  have hfin := (hsafe'.before h himg).2
  rw [List.getLastD_nil, empty_head, hfinal] at hfin
  exact absurd (congrArg Vnode.key hfin) (by decide)

end TandemIndex

end Hkv.Tandem
