import Hkv.NodePool
import Hkv.TandemChain

/-!
# The value list on its own

`ValueList` without an index: every search begins at the head. `update`, `remove` and
`getKeyPos` share one loop, which takes for granted that some node does not come before the
key; `lookup` has another one, which stops at the end of the chain. `remove` overwrites the
key of a node and leaves the node where it is.
-/
namespace Hkv.Tandem
open LinkedChain

namespace Vnode

def update (n : Vnode) (key value : ℕ) : Bool × Vnode :=
  if n.key = key then (true, { n with value := value }) else (false, n)

/-- Both fields become `-1`. -/
def remove (n : Vnode) (key : ℕ) : Bool × Vnode :=
  if n.key = key then (true, { n with key := maxKey, value := maxKey }) else (false, n)

def lookup (n : Vnode) (key : ℕ) : ℤ := if n.key = key then toInt n.value else -1

/-- `id` is the id of the node. -/
def getKeyPos (n : Vnode) (id key : ℕ) : ℤ := if n.key = key then id else -1

end Vnode

structure ValueList where
  vnode : ℕ → Vnode
  currentIdx : ℕ
  head : ℕ

namespace ValueList

def modify (l : ValueList) (id : ℕ) (f : Vnode → Vnode) : ValueList :=
  { l with vnode := Function.update l.vnode id (f (l.vnode id)) }

def getNextNode (l : ValueList) : Option (ℕ × ValueList) :=
  if l.currentIdx < vnodeNum then some (l.currentIdx, { l with currentIdx := l.currentIdx + 1 }) else none

def new : Option ValueList := do
  let l : ValueList := ⟨fun _ => poolVnode, 0, 0⟩
  let (head, l) ← l.getNextNode
  return { l.modify head fun _ => ⟨-1, 0, 0⟩ with head := head }

def getNext (l : ValueList) (cur : ℕ) : Option ℕ := nodeAt vnodeNum (l.vnode cur).next

/-- `while (nextNode != nullptr && ..)`, for a condition on the next node. -/
def walk (l : ValueList) (p : Vnode → Bool) : ℕ → ℕ → Option ℕ
  | 0, _ => none
  | fuel + 1, cur =>
    match l.getNext cur with
    | none => some cur
    | some next => if p (l.vnode next) then walk l p fuel next else some cur

/-- `ValueList::insert` of a key and a value. -/
def insert (l : ValueList) (key value : ℕ) : Option (Bool × ValueList) :=
  match l.getNextNode with
  | none => some (false, l)
  | some (new, l) => do
    let l := l.modify new fun n => { n with key := key, value := value }
    let cur ← l.walk (fun n => n.key < key) vnodeNum l.head
    let curNext := (l.vnode cur).next
    let l := l.modify new fun n => { n with next := curNext }
    return (true, l.modify cur fun n => { n with next := new })

/-- The loop of `update`, `remove` and `getKeyPos`: it follows a null pointer if every node
comes before the key. -/
def seek (l : ValueList) (key : ℕ) : ℕ → ℕ → Option ℕ
  | 0, _ => none
  | fuel + 1, cur => if (l.vnode cur).key < key then do seek l key fuel (← l.getNext cur) else some cur

/-- The loop and then a function of the node where it stops. -/
def applyAt (l : ValueList) (key : ℕ) (f : Vnode → Bool × Vnode) : Option (Bool × ValueList) := do
  let cur ← l.seek key vnodeNum l.head
  let (ret, n) := f (l.vnode cur)
  return (ret, l.modify cur fun _ => n)

def update (l : ValueList) (key value : ℕ) : Option (Bool × ValueList) := l.applyAt key (·.update key value)

def remove (l : ValueList) (key : ℕ) : Option (Bool × ValueList) := l.applyAt key (·.remove key)

def lookup (l : ValueList) (key : ℕ) : Option ℤ := do
  let cur ← l.walk (fun n => n.key ≤ key) vnodeNum l.head
  return (l.vnode cur).lookup key

def getKeyPos (l : ValueList) (key : ℕ) : Option ℤ := do
  let cur ← l.seek key vnodeNum l.head
  return (l.vnode cur).getKeyPos cur key

end ValueList

/-- The value list of an index. -/
def TandemIndex.valueList (t : TandemIndex) : ValueList := ⟨t.vnode, t.vCurrentIdx, t.head⟩

namespace ValueList
variable {l l' : ValueList} {ids : List ℕ} {key value v : ℕ}

/-! ## The loops on a chain -/

def next (l : ValueList) (v : ℕ) : ℤ := (l.vnode v).next

/-- The chain from the head visits `ids`, nodes of the pool that are in use. -/
structure Linked (l : ValueList) (ids : List ℕ) : Prop where
  used : l.currentIdx ≤ vnodeNum
  lt : ∀ v ∈ l.head :: ids, v < l.currentIdx
  nodup : (l.head :: ids).Nodup
  chain : Chain l.next l.head ids (-1)

theorem Linked.length_lt (h : Linked l ids) : ids.length < vnodeNum := by
  have hlen := length_le_of_nodup h.nodup h.lt
  have hused := h.used
  simp only [List.length_cons] at hlen
  omega

theorem Linked.lt_vnodeNum (h : Linked l ids) (hv : v ∈ ids) : v < vnodeNum :=
  Nat.lt_of_lt_of_le (h.lt v (List.mem_cons_of_mem _ hv)) h.used

theorem walk_spec {cur : ℕ} (p : Vnode → Bool) (fuel : ℕ) (hchain : Chain l.next cur ids (-1))
    (hlt : ∀ v ∈ ids, v < vnodeNum) (hfuel : ids.length < fuel) :
    l.walk p fuel cur = some ((ids.takeWhile fun v => p (l.vnode v)).getLastD cur) := by
  induction ids generalizing cur fuel with
  | nil =>
    obtain ⟨fuel, rfl⟩ := Nat.exists_eq_succ_of_ne_zero (Nat.ne_of_gt hfuel)
    have hnext : (l.vnode cur).next = -1 := hchain
    simp [walk, getNext, hnext, nodeAt]
  | cons x ids ih =>
    obtain ⟨fuel, rfl⟩ := Nat.exists_eq_succ_of_ne_zero (Nat.ne_of_gt (Nat.lt_of_le_of_lt (Nat.zero_le _) hfuel))
    have hnext : (l.vnode cur).next = (x : ℤ) := hchain.1
    simp only [walk, getNext, hnext, DramSkiplist.nodeAt_of_lt (hlt x List.mem_cons_self)]
    cases hp : p (l.vnode x) with
    | true =>
      rw [if_pos rfl, List.takeWhile_cons, if_pos hp, List.getLastD_cons]
      exact ih fuel hchain.2 (fun v hv => hlt v (List.mem_cons_of_mem _ hv)) (by simpa using hfuel)
    | false =>
      rw [if_neg (by simp), List.takeWhile_cons, if_neg (by simp [hp])]
      rfl

theorem seek_spec {cur : ℕ} (key fuel : ℕ) (hchain : Chain l.next cur ids (-1))
    (hlt : ∀ v ∈ ids, v < vnodeNum)
    (hfuel : ids.length < fuel) : l.seek key fuel cur = (cur :: ids).find? fun v => key ≤ (l.vnode v).key := by
  induction ids generalizing cur fuel with
  | nil =>
    obtain ⟨fuel, rfl⟩ := Nat.exists_eq_succ_of_ne_zero (Nat.ne_of_gt hfuel)
    have hnext : (l.vnode cur).next = -1 := hchain
    by_cases hkey : (l.vnode cur).key < key
    · simp [seek, hkey, getNext, hnext, nodeAt]
    · simp [seek, Nat.not_lt.mp hkey]
  | cons x ids ih =>
    obtain ⟨fuel, rfl⟩ := Nat.exists_eq_succ_of_ne_zero (Nat.ne_of_gt (Nat.lt_of_le_of_lt (Nat.zero_le _) hfuel))
    have hnext : (l.vnode cur).next = (x : ℤ) := hchain.1
    by_cases hkey : (l.vnode cur).key < key
    · rw [seek, if_pos hkey, getNext, hnext, DramSkiplist.nodeAt_of_lt (hlt x List.mem_cons_self),
        List.find?_cons_of_neg (by simpa using hkey)]
      exact ih fuel hchain.2 (fun v hv => hlt v (List.mem_cons_of_mem _ hv)) (by simpa using hfuel)
    · rw [seek, if_neg hkey, List.find?_cons_of_pos (by simpa using hkey)]

theorem Linked.seek (h : Linked l ids) (key : ℕ) :
    l.seek key vnodeNum l.head = (l.head :: ids).find? fun v => key ≤ (l.vnode v).key :=
  seek_spec key vnodeNum h.chain (fun _ hv => h.lt_vnodeNum hv) h.length_lt

theorem Linked.seek_eq (h : Linked l ids) {a b : List ℕ} (hsplit : l.head :: ids = a ++ v :: b)
    (ha : ∀ x ∈ a, (l.vnode x).key < key) (hv : key ≤ (l.vnode v).key) :
    l.seek key vnodeNum l.head = some v := by
  rw [h.seek, hsplit, List.find?_append, List.find?_eq_none.mpr fun x hx => by simpa using ha x hx]
  simp [hv]

theorem Linked.lookup_eq (h : Linked l ids) {a b : List ℕ} (hsplit : ids = a ++ b)
    (ha : ∀ x ∈ a, (l.vnode x).key ≤ key) (hb : ∀ x ∈ b.head?, key < (l.vnode x).key) :
    l.lookup key = some ((l.vnode (a.getLastD l.head)).lookup key) := by
  have htake : (ids.takeWhile fun v => decide ((l.vnode v).key ≤ key)) = a := by
    rw [hsplit, List.takeWhile_append_of_pos fun x hx => by simpa using ha x hx]
    cases b with
    | nil => simp
    | cons x b => simp [Nat.not_le.mpr (hb x rfl)]
  have hwalk :=
    walk_spec (fun n => decide (n.key ≤ key)) vnodeNum h.chain (fun _ hv => h.lt_vnodeNum hv) h.length_lt
  rw [htake] at hwalk
  simp only [lookup, hwalk, Option.bind_eq_bind, Option.bind_some, Option.pure_def]

theorem Linked.lookup_absent (h : Linked l ids) (hne : ∀ v ∈ l.head :: ids, (l.vnode v).key ≠ key) :
    l.lookup key = some (-1) := by
  have hwalk :=
    walk_spec (fun n => decide (n.key ≤ key)) vnodeNum h.chain (fun _ hv => h.lt_vnodeNum hv) h.length_lt
  have hmem : (ids.takeWhile fun v => decide ((l.vnode v).key ≤ key)).getLastD l.head ∈ l.head :: ids :=
    List.cons_subset_cons l.head (List.takeWhile_prefix _).subset List.getLastD_mem_cons
  simp only [lookup, hwalk, Option.bind_eq_bind, Option.bind_some, Option.pure_def, Vnode.lookup, if_neg (hne _ hmem)]

/-! ## Insertion -/

/-- The list as the value list of an index that nothing reads. -/
def index (l : ValueList) : TandemIndex :=
    ⟨⟨fun _ => poolInode, 0, fun _ => 0, fun _ => 0, 0⟩, l.vnode, l.currentIdx, l.head⟩

def pair (l : ValueList) (v : ℕ) : ℕ × ℕ := ((l.vnode v).key, (l.vnode v).value)

theorem walk_eq_valueWalk (key fuel cur : ℕ) :
    l.walk (fun n => n.key < key) fuel cur = l.index.valueWalk key fuel cur := by
  induction fuel generalizing cur with
  | zero => rfl
  | succ fuel ih =>
    simp only [walk, TandemIndex.valueWalk, getNext, ih, decide_eq_true_eq]
    rfl

theorem insert_eq_valueInsert (hroom : l.currentIdx < vnodeNum) (key value : ℕ) :
    l.insert key value = ((l.index.withVnode key value).valueInsert l.head l.currentIdx).map fun t =>
    (true, t.valueList) := by
  have hkey : ((l.index.withVnode key value).vnode l.currentIdx).key = key := by
    simp [TandemIndex.withVnode, TandemIndex.setVnode, index]
  simp only [insert, getNextNode, if_pos hroom, walk_eq_valueWalk, TandemIndex.valueInsert, hkey]
  rw [Option.bind_eq_bind, Option.map_eq_bind, Option.bind_eq_bind, Option.bind_assoc]
  rfl

structure Ordered (l : ValueList) (ids : List ℕ) : Prop extends Linked l ids where
  head_key : (l.vnode l.head).key = 0
  sorted : ids.Pairwise fun v w => (l.vnode v).key ≤ (l.vnode w).key

theorem Ordered.sorted_cons (h : Ordered l ids) :
    (l.head :: ids).Pairwise fun v w => (l.vnode v).key ≤ (l.vnode w).key :=
  List.pairwise_cons.mpr ⟨fun _ _ => h.head_key ▸ Nat.zero_le _, h.sorted⟩

/-- `t'` is `t` with a new vnode in the chain, between the nodes that come before its key
and those that do not. -/
structure Entered (t t' : TandemIndex) (ids ids' a b : List ℕ) (key value : ℕ) : Prop where
  ordered : Ordered t'.valueList ids'
  cut : t.head :: ids = a ++ b
  cut' : t.head :: ids' = a ++ t.vCurrentIdx :: b
  mainIndex : t'.mainIndex = t.mainIndex
  head : t'.head = t.head
  vCurrentIdx : t'.vCurrentIdx = t.vCurrentIdx + 1
  new_pair : t'.pair t.vCurrentIdx = (key, value)
  old_pair : ∀ v ∈ t.head :: ids, t'.pair v = t.pair v

theorem Entered.perm {t t' : TandemIndex} {ids' a b : List ℕ} (h : Entered t t' ids ids' a b key value) :
    ids'.Perm (t.vCurrentIdx :: ids) := by
  have hperm : (t.head :: ids').Perm (t.head :: t.vCurrentIdx :: ids) := by
    rw [h.cut']
    refine List.perm_middle.trans ?_
    rw [← h.cut]
    exact .swap ..
  exact hperm.cons_inv

theorem Entered.pairs_perm {t t' : TandemIndex} {ids' a b : List ℕ} (h : Entered t t' ids ids' a b key value) :
    (ids'.map t'.pair).Perm ((key, value) :: ids.map t.pair) := by
  refine (h.perm.map t'.pair).trans ?_
  rw [List.map_cons, h.new_pair, List.map_congr_left fun v hv => h.old_pair v (List.mem_cons_of_mem _ hv)]

theorem pairwise_enter {t t' : TandemIndex} {a b : List ℕ} (hsorted : (a ++ b).Pairwise t.KeyLe)
    (ha : ∀ x ∈ a, (t.vnode x).key ≤ key) (hb : ∀ x ∈ b, key ≤ (t.vnode x).key)
    (hold : ∀ x ∈ a ++ b, (t'.vnode x).key = (t.vnode x).key) (hnew : (t'.vnode v).key = key) :
    (a ++ v :: b).Pairwise t'.KeyLe := by
  apply TandemIndex.pairwise_insert
  · exact hsorted.imp_of_mem fun {x y} hx hy hle => by rwa [TandemIndex.KeyLe, hold x hx, hold y hy]
  · intro x hx
    rw [TandemIndex.KeyLe, hnew, hold x (List.mem_append_left _ hx)]
    exact ha x hx
  · intro x hx
    rw [TandemIndex.KeyLe, hnew, hold x (List.mem_append_right _ hx)]
    exact hb x hx

theorem Linked.enter {t t' : TandemIndex} {ids' : List ℕ} (h : Linked t.valueList ids)
    (hroom : t.vCurrentIdx < vnodeNum) (hhead : t'.head = t.head) (hidx : t'.vCurrentIdx = t.vCurrentIdx + 1)
    (hperm : ids'.Perm (t.vCurrentIdx :: ids)) (hchain : Chain t'.vnext t.head ids' (-1)) :
    Linked t'.valueList ids' := by
  have hfresh : t.vCurrentIdx ∉ t.head :: ids := fun hmem => Nat.lt_irrefl _ (h.lt _ hmem)
  have hperm' : (t.head :: ids').Perm (t.vCurrentIdx :: t.head :: ids) := (hperm.cons _).trans (.swap ..)
  refine ⟨?_, fun v hv => ?_, ?_, ?_⟩
  · show t'.vCurrentIdx ≤ vnodeNum
    rw [hidx]
    exact hroom
  · have hv' : v ∈ t.vCurrentIdx :: t.head :: ids :=
      hperm'.subset (by simpa [TandemIndex.valueList, hhead] using hv)
    show v < t'.vCurrentIdx
    rw [hidx]
    rcases List.mem_cons.mp hv' with rfl | hv'
    · exact Nat.lt_succ_self _
    · exact Nat.lt_succ_of_lt (h.lt v hv')
  · show (t'.head :: ids').Nodup
    rw [hhead]
    exact hperm'.nodup_iff.mpr (List.nodup_cons.mpr ⟨hfresh, h.nodup⟩)
  · show Chain t'.vnext t'.head ids' (-1)
    rw [hhead]
    exact hchain

/-- A new vnode may be placed from any node on that does not lie beyond its key. -/
theorem Ordered.valueInsert {t : TandemIndex} (h : Ordered t.valueList ids) (hroom : t.vCurrentIdx < vnodeNum)
    {front back : List ℕ} {start : ℕ} (hsplit : t.head :: ids = front ++ start :: back)
    (hstart : (t.vnode start).key ≤ key) (value : ℕ) :
    ∃ t' ids' b₁ b₂, (t.withVnode key value).valueInsert start t.vCurrentIdx = some t' ∧
    back = b₁ ++ b₂ ∧
      (∀ x ∈ b₁, (t.vnode x).key < key) ∧ (∀ x ∈ b₂, key ≤ (t.vnode x).key) ∧
      Entered t t' ids ids' (front ++ start :: b₁) b₂ key value := by
  have hfresh : t.vCurrentIdx ∉ t.head :: ids := fun hmem => Nat.lt_irrefl _ (h.lt _ hmem)
  have hnd : (t.vCurrentIdx :: t.head :: ids).Nodup := List.nodup_cons.mpr ⟨hfresh, h.nodup⟩
  have hold : ∀ v ∈ t.head :: ids, (t.withVnode key value).vnode v = t.vnode v := fun v hv =>
    t.withVnode_of_ne key value fun he => hfresh (he ▸ hv)
  have hchain : Chain (t.withVnode key value).vnext t.head ids (-1) := h.chain.congr
    (congrArg Vnode.next (hold _ List.mem_cons_self)) fun v hv =>
    congrArg Vnode.next (hold v (List.mem_cons_of_mem _ hv))
  have hlt : ∀ v ∈ t.vCurrentIdx :: t.head :: ids, v < vnodeNum := fun v hv => by
    rcases List.mem_cons.mp hv with rfl | hv
    · exact hroom
    · exact Nat.lt_of_lt_of_le (h.lt v hv) h.used
  obtain ⟨t', ids', hrun, hchain', hperm, hcut, hmain, hhead, hidx, hpair⟩ :=
    TandemIndex.valueInsert_chain (t := t.withVnode key value) hchain hsplit hnd hlt
  rw [TandemIndex.withVnode_key] at hcut
  -- where the walk stops, by the keys of the nodes
  have hback : ∀ x ∈ back, x ∈ t.head :: ids := fun x hx => by simp [hsplit, hx]
  have hsorted : (t.head :: ids).Pairwise t.KeyLe := h.sorted_cons
  have hb₁ : ∀ x ∈ back.takeWhile ((t.withVnode key value).before key), (t.vnode x).key < key := fun x hx => by
    have hlt := TandemIndex.key_lt_of_mem_takeWhile hx
    rwa [hold x (hback x ((List.takeWhile_prefix _).subset hx))] at hlt
  have hb₂ : ∀ x ∈ back.dropWhile ((t.withVnode key value).before key),
    key ≤ (t.vnode x).key := fun x hx => by
    rw [hsplit] at hsorted
    have hrest : back.Pairwise (t.withVnode key value).KeyLe :=
      (List.pairwise_cons.mp (List.pairwise_append.mp hsorted).2.1).2.imp_of_mem fun {v w} hv hw hle => by
        simpa only [TandemIndex.KeyLe, hold v (hback v hv), hold w (hback w hw)] using hle
    have hge := TandemIndex.not_before_of_mem_dropWhile hrest hx
    rwa [hold x (hback x ((List.dropWhile_suffix _).subset hx))] at hge
  have hcut₀ : t.head :: ids = (front ++ start :: back.takeWhile ((t.withVnode key value).before key)) ++
      back.dropWhile ((t.withVnode key value).before key) := by
    rw [List.append_assoc, List.cons_append, List.takeWhile_append_dropWhile]
    exact hsplit
  have hcut₁ : t.head :: ids' = (front ++ start :: back.takeWhile ((t.withVnode key value).before key)) ++
      t.vCurrentIdx :: back.dropWhile ((t.withVnode key value).before key) := by
    rw [List.append_assoc, List.cons_append]
    exact hcut
  have hpairs : ∀ v ∈ t.head :: ids, t'.pair v = t.pair v := fun v hv => by
    rw [hpair, TandemIndex.pair, hold v hv, TandemIndex.pair]
  have hself : t'.pair t.vCurrentIdx = (key, value) := by
    rw [hpair, TandemIndex.pair, TandemIndex.withVnode_key, TandemIndex.withVnode_value]
  have hkeys : ∀ v ∈ t.head :: ids, (t'.vnode v).key = (t.vnode v).key :=
    fun v hv => congrArg Prod.fst (hpairs v hv)
  have hnew : (t'.vnode t.vCurrentIdx).key = key := congrArg Prod.fst hself
  have hsorted' : (t.head :: ids').Pairwise t'.KeyLe := by
    rw [hcut₁]
    refine pairwise_enter (hcut₀ ▸ hsorted) (fun x hx => ?_) hb₂ (fun x hx => hkeys x (hcut₀ ▸ hx)) hnew
    rw [hsplit] at hsorted
    rcases List.mem_append.mp hx with hx | hx
    · exact ((List.pairwise_append.mp hsorted).2.2 x hx start (by simp)).trans hstart
    · rcases List.mem_cons.mp hx with rfl | hx
      · exact hstart
      · exact Nat.le_of_lt (hb₁ x hx)
  refine ⟨t', ids', _, _, hrun, (List.takeWhile_append_dropWhile ..).symm, hb₁, hb₂,
    ⟨⟨h.toLinked.enter hroom hhead hidx hperm hchain', ?_, ?_⟩, hcut₀, hcut₁, hmain, hhead, hidx, hself,
      hpairs⟩⟩
  · show (t'.vnode t'.head).key = 0
    rw [hhead]
    exact (hkeys _ List.mem_cons_self).trans h.head_key
  · exact (List.pairwise_cons.mp hsorted').2

theorem Ordered.lookup_present (h : Ordered l ids) (hv : v ∈ ids) :
    ∃ a w b, ids = a ++ w :: b ∧ (l.vnode w).key = (l.vnode v).key ∧
    (∀ x ∈ b, (l.vnode v).key < (l.vnode x).key) ∧
      l.lookup (l.vnode v).key = some (toInt (l.vnode w).value) := by
  have hcut := List.takeWhile_append_dropWhile (p := l.index.before ((l.vnode v).key + 1)) (l := ids)
  have hfront : ∀ x ∈ ids.takeWhile (l.index.before ((l.vnode v).key + 1)), (l.vnode x).key ≤ (l.vnode v).key :=
    fun x hx => Nat.le_of_lt_succ (TandemIndex.key_lt_of_mem_takeWhile hx)
  have hback : ∀ x ∈ ids.dropWhile (l.index.before ((l.vnode v).key + 1)), (l.vnode v).key < (l.vnode x).key :=
    fun x hx => TandemIndex.not_before_of_mem_dropWhile (t := l.index) h.sorted hx
  generalize ids.takeWhile (l.index.before ((l.vnode v).key + 1)) = front at hcut hfront
  generalize ids.dropWhile (l.index.before ((l.vnode v).key + 1)) = back at hcut hback
  have hvf : v ∈ front := by
    rw [← hcut] at hv
    exact (List.mem_append.mp hv).resolve_right fun hm => Nat.lt_irrefl _ (hback v hm)
  obtain ⟨a, w, rfl⟩ := (List.eq_nil_or_concat' front).resolve_left (List.ne_nil_of_mem hvf)
  have hw : (l.vnode w).key = (l.vnode v).key := by
    refine Nat.le_antisymm (hfront w (by simp)) ?_
    rcases List.mem_append.mp hvf with ha | hw
    · have hsorted := h.sorted
      rw [← hcut, List.append_assoc] at hsorted
      exact (List.pairwise_append.mp hsorted).2.2 v ha w (by simp)
    · rw [List.mem_singleton.mp hw]
  refine ⟨a, w, back, by rw [← hcut, List.append_assoc]; rfl, hw, hback, ?_⟩
  rw [h.lookup_eq hcut.symm hfront fun x hx => hback x (List.mem_of_mem_head? hx)]
  simp [Vnode.lookup, hw]

theorem Ordered.insert (h : Ordered l ids) (key value : ℕ) :
    (l.currentIdx = vnodeNum ∧ l.insert key value = some (false, l)) ∨
      ∃ l' ids', l.insert key value = some (true, l') ∧ Ordered l' ids' ∧
        (ids'.map l'.pair).Perm ((key, value) :: ids.map l.pair) := by
  by_cases hroom : l.currentIdx < vnodeNum
  · right
    have hhead : (l.index.vnode l.head).key ≤ key := h.head_key ▸ Nat.zero_le key
    obtain ⟨t, ids', b₁, b₂, hrun, -, -, -, he⟩ :=
      Ordered.valueInsert (t := l.index) h hroom (show l.head :: ids = [] ++ l.head :: ids from rfl) hhead value
    refine ⟨t.valueList, ids', ?_, he.ordered, he.pairs_perm⟩
    have hrun' : (l.index.withVnode key value).valueInsert l.head l.currentIdx = some t := hrun
    rw [insert_eq_valueInsert hroom, hrun', Option.map_some]
  · left
    have hfull : l.currentIdx = vnodeNum := Nat.le_antisymm h.used (Nat.not_lt.mp hroom)
    exact ⟨hfull, by simp only [ValueList.insert, getNextNode, if_neg hroom]⟩

/-- The returned values of a run of inserts, and the list after it. -/
def insertAll : ValueList → List (ℕ × ℕ) → Option (List Bool × ValueList)
  | l, [] => some ([], l)
  | l, c :: cs => do
    let (ret, l) ← l.insert c.1 c.2
    let (rets, l) ← insertAll l cs
    return (ret :: rets, l)

/-- A new list after a run of inserts. -/
def build (cs : List (ℕ × ℕ)) : Option (List Bool × ValueList) := new.bind fun l => l.insertAll cs

/-- The pairs that were not refused. -/
def inserted (cs : List (ℕ × ℕ)) (rets : List Bool) : List (ℕ × ℕ) :=
    ((cs.zip rets).filter Prod.snd).map Prod.fst

theorem inserted_cons (c : ℕ × ℕ) (cs : List (ℕ × ℕ)) (ret : Bool) (rets : List Bool) :
    inserted (c :: cs) (ret :: rets) = if ret then c :: inserted cs rets else inserted cs rets := by
  cases ret <;> simp [inserted]

theorem inserted_sublist (cs : List (ℕ × ℕ)) (rets : List Bool) : (inserted cs rets).Sublist cs := by
  induction cs generalizing rets with
  | nil => simp [inserted]
  | cons c cs ih =>
    cases rets with
    | nil => simp [inserted]
    | cons ret rets =>
      rw [inserted_cons]
      cases ret with
      | true => exact (ih rets).cons_cons c
      | false => exact (ih rets).cons c

theorem Ordered.insertAll (h : Ordered l ids) (cs : List (ℕ × ℕ)) :
    ∃ rets l' ids', l.insertAll cs = some (rets, l') ∧
    Ordered l' ids' ∧ (ids'.map l'.pair).Perm (ids.map l.pair ++ inserted cs rets) := by
  induction cs generalizing l ids with
  | nil => exact ⟨[], l, ids, rfl, h, by simp [inserted]⟩
  | cons c cs ih =>
    rcases h.insert c.1 c.2 with ⟨-, hins⟩ | ⟨l₁, ids₁, hins, h₁, hperm₁⟩
    · obtain ⟨rets, l', ids', hrun, h', hperm⟩ := ih h
      refine ⟨false :: rets, l', ids', ?_, h', ?_⟩
      · simp only [ValueList.insertAll, hins, hrun, Option.bind_eq_bind, Option.bind_some, Option.pure_def]
      · rwa [inserted_cons]
    · obtain ⟨rets, l', ids', hrun, h', hperm⟩ := ih h₁
      refine ⟨true :: rets, l', ids', ?_, h', hperm.trans ?_⟩
      · simp only [ValueList.insertAll, hins, hrun, Option.bind_eq_bind, Option.bind_some, Option.pure_def]
      · rw [inserted_cons, if_pos rfl]
        exact (hperm₁.append_right _).trans List.perm_middle.symm

/-- The list as the constructor leaves it. -/
def empty : ValueList := ⟨Function.update (fun _ => poolVnode) 0 ⟨-1, 0, 0⟩, 1, 0⟩

theorem new_eq_empty : new = some empty := by
  have hroom : 0 < vnodeNum := by decide
  simp only [new, getNextNode, if_pos hroom]
  rfl

theorem empty_ordered : Ordered empty [] := by
  refine ⟨⟨by decide, by decide, by simp, ?_⟩, ?_, .nil⟩
  · simp [next, empty]
  · simp [empty]

theorem build_ordered (cs : List (ℕ × ℕ)) : ∃ rets l ids, build cs = some (rets, l) ∧ Ordered l ids ∧
    (ids.map l.pair).Perm (inserted cs rets) := by
  rw [build, new_eq_empty]
  exact empty_ordered.insertAll cs

/-! ## Absent keys -/

/-- Every operation on the key answers that it is not there and leaves the list alone. -/
structure Harmless (l : ValueList) (key : ℕ) : Prop where
  update : ∀ value, l.update key value = some (false, l)
  remove : l.remove key = some (false, l)
  getKeyPos : l.getKeyPos key = some (-1)
  lookup : l.lookup key = some (-1)

theorem applyAt_eq {f : Vnode → Bool × Vnode} (hseek : l.seek key vnodeNum l.head = some v) :
    l.applyAt key f = some ((f (l.vnode v)).1, l.modify v fun _ => (f (l.vnode v)).2) := by
  simp only [applyAt, hseek, Option.bind_eq_bind, Option.bind_some, Option.pure_def]

theorem modify_same (l : ValueList) (v : ℕ) : (l.modify v fun _ => l.vnode v) = l := by
  rw [modify, Function.update_eq_self]

theorem Linked.harmless (h : Linked l ids) (hne : ∀ x ∈ l.head :: ids, (l.vnode x).key ≠ key)
    (hv : v ∈ l.head :: ids) (hseek : l.seek key vnodeNum l.head = some v) : Harmless l key where
  update value := by
    rw [update, applyAt_eq hseek, Vnode.update, if_neg (hne v hv), modify_same]
  remove := by
    rw [remove, applyAt_eq hseek, Vnode.remove, if_neg (hne v hv), modify_same]
  getKeyPos := by
    simp only [getKeyPos, hseek, Option.bind_eq_bind, Option.bind_some, Option.pure_def, Vnode.getKeyPos,
      if_neg (hne v hv)]
  lookup := h.lookup_absent hne

theorem Ordered.seek_beyond (h : Ordered l ids) (hpos : key ≠ 0) (hlt : ∀ x ∈ ids, (l.vnode x).key < key) :
    l.seek key vnodeNum l.head = none := by
  rw [h.toLinked.seek, List.find?_eq_none]
  intro x hx
  simp only [decide_eq_true_eq, Nat.not_le]
  rcases List.mem_cons.mp hx with rfl | hx
  · rw [h.head_key]
    exact Nat.pos_of_ne_zero hpos
  · exact hlt x hx

theorem Ordered.harmless_iff (h : Ordered l ids) (hne : ∀ x ∈ ids, (l.vnode x).key ≠ key) :
    Harmless l key ↔ key ≠ 0 ∧ ∃ x ∈ ids, key < (l.vnode x).key := by
  constructor
  · intro hh
    have hpos : key ≠ 0 := by
      rintro rfl
      -- the head has key 0
      have hseek : l.seek 0 vnodeNum l.head = some l.head :=
        h.toLinked.seek_eq (a := []) rfl (by simp) (Nat.zero_le _)
      have hanswer := hh.getKeyPos
      simp only [getKeyPos, hseek, Option.bind_eq_bind, Option.bind_some, Option.pure_def, Vnode.getKeyPos,
        h.head_key, if_pos, Option.some.injEq] at hanswer
      omega
    refine ⟨hpos, ?_⟩
    by_contra hlarge
    push Not at hlarge
    have hseek := h.seek_beyond hpos fun x hx => Nat.lt_of_le_of_ne (hlarge x hx) (hne x hx)
    simpa [getKeyPos, hseek] using hh.getKeyPos
  · rintro ⟨hpos, x, hx, hlt⟩
    obtain ⟨v, hv⟩ : ∃ v, l.seek key vnodeNum l.head = some v := by
      rw [← Option.isSome_iff_exists, h.toLinked.seek, List.find?_isSome]
      exact ⟨x, List.mem_cons_of_mem _ hx, by simpa using Nat.le_of_lt hlt⟩
    have hmem : v ∈ l.head :: ids := List.mem_of_find?_eq_some (h.toLinked.seek key ▸ hv)
    refine h.toLinked.harmless (fun y hy => ?_) hmem hv
    rcases List.mem_cons.mp hy with rfl | hy
    · rw [h.head_key]
      exact hpos.symm
    · exact hne y hy

theorem mem_keys_iff {ps : List (ℕ × ℕ)} (hperm : (ids.map l.pair).Perm ps) {k : ℕ} :
    k ∈ ps.map Prod.fst ↔ ∃ x ∈ ids, (l.vnode x).key = k := by
  rw [← (hperm.map Prod.fst).mem_iff, List.map_map, List.mem_map]
  rfl

/-- After any run of inserts, an absent key is harmless just if it is not 0 and not beyond
all the others. -/
theorem build_harmless_iff (cs : List (ℕ × ℕ)) : ∃ rets l, build cs = some (rets, l) ∧
    ∀ key, key ∉ (inserted cs rets).map Prod.fst →
      (Harmless l key ↔ key ≠ 0 ∧ ∃ k ∈ (inserted cs rets).map Prod.fst, key < k) := by
  obtain ⟨rets, l, ids, hbuild, h, hperm⟩ := build_ordered cs
  refine ⟨rets, l, hbuild, fun key hkey => ?_⟩
  rw [h.harmless_iff fun x hx he => hkey ((mem_keys_iff hperm).mpr ⟨x, hx, he⟩)]
  constructor
  · rintro ⟨hpos, x, hx, hlt⟩
    exact ⟨hpos, _, (mem_keys_iff hperm).mpr ⟨x, hx, rfl⟩, hlt⟩
  · rintro ⟨hpos, k, hk, hlt⟩
    obtain ⟨x, hx, rfl⟩ := (mem_keys_iff hperm).mp hk
    exact ⟨hpos, x, hx, hlt⟩

/-- `main` of the test: the keys 1 to 5, and then `remove(10)`. -/
theorem build_remove_beyond : ∃ rets l, build [(1, 1), (2, 2), (3, 3), (4, 4), (5, 5)] = some (rets, l) ∧
    10 ∉ (inserted [(1, 1), (2, 2), (3, 3), (4, 4), (5, 5)] rets).map Prod.fst ∧ l.remove 10 = none ∧
    ¬ Harmless l 10 := by
  obtain ⟨rets, l, ids, hbuild, h, hperm⟩ := build_ordered [(1, 1), (2, 2), (3, 3), (4, 4), (5, 5)]
  have hsmall : ∀ k ∈ (inserted [(1, 1), (2, 2), (3, 3), (4, 4), (5, 5)] rets).map Prod.fst, k < 10 := by
    intro k hk
    have hmem := ((inserted_sublist _ rets).map Prod.fst).subset hk
    simp only [List.map_cons, List.map_nil, List.mem_cons, List.not_mem_nil, or_false] at hmem
    omega
  have hseek : l.seek 10 vnodeNum l.head = none :=
    h.seek_beyond (by decide) fun x hx => hsmall _ ((mem_keys_iff hperm).mpr ⟨x, hx, rfl⟩)
  have hnone : l.remove 10 = none := by simp [remove, applyAt, hseek]
  refine ⟨rets, l, hbuild, fun hmem => absurd (hsmall 10 hmem) (lt_irrefl 10), hnone, fun hh => ?_⟩
  simpa [hnone] using hh.remove

/-! ## Removals -/

/-- `l'` answers for `k` as `l` does. -/
structure SameAnswers (l l' : ValueList) (k : ℕ) : Prop where
  lookup : l'.lookup k = l.lookup k
  update : ∀ value, (l'.update k value).map Prod.fst = (l.update k value).map Prod.fst
  getKeyPos : l'.getKeyPos k = l.getKeyPos k

/-- A run of removes, with the keys removed before and the keys still present: each one
returns true, the removed keys are not found any more, and the answers for the others do
not change. -/
def RemovesOnly : ValueList → List ℕ → List ℕ → List ℕ → Prop
  | _, _, _, [] => True
  | l, gone, present, r :: rs => ∃ l', l.remove r = some (true, l') ∧
      (∀ k ∈ r :: gone, l'.lookup k = some (-1)) ∧
      (∀ k ∈ present, k ≠ r → SameAnswers l l' k) ∧ RemovesOnly l' (r :: gone) (present.erase r) rs

/-- Each key is the largest one that is still present. -/
def FromTheEnd : List ℕ → List ℕ → Prop
  | _, [] => True
  | present, r :: rs => (∀ k ∈ present, k ≤ r) ∧ FromTheEnd (present.erase r) rs

/-- What a remove leaves of the node. -/
def removed (l : ValueList) (v : ℕ) : ValueList := l.modify v fun n => { n with key := maxKey, value := maxKey }

theorem removed_self (l : ValueList) (v : ℕ) : ((l.removed v).vnode v).key = maxKey := by simp [removed, modify]

theorem removed_of_ne {x : ℕ} (hx : x ≠ v) : (l.removed v).vnode x = l.vnode x := by simp [removed, modify, hx]

theorem Linked.removed (h : Linked l ids) (v : ℕ) : Linked (l.removed v) ids where
  used := h.used
  lt := h.lt
  nodup := h.nodup
  chain := by
    have hnext : (l.removed v).next = l.next := by
      funext x
      by_cases hx : x = v
      · subst hx
        simp [next, ValueList.removed, modify]
      · rw [next, removed_of_ne hx, next]
    rw [hnext]
    exact h.chain

/-- Removals from the end leave the nodes `live` in order, followed by nodes that are dead. -/
structure Trimmed (l : ValueList) (live dead : List ℕ) : Prop where
  linked : Linked l (live ++ dead)
  head_key : (l.vnode l.head).key = 0
  sorted : live.Pairwise fun v w => (l.vnode v).key < (l.vnode w).key
  range : ∀ v ∈ live, 0 < (l.vnode v).key ∧ (l.vnode v).key < maxKey ∧ (l.vnode v).value < 2 ^ 31
  dead : ∀ v ∈ dead, (l.vnode v).key = maxKey

namespace Trimmed
variable {live dead a b : List ℕ}

theorem around (h : Trimmed l (a ++ v :: b) dead) :
    (∀ x ∈ l.head :: a, (l.vnode x).key < (l.vnode v).key) ∧ ∀ x ∈ b ++ dead,
    (l.vnode v).key < (l.vnode x).key := by
  obtain ⟨-, hvb, hcross⟩ := List.pairwise_append.mp h.sorted
  have hv := h.range v (by simp)
  constructor
  · intro x hx
    rcases List.mem_cons.mp hx with rfl | hx
    · rw [h.head_key]
      exact hv.1
    · exact hcross x hx v List.mem_cons_self
  · intro x hx
    rcases List.mem_append.mp hx with hx | hx
    · exact (List.pairwise_cons.mp hvb).1 x hx
    · rw [h.dead x hx]
      exact hv.2.1

theorem seek_eq (h : Trimmed l (a ++ v :: b) dead) : l.seek (l.vnode v).key vnodeNum l.head = some v :=
  h.linked.seek_eq (a := l.head :: a) (b := b ++ dead) (by simp) h.around.1 le_rfl

theorem lookup_eq (h : Trimmed l (a ++ v :: b) dead) : l.lookup (l.vnode v).key = some (toInt (l.vnode v).value) := by
  rw [h.linked.lookup_eq (a := a ++ [v]) (b := b ++ dead) (by simp) ?_ ?_]
  · simp [Vnode.lookup]
  · intro x hx
    rcases List.mem_append.mp hx with hx | hx
    · exact Nat.le_of_lt (h.around.1 x (List.mem_cons_of_mem _ hx))
    · rw [List.mem_singleton.mp hx]
  · intro x hx
    exact h.around.2 x (List.mem_of_mem_head? hx)

theorem update_eq (h : Trimmed l (a ++ v :: b) dead) (value : ℕ) :
    (l.update (l.vnode v).key value).map Prod.fst = some true := by
  simp [update, applyAt_eq h.seek_eq, Vnode.update]

theorem getKeyPos_eq (h : Trimmed l (a ++ v :: b) dead) : l.getKeyPos (l.vnode v).key = some (v : ℤ) := by
  simp [getKeyPos, h.seek_eq, Vnode.getKeyPos]

theorem sameAnswers {live' dead' : List ℕ} (h : Trimmed l live dead) (h' : Trimmed l' live' dead') (hv : v ∈ live)
    (hv' : v ∈ live') (hsame : l'.vnode v = l.vnode v) : SameAnswers l l' (l.vnode v).key := by
  obtain ⟨a, b, rfl⟩ := List.append_of_mem hv
  obtain ⟨a', b', rfl⟩ := List.append_of_mem hv'
  have hlookup := h'.lookup_eq
  have hupdate := h'.update_eq
  have hpos := h'.getKeyPos_eq
  rw [hsame] at hlookup hupdate hpos
  exact ⟨hlookup.trans h.lookup_eq.symm, fun value => (hupdate value).trans (h.update_eq value).symm,
    hpos.trans h.getKeyPos_eq.symm⟩

theorem remove_eq (h : Trimmed l (a ++ v :: b) dead) : l.remove (l.vnode v).key = some (true, l.removed v) := by
  simp [remove, applyAt_eq h.seek_eq, Vnode.remove, removed, modify]

theorem removed_before (h : Trimmed l (a ++ v :: b) dead) {x : ℕ} (hx : x ∈ l.head :: a) :
    (l.removed v).vnode x = l.vnode x := by
  apply removed_of_ne
  rintro rfl
  exact lt_irrefl _ (h.around.1 x hx)

theorem remove_last (h : Trimmed l (a ++ [v]) dead) : Trimmed (l.removed v) a (v :: dead) := by
  have hother : ∀ {x}, x ∈ a → (l.removed v).vnode x = l.vnode x :=
    fun hx => h.removed_before (List.mem_cons_of_mem _ hx)
  refine ⟨by simpa using h.linked.removed v, ?_, ?_, fun x hx => ?_, fun x hx => ?_⟩
  · exact (congrArg Vnode.key (h.removed_before List.mem_cons_self)).trans h.head_key
  · refine (List.pairwise_append.mp h.sorted).1.imp_of_mem fun hx hy hlt => ?_
    rwa [hother hx, hother hy]
  · rw [hother hx]
    exact h.range x (List.mem_append_left _ hx)
  · by_cases hxv : x = v
    · rw [hxv, removed_self]
    · rw [removed_of_ne hxv]
      exact h.dead x ((List.mem_cons.mp hx).resolve_left hxv)

theorem lookup_behind {w : ℕ} (h : Trimmed l (a ++ v :: b) dead) (hw : w ∈ b) :
    (l.removed v).lookup (l.vnode w).key = some (-1) := by
  have hlt : ∀ x ∈ l.head :: a, ((l.removed v).vnode x).key < (l.vnode w).key := fun x hx => by
    rw [h.removed_before hx]
    exact (h.around.1 x hx).trans (h.around.2 w (List.mem_append_left _ hw))
  rw [(h.linked.removed v).lookup_eq (a := a) (b := v :: (b ++ dead)) (by simp) ?_ ?_]
  · have hlast := hlt _ (List.getLastD_mem_cons (l := a) (a := l.head))
    exact congrArg some (if_neg (Nat.ne_of_lt hlast))
  · intro x hx
    exact Nat.le_of_lt (hlt x (List.mem_cons_of_mem _ hx))
  · intro x hx
    obtain rfl : v = x := by simpa using hx
    rw [removed_self]
    exact (h.range w (by simp [hw])).2.1

theorem lookup_absent (h : Trimmed l live dead) (hkey : 0 < key ∧ key < maxKey)
    (hne : ∀ x ∈ live, (l.vnode x).key ≠ key) : l.lookup key = some (-1) := by
  apply h.linked.lookup_absent
  intro x hx
  rcases List.mem_cons.mp hx with rfl | hx
  · rw [h.head_key]
    exact Nat.ne_of_lt hkey.1
  · rcases List.mem_append.mp hx with hx | hx
    · exact hne x hx
    · rw [h.dead x hx]
      exact Nat.ne_of_gt hkey.2

theorem removesOnly_iff (h : Trimmed l live dead) {gone present rs : List ℕ}
    (hpresent : present.Perm (live.map fun v => (l.vnode v).key))
    (hgone : ∀ k ∈ gone, (0 < k ∧ k < maxKey) ∧ k ∉ present) (hnd : rs.Nodup) (hsub : rs ⊆ present) :
    RemovesOnly l gone present rs ↔ FromTheEnd present rs := by
  induction rs generalizing l live dead gone present with
  | nil => exact Iff.rfl
  | cons r rs ih =>
    obtain ⟨v, hv, rfl⟩ := List.mem_map.mp (hpresent.subset (hsub List.mem_cons_self))
    obtain ⟨a, b, rfl⟩ := List.append_of_mem hv
    cases b with
    | nil =>
      have h' := h.remove_last
      have hkeys : (a.map fun x => ((l.removed v).vnode x).key) = a.map fun x => (l.vnode x).key :=
        List.map_congr_left fun x hx => congrArg Vnode.key (h.removed_before (List.mem_cons_of_mem _ hx))
      have hcons : present.Perm ((l.vnode v).key :: a.map fun x => (l.vnode x).key) := by
        refine hpresent.trans ?_
        rw [List.map_append, List.map_singleton]
        exact List.perm_append_singleton _ _
      have hdistinct : present.Nodup := by
        rw [hpresent.nodup_iff]
        exact List.pairwise_map.mpr (h.sorted.imp Nat.ne_of_lt)
      have hlargest : ∀ k ∈ present, k ≤ (l.vnode v).key := by
        intro k hk
        rcases List.mem_cons.mp (hcons.subset hk) with rfl | hk
        · exact le_rfl
        · obtain ⟨x, hx, rfl⟩ := List.mem_map.mp hk
          exact Nat.le_of_lt (h.around.1 x (List.mem_cons_of_mem _ hx))
      have hrange := h.range v (by simp)
      have hgone' : ∀ k ∈ (l.vnode v).key :: gone, (0 < k ∧ k < maxKey) ∧
        k ∉ present.erase (l.vnode v).key := by
        intro k hk
        rcases List.mem_cons.mp hk with rfl | hk
        · exact ⟨⟨hrange.1, hrange.2.1⟩, hdistinct.not_mem_erase⟩
        · exact ⟨(hgone k hk).1, fun hmem => (hgone k hk).2 (List.mem_of_mem_erase hmem)⟩
      have hpresent' : (present.erase (l.vnode v).key).Perm (a.map fun x => ((l.removed v).vnode x).key) := by
        rw [hkeys]
        simpa using hcons.erase (l.vnode v).key
      have hsub' : rs ⊆ present.erase (l.vnode v).key := fun x hx => by
        refine (List.mem_erase_of_ne ?_).mpr (hsub (List.mem_cons_of_mem _ hx))
        rintro rfl
        exact (List.nodup_cons.mp hnd).1 hx
      have hrest := ih h' hpresent' hgone' (List.nodup_cons.mp hnd).2 hsub'
      have hlost : ∀ k ∈ (l.vnode v).key :: gone, (l.removed v).lookup k = some (-1) := fun k hk =>
        h'.lookup_absent (hgone' k hk).1 fun x hx he =>
          (hgone' k hk).2 (hpresent'.symm.subset (he ▸ List.mem_map_of_mem hx))
      have hsame : ∀ k ∈ present, k ≠ (l.vnode v).key → SameAnswers l (l.removed v) k := by
        intro k hk hne
        obtain ⟨x, hx, rfl⟩ := List.mem_map.mp ((List.mem_cons.mp (hcons.subset hk)).resolve_left hne)
        exact h.sameAnswers h' (by simp [hx]) hx (h.removed_before (List.mem_cons_of_mem _ hx))
      constructor
      · rintro ⟨l', hl', -, -, hruns⟩
        cases h.remove_eq.symm.trans hl'
        exact ⟨hlargest, hrest.mp hruns⟩
      · rintro ⟨-, hruns⟩
        exact ⟨_, h.remove_eq, hlost, hsame, hrest.mpr hruns⟩
    | cons w b =>
      have hlt : (l.vnode v).key < (l.vnode w).key := h.around.2 w (by simp)
      have hmem : (l.vnode w).key ∈ present := hpresent.symm.subset (List.mem_map_of_mem (by simp))
      have hw : Trimmed l ((a ++ [v]) ++ w :: b) dead := by simpa using h
      constructor
      · rintro ⟨l', hl', -, hsame, -⟩
        cases h.remove_eq.symm.trans hl'
        have hanswer := (hsame _ hmem (Nat.ne_of_gt hlt)).lookup
        rw [h.lookup_behind (by simp), hw.lookup_eq] at hanswer
        exact absurd (Option.some.inj hanswer).symm (toInt_ne_neg_one (h.range w (by simp)).2.2)
      · rintro ⟨hlargest, -⟩
        exact absurd (hlargest _ hmem) (Nat.not_le.mpr hlt)

end Trimmed

theorem Ordered.trimmed {ps : List (ℕ × ℕ)} (h : Ordered l ids) (hperm : (ids.map l.pair).Perm ps)
    (hkeys : (ps.map Prod.fst).Nodup) (hrange : ∀ p ∈ ps, 0 < p.1 ∧ p.1 < maxKey ∧ p.2 < 2 ^ 31) :
    Trimmed l ids [] := by
  have hdistinct : ids.Pairwise fun v w => (l.vnode v).key ≠ (l.vnode w).key := by
    have hnd := (hperm.map Prod.fst).nodup_iff.mpr hkeys
    rw [List.map_map] at hnd
    exact List.pairwise_map.mp hnd
  refine ⟨by simpa using h.toLinked, h.head_key, ?_, fun v hv => ?_, by simp⟩
  · exact (h.sorted.and hdistinct).imp fun hle => Nat.lt_of_le_of_ne hle.1 hle.2
  · exact hrange (l.pair v) (hperm.subset (List.mem_map_of_mem hv))

/-- Removing present keys leaves the others alone just if each one is the largest that is
still there. -/
theorem build_removesOnly_iff (cs : List (ℕ × ℕ)) (hkeys : (cs.map Prod.fst).Nodup)
    (hrange : ∀ c ∈ cs, 0 < c.1 ∧ c.1 < maxKey ∧ c.2 < 2 ^ 31) {rets : List Bool} {l : ValueList}
    (hbuild : build cs = some (rets, l)) (rs : List ℕ) (hnd : rs.Nodup)
    (hsub : rs ⊆ (inserted cs rets).map Prod.fst) :
    RemovesOnly l [] ((inserted cs rets).map Prod.fst) rs ↔ FromTheEnd ((inserted cs rets).map Prod.fst) rs := by
  obtain ⟨rets', l', ids, hbuild', h, hperm⟩ := build_ordered cs
  cases hbuild.symm.trans hbuild'
  have hsublist := inserted_sublist cs rets
  have ht := h.trimmed hperm ((hsublist.map Prod.fst).nodup hkeys) fun p hp => hrange p (hsublist.subset hp)
  refine ht.removesOnly_iff ?_ (by simp) hnd hsub
  have hmap := (hperm.map Prod.fst).symm
  rwa [List.map_map] at hmap

theorem build_two : ((build [(1, 10), (2, 20)]).bind fun r => (r.2.remove 1).map fun r' =>
    (r.1, r'.1, r.2.lookup 2, r'.2.lookup 2)) = some ([true, true], true, some 20, some (-1)) := by decide +kernel

theorem build_removesOnly_iff_two : ∃ rets l, build [(1, 10), (2, 20)] = some (rets, l) ∧
    FromTheEnd ((inserted [(1, 10), (2, 20)] rets).map Prod.fst) [2, 1] ∧
    RemovesOnly l [] ((inserted [(1, 10), (2, 20)] rets).map Prod.fst) [2, 1] := by
  obtain ⟨⟨rets, l⟩, hbuild, hrun⟩ := Option.bind_eq_some_iff.mp build_two
  obtain ⟨⟨ret, l'⟩, -, hrun⟩ := Option.map_eq_some_iff.mp hrun
  simp only [Prod.mk.injEq] at hrun
  obtain ⟨rfl, -⟩ := hrun
  have hend : FromTheEnd ((inserted [(1, 10), (2, 20)] [true, true]).map Prod.fst) [2, 1] := by
    simp [inserted, FromTheEnd]
  refine ⟨_, l, hbuild, hend,
    (build_removesOnly_iff _ (by decide) (by decide) hbuild [2, 1] (by decide) ?_).mpr hend⟩
  decide

/-- The key behind the removed one is lost. -/
theorem build_remove_first : ∃ rets l l', build [(1, 10), (2, 20)] = some (rets, l) ∧
    l.remove 1 = some (true, l') ∧ l.lookup 2 = some 20 ∧ l'.lookup 2 = some (-1) := by
  obtain ⟨⟨rets, l⟩, hbuild, hrun⟩ := Option.bind_eq_some_iff.mp build_two
  obtain ⟨⟨ret, l'⟩, hremove, hrun⟩ := Option.map_eq_some_iff.mp hrun
  simp only [Prod.mk.injEq] at hrun
  obtain ⟨-, rfl, hbefore, hafter⟩ := hrun
  exact ⟨rets, l, l', hbuild, hremove, hbefore, hafter⟩

end ValueList

end Hkv.Tandem
