import Hkv.TandemIndex
import Hkv.StepRun

/-!
# The node pools of the prototype

`DramInodePool` and `PmemVnodePool` are one class twice: a vector of nodes, the number of
nodes as an `int`, a cursor, and a block of memory. `extend` takes the number of nodes for
the index at which it goes on, but counts up to the number of new nodes instead of adding
it, and leaves the number as it was.
-/
namespace Hkv.Tandem
open StepRun

/-- The conversion of an unsigned 64-bit number to `int`. -/
def toInt (n : ℕ) : ℤ := (n : ℤ).bmod (2 ^ 32)

/-- The conversion of an `int` to `size_t`. -/
def toSizeT (z : ℤ) : ℕ := (z % 2 ^ 64).toNat

theorem toInt_of_lt {n : ℕ} (h : n < 2 ^ 31) : toInt n = n := Int.bmod_eq_of_le (by omega) (by omega)

theorem toInt_ne_neg_one {n : ℕ} (h : n < 2 ^ 31) : toInt n ≠ -1 := by
  rw [toInt_of_lt h]
  omega

theorem toSizeT_of_lt {n : ℕ} (h : n < 2 ^ 31) : toSizeT n = n := by
  rw [toSizeT, Int.emod_eq_of_lt (by omega) (by omega), Int.toNat_natCast]

/-- What tells the two pools apart. -/
structure PoolKind where
  nodeSize : ℕ
  /-- The bytes that `init` allocates. -/
  region : ℕ
  /-- The size check of `extend`, on `numNodes + extendNumNodes`. -/
  fits : ℕ → Bool
  nodeSize_pos : 0 < nodeSize
  region_lt : region < 2 ^ 31 * nodeSize

def maxNodes : ℕ := 5000
def nodePoolSize : ℕ := 30 * 1024 * 1024 * 1024

/-- `PmemVnodePool` with `sizeof(Vnode)` -/
def pmemVnodePool : PoolKind := ⟨24, 24 * maxNodes, fun n => n ≤ maxNodes, by decide, by decide⟩

/-- `DramInodePool` with `sizeof(Inode)` -/
def dramInodePool : PoolKind :=
    ⟨32, nodePoolSize, fun n => n * 32 % 2 ^ 64 ≤ nodePoolSize, by decide, by decide⟩

/-- A node of the vector: its id and its distance from the start of the memory. -/
structure PoolNode where
  id : ℤ
  offset : ℤ
  deriving DecidableEq

structure NodePool where
  nodes : List PoolNode
  numNodes : ℤ
  currentIdx : ℤ
  deriving DecidableEq

namespace NodePool
variable (K : PoolKind)

/-- The constructor with `init`; `num` is a `size_t`. -/
def new (num : ℕ) : NodePool :=
  ⟨(List.range (toInt num).toNat).map fun i : ℕ => ⟨i, i * K.nodeSize⟩, toInt num, 0⟩

/-- `none` is a null pointer. -/
def getNextNode (p : NodePool) : Option PoolNode × NodePool :=
  if p.numNodes ≤ p.currentIdx then (none, p)
  else (p.nodes[p.currentIdx.toNat]?, { p with currentIdx := p.currentIdx + 1 })

/-- `none` is the `exit` of a failed size check. The start address is an `int` product. -/
def extend (p : NodePool) (extendNumNodes : ℕ) : Option NodePool :=
  let first := toSizeT p.numNodes
  let start := (p.numNodes * K.nodeSize).bmod (2 ^ 32)
  if K.fits ((first + extendNumNodes) % 2 ^ 64) then
    some { p with nodes := p.nodes ++ (List.range' first (extendNumNodes - first)).map fun i : ℕ =>
      ⟨toInt i, start + (i - first) * K.nodeSize⟩ }
  else none

end NodePool

/-! ## Runs -/

inductive PoolCall where
  | getNextNode
  | extend (extendNumNodes : ℕ)

/-- A pool, the sum of its extensions, and the number of nodes it has handed out. -/
structure UsedPool where
  pool : NodePool
  extended : ℕ
  handedOut : ℕ

namespace UsedPool
variable (K : PoolKind)

def new (num : ℕ) : UsedPool := ⟨.new K num, 0, 0⟩

def step (s : UsedPool) : PoolCall → Option UsedPool
  | .getNextNode => some { s with
      pool := s.pool.getNextNode.2
      handedOut := if s.pool.getNextNode.1.isSome then s.handedOut + 1 else s.handedOut }
  | .extend n => (s.pool.extend K n).map fun p => { s with pool := p, extended := s.extended + n }

/-- Node `i` of a pool. -/
def nodeOf (i : ℕ) : PoolNode := ⟨i, i * K.nodeSize⟩

/-- What a pool that began with `num` nodes should be. -/
structure Law (num : ℕ) (s : UsedPool) : Prop where
  size : s.pool.nodes.length = num + s.extended
  node : ∀ i < s.pool.nodes.length, s.pool.nodes[i]? = some (nodeOf K i) ∧ (i + 1) * K.nodeSize ≤ K.region
  next : s.pool.getNextNode.1 = if s.handedOut < s.pool.nodes.length then some (nodeOf K s.handedOut) else none

variable {K} {num : ℕ} {s s' : UsedPool}

/-- `numNodes` never changes, the cursor does not pass it, and an extension adds too few
nodes unless there are none. -/
structure Steady (num : ℕ) (s : UsedPool) : Prop where
  numNodes : s.pool.numNodes = num
  currentIdx : s.pool.currentIdx = s.handedOut
  handedOut : s.handedOut ≤ num
  size : num ≤ s.pool.nodes.length
  short : s.extended = 0 ∧ s.pool.nodes.length = num ∨ num = 0 ∨ s.pool.nodes.length < num + s.extended

theorem num_lt (h : num * K.nodeSize ≤ K.region) : num < 2 ^ 31 := by
  by_contra hge
  have hmul := Nat.mul_le_mul_right K.nodeSize (Nat.not_lt.mp hge)
  have hlt := K.region_lt
  omega

theorem new_of_lt (h : num < 2 ^ 31) :
    new K num = ⟨⟨(List.range num).map (nodeOf K), num, 0⟩, 0, 0⟩ := by
  rw [new, NodePool.new, toInt_of_lt h, Int.toNat_natCast]
  rfl

theorem steady_new (h : num * K.nodeSize ≤ K.region) : Steady num (new K num) := by
  rw [new_of_lt (num_lt h)]
  exact ⟨rfl, rfl, Nat.zero_le _, by simp, .inl ⟨rfl, by simp⟩⟩

namespace Steady

theorem getNextNode_of_lt (h : Steady num s) (hlt : s.handedOut < num) :
    s.pool.getNextNode = (s.pool.nodes[s.handedOut]?, { s.pool with currentIdx := s.pool.currentIdx + 1 }) := by
  rw [NodePool.getNextNode, if_neg, h.currentIdx, Int.toNat_natCast]
  rw [h.numNodes, h.currentIdx]
  omega

theorem getNextNode_of_ge (h : Steady num s) (hge : num ≤ s.handedOut) : s.pool.getNextNode = (none, s.pool) := by
  rw [NodePool.getNextNode, if_pos]
  rw [h.numNodes, h.currentIdx]
  omega

theorem extend (h : Steady num s) {n : ℕ} (hnum : num < 2 ^ 31) {p : NodePool} (hp : s.pool.extend K n = some p) :
    p.numNodes = s.pool.numNodes ∧ p.currentIdx = s.pool.currentIdx ∧
      p.nodes.length = s.pool.nodes.length + (n - num) ∧ (n = 0 → p = s.pool) := by
  rw [NodePool.extend, h.numNodes, toSizeT_of_lt hnum] at hp
  split at hp
  · cases hp
    refine ⟨h.numNodes.symm, rfl, by simp, ?_⟩
    rintro rfl
    simp [← h.numNodes]
  · cases hp

theorem step {x : PoolCall} (h : Steady num s) (hnum : num < 2 ^ 31) (hs : s.step K x = some s') : Steady num s' := by
  cases x with
  | getNextNode =>
    cases hs
    rcases Nat.lt_or_ge s.handedOut num with hlt | hge
    · have hnode : s.pool.nodes[s.handedOut]?.isSome = true := by simpa using hlt.trans_le h.size
      rw [h.getNextNode_of_lt hlt]
      refine ⟨h.numNodes, ?_, ?_, h.size, h.short⟩
      · rw [if_pos hnode]
        exact congrArg (· + 1) h.currentIdx
      · rw [if_pos hnode]
        exact hlt
    · rw [h.getNextNode_of_ge hge]
      exact h
  | extend n =>
    obtain ⟨p, hp, rfl⟩ := Option.map_eq_some_iff.mp hs
    obtain ⟨hnumNodes, hidx, hlen, -⟩ := h.extend hnum hp
    have hsize := h.size
    have hshort := h.short
    refine ⟨hnumNodes.trans h.numNodes, hidx.trans h.currentIdx, h.handedOut, ?_, ?_⟩
    · show num ≤ p.nodes.length
      omega
    · show s.extended + n = 0 ∧ p.nodes.length = num ∨ num = 0 ∨ p.nodes.length < num + (s.extended + n)
      omega

end Steady

theorem Law.not_extended (h : Law K num s) (hs : Steady num s) : s.extended = 0 ∧ s.pool.nodes.length = num := by
  have hsize := h.size
  have hout := hs.handedOut
  rcases hs.short with hshort | rfl | hshort
  · exact hshort
  · have hnext := h.next
    rw [hs.getNextNode_of_ge (Nat.zero_le _)] at hnext
    by_contra hne
    rw [if_pos (by omega)] at hnext
    cases hnext
  · omega

theorem law_new_iff : Law K num (new K num) ↔ num * K.nodeSize ≤ K.region := by
  constructor
  · intro h
    cases num with
    | zero => simp
    | succ n => exact (h.node n (by rw [h.size]; exact Nat.lt_succ_self n)).2
  · intro h
    have hlen : (new K num).pool.nodes.length = num := by simp [new_of_lt (num_lt h)]
    have hnode : ∀ i < num, (new K num).pool.nodes[i]? = some (nodeOf K i) := fun i hi => by
      rw [new_of_lt (num_lt h), List.getElem?_map, List.getElem?_range hi, Option.map_some]
    refine ⟨hlen, fun i hi => ?_, ?_⟩
    · rw [hlen] at hi
      exact ⟨hnode i hi, (Nat.mul_le_mul_right _ hi).trans h⟩
    · have hsteady := steady_new h
      rw [hlen]
      by_cases hpos : 0 < num
      · rw [hsteady.getNextNode_of_lt hpos]
        exact (hnode 0 hpos).trans (if_pos hpos).symm
      · rw [hsteady.getNextNode_of_ge (Nat.not_lt.mp hpos)]
        exact (if_neg hpos).symm

theorem Law.step_iff {x : PoolCall} (h : Law K num s) (hs : Steady num s) (hnum : num < 2 ^ 31)
    (hstep : s.step K x = some s') : Law K num s' ↔ ∀ n, x = .extend n → n = 0 := by
  have hs' := hs.step hnum hstep
  obtain ⟨hext, hlen⟩ := h.not_extended hs
  cases x with
  | getNextNode =>
    refine iff_of_true ?_ (by simp)
    have hnodes : s'.pool.nodes = s.pool.nodes := by
      cases hstep
      rcases Nat.lt_or_ge s.handedOut num with hlt | hge
      · rw [hs.getNextNode_of_lt hlt]
      · rw [hs.getNextNode_of_ge hge]
    have hext' : s'.extended = s.extended := by
      cases hstep
      rfl
    refine ⟨by rw [hnodes, hext', h.size], fun i hi => ?_, ?_⟩
    · rw [hnodes] at hi ⊢
      exact h.node i hi
    · rw [hnodes, hlen]
      rcases Nat.lt_or_ge s'.handedOut num with hlt | hge
      · rw [hs'.getNextNode_of_lt hlt, if_pos hlt, hnodes]
        exact (h.node s'.handedOut (hlen ▸ hlt)).1
      · rw [hs'.getNextNode_of_ge hge, if_neg (Nat.not_lt.mpr hge)]
  | extend n =>
    obtain ⟨p, hp, rfl⟩ := Option.map_eq_some_iff.mp hstep
    simp only [PoolCall.extend.injEq, forall_eq']
    constructor
    · intro h'
      have hsum : s.extended + n = 0 := (h'.not_extended hs').1
      omega
    · rintro rfl
      obtain rfl := (hs.extend hnum hp).2.2.2 rfl
      exact ⟨h.size, h.node, h.next⟩

/-- A pool is as it should be all along a run just if its nodes fit into the memory and
every extension is by no nodes. -/
theorem run_law_iff (K : PoolKind) (num : ℕ) (xs : List PoolCall) {s' : UsedPool}
    (hrun : run (step K) (new K num) xs = some s') :
    (∀ ys, ys <+: xs → ∀ s, run (step K) (new K num) ys = some s → Law K num s) ↔
      num * K.nodeSize ≤ K.region ∧ ∀ n, PoolCall.extend n ∈ xs → n = 0 := by
  by_cases hfit : num * K.nodeSize ≤ K.region
  · have hiff := forall_run_iff_along (P := fun _ x => ∀ n, x = .extend n → n = 0) hrun
      (fun s x _ s' (hs : Steady num s) _ hstep => hs.step (num_lt hfit) hstep)
      (fun s x _ s' hs h hstep => Law.step_iff h hs (num_lt hfit) hstep) (steady_new hfit) (law_new_iff.mpr hfit)
    rw [hiff]
    constructor
    · intro halong
      exact ⟨hfit, fun n hn => forall_mem_of_along hrun halong _ hn n rfl⟩
    · rintro ⟨-, hzero⟩
      exact along_of_forall_mem fun _ x hx n hn => hzero n (hn ▸ hx)
  · refine iff_of_false (fun h => hfit ?_) fun h => hfit h.1
    exact law_new_iff.mp (h [] (List.nil_prefix) _ rfl)

theorem run_law_iff_two : ∃ s', run (step pmemVnodePool) (new pmemVnodePool 2)
      [.getNextNode, .extend 0, .getNextNode, .getNextNode] = some s' ∧ s'.handedOut = 2 ∧
    ∀ ys, ys <+: [.getNextNode, .extend 0, .getNextNode, .getNextNode] →
      ∀ s, run (step pmemVnodePool) (new pmemVnodePool 2) ys = some s → Law pmemVnodePool 2 s := by
  refine ⟨_, rfl, by decide, (run_law_iff _ _ _ rfl).mpr ⟨by decide, ?_⟩⟩
  simp

/-- Either pool, extended by three nodes after the first two; and the pool of the value list. -/
theorem run_extend_not_law :
    (∃ s, run (step pmemVnodePool) (new pmemVnodePool 2) [.extend 3] = some s ∧ ¬ Law pmemVnodePool 2 s) ∧
      (∃ s, run (step dramInodePool) (new dramInodePool 2) [.extend 3] = some s ∧ ¬ Law dramInodePool 2 s) ∧
      ¬ Law pmemVnodePool vnodeNum (new pmemVnodePool vnodeNum) := by
  refine ⟨⟨_, rfl, fun h => ?_⟩, ⟨_, rfl, fun h => ?_⟩, fun h => ?_⟩
  · exact absurd h.size (by decide)
  · exact absurd h.size (by decide)
  · exact absurd (law_new_iff.mp h) (by decide)

end UsedPool

end Hkv.Tandem
