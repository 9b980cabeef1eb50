import Hkv.TandemRebalance

/-!
# Order along a run

If every call is within, and one that splits an inode lies below everything on the levels
that it opens, the levels stay in order. Inserts that the vnode pool refuses leave the index
alone.
-/
namespace Hkv.Tandem
open LinkedChain DramSkiplist

/-- On every level `next` leads from the header to the tail through inodes of increasing
`min_key`, and each inode stands on one of the level below with the same `min_key`. -/
def DramSkiplist.Ordered (s : DramSkiplist) : Prop :=
  ∃ chains : ℕ → List ℕ, (∀ i < maxLevel, s.levelNodes i = some (chains i)) ∧
    (∀ i < maxLevel, (chains i).Pairwise fun n m => (s.inode n).minKey < (s.inode m).minKey) ∧
    ∀ i, i + 1 < maxLevel → ∀ n ∈ chains (i + 1), ∃ m ∈ chains i,
      (s.inode n).down = m ∧ (s.inode m).minKey = (s.inode n).minKey

namespace TandemIndex
variable {t : TandemIndex} {chains run : ℕ → List ℕ}

theorem Indexed.ordered (h : Indexed t chains run) (ho : Increasing t.mainIndex chains) : t.mainIndex.Ordered :=
  ⟨chains, fun _ hi => h.shape.toChained.levelNodes_eq hi, ho, h.shape.down⟩

theorem Ready.insertAll_increasing {cs : List Call} (h : Ready t chains run cs) (ho : Increasing t.mainIndex chains)
    (hclear : Along Call.OpensClear t cs) {r : List Bool × TandemIndex} (hrun : insertAll t cs = some r) :
    ∃ chains' run', Indexed r.2 chains' run' ∧ Increasing r.2.mainIndex chains' := by
  induction cs generalizing t chains run r with
  | nil =>
    cases hrun
    exact ⟨chains, run, h.indexed, ho⟩
  | cons c cs ih =>
    obtain ⟨r₁, r₂, hfirst, hrest, rfl⟩ := insertAll_cons_eq_some.mp hrun
    obtain ⟨chains₁, run₁, h₁, hinc, -⟩ := h.step hfirst
    exact ih (r := r₂) h₁ (hinc ho hclear.1) (hclear.2 _ hfirst) hrest

/-- The skip list is in order after every run of distinct keys whose calls are all within and
clear, whatever the calls returned. -/
theorem insertAll_ordered {t₀ : TandemIndex} (hnew : TandemIndex.new = some t₀) (cs : List Call)
    (hnd : (cs.map Call.key).Nodup) (hvalid : ∀ c ∈ cs, c.Valid) (hwithin : Along Call.Within t₀ cs)
    (hclear : Along Call.OpensClear t₀ cs) (rets : List Bool) (t : TandemIndex)
    (hrun : insertAll t₀ cs = some (rets, t)) : t.mainIndex.Ordered := by
  obtain ⟨chains, run, h, ho⟩ := (new_ready hnew hnd hvalid hwithin).insertAll_increasing
    (fun i _ => List.Pairwise.nil) hclear hrun
  exact h.ordered ho

/-! ## Concrete runs -/

instance (s : DramSkiplist) (key newlevel : ℕ) : Decidable (Clear s key newlevel) := by
  unfold Clear; infer_instance

instance (t : TandemIndex) (c : Call) : Decidable (c.OpensClear t) := by unfold Call.OpensClear; infer_instance

theorem insertAll_ordered_eleven : ∃ rets t, insertAll empty (ascending 11 2) = some (rets, t) ∧
    t.mainIndex.Ordered := by
  obtain ⟨r, hr⟩ := Option.isSome_iff_exists.mp
    (show (insertAll empty (ascending 11 2)).isSome = true by decide +kernel)
  exact ⟨r.1, r.2, hr, insertAll_ordered new_eq_empty (ascending 11 2) (by decide) (by decide) (by decide +kernel)
    (by decide +kernel) r.1 r.2 hr⟩

theorem overshooting_mins : (insertAll empty overshooting).bind (fun r => (r.2.mainIndex.levelNodes 0).map
    (List.map fun n => (r.2.mainIndex.inode n).minKey)) = some [10, 60, 15] := by decide +kernel

theorem insertAll_overshooting_not_ordered : ¬ ∀ cs : List Call,
    (cs.map Call.key).Nodup → (∀ c ∈ cs, c.Valid) →
    ∀ rets t, insertAll empty cs = some (rets, t) → t.mainIndex.Ordered := by
  intro h
  obtain ⟨⟨rets, t⟩, hrun, hlevel⟩ := Option.bind_eq_some_iff.mp overshooting_mins
  obtain ⟨chains, hchains, hord, -⟩ := h overshooting (by decide) (by decide) rets t hrun
  rw [hchains 0 (by decide), Option.map_some] at hlevel
  have hsorted := List.pairwise_map.mpr (hord 0 (by decide))
  rw [Option.some.inj hlevel] at hsorted
  exact absurd hsorted (by decide)

end TandemIndex

end Hkv.Tandem
