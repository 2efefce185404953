import Skylight.Lib.Radix

/-!
# How a radix tree grows

Paths never lose the node they lead to, so the growth of a tree is the set of paths that
have one now. `Grown` names a set of paths outside of which nothing is new; it may name paths
that had a node before. The nodes missing along a set of paths are then counted down one by one
with the nodes the whole tree lacks.

`Grown.trans` puts the growth of two steps together, `Grown.one` is a step that puts in one node,
and `Grown.missing_add` the count: where a tree has grown along a set of paths only, the number
missing along the set goes down as the number that the tree lacks does. The indices have to be
finitely many.
-/

namespace Skylight.Radix

variable {N I E : Type*} (child : E → Option N)

/-- The paths that lead to a node now are those that did and those in `P`. -/
def Grown (d : Nat) (σ : N → I → E) (r : N) (σ' : N → I → E) (r' : N) (P : Set (List I)) : Prop :=
  vacant child d σ' r' = vacant child d σ r \ P

/-- The number of paths of a set that lead nowhere. -/
noncomputable def missing (d : Nat) (σ : N → I → E) (r : N) (W : Set (List I)) : Nat :=
  (vacant child d σ r ∩ W).ncard

variable {child} {σ σ₁ σ₂ σ' : N → I → E} {r r₁ r₂ r' : N} {π π₀ : List I} {d : Nat}
  {P Q W : Set (List I)}

/-- Growth by two steps is growth along the paths of both. -/
theorem Grown.trans (h : Grown child d σ r σ₁ r₁ P) (h' : Grown child d σ₁ r₁ σ₂ r₂ Q) :
    Grown child d σ r σ₂ r₂ (P ∪ Q) := by
  rw [Grown, h', h, sdiff_sdiff]
  rfl

/-- Paths that had a node, or are too long, need not be named. -/
theorem Grown.congr (h : Grown child d σ r σ' r' P)
    (same : ∀ π ∈ vacant child d σ r, π ∈ P ↔ π ∈ Q) : Grown child d σ r σ' r' Q := by
  rw [Grown, h]
  ext π
  exact and_congr_right fun mem => not_congr (same π mem)

/-- A step after which the same nodes are reached is no growth. -/
theorem Grown.of_follow (same : ∀ π : List I, π.length ≤ d →
    follow child σ' r' π = follow child σ r π) : Grown child d σ r σ' r' ∅ := by
  rw [Grown, Set.sdiff_empty]
  ext π
  exact and_congr_right fun len => by rw [same π len]

section
variable [Finite I]

/-- A tree that keeps its paths and lacks one node less has grown by the path that is new. -/
theorem Grown.one (keeps : ∀ π t, π.length ≤ d → follow child σ r π = some t →
      follow child σ' r' π = some t)
    (absent : π₀ ∈ vacant child d σ r) (led : π₀ ∉ vacant child d σ' r')
    (fewer : lacking child d σ' r' + 1 = lacking child d σ r) :
    Grown child d σ r σ' r' {π₀} := by
  have sub : vacant child d σ' r' ⊆ vacant child d σ r \ {π₀} := by
    intro π mem
    refine ⟨⟨mem.1, ?_⟩, fun here => led (Set.mem_singleton_iff.mp here ▸ mem)⟩
    cases there : follow child σ r π with
    | none => rfl
    | some t =>
      have kept := keeps π t mem.1 there
      rw [mem.2] at kept
      cases kept
  refine Set.eq_of_subset_of_ncard_le sub ?_ (vacant_finite.subset Set.sdiff_subset)
  have card := Set.ncard_sdiff_singleton_add_one absent vacant_finite
  rw [lacking, lacking] at fewer
  omega

/-- What is missing along the named paths goes down with what the tree lacks. -/
theorem Grown.missing_add (h : Grown child d σ r σ' r' P) (inside : P ⊆ W) :
    missing child d σ' r' W + lacking child d σ r =
      missing child d σ r W + lacking child d σ' r' := by
  set V := vacant child d σ r with def_V
  have finite : V.Finite := vacant_finite
  have whole : V = vacant child d σ' r' ∪ V ∩ P := by
    rw [h, Set.sdiff_union_inter]
  have part : V ∩ W = vacant child d σ' r' ∩ W ∪ V ∩ P := by
    rw [h]
    ext π
    constructor
    · rintro ⟨mem, along⟩
      by_cases new : π ∈ P
      · exact .inr ⟨mem, new⟩
      · exact .inl ⟨⟨mem, new⟩, along⟩
    · rintro (⟨⟨mem, -⟩, along⟩ | ⟨mem, new⟩)
      · exact ⟨mem, along⟩
      · exact ⟨mem, inside new⟩
  have apart : Disjoint (vacant child d σ' r') (V ∩ P) := by
    rw [h]
    exact Set.disjoint_left.mpr fun π out new => out.2 new.2
  have finite' : (vacant child d σ' r').Finite := vacant_finite
  have card := congrArg Set.ncard whole
  have card' := congrArg Set.ncard part
  rw [Set.ncard_union_eq apart finite' (finite.subset Set.inter_subset_left)] at card
  rw [Set.ncard_union_eq (apart.mono_left Set.inter_subset_left)
    (finite'.subset Set.inter_subset_left) (finite.subset Set.inter_subset_left)] at card'
  rw [missing, missing, lacking, lacking, ← def_V]
  omega

/-- Where a path of the set has no node, something is missing. -/
theorem missing_pos (absent : π ∈ vacant child d σ r) (along : π ∈ W) :
    0 < missing child d σ r W :=
  (Set.ncard_pos (vacant_finite.subset Set.inter_subset_left)).mpr ⟨π, absent, along⟩

omit [Finite I] in
/-- No more nodes are missing along a set of paths than it has paths that lead nowhere. -/
theorem missing_le [DecidableEq I] {ρs : List (List I)}
    (all : ∀ π ∈ vacant child d σ r, π ∈ W → π ∈ ρs) : missing child d σ r W ≤ ρs.length := by
  have sub : vacant child d σ r ∩ W ⊆ ρs.toFinset := fun π mem =>
    List.mem_toFinset.mpr (all π mem.1 mem.2)
  calc missing child d σ r W ≤ (ρs.toFinset : Set (List I)).ncard :=
        Set.ncard_le_ncard sub (Finset.finite_toSet _)
    _ = ρs.toFinset.card := Set.ncard_coe_finset _
    _ ≤ ρs.length := List.toFinset_card_le ρs

end

end Skylight.Radix
