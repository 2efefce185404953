import Mathlib.Data.Set.Card
import Mathlib.Data.Set.Finite.List

/-!
# Radix trees in a store

The nodes of a radix tree lie in a store `σ`, which gives a node one entry for each index;
`child` says to which node an entry leads, if any. `follow` goes down from the root along
a list of indices. When no node is reached along two paths (`Distinct`), a new entry shows
at one path only, and the number of paths still without a node says how many nodes the
tree can take.

`Install` is the one edit: an absent entry is led to a new node that leads nowhere. `Install.shows`
says what `follow` finds then, `Install.distinct` that no node comes to be reached twice, and
`Install.lacking_succ` that one node fewer is lacking. Entries are never removed here, and nothing
is said of what the last nodes hold.
-/

namespace Skylight.Radix

variable {N I E : Type*} (child : E → Option N)

/-- The node a path leads to. -/
def follow (σ : N → I → E) : N → List I → Option N
  | t, [] => some t
  | t, i :: π => (child (σ t i)).bind fun n => follow σ n π

variable {child} {σ σ' : N → I → E} {r t t₀ n₀ : N} {i i₀ : I} {π π₀ π' : List I} {d : Nat}

@[simp] theorem follow_nil : follow child σ r [] = some r := rfl

/-- A path is followed piece by piece. -/
theorem follow_append : ∀ {r : N},
    follow child σ r (π ++ π') = (follow child σ r π).bind fun t => follow child σ t π' := by
  induction π with
  | nil => intro r; rfl
  | cons i π ih =>
    intro r
    cases h : child (σ r i) with
    | none => simp [follow, h]
    | some n => simpa [follow, h] using ih

/-- The last step of a path is one entry of the node before. -/
theorem follow_snoc :
    follow child σ r (π ++ [i]) = (follow child σ r π).bind fun t => child (σ t i) := by
  rw [follow_append]
  cases follow child σ r π with
  | none => rfl
  | some t => cases h : child (σ t i) <;> simp [follow, h]

variable (child) in
/-- No node is reached along two paths of at most `d` indices. -/
def Distinct (d : Nat) (σ : N → I → E) (r : N) : Prop :=
  ∀ ⦃π π' : List I⦄ ⦃t : N⦄, π.length ≤ d → π'.length ≤ d →
    follow child σ r π = some t → follow child σ r π' = some t → π = π'

/-- Only the entries of nodes above depth `d` lead to nodes down to depth `d`. -/
theorem follow_congr (same : ∀ π t i, π.length < d → follow child σ r π = some t →
    child (σ' t i) = child (σ t i)) :
    ∀ π : List I, π.length ≤ d → follow child σ' r π = follow child σ r π := by
  intro π
  induction π using List.reverseRecOn with
  | nil => intro _; rfl
  | append_singleton π i ih =>
    intro h
    rw [List.length_append, List.length_singleton] at h
    rw [follow_snoc, follow_snoc, ih (by omega)]
    cases hπ : follow child σ r π with
    | none => rfl
    | some t => exact same π t i (by omega) hπ

/-- Where the same nodes are reached, each is reached once as before. -/
theorem Distinct.congr (h : Distinct child d σ r)
    (same : ∀ π : List I, π.length ≤ d → follow child σ' r π = follow child σ r π) :
    Distinct child d σ' r := by
  intro π π' t hπ hπ' ht ht'
  rw [same _ hπ] at ht
  rw [same _ hπ'] at ht'
  exact h hπ hπ' ht ht'

/-- A blank node `n₀` is put at the entry `i₀` of `t₀`, which led nowhere. -/
structure Install (child : E → Option N) (σ : N → I → E) (t₀ : N) (i₀ : I) (n₀ : N)
    (σ' : N → I → E) : Prop where
  absent : child (σ t₀ i₀) = none
  led : child (σ' t₀ i₀) = some n₀
  blank : ∀ i, child (σ' n₀ i) = none
  rest : ∀ t i, t ≠ n₀ → ¬ (t = t₀ ∧ i = i₀) → child (σ' t i) = child (σ t i)

section
variable [DecidableEq I] (inst : Install child σ t₀ i₀ n₀ σ') (dist : Distinct child d σ r)
  (at_ : follow child σ r π₀ = some t₀) (depth : π₀.length < d)
  (fresh : ∀ π : List I, π.length ≤ d → follow child σ r π ≠ some n₀)
include inst dist at_ depth fresh

/-- The new node shows at one path, and nothing else changes. -/
theorem Install.shows : ∀ π : List I, π.length ≤ d →
    follow child σ' r π = if π = π₀ ++ [i₀] then some n₀ else follow child σ r π := by
  intro π
  induction π using List.reverseRecOn with
  | nil =>
    intro _
    rw [if_neg (by simp), follow_nil, follow_nil]
  | append_singleton π i ih =>
    intro h
    rw [List.length_append, List.length_singleton] at h
    have above := ih (by omega)
    rw [follow_snoc, follow_snoc]
    by_cases here : π = π₀ ++ [i₀]
    · -- below the new node there is nothing, as there was before
      have long : π ++ [i] ≠ π₀ ++ [i₀] := by
        intro eq
        have := congrArg List.length eq
        simp [here] at this
      rw [above, if_pos here, if_neg long, here, follow_snoc, at_, Option.bind_some,
        Option.bind_some, inst.absent, inst.blank, Option.bind_none]
    · rw [above, if_neg here]
      cases hπ : follow child σ r π with
      | none =>
        have off : π ++ [i] ≠ π₀ ++ [i₀] := by
          intro eq
          rw [(List.append_inj' eq rfl).1, at_] at hπ
          cases hπ
        rw [if_neg off, Option.bind_none, Option.bind_none]
      | some t =>
        have old : t ≠ n₀ := fun eq => fresh π (by omega) (by rw [hπ, eq])
        rw [Option.bind_some, Option.bind_some]
        by_cases entry : t = t₀ ∧ i = i₀
        · have path : π = π₀ := dist (by omega) (by omega) (entry.1 ▸ hπ) at_
          rw [if_pos (by rw [path, entry.2]), entry.1, entry.2, inst.led]
        · have off : π ++ [i] ≠ π₀ ++ [i₀] := by
            intro eq
            obtain ⟨path, last⟩ := List.append_inj' eq rfl
            rw [path, at_] at hπ
            exact entry ⟨(Option.some.inj hπ).symm, List.singleton_inj.mp last⟩
          rw [if_neg off, inst.rest t i old entry]

/-- A tree in which every node is reached once stays one. The new node is reached along one path,
and the others are reached as before. -/
theorem Install.distinct : Distinct child d σ' r := by
  have shows := inst.shows dist at_ depth fresh
  intro π π' t hπ hπ' ht ht'
  rw [shows π hπ] at ht
  rw [shows π' hπ'] at ht'
  by_cases h : π = π₀ ++ [i₀] <;> by_cases h' : π' = π₀ ++ [i₀]
  · rw [h, h']
  · rw [if_pos h] at ht
    rw [if_neg h', ← ht] at ht'
    exact absurd ht' (fresh π' hπ')
  · rw [if_pos h'] at ht'
    rw [if_neg h, ← ht'] at ht
    exact absurd ht (fresh π hπ)
  · rw [if_neg h] at ht
    rw [if_neg h'] at ht'
    exact dist hπ hπ' ht ht'

end

variable (child) in
/-- The paths of at most `d` indices that lead nowhere. -/
def vacant (d : Nat) (σ : N → I → E) (r : N) : Set (List I) :=
  {π | π.length ≤ d ∧ follow child σ r π = none}

variable (child) in
/-- The number of nodes a tree of depth `d` lacks. -/
noncomputable def lacking (d : Nat) (σ : N → I → E) (r : N) : Nat := (vacant child d σ r).ncard

/-- There are finitely many paths of a bounded length, so finitely many without a node. -/
theorem vacant_finite [Finite I] : (vacant child d σ r).Finite :=
  (List.finite_length_le I d).subset fun _ h => h.1

/-- Where the same nodes are reached, as many are lacking. -/
theorem lacking_congr (same : ∀ π : List I, π.length ≤ d →
    follow child σ' r π = follow child σ r π) :
    lacking child d σ' r = lacking child d σ r := by
  have : vacant child d σ' r = vacant child d σ r := by
    ext π
    show π.length ≤ d ∧ _ = none ↔ π.length ≤ d ∧ _ = none
    exact and_congr_right fun h => by rw [same π h]
  rw [lacking, lacking, this]

/-- A node put into the tree is one the tree no longer lacks. -/
theorem Install.lacking_succ [DecidableEq I] [Finite I] (inst : Install child σ t₀ i₀ n₀ σ')
    (dist : Distinct child d σ r) (at_ : follow child σ r π₀ = some t₀)
    (depth : π₀.length < d)
    (fresh : ∀ π : List I, π.length ≤ d → follow child σ r π ≠ some n₀) :
    lacking child d σ' r + 1 = lacking child d σ r := by
  have shows := inst.shows dist at_ depth fresh
  have mem : π₀ ++ [i₀] ∈ vacant child d σ r := by
    refine ⟨by simpa using depth, ?_⟩
    rw [follow_snoc, at_, Option.bind_some, inst.absent]
  have less : vacant child d σ' r = vacant child d σ r \ {π₀ ++ [i₀]} := by
    ext π
    constructor
    · intro ⟨len, no⟩
      rw [shows π len] at no
      by_cases here : π = π₀ ++ [i₀]
      · rw [if_pos here] at no
        cases no
      · rw [if_neg here] at no
        exact ⟨⟨len, no⟩, here⟩
    · intro ⟨⟨len, no⟩, off⟩
      refine ⟨len, ?_⟩
      rw [shows π len, if_neg (Set.mem_singleton_iff.not.mp off), no]
  rw [lacking, lacking, less]
  exact Set.ncard_sdiff_singleton_add_one mem vacant_finite

end Skylight.Radix
