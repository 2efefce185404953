import Mathlib.Data.List.Basic

/-!
# Places linked one to the next

A store of links names for every place the one behind it. `Leads next a l z` says that the links
lead from `a` through the places of `l`, in order, to `z`. A list that ends leads to the place
that stands for none; a list still open leads to whatever its last link holds.

`Leads.determined` says that links lead along one list of a length only, and `Leads.frame` that a
change elsewhere leaves the way as it was. Links one way are enough here; lists that are linked both
ways are in `Lib.Chain`.
-/

namespace Skylight.Links

variable {A : Type*}

/-- The links lead from `a` through `l` to `z`. -/
def Leads (next : A → A) : A → List A → A → Prop
  | a, [], z => a = z
  | a, b :: l, z => a = b ∧ Leads next (next b) l z

variable {next next' : A → A} {a b z z' : A} {l m : List A}

@[simp] theorem leads_nil : Leads next a [] z ↔ a = z := Iff.rfl

@[simp] theorem leads_cons : Leads next a (b :: l) z ↔ a = b ∧ Leads next (next b) l z := Iff.rfl

/-- The last link is the end. -/
theorem leads_snoc : Leads next a (l ++ [b]) z ↔ Leads next a l b ∧ next b = z := by
  induction l generalizing a with
  | nil => rfl
  | cons c l ih => rw [List.cons_append, leads_cons, leads_cons, ih, and_assoc]

/-- A way through some places begins at one of them. -/
theorem Leads.start_mem (h : Leads next a l z) (some : l ≠ []) : a ∈ l := by
  cases l with
  | nil => exact absurd rfl some
  | cons b l =>
    rw [h.1]
    exact List.mem_cons_self

/-- Links of other places do not matter. -/
theorem Leads.frame (h : Leads next a l z) (same : ∀ b ∈ l, next' b = next b) :
    Leads next' a l z := by
  induction l generalizing a with
  | nil => exact h
  | cons c l ih =>
    rw [List.forall_mem_cons] at same
    refine ⟨h.1, ?_⟩
    rw [same.1]
    exact ih h.2 same.2

/-- From one place the links lead one way. -/
theorem Leads.determined (h : Leads next a l z) (h' : Leads next a m z')
    (long : l.length = m.length) : l = m ∧ z = z' := by
  induction l generalizing a m with
  | nil =>
    obtain rfl := List.length_eq_zero_iff.mp long.symm
    exact ⟨rfl, h.symm.trans h'⟩
  | cons b l ih =>
    cases m with
    | nil => cases long
    | cons c m =>
      obtain ⟨rfl, rest⟩ := h
      obtain ⟨rfl, rest'⟩ := h'
      obtain ⟨same, ends⟩ := ih rest rest' (Nat.succ.inj long)
      exact ⟨by rw [same], ends⟩

end Skylight.Links
