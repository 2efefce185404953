import Mathlib.Data.List.Basic

/-!
# Properties of every step of a run

A run is a list of operations from a state, each of which may be refused. `Steps step P s ops` says
that every step the run takes is as `P` says. Two properties that agree where an invariant holds,
one of which keeps the invariant, are properties of the same runs.

`steps_iff` is that rule, and `steps_of_operations` the one for a property of the operations alone.
A refused operation ends the run, and what comes behind it is not asked about.
-/

namespace Skylight

variable {S Op : Type*} {step : S → Op → Option S} {P Q : S → Op → S → Prop} {I : S → Prop}
  {s s' : S} {op : Op} {ops : List Op}

/-- What is said of every place of a list, with what stands before it, is said of the first and of
those behind it. -/
theorem forall_split_cons {α : Type*} {R : List α → α → Prop} {a : α} {l : List α} :
    (∀ before x after, a :: l = before ++ x :: after → R before x) ↔
      R [] a ∧ ∀ before x after, l = before ++ x :: after → R (a :: before) x := by
  constructor
  · intro all
    refine ⟨all [] a l rfl, fun before x after split => ?_⟩
    exact all (a :: before) x after (congrArg (a :: ·) split)
  · rintro ⟨first, rest⟩ before x after split
    cases before with
    | nil =>
      cases split
      exact first
    | cons b before =>
      cases split
      exact rest before x after rfl

/-- Of an empty list nothing is said. -/
theorem forall_split_nil {α : Type*} {R : List α → α → Prop} :
    ∀ before x after, [] = before ++ x :: after → R before x := fun before x after split =>
  absurd split.symm (List.append_ne_nil_of_right_ne_nil before (List.cons_ne_nil x after))

/-- Every step of the run is as `P` says. -/
def Steps (step : S → Op → Option S) (P : S → Op → S → Prop) (s : S) (ops : List Op) : Prop :=
  ∀ before op after s₁ s₂, ops = before ++ op :: after → before.foldlM step s = some s₁ →
    step s₁ op = some s₂ → P s₁ op s₂

/-- A run of no operations has no steps. -/
theorem steps_nil : Steps step P s [] := by
  intro before op after s₁ s₂ split
  cases before with
  | nil => cases split
  | cons a before => cases split

/-- The steps of a run are its first one, if that is not refused, and those of the rest from where
it leads. -/
theorem steps_cons : Steps step P s (op :: ops) ↔
    ∀ s', step s op = some s' → P s op s' ∧ Steps step P s' ops := by
  constructor
  · intro steps s' run
    refine ⟨steps [] op ops s s' rfl rfl run, ?_⟩
    intro before op' after s₁ s₂ split runs
    apply steps (op :: before) op' after s₁ s₂ (congrArg (op :: ·) split)
    rw [List.foldlM_cons, run]
    exact runs
  · intro steps before op' after s₁ s₂ split runs run
    cases before with
    | nil =>
      cases split
      cases runs
      exact (steps s₂ run).1
    | cons a before =>
      cases split
      rw [List.foldlM_cons] at runs
      obtain ⟨s', first, rest⟩ := Option.bind_eq_some_iff.mp runs
      exact (steps s' first).2 before op' after s₁ s₂ rfl rest run

/-- The rule for two properties of runs, with the invariant `I` that the second keeps; `R` is what
is known of the operations. -/
theorem steps_iff_of {R : Op → Prop} (known : ∀ op ∈ ops, R op) (holds : I s)
    (agree : ∀ s op s', R op → I s → step s op = some s' → (P s op s' ↔ Q s op s'))
    (keeps : ∀ s op s', R op → I s → step s op = some s' → Q s op s' → I s') :
    Steps step P s ops ↔ Steps step Q s ops := by
  induction ops generalizing s with
  | nil => exact iff_of_true steps_nil steps_nil
  | cons op ops ih =>
    have op_known := known op (List.mem_cons_self ..)
    have ih := fun s' h => ih (fun op mem => known op (List.mem_cons_of_mem _ mem)) (s := s') h
    rw [steps_cons, steps_cons]
    refine forall_congr' fun s' => imp_congr_right fun run => ?_
    constructor
    · intro ⟨first, rest⟩
      have second := (agree s op s' op_known holds run).mp first
      exact ⟨second, (ih s' (keeps s op s' op_known holds run second)).mp rest⟩
    · intro ⟨first, rest⟩
      exact ⟨(agree s op s' op_known holds run).mpr first,
        (ih s' (keeps s op s' op_known holds run first)).mpr rest⟩

/-- Two properties that agree under an invariant, which one of them keeps, hold of every step of the
same runs. By induction on the operations, with the invariant carried from state to state. -/
theorem steps_iff (holds : I s)
    (agree : ∀ s op s', I s → step s op = some s' → (P s op s' ↔ Q s op s'))
    (keeps : ∀ s op s', I s → step s op = some s' → Q s op s' → I s') :
    Steps step P s ops ↔ Steps step Q s ops :=
  steps_iff_of (R := fun _ => True) (fun _ _ => trivial) holds (fun s op s' _ => agree s op s')
    fun s op s' _ => keeps s op s'

/-- A property of the operations alone is one of the operations of the run. -/
theorem steps_of_operations {R : Op → Prop} (run : (ops.foldlM step s).isSome) :
    Steps step (fun _ op _ => R op) s ops ↔ ∀ op ∈ ops, R op := by
  induction ops generalizing s with
  | nil => exact iff_of_true steps_nil (List.forall_mem_nil _)
  | cons op ops ih =>
    rw [List.foldlM_cons] at run
    obtain ⟨end', runs⟩ := Option.isSome_iff_exists.mp run
    obtain ⟨s', first, rest⟩ := Option.bind_eq_some_iff.mp runs
    have rest' := ih (s := s') (Option.isSome_iff_exists.mpr ⟨end', rest⟩)
    rw [steps_cons, List.forall_mem_cons, ← rest']
    constructor
    · intro steps
      exact steps s' first
    · intro both s'' again
      obtain rfl := Option.some.inj (first.symm.trans again)
      exact both

end Skylight
