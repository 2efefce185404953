import Mathlib.Data.List.Basic

/-!
# Runs that answer

A machine takes an operation, answers it and goes on; it may refuse. It refines another, which
never refuses, when every step from related states gives the same answer and related states. Then
every run does.

`Refines.run` is the whole of it: over allowed operations the first machine never refuses, gives the
second one's answers in the same order, and ends in a related state. The relation may be an
invariant beside a view of the state; what happens on an operation that is not allowed is left open.
-/

namespace Skylight.Answers

variable {S T Op A : Type*}

/-- The answers to some operations, and the state behind them. -/
def run (step : S → Op → Option (A × S)) (s : S) : List Op → Option (List A × S)
  | [] => some ([], s)
  | op :: ops => do
    let (a, s) ← step s op
    let (as, s) ← run step s ops
    return (a :: as, s)

/-- The same of a machine that never refuses. -/
def runAll (step : T → Op → A × T) (t : T) : List Op → List A × T
  | [] => ([], t)
  | op :: ops =>
    let (a, t) := step t op
    let (as, t) := runAll step t ops
    (a :: as, t)

/-- Steps from related states answer the same, where the operation is allowed. -/
def Refines (step : S → Op → Option (A × S)) (spec : T → Op → A × T) (R : S → T → Prop)
    (Allowed : Op → Prop) : Prop :=
  ∀ s t op, R s t → Allowed op →
    ∃ s', step s op = some ((spec t op).1, s') ∧ R s' (spec t op).2

/-- So does every run of operations that are allowed. -/
theorem Refines.run {step : S → Op → Option (A × S)} {spec : T → Op → A × T} {R : S → T → Prop}
    {Allowed : Op → Prop} (refines : Refines step spec R Allowed) {s : S} {t : T} (related : R s t)
    (ops : List Op) (allowed : ∀ op ∈ ops, Allowed op) :
    ∃ s', run step s ops = some ((runAll spec t ops).1, s') ∧ R s' (runAll spec t ops).2 := by
  induction ops generalizing s t with
  | nil => exact ⟨s, rfl, related⟩
  | cons op ops ih =>
    rw [List.forall_mem_cons] at allowed
    obtain ⟨s₁, first, related₁⟩ := refines s t op related allowed.1
    obtain ⟨s', rest, related'⟩ := ih related₁ allowed.2
    refine ⟨s', ?_, related'⟩
    rw [Answers.run, first, Option.bind_eq_bind, Option.bind_some]
    show (Answers.run step s₁ ops).bind _ = _
    rw [rest]
    rfl

end Skylight.Answers
