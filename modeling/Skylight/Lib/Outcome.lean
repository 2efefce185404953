import Mathlib.Logic.Basic

/-!
# Outcomes of fallible computations

`Yields E P r` says what a computation in `Except` comes to: an answer that satisfies
`P`, or a failure that `E` allows. The rules follow a computation step by step, so a
proof about a program in `Except` reads in the order of the program.

`Yields.bind` is the rule of a sequence and `Yields.imp` that of consequence. A computation that is
allowed no failure has an answer (`Yields.exists_ok`), and one that is known to answer meets its
condition (`Yields.of_ok`). There is no state here: a program's state is part of its answer.
-/

namespace Skylight

universe u v

variable {ε : Type v} {α β : Type u} {E : ε → Prop}

@[simp] theorem pure_eq_ok (a : α) : (pure a : Except ε α) = .ok a := rfl

@[simp] theorem ok_bind (a : α) (f : α → Except ε β) : (Except.ok a >>= f) = f a := rfl

@[simp] theorem error_bind (e : ε) (f : α → Except ε β) :
    ((Except.error e : Except ε α) >>= f) = .error e := rfl

/-- Each of two computations that answer one after the other answers. -/
theorem ok_of_bind {r : Except ε α} {f : α → Except ε β} {b : β} (run : (r >>= f) = .ok b) :
    ∃ a, r = .ok a ∧ f a = .ok b := by
  cases r with
  | ok a => exact ⟨a, rfl, run⟩
  | error e => cases run

/-- An answer in `P`, or a failure in `E`. -/
def Yields (E : ε → Prop) (P : α → Prop) : Except ε α → Prop
  | .ok a => P a
  | .error e => E e

@[simp] theorem yields_ok {P : α → Prop} {a : α} : Yields E P (.ok a) ↔ P a := Iff.rfl

@[simp] theorem yields_error {P : α → Prop} {e : ε} :
    Yields E P (.error e : Except ε α) ↔ E e := Iff.rfl

/-- A computation run after another yields what it yields on each answer of the first. -/
theorem yields_bind {P : β → Prop} {r : Except ε α} {f : α → Except ε β} :
    Yields E P (r >>= f) ↔ Yields E (fun a => Yields E P (f a)) r := by
  cases r <;> exact Iff.rfl

/-- The rule of consequence: what follows from the condition holds of the answer, too. -/
theorem Yields.imp {P Q : α → Prop} {r : Except ε α} (h : Yields E P r)
    (imp : ∀ a, P a → Q a) : Yields E Q r := by
  cases r with
  | ok a => exact imp a h
  | error e => exact h

/-- More failures may be allowed. -/
theorem Yields.weaken {E' : ε → Prop} {P : α → Prop} {r : Except ε α} (h : Yields E P r)
    (imp : ∀ e, E e → E' e) : Yields E' P r := by
  cases r with
  | ok a => exact h
  | error e => exact imp e h

/-- Sequencing: what the first step yields is what the second may assume. -/
theorem Yields.bind {P : α → Prop} {Q : β → Prop} {r : Except ε α} {f : α → Except ε β}
    (h : Yields E P r) (step : ∀ a, P a → Yields E Q (f a)) : Yields E Q (r >>= f) :=
  yields_bind.mpr (h.imp step)

/-- Reading a known answer off. -/
theorem Yields.of_ok {P : α → Prop} {r : Except ε α} {a : α} (h : Yields E P r)
    (ok : r = .ok a) : P a := by
  subst ok
  exact h

/-- A computation that cannot fail in a disallowed way and does not fail in an allowed one
answers. -/
theorem Yields.exists_ok {P : α → Prop} {r : Except ε α} (h : Yields E P r)
    (no : ∀ e, r = .error e → ¬ E e) : ∃ a, r = .ok a ∧ P a := by
  cases r with
  | ok a => exact ⟨a, rfl, h⟩
  | error e => exact absurd h (no e rfl)

end Skylight
