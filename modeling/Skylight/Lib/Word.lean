import Mathlib.Tactic.NormNum
import Mathlib.Tactic.Linarith

/-!
# Machine words as naturals

A 64-bit register is a natural below `2 ^ 64`, and an operation on it is the
operation on naturals reduced modulo `2 ^ 64`. The three operations say what the
hardware computes on every pair of words, wrapped or not; the lemmas beside them
name the side condition under which nothing wraps. The constant operand is usually the
second, so it stands first inside: unification then stops at the open operand and does
not count the constant down.
-/

namespace Skylight.Word

/-- Addition of 64-bit words. -/
def add (a b : Nat) : Nat := (b + a) % 2 ^ 64

/-- Subtraction of 64-bit words: it borrows from `2 ^ 64` below zero. -/
def sub (a b : Nat) : Nat := (2 ^ 64 - b % 2 ^ 64 + a) % 2 ^ 64

/-- Multiplication of 64-bit words. -/
def mul (a b : Nat) : Nat := (b * a) % 2 ^ 64

/-- A sum is a word. -/
theorem add_lt (a b : Nat) : add a b < 2 ^ 64 := Nat.mod_lt _ (by norm_num)

/-- A sum that fits in a word is the sum. -/
theorem add_eq {a b : Nat} (h : a + b < 2 ^ 64) : add a b = a + b := by
  unfold add
  omega

/-- A difference that does not borrow is the difference. -/
theorem sub_eq {a b : Nat} (ha : a < 2 ^ 64) (h : b ≤ a) : sub a b = a - b := by
  unfold sub
  omega

/-- A product that fits in a word is the product. -/
theorem mul_eq {a b : Nat} (h : a * b < 2 ^ 64) : mul a b = a * b := by
  rw [mul, Nat.mul_comm b, Nat.mod_eq_of_lt h]

end Skylight.Word
