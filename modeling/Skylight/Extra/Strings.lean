import Mathlib.Data.List.Basic

/-!
# Strings

`extra/std/strcmp.c`. A place in a string is what is left of it: the characters before the NUL. At
the end of the list the NUL is read, and there is no place behind it.
-/

namespace Skylight.Strings

/-- The byte at a place. -/
def peek : List (BitVec 8) → BitVec 8
  | [] => 0
  | c :: _ => c

@[simp] theorem peek_nil : peek [] = 0 := rfl

@[simp] theorem peek_cons (c : BitVec 8) (s : List (BitVec 8)) : peek (c :: s) = c := rfl

/-- The next place, if it is not behind the NUL. -/
def advance : List (BitVec 8) → Option (List (BitVec 8))
  | [] => none
  | _ :: s => some s

/-- `strcmp`; no answer means that a byte behind a NUL is read. -/
def strcmp : List (BitVec 8) → List (BitVec 8) → Option Int
  | [], _ => some 0
  | c :: s1, s2 => do
    if c ≠ peek s2 then return c.toInt - (peek s2).toInt
    let s2 ← advance s2
    if peek s2 = 0 then return (peek s1).toInt
    strcmp s1 s2

end Skylight.Strings
