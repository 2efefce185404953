import Mathlib.Data.List.Basic

/-!
# Words in a stream

Letters are collected until a test says that what was collected needs no more. A word is a list
all of whose beginnings need more while it itself does not; a stream of such words comes apart
into them, whatever they are.

`foldl_flatten` is that statement; it needs nothing of the words but that each is one. What the
collector does with a stream that ends in the middle of a word is `Word.take`: the letters so far
are kept and nothing is given out. Streams with letters between the words are not considered.
-/

namespace Skylight.Framing

variable {α : Type*} (more : List α → Bool)

/-- The next letter, with what is collected and the words that came so far. -/
def push (s : List α × List (List α)) (a : α) : List α × List (List α) :=
  if more (s.1 ++ [a]) then (s.1 ++ [a], s.2) else ([], s.2 ++ [s.1 ++ [a]])

/-- Every beginning of a word needs more, and the word does not. -/
structure Word (w : List α) : Prop where
  some : w ≠ []
  starts : ∀ n < w.length, 0 < n → more (w.take n) = true
  whole : more w = false

instance (w : List α) [DecidableEq α] : Decidable (Word more w) :=
  decidable_of_iff (w ≠ [] ∧ (∀ n < w.length, 0 < n → more (w.take n) = true) ∧ more w = false)
    ⟨fun h => ⟨h.1, h.2.1, h.2.2⟩, fun h => ⟨h.some, h.starts, h.whole⟩⟩

variable {more} {w : List α} {done : List (List α)}

/-- A letter after which more is needed is only collected. -/
theorem push_more {s : List α × List (List α)} {a : α} (h : more (s.1 ++ [a]) = true) :
    push more s a = (s.1 ++ [a], s.2) := if_pos h

/-- A letter that completes a word gives it out, and the collector is empty again. -/
theorem push_whole {s : List α × List (List α)} {a : α} (h : more (s.1 ++ [a]) = false) :
    push more s a = ([], s.2 ++ [s.1 ++ [a]]) := by
  rw [push, h]
  rfl

/-- The beginning of a word is only collected. -/
theorem Word.take (word : Word more w) {n : Nat} (lt : n < w.length) :
    (w.take n).foldl (push more) ([], done) = (w.take n, done) := by
  induction n with
  | zero => rfl
  | succ n ih =>
    have next : w.take (n + 1) = w.take n ++ [w[n]] := by
      rw [List.take_append_getElem]
    rw [next, List.foldl_append, ih (Nat.lt_of_succ_lt lt)]
    apply push_more
    rw [← next]
    exact word.starts _ lt (Nat.succ_pos n)

/-- A whole word is given out, behind those that were before. -/
theorem Word.foldl (word : Word more w) : w.foldl (push more) ([], done) = ([], done ++ [w]) := by
  have length := List.length_pos_iff.mpr word.some
  have last : w = w.take (w.length - 1) ++ [w[w.length - 1]] := by
    rw [List.take_append_getElem, Nat.sub_add_cancel length, List.take_length]
  have whole := word.whole
  rw [last] at whole
  conv_lhs => rw [last]
  rw [List.foldl_append, word.take (by omega), List.foldl_cons, List.foldl_nil, push_whole whole]
  rw [← last]

/-- A stream of words comes apart into the words. -/
theorem foldl_flatten {ws : List (List α)} (words : ∀ w ∈ ws, Word more w) :
    ws.flatten.foldl (push more) ([], done) = ([], done ++ ws) := by
  induction ws generalizing done with
  | nil => rw [List.append_nil]; rfl
  | cons w ws ih =>
    rw [List.flatten_cons, List.foldl_append, (words w List.mem_cons_self).foldl]
    rw [ih fun w mem => words w (List.mem_cons_of_mem _ mem), List.append_assoc]
    rfl

end Skylight.Framing
