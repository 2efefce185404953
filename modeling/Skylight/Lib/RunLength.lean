import Mathlib.Algebra.BigOperators.Group.Finset.Basic
import Mathlib.Algebra.BigOperators.Intervals
import Mathlib.Data.Nat.Cast.Basic
import Mathlib.Data.List.Basic
import Mathlib.Logic.Function.Basic
import Mathlib.Tactic.SplitIfs

/-!
# Run-length encoded arrays

A list of runs `(n, a)` encodes an array: `n` cells holding `a`, then the cells of the
next run. `valueAt` reads one cell. An edit of the encoding either leaves the array
alone (a run is split, two runs of one value are joined, an empty run is dropped) or
changes one cell of it (a run of one cell gets another value, a seam between two runs
moves by one cell); the lemmas say which, each under an arbitrary prefix and suffix.
-/

namespace Skylight.RunLength

variable {α : Type*}

/-- The number of cells a list of runs encodes. -/
def total : List (Nat × α) → Nat
  | [] => 0
  | (n, _) :: l => n + total l

/-- The value of one cell of the encoded array. -/
def valueAt : List (Nat × α) → Nat → Option α
  | [], _ => none
  | (n, a) :: l, k => if k < n then some a else valueAt l (k - n)

@[simp] theorem total_nil : total ([] : List (Nat × α)) = 0 := rfl

@[simp] theorem total_cons (n : Nat) (a : α) (l : List (Nat × α)) :
    total ((n, a) :: l) = n + total l := rfl

@[simp] theorem total_append (l₁ l₂ : List (Nat × α)) :
    total (l₁ ++ l₂) = total l₁ + total l₂ := by
  induction l₁ with
  | nil => simp
  | cons x l₁ ih => simp [total, ih, Nat.add_assoc]

/-- A cell lies in the first run, or in the rest by so much less. -/
theorem valueAt_cons (n : Nat) (a : α) (l : List (Nat × α)) (k : Nat) :
    valueAt ((n, a) :: l) k = if k < n then some a else valueAt l (k - n) := rfl

/-- A cell before the seam is read in the first part, any other in the second. -/
theorem valueAt_append (l₁ l₂ : List (Nat × α)) (k : Nat) :
    valueAt (l₁ ++ l₂) k = if k < total l₁ then valueAt l₁ k else valueAt l₂ (k - total l₁) := by
  induction l₁ generalizing k with
  | nil => simp
  | cons x l₁ ih =>
    obtain ⟨n, a⟩ := x
    simp only [List.cons_append, valueAt_cons, ih, total_cons]
    split_ifs <;> first | rfl | omega | (congr 1; omega)

/-- A cell exists exactly below the total. -/
theorem valueAt_eq_none {l : List (Nat × α)} {k : Nat} : valueAt l k = none ↔ total l ≤ k := by
  induction l generalizing k with
  | nil => simp [valueAt]
  | cons x l ih =>
    obtain ⟨n, a⟩ := x
    rw [valueAt_cons, total_cons]
    split_ifs with h
    · simp only [false_iff]; omega
    · rw [ih]; omega

/-- The cells of a run read the run's value. -/
theorem valueAt_run {l₁ l₂ : List (Nat × α)} {n k : Nat} {a : α} (lo : total l₁ ≤ k)
    (hi : k < total l₁ + n) : valueAt (l₁ ++ (n, a) :: l₂) k = some a := by
  rw [valueAt_append, if_neg (by omega), valueAt_cons, if_pos (by omega)]

/-- A cell that reads a value lies in some run of that value. -/
theorem exists_run {l : List (Nat × α)} {k : Nat} {a : α} (h : valueAt l k = some a) :
    ∃ l₁ n l₂, l = l₁ ++ (n, a) :: l₂ ∧ total l₁ ≤ k ∧ k < total l₁ + n := by
  induction l generalizing k with
  | nil => simp [valueAt] at h
  | cons x l ih =>
    obtain ⟨n, b⟩ := x
    rw [valueAt_cons] at h
    split_ifs at h with hk
    · obtain rfl : b = a := by simpa using h
      exact ⟨[], n, l, rfl, by simp, by simpa using hk⟩
    · obtain ⟨l₁, m, l₂, rfl, lo, hi⟩ := ih h
      exact ⟨(n, b) :: l₁, m, l₂, rfl, by rw [total_cons]; omega, by rw [total_cons]; omega⟩

/-- Two encodings of one middle part encode one array under any prefix and suffix. -/
theorem valueAt_congr (l₁ l₂ : List (Nat × α)) {m m' : List (Nat × α)} (ht : total m' = total m)
    (hm : ∀ j, j < total m → valueAt m' j = valueAt m j) :
    valueAt (l₁ ++ m' ++ l₂) = valueAt (l₁ ++ m ++ l₂) := by
  funext k
  simp only [List.append_assoc, valueAt_append, ht]
  split_ifs with h₁ h₂
  · rfl
  · exact hm _ h₂
  · rfl

/-- A middle part rewritten in one cell rewrites that cell of the whole. -/
theorem valueAt_update (l₁ l₂ : List (Nat × α)) {m m' : List (Nat × α)} {i : Nat} {a : α}
    (ht : total m' = total m) (hi : i < total m)
    (hm : ∀ j, j < total m → valueAt m' j = if j = i then some a else valueAt m j) :
    valueAt (l₁ ++ m' ++ l₂) =
      Function.update (valueAt (l₁ ++ m ++ l₂)) (total l₁ + i) (some a) := by
  funext k
  rw [Function.update_apply]
  simp only [List.append_assoc, valueAt_append, ht]
  split_ifs with h₁ h₂ h₃ h₄ h₅ <;> first | rfl | omega | skip
  · rw [hm _ h₃, if_pos (by omega)]
  · rw [hm _ h₃, if_neg (by omega)]

/-- A run may be split anywhere. -/
theorem valueAt_split (l₁ l₂ : List (Nat × α)) (m n : Nat) (a : α) :
    valueAt (l₁ ++ (m, a) :: (n, a) :: l₂) = valueAt (l₁ ++ (m + n, a) :: l₂) := by
  have := @valueAt_congr α l₁ l₂ [(m + n, a)] [(m, a), (n, a)] (by simp) (fun j hj => by
      simp only [total_cons, total_nil] at hj
      simp only [valueAt_cons]
      split_ifs <;> first | rfl | omega)
  simpa using this

/-- An empty run encodes nothing. -/
theorem valueAt_drop_empty (l₁ l₂ : List (Nat × α)) (a : α) :
    valueAt (l₁ ++ (0, a) :: l₂) = valueAt (l₁ ++ l₂) := by
  have := @valueAt_congr α l₁ l₂ [] [(0, a)] rfl (fun j hj => by simp at hj)
  simpa using this

/-- Giving a run of one cell another value changes that cell. -/
theorem valueAt_retag (l₁ l₂ : List (Nat × α)) (a b : α) :
    valueAt (l₁ ++ (1, b) :: l₂) =
      Function.update (valueAt (l₁ ++ (1, a) :: l₂)) (total l₁) (some b) := by
  have := @valueAt_update α l₁ l₂ [(1, a)] [(1, b)] 0 b (by simp) (by simp) (fun j hj => by
      obtain rfl : j = 0 := by simpa using hj
      simp [valueAt_cons])
  simpa using this

/-- Moving a seam right by one cell hands the first cell of the right run to the left. -/
theorem valueAt_seam_right (l₁ l₂ : List (Nat × α)) (m n : Nat) (a b : α) :
    valueAt (l₁ ++ (m + 1, a) :: (n, b) :: l₂) =
      Function.update (valueAt (l₁ ++ (m, a) :: (n + 1, b) :: l₂)) (total l₁ + m) (some a) := by
  have := @valueAt_update α l₁ l₂ [(m, a), (n + 1, b)] [(m + 1, a), (n, b)] m a
    (by simp; omega) (by simp) (fun j hj => by
      simp only [total_cons, total_nil] at hj
      simp only [valueAt_cons]
      split_ifs <;> first | rfl | omega)
  simpa using this

/-- Moving a seam left by one cell hands the last cell of the left run to the right. -/
theorem valueAt_seam_left (l₁ l₂ : List (Nat × α)) (m n : Nat) (a b : α) :
    valueAt (l₁ ++ (m, a) :: (n + 1, b) :: l₂) =
      Function.update (valueAt (l₁ ++ (m + 1, a) :: (n, b) :: l₂)) (total l₁ + m) (some b) := by
  have := @valueAt_update α l₁ l₂ [(m + 1, a), (n, b)] [(m, a), (n + 1, b)] m b
    (by simp; omega) (by simp; omega) (fun j hj => by
      simp only [total_cons, total_nil] at hj
      simp only [valueAt_cons]
      split_ifs <;> first | rfl | omega)
  simpa using this

/-- The number of cells that read a value is the size of its runs. -/
theorem card_valueAt [DecidableEq α] (l : List (Nat × α)) (a : α) :
    ((Finset.range (total l)).filter fun k => valueAt l k = some a).card
      = ((l.filter fun r => r.2 = a).map Prod.fst).sum := by
  induction l with
  | nil => simp
  | cons x l ih =>
    obtain ⟨n, b⟩ := x
    have first : ∀ k ∈ Finset.range n, (if valueAt ((n, b) :: l) k = some a then 1 else 0)
        = if b = a then 1 else 0 := by
      intro k hk
      rw [valueAt_cons, if_pos (Finset.mem_range.mp hk)]
      simp
    have rest : ∀ k ∈ Finset.range (total l),
        (if valueAt ((n, b) :: l) (n + k) = some a then 1 else 0)
          = if valueAt l k = some a then 1 else 0 := by
      intro k _
      have : ¬ n + k < n := by omega
      rw [valueAt_cons, if_neg this, Nat.add_sub_cancel_left]
    rw [Finset.card_filter] at ih ⊢
    rw [total_cons, Finset.sum_range_add, Finset.sum_congr rfl first, Finset.sum_congr rfl rest, ih]
    by_cases h : b = a <;> simp [h]

/-- The function `f` with the `n` cells from `k` on changed to `a`. -/
def fill (f : Nat → Option α) (k n : Nat) (a : α) : Nat → Option α :=
  fun j => if k ≤ j ∧ j < k + n then some a else f j

@[simp] theorem fill_zero (f : Nat → Option α) (k : Nat) (a : α) : fill f k 0 a = f := by
  funext j
  exact if_neg (by omega)

/-- One cell changed is an update. -/
theorem fill_one (f : Nat → Option α) (k : Nat) (a : α) :
    fill f k 1 a = Function.update f k (some a) := by
  funext j
  rw [fill, Function.update_apply]
  split_ifs <;> first | rfl | omega

/-- The first cell first, then the others. -/
theorem fill_succ (f : Nat → Option α) (k n : Nat) (a : α) :
    fill f k (n + 1) a = fill (Function.update f k (some a)) (k + 1) n a := by
  funext j
  simp only [fill, Function.update_apply]
  split_ifs <;> first | rfl | omega

/-- The cells that were changed have the new value. -/
theorem fill_inside {f : Nat → Option α} {k n j : Nat} {a : α} (lo : k ≤ j) (hi : j < k + n) :
    fill f k n a j = some a := if_pos ⟨lo, hi⟩

/-- And the others theirs. -/
theorem fill_outside {f : Nat → Option α} {k n j : Nat} {a : α} (out : ¬ (k ≤ j ∧ j < k + n)) :
    fill f k n a j = f j := if_neg out

end Skylight.RunLength
