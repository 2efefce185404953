import Mathlib.Logic.Function.Basic
import Mathlib.Data.Nat.Basic

/-!
# Rasters

A raster of width `w` keeps the pixel in column `x` of row `y` at the index `y * w + x`. It shows a
grid of square cells when every pixel is what its cell has there. A board has lines of text in the
rows of a grid, at most one in each.

`Shows.put` is the rule for one cell drawn anew, `write_picture` that for a line written over a line
of the same place and length, and `Laid.write` keeps such places along a run. Lines of other lengths
would leave the end of the old one behind, so they are not covered.
-/

namespace Skylight.Raster

variable {α β V C D : Type*}

/-! ### Stores and indices -/

/-- What is at an address after some stores, where all that is stored there is the same. -/
theorem stored_eq [DecidableEq α] {l : List β} {address : β → α} {value : β → V} {m : α → V} {a : α}
    {v : V} (same : ∀ b ∈ l, address b = a → value b = v)
    (there : m a = v ∨ ∃ b ∈ l, address b = a) :
    l.foldl (fun m b => Function.update m (address b) (value b)) m a = v := by
  induction l generalizing m with
  | nil =>
    rcases there with there | ⟨b, mem, -⟩
    · exact there
    · cases mem
  | cons c l ih =>
    rw [List.forall_mem_cons] at same
    rw [List.foldl_cons]
    apply ih same.2
    by_cases here : address c = a
    · left
      rw [here, Function.update_self]
      exact same.1 here
    · rw [Function.update_of_ne (Ne.symm here)]
      rcases there with there | ⟨b, mem, eq⟩
      · exact .inl there
      · rcases List.mem_cons.mp mem with rfl | mem
        · exact absurd eq here
        · exact .inr ⟨b, mem, eq⟩

/-- A pixel's index tells its column and its row. -/
theorem index_inj {w x y x' y' : Nat} (hx : x < w) (hx' : x' < w) :
    y * w + x = y' * w + x' ↔ x = x' ∧ y = y' := by
  constructor
  · intro same
    have column : (y * w + x) % w = (y' * w + x') % w := congrArg (· % w) same
    have row : (y * w + x) / w = (y' * w + x') / w := congrArg (· / w) same
    have positive : 0 < w := Nat.zero_lt_of_lt hx
    rw [Nat.mul_comm y, Nat.mul_comm y'] at column row
    rw [Nat.mul_add_mod, Nat.mul_add_mod, Nat.mod_eq_of_lt hx, Nat.mod_eq_of_lt hx'] at column
    rw [Nat.mul_add_div positive, Nat.mul_add_div positive, Nat.div_eq_of_lt hx,
      Nat.div_eq_of_lt hx'] at row
    exact ⟨column, row⟩
  · rintro ⟨rfl, rfl⟩
    rfl

/-- And lies in the raster. -/
theorem index_lt {w h x y : Nat} (hx : x < w) (hy : y < h) : y * w + x < w * h :=
  calc y * w + x < y * w + w := Nat.add_lt_add_left hx _
    _ = (y + 1) * w := (Nat.succ_mul y w).symm
    _ ≤ h * w := Nat.mul_le_mul_right w hy
    _ = w * h := Nat.mul_comm h w

/-! ### Grids -/

/-- Every pixel of `w` columns and `h` rows is what its cell of size `t` has there. -/
def Shows (w h t : Nat) (shade : C → Nat → Nat → V) (pixel : Nat → Nat → V)
    (cells : Nat → Nat → C) :
    Prop := ∀ x < w, ∀ y < h, pixel x y = shade (cells (x / t) (y / t)) (x % t) (y % t)

/-- A grid with another cell in one place. -/
def put (cells : Nat → Nat → C) (col row : Nat) (c : C) : Nat → Nat → C :=
  fun x y => if x = col ∧ y = row then c else cells x y

/-- A raster where one tile has been drawn. -/
theorem Shows.put {w h t col row : Nat} {shade : C → Nat → Nat → V} {pixel pixel' : Nat → Nat → V}
    {cells : Nat → Nat → C} {c : C} (shows' : Shows w h t shade pixel cells)
    (drawn : ∀ x < w, ∀ y < h, pixel' x y =
      if x / t = col ∧ y / t = row then shade c (x % t) (y % t) else pixel x y) :
    Shows w h t shade pixel' (put cells col row c) := by
  intro x hx y hy
  rw [drawn x hx y hy, Raster.put]
  split
  · rfl
  · exact shows' x hx y hy

/-! ### Lines -/

/-- Some text from a column on. -/
structure Line (D : Type*) where
  col : Nat
  text : List D

/-- What a line has in a column. -/
def Line.cell (l : Line D) (x : Nat) : Option D := if l.col ≤ x then l.text[x - l.col]? else none

/-- The grid of a board. -/
def picture (board : Nat → Option (Line D)) (x y : Nat) : Option D := (board y).bind (·.cell x)

/-- A grid with some text written from a place on. -/
def write (cells : Nat → Nat → Option D) (col row : Nat) : List D → Nat → Nat → Option D
  | [] => cells
  | d :: text => write (put cells col row (some d)) (col + 1) row text

/-- What a cell has after a text was written: its character of the text if it is in the text's
stretch of the row, and else what it had. -/
theorem write_apply {cells : Nat → Nat → Option D} {col row x y : Nat} {text : List D} :
    write cells col row text x y =
      if y = row ∧ col ≤ x ∧ x < col + text.length then text[x - col]? else cells x y := by
  induction text generalizing cells col with
  | nil =>
    rw [write, if_neg]
    rintro ⟨-, low, high⟩
    exact absurd high (Nat.not_lt.mpr low)
  | cons d text ih =>
    rw [write, ih, List.length_cons]
    by_cases later : y = row ∧ col + 1 ≤ x ∧ x < col + 1 + text.length
    · have first : x - col = x - (col + 1) + 1 := by omega
      rw [if_pos later, if_pos (by omega), first, List.getElem?_cons_succ]
    · rw [if_neg later, put]
      by_cases here : x = col ∧ y = row
      · obtain ⟨rfl, rfl⟩ := here
        rw [if_pos ⟨rfl, rfl⟩, if_pos (by omega), Nat.sub_self, List.getElem?_cons_zero]
      · rw [if_neg here, if_neg (by omega)]

/-- A line written where the board has none, or one just as long in the same columns. -/
theorem write_picture {board : Nat → Option (Line D)} {row : Nat} {line : Line D}
    (fits : ∀ l ∈ board row, l.col = line.col ∧ l.text.length = line.text.length) :
    write (picture board) line.col row line.text =
      picture (Function.update board row (some line)) := by
  funext x y
  rw [write_apply, picture]
  by_cases here : y = row
  · subst here
    have new : (some line).bind (·.cell x) = line.cell x := rfl
    rw [picture, Function.update_self, new, Line.cell]
    by_cases within : line.col ≤ x ∧ x < line.col + line.text.length
    · rw [if_pos ⟨rfl, within⟩, if_pos within.1]
    · rw [if_neg fun h => within h.2]
      have outside : line.cell x = none := by
        rw [Line.cell]
        split
        · exact List.getElem?_eq_none (by omega)
        · rfl
      rw [← Line.cell, outside]
      cases old : board y with
      | none => rfl
      | some l =>
        obtain ⟨col, length⟩ := fits l old
        show l.cell x = none
        rw [Line.cell]
        split
        · exact List.getElem?_eq_none (by omega)
        · rfl
  · rw [if_neg fun h => here h.1, picture, Function.update_of_ne here]

/-- Every line of the board starts where the layout of its row says, and is as long. -/
def Laid (layout : Nat → Option (Nat × Nat)) (board : Nat → Option (Line D)) : Prop :=
  ∀ row, ∀ l ∈ board row, layout row = some (l.col, l.text.length)

/-- A line written in its layout. -/
theorem Laid.write {layout : Nat → Option (Nat × Nat)} {board : Nat → Option (Line D)} {row : Nat}
    (line : Line D) (laid : Laid layout board)
    (fits : layout row = some (line.col, line.text.length)) :
    Laid layout (Function.update board row (some line)) ∧
      write (picture board) line.col row line.text =
        picture (Function.update board row (some line)) := by
  constructor
  · intro y l mem
    by_cases here : y = row
    · subst here
      rw [Function.update_self] at mem
      cases mem
      exact fits
    · rw [Function.update_of_ne here] at mem
      exact laid y l mem
  · apply write_picture
    intro l mem
    have same := (laid row l mem).symm.trans fits
    rw [Option.some.injEq, Prod.mk.injEq] at same
    exact same

end Skylight.Raster
