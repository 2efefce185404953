import Skylight.Apps.Text
import Skylight.Lib.Steps

/-!
# Where the characters go

The cursor of `menu_render_string_at` against one over the natural numbers. The step back is taken
before it is seen that it leaves the line, so at column 0 it leads to the last column there is.

`lawful_iff` is about every string, every start and every color. The cursor is the reference
cursor at every character exactly when each of them keeps it in bounds (`Careful`). Of the
places alone, where nothing can go past the largest column or row: exactly when no step back
from column 0 goes before a printable character of its line (`Covered`). The places of strings
long enough to go past the largest word are not told apart.
-/

namespace Skylight.Text

/-- A character that is placed. -/
def Printable (c : BitVec 8) : Prop :=
  c ≠ newline ∧ c ≠ tab ∧ c ≠ backspace ∧ c ≠ carriageReturn

instance (c : BitVec 8) : Decidable (Printable c) := inferInstanceAs (Decidable (_ ∧ _))

/-- A character that takes the cursor back to where its line begins. -/
def Returns (c : BitVec 8) : Prop := c = newline ∨ c = carriageReturn

instance (c : BitVec 8) : Decidable (Returns c) := inferInstanceAs (Decidable (_ ∨ _))

/-- The reference cursor behind a character. -/
def step (col : Nat) (p : Nat × Nat) (c : BitVec 8) : Nat × Nat :=
  if c = newline then (col, p.2 + 1)
  else if c = tab then ((p.1 / 4 + 1) * 4, p.2)
  else if c = backspace then (max col (p.1 - 1), p.2)
  else if c = carriageReturn then (col, p.2)
  else (p.1 + 1, p.2)

/-- The printable characters where the reference cursor is. -/
def glyphs (col : Nat) : Nat × Nat → List (BitVec 8) → List ((Nat × Nat) × BitVec 8)
  | _, [] => []
  | p, c :: str =>
    if Printable c then (p, c) :: glyphs col (step col p c) str else glyphs col (step col p c) str

/-- The position behind a character. -/
def advance (col : BitVec 64) (pos : Pos) (c : BitVec 8) : Pos :=
  (renderChar (fun _ _ _ _ => ()) col 0 () pos c).2

/-- The numbers of a position. -/
def Pos.toNat (pos : Pos) : Nat × Nat := (pos.px.toNat, pos.py.toNat)

/-- The cursor is the reference cursor at every character. -/
def Steady (col row : BitVec 64) (str : List (BitVec 8)) : Prop :=
  ∀ before after, str = before ++ after →
    (before.foldl (advance col) ⟨col, row⟩).toNat =
      before.foldl (step col.toNat) (col.toNat, row.toNat)

/-- Every printable character is placed where the reference cursor is, and not left of the start
column nor further than four columns a character from it. -/
structure Lawful (col row : BitVec 64) (str : List (BitVec 8)) (color : BitVec 8) : Prop where
  places : (placed col row str color).map (fun g => (g.1.toNat, g.2)) =
    glyphs col.toNat (col.toNat, row.toNat) str
  bounds : ∀ g ∈ placed col row str color, col.toNat ≤ g.1.px.toNat ∧
    g.1.px.toNat ≤ col.toNat + 4 * str.length

/-- A character that does not take the cursor back from column 0, nor past the largest column or
row. -/
def Keeps (col : Nat) (p : Nat × Nat) (c : BitVec 8) : Prop :=
  ¬ (c = backspace ∧ p.1 = 0) ∧ (step col p c).1 < 2 ^ 64 ∧ (step col p c).2 < 2 ^ 64

/-- Every character of the string is such a one. -/
def Careful (col row : BitVec 64) (str : List (BitVec 8)) : Prop :=
  ∀ before c after, str = before ++ c :: after →
    Keeps col.toNat (before.foldl (step col.toNat) (col.toNat, row.toNat)) c

/-- No printable character comes behind a step back from column 0, unless one that returns comes
between them. -/
def Covered (col row : BitVec 64) (str : List (BitVec 8)) : Prop :=
  ∀ before between c after, str = before ++ backspace :: (between ++ c :: after) → Printable c →
    (before.foldl (step col.toNat) (col.toNat, row.toNat)).1 = 0 → ∃ d ∈ between, Returns d

section
variable {S : Type*} {place : S → Pos → BitVec 8 → BitVec 8 → S} {col row x y : BitVec 64}
  {pos : Pos}
  {c color : BitVec 8} {str : List (BitVec 8)} {p : Nat × Nat} {n : Nat}

/-! ### The cursor -/

/-- The position does not depend on what is drawn. -/
theorem renderChar_snd {s : S} : (renderChar place col color s pos c).2 = advance col pos c := by
  rw [advance, renderChar, renderChar]
  split_ifs <;> rfl

/-- A printable character is drawn, and no other. -/
theorem renderChar_fst {s : S} : (renderChar place col color s pos c).1 =
    if Printable c then place s pos c color else s := by
  rw [renderChar]
  by_cases one : c = newline
  · rw [if_pos one, if_neg fun printable => printable.1 one]
  rw [if_neg one]
  by_cases two : c = tab
  · rw [if_pos two, if_neg fun printable => printable.2.1 two]
  rw [if_neg two]
  by_cases three : c = backspace
  · rw [if_pos three, if_neg fun printable => printable.2.2.1 three]
  rw [if_neg three]
  by_cases four : c = carriageReturn
  · rw [if_pos four, if_neg fun printable => printable.2.2.2 four]
  · rw [if_neg four, if_pos ⟨one, two, three, four⟩]

/-- The calls behind a position. -/
def calls (col : BitVec 64) : Pos → List (BitVec 8) → List (Pos × BitVec 8)
  | _, [] => []
  | pos, c :: str =>
    if Printable c then (pos, c) :: calls col (advance col pos c) str
    else calls col (advance col pos c) str

/-- What is drawn for a string. -/
theorem foldl_renderChar {s : S} :
    (str.foldl (fun r c => renderChar place col color r.1 r.2 c) (s, pos)).1 =
      (calls col pos str).foldl (fun s g => place s g.1 g.2 color) s := by
  induction str generalizing s pos with
  | nil => rfl
  | cons c str ih =>
    rw [List.foldl_cons, ← Prod.mk.eta (p := renderChar place col color s pos c), ih,
      renderChar_snd, renderChar_fst, calls]
    split
    · rfl
    · rfl

/-- Where it is drawn. -/
theorem placed_eq : placed col row str color = calls col ⟨col, row⟩ str := by
  rw [placed, renderStringAt, foldl_renderChar]
  calc (calls col ⟨col, row⟩ str).foldl (fun gs g => gs ++ [g]) []
      = [] ++ ((calls col ⟨col, row⟩ str).map fun g => [g]).flatten := List.foldl_append_eq_append
    _ = calls col ⟨col, row⟩ str := by rw [← List.flatMap_def, List.flatMap_singleton']; rfl

/-- Whatever characters are placed with, it is called for these. -/
theorem renderStringAt_eq {s : S} : renderStringAt place s col row str color =
    (placed col row str color).foldl (fun s g => place s g.1 g.2 color) s := by
  rw [renderStringAt, foldl_renderChar, placed_eq]

/-- The screen after a string. -/
theorem menuRenderStringAt_eq {s : Screen} : menuRenderStringAt s col row str color =
    (placed col row str color).foldl (fun s g => textRenderPlaceAt s g.1 g.2 color) s :=
  renderStringAt_eq

/-- The position behind a character, case by case. -/
theorem advance_eq : advance col pos c =
    if c = newline then ⟨col, pos.py + 1⟩
    else if c = tab then { pos with px := pos.px + (indentSize - pos.px % indentSize) }
    else if c = backspace then
      if pos.px - 1 < col then { pos with px := col } else { pos with px := pos.px - 1 }
    else if c = carriageReturn then { pos with px := col }
    else { pos with px := pos.px + 1 } := by
  rw [advance, renderChar]
  dsimp only
  split_ifs <;> rfl

/-- A tab goes to the next multiple of four. -/
theorem tab_toNat (x : BitVec 64) : (x + (indentSize - x % indentSize)).toNat =
    (x.toNat / 4 + 1) * 4 % 2 ^ 64 := by
  have := x.isLt
  rw [BitVec.toNat_add, BitVec.toNat_sub, BitVec.toNat_umod,
    show indentSize.toNat = 4 from rfl]
  omega

/-- The step back, which is seen to leave the line when it has been taken. -/
theorem back_toNat (low : col.toNat ≤ x.toNat) :
    (if x - 1 < col then (⟨col, y⟩ : Pos) else ⟨x - 1, y⟩).toNat =
      if x.toNat = 0 then (2 ^ 64 - 1, y.toNat) else (max col.toNat (x.toNat - 1), y.toNat) := by
  have hx := x.isLt
  have less : (x - 1).toNat = if x.toNat = 0 then 2 ^ 64 - 1 else x.toNat - 1 := by
    rw [BitVec.toNat_sub, show (1 : BitVec 64).toNat = 1 from rfl]
    split <;> omega
  by_cases zero : x.toNat = 0
  · rw [if_pos zero] at less ⊢
    rw [if_neg (by rw [BitVec.lt_def, less]; omega), Pos.toNat, less]
  · rw [if_neg zero] at less ⊢
    by_cases below : x - 1 < col
    · rw [if_pos below]
      rw [BitVec.lt_def, less] at below
      rw [Nat.max_eq_left (Nat.le_of_lt below)]
      rfl
    · rw [if_neg below, Pos.toNat, less]
      rw [BitVec.lt_def, less] at below
      rw [Nat.max_eq_right (Nat.le_of_not_lt below)]

/-- One character. -/
theorem advance_iff (low : col.toNat ≤ x.toNat) :
    (advance col ⟨x, y⟩ c).toNat = step col.toNat (x.toNat, y.toNat) c ↔
      Keeps col.toNat (x.toNat, y.toNat) c := by
  have hx := x.isLt
  have hy := y.isLt
  have hk := col.isLt
  rw [Keeps, advance_eq, step]
  by_cases one : c = newline
  · subst one
    have next : (y + 1).toNat = (y.toNat + 1) % 2 ^ 64 := BitVec.toNat_add ..
    rw [if_pos rfl, if_pos rfl, Pos.toNat, Prod.mk.injEq, next]
    refine ⟨fun eq => ⟨fun back => absurd back.1 (by decide), hk, ?_⟩, fun keeps => ⟨rfl, ?_⟩⟩
    · exact (Nat.mod_eq_iff_lt (by decide)).mp eq.2
    · exact Nat.mod_eq_of_lt keeps.2.2
  rw [if_neg one, if_neg one]
  by_cases two : c = tab
  · subst two
    rw [if_pos rfl, if_pos rfl, Pos.toNat, tab_toNat, Prod.mk.injEq]
    refine ⟨fun eq => ⟨fun back => absurd back.1 (by decide), ?_, hy⟩, fun keeps => ⟨?_, rfl⟩⟩
    · exact (Nat.mod_eq_iff_lt (by decide)).mp eq.1
    · exact Nat.mod_eq_of_lt keeps.2.1
  rw [if_neg two, if_neg two]
  by_cases three : c = backspace
  · rw [if_pos three, if_pos three, back_toNat low]
    by_cases zero : x.toNat = 0
    · rw [if_pos zero]
      refine ⟨fun eq => ?_, fun keeps => absurd ⟨three, zero⟩ keeps.1⟩
      have column : 2 ^ 64 - 1 = max col.toNat (x.toNat - 1) := congrArg Prod.fst eq
      omega
    · rw [if_neg zero]
      have small : max col.toNat (x.toNat - 1) < 2 ^ 64 := by omega
      exact ⟨fun _ => ⟨fun back => zero back.2, small, hy⟩, fun _ => rfl⟩
  rw [if_neg three, if_neg three]
  by_cases four : c = carriageReturn
  · rw [if_pos four, if_pos four]
    exact ⟨fun _ => ⟨fun back => three back.1, hk, hy⟩, fun _ => rfl⟩
  · have next : (x + 1).toNat = (x.toNat + 1) % 2 ^ 64 := BitVec.toNat_add ..
    rw [if_neg four, if_neg four, Pos.toNat, Prod.mk.injEq, next]
    refine ⟨fun eq => ⟨fun back => three back.1, ?_, hy⟩, fun keeps => ⟨?_, rfl⟩⟩
    · exact (Nat.mod_eq_iff_lt (by decide)).mp eq.1
    · exact Nat.mod_eq_of_lt keeps.2.1

/-- The reference cursor is never left of the start column, and at most four columns further after a
character. -/
theorem step_bounds (low : n ≤ p.1) : n ≤ (step n p c).1 ∧ (step n p c).1 ≤ p.1 + 4 ∧
    (step n p c).2 ≤ p.2 + 1 := by
  rw [step]
  split_ifs
  · exact ⟨Nat.le_refl n, by omega, Nat.le_refl _⟩
  · exact ⟨by omega, by omega, by omega⟩
  · exact ⟨Nat.le_max_left .., by omega, by omega⟩
  · exact ⟨Nat.le_refl n, by omega, by omega⟩
  · exact ⟨by omega, by omega, by omega⟩

/-! ### Every character -/

/-- What is said of every beginning of a list. -/
theorem forall_prefix_cons {α : Type*} {R : List α → Prop} {a : α} {l : List α} :
    (∀ before after, a :: l = before ++ after → R before) ↔
      R [] ∧ ∀ before after, l = before ++ after → R (a :: before) := by
  constructor
  · intro all
    exact ⟨all [] (a :: l) rfl, fun before after split => all (a :: before) after
      (by rw [split]; rfl)⟩
  · rintro ⟨first, rest⟩ before after split
    cases before with
    | nil => exact first
    | cons b before =>
      cases split
      exact rest before after rfl

/-- The cursor is the reference cursor from these positions on. -/
def SteadyFrom (col : BitVec 64) (pos : Pos) (p : Nat × Nat) (str : List (BitVec 8)) : Prop :=
  ∀ before after, str = before ++ after →
    (before.foldl (advance col) pos).toNat = before.foldl (step col.toNat) p

/-- The first character, and the others. -/
theorem steadyFrom_cons : SteadyFrom col pos p (c :: str) ↔
    pos.toNat = p ∧ SteadyFrom col (advance col pos c) (step col.toNat p c) str :=
    forall_prefix_cons

/-- The cursors agree as long as no character leads astray. -/
theorem steadyFrom_iff (here : pos.toNat = p) (low : col.toNat ≤ p.1) : SteadyFrom col pos p str ↔
    ∀ before c after, str = before ++ c :: after →
      Keeps col.toNat (before.foldl (step col.toNat) p) c := by
  induction str generalizing pos p with
  | nil =>
    refine ⟨fun _ => forall_split_nil, fun _ before after split => ?_⟩
    obtain ⟨rfl, rfl⟩ := List.append_eq_nil_iff.mp split.symm
    exact here
  | cons c str ih =>
    have both : SteadyFrom col (advance col pos c) (step col.toNat p c) str ↔
        Keeps col.toNat p c ∧ ∀ before d after, str = before ++ d :: after →
          Keeps col.toNat (before.foldl (step col.toNat) (step col.toNat p c)) d := by
      subst here
      have one : (advance col pos c).toNat = step col.toNat pos.toNat c ↔
        Keeps col.toNat pos.toNat c := advance_iff low
      have low' := (step_bounds (c := c) low).1
      constructor
      · intro steady
        have first := one.mp (steady [] str rfl)
        exact ⟨first, (ih (one.mpr first) low').mp steady⟩
      · rintro ⟨first, rest⟩
        exact (ih (one.mpr first) low').mpr rest
    rw [steadyFrom_cons, both, and_iff_right here]
    exact (forall_split_cons (R := fun before d =>
      Keeps col.toNat (before.foldl (step col.toNat) p) d)).symm

/-- The characters with the numbers of their positions. -/
def numbered (gs : List (Pos × BitVec 8)) : List ((Nat × Nat) × BitVec 8) :=
  gs.map fun g => (g.1.toNat, g.2)

/-- Where they agree, the characters are placed right. -/
theorem SteadyFrom.places (steady : SteadyFrom col pos p str) :
    numbered (calls col pos str) = glyphs col.toNat p str := by
  induction str generalizing pos p with
  | nil => rfl
  | cons c str ih =>
    obtain ⟨here, rest⟩ := steadyFrom_cons.mp steady
    rw [calls, glyphs]
    split
    · rw [← ih rest, ← here]
      rfl
    · exact ih rest

/-- The reference places are within bounds. -/
theorem glyphs_bounds (low : n ≤ p.1) : ∀ g ∈ glyphs n p str,
    n ≤ g.1.1 ∧ g.1.1 ≤ p.1 + 4 * str.length := by
  induction str generalizing p with
  | nil =>
    intro g mem
    cases mem
  | cons c str ih =>
    intro g mem
    obtain ⟨low', high, -⟩ := step_bounds (c := c) low
    have later (mem : g ∈ glyphs n (step n p c) str) :
        n ≤ g.1.1 ∧ g.1.1 ≤ p.1 + 4 * (c :: str).length := by
      have bounds := ih low' g mem
      rw [List.length_cons]
      omega
    rw [glyphs] at mem
    split at mem
    · rcases List.mem_cons.mp mem with rfl | mem
      · exact ⟨low, Nat.le_add_right ..⟩
      · exact later mem
    · exact later mem

/-- Characters that are placed where the reference cursor is are placed within the bounds. -/
theorem lawful_iff_places : Lawful col row str color ↔
    numbered (calls col ⟨col, row⟩ str) = glyphs col.toNat (col.toNat, row.toNat) str := by
  constructor
  · intro lawful
    have places := lawful.places
    rwa [placed_eq] at places
  · intro places
    refine ⟨by rwa [placed_eq], fun g mem => ?_⟩
    rw [placed_eq] at mem
    have numbered : (g.1.toNat, g.2) ∈ numbered (calls col ⟨col, row⟩ str) :=
      List.mem_map_of_mem mem
    rw [places] at numbered
    exact glyphs_bounds (p := (col.toNat, row.toNat)) (Nat.le_refl _) _ numbered

/-! ### The printable characters -/

/-- No printable character comes before one that returns. -/
def Quiet (str : List (BitVec 8)) : Prop :=
  ∀ between c after, str = between ++ c :: after → Printable c → ∃ d ∈ between, Returns d

/-- No step back from column 0 goes before a printable character of its line. -/
def CoveredFrom (n : Nat) (p : Nat × Nat) (str : List (BitVec 8)) : Prop :=
  ∀ before d after, str = before ++ d :: after → d = backspace → (before.foldl (step n) p).1 = 0 →
    Quiet after

/-- The condition, from the first position on. -/
theorem covered_iff : Covered col row str ↔
    CoveredFrom col.toNat (col.toNat, row.toNat) str := by
  constructor
  · rintro covered before d after rfl rfl zero between c rest rfl printable
    exact covered before between c rest rfl printable zero
  · rintro covered before between c after rfl printable zero
    exact covered before backspace _ rfl rfl zero between c after rfl printable

/-- Nothing is printed. -/
theorem quiet_nil : Quiet [] := forall_split_nil

/-- The first character, and the others. -/
theorem quiet_cons : Quiet (c :: str) ↔ Returns c ∨ ¬ Printable c ∧ Quiet str := by
  rw [Quiet, forall_split_cons (R := fun between c => Printable c → ∃ d ∈ between, Returns d)]
  constructor
  · rintro ⟨first, rest⟩
    by_cases returns : Returns c
    · exact .inl returns
    · refine .inr ⟨fun printable => ?_, fun between d after split printable => ?_⟩
      · obtain ⟨d, mem, -⟩ := first printable
        cases mem
      · obtain ⟨e, mem, back⟩ := rest between d after split printable
        rcases List.mem_cons.mp mem with rfl | mem
        · exact absurd back returns
        · exact ⟨e, mem, back⟩
  · rintro (returns | ⟨first, rest⟩)
    · refine ⟨fun printable => ?_, fun between d after _ _ => ⟨c, List.mem_cons_self, returns⟩⟩
      rcases returns with rfl | rfl
      · exact absurd rfl printable.1
      · exact absurd rfl printable.2.2.2
    · refine ⟨fun printable => absurd printable first, fun between d after split printable => ?_⟩
      obtain ⟨e, mem, back⟩ := rest between d after split printable
      exact ⟨e, List.mem_cons_of_mem _ mem, back⟩

/-- Nothing is left to be covered. -/
theorem coveredFrom_nil : CoveredFrom n p [] := fun before d after split =>
  absurd split.symm (List.append_ne_nil_of_right_ne_nil before (List.cons_ne_nil d after))

/-- The first character, and the others. -/
theorem coveredFrom_cons : CoveredFrom n p (c :: str) ↔
    (c = backspace → p.1 = 0 → Quiet str) ∧ CoveredFrom n (step n p c) str := by
  constructor
  · intro covered
    exact ⟨covered [] c str rfl, fun before d after split =>
      covered (c :: before) d after (by rw [split]; rfl)⟩
  · rintro ⟨first, rest⟩ before d after split
    cases before with
    | nil =>
      cases split
      exact first
    | cons b before =>
      cases split
      exact rest before d after rfl

/-- The cursor has been taken back from column 0, by `d` columns from the reference cursor, and they
come to the same column in no way but by returning. -/
structure Lost (pos : Pos) (p : Nat × Nat) (d : Nat) : Prop where
  apart : 0 < d
  column : (pos.px.toNat + d) % 2 ^ 64 = p.1
  row : pos.py.toNat = p.2
  even : p.1 = 0 ∨ d % 4 = 0

/-- A lost cursor is elsewhere. -/
theorem Lost.ne {d : Nat} (lost : Lost pos p d) (small : d < 2 ^ 64) : pos.toNat ≠ p := by
  rintro rfl
  have column : (pos.px.toNat + d) % 2 ^ 64 = pos.px.toNat := lost.column
  have := lost.apart
  have := pos.px.isLt
  omega

/-- What a character does to a lost cursor. -/
theorem Lost.step {d : Nat} (lost : Lost pos p d) (zero : col.toNat = 0)
    (room : p.1 + 4 < 2 ^ 64) (room' : d + 4 < 2 ^ 64) (still : ¬ Printable c)
    (stays : ¬ Returns c) : ∃ d' ≤ d + 4, Lost (advance col pos c) (Text.step 0 p c) d' := by
  obtain ⟨apart, column, row, even⟩ := lost
  have hx := pos.px.isLt
  rw [advance_eq, Text.step, if_neg fun one => stays (.inl one), if_neg fun one => stays (.inl one)]
  by_cases two : c = tab
  · rw [if_pos two, if_pos two]
    refine ⟨(d + 3) / 4 * 4, by omega, by omega, ?_, row, .inr (by omega)⟩
    show ((pos.px + (indentSize - pos.px % indentSize)).toNat + (d + 3) / 4 * 4) % 2 ^ 64 =
      (p.1 / 4 + 1) * 4
    rw [tab_toNat]
    rcases even with first | even
    · rw [first] at column ⊢
      omega
    · have whole : (d + 3) / 4 * 4 = d := by omega
      rw [whole]
      omega
  have three : c = backspace := by
    by_contra three
    by_cases four : c = carriageReturn
    · exact stays (.inr four)
    · exact still ⟨fun one => stays (.inl one), two, three, four⟩
  have less : (pos.px - 1).toNat = (pos.px.toNat + (2 ^ 64 - 1)) % 2 ^ 64 := by
    rw [BitVec.toNat_sub, show (1 : BitVec 64).toNat = 1 from rfl]
    omega
  have right : ¬ pos.px - 1 < col := by
    rw [BitVec.lt_def, zero]
    exact Nat.not_lt_zero _
  rw [if_neg two, if_neg two, if_pos three, if_pos three, if_neg right]
  by_cases first : p.1 = 0
  · refine ⟨d + 1, by omega, by omega, ?_, row, .inl (by rw [first]; rfl)⟩
    show ((pos.px - 1).toNat + (d + 1)) % 2 ^ 64 = max 0 (p.1 - 1)
    rw [less]
    omega
  · refine ⟨d, by omega, apart, ?_, row, .inr (even.resolve_left first)⟩
    show ((pos.px - 1).toNat + d) % 2 ^ 64 = max 0 (p.1 - 1)
    rw [less]
    omega

/-- A character that returns finds the cursor again. -/
theorem advance_returns (returns : Returns c) (row : pos.py.toNat = p.2) (room : p.2 + 1 < 2 ^ 64) :
    (advance col pos c).toNat = step col.toNat p c := by
  rw [advance_eq, step]
  rcases returns with rfl | rfl
  · rw [if_pos rfl, if_pos rfl, Pos.toNat, BitVec.toNat_add, row]
    exact congrArg (col.toNat, ·) (Nat.mod_eq_of_lt room)
  · exact congrArg (col.toNat, ·) row

/-- The step back from column 0. -/
theorem lost_of_back (row : pos.py.toNat = p.2) (column : pos.px.toNat = 0) (zero : col.toNat = 0)
    (first : p.1 = 0) : Lost (advance col pos backspace) (step 0 p backspace) 1 := by
  have less : (pos.px - 1).toNat = 2 ^ 64 - 1 := by
    rw [BitVec.toNat_sub, column]
    rfl
  have right : ¬ pos.px - 1 < col := by
    rw [BitVec.lt_def, zero]
    exact Nat.not_lt_zero _
  have here : advance col pos backspace = { pos with px := pos.px - 1 } := by
    rw [advance_eq, if_neg (by decide), if_neg (by decide), if_pos rfl, if_neg right]
  have there : step 0 p backspace = (0, p.2) := by
    rw [step, if_neg (by decide), if_neg (by decide), if_pos rfl, first]
    rfl
  rw [here, there]
  refine ⟨Nat.one_pos, ?_, row, .inl rfl⟩
  show ((pos.px - 1).toNat + 1) % 2 ^ 64 = 0
  rw [less]
  rfl

/-- The first character, and the others. -/
theorem places_cons : numbered (calls col pos (c :: str)) = glyphs col.toNat p (c :: str) ↔
    (Printable c → pos.toNat = p) ∧ numbered (calls col (advance col pos c) str) =
      glyphs col.toNat (step col.toNat p c) str := by
  rw [calls, glyphs]
  split
  · next printable =>
    rw [numbered, List.map_cons, List.cons.injEq, Prod.mk.injEq, and_iff_left rfl]
    exact and_congr_left' ⟨fun eq _ => eq, fun eq => eq printable⟩
  · next printable => exact (and_iff_right fun yes => absurd yes printable).symm

/-- From where the cursors agree, and from where the cursor has been lost. -/
theorem places_iff (low : col.toNat ≤ p.1) (room : p.1 + 4 * str.length < 2 ^ 64)
    (rows : p.2 + str.length < 2 ^ 64) :
    (pos.toNat = p → (numbered (calls col pos str) = glyphs col.toNat p str ↔
      CoveredFrom col.toNat p str)) ∧
    (∀ d, col.toNat = 0 → Lost pos p d → d + 4 * str.length < 2 ^ 64 →
      (numbered (calls col pos str) = glyphs col.toNat p str ↔
        Quiet str ∧ CoveredFrom col.toNat p str)) := by
  -- Along the string. A lost cursor stays lost until a character returns, so both halves are
  -- carried.
  induction str generalizing pos p with
  | nil =>
    exact ⟨fun _ => iff_of_true rfl coveredFrom_nil,
      fun d _ _ _ => iff_of_true rfl ⟨quiet_nil, coveredFrom_nil⟩⟩
  | cons c str ih =>
    rw [List.length_cons] at room rows
    obtain ⟨low', high, down⟩ := step_bounds (c := c) low
    have rest := @ih (advance col pos c) (step col.toNat p c) low' (by omega) (by omega)
    rw [places_cons, coveredFrom_cons]
    constructor
    · rintro rfl
      by_cases back : c = backspace ∧ pos.toNat.1 = 0
      · obtain ⟨rfl, first⟩ := back
        have zero : col.toNat = 0 := Nat.le_zero.mp (first ▸ low)
        have lost := lost_of_back (p := pos.toNat) rfl first zero first
        rw [← zero] at lost
        rw [rest.2 1 zero lost (by omega)]
        exact ⟨fun ⟨_, quiet, covered⟩ => ⟨fun _ _ => quiet, covered⟩,
          fun ⟨quiet, covered⟩ => ⟨fun _ => rfl, quiet rfl first, covered⟩⟩
      · have keeps : Keeps col.toNat pos.toNat c := ⟨back, by omega, by omega⟩
        rw [rest.1 ((advance_iff low).mpr keeps)]
        exact ⟨fun ⟨_, covered⟩ => ⟨fun one two => absurd ⟨one, two⟩ back, covered⟩,
          fun ⟨_, covered⟩ => ⟨fun _ => rfl, covered⟩⟩
    · intro d zero lost small
      rw [List.length_cons] at small
      rw [quiet_cons]
      by_cases printable : Printable c
      · have still : ¬ Returns c := fun returns => returns.elim printable.1 printable.2.2.2
        refine iff_of_false (fun same => lost.ne (by omega) (same.1 printable)) ?_
        rintro ⟨returns | quiet, -⟩
        · exact still returns
        · exact quiet.1 printable
      by_cases returns : Returns c
      · have other : c ≠ backspace := by
          rcases returns with rfl | rfl <;> decide
        rw [rest.1 (advance_returns returns lost.row (by omega))]
        exact ⟨fun ⟨_, covered⟩ => ⟨.inl returns, fun one => absurd one other, covered⟩,
          fun ⟨_, _, covered⟩ => ⟨fun yes => absurd yes printable, covered⟩⟩
      · obtain ⟨d', le, lost'⟩ := lost.step (c := c) zero (by omega) (by omega) printable returns
        rw [← zero] at lost'
        rw [rest.2 d' zero lost' (by omega), or_iff_right returns]
        exact ⟨fun ⟨_, quiet, covered⟩ => ⟨⟨printable, quiet⟩, fun _ _ => quiet, covered⟩,
          fun ⟨quiet, _, covered⟩ => ⟨fun yes => absurd yes printable, quiet.2, covered⟩⟩

/-- The cursor is the reference cursor's at every character, and so are the places, exactly when no
step back is from column 0 and nothing goes past the largest column or row. Of the places alone,
where nothing can go past those: exactly when no step back from column 0 goes before a printable
character of its line. -/
theorem lawful_iff (col row : BitVec 64) (str : List (BitVec 8)) (color : BitVec 8) :
    (Steady col row str ∧ Lawful col row str color ↔ Careful col row str) ∧
      (col.toNat + 4 * str.length < 2 ^ 64 → row.toNat + str.length < 2 ^ 64 →
        (Lawful col row str color ↔ Covered col row str)) := by
  have steady : Steady col row str ↔ Careful col row str :=
    steadyFrom_iff rfl (Nat.le_refl _)
  constructor
  · rw [← steady, lawful_iff_places]
    exact and_iff_left_of_imp fun s => SteadyFrom.places s
  · intro room rows
    rw [lawful_iff_places, covered_iff]
    exact (places_iff (Nat.le_refl _) room rows).1 rfl

/-- A character behind a step back from column 0, and what is placed. -/
theorem not_lawful : ¬ Lawful 0 0 [backspace, backspace, 0x61] 0x0F := by
  intro lawful
  have bounds := lawful.bounds (⟨0xFFFFFFFFFFFFFFFE, 0⟩, 0x61) (by decide)
  exact absurd bounds (by decide)

end

end Skylight.Text
