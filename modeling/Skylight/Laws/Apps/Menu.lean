import Skylight.Apps.Menu
import Skylight.Lib.Raster
import Skylight.Laws.Apps.Text
import Skylight.Laws.Apps.Typing

/-!
# What the menu shows

The screen of prism against a menu that knows only which option is selected and what the last ping
answered. Every update leaves the screen, pixel for pixel, as the picture of that menu behind the
keys so far, and nothing beside the screen is written.

`menu_pictured` is about every list of batches of scan codes, with one `kbd_update` and one
update of the screen behind each. A batch is at most what the page of keys holds, 4094 codes;
the screen has 128 by 80 pixels at least; `tui_start` was granted the framebuffer, the keyboard
and its pages. What an enter clears is drawn again by the update behind it, without the answer
of the last ping. Nothing is said of the screen between a clear and that update.
-/

namespace Skylight.Ux

open Bytes (Addr)
open Text Prism Ps2 Raster

/-! ### The menu that is meant -/

/-- The selected option, whether the next ping answers with an exclamation mark, the last answer
that is seen, and whether the screen has been cleared since the last update. -/
structure Shown where
  selected : MenuOption
  pong : Bool
  banner : Option Bool
  stale : Bool
  deriving DecidableEq

/-- What is seen first. -/
def Shown.first : Shown := ⟨.one, false, none, false⟩

/-- An option is selected, if there is one. -/
def Shown.go (s : Shown) (o : Option MenuOption) : Shown := { s with selected := o.getD s.selected }

/-- A key. -/
def Shown.key (s : Shown) (keycode : BitVec 8) : Shown :=
  let item := s.selected.item
  if keycode = hidKeycodeUp then s.go item.up
  else if keycode = hidKeycodeDown then s.go item.down
  else if keycode = hidKeycodeLeft then s.go item.left
  else if keycode = hidKeycodeRight then s.go item.right
  else if keycode = hidKeycodeEnter then
    match item.perform with
    | .clear => { s with stale := true }
    | .ping => { s with pong := !s.pong, banner := some s.pong }
    | .doNothing => s
  else s

/-- An update: what was cleared is drawn again, without the answer. -/
def Shown.update (s : Shown) : Shown :=
  if s.stale then { s with banner := none, stale := false } else s

/-- Batches of keys with an update behind each. -/
def Shown.run (s : Shown) (batches : List (List (BitVec 8))) : Shown :=
  batches.foldl (fun s keys => (keys.foldl Shown.key s).update) s

/-- A character and its color. -/
abbrev Glyph := BitVec 8 × BitVec 8

/-- The row of an option. -/
def MenuOption.row (o : MenuOption) : Nat := (menuMainMarginTop + o.item.row).toNat

/-- An option in some color. -/
def MenuOption.line (o : MenuOption) (color : BitVec 8) : Line Glyph :=
  ⟨(menuMainMarginLeft + o.item.col).toNat, o.item.text.map (·, color)⟩

/-- The answer to a ping. -/
def answerLine (pong : Bool) : Line Glyph :=
  ⟨4, (ascii (if pong then ['P', 'o', 'n', 'g', '!'] else ['P', 'o', 'n', 'g', '?'])).map (·, 0x4F)⟩

/-- The option in a row. -/
def optionAt (row : Nat) : Option MenuOption :=
  [MenuOption.one, .two, .three, .four].find? fun o => o.row == row

/-- The lines of a menu: each option in its color, the selected one with the background inverted,
and below them the answer. -/
def lines (selected : Option MenuOption) (banner : Option Bool) (row : Nat) : Option (Line Glyph) :=
  match optionAt row with
  | some o => some (o.line (if selected = some o then invertColorBg o.item.color else o.item.color))
  | none => if row = 9 then banner.map answerLine else none

/-- What the screen is to show. -/
def Shown.picture (s : Shown) : Nat → Nat → Option Glyph :=
  Raster.picture (lines (some s.selected) s.banner)

/-- The pixels of a cell: of a character where the font has it and of the background elsewhere, and
black where there is no character. -/
def shade (font : BitVec 8 → BitVec 64) (cell : Option Glyph) (x y : Nat) : BitVec 32 :=
  match cell with
  | none => 0
  | some (c, color) =>
    if (font c).getLsbD (8 * y + x) then textTranslateColorCode (color &&& 0x0F)
    else textTranslateColorCode (color >>> 4)

/-! ### The screen that is meant -/

/-- The menu has its place on the screen, and the screen in memory. -/
structure Roomy (answers : Answers) : Prop where
  wide : 128 ≤ answers.width.toNat
  high : 80 ≤ answers.height.toNat
  small : 4 * (answers.width.toNat * answers.height.toNat) < 2 ^ 64

/-- Where the pixel in some column and row is. -/
def Answers.pixel (a : Answers) (x y : Nat) : Addr :=
  a.fb + 4 * BitVec.ofNat 64 (y * a.width.toNat + x)

/-- An address of the screen. -/
def Answers.Within (a : Answers) (p : Addr) : Prop :=
  (p - a.fb).toNat < 4 * (a.width.toNat * a.height.toNat)

/-- The screen shows these cells, and nothing beside it has been written. -/
structure Painted (font : BitVec 8 → BitVec 64) (a : Answers) (before : Addr → BitVec 32)
    (pixels : Addr → BitVec 32) (cells : Nat → Nat → Option Glyph) : Prop where
  shows : Shows a.width.toNat a.height.toNat 8 (shade font) (fun x y => pixels (a.pixel x y)) cells
  beside : ∀ p, ¬ a.Within p → pixels p = before p

/-- The screen that `text_render_init` made ready. -/
structure Ready (font : BitVec 8 → BitVec 64) (a : Answers) (s : Screen) : Prop where
  ready : s.ready = true
  fb : s.fb = a.fb
  width : s.width = a.width
  glyphs : s.glyphWidth = 8 ∧ s.glyphRead = fontBooleans font

section
variable {font : BitVec 8 → BitVec 64} {a : Answers} {before : Addr → BitVec 32} {s : Screen}
  {cells : Nat → Nat → Option Glyph} {x y x' y' : Nat} {c color : BitVec 8} {pos : Pos}

/-! ### A character -/

/-- Pixels of the screen are different places. -/
theorem pixel_inj (roomy : Roomy a) (hx : x < a.width.toNat) (hy : y < a.height.toNat)
    (hx' : x' < a.width.toNat) (hy' : y' < a.height.toNat) :
    a.pixel x y = a.pixel x' y' ↔ x = x' ∧ y = y' := by
  have small := roomy.small
  have low := index_lt hx hy
  have low' := index_lt hx' hy'
  rw [← index_inj hx hx']
  constructor
  · intro same
    rw [Answers.pixel, Answers.pixel] at same
    have offsets := congrArg BitVec.toNat (BitVec.add_right_inj _ |>.mp same)
    rw [BitVec.toNat_mul, BitVec.toNat_mul, BitVec.toNat_ofNat, BitVec.toNat_ofNat,
      show (4 : BitVec 64).toNat = 4 from rfl] at offsets
    omega
  · intro same
    rw [Answers.pixel, Answers.pixel, same]

/-- And places of it. -/
theorem pixel_within (roomy : Roomy a) (hx : x < a.width.toNat) (hy : y < a.height.toNat) :
    a.Within (a.pixel x y) := by
  have small := roomy.small
  have low := index_lt hx hy
  rw [Answers.Within, Answers.pixel, Bytes.add_sub_self, BitVec.toNat_mul, BitVec.toNat_ofNat,
    show (4 : BitVec 64).toNat = 4 from rfl]
  omega

/-- The 64 places of a tile. -/
def tile : List (Nat × Nat) := List.range 8 ×ˢ List.range 8

/-- A tile has eight rows of eight. -/
theorem mem_tile {p : Nat × Nat} : p ∈ tile ↔ p.1 < 8 ∧ p.2 < 8 := by
  rw [tile, List.mem_product, List.mem_range, List.mem_range]

/-- What a character puts into one pixel of its tile. -/
def glyphPixel (s : Screen) (c color : BitVec 8) (p : Nat × Nat) : BitVec 32 :=
  if s.glyphRead c (BitVec.ofNat 64 p.2 * s.glyphWidth + BitVec.ofNat 64 p.1) then
    textTranslateColorCode (color &&& 0x0F)
  else textTranslateColorCode (color >>> 4)

/-- Where it puts it. -/
def glyphAddress (s : Screen) (pos : Pos) (p : Nat × Nat) : Addr :=
  s.fb + 4 * ((pos.py * 8 + BitVec.ofNat 64 p.2) * s.width + (pos.px * 8 + BitVec.ofNat 64 p.1))

/-- The loops over a tile. -/
theorem rounds_eq {p : BitVec 64} (small : p.toNat + 8 < 2 ^ 64) :
    rounds p = (List.range 8).map (BitVec.ofNat 64) := by
  have up : p < p + 8 := by
    rw [BitVec.lt_def, BitVec.toNat_add, show (8 : BitVec 64).toNat = 8 from rfl]
    omega
  rw [rounds, if_pos up]

/-- A character is the stores of its tile. -/
theorem textRenderPlaceAt_eq (ready : s.ready = true)
    (smallX : pos.px.toNat * 8 + 8 < 2 ^ 64) (smallY : pos.py.toNat * 8 + 8 < 2 ^ 64) :
    textRenderPlaceAt s pos c color = { s with
      pixels := tile.foldl (fun m p => Function.update m (glyphAddress s pos p)
        (glyphPixel s c color p)) s.pixels } := by
  have eight (v : BitVec 64) (small : v.toNat * 8 + 8 < 2 ^ 64) : (v * 8).toNat + 8 < 2 ^ 64 := by
    rw [BitVec.toNat_mul, show (8 : BitVec 64).toNat = 8 from rfl]
    omega
  rw [textRenderPlaceAt, if_neg (by rw [ready]; decide)]
  dsimp only
  rw [rounds_eq (eight _ smallX), rounds_eq (eight _ smallY), List.foldl_map, tile,
    show List.range 8 ×ˢ List.range 8 =
    (List.range 8).flatMap fun x => (List.range 8).map (Prod.mk x) from rfl, List.foldl_flatMap]
  exact List.foldl_hom (fun m => ({ s with pixels := m } : Screen)) fun m x => by
    rw [List.foldl_map, List.foldl_map]
    exact List.foldl_hom (fun m => ({ s with pixels := m } : Screen)) fun m y => rfl

/-- A pixel of a tile is one of the screen. -/
theorem Ready.address (h : Ready font a s) (p : Nat × Nat) :
    glyphAddress s pos p = a.pixel (pos.px.toNat * 8 + p.1) (pos.py.toNat * 8 + p.2) := by
  rw [glyphAddress, Answers.pixel, h.fb, h.width, BitVec.ofNat_add, BitVec.ofNat_mul,
    BitVec.ofNat_add, BitVec.ofNat_add, BitVec.ofNat_mul, BitVec.ofNat_mul, BitVec.ofNat_toNat,
    BitVec.ofNat_toNat, BitVec.ofNat_toNat, BitVec.setWidth_eq, BitVec.setWidth_eq,
      BitVec.setWidth_eq]
  rfl

/-- What a character puts there. -/
theorem Ready.glyph {p : Nat × Nat} (h : Ready font a s) (mem : p ∈ tile) :
    glyphPixel s c color p = shade font (some (c, color)) p.1 p.2 := by
  obtain ⟨hx, hy⟩ := mem_tile.mp mem
  have index : (BitVec.ofNat 64 p.2 * 8 + BitVec.ofNat 64 p.1).toNat = 8 * p.2 + p.1 := by
    rw [BitVec.toNat_add, BitVec.toNat_mul, BitVec.toNat_ofNat, BitVec.toNat_ofNat,
      show (8 : BitVec 64).toNat = 8 from rfl]
    omega
  rw [glyphPixel, h.glyphs.1, h.glyphs.2, fontBooleans, index]
  rfl

variable (pos c color) in
/-- A character, drawn on the screen. -/
theorem Ready.place (h : Ready font a s) (roomy : Roomy a)
    (fitsX : (pos.px.toNat + 1) * 8 ≤ a.width.toNat)
    (fitsY : (pos.py.toNat + 1) * 8 ≤ a.height.toNat)
    (painted : Painted font a before s.pixels cells) :
    ∃ pixels, textRenderPlaceAt s pos c color = { s with pixels := pixels } ∧
      Painted font a before pixels (put cells pos.px.toNat pos.py.toNat (some (c, color))) := by
  have hw := a.width.isLt
  have hh := a.height.isLt
  have inside (b : Nat × Nat) (mem : b ∈ tile) : pos.px.toNat * 8 + b.1 < a.width.toNat ∧
      pos.py.toNat * 8 + b.2 < a.height.toNat := by
    have := mem_tile.mp mem
    omega
  rw [textRenderPlaceAt_eq h.ready (by omega) (by omega)]
  refine ⟨_, rfl, painted.shows.put fun x hx y hy => ?_, fun p outside => ?_⟩
  · have at' (b : Nat × Nat) (mem : b ∈ tile) (same : glyphAddress s pos b = a.pixel x y) :
        x = pos.px.toNat * 8 + b.1 ∧ y = pos.py.toNat * 8 + b.2 := by
      rw [h.address] at same
      obtain ⟨insideX, insideY⟩ := inside b mem
      obtain ⟨rfl, rfl⟩ := (pixel_inj roomy insideX insideY hx hy).mp same
      exact ⟨rfl, rfl⟩
    split
    · next here =>
      -- the one store to this pixel
      have split' : x = pos.px.toNat * 8 + x % 8 ∧ y = pos.py.toNat * 8 + y % 8 := by omega
      have mem : (x % 8, y % 8) ∈ tile :=
        mem_tile.mpr ⟨Nat.mod_lt x (by decide), Nat.mod_lt y (by decide)⟩
      apply stored_eq
      · intro b mem' same
        obtain ⟨eqX, eqY⟩ := at' b mem' same
        have := mem_tile.mp mem'
        rw [h.glyph mem', show x % 8 = b.1 by omega, show y % 8 = b.2 by omega]
      · refine .inr ⟨_, mem, ?_⟩
        rw [h.address, ← split'.1, ← split'.2]
    · next here =>
      apply stored_eq
      · intro b mem same
        have := at' b mem same
        have := mem_tile.mp mem
        omega
      · exact .inl rfl
  · rw [← painted.beside p outside]
    apply stored_eq
    · intro b mem same
      obtain ⟨insideX, insideY⟩ := inside b mem
      rw [h.address] at same
      exact absurd (same ▸ pixel_within roomy insideX insideY) outside
    · exact .inl rfl

/-! ### A string -/

/-- A ready screen stays ready, whatever it shows. -/
theorem Ready.pixels (h : Ready font a s) (pixels : Addr → BitVec 32) :
    Ready font a { s with pixels := pixels } := ⟨h.ready, h.fb, h.width, h.glyphs⟩

variable (pos color) in
/-- A string without control characters, drawn on the screen. -/
theorem Ready.calls (col : BitVec 64) {str : List (BitVec 8)} (h : Ready font a s) (roomy : Roomy a)
    (printable : ∀ c ∈ str, Printable c)
    (fitsX : (pos.px.toNat + str.length) * 8 ≤ a.width.toNat)
    (fitsY : (pos.py.toNat + 1) * 8 ≤ a.height.toNat)
    (painted : Painted font a before s.pixels cells) :
    ∃ pixels, (Text.calls col pos str).foldl (fun s g => textRenderPlaceAt s g.1 g.2 color) s =
        { s with pixels := pixels } ∧
      Painted font a before pixels
        (write cells pos.px.toNat pos.py.toNat (str.map (·, color))) := by
  induction str generalizing s pos cells with
  | nil => exact ⟨s.pixels, rfl, painted⟩
  | cons c str ih =>
    obtain ⟨first, printable⟩ := List.forall_mem_cons.mp printable
    rw [List.length_cons] at fitsX
    have next : advance col pos c = { pos with px := pos.px + 1 } := by
      rw [advance_eq, if_neg first.1, if_neg first.2.1, if_neg first.2.2.1, if_neg first.2.2.2]
    have column : (pos.px + 1).toNat = pos.px.toNat + 1 := by
      have := a.width.isLt
      rw [BitVec.toNat_add, show (1 : BitVec 64).toNat = 1 from rfl]
      omega
    obtain ⟨pixels, drawn, painted⟩ := h.place c color pos roomy (by omega) fitsY painted
    rw [Text.calls, if_pos first, List.foldl_cons, drawn, next]
    obtain ⟨pixels', drawn', painted'⟩ := @ih { s with pixels := pixels }
      (put cells pos.px.toNat pos.py.toNat (some (c, color))) { pos with px := pos.px + 1 }
        (h.pixels pixels) printable
      (by rw [column]; omega) fitsY painted
    rw [column] at painted'
    exact ⟨pixels', drawn', painted'⟩

/-! ### The lines -/

/-- Where the lines of the menu begin, and how long they are. -/
def layout (row : Nat) : Option (Nat × Nat) :=
  match optionAt row with
  | some o => some ((o.line 0).col, o.item.text.length)
  | none => if row = 9 then some (4, 5) else none

/-- An option is in its row. -/
theorem optionAt_row (o : MenuOption) : optionAt o.row = some o := by
  cases o <;> rfl

/-- And in no other. -/
theorem row_of_optionAt {row : Nat} {o : MenuOption} (h : optionAt row = some o) : row = o.row := by
  have found := List.find?_some h
  exact (eq_of_beq found).symm

/-- Options have different rows. -/
theorem row_inj {o p : MenuOption} : o.row = p.row ↔ o = p := by
  constructor
  · intro same
    have both := optionAt_row o
    rw [same, optionAt_row p] at both
    exact (Option.some.inj both).symm
  · rintro rfl
    rfl

/-- The options are printable, and short enough for the screen. -/
theorem text_fits (o : MenuOption) : (∀ c ∈ o.item.text, Printable c) ∧
    (o.line 0).col + o.item.text.length ≤ 16 ∧ o.row ≤ 9 := by
  cases o <;> decide

/-- The options, drawn one after the other. -/
theorem lines_draw : Function.update
    (Function.update (Function.update (Function.update (fun _ => none)
      MenuOption.one.row (some (MenuOption.one.line MenuOption.one.item.color)))
      MenuOption.two.row (some (MenuOption.two.line MenuOption.two.item.color)))
      MenuOption.three.row (some (MenuOption.three.line MenuOption.three.item.color)))
      MenuOption.four.row (some (MenuOption.four.line MenuOption.four.item.color)) =
    lines none none := by
  funext row
  rw [lines]
  simp only [Function.update_apply]
  cases found : optionAt row with
  | some o =>
    rw [row_of_optionAt found]
    cases o <;> rfl
  | none =>
    have other (o : MenuOption) : row ≠ o.row := by
      rintro rfl
      rw [optionAt_row] at found
      cases found
    rw [if_neg (other .four), if_neg (other .three), if_neg (other .two), if_neg (other .one)]
    exact (ite_self none).symm

/-- Another option is selected. -/
theorem lines_select {selected : Option MenuOption} {banner : Option Bool} {old o : MenuOption}
    (only : ∀ p ∈ selected, p = old) :
    Function.update (Function.update (lines selected banner) old.row
    (some (old.line old.item.color)))
        o.row (some (o.line (invertColorBg o.item.color))) = lines (some o) banner := by
  funext row
  simp only [Function.update_apply]
  rw [lines, lines]
  cases found : optionAt row with
  | some p =>
    rw [row_of_optionAt found]
    simp only [row_inj]
    by_cases new : p = o
    · rw [if_pos new, new, if_pos rfl]
    rw [if_neg new, if_neg fun same => new (Option.some.inj same).symm]
    by_cases was : p = old
    · rw [if_pos was, was]
    · rw [if_neg was, if_neg fun same : selected = some p => was (only p same)]
  | none =>
    have other (o : MenuOption) : row ≠ o.row := by
      rintro rfl
      rw [optionAt_row] at found
      cases found
    rw [if_neg (other o), if_neg (other old)]

/-- An answer. -/
theorem lines_answer {selected : Option MenuOption} {banner : Option Bool} {pong : Bool} :
    Function.update (lines selected banner) 9 (some (answerLine pong)) = lines selected
    (some pong) := by
  funext row
  simp only [Function.update_apply]
  rw [lines, lines]
  by_cases nine : row = 9
  · rw [nine]
    rfl
  · rw [if_neg nine]
    cases optionAt row with
    | some o => rfl
    | none => rw [if_neg nine, if_neg nine]

/-! ### The screen of a menu -/

/-- A ready screen that shows a board. -/
structure Seen (font : BitVec 8 → BitVec 64) (a : Answers) (before : Addr → BitVec 32) (d : Display)
    (board : Nat → Option (Line Glyph)) : Prop where
  ready : Ready font a d.toScreen
  height : d.height = a.height
  laid : Laid layout board
  painted : Painted font a before d.pixels (Raster.picture board)

variable {d : Display} {m : Menu} {board : Nat → Option (Line Glyph)}

/-- A line of the menu, drawn. -/
theorem Seen.render (h : Seen font a before m.display board) (roomy : Roomy a) {col row : BitVec 64}
    {str : List (BitVec 8)} (printable : ∀ c ∈ str, Printable c)
    (fits : col.toNat + str.length ≤ 16 ∧ row.toNat ≤ 9)
    (laid : layout row.toNat = some (col.toNat, str.length)) :
    ∃ d, m.render col row str color = { m with display := d } ∧ Seen font a before d
      (Function.update board row.toNat (some ⟨col.toNat, str.map (·, color)⟩)) := by
  have wide := roomy.wide
  have high := roomy.high
  obtain ⟨pixels, drawn, painted⟩ := h.ready.calls color ⟨col, row⟩ col roomy printable
    (by dsimp only; omega) (by dsimp only; omega) h.painted
  have length : (str.map (·, color)).length = str.length := List.length_map _
  obtain ⟨laid, same⟩ := h.laid.write ⟨col.toNat, str.map (·, color)⟩ (by rw [laid, length])
  rw [Menu.render, menuRenderStringAt_eq, placed_eq, drawn]
  dsimp only at same
  rw [same] at painted
  exact ⟨_, rfl, h.ready.pixels pixels, h.height, laid, painted⟩

/-- An option, drawn. -/
theorem Seen.option (h : Seen font a before m.display board) (roomy : Roomy a) (o : MenuOption)
    (color : BitVec 8) : ∃ d, m.renderOption o color = { m with display := d } ∧
      Seen font a before d (Function.update board o.row (some (o.line color))) := by
  obtain ⟨printable, right, low⟩ := text_fits o
  apply h.render roomy printable ⟨right, low⟩
  show layout o.row = _
  rw [layout, optionAt_row]
  rfl

/-- A screen that has been cleared. -/
theorem Ready.clear (h : Ready font a d.toScreen) (roomy : Roomy a) (height : d.height = a.height)
    (beside : ∀ p, ¬ a.Within p → d.pixels p = before p) :
    ∃ pixels, textRenderClear d = { d with pixels := pixels } ∧
      Seen font a before { d with pixels := pixels } fun _ => none := by
  have within (p : Addr) : (p - d.fb).toNat < (d.width * d.height * 4).toNat ↔ a.Within p := by
    have small := roomy.small
    rw [h.width, height, h.fb, BitVec.toNat_mul, BitVec.toNat_mul,
      show (4 : BitVec 64).toNat = 4 from rfl, Answers.Within]
    omega
  rw [textRenderClear, if_neg (by rw [h.ready]; decide)]
  refine ⟨_, rfl, h.pixels _, height, ?_, ?_, ?_⟩
  · intro row l mem
    cases mem
  · intro x hx y hy
    exact if_pos ((within _).mpr (pixel_within roomy hx hy))
  · intro p outside
    exact (if_neg fun inside => outside ((within p).mp inside)).trans (beside p outside)

/-- A clear leaves nothing. -/
theorem Seen.clear (h : Seen font a before d board) (roomy : Roomy a) :
    Seen font a before (textRenderClear d) fun _ => none := by
  obtain ⟨pixels, cleared, seen⟩ := h.ready.clear roomy h.height h.painted.beside
  rw [cleared]
  exact seen

/-- Another option, selected. -/
theorem Seen.select (h : Seen font a before m.display board) (roomy : Roomy a) {old : MenuOption}
    (selected : m.selectedOption = some old) (o : MenuOption) :
    ∃ d, menuMainSelectOption (some o) m = some { m with selectedOption := some o, display := d } ∧
      Seen font a before d
        (Function.update (Function.update board old.row (some (old.line old.item.color)))
          o.row (some (o.line (invertColorBg o.item.color)))) := by
  obtain ⟨d, drawn, seen⟩ := h.option roomy old old.item.color
  obtain ⟨d', drawn', seen'⟩ := Seen.option (m := { m with selectedOption := some o, display := d })
    seen roomy o (invertColorBg o.item.color)
  refine ⟨d', ?_, seen'⟩
  rw [menuMainSelectOption, selected]
  show some (menuMainHighlightOption o
    { menuMainUnhighlightOption old m with selectedOption := some o }) = _
  rw [menuMainUnhighlightOption, drawn, menuMainHighlightOption, drawn']

/-- The whole menu, drawn. -/
theorem Seen.draw (h : Seen font a before m.display board) (roomy : Roomy a) {o : MenuOption}
    (selected : m.selectedOption = some o) :
    ∃ d, menuMainDraw m = some { m with drawn := true, display := d } ∧
      Seen font a before d (lines (some o) none) := by
  have clear := h.clear roomy
  obtain ⟨d₁, drawn₁, seen₁⟩ := Seen.option
    (m := { m with drawn := false, display := textRenderClear m.display }) clear roomy .one
    MenuOption.one.item.color
  obtain ⟨d₂, drawn₂, seen₂⟩ := Seen.option (m := { m with drawn := false, display := d₁ }) seen₁
    roomy .two MenuOption.two.item.color
  obtain ⟨d₃, drawn₃, seen₃⟩ := Seen.option (m := { m with drawn := false, display := d₂ }) seen₂
    roomy .three MenuOption.three.item.color
  obtain ⟨d₄, drawn₄, seen₄⟩ := Seen.option (m := { m with drawn := false, display := d₃ }) seen₃
    roomy .four MenuOption.four.item.color
  rw [lines_draw] at seen₄
  obtain ⟨d₅, drawn₅, seen₅⟩ :=
    Seen.select (m := { m with drawn := true, display := d₄ }) seen₄ roomy
    selected o
  rw [lines_select fun p mem => by cases mem] at seen₅
  refine ⟨d₅, ?_, seen₅⟩
  have loop : drawLoop 4 (some .one)
      { m with drawn := false, display := textRenderClear m.display } =
      some { m with drawn := false, display := d₄ } := by
    rw [drawLoop, drawn₁]
    show drawLoop 3 (some .two) _ = _
    rw [drawLoop, drawn₂]
    show drawLoop 2 (some .three) _ = _
    rw [drawLoop, drawn₃]
    show drawLoop 1 (some .four) _ = _
    rw [drawLoop, drawn₄]
    rfl
  rw [menuMainDraw]
  dsimp only
  rw [loop]
  rw [← selected] at drawn₅
  exact drawn₅

/-! ### The menu -/

/-- The menu is the one that is meant. Between a clear and the update behind it the screen shows
some board or other. -/
structure Agrees (font : BitVec 8 → BitVec 64) (a : Answers) (before : Addr → BitVec 32) (m : Menu)
    (s : Shown) : Prop where
  initialized : m.initialized = true
  selected : m.selectedOption = some s.selected
  pong : m.pong = s.pong
  stale : m.needsUpdate = s.stale
  seen : ∃ board, Seen font a before m.display board ∧
    (s.stale = false → board = lines (some s.selected) s.banner)

variable {shown : Shown} {keys : List (BitVec 8)}

/-- A selection does what is meant. -/
theorem Agrees.select (h : Agrees font a before m shown) (roomy : Roomy a) (o : Option MenuOption) :
    ∃ m', menuMainSelectOption o m = some m' ∧ Agrees font a before m' (shown.go o) := by
  cases o with
  | none => exact ⟨m, rfl, h⟩
  | some o =>
    obtain ⟨board, seen, fresh⟩ := h.seen
    obtain ⟨d, drawn, seen⟩ := seen.select roomy h.selected o
    refine ⟨_, drawn, h.initialized, rfl, h.pong, h.stale, _, seen, fun unstale => ?_⟩
    rw [fresh unstale]
    exact lines_select fun p mem => (Option.some.inj mem).symm

/-- So does a ping. -/
theorem Agrees.ping (h : Agrees font a before m shown) (roomy : Roomy a) :
    Agrees font a before (menuOptionPing m)
      { shown with pong := !shown.pong, banner := some shown.pong } := by
  obtain ⟨board, seen, fresh⟩ := h.seen
  have answer (str : List (BitVec 8)) (printable : ∀ c ∈ str, Printable c)
      (length : str.length = 5) :
      ∃ d, m.render (menuMainMarginLeft + 0) (menuMainMarginTop + 7) str
          (textColorCombo textColorWhite textColorRed) = { m with display := d } ∧
        Seen font a before d (Function.update board 9 (some ⟨4, str.map (·, 0x4F)⟩)) := by
    apply seen.render roomy printable
    · rw [length]
      decide
    · rw [length]
      rfl
  obtain ⟨d, drawn, seen⟩ := answer (if m.pong then ascii ['P', 'o', 'n', 'g', '!']
    else ascii ['P', 'o', 'n', 'g', '?']) (by cases m.pong <;> decide) (by cases m.pong <;> rfl)
  rw [menuOptionPing, drawn]
  refine ⟨h.initialized, h.selected, congrArg (!·) h.pong, h.stale, _, seen, fun unstale => ?_⟩
  rw [fresh unstale, ← lines_answer, ← h.pong, answerLine]
  cases m.pong <;> rfl

/-- And a clear. -/
theorem Agrees.clear (h : Agrees font a before m shown) (roomy : Roomy a) :
    Agrees font a before (menuOptionClear m) { shown with stale := true } := by
  obtain ⟨board, seen, -⟩ := h.seen
  exact ⟨h.initialized, h.selected, h.pong, rfl, _, seen.clear roomy, fun no => by cases no⟩

/-- A key does what is meant. -/
theorem Agrees.key (h : Agrees font a before m shown) (roomy : Roomy a) (k : BitVec 8) :
    ∃ m', menuMainHandleKey k m = some m' ∧ Agrees font a before m' (shown.key k) := by
  rw [menuMainHandleKey, h.selected, Shown.key]
  dsimp only
  split_ifs
  · exact h.select roomy _
  · exact h.select roomy _
  · exact h.select roomy _
  · exact h.select roomy _
  · refine ⟨_, rfl, ?_⟩
    cases shown.selected.item.perform with
    | clear => exact h.clear roomy
    | ping => exact h.ping roomy
    | doNothing => exact h
  · exact ⟨m, rfl, h⟩

/-- A menu that needs no update is left as it is. -/
theorem menuMainUpdate_eq : menuMainUpdate m =
    (if !m.initialized then menuInitialize m else some m).bind fun m =>
      if !m.needsUpdate then some m
      else (menuMainDraw m).map fun m => { m with needsUpdate := false } := by
  have rest (m : Menu) : (do
      if !m.needsUpdate then return m
      let m ← menuMainDraw m
      return { m with needsUpdate := false }) = if !m.needsUpdate then some m
      else (menuMainDraw m).map fun m => { m with needsUpdate := false } := by
    split
    · rfl
    · exact Option.map_eq_bind.symm
  rw [menuMainUpdate]
  split
  · exact congrArg (Option.bind _) (funext rest)
  · exact rest m

/-- An update leaves the picture that is meant. -/
theorem Agrees.update (h : Agrees font a before m shown) (roomy : Roomy a) :
    ∃ m', menuMainUpdate m = some m' ∧ Agrees font a before m' shown.update := by
  rw [menuMainUpdate_eq, h.initialized, if_neg (by decide), Option.bind_some, h.stale, Shown.update]
  cases stale : shown.stale with
  | false => exact ⟨m, rfl, h⟩
  | true =>
    obtain ⟨board, seen, -⟩ := h.seen
    obtain ⟨d, drawn, seen⟩ := seen.draw roomy h.selected
    rw [drawn]
    exact ⟨_, rfl, h.initialized, h.selected, h.pong, rfl, _, seen, fun _ => rfl⟩

/-- The first update draws the menu. -/
theorem Seen.first (seen : Seen font a before m.display board) (roomy : Roomy a)
    (fresh : m.initialized = false) :
    ∃ m', menuMainUpdate m = some m' ∧
      Agrees font a before m' { Shown.first with pong := m.pong } := by
  obtain ⟨d, drawn, seen⟩ :=
    Seen.select (m := { m with selectedOption := some .one }) seen roomy rfl .one
  obtain ⟨d', drawn', seen'⟩ := Seen.draw (m := { m with
    selectedOption := some .one, needsUpdate := true, initialized := true, display := d })
      seen roomy rfl
  refine ⟨{ m with
    selectedOption := some .one, needsUpdate := false, initialized := true, drawn := true
    display := d' }, ?_, rfl, rfl, rfl, rfl, _, seen', fun _ => rfl⟩
  have initial : menuInitialize m = some { m with
      selectedOption := some .one, needsUpdate := true, initialized := true, display := d } := by
    rw [menuInitialize, if_neg (by rw [fresh]; decide)]
    show (menuMainSelectOption (some .one) { m with selectedOption := some .one }).bind _ = _
    rw [drawn]
    rfl
  rw [menuMainUpdate_eq, fresh, if_pos (by decide), initial, Option.bind_some]
  dsimp only
  rw [if_neg (by decide), drawn']
  rfl

/-! ### The keys -/

/-- The keycodes of some scan codes. -/
def keycodes (codes : List (BitVec 64)) : List (BitVec 8) :=
  (codes.map translateKeycode).filter (· ≠ hidKeycodeNull)

variable {t : Tui} {machine : Machine}

/-- The scan codes between two updates go into the page. -/
theorem scan_holds (codes : List (BitVec 64)) (h : Holds t.machine keys)
    (room : keys.length + codes.length ≤ 4094) :
    ∃ machine, codes.foldl Tui.scan t = { t with machine := machine } ∧
      Holds machine (keys ++ keycodes codes) := by
  induction codes generalizing t keys with
  | nil => exact ⟨t.machine, rfl, by rwa [keycodes, List.map_nil, List.filter_nil, List.append_nil]⟩
  | cons code codes ih =>
    rw [List.length_cons] at room
    rw [List.foldl_cons, Tui.scan, keycodes, List.map_cons]
    by_cases null : translateKeycode code = hidKeycodeNull
    · rw [if_pos null, List.filter_cons_of_neg (by simpa using null)]
      exact ih h (by omega)
    · rw [if_neg null, List.filter_cons_of_pos (by simpa using null), List.append_cons]
      exact ih (t := { t with machine := saveKey (translateKeycode code) t.machine })
        (h.saveKey (by omega) _) (by rw [List.length_append, List.length_singleton]; omega)

/-- A whole `kbd_update` of the machine alone. -/
theorem update_holds (h : Holds machine keys) :
    let steps := (machine.kernel.read16 machine.internalBufferSize).toNat + 3
    Holds (kbdUpdate^[steps] machine) [] ∧
      (kbdUpdate^[steps] machine).delivered = machine.delivered ++ keys := by
  intro steps
  have forget : Function.Semiconj Session.machine Session.step kbdUpdate := fun s => rfl
  have same : (Session.update ⟨machine, []⟩).machine = kbdUpdate^[steps] machine :=
    forget.iterate_right steps ⟨machine, []⟩
  have empty := (Holds.update (s := ⟨machine, []⟩) h).1
  rw [same] at empty
  have stored : (kbdUpdate^[steps] machine).stored = machine.stored := by
    have keeps : Function.Semiconj Machine.stored kbdUpdate id := fun m => (kbdUpdate_stored m).1
    have := keeps.iterate_right steps machine
    rwa [Function.iterate_id] at this
  refine ⟨empty, ?_⟩
  rw [← h.stored, ← stored, empty.stored, List.append_nil]

/-- A step hands over some keys. -/
theorem kbdUpdate_delivered (machine : Machine) :
    ∃ keys, (kbdUpdate machine).delivered = machine.delivered ++ keys := by
  have nothing : ∃ keys, machine.delivered = machine.delivered ++ keys :=
    ⟨[], (List.append_nil _).symm⟩
  rw [kbdUpdate]
  split
  · split
    · exact nothing
    · dsimp only
      split <;> exact nothing
  · split
    · exact ⟨_, rfl⟩
    · exact nothing
  · exact nothing

/-- Steps of `kbd_update` hand over keys behind those they have handed over. -/
theorem delivered_steps (n : Nat) (machine : Machine) :
    ∃ keys, (kbdUpdate^[n] machine).delivered = machine.delivered ++ keys := by
  induction n generalizing machine with
  | zero => exact ⟨[], (List.append_nil _).symm⟩
  | succ n ih =>
    obtain ⟨keys, first⟩ := kbdUpdate_delivered machine
    obtain ⟨rest, later⟩ := ih (kbdUpdate machine)
    refine ⟨keys ++ rest, ?_⟩
    rw [Function.iterate_succ_apply, later, first, List.append_assoc]

/-- The listener, called for some keys. -/
theorem Agrees.events (h : Agrees font a before t.menu shown) (roomy : Roomy a)
    (on : t.selectedMenu = true) (keys : List (BitVec 8)) :
    ∃ menu, keys.foldlM tuiKbdEvent t = some { t with menu := menu } ∧
      Agrees font a before menu (keys.foldl Shown.key shown) := by
  induction keys generalizing t shown with
  | nil => exact ⟨t.menu, rfl, h⟩
  | cons k keys ih =>
    obtain ⟨menu, handled, agrees⟩ := h.key roomy k
    have event : tuiKbdEvent t k = some { t with menu := menu } := by
      rw [tuiKbdEvent, if_neg (by rw [on]; decide), handled]
      rfl
    rw [List.foldlM_cons, event]
    exact ih (t := { t with menu := menu }) agrees on

/-- Steps of `kbd_update` do what their keys are meant to do. -/
theorem Agrees.steps (n : Nat) (h : Agrees font a before t.menu shown) (roomy : Roomy a)
    (on : t.selectedMenu = true) :
    ∃ menu, t.kbdSteps n = some { t with machine := kbdUpdate^[n] t.machine, menu := menu } ∧
      Agrees font a before menu (((kbdUpdate^[n] t.machine).delivered.drop
        t.machine.delivered.length).foldl Shown.key shown) := by
  induction n generalizing t shown with
  | zero =>
    refine ⟨t.menu, rfl, ?_⟩
    rw [Function.iterate_zero_apply, List.drop_length]
    exact h
  | succ n ih =>
    obtain ⟨handed, first⟩ := kbdUpdate_delivered t.machine
    obtain ⟨rest, later⟩ := delivered_steps n (kbdUpdate t.machine)
    obtain ⟨menu, events, agrees⟩ := Agrees.events (t := { t with machine := kbdUpdate t.machine })
      h roomy on handed
    obtain ⟨menu', steps, agrees'⟩ := ih
      (t := { t with machine := kbdUpdate t.machine, menu := menu }) agrees on
    have step : t.kbdStep = some { t with machine := kbdUpdate t.machine, menu := menu } := by
      rw [Tui.kbdStep, first, List.drop_left]
      exact events
    dsimp only at agrees' steps
    rw [later, List.drop_left] at agrees'
    rw [Function.iterate_succ_apply, later, first, List.append_assoc, List.drop_left,
      List.foldl_append, Tui.kbdSteps, step]
    exact ⟨menu', steps, agrees'⟩

/-! ### The run -/

/-- Prism between two updates. -/
structure Running (font : BitVec 8 → BitVec 64) (a : Answers) (before : Addr → BitVec 32) (t : Tui)
    (s : Shown) : Prop where
  on : t.on = true ∧ t.selectedMenu = true
  empty : Holds t.machine []
  agrees : Agrees font a before t.menu s
  fresh : s.stale = false

/-- A batch of scan codes and the update behind it. -/
theorem Running.batch (h : Running font a before t shown) (roomy : Roomy a)
    {codes : List (BitVec 64)}
    (few : codes.length ≤ 4094) :
    ∃ t', tuiUpdate (codes.foldl Tui.scan t) = some (true, t') ∧
      Running font a before t' ((keycodes codes).foldl Shown.key shown).update := by
  obtain ⟨machine, scanned, holds⟩ := scan_holds codes h.empty (by rw [List.length_nil]; omega)
  obtain ⟨empty, delivered⟩ := update_holds holds
  obtain ⟨menu, steps, agrees⟩ := Agrees.steps (t := { t with machine := machine })
    ((machine.kernel.read16 machine.internalBufferSize).toNat + 3) h.agrees roomy h.on.2
  dsimp only at agrees steps
  rw [delivered, List.drop_left, List.nil_append] at agrees
  obtain ⟨menu', updated, agrees'⟩ := agrees.update roomy
  refine ⟨{ t with
    machine := kbdUpdate^[(machine.kernel.read16 machine.internalBufferSize).toNat + 3] machine
    menu := menu' }, ?_, h.on, empty, agrees', ?_⟩
  · rw [scanned, tuiUpdate, if_neg (by rw [h.on.1]; decide)]
    dsimp only
    rw [steps]
    show tuiGraphicUpdate _ = _
    rw [tuiGraphicUpdate, if_neg (by rw [h.on.2]; decide), updated]
    rfl
  · rw [Shown.update]
    cases stale : ((keycodes codes).foldl Shown.key shown).stale with
    | false => exact stale
    | true => rfl

/-- And so do all batches. -/
theorem Running.run (h : Running font a before t shown) (roomy : Roomy a)
    (batches : List (List (BitVec 64))) (few : ∀ codes ∈ batches, codes.length ≤ 4094) :
    ∃ t', t.run batches = some t' ∧
    Running font a before t' (shown.run (batches.map keycodes)) := by
  induction batches generalizing t shown with
  | nil => exact ⟨t, rfl, h⟩
  | cons codes batches ih =>
    rw [List.forall_mem_cons] at few
    obtain ⟨t', updated, running⟩ := h.batch roomy few.1
    obtain ⟨t'', rest, running'⟩ := ih running few.2
    refine ⟨t'', ?_, running'⟩
    rw [Tui.run, updated]
    exact rest

/-- Prism before `tui_start`. -/
structure Off (t : Tui) : Prop where
  on : t.on = false
  menu : t.menu.initialized = false ∧ t.menu.pong = false
  screen : t.menu.display.ready = false

/-- `tui_start` with everything it asks for. -/
structure Granted (a : Answers) : Prop extends Roomy a where
  keyboard : a.kbdInit.1 = true ∧ Start a.kbdInit.2
  listener : a.kbdAddListener = true
  framebuffer : a.fb ≠ 0

variable (font) in
/-- `text_render_init` clears the screen. -/
theorem textRenderInit_seen (granted : Granted a) (off : d.ready = false) :
    Seen font a d.pixels (textRenderInit font a.fb a.width a.height d) fun _ => none := by
  set on : Display := { d with
    fb := a.fb, glyphWidth := 8, width := a.width, height := a.height
    glyphRead := fontBooleans font, ready := true } with def_on
  have ready : Ready font a on.toScreen := ⟨rfl, rfl, rfl, rfl, rfl⟩
  have untouched : ∀ p, ¬ a.Within p → on.pixels p = d.pixels p := fun _ _ => rfl
  obtain ⟨pixels, cleared, seen⟩ := ready.clear granted.toRoomy rfl untouched
  rw [textRenderInit, if_neg (by rw [off]; decide)]
  dsimp only
  rw [if_neg granted.framebuffer, textRenderLoadDimensions, ← def_on, cleared]
  exact seen

variable (font) in
/-- `tui_start` shows the menu. -/
theorem tuiStart_running (granted : Granted a) (off : Off t) :
    ∃ t', tuiStart font a t = some t' ∧ Running font a t.menu.display.pixels t' Shown.first := by
  have seen := textRenderInit_seen font granted off.screen
  obtain ⟨menu, updated, agrees⟩ := Seen.first (m := { t.menu with
    display := textRenderInit font a.fb a.width a.height t.menu.display }) seen granted.toRoomy
      off.menu.1
  have pong : ({ Shown.first with pong := t.menu.pong } : Shown) = Shown.first := by
    rw [off.menu.2]
    rfl
  dsimp only at agrees
  rw [pong] at agrees
  have start := granted.keyboard.2
  have empty : Holds a.kbdInit.2 [] := by
    refine ⟨start.toShared, start.sound, start.place, ?_⟩
    rw [start.nothing.1, start.nothing.2]
    rfl
  refine ⟨{ on := true, selectedMenu := true, machine := a.kbdInit.2, menu := menu }, ?_,
    ⟨rfl, rfl⟩, empty, agrees, rfl⟩
  rw [tuiStart, if_neg (by rw [off.on]; decide)]
  dsimp only
  rw [granted.keyboard.1, granted.listener, if_neg (by decide), if_neg (by decide),
    tuiGraphicUpdate]
  dsimp only
  rw [if_neg (by decide), updated]
  rfl

/-- Whatever is typed, after each update the screen is the picture of the menu that is meant, behind
all keys so far, and nothing beside the screen has been written. The loop of `main` is not left, and
no option is followed where there is none. -/
theorem menu_pictured (font : BitVec 8 → BitVec 64) (a : Answers) (granted : Granted a) (t : Tui)
    (off : Off t) (batches : List (List (BitVec 64)))
    (few : ∀ codes ∈ batches, codes.length ≤ 4094) :
    ∃ t', (tuiStart font a t).bind (·.run batches) = some t' ∧
      Painted font a t.menu.display.pixels t'.menu.display.pixels
        (Shown.first.run (batches.map keycodes)).picture := by
  obtain ⟨t₀, started, running⟩ := tuiStart_running font granted off
  obtain ⟨t', run, running⟩ := running.run granted.toRoomy batches few
  obtain ⟨board, seen, fresh⟩ := running.agrees.seen
  rw [started, Option.bind_some, run]
  refine ⟨t', rfl, ?_⟩
  rw [Shown.picture, ← fresh running.fresh]
  exact seen.painted

end

/-! ### On the machine -/

/-- A screen of 128 columns and 80 rows, and the page of keys that is empty. -/
def machineAnswers : Answers where
  kbdInit := (true, emptyPage)
  kbdAddListener := true
  fb := 0x80000000
  width := 128
  height := 80

/-- Everything is granted on the machine. -/
theorem machineAnswers_granted : Granted machineAnswers :=
  ⟨⟨by decide, by decide, by decide⟩, ⟨rfl, emptyPage_start⟩, rfl, by decide⟩

/-- Prism when it is loaded. -/
def machineTui : Tui where
  on := false
  selectedMenu := false
  machine := emptyPage
  menu := ⟨true, none, false, false, false, ⟨⟨false, 0, 0, 0, fun _ _ => false, fun _ => 0⟩, 0⟩⟩

/-- The glyph of a character shows its bits. -/
def bitsFont (c : BitVec 8) : BitVec 64 := c.setWidth 64

/-- Down and enter, and then up and enter, down and enter: what the second ping answers is cleared
with the rest. -/
theorem menu_pictured_machine :
    ∃ t', (tuiStart bitsFont machineAnswers machineTui).bind
        (·.run [[0xE072, 0x5A], [0xE075, 0x5A, 0xE072, 0x5A]]) = some t' ∧
      Painted bitsFont machineAnswers (fun _ => 0) t'.menu.display.pixels
        (Shown.picture ⟨.two, false, none, false⟩) := by
  have shown : Shown.first.run ([[0xE072, 0x5A], [0xE075, 0x5A, 0xE072, 0x5A]].map keycodes) =
      ⟨.two, false, none, false⟩ := by decide +kernel
  rw [← shown]
  exact menu_pictured bitsFont machineAnswers machineAnswers_granted machineTui
    ⟨rfl, ⟨rfl, rfl⟩, rfl⟩ [[0xE072, 0x5A], [0xE075, 0x5A, 0xE072, 0x5A]] (by decide)

end Skylight.Ux
