import Skylight.Lib.Bytes

/-!
# Text on the screen of prism

`menu_render_string_at` of `ux/menus/menu_main.c`, with what it calls of `gfx/text/text.c`. A string
is the list of the characters before its NUL, and the integrated font a function.
-/

namespace Skylight.Text

open Bytes (Addr)

/-- `text_render_pos_t` -/
@[ext] structure Pos where
  px : BitVec 64
  py : BitVec 64
  deriving DecidableEq

/-- The globals of `text.c`, and the pixels at their addresses. -/
structure Screen where
  ready : Bool
  fb : Addr
  width : BitVec 64
  glyphWidth : BitVec 64
  glyphRead : BitVec 8 → BitVec 64 → Bool
  pixels : Addr → BitVec 32

/-- `screen_fb[i] = v` -/
def Screen.setPixel (s : Screen) (i : BitVec 64) (v : BitVec 32) : Screen :=
  { s with pixels := Function.update s.pixels (s.fb + 4 * i) v }

/-- `TEXT_BACKGROUND_COLOR` -/
def backgroundColor : BitVec 32 := 0x00111111

/-- `text_translate_color_code` -/
def textTranslateColorCode (colorCode : BitVec 8) : BitVec 32 :=
  match colorCode.toNat with
  | 0 => backgroundColor
  | 15 => 0xFFFFFF
  | 4 => 0xFF0000
  | 1 => 0x2222FF
  | 2 => 0x22FF22
  | 3 => 0x11FFFF
  | 5 => 0xFF01AA
  | 6 => 0xFFEBCD
  | 7 => 0xDDDDDD
  | 8 => 0x555555
  | 9 => 0x01AAFF
  | 10 => 0x01FF01
  | 11 => 0x01DDFF
  | 12 => 0xFF2222
  | 13 => 0xFF0077
  | 14 => 0x8B4513
  | _ => backgroundColor

/-- The rounds of a loop from `p` while below `p + 8`. -/
def rounds (p : BitVec 64) : List (BitVec 64) :=
  if p < p + 8 then (List.range 8).map (BitVec.ofNat 64) else []

/-- `text_render_place_at` -/
def textRenderPlaceAt (s : Screen) (pos : Pos) (c color : BitVec 8) : Screen :=
  if !s.ready then s else
  let forePixel := textTranslateColorCode (color &&& 0x0F)
  let backPixel := textTranslateColorCode (color >>> 4)
  let px := pos.px * 8
  let py := pos.py * 8
  (rounds px).foldl (fun s x => (rounds py).foldl (fun s y =>
    let pixel := if s.glyphRead c (y * s.glyphWidth + x) then forePixel else backPixel
    s.setPixel ((py + y) * s.width + (px + x)) pixel) s) s

/-- `'\n'` -/
def newline : BitVec 8 := 10
/-- `'\t'` -/
def tab : BitVec 8 := 9
/-- `'\b'` -/
def backspace : BitVec 8 := 8
/-- `'\r'` -/
def carriageReturn : BitVec 8 := 13

/-- `MENU_STRING_INDENT_SIZE` -/
def indentSize : BitVec 64 := 4

section
variable {S : Type*} (place : S → Pos → BitVec 8 → BitVec 8 → S)

/-- The body of the loop of `menu_render_string_at`. -/
def renderChar (col : BitVec 64) (color : BitVec 8) (s : S) (pos : Pos) (c : BitVec 8) : S × Pos :=
  if c = newline then (s, ⟨col, pos.py + 1⟩)
  else if c = tab then (s, { pos with px := pos.px + (indentSize - pos.px % indentSize) })
  else if c = backspace then
    let pos := { pos with px := pos.px - 1 }
    (s, if pos.px < col then { pos with px := col } else pos)
  else if c = carriageReturn then (s, { pos with px := col })
  else (place s pos c color, { pos with px := pos.px + 1 })

/-- `menu_render_string_at`, for whatever it places characters with. -/
def renderStringAt (s : S) (col row : BitVec 64) (str : List (BitVec 8)) (color : BitVec 8) : S :=
  (str.foldl (fun r c => renderChar place col color r.1 r.2 c) (s, ⟨col, row⟩)).1

end

/-- `menu_render_string_at` -/
def menuRenderStringAt (s : Screen) (col row : BitVec 64) (str : List (BitVec 8))
    (color : BitVec 8) : Screen := renderStringAt textRenderPlaceAt s col row str color

/-- The calls of `text_render_place_at`, in order. -/
def placed (col row : BitVec 64) (str : List (BitVec 8)) (color : BitVec 8) :
    List (Pos × BitVec 8) :=
  renderStringAt (fun calls pos c _ => calls ++ [(pos, c)]) [] col row str color

end Skylight.Text
