import Skylight.Apps.Text
import Skylight.Apps.Typing

/-!
# The menu of prism

`ux/tui.c` and `ux/menus/menu_main.c`, with the part of `gfx/text/text.c` that makes the screen
ready and clears it. The four options are static, so an option is its number and its links are the
options they point to. An option that is followed where there is none has no answer.
-/

namespace Skylight.Ux

open Bytes (Addr)
open Text Prism Ps2

/-! ### The screen -/

/-- The globals of `text.c`, with the height. -/
structure Display extends Screen where
  height : BitVec 64

/-- `__font_booleans`, as `_text_renderer_load_glyph` fills it from the integrated font. -/
def fontBooleans (font : BitVec 8 → BitVec 64) (c : BitVec 8) (at' : BitVec 64) : Bool :=
  (font c).getLsbD at'.toNat

/-- `text_render_load_dimensions` -/
def textRenderLoadDimensions (wide high : BitVec 64) (d : Display) : Display :=
  { d with glyphWidth := 8, width := wide, height := high }

/-- `text_render_clear` -/
def textRenderClear (d : Display) : Display :=
  if !d.ready then d else
  let n := (d.width * d.height * 4).toNat
  { d with pixels := fun a => if (a - d.fb).toNat < n then 0 else d.pixels a }

/-- `text_render_init`, with the answers of `fb_req` and `rdinfo`. -/
def textRenderInit (font : BitVec 8 → BitVec 64) (fb : Addr) (wide high : BitVec 64)
    (d : Display) : Display :=
  if d.ready then d else
  let d := { d with fb := fb }
  if d.fb = 0 then d else
  let d := textRenderLoadDimensions wide high d
  let d := { d with glyphRead := fontBooleans font }
  textRenderClear { d with ready := true }

/-! ### The options -/

/-- The addresses of `__menu_main_option_1` to `__menu_main_option_4`. -/
inductive MenuOption
  | one | two | three | four
  deriving DecidableEq

/-- The functions that `perform` points to. -/
inductive Perform
  | clear | ping | doNothing
  deriving DecidableEq

/-- `menu_item_t` -/
structure MenuItem where
  next : Option MenuOption
  perform : Perform
  text : List (BitVec 8)
  col : BitVec 64
  row : BitVec 64
  color : BitVec 8
  up : Option MenuOption
  down : Option MenuOption
  left : Option MenuOption
  right : Option MenuOption

/-- The bytes of a string. -/
def ascii (str : List Char) : List (BitVec 8) := str.map fun c => BitVec.ofNat 8 c.toNat

def textColorGreen : BitVec 8 := 2
def textColorCyan : BitVec 8 := 3
def textColorRed : BitVec 8 := 4
def textColorMagenta : BitVec 8 := 5
def textColorWhite : BitVec 8 := 15

/-- `TEXT_COLOR_COMBO` -/
def textColorCombo (fg bg : BitVec 8) : BitVec 8 := (bg <<< 4) ||| fg

/-- `MENU_MAIN_INDENT_SIZE` -/
def menuMainIndentSize : BitVec 64 := 4
/-- `MENU_MAIN_MARGIN_TOP` -/
def menuMainMarginTop : BitVec 64 := 2
/-- `MENU_MAIN_MARGIN_LEFT` -/
def menuMainMarginLeft : BitVec 64 := 4

/-- The initializers of the options. -/
def MenuOption.item : MenuOption → MenuItem
  | .one => {
    next := some .two, perform := .clear
    text := ascii ['C', 'l', 'e', 'a', 'r']
    col := 0, row := 0, color := textColorRed
    up := some .two, down := some .two, left := none, right := some .three }
  | .two => {
    next := some .three, perform := .ping
    text := ascii ['P', 'i', 'n', 'g', '.', '.', '.']
    col := 0, row := 6, color := textColorCyan
    up := some .one, down := some .one, left := none, right := none }
  | .three => {
    next := some .four, perform := .doNothing
    text := ascii ['C', 'o', 'n', 't', 'i', 'n', 'u', 'e']
    col := menuMainIndentSize, row := 2, color := textColorGreen
    up := some .four, down := some .four, left := some .one, right := none }
  | .four => {
    next := none, perform := .doNothing
    text := ascii ['O', 'p', 't', 'i', 'o', 'n', ' ', '4']
    col := menuMainIndentSize, row := 4, color := textColorMagenta
    up := some .three, down := some .three, left := some .one, right := none }

/-! ### The menu -/

/-- The variables of `menu_main.c`, and the screen it draws on. -/
structure Menu where
  needsUpdate : Bool
  selectedOption : Option MenuOption
  pong : Bool
  drawn : Bool
  initialized : Bool
  display : Display

/-- `menu_render_string_at` -/
def Menu.render (m : Menu) (col row : BitVec 64) (str : List (BitVec 8))
    (color : BitVec 8) : Menu :=
  { m with display := { m.display with
      toScreen := menuRenderStringAt m.display.toScreen col row str color } }

/-- `__menu_option_clear` -/
def menuOptionClear (m : Menu) : Menu :=
  { m with display := textRenderClear m.display, needsUpdate := true }

/-- `__menu_option_ping` -/
def menuOptionPing (m : Menu) : Menu :=
  let answer := if m.pong then ascii ['P', 'o', 'n', 'g', '!'] else ascii ['P', 'o', 'n', 'g', '?']
  let m := m.render (menuMainMarginLeft + 0) (menuMainMarginTop + 7) answer
    (textColorCombo textColorWhite textColorRed)
  { m with pong := !m.pong }

/-- `perform()` -/
def Perform.run (p : Perform) (m : Menu) : Menu :=
  match p with
  | .clear => menuOptionClear m
  | .ping => menuOptionPing m
  | .doNothing => m

/-- `INVERT_COLOR_BG` -/
def invertColorBg (color : BitVec 8) : BitVec 8 := color ^^^ 0x80

/-- An option in some color, at its place. -/
def Menu.renderOption (m : Menu) (o : MenuOption) (color : BitVec 8) : Menu :=
  m.render (menuMainMarginLeft + o.item.col) (menuMainMarginTop + o.item.row) o.item.text color

/-- `_menu_main_highlight_option` -/
def menuMainHighlightOption (o : MenuOption) (m : Menu) : Menu :=
  m.renderOption o (invertColorBg o.item.color)

/-- `_menu_main_unhighlight_option` -/
def menuMainUnhighlightOption (o : MenuOption) (m : Menu) : Menu := m.renderOption o o.item.color

/-- `_menu_main_select_option` -/
def menuMainSelectOption (option : Option MenuOption) (m : Menu) : Option Menu :=
  match option with
  | none => some m
  | some o => do
    let m := menuMainUnhighlightOption (← m.selectedOption) m
    return menuMainHighlightOption o { m with selectedOption := some o }

/-- The loop of `_menu_main_draw`, for so many items at most. -/
def drawLoop : Nat → Option MenuOption → Menu → Option Menu
  | _, none, m => some m
  | 0, some _, _ => none
  | n + 1, some o, m => drawLoop n o.item.next (m.renderOption o o.item.color)

/-- `_menu_main_draw` -/
def menuMainDraw (m : Menu) : Option Menu := do
  let m := { m with drawn := false }
  let m := { m with display := textRenderClear m.display }
  let m ← drawLoop 4 (some .one) m
  let m := { m with drawn := true }
  menuMainSelectOption m.selectedOption m

/-- `_menu_initialize` -/
def menuInitialize (m : Menu) : Option Menu := do
  if m.initialized then return m
  let m := { m with selectedOption := some .one }
  let m ← menuMainSelectOption m.selectedOption m
  return { m with needsUpdate := true, initialized := true }

/-- `menu_main_update` -/
def menuMainUpdate (m : Menu) : Option Menu := do
  let m ← if !m.initialized then menuInitialize m else some m
  if !m.needsUpdate then return m
  let m ← menuMainDraw m
  return { m with needsUpdate := false }

def hidKeycodeUp : BitVec 8 := 0x54
def hidKeycodeLeft : BitVec 8 := 0x55
def hidKeycodeDown : BitVec 8 := 0x56
def hidKeycodeRight : BitVec 8 := 0x57
def hidKeycodeEnter : BitVec 8 := 0x40

/-- `menu_main_handle_key` -/
def menuMainHandleKey (keycode : BitVec 8) (m : Menu) : Option Menu :=
  match m.selectedOption with
  | none => some m
  | some o =>
    if keycode = hidKeycodeUp then menuMainSelectOption o.item.up m
    else if keycode = hidKeycodeDown then menuMainSelectOption o.item.down m
    else if keycode = hidKeycodeLeft then menuMainSelectOption o.item.left m
    else if keycode = hidKeycodeRight then menuMainSelectOption o.item.right m
    else if keycode = hidKeycodeEnter then some (o.item.perform.run m)
    else some m

/-! ### The interface -/

/-- `_tui_on`, `_selected_menu`, which is null or the menu, and what is behind them. The listener
that `tui_start` adds is the only one. -/
structure Tui where
  on : Bool
  selectedMenu : Bool
  machine : Machine
  menu : Menu

/-- `_tui_kbd_event` -/
def tuiKbdEvent (t : Tui) (keycode : BitVec 8) : Option Tui :=
  if !t.selectedMenu then some t
  else (menuMainHandleKey keycode t.menu).map fun menu => { t with menu := menu }

/-- `tui_graphic_update` -/
def tuiGraphicUpdate (t : Tui) : Option (Bool × Tui) :=
  if !t.selectedMenu then some (false, t)
  else (menuMainUpdate t.menu).map fun menu => (true, { t with menu := menu })

/-- What `tui_start` is told: by `kbd_init`, with the machine it leaves, by `kbd_add_listener`, by
`fb_req`, and by `rdinfo`. -/
structure Answers where
  kbdInit : Bool × Machine
  kbdAddListener : Bool
  fb : Addr
  width : BitVec 64
  height : BitVec 64

/-- `tui_start` -/
def tuiStart (font : BitVec 8 → BitVec 64) (answers : Answers) (t : Tui) : Option Tui :=
  if t.on then some t else
  let t := { t with machine := answers.kbdInit.2 }
  if !answers.kbdInit.1 then some t else
  if !answers.kbdAddListener then some t else do
  let display := textRenderInit font answers.fb answers.width answers.height t.menu.display
  let t := { t with menu := { t.menu with display := display } }
  let t := { t with selectedMenu := true }
  let (_, t) ← tuiGraphicUpdate t
  return { t with on := true }

/-- One step of `kbd_update`, with the call of the listener in it. -/
def Tui.kbdStep (t : Tui) : Option Tui :=
  let m := kbdUpdate t.machine
  let handed := m.delivered.drop t.machine.delivered.length
  handed.foldlM tuiKbdEvent { t with machine := m }

/-- So many steps of it. -/
def Tui.kbdSteps : Nat → Tui → Option Tui
  | 0, t => some t
  | n + 1, t => do Tui.kbdSteps n (← t.kbdStep)

/-- `tui_update`, with a whole `kbd_update`. -/
def tuiUpdate (t : Tui) : Option (Bool × Tui) := do
  if !t.on then return (false, t)
  let bufferedKeys := t.machine.kernel.read16 t.machine.internalBufferSize
  let t ← t.kbdSteps (bufferedKeys.toNat + 3)
  tuiGraphicUpdate t

/-- `ps2_kbd_handle_scancode`, with `hid_register_keystroke` and `__kb_man_save_key` -/
def Tui.scan (t : Tui) (code : BitVec 64) : Tui :=
  let keycode := translateKeycode code
  if keycode = hidKeycodeNull then t else { t with machine := saveKey keycode t.machine }

/-- The loop of `main`, with scan codes before each call of `tui_update`. Where it is left, so is
this. -/
def Tui.run (t : Tui) : List (List (BitVec 64)) → Option Tui
  | [] => some t
  | codes :: batches => do
    let (going, t) ← tuiUpdate (codes.foldl Tui.scan t)
    if !going then none else t.run batches

end Skylight.Ux
