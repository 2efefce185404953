import Skylight.Proc.Calls

/-!
# The PS/2 keyboard

`iodev/hid/ps2/ps2_kbd.c`: the bytes of a scan code are collected, one an interrupt, until
`ps2_kbd_needs_next_byte` says that it is whole. What is said to the interrupt controllers is
left out.
-/

namespace Skylight.Ps2

open Skylight.Calls

/-- `HID_KERNEL_KEYCODE`, as far as a scan code stands for it. -/
inductive HidKeycode
  | backtick | num1 | num2 | num3 | num4 | num5 | num6 | num7 | num8 | num9 | num0 | minus
  | equals | charQ | charW | charE | charR | charT | charY | charU | charI | charO | charP
  | lbracket | rbracket | backslash | charA | charS | charD | charF | charG | charH | charJ
  | charK | charL | semicolon | singlequote | charZ | charX | charC | charV | charB | charN
  | charM | comma | period | slash | space | kpSlash | kpAsterisk | kpMinus | kpPlus | kp7 | kp8
  | kp9 | kp4 | kp5 | kp6 | kp1 | kp2 | kp3 | kp0 | kpPeriod | kpEnter | enter | tab | backspace
  | escape | mediaMypc | leftShift | rightShift | leftCtrl | rightCtrl | leftAlt | rightAlt
  | capslock | scrolllock | numlock | insert | home | pageup | delete | endKey | pagedown | up
  | left | down | right | f1 | f2 | f3 | f4 | f5 | f6 | f7 | f8 | f9 | f10 | f11 | f12
  | printscreen | pause | super | trackPrev | trackNext | mediaFavs | volumeDown | volumeUp
  | mediaMute | mediaPlaypause | mediaStop | wwwForward | wwwBack | wwwHome | wwwStop
  | wwwRefresh | mediaCalc | mediaMail | mediaSelect | mediaApps | mediaSearch | acpiPower
  | acpiSleep | acpiWake

def HidKeycode.value : HidKeycode → BitVec 8
  | .backtick => 0x01
  | .num1 => 0x02
  | .num2 => 0x03
  | .num3 => 0x04
  | .num4 => 0x05
  | .num5 => 0x06
  | .num6 => 0x07
  | .num7 => 0x08
  | .num8 => 0x09
  | .num9 => 0x0A
  | .num0 => 0x0B
  | .minus => 0x0C
  | .equals => 0x0D
  | .charQ => 0x0E
  | .charW => 0x0F
  | .charE => 0x10
  | .charR => 0x11
  | .charT => 0x12
  | .charY => 0x13
  | .charU => 0x14
  | .charI => 0x15
  | .charO => 0x16
  | .charP => 0x17
  | .lbracket => 0x18
  | .rbracket => 0x19
  | .backslash => 0x1A
  | .charA => 0x1B
  | .charS => 0x1C
  | .charD => 0x1D
  | .charF => 0x1E
  | .charG => 0x1F
  | .charH => 0x20
  | .charJ => 0x21
  | .charK => 0x22
  | .charL => 0x23
  | .semicolon => 0x24
  | .singlequote => 0x25
  | .charZ => 0x26
  | .charX => 0x27
  | .charC => 0x28
  | .charV => 0x29
  | .charB => 0x2A
  | .charN => 0x2B
  | .charM => 0x2C
  | .comma => 0x2D
  | .period => 0x2E
  | .slash => 0x2F
  | .space => 0x30
  | .kpSlash => 0x31
  | .kpAsterisk => 0x32
  | .kpMinus => 0x33
  | .kpPlus => 0x33
  | .kp7 => 0x34
  | .kp8 => 0x35
  | .kp9 => 0x36
  | .kp4 => 0x37
  | .kp5 => 0x38
  | .kp6 => 0x39
  | .kp1 => 0x3A
  | .kp2 => 0x3B
  | .kp3 => 0x3C
  | .kp0 => 0x3D
  | .kpPeriod => 0x3E
  | .kpEnter => 0x3F
  | .enter => 0x40
  | .tab => 0x41
  | .backspace => 0x42
  | .escape => 0x43
  | .mediaMypc => 0x44
  | .leftShift => 0x45
  | .rightShift => 0x46
  | .leftCtrl => 0x47
  | .rightCtrl => 0x48
  | .leftAlt => 0x49
  | .rightAlt => 0x4A
  | .capslock => 0x4B
  | .scrolllock => 0x4C
  | .numlock => 0x4D
  | .insert => 0x4E
  | .home => 0x4F
  | .pageup => 0x50
  | .delete => 0x51
  | .endKey => 0x52
  | .pagedown => 0x53
  | .up => 0x54
  | .left => 0x55
  | .down => 0x56
  | .right => 0x57
  | .f1 => 0x58
  | .f2 => 0x59
  | .f3 => 0x5A
  | .f4 => 0x5B
  | .f5 => 0x5C
  | .f6 => 0x5D
  | .f7 => 0x5E
  | .f8 => 0x5F
  | .f9 => 0x60
  | .f10 => 0x61
  | .f11 => 0x62
  | .f12 => 0x63
  | .printscreen => 0x64
  | .pause => 0x65
  | .super => 0x66
  | .trackPrev => 0x69
  | .trackNext => 0x6A
  | .mediaFavs => 0x6B
  | .volumeDown => 0x6C
  | .volumeUp => 0x6D
  | .mediaMute => 0x6E
  | .mediaPlaypause => 0x6F
  | .mediaStop => 0x70
  | .wwwForward => 0x71
  | .wwwBack => 0x72
  | .wwwHome => 0x73
  | .wwwStop => 0x74
  | .wwwRefresh => 0x75
  | .mediaCalc => 0x76
  | .mediaMail => 0x77
  | .mediaSelect => 0x78
  | .mediaApps => 0x79
  | .mediaSearch => 0x7A
  | .acpiPower => 0x7B
  | .acpiSleep => 0x7C
  | .acpiWake => 0x7D

def hidKeycodeNull : BitVec 8 := 0

def press (key : HidKeycode) : BitVec 8 := key.value

/-- The highest bit is set if the key is released. -/
def release (key : HidKeycode) : BitVec 8 := 0x80 ||| key.value

/-- The rows of `ps2_translate_keycode`. -/
def scancodes : List (BitVec 64 × BitVec 8) :=
  [(0x01, press .f9), (0x03, press .f5), (0x04, press .f3), (0x05, press .f1), (0x06, press .f2),
   (0x07, press .f12), (0x09, press .f10), (0x0A, press .f8), (0x0B, press .f6),
   (0x0C, press .f4), (0x0D, press .tab), (0x0E, press .backtick), (0x11, press .leftAlt),
   (0x12, press .leftShift), (0x14, press .leftCtrl), (0x15, press .charQ), (0x16, press .num1),
   (0x1A, press .charZ), (0x1B, press .charS), (0x1C, press .charA), (0x1D, press .charW),
   (0x1E, press .num2), (0x21, press .charC), (0x22, press .charX), (0x23, press .charD),
   (0x24, press .charE), (0x25, press .num4), (0x26, press .num3), (0x29, press .space),
   (0x2A, press .charV), (0x2B, press .charF), (0x2C, press .charT), (0x2D, press .charR),
   (0x2E, press .num5), (0x31, press .charN), (0x32, press .charB), (0x33, press .charH),
   (0x34, press .charG), (0x35, press .charY), (0x36, press .num6), (0x3A, press .charM),
   (0x3B, press .charJ), (0x3C, press .charU), (0x3D, press .num7), (0x3E, press .num8),
   (0x41, press .comma), (0x42, press .charK), (0x43, press .charI), (0x44, press .charO),
   (0x45, press .num0), (0x46, press .num9), (0x49, press .period), (0x4A, press .slash),
   (0x4B, press .charL), (0x4C, press .semicolon), (0x4D, press .charP), (0x4E, press .minus),
   (0x52, press .singlequote), (0x54, press .lbracket), (0x55, press .equals),
   (0x58, press .capslock), (0x59, press .rightShift), (0x5A, press .enter),
   (0x5B, press .rbracket), (0x5D, press .backslash), (0x66, press .backspace),
   (0x69, press .kp1), (0x6B, press .kp4), (0x6C, press .kp7), (0x70, press .kp0),
   (0x71, press .kpPeriod), (0x72, press .kp2), (0x73, press .kp5), (0x74, press .kp6),
   (0x75, press .kp8), (0x76, press .escape), (0x77, press .numlock), (0x78, press .f11),
   (0x79, press .kpPlus), (0x7A, press .kp3), (0x7B, press .kpMinus), (0x7C, press .kpAsterisk),
   (0x7D, press .kp9), (0x7E, press .scrolllock), (0x83, press .f7),
   (0xE010, press .mediaSearch), (0xE011, press .rightAlt), (0xE014, press .rightCtrl),
   (0xE015, press .trackPrev), (0xE018, press .mediaFavs), (0xE01F, press .super),
   (0xE020, press .wwwRefresh), (0xE021, press .volumeDown), (0xE023, press .mediaMute),
   (0xE027, press .super), (0xE028, press .wwwStop), (0xE02B, press .mediaCalc),
   (0xE02F, press .mediaApps), (0xE030, press .wwwForward), (0xE032, press .volumeUp),
   (0xE034, press .mediaPlaypause), (0xE037, press .acpiPower), (0xE038, press .wwwBack),
   (0xE03A, press .wwwHome), (0xE03B, press .mediaStop), (0xE03F, press .acpiSleep),
   (0xE040, press .mediaMypc), (0xE048, press .mediaMail), (0xE04A, press .kpSlash),
   (0xE04D, press .trackNext), (0xE050, press .mediaSelect), (0xE05A, press .kpEnter),
   (0xE05E, press .acpiWake), (0xE069, press .endKey), (0xE06B, press .left), (0xE06C, press .home),
   (0xE070, press .insert), (0xE071, press .delete), (0xE072, press .down),
   (0xE074, press .right), (0xE075, press .up), (0xE07A, press .pagedown),
   (0xE07D, press .pageup), (0xF001, release .f9), (0xF003, release .f5), (0xF004, release .f3),
   (0xF005, release .f1), (0xF006, release .f2), (0xF007, release .f12), (0xF009, release .f10),
   (0xF00A, release .f8), (0xF00B, release .f6), (0xF00C, release .f4), (0xF00D, release .tab),
   (0xF00E, release .backtick), (0xF011, release .leftAlt), (0xF012, release .leftShift),
   (0xF014, release .leftCtrl), (0xF015, release .charQ), (0xF016, release .num1),
   (0xF01A, release .charZ), (0xF01B, release .charS), (0xF01C, release .charA),
   (0xF01D, release .charW), (0xF01E, release .num2), (0xF021, release .charC),
   (0xF022, release .charX), (0xF023, release .charD), (0xF024, release .charE),
   (0xF025, release .num4), (0xF026, release .num3), (0xF029, release .space),
   (0xF02A, release .charV), (0xF02B, release .charF), (0xF02C, release .charT),
   (0xF02D, release .charR), (0xF02E, release .num5), (0xF031, release .charN),
   (0xF032, release .charB), (0xF033, release .charH), (0xF034, release .charG),
   (0xF035, release .charY), (0xF036, release .num6), (0xF03A, release .charM),
   (0xF03B, release .charJ), (0xF03C, release .charU), (0xF03D, release .num7),
   (0xF03E, release .num8), (0xF041, release .comma), (0xF042, release .charK),
   (0xF043, release .charI), (0xF044, release .charO), (0xF045, release .num0),
   (0xF046, release .num9), (0xF049, release .period), (0xF04A, release .slash),
   (0xF04B, release .charL), (0xF04C, release .semicolon), (0xF04D, release .charP),
   (0xF04E, release .minus), (0xF052, release .singlequote), (0xF054, release .lbracket),
   (0xF055, release .equals), (0xF058, release .capslock), (0xF059, release .rightShift),
   (0xF05A, release .enter), (0xF05B, release .rbracket), (0xF05D, release .backslash),
   (0xF066, release .backspace), (0xF069, release .kp1), (0xF06B, release .kp4),
   (0xF06C, release .kp7), (0xF070, release .kp0), (0xF071, release .kpPeriod),
   (0xF072, release .kp2), (0xF073, release .kp5), (0xF074, release .kp6),
   (0xF075, release .kp8), (0xF076, release .escape), (0xF077, release .numlock),
   (0xF078, release .f11), (0xF079, release .kpPlus), (0xF07A, release .kp3),
   (0xF07B, release .kpMinus), (0xF07C, release .kpAsterisk), (0xF07D, release .kp9),
   (0xF07E, release .scrolllock), (0xF083, release .f7), (0xE0F010, release .mediaSearch),
   (0xE0F011, release .rightAlt), (0xE0F014, release .rightCtrl), (0xE0F015, release .trackPrev),
   (0xE0F018, release .mediaFavs), (0xE0F01F, release .super), (0xE0F020, release .wwwRefresh),
   (0xE0F021, release .volumeDown), (0xE0F023, release .mediaMute), (0xE0F027, release .super),
   (0xE0F028, release .wwwStop), (0xE0F02B, release .mediaCalc), (0xE0F02F, release .mediaApps),
   (0xE0F030, release .wwwForward), (0xE0F032, release .volumeUp),
   (0xE0F034, release .mediaPlaypause), (0xE0F037, release .acpiPower),
   (0xE0F038, release .wwwBack), (0xE0F03A, release .wwwHome), (0xE0F03B, release .mediaStop),
   (0xE0F03F, release .acpiSleep), (0xE0F040, release .mediaMypc),
   (0xE0F048, release .mediaMail), (0xE0F04A, release .kpSlash), (0xE0F04D, release .trackNext),
   (0xE0F050, release .mediaSelect), (0xE0F05A, release .kpEnter), (0xE0F05E, release .acpiWake),
   (0xE0F069, release .endKey), (0xE0F06B, release .left), (0xE0F06C, release .home),
   (0xE0F070, release .insert), (0xE0F071, release .delete), (0xE0F072, release .down),
   (0xE0F074, release .right), (0xE0F075, release .up), (0xE0F07A, release .pagedown),
   (0xE0F07D, release .pageup), (0xE012E07C, press .printscreen),
   (0xE0F07CE0F012, release .printscreen), (0xE11477E1F014F077, press .pause)]

/-- `ps2_translate_keycode` -/
def translateKeycode (renderedScancode : BitVec 64) : BitVec 8 :=
  (scancodes.lookup renderedScancode).getD hidKeycodeNull

/-- `ps2_kbd_needs_next_byte` -/
def needsNextByte (scancode : Nat → BitVec 8) (bytes : Nat) : Bool :=
  match bytes with
  | 1 => scancode 0 == 0xE0 || scancode 0 == 0xF0 || scancode 0 == 0xE1
  | 2 => scancode 1 == 0xF0 || scancode 0 == 0xE0 && scancode 1 == 0x12 ||
    scancode 0 == 0xE1 && scancode 1 == 0x14
  | 3 => scancode 2 == 0x77 || scancode 2 == 0x7C || scancode 2 == 0xE0
  | 4 => scancode 3 == 0xE0 || scancode 3 == 0xE1
  | 5 => scancode 4 == 0xF0
  | 6 => scancode 5 == 0x14
  | 7 => scancode 6 == 0xF0
  | _ => false

/-- The driver: `ps2_kbd_scan_set`, `_ismasked`, `__commanding`, the memory from
`__kbd_scancode_buffer` on, whose first 8 bytes are the buffer, and
`__kbd_scancode_buffer_pos`. The keystrokes that were registered are kept for the statement. -/
structure Driver where
  scanSet : BitVec 8
  ismasked : Bool
  commanding : Bool
  buffer : Nat → BitVec 8
  pos : BitVec 8
  kernel : Calls.Kernel
  registered : List (BitVec 8)

def scancodesSupported : BitVec 8 := 2

/-- `ps2_kbd_validate_state` -/
def validateState (m : Driver) : Bool := m.scanSet == scancodesSupported && !m.ismasked

/-- `__ps2_kbd_clear_scan_buffer` -/
def clearScanBuffer (m : Driver) : Driver :=
  { m with buffer := fun i => if i < 8 then 0 else m.buffer i, pos := 0 }

/-- The loop of `ps2_kbd_handle_scancode`. -/
def renderScancode (scancode : Nat → BitVec 8) (bytes : Nat) : BitVec 64 :=
  (List.range bytes).foldl (fun rendered i => rendered <<< 8 ||| (scancode i).setWidth 64) 0

/-- `ps2_kbd_handle_scancode` -/
def handleScancode (scancode : Nat → BitVec 8) (bytes : Nat) (m : Driver) : Driver :=
  if bytes = 0 then m else
  let keycode := translateKeycode (renderScancode scancode bytes)
  let (taken, kernel) := hidRegisterKeystroke keycode m.kernel
  { m with
    kernel := kernel
    registered := if taken then m.registered ++ [keycode] else m.registered }

/-- `__kbd_ps2_irq_handler`, with the byte that it reads. -/
def irqHandler (m : Driver) (byte : BitVec 8) : Driver :=
  if !validateState m || m.commanding then { m with ismasked := true } else
  let m := { m with buffer := Function.update m.buffer m.pos.toNat byte, pos := m.pos + 1 }
  if !needsNextByte m.buffer m.pos.toNat then
    clearScanBuffer (handleScancode m.buffer m.pos.toNat m)
  else m

def Driver.run (m : Driver) (stream : List (BitVec 8)) : Driver := stream.foldl irqHandler m

end Skylight.Ps2
