import Mathlib.Logic.Function.Iterate
import Skylight.Apps.Prism
import Skylight.Iodev.Ps2

/-!
# Typed text

`kbd_char_decode` of `apps/frames/prism/src/kbd/kbd.c` with the tables of `tables.c`, and a session
in which scan codes go the whole way: translated, put into the page of keys, handed over by
`kbd_update`, and decoded by a listener when a key is pressed.
-/

namespace Skylight.Prism

open Skylight.Calls Skylight.Ps2

/-- `kbd_key_ascii_default` -/
def kbdKeyAsciiDefault : List Char :=
  ['\x00', '\x60', '1', '2', '3', '4', '5', '6', '7', '8', '9', '0', '-', '=', 'q', 'w', 'e',
    'r', 't', 'y', 'u', 'i', 'o', 'p', '[', ']', '\\', 'a', 's', 'd', 'f', 'g', 'h', 'j', 'k',
    'l', ';', '\x27', 'z', 'x', 'c', 'v', 'b', 'n', 'm', ',', '.', '/', ' ', '\x00', '\x00',
    '\x00', '\x00', '\x00', '\x00', '\x00', '\x00', '\x00', '\x00', '\x00', '\x00', '\x00',
    '\x00', '\x00', '\x00', '\n', '\t', '\x08']

/-- `kbd_key_ascii_numlock` -/
def kbdKeyAsciiNumlock : List Char :=
  ['\x00', '\x60', '1', '2', '3', '4', '5', '6', '7', '8', '9', '0', '-', '=', 'q', 'w', 'e',
    'r', 't', 'y', 'u', 'i', 'o', 'p', '[', ']', '\\', 'a', 's', 'd', 'f', 'g', 'h', 'j', 'k',
    'l', ';', '\x27', 'z', 'x', 'c', 'v', 'b', 'n', 'm', ',', '.', '/', ' ', '/', '*', '-', '+',
    '7', '8', '9', '4', '5', '6', '1', '2', '3', '0', '.', '\n', '\n', '\t', '\x08']

/-- `kbd_key_ascii_capslock` -/
def kbdKeyAsciiCapslock : List Char :=
  ['\x00', '\x60', '1', '2', '3', '4', '5', '6', '7', '8', '9', '0', '-', '=', 'Q', 'W', 'E',
    'R', 'T', 'Y', 'U', 'I', 'O', 'P', '[', ']', '\\', 'A', 'S', 'D', 'F', 'G', 'H', 'J', 'K',
    'L', ';', '\x27', 'Z', 'X', 'C', 'V', 'B', 'N', 'M', ',', ',', '/', ' ', '\x00', '\x00',
    '\x00', '\x00', '\x00', '\x00', '\x00', '\x00', '\x00', '\x00', '\x00', '\x00', '\x00',
    '\x00', '\x00', '\x00', '\n', '\t', '\x08']

/-- `kbd_key_ascii_numlock_capslock` -/
def kbdKeyAsciiNumlockCapslock : List Char :=
  ['\x00', '\x60', '1', '2', '3', '4', '5', '6', '7', '8', '9', '0', '-', '=', 'Q', 'W', 'E',
    'R', 'T', 'Y', 'U', 'I', 'O', 'P', '[', ']', '\\', 'A', 'S', 'D', 'F', 'G', 'H', 'J', 'K',
    'L', ';', '\x27', 'Z', 'X', 'C', 'V', 'B', 'N', 'M', ',', ',', '/', ' ', '/', '*', '-', '+',
    '7', '8', '9', '4', '5', '6', '1', '2', '3', '0', '.', '\n', '\n', '\t', '\x08']

/-- `kbd_key_ascii_shift` -/
def kbdKeyAsciiShift : List Char :=
  ['\x00', '~', '!', '@', '#', '$', '%', '^', '&', '*', '(', ')', '_', '+', 'Q', 'W', 'E', 'R',
    'T', 'Y', 'U', 'I', 'O', 'P', '\x7b', '\x7d', '|', 'A', 'S', 'D', 'F', 'G', 'H', 'J', 'K',
    'L', ':', '\x22', 'Z', 'X', 'C', 'V', 'B', 'N', 'M', '<', '>', '?', ' ', '\x00', '\x00',
    '\x00', '\x00', '\x00', '\x00', '\x00', '\x00', '\x00', '\x00', '\x00', '\x00', '\x00',
    '\x00', '\x00', '\x00', '\n', '\t', '\x08']

/-- `kbd_key_ascii_shift_numlock` -/
def kbdKeyAsciiShiftNumlock : List Char :=
  ['\x00', '~', '!', '@', '#', '$', '%', '^', '&', '*', '(', ')', '_', '+', 'Q', 'W', 'E', 'R',
    'T', 'Y', 'U', 'I', 'O', 'P', '\x7b', '\x7d', '|', 'A', 'S', 'D', 'F', 'G', 'H', 'J', 'K',
    'L', ':', '\x22', 'Z', 'X', 'C', 'V', 'B', 'N', 'M', '<', '>', '?', ' ', '/', '*', '-', '+',
    '7', '8', '9', '4', '5', '6', '1', '2', '3', '0', '.', '\n', '\n', '\t', '\x08']

/-- `kbd_key_ascii_shift_capslock` -/
def kbdKeyAsciiShiftCapslock : List Char :=
  ['\x00', '~', '!', '@', '#', '$', '%', '^', '&', '*', '(', ')', '_', '+', 'q', 'w', 'e', 'r',
    't', 'y', 'u', 'i', 'o', 'p', '\x7b', '\x7d', '|', 'a', 's', 'd', 'f', 'g', 'h', 'j', 'k',
    'l', ':', '\x22', 'z', 'x', 'c', 'v', 'b', 'n', 'm', '<', '>', '?', ' ', '\x00', '\x00',
    '\x00', '\x00', '\x00', '\x00', '\x00', '\x00', '\x00', '\x00', '\x00', '\x00', '\x00',
    '\x00', '\x00', '\x00', '\n', '\t', '\x08']

/-- `kbd_key_ascii_shift_numlock_capslock` -/
def kbdKeyAsciiShiftNumlockCapslock : List Char :=
  ['\x00', '~', '!', '@', '#', '$', '%', '^', '&', '*', '(', ')', '_', '+', 'q', 'w', 'e', 'r',
    't', 'y', 'u', 'i', 'o', 'p', '\x7b', '\x7d', '|', 'a', 's', 'd', 'f', 'g', 'h', 'j', 'k',
    'l', ':', '\x22', 'z', 'x', 'c', 'v', 'b', 'n', 'm', '<', '>', '?', ' ', '/', '*', '-', '+',
    '7', '8', '9', '4', '5', '6', '1', '2', '3', '0', '.', '\n', '\n', '\t', '\x08']

/-- The `switch` of `kbd_char_decode`, on shift, caps lock and num lock. -/
def asciiTable (m : Modifiers) : List Char :=
  match m.shift, m.caps, m.nums with
  | true, true, true => kbdKeyAsciiShiftNumlockCapslock
  | true, true, false => kbdKeyAsciiShiftCapslock
  | true, false, true => kbdKeyAsciiShiftNumlock
  | true, false, false => kbdKeyAsciiShift
  | false, true, true => kbdKeyAsciiNumlockCapslock
  | false, true, false => kbdKeyAsciiCapslock
  | false, false, true => kbdKeyAsciiNumlock
  | false, false, false => kbdKeyAsciiDefault

/-- `kbd_char_decode` -/
def kbdCharDecode (m : Modifiers) (keycode : BitVec 8) : BitVec 8 :=
  let keycode := keycode &&& 0x7F
  if keycode > 0x42 then 0
  else if keycode = 0 then 0
  else BitVec.ofNat 8 ((asciiTable m).getD keycode.toNat '\x00').toNat

/-- A listener that decodes a key when it is pressed. -/
def decodePress (m : Modifiers) (keycode : BitVec 8) : List (BitVec 8) :=
  if keycode &&& 0x80 = 0 then [kbdCharDecode m keycode] else []

/-- Prism, and what the listener has decoded. -/
structure Session where
  machine : Machine
  typed : List (BitVec 8)

/-- One step of `kbd_update`, with the listener's call in it. -/
def Session.step (s : Session) : Session :=
  let m := kbdUpdate s.machine
  let handed := m.delivered.drop s.machine.delivered.length
  { machine := m, typed := s.typed ++ handed.flatMap (decodePress m.modifiers) }

/-- A whole `kbd_update`: its read, a step for each key and one past them, and its last line. -/
def Session.update (s : Session) : Session :=
  let bufferedKeys := s.machine.kernel.read16 s.machine.internalBufferSize
  Session.step^[bufferedKeys.toNat + 3] s

/-- `ps2_kbd_handle_scancode`, with `hid_register_keystroke` and `__kb_man_save_key` -/
def Session.scan (s : Session) (code : BitVec 64) : Session :=
  let keycode := translateKeycode code
  if keycode = hidKeycodeNull then s else { s with machine := saveKey keycode s.machine }

/-- Scan codes with a `kbd_update` behind each batch of them. -/
def Session.run (s : Session) (batches : List (List (BitVec 64))) : Session :=
  batches.foldl (fun s codes => (codes.foldl Session.scan s).update) s

end Skylight.Prism
