import Skylight.Proc.Calls

/-!
# The keyboard of prism

`kbd_update` of `apps/frames/prism/src/kbd/kbd.c`, one step at a time, on the page of keys that
it shares with the interrupt. The listeners are called one after the other with the same key, so
the keys that are handed to them are one list.
-/

namespace Skylight.Prism

open Skylight.Paging Skylight.Calls

def hidKeycodeLeftShift : BitVec 8 := 0x45
def hidKeycodeRightShift : BitVec 8 := 0x46
def hidKeycodeCapslock : BitVec 8 := 0x4B
def hidKeycodeNumlock : BitVec 8 := 0x4D

/-- `_kb_shift`, `_kb_caps` and `_kb_nums` -/
structure Modifiers where
  shift : Bool
  caps : Bool
  nums : Bool
  deriving DecidableEq

/-- The `switch` of `kbd_update`. -/
def Modifiers.update (m : Modifiers) (keycode : BitVec 8) : Modifiers :=
  if keycode = hidKeycodeCapslock then { m with caps := !m.caps }
  else if keycode = hidKeycodeNumlock then { m with nums := !m.nums }
  else if keycode = hidKeycodeLeftShift ∨ keycode = hidKeycodeRightShift then
    { m with shift := true }
  else if keycode = hidKeycodeLeftShift ||| 0x80 ∨ keycode = hidKeycodeRightShift ||| 0x80 then
    { m with shift := false }
  else m

/-- Where `kbd_update` is: before its read of the size, in its loop or past the loop, or before
its last line. -/
inductive Place
  | start
  | looping (bufferedKeys i : BitVec 16)
  | resetting
  deriving DecidableEq

/-- Prism and the kernel. The keys that went into the page are kept for the statement only. -/
structure Machine where
  kernel : Calls.Kernel
  started : Bool
  internalBuffer : Addr
  internalBufferSize : Addr
  place : Place
  modifiers : Modifiers
  delivered : List (BitVec 8)
  stored : List (BitVec 8)

/-- `memset(s, 0x00, n)` -/
def memset (bytes : Addr → BitVec 8) (s : Addr) (n : Nat) : Addr → BitVec 8 :=
  fun a => if (a - s).toNat < n then 0 else bytes a

/-- One step of `kbd_update`. -/
def kbdUpdate (m : Machine) : Machine :=
  match m.place with
  | .start =>
    if !m.started then m else
    let bufferedKeys := m.kernel.read16 m.internalBufferSize
    if bufferedKeys = 0 then m else { m with place := .looping bufferedKeys 0 }
  | .looping bufferedKeys i =>
    if i < bufferedKeys then
      let keycode := m.kernel.bytes (m.internalBuffer + i.setWidth 64)
      { m with
        modifiers := m.modifiers.update keycode
        delivered := m.delivered ++ [keycode]
        place := .looping bufferedKeys (i + 1) }
    else
      let bytes := memset m.kernel.bytes m.internalBuffer (bufferedKeys + 1).toNat
      { m with kernel := { m.kernel with bytes := bytes }, place := .resetting }
  | .resetting => { m with kernel := m.kernel.write16 m.internalBufferSize 0, place := .start }

/-- A key goes into the page: somebody has the keyboard and the page is not full. -/
def Accepts (k : Calls.Kernel) : Prop :=
  ¬ (k.currentPid = nobody ∨ k.currentBuffer = 0 ∨ k.currentSize = 0) ∧
    ¬ (k.read16 k.currentSize).toNat ≥ 0x1000 - 2

instance (k : Calls.Kernel) : Decidable (Accepts k) := inferInstanceAs (Decidable (_ ∧ _))

/-- The interrupt, with `__kb_man_save_key`. -/
def saveKey (keycode : BitVec 8) (m : Machine) : Machine :=
  { m with
    kernel := kbManSaveKey keycode m.kernel
    stored := if Accepts m.kernel then m.stored ++ [keycode] else m.stored }

inductive Event
  | key (keycode : BitVec 8)
  | update
  deriving DecidableEq

def Machine.step (m : Machine) : Event → Machine
  | .key keycode => saveKey keycode m
  | .update => kbdUpdate m

def Machine.run (m : Machine) (events : List Event) : Machine := events.foldl Machine.step m

end Skylight.Prism
