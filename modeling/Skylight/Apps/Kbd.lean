import Skylight.Proc.Calls

/-!
# The listeners of prism

`kbd_init`, `kbd_kill`, `kbd_add_listener` and `kbd_remove_listener` of
`apps/frames/prism/src/kbd/kbd.c`. The page that `listeners` points to is seen as its 512 slots;
an access to any other slot has no answer.
-/

namespace Skylight.Prism

open Skylight.Paging Skylight.Calls

/-- The variables of `kbd.c`, and the slots of the page of listeners. -/
structure Kbd where
  started : Bool
  internalBuffer : Addr
  internalBufferSize : Addr
  listeners : Addr
  listenersCount : Nat
  slots : Nat → BitVec 64

/-- `0x1000 / sizeof(kbd_listener_t)` -/
def listenersMax : Nat := 0x1000 / 8

/-- `listeners[i]` -/
def Kbd.listener (k : Kbd) (i : Nat) : Option (BitVec 64) :=
  if i < listenersMax then some (k.slots i) else none

/-- `listeners[i] = listener` -/
def Kbd.setListener (k : Kbd) (i : Nat) (listener : BitVec 64) : Option Kbd :=
  if i < listenersMax then some { k with slots := Function.update k.slots i listener } else none

/-- `kbd_add_listener` -/
def kbdAddListener (listener : BitVec 64) (k : Kbd) : Option (Bool × Kbd) :=
  if !k.started then some (false, k)
  else if k.listenersCount ≥ listenersMax then some (false, k)
  else do
    let k ← k.setListener k.listenersCount listener
    return (true, { k with listenersCount := k.listenersCount + 1 })

/-- The search of `kbd_remove_listener`, with so many slots ahead. -/
def targetLoop (k : Kbd) (listener : BitVec 64) : Nat → Nat → Option Nat
  | 0, _ => some 0
  | n + 1, i => do
    if (← k.listener i) = listener then return i
    targetLoop k listener n (i + 1)

/-- The loop that moves the later listeners. -/
def moveLoop : Nat → Nat → Kbd → Option Kbd
  | 0, _, k => some k
  | n + 1, i, k => do
    let k ← k.setListener i (← k.listener (i + 1))
    moveLoop n (i + 1) k

/-- `kbd_remove_listener` -/
def kbdRemoveListener (listener : BitVec 64) (k : Kbd) : Option Kbd :=
  if !k.started then some k else do
  let targetIndex ← targetLoop k listener k.listenersCount 0
  if targetIndex = 0 then return k
  let k ← k.setListener targetIndex 0
  let k ← moveLoop (k.listenersCount - targetIndex) targetIndex k
  let k ← k.setListener k.listenersCount 0
  return { k with listenersCount := k.listenersCount - 1 }

/-- What happens while `kbd_init` is on its way: a key, or another process that calls `kb_man`. -/
inductive Meanwhile
  | key (keycode : BitVec 8)
  | kbMan (caller : Caller) (taking : Bool)

def Meanwhile.run (g : Nat → Addr) (fuel : Nat) (k : Calls.Kernel) : Meanwhile → Option Calls.Kernel
  | .key keycode => some (kbManSaveKey keycode k)
  | .kbMan caller taking => (Calls.kbMan g fuel taking caller k).map (·.2)

/-- `kbd_init`, with what happens between the call of `kb_man` and the look at the size. -/
def kbdInit (g : Nat → Addr) (fuel : Nat) (caller : Caller) (meanwhile : List Meanwhile) (m : Kbd)
    (k : Calls.Kernel) : Option (Bool × Kbd × Calls.Kernel) :=
  if m.started then some (true, m, k) else do
  let (buffer, k) ← kbMan g fuel true caller k
  let m := { m with internalBuffer := buffer }
  if buffer = 0 then return (false, m, k)
  let k ← meanwhile.foldlM (Meanwhile.run g fuel) k
  let m := { m with internalBufferSize := m.internalBuffer + 0x1000 - 2 }
  if k.read16 m.internalBufferSize ≠ 0 then return (false, m, k)
  if m.listeners ≠ 0 then return (false, m, k)
  let (listeners, tables) ← pmap g fuel caller.cr3 0 k.tables
  let m := { m with listeners := listeners }
  let k := { k with tables := tables }
  if listeners = 0 then return (false, m, k)
  return (true, { m with listenersCount := 0, slots := fun _ => 0, started := true }, k)

/-- `kbd_kill` -/
def kbdKill (g : Nat → Addr) (fuel : Nat) (caller : Caller) (m : Kbd) (k : Calls.Kernel) :
    Option (Kbd × Calls.Kernel) := do
  let (_, k) ← kbMan g fuel false caller k
  return ({ m with started := false, internalBuffer := 0, internalBufferSize := 0 }, k)

end Skylight.Prism
