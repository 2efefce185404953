import Skylight.Cpu.Idt
import Skylight.Iodev.Apic

/-!
# The interval timer

`pit_enable` and `pit_disable` of `iodev/timer/pit/pit.c`. Whether the timer is enabled is not
kept by itself: `pit_enable` looks at `gsi`, which is `0xFF` at first, and `pit_disable` at nothing.
-/

namespace Skylight.Pit

open X86 (Word)
open Cpu (Vector Symbol)
open Apic (IoApic apicIoGetGsi apicIoGetRedirect apicIoRedirectIrq apicIoMaskIrq apicIoUnmaskIrq)
open Idt (idtAllocateVector idtInstallIrqHandler idtFreeVector)

/-- The globals of `pit.c`, the tables the driver works on, and the bytes it wrote to ports. -/
structure State where
  pitVector : Vector
  pitDivisor : BitVec 16
  gsi : BitVec 8
  idt : Idt.State
  io : IoApic
  written : List (BitVec 16 × BitVec 8)

/-- `PIT_REGISTER_CHANNEL0_DATA` -/
def pitRegisterChannel0Data : BitVec 16 := 0x40
/-- `PIT_REGISTER_COMMAND_MODE` -/
def pitRegisterCommandMode : BitVec 16 := 0x43

/-- `PIT_IRQ_LINE` -/
def pitIrqLine : BitVec 8 := 0

/-- `outb` -/
def State.outb (s : State) (port : BitVec 16) (value : BitVec 8) : State :=
  { s with written := s.written ++ [(port, value)] }

/-- `pit_set_divisor` -/
def pitSetDivisor (divisor : BitVec 16) (s : State) : State :=
  let s := s.outb pitRegisterCommandMode 0x34
  let s := s.outb pitRegisterChannel0Data ((divisor &&& 0xFF).setWidth 8)
  let s := s.outb pitRegisterChannel0Data ((divisor >>> 8).setWidth 8)
  { s with pitDivisor := divisor }

/-- `pit_enable`, with `__pit_builtin_handler` at `handler`. -/
def pitEnable (addr : Symbol → Word) (behind : Vector → Word) (handler : Word) (s : State) :
    State :=
  if s.gsi ≠ 0xFF then s
  else
    let (pitVector, idt) := idtAllocateVector s.idt
    let s := { s with pitVector := pitVector, idt := idt }
    let s := { s with gsi := apicIoGetGsi pitIrqLine s.io }
    let existing := apicIoGetRedirect s.gsi s.io
    let io := apicIoRedirectIrq s.gsi (BitVec.ofNat 8 s.pitVector.val) existing.activeLow
      existing.levelTriggered s.io
    let s := { s with io := io }
    let s := pitSetDivisor 8 s
    let s := { s with idt := idtInstallIrqHandler addr behind s.pitVector handler s.idt }
    { s with io := apicIoUnmaskIrq s.gsi s.io }

/-- `pit_disable` -/
def pitDisable (s : State) : State :=
  let s := { s with gsi := apicIoGetGsi pitIrqLine s.io }
  let s := { s with io := apicIoRedirectIrq s.gsi 0 false false s.io }
  let s := { s with io := apicIoMaskIrq s.gsi s.io }
  let s := { s with idt := idtFreeVector s.pitVector s.idt }
  { s with pitVector := 0 }

end Skylight.Pit
