import Skylight.Iodev.Pit
import Skylight.Iodev.Ps2
import Skylight.Iodev.Shell

/-!
# The drivers that take interrupts

`iodev/uart/uartsh.c`, `iodev/timer/local/local_timer.c`, the wait of `iodev/timer/pit/pit.c` and
the setup in `iodev/hid/ps2/ps2_kbd.c`, over one table of vectors, one I/O APIC and one set of
ports. What a read of a port gives may depend on what was written before and on how often ports were
read. Who waits for a port may wait for ever, so the waits have their fuel.
-/

namespace Skylight.Drivers

open X86 (Word)
open Cpu (Vector Symbol)
open Apic (IoApic apicIoGetGsi apicIoRedirectIrq apicIoMaskIrq apicIoUnmaskIrq)
open Idt (idtAllocateVector idtInstallIrqHandler idtSetDescriptor idtFreeVector)
open Ps2 (validateState clearScanBuffer)
open Shell (ascii)

/-! ### Ports -/

/-- What was written to ports, and how often one was read. -/
structure Ports where
  written : List (BitVec 16 × BitVec 8)
  reads : Nat

/-- What the next read of a port gives. -/
abbrev Device := Ports → BitVec 16 → BitVec 8

/-- `outb` -/
def Ports.outb (p : Ports) (port : BitVec 16) (value : BitVec 8) : Ports :=
  { p with written := p.written ++ [(port, value)] }

/-- `inb` -/
def inb (device : Device) (port : BitVec 16) (p : Ports) : BitVec 8 × Ports :=
  (device p port, { p with reads := p.reads + 1 })

/-- `__com_port_addrs` -/
def comPortAddrs : List (BitVec 16) :=
  [0, 0x3F8, 0x2F8, 0x3E8, 0x2E8, 0x5F8, 0x4F8, 0x5E8, 0x4E8]

def comPortAddr (port : Nat) : BitVec 16 := comPortAddrs.getD port 0

def comRegisterData : BitVec 16 := 0x00
def comRegisterInterrupt : BitVec 16 := 0x01
def comRegisterBaudLow : BitVec 16 := 0x00
def comRegisterBaudHigh : BitVec 16 := 0x01
def comRegisterLineCtrl : BitVec 16 := 0x03
def comRegisterLineStat : BitVec 16 := 0x05
def comRegisterScratch : BitVec 16 := 0x07

def serialCom1Irq : BitVec 8 := 4
def serialCom2Irq : BitVec 8 := 3
def ps2KbdIrqLine : BitVec 8 := 1

section
variable (device : Device)

/-- `uart_input_data_available`; it looks at the input port whatever port it is given. -/
def uartInputDataAvailable (inputPort : Nat) (p : Ports) : Bool × Ports :=
  let (status, p) := inb device (comPortAddr inputPort + comRegisterLineStat) p
  (status &&& 0x1 != 0, p)

/-- `serial_check_port` -/
def serialCheckPort (port : Nat) (p : Ports) : Bool × Ports :=
  if port = 0 ∨ port > 8 then (false, p) else
  let p := p.outb (comPortAddr port + comRegisterScratch) 0xAF
  let (test, p) := inb device (comPortAddr port + 0x07) p
  (test == 0xAF, p)

/-- `serial_configure_port` -/
def serialConfigurePort (port : Nat) (p : Ports) : Ports :=
  let (found, p) := serialCheckPort device port p
  if !found then p else
  let (lineControl, p) := inb device (comPortAddr port + comRegisterLineCtrl) p
  let lineControl := lineControl ||| 0x80
  let p := p.outb (comPortAddr port + comRegisterLineCtrl) lineControl
  let p := p.outb (comPortAddr port + comRegisterBaudLow) 0x01
  let p := p.outb (comPortAddr port + comRegisterBaudHigh) 0x00
  let (lineControl, p) := inb device (comPortAddr port + comRegisterLineCtrl) p
  let lineControl := lineControl &&& ~~~0x80
  let lineControl := lineControl &&& ~~~0x4
  let lineControl := lineControl &&& 0x38
  let lineControl := lineControl ||| 0x3
  p.outb (comPortAddr port + comRegisterLineCtrl) lineControl

/-! ### The keyboard's port -/

def ps2KbdCommandPort : BitVec 16 := 0x64
def ps2KbdStatusReg : BitVec 16 := 0x64
def ps2KbdDataPort : BitVec 16 := 0x60

def ps2KbdStatusAck : BitVec 8 := 0xFA
def ps2KbdStatusResend : BitVec 8 := 0xFE
def ps2KbdStatusError : BitVec 8 := 0xFC

def ps2FuncSetLeds : BitVec 8 := 0xED
def ps2FuncScanset : BitVec 8 := 0xF0
def ps2FuncEnable : BitVec 8 := 0xF4

/-- `PS2_NO_OPERAND` -/
def ps2NoOperand : BitVec 8 := 0xff

/-- `SCANCODE_SET_2` -/
def scancodeSet2 : BitVec 8 := 2

/-- `ps2_test_responsivity` -/
def ps2TestResponsivity (p : Ports) : Bool × Ports :=
  let p := p.outb ps2KbdDataPort 0xEE
  let (status, p) := inb device ps2KbdDataPort p
  (status == 0xEE, p)

/-- `ps2_buffer_wait` -/
def ps2BufferWait : Nat → Ports → Option Ports
  | 0, _ => none
  | fuel + 1, p =>
    let (status, p) := inb device ps2KbdStatusReg p
    if status &&& 0x02 ≠ 0 then ps2BufferWait fuel p else some p

/-- The loop of `ps2_kbd_send_command`. -/
def ackLoop (command : BitVec 8) : Nat → BitVec 8 → BitVec 64 → Ports → Option (Bool × Ports)
  | 0, _, _, _ => none
  | fuel + 1, status, timeout, p =>
    if status = ps2KbdStatusAck then some (true, p) else
    let (p, timeout) :=
      if status = ps2KbdStatusResend ∧ timeout < 1 then
        (p.outb ps2KbdCommandPort command, timeout + 1)
      else (p, timeout)
    if status = ps2KbdStatusError then some (false, p) else
    let (status, p) := inb device ps2KbdDataPort p
    ackLoop command fuel status timeout p

variable (fuel : Nat)

/-- `ps2_kbd_send_command` -/
def ps2KbdSendCommand (command operand : BitVec 8) (m : Ps2.Driver) (p : Ports) :
    Option (Bool × Ps2.Driver × Ports) := do
  let m := { m with commanding := true }
  let (responsive, p) := ps2TestResponsivity device p
  if !responsive then
    return (false, { m with commanding := false }, p)
  let (status, p) := inb device ps2KbdDataPort p
  let p ←
    if status ≠ ps2KbdStatusError then do
      let p := p.outb ps2KbdDataPort command
      let p ← ps2BufferWait device fuel p
      pure (if operand ≠ ps2NoOperand then p.outb ps2KbdDataPort operand else p)
    else pure p
  let (done, p) ← ackLoop device command fuel status 0 p
  return (done, { m with commanding := false }, p)

/-- `ps2_kbd_disable_set_translation` -/
def ps2KbdDisableSetTranslation (p : Ports) : Option Ports := do
  let p ← ps2BufferWait device fuel p
  let p := p.outb ps2KbdCommandPort 0x20
  let p ← ps2BufferWait device fuel p
  let (configByte, p) := inb device ps2KbdDataPort p
  let configByte := configByte &&& ~~~((1 : BitVec 8) <<< 6)
  let p := p.outb ps2KbdCommandPort 0x60
  let p := p.outb ps2KbdDataPort configByte
  ps2BufferWait device fuel p

/-- `ps2_kbd_set_scancodes`, which calls itself until the port names the set asked for. -/
def ps2KbdSetScancodes (scancodeSet : BitVec 8) : Nat → Ps2.Driver → Ports →
    Option (Ps2.Driver × Ports)
  | 0, _, _ => none
  | rounds + 1, m, p => do
    let p ← ps2KbdDisableSetTranslation device fuel p
    let m := { m with scanSet := scancodeSet }
    if scancodeSet = 0 then
      return (m, p)
    let (_, m, p) ← ps2KbdSendCommand device fuel ps2FuncScanset scancodeSet m p
    let p ← ps2BufferWait device fuel p
    let p := p.outb ps2KbdDataPort ps2FuncScanset
    let p ← ps2BufferWait device fuel p
    let p := p.outb ps2KbdDataPort 0x00
    let p ← ps2BufferWait device fuel p
    let (_, p) := inb device ps2KbdDataPort p
    let (set, p) := inb device ps2KbdDataPort p
    if set ≠ scancodeSet then ps2KbdSetScancodes scancodeSet rounds m p else return (m, p)

end

/-! ### Globals -/

/-- The globals of `uartsh.c`. Of the memory from `available_com_ports` on the array has 8 bytes. -/
structure Uart where
  availableComPorts : Nat → Bool
  inputMasked : Bool
  inputComGsi : BitVec 8
  inputIdtVector : Vector
  inputPort : Nat
  outputPort : Nat

/-- The globals of `ps2_kbd.c` that are read anywhere. -/
structure Keyboard where
  vector : Vector
  gsi : BitVec 8
  capslock : Bool
  numlock : Bool
  scrolllock : Bool
  driver : Ps2.Driver

/-- The globals of `pit.c`. -/
structure Timer where
  pitVector : Vector
  pitDivisor : BitVec 16
  ticks : BitVec 64
  watching : Bool
  gsi : BitVec 8

/-- The globals of `local_timer.c`. -/
structure LocalTimer where
  tpms : BitVec 64
  calibrated : Bool
  vector : Vector

/-- The registers of the local APIC that a driver writes, but for `APIC_LOCAL_REGISTER_EOI`. -/
inductive LocalRegister
  | lvtTimer
  | initialCount
  | divideConfig
  deriving DecidableEq

/-- What the drivers share, and the globals of each. `eois` counts what was written to
`APIC_LOCAL_REGISTER_EOI`. -/
structure State where
  idt : Idt.State
  io : IoApic
  lapic : LocalRegister → BitVec 32
  eois : Nat
  ports : Ports
  uart : Uart
  shell : Shell.State
  kbd : Keyboard
  pit : Timer
  timer : LocalTimer

/-- `apic_local_write` -/
def State.write (s : State) (r : LocalRegister) (value : BitVec 32) : State :=
  { s with lapic := Function.update s.lapic r value }

/-- `apic_local_send_eoi` -/
def State.sendEoi (s : State) : State := { s with eois := s.eois + 1 }

/-- Who has a handler. -/
inductive Driver
  | uart
  | pit
  | kbd
  | timer
  deriving DecidableEq

section
variable (addr : Symbol → Word) (behind : Vector → Word) (handlers : Driver → Word)
  (device : Device) (fuel : Nat)

/-! ### The serial console -/

/-- `serial_set_input_masked` -/
def serialSetInputMasked (masked : Bool) (s : State) : State :=
  let s := { s with uart := { s.uart with inputMasked := masked } }
  if s.uart.inputComGsi ≠ 0 then
    if s.uart.inputMasked then { s with io := apicIoMaskIrq s.uart.inputComGsi s.io }
    else { s with io := apicIoUnmaskIrq s.uart.inputComGsi s.io }
  else s

/-- `serial_select_input_port` -/
def serialSelectInputPort (port : Nat) (s : State) : State :=
  if port < 1 ∨ port > 2 then s else
  let gsi := apicIoGetGsi (if port = 1 then serialCom1Irq else serialCom2Irq) s.io
  let s := { s with uart := { s.uart with inputPort := port, inputComGsi := gsi } }
  let s :=
    if s.uart.inputIdtVector = 0x00 then
      let (vector, idt) := idtAllocateVector s.idt
      { s with idt := idt, uart := { s.uart with inputIdtVector := vector } }
    else s
  let vector := s.uart.inputIdtVector
  let s := { s with idt := idtInstallIrqHandler addr behind vector (handlers .uart) s.idt }
  let s := { s with io := apicIoRedirectIrq gsi (BitVec.ofNat 8 vector.val) false false s.io }
  let s := { s with ports := s.ports.outb (comPortAddr port + comRegisterInterrupt) 0x1 }
  if !s.uart.inputMasked then { s with io := apicIoUnmaskIrq gsi s.io } else s

/-- `serial_select_output_port` -/
def serialSelectOutputPort (port : Nat) (s : State) : State :=
  if port < 1 ∨ port > 8 then s else { s with uart := { s.uart with outputPort := port } }

/-- `serial_write` -/
def serialWrite (text : List (BitVec 8)) (s : State) : State :=
  let s := { s with shell := Shell.cancelPrompt s.shell }
  if s.uart.outputPort = 0 then s else
  let data := comPortAddr s.uart.outputPort + comRegisterData
  { s with
    ports := text.foldl (fun p c => p.outb data c) s.ports
    shell := Shell.replacePrompt s.shell }

/-- A round of the first loop of `serial_console_enable`. The last port's place lies behind
`available_com_ports`: what a write there changes is not known, and nothing is said from there. -/
def probePort (s : State) (i : Nat) : Option State :=
  let (found, ports) := serialCheckPort device i s.ports
  let s := { s with ports := ports }
  if !found then some s
  else if i = 8 then none
  else some { s with
    uart := { s.uart with
      availableComPorts := Function.update s.uart.availableComPorts i true }
    ports := serialConfigurePort device i s.ports }

/-- `serial_console_enable`, where `pmm_alloc_page` gives `uart_shell_start` the page `memory`. -/
def serialConsoleEnable (memory : Nat → BitVec 8) (s : State) : Option State := do
  let s := { s with uart := { s.uart with
    inputMasked := true, inputIdtVector := 0, inputComGsi := 0, inputPort := 0, outputPort := 0 } }
  let s ← (List.range' 1 8).foldlM (probePort device) s
  let s :=
    match (List.range' 1 2).find? s.uart.availableComPorts with
    | some i => serialSelectInputPort addr behind handlers i s
    | none => s
  let s :=
    match (List.range' 1 8).find? s.uart.availableComPorts with
    | some i => serialSelectOutputPort i s
    | none => s
  let s := serialSetInputMasked false s
  let s := serialWrite (ascii "[debug] serial console enabled!\r\n") s
  let s := { s with shell := Shell.shellStart (BitVec.ofNat 16 s.uart.outputPort) memory }
  return serialWrite
    (ascii "[info] no backspace support, re-enter command to resolve typos...\r\n") s

/-- The loop of `__uart_input_irq_handler`. -/
def inputLoop : Nat → State → Option State
  | 0, _ => none
  | fuel + 1, s =>
    let (available, ports) := uartInputDataAvailable device s.uart.inputPort s.ports
    let s := { s with ports := ports }
    if !available then some s else
    let (c, ports) := inb device (comPortAddr s.uart.inputPort + comRegisterData) s.ports
    inputLoop fuel { s with ports := ports, shell := Shell.handleCharacter s.shell c }

/-- `__uart_input_irq_handler` -/
def uartInputIrqHandler (s : State) : Option State :=
  if s.uart.inputMasked then some s else do
  let s ← inputLoop device fuel s
  return s.sendEoi

/-! ### The keyboard -/

/-- `ps2_kbd_sync_leds` -/
def ps2KbdSyncLeds (k : Keyboard) (p : Ports) : Option (Keyboard × Ports) := do
  let leds : BitVec 8 := 0x00
  let leds := if k.scrolllock then leds ||| 1 <<< 0 else leds
  let leds := if k.numlock then leds ||| 1 <<< 1 else leds
  let leds := if k.capslock then leds ||| 1 <<< 2 else leds
  let (_, m, p) ← ps2KbdSendCommand device fuel ps2FuncSetLeds leds k.driver p
  return ({ k with driver := m }, p)

/-- `ps2_kbd_reset_state` -/
def ps2KbdResetState (k : Keyboard) (p : Ports) : Option (Keyboard × Ports) :=
  ps2KbdSyncLeds device fuel { k with capslock := false, numlock := false, scrolllock := false } p

/-- `ps2_kbd_set_mask` -/
def ps2KbdSetMask (mask : Bool) (s : State) : State :=
  let s :=
    if mask then { s with io := apicIoMaskIrq s.kbd.gsi s.io }
    else { s with io := apicIoUnmaskIrq s.kbd.gsi s.io }
  { s with kbd := { s.kbd with driver := { s.kbd.driver with ismasked := mask } } }

/-- What `ps2_kbd_init` says to the port. -/
def ps2KbdStart (k : Keyboard) (p : Ports) : Option (Keyboard × Ports) := do
  let (_, m, p) ← ps2KbdSendCommand device fuel ps2FuncEnable ps2NoOperand k.driver p
  let p := p.outb ps2KbdCommandPort 0xAE
  let (m, p) ← ps2KbdSetScancodes device fuel scancodeSet2 fuel m p
  ps2KbdResetState device fuel { k with driver := m } p

/-- `ps2_kbd_init` -/
def ps2KbdInit (s : State) : Option State :=
  if s.kbd.vector ≠ 0x00 then some s else do
  let (kbd, ports) ← ps2KbdStart device fuel s.kbd s.ports
  let s := { s with kbd := kbd, ports := ports }
  let (vector, idt) := idtAllocateVector s.idt
  let s := { s with idt := idt, kbd := { s.kbd with vector := vector } }
  let s := { s with
    idt := idtInstallIrqHandler addr behind s.kbd.vector (handlers .kbd) s.idt }
  let s := { s with kbd := { s.kbd with gsi := apicIoGetGsi ps2KbdIrqLine s.io } }
  let s := { s with
    io := apicIoRedirectIrq s.kbd.gsi (BitVec.ofNat 8 s.kbd.vector.val) false false s.io }
  let s := ps2KbdSetMask false s
  let m := clearScanBuffer s.kbd.driver
  return { s with kbd := { s.kbd with driver := { m with commanding := false } } }

/-- `ps2_kbd_kill` -/
def ps2KbdKill (s : State) : State :=
  if s.kbd.vector = 0x00 then s else
  let s := ps2KbdSetMask true s
  let s := { s with io := apicIoRedirectIrq s.kbd.gsi 0 false false s.io }
  let s := { s with idt := idtSetDescriptor s.kbd.vector 0x00 0x00 0x00 s.idt }
  let s := { s with idt := idtFreeVector s.kbd.vector s.idt }
  { s with
    kbd := { s.kbd with vector := 0x00, gsi := 0x00 }
    ports := s.ports.outb ps2KbdCommandPort 0xAD }

/-- `__kbd_ps2_irq_handler` -/
def kbdPs2IrqHandler (s : State) : State :=
  if !validateState s.kbd.driver || s.kbd.driver.commanding then
    let s := ps2KbdSetMask true s
    let s :=
      if !s.kbd.driver.commanding then
        { s with ports := (inb device ps2KbdDataPort s.ports).2 }
      else s
    s.sendEoi
  else
    let (byte, ports) := inb device ps2KbdDataPort s.ports
    let s := { s with
      ports := ports
      kbd := { s.kbd with driver := Ps2.irqHandler s.kbd.driver byte } }
    s.sendEoi

/-! ### The timers -/

/-- The state as `Iodev.Pit` has it. -/
def State.toPit (s : State) : Pit.State :=
  ⟨s.pit.pitVector, s.pit.pitDivisor, s.pit.gsi, s.idt, s.io, s.ports.written⟩

def State.ofPit (s : State) (t : Pit.State) : State :=
  { s with
    idt := t.idt
    io := t.io
    ports := { s.ports with written := t.written }
    pit := { s.pit with pitVector := t.pitVector, pitDivisor := t.pitDivisor, gsi := t.gsi } }

/-- `pit_enable` -/
def pitEnable (s : State) : State :=
  s.ofPit (Pit.pitEnable addr behind (handlers .pit) s.toPit)

/-- `pit_disable` -/
def pitDisable (s : State) : State := s.ofPit (Pit.pitDisable s.toPit)

/-- `__pit_builtin_handler` -/
def pitBuiltinHandler (s : State) : State :=
  let s :=
    if s.pit.watching then
      { s with pit := { s.pit with ticks := s.pit.ticks + s.pit.pitDivisor.setWidth 64 } }
    else s
  s.sendEoi

def pitFrequency : BitVec 64 := 1193182

/-- `LOCAL_TIMER_DIVISOR_001` -/
def localTimerDivisor001 : BitVec 32 := 0b1011

/-- `local_timer_set_handler` -/
def localTimerSetHandler (handler : Word) (s : State) : State :=
  { s with idt := idtInstallIrqHandler addr behind s.timer.vector handler s.idt }

/-- `local_timer_set_frequency` -/
def localTimerSetFrequency (hz : BitVec 64) (s : State) : State :=
  if hz = 0 then s.write .initialCount 0 else
  let countsPerTick := (s.timer.tpms * 1000) / hz
  s.write .initialCount (countsPerTick.setWidth 32)

/-- `local_timer_calibrate` to its call of `pit_enable`. -/
def localTimerArm (s : State) : State :=
  let s := s.write .divideConfig localTimerDivisor001
  let lvtDescriptor : BitVec 32 := 0x00000000 ||| 0x01 <<< 17
  let (vector, idt) := idtAllocateVector s.idt
  let s := { s with idt := idt, timer := { s.timer with vector := vector } }
  let lvtDescriptor := lvtDescriptor ||| BitVec.ofNat 32 s.timer.vector.val
  let s := s.write .lvtTimer lvtDescriptor
  let s := s.write .initialCount 0xFFFFFFFF
  localTimerSetHandler addr behind (handlers .timer) s

/-- `local_timer_calibrate` to the loop of `pit_deadline_wait`. -/
def localTimerCalibrate (s : State) : State :=
  let s := localTimerArm addr behind handlers s
  let s := pitEnable addr behind handlers s
  { s with pit := { s.pit with ticks := 0, watching := true } }

/-- The test of the loop of `pit_deadline_wait`. -/
def deadlineOver (s : State) : Bool := pitFrequency / 1000 ≤ s.pit.ticks

/-- `local_timer_calibrate` behind that loop, where `APIC_LOCAL_REGISTER_CURRENT_COUNT` reads as
`count`. -/
def localTimerCalibrated (count : BitVec 32) (s : State) : State :=
  let s := { s with pit := { s.pit with watching := false } }
  let s := { s with timer := { s.timer with tpms := (0xFFFFFFFF - count).setWidth 64 } }
  let s := pitDisable s
  let s := { s with timer := { s.timer with calibrated := true } }
  localTimerSetFrequency 50 s

/-- `__local_timer_builtin_handler`, where no task runs. -/
def localTimerBuiltinHandler (s : State) : State := s.sendEoi

/-- What runs at the address of a handler. -/
def handle : Driver → State → Option State
  | .uart, s => uartInputIrqHandler device fuel s
  | .pit, s => some (pitBuiltinHandler s)
  | .kbd, s => some (kbdPs2IrqHandler device s)
  | .timer, s => some (localTimerBuiltinHandler s)

end

end Skylight.Drivers
