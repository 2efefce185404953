import Skylight.Laws.Cpu.Idt
import Skylight.Laws.Iodev.Madt
import Skylight.Laws.Iodev.Ps2
import Skylight.Laws.Iodev.Setup

/-!
# Interrupts while the kernel boots

The boot code sets the drivers up while interrupts come. At any time an interrupt that can come runs
the handler of the driver whose line it is on, and none returns without `apic_local_send_eoi`.

`interrupts_served` is about every run of the calls that the boot code makes, in the order that
it may make them, with exceptions and interrupts in between. It begins with the controllers
masked, as they are after a reset. The step law is `World.Kept.after`, with one case for each
call; the laws of the calls are in `Laws.Iodev.Setup`, those of the tables they write in
`Laws.Iodev.Routing`. An interrupt is one step here: that the stub brings it back is the subject
of `Laws.Cpu.Irq`.
-/

namespace Skylight.Drivers

open X86 (Word)
open Cpu (Vector Symbol)
open Apic
open Idt

/-- The byte of an entry as a vector. -/
def vectorAt (x : BitVec 8) : Vector := ⟨x.toNat, x.isLt⟩

def drivers : List Driver := [.uart, .pit, .kbd, .timer]

/-- The drivers, whether `serial_console_enable` and `local_timer_calibrate` were called, which
`limine.s` calls once, and whether the latter is in the loop of `pit_deadline_wait`. -/
structure World where
  state : State
  consoled : Bool
  calibrated : Bool
  waiting : Bool

/-- A call of the boot code, an exception, an interrupt on a line or one of the local timer. -/
inductive Op
  | serialConsoleEnable (memory : Nat → BitVec 8)
  | localTimerCalibrate
  | deadline (count : BitVec 32)
  | hidEnableKeyboardInterrupts
  | ps2KbdKill
  | exception
  | interrupt (irq : BitVec 8)
  | tick

section
variable (addr : Symbol → Word) (behind : Vector → Word) (handlers : Driver → Word)
  (device : Device) (fuel : Nat)

/-- Whose handler runs when a vector comes: its descriptor leads to a stub, which calls through the
entry of `__routine_handlers` that is its own. -/
def Routing.target (r : Routing) (vector : BitVec 8) : Option Driver := do
  let stub ← irqStubs.find? fun v => addr (.irqStub v) == (r.idt.idt (vectorAt vector)).isr
  drivers.find? fun d => handlers d == r.idt.routineHandlers stub

def deliver (vector : BitVec 8) (w : World) : Option World := do
  let d ← w.state.routing.target addr handlers vector
  let s ← handle device fuel d w.state
  return { w with state := s }

/-- One step. A line that is masked does not interrupt, and in the loop only interrupts and
exceptions happen. -/
def step (w : World) : Op → Option World
  | .serialConsoleEnable memory =>
    if w.consoled || w.waiting then none else do
    let s ← serialConsoleEnable addr behind handlers device memory w.state
    return { w with state := s, consoled := true }
  | .localTimerCalibrate =>
    if w.calibrated || w.waiting then none else
    some { w with
      state := localTimerCalibrate addr behind handlers w.state
      calibrated := true
      waiting := true }
  | .deadline count =>
    if w.waiting && deadlineOver w.state then
      some { w with state := localTimerCalibrated count w.state, waiting := false }
    else none
  | .hidEnableKeyboardInterrupts =>
    if w.waiting then none else do
    let s ← ps2KbdInit addr behind handlers device fuel w.state
    return { w with state := s }
  | .ps2KbdKill => if w.waiting then none else some { w with state := ps2KbdKill w.state }
  | .exception => some { w with state := serialSetInputMasked true w.state }
  | .interrupt irq =>
    if w.state.io.masked irq then none
    else deliver addr handlers device fuel (w.state.io.vector irq) w
  | .tick =>
    if w.state.routing.lvtMasked then none
    else deliver addr handlers device fuel ((w.state.lapic .lvtTimer &&& 0xFF).setWidth 8) w

/-- What should be at any time: the exceptions have their descriptors, no two drivers have one
vector, and an interrupt runs the handler of the driver that serves its line, which writes one end
of interrupt if it returns. -/
structure Served (start : Idt.State) (w : World) : Prop where
  exceptions : ∀ v ∈ exceptions, w.state.idt.vectors v = true ∧ w.state.idt.idt v = start.idt v
  apart : ∀ d e, w.state.vectorOf d = w.state.vectorOf e → w.state.vectorOf d ≠ 0 → d = e
  lines : ∀ irq, w.state.io.masked irq = false → ∃ d, w.state.routing.Serves d irq ∧
    step addr behind handlers device fuel w (.interrupt irq) =
      (handle device fuel d w.state).map (fun s => { w with state := s }) ∧
    ∀ s, handle device fuel d w.state = some s → s.eois = w.state.eois + 1
  tick : w.state.routing.lvtMasked = false → ∃ s,
    step addr behind handlers device fuel w .tick = some { w with state := s } ∧
      handle device fuel .timer w.state = some s ∧ s.eois = w.state.eois + 1

/-- The invariant of a run. -/
structure World.Kept (start : Idt.State) (wired : BitVec 8 → BitVec 8) (w : World) : Prop where
  routing : w.state.routing.Kept addr handlers start wired
  console : w.consoled = false → w.state.routing.vectorOf .uart = 0
  calibrate : w.calibrated = false → w.state.routing.vectorOf .pit = 0 ∧
    w.state.routing.vectorOf .timer = 0 ∧ w.state.routing.pitGsi = 0xFF
  waits : w.waiting = true → w.calibrated = true ∧ w.state.routing.vectorOf .pit ≠ 0

/-- The drivers behind `idt_assemble` and `apic_initialize`, before anything was set up. -/
structure Boots (base : Word) (io : IoApic) (s : State) : Prop where
  idt : s.idt = idtAssemble addr behind base .boot
  io : s.io = io
  vectors : ∀ d, s.vectorOf d = 0
  console : s.uart.inputComGsi = 0
  gsi : s.pit.gsi = 0xFF
  lvt : s.routing.lvtMasked = true

end

section
variable {addr : Symbol → Word} {handlers : Driver → Word} {behind : Vector → Word}
  {device : Device} {fuel : Nat} {start : Idt.State} {wired : BitVec 8 → BitVec 8} {r : Routing}
    {s s' : State} {d : Driver}
  {irq : BitVec 8}
  {k k' : Keyboard} {p p' : Ports} {memory : Nat → BitVec 8}

/-! ### Interrupts -/

/-- A vector is read back from its byte. -/
theorem vectorAt_ofNat (v : Vector) : vectorAt (BitVec.ofNat 8 v.val) = v := by
  apply Fin.ext
  show (BitVec.ofNat 8 v.val).toNat = v.val
  rw [BitVec.toNat_ofNat]
  exact Nat.mod_eq_of_lt v.isLt

/-- What is found is the only one there is. -/
theorem find_only {α : Type} {q : α → Bool} {l : List α} {a : α} (mem : a ∈ l) (holds : q a = true)
    (only : ∀ b ∈ l, q b = true → b = a) : l.find? q = some a := by
  cases found : l.find? q with
  | none => exact absurd holds (List.find?_eq_none.mp found a mem)
  | some b =>
    rw [only b (List.mem_of_find?_eq_some found) (List.find?_some found)]

/-- An interrupt on an installed vector comes to the driver. -/
theorem target_of_installed {v : Vector} {vector : BitVec 8}
    (linked : Linked addr handlers) (h : Installed addr handlers r.idt v d)
    (at_ : vector = BitVec.ofNat 8 v.val) : r.target addr handlers vector = some d := by
  have stub : irqStubs.find? (fun u => addr (.irqStub u) == (r.idt.idt (vectorAt vector)).isr) =
      some v := by
    rw [at_, vectorAt_ofNat, h.isr]
    refine find_only h.stub (beq_self_eq_true _) fun u mem same => ?_
    exact linked.stubs mem h.stub (beq_iff_eq.mp same)
  have driver : drivers.find? (fun e => handlers e == r.idt.routineHandlers v) = some d := by
    rw [h.handler]
    refine find_only (by cases d <;> decide) (beq_self_eq_true _) fun e _ same => ?_
    exact linked.handlers (beq_iff_eq.mp same)
  rw [Routing.target, stub]
  exact driver

/-- An interrupt on a vector runs its driver's handler. -/
theorem deliver_target {vector : BitVec 8} {w : World}
    (target : w.state.routing.target addr handlers vector = some d) :
    deliver addr handlers device fuel vector w =
      (handle device fuel d w.state).map fun s => { w with state := s } := by
  rw [deliver, target, Option.map_eq_bind]
  rfl

section
variable {w w' : World} {ops : List Op}

/-- An unmasked line interrupts its driver. -/
theorem World.Kept.interrupt (h : World.Kept addr handlers start wired w)
    (linked : Linked addr handlers) (unmasked : w.state.io.masked irq = false) :
    ∃ d, w.state.routing.Serves d irq ∧
      step addr behind handlers device fuel w (.interrupt irq) =
        (handle device fuel d w.state).map fun s => { w with state := s } := by
  obtain ⟨d, serves⟩ := h.routing.lines irq unmasked
  refine ⟨d, serves, ?_⟩
  unfold step
  dsimp only
  rw [unmasked, if_neg (by decide)]
  exact deliver_target (target_of_installed linked (h.routing.installed d serves.some)
    serves.vector)

/-- The local timer runs its handler, while it is not masked. -/
theorem World.Kept.tick (h : World.Kept addr handlers start wired w)
    (linked : Linked addr handlers) (unmasked : w.state.routing.lvtMasked = false) :
    step addr behind handlers device fuel w .tick =
      some { w with state := localTimerBuiltinHandler w.state } := by
  obtain ⟨some, at_⟩ := h.routing.timer unmasked
  unfold step
  dsimp only
  rw [unmasked, if_neg (by decide)]
  exact deliver_target (d := .timer)
    (target_of_installed linked (h.routing.installed .timer some) at_)

/-- What the invariant says is what should be. -/
theorem World.Kept.served (h : World.Kept addr handlers start wired w)
    (linked : Linked addr handlers) :
    Served addr behind handlers device fuel start w where
  exceptions v low := ⟨(h.routing.owned.used_iff v).mpr (Or.inl low), h.routing.exceptions v low⟩
  apart d e same some := by
    refine h.routing.owned.apart d e same (Nat.not_lt.mpr ?_)
    exact (mem_irqStubs.mp (h.routing.installed d some).stub).1
  lines irq unmasked := by
    obtain ⟨d, serves, next⟩ := h.interrupt linked unmasked
    refine ⟨d, serves, next, fun s run => handle_eois (fun mine => ?_) run⟩
    exact (serves.console mine).2.2
  tick unmasked := ⟨_, h.tick linked unmasked, rfl, rfl⟩

/-- What leaves the console and the timers alone leaves the rest of the invariant. -/
theorem World.Kept.keep (h : World.Kept addr handlers start wired w)
    (kept : s'.routing.Kept addr handlers start wired)
    (others : ∀ d, d ≠ .kbd → s'.routing.vectorOf d = w.state.routing.vectorOf d)
    (gsi : s'.routing.pitGsi = w.state.routing.pitGsi) :
    World.Kept addr handlers start wired { w with state := s' } where
  routing := kept
  console new := (others _ (by decide)).trans (h.console new)
  calibrate new := by
    obtain ⟨noPit, noTimer, first⟩ := h.calibrate new
    exact ⟨(others _ (by decide)).trans noPit, (others _ (by decide)).trans noTimer,
      gsi.trans first⟩
  waits on := by
    obtain ⟨called, some⟩ := h.waits on
    exact ⟨called, fun none => some ((others _ (by decide)).symm.trans none)⟩

/-- One step keeps the invariant: every vector belongs to one driver, and every line is put on its
driver's vector. There is a case for each call, and the laws of `Laws.Iodev.Setup` answer them. -/
theorem World.Kept.after {op : Op} (h : World.Kept addr handlers start wired w)
    (linked : Linked addr handlers)
    (run : step addr behind handlers device fuel w op = some w') :
    World.Kept addr handlers start wired w' := by
  cases op with
  | serialConsoleEnable memory =>
    unfold step at run
    dsimp only at run
    split_ifs at run with refused
    obtain ⟨fresh, running⟩ := Bool.or_eq_false_iff.mp (Bool.not_eq_true _ ▸ refused)
    obtain ⟨s, called, done⟩ := Option.bind_eq_some_iff.mp run
    obtain rfl := Option.some.inj done
    obtain ⟨kept, others, gsi⟩ := serialConsoleEnable_kept h.routing (h.console fresh) called
    refine ⟨kept, nofun, fun new => ?_, fun on => ?_⟩
    · obtain ⟨noPit, noTimer, first⟩ := h.calibrate new
      exact ⟨(others _ (by decide)).trans noPit, (others _ (by decide)).trans noTimer,
        gsi.trans first⟩
    · rw [running] at on
      cases on
  | localTimerCalibrate =>
    unfold step at run
    dsimp only at run
    split_ifs at run with refused
    obtain ⟨fresh, -⟩ := Bool.or_eq_false_iff.mp (Bool.not_eq_true _ ▸ refused)
    obtain rfl := Option.some.inj run
    obtain ⟨noPit, noTimer, first⟩ := h.calibrate fresh
    obtain ⟨kept, some, others⟩ :=
      localTimerCalibrate_kept behind h.routing first noPit noTimer
    refine ⟨kept, fun new => ?_, nofun, fun _ => ⟨rfl, some⟩⟩
    exact (others _ (by decide) (by decide)).trans (h.console new)
  | deadline count =>
    unfold step at run
    dsimp only at run
    split_ifs at run with allowed
    obtain ⟨waiting, -⟩ := Bool.and_eq_true_iff.mp allowed
    obtain rfl := Option.some.inj run
    obtain ⟨called, some⟩ := h.waits waiting
    obtain ⟨kept, others⟩ := localTimerCalibrated_kept count h.routing some
    refine ⟨kept, fun new => ?_, fun new => ?_, nofun⟩
    · exact (others _ (by decide)).trans (h.console new)
    · rw [show w.calibrated = false from new] at called
      cases called
  | hidEnableKeyboardInterrupts =>
    unfold step at run
    dsimp only at run
    split_ifs at run with refused
    obtain ⟨s, called, done⟩ := Option.bind_eq_some_iff.mp run
    obtain rfl := Option.some.inj done
    obtain ⟨kept, others, gsi⟩ := ps2KbdInit_kept h.routing called
    exact h.keep kept others gsi
  | ps2KbdKill =>
    unfold step at run
    dsimp only at run
    split_ifs at run with refused
    obtain rfl := Option.some.inj run
    obtain ⟨kept, others, gsi⟩ := ps2KbdKill_kept h.routing
    exact h.keep kept others gsi
  | exception =>
    obtain rfl := Option.some.inj run
    have kept := h.routing.setInputMasked
    rw [← serialSetInputMasked_routing] at kept
    refine h.keep kept (fun d _ => ?_) ?_
    all_goals
      rw [serialSetInputMasked_routing]
      rfl
  | interrupt irq =>
    by_cases unmasked : w.state.io.masked irq = false
    · obtain ⟨d, -, next⟩ := h.interrupt linked unmasked
      rw [next] at run
      obtain ⟨s, returned, rfl⟩ := Option.map_eq_some_iff.mp run
      obtain ⟨kept, same, gsi⟩ := handle_kept h.routing returned
      exact h.keep kept (fun d _ => congrFun same d) gsi
    · unfold step at run
      dsimp only at run
      rw [if_pos (Bool.not_eq_false _ ▸ unmasked)] at run
      cases run
  | tick =>
    by_cases unmasked : w.state.routing.lvtMasked = false
    · rw [h.tick linked unmasked] at run
      obtain rfl := Option.some.inj run
      exact h.keep h.routing (fun _ _ => rfl) rfl
    · unfold step at run
      dsimp only at run
      rw [if_pos (Bool.not_eq_false _ ▸ unmasked)] at run
      cases run

/-- A run keeps the invariant. -/
theorem World.Kept.run (h : World.Kept addr handlers start wired w) (linked : Linked addr handlers)
    (run : ops.foldlM (step addr behind handlers device fuel) w = some w') :
    World.Kept addr handlers start wired w' := by
  induction ops generalizing w with
  | nil =>
    obtain rfl := Option.some.inj run
    exact h
  | cons op ops ih =>
    rw [List.foldlM_cons] at run
    obtain ⟨w₁, first, rest⟩ := Option.bind_eq_some_iff.mp run
    exact ih (h.after linked first) rest

end

/-! ### Runs -/

/-- It holds behind `apic_initialize`. -/
theorem Boots.kept {base : Word} {io : IoApic} (boots : Boots addr behind base io s)
    (masked : ∀ irq, io.masked irq = true) :
    World.Kept addr handlers (idtAssemble addr behind base .boot) io.gsiMap
      ⟨s, false, false, false⟩ where
  routing := by
    refine ⟨⟨fun v => ?_, fun c d _ high => ?_⟩, fun d some => ?_, fun v _ => ?_,
      fun irq unmasked => ?_, fun unmasked => ?_, ?_, Or.inl boots.console⟩
    · show s.idt.vectors v = true ↔ _
      rw [boots.idt, idtAssemble_vectors]
      refine (or_iff_left_of_imp ?_).symm
      rintro ⟨d, rfl⟩
      show s.vectorOf d ∈ _
      rw [boots.vectors]
      exact zero_exception
    · exact absurd (show s.vectorOf c ∈ _ from (boots.vectors c).symm ▸ zero_exception) high
    · exact absurd (boots.vectors d) some
    · show s.idt.idt v = _
      rw [boots.idt]
    · have closed := masked irq
      rw [← boots.io] at closed
      rw [show s.io.masked irq = false from unmasked] at closed
      cases closed
    · rw [boots.lvt] at unmasked
      cases unmasked
    · show s.io.gsiMap = _
      rw [boots.io]
  console _ := boots.vectors .uart
  calibrate _ := ⟨boots.vectors .pit, boots.vectors .timer, boots.gsi⟩
  waits no := by cases no

end

/-- Behind `apic_initialize`, at any time of any run of the boot code with interrupts and exceptions
in between, every interrupt that can come is served by the driver of its line. -/
theorem interrupts_served (addr : Symbol → Word) (behind : Vector → Word)
    (handlers : Driver → Word) (device : Device) (fuel n : Nat) (base : Word) (mem : Acpi.Bytes)
    (madt : Paging.Addr) (io₀ io : IoApic) (s : State) (ops : List Op) (w : World)
    (linked : Linked addr handlers) (reset : ∀ irq, io₀.masked irq = true)
    (configured : configureIoApic mem madt n io₀ = some io) (boots : Boots addr behind base io s)
    (run : ops.foldlM (step addr behind handlers device fuel) ⟨s, false, false, false⟩ = some w) :
    Served addr behind handlers device fuel (idtAssemble addr behind base .boot) w := by
  have kept : World.Kept addr handlers _ _ ⟨s, false, false, false⟩ :=
    boots.kept (configureIoApic_masked reset configured)
  exact (kept.run linked run).served linked

/-! ### A machine that boots -/

/-- An I/O APIC after a reset: every line is masked. -/
def resetIoApic : IoApic := ⟨[], fun _ => 0x10000, fun _ => 0⟩

/-- One serial port that nothing is typed on, and a keyboard that names its set at once. -/
def machineDevice : Device := fun _ port =>
  if port = 0x3FF then 0xAF else if port = ps2KbdDataPort then scancodeSet2 else 0

def machineHandlers : Driver → Word
  | .uart => 0x5000
  | .pit => 0x5100
  | .kbd => 0x5200
  | .timer => 0x5300

/-- The drivers before anything was set up. -/
def machineState (io : IoApic) : State where
  idt := idtAssemble linked (fun _ => 0) 0 .boot
  io := io
  lapic _ := 0x10000
  eois := 0
  ports := ⟨[], 0⟩
  uart := ⟨fun _ => false, false, 0, 0, 0, 0⟩
  shell := ⟨false, 0, fun _ => 0, 0, []⟩
  kbd := ⟨0, 0, false, false, false, Ps2.listeningDriver⟩
  pit := ⟨0, 0, 0, false, 0xFF⟩
  timer := ⟨0, false, 0⟩

/-- The console interrupts, the timer is calibrated while the other one ticks 150 times, and behind
it the local timer and the keyboard interrupt. -/
def machineOps : List Op :=
  [.serialConsoleEnable fun _ => 0, .interrupt 4, .localTimerCalibrate] ++
    List.replicate 150 (.interrupt 0) ++
    [.deadline 0xFFFF0000, .tick, .hidEnableKeyboardInterrupts, .interrupt 1]

/-- Stubs and handlers have addresses of their own. -/
theorem machine_linked : Linked linked machineHandlers where
  stubs := by
    intro v mem w mem' same
    revert v w
    decide +kernel
  handlers := by
    intro d e same
    revert d e
    decide +kernel

/-- The controller of the machine is configured. -/
theorem machine_configured : (configureIoApic oneMadt 0 57 resetIoApic).isSome := by
  decide +kernel

def machineIo : IoApic := (configureIoApic oneMadt 0 57 resetIoApic).get machine_configured

/-- What the machine has done when all three drivers run. -/
def machineRun : Option World :=
  machineOps.foldlM (step linked (fun _ => 0) machineHandlers machineDevice 10)
    ⟨machineState machineIo, false, false, false⟩

/-- The machine gets through its calls. -/
theorem machine_run : machineRun.isSome := by decide +kernel

/-- The machine takes 153 interrupts, and then the lines of the console and of the keyboard and the
local timer can interrupt it. -/
theorem interrupts_served_machine : ∃ w, machineRun = some w ∧ w.state.eois = 153 ∧
    w.state.io.masked 1 = false ∧ w.state.io.masked 4 = false ∧
    w.state.routing.lvtMasked = false ∧
    Served linked (fun _ => 0) machineHandlers machineDevice 10
      (idtAssemble linked (fun _ => 0) 0 .boot) w := by
  have boots : Boots linked (fun _ => 0) 0 machineIo (machineState machineIo) :=
    ⟨rfl, rfl, by intro d; cases d <;> rfl, rfl, rfl, by decide +kernel⟩
  have run : machineRun = some (machineRun.get machine_run) := (Option.some_get _).symm
  refine ⟨machineRun.get machine_run, run, by decide +kernel, by decide +kernel,
    by decide +kernel, by decide +kernel, ?_⟩
  exact interrupts_served linked (fun _ => 0) machineHandlers machineDevice 10 57 0 oneMadt 0
    resetIoApic machineIo _ machineOps _ machine_linked (fun irq => by revert irq; decide +kernel)
    (Option.some_get machine_configured).symm boots run

end Skylight.Drivers
