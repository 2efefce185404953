import Skylight.Laws.Iodev.Routing

/-!
# Setting the drivers up

What the functions of the drivers do to the routing, and that they keep it. Most of what they
do, which is to talk to ports, does nothing to it.

For each function there are two laws: one that reads its effect on the routing off the source
(`ps2KbdInit_routing`, `pitEnable_routing`, `localTimerArm_routing`), and one that says that
`Routing.Kept` holds behind it (`ps2KbdInit_kept`, `pitEnable_kept`,
`localTimerCalibrate_kept`). The second uses the first and the edits of `Laws.Iodev.Routing`,
and never looks at the source. The conditions are those under which the boot code makes the
call, such as a timer that was not enabled yet; what another order would do is in
`Laws.Iodev.Pit` for the one driver where it matters.
-/

namespace Skylight.Drivers

open X86 (Word)
open Cpu (Vector Symbol)
open Apic
open Idt

section
variable {addr : Symbol → Word} {handlers : Driver → Word} {behind : Vector → Word}
  {device : Device} {fuel : Nat} {start : Idt.State} {wired : BitVec 8 → BitVec 8} {r : Routing}
    {s s' : State} {d : Driver}
  {irq : BitVec 8}
  {k k' : Keyboard} {p p' : Ports} {memory : Nat → BitVec 8}

/-! ### The console -/

/-- The console's line is masked or not. -/
theorem serialSetInputMasked_routing (masked : Bool) :
    (serialSetInputMasked masked s).routing = s.routing.setInputMasked masked := by
  unfold serialSetInputMasked Routing.setInputMasked
  dsimp only
  by_cases zero : s.uart.inputComGsi = 0
  · rw [if_neg (not_not.mpr zero), if_pos (show s.routing.inputComGsi = 0 from zero)]
    rfl
  · rw [if_pos zero, if_neg (show ¬ s.routing.inputComGsi = 0 from zero)]
    cases masked
    all_goals rfl

/-- Probing a port changes nothing. -/
theorem probePort_routing {i : Nat} (run : probePort device s i = some s') :
    s'.routing = s.routing := by
  unfold probePort at run
  dsimp only at run
  split_ifs at run
  all_goals
    obtain rfl := Option.some.inj run
    rfl

/-- Nor does probing all of them. -/
theorem probePorts_routing {l : List Nat} (run : l.foldlM (probePort device) s = some s') :
    s'.routing = s.routing := by
  induction l generalizing s with
  | nil =>
    obtain rfl := Option.some.inj run
    rfl
  | cons i l ih =>
    rw [List.foldlM_cons] at run
    obtain ⟨s₁, first, rest⟩ := Option.bind_eq_some_iff.mp run
    exact (ih rest).trans (probePort_routing first)

/-- Nor does writing. -/
theorem serialWrite_routing {text : List (BitVec 8)} :
    (serialWrite text s).routing = s.routing := by
  unfold serialWrite
  dsimp only
  split_ifs
  all_goals rfl

/-- An input port takes a vector and a line. -/
theorem serialSelectInputPort_routing {port : Nat} (inside : port = 1 ∨ port = 2)
    (none : s.uart.inputIdtVector = 0) (masked : s.uart.inputMasked = true) :
    (serialSelectInputPort addr behind handlers port s).routing =
      s.routing.selectInput addr handlers behind
        (if port = 1 then serialCom1Irq else serialCom2Irq) := by
  unfold serialSelectInputPort
  dsimp only
  rw [if_neg (by omega), if_pos none, masked, if_neg (by decide)]
  unfold Routing.selectInput Routing.enlist State.routing
  dsimp only
  congr 1
  · funext d
    cases d
    all_goals rfl
  · exact masked.symm

/-- The output port and what is written to it change nothing. -/
theorem console_routing (found : Option Nat) (text text' : List (BitVec 8)) (shell : Shell.State) :
    let s' := match found with
      | some i => serialSelectOutputPort i s
      | none => s
    (serialWrite text' { serialWrite text (serialSetInputMasked false s') with
      shell := shell }).routing = (serialSetInputMasked false s).routing := by
  dsimp only
  rw [serialWrite_routing]
  show (serialWrite text _).routing = _
  rw [serialWrite_routing]
  cases found with
  | none => rfl
  | some i =>
    dsimp only
    unfold serialSelectOutputPort
    split_ifs
    · rfl
    · rw [serialSetInputMasked_routing, serialSetInputMasked_routing]
      rfl

/-- What `serial_console_enable` does when the ports are probed. -/
theorem serialConsoleEnable_probed
    (run : serialConsoleEnable addr behind handlers device memory s = some s') :
    ∃ s₁, s₁.routing = { s.routing with
        inputMasked := true, inputComGsi := 0, vectorOf := Function.update s.vectorOf .uart 0 } ∧
      ((∃ port, (port = 1 ∨ port = 2) ∧ s'.routing =
          (serialSetInputMasked false
            (serialSelectInputPort addr behind handlers port s₁)).routing) ∨
        s'.routing = (serialSetInputMasked false s₁).routing) := by
  unfold serialConsoleEnable at run
  obtain ⟨s₁, probed, rest⟩ := Option.bind_eq_some_iff.mp run
  obtain rfl := Option.some.inj rest
  refine ⟨s₁, (probePorts_routing probed).trans ?_, ?_⟩
  · unfold State.routing
    dsimp only
    congr 1
    funext d
    cases d
    all_goals rfl
  cases found : (List.range' 1 2).find? s₁.uart.availableComPorts with
  | none => exact Or.inr (console_routing ..)
  | some port =>
    have mem := List.mem_of_find?_eq_some found
    simp only [List.mem_range'_1] at mem
    exact Or.inl ⟨port, by omega, console_routing ..⟩

/-- `serial_console_enable` keeps it, and leaves the other drivers alone. -/
theorem serialConsoleEnable_kept (h : s.routing.Kept addr handlers start wired)
    (none : s.uart.inputIdtVector = 0)
    (run : serialConsoleEnable addr behind handlers device memory s = some s') :
    s'.routing.Kept addr handlers start wired ∧
      (∀ d, d ≠ .uart → s'.routing.vectorOf d = s.routing.vectorOf d) ∧
      s'.routing.pitGsi = s.routing.pitGsi := by
  obtain ⟨s₁, first, routed⟩ := serialConsoleEnable_probed run
  have vectors : Function.update s.vectorOf .uart 0 = s.vectorOf := by
    rw [← none]
    exact Function.update_eq_self ..
  rw [vectors] at first
  have unserved (irq) : ¬ s.routing.Serves .uart irq := fun serves => serves.some none
  have h₁ : s₁.routing.Kept addr handlers start wired := by
    rw [first]
    exact h.find (fun irq _ => unserved irq) true (Or.inl rfl)
  have gsi : s₁.routing.inputComGsi = 0 := congrArg Routing.inputComGsi first
  have pitGsi : s₁.routing.pitGsi = s.routing.pitGsi := by rw [first]
  have masked : s₁.uart.inputMasked = true := congrArg Routing.inputMasked first
  have none₁ : s₁.uart.inputIdtVector = 0 :=
    (congrFun (congrArg Routing.vectorOf first) .uart).trans none
  rcases routed with ⟨port, inside, routed⟩ | routed
  · rw [serialSetInputMasked_routing, serialSelectInputPort_routing inside none₁ masked] at routed
    have own : (if port = 1 then serialCom1Irq else serialCom2Irq) ∈ irqLines .uart := by
      rcases inside with rfl | rfl
      all_goals decide
    rw [routed]
    refine ⟨h₁.selectInput none₁ masked own, fun d other => ?_, pitGsi⟩
    exact (Function.update_of_ne other ..).trans (congrFun (congrArg Routing.vectorOf first) d)
  · rw [serialSetInputMasked_routing] at routed
    rw [routed]
    refine ⟨?_, fun d _ => congrFun (congrArg Routing.vectorOf first) d, pitGsi⟩
    unfold Routing.setInputMasked
    rw [if_pos gsi]
    exact h₁.find (fun irq _ serves => serves.some none₁) false h₁.console

/-! ### The keyboard -/

/-- The keyboard takes a vector, its handler is put there, and its line is put on it. Nothing else
of the routing changes. -/
theorem ps2KbdInit_routing (none : s.kbd.vector = 0)
    (run : ps2KbdInit addr behind handlers device fuel s = some s') :
    s'.routing =
      let r := s.routing.enlist addr handlers behind .kbd
      let gsi := apicIoGetGsi ps2KbdIrqLine r.io
      { r with
        kbdGsi := gsi
        io := apicIoUnmaskIrq gsi
          (apicIoRedirectIrq gsi (BitVec.ofNat 8 (r.vectorOf .kbd).val) false false r.io) } := by
  unfold ps2KbdInit at run
  rw [if_neg (not_not.mpr none)] at run
  obtain ⟨⟨k, p⟩, started, rest⟩ := Option.bind_eq_some_iff.mp run
  obtain rfl := Option.some.inj rest
  unfold Routing.enlist State.routing
  dsimp only
  congr 1
  funext d
  cases d
  all_goals rfl

/-- So the routing is kept, the keyboard has a vector, and the other drivers are left alone. -/
theorem ps2KbdInit_kept (h : s.routing.Kept addr handlers start wired)
    (run : ps2KbdInit addr behind handlers device fuel s = some s') :
    s'.routing.Kept addr handlers start wired ∧
      (∀ d, d ≠ .kbd → s'.routing.vectorOf d = s.routing.vectorOf d) ∧
      s'.routing.pitGsi = s.routing.pitGsi := by
  by_cases none : s.kbd.vector = 0
  · rw [ps2KbdInit_routing none run]
    refine ⟨?_, fun d other => Function.update_of_ne other .., rfl⟩
    have unserved (irq) : ¬ s.routing.Serves .kbd irq := fun serves => serves.some none
    have h₁ := h.keyboard (fun irq _ => unserved irq) (apicIoGetGsi ps2KbdIrqLine s.io)
    obtain ⟨h₂, some⟩ := h₁.enlist behind (d := .kbd) none
    refine h₂.connect some ⟨ps2KbdIrqLine, by decide, rfl⟩ false false ?_ ?_
    · intro no
      cases no
    · intro _
      rfl
  · unfold ps2KbdInit at run
    rw [if_pos none] at run
    obtain rfl := Option.some.inj run
    exact ⟨h, fun _ _ => rfl, rfl⟩

/-- A descriptor that is cleared is cleared once. -/
theorem idtFreeVector_set (v : Vector) (t : Idt.State) :
    idtFreeVector v (idtSetDescriptor v 0 0 0 t) = idtFreeVector v t := by
  unfold idtFreeVector idtSetDescriptor
  dsimp only
  rw [Function.update_idem]

/-- The keyboard's line is masked, and it gives its vector back. -/
theorem ps2KbdKill_routing (some : s.kbd.vector ≠ 0) :
    (ps2KbdKill s).routing =
      { { s.routing with
          io := apicIoRedirectIrq s.kbd.gsi 0 false false (apicIoMaskIrq s.kbd.gsi s.io)
        }.dismiss .kbd with kbdGsi := 0 } := by
  unfold ps2KbdKill Routing.dismiss State.routing
  rw [if_neg some]
  dsimp only [ps2KbdSetMask]
  rw [if_pos rfl]
  dsimp only
  rw [idtFreeVector_set]
  congr 1
  funext d
  cases d
  all_goals rfl

/-- So it is kept. -/
theorem ps2KbdKill_kept (h : s.routing.Kept addr handlers start wired) :
    (ps2KbdKill s).routing.Kept addr handlers start wired ∧
      (∀ d, d ≠ .kbd → (ps2KbdKill s).routing.vectorOf d = s.routing.vectorOf d) ∧
      (ps2KbdKill s).routing.pitGsi = s.routing.pitGsi := by
  by_cases none : s.kbd.vector = 0
  · unfold ps2KbdKill
    rw [if_pos none]
    exact ⟨h, fun _ _ => rfl, rfl⟩
  rw [ps2KbdKill_routing none]
  refine ⟨?_, fun d other => Function.update_of_ne other .., rfl⟩
  have h₁ := h.retire (d := .kbd)
    (apicIoRedirectIrq s.kbd.gsi 0 false false (apicIoMaskIrq s.kbd.gsi s.io)) s.kbd.gsi none
    (by decide) rfl (fun irq unmasked => redirected_mask unmasked)
    fun irq serves => serves.keyboard rfl
  exact h₁.keyboard (fun irq _ serves => serves.some dismiss_vectorOf) 0

/-! ### The timers -/

/-- `pit_enable` the first time: the timer's line is found, a vector is taken for it, and the line
is put on it and opened. -/
theorem pitEnable_routing (first : s.pit.gsi = 0xFF) :
    (pitEnable addr behind handlers s).routing =
      let r := s.routing.enlist addr handlers behind .pit
      let gsi := apicIoGetGsi Pit.pitIrqLine r.io
      let existing := apicIoGetRedirect gsi r.io
      { r with
        pitGsi := gsi
        io := apicIoUnmaskIrq gsi (apicIoRedirectIrq gsi (BitVec.ofNat 8 (r.vectorOf .pit).val)
          existing.activeLow existing.levelTriggered r.io) } := by
  unfold pitEnable State.ofPit Pit.pitEnable
  rw [if_neg (not_not.mpr (show s.toPit.gsi = 0xFF from first))]
  unfold Routing.enlist State.routing
  dsimp only
  congr 1
  funext d
  cases d
  all_goals rfl

variable (behind) in
/-- So the routing is kept, the timer has a vector, and the vectors of the other drivers stay. -/
theorem pitEnable_kept (h : s.routing.Kept addr handlers start wired) (first : s.pit.gsi = 0xFF)
    (none : s.pit.pitVector = 0) :
    (pitEnable addr behind handlers s).routing.Kept addr handlers start wired ∧
      (pitEnable addr behind handlers s).routing.vectorOf .pit ≠ 0 ∧
      ∀ d, d ≠ .pit → (pitEnable addr behind handlers s).routing.vectorOf d =
        s.routing.vectorOf d := by
  rw [pitEnable_routing first]
  obtain ⟨h₁, some⟩ := (h.pit (apicIoGetGsi Pit.pitIrqLine s.io)).enlist behind (d := .pit) none
  refine ⟨?_, some, fun d other => Function.update_of_ne other ..⟩
  refine h₁.connect some ⟨Pit.pitIrqLine, by decide, rfl⟩
    (apicIoGetRedirect (apicIoGetGsi Pit.pitIrqLine s.io) s.io).activeLow
    (apicIoGetRedirect (apicIoGetGsi Pit.pitIrqLine s.io) s.io).levelTriggered ?_ ?_
  · intro no
    cases no
  · intro no
    cases no

/-- `pit_disable` masks the line and gives the vector back. -/
theorem pitDisable_routing : (pitDisable s).routing =
    let gsi := apicIoGetGsi Pit.pitIrqLine s.io
    { { s.routing with
        io := apicIoMaskIrq gsi (apicIoRedirectIrq gsi 0 false false s.io)
      }.dismiss .pit with pitGsi := gsi } := by
  unfold pitDisable State.ofPit Pit.pitDisable Routing.dismiss State.routing
  dsimp only
  congr 1
  funext d
  cases d
  all_goals rfl

/-- `pit_disable` on a timer that has a vector. -/
theorem pitDisable_kept (h : s.routing.Kept addr handlers start wired)
    (some : s.pit.pitVector ≠ 0) :
    (pitDisable s).routing.Kept addr handlers start wired ∧
      ∀ d, d ≠ .pit → (pitDisable s).routing.vectorOf d = s.routing.vectorOf d := by
  rw [pitDisable_routing]
  refine ⟨?_, fun d other => Function.update_of_ne other ..⟩
  have h₁ := h.retire (d := .pit) (apicIoMaskIrq (apicIoGetGsi Pit.pitIrqLine s.io)
      (apicIoRedirectIrq (apicIoGetGsi Pit.pitIrqLine s.io) 0 false false s.io))
    (apicIoGetGsi Pit.pitIrqLine s.io) some (by decide) rfl
    (fun irq unmasked => masked_redirected unmasked) fun irq serves => ?_
  · exact h₁.pit _
  · obtain ⟨line, mem, at_⟩ := serves.own
    obtain rfl := List.mem_singleton.mp mem
    exact at_

/-- The bits of the local timer's entry, for all vectors. -/
theorem lvt_bits : ∀ v : Vector,
    let value : BitVec 32 := (0x00000000 ||| 0x01 <<< 17) ||| BitVec.ofNat 32 v.val
    (value &&& 0xFF).setWidth 8 = BitVec.ofNat 8 v.val ∧ (value &&& 1 <<< 16 != 0) = false := by
  decide +kernel

/-- The local timer takes a vector and is put on it. It has no line at the controllers, so only its
own register changes. -/
theorem localTimerArm_routing : (localTimerArm addr behind handlers s).routing =
    let r := s.routing.enlist addr handlers behind .timer
    { r with
      lvtTimer := (0x00000000 ||| 0x01 <<< 17) ||| BitVec.ofNat 32 (r.vectorOf .timer).val } := by
  unfold localTimerArm localTimerSetHandler State.write Routing.enlist State.routing
  dsimp only
  congr 1
  funext d
  cases d
  all_goals rfl

variable (behind) in
/-- `local_timer_calibrate` the first time, when it comes to its loop: both timers have taken a
vector by then, and the routing is kept. What the loop counts has no part in it. -/
theorem localTimerCalibrate_kept (h : s.routing.Kept addr handlers start wired)
    (first : s.pit.gsi = 0xFF) (noPit : s.pit.pitVector = 0) (noTimer : s.timer.vector = 0) :
    (localTimerCalibrate addr behind handlers s).routing.Kept addr handlers start wired ∧
      (localTimerCalibrate addr behind handlers s).routing.vectorOf .pit ≠ 0 ∧
      ∀ d, d ≠ .pit → d ≠ .timer →
        (localTimerCalibrate addr behind handlers s).routing.vectorOf d = s.routing.vectorOf d := by
  obtain ⟨h₁, some⟩ := h.enlist behind (d := .timer) noTimer
  have h₂ := h₁.lvt some (lvt_bits _).1
  rw [← localTimerArm_routing] at h₂
  have noPit' : (localTimerArm addr behind handlers s).pit.pitVector = 0 := noPit
  obtain ⟨h₃, some', others⟩ := pitEnable_kept behind h₂ first noPit'
  refine ⟨h₃, some', fun d other other' => (others d other).trans ?_⟩
  rw [localTimerArm_routing]
  exact Function.update_of_ne other' ..

/-- A frequency changes nothing. -/
theorem localTimerSetFrequency_routing (hz : BitVec 64) (s : State) :
    (localTimerSetFrequency hz s).routing = s.routing := by
  unfold localTimerSetFrequency State.write State.routing
  dsimp only
  split_ifs
  all_goals rfl

/-- And behind its loop. -/
theorem localTimerCalibrated_kept (count : BitVec 32) (h : s.routing.Kept addr handlers start wired)
    (some : s.pit.pitVector ≠ 0) :
    (localTimerCalibrated count s).routing.Kept addr handlers start wired ∧
      ∀ d, d ≠ .pit → (localTimerCalibrated count s).routing.vectorOf d = s.routing.vectorOf d := by
  have calibrated (s : State) : State.routing { s with
      timer := { s.timer with calibrated := true } } = s.routing := rfl
  have counted (tpms : BitVec 64) : (pitDisable { s with
      pit := { s.pit with watching := false }
      timer := { s.timer with tpms := tpms } }).routing = (pitDisable s).routing := rfl
  have routed : (localTimerCalibrated count s).routing = (pitDisable s).routing :=
    (localTimerSetFrequency_routing 50 _).trans ((calibrated _).trans (counted _))
  rw [routed]
  exact pitDisable_kept h some

/-! ### The handlers -/

/-- Reading what was typed changes nothing. -/
theorem inputLoop_some (run : inputLoop device fuel s = some s') :
    s'.routing = s.routing ∧ s'.eois = s.eois := by
  induction fuel generalizing s with
  | zero => cases run
  | succ fuel ih =>
    rw [inputLoop] at run
    dsimp only at run
    split_ifs at run
    · obtain rfl := Option.some.inj run
      exact ⟨rfl, rfl⟩
    · have rest := ih run
      exact rest

/-- The keyboard's line is masked. -/
theorem ps2KbdSetMask_true : ps2KbdSetMask true s = { s with
    io := apicIoMaskIrq s.kbd.gsi s.io
    kbd := { s.kbd with driver := { s.kbd.driver with ismasked := true } } } := rfl

/-- The keyboard's handler changes nothing, or masks its line. -/
theorem kbdPs2IrqHandler_routing : (kbdPs2IrqHandler device s).routing = s.routing ∨
    (kbdPs2IrqHandler device s).routing =
      { s.routing with io := apicIoMaskIrq s.kbd.gsi s.io } := by
  unfold kbdPs2IrqHandler
  rw [ps2KbdSetMask_true]
  dsimp only
  split_ifs
  · exact Or.inr rfl
  · exact Or.inr rfl
  · exact Or.inl rfl

/-- It writes one end of interrupt. -/
theorem kbdPs2IrqHandler_eois : (kbdPs2IrqHandler device s).eois = s.eois + 1 := by
  unfold kbdPs2IrqHandler
  rw [ps2KbdSetMask_true]
  dsimp only
  split_ifs
  all_goals rfl

/-- The timer's handler changes nothing, and writes one. -/
theorem pitBuiltinHandler_same :
    (pitBuiltinHandler s).routing = s.routing ∧ (pitBuiltinHandler s).eois = s.eois + 1 := by
  unfold pitBuiltinHandler
  dsimp only
  split_ifs
  all_goals exact ⟨rfl, rfl⟩

/-- A handler keeps it, and leaves the vectors to those who have them. -/
theorem handle_kept (h : s.routing.Kept addr handlers start wired)
    (run : handle device fuel d s = some s') :
    s'.routing.Kept addr handlers start wired ∧ s'.routing.vectorOf = s.routing.vectorOf ∧
      s'.routing.pitGsi = s.routing.pitGsi := by
  cases d with
  | uart =>
    unfold handle uartInputIrqHandler at run
    dsimp only at run
    split_ifs at run
    · obtain rfl := Option.some.inj run
      exact ⟨h, rfl, rfl⟩
    · obtain ⟨s₁, loop, done⟩ := Option.bind_eq_some_iff.mp run
      obtain rfl := Option.some.inj done
      have same : s₁.sendEoi.routing = s.routing := (inputLoop_some loop).1
      rw [same]
      exact ⟨h, rfl, rfl⟩
  | pit =>
    obtain rfl := Option.some.inj run
    rw [pitBuiltinHandler_same.1]
    exact ⟨h, rfl, rfl⟩
  | kbd =>
    obtain rfl := Option.some.inj run
    rcases @kbdPs2IrqHandler_routing device s with same | masked
    · rw [same]
      exact ⟨h, rfl, rfl⟩
    · rw [masked]
      exact ⟨h.mask _, rfl, rfl⟩
  | timer =>
    obtain rfl := Option.some.inj run
    exact ⟨h, rfl, rfl⟩

/-- A handler writes one end of interrupt; the console's does while the console is not masked. -/
theorem handle_eois (open' : d = .uart → s.uart.inputMasked = false)
    (run : handle device fuel d s = some s') : s'.eois = s.eois + 1 := by
  cases d with
  | uart =>
    have run : uartInputIrqHandler device fuel s = some s' := run
    unfold uartInputIrqHandler at run
    rw [open' rfl, if_neg (by decide)] at run
    obtain ⟨s₁, loop, done⟩ := Option.bind_eq_some_iff.mp run
    obtain rfl := Option.some.inj done
    exact congrArg (· + 1) (inputLoop_some loop).2
  | pit =>
    obtain rfl := Option.some.inj run
    exact pitBuiltinHandler_same.2
  | kbd =>
    obtain rfl := Option.some.inj run
    exact kbdPs2IrqHandler_eois
  | timer =>
    obtain rfl := Option.some.inj run
    rfl

end

end Skylight.Drivers
