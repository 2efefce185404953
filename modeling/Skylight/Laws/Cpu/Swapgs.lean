import Skylight.Cpu.System
import Skylight.Laws.Cpu.Irq

/-!
# Which side GS is on

A call of the system changes the GS base and the data segment at different instructions, on
the way in and on the way out. What each position of `handler.s` finds is computed from its
text; the positions between the two changes are the windows in which an interrupt finds one
changed and not the other.

`balanced_iff_outside` is about every run of user code, system calls and interrupts that come
outside the windows, and says of each state it reaches that an interrupt there goes well just
when it is in no window itself. The windows are read off the text (`gateStations`), not given.
Interrupts within interrupts are not in the runs, since the stubs run with interrupts off.
-/

namespace Skylight.Cpu

open X86

/-- The user's side or the kernel's. -/
inductive Side
  | user
  | kernel
  deriving DecidableEq

/-- What is known at a position: whose GS bases are loaded, whose data segment, and the low
half of `rax`. -/
structure Known where
  gs : Side
  ds : Side
  ax : Option (BitVec 16)
  deriving DecidableEq

namespace Known

/-- What is known after an instruction; after a call, once it has returned. -/
def after (a : Known) : Instr Symbol → Known
  | .swapgs => { a with gs := match a.gs with | .user => .kernel | .kernel => .user }
  | .movImm16 .rax v => { a with ax := some v }
  | .toSeg .ds .rax => { a with ds := if a.ax = some 0x10 then .kernel else .user }
  | .call .syscallSwitchKernel => { a with ds := .kernel, ax := none }
  | .call .syscallSwitchUser => { a with ds := .user, ax := none }
  | .toSeg _ _ | .store _ _ _ | .storeGs _ _ | .push _ | .cld | .cmp _ _ | .jge _ => a
  | _ => { a with ax := none }

/-- What is known at each position of a text that is entered with `a`. -/
def trail (a : Known) : Text → List (Text × Known)
  | [] => []
  | .sysret :: is => [(.sysret :: is, a)]
  | .ret :: is => [(.ret :: is, a)]
  | .jmp f :: is => [(.jmp f :: is, a)]
  | i :: is => (i :: is, a) :: trail (a.after i) is

end Known

/-- A position of `handler.s`, whether the call was refused, and what is known there. -/
structure Station where
  todo : Text
  frames : List Text
  refused : Bool
  known : Known
  deriving DecidableEq

/-- The stations of a text. -/
def stations (text : Text) (frames : List Text) (refused : Bool) (a : Known) : List Station :=
  (a.trail text).map fun p => ⟨p.1, frames, refused, p.2⟩

/-- Every position a call of the system goes through. -/
def gateStations : List Station :=
  stations syscallDispatch [] false ⟨.user, .user, none⟩ ++
  stations syscallSwitchKernel [afterSwitchKernel] false ⟨.kernel, .user, none⟩ ++
  stations syscallSwitchUser [afterSwitchUser] false ⟨.kernel, .kernel, none⟩ ++
  stations syscallDispatchGenerateUd [] true ⟨.kernel, .user, none⟩ ++
  stations syscallDispatchSysret [] true ⟨.kernel, .user, none⟩ ++
  stations syscallSwitchUser [afterSwitchUser] true ⟨.kernel, .user, none⟩

/-- An instruction of which `Known.after` knows enough. -/
def Known.sound (a : Known) : Instr Symbol → Bool
  | .toSeg .ds .rax => a.ax.isSome
  | .toSeg .ds _ => false
  | _ => true

/-- Every station the instruction at `t` may lead to is one of the gate's. -/
def Station.closed (t : Station) : Bool :=
  match t.todo with
  | [] => false
  | i :: is =>
    if i.plain then
      t.known.sound i && decide (⟨is, t.frames, t.refused, t.known.after i⟩ ∈ gateStations)
    else
      match i with
      | .jge .syscallDispatchGenerateUd =>
        decide (⟨is, t.frames, false, t.known⟩ ∈ gateStations) &&
        decide (⟨syscallDispatchGenerateUd, t.frames, true, t.known⟩ ∈ gateStations)
      | .jmp .syscallDispatchSysret =>
        decide (⟨syscallDispatchSysret, t.frames, t.refused, t.known⟩ ∈ gateStations)
      | .call .syscallSwitchKernel =>
        decide (⟨syscallSwitchKernel, is :: t.frames, t.refused, t.known⟩ ∈ gateStations)
      | .call .syscallSwitchUser =>
        decide (⟨syscallSwitchUser, is :: t.frames, t.refused, t.known⟩ ∈ gateStations)
      | .call .pagingSyncCr3 | .callReg .rax =>
        decide (t.known.gs = .kernel ∧ t.known.ds = .kernel ∧
          ⟨is, t.frames, t.refused, { t.known with ax := none }⟩ ∈ gateStations)
      | .ret =>
        match t.frames with
        | [] => false
        | f :: fs => decide (⟨f, fs, t.refused, { t.known with ax := none }⟩ ∈ gateStations)
      | .sysret => decide (t.known.gs = .user ∧ t.known.ds = .user)
      | _ => false

/-- No instruction leads out of the stations. -/
theorem gateStations_closed : ∀ t ∈ gateStations, t.closed = true := by
  decide +kernel

/-- The windows are where base and segment are on different sides. -/
theorem gateStations_windows : ∀ t ∈ gateStations,
    inWindow t.refused (.gate t.todo t.frames) = decide (t.known.gs ≠ t.known.ds) := by
  decide +kernel

/-- Outside of them nothing is known of `rax` on the user's side. -/
theorem gateStations_quiet : ∀ t ∈ gateStations,
    inWindow t.refused (.gate t.todo t.frames) = false → t.known.ds = .user →
      t.known.ax = none := by
  decide +kernel

section
variable {page : Word → Prop} {img : Image Symbol} {pml4 : Word} {a : Known} {u s : Cpu}
  {i : Instr Symbol} {is : Text} {frames : List Text} {refused : Bool} {x y : System}

/-- The processor is as a position's text says. -/
structure Fits (page : Word → Prop) (a : Known) (u : Cpu) : Prop where
  user : a.gs = .user → UserGs page u
  kernel : a.gs = .kernel → KernelGs page u
  ds : a.ds = .kernel ↔ u.seg .ds = 0x10
  ax : ∀ v, a.ax = some v → (u.reg .rax).setWidth 16 = v

/-- Forgetting the low half of `rax`. -/
theorem Fits.forget (h : Fits page a u) : Fits page { a with ax := none } u where
  user := h.user
  kernel := h.kernel
  ds := h.ds
  ax _ known := nomatch known

/-- Nothing but the GS bases, the data segment and the low half of `rax` matters. -/
theorem Fits.congr (h : Fits page a u) (gs : s.gsBase = u.gsBase)
    (kgs : s.kernelGsBase = u.kernelGsBase) (ds : s.seg .ds = u.seg .ds)
    (ax : a.ax = none ∨ s.reg .rax = u.reg .rax) : Fits page a s where
  user side := ⟨gs.trans (h.user side).base, by rw [kgs]; exact (h.user side).kernel⟩
  kernel side := ⟨by rw [gs]; exact (h.kernel side).base, kgs.trans (h.kernel side).kernel⟩
  ds := by rw [ds]; exact h.ds
  ax v known := by
    rcases ax with none | same
    · rw [none] at known
      cases known
    · rw [same]
      exact h.ax v known

/-- The bases are swapped. -/
theorem Fits.swap (h : Fits page a u) : Fits page (a.after .swapgs) (exec img.addr .swapgs u) := by
  obtain ⟨gs, ds, ax⟩ := a
  cases gs with
  | user =>
    constructor
    case user => exact fun side => nomatch side
    case kernel => exact fun _ => ⟨(h.user rfl).kernel, (h.user rfl).base⟩
    case ds => exact h.ds
    case ax => exact h.ax
  | kernel =>
    constructor
    case user => exact fun _ => ⟨(h.kernel rfl).kernel, (h.kernel rfl).base⟩
    case kernel => exact fun side => nomatch side
    case ds => exact h.ds
    case ax => exact h.ax

/-- The segment is loaded from `rax`. -/
theorem Fits.loadDs (h : Fits page a u) (sound : a.ax.isSome = true) :
    Fits page (a.after (.toSeg .ds .rax)) (exec img.addr (.toSeg .ds .rax) u) := by
  obtain ⟨v, known⟩ := Option.isSome_iff_exists.mp sound
  have low := h.ax v known
  have after : a.after (.toSeg .ds .rax) =
      { a with ds := if a.ax = some 0x10 then .kernel else .user } := rfl
  rw [after]
  constructor
  case user => exact fun side => ⟨(h.user side).base, (h.user side).kernel⟩
  case kernel => exact fun side => ⟨(h.kernel side).base, (h.kernel side).kernel⟩
  case ax => exact h.ax
  case ds =>
    show (if a.ax = some 0x10 then Side.kernel else .user) = .kernel ↔
      Function.update u.seg .ds ((u.reg .rax).setWidth 16) .ds = 0x10
    rw [Function.update_self, low, known]
    by_cases eq : v = 0x10
    · exact iff_of_true (if_pos (congrArg some eq)) eq
    · rw [if_neg fun same => eq (Option.some.inj same)]
      exact iff_of_false Side.noConfusion eq

/-- What the text says of an instruction is what it does. -/
theorem Fits.exec (h : Fits page a u) (plain : i.plain = true) (sound : a.sound i = true) :
    Fits page (a.after i) (exec img.addr i u) := by
  cases i with
  | swapgs => exact h.swap
  | movImm16 d v =>
    by_cases ax : d = .rax
    · subst ax
      constructor
      case user => exact fun side => ⟨(h.user side).base, (h.user side).kernel⟩
      case kernel => exact fun side => ⟨(h.kernel side).base, (h.kernel side).kernel⟩
      case ds => exact h.ds
      case ax =>
        rintro w ⟨⟩
        simp
    · have after : a.after (.movImm16 d v) =
        { a with ax := none } := by cases d <;> first | rfl | exact absurd rfl ax
      rw [after]
      exact h.forget.congr rfl rfl rfl (Or.inl rfl)
  | toSeg seg r =>
    by_cases ds : seg = .ds
    · subst ds
      cases r with
      | rax => exact h.loadDs sound
      | _ => cases sound
    · have after : a.after (.toSeg seg r) = a := by
        cases seg <;> first | rfl | exact absurd rfl ds
      rw [after]
      exact h.congr rfl rfl (Function.update_of_ne (Ne.symm ds) _ _) (Or.inr rfl)
  | store b disp r => exact h.congr rfl rfl rfl (Or.inr rfl)
  | storeGs disp r => exact h.congr rfl rfl rfl (Or.inr rfl)
  | push r => exact h.congr rfl rfl rfl (Or.inr (by simp))
  | cld => exact h
  | cmp r v => exact h.congr rfl rfl rfl (Or.inr rfl)
  | jne f => cases plain
  | jge f => cases plain
  | jmp f => cases plain
  | jmpReg r => cases plain
  | call f => cases plain
  | callReg r => cases plain
  | ret => cases plain
  | iretq => cases plain
  | sysret => cases plain
  | _ => exact h.forget.congr rfl rfl rfl (Or.inl rfl)

/-- The processor is where its GS bases and data segment say. -/
def Tracked (page : Word → Prop) (x : System) : Prop :=
  match x.place with
  | .user => UserGs page x.cpu ∧ x.cpu.seg .ds ≠ 0x10
  | .kernel => KernelGs page x.cpu ∧ x.cpu.seg .ds = 0x10
  | .gate todo frames => ∃ a, ⟨todo, frames, x.refused, a⟩ ∈ gateStations ∧ Fits page a x.cpu
  | .function rest frames => ∃ a, ⟨rest, frames, x.refused, a⟩ ∈ gateStations ∧
    a.gs = .kernel ∧ a.ds = .kernel ∧ a.ax = none ∧ Fits page a x.cpu

/-- At first everything is on the user's side. -/
theorem Initial.tracked (h : Initial page x) : Tracked page x := by
  cases h with
  | user gs ds => exact ⟨gs, ds⟩
  | kernel gs ds => exact ⟨gs, ds⟩

/-- An instruction that goes on with the next one. -/
theorem step_plain (plain : i.plain = true) :
    step img ⟨u, i :: is, frames⟩ = .go ⟨exec img.addr i u, is, frames⟩ := by
  cases i <;> first | rfl | cases plain

/-- It refuses no call. -/
theorem refusedAfter_plain (plain : i.plain = true) :
    refusedAfter refused u (i :: is) = refused := by
  cases i <;> first | rfl | cases plain

/-- Where a system call starts. -/
theorem gateStations_call :
    (⟨syscallDispatch, [], false, ⟨.user, .user, none⟩⟩ : Station) ∈ gateStations := by
  decide +kernel

/-- One instruction of the text that calls no compiled function. -/
theorem tracked_gate {todo todo' : Text} {frames' : List Text} (K : img.code = Symbol.text)
    (h : Tracked page ⟨.gate todo frames, refused, u⟩)
    (named : (⟨u, todo, frames⟩ : Config Symbol).indirect = none)
    (text : compiledCall img u todo = none)
    (next : step img ⟨u, todo, frames⟩ = .go ⟨s, todo', frames'⟩) :
    Tracked page ⟨.gate todo' frames', refusedAfter refused u todo, s⟩ := by
  obtain ⟨a, mem, fits⟩ := h
  have closed := gateStations_closed _ mem
  cases todo with
  | nil => cases closed
  | cons i is =>
    by_cases plain : i.plain = true
    · rw [step_plain plain] at next
      rw [refusedAfter_plain plain]
      cases next
      rw [Station.closed] at closed
      simp only [plain, if_true, Bool.and_eq_true, decide_eq_true_eq] at closed
      exact ⟨_, closed.2, fits.exec plain closed.1⟩
    · rw [Station.closed] at closed
      simp only [plain, Bool.false_eq_true, if_false] at closed
      have code {f : Symbol} {c : Text} (h : f.text = some c) : img.code f = some c := by rw [K, h]
      split at closed
      · -- the comparison of the number
        rw [Bool.and_eq_true, decide_eq_true_eq, decide_eq_true_eq] at closed
        cases less : u.less with
        | true =>
          simp only [step, less, if_true] at next
          cases next
          simp only [refusedAfter, less]
          exact ⟨a, closed.1, fits⟩
        | false =>
          have target := @jump_text _ _ u _ frames _
            (code (f := .syscallDispatchGenerateUd) rfl)
          simp only [step, less, Bool.false_eq_true, if_false, target] at next
          cases next
          simp only [refusedAfter, less]
          exact ⟨a, closed.2, fits⟩
      · rw [decide_eq_true_eq] at closed
        have target := @jump_text _ _ u _ frames _
          (code (f := .syscallDispatchSysret) rfl)
        simp only [step, target] at next
        cases next
        exact ⟨a, closed, fits⟩
      · rw [decide_eq_true_eq] at closed
        simp only [step, enter, img.symbol_addr, code (f := .syscallSwitchKernel) rfl] at next
        cases next
        exact ⟨a, closed, fits.congr rfl rfl rfl (Or.inr (by simp))⟩
      · rw [decide_eq_true_eq] at closed
        simp only [step, enter, img.symbol_addr, code (f := .syscallSwitchUser) rfl] at next
        cases next
        exact ⟨a, closed, fits.congr rfl rfl rfl (Or.inr (by simp))⟩
      · rw [compiledCall, K] at text
        cases text
      · cases named
      · cases frames with
        | nil => cases closed
        | cons f fs =>
          rw [decide_eq_true_eq] at closed
          simp only [step] at next
          split at next
          · cases next
            exact ⟨_, closed, fits.forget.congr rfl rfl rfl (Or.inl rfl)⟩
          · cases next
      · cases next
      · cases closed

/-- A compiled function is called on the kernel's side. -/
theorem tracked_enter {f : Symbol} (K : img.code = Symbol.text)
    (h : Tracked page ⟨.gate (i :: is) frames, refused, u⟩)
    (compiled : compiledCall img u (i :: is) = some f) :
    Tracked page ⟨.function is frames, refused, u⟩ := by
  obtain ⟨a, mem, fits⟩ := h
  have closed := gateStations_closed _ mem
  have sides (h : decide (a.gs = .kernel ∧ a.ds = .kernel ∧
      (⟨is, frames, refused, { a with ax := none }⟩ : Station) ∈ gateStations) = true) :
      Tracked page ⟨.function is frames, refused, u⟩ := by
    obtain ⟨gs, ds, next⟩ := of_decide_eq_true h
    exact ⟨_, next, gs, ds, rfl, fits.forget⟩
  cases i with
  | call g =>
    cases g with
    | pagingSyncCr3 => exact sides closed
    | syscallSwitchKernel =>
      rw [compiledCall, K] at compiled
      cases compiled
    | syscallSwitchUser =>
      rw [compiledCall, K] at compiled
      cases compiled
    | _ => cases closed
  | callReg r =>
    cases r with
    | rax => exact sides closed
    | _ => cases closed
  | _ => cases compiled

/-- Entering a function does not leave the text. -/
theorem enter_ne_leave {w : Word} {rest : Text} : enter img w u rest frames ≠ .leave s := by
  rw [enter]
  split
  · rintro ⟨⟩
  · split <;> rintro ⟨⟩

/-- Nor does a jump. -/
theorem jump_ne_leave {w : Word} : jump img w u frames ≠ .leave s := by
  rw [jump]
  split <;> rintro ⟨⟩

/-- Only two instructions leave the text. -/
theorem step_leave (next : step img ⟨u, i :: is, frames⟩ = .leave s) :
    i = .iretq ∨ i = .sysret ∧ s = systemReturn u := by
  by_cases plain : i.plain = true
  · rw [step_plain plain] at next
    cases next
  · cases i with
    | iretq => exact Or.inl rfl
    | sysret =>
      cases next
      exact Or.inr ⟨rfl, rfl⟩
    | jne f =>
      simp only [step] at next
      split at next
      · cases next
      · exact absurd next jump_ne_leave
    | jge f =>
      simp only [step] at next
      split at next
      · cases next
      · exact absurd next jump_ne_leave
    | jmp f => exact absurd next jump_ne_leave
    | jmpReg r => exact absurd next jump_ne_leave
    | call f => exact absurd next enter_ne_leave
    | callReg r => exact absurd next enter_ne_leave
    | ret =>
      cases frames with
      | nil => cases next
      | cons f fs =>
        simp only [step] at next
        split at next <;> cases next
    | _ => exact absurd rfl plain

/-- Control leaves the text on the user's side. -/
theorem tracked_leave {todo : Text} (h : Tracked page ⟨.gate todo frames, refused, u⟩)
    (next : step img ⟨u, todo, frames⟩ = .leave s) : Tracked page ⟨.user, refused, s⟩ := by
  obtain ⟨a, mem, fits⟩ := h
  have closed := gateStations_closed _ mem
  cases todo with
  | nil => cases next
  | cons i is =>
    rcases step_leave next with rfl | ⟨rfl, rfl⟩
    · cases closed
    · obtain ⟨gs, ds⟩ := of_decide_eq_true (p := a.gs = .user ∧ a.ds = .user) closed
      have side := fits.user gs
      refine ⟨⟨side.base, side.kernel⟩, fun kernel => ?_⟩
      have same : a.ds = .kernel := fits.ds.mpr kernel
      cases ds.symm.trans same

/-- An interrupt outside the windows. -/
theorem tracked_irq {place : Place} (h : Tracked page ⟨place, refused, u⟩)
    (outside : inWindow refused place = false) (interrupted : Interrupted page u s) :
    Tracked page ⟨place, refused, s⟩ := by
  have kernel (ds : u.seg .ds = 0x10) : s.seg .ds = 0x10 := by rw [interrupted.ds, if_pos ds]
  have user (ds : u.seg .ds ≠ 0x10) : s.seg .ds ≠ 0x10 := by
    rw [interrupted.ds, if_neg ds]
    decide
  cases place with
  | user => exact ⟨interrupted.user h.1, user h.2⟩
  | kernel => exact ⟨interrupted.kernel h.1, kernel h.2⟩
  | function rest frames =>
    obtain ⟨a, mem, gs, ds, ax, fits⟩ := h
    refine ⟨a, mem, gs, ds, ax, ?_⟩
    constructor
    case user => exact fun side => nomatch gs.symm.trans side
    case kernel => exact fun side => interrupted.kernel (fits.kernel side)
    case ds => exact iff_of_true ds (kernel (fits.ds.mp ds))
    case ax => exact fun v known => nomatch ax.symm.trans known
  | gate todo frames =>
    obtain ⟨a, mem, fits⟩ := h
    refine ⟨a, mem, ?_⟩
    have same : a.gs = a.ds := by
      have windows := gateStations_windows _ mem
      rw [outside] at windows
      exact not_not.mp (of_decide_eq_false windows.symm)
    cases ds : a.ds with
    | user =>
      have off : u.seg .ds ≠ 0x10 := fun on => nomatch ds.symm.trans (fits.ds.mpr on)
      constructor
      case user => exact fun side => interrupted.user (fits.user side)
      case kernel => exact fun side => nomatch side.symm.trans (same.trans ds)
      case ds => exact iff_of_false (fun on => nomatch ds.symm.trans on) (user off)
      case ax =>
        intro v known
        cases (gateStations_quiet _ mem outside ds).symm.trans known
    | kernel =>
      have on := fits.ds.mp ds
      constructor
      case user => exact fun side => nomatch side.symm.trans (same.trans ds)
      case kernel => exact fun side => interrupted.kernel (fits.kernel side)
      case ds => exact iff_of_true ds (kernel on)
      case ax =>
        rw [interrupted.reg on]
        exact fits.ax

/-- Where the GS bases and the data segment are on one side, an interrupt goes well. -/
theorem Tracked.balanced_iff (away : ¬ page userBase) (h : Tracked page x) :
    Balanced page x.cpu ↔ inWindow x.refused x.place = false := by
  have user (g : UserGs page x.cpu) (ds : x.cpu.seg .ds ≠ 0x10) : Balanced page x.cpu :=
    ⟨iff_of_true ds g.base, by rw [if_pos ds]; exact g.kernel⟩
  have kernel (g : KernelGs page x.cpu) (ds : x.cpu.seg .ds = 0x10) : Balanced page x.cpu := by
    refine ⟨iff_of_false (not_not.mpr ds) fun base => away ?_, ?_⟩
    · rw [← base]
      exact g.base
    · rw [if_neg (not_not.mpr ds)]
      exact g.base
  obtain ⟨place, refused, u⟩ := x
  cases place with
  | user => exact iff_of_true (user h.1 h.2) rfl
  | kernel => exact iff_of_true (kernel h.1 h.2) rfl
  | function rest frames =>
    obtain ⟨a, -, gs, ds, -, fits⟩ := h
    exact iff_of_true (kernel (fits.kernel gs) (fits.ds.mp ds)) rfl
  | gate todo frames =>
    obtain ⟨a, mem, fits⟩ := h
    have windows : inWindow refused (.gate todo frames) = decide (a.gs ≠ a.ds) :=
      gateStations_windows _ mem
    show Balanced page u ↔ inWindow refused (.gate todo frames) = false
    rw [windows, decide_eq_false_iff_not, not_not]
    obtain ⟨gs, ds, ax⟩ := a
    cases gs with
    | user =>
      have g := fits.user rfl
      cases ds with
      | user => exact iff_of_true (user g fun on => nomatch fits.ds.mpr on) rfl
      | kernel =>
        exact iff_of_false (fun b => b.swaps.mpr g.base (fits.ds.mp rfl)) Side.noConfusion
    | kernel =>
      have g := fits.kernel rfl
      cases ds with
      | user =>
        refine iff_of_false (fun b => away ?_) Side.noConfusion
        rw [← b.swaps.mp fun on => nomatch fits.ds.mpr on]
        exact g.base
      | kernel => exact iff_of_true (kernel g (fits.ds.mp rfl)) rfl

/-- One step of the system, with interrupts outside the windows. -/
theorem Clear.tracked (K : img.code = Symbol.text) (away : ¬ page userBase)
    (h : Tracked page x) (clear : Clear page img x y) : Tracked page y := by
  obtain ⟨event, step, outside⟩ := clear
  cases step with
  | user ds gs kgs _ =>
    obtain ⟨g, -⟩ := h
    exact ⟨⟨gs.trans g.base, by rw [kgs]; exact g.kernel⟩, ds⟩
  | call =>
    obtain ⟨g, ds⟩ := h
    refine ⟨⟨.user, .user, none⟩, gateStations_call, ?_⟩
    constructor
    case user => exact fun _ => ⟨g.base, g.kernel⟩
    case kernel => exact fun side => nomatch side
    case ds => exact iff_of_false Side.noConfusion ds
    case ax => exact fun v known => nomatch known
  | gate named text next => exact tracked_gate K h named text next
  | enter compiled => exact tracked_enter K h compiled
  | function seg gs kgs =>
    obtain ⟨a, mem, side, ds, ax, fits⟩ := h
    exact ⟨a, mem, side, ds, ax, fits.congr gs kgs (by rw [seg]) (Or.inl ax)⟩
  | «return» =>
    obtain ⟨a, mem, -, -, -, fits⟩ := h
    exact ⟨a, mem, fits⟩
  | leave next => exact tracked_leave h next
  | kernel seg gs kgs =>
    obtain ⟨g, ds⟩ := h
    exact ⟨⟨by rw [gs]; exact g.base, kgs.trans g.kernel⟩, by rw [seg]; exact ds⟩
  | select gs ds => exact ⟨gs, ds⟩
  | irq flag balanced interrupted => exact tracked_irq h (outside rfl) interrupted
  | crash flag unbalanced => exact absurd ((h.balanced_iff away).mpr (outside rfl)) unbalanced

/-- A run whose interrupts come outside the windows. -/
theorem run_tracked (K : img.code = Symbol.text) (away : ¬ page userBase)
    (start : Initial page x) (run : Relation.ReflTransGen (Clear page img) x y) :
    Tracked page y := by
  induction run with
  | refl => exact start.tracked
  | tail _ clear tracked => exact Clear.tracked K away tracked clear

/-- In every state reached by a run whose interrupts come outside the windows, an interrupt
goes well exactly outside the windows. -/
theorem balanced_iff_outside (K : img.code = Symbol.text) (away : ¬ page userBase)
    (start : Initial page x) (run : Relation.ReflTransGen (Clear page img) x y) :
    Balanced page y.cpu ↔ inWindow y.refused y.place = false :=
  (run_tracked K away start run).balanced_iff away

end

/-- Code that keeps to the calling convention makes a handler that returns to the task it
interrupted one that leaves the sides alone. -/
theorem Transparent.interrupted {page : Word → Prop} {u s : Cpu} (h : Transparent u s)
    (ds : u.seg .ds = 0x10 ∨ u.seg .ds = 0x1b) : Interrupted page u s where
  ds := by
    rw [h.ds]
    rcases ds with ds | ds <;> rw [ds] <;> rfl
  reg _ := h.reg
  user g := ⟨h.gsBase.trans g.base, by rw [h.kernelGsBase]; exact g.kernel⟩
  kernel g := ⟨by rw [h.gsBase]; exact g.base, h.kernelGsBase.trans g.kernel⟩

/-- The gs page of the machine. -/
def machinePage (a : Word) : Prop := a = machineGs

/-- The machine's user code is about to call the system. -/
theorem machine_initial : Initial machinePage ⟨.user, false, machineCaller 150⟩ :=
  .user ⟨rfl, rfl⟩ (by decide)

/-- The machine after the first instruction of a call of the system. -/
def machineSwapped : System where
  place := .gate (syscallDispatch.drop 1) []
  refused := false
  cpu := exec (machineImage machineCompiled).addr .swapgs (systemCall (machineCaller 150))

/-- The first instruction of the call is a step. -/
theorem machine_swaps : Relation.ReflTransGen (Clear machinePage (machineImage machineCompiled))
    ⟨.user, false, machineCaller 150⟩ machineSwapped := by
  have call : Clear machinePage (machineImage machineCompiled) ⟨.user, false, machineCaller 150⟩
      ⟨.gate syscallDispatch [], false, systemCall (machineCaller 150)⟩ :=
    ⟨.instruction, .call, fun irq => nomatch irq⟩
  have swap : Clear machinePage (machineImage machineCompiled)
      ⟨.gate syscallDispatch [], false, systemCall (machineCaller 150)⟩ machineSwapped :=
    ⟨.instruction, .gate rfl rfl rfl, fun irq => nomatch irq⟩
  exact (Relation.ReflTransGen.single call).tail swap

/-- The machine's user code is in no window; its system calls run into one. -/
theorem balanced_iff_outside_machine :
    (Balanced machinePage (machineCaller 150) ↔ inWindow false .user = false) ∧
    (Balanced machinePage machineSwapped.cpu ↔
      inWindow machineSwapped.refused machineSwapped.place = false) :=
  have away : ¬ machinePage userBase := by
    unfold machinePage
    decide
  ⟨@balanced_iff_outside _ (machineImage machineCompiled) _ _ rfl away machine_initial .refl,
    balanced_iff_outside rfl away machine_initial machine_swaps⟩

/-- An interrupt right after the first `swapgs` of a system call finds the kernel's GS base with
the user's data segment. -/
theorem not_always_balanced : ¬ ∀ x y : System, Initial machinePage x →
    Relation.ReflTransGen
      (fun x y => ∃ event, Step machinePage (machineImage machineCompiled) event x y) x y →
    interruptFlag y.cpu = true → Balanced machinePage y.cpu := by
  intro always
  have steps (x y : System) (clear : Clear machinePage (machineImage machineCompiled) x y) :
      ∃ event, Step machinePage (machineImage machineCompiled) event x y :=
    ⟨clear.choose, clear.choose_spec.1⟩
  have run := Relation.ReflTransGen.mono steps _ _ machine_swaps
  have balanced := always _ _ machine_initial run (by decide)
  exact absurd (balanced.swaps.mp (by decide)) (by decide)

end Skylight.Cpu
