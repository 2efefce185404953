import Skylight.Cpu.Text

/-!
# Tasks, system calls and interrupts

The processor between user code, the text of `handler.s`, the compiled functions it calls and
other kernel code. An interrupt may come between any two instructions while the flag that
lets it is set; a system call does not clear that flag. What user code and compiled code
compute is left open, but neither writes the GS bases, compiled code keeps the segments, and
user code cannot load the kernel's data segment.
-/

namespace Skylight.Cpu

open X86

/-- Where the processor is. -/
inductive Place
  | user
  /-- in `handler.s`, with `todo` left to run -/
  | gate (todo : Text) (frames : List Text)
  /-- in a compiled function that `handler.s` called, which returns to `rest` -/
  | function (rest : Text) (frames : List Text)
  /-- in other kernel code -/
  | kernel

/-- The processor, where it is, and whether the last comparison of a system-call number sent
the call to `.generate_ud`. -/
structure System where
  place : Place
  refused : Bool
  cpu : Cpu

/-- The flag that lets interrupts in. -/
def interruptFlag (u : Cpu) : Bool := u.rflags.getLsbD 9

/-- The base GS has in user code; `task_select` and `task_select_next` write it. -/
def userBase : Word := 0

/-- The compiled function about to be called. -/
def compiledCall (img : Image Symbol) (u : Cpu) : Text → Option Symbol
  | .call f :: _ => if (img.code f).isNone then some f else none
  | .callReg r :: _ => (img.symbol (u.reg r)).filter fun f => (img.code f).isNone
  | _ => none

/-- Whether the call counts as refused after an instruction. -/
def refusedAfter (refused : Bool) (u : Cpu) : Text → Bool
  | .jge _ :: _ => !u.less
  | _ => refused

/-- The text after the call of `syscall_switch_kernel`. -/
def afterSwitchKernel : Text := syscallDispatch.drop 12

/-- The text after the call of `syscall_switch_user`. -/
def afterSwitchUser : Text := syscallDispatchSysret.drop 1

/-- The positions before `n` instructions of a text, from number `first` on. -/
def positions (text : Text) (first n : Nat) (frames : List Text) : List (Text × List Text) :=
  (List.range n).map fun i => (text.drop (first + i), frames)

/-- On the way in: from `swapgs` to the load of the kernel's data segment. -/
def entryWindow : List (Text × List Text) :=
  positions syscallDispatch 1 11 [] ++ positions syscallSwitchKernel 0 7 [afterSwitchKernel]

/-- On the way out: from the load of the user's data segment to `swapgs`. -/
def exitWindow : List (Text × List Text) :=
  positions syscallSwitchUser 10 20 [afterSwitchUser] ++ positions afterSwitchUser 0 3 []

/-- What a refused call goes through between the two. -/
def refusedWindow : List (Text × List Text) :=
  positions syscallDispatchGenerateUd 0 3 [] ++ positions syscallDispatchSysret 0 1 [] ++
    positions syscallSwitchUser 0 10 [afterSwitchUser]

/-- The data segment and the GS base belong to different sides. -/
def inWindow (refused : Bool) : Place → Bool
  | .gate todo frames =>
    decide ((todo, frames) ∈ entryWindow ++ exitWindow) ||
      refused && decide ((todo, frames) ∈ refusedWindow)
  | _ => false

section
variable (page : Word → Prop)

/-- The GS bases of user code. `page` are the addresses of gs pages. -/
structure UserGs (u : Cpu) : Prop where
  base : u.gsBase = userBase
  kernel : page u.kernelGsBase

/-- The GS bases of the kernel. -/
structure KernelGs (u : Cpu) : Prop where
  base : page u.gsBase
  kernel : u.kernelGsBase = userBase

/-- What an interrupt leaves behind: it may have switched tasks, with other registers, but not
under the kernel's feet. -/
structure Interrupted (u s : Cpu) : Prop where
  ds : s.seg .ds = if u.seg .ds = 0x10 then 0x10 else 0x1b
  reg : u.seg .ds = 0x10 → ∀ r, s.reg r = u.reg r
  user : UserGs page u → UserGs page s
  kernel : KernelGs page u → KernelGs page s

/-- An interrupt here goes well: the stub's test of `ds` finds which side GS is on, and the
handler runs on a gs page. -/
structure Balanced (u : Cpu) : Prop where
  swaps : u.seg .ds ≠ 0x10 ↔ u.gsBase = userBase
  handler : page (if u.seg .ds ≠ 0x10 then u.kernelGsBase else u.gsBase)

/-- The processor in user code or in the kernel, outside system calls. -/
inductive Initial : System → Prop
  | user {refused : Bool} {u : Cpu} (gs : UserGs page u) (ds : u.seg .ds ≠ 0x10) :
    Initial ⟨.user, refused, u⟩
  | kernel {refused : Bool} {u : Cpu} (gs : KernelGs page u) (ds : u.seg .ds = 0x10) :
    Initial ⟨.kernel, refused, u⟩

/-- What makes the system take a step. -/
inductive Event
  | instruction
  | irq
  deriving DecidableEq

variable (img : Image Symbol)

/-- One instruction, or one interrupt. -/
inductive Step : Event → System → System → Prop
  | user {refused : Bool} {u s : Cpu} (ds : s.seg .ds ≠ 0x10) (gs : s.gsBase = u.gsBase)
      (kgs : s.kernelGsBase = u.kernelGsBase) (flag : interruptFlag s = interruptFlag u) :
      Step .instruction ⟨.user, refused, u⟩ ⟨.user, refused, s⟩
  | call {refused : Bool} {u : Cpu} :
      Step .instruction ⟨.user, refused, u⟩ ⟨.gate syscallDispatch [], false, systemCall u⟩
  | gate {refused : Bool} {u s : Cpu} {todo todo' : Text} {frames frames' : List Text}
      (named : (⟨u, todo, frames⟩ : Config Symbol).indirect = none)
      (text : compiledCall img u todo = none)
      (next : step img ⟨u, todo, frames⟩ = .go ⟨s, todo', frames'⟩) :
      Step .instruction ⟨.gate todo frames, refused, u⟩
        ⟨.gate todo' frames', refusedAfter refused u todo, s⟩
  | enter {refused : Bool} {u : Cpu} {i : Instr Symbol} {rest : Text} {frames : List Text}
      {f : Symbol} (compiled : compiledCall img u (i :: rest) = some f) :
      Step .instruction ⟨.gate (i :: rest) frames, refused, u⟩ ⟨.function rest frames, refused, u⟩
  | function {refused : Bool} {u s : Cpu} {rest : Text} {frames : List Text}
      (seg : s.seg = u.seg) (gs : s.gsBase = u.gsBase) (kgs : s.kernelGsBase = u.kernelGsBase) :
      Step .instruction ⟨.function rest frames, refused, u⟩ ⟨.function rest frames, refused, s⟩
  | return {refused : Bool} {u : Cpu} {rest : Text} {frames : List Text} :
      Step .instruction ⟨.function rest frames, refused, u⟩ ⟨.gate rest frames, refused, u⟩
  | leave {refused : Bool} {u s : Cpu} {todo : Text} {frames : List Text}
      (next : step img ⟨u, todo, frames⟩ = .leave s) :
      Step .instruction ⟨.gate todo frames, refused, u⟩ ⟨.user, refused, s⟩
  | kernel {refused : Bool} {u s : Cpu} (seg : s.seg = u.seg) (gs : s.gsBase = u.gsBase)
      (kgs : s.kernelGsBase = u.kernelGsBase) :
      Step .instruction ⟨.kernel, refused, u⟩ ⟨.kernel, refused, s⟩
  /-- `task_select`, with interrupts off -/
  | select {refused : Bool} {u s : Cpu} (gs : UserGs page s) (ds : s.seg .ds ≠ 0x10) :
      Step .instruction ⟨.kernel, refused, u⟩ ⟨.user, refused, s⟩
  | irq {place : Place} {refused : Bool} {u s : Cpu} (flag : interruptFlag u = true)
      (balanced : Balanced page u) (interrupted : Interrupted page u s) :
      Step .irq ⟨place, refused, u⟩ ⟨place, refused, s⟩
  /-- an interrupt on the wrong side: anything may follow -/
  | crash {x y : System} (flag : interruptFlag x.cpu = true)
      (unbalanced : ¬ Balanced page x.cpu) : Step .irq x y

/-- A step that is no interrupt in one of the windows. -/
def Clear (x y : System) : Prop :=
  ∃ event, Step page img event x y ∧ (event = .irq → inWindow x.refused x.place = false)

end

end Skylight.Cpu
