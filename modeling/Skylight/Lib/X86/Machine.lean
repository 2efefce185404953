import Mathlib.Logic.Function.Basic
import Mathlib.Logic.Relation

/-!
# A processor that runs assembly text

The part of x86-64 that hand-written kernel entry code uses: sixteen registers, the control
and segment registers, the two GS bases, and memory by quadwords. A quadword is at the
address of its first byte, and an access is to the quadword at its address: the code read
here only ever touches quadwords that are the same or do not overlap.

Text is a list of instructions over a type of symbols. Running it keeps the rest of the
current routine and of each of its callers; a call still pushes the address it returns to
and a return still needs to find it. The status flags a comparison leaves are kept apart
from the flags register, which here is what interrupts and system calls save and restore.
-/

namespace Skylight.X86

/-- Quadwords and addresses. -/
abbrev Word := BitVec 64

/-- The general registers. -/
inductive Reg
  | rax | rbx | rcx | rdx | rsi | rdi | rbp | rsp
  | r8 | r9 | r10 | r11 | r12 | r13 | r14 | r15
  deriving DecidableEq, Repr

/-- The segment registers. -/
inductive Seg
  | cs | ds | es | ss
  deriving DecidableEq, Repr

/-- The control registers. -/
inductive Cr
  | cr0 | cr2 | cr3 | cr4
  deriving DecidableEq, Repr

/-- The state of the processor and of the memory it sees. -/
structure Cpu where
  reg : Reg → Word
  cr : Cr → Word
  seg : Seg → BitVec 16
  rflags : Word
  rip : Word
  /-- `IA32_GS_BASE` -/
  gsBase : Word
  /-- `IA32_KERNEL_GS_BASE` -/
  kernelGsBase : Word
  mem : Word → Word
  /-- the last comparison found its operands equal -/
  zero : Bool
  /-- the last comparison found its first operand the smaller, as signed numbers -/
  less : Bool

/-- Instructions, over the symbols of a program. -/
inductive Instr (S : Type)
  | push (r : Reg)
  | pushImm (v : Word)
  | pop (r : Reg)
  | mov (d s : Reg)
  /-- `mov ax, v`: the low sixteen bits -/
  | movImm16 (d : Reg) (v : BitVec 16)
  /-- `mov d, [b + disp]` -/
  | load (d b : Reg) (disp : Word)
  /-- `mov [b + disp], s` -/
  | store (b : Reg) (disp : Word) (s : Reg)
  /-- `mov d, [gs:disp]` -/
  | loadGs (d : Reg) (disp : Word)
  /-- `mov [gs:disp], s` -/
  | storeGs (disp : Word) (s : Reg)
  /-- `lea d, [rel symbol]` -/
  | lea (d : Reg) (symbol : S)
  /-- `lea d, [b + disp]` -/
  | leaDisp (d b : Reg) (disp : Word)
  /-- `lea d, [b + i * scale]` -/
  | leaScaled (d b i : Reg) (scale : Word)
  | fromCr (d : Reg) (c : Cr)
  | toCr (c : Cr) (s : Reg)
  /-- `mov ax, seg`: the low sixteen bits -/
  | fromSeg (d : Reg) (seg : Seg)
  | toSeg (seg : Seg) (s : Reg)
  /-- `xor d, d` on the low half, which clears the register -/
  | clear (d : Reg)
  | add (d : Reg) (v : Word)
  | cmp (r : Reg) (v : Word)
  /-- `cmp ax, v` -/
  | cmp16 (r : Reg) (v : BitVec 16)
  | cld
  | swapgs
  | jne (symbol : S)
  | jge (symbol : S)
  | jmp (symbol : S)
  | jmpReg (r : Reg)
  | call (symbol : S)
  | callReg (r : Reg)
  | ret
  | iretq
  | sysret
  deriving DecidableEq, Repr

/-- A quadword with its low sixteen bits replaced. -/
def setLow16 (w : Word) (v : BitVec 16) : Word := w &&& ~~~0xffff ||| v.setWidth 64

namespace Cpu

/-- A register written. -/
def set (s : Cpu) (r : Reg) (v : Word) : Cpu := { s with reg := Function.update s.reg r v }

/-- A quadword of memory written. -/
def write (s : Cpu) (a v : Word) : Cpu := { s with mem := Function.update s.mem a v }

/-- A quadword pushed. -/
def push (s : Cpu) (v : Word) : Cpu := (s.set .rsp (s.reg .rsp - 8)).write (s.reg .rsp - 8) v

/-- The quadword on top of the stack. -/
def top (s : Cpu) : Word := s.mem (s.reg .rsp)

/-- The top of the stack dropped. -/
def drop (s : Cpu) : Cpu := s.set .rsp (s.reg .rsp + 8)

end Cpu

section
variable {S : Type}

/-- What an instruction that does not transfer control does. `addr` links the symbols. -/
def exec (addr : S → Word) : Instr S → Cpu → Cpu
  | .push r, s => s.push (s.reg r)
  | .pushImm v, s => s.push v
  | .pop r, s => s.drop.set r s.top
  | .mov d r, s => s.set d (s.reg r)
  | .movImm16 d v, s => s.set d (setLow16 (s.reg d) v)
  | .load d b disp, s => s.set d (s.mem (s.reg b + disp))
  | .store b disp r, s => s.write (s.reg b + disp) (s.reg r)
  | .loadGs d disp, s => s.set d (s.mem (s.gsBase + disp))
  | .storeGs disp r, s => s.write (s.gsBase + disp) (s.reg r)
  | .lea d symbol, s => s.set d (addr symbol)
  | .leaDisp d b disp, s => s.set d (s.reg b + disp)
  | .leaScaled d b i scale, s => s.set d (s.reg b + s.reg i * scale)
  | .fromCr d c, s => s.set d (s.cr c)
  | .toCr c r, s => { s with cr := Function.update s.cr c (s.reg r) }
  | .fromSeg d seg, s => s.set d (setLow16 (s.reg d) (s.seg seg))
  | .toSeg seg r, s => { s with seg := Function.update s.seg seg ((s.reg r).setWidth 16) }
  | .clear d, s => s.set d 0
  | .add d v, s => s.set d (s.reg d + v)
  | .cmp r v, s => { s with zero := s.reg r = v, less := (s.reg r).slt v }
  | .cmp16 r v, s =>
    let low := (s.reg r).setWidth 16
    { s with zero := low = v, less := low.slt v }
  | .swapgs, s => { s with gsBase := s.kernelGsBase, kernelGsBase := s.gsBase }
  | _, s => s

/-- The instructions that do not transfer control. -/
def Instr.plain : Instr S → Bool
  | .jne _ | .jge _ | .jmp _ | .jmpReg _ | .call _ | .callReg _ | .ret | .iretq | .sysret => false
  | _ => true

/-- A linked program. -/
structure Image (S : Type) where
  /-- where a symbol is -/
  addr : S → Word
  /-- the symbol at an address -/
  symbol : Word → Option S
  symbol_addr : ∀ s, symbol (addr s) = some s
  /-- the text from a symbol on; there is none for a compiled function -/
  code : S → Option (List (Instr S))
  /-- what a compiled function does between its call and its return -/
  compiled : S → Cpu → Cpu
  /-- where the text with this rest is -/
  place : List (Instr S) → Word

/-- The processor, the rest of the routine it runs, and the rests of its callers. -/
structure Config (S : Type) where
  cpu : Cpu
  todo : List (Instr S)
  frames : List (List (Instr S))

/-- What a step comes to. -/
inductive Next (S : Type)
  | go (c : Config S)
  /-- control leaves the text by `iretq` or `sysret` -/
  | leave (s : Cpu)
  /-- control goes to an address that is no symbol -/
  | wild (target : Word) (s : Cpu)
  /-- there is no instruction to run, or a return does not find its caller -/
  | stuck

variable (img : Image S)

/-- A call of the address `w`: a routine is entered, a compiled function runs and returns. -/
def enter (w : Word) (s : Cpu) (rest : List (Instr S)) (frames : List (List (Instr S))) :
    Next S :=
  match img.symbol w with
  | none => .wild w s
  | some f =>
    match img.code f with
    | some code => .go ⟨s.push (img.place rest), code, rest :: frames⟩
    | none => .go ⟨img.compiled f s, rest, frames⟩

/-- A jump to the address `w`. -/
def jump (w : Word) (s : Cpu) (frames : List (List (Instr S))) : Next S :=
  match (img.symbol w).bind img.code with
  | none => .wild w s
  | some code => .go ⟨s, code, frames⟩

/-- The stack pointer an interrupt starts from. -/
def alignStack (ist : Word) : Word := ist &&& ~~~0xf

/-- An interrupt or exception through a gate with a stack of its own: the stack pointer is
aligned, five quadwords are pushed, and an error code where the exception has one. The gate
clears the flags that let the processor be interrupted or traced. -/
def interrupt (ist : Word) (code : Option Word) (s : Cpu) : Cpu :=
  let f := s.set .rsp (alignStack ist)
  let f := f.push ((s.seg .ss).setWidth 64)
  let f := f.push (s.reg .rsp)
  let f := f.push s.rflags
  let f := f.push ((s.seg .cs).setWidth 64)
  let f := f.push s.rip
  let f := match code with
    | some e => f.push e
    | none => f
  { f with rflags := s.rflags &&& ~~~0x14300, seg := Function.update s.seg .cs 0x08 }

/-- `iretq`: the five quadwords an interrupt pushed are taken back. -/
def interruptReturn (s : Cpu) : Cpu :=
  let f := s.reg .rsp
  { s with
    rip := s.mem f
    seg := Function.update (Function.update s.seg .cs ((s.mem (f + 8)).setWidth 16)) .ss
      ((s.mem (f + 8 + 8 + 8 + 8)).setWidth 16)
    rflags := s.mem (f + 8 + 8)
    reg := Function.update s.reg .rsp (s.mem (f + 8 + 8 + 8)) }

/-- `syscall`: the return address goes to `rcx` and the flags to `r11`. No flag is masked. -/
def systemCall (s : Cpu) : Cpu :=
  { s with
    reg := Function.update (Function.update s.reg .rcx s.rip) .r11 s.rflags
    seg := Function.update (Function.update s.seg .cs 0x08) .ss 0x10 }

/-- `o64 sysret`: back to the address in `rcx` with the flags in `r11`. -/
def systemReturn (s : Cpu) : Cpu :=
  { s with
    rip := s.reg .rcx
    rflags := s.reg .r11 &&& 0x3c7fd7 ||| 2
    seg := Function.update (Function.update s.seg .cs 0x23) .ss 0x1b }

/-- One instruction. -/
def step (c : Config S) : Next S :=
  match c.todo with
  | [] => .stuck
  | i :: rest =>
    match i with
    | .jne symbol =>
      if c.cpu.zero then .go { c with todo := rest } else jump img (img.addr symbol) c.cpu c.frames
    | .jge symbol =>
      if c.cpu.less then .go { c with todo := rest } else jump img (img.addr symbol) c.cpu c.frames
    | .jmp symbol => jump img (img.addr symbol) c.cpu c.frames
    | .jmpReg r => jump img (c.cpu.reg r) c.cpu c.frames
    | .call symbol => enter img (img.addr symbol) c.cpu rest c.frames
    | .callReg r => enter img (c.cpu.reg r) c.cpu rest c.frames
    | .ret =>
      match c.frames with
      | [] => .stuck
      | caller :: frames =>
        if c.cpu.top = img.place caller then .go ⟨c.cpu.drop, caller, frames⟩ else .stuck
    | .iretq => .leave (interruptReturn c.cpu)
    | .sysret => .leave (systemReturn c.cpu)
    | i => .go { c with cpu := exec img.addr i c.cpu, todo := rest }

/-- Some steps lead from one configuration to the other. -/
def Runs : Config S → Config S → Prop :=
  Relation.ReflTransGen fun c c' => step img c = .go c'

/-- The instructions that do not take an address to go to from a register. -/
def Instr.direct : Instr S → Bool
  | .jmpReg _ | .callReg _ => false
  | _ => true

/-- The address an instruction is about to go to, when it takes it from a register. -/
def Config.indirect (c : Config S) : Option Word :=
  match c.todo with
  | .jmpReg r :: _ | .callReg r :: _ => some (c.cpu.reg r)
  | _ => none

/-- Some steps none of which takes an address to go to from a register. -/
def Quiet : Config S → Config S → Prop :=
  Relation.ReflTransGen fun c c' => c.indirect = none ∧ step img c = .go c'

/-- A run that ends with control leaving the text. -/
def Leaves (c : Config S) (s : Cpu) : Prop := ∃ c', Runs img c c' ∧ step img c' = .leave s

/-- Instructions one after the other. -/
def execs (addr : S → Word) (is : List (Instr S)) (s : Cpu) : Cpu :=
  is.foldl (fun s i => exec addr i s) s

end

end Skylight.X86
