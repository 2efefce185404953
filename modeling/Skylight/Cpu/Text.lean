import Mathlib.Algebra.GroupWithZero.Nat
import Skylight.Lib.X86.Machine

/-!
# The kernel's assembly text

`cpu/interrupts/isr.s` and `proc/calls/handler.s`, instruction by instruction. A local
label names the text from there to the end of its routine. Four symbols are data:
`__safe_r15`, `__routine_handlers`, `syscall_table` and `retriever`.
-/

namespace Skylight.Cpu

open X86

/-- Interrupt vectors. -/
abbrev Vector := Fin 256

/-- Vectors are written as numerals. -/
instance vectorNeZero : NeZero 256 := ⟨by decide⟩

instance vectorLawfulBEq : LawfulBEq Vector := inferInstance

/-- The symbols of the two files. -/
inductive Symbol
  | isrSaveTaskContext
  | isrRestoreTaskContext
  | irqStub (vector : Vector)
  | irqStubYesTask (vector : Vector)
  | irqStubNoTask (vector : Vector)
  | isrStub (vector : Vector)
  | isrXframeAssembler
  | isrXframeYesTask
  | isrXframeNoTask
  | syscallDispatch
  | syscallDispatchSysret
  | syscallDispatchGenerateUd
  | syscallSwitchKernel
  | syscallSwitchUser
  -- data
  | safeR15
  | routineHandlers
  | syscallTable
  | retriever
  -- compiled functions
  | pagingSyncCr3
  | isrExceptionHandler
  | routine (vector : Vector)
  | rdinfo
  | pmap
  | punmap
  | fbReq
  | fbKill
  | pid
  | kbMan
  | freeRam
  | displayWidth
  | displayHeight
  | displayBpp
  deriving DecidableEq, Repr

abbrev Text := List (Instr Symbol)

/-! ### `cpu/interrupts/isr.s` -/

/-- `isr_save_task_context` -/
def isrSaveTaskContext : Text := [
  .lea .r15 .safeR15,
  .load .r15 .r15 0,
  .push .rbp,
  .mov .rbp .rsp,
  .push .rbx,
  .push .rax,
  .fromCr .rax .cr3,
  .loadGs .rbx 0x20,
  .store .rbx 0x88 .rax,
  .pop .rax,
  .store .rbx 0x00 .rax,
  .mov .rax .rbx,
  .pop .rbx,
  .store .rax 0x08 .rbx,
  .store .rax 0x10 .rcx,
  .store .rax 0x18 .rdx,
  .store .rax 0x20 .rdi,
  .store .rax 0x28 .rsi,
  .store .rax 0x30 .r8,
  .store .rax 0x38 .r9,
  .store .rax 0x40 .r10,
  .store .rax 0x48 .r11,
  .store .rax 0x50 .r12,
  .store .rax 0x58 .r13,
  .store .rax 0x60 .r14,
  .store .rax 0x68 .r15,
  .lea .rax .pagingSyncCr3,
  .callReg .rax,
  .loadGs .rax 0x20,
  .pop .rbp,
  .ret]

/-- `isr_restore_task_context` -/
def isrRestoreTaskContext : Text := [
  .push .rbp,
  .mov .rbp .rsp,
  .loadGs .rax 0x20,
  .load .rax .rax 0x88,
  .toCr .cr3 .rax,
  .loadGs .rax 0x20,
  .load .rbx .rax 0x08,
  .load .rcx .rax 0x10,
  .load .rdx .rax 0x18,
  .load .rdi .rax 0x20,
  .load .rsi .rax 0x28,
  .load .r8 .rax 0x30,
  .load .r9 .rax 0x38,
  .load .r10 .rax 0x40,
  .load .r11 .rax 0x48,
  .load .r12 .rax 0x50,
  .load .r13 .rax 0x58,
  .load .r14 .rax 0x60,
  .load .r15 .rax 0x68,
  .load .rax .rax 0x00,
  .pop .rbp,
  .ret]

/-- `pushagrd` -/
def pushagrd : Text := [
  .push .rax, .push .rbx, .push .rcx, .push .rdx, .push .rsi, .push .rdi, .push .r8, .push .r9,
  .push .r10, .push .r11, .push .r12, .push .r13, .push .r14, .push .r15]

/-- `popagrd` -/
def popagrd : Text := [
  .pop .r15, .pop .r14, .pop .r13, .pop .r12, .pop .r11, .pop .r10, .pop .r9, .pop .r8,
  .pop .rdi, .pop .rsi, .pop .rdx, .pop .rcx, .pop .rbx, .pop .rax]

/-- `pushacrd` -/
def pushacrd : Text := [
  .fromCr .rax .cr0, .push .rax, .fromCr .rax .cr2, .push .rax, .fromCr .rax .cr3, .push .rax,
  .fromCr .rax .cr4, .push .rax]

/-- `popacrd` -/
def popacrd : Text := [
  .pop .rax, .toCr .cr4 .rax, .pop .rax, .toCr .cr3 .rax, .pop .rax, .toCr .cr2 .rax, .pop .rax,
  .toCr .cr0 .rax]

/-- The local save of `r15` that both `.yes_task` begin with. -/
def saveR15 : Text := [
  .push .rax,
  .mov .rax .r15,
  .lea .r15 .safeR15,
  .store .r15 0 .rax,
  .mov .r15 .rax,
  .pop .rax]

/-- The switch to kernel segments that both `.yes_task` begin with. -/
def kernelSegments : Text := [
  .movImm16 .rax 0x10,
  .toSeg .ds .rax,
  .toSeg .es .rax,
  .toSeg .ss .rax]

/-- `irq_stub`, from `.no_task` on -/
def irqStubNoTask (vector : Vector) : Text :=
  [.pop .rax, .pop .r15] ++ pushagrd ++ [
    .lea .r15 .routineHandlers,
    .load .r15 .r15 (BitVec.ofNat 64 (vector.val * 8)),
    .callReg .r15] ++ popagrd ++ [
    .pop .rbp,
    .iretq]

/-- `irq_stub`, from `.yes_task` on -/
def irqStubYesTask (vector : Vector) : Text :=
  [.swapgs] ++ kernelSegments ++ [
    .pop .rax,
    .pop .r15] ++ saveR15 ++ [
    .lea .r15 .isrSaveTaskContext,
    .callReg .r15,
    .storeGs 0x20 .rax,
    .lea .r15 .routineHandlers,
    .load .r15 .r15 (BitVec.ofNat 64 (vector.val * 8)),
    .callReg .r15,
    .movImm16 .rax 0x1b,
    .toSeg .ds .rax,
    .toSeg .es .rax,
    .lea .r15 .isrRestoreTaskContext,
    .callReg .r15,
    .pop .rbp,
    .swapgs,
    .iretq] ++ irqStubNoTask vector

/-- `irq_stub` -/
def irqStub (vector : Vector) : Text := [
  .push .rbp,
  .push .r15,
  .push .rax,
  .clear .rax,
  .fromSeg .rax .ds,
  .cmp16 .rax 0x10,
  .jne (.irqStubYesTask vector),
  .lea .r15 (.irqStubNoTask vector),
  .jmpReg .r15] ++ irqStubYesTask vector

/-- `isr_err_stub` -/
def isrErrStub (vector : Vector) : Text := [
  .pushImm (BitVec.ofNat 64 vector.val),
  .push .r15,
  .lea .r15 .isrXframeAssembler,
  .jmpReg .r15]

/-- `isr_no_err_stub` -/
def isrNoErrStub (vector : Vector) : Text := [.pushImm 0] ++ isrErrStub vector

/-- The vectors the table gives an `isr_err_stub`. -/
def errStubs : List Vector := [8, 10, 11, 12, 13, 14, 17, 30]

/-- `isr_stub_n` -/
def isrStub (vector : Vector) : Text :=
  if vector ∈ errStubs then isrErrStub vector else isrNoErrStub vector

/-- `isr_xframe_assembler`, from `.no_task` on -/
def isrXframeNoTask : Text := [
  .leaDisp .rdi .rsp 0x10,
  .lea .r15 .isrExceptionHandler,
  .callReg .r15,
  .pop .rax,
  .pop .rax,
  .toSeg .ds .rax,
  .toSeg .es .rax] ++ popacrd ++ popagrd ++ [
  .pop .rbp,
  .add .rsp 0x10,
  .iretq]

/-- `isr_xframe_assembler`, from `.yes_task` on -/
def isrXframeYesTask : Text :=
  [.swapgs] ++ kernelSegments ++ [
    .pop .rax,
    .pop .r15] ++ saveR15 ++ [
    .lea .r15 .isrSaveTaskContext,
    .callReg .r15,
    .storeGs 0x20 .rax,
    .leaDisp .rdi .rsp 0x10,
    .lea .r15 .isrExceptionHandler,
    .callReg .r15,
    .lea .r15 .isrRestoreTaskContext,
    .callReg .r15,
    .pop .rax,
    .pop .rax,
    .toSeg .ds .rax,
    .toSeg .es .rax] ++ popacrd ++ popagrd ++ [
    .pop .rbp,
    .add .rsp 0x10,
    .swapgs,
    .iretq] ++ isrXframeNoTask

/-- `isr_xframe_assembler` -/
def isrXframeAssembler : Text :=
  [.pop .r15, .push .rbp, .mov .rbp .rsp] ++ pushagrd ++ pushacrd ++ [
    .fromSeg .rax .ds,
    .push .rax,
    .pushImm 0,
    .push .r15,
    .push .rax,
    .clear .rax,
    .fromSeg .rax .ds,
    .cmp16 .rax 0x10,
    .jne .isrXframeYesTask,
    .lea .r15 .isrXframeNoTask,
    .jmpReg .r15] ++ isrXframeYesTask

/-! ### `proc/calls/handler.s` -/

/-- `nsyscalls` -/
def nsyscalls : Word := 152

/-- `syscall_switch_kernel` -/
def syscallSwitchKernel : Text := [
  .push .rbp,
  .mov .rbp .rsp,
  .loadGs .rax 0x20,
  .store .rax 0x00 .rax,
  .clear .rax,
  .movImm16 .rax 0x10,
  .toSeg .ds .rax,
  .toSeg .es .rax,
  .loadGs .rax 0x20,
  .store .rax 0x08 .rbx,
  .store .rax 0x10 .rcx,
  .store .rax 0x18 .rdx,
  .store .rax 0x20 .rdi,
  .store .rax 0x28 .rsi,
  .store .rax 0x30 .r8,
  .store .rax 0x38 .r9,
  .store .rax 0x40 .r10,
  .store .rax 0x48 .r11,
  .store .rax 0x50 .r12,
  .store .rax 0x58 .r13,
  .store .rax 0x60 .r14,
  .store .rax 0x68 .r15,
  .call .pagingSyncCr3,
  .pop .rbp,
  .ret]

/-- `syscall_switch_user` -/
def syscallSwitchUser : Text := [
  .push .rbp,
  .mov .rbp .rsp,
  .push .rax,
  .push .rdx,
  .loadGs .rax 0x20,
  .load .rax .rax 0x88,
  .toCr .cr3 .rax,
  .clear .rax,
  .movImm16 .rax 0x1b,
  .toSeg .ds .rax,
  .toSeg .es .rax,
  .loadGs .rax 0x20,
  .load .rbx .rax 0x08,
  .load .rcx .rax 0x10,
  .load .rdx .rax 0x18,
  .load .rdi .rax 0x20,
  .load .rsi .rax 0x28,
  .load .r8 .rax 0x30,
  .load .r9 .rax 0x38,
  .load .r10 .rax 0x40,
  .load .r11 .rax 0x48,
  .load .r12 .rax 0x50,
  .load .r13 .rax 0x58,
  .load .r14 .rax 0x60,
  .load .r15 .rax 0x68,
  .load .rax .rax 0x00,
  .pop .rdx,
  .pop .rax,
  .pop .rbp,
  .ret]

/-- `syscall_dispatch`, from `.generate_ud` on -/
def syscallDispatchGenerateUd : Text := [
  .clear .rax,
  .store .rcx 0 .rax,
  .jmp .syscallDispatchSysret]

/-- `syscall_dispatch`, from `.sysret` on -/
def syscallDispatchSysret : Text := [
  .call .syscallSwitchUser,
  .pop .rbp,
  .loadGs .rsp 0x28,
  .swapgs,
  .sysret] ++ syscallDispatchGenerateUd

/-- `syscall_dispatch` -/
def syscallDispatch : Text := [
  .swapgs,
  .storeGs 0x28 .rsp,
  .loadGs .rsp 0x10,
  .push .rbp,
  .mov .rbp .rsp,
  .cmp .rax nsyscalls,
  .jge .syscallDispatchGenerateUd,
  .push .rdi,
  .push .rsi,
  .push .rdx,
  .push .rax,
  .call .syscallSwitchKernel,
  .pop .rax,
  .pop .rdx,
  .pop .rsi,
  .pop .rdi,
  .lea .r10 .syscallTable,
  .leaScaled .r10 .r10 .rax 8,
  .load .rax .r10 0,
  .clear .r10,
  .cld,
  .callReg .rax] ++ syscallDispatchSysret

/-- The text from a symbol on; data and compiled functions have none. -/
def Symbol.text : Symbol → Option Text
  | .isrSaveTaskContext => some Cpu.isrSaveTaskContext
  | .isrRestoreTaskContext => some Cpu.isrRestoreTaskContext
  | .irqStub vector => some (Cpu.irqStub vector)
  | .irqStubYesTask vector => some (Cpu.irqStubYesTask vector)
  | .irqStubNoTask vector => some (Cpu.irqStubNoTask vector)
  | .isrStub vector => some (Cpu.isrStub vector)
  | .isrXframeAssembler => some Cpu.isrXframeAssembler
  | .isrXframeYesTask => some Cpu.isrXframeYesTask
  | .isrXframeNoTask => some Cpu.isrXframeNoTask
  | .syscallDispatch => some Cpu.syscallDispatch
  | .syscallDispatchSysret => some Cpu.syscallDispatchSysret
  | .syscallDispatchGenerateUd => some Cpu.syscallDispatchGenerateUd
  | .syscallSwitchKernel => some Cpu.syscallSwitchKernel
  | .syscallSwitchUser => some Cpu.syscallSwitchUser
  | _ => none

/-- The handlers of `syscall_table` by system-call number; every other entry is zero. -/
def syscallTable : Nat → Option Symbol
  | 144 => some .rdinfo
  | 145 => some .pmap
  | 146 => some .punmap
  | 147 => some .fbReq
  | 148 => some .fbKill
  | 149 => some .pid
  | 150 => some .kbMan
  | _ => none

/-! ### `proc/calls/handlers/rdinfo.c` -/

/-- The functions in `retriever`. -/
def retrievers : List Symbol := [.freeRam, .displayWidth, .displayHeight, .displayBpp]

/-- Where `retriever` has the function of a field. -/
def retrieverSlot (img : Image Symbol) (field : Word) : Word := img.addr .retriever + field * 8

/-- The address `rdinfo` calls, from its argument. -/
def rdinfoTarget (img : Image Symbol) (s : Cpu) : Word := s.mem (retrieverSlot img (s.reg .rdi))

end Skylight.Cpu
