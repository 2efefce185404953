import Mathlib.Tactic.FinCases
import Skylight.Laws.Cpu.Context

/-!
# A linked kernel to run on

The two files linked at small addresses, a page a symbol, with compiled functions of the
reader's choice. The stack, the context and the gs page of a task are far from it and from
each other.

The laws of the modules beside this one are about any image that is a `Kernel`; here is one, so
that their hypotheses can be met together. Nothing is proved of the code itself.
-/

namespace Skylight.Cpu

open X86

/-- The symbols numbered, the ones with a vector by families of 256. -/
def Symbol.number : Symbol → Nat
  | .isrSaveTaskContext => 1
  | .isrRestoreTaskContext => 2
  | .isrXframeAssembler => 3
  | .isrXframeYesTask => 4
  | .isrXframeNoTask => 5
  | .syscallDispatch => 6
  | .syscallDispatchSysret => 7
  | .syscallDispatchGenerateUd => 8
  | .syscallSwitchKernel => 9
  | .syscallSwitchUser => 10
  | .safeR15 => 11
  | .routineHandlers => 12
  | .syscallTable => 13
  | .pagingSyncCr3 => 14
  | .isrExceptionHandler => 15
  | .rdinfo => 16
  | .pmap => 17
  | .punmap => 18
  | .fbReq => 19
  | .fbKill => 20
  | .pid => 21
  | .kbMan => 22
  | .retriever => 23
  | .freeRam => 24
  | .displayWidth => 25
  | .displayHeight => 26
  | .displayBpp => 27
  | .irqStub v => 256 + v.val
  | .irqStubYesTask v => 512 + v.val
  | .irqStubNoTask v => 768 + v.val
  | .isrStub v => 1024 + v.val
  | .routine v => 1280 + v.val

/-- The symbols without a vector. -/
def Symbol.single : List Symbol :=
  [.isrSaveTaskContext, .isrRestoreTaskContext, .isrXframeAssembler, .isrXframeYesTask,
    .isrXframeNoTask, .syscallDispatch, .syscallDispatchSysret, .syscallDispatchGenerateUd,
    .syscallSwitchKernel, .syscallSwitchUser, .safeR15, .routineHandlers, .syscallTable,
    .pagingSyncCr3, .isrExceptionHandler, .rdinfo, .pmap, .punmap, .fbReq, .fbKill, .pid, .kbMan,
    .retriever, .freeRam, .displayWidth, .displayHeight, .displayBpp]

/-- The symbol with a number. -/
def Symbol.ofNumber (n : Nat) : Option Symbol :=
  match n / 256 with
  | 0 => Symbol.single[n - 1]?
  | 1 => some (.irqStub (Fin.ofNat 256 n))
  | 2 => some (.irqStubYesTask (Fin.ofNat 256 n))
  | 3 => some (.irqStubNoTask (Fin.ofNat 256 n))
  | 4 => some (.isrStub (Fin.ofNat 256 n))
  | 5 => some (.routine (Fin.ofNat 256 n))
  | _ => none

/-- There are six families of numbers. -/
theorem Symbol.number_lt (f : Symbol) : f.number < 1536 := by
  cases f <;> simp only [Symbol.number] <;> omega

/-- A number tells its family and its vector. -/
theorem family (b : Nat) (v : Vector) :
    (256 * b + v.val) / 256 = b ∧ Fin.ofNat 256 (256 * b + v.val) = v := by
  refine ⟨by omega, ?_⟩
  ext
  rw [Fin.val_ofNat]
  omega

/-- A number tells its symbol. -/
theorem Symbol.ofNumber_number (f : Symbol) : Symbol.ofNumber f.number = some f := by
  cases f with
  | irqStub v => simp only [ofNumber, number, (family 1 v).1, (family 1 v).2]
  | irqStubYesTask v => simp only [ofNumber, number, (family 2 v).1, (family 2 v).2]
  | irqStubNoTask v => simp only [ofNumber, number, (family 3 v).1, (family 3 v).2]
  | isrStub v => simp only [ofNumber, number, (family 4 v).1, (family 4 v).2]
  | routine v => simp only [ofNumber, number, (family 5 v).1, (family 5 v).2]
  | _ => rfl

/-- The kernel linked, a page a symbol. -/
def machineImage (compiled : Symbol → Cpu → Cpu) : Image Symbol where
  addr f := BitVec.ofNat 64 (0x1000 * f.number)
  symbol a := if a.toNat % 0x1000 = 0 then Symbol.ofNumber (a.toNat / 0x1000) else none
  symbol_addr f := by
    have lt := f.number_lt
    have value : (BitVec.ofNat 64 (0x1000 * f.number)).toNat = 0x1000 * f.number := by
      rw [BitVec.toNat_ofNat]
      omega
    rw [value, if_pos (Nat.mul_mod_right _ _), Nat.mul_div_cancel_left _ (by decide),
      f.ofNumber_number]
  code := Symbol.text
  compiled := compiled
  place text := BitVec.ofNat 64 (0x1000000 + text.length)

/-- The kernel's page tables. -/
def machinePml4 : Word := 0x2000

/-- `paging_sync_cr3` on the machine; every other function returns zero. -/
def machineCompiled : Symbol → Cpu → Cpu
  | .pagingSyncCr3, s => { s with cr := Function.update s.cr .cr3 machinePml4 }
  | _, s => s.set .rax 0

/-- The compiled function keeps to the calling convention. -/
theorem machine_returns (keep : Set Word) (s : Cpu) :
    Returns keep (s.cr .cr3) s (s.set .rax 0) where
  reg r saved := by
    rw [Cpu.set_reg, if_neg]
    rintro rfl
    cases saved
  seg := rfl
  cr := (Function.update_eq_self _ _).symm
  gsBase := rfl
  kernelGsBase := rfl
  mem _ _ := rfl

/-- It is the kernel, linked. -/
theorem machine_kernel : Kernel (machineImage machineCompiled) machinePml4 where
  text := rfl
  syncs _ := ⟨fun _ _ => rfl, rfl, rfl, rfl, rfl, fun _ _ => rfl⟩

/-- The interrupt stack of the machine ends at `machineIst`; the task's context and gs page. -/
def machineIst : Word := 0x2000000
def machineContext : Word := 0x3000000
def machineGs : Word := 0x4000000

/-- Stack, context and gs page are apart wherever the last two are in their ranges. -/
theorem machine_apart_between {c g : Word} (c₁ : 0x3000000 ≤ c) (c₂ : c ≤ 0x3001000)
    (g₁ : 0x4000000 ≤ g) (g₂ : g ≤ 0x4001000) : Apart 8400 (slot (alignStack machineIst) 1) c g
    ((machineImage machineCompiled).addr .safeR15) := by
  have ist : alignStack machineIst = 0x2000000 := by decide
  have safe : (machineImage machineCompiled).addr .safeR15 = 0xb000 := by decide
  rw [ist, safe]
  constructor
  case stack_context =>
    intro j i hj hi
    rw [slot_slot, slot]
    bv_omega
  case stack_gs =>
    intro j i hj hi
    rw [slot_slot, slot]
    bv_omega
  case stack_safe =>
    intro j hj
    rw [slot_slot, slot]
    bv_omega
  all_goals
    intros
    bv_omega

/-- And so are the machine's. -/
theorem machine_apart : Apart 8400 (slot (alignStack machineIst) 1) machineContext machineGs
    ((machineImage machineCompiled).addr .safeR15) :=
  machine_apart_between (by decide) (by decide) (by decide) (by decide)

/-- The quadwords of the machine's memory that are not zero for a caller of the system. -/
def machineCells : List (Word × Word) :=
  let image := machineImage machineCompiled
  [(machineGs + 0x10, alignStack machineIst), (machineGs + 0x20, machineContext),
    (machineContext + 0x88, 0x9000),
    (0xd000 + 144 * 8, image.addr .rdinfo), (0xd000 + 145 * 8, image.addr .pmap),
    (0xd000 + 146 * 8, image.addr .punmap), (0xd000 + 147 * 8, image.addr .fbReq),
    (0xd000 + 148 * 8, image.addr .fbKill), (0xd000 + 149 * 8, image.addr .pid),
    (0xd000 + 150 * 8, image.addr .kbMan),
    (0x17000, image.addr .freeRam), (0x17008, image.addr .displayWidth),
    (0x17010, image.addr .displayHeight), (0x17018, image.addr .displayBpp)]

/-- A task of the machine that calls the system with a number. -/
def machineCaller (number : Word) : Cpu where
  reg r := match r with
    | .rax => number
    | .rcx => 0x401000
    | r => contextOffset r + 0x700000
  cr c := if c = .cr3 then 0x9000 else 0x20
  seg _ := 0x1b
  rflags := 0x202
  rip := 0x401000
  gsBase := 0
  kernelGsBase := machineGs
  mem a := (machineCells.lookup a).getD 0
  zero := false
  less := false

end Skylight.Cpu
