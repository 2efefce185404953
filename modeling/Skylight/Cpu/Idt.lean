import Mathlib.Logic.Function.Basic
import Skylight.Cpu.Text

/-!
# The interrupt descriptor table

`cpu/interrupts/idt.c` over the table of stubs at the end of `isr.s`, which has 39 words. A word
behind the table is whatever the data section has there.
-/

namespace Skylight.Idt

open X86 (Word)
open Cpu (Vector Symbol)

/-- `idt_desc_t` -/
structure Descriptor where
  baseLow : BitVec 16
  cs : BitVec 16
  ist : BitVec 8
  attributes : BitVec 8
  baseMid : BitVec 16
  baseHigh : BitVec 32
  rsv0 : BitVec 32
  deriving DecidableEq

/-- `idtr_t` -/
structure Idtr where
  limit : BitVec 16
  base : Word

/-- The globals of `idt.c`, and what `idt_reload` last gave the processor. -/
structure State where
  idt : Vector → Descriptor
  idtr : Idtr
  vectors : Vector → Bool
  routineHandlers : Vector → Word
  loaded : Option Idtr

/-- `IDT_CPU_EXCEPTION_COUNT` -/
def cpuExceptionCount : Nat := 32

/-- `IDT_DESCRIPTOR_EXCEPTION` -/
def descriptorException : BitVec 8 := 0x0E ||| 0x80
/-- `IDT_DESCRIPTOR_EXTERNAL` -/
def descriptorExternal : BitVec 8 := 0x0E ||| 0x80

/-- `TSS_IST_EXCEPTION` -/
def tssIstException : BitVec 8 := 1
/-- `TSS_IST_ROUTINE` -/
def tssIstRoutine : BitVec 8 := 2

/-- `GDT_OFFSET_KERNEL_CODE` -/
def gdtOffsetKernelCode : BitVec 16 := 0x08

/-- The vectors that `isr.s` has an `irq_stub` for. -/
def irqStubs : List Vector := [32, 33, 34, 35, 36, 37, 38]

/-- The word of `isr_stub_table` at an index, with the words `behind` the table. -/
def isrStubTable (addr : Symbol → Word) (behind : Vector → Word) (vector : Vector) : Word :=
  if vector.val < cpuExceptionCount then addr (.isrStub vector)
  else if vector ∈ irqStubs then addr (.irqStub vector)
  else behind vector

/-- `idt_set_descriptor` -/
def idtSetDescriptor (vector : Vector) (isr : Word) (flags ist : BitVec 8) (s : State) : State :=
  let descriptor : Descriptor := {
    baseLow := (isr &&& 0xFFFF).setWidth 16
    cs := gdtOffsetKernelCode
    ist := ist
    attributes := flags
    baseMid := ((isr >>> 16) &&& 0xFFFF).setWidth 16
    baseHigh := ((isr >>> 32) &&& 0xFFFFFFFF).setWidth 32
    rsv0 := 0 }
  { s with idt := Function.update s.idt vector descriptor }

section
variable (addr : Symbol → Word) (behind : Vector → Word)

/-- `idt_install_irq_handler` -/
def idtInstallIrqHandler (vector : Vector) (handler : Word) (s : State) : State :=
  let s := { s with routineHandlers := Function.update s.routineHandlers vector handler }
  idtSetDescriptor vector (isrStubTable addr behind vector) descriptorExternal tssIstRoutine s

/-- A round of the loop of `idt_assemble`. -/
def assembleVector (s : State) (vector : Vector) : State :=
  let s := idtSetDescriptor vector (isrStubTable addr behind vector) descriptorException
    tssIstException s
  { s with vectors := Function.update s.vectors vector true }

/-- `idt_assemble`, with `__idt` at `base`. -/
def idtAssemble (base : Word) (s : State) : State :=
  let s := { s with idtr := ⟨16 * 256 - 1, base⟩ }
  let s := ((List.finRange 256).take cpuExceptionCount).foldl (assembleVector addr behind) s
  { s with loaded := some s.idtr }

end

/-- `idt_allocate_vector` -/
def idtAllocateVector (s : State) : Vector × State :=
  match (List.finRange 256).find? (!s.vectors ·) with
  | some i => (i, { s with vectors := Function.update s.vectors i true })
  | none => (0, s)

/-- `idt_free_vector` -/
def idtFreeVector (vector : Vector) (s : State) : State :=
  let s := idtSetDescriptor vector 0 0 0 s
  { s with
    routineHandlers := Function.update s.routineHandlers vector 0
    vectors := Function.update s.vectors vector false }

/-- Before `idt_assemble`. -/
def State.boot : State :=
  ⟨fun _ => ⟨0, 0, 0, 0, 0, 0, 0⟩, ⟨0, 0⟩, fun _ => false, fun _ => 0, none⟩

end Skylight.Idt
