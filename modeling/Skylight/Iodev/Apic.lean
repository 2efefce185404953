import Mathlib.Logic.Function.Basic
import Skylight.Iodev.Acpi

/-!
# Setting up the interrupt controllers

`iodev/apic/initialize.c` over the table of `iodev/acpi/tables/madt.h`. The three loops over the
records are one loop with three bodies: each goes to the next record before it looks at one.
The registers of a controller are what was last written to them.
-/

namespace Skylight.Apic

open Skylight.Acpi
open Skylight.Paging (Addr)

/-- `ACPI_MADT_RECORD_TYPE_IOAPIC` -/
def recordTypeIoapic : BitVec 8 := 1
/-- `ACPI_MADT_RECORD_TYPE_ISO` -/
def recordTypeIso : BitVec 8 := 2
/-- `ACPI_MADT_RECORD_TYPE_LOCAL_NMI` -/
def recordTypeLocalNmi : BitVec 8 := 4

/-- `sizeof(acpi_madt_header_t)` -/
def madtHeaderSize : Addr := 44

/-- `madt->common.length` -/
def madtLength (mem : Bytes) (madt : Addr) : BitVec 32 := sdtLength mem madt

/-- `madt->lapic_address` -/
def madtLapicAddress (mem : Bytes) (madt : Addr) : BitVec 32 := read32 mem (madt + 36)

/-- `record->type` -/
def recordType (mem : Bytes) (record : Addr) : BitVec 8 := mem record

/-- `record->length` -/
def recordLength (mem : Bytes) (record : Addr) : BitVec 8 := mem (record + 1)

/-- `acpi_madt_record_ioapic_t`, as far as it is read. -/
structure Controller where
  ioapicId : BitVec 8
  ioapicAddress : BitVec 32
  deriving DecidableEq

def controllerAt (mem : Bytes) (record : Addr) : Controller :=
  ⟨mem (record + 2), read32 mem (record + 4)⟩

/-- `acpi_madt_record_iso_t`, as far as it is read. -/
structure Override where
  irqSource : BitVec 8
  gsi : BitVec 32
  flags : BitVec 16
  deriving DecidableEq

def overrideAt (mem : Bytes) (record : Addr) : Override :=
  ⟨mem (record + 3), read32 mem (record + 4), read16 mem (record + 8)⟩

/-- `acpi_madt_record_nmi_t` -/
structure Nmi where
  processorId : BitVec 8
  flags : BitVec 16
  lintNo : BitVec 8

def nmiAt (mem : Bytes) (record : Addr) : Nmi :=
  ⟨mem (record + 2), read16 mem (record + 3), mem (record + 5)⟩

/-- `!!(flags & ACPI_MADT_RECORD_ISO_NMI_FLAG_ACTIVE_LOW)` -/
def activeLow (flags : BitVec 16) : Bool := flags &&& 0x02 != 0

/-- `!!(flags & ACPI_MADT_RECORD_ISO_NMI_FLAG_LEVEL_TRIGGERED)` -/
def levelTriggered (flags : BitVec 16) : Bool := flags &&& 0x80 != 0

/-- A loop over the records, from `record` on; `fuel` bounds the rounds. -/
def recordLoop {σ : Type} (mem : Bytes) (madt : Addr) (body : σ → Addr → σ) :
    Nat → Addr → σ → Option σ
  | 0, _, _ => none
  | fuel + 1, record, s =>
    if record - madt ≥ (madtLength mem madt).setWidth 64 then some s else
    let record := record + (recordLength mem record).setWidth 64
    recordLoop mem madt body fuel record (body s record)

/-- The registers of the local APIC that are written here. -/
inductive LocalRegister
  | spuriousIntVector
  | lvtLint0
  | lvtLint1
  deriving DecidableEq

/-- The local APIC: where it is, its id, and its registers. -/
structure LocalApic where
  base : Addr
  id : BitVec 32
  registers : LocalRegister → BitVec 32

/-- `apic_local_write` -/
def LocalApic.write (lapic : LocalApic) (r : LocalRegister) (value : BitVec 32) : LocalApic :=
  { lapic with registers := Function.update lapic.registers r value }

/-- What `configure_local_apic` does with a record. -/
def localRecord (mem : Bytes) (lapicId : BitVec 32) (lapic : LocalApic) (record : Addr) :
    LocalApic :=
  if recordType mem record = recordTypeLocalNmi then
    let lint01Record := nmiAt mem record
    if lint01Record.processorId.setWidth 32 ≠ lapicId ∧ lint01Record.processorId ≠ 0xff then
      lapic
    else
      let lvt : LocalRegister := if lint01Record.lintNo = 0 then .lvtLint0 else .lvtLint1
      let entry : BitVec 32 := 0x04 <<< 8
      let entry := entry ||| (BitVec.ofBool (levelTriggered lint01Record.flags)).setWidth 32 <<< 13
      let entry := entry ||| (BitVec.ofBool (activeLow lint01Record.flags)).setWidth 32 <<< 15
      lapic.write lvt entry
  else lapic

/-- `configure_local_apic` -/
def configureLocalApic (mem : Bytes) (madt : Addr) (fuel : Nat) (lapic : LocalApic) :
    Option LocalApic :=
  let lapic := { lapic with base := (madtLapicAddress mem madt).setWidth 64 }
  let lapic := lapic.write .spuriousIntVector (0x100 ||| lapic.registers .spuriousIntVector)
  recordLoop mem madt (localRecord mem lapic.id) fuel (madt + madtHeaderSize) lapic

/-- What `configure_io_apic` fills: the controllers `apic_io_register_controller` was called with,
the registers of controller 0, and the bytes from `gsi_map` on, of which the array has 24. -/
structure IoApic where
  registered : List Controller
  registers : BitVec 32 → BitVec 32
  gsiMap : BitVec 8 → BitVec 8

/-- `IOAPIC_REGISTER_REDIRECTION` -/
def ioapicRegisterRedirection (n : BitVec 8) : BitVec 32 := 0x0010 + 2 * n.setWidth 32

/-- `apic_io_write` to controller 0 -/
def IoApic.write (io : IoApic) (reg value : BitVec 32) : IoApic :=
  { io with registers := Function.update io.registers reg value }

/-- `apic_io_redirect_irq` -/
def apicIoRedirectIrq (irq vector : BitVec 8) (alow ltriggered : Bool) (io : IoApic) : IoApic :=
  let redirect := vector.setWidth 32
  let redirect := redirect ||| (BitVec.ofBool alow).setWidth 32 <<< 13
  let redirect := redirect ||| (BitVec.ofBool ltriggered).setWidth 32 <<< 15
  let redirect := redirect ||| 1 <<< 16
  let io := io.write (ioapicRegisterRedirection irq + 1) 0
  io.write (ioapicRegisterRedirection irq) redirect

/-- `initialize_gsi_map` -/
def initializeGsiMap (io : IoApic) : IoApic :=
  let set (map : BitVec 8 → BitVec 8) (i : Nat) := 
    Function.update map (BitVec.ofNat 8 i) (BitVec.ofNat 8 i)
  { io with gsiMap := (List.range 24).foldl set io.gsiMap }

/-- What the first loop of `configure_io_apic` does with a record. -/
def ioapicRecord (mem : Bytes) (io : IoApic) (record : Addr) : IoApic :=
  if recordType mem record = recordTypeIoapic then
    { io with registered := io.registered ++ [controllerAt mem record] }
  else io

/-- What the second loop of `configure_io_apic` does with a record. -/
def isoRecord (mem : Bytes) (io : IoApic) (record : Addr) : IoApic :=
  if recordType mem record = recordTypeIso then
    let override := overrideAt mem record
    let io := apicIoRedirectIrq (override.gsi.setWidth 8) 0x00 (activeLow override.flags)
      (levelTriggered override.flags) io
    { io with gsiMap := Function.update io.gsiMap override.irqSource (override.gsi.setWidth 8) }
  else io

/-- `configure_io_apic` -/
def configureIoApic (mem : Bytes) (madt : Addr) (fuel : Nat) (io : IoApic) : Option IoApic := do
  let io ← recordLoop mem madt (ioapicRecord mem) fuel (madt + madtHeaderSize) io
  let io := initializeGsiMap io
  recordLoop mem madt (isoRecord mem) fuel (madt + madtHeaderSize) io

/-- `apic_io_get_gsi` -/
def apicIoGetGsi (irq : BitVec 8) (io : IoApic) : BitVec 8 := io.gsiMap irq

/-- `apic_io_read` of controller 0 -/
def IoApic.read (io : IoApic) (reg : BitVec 32) : BitVec 32 := io.registers reg

/-- `apic_io_mask_irq` -/
def apicIoMaskIrq (irq : BitVec 8) (io : IoApic) : IoApic :=
  io.write (ioapicRegisterRedirection irq) (io.read (ioapicRegisterRedirection irq) ||| 0x10000)

/-- `apic_io_unmask_irq` -/
def apicIoUnmaskIrq (irq : BitVec 8) (io : IoApic) : IoApic :=
  io.write (ioapicRegisterRedirection irq) (io.read (ioapicRegisterRedirection irq) &&& ~~~0x10000)

/-- `apic_io_redirect_t` -/
structure Redirect where
  irq : BitVec 8
  vector : BitVec 8
  activeLow : Bool
  levelTriggered : Bool
  masked : Bool
  deriving DecidableEq

/-- `apic_io_get_redirect` -/
def apicIoGetRedirect (irq : BitVec 8) (io : IoApic) : Redirect :=
  let entry := io.read (ioapicRegisterRedirection irq)
  { irq := irq
    vector := (entry &&& 0xFF).setWidth 8
    activeLow := entry &&& 1 <<< 13 != 0
    levelTriggered := entry &&& 1 <<< 15 != 0
    masked := entry &&& 1 <<< 16 != 0 }

end Skylight.Apic
