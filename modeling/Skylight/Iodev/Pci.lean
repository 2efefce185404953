import Skylight.Iodev.Acpi
import Skylight.Proc.AddressSpace
import Skylight.Lib.Count

/-!
# The cache of PCI functions

`pci_conf_load_cache` of `iodev/pci/confrw.c`. The table `MCFG` and the configuration space are
bytes of memory; the cache is a block of the heap, where the call number `k` of `malloc` gives the
block whose elements are `heap k` at first.
-/

namespace Skylight.Pci

open Skylight.Acpi (Bytes read16 read64 acpiGetTable sdtLength)
open Skylight.Paging (Addr Request flagsKernelPage pagingVirtualOffset)
open Skylight.Count (forLoop)

/-- `pci_function_data_t` -/
structure FunctionData where
  base : Addr
  segment : BitVec 16
  bus : BitVec 8
  device : BitVec 8
  function : BitVec 8

/-- The globals of the cache, the calls of `malloc`, and the pages that were mapped. A null
`pci_function_cache` has no entries. -/
structure Cache where
  functionCacheEntries : Nat
  functionCache : Option (Nat → FunctionData)
  served : Nat
  mapped : List Request
  cached : Bool
  null : functionCache = none → functionCacheEntries = 0

/-- `sizeof(acpi_mcfg_header_t)` -/
def mcfgHeaderSize : Addr := 44

/-- `sizeof(acpi_mcfg_entry_t)` -/
def mcfgEntrySize : Addr := 16

/-- `ACPI_MCFG_GET_ENTRY` -/
def acpiMcfgGetEntry (mcfg : Addr) (index : BitVec 16) : Addr :=
  mcfg + mcfgHeaderSize + mcfgEntrySize * index.setWidth 64

/-- `entry->base` of an `acpi_mcfg_entry_t` -/
def entryBase (mem : Bytes) (entry : Addr) : Addr := read64 mem entry
/-- `entry->segment` -/
def entrySegment (mem : Bytes) (entry : Addr) : BitVec 16 := read16 mem (entry + 8)
/-- `entry->start_bus` -/
def entryStartBus (mem : Bytes) (entry : Addr) : BitVec 8 := mem (entry + 10)
/-- `entry->end_bus` -/
def entryEndBus (mem : Bytes) (entry : Addr) : BitVec 8 := mem (entry + 11)

/-- `header->device_id` of a `pci_dev_header_t` -/
def deviceId (mem : Bytes) (header : Addr) : BitVec 16 := read16 mem (header + 2)

/-- The test for a header behind which there is nothing. -/
def absent (mem : Bytes) (header : Addr) : Prop :=
  deviceId mem header = 0x0000 ∨ deviceId mem header = 0xFFFF

instance decidableAbsent (mem : Bytes) (header : Addr) : Decidable (absent mem header) :=
  inferInstanceAs (Decidable (_ ∨ _))

namespace Cache

/-- `paging_map_page` of a page of the configuration space, which answers where it is mapped. -/
def mapPage (c : Cache) (address : Addr) : Addr × Cache :=
  let virt := address + pagingVirtualOffset
  (virt, { c with mapped := c.mapped ++ [⟨virt, address, flagsKernelPage⟩] })

/-- `malloc` or `realloc`, for so many entries. `realloc` copies as many as the new block holds. -/
def allocate (heap : Nat → Nat → FunctionData) (c : Cache) (entries : Nat) : Nat → FunctionData :=
  match c.functionCache with
  | none => heap c.served
  | some pointer => fun i => if i < entries then pointer i else heap c.served i

/-- A function is added to the cache. -/
def add (heap : Nat → Nat → FunctionData) (c : Cache) (function : FunctionData) : Cache :=
  let entries := c.functionCacheEntries + 1
  { c with
    functionCacheEntries := entries
    functionCache := some (Function.update (c.allocate heap entries) (entries - 1) function)
    served := c.served + 1
    null := fun none => nomatch none }

end Cache

section
variable (mem : Bytes) (heap : Nat → Nat → FunctionData) (fuel : Nat) (seg : BitVec 16)

/-- A round of the loop over the functions of a device. -/
def loadFunction (bus device : BitVec 8) (deviceAddress : Addr) (function : BitVec 8) (c : Cache) :
    Option Cache :=
  let functionOffset := function.setWidth 64 <<< 12
  let functionAddress := deviceAddress + functionOffset
  let (functionHeader, c) := c.mapPage functionAddress
  if absent mem functionHeader then some c
  else some (c.add heap ⟨functionHeader, seg, bus, device, function⟩)

/-- A round of the loop over the devices of a bus. -/
def loadDevice (bus : BitVec 8) (busAddress : Addr) (device : BitVec 8) (c : Cache) :
    Option Cache :=
  let deviceOffset := device.setWidth 64 <<< 15
  let deviceAddress := busAddress + deviceOffset
  let (deviceHeader, c) := c.mapPage deviceAddress
  if absent mem deviceHeader then some c
  else forLoop (loadFunction mem heap seg bus device deviceAddress) 8 fuel 0 c

/-- A round of the loop over the buses of a segment. -/
def loadBus (base : Addr) (bus : BitVec 8) (c : Cache) : Option Cache :=
  let busOffset := bus.setWidth 64 <<< 20
  let busAddress := base + busOffset
  let (busHeader, c) := c.mapPage busAddress
  if absent mem busHeader then some c
  else forLoop (loadDevice mem heap fuel seg bus busAddress) 32 fuel 0 c

/-- A round of the loop over the segments. -/
def loadSegment (mcfg : Addr) (c : Cache) : Option Cache :=
  let segment := acpiMcfgGetEntry mcfg seg
  forLoop (loadBus mem heap fuel seg (entryBase mem segment)) (entryEndBus mem segment).toNat fuel
    (entryStartBus mem segment) c

end

/-- `table_entries` -/
def tableEntries (mem : Bytes) (mcfg : Addr) : Addr :=
  let tableLength := (sdtLength mem mcfg).setWidth 64 - mcfgHeaderSize
  tableLength / mcfgEntrySize

/-- `MCFG` -/
def mcfgSignature : List (BitVec 8) := [0x4D, 0x43, 0x46, 0x47]

/-- `pci_conf_load_cache` -/
def pciConfLoadCache (mem : Bytes) (acpiRsdp : Addr) (heap : Nat → Nat → FunctionData) (fuel : Nat)
    (c : Cache) : Option Cache :=
  (acpiGetTable mem acpiRsdp fuel mcfgSignature 0).bind fun mcfg =>
    if mcfg = 0 then some c
    else
      (forLoop (fun seg => loadSegment mem heap fuel seg mcfg) (tableEntries mem mcfg).toNat fuel 0
        c).map fun c => { c with cached := true }

/-- Before the first call. -/
def Cache.boot : Cache := ⟨0, none, 0, [], false, fun _ => rfl⟩

end Skylight.Pci
