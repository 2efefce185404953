import Skylight.Iodev.Pci
import Skylight.Lib.Bytes

/-!
# Access to PCI functions

The accessors of `iodev/pci/confrw.c` and `find_device` of `find.c`. The configuration space is seen
as memory, which keeps what is written to it.
-/

namespace Skylight.Pci

open Skylight.Acpi (Bytes)
open Skylight.Paging (Addr)
open Skylight.Bytes (loadBytes storeBytes)

/-- The cache and the bytes of memory. -/
structure Conf where
  cache : Cache
  mem : Bytes

/-- The tests of the accessors. -/
def FunctionData.Matches (iterator : FunctionData) (segment : BitVec 16)
    (bus device function : BitVec 8) : Prop :=
  iterator.segment = segment ∧ iterator.bus = bus ∧ iterator.device = device ∧
    iterator.function = function

instance (iterator : FunctionData) (segment : BitVec 16) (bus device function : BitVec 8) :
    Decidable (iterator.Matches segment bus device function) :=
  inferInstanceAs (Decidable (_ ∧ _))

section
variable (acpiRsdp : Addr) (heap : Nat → Nat → FunctionData) (fuel : Nat)

/-- `if (!cached) pci_conf_load_cache();` -/
def Conf.load (s : Conf) : Option Conf :=
  if !s.cache.cached then
    (pciConfLoadCache s.mem acpiRsdp heap fuel s.cache).map fun c => { s with cache := c }
  else some s

variable (segment : BitVec 16) (bus device function : BitVec 8) (offset : BitVec 16)

/-- An accessor that writes so many bytes. It does not stop at the first function that matches. -/
def pciConfWrite (bytes : Nat) (value : Nat) (s : Conf) : Option Conf := do
  let s ← s.load acpiRsdp heap fuel
  match s.cache.functionCache with
  | none => return s
  | some cache =>
    let mem := (List.range s.cache.functionCacheEntries).foldl (fun mem i =>
      let iterator := cache i
      if iterator.Matches segment bus device function then
        storeBytes mem bytes (iterator.base + offset.setWidth 64) value
      else mem) s.mem
    return { s with mem := mem }

/-- `pci_conf_write_byte` -/
def pciConfWriteByte (value : BitVec 8) : Conf → Option Conf :=
  pciConfWrite acpiRsdp heap fuel segment bus device function offset 1 value.toNat

/-- `pci_conf_write_word` -/
def pciConfWriteWord (value : BitVec 16) : Conf → Option Conf :=
  pciConfWrite acpiRsdp heap fuel segment bus device function offset 2 value.toNat

/-- `pci_conf_write_long` -/
def pciConfWriteLong (value : BitVec 32) : Conf → Option Conf :=
  pciConfWrite acpiRsdp heap fuel segment bus device function offset 4 value.toNat

/-- An accessor that reads so many bytes, of the first function that matches. -/
def pciConfRead (bytes : Nat) (s : Conf) : Option (Nat × Conf) := do
  let s ← s.load acpiRsdp heap fuel
  match s.cache.functionCache with
  | none => return (0, s)
  | some cache =>
    let found := (List.range s.cache.functionCacheEntries).findSome? fun i =>
      let iterator := cache i
      if iterator.Matches segment bus device function then
        some (loadBytes s.mem bytes (iterator.base + offset.setWidth 64))
      else none
    return (found.getD 0, s)

/-- `pci_conf_read_byte` -/
def pciConfReadByte (s : Conf) : Option (BitVec 8 × Conf) :=
  (pciConfRead acpiRsdp heap fuel segment bus device function offset 1 s).map
    fun (value, s) => (BitVec.ofNat 8 value, s)

/-- `pci_conf_read_word` -/
def pciConfReadWord (s : Conf) : Option (BitVec 16 × Conf) :=
  (pciConfRead acpiRsdp heap fuel segment bus device function offset 2 s).map
    fun (value, s) => (BitVec.ofNat 16 value, s)

/-- `pci_conf_read_long` -/
def pciConfReadLong (s : Conf) : Option (BitVec 32 × Conf) :=
  (pciConfRead acpiRsdp heap fuel segment bus device function offset 4 s).map
    fun (value, s) => (BitVec.ofNat 32 value, s)

end

/-- `device->device_class`, `device->device_subclass` and `device->program_interface` -/
def classCodes (mem : Bytes) (header : Addr) : BitVec 8 × BitVec 8 × BitVec 8 :=
  (mem (header + 11), mem (header + 10), mem (header + 9))

/-- `find_device`, which does not load the cache. -/
def findDevice (deviceClass subclass interface : BitVec 8) (s : Conf) : Option FunctionData :=
  match s.cache.functionCache with
  | none => none
  | some cache =>
    (List.range s.cache.functionCacheEntries).findSome? fun i =>
      if classCodes s.mem (cache i).base = (deviceClass, subclass, interface) then some (cache i)
      else none

end Skylight.Pci
