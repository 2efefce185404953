import Mathlib.Data.List.Basic
import Skylight.Mem.Paging.Reload

/-!
# Tables of the firmware

`iodev/acpi/tables/tables.c` and the tables it finds, read from the bytes of memory. The
pointers in RSDT and XSDT are physical; a table is reached at `PAGING_VIRTUAL_OFFSET` above it.
-/

namespace Skylight.Acpi

open Skylight.Paging (Addr pagingVirtualOffset)

/-- The bytes of memory. -/
abbrev Bytes := Addr → BitVec 8

/-- A `uint16_t` in memory. -/
def read16 (mem : Bytes) (a : Addr) : BitVec 16 := mem (a + 1) ++ mem a

/-- A `uint32_t` in memory. -/
def read32 (mem : Bytes) (a : Addr) : BitVec 32 := read16 mem (a + 2) ++ read16 mem a

/-- A `uint64_t` in memory. -/
def read64 (mem : Bytes) (a : Addr) : BitVec 64 := read32 mem (a + 4) ++ read32 mem a

/-- `header->signature` of an `acpi_sdt_header_t` -/
def sdtSignature (mem : Bytes) (header : Addr) : List (BitVec 8) :=
  [mem header, mem (header + 1), mem (header + 2), mem (header + 3)]

/-- `header->length` -/
def sdtLength (mem : Bytes) (header : Addr) : BitVec 32 := read32 mem (header + 4)

/-- `sizeof(acpi_sdt_header_t)` -/
def sdtHeaderSize : Addr := 36

/-- `sizeof(uintptr_t)` -/
def pointerSize : Addr := 8

/-- `acpi_rsdp->rsdt` of an `acpi_rdsp2_t` -/
def rsdpRsdt (mem : Bytes) (rsdp : Addr) : BitVec 32 := read32 mem (rsdp + 16)

/-- `acpi_rsdp->xsdt` -/
def rsdpXsdt (mem : Bytes) (rsdp : Addr) : Addr := read64 mem (rsdp + 24)

/-- `sizeof(acpi_rdsp2_t)` -/
def rsdpSize : Addr := 36

/-- The number of entries both accessors take a table to have. -/
def sdtEntries (mem : Bytes) (header : Addr) : Addr :=
  ((sdtLength mem header).setWidth 64 - sdtHeaderSize) / pointerSize

/-- `acpi_rsdt_get` -/
def acpiRsdtGet (mem : Bytes) (acpiRsdp : Addr) (index : BitVec 16) : Addr :=
  let rsdtHeader := (rsdpRsdt mem acpiRsdp).setWidth 64 + pagingVirtualOffset
  let rsdtEntries := sdtEntries mem rsdtHeader
  if index.setWidth 64 ≥ rsdtEntries then 0 else
  let rsdt := (rsdpRsdt mem acpiRsdp).setWidth 64 + sdtHeaderSize + pagingVirtualOffset
  (read32 mem (rsdt + 4 * index.setWidth 64)).setWidth 64 + pagingVirtualOffset

/-- `acpi_xsdt_get` -/
def acpiXsdtGet (mem : Bytes) (acpiRsdp : Addr) (index : BitVec 16) : Addr :=
  let xsdtHeader := rsdpXsdt mem acpiRsdp + pagingVirtualOffset
  let xsdtEntries := sdtEntries mem xsdtHeader
  if index.setWidth 64 ≥ xsdtEntries then 0 else
  let xsdt := rsdpXsdt mem acpiRsdp + sdtHeaderSize + pagingVirtualOffset
  read64 mem (xsdt + 8 * index.setWidth 64) + pagingVirtualOffset

/-- The loop of `acpi_get_table`. `strncmp` of four characters, none of them null, compares the
four; `fuel` bounds the rounds. -/
def getTableLoop (mem : Bytes) (get : BitVec 16 → Addr) (signature : List (BitVec 8))
    (index : BitVec 16) : Nat → BitVec 16 → BitVec 16 → Option Addr
  | 0, _, _ => none
  | fuel + 1, i, tableOccurence =>
    let header := get i
    if header = 0 then some 0
    else if sdtSignature mem header = signature ∧ tableOccurence = index then some header
    else if sdtSignature mem header = signature then
      getTableLoop mem get signature index fuel (i + 1) (tableOccurence + 1)
    else getTableLoop mem get signature index fuel (i + 1) tableOccurence

/-- `acpi_get_table`. The test for a null pointer subtracts the offset from a pointer, so it takes
`PAGING_VIRTUAL_OFFSET` times the size of the structure off. -/
def acpiGetTable (mem : Bytes) (acpiRsdp : Addr) (fuel : Nat) (signature : List (BitVec 8))
    (index : BitVec 16) : Option Addr :=
  if acpiRsdp - pagingVirtualOffset * rsdpSize = 0 then some 0
  else if signature.length ≠ 4 then some 0
  else
    let xsdt := rsdpXsdt mem acpiRsdp != 0
    let get := if xsdt then acpiXsdtGet mem acpiRsdp else acpiRsdtGet mem acpiRsdp
    getTableLoop mem get signature index fuel 0 0

end Skylight.Acpi
