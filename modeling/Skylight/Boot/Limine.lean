import Skylight.Boot.Protocol
import Skylight.Extra.Strings
import Skylight.Lib.Word
import Mathlib.Data.List.Basic
import Mathlib.Logic.Function.Basic

/-!
# Taking over from Limine

`limine_reinterpret` of `boot/limine/limine.c`: pages are taken from a free entry of Limine's memory
map, the map is copied into them in the kernel's own form, the first megabyte is made unusable in
the copy, and the table of the boot modules is written behind it. Memory is seen as 64-bit words
at their addresses. `get_boot_module` looks a module up by its name.
-/

namespace Skylight.Limine

/-- `LIMINE_MEMMAP_USABLE` -/
def memmapUsable : Nat := 0
/-- `LIMINE_MEMMAP_RESERVED` -/
def memmapReserved : Nat := 1
/-- `LIMINE_MEMMAP_ACPI_RECLAIMABLE` -/
def memmapAcpiReclaimable : Nat := 2
/-- `LIMINE_MEMMAP_ACPI_NVS` -/
def memmapAcpiNvs : Nat := 3
/-- `LIMINE_MEMMAP_BAD_MEMORY` -/
def memmapBadMemory : Nat := 4
/-- `LIMINE_MEMMAP_BOOTLOADER_RECLAIMABLE` -/
def memmapBootloaderReclaimable : Nat := 5
/-- `LIMINE_MEMMAP_KERNEL_AND_MODULES` -/
def memmapKernelAndModules : Nat := 6
/-- `LIMINE_MEMMAP_FRAMEBUFFER` -/
def memmapFramebuffer : Nat := 7

/-- `struct limine_memmap_entry` -/
structure MemmapEntry where
  base : Nat
  length : Nat
  type : Nat
  deriving DecidableEq, Repr

/-- The first address past an entry, as an integer and not as a word. -/
def MemmapEntry.fin (e : MemmapEntry) : Nat := e.base + e.length

/-- `struct limine_file`, as far as it is read; `cmdline` is the address of a string. -/
structure File where
  address : BitVec 64
  size : BitVec 64
  cmdline : BitVec 64

/-- `boot_module_t` -/
structure BootModule where
  virt : Nat
  phys : Nat
  size : Nat
  name : Nat

/-- `limine_mmap_type_convert` -/
def limineMmapTypeConvert (limineType : Nat) : Nat :=
  if limineType = memmapUsable then memoryMapFree
  else if limineType = memmapReserved then memoryMapBusy
  else if limineType = memmapKernelAndModules then memoryMapBusy
  else if limineType = memmapFramebuffer then memoryMapMmio
  else if limineType = memmapAcpiNvs then memoryMapNouse
  else if limineType = memmapBadMemory then memoryMapNouse
  else if limineType = memmapBootloaderReclaimable then memoryMapBusy
  else if limineType = memmapAcpiReclaimable then memoryMapBusy
  else memoryMapNouse

/-- `MEMORY_AMD_IOMMU_BLOCK_START` -/
def memoryAmdIommuBlockStart : Nat := 0xFD00000000
/-- `MEMORY_AMD_IOMMU_BLOCK_END` -/
def memoryAmdIommuBlockEnd : Nat := 0xFFFFFFFFFF

/-- The entry begins in the block of the AMD IOMMU. -/
def MemmapEntry.InIommu (e : MemmapEntry) : Prop :=
  memoryAmdIommuBlockStart ≤ e.base ∧ e.base ≤ memoryAmdIommuBlockEnd

instance (e : MemmapEntry) : Decidable e.InIommu := inferInstanceAs (Decidable (_ ∧ _))

/-- The parse before the search: the block of the IOMMU becomes bad memory. -/
def ignoreIommu (e : MemmapEntry) : MemmapEntry :=
  if e.InIommu then { e with type := memmapBadMemory } else e

/-- `sizeof(struct limine_memmap_entry)`, and of `memory_map_entry_t` -/
def entrySize : Nat := 24

/-- `sizeof(memory_map_t)` -/
def headerSize : Nat := 16

/-- `sizeof(boot_module_t)` -/
def moduleSize : Nat := 32

/-- `map_pages`: the pages of the entries, and two for the modules. -/
def mapPages (limineMapEntries : Nat) : Nat :=
  let bytes := Word.mul limineMapEntries entrySize
  (bytes / pageSize + if bytes % pageSize ≠ 0 then 1 else 0) + 2

/-- The search for a used entry before a free one that is large enough, by the number of the used
one. The last turn of the source reads an entry past the end; here it finds none. -/
def findPair (mapPages : Nat) : List MemmapEntry → Option Nat
  | used :: free :: rest =>
    if free.type = memmapUsable ∧ limineMmapTypeConvert used.type = memoryMapBusy ∧
        free.length / pageSize > mapPages then some 0
    else (findPair mapPages (free :: rest)).map (· + 1)
  | _ => none

/-- The pages go from the free entry to the used one. -/
def movePages (mapPages i : Nat) (limineMap : List MemmapEntry) : List MemmapEntry :=
  let size := Word.mul mapPages pageSize
  let limineMap := limineMap.modify i fun used =>
    { used with length := Word.add used.length size }
  limineMap.modify (i + 1) fun free =>
    { free with base := Word.add free.base size, length := Word.sub free.length size }

/-- An entry as it is copied. -/
def copyEntry (e : MemmapEntry) : MemoryMapEntry :=
  ⟨e.base, e.length, limineMmapTypeConvert e.type⟩

/-- The loop that makes the first megabyte unusable, from the second entry on. -/
def cutEntries : List MemoryMapEntry → List MemoryMapEntry
  | [] => []
  | e :: es =>
    if e.base < megabyte then
      (if Word.add e.base e.length < megabyte then
        { e with length := 0, signal := memoryMapNouse }
      else { e with base := megabyte, length := Word.sub e.length (megabyte - e.base) }) ::
        cutEntries es
    else e :: es

/-- The first entry is written over, the others are cut. -/
def reserveMegabyte : List MemoryMapEntry → List MemoryMapEntry
  | [] => []
  | _ :: es => ⟨0, megabyte, memoryMapNouse⟩ :: cutEntries es

/-- The words of memory. -/
abbrev Words := Nat → Nat

/-- A word is written. -/
def Words.set (w : Words) (address value : Nat) : Words := Function.update w address value

/-- The entries of the copied map, written from `address` on. -/
def writeEntries : List MemoryMapEntry → Nat → Words → Words
  | [], _, w => w
  | e :: es, address, w =>
    let w := w.set address e.base
    let w := w.set (address + 8) e.length
    let w := w.set (address + 16) e.signal
    writeEntries es (address + entrySize) w

/-- `boot_modules[i]` from a file -/
def bootModule (file : File) : BootModule :=
  { name := file.cmdline.toNat
    virt := file.address.toNat
    phys := file.address.toNat % 2 ^ 32
    size := file.size.toNat }

/-- The table of the modules, written from `address` on. -/
def writeModules : List BootModule → Nat → Words → Words
  | [], _, w => w
  | m :: ms, address, w =>
    let w := w.set (address + 24) m.name
    let w := w.set address m.virt
    let w := w.set (address + 8) m.phys
    let w := w.set (address + 16) m.size
    writeModules ms (address + moduleSize) w

/-- What is left for the kernel: the words of memory, and `memory_map`. -/
structure Handover where
  words : Words
  memoryMap : Nat

/-- `limine_reinterpret`, from the map and the modules of Limine; no answer means that no pair of
entries is found and the processor halts. -/
def limineReinterpret (words : Words) (limineMap : List MemmapEntry) (modules : List File) :
    Option Handover := do
  let mapPages := mapPages limineMap.length
  let limineMap := limineMap.map ignoreIommu
  let i ← findPair mapPages limineMap
  let free ← limineMap[i + 1]?
  let candidate := free.base
  let entries := reserveMegabyte ((movePages mapPages i limineMap).map copyEntry)
  let words := words.set (candidate + 8) (candidate + headerSize)
  let words := words.set candidate limineMap.length
  let words := writeEntries entries (candidate + headerSize) words
  let bootModules := candidate + (mapPages - 2) * pageSize
  let words := writeModules (modules.map bootModule) bootModules words
  return ⟨words, candidate⟩

/-- The loop of `get_boot_module`, by the number of the module; `strings` are the strings at their
addresses. -/
def getBootModuleLoop (strings : Nat → List (BitVec 8)) (name : List (BitVec 8)) :
    List BootModule → Nat → Option (Option Nat)
  | [], _ => some none
  | m :: ms, i => do
    if (← Strings.strcmp name (strings m.name)) = 0 then return some i
    getBootModuleLoop strings name ms (i + 1)

/-- `get_boot_module`: the number of the module, or `NULL`. -/
def getBootModule (strings : Nat → List (BitVec 8)) (bootModules : List BootModule)
    (name : List (BitVec 8)) : Option (Option Nat) :=
  if name.length > 128 then some none else getBootModuleLoop strings name bootModules 0

/-- The entries of the map, read back from `address` on. -/
def readEntries (w : Words) : Nat → Nat → List MemoryMapEntry
  | 0, _ => []
  | n + 1, address =>
    ⟨w address, w (address + 8), w (address + 16)⟩ :: readEntries w n (address + entrySize)

/-- The map that `pmm_start` reads through `memory_map`. -/
def Handover.map (h : Handover) : List MemoryMapEntry :=
  readEntries h.words (h.words h.memoryMap) (h.words (h.memoryMap + 8))

end Skylight.Limine
