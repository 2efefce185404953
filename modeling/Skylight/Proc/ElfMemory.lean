import Skylight.Proc.Elf

/-!
# The program loader in one memory

`proc/loader/elf.c` once more, with everything it reads where the kernel has it: the file, the
`elf_load_info_t` and the records lie in the memory that the loader writes, and each of them is
read again whenever the source reads it. A segment that is copied to an address of theirs changes
what the loader does next. Only `pmm_alloc_pool` is a parameter, by the addresses it answers, and
so are the addresses of the `elf_load_info_t` and of the page of its records.
-/

namespace Skylight.ElfMemory

open Bytes Elf

/-- The memory of the kernel, how often `pmm_alloc_pool` was called, which is once for each record,
and the program headers that were examined. -/
structure Kernel where
  bytes : Memory
  pools : Nat
  examined : List Addr

/-- What memory holds from the start of the file on. -/
def image (m : Memory) (file : Addr) : Memory := fun x => m (file + x)

/-- `info->segment_count` -/
def segmentCount (m : Memory) (info : Addr) : Addr := load m (info + 8)

/-- `info->segments` -/
def segments (m : Memory) (info : Addr) : Addr := load m (info + 16)

/-- The `elf_loaded_page_t` at an address. -/
def elfLoadedPage (m : Memory) (record : Addr) : Paging.ElfLoadedPage :=
  ⟨load m record, load m (record + 8), load m (record + 16)⟩

/-- `info->segments[i]` for each `i` below `info->segment_count`. -/
def records (m : Memory) (info : Addr) : List Paging.ElfLoadedPage :=
  (List.range (segmentCount m info).toNat).map fun i =>
    elfLoadedPage m (segments m info + 24 * BitVec.ofNat 64 i)

/-- `elf_is_page_mapped` -/
def elfIsPageMapped (m : Memory) (info pVaddr : Addr) : Bool :=
  (records m info).any fun segment =>
    segment.loadedAt ≤ pVaddr ∧ segment.loadedAt + segment.length > pVaddr

/-- The loop of `elf_load_segment` that copies into mapped pages. It ends at a header that is left
to be loaded, or with the function returning. -/
def copyMapped (info file : Addr) : Nat → Memory → ElfProgramHeader →
    Option (Memory × Option ElfProgramHeader)
  | 0, _, _ => none
  | fuel + 1, m, header =>
    if elfIsPageMapped m info header.pVaddr then
      let n := header.nextPageOffset
      let m := memcpy m header.pVaddr (file + header.pOffset) n.toNat
      let header := header.advance n
      if header.pMemsz = 0 then some (m, none) else copyMapped info file fuel m header
    else some (m, some header)

/-- The address of `out_info->segments[out_info->segment_count]`. -/
def nextSegment (m : Memory) (info : Addr) : Addr := segments m info + 24 * segmentCount m info

/-- One record more, each field behind a look at where it goes, and the count that goes with it. -/
def addSegment (m : Memory) (info : Addr) (segment : Paging.ElfLoadedPage) : Memory :=
  let m := store m (nextSegment m info) segment.loadedAt
  let m := store m (nextSegment m info + 8) segment.locatedAt
  let m := store m (nextSegment m info + 16) segment.length
  store m (info + 8) (segmentCount m info + 1)

/-- What `elf_load_segment` does with what the loop leaves: a record and a pool for it. -/
def loadRest (place : Place) (file : Addr) (k : Nat) (m : Memory) (header : ElfProgramHeader) :
    Memory :=
  let realLocation := place.pool k
  let pageOffset := header.pVaddr &&& 0xfff
  let m := addSegment m place.info ⟨header.pVaddr, realLocation, header.requiredPages * 0x1000⟩
  let m := memset m (realLocation + pageOffset) 0 header.pMemsz.toNat
  memcpy m (realLocation + pageOffset) (file + header.pOffset) header.pFilesz.toNat

/-- `elf_load_segment` -/
def elfLoadSegment (place : Place) (file : Addr) (fuel : Nat) (s : Kernel) (pheader : Addr) :
    Option (Bool × Kernel) := do
  let header := elfProgramHeader s.bytes pheader
  if header.pMemsz = 0 then return (true, s)
  match ← copyMapped place.info file fuel s.bytes header with
  | (m, none) => return (true, { s with bytes := m })
  | (m, some header) =>
    return (true, { s with bytes := loadRest place file s.pools m header, pools := s.pools + 1 })

/-- The walk over the program headers, which looks up the start of the table and the size of an
entry at every header. It ends with `NULL` when a segment is not loaded. -/
def headerLoop (place : Place) (file : Addr) (fuel : Nat) (headerTableSize : Addr) :
    Nat → Kernel → Addr → Option (Option Kernel)
  | 0, _, _ => none
  | rounds + 1, s, pheader =>
    if pheader - (file + (elfHeader (image s.bytes file)).headerTable) ≥ headerTableSize
    then some (some s)
    else do
      let s := { s with examined := s.examined ++ [pheader] }
      let (loaded, s) ← if (elfProgramHeader s.bytes pheader).type = elfSegmentLoad
        then elfLoadSegment place file fuel s pheader else some (true, s)
      if ¬ loaded then return none
      headerLoop place file fuel headerTableSize rounds s
        (pheader + (elfHeader (image s.bytes file)).programTableEntrySize.setWidth 64)

/-- `elf_load_program`; `NULL` is `some none`. -/
def elfLoadProgram (place : Place) (file : Addr) (fuel : Nat) (m : Memory) :
    Option (Option Kernel) :=
  let header := elfHeader (image m file)
  if strncmp header.magic elfHeaderMagic 0 4 > 0 then some none
  else if header.architecture ≠ elfArchX8664 then some none
  else if header.endianness ≠ elfEndiannessLittle ∨ header.bitness ≠ elfBitness64 then some none
  else if header.abi ≠ elfAbiSystemv then some none
  else
    let size := headerTableSize header
    let m := store m place.info header.programEntry
    let m := store m (place.info + 8) 0
    let m := store m (place.info + 16) place.table
    headerLoop place file fuel size fuel ⟨m, 0, []⟩
      (file + (elfHeader (image m file)).headerTable)

end Skylight.ElfMemory
