import Skylight.Lib.Bytes
import Skylight.Proc.AddressSpace

/-!
# The program loader

`proc/loader/elf.c`, and the `strncmp` it compares the magic with, as it runs where its copies come
neither to the file nor to its own records: the file is an image that nothing here writes, read by
offset, and the records are a list. The kernel's memory is written, at the addresses the allocators
give and at those the file names. The loader that reads file and records from the memory it writes
is in `Skylight.ElfMemory`. The loops answer nothing when the fuel runs out.
-/

namespace Skylight.Elf

open Bytes

/-- `elf_header_t`, as far as the loader reads it. -/
structure ElfHeader where
  magic : Nat → BitVec 8
  bitness : BitVec 8
  endianness : BitVec 8
  abi : BitVec 8
  architecture : BitVec 16
  programEntry : Addr
  headerTable : Addr
  programTableEntrySize : BitVec 16
  programTableEntries : BitVec 16

/-- The packed header at the start of the file. -/
def elfHeader (file : Memory) : ElfHeader where
  magic i := file (BitVec.ofNat 64 i)
  bitness := file 4
  endianness := file 5
  abi := file 7
  architecture := BitVec.ofNat 16 (loadBytes file 2 18)
  programEntry := load file 24
  headerTable := load file 32
  programTableEntrySize := BitVec.ofNat 16 (loadBytes file 2 54)
  programTableEntries := BitVec.ofNat 16 (loadBytes file 2 56)

/-- `elf_program_header_t`, as far as the loader reads it. -/
structure ElfProgramHeader where
  type : BitVec 32
  pOffset : Addr
  pVaddr : Addr
  pFilesz : Addr
  pMemsz : Addr
  deriving DecidableEq

/-- The packed program header at an offset of the file. -/
def elfProgramHeader (file : Memory) (pheader : Addr) : ElfProgramHeader where
  type := BitVec.ofNat 32 (loadBytes file 4 pheader)
  pOffset := load file (pheader + 8)
  pVaddr := load file (pheader + 16)
  pFilesz := load file (pheader + 32)
  pMemsz := load file (pheader + 40)

/-- `ELF_HEADER_MAGIC` -/
def elfHeaderMagic (i : Nat) : BitVec 8 := [0x7f#8, 0x45#8, 0x4c#8, 0x46#8, 0#8].getD i 0

/-- `ELF_ARCH_x86_64` -/
def elfArchX8664 : BitVec 16 := 0x3e

/-- `ELF_ENDIANNESS_LITTLE` -/
def elfEndiannessLittle : BitVec 8 := 0x01

/-- `ELF_BITNESS_64` -/
def elfBitness64 : BitVec 8 := 0x02

/-- `ELF_ABI_SYSTEMV` -/
def elfAbiSystemv : BitVec 8 := 0x00

/-- `ELF_SEGMENT_LOAD` -/
def elfSegmentLoad : BitVec 32 := 0x01

/-- `strncmp` from the `i`-th character on: the difference of the first two characters that
differ, as signed characters. -/
def strncmp (s₁ s₂ : Nat → BitVec 8) : Nat → Nat → Int
  | _, 0 => 0
  | i, n + 1 => if s₁ i ≠ s₂ i then (s₁ i).toInt - (s₂ i).toInt else strncmp s₁ s₂ (i + 1) n

/-- What the allocators give: `malloc` the block of the `elf_load_info_t`, `pmm_alloc_page` the
page of its records, and `pmm_alloc_pool` a pool at each call. -/
structure Place where
  info : Addr
  table : Addr
  pool : Nat → Addr

/-- The kernel's memory and the `elf_load_info_t`, its records as the list they form. Beside them
stand the ranges that were written and the program headers that were examined. -/
structure Loader where
  bytes : Memory
  entry : Addr
  segments : List Paging.ElfLoadedPage
  written : List (Addr × Nat)
  examined : List Addr

namespace Loader

/-- `n` bytes from `a` on get what `bytes` has there. -/
def write (l : Loader) (a : Addr) (n : Nat) (bytes : Memory) : Loader :=
  { l with bytes := bytes, written := l.written ++ [(a, n)] }

def store (l : Loader) (a v : Addr) : Loader := l.write a 8 (Bytes.store l.bytes a v)

def memset (l : Loader) (a : Addr) (n : Nat) : Loader := l.write a n (Bytes.memset l.bytes a 0 n)

/-- `memcpy` from the file. -/
def memcpy (l : Loader) (file : Memory) (a offset : Addr) (n : Nat) : Loader :=
  l.write a n fun x => if InRange a n x then file (offset + (x - a)) else l.bytes x

@[simp] theorem memset_segments (l : Loader) (a : Addr) (n : Nat) :
    (l.memset a n).segments = l.segments := rfl

@[simp] theorem memset_examined (l : Loader) (a : Addr) (n : Nat) :
    (l.memset a n).examined = l.examined := rfl

@[simp] theorem memset_written (l : Loader) (a : Addr) (n : Nat) :
    (l.memset a n).written = l.written ++ [(a, n)] := rfl

@[simp] theorem memcpy_segments (l : Loader) (file : Memory) (a offset : Addr) (n : Nat) :
    (l.memcpy file a offset n).segments = l.segments := rfl

@[simp] theorem memcpy_examined (l : Loader) (file : Memory) (a offset : Addr) (n : Nat) :
    (l.memcpy file a offset n).examined = l.examined := rfl

@[simp] theorem memcpy_written (l : Loader) (file : Memory) (a offset : Addr) (n : Nat) :
    (l.memcpy file a offset n).written = l.written ++ [(a, n)] := rfl

/-- One record more, and the count that goes with it. -/
def addSegment (l : Loader) (place : Place) (segment : Paging.ElfLoadedPage) : Loader :=
  let count := BitVec.ofNat 64 l.segments.length
  let record := place.table + 24 * count
  let l := l.store record segment.loadedAt
  let l := l.store (record + 8) segment.locatedAt
  let l := l.store (record + 16) segment.length
  let l := { l with segments := l.segments ++ [segment] }
  l.store (place.info + 8) (count + 1)

@[simp] theorem addSegment_segments (l : Loader) (place : Place)
    (segment : Paging.ElfLoadedPage) :
    (l.addSegment place segment).segments = l.segments ++ [segment] := rfl

@[simp] theorem addSegment_examined (l : Loader) (place : Place)
    (segment : Paging.ElfLoadedPage) :
    (l.addSegment place segment).examined = l.examined := rfl

end Loader

/-- `elf_is_page_mapped` -/
def elfIsPageMapped (info : List Paging.ElfLoadedPage) (pVaddr : Addr) : Bool :=
  info.any fun segment => segment.loadedAt ≤ pVaddr ∧ segment.loadedAt + segment.length > pVaddr

namespace ElfProgramHeader

/-- `next_page_offset`: the bytes up to the end of the page, but no more than the file has. -/
def nextPageOffset (header : ElfProgramHeader) : Addr :=
  let nextPageOffset := 0x1000 - header.pVaddr % 0x1000
  if nextPageOffset > header.pFilesz then header.pFilesz else nextPageOffset

/-- The header behind its first `n` bytes. -/
def advance (header : ElfProgramHeader) (n : Addr) : ElfProgramHeader :=
  { header with
    pVaddr := header.pVaddr + n
    pOffset := header.pOffset + n
    pFilesz := header.pFilesz - n
    pMemsz := header.pMemsz - n }

/-- `required_pages` -/
def requiredPages (header : ElfProgramHeader) : Addr :=
  let requiredPages := header.pMemsz / 0x1000 + if header.pMemsz % 0x1000 = 0 then 0 else 1
  if header.pVaddr % 0x1000 ≠ 0 then requiredPages + 1 else requiredPages

end ElfProgramHeader

/-- The loop of `elf_load_segment` that copies into mapped pages. It ends at a header that is
left to be loaded, or with the function returning. -/
def copyMapped (file : Memory) : Nat → Loader → ElfProgramHeader →
    Option (Loader × Option ElfProgramHeader)
  | 0, _, _ => none
  | fuel + 1, l, header =>
    if elfIsPageMapped l.segments header.pVaddr then
      let n := header.nextPageOffset
      let l := l.memcpy file header.pVaddr header.pOffset n.toNat
      let header := header.advance n
      if header.pMemsz = 0 then some (l, none) else copyMapped file fuel l header
    else some (l, some header)

/-- `elf_load_segment` -/
def elfLoadSegment (file : Memory) (place : Place) (fuel : Nat) (l : Loader)
    (header : ElfProgramHeader) : Option (Bool × Loader) := do
  if header.pMemsz = 0 then return (true, l)
  match ← copyMapped file fuel l header with
  | (l, none) => return (true, l)
  | (l, some header) =>
    let realLocation := place.pool l.segments.length
    let pageOffset := header.pVaddr &&& 0xfff
    let l := l.addSegment place
      ⟨header.pVaddr, realLocation, header.requiredPages * 0x1000⟩
    let l := l.memset (realLocation + pageOffset) header.pMemsz.toNat
    let l := l.memcpy file (realLocation + pageOffset) header.pOffset header.pFilesz.toNat
    return (true, l)

/-- The walk over the program headers. It ends with `NULL` when a segment is not loaded. -/
def headerLoop (file : Memory) (place : Place) (fuel : Nat) (headerTableSize : Addr) :
    Nat → Loader → Addr → Option (Option Loader)
  | 0, _, _ => none
  | rounds + 1, l, pheader =>
    if pheader - (elfHeader file).headerTable ≥ headerTableSize then some (some l)
    else do
      let l := { l with examined := l.examined ++ [pheader] }
      let header := elfProgramHeader file pheader
      let (loaded, l) ← if header.type = elfSegmentLoad
        then elfLoadSegment file place fuel l header else some (true, l)
      if ¬ loaded then return none
      headerLoop file place fuel headerTableSize rounds l
        (pheader + (elfHeader file).programTableEntrySize.setWidth 64)

/-- `header_table_size`: a product of two `int`s, widened with its sign. -/
def headerTableSize (header : ElfHeader) : Addr :=
  (header.programTableEntrySize.setWidth 32 * header.programTableEntries.setWidth 32).signExtend 64

/-- `elf_load_program`; `NULL` is `some none`. -/
def elfLoadProgram (file : Memory) (place : Place) (fuel : Nat) (bytes : Memory) :
    Option (Option Loader) :=
  let header := elfHeader file
  if strncmp header.magic elfHeaderMagic 0 4 > 0 then some none
  else if header.architecture ≠ elfArchX8664 then some none
  else if header.endianness ≠ elfEndiannessLittle ∨ header.bitness ≠ elfBitness64 then some none
  else if header.abi ≠ elfAbiSystemv then some none
  else
    let l : Loader := ⟨bytes, header.programEntry, [], [], []⟩
    let l := l.store place.info header.programEntry
    let l := l.store (place.info + 8) 0
    let l := l.store (place.info + 16) place.table
    headerLoop file place fuel (headerTableSize header) fuel l header.headerTable

end Skylight.Elf
