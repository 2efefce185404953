import Skylight.Mem.Pmm.Pfa

/-!
# Starting the physical memory manager

`pmm_start` of `mem/pmm/pmm.c`: the size of the descriptor array is computed from the
free memory of the map, the array is placed at the base of the first free entry that can
hold it, one section is built for each entry and one for each gap between entries, equal
neighbours are joined, and the pages of the array itself are locked at the end.
-/

namespace Skylight.Pmm

/-- `pmm_interpret_signal` -/
def pmmInterpretSignal (signal : Nat) : SectionType :=
  if signal = memoryMapBusy then .used
  else if signal = memoryMapFree then .free
  else .bad

/-- `ROUND_OFF * MEGABYTE` -/
def roundOff : Nat := 64 * megabyte

/-- `MAX_PMM_HEADER_PROPORTION` -/
def maxPmmHeaderProportion : Nat := 64

/-- The whole pages that hold a number of bytes: the quotient, and one more for a rest. -/
def pagesFor (bytes : Nat) : Nat :=
  bytes / pageSize + if bytes % pageSize ≠ 0 then 1 else 0

/-- The exploring loop of `pmm_start`: the bytes of the free entries. -/
def exploreMap (map : List MemoryMapEntry) : Nat :=
  map.foldl (fun acc e => if e.signal = memoryMapFree then Word.add acc e.length else acc) 0

/-- `pmm_data_size`, from the free memory explored: the total rounded up to 64 megabytes, by
the header proportion. -/
def dataSizeFor (free : Nat) : Nat :=
  let total := free / roundOff
  let total := if free % roundOff ≠ 0 then Word.add total 1 else total
  Word.mul total roundOff / maxPmmHeaderProportion

/-- `memset` over the data area, seen slot by slot: each of the five words of slot `i` is
cleared when it lies inside the area. -/
def clearSlot (size i : Nat) (d : Descriptor) : Descriptor :=
  { prev := if i * sectionSize + 8 ≤ size then none else d.prev
    next := if i * sectionSize + 16 ≤ size then none else d.next
    val :=
      { start := if i * sectionSize + 24 ≤ size then 0 else d.val.start
        pages := if i * sectionSize + 32 ≤ size then 0 else d.val.pages
        free := if i * sectionSize + 40 ≤ size then .used else d.val.free } }

/-- `pmm_section_manager_create` -/
def pmmSectionManagerCreate (s : State) (base : Nat) : State :=
  if s.allowing then s
  else { s with
    pmmSections := base
    sections := fun i => clearSlot s.dataSize i (s.sections i)
    sectionHead := 1 }

/-- The building loop of `pmm_start`: the section of an entry goes in behind `current`, and
before it a bad section for the gap, if there is one. An entry whose base is the start of
the current section is passed over. -/
def startLoop : List MemoryMapEntry → State → Nat → Except Fault State
  | [], s, _ => .ok s
  | e :: es, s, current => do
    if e.base = (s.sec current).start then startLoop es s current
    else
      let (new, s) ← takeSection s
      let s := s.setNext current (some new)
      let s := s.setPrev new (some current)
      let s := s.setNext new none
      let s := s.setVal new
        { start := e.base, free := pmmInterpretSignal e.signal, pages := pagesFor e.length }
      let fin := Word.add (s.sec current).start (Word.mul (s.sec current).pages pageSize)
      if fin ≠ e.base then
        let (gap, s) ← takeSection s
        let s := s.setNext current (some gap)
        let s := s.setPrev gap (some current)
        let s := s.setNext gap (some new)
        let s := s.setVal gap
          { start := fin, pages := pagesFor (Word.sub e.base fin), free := .bad }
        let s := s.setPrev new (some gap)
        startLoop es s new
      else startLoop es s new

/-- The section `pmm_start` puts in slot 0: the first megabyte. -/
def firstSection : Section := ⟨0, megabyte / pageSize, .bad⟩

/-- `pmm_start` up to its opening of the allocator. -/
def pmmBuild (memory : Nat → Descriptor) (map : List MemoryMapEntry) : Except Fault State := do
  let free := exploreMap map
  let s := { State.boot memory with freeMemory := free, dataSize := dataSizeFor free }
  let s := match map.find? fun e => e.signal = memoryMapFree ∧ e.length ≥ s.dataSize with
    | some e => pmmSectionManagerCreate s e.base
    | none => s
  let slot ← deref s.first
  let s := { s with sections := Function.update s.sections slot ⟨none, none, firstSection⟩ }
  let s ← startLoop map s slot
  let s ← pmmRecombine s
  let s ← pmmRecalculateFreeMemory s
  return { s with allowing := true }

/-- `pmm_start`: the pages of the descriptor array are locked last. -/
def pmmStart (memory : Nat → Descriptor) (map : List MemoryMapEntry) : Except Fault State := do
  let s ← pmmBuild memory map
  pmmLockPages s s.pmmSections (pagesFor s.dataSize)

end Skylight.Pmm
