import Skylight.Lib.Chain
import Skylight.Lib.Word
import Skylight.Boot.Protocol

/-!
# The physical memory manager's data

`mem/pmm/pmm.h` and the globals of `mem/pmm/pmm.c`. A section is a run of pages of one
kind; the sections form a doubly linked list whose nodes are the slots of one array, so
a non-null section pointer is a slot number here. The array begins at the first slot,
which is also where every walk of the list begins.

The C code follows links without testing them and uses the result of
`pmm_new_section` without testing it. A model that dropped those accesses would hide
the very cases worth asking about, so each is a `Fault` of the model, and a function
that can reach one answers in `Except Fault`.
-/

namespace Skylight.Pmm

/-- The kinds of section: `PMM_SECTION_USED`, `PMM_SECTION_FREE`, `PMM_SECTION_BAD`. The
first is the zero word, which is what a cleared descriptor holds. -/
inductive SectionType
  | used
  | free
  | bad
  deriving DecidableEq, Repr, Inhabited

/-- The data of a `pmm_section_t`: everything but its two links. -/
structure Section where
  start : Nat
  pages : Nat
  free : SectionType
  deriving DecidableEq, Repr

/-- A cleared descriptor. -/
def Section.zero : Section := ⟨0, 0, .used⟩

/-- `pmm_section_t`: a slot of the descriptor array, its links slot numbers. -/
abbrev Descriptor := Node Nat Section

/-- `sizeof(pmm_section_t)` -/
def sectionSize : Nat := 40

/-- `pmm_pool_t`, without its link: the pools are kept as the list they form. -/
structure Pool where
  pages : Nat
  base : Nat
  deriving DecidableEq, Repr

/-- How a run of the manager goes wrong. -/
inductive Fault
  /-- a null section pointer is dereferenced -/
  | nullDeref
  /-- the null `pmm_new_section` answered is dereferenced -/
  | noSection
  /-- a walk visits more nodes than there are slots, so it never ends -/
  | spin
  deriving DecidableEq, Repr

/-- The globals of the manager. -/
structure State where
  /-- `pmm_sections`, the address of slot 0; zero before the manager starts -/
  pmmSections : Nat
  /-- the descriptor array behind `pmm_sections` -/
  sections : Nat → Descriptor
  /-- `_pmm_section_head` -/
  sectionHead : Nat
  /-- `pmm_data_size` -/
  dataSize : Nat
  /-- `free_memory` -/
  freeMemory : Nat
  /-- `pfa_allowing_allocations` -/
  allowing : Bool
  /-- the list behind `pmm_pools` -/
  pools : List Pool

/-- The globals as the kernel image holds them before `pmm_start`. The memory that will hold
the descriptors has contents of its own, `memory`. -/
def State.boot (memory : Nat → Descriptor) : State :=
  { pmmSections := 0, sections := memory, sectionHead := 0, dataSize := 0, freeMemory := 0,
    allowing := false, pools := [] }

/-- Where a walk of the list starts: the pointer `pmm_sections` itself. -/
def State.first (s : State) : Option Nat := if s.pmmSections = 0 then none else some 0

/-- The number of slots `pmm_new_section` may hand out: those that begin inside the data
area. No list has more nodes, so a walk that outruns it is going round. -/
def State.capacity (s : State) : Nat := (s.dataSize + (sectionSize - 1)) / sectionSize

/-- Steps a walk may take: one for every slot, and two for the nodes it inserts itself. -/
def State.fuel (s : State) : Nat := s.capacity + 2

/-- Follows a section pointer. -/
def deref : Option Nat → Except Fault Nat
  | some a => .ok a
  | none => .error .nullDeref

@[simp] theorem deref_some (a : Nat) : deref (some a) = .ok a := rfl

@[simp] theorem deref_none : deref none = .error .nullDeref := rfl

namespace State

/-- `section->prev = p` -/
def setPrev (s : State) (a : Nat) (p : Option Nat) : State :=
  { s with sections := Function.update s.sections a { s.sections a with prev := p } }

/-- `section->next = n` -/
def setNext (s : State) (a : Nat) (n : Option Nat) : State :=
  { s with sections := Function.update s.sections a { s.sections a with next := n } }

/-- Writes to the data fields of one descriptor. -/
def setVal (s : State) (a : Nat) (v : Section) : State :=
  { s with sections := Function.update s.sections a { s.sections a with val := v } }

/-- The data fields of the section a pointer names. -/
def sec (s : State) (a : Nat) : Section := (s.sections a).val

@[simp] theorem setPrev_sections (s : State) (a : Nat) (p : Option Nat) (c : Nat) :
    (s.setPrev a p).sections c
      = if c = a then { s.sections a with prev := p } else s.sections c := by
  simp only [setPrev, Function.update_apply]

@[simp] theorem setNext_sections (s : State) (a : Nat) (n : Option Nat) (c : Nat) :
    (s.setNext a n).sections c
      = if c = a then { s.sections a with next := n } else s.sections c := by
  simp only [setNext, Function.update_apply]

@[simp] theorem setVal_sections (s : State) (a : Nat) (v : Section) (c : Nat) :
    (s.setVal a v).sections c
      = if c = a then { s.sections a with val := v } else s.sections c := by
  simp only [setVal, Function.update_apply]

end State

end Skylight.Pmm
