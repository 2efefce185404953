import Mathlib.Logic.Function.Basic

/-!
# Page tables

`mem/paging/paging.h` and `mem/paging/paging.c`. A table is 512 descriptors at a page of
memory and a pointer to it is the address of that page, so memory is seen here as tables:
the descriptors at each page address. `served` counts the calls of `pmm_alloc_page`, whose
answers are a parameter: `g k` is what the call number `k` answers, a null pointer
included.
-/

namespace Skylight.Paging

/-- Addresses, virtual and physical. -/
abbrev Addr := BitVec 64

/-- `paging_desc_t` -/
abbrev Desc := BitVec 64

/-- `PAGING_FLAG_PRESENT` -/
def flagPresent : Desc := 0x001

/-- `PAGING_FLAG_WRITE` -/
def flagWrite : Desc := 0x002

/-- `PAGING_FLAG_USER` -/
def flagUser : Desc := 0x004

/-- `PAGING_FLAGS_KERNEL_PAGE` -/
def flagsKernelPage : BitVec 16 := 0x003

/-- `PAGING_FLAGS_USER_PAGE` -/
def flagsUserPage : BitVec 16 := 0x007

/-- `PAGING_PAGE_SIZE` -/
def pagingPageSize : Addr := 0x1000

/-- The bits of a descriptor that hold an address. -/
def addressMask : Desc := 0xffffffffff000

/-- `paging_desc_set_address` -/
def pagingDescSetAddress (descriptor : Desc) (address : Addr) : Desc :=
  descriptor ||| (address &&& addressMask)

/-- `paging_desc_get_address` -/
def pagingDescGetAddress (descriptor : Desc) : Addr := descriptor &&& addressMask

/-- `paging_desc_get_flag` -/
def pagingDescGetFlag (descriptor flag : Desc) : Bool := descriptor &&& flag != 0

/-- `paging_desc_set_flag` -/
def pagingDescSetFlag (descriptor flag : Desc) (value : Bool) : Desc :=
  let descriptor := descriptor &&& ~~~flag
  if value then descriptor ||| flag else descriptor

/-- `paging_desc_set_flags` -/
def pagingDescSetFlags (descriptor flags : Desc) : Desc := descriptor &&& ~~~0x0fff ||| flags

/-- `paging_indexer_t`: the place of a page in the four levels of tables. -/
structure PagingIndexer where
  pml4 : BitVec 9
  pml3 : BitVec 9
  pml2 : BitVec 9
  pml1 : BitVec 9
  deriving DecidableEq, Repr

/-- `paging_indexer_assign` -/
def pagingIndexerAssign (address : Addr) : PagingIndexer :=
  let uaddress := address >>> 12
  let pml1 := (uaddress &&& 0x1ff).setWidth 9
  let uaddress := uaddress >>> 9
  let pml2 := (uaddress &&& 0x1ff).setWidth 9
  let uaddress := uaddress >>> 9
  let pml3 := (uaddress &&& 0x1ff).setWidth 9
  let uaddress := uaddress >>> 9
  let pml4 := (uaddress &&& 0x1ff).setWidth 9
  ⟨pml4, pml3, pml2, pml1⟩

/-- The tables in memory, the one `pml4` points to, and the calls of `pmm_alloc_page`. -/
structure State where
  mem : Addr → BitVec 9 → Desc
  pml4 : Addr
  served : Nat

namespace State

/-- `table->entries[i] = pde` -/
def setEntry (s : State) (table : Addr) (i : BitVec 9) (pde : Desc) : State :=
  { s with mem := Function.update s.mem table (Function.update (s.mem table) i pde) }

/-- `memset(table, 0, PAGING_PAGE_SIZE)` -/
def clearTable (s : State) (table : Addr) : State :=
  { s with mem := Function.update s.mem table fun _ => 0 }

/-- `pmm_alloc_page()` -/
def pmmAllocPage (g : Nat → Addr) (s : State) : Addr × State :=
  (g s.served, { s with served := s.served + 1 })

@[simp] theorem setEntry_mem (s : State) (table : Addr) (i : BitVec 9) (pde : Desc)
    (t : Addr) (j : BitVec 9) :
    (s.setEntry table i pde).mem t j = if t = table ∧ j = i then pde else s.mem t j := by
  by_cases ht : t = table
  · subst ht
    by_cases hj : j = i <;> simp [setEntry, hj]
  · simp [setEntry, ht]

@[simp] theorem setEntry_pml4 (s : State) (table : Addr) (i : BitVec 9) (pde : Desc) :
    (s.setEntry table i pde).pml4 = s.pml4 := rfl

@[simp] theorem setEntry_served (s : State) (table : Addr) (i : BitVec 9) (pde : Desc) :
    (s.setEntry table i pde).served = s.served := rfl

@[simp] theorem clearTable_mem (s : State) (table t : Addr) (j : BitVec 9) :
    (s.clearTable table).mem t j = if t = table then 0 else s.mem t j := by
  by_cases ht : t = table <;> simp [clearTable, ht]

@[simp] theorem clearTable_pml4 (s : State) (table : Addr) :
    (s.clearTable table).pml4 = s.pml4 := rfl

@[simp] theorem clearTable_served (s : State) (table : Addr) :
    (s.clearTable table).served = s.served := rfl

end State

/-- One level of `paging_map_page`: the table behind the entry `i` of `table`, a new one if
there is none. `identity` is the call that maps the new table's own page. -/
def enterTable (g : Nat → Addr) (identity : State → Addr → Option State) (flags : Desc)
    (s : State) (table : Addr) (i : BitVec 9) : Option (Addr × State) := do
  let pde := s.mem table i
  if !pagingDescGetFlag pde flagPresent then
    let (newTable, s) := s.pmmAllocPage g
    let s := s.clearTable newTable
    let pde := pagingDescSetAddress pde newTable
    let pde := pagingDescSetFlag pde flagPresent true
    let pde := pde ||| flags
    let s ← identity (s.setEntry table i pde) newTable
    return (newTable, s)
  else
    return (pagingDescGetAddress pde, s.setEntry table i (s.mem table i ||| flags))

/-- `paging_map_page`. A call for a new table's page is one deeper; `fuel` bounds the depth. -/
def pagingMapPage (g : Nat → Addr) : Nat → State → Addr → Addr → BitVec 16 →
    Option (Addr × State)
  | 0, _, _, _, _ => none
  | fuel + 1, s, virt, phys, flags => do
    let flags := (flags &&& 0x0fff).setWidth 64
    let indexer := pagingIndexerAssign virt
    let identity := fun s page => (pagingMapPage g fuel s page page flagsKernelPage).map (·.2)
    let (pdp, s) ← enterTable g identity flags s s.pml4 indexer.pml4
    let (pd, s) ← enterTable g identity flags s pdp indexer.pml3
    let (pt, s) ← enterTable g identity flags s pd indexer.pml2
    let pde := s.mem pt indexer.pml1
    let pde := pagingDescSetAddress pde phys
    let pde := pagingDescSetFlag pde flagPresent true
    let pde := pagingDescSetFlags pde flags
    return (virt, s.setEntry pt indexer.pml1 pde)

/-- The descent of `paging_walk_page` and `paging_unmap_page`: the last table of a page. -/
def lastTable (s : State) (indexer : PagingIndexer) : Option Addr :=
  let pde := s.mem s.pml4 indexer.pml4
  if !pagingDescGetFlag pde flagPresent then none else
  let pdp := pagingDescGetAddress pde
  let pde := s.mem pdp indexer.pml3
  if !pagingDescGetFlag pde flagPresent then none else
  let pd := pagingDescGetAddress pde
  let pde := s.mem pd indexer.pml2
  if !pagingDescGetFlag pde flagPresent then none else
  some (pagingDescGetAddress pde)

/-- `paging_walk_page` -/
def pagingWalkPage (s : State) (virt : Addr) : Addr :=
  let indexer := pagingIndexerAssign virt
  match lastTable s indexer with
  | none => 0
  | some pt => pagingDescGetAddress (s.mem pt indexer.pml1)

/-- `paging_unmap_page` -/
def pagingUnmapPage (s : State) (virt : Addr) : State :=
  let indexer := pagingIndexerAssign virt
  match lastTable s indexer with
  | none => s
  | some pt => s.setEntry pt indexer.pml1 0

/-- `paging_remap_page`, its arguments from left to right. The descent looks at the three upper
levels, not at the page's own descriptor. -/
def pagingRemapPage (g : Nat → Addr) (fuel : Nat) (s : State) (old new : Addr) :
    Option (Addr × State) :=
  let indexer := pagingIndexerAssign old
  match lastTable s indexer with
  | none => some (0, s)
  | some pt =>
    let oldPde := s.mem pt indexer.pml1
    let s := pagingUnmapPage s old
    let phys := pagingDescGetAddress oldPde
    let oldPde := oldPde &&& 0x0fff
    (pagingMapPage g fuel s new phys (oldPde.setWidth 16)).map fun r => (new, r.2)

/-- `paging_load_pml4` -/
def pagingLoadPml4 (s : State) (pml4 : Addr) : State := { s with pml4 := pml4 }

/-- `paging_get_pml4` -/
def pagingGetPml4 (s : State) : Addr := s.pml4

end Skylight.Paging
