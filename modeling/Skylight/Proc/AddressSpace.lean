import Mathlib.Algebra.Group.Nat.Defs
import Mathlib.Data.List.Basic
import Skylight.Mem.Paging.Tables

/-!
# The address space of a task

`task_new_page_table` from `proc/task/task.c`, and `pmap` from `proc/calls/handlers/pmap.c`.
A loop over pages is the list of its addresses; a loop whose counter would wrap round never
ends, which is an answer missing.
-/

namespace Skylight.Paging

/-- A call of `paging_map_page`. -/
structure Request where
  virt : Addr
  phys : Addr
  flags : BitVec 16
  deriving DecidableEq

/-- Calls of `paging_map_page` one after the other. -/
def mapAll (g : Nat → Addr) (fuel : Nat) (s : State) (rs : List Request) : Option State :=
  rs.foldlM (fun s r => (pagingMapPage g fuel s r.virt r.phys r.flags).map (·.2)) s

/-- The number of rounds of `for (x = a; x < b; x += PAGING_PAGE_SIZE)`. -/
def rounds (a b : Addr) : Nat := (b.toNat - a.toNat + 0xfff) / 0x1000

/-- The addresses that loop goes through. -/
def pagesBetween (a b : Addr) : List Addr :=
  (List.range (rounds a b)).map fun i => a + BitVec.ofNat 64 (0x1000 * i)

/-- The loop ends: its counter does not wrap round. -/
def Ends (a b : Addr) : Prop := a.toNat + 0x1000 * rounds a b < 2 ^ 64

instance (a b : Addr) : Decidable (Ends a b) := inferInstanceAs (Decidable (_ < _))

/-- A loop that maps a page each round. -/
def mapPages (g : Nat → Addr) (fuel : Nat) (s : State) (a b : Addr) (request : Addr → Request) :
    Option State :=
  if Ends a b then mapAll g fuel s ((pagesBetween a b).map request) else none

/-- `elf_loaded_page_t` -/
structure ElfLoadedPage where
  loadedAt : Addr
  locatedAt : Addr
  length : Addr

/-- Where the kernel is: what `get_kernel_load_physical` and `get_kernel_virtual_offset`
return, and the address of `__load_max`. -/
structure KernelImage where
  physical : Addr
  virtualOffset : Addr
  loadMax : Addr

/-- The end of the loop over the kernel image. -/
def KernelImage.length (image : KernelImage) : Addr :=
  image.loadMax - (image.physical + image.virtualOffset)

/-- The fields of a `task_t` that `task_new_page_table` reads. -/
structure NewTask where
  rsp : Addr
  ctx : Addr
  gsBase : Addr

/-- `MEGABYTE` -/
def megabyte : Addr := 0x100000

def KernelImage.request (image : KernelImage) (t : Addr) : Request :=
  ⟨image.physical + image.virtualOffset + t, image.physical + t, flagsKernelPage⟩

def ElfLoadedPage.request (segment : ElfLoadedPage) (j : Addr) : Request :=
  ⟨(segment.loadedAt &&& ~~~0xfff) + j, segment.locatedAt + j, flagsUserPage⟩

/-- A page mapped to itself. -/
def Request.identity (flags : BitVec 16) (page : Addr) : Request := ⟨page, page, flags⟩

/-- The pages of the interrupt stacks, until the first that is missing. `IST_STACK_PAGES` are
32, and one more page is mapped. -/
def istPages (ist : List Addr) : List Request :=
  (ist.takeWhile (· ≠ 0)).flatMap fun top =>
    (List.range 33).map fun i => .identity flagsKernelPage (top - BitVec.ofNat 64 (0x1000 * i))

/-- `task_new_page_table`. `ist` are the seven entries of the TSS. -/
def taskNewPageTable (g : Nat → Addr) (fuel : Nat) (image : KernelImage) (ist : List Addr)
    (info : List ElfLoadedPage) (task : NewTask) (s : State) : Option (Addr × State) := do
  let (taskTable, s) := s.pmmAllocPage g
  let s := s.clearTable taskTable
  let kpml4 := pagingGetPml4 s
  let s := pagingLoadPml4 s taskTable
  let s ← mapPages g fuel s 0 image.length image.request
  let s ← info.foldlM (fun s segment => mapPages g fuel s 0 segment.length segment.request) s
  let s ← mapPages g fuel s (task.rsp - megabyte) task.rsp (.identity flagsUserPage)
  let s ← mapAll g fuel s (istPages ist)
  let ctxPage := task.ctx &&& 0xfffffffffffff000
  -- the walk is of the new table: it is the one loaded
  let (_, s) ← pagingMapPage g fuel s ctxPage (pagingWalkPage s ctxPage) flagsKernelPage
  let (_, s) ← pagingMapPage g fuel s taskTable taskTable flagsKernelPage
  let (_, s) ← pagingMapPage g fuel s task.gsBase task.gsBase flagsKernelPage
  return (taskTable, pagingLoadPml4 s kpml4)

/-- `PMAP_VIRT_DEFAULT` -/
def pmapVirtDefault : Addr := 0

/-- `pmap`, called by the task whose page tables are `cr3`. -/
def pmap (g : Nat → Addr) (fuel : Nat) (cr3 virt : Addr) (s : State) : Option (Addr × State) := do
  let (phys, s) := s.pmmAllocPage g
  let virt := if virt = pmapVirtDefault then phys else virt
  let kpml4 := pagingGetPml4 s
  let s := pagingLoadPml4 s cr3
  let (address, s) ← pagingMapPage g fuel s virt phys flagsUserPage
  return (address, pagingLoadPml4 s kpml4)

end Skylight.Paging
