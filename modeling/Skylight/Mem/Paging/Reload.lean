import Skylight.Boot.Protocol
import Skylight.Proc.AddressSpace

/-!
# The kernel's own address space

`mem/paging/reload.c`. The loops over the pages of an entry and over the kernel image are the
lists of their pages, as for a task.
-/

namespace Skylight.Paging

/-- `PAGING_VIRTUAL_OFFSET` -/
def pagingVirtualOffset : Addr := 0xffff800000000000

/-- The pages of the loop over an entry of the memory map. -/
def entryPages (e : MemoryMapEntry) : List Addr :=
  pagesBetween (BitVec.ofNat 64 e.base) (BitVec.ofNat 64 e.base + BitVec.ofNat 64 e.length)

/-- The two calls for a page: at its own address, and above `PAGING_VIRTUAL_OFFSET`. -/
def pageRequests (t : Addr) : List Request :=
  [.identity flagsKernelPage t, ⟨t + pagingVirtualOffset, t, flagsKernelPage⟩]

/-- One round of the loop over the memory map. -/
def reloadEntry (g : Nat → Addr) (fuel : Nat) (s : State) (e : MemoryMapEntry) : Option State :=
  if e.signal ≠ memoryMapNouse then
    if Ends (BitVec.ofNat 64 e.base) (BitVec.ofNat 64 e.base + BitVec.ofNat 64 e.length) then
      mapAll g fuel s ((entryPages e).flatMap pageRequests)
    else none
  else some s

/-- `paging_reload_kernel_map`. The answer is what `cr3` is loaded with. -/
def pagingReloadKernelMap (g : Nat → Addr) (fuel : Nat) (memoryMap : List MemoryMapEntry)
    (image : KernelImage) (s : State) : Option (Addr × State) := do
  let (table, s) := s.pmmAllocPage g
  let s := pagingLoadPml4 s table
  let s := s.clearTable table
  let s ← memoryMap.foldlM (reloadEntry g fuel) s
  let s ← mapPages g fuel s 0 image.length image.request
  return (pagingWalkPage s s.pml4, s)

end Skylight.Paging
