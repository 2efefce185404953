import Skylight.Mem.Heap.Allocator
import Skylight.Mem.Pmm.Pfa

/-!
# Pools of pages and the kernel heap

`pmm_alloc_pool` of `mem/pmm/pfa.c` keeps its list of pools in blocks that it takes from the
heap. The sections are the manager's; what stands here is the list, at its addresses.
-/

namespace Skylight

open Bytes

/-- The heap, `pmm_pools`, and the sections. `written` is what `pmm_alloc_pool` itself has stored
to, each range by its address and length: nothing of the code reads it. -/
structure Kernel where
  heap : Heap
  pmmPools : Addr
  pmm : Pmm.State
  written : List (Addr × Nat)

namespace Kernel

/-- `sizeof(pmm_pool_t)` -/
def poolSize : Addr := 24

/-- Stores a word. -/
def set (k : Kernel) (address v : Addr) : Kernel :=
  { k with
    heap := { k.heap with mem := store k.heap.mem address v }
    written := (address, 8) :: k.written }

/-- `memset(address, 0, length)` -/
def clear (k : Kernel) (address : Addr) (length : Nat) : Kernel :=
  { k with
    heap := { k.heap with mem := memset k.heap.mem address 0 length }
    written := (address, length) :: k.written }

/-- `malloc(sizeof(pmm_pool_t))`, and the pages that it takes. -/
def newPool (g : Nat → Addr) (fuel : Nat) (k : Kernel) : Option (Addr × Kernel) := do
  let (pool, heap) ← k.heap.malloc g fuel poolSize
  let (_, pmm) ← (Pmm.mallocPages (heap.tables.served - k.heap.tables.served) k.pmm).toOption
  return (pool, { k with heap, pmm })

/-- The walk to the last pool. -/
def lastPool (h : Heap) : Nat → Addr → Option Addr
  | 0, _ => none
  | fuel + 1, selected =>
    if load h.mem selected = 0 then some selected else lastPool h fuel (load h.mem selected)

/-- The new pool, at the end of the list. -/
def selectPool (g : Nat → Addr) (fuel : Nat) (k : Kernel) : Option (Addr × Kernel) :=
  if k.pmmPools = 0 then do
    let (selected, k) ← k.newPool g fuel
    let k := k.clear selected 0x1000
    let k := { k with pmmPools := selected }
    return (selected, k.set selected 0)
  else do
    let last ← lastPool k.heap fuel k.pmmPools
    let (selected, k) ← k.newPool g fuel
    let k := k.set last selected
    return (selected, k.set selected 0)

/-- `pmm_alloc_pool`, and the pool it has put in the list. -/
def pmmAllocPool (g : Nat → Addr) (fuel : Nat) (k : Kernel) (pageCount : Nat) :
    Option (Nat × Option Addr × Kernel) := do
  let k := { k with written := [] }
  if !k.pmm.allowing then return (0, none, k)
  let (selected, k) ← k.selectPool g fuel
  let k := k.set (selected + 8) (BitVec.ofNat 64 pageCount)
  match ← (Pmm.poolSection pageCount k.pmm.fuel k.pmm k.pmm.first).toOption with
  | some a =>
    let base := (k.pmm.sec a).start
    let k := k.set (selected + 16) (BitVec.ofNat 64 base)
    let pmm ← (Pmm.pmmLockPages k.pmm base pageCount).toOption
    return (base, some selected, { k with pmm })
  | none =>
    let pmm ← (Pmm.pmmRecombine k.pmm).toOption
    return (0, some selected, { k with pmm })

end Kernel

end Skylight
