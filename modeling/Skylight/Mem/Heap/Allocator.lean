import Skylight.Lib.Bytes
import Skylight.Mem.Paging.Tables

/-!
# The kernel heap

`mem/heap/allocator.c`. Segments lie one behind the other, each with a header of 32 bytes that
links it to its neighbours. Memory is what the kernel sees at its own addresses: a page that
`paging_map_page` puts there holds whatever its frame held, which is any bytes at all. `fuel`
bounds the walk over the segments, the calls of `malloc` inside `malloc`, and those of
`paging_map_page` inside itself.
-/

namespace Skylight

open Bytes

/-- Memory, the globals of the allocator, and the tables its pages are mapped in. -/
structure Heap where
  mem : Memory
  heapStart : Addr
  heapEnd : Addr
  lastHeader : Addr
  heapInitialized : Bool
  tables : Paging.State

namespace Heap

/-- `sizeof(heap_seg_header_t)` -/
def headerSize : Addr := 32

/-- `segment->length` -/
def length (h : Heap) (segment : Addr) : Addr := load h.mem segment

/-- `segment->next` -/
def next (h : Heap) (segment : Addr) : Addr := load h.mem (segment + 8)

/-- `segment->last` -/
def last (h : Heap) (segment : Addr) : Addr := load h.mem (segment + 16)

/-- `segment->free` -/
def isFree (h : Heap) (segment : Addr) : Bool := h.mem (segment + 24) != 0

def setLength (h : Heap) (segment v : Addr) : Heap := { h with mem := store h.mem segment v }

def setNext (h : Heap) (segment v : Addr) : Heap := { h with mem := store h.mem (segment + 8) v }

def setLast (h : Heap) (segment v : Addr) : Heap := { h with mem := store h.mem (segment + 16) v }

def setFree (h : Heap) (segment : Addr) (v : Bool) : Heap :=
  { h with mem := Function.update h.mem (segment + 24) (if v then 1 else 0) }

/-- `header_split` -/
def headerSplit (h : Heap) (segment splitLength : Addr) : Addr × Heap :=
  if splitLength < 0x10 then (0, h) else
  let length := h.length segment - splitLength - headerSize
  -- an `int64_t`: what is left may be too little for a header
  if length.toInt < 0x10 then (0, h) else
  let newHeader := segment + splitLength + headerSize
  let h := if h.next segment ≠ 0 then h.setLast (h.next segment) newHeader else h
  let h := h.setNext newHeader (h.next segment)
  let h := h.setNext segment newHeader
  let h := h.setLast newHeader segment
  let h := h.setLength newHeader length
  let h := h.setFree newHeader (h.isFree segment)
  let h := h.setLength segment splitLength
  let h := if h.lastHeader = segment then { h with lastHeader := newHeader } else h
  (newHeader, h)

/-- `header_combine_forward` -/
def headerCombineForward (h : Heap) (segment : Addr) : Heap :=
  if h.next segment = 0 then h else
  if !h.isFree (h.next segment) then h else
  let h := if h.next segment = h.lastHeader then { h with lastHeader := segment } else h
  let h := if h.next (h.next segment) ≠ 0 then h.setLast (h.next (h.next segment)) segment else h
  let h := h.setLength segment (h.length segment + h.length (h.next segment) + headerSize)
  h.setNext segment (h.next (h.next segment))

/-- `header_combine_backward` -/
def headerCombineBackward (h : Heap) (segment : Addr) : Heap :=
  if h.last segment ≠ 0 ∧ h.isFree (h.last segment) then h.headerCombineForward (h.last segment)
  else h

/-- `paging_map_page(address, pmm_alloc_page(), PAGING_FLAGS_KERNEL_PAGE)` -/
def mapPage (g : Nat → Addr) (fuel : Nat) (h : Heap) (address : Addr) : Option Heap :=
  let (frame, tables) := h.tables.pmmAllocPage g
  (Paging.pagingMapPage g fuel tables address frame Paging.flagsKernelPage).map fun r =>
    { h with tables := r.2 }

/-- The loop of `heap_initialize`. -/
def mapPages (g : Nat → Addr) (fuel : Nat) : Nat → Heap → Addr → Option Heap
  | 0, h, _ => some h
  | pages + 1, h, pos => (h.mapPage g fuel pos).bind (mapPages g fuel pages · (pos + 0x1000))

/-- `heap_initialize` -/
def heapInitialize (g : Nat → Addr) (fuel : Nat) (h : Heap) (address pages : Addr) :
    Option Heap := do
  let h ← mapPages g fuel pages.toNat h address
  let length := pages * 0x1000
  let h := { h with heapStart := address }
  let h := { h with heapEnd := h.heapStart + length }
  let start := address
  let h := h.setLength start (length - headerSize)
  let h := h.setNext start 0
  let h := h.setLast start 0
  let h := h.setFree start true
  let h := { h with lastHeader := start }
  return { h with heapInitialized := true }

/-- The loop of `heap_expand`. -/
def growPages (g : Nat → Addr) (fuel : Nat) : Nat → Heap → Option Heap
  | 0, h => some h
  | pages + 1, h => (h.mapPage g fuel h.heapEnd).bind fun h =>
      growPages g fuel pages { h with heapEnd := h.heapEnd + 0x1000 }

/-- `heap_expand` -/
def heapExpand (g : Nat → Addr) (fuel : Nat) (h : Heap) (length : Addr) : Option Heap := do
  let length := if length % 0x1000 ≠ 0 then length - length % 0x1000 + 0x1000 else length
  let pages := length / 0x1000
  let newSegment := h.heapEnd
  let h ← growPages g fuel pages.toNat h
  let h := h.setFree newSegment true
  let h := h.setLast newSegment h.lastHeader
  let h := h.setNext h.lastHeader newSegment
  let h := { h with lastHeader := newSegment }
  let h := h.setNext newSegment 0
  let h := h.setLength newSegment (length - headerSize)
  return h.headerCombineBackward newSegment

/-- `free` -/
def free (h : Heap) (address : Addr) : Heap :=
  let segment := address - headerSize
  let h := h.setFree segment true
  let h := h.headerCombineForward segment
  h.headerCombineBackward segment

/-- The loop of `malloc`: the block it returns, if it returns one. -/
def mallocLoop (size : Addr) : Nat → Heap → Addr → Option (Option (Addr × Heap))
  | 0, _, _ => none
  | fuel + 1, h, current =>
    if h.isFree current ∧ size < h.length current then
      let h := (h.headerSplit current size).2
      let h := h.setFree current false
      some (some (current + headerSize, h))
    else if h.isFree current ∧ h.length current = size then
      let h := h.setFree current false
      some (some (current + headerSize, h))
    else if h.next current = 0 then some none
    else mallocLoop size fuel h (h.next current)

/-- The rounding of `malloc`. -/
def roundUp (size : Addr) : Addr :=
  if size % 0x10 > 0 then size - size % 0x10 + 0x10 else size

/-- `malloc` -/
def malloc (g : Nat → Addr) : Nat → Heap → Addr → Option (Addr × Heap)
  | 0, _, _ => none
  | fuel + 1, h, size => do
    let h ← if !h.heapInitialized then h.heapInitialize g fuel 0x7f0000000000 256 else some h
    let size := roundUp size
    if size = 0 then return (0, h)
    match ← mallocLoop size fuel h h.heapStart with
    | some block => return block
    | none =>
      let h ← h.heapExpand g fuel size
      malloc g fuel h size

/-- `realloc`. What it reads of the old header is not used. -/
def realloc (g : Nat → Addr) (fuel : Nat) (h : Heap) (pointer size : Addr) :
    Option (Addr × Heap) := do
  let (new, h) ← h.malloc g fuel size
  let h := { h with mem := memcpy h.mem new pointer size.toNat }
  return (new, h.free pointer)

/-- `calloc` -/
def calloc (g : Nat → Addr) (fuel : Nat) (h : Heap) (elements size : Addr) :
    Option (Addr × Heap) := do
  let realSize := elements * size
  let (alloc, h) ← h.malloc g fuel realSize
  return (alloc, { h with mem := memset h.mem alloc 0 realSize.toNat })

end Heap

end Skylight
