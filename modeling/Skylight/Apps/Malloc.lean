import Skylight.Mem.Heap.Allocator
import Skylight.Proc.AddressSpace

/-!
# The heap of prism

`apps/frames/prism/src/lib/std/malloc.c`. The headers, the globals and the rounding of `malloc` are
those of the kernel's allocator. Memory is what prism sees at its own addresses, and `pmap` is a
system call of the task whose page tables are `cr3`. `fuel` bounds the walk over the segments, the
calls of `malloc` inside `malloc`, and those of `paging_map_page` inside itself.
-/

namespace Skylight.UserHeap

open Skylight.Bytes
open Skylight.Heap (headerSize roundUp)

/-- `header_split` -/
def headerSplit (h : Heap) (segment splitLength : Addr) : Addr × Heap :=
  if splitLength < 0x10 then (0, h) else
  let length := h.length segment - splitLength - headerSize
  -- an `int64_t`: what is left may be too little for a header
  if length.toInt < 0x20 then (0, h) else
  let newHeader := segment + splitLength + headerSize
  let h := if h.next segment ≠ 0 then h.setLast (h.next segment) newHeader else h
  let h := h.setNext newHeader (h.next segment)
  let h := h.setNext segment newHeader
  let h := h.setLast newHeader segment
  let h := h.setLength newHeader (length - headerSize)
  let h := h.setFree newHeader true
  let h := h.setLength segment splitLength
  let h := if h.lastHeader = segment then { h with lastHeader := newHeader } else h
  (newHeader, h)

/-- `header_combine_forward`. The header is cleared before its `next` is read. -/
def headerCombineForward (h : Heap) (segment : Addr) : Heap :=
  if h.next segment = 0 then h else
  if !h.isFree (h.next segment) then h else
  let h := if h.next segment = h.lastHeader then { h with lastHeader := segment } else h
  let h := if h.next (h.next segment) ≠ 0 then h.setLast (h.next (h.next segment)) segment else h
  let h := h.setLength segment (h.length segment + h.length (h.next segment) + headerSize)
  let h := { h with mem := memset h.mem (h.next segment) 0 headerSize.toNat }
  h.setNext segment (h.next (h.next segment))

/-- `header_combine_backward` -/
def headerCombineBackward (h : Heap) (segment : Addr) : Heap :=
  if h.last segment ≠ 0 ∧ h.isFree (h.last segment) then headerCombineForward h (h.last segment)
  else h

/-- `pmap(address)` -/
def pmap (g : Nat → Addr) (cr3 : Addr) (fuel : Nat) (h : Heap) (address : Addr) : Option Heap :=
  (Paging.pmap g fuel cr3 address h.tables).map fun r => { h with tables := r.2 }

/-- The loop of `heap_initialize`. -/
def mapPages (g : Nat → Addr) (cr3 : Addr) (fuel : Nat) : Nat → Heap → Addr → Option Heap
  | 0, h, _ => some h
  | pages + 1, h, pos =>
    (pmap g cr3 fuel h pos).bind (mapPages g cr3 fuel pages · (pos + 0x1000))

/-- `heap_initialize` -/
def heapInitialize (g : Nat → Addr) (cr3 : Addr) (fuel : Nat) (h : Heap) (address pages : Addr) :
    Option Heap := do
  let h ← mapPages g cr3 fuel pages.toNat h address
  let length := pages * 0x1000
  let h := { h with heapStart := address }
  let h := { h with heapEnd := h.heapStart + length }
  let start := address
  let h := h.setLength start (length - headerSize)
  let h := h.setNext start 0
  let h := h.setLast start 0
  let h := h.setFree start true
  let h := { h with lastHeader := start }
  return { h with heapInitialized := true }

/-- The loop of `heap_expand`. -/
def growPages (g : Nat → Addr) (cr3 : Addr) (fuel : Nat) : Nat → Heap → Option Heap
  | 0, h => some h
  | pages + 1, h => (pmap g cr3 fuel h h.heapEnd).bind fun h =>
      growPages g cr3 fuel pages { h with heapEnd := h.heapEnd + 0x1000 }

/-- `heap_expand` -/
def heapExpand (g : Nat → Addr) (cr3 : Addr) (fuel : Nat) (h : Heap) (length : Addr) :
    Option Heap := do
  let length := if length % 0x1000 ≠ 0 then length - length % 0x1000 + 0x1000 else length
  let pages := length / 0x1000
  let newSegment := h.heapEnd
  let h ← growPages g cr3 fuel pages.toNat h
  let h := h.setFree newSegment true
  let h := h.setLast newSegment h.lastHeader
  let h := h.setNext h.lastHeader newSegment
  let h := { h with lastHeader := newSegment }
  let h := h.setNext newSegment 0
  let h := h.setLength newSegment (length - headerSize)
  return headerCombineBackward h newSegment

/-- `free` -/
def free (h : Heap) (address : Addr) : Heap :=
  let segment := address - headerSize
  if h.next segment - h.length segment ≠ segment then h else
  let h := h.setFree segment true
  let h := headerCombineForward h segment
  headerCombineBackward h segment

/-- The loop of `malloc`: the block it returns, if it returns one. -/
def mallocLoop (size : Addr) : Nat → Heap → Addr → Option (Option (Addr × Heap))
  | 0, _, _ => none
  | fuel + 1, h, current =>
    if h.isFree current ∧ size < h.length current then
      let h := (headerSplit h current size).2
      let h := h.setFree current false
      some (some (current + headerSize, h))
    else if h.isFree current ∧ h.length current = size then
      let h := h.setFree current false
      some (some (current + headerSize, h))
    else if h.next current = 0 then some none
    else mallocLoop size fuel h (h.next current)

/-- `malloc` -/
def malloc (g : Nat → Addr) (cr3 : Addr) : Nat → Heap → Addr → Option (Addr × Heap)
  | 0, _, _ => none
  | fuel + 1, h, size => do
    let h ← if !h.heapInitialized then heapInitialize g cr3 fuel h 0x7f0000000000 256 else some h
    let size := roundUp size
    if size = 0 then return (0, h)
    match ← mallocLoop size fuel h h.heapStart with
    | some block => return block
    | none =>
      let h ← heapExpand g cr3 fuel h size
      malloc g cr3 fuel h size

end Skylight.UserHeap
