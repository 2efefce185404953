import Skylight.Proc.AddressSpace

/-!
# The system calls that map pages

`proc/calls/handlers/punmap.c`, `fb_req.c` and `kb_man.c`; `pmap.c` is beside
`task_new_page_table`. A caller is what `gs_kernel_base_t` says of it. Its key page is memory
seen as bytes, apart from the tables: `pmm_alloc_page` gives no page out twice.
-/

namespace Skylight.Calls

open Skylight.Paging

/-- `punmap`, with whatever page tables are loaded. -/
def punmap (g : Nat → Addr) (fuel : Nat) (virt : Addr) (s : Paging.State) :
    Option Paging.State :=
  if virt = 0 then some s else
  let phys := pagingWalkPage s virt
  let s := pagingUnmapPage s virt
  (pagingMapPage g fuel s phys phys flagsKernelPage).map (·.2)

/-- The task that makes a call: the `pid` of its gs page and the `cr3` of its context. -/
structure Caller where
  pid : BitVec 64
  cr3 : Addr
  deriving DecidableEq

/-- `framebuffer_info_t`, without the width. -/
structure Framebuffer where
  frameAddr : Addr
  frameHeight : BitVec 32
  framePitch : BitVec 32
  frameBpp : BitVec 32

/-- `PAGING_VIRTUAL_OFFSET` -/
def pagingVirtualOffset : Addr := 0xffff800000000000

/-- `framebuffer_size`: a product of 32 bits. -/
def Framebuffer.size (framebuffer : Framebuffer) : Addr :=
  (framebuffer.framePitch * framebuffer.frameHeight * (framebuffer.frameBpp / 8)).setWidth 64

/-- The call of `paging_map_page` for the offset `i`. -/
def Framebuffer.request (framebuffer : Framebuffer) (i : Addr) : Request :=
  ⟨framebuffer.frameAddr + i, framebuffer.frameAddr - pagingVirtualOffset + i, flagsUserPage⟩

/-- All calls of the loop. -/
def Framebuffer.requests (framebuffer : Framebuffer) : List Request :=
  (pagesBetween 0 framebuffer.size).map framebuffer.request

/-- What the handlers keep: the page tables, `current_fb_holder_pid`, `current_buffer`,
`current_pid` and `current_size`, and the bytes of memory. -/
structure Kernel where
  tables : Paging.State
  currentFbHolderPid : BitVec 64
  currentBuffer : Addr
  currentPid : BitVec 64
  currentSize : Addr
  bytes : Addr → BitVec 8

/-- The pid that stands for nobody. -/
def nobody : BitVec 64 := -1

/-- Before the first call. -/
def Kernel.boot (tables : Paging.State) (bytes : Addr → BitVec 8) : Kernel :=
  ⟨tables, nobody, 0, nobody, 0, bytes⟩

/-- `fb_req` -/
def fbReq (g : Nat → Addr) (fuel : Nat) (framebuffer : Framebuffer) (caller : Caller)
    (k : Kernel) : Option (Addr × Kernel) := do
  if k.currentFbHolderPid ≠ nobody then return (0, k)
  let kpml4 := pagingGetPml4 k.tables
  let s := pagingLoadPml4 k.tables caller.cr3
  let s ← mapPages g fuel s 0 framebuffer.size framebuffer.request
  return (framebuffer.frameAddr,
    { k with currentFbHolderPid := caller.pid, tables := pagingLoadPml4 s kpml4 })

/-- A loop that unmaps a page each round. -/
def unmapPages (s : Paging.State) (a b : Addr) (page : Addr → Addr) : Paging.State :=
  (pagesBetween a b).foldl (fun s i => pagingUnmapPage s (page i)) s

/-- `fb_kill` -/
def fbKill (framebuffer : Framebuffer) (caller : Caller) (k : Kernel) : Kernel :=
  if k.currentFbHolderPid = nobody then k else
  let kpml4 := pagingGetPml4 k.tables
  let s := pagingLoadPml4 k.tables caller.cr3
  let s := unmapPages s 0 framebuffer.size fun i => framebuffer.frameAddr + i
  { k with tables := pagingLoadPml4 s kpml4, currentFbHolderPid := nobody }

/-- A 16-bit word of memory. -/
def Kernel.read16 (k : Kernel) (a : Addr) : BitVec 16 := k.bytes (a + 1) ++ k.bytes a

/-- A 16-bit word written to memory. -/
def Kernel.write16 (k : Kernel) (a : Addr) (v : BitVec 16) : Kernel :=
  let bytes := Function.update k.bytes a (v.setWidth 8)
  { k with bytes := Function.update bytes (a + 1) ((v >>> 8).setWidth 8) }

/-- `kb_man`. That `pmm_free_page` takes the page back shows in the answers of
`pmm_alloc_page` alone, which are a parameter. -/
def kbMan (g : Nat → Addr) (fuel : Nat) (taking : Bool) (caller : Caller) (k : Kernel) :
    Option (Addr × Kernel) :=
  let kpml4 := pagingGetPml4 k.tables
  let s := pagingLoadPml4 k.tables caller.cr3
  if !taking then
    if k.currentPid ≠ caller.pid ∨ k.currentPid = nobody then
      some (0, { k with tables := pagingLoadPml4 s kpml4 })
    else
      let s := pagingUnmapPage s k.currentBuffer
      some (0, { k with
        currentPid := nobody, currentBuffer := 0, currentSize := 0
        tables := pagingLoadPml4 s kpml4 })
  else
    if k.currentPid ≠ nobody then some (0, { k with tables := pagingLoadPml4 s kpml4 })
    else do
      let (buffer, s) := s.pmmAllocPage g
      let size := buffer + pagingPageSize - 2
      let k := { k with currentPid := caller.pid, currentBuffer := buffer, currentSize := size }
      let k := k.write16 size 0
      let (_, s) ← pagingMapPage g fuel s buffer buffer flagsUserPage
      return (buffer, { k with tables := pagingLoadPml4 s kpml4 })

/-- `__kb_man_save_key` -/
def kbManSaveKey (keycode : BitVec 8) (k : Kernel) : Kernel :=
  if k.currentPid = nobody ∨ k.currentBuffer = 0 ∨ k.currentSize = 0 then k else
  let size := k.read16 k.currentSize
  if size.toNat ≥ 0x1000 - 2 then k else
  let k := k.write16 k.currentSize (size + 1)
  { k with bytes := Function.update k.bytes (k.currentBuffer + size.setWidth 64) keycode }

/-- `hid_register_keystroke`: the null keycode is no keystroke. -/
def hidRegisterKeystroke (keycode : BitVec 8) (k : Kernel) : Bool × Kernel :=
  if keycode = 0 then (false, k) else (true, kbManSaveKey keycode k)

end Skylight.Calls
