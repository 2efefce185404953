import Skylight.Iodev.Apic
import Skylight.Proc.AddressSpace

/-!
# The list of I/O APICs

`iodev/apic/ioapic.c`. The nodes are words of memory that `malloc` gives: the call number `k` gives
the block `heap k`, whose words hold whatever they hold. A loop over the list takes fuel, since the
links are followed wherever they lead.
-/

namespace Skylight.Apic

open Skylight.Paging (Addr Request flagsKernelPage pagingVirtualOffset)

/-- A block of the size of an `apic_io_controller_node_t`, and what its words hold at first. -/
structure Block where
  address : Addr
  base : BitVec 64
  ioapicId : BitVec 64
  next : BitVec 64

/-- `ioapics`, the words of memory, the calls of `malloc`, and the pages that were mapped. -/
structure Registry where
  ioapics : Addr
  words : Addr → BitVec 64
  served : Nat
  mapped : List Request

/-- `&node->base` -/
def fieldBase (node : Addr) : Addr := node
/-- `&node->ioapic_id` -/
def fieldIoapicId (node : Addr) : Addr := node + 8
/-- `&node->next` -/
def fieldNext (node : Addr) : Addr := node + 16

namespace Registry

/-- A word is written. -/
def set (r : Registry) (a : Addr) (value : BitVec 64) : Registry :=
  { r with words := Function.update r.words a value }

/-- `node->next` -/
def next (r : Registry) (node : Addr) : Addr := r.words (fieldNext node)

/-- `malloc(sizeof(apic_io_controller_node_t))` -/
def malloc (heap : Nat → Block) (r : Registry) : Addr × Registry :=
  let block := heap r.served
  let r := { r with served := r.served + 1 }
  let r := r.set (fieldBase block.address) block.base
  let r := r.set (fieldIoapicId block.address) block.ioapicId
  (block.address, r.set (fieldNext block.address) block.next)

end Registry

/-- The walk to the last node of the list. -/
def beforeNew (r : Registry) : Nat → Addr → Option Addr
  | 0, _ => none
  | fuel + 1, node => if r.next node ≠ 0 then beforeNew r fuel (r.next node) else some node

/-- The address a controller is reached at. -/
def Controller.base (controller : Controller) : Addr :=
  controller.ioapicAddress.setWidth 64 + pagingVirtualOffset

/-- The end of `apic_io_register_controller`: the new node is filled, and its page mapped. -/
def Registry.fill (r : Registry) (newIoapic : Addr) (controller : Controller) : Registry :=
  let r := r.set (fieldBase newIoapic) controller.base
  let r := r.set (fieldIoapicId newIoapic) (controller.ioapicId.setWidth 64)
  let request : Request :=
    ⟨controller.base, controller.ioapicAddress.setWidth 64, flagsKernelPage⟩
  { r with mapped := r.mapped ++ [request] }

/-- `apic_io_register_controller` -/
def apicIoRegisterController (heap : Nat → Block) (fuel : Nat) (controller : Controller)
    (r : Registry) : Option Registry :=
  if r.ioapics = 0 then
    let (block, r) := r.malloc heap
    let r := { r with ioapics := block }
    let newIoapic := r.ioapics
    let r := r.set (fieldNext newIoapic) 0
    some (r.fill newIoapic controller)
  else
    (beforeNew r fuel r.ioapics).map fun last =>
      let (block, r) := r.malloc heap
      let r := r.set (fieldNext last) block
      let newIoapic := r.next last
      r.fill newIoapic controller

/-- Controllers registered one after the other. -/
def registerAll (heap : Nat → Block) (fuel : Nat) (controllers : List Controller) (r : Registry) :
    Option Registry :=
  controllers.foldlM (fun r controller => apicIoRegisterController heap fuel controller r) r

/-- The loop of `apic_io_get_base` -/
def getBaseLoop (r : Registry) (ioapicId : BitVec 64) : Nat → Addr → Option Addr
  | 0, _ => none
  | fuel + 1, ioapic =>
    if ioapic = 0 then some 0
    else if r.words (fieldIoapicId ioapic) = ioapicId then some (r.words (fieldBase ioapic))
    else getBaseLoop r ioapicId fuel (r.next ioapic)

/-- `apic_io_get_base` -/
def apicIoGetBase (fuel : Nat) (ioapicId : BitVec 64) (r : Registry) : Option Addr :=
  getBaseLoop r ioapicId fuel r.ioapics

/-- Before the first call. -/
def Registry.boot (words : Addr → BitVec 64) : Registry := ⟨0, words, 0, []⟩

end Skylight.Apic
