import Mathlib.Logic.Function.Basic

/-!
# The global descriptor table

`cpu/gdt/gdt.c`. A place is a number of bytes from `__gdt` on; what lies behind the table has places
too.
-/

namespace Skylight.Gdt

/-- `GDT_MAX_DESCRIPTORS` -/
def maxDescriptors : Nat := 0x2000

/-- `GDT_DESCRIPTOR_SIZE`, and `sizeof(gdt_desc_t)` -/
def descriptorSize : Nat := 0x08

/-- `GDT_DESCRIPTOR_ACCESS` -/
def descriptorAccess : BitVec 8 := 0x01
/-- `GDT_DESCRIPTOR_READWRITE` -/
def descriptorReadwrite : BitVec 8 := 0x02
/-- `GDT_DESCRIPTOR_EXECUTABLE` -/
def descriptorExecutable : BitVec 8 := 0x08
/-- `GDT_DESCRIPTOR_CODE_DATA` -/
def descriptorCodeData : BitVec 8 := 0x10
/-- `GDT_DESCRIPTOR_DPL` -/
def descriptorDpl : BitVec 8 := 0x60
/-- `GDT_DESCRIPTOR_PRESENT` -/
def descriptorPresent : BitVec 8 := 0x80

/-- `GDT_BASIC_DESCRIPTOR` -/
def basicDescriptor : BitVec 8 := descriptorPresent ||| descriptorReadwrite ||| descriptorCodeData
/-- `GDT_BASIC_GRANULARITY` -/
def basicGranularity : BitVec 8 := 0x20 ||| 0x80

/-- `TSS_SIZE` -/
def tssSize : BitVec 32 := 0x70

/-- The bytes of a number in a packed structure. -/
def bytesOf (n : Nat) (v : BitVec (8 * n)) : List (BitVec 8) :=
  (List.range n).map fun i => (v >>> (8 * i)).setWidth 8

/-- `gdt_desc_t` -/
structure Descriptor where
  limit : BitVec 16
  baseLow : BitVec 16
  baseMid : BitVec 8
  flags : BitVec 8
  granularity : BitVec 8
  baseHigh : BitVec 8

def Descriptor.bytes (d : Descriptor) : List (BitVec 8) :=
  bytesOf 2 d.limit ++ bytesOf 2 d.baseLow ++ [d.baseMid, d.flags, d.granularity, d.baseHigh]

/-- `gdt_tss_desc_t` -/
structure TssDescriptor where
  limit0 : BitVec 16
  addr0 : BitVec 16
  addr1 : BitVec 8
  type0 : BitVec 8
  limit1 : BitVec 8
  addr2 : BitVec 8
  addr3 : BitVec 32
  reserved : BitVec 32

def TssDescriptor.bytes (d : TssDescriptor) : List (BitVec 8) :=
  bytesOf 2 d.limit0 ++ bytesOf 2 d.addr0 ++ [d.addr1, d.type0, d.limit1, d.addr2] ++
    bytesOf 4 d.addr3 ++ bytesOf 4 d.reserved

/-- `__gdt` with what lies behind it, and `gindex`. The places written are kept for the statement
only. -/
structure State where
  gdt : Nat → BitVec 8
  gindex : BitVec 16
  written : List Nat

/-- A structure written at a place. -/
def State.store (s : State) (place : Nat) (bytes : List (BitVec 8)) : State :=
  { s with
    gdt := fun k => if place ≤ k then bytes.getD (k - place) (s.gdt k) else s.gdt k
    written := s.written ++ List.range' place bytes.length }

/-- `gdt_add_descriptor` -/
def gdtAddDescriptor (base : BitVec 64) (limit : BitVec 16) (access granularity : BitVec 8)
    (s : State) : State :=
  if s.gindex.toNat ≥ maxDescriptors then s else
  let descriptor : Descriptor := {
    limit := limit
    baseLow := (base &&& 0xFFFF).setWidth 16
    baseMid := ((base >>> 16) &&& 0xFF).setWidth 8
    flags := access
    granularity := granularity
    baseHigh := ((base >>> 24) &&& 0xFF).setWidth 8 }
  let s := s.store (s.gindex.toNat * descriptorSize) descriptor.bytes
  { s with gindex := s.gindex + 1 }

/-- What `gdt_install_tss` writes. -/
def tssDescriptor (tss : BitVec 64) : TssDescriptor where
  limit0 := (tssSize &&& 0xFFFF).setWidth 16
  addr0 := (tss &&& 0xFFFF).setWidth 16
  addr1 := ((tss &&& 0xFF0000) >>> 16).setWidth 8
  type0 := descriptorAccess ||| descriptorExecutable ||| descriptorPresent
  limit1 := ((tssSize &&& 0xF0000) >>> 16).setWidth 8
  addr2 := ((tss &&& 0xFF000000) >>> 24).setWidth 8
  addr3 := (tss >>> 32).setWidth 32
  reserved := 0

/-- `gdt_install_tss` -/
def gdtInstallTss (tss : BitVec 64) (s : State) : BitVec 16 × State :=
  if s.gindex.toNat ≥ maxDescriptors then (0, s) else
  let s := s.store (s.gindex.toNat * descriptorSize) (tssDescriptor tss).bytes
  let s := { s with gindex := s.gindex + 2 }
  -- the product is an `int`
  (BitVec.ofNat 16 ((s.gindex.toNat - 2) * descriptorSize), s)

/-- `gdt_assemble` up to the reload. -/
def gdtAssemble (s : State) : State :=
  let s := gdtAddDescriptor 0 0 0 0 s
  let s := gdtAddDescriptor 0 0xFFFF (basicDescriptor ||| descriptorExecutable) basicGranularity s
  let s := gdtAddDescriptor 0 0xFFFF basicDescriptor basicGranularity s
  let s := gdtAddDescriptor 0 0xFFFF (basicDescriptor ||| descriptorDpl) basicGranularity s
  let s := gdtAddDescriptor 0 0xFFFF (basicDescriptor ||| descriptorDpl ||| descriptorExecutable)
    basicGranularity s
  gdtAddDescriptor 0 0 0 0 s

/-- The table and the index before the first call. -/
def State.boot (behind : Nat → BitVec 8) : State :=
  ⟨fun k => if k < maxDescriptors * descriptorSize then 0 else behind k, 0, []⟩

end Skylight.Gdt
