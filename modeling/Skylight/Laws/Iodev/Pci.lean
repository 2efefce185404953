import Skylight.Iodev.Pci
import Skylight.Laws.Iodev.Tables
import Mathlib.Data.List.Forall2

/-!
# The enumeration of PCI functions

A place of the configuration space is an entry of `MCFG`, a bus of its range, a device and a
function. The loops come to the places whose bus is below the last one and has a function 0 on its
device 0, and the cache holds these, in order. So it holds every function of the ranges, once, just
when there is none at any other place.
-/

namespace Skylight.Pci

open Skylight.Acpi (Bytes acpiGetTable sdtLength)
open Skylight.Paging (Addr pagingVirtualOffset)
open Skylight.Count

/-- A place of the configuration space, with the number of its segment's entry. -/
structure Place where
  entry : BitVec 16
  bus : BitVec 8
  device : BitVec 8
  function : BitVec 8
  deriving DecidableEq

namespace Place

/-- Where the configuration of the place is mapped. -/
def header (mem : Bytes) (mcfg : Addr) (p : Place) : Addr :=
  entryBase mem (acpiMcfgGetEntry mcfg p.entry) + p.bus.setWidth 64 <<< 20 +
    p.device.setWidth 64 <<< 15 + p.function.setWidth 64 <<< 12 + pagingVirtualOffset

/-- `start_bus` of the place's segment. -/
def startBus (mem : Bytes) (mcfg : Addr) (p : Place) : BitVec 8 :=
  entryStartBus mem (acpiMcfgGetEntry mcfg p.entry)

/-- `end_bus` of the place's segment. -/
def endBus (mem : Bytes) (mcfg : Addr) (p : Place) : BitVec 8 :=
  entryEndBus mem (acpiMcfgGetEntry mcfg p.entry)

/-- Function 0 of the place's device. -/
def deviceZero (p : Place) : Place := { p with function := 0 }

/-- Function 0 of device 0 of the place's bus. -/
def busZero (p : Place) : Place := { p with device := 0, function := 0 }

end Place

/-- The place is in the ranges of the table, and there is a function. -/
structure Present (mem : Bytes) (mcfg : Addr) (p : Place) : Prop where
  entry : p.entry.toNat < (tableEntries mem mcfg).toNat
  from_start : p.startBus mem mcfg ≤ p.bus
  to_end : p.bus ≤ p.endBus mem mcfg
  device : p.device < 32
  function : p.function < 8
  there : ¬ absent mem (p.header mem mcfg)

/-- What an entry of the cache holds of its place. -/
structure Describes (mem : Bytes) (mcfg : Addr) (data : FunctionData) (p : Place) : Prop where
  base : data.base = p.header mem mcfg
  bus : data.bus = p.bus
  device : data.device = p.device
  function : data.function = p.function

/-- The entries of the cache. -/
def Cache.functions (c : Cache) : List FunctionData :=
  match c.functionCache with
  | none => []
  | some block => (List.range c.functionCacheEntries).map block

/-- The cache has one entry for each function of the ranges, and no others. -/
def Enumerated (mem : Bytes) (mcfg : Addr) (c : Cache) : Prop :=
  ∃ places : List Place, places.Nodup ∧ (∀ p, p ∈ places ↔ Present mem mcfg p) ∧
    List.Forall₂ (Describes mem mcfg) c.functions places

section
variable {mem : Bytes} {mcfg acpiRsdp : Addr} {heap : Nat → Nat → FunctionData} {fuel : Nat}
  {entry : BitVec 16} {bus device function : BitVec 8} {p : Place} {c c' : Cache}

/-! ### What is added -/

/-- One entry more. -/
theorem Cache.functions_add (c : Cache) (data : FunctionData) :
    (c.add heap data).functions = c.functions ++ [data] := by
  unfold Cache.add Cache.functions
  dsimp only
  rw [List.range_succ, List.map_append, List.map_singleton, Nat.add_sub_cancel,
    Function.update_self]
  congr 1
  cases block : c.functionCache with
  | none =>
    rw [c.null block]
    rfl
  | some pointer =>
    apply List.map_congr_left
    intro i mem
    have lt := List.mem_range.mp mem
    rw [Function.update_of_ne (by omega), Cache.allocate, block]
    exact if_pos (by omega)

/-- The entry of the cache for a place. -/
def recorded (mem : Bytes) (mcfg : Addr) (p : Place) : FunctionData :=
  ⟨p.header mem mcfg, p.entry, p.bus, p.device, p.function⟩

/-- What is recorded of some places. -/
theorem recorded_describes (places : List Place) :
    List.Forall₂ (Describes mem mcfg) (places.map (recorded mem mcfg)) places := by
  apply List.forall₂_map_left_iff.mpr
  apply List.forall₂_same.mpr
  intro p _
  exact ⟨rfl, rfl, rfl, rfl⟩

section
variable (mem mcfg entry bus device function)

/-- The place of one function, where it is there. -/
def functionPlaces : List Place :=
  if absent mem (Place.header mem mcfg ⟨entry, bus, device, function⟩) then []
  else [⟨entry, bus, device, function⟩]

/-- The places of a device that the loop comes to. -/
def devicePlaces : List Place :=
  if absent mem (Place.header mem mcfg ⟨entry, bus, device, 0⟩) then []
  else (counters 8 0 8).flatMap (functionPlaces mem mcfg entry bus device)

/-- The places of a bus that the loop comes to. -/
def busPlaces : List Place :=
  if absent mem (Place.header mem mcfg ⟨entry, bus, 0, 0⟩) then []
  else (counters 8 0 32).flatMap (devicePlaces mem mcfg entry bus)

/-- The places of a segment that the loop comes to. -/
def segmentPlaces : List Place :=
  (counters 8 (entryStartBus mem (acpiMcfgGetEntry mcfg entry)).toNat
    (entryEndBus mem (acpiMcfgGetEntry mcfg entry)).toNat).flatMap (busPlaces mem mcfg entry)

/-- All the places that the loops come to. -/
def places : List Place :=
  (counters 16 0 (tableEntries mem mcfg).toNat).flatMap (segmentPlaces mem mcfg)

end

/-- The loop over `i` adds what its rounds add. -/
theorem forLoop_adds {w stop : Nat} {body : BitVec w → Cache → Option Cache}
    {found : BitVec w → List Place} (fits : stop < 2 ^ w)
    (step : ∀ i c, ∃ c', body i c = some c' ∧
      c'.functions = c.functions ++ (found i).map (recorded mem mcfg))
    (enough : stop < fuel) (i : BitVec w) (c : Cache) :
    ∃ c', forLoop body stop fuel i c = some c' ∧
      c'.functions = c.functions ++
        ((counters w i.toNat stop).flatMap found).map (recorded mem mcfg) := by
  rw [List.map_flatMap]
  exact forLoop_collects fits step fuel i c (by omega)

/-- A function is added, where it is there. -/
theorem loadFunction_adds (function : BitVec 8) (c : Cache) :
    ∃ c', loadFunction mem heap entry bus device
        (entryBase mem (acpiMcfgGetEntry mcfg entry) + bus.setWidth 64 <<< 20 +
          device.setWidth 64 <<< 15) function c = some c' ∧
      c'.functions = c.functions ++
        (functionPlaces mem mcfg entry bus device function).map (recorded mem mcfg) := by
  unfold functionPlaces
  by_cases none : absent mem (Place.header mem mcfg ⟨entry, bus, device, function⟩)
  · refine ⟨_, if_pos none, ?_⟩
    rw [if_pos none, List.map_nil, List.append_nil]
    rfl
  · refine ⟨_, if_neg none, ?_⟩
    rw [if_neg none, Cache.functions_add]
    rfl

/-- The header of a device is that of its function 0. -/
theorem deviceHeader_eq : Place.header mem mcfg ⟨entry, bus, device, 0⟩ =
    entryBase mem (acpiMcfgGetEntry mcfg entry) + bus.setWidth 64 <<< 20 +
      device.setWidth 64 <<< 15 + pagingVirtualOffset := by
  unfold Place.header
  rw [show (0 : BitVec 8).setWidth 64 <<< 12 = 0 from rfl]
  exact congrArg (· + pagingVirtualOffset) (BitVec.add_zero _)

/-- The header of a bus is that of its device 0. -/
theorem busHeader_eq : Place.header mem mcfg ⟨entry, bus, 0, 0⟩ =
    entryBase mem (acpiMcfgGetEntry mcfg entry) + bus.setWidth 64 <<< 20 +
      pagingVirtualOffset := by
  rw [deviceHeader_eq, show (0 : BitVec 8).setWidth 64 <<< 15 = 0 from rfl]
  exact congrArg (· + pagingVirtualOffset) (BitVec.add_zero _)

/-- A device adds its functions. -/
theorem loadDevice_adds (enough : 32 < fuel) (device : BitVec 8) (c : Cache) :
    ∃ c', loadDevice mem heap fuel entry bus
        (entryBase mem (acpiMcfgGetEntry mcfg entry) + bus.setWidth 64 <<< 20) device c = some c' ∧
      c'.functions = c.functions ++
        (devicePlaces mem mcfg entry bus device).map (recorded mem mcfg) := by
  unfold devicePlaces
  rw [deviceHeader_eq]
  split
  · next none =>
    refine ⟨_, if_pos none, ?_⟩
    rw [List.map_nil, List.append_nil]
    rfl
  · next some =>
    obtain ⟨c', run, adds⟩ := forLoop_adds (show 8 < 2 ^ 8 by decide)
      (@loadFunction_adds mem mcfg heap entry bus device) (show 8 < fuel by omega) 0
      (c.mapPage (entryBase mem (acpiMcfgGetEntry mcfg entry) + bus.setWidth 64 <<< 20 +
        device.setWidth 64 <<< 15)).2
    exact ⟨c', (if_neg some).trans run, adds⟩

/-- A bus adds its devices. -/
theorem loadBus_adds (enough : 32 < fuel) (bus : BitVec 8) (c : Cache) :
    ∃ c', loadBus mem heap fuel entry (entryBase mem (acpiMcfgGetEntry mcfg entry)) bus c =
        some c' ∧
      c'.functions = c.functions ++
        (busPlaces mem mcfg entry bus).map (recorded mem mcfg) := by
  unfold busPlaces
  rw [busHeader_eq]
  split
  · next none =>
    refine ⟨_, if_pos none, ?_⟩
    rw [List.map_nil, List.append_nil]
    rfl
  · next some =>
    obtain ⟨c', run, adds⟩ := forLoop_adds (show 32 < 2 ^ 8 by decide)
      (@loadDevice_adds mem mcfg heap fuel entry bus enough) enough 0
      (c.mapPage (entryBase mem (acpiMcfgGetEntry mcfg entry) + bus.setWidth 64 <<< 20)).2
    exact ⟨c', (if_neg some).trans run, adds⟩

/-- A segment adds its buses. -/
theorem loadSegment_adds (enough : 256 < fuel) (entry : BitVec 16) (c : Cache) :
    ∃ c', loadSegment mem heap fuel entry mcfg c = some c' ∧
      c'.functions = c.functions ++
        (segmentPlaces mem mcfg entry).map (recorded mem mcfg) := by
  have end_bus := (entryEndBus mem (acpiMcfgGetEntry mcfg entry)).isLt
  exact forLoop_adds end_bus (loadBus_adds (by omega)) (by omega) _ c

/-! ### The places -/

/-- The place of a function. -/
theorem mem_functionPlaces : p ∈ functionPlaces mem mcfg entry bus device function ↔
    p = ⟨entry, bus, device, function⟩ ∧ ¬ absent mem (p.header mem mcfg) := by
  unfold functionPlaces
  split
  · next none =>
    constructor
    · intro mem'
      cases mem'
    · intro ⟨same, there⟩
      exact absurd (same ▸ none) there
  · next there =>
    rw [List.mem_singleton]
    constructor
    · intro same
      exact ⟨same, same ▸ there⟩
    · exact And.left

/-- The places of a device whose function 0 is there. -/
theorem mem_devicePlaces : p ∈ devicePlaces mem mcfg entry bus device ↔
    p.entry = entry ∧ p.bus = bus ∧ p.device = device ∧ p.function < 8 ∧
      ¬ absent mem (p.header mem mcfg) ∧ ¬ absent mem (p.deviceZero.header mem mcfg) := by
  unfold devicePlaces
  split
  · next none =>
    constructor
    · intro mem'
      cases mem'
    · rintro ⟨rfl, rfl, rfl, -, -, there⟩
      exact absurd none there
  · next there =>
    rw [List.mem_flatMap]
    constructor
    · rintro ⟨function, counted, mem'⟩
      obtain ⟨rfl, here⟩ := mem_functionPlaces.mp mem'
      have range := (mem_counters (by decide) function).mp counted
      exact ⟨rfl, rfl, rfl, range.2, here, there⟩
    · rintro ⟨rfl, rfl, rfl, lt, here, -⟩
      have counted := (mem_counters (by decide) p.function).mpr ⟨Nat.zero_le _, lt⟩
      exact ⟨p.function, counted, mem_functionPlaces.mpr ⟨rfl, here⟩⟩

/-- The places of a bus whose device 0 is. -/
theorem mem_busPlaces : p ∈ busPlaces mem mcfg entry bus ↔
    p.entry = entry ∧ p.bus = bus ∧ p.device < 32 ∧ p.function < 8 ∧
      ¬ absent mem (p.header mem mcfg) ∧ ¬ absent mem (p.deviceZero.header mem mcfg) ∧
      ¬ absent mem (p.busZero.header mem mcfg) := by
  unfold busPlaces
  split
  · next none =>
    constructor
    · intro mem'
      cases mem'
    · rintro ⟨rfl, rfl, -, -, -, -, there⟩
      exact absurd none there
  · next there =>
    rw [List.mem_flatMap]
    constructor
    · rintro ⟨device, counted, mem'⟩
      obtain ⟨rfl, rfl, rfl, function, here, first⟩ := mem_devicePlaces.mp mem'
      have range := (mem_counters (by decide) p.device).mp counted
      exact ⟨rfl, rfl, range.2, function, here, first, there⟩
    · rintro ⟨rfl, rfl, lt, function, here, first, -⟩
      have counted := (mem_counters (by decide) p.device).mpr ⟨Nat.zero_le _, lt⟩
      exact ⟨p.device, counted, mem_devicePlaces.mpr ⟨rfl, rfl, rfl, function, here, first⟩⟩

/-- All places that the loops come to: not those on a last bus. -/
theorem mem_places (few : (tableEntries mem mcfg).toNat < 65536) : p ∈ places mem mcfg ↔
    Present mem mcfg p ∧ p.bus < p.endBus mem mcfg ∧
      ¬ absent mem (p.deviceZero.header mem mcfg) ∧ ¬ absent mem (p.busZero.header mem mcfg) := by
  unfold places segmentPlaces
  rw [List.mem_flatMap]
  constructor
  · rintro ⟨entry, counted, mem'⟩
    obtain ⟨bus, range, mem'⟩ := List.mem_flatMap.mp mem'
    obtain ⟨rfl, rfl, device, function, here, first, start⟩ := mem_busPlaces.mp mem'
    have entries := (mem_counters (by omega) p.entry).mp counted
    have buses := (mem_counters (Nat.le_of_lt (BitVec.isLt _)) p.bus).mp range
    have inside := Nat.le_of_lt buses.2
    exact ⟨⟨entries.2, buses.1, inside, device, function, here⟩, buses.2, first, start⟩
  · intro ⟨present, below, first, start⟩
    refine ⟨p.entry, (mem_counters (by omega) _).mpr ⟨Nat.zero_le _, present.entry⟩, ?_⟩
    apply List.mem_flatMap.mpr
    refine ⟨p.bus, (mem_counters (Nat.le_of_lt (BitVec.isLt _)) _).mpr ?_, ?_⟩
    · exact ⟨present.from_start, below⟩
    · exact mem_busPlaces.mpr
        ⟨rfl, rfl, present.device, present.function, present.there, first, start⟩

/-- No function twice. -/
theorem functionPlaces_nodup (function : BitVec 8) :
    (functionPlaces mem mcfg entry bus device function).Nodup := by
  unfold functionPlaces
  split
  · exact List.nodup_nil
  · exact List.nodup_singleton _

/-- Nor on a device. -/
theorem devicePlaces_nodup (device : BitVec 8) :
    (devicePlaces mem mcfg entry bus device).Nodup := by
  unfold devicePlaces
  split
  · exact List.nodup_nil
  · apply nodup_flatMap_of_key Place.function (counters_nodup (by decide)) functionPlaces_nodup
    intro function p mem'
    exact congrArg Place.function (mem_functionPlaces.mp mem').1

/-- Nor on a bus. -/
theorem busPlaces_nodup (bus : BitVec 8) : (busPlaces mem mcfg entry bus).Nodup := by
  unfold busPlaces
  split
  · exact List.nodup_nil
  · apply nodup_flatMap_of_key Place.device (counters_nodup (by decide)) devicePlaces_nodup
    intro device p mem'
    exact (mem_devicePlaces.mp mem').2.2.1

/-- Nor anywhere. -/
theorem places_nodup (few : (tableEntries mem mcfg).toNat < 65536) :
    (places mem mcfg).Nodup := by
  apply nodup_flatMap_of_key Place.entry (counters_nodup (by omega))
  · intro entry
    apply nodup_flatMap_of_key Place.bus (counters_nodup (Nat.le_of_lt (BitVec.isLt _)))
      busPlaces_nodup
    intro bus p mem'
    exact (mem_busPlaces.mp mem').2.1
  · intro entry p mem'
    obtain ⟨bus, -, mem'⟩ := List.mem_flatMap.mp mem'
    exact (mem_busPlaces.mp mem').1

/-! ### The cache -/

section
variable {fuel' : Nat} {busAddress base : Addr} {seg : BitVec 16}

/-- More fuel changes nothing for a device that was loaded. -/
theorem loadDevice_mono (le : fuel ≤ fuel') (device : BitVec 8) (c c' : Cache)
    (run : loadDevice mem heap fuel seg bus busAddress device c = some c') :
    loadDevice mem heap fuel' seg bus busAddress device c = some c' := by
  unfold loadDevice at run ⊢
  dsimp only at run ⊢
  split_ifs at run ⊢
  · exact run
  · exact forLoop_mono le (fun _ _ _ => id) run

/-- Nor for a bus. -/
theorem loadBus_mono (le : fuel ≤ fuel') (bus : BitVec 8) (c c' : Cache)
    (run : loadBus mem heap fuel seg base bus c = some c') :
    loadBus mem heap fuel' seg base bus c = some c' := by
  unfold loadBus at run ⊢
  dsimp only at run ⊢
  split_ifs at run ⊢
  · exact run
  · exact forLoop_mono le (loadDevice_mono le) run

/-- Nor for a segment. -/
theorem loadSegment_mono (le : fuel ≤ fuel') (seg : BitVec 16) (c c' : Cache)
    (run : loadSegment mem heap fuel seg mcfg c = some c') :
    loadSegment mem heap fuel' seg mcfg c = some c' :=
  forLoop_mono le (loadBus_mono le) run

/-- Nor for the cache. -/
theorem pciConfLoadCache_mono (le : fuel ≤ fuel')
    (run : pciConfLoadCache mem acpiRsdp heap fuel c = some c') :
    pciConfLoadCache mem acpiRsdp heap fuel' c = some c' := by
  unfold pciConfLoadCache at run ⊢
  obtain ⟨mcfg, table, load⟩ := Option.bind_eq_some_iff.mp run
  rw [Acpi.acpiGetTable_mono le table, Option.bind_some]
  split_ifs at load ⊢
  · exact load
  · obtain ⟨c₁, loop, rfl⟩ := Option.map_eq_some_iff.mp load
    rw [forLoop_mono le (loadSegment_mono le) loop, Option.map_some]

end

/-- The cache after a table of fewer than 65536 entries. -/
theorem pciConfLoadCache_functions
    (table : acpiGetTable mem acpiRsdp fuel mcfgSignature 0 = some mcfg) (real : mcfg ≠ 0)
    (few : (tableEntries mem mcfg).toNat < 65536) (enough : 65536 ≤ fuel) :
    ∃ c, pciConfLoadCache mem acpiRsdp heap fuel .boot = some c ∧
      c.functions = (places mem mcfg).map (recorded mem mcfg) := by
  obtain ⟨c, run, adds⟩ := forLoop_adds few
    (@loadSegment_adds mem mcfg heap fuel (by omega)) (show _ < fuel by omega) 0 .boot
  refine ⟨{ c with cached := true }, ?_, adds⟩
  unfold pciConfLoadCache
  rw [table, Option.bind_some, if_neg real, run, Option.map_some]

/-- The loaded cache is complete just when every function is at a place the loops come to. -/
theorem Enumerated.reached (few : (tableEntries mem mcfg).toNat < 65536)
    (enumerated : Enumerated mem mcfg c)
    (holds : c.functions = (places mem mcfg).map (recorded mem mcfg))
    (present : Present mem mcfg p) : p ∈ places mem mcfg := by
  obtain ⟨all, distinct, mem_all, describes⟩ := enumerated
  have length : all.length = (places mem mcfg).length := by
    rw [← describes.length_eq, holds, List.length_map]
  have within : places mem mcfg ⊆ all := fun q mem' => (mem_all q).mpr ((mem_places few).mp mem').1
  have perm := (List.subperm_of_subset (places_nodup few) within).perm_of_length_le
    (Nat.le_of_eq length)
  exact perm.mem_iff.mpr ((mem_all p).mpr present)

/-- A run that ends had a table of fewer than 65536 entries, and came to every function where the
cache is complete. -/
theorem Enumerated.few_and_reached
    (table : ∃ fuel, acpiGetTable mem acpiRsdp fuel mcfgSignature 0 = some mcfg) (real : mcfg ≠ 0)
    (run : pciConfLoadCache mem acpiRsdp heap fuel .boot = some c)
    (enumerated : Enumerated mem mcfg c) :
    (tableEntries mem mcfg).toNat < 65536 ∧ ∀ p, Present mem mcfg p → p ∈ places mem mcfg := by
  obtain ⟨enough, table⟩ := table
  have more := pciConfLoadCache_mono (Nat.le_max_left fuel (max enough 65536)) run
  have table' := Acpi.acpiGetTable_mono
    (show enough ≤ max fuel (max enough 65536) by omega) table
  have few : (tableEntries mem mcfg).toNat < 65536 := by
    by_contra many
    unfold pciConfLoadCache at more
    rw [table', Option.bind_some, if_neg real,
      forLoop_endless (show 2 ^ 16 ≤ _ by omega)] at more
    cases more
  obtain ⟨c', run', holds⟩ := pciConfLoadCache_functions table' real few (by omega)
  obtain rfl := Option.some.inj (more.symm.trans run')
  exact ⟨few, fun p present => enumerated.reached few holds present⟩

/-- Where every device with a function has a function 0, the cache is complete if and only if the
table has fewer than 65536 entries and each bus with a function is below the last one of its range
and has a function 0 on its device 0. -/
theorem enumerated_iff (table : ∃ fuel, acpiGetTable mem acpiRsdp fuel mcfgSignature 0 = some mcfg)
    (real : mcfg ≠ 0)
    (first : ∀ p, Present mem mcfg p → Present mem mcfg p.deviceZero) :
    (∃ fuel c, pciConfLoadCache mem acpiRsdp heap fuel .boot = some c ∧ Enumerated mem mcfg c) ↔
      (tableEntries mem mcfg).toNat < 65536 ∧
        ∀ p, Present mem mcfg p → p.bus < p.endBus mem mcfg ∧ Present mem mcfg p.busZero := by
  constructor
  · rintro ⟨fuel, c, run, enumerated⟩
    obtain ⟨few, reached⟩ := enumerated.few_and_reached table real run
    refine ⟨few, fun p present => ?_⟩
    obtain ⟨-, below, -, start⟩ := (mem_places few).mp (reached p present)
    exact ⟨below, present.entry, present.from_start, present.to_end,
      show (0 : BitVec 8) < 32 by decide, show (0 : BitVec 8) < 8 by decide, start⟩
  · intro ⟨few, reach⟩
    obtain ⟨enough, table⟩ := table
    obtain ⟨c, run, holds⟩ := pciConfLoadCache_functions
      (Acpi.acpiGetTable_mono (Nat.le_max_left enough 65536) table) real few
      (Nat.le_max_right enough 65536)
    refine ⟨_, c, run, places mem mcfg, places_nodup few, ?_, ?_⟩
    · intro p
      rw [mem_places few]
      constructor
      · exact And.left
      · intro present
        obtain ⟨below, start⟩ := reach p present
        exact ⟨present, below, (first p present).there, start.there⟩
    · rw [holds]
      exact recorded_describes _

end

/-! ### One function -/

/-- Memory with a pointer of the firmware at `0x1000`, an XSDT at `0x2000`, and at `0x3000` a table
`MCFG` with one entry, of bus 0 or of the buses 0 and 1, whose configuration space at `0x100000`
has one function. -/
def oneFunction (two : Bool) : Bytes := fun a =>
  if 0xffff800000100000 ≤ a then (if a = 0xffff800000100002 then 0x34 else 0)
  else if a = 0x1019 then 0x20
  else if a = 0xffff800000002004 then 44
  else if a = 0xffff800000002025 then 0x30
  else if a = 0xffff800000003000 then 0x4D else if a = 0xffff800000003001 then 0x43
  else if a = 0xffff800000003002 then 0x46 else if a = 0xffff800000003003 then 0x47
  else if a = 0xffff800000003004 then 60
  else if a = 0xffff80000000302e then 0x10
  else if a = 0xffff800000003037 then (if two then 1 else 0)
  else 0

/-- The table is found. -/
theorem oneFunction_table (two : Bool) :
    acpiGetTable (oneFunction two) 0x1000 1 mcfgSignature 0 = some 0xffff800000003000 := by
  cases two <;> decide

/-- Its entry. -/
theorem oneFunction_entry (two : Bool) :
    entryBase (oneFunction two) (acpiMcfgGetEntry 0xffff800000003000 0) = 0x100000 ∧
      entryEndBus (oneFunction two) (acpiMcfgGetEntry 0xffff800000003000 0) =
        (if two then 1 else 0) := by
  cases two <;> decide

/-- All other memory is zero. -/
theorem oneFunction_empty {two : Bool} {a : Addr} (inside : 0xffff800000100000 ≤ a.toNat)
    (other : a.toNat ≠ 0xffff800000100002) : oneFunction two a = 0 := by
  have above : (0xffff800000100000 : Addr) ≤ a := inside
  unfold oneFunction
  rw [if_pos above, if_neg]
  intro same
  exact other (congrArg BitVec.toNat same)

/-- A number of eight bits, shifted. -/
theorem shift_toNat (x : BitVec 8) {k : Nat} (small : k ≤ 20) :
    (x.setWidth 64 <<< k).toNat = x.toNat * 2 ^ k := by
  have bound : x.toNat * 2 ^ k < 256 * 2 ^ 20 :=
    Nat.mul_lt_mul_of_lt_of_le x.isLt (Nat.pow_le_pow_right (by decide) small) (by decide)
  rw [BitVec.toNat_shiftLeft, BitVec.toNat_setWidth, Nat.shiftLeft_eq,
    Nat.mod_eq_of_lt (Nat.lt_trans x.isLt (by decide)), Nat.mod_eq_of_lt (by omega)]

/-- There is one entry. -/
theorem oneFunction_single {two : Bool} {entry : BitVec 16}
    (lt : entry.toNat < (tableEntries (oneFunction two) 0xffff800000003000).toNat) : entry = 0 := by
  have one : (tableEntries (oneFunction two) 0xffff800000003000).toNat = 1 := by
    cases two <;> decide
  apply BitVec.eq_of_toNat_eq
  exact Nat.lt_one_iff.mp (one ▸ lt)

/-- The only function is at the first place. -/
theorem oneFunction_present {two : Bool} {p : Place}
    (present : Present (oneFunction two) 0xffff800000003000 p) : p = ⟨0, 0, 0, 0⟩ := by
  obtain ⟨entry, bus, device, function⟩ := p
  obtain rfl := oneFunction_single present.entry
  have top : bus ≤ 1 := by
    apply BitVec.le_trans (show bus ≤ _ from present.to_end)
    unfold Place.endBus
    rw [(oneFunction_entry two).2]
    cases two <;> decide
  have low : bus.toNat ≤ 1 := top
  have devices : device.toNat < 32 := present.device
  have functions : function.toNat < 8 := present.function
  have address :
      (Place.header (oneFunction two) 0xffff800000003000 ⟨0, bus, device, function⟩).toNat =
        0xffff800000100000 + bus.toNat * 2 ^ 20 + device.toNat * 2 ^ 15 +
          function.toNat * 2 ^ 12 := by
    unfold Place.header
    rw [(oneFunction_entry two).1, BitVec.toNat_add, BitVec.toNat_add, BitVec.toNat_add,
      BitVec.toNat_add, shift_toNat bus (by decide), shift_toNat device (by decide),
      shift_toNat function (by decide),
      show pagingVirtualOffset.toNat = 0xffff800000000000 from rfl,
      show (0x100000 : Addr).toNat = 0x100000 from rfl]
    omega
  have there := present.there
  generalize Place.header (oneFunction two) 0xffff800000003000 ⟨0, bus, device, function⟩ = header
    at address there
  have low : (header + 2).toNat = header.toNat + 2 := by
    rw [BitVec.toNat_add, show (2 : Addr).toNat = 2 from rfl]
    omega
  have high : (header + 2 + 1).toNat = header.toNat + 3 := by
    rw [BitVec.toNat_add, low, show (1 : Addr).toNat = 1 from rfl]
    omega
  have first : bus.toNat = 0 ∧ device.toNat = 0 ∧ function.toNat = 0 := by
    by_contra other
    apply there
    unfold absent deviceId
    rw [Acpi.read16, oneFunction_empty (by omega) (by omega),
      oneFunction_empty (by omega) (by omega)]
    exact Or.inl rfl
  rw [show bus = 0 from BitVec.eq_of_toNat_eq first.1,
    show device = 0 from BitVec.eq_of_toNat_eq first.2.1,
    show function = 0 from BitVec.eq_of_toNat_eq first.2.2]

/-- The function is there. -/
theorem oneFunction_there (two : Bool) :
    Present (oneFunction two) 0xffff800000003000 ⟨0, 0, 0, 0⟩ := by
  cases two with
  | false => exact ⟨by decide, by decide, by decide, by decide, by decide, by decide⟩
  | true => exact ⟨by decide, by decide, by decide, by decide, by decide, by decide⟩

/-- And it is a function 0. -/
theorem oneFunction_first {two : Bool} {p : Place}
    (present : Present (oneFunction two) 0xffff800000003000 p) :
    Present (oneFunction two) 0xffff800000003000 p.deviceZero := by
  obtain rfl := oneFunction_present present
  exact oneFunction_there two

/-- Below the last bus the function is found. -/
theorem enumerated_one : ∃ fuel c,
    pciConfLoadCache (oneFunction true) 0x1000 (fun _ _ => ⟨0, 0, 0, 0, 0⟩) fuel .boot = some c ∧
      Enumerated (oneFunction true) 0xffff800000003000 c := by
  apply (enumerated_iff ⟨1, oneFunction_table true⟩ (by decide)
    fun _ => oneFunction_first).mpr
  refine ⟨by decide, fun p present => ?_⟩
  obtain rfl := oneFunction_present present
  exact ⟨by decide, oneFunction_there true⟩

/-- On the last bus it is not. -/
theorem not_always_enumerated : ¬ ∀ (mem : Bytes) (acpiRsdp mcfg : Addr)
    (heap : Nat → Nat → FunctionData),
    (∃ fuel, acpiGetTable mem acpiRsdp fuel mcfgSignature 0 = some mcfg) → mcfg ≠ 0 →
    (∀ j k : BitVec 16, j.toNat < (tableEntries mem mcfg).toNat →
      k.toNat < (tableEntries mem mcfg).toNat →
      entrySegment mem (acpiMcfgGetEntry mcfg j) = entrySegment mem (acpiMcfgGetEntry mcfg k) →
      j = k) →
    (∀ p, Present mem mcfg p → Present mem mcfg p.deviceZero) →
    ∃ fuel c, pciConfLoadCache mem acpiRsdp heap fuel .boot = some c ∧ Enumerated mem mcfg c := by
  intro all
  obtain ⟨fuel, c, run, enumerated⟩ := all (oneFunction false) 0x1000 0xffff800000003000
    (fun _ _ => ⟨0, 0, 0, 0, 0⟩) ⟨1, oneFunction_table false⟩ (by decide)
    (fun _ _ hj hk _ => (oneFunction_single hj).trans (oneFunction_single hk).symm)
    fun _ => oneFunction_first
  obtain ⟨few, reached⟩ := enumerated.few_and_reached ⟨1, oneFunction_table false⟩ (by decide) run
  exact absurd ((mem_places few).mp (reached _ (oneFunction_there false))).2.1 (by decide)

end Skylight.Pci
