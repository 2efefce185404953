import Skylight.Iodev.PciConf
import Skylight.Laws.Iodev.Pci
import Skylight.Lib.Answers
import Skylight.Lib.Windows

/-!
# The configuration space as a store

The accessors against a store that has a page of bytes for each function. The pages of functions
that the loops come to do not meet where the segments do not, so an access within a page is an
access to the bytes of its function and to nothing else.

`configuration_stored` is a refinement over all sequences of calls: reads, writes and searches
answer as the store does, and nothing beside the pages is written. It asks of the table that it
has fewer than 65536 entries, and of its segments that they do not wrap and do not meet; an
access stays within the page of its function. The functions that the loops do not come to are
those of `Laws.Iodev.Pci`: writes to them are lost.
-/

namespace Skylight.Pci

open Skylight.Acpi (Bytes acpiGetTable)
open Skylight.Paging (Addr pagingVirtualOffset)
open Skylight.Bytes (InRange loadBytes storeBytes)
open Skylight.Windows
open Skylight.Answers (runAll Refines)

/-- The width of an access. -/
inductive Width
  | byte | word | long
  deriving DecidableEq

def Width.bytes : Width → Nat
  | .byte => 1
  | .word => 2
  | .long => 4

/-- A call of an accessor or of `find_device`. -/
inductive Op
  | read (w : Width) (p : Place) (offset : BitVec 16)
  | write (w : Width) (p : Place) (offset : BitVec 16) (value : BitVec 32)
  | find (deviceClass subclass interface : BitVec 8)

inductive Answer
  | value (v : BitVec 32)
  | written
  | device (d : Option FunctionData)

/-- The accessor that a call is of. -/
def Conf.step (acpiRsdp : Addr) (heap : Nat → Nat → FunctionData) (fuel : Nat) (s : Conf) :
    Op → Option (Answer × Conf)
  | .read .byte p offset =>
    (pciConfReadByte acpiRsdp heap fuel p.entry p.bus p.device p.function offset s).map
      fun (v, s) => (.value (v.setWidth 32), s)
  | .read .word p offset =>
    (pciConfReadWord acpiRsdp heap fuel p.entry p.bus p.device p.function offset s).map
      fun (v, s) => (.value (v.setWidth 32), s)
  | .read .long p offset =>
    (pciConfReadLong acpiRsdp heap fuel p.entry p.bus p.device p.function offset s).map
      fun (v, s) => (.value v, s)
  | .write .byte p offset v =>
    (pciConfWriteByte acpiRsdp heap fuel p.entry p.bus p.device p.function offset (v.setWidth 8)
      s).map fun s => (.written, s)
  | .write .word p offset v =>
    (pciConfWriteWord acpiRsdp heap fuel p.entry p.bus p.device p.function offset (v.setWidth 16)
      s).map fun s => (.written, s)
  | .write .long p offset v =>
    (pciConfWriteLong acpiRsdp heap fuel p.entry p.bus p.device p.function offset v s).map
      fun s => (.written, s)
  | .find deviceClass subclass interface =>
    some (.device (findDevice deviceClass subclass interface s), s)

/-- An access stays within the page of its function. -/
def Op.Inside : Op → Prop
  | .read w _ offset | .write w _ offset _ => offset.toNat + w.bytes ≤ 4096
  | .find .. => True

/-- The store: a page of bytes for each place, which are seen once there has been an access. -/
structure Space where
  known : Bool
  bytes : Place → Nat → BitVec 8

/-- A call, to the functions there are. What is written to others is lost, and they read as 0. -/
def Space.step (mem : Bytes) (mcfg : Addr) (functions : List Place) (t : Space) :
    Op → Answer × Space
  | .read w p offset =>
    let v := if p ∈ functions then word (t.bytes p) w.bytes offset.toNat else 0
    (.value (BitVec.ofNat 32 v), { t with known := true })
  | .write w p offset value =>
    let page := poke (t.bytes p) w.bytes offset.toNat value.toNat
    let bytes := if p ∈ functions then Function.update t.bytes p page else t.bytes
    (.written, ⟨true, bytes⟩)
  | .find deviceClass subclass interface =>
    let found := functions.find? fun p =>
      (t.bytes p 11, t.bytes p 10, t.bytes p 9) = (deviceClass, subclass, interface)
    (.device (if t.known then found.map (recorded mem mcfg) else none), t)

/-- The segments do not go round the end of memory, and those of different entries do not meet. -/
structure Segments (mem : Bytes) (mcfg : Addr) : Prop where
  fits : ∀ p ∈ places mem mcfg, (entryBase mem (acpiMcfgGetEntry mcfg p.entry)).toNat +
    (p.endBus mem mcfg).toNat * 2 ^ 20 + pagingVirtualOffset.toNat ≤ 2 ^ 64
  apart : ∀ p ∈ places mem mcfg, ∀ q ∈ places mem mcfg, p.entry ≠ q.entry →
    (entryBase mem (acpiMcfgGetEntry mcfg p.entry)).toNat + (p.endBus mem mcfg).toNat * 2 ^ 20 ≤
        (entryBase mem (acpiMcfgGetEntry mcfg q.entry)).toNat +
          (q.startBus mem mcfg).toNat * 2 ^ 20 ∨
      (entryBase mem (acpiMcfgGetEntry mcfg q.entry)).toNat + (q.endBus mem mcfg).toNat * 2 ^ 20 ≤
        (entryBase mem (acpiMcfgGetEntry mcfg p.entry)).toNat + (p.startBus mem mcfg).toNat * 2 ^ 20

section
variable {mem : Bytes} {mcfg acpiRsdp : Addr} {heap : Nat → Nat → FunctionData} {fuel : Nat}
  {p q : Place} {s s' : Conf} {t : Space} {functions : List Place}

/-! ### The pages -/

/-- Where a place is mapped, in numbers. -/
theorem header_toNat (segments : Segments mem mcfg) (few : (tableEntries mem mcfg).toNat < 65536)
    (mem' : p ∈ places mem mcfg) :
    (p.header mem mcfg).toNat = (entryBase mem (acpiMcfgGetEntry mcfg p.entry)).toNat +
        p.bus.toNat * 2 ^ 20 + p.device.toNat * 2 ^ 15 + p.function.toNat * 2 ^ 12 +
        pagingVirtualOffset.toNat ∧
      (p.startBus mem mcfg).toNat ≤ p.bus.toNat ∧ p.bus.toNat < (p.endBus mem mcfg).toNat ∧
      p.device.toNat < 32 ∧ p.function.toNat < 8 := by
  obtain ⟨present, below, -, -⟩ := (mem_places few).mp mem'
  have fits := segments.fits p mem'
  have start : (p.startBus mem mcfg).toNat ≤ p.bus.toNat := present.from_start
  have below : p.bus.toNat < (p.endBus mem mcfg).toNat := below
  have device : p.device.toNat < 32 := present.device
  have function : p.function.toNat < 8 := present.function
  refine ⟨?_, start, below, device, function⟩
  rw [Place.header, BitVec.toNat_add, BitVec.toNat_add, BitVec.toNat_add, BitVec.toNat_add,
    shift_toNat p.bus (by decide), shift_toNat p.device (by decide),
    shift_toNat p.function (by decide)]
  omega

/-- The pages of different places do not meet. -/
theorem places_apart (segments : Segments mem mcfg) (few : (tableEntries mem mcfg).toNat < 65536) :
    Apart (Place.header mem mcfg) 4096 (places mem mcfg) := by
  intro p hp q hq ne x inside inside'
  obtain ⟨address, start, below, device, function⟩ := header_toNat segments few hp
  obtain ⟨address', start', below', device', function'⟩ := header_toNat segments few hq
  have fits := segments.fits p hp
  have fits' := segments.fits q hq
  rw [Bytes.inRange_iff (by omega)] at inside inside'
  by_cases same : p.entry = q.entry
  · apply ne
    have base : (entryBase mem (acpiMcfgGetEntry mcfg p.entry)).toNat =
      (entryBase mem (acpiMcfgGetEntry mcfg q.entry)).toNat := by rw [same]
    obtain ⟨entry, bus, dev, fn⟩ := p
    obtain ⟨entry', bus', dev', fn'⟩ := q
    dsimp only at *
    have numbers : bus.toNat = bus'.toNat ∧ dev.toNat = dev'.toNat ∧
        fn.toNat = fn'.toNat := by omega
    rw [same, BitVec.eq_of_toNat_eq numbers.1, BitVec.eq_of_toNat_eq numbers.2.1,
      BitVec.eq_of_toNat_eq numbers.2.2]
  · have := segments.apart p hp q hq same
    omega

/-! ### The loops -/

/-- An entry matches its own place. -/
theorem recorded_matches : (recorded mem mcfg q).Matches p.entry p.bus p.device p.function ↔
    q = p := by
  constructor
  · rintro ⟨entry, bus, device, function⟩
    obtain ⟨e, b, d, f⟩ := p
    obtain ⟨e', b', d', f'⟩ := q
    cases entry
    cases bus
    cases device
    cases function
    rfl
  · rintro rfl
    exact ⟨rfl, rfl, rfl, rfl⟩

/-- A loop that does something for one place does it once. -/
theorem foldl_once {S : Type*} (body : S → S) {ps : List Place} (distinct : ps.Nodup) (m : S) :
    ps.foldl (fun m q => if q = p then body m else m) m = if p ∈ ps then body m else m := by
  induction ps generalizing m with
  | nil => rfl
  | cons q ps ih =>
    obtain ⟨new, distinct⟩ := List.nodup_cons.mp distinct
    rw [List.foldl_cons, ih distinct]
    by_cases here : q = p
    · subst here
      rw [if_pos rfl, if_neg new, if_pos List.mem_cons_self]
    · rw [if_neg here]
      simp only [List.mem_cons, Ne.symm here, false_or]

/-- A search that answers where it is to stop. -/
theorem findSome_if {B : Type*} {test : Place → Prop} [DecidablePred test] {answer : Place → B}
    (ps : List Place) : (ps.findSome? fun q => if test q then some (answer q) else none) =
      (ps.find? fun q => test q).map answer := by
  induction ps with
  | nil => rfl
  | cons q ps ih =>
    rw [List.findSome?_cons, List.find?_cons]
    by_cases here : test q
    · rw [if_pos here, decide_eq_true here]
      rfl
    · rw [if_neg here, decide_eq_false here]
      exact ih

/-- Searches with the same test. -/
theorem findSome_congr {B C : Type*} {f g : B → Option C} {l : List B} (same : ∀ b ∈ l, f b = g b) :
    l.findSome? f = l.findSome? g := by
  induction l with
  | nil => rfl
  | cons b l ih =>
    rw [List.forall_mem_cons] at same
    rw [List.findSome?_cons, List.findSome?_cons, same.1, ih same.2]

/-- A place is found where it is listed. -/
theorem find_place (ps : List Place) :
    (ps.find? fun q => q = p) = if p ∈ ps then some p else none := by
  split
  · next there =>
    cases found : ps.find? fun q => q = p with
    | none => exact absurd (List.find?_eq_none.mp found p there) (by simp)
    | some q =>
      have same := List.find?_some found
      rw [of_decide_eq_true same]
  · next there =>
    apply List.find?_eq_none.mpr
    intro q mem' same
    exact there (of_decide_eq_true same ▸ mem')

/-- A loop over the cache is one over its entries. -/
theorem functions_foldl {S : Type*} (c : Cache) (body : S → FunctionData → S) (m : S) :
    (match c.functionCache with
      | none => m
      | some cache => (List.range c.functionCacheEntries).foldl (fun m i => body m (cache i)) m) =
      c.functions.foldl body m := by
  rw [Cache.functions]
  cases c.functionCache with
  | none => rfl
  | some cache => exact List.foldl_map.symm

/-- A search in the cache is one in its entries. -/
theorem functions_findSome {B : Type*} (c : Cache) (test : FunctionData → Option B) :
    (match c.functionCache with
      | none => none
      | some cache => (List.range c.functionCacheEntries).findSome? fun i => test (cache i)) =
      c.functions.findSome? test := by
  rw [Cache.functions]
  cases c.functionCache with
  | none => rfl
  | some cache => exact List.findSome?_map.symm

/-! ### The store -/

/-- The functions there are to be reached, where there is a table. -/
def reached (mem : Bytes) (mcfg : Addr) : List Place := if mcfg = 0 then [] else places mem mcfg

/-- The pages hold what the store holds, and nothing beside them has been written. -/
structure Stored (mem : Bytes) (mcfg : Addr) (s : Conf) (t : Space) : Prop where
  cache : (s.cache = .boot ∧ s.mem = mem ∧ (mcfg = 0 ∨ t.known = false)) ∨
    (s.cache.cached = true ∧ t.known = true ∧
      s.cache.functions = (reached mem mcfg).map (recorded mem mcfg))
  same : ∀ p ∈ reached mem mcfg, ∀ i < 4096, view (Place.header mem mcfg) s.mem p i = t.bytes p i
  beside : ∀ x, (∀ p ∈ reached mem mcfg, ¬ InRange (p.header mem mcfg) 4096 x) → s.mem x = mem x

/-- What an access finds: the table, the entries it has, and their segments. -/
structure Table (mem : Bytes) (acpiRsdp mcfg : Addr) (fuel : Nat) : Prop where
  enough : 65536 ≤ fuel
  table : acpiGetTable mem acpiRsdp fuel mcfgSignature 0 = some mcfg
  few : (tableEntries mem mcfg).toNat < 65536
  segments : Segments mem mcfg

/-- What the loops come to lies apart. -/
theorem Table.reached (table : Table mem acpiRsdp mcfg fuel) :
    Apart (Place.header mem mcfg) 4096 (reached mem mcfg) ∧ (reached mem mcfg).Nodup := by
  rw [Pci.reached]
  split
  · refine ⟨fun p mem' => ?_, List.nodup_nil⟩
    cases mem'
  · exact ⟨places_apart table.segments table.few, places_nodup table.few⟩

variable (heap) in
/-- Behind the first access the cache is loaded, if there is a table. -/
theorem Stored.load (h : Stored mem mcfg s t) (table : Table mem acpiRsdp mcfg fuel) :
    ∃ s', s.load acpiRsdp heap fuel = some s' ∧ s'.mem = s.mem ∧
      s'.cache.functions = (reached mem mcfg).map (recorded mem mcfg) ∧
      Stored mem mcfg s' { t with known := true } := by
  rcases h.cache with ⟨boot, untouched, -⟩ | ⟨cached, known, functions⟩
  · rw [Conf.load, boot, untouched, if_pos (show (!Cache.boot.cached) = true from rfl)]
    by_cases none : mcfg = 0
    · have nothing : pciConfLoadCache mem acpiRsdp heap fuel .boot = some .boot := by
        rw [pciConfLoadCache, table.table, Option.bind_some, if_pos none]
      have empty : reached mem mcfg = [] := if_pos none
      rw [nothing, Option.map_some]
      refine ⟨_, rfl, rfl, ?_, .inl ⟨rfl, rfl, .inl none⟩, untouched ▸ h.same, fun _ _ => rfl⟩
      rw [empty]
      rfl
    · obtain ⟨c, run, functions⟩ :=
        @pciConfLoadCache_functions mem mcfg acpiRsdp heap fuel table.table none
        table.few table.enough
      have cached : c.cached = true := by
        rw [pciConfLoadCache, table.table, Option.bind_some, if_neg none] at run
        obtain ⟨c, -, rfl⟩ := Option.map_eq_some_iff.mp run
        rfl
      have all : reached mem mcfg = places mem mcfg := if_neg none
      rw [run, Option.map_some]
      rw [← all] at functions
      exact ⟨_, rfl, rfl, functions, .inr ⟨cached, rfl, functions⟩, untouched ▸ h.same,
        fun _ _ => rfl⟩
  · refine ⟨s, ?_, rfl, functions, .inr ⟨cached, rfl, functions⟩, h.same, h.beside⟩
    rw [Conf.load, cached]
    rfl

/-- The address of a byte within a page. -/
theorem recorded_address (p : Place) (offset : BitVec 16) :
    (recorded mem mcfg p).base + offset.setWidth 64 =
      p.header mem mcfg + BitVec.ofNat 64 offset.toNat := by
  rw [recorded]
  dsimp only
  congr 1
  apply BitVec.eq_of_toNat_eq
  rw [BitVec.toNat_setWidth, BitVec.toNat_ofNat]

variable (heap p) in
/-- A write of `n` bytes, however wide. -/
theorem Stored.write (h : Stored mem mcfg s t) (table : Table mem acpiRsdp mcfg fuel) {n v : Nat}
    {offset : BitVec 16} (inside : offset.toNat + n ≤ 4096) :
    ∃ s', pciConfWrite acpiRsdp heap fuel p.entry p.bus p.device p.function offset n v s = some s' ∧
      Stored mem mcfg s' ⟨true, if p ∈ reached mem mcfg then
        Function.update t.bytes p (poke (t.bytes p) n offset.toNat v) else t.bytes⟩ := by
  obtain ⟨s₁, load, -, functions, stored⟩ := h.load heap table
  obtain ⟨apart, distinct⟩ := table.reached
  set store : Bytes := storeBytes s₁.mem n (p.header mem mcfg + BitVec.ofNat 64 offset.toNat) v
    with def_store
  have loop : (match s₁.cache.functionCache with
      | none => s₁.mem
      | some cache => (List.range s₁.cache.functionCacheEntries).foldl (fun mem i =>
          if (cache i).Matches p.entry p.bus p.device p.function then
            storeBytes mem n ((cache i).base + offset.setWidth 64) v
          else mem) s₁.mem) = if p ∈ reached mem mcfg then store else s₁.mem := by
    rw [functions_foldl s₁.cache (fun mem (iterator : FunctionData) =>
      if iterator.Matches p.entry p.bus p.device p.function then
        storeBytes mem n (iterator.base + offset.setWidth 64) v else mem), functions,
      List.foldl_map, ← foldl_once (fun m => storeBytes m n
        (p.header mem mcfg + BitVec.ofNat 64 offset.toNat) v) distinct]
    congr 1
    funext m q
    rw [if_congr recorded_matches rfl rfl]
    split
    · next here => rw [here, recorded_address]
    · rfl
  have run : pciConfWrite acpiRsdp heap fuel p.entry p.bus p.device p.function offset n v s =
      some { s₁ with mem := if p ∈ reached mem mcfg then store else s₁.mem } := by
    rw [← loop, pciConfWrite, load]
    show (match s₁.cache.functionCache with | none => _ | some cache => _) = _
    cases s₁.cache.functionCache <;> rfl
  refine ⟨_, run, ?_⟩
  by_cases there : p ∈ reached mem mcfg
  · rw [if_pos there, if_pos there]
    refine ⟨?_, fun q hq i lt => ?_, fun x outside => ?_⟩
    · rcases stored.cache with ⟨-, -, none | unknown⟩ | cached
      · rw [reached, if_pos none] at there
        cases there
      · cases unknown
      · exact .inr cached
    · dsimp only
      by_cases here : q = p
      · subst here
        rw [Function.update_self, def_store, view_store (by decide) inside lt, poke, poke,
          stored.same q there i lt]
      · rw [Function.update_of_ne here, def_store,
          view_store_of_ne (by decide) inside apart there hq (Ne.symm here) lt]
        exact stored.same q hq i lt
    · show store x = mem x
      rw [def_store, store_beside (by decide) inside (outside p there)]
      exact stored.beside x outside
  · rw [if_neg there, if_neg there]
    exact stored

variable (heap p) in
/-- A read of `n` bytes. -/
theorem Stored.read (h : Stored mem mcfg s t) (table : Table mem acpiRsdp mcfg fuel) {n : Nat}
    {offset : BitVec 16} (inside : offset.toNat + n ≤ 4096) :
    ∃ s', pciConfRead acpiRsdp heap fuel p.entry p.bus p.device p.function offset n s =
        some (if p ∈ reached mem mcfg then word (t.bytes p) n offset.toNat else 0, s') ∧
      Stored mem mcfg s' { t with known := true } := by
  obtain ⟨s₁, load, -, functions, stored⟩ := h.load heap table
  refine ⟨s₁, ?_, stored⟩
  have loop : (match s₁.cache.functionCache with
      | none => none
      | some cache => (List.range s₁.cache.functionCacheEntries).findSome? fun i =>
          if (cache i).Matches p.entry p.bus p.device p.function then
            some (loadBytes s₁.mem n ((cache i).base + offset.setWidth 64))
          else none) =
      if p ∈ reached mem mcfg then some (word (t.bytes p) n offset.toNat) else none := by
    rw [functions_findSome s₁.cache fun iterator =>
      if iterator.Matches p.entry p.bus p.device p.function then
        some (loadBytes s₁.mem n (iterator.base + offset.setWidth 64)) else none, functions,
      List.findSome?_map]
    have tests : ((fun iterator : FunctionData =>
        if iterator.Matches p.entry p.bus p.device p.function then
          some (loadBytes s₁.mem n (iterator.base + offset.setWidth 64)) else none) ∘
          recorded mem mcfg) = fun q => if q = p then
            some (loadBytes s₁.mem n ((recorded mem mcfg q).base + offset.setWidth 64))
          else none := by
      funext q
      exact if_congr recorded_matches rfl rfl
    rw [tests, findSome_if, find_place]
    split
    · next there =>
      rw [Option.map_some, recorded_address, loadBytes_eq]
      exact congrArg some (word_congr fun i low high => stored.same p there i (by omega))
    · rfl
  have run : pciConfRead acpiRsdp heap fuel p.entry p.bus p.device p.function offset n s =
      some ((match s₁.cache.functionCache with
        | none => none
        | some cache => (List.range s₁.cache.functionCacheEntries).findSome? fun i =>
            if (cache i).Matches p.entry p.bus p.device p.function then
              some (loadBytes s₁.mem n ((cache i).base + offset.setWidth 64))
            else none).getD 0, s₁) := by
    rw [pciConfRead, load]
    show (match s₁.cache.functionCache with | none => _ | some cache => _) = _
    cases s₁.cache.functionCache <;> rfl
  rw [run, loop]
  split <;> rfl

/-- The first device of a class, once the cache is loaded. -/
theorem Stored.find (h : Stored mem mcfg s t) (deviceClass subclass interface : BitVec 8) :
    findDevice deviceClass subclass interface s = if t.known then
      ((reached mem mcfg).find? fun p =>
        (t.bytes p 11, t.bytes p 10, t.bytes p 9) = (deviceClass, subclass, interface)).map
          (recorded mem mcfg) else none := by
  have loop : findDevice deviceClass subclass interface s = s.cache.functions.findSome? fun data =>
      if classCodes s.mem data.base =
        (deviceClass, subclass, interface) then some data else none := by
    rw [← functions_findSome s.cache fun data =>
      if classCodes s.mem data.base = (deviceClass, subclass, interface) then some data else none]
    rfl
  rcases h.cache with ⟨boot, -, missing | unknown⟩ | ⟨-, known, functions⟩
  · have empty : reached mem mcfg = [] := if_pos missing
    rw [loop, boot, empty]
    exact (ite_self none).symm
  · rw [loop, boot, unknown]
    rfl
  · rw [loop, functions, List.findSome?_map, known, if_pos rfl]
    refine Eq.trans ?_ (findSome_if _)
    apply findSome_congr
    intro p mem'
    have codes : classCodes s.mem (recorded mem mcfg p).base =
        (t.bytes p 11, t.bytes p 10, t.bytes p 9) := by
      rw [classCodes, ← h.same p mem' 11 (by decide), ← h.same p mem' 10 (by decide),
        ← h.same p mem' 9 (by decide)]
      rfl
    show (if classCodes s.mem (recorded mem mcfg p).base = _ then some
      (recorded mem mcfg p) else none) = _
    rw [codes]

/-- A word of a byte, of two or of four, in 32 bits. -/
theorem value_eq {n v : Nat} (small : v < 256 ^ n) :
    (BitVec.ofNat (8 * n) v).setWidth 32 = BitVec.ofNat 32 v := by
  apply BitVec.eq_of_toNat_eq
  have width : 2 ^ (8 * n) = 256 ^ n := Nat.pow_mul 2 8 n
  rw [BitVec.toNat_setWidth, BitVec.toNat_ofNat, BitVec.toNat_ofNat, width, Nat.mod_eq_of_lt small]

variable (heap) in
/-- Every call answers as the store does. -/
theorem conf_refines (table : Table mem acpiRsdp mcfg fuel) :
    Refines (Conf.step acpiRsdp heap fuel) (Space.step mem mcfg (reached mem mcfg))
      (Stored mem mcfg) Op.Inside := by
  intro s t op h inside
  cases op with
  | read w p offset =>
    obtain ⟨s', run, stored⟩ := h.read heap p table inside
    have small : (if p ∈ reached mem mcfg then word (t.bytes p) w.bytes offset.toNat else 0) <
        256 ^ w.bytes := by
      split
      · exact word_lt ..
      · exact Nat.pow_pos (by decide)
    refine ⟨s', ?_, stored⟩
    rw [Space.step]
    dsimp only
    cases w with
    | byte =>
      rw [Conf.step, pciConfReadByte, show (1 : Nat) = Width.byte.bytes from rfl, run,
        Option.map_some, Option.map_some, ← value_eq small]
      rfl
    | word =>
      rw [Conf.step, pciConfReadWord, show (2 : Nat) = Width.word.bytes from rfl, run,
        Option.map_some, Option.map_some, ← value_eq small]
      rfl
    | long =>
      rw [Conf.step, pciConfReadLong, show (4 : Nat) = Width.long.bytes from rfl, run,
        Option.map_some, Option.map_some]
  | write w p offset value =>
    have narrow (n : Nat) : (value.setWidth n).toNat = value.toNat % 2 ^ n :=
      BitVec.toNat_setWidth ..
    cases w with
    | byte =>
      obtain ⟨s', run, stored⟩ := h.write heap p (v := (value.setWidth 8).toNat)
        table inside
      rw [narrow, show (2 : Nat) ^ 8 = 256 ^ Width.byte.bytes from rfl, poke_mod] at stored
      refine ⟨s', ?_, stored⟩
      rw [Conf.step, pciConfWriteByte, show (1 : Nat) = Width.byte.bytes from rfl, run]
      rfl
    | word =>
      obtain ⟨s', run, stored⟩ := h.write heap p (v := (value.setWidth 16).toNat)
        table inside
      rw [narrow, show (2 : Nat) ^ 16 = 256 ^ Width.word.bytes from rfl, poke_mod] at stored
      refine ⟨s', ?_, stored⟩
      rw [Conf.step, pciConfWriteWord, show (2 : Nat) = Width.word.bytes from rfl, run]
      rfl
    | long =>
      obtain ⟨s', run, stored⟩ := h.write heap p (v := value.toNat) table inside
      refine ⟨s', ?_, stored⟩
      rw [Conf.step, pciConfWriteLong, show (4 : Nat) = Width.long.bytes from rfl, run]
      rfl
  | find deviceClass subclass interface =>
    refine ⟨s, ?_, h⟩
    rw [Conf.step, h.find deviceClass subclass interface]
    rfl

/-- In every order, the calls that stay within the pages of their functions answer as a store with a
page of bytes for each function that the loops come to, and the memory beside these pages is
left. -/
theorem configuration_stored (acpiRsdp mcfg : Addr) (heap : Nat → Nat → FunctionData) (fuel : Nat)
    (mem : Bytes) (table : Table mem acpiRsdp mcfg fuel) (ops : List Op)
    (inside : ∀ op ∈ ops, op.Inside) :
    let space := runAll (Space.step mem mcfg (reached mem mcfg))
      ⟨false, view (Place.header mem mcfg) mem⟩ ops
    ∃ s, Answers.run (Conf.step acpiRsdp heap fuel) ⟨.boot, mem⟩ ops = some (space.1, s) ∧
      (∀ p ∈ reached mem mcfg, ∀ i < 4096,
        view (Place.header mem mcfg) s.mem p i = space.2.bytes p i) ∧
      ∀ x, (∀ p ∈ reached mem mcfg, ¬ InRange (p.header mem mcfg) 4096 x) → s.mem x = mem x := by
  intro space
  have start : Stored mem mcfg ⟨.boot, mem⟩ ⟨false, view (Place.header mem mcfg) mem⟩ :=
    ⟨.inl ⟨rfl, rfl, .inr rfl⟩, fun _ _ _ _ => rfl, fun _ _ => rfl⟩
  obtain ⟨s, run, stored⟩ := (conf_refines heap table).run start ops inside
  exact ⟨s, run, stored.same, stored.beside⟩

end

/-! ### One function -/

/-- The only place. -/
theorem oneFunction_places : reached (oneFunction true) 0xffff800000003000 = [⟨0, 0, 0, 0⟩] := by
  decide +kernel

/-- Its segment meets no other. -/
theorem oneFunction_segments : Segments (oneFunction true) 0xffff800000003000 := by
  have only : places (oneFunction true) 0xffff800000003000 = [⟨0, 0, 0, 0⟩] := oneFunction_places
  refine ⟨fun p mem => ?_, fun p mem q mem' other => ?_⟩
  · rw [only, List.mem_singleton] at mem
    rw [mem]
    decide
  · rw [only, List.mem_singleton] at mem mem'
    rw [mem, mem'] at other
    exact absurd rfl other

/-- Its command register is written, and read with the device id before it. It is found once there
has been an access. -/
theorem configuration_stored_one : ∃ s,
    Answers.run (Conf.step 0x1000 (fun _ _ => ⟨0, 0, 0, 0, 0⟩) 65536) ⟨.boot, oneFunction true⟩
        [.find 0 0 0, .write .word ⟨0, 0, 0, 0⟩ 4 0x10407, .read .long ⟨0, 0, 0, 0⟩ 2,
          .read .byte ⟨0, 0, 1, 0⟩ 0, .find 0 0 0] =
      some ([.device none, .written, .value 0x04070034, .value 0,
        .device (some ⟨0xffff800000100000, 0, 0, 0, 0⟩)], s) := by
  obtain ⟨s, run, -⟩ := configuration_stored 0x1000 0xffff800000003000 (fun _ _ => ⟨0, 0, 0, 0, 0⟩)
    65536 (oneFunction true)
      ⟨Nat.le_refl _, Acpi.acpiGetTable_mono (by decide) (oneFunction_table true),
      by decide, oneFunction_segments⟩
    [.find 0 0 0, .write .word ⟨0, 0, 0, 0⟩ 4 0x10407, .read .long ⟨0, 0, 0, 0⟩ 2,
      .read .byte ⟨0, 0, 1, 0⟩ 0, .find 0 0 0] (by simp [Op.Inside, Width.bytes])
  rw [oneFunction_places] at run
  exact ⟨s, run⟩

end Skylight.Pci
