import Skylight.Iodev.Apic

/-!
# The records of the MADT

The loops over the records add the length of a record before they look at one. So they look at
what follows each record: never at the first, and once at the bytes behind the table. They end
exactly if no record they step over has length zero.

`madt_loops_end_iff` is about every content of memory: all loops end exactly if they come to no
record of length zero, and then within as many rounds as the table has bytes.
`madt_traversed_iff` is about tables whose records fill them: one that has a record is never
traversed as it should. What is read behind the table is whatever memory holds there.
-/

namespace Skylight.Apic

open Skylight.Acpi
open Skylight.Paging (Addr)

/-- The bytes of the table. -/
def tableLength (mem : Bytes) (madt : Addr) : Nat := (madtLength mem madt).toNat

/-- The address `o` bytes into the table. -/
def inTable (madt : Addr) (o : Nat) : Addr := madt + BitVec.ofNat 64 o

/-- Where the record at `o` ends. -/
def nextRecord (mem : Bytes) (madt : Addr) (o : Nat) : Nat :=
  o + (recordLength mem (inTable madt o)).toNat

/-- The places a loop comes to. -/
inductive RecordAt (mem : Bytes) (madt : Addr) : Nat → Prop
  | first : RecordAt mem madt 44
  | next {o : Nat} (here : RecordAt mem madt o) (lt : o < tableLength mem madt) :
      RecordAt mem madt (nextRecord mem madt o)

/-- The records a loop looks at, from the place `o` on. -/
inductive Walk (mem : Bytes) (madt : Addr) : Nat → List Addr → Prop
  | stop {o : Nat} (le : tableLength mem madt ≤ o) : Walk mem madt o []
  | step {o : Nat} {l : List Addr} (lt : o < tableLength mem madt)
      (rest : Walk mem madt (nextRecord mem madt o) l) :
      Walk mem madt o (inTable madt (nextRecord mem madt o) :: l)

/-- The records a loop looks at, as a loop that does nothing else finds them. -/
def visited (mem : Bytes) (madt : Addr) (fuel : Nat) : Option (List Addr) :=
  recordLoop mem madt (fun l record => l ++ [record]) fuel (madt + madtHeaderSize) []

/-- The records of a table, one behind the other up to its end. -/
def Fills (mem : Bytes) (madt : Addr) : Nat → List Addr → Prop
  | o, [] => o = tableLength mem madt
  | o, r :: rs => r = inTable madt o ∧ 2 ≤ (recordLength mem r).toNat ∧
    Fills mem madt (nextRecord mem madt o) rs

/-- The last override of an interrupt line among the records, or the line itself. -/
def lastGsi (mem : Bytes) (rs : List Addr) (irq : BitVec 8) : Nat :=
  let overrides := (rs.filter (recordType mem · = recordTypeIso)).map (overrideAt mem)
  ((overrides.filter (·.irqSource = irq)).getLast?.map (·.gsi.toNat)).getD irq.toNat

/-- The controllers among the records. -/
def controllers (mem : Bytes) (rs : List Addr) : List Controller :=
  (rs.filter (recordType mem · = recordTypeIoapic)).map (controllerAt mem)

/-- The controllers of the table are registered in order, `gsi_map` holds its overrides, and the
loops look at the records of the table alone. -/
structure Traversed (mem : Bytes) (madt : Addr) (rs : List Addr) (io io' : IoApic) : Prop where
  registered : io'.registered = io.registered ++ controllers mem rs
  mapped : ∀ irq : BitVec 8, irq.toNat < 24 → (io'.gsiMap irq).toNat = lastGsi mem rs irq
  inside : ∀ l fuel, visited mem madt fuel = some l → ∀ r ∈ l, r ∈ rs
  within : ∀ l fuel, visited mem madt fuel = some l → ∀ r ∈ l,
    recordType mem r = recordTypeIso → (overrideAt mem r).irqSource.toNat < 24

section
variable {mem : Bytes} {madt r : Addr} {o fuel : Nat} {l rs : List Addr} {σ : Type}
  {body : σ → Addr → σ} {s : σ} {io : IoApic} {lapic : LocalApic}

/-! ### The loop -/

/-- The length is a word of 32 bits. -/
theorem tableLength_lt : tableLength mem madt < 2 ^ 32 := BitVec.isLt _

/-- So records begin not far behind the table. -/
theorem RecordAt.small (h : RecordAt mem madt o) : o < 2 ^ 33 := by
  have length : tableLength mem madt < 2 ^ 32 := tableLength_lt
  cases h with
  | first => decide
  | @next o here lt =>
    have byte := (recordLength mem (inTable madt o)).isLt
    unfold nextRecord
    omega

/-- The first record. -/
theorem inTable_first : madt + madtHeaderSize = inTable madt 44 := rfl

/-- The next one. -/
theorem inTable_next : inTable madt o + (recordLength mem (inTable madt o)).setWidth 64 =
    inTable madt (nextRecord mem madt o) := by
  rw [inTable, inTable, nextRecord, BitVec.add_assoc, BitVec.ofNat_add]
  congr 2
  apply BitVec.eq_of_toNat_eq
  rw [BitVec.toNat_setWidth, BitVec.toNat_ofNat]
  rfl

/-- Different places are different addresses. -/
theorem inTable_inj {o' : Nat} (small : o < 2 ^ 33) (small' : o' < 2 ^ 33)
    (same : inTable madt o = inTable madt o') : o = o' := by
  have value := congrArg BitVec.toNat ((BitVec.add_right_inj _).mp same)
  rw [BitVec.toNat_ofNat, BitVec.toNat_ofNat] at value
  omega

/-- The test at the beginning of a round. -/
theorem at_end_iff (small : o < 2 ^ 33) :
    inTable madt o - madt ≥ (madtLength mem madt).setWidth 64 ↔ tableLength mem madt ≤ o := by
  have back : inTable madt o - madt = BitVec.ofNat 64 o := by
    rw [inTable, BitVec.add_comm, BitVec.add_sub_cancel]
  have length : tableLength mem madt < 2 ^ 32 := tableLength_lt
  unfold tableLength at length ⊢
  rw [back, ge_iff_le, BitVec.le_def, BitVec.toNat_setWidth, BitVec.toNat_ofNat]
  omega

/-- One round. -/
theorem recordLoop_succ (h : RecordAt mem madt o) :
    recordLoop mem madt body (fuel + 1) (inTable madt o) s =
      if tableLength mem madt ≤ o then some s
      else recordLoop mem madt body fuel (inTable madt (nextRecord mem madt o))
        (body s (inTable madt (nextRecord mem madt o))) := by
  rw [recordLoop, inTable_next]
  exact if_congr (at_end_iff h.small) rfl rfl

/-- With a walk the loop is a fold. -/
theorem recordLoop_walk (walk : Walk mem madt o l) (h : RecordAt mem madt o)
    (lt : l.length < fuel) :
    recordLoop mem madt body fuel (inTable madt o) s = some (l.foldl body s) := by
  induction walk generalizing fuel s with
  | stop le =>
    obtain ⟨n, rfl⟩ : ∃ n, fuel = n + 1 := ⟨fuel - 1, by omega⟩
    rw [recordLoop_succ h, if_pos le]
    rfl
  | step less rest ih =>
    rw [List.length_cons] at lt
    obtain ⟨n, rfl⟩ : ∃ n, fuel = n + 1 := ⟨fuel - 1, by omega⟩
    rw [recordLoop_succ h, if_neg (by omega), ih (h.next less) (by omega)]
    rfl

/-- Where no record has length zero there is a walk. -/
theorem exists_walk
    (moves : ∀ o, RecordAt mem madt o → o < tableLength mem madt →
      recordLength mem (inTable madt o) ≠ 0) (h : RecordAt mem madt o) :
    ∃ l, Walk mem madt o l ∧ l.length ≤ tableLength mem madt - o := by
  generalize room : tableLength mem madt - o = n
  induction n using Nat.strongRecOn generalizing o with
  | ind n ih =>
    by_cases inside : o < tableLength mem madt
    · have pos : 0 < (recordLength mem (inTable madt o)).toNat := by
        apply Nat.pos_of_ne_zero
        intro zero
        exact moves o h inside (BitVec.eq_of_toNat_eq zero)
      have further : o < nextRecord mem madt o := by
        unfold nextRecord
        omega
      obtain ⟨l, walk, le⟩ := ih _ (by omega) (h.next inside) rfl
      refine ⟨_, .step inside walk, ?_⟩
      rw [List.length_cons]
      omega
    · refine ⟨[], .stop (Nat.le_of_not_lt inside), ?_⟩
      exact Nat.zero_le _

/-- From a record of length zero the loop does not get away. -/
theorem recordLoop_stuck (h : RecordAt mem madt o) (lt : o < tableLength mem madt)
    (zero : recordLength mem (inTable madt o) = 0) :
    recordLoop mem madt body fuel (inTable madt o) s = none := by
  induction fuel generalizing s with
  | zero => rfl
  | succ fuel ih =>
    have still : nextRecord mem madt o = o := by
      rw [nextRecord, zero]
      rfl
    rw [recordLoop_succ h, if_neg (by omega), still, ih]

/-- A loop that comes to such a record never ends. -/
theorem recordLoop_reaches (h : RecordAt mem madt o)
    (never : ∀ fuel s, recordLoop mem madt body fuel (inTable madt o) s = none) :
    recordLoop mem madt body fuel (madt + madtHeaderSize) s = none := by
  induction h generalizing fuel s with
  | first => exact never fuel s
  | @next o here lt ih =>
    apply ih
    intro fuel s
    cases fuel with
    | zero => rfl
    | succ fuel =>
      rw [recordLoop_succ here, if_neg (by omega)]
      exact never _ _

/-- A loop over the records ends in as many rounds as the table has bytes, and one more, exactly
if it comes to no record of length zero. -/
theorem recordLoop_isSome_iff :
    (recordLoop mem madt body (tableLength mem madt + 1) (madt + madtHeaderSize) s).isSome ↔
      ∀ o, RecordAt mem madt o → o < tableLength mem madt →
        recordLength mem (inTable madt o) ≠ 0 := by
  constructor
  · intro some o here lt zero
    rw [recordLoop_reaches here fun _ _ => recordLoop_stuck here lt zero] at some
    cases some
  · intro moves
    obtain ⟨l, walk, le⟩ := exists_walk moves .first
    rw [inTable_first, recordLoop_walk walk .first (by omega)]
    rfl

/-- All loops over the records end in time exactly if they come to no record of length zero. -/
theorem madt_loops_end_iff :
    (configureLocalApic mem madt (tableLength mem madt + 1) lapic).isSome ∧
        (configureIoApic mem madt (tableLength mem madt + 1) io).isSome ↔
      ∀ o, RecordAt mem madt o → o < tableLength mem madt →
        recordLength mem (inTable madt o) ≠ 0 := by
  constructor
  · intro ⟨first, _⟩
    exact recordLoop_isSome_iff.mp first
  · intro moves
    refine ⟨recordLoop_isSome_iff.mpr moves, ?_⟩
    have first : (recordLoop mem madt (ioapicRecord mem) (tableLength mem madt + 1)
        (madt + madtHeaderSize) io).isSome := recordLoop_isSome_iff.mpr moves
    obtain ⟨io', run⟩ := Option.isSome_iff_exists.mp first
    rw [configureIoApic, run, Option.bind_eq_bind, Option.bind_some]
    exact recordLoop_isSome_iff.mpr moves

/-! ### The records of a table -/

/-- Records end with the table. -/
theorem Fills.le (h : Fills mem madt o rs) : o ≤ tableLength mem madt := by
  induction rs generalizing o with
  | nil => exact Nat.le_of_eq h
  | cons r rs ih =>
    obtain ⟨-, -, rest⟩ := h
    have le := ih rest
    unfold nextRecord at le
    omega

/-- And begin before its end. -/
theorem Fills.lt (h : Fills mem madt o (r :: rs)) : o < tableLength mem madt := by
  obtain ⟨rfl, two, rest⟩ := h
  have le := rest.le
  unfold nextRecord at le
  omega

/-- The records lie in the table. -/
theorem Fills.mem_lt (h : Fills mem madt o rs) (mem' : r ∈ rs) :
    ∃ o' < tableLength mem madt, r = inTable madt o' := by
  induction rs generalizing o with
  | nil => cases mem'
  | cons d rs ih =>
    have lt := h.lt
    obtain ⟨rfl, -, rest⟩ := h
    cases mem' with
    | head => exact ⟨o, lt, rfl⟩
    | tail _ later => exact ih rest later

/-- The loop looks at all records but the first, and at the end of the table. -/
theorem Fills.walk (h : Fills mem madt o (r :: rs)) :
    Walk mem madt o (rs ++ [inTable madt (tableLength mem madt)]) := by
  induction rs generalizing o r with
  | nil =>
    have lt := h.lt
    obtain ⟨rfl, -, last⟩ := h
    have fin : nextRecord mem madt o = tableLength mem madt := last
    rw [List.nil_append, ← fin]
    exact .step lt (.stop (Nat.le_of_eq fin.symm))
  | cons d rs ih =>
    have lt := h.lt
    obtain ⟨rfl, -, rest⟩ := h
    have walk := ih rest
    obtain ⟨rfl, -⟩ := rest
    exact .step lt walk

/-- There are not more records than bytes. -/
theorem Fills.length_le (h : Fills mem madt o rs) : rs.length ≤ tableLength mem madt - o := by
  induction rs generalizing o with
  | nil => exact Nat.zero_le _
  | cons r rs ih =>
    have lt := h.lt
    obtain ⟨rfl, two, rest⟩ := h
    have le := ih rest
    have fin := rest.le
    rw [List.length_cons]
    unfold nextRecord at le fin
    omega

/-- So the rounds are enough. -/
theorem Fills.few (h : Fills mem madt 44 (r :: rs)) :
    (rs ++ [inTable madt (tableLength mem madt)]).length < tableLength mem madt + 1 := by
  have le := h.length_le
  rw [List.length_cons] at le
  rw [List.length_append, List.length_singleton]
  omega

/-- A loop that does nothing else finds them. -/
theorem visited_walk (walk : Walk mem madt 44 l) (lt : l.length < fuel) :
    visited mem madt fuel = some l := by
  have all (l acc : List Addr) : l.foldl (fun l record => l ++ [record]) acc = acc ++ l := by
    induction l generalizing acc with
    | nil => simp
    | cons r l ih => rw [List.foldl_cons, ih, List.append_assoc, List.singleton_append]
  rw [visited, inTable_first, recordLoop_walk walk .first lt, all, List.nil_append]

/-- The controllers are registered in order. -/
theorem foldl_ioapic : (l.foldl (ioapicRecord mem) io).registered =
    io.registered ++ controllers mem l := by
  induction l generalizing io with
  | nil => simp [controllers]
  | cons r l ih =>
    rw [List.foldl_cons, ih, ioapicRecord, controllers, controllers]
    by_cases type : recordType mem r = recordTypeIoapic
    · simp [type]
    · simp [type]

/-- Overrides register nothing. -/
theorem foldl_iso_registered : (l.foldl (isoRecord mem) io).registered = io.registered := by
  induction l generalizing io with
  | nil => rfl
  | cons r l ih =>
    rw [List.foldl_cons, ih, isoRecord]
    split
    · rfl
    · rfl

/-- After `initialize_gsi_map` each line has its own number. -/
theorem initializeGsiMap_gsi {irq : BitVec 8} (lt : irq.toNat < 24) :
    (initializeGsiMap io).gsiMap irq = irq := by
  have all (n : Nat) (le : n ≤ 24) (map : BitVec 8 → BitVec 8) (less : irq.toNat < n) :
      (List.range n).foldl (fun map i => Function.update map (BitVec.ofNat 8 i) (BitVec.ofNat 8 i))
        map irq = irq := by
    induction n with
    | zero => cases less
    | succ n ih =>
      rw [List.range_succ, List.foldl_append, List.foldl_cons, List.foldl_nil]
      by_cases here : irq = BitVec.ofNat 8 n
      · rw [here, Function.update_self]
      · rw [Function.update_of_ne here]
        apply ih (by omega)
        have ne : irq.toNat ≠ n := by
          intro same
          apply here
          apply BitVec.eq_of_toNat_eq
          rw [BitVec.toNat_ofNat]
          omega
        omega
  exact all 24 (Nat.le_refl 24) io.gsiMap lt

/-- What `configure_io_apic` makes of a table with records. -/
theorem configureIoApic_eq (fills : Fills mem madt 44 (r :: rs)) :
    configureIoApic mem madt (tableLength mem madt + 1) io =
      some ((rs ++ [inTable madt (tableLength mem madt)]).foldl (isoRecord mem)
        (initializeGsiMap ((rs ++ [inTable madt (tableLength mem madt)]).foldl (ioapicRecord mem)
          io))) := by
  have few := fills.few
  rw [configureIoApic, inTable_first, recordLoop_walk fills.walk .first few, Option.bind_eq_bind,
    Option.bind_some, recordLoop_walk fills.walk .first few]

/-- It registers the controllers behind the first record, and what the end of the table looks
like. -/
theorem configureIoApic_registered (fills : Fills mem madt 44 (r :: rs)) {io' : IoApic}
    (run : configureIoApic mem madt (tableLength mem madt + 1) io = some io') :
    io'.registered = io.registered ++
      controllers mem (rs ++ [inTable madt (tableLength mem madt)]) := by
  rw [configureIoApic_eq fills] at run
  obtain rfl := Option.some.inj run
  rw [foldl_iso_registered, ← foldl_ioapic]
  rfl

/-- The loops end on every table that its records fill, and register the controllers behind the
first record, and what the bytes behind the table look like. So a table is traversed as it
should exactly if it has no records. -/
theorem madt_traversed_iff (fills : Fills mem madt 44 rs) :
    ∃ io', configureIoApic mem madt (tableLength mem madt + 1) io = some io' ∧
      (Traversed mem madt rs io io' ↔ rs = []) := by
  cases rs with
  | nil =>
    have length : 44 = tableLength mem madt := fills
    have walk : Walk mem madt 44 [] := .stop (Nat.le_of_eq length.symm)
    have none {l : List Addr} {fuel : Nat} (looked : visited mem madt fuel = some l) : l = [] := by
      cases fuel with
      | zero => cases looked
      | succ fuel =>
        rw [visited, inTable_first, recordLoop_walk walk .first (Nat.succ_pos _)] at looked
        exact (Option.some.inj looked).symm
    refine ⟨initializeGsiMap io, ?_, iff_of_true ⟨?_, fun irq lt => ?_, ?_, ?_⟩ rfl⟩
    · rw [configureIoApic, inTable_first, recordLoop_walk walk .first (Nat.succ_pos _),
        Option.bind_eq_bind, Option.bind_some, recordLoop_walk walk .first (Nat.succ_pos _)]
      rfl
    · exact (List.append_nil _).symm
    · rw [initializeGsiMap_gsi lt]
      rfl
    · intro l fuel looked r mem'
      rw [none looked] at mem'
      cases mem'
    · intro l fuel looked r mem'
      rw [none looked] at mem'
      cases mem'
  | cons r rs =>
    refine ⟨_, configureIoApic_eq fills, iff_of_false (fun traversed => ?_) (List.cons_ne_nil r rs)⟩
    -- the end of the table is taken for a record
    obtain ⟨o, lt, same⟩ := fills.mem_lt (traversed.inside _ _ (visited_walk fills.walk fills.few)
      (inTable madt (tableLength mem madt)) (List.mem_append_right _ (List.mem_singleton_self _)))
    have length : tableLength mem madt < 2 ^ 32 := tableLength_lt
    have eq := inTable_inj (by omega) (by omega) same
    omega

end

/-! ### Tables -/

/-- A table of 44 bytes, without records. -/
def emptyMadt : Bytes := fun a => if a = 4 then 44 else 0

/-- A table of one I/O APIC. -/
def oneMadt : Bytes := fun a => if a = 4 then 56 else if a = 44 then 1 else if a = 45 then 12 else 0

/-- A table with a record of length zero. -/
def zeroMadt : Bytes := fun a => if a = 4 then 46 else 0

/-- An I/O APIC that nothing is known of. -/
def bareIoApic : IoApic := ⟨[], fun _ => 0, fun _ => 0⟩

/-- A table without records is traversed. -/
theorem madt_traversed_empty : ∃ io', configureIoApic emptyMadt 0 45 bareIoApic = some io' ∧
    Traversed emptyMadt 0 [] bareIoApic io' := by
  have fills : Fills emptyMadt 0 44 [] := show 44 = tableLength emptyMadt 0 from by decide
  obtain ⟨io', run, traversed⟩ := @madt_traversed_iff emptyMadt 0 [] bareIoApic fills
  rw [show tableLength emptyMadt 0 = 44 from fills.symm] at run
  exact ⟨io', run, traversed.mpr rfl⟩

/-- The first I/O APIC is not registered. -/
theorem madt_not_always_traversed : ¬ ∀ (mem : Bytes) (madt : Addr) (rs : List Addr)
    (io io' : IoApic), Fills mem madt 44 rs →
    configureIoApic mem madt (tableLength mem madt + 1) io = some io' →
    Traversed mem madt rs io io' := by
  intro all
  have fills : Fills oneMadt 0 44 [44] := ⟨rfl, by decide, show nextRecord oneMadt 0 44 =
    tableLength oneMadt 0 from by decide⟩
  have run := @configureIoApic_eq _ _ _ _ bareIoApic fills
  have none := configureIoApic_registered fills run
  have one := (all _ _ _ _ _ fills run).registered
  rw [none] at one
  exact absurd one (by decide)

/-- A record of length zero keeps the loops from ending. -/
theorem madt_loops_not_always_end : ¬ ∀ (mem : Bytes) (madt : Addr) (lapic : LocalApic)
    (io : IoApic), (configureLocalApic mem madt (tableLength mem madt + 1) lapic).isSome ∧
      (configureIoApic mem madt (tableLength mem madt + 1) io).isSome := by
  intro all
  obtain ⟨ends, -⟩ := all zeroMadt 0 ⟨0, 0, fun _ => 0⟩ bareIoApic
  exact recordLoop_isSome_iff.mp ends 44 .first (by decide) rfl

end Skylight.Apic
