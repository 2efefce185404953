import Skylight.Laws.Proc.Segments

/-!
# A walk over a file that stands apart

What `elf_load_program` turns away, which headers it examines, and which records it makes of them,
when nothing it writes comes to the file or the records. The records that a list of program headers
comes to are defined here, and the loader in the one memory is compared with them.

The walk is by distance from the table, so it examines the headers that are counted just when
the product of their number and size is not negative as an `int` (`count_iff`). Here the file is
a constant: that it is one is what `Laws.Proc.Beside` asks for.
-/

namespace Skylight.Elf

open Bytes

/-- The first four bytes and the four fields of a file that is to be accepted. -/
structure IsElf (header : ElfHeader) : Prop where
  magic : ∀ i < 4, header.magic i = elfHeaderMagic i
  bitness : header.bitness = elfBitness64
  endianness : header.endianness = elfEndiannessLittle
  abi : header.abi = elfAbiSystemv
  architecture : header.architecture = elfArchX8664

instance (header : ElfProgramHeader) (x : Nat) : Decidable (header.IsStop x) :=
  inferInstanceAs (Decidable (_ ∧ _))

instance (info : List Paging.ElfLoadedPage) (header : ElfProgramHeader) (x : Nat) :
    Decidable (Leaves info header x) := inferInstanceAs (Decidable (_ ∨ _))

/-- Where the part of a segment begins that gets a record of its own, by the bytes before it. -/
def ElfProgramHeader.landing (info : List Paging.ElfLoadedPage) (header : ElfProgramHeader) :
    Option Nat :=
  if header.type = elfSegmentLoad ∧ header.pMemsz ≠ 0 then
    ((List.range (header.pFilesz.toNat + 1)).find? fun x =>
      header.IsStop x ∧ Leaves info header x).filter (· ≠ header.pMemsz.toNat)
  else none

/-- The records that program headers come to, one for each that reaches an address that the
records before it do not cover. -/
def recordsOf (place : Place) : List Paging.ElfLoadedPage → List ElfProgramHeader →
    List Paging.ElfLoadedPage
  | info, [] => info
  | info, header :: headers =>
    match header.landing info with
    | some x => recordsOf place (info ++ [record place info.length header x]) headers
    | none => recordsOf place info headers

section
variable {file bytes : Memory} {place : Place} {fuel rounds k n i : Nat} {l r : Loader}
  {header : ElfHeader} {size a pheader : Addr} {s t : Nat → BitVec 8}

/-! ### The comparison -/

/-- `strncmp` answers zero exactly for strings that are the same so far. -/
theorem strncmp_eq_zero : ∀ {n i : Nat}, strncmp s t i n = 0 ↔ ∀ j < n, s (i + j) = t (i + j) := by
  intro n
  induction n with
  | zero =>
    intro i
    simp [strncmp]
  | succ n ih =>
    intro i
    rw [strncmp]
    split
    next ne =>
      constructor
      · intro zero
        exact absurd (BitVec.eq_of_toInt_eq (Int.sub_eq_zero.mp zero)) ne
      · intro same
        exact absurd (same 0 (Nat.succ_pos n)) ne
    next eq =>
      rw [ih]
      constructor
      · intro same j lt
        cases j with
        | zero => exact not_not.mp eq
        | succ j =>
          have := same j (Nat.lt_of_succ_lt_succ lt)
          rwa [Nat.add_right_comm, Nat.add_assoc] at this
      · intro same j lt
        have := same (j + 1) (Nat.succ_lt_succ lt)
        rwa [Nat.add_right_comm, Nat.add_assoc]

/-! ### The walk -/

/-- The `i`-th program header. -/
def headerAt (header : ElfHeader) (i : Nat) : Addr :=
  header.headerTable + BitVec.ofNat 64 (i * header.programTableEntrySize.toNat)

/-- The program headers from the `i`-th on. -/
def headersFrom (file : Memory) (i n : Nat) : List ElfProgramHeader :=
  (List.range n).map fun j => elfProgramHeader file (headerAt (elfHeader file) (i + j))

/-- One header, and those behind it. -/
theorem headersFrom_succ : headersFrom file i (n + 1) =
    elfProgramHeader file (headerAt (elfHeader file) i) :: headersFrom file (i + 1) n := by
  simp only [headersFrom, List.range_succ_eq_map, List.map_cons, List.map_map, Nat.add_zero,
    List.cons.injEq, true_and]
  apply List.map_congr_left
  intro j _
  rw [Function.comp_apply, Nat.add_succ, Nat.succ_add]

/-- How far a header is from the table, which may go round. -/
theorem headerAt_sub : (headerAt header i - header.headerTable).toNat
    = i * header.programTableEntrySize.toNat % 2 ^ 64 := by
  rw [headerAt, add_sub_self, BitVec.toNat_ofNat]

/-- The next header. -/
theorem headerAt_succ : headerAt header i + header.programTableEntrySize.setWidth 64
    = headerAt header (i + 1) := by
  have entry : header.programTableEntrySize.setWidth 64
      = BitVec.ofNat 64 header.programTableEntrySize.toNat := by
    apply BitVec.eq_of_toNat_eq
    rw [BitVec.toNat_setWidth, BitVec.toNat_ofNat]
  rw [headerAt, headerAt, entry, BitVec.add_assoc, ← BitVec.ofNat_add, Nat.succ_mul]

/-- The landing is the stop that the loop leaves at, unless nothing is left there. -/
theorem landing_of_leavesAt {info : List Paging.ElfLoadedPage} {ph : ElfProgramHeader} {x : Nat}
    (load : ph.type = elfSegmentLoad) (nonempty : ph.pMemsz ≠ 0) (at_ : LeavesAt info ph x) :
    ph.landing info = if x = ph.pMemsz.toNat then none else some x := by
  have found : (List.range (ph.pFilesz.toNat + 1)).find?
      (fun x => ph.IsStop x ∧ Leaves info ph x) = some x := by
    rw [List.find?_range_eq_some]
    refine ⟨by simp [at_.stop, at_.leaves], List.mem_range.mpr (Nat.lt_succ_of_le at_.stop.1), ?_⟩
    intro y lt
    by_cases stop : ph.IsStop y
    · simp [at_.first y lt stop]
    · simp [stop]
  rw [ElfProgramHeader.landing, if_pos ⟨load, nonempty⟩, found, Option.filter_some]
  split
  next ne => rw [if_neg (by simpa using ne)]
  next eq => rw [if_pos (by simpa using eq)]

/-- One header of the walk. -/
theorem stepHeader {ph : ElfProgramHeader} {loaded : Bool} {l' : Loader}
    (run : (if ph.type = elfSegmentLoad then elfLoadSegment file place fuel l ph
      else some (true, l)) = some (loaded, l')) :
    loaded = true ∧ l'.examined = l.examined ∧
      ∀ headers, recordsOf place l.segments (ph :: headers) =
        recordsOf place l'.segments headers := by
  split at run
  next load =>
    obtain ⟨rfl, ⟨empty, same⟩ | ⟨nonempty, x, at_, examined, segments⟩⟩ := elfLoadSegment_run run
    · subst same
      refine ⟨rfl, rfl, fun headers => ?_⟩
      have nowhere : ph.landing l'.segments = none := if_neg fun h => h.2 empty
      rw [recordsOf, nowhere]
    · refine ⟨rfl, examined, fun headers => ?_⟩
      rw [recordsOf, landing_of_leavesAt load nonempty at_, segments]
      by_cases all : x = ph.pMemsz.toNat
      · rw [if_pos all, if_pos all]
      · rw [if_neg all, if_neg all]
  next other =>
    rw [Option.some.injEq, Prod.mk.injEq] at run
    obtain ⟨rfl, rfl⟩ := run
    refine ⟨rfl, rfl, fun headers => ?_⟩
    have nowhere : ph.landing l.segments = none := if_neg fun h => other h.1
    rw [recordsOf, nowhere]

/-- A round of the walk. -/
theorem headerLoop_more (lt : pheader - (elfHeader file).headerTable < size) :
    headerLoop file place fuel size (rounds + 1) l pheader =
      (if (elfProgramHeader file pheader).type = elfSegmentLoad
        then elfLoadSegment file place fuel { l with examined := l.examined ++ [pheader] }
          (elfProgramHeader file pheader)
        else some (true, { l with examined := l.examined ++ [pheader] })).bind fun r =>
      if r.1 then headerLoop file place fuel size rounds r.2
        (pheader + (elfHeader file).programTableEntrySize.setWidth 64) else some none := by
  rw [headerLoop, if_neg (BitVec.not_le.mpr lt)]
  by_cases load : (elfProgramHeader file pheader).type = elfSegmentLoad
  · simp only [if_pos load]
    show Option.bind _ _ = _
    congr 1
    ext ⟨loaded, l'⟩ : 1
    cases loaded with
    | false => rfl
    | true => rfl
  · simp only [if_neg load]
    rfl

/-- The walk goes on while the distance from the table is below its size, and makes the records of
the headers it examines. -/
theorem headerLoop_run : ∀ {rounds i : Nat} {l : Loader},
    headerLoop file place fuel size rounds l (headerAt (elfHeader file) i) = some (some r) →
      ∃ m, (∀ j < m, (i + j) * (elfHeader file).programTableEntrySize.toNat % 2 ^ 64 < size.toNat) ∧
        size.toNat ≤ (i + m) * (elfHeader file).programTableEntrySize.toNat % 2 ^ 64 ∧
        r.examined = l.examined ++ (List.range m).map (fun j => headerAt (elfHeader file) (i + j)) ∧
        r.segments = recordsOf place l.segments (headersFrom file i m) := by
  intro rounds
  -- Induction on the rounds; `i` is the header that the walk stands at.
  induction rounds with
  | zero =>
    intro i l run
    simp [headerLoop] at run
  | succ rounds ih =>
    intro i l run
    by_cases lt : headerAt (elfHeader file) i - (elfHeader file).headerTable < size
    swap
    · rw [headerLoop, if_pos (BitVec.not_lt.mp lt), Option.some.injEq, Option.some.injEq] at run
      subst run
      rw [BitVec.not_lt, BitVec.le_def, headerAt_sub] at lt
      exact ⟨0, by simp, lt, by simp, rfl⟩
    · rw [headerLoop_more lt, Option.bind_eq_some_iff] at run
      obtain ⟨⟨loaded, l'⟩, step, rest⟩ := run
      obtain ⟨rfl, examined, records⟩ := stepHeader step
      rw [if_pos rfl, headerAt_succ] at rest
      obtain ⟨m, below, end_, seen, made⟩ := ih rest
      rw [BitVec.lt_def, headerAt_sub] at lt
      refine ⟨m + 1, fun j before => ?_, ?_, ?_, ?_⟩
      · cases j with
        | zero => exact lt
        | succ j =>
          rw [Nat.add_succ, ← Nat.succ_add]
          exact below j (Nat.lt_of_succ_lt_succ before)
      · rw [Nat.add_succ, ← Nat.succ_add]
        exact end_
      · rw [seen, examined, List.range_succ_eq_map, List.map_cons, List.map_map]
        simp [Function.comp_def, Nat.add_assoc, Nat.add_comm 1]
      · rw [made, headersFrom_succ]
        exact (records _).symm

/-! ### How many headers -/

/-- The size of the table is a word of 32 bits. -/
theorem product_lt {a b : Nat} (ha : a < 2 ^ 16) (hb : b < 2 ^ 16) : a * b < 2 ^ 32 := by
  have both : a * b < 2 ^ 16 * 2 ^ 16 := Nat.mul_lt_mul'' ha hb
  omega

/-- The size of the table, once around when the product is negative as an `int`. -/
theorem headerTableSize_toNat (header : ElfHeader) : (headerTableSize header).toNat =
    header.programTableEntrySize.toNat * header.programTableEntries.toNat +
      if 2 ^ 31 ≤ header.programTableEntrySize.toNat * header.programTableEntries.toNat
      then 2 ^ 64 - 2 ^ 32 else 0 := by
  have small : header.programTableEntrySize.toNat * header.programTableEntries.toNat < 2 ^ 32 :=
    product_lt header.programTableEntrySize.isLt header.programTableEntries.isLt
  have product : (header.programTableEntrySize.setWidth 32
      * header.programTableEntries.setWidth 32).toNat
        = header.programTableEntrySize.toNat * header.programTableEntries.toNat := by
    have one := header.programTableEntrySize.isLt
    have two := header.programTableEntries.isLt
    rw [BitVec.toNat_mul, BitVec.toNat_setWidth, BitVec.toNat_setWidth,
      Nat.mod_eq_of_lt (by omega : header.programTableEntrySize.toNat < 2 ^ 32),
      Nat.mod_eq_of_lt (by omega : header.programTableEntries.toNat < 2 ^ 32),
      Nat.mod_eq_of_lt small]
  rw [headerTableSize, BitVec.toNat_signExtend, BitVec.toNat_setWidth, product,
    BitVec.msb_eq_decide, product, Nat.mod_eq_of_lt (Nat.lt_trans small (by decide))]
  simp

/-- The walk takes the entries the header counts exactly when their size is not negative as an
`int` and, if there are any, not zero. -/
theorem count_iff {m e n : Nat} (he : e < 2 ^ 16) (hn : n < 2 ^ 16)
    (below : ∀ j < m, j * e % 2 ^ 64 < e * n + if 2 ^ 31 ≤ e * n then 2 ^ 64 - 2 ^ 32 else 0)
    (end_ : (e * n + if 2 ^ 31 ≤ e * n then 2 ^ 64 - 2 ^ 32 else 0) ≤ m * e % 2 ^ 64) :
    m = n ↔ e * n < 2 ^ 31 ∧ (n = 0 ∨ e ≠ 0) := by
  have small : e * n < 2 ^ 32 := product_lt he hn
  have exact_ : n * e % 2 ^ 64 = e * n := by
    rw [Nat.mul_comm, Nat.mod_eq_of_lt (Nat.lt_trans small (by decide))]
  constructor
  · rintro rfl
    rw [exact_] at end_
    have nonneg : e * m < 2 ^ 31 := by
      by_contra neg
      rw [if_pos (Nat.le_of_not_lt neg)] at end_
      omega
    refine ⟨nonneg, ?_⟩
    by_contra both
    rw [not_or, not_not] at both
    have first := below 0 (Nat.pos_of_ne_zero both.1)
    rw [both.2, Nat.zero_mul] at first
    simp at first
  · intro ⟨nonneg, some_⟩
    rw [if_neg (Nat.not_le_of_lt nonneg), Nat.add_zero] at below end_
    rcases Nat.lt_trichotomy m n with lt | eq | gt
    · have pos : 0 < e := Nat.pos_of_ne_zero (some_.resolve_left (by omega))
      have less : m * e < e * n := by
        rw [Nat.mul_comm]
        exact Nat.mul_lt_mul_of_pos_left lt pos
      rw [Nat.mod_eq_of_lt (less.trans (Nat.lt_trans small (by decide)))] at end_
      omega
    · exact eq
    · have := below n gt
      rw [exact_] at this
      exact absurd this (Nat.lt_irrefl _)

/-! ### The whole file -/

/-- What a file that is accepted has passed. -/
theorem elfLoadProgram_accepts (accepted : elfLoadProgram file place fuel bytes = some (some r)) :
    strncmp (elfHeader file).magic elfHeaderMagic 0 4 ≤ 0 ∧
      (elfHeader file).architecture = elfArchX8664 ∧
      (elfHeader file).endianness = elfEndiannessLittle ∧
      (elfHeader file).bitness = elfBitness64 ∧ (elfHeader file).abi = elfAbiSystemv ∧
      ∃ l : Loader, l.segments = [] ∧ l.examined = [] ∧
        headerLoop file place fuel (headerTableSize (elfHeader file)) fuel l
          (elfHeader file).headerTable = some (some r) := by
  unfold elfLoadProgram at accepted
  simp only at accepted
  split at accepted
  next => simp at accepted
  next magic =>
    split at accepted
    next => simp at accepted
    next architecture =>
      split at accepted
      next => simp at accepted
      next both =>
        split at accepted
        next => simp at accepted
        next abi =>
          rw [not_or] at both
          exact ⟨Int.not_lt.mp magic, not_not.mp architecture, not_not.mp both.1,
            not_not.mp both.2, not_not.mp abi, _, rfl, rfl, accepted⟩

/-- The headers a run has examined, and the records it has made of them. -/
theorem elfLoadProgram_walk (accepted : elfLoadProgram file place fuel bytes = some (some r)) :
    ∃ m, (m = (elfHeader file).programTableEntries.toNat ↔
        (elfHeader file).programTableEntrySize.toNat * (elfHeader file).programTableEntries.toNat
          < 2 ^ 31 ∧ ((elfHeader file).programTableEntries.toNat = 0 ∨
            (elfHeader file).programTableEntrySize.toNat ≠ 0)) ∧
      r.examined = (List.range m).map (headerAt (elfHeader file)) ∧
      r.segments = recordsOf place [] (headersFrom file 0 m) := by
  obtain ⟨-, -, -, -, -, l, none_, unseen, run⟩ := elfLoadProgram_accepts accepted
  have start : headerAt (elfHeader file) 0 = (elfHeader file).headerTable := by
    rw [headerAt, Nat.zero_mul]
    exact BitVec.add_zero _
  rw [← start] at run
  obtain ⟨m, below, end_, seen, made⟩ := headerLoop_run run
  rw [headerTableSize_toNat] at below end_
  simp only [Nat.zero_add] at below end_ seen
  refine ⟨m, count_iff (elfHeader file).programTableEntrySize.isLt
    (elfHeader file).programTableEntries.isLt below end_, ?_, ?_⟩
  · rw [seen, unseen, List.nil_append]
  · rw [made, none_]

end

end Skylight.Elf
