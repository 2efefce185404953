import Skylight.Laws.Proc.Elf
import Skylight.Laws.Proc.Loading

/-!
# Walking the headers of a file in memory

Which files `elf_load_program` accepts, which program headers it examines and how many records it
makes, when the file, the `elf_load_info_t` and the records lie in the memory that it writes. The
comparison of the magic turns only larger strings away, and the size of the table is a product that
is widened with its sign.

All of it is about files that the loader does not write over while it still has to read them: the
walk keeps that the start of the table, the size of an entry and the program headers to come are
as they were, and that memory holds the records made so far. What a file comes to that is
overwritten is not said; it may be that the bytes which arrive are those that were there.
-/

namespace Skylight.ElfMemory

open Bytes Elf

/-- The bytes of a program header that the loader reads. -/
def HeaderField (pheader a : Addr) : Prop :=
  InRange pheader 4 a ∨ InRange (pheader + 8) 16 a ∨ InRange (pheader + 32) 16 a

/-- The bytes that the walk has still to read of the file: the start of the table, the size of an
entry, and the program headers `later`. -/
def Pending (file : Addr) (later : List Addr) (a : Addr) : Prop :=
  InRange (file + 32) 8 a ∨ InRange (file + 54) 2 a ∨ ∃ pheader ∈ later, HeaderField pheader a

/-- `n` program headers from the `i`-th on, each with its address. -/
def entriesFrom (m : Memory) (file : Addr) (i n : Nat) : List (Addr × ElfProgramHeader) :=
  (List.range n).map fun j =>
    (file + headerAt (elfHeader (image m file)) (i + j),
      elfProgramHeader m (file + headerAt (elfHeader (image m file)) (i + j)))

/-- With the records `l` so far, no segment of the program headers is written over the count and
the records before it, and neither a segment nor its record over what is to be kept while the
program headers behind it are still to come. -/
def Undisturbed (place : Place) (kept : List Addr → Addr → Prop) :
    List Paging.ElfLoadedPage → List (Addr × ElfProgramHeader) → Prop
  | _, [] => True
  | l, (_, header) :: later =>
    (header.type = elfSegmentLoad → header.pMemsz ≠ 0 → Spares place l.length l header ∧
      ∀ a, Copies l header a ∨ Fills place l.length l header a ∨ Own place (l.length + 1) a →
        ¬ kept (later.map Prod.fst) a) ∧
    Undisturbed place kept (recordsOf place l [header]) later

/-- The loader writes what it keeps and what it loads beside the headers of the file. -/
structure Apart (place : Place) (file : Addr) (m : Memory) : Prop where
  info : ∀ a, InRange place.info 24 a → ¬ Pending file ((entriesFrom m file 0
    (elfHeader (image m file)).programTableEntries.toNat).map Prod.fst) a
  walk : Undisturbed place (Pending file) [] (entriesFrom m file 0
    (elfHeader (image m file)).programTableEntries.toNat)

/-- On the walk: memory holds the records `l`, and the file is as it was as far as it has still to
be read. -/
structure Walking (place : Place) (file : Addr) (header : ElfHeader)
    (l : List Paging.ElfLoadedPage) (later : List (Addr × ElfProgramHeader)) (s : Kernel) :
    Prop where
  decodes : Decodes s.bytes place l
  pools : s.pools = l.length
  table : (elfHeader (image s.bytes file)).headerTable = header.headerTable
  entrySize : (elfHeader (image s.bytes file)).programTableEntrySize = header.programTableEntrySize
  headers : ∀ e ∈ later, elfProgramHeader s.bytes e.1 = e.2

section
variable {place : Place} {file pheader a : Addr} {fuel rounds n i : Nat} {size : Addr}
  {m m' : Memory} {s s' r : Kernel} {header : ElfHeader} {h : ElfProgramHeader}
  {l : List Paging.ElfLoadedPage} {later : List (Addr × ElfProgramHeader)} {loaded : Bool}

/-! ### Reading the file where it lies -/

/-- Bytes of the file are bytes of memory at its place. -/
theorem loadBytes_image : ∀ {n : Nat} {a : Addr},
    loadBytes (image m file) n a = loadBytes m n (file + a) := by
  intro n
  induction n with
  | zero =>
    intro a
    rfl
  | succ n ih =>
    intro a
    rw [loadBytes, loadBytes, ih, BitVec.add_assoc]
    rfl

/-- And so is a word. -/
theorem load_image : load (image m file) a = load m (file + a) := by
  rw [load, load, loadBytes_image]

/-- And so is a program header. -/
theorem elfProgramHeader_image :
    elfProgramHeader (image m file) a = elfProgramHeader m (file + a) := by
  simp only [elfProgramHeader, loadBytes_image, load_image, BitVec.add_assoc]

/-- A program header is read from its own bytes. -/
theorem elfProgramHeader_congr (same : ∀ a, HeaderField pheader a → m' a = m a) :
    elfProgramHeader m' pheader = elfProgramHeader m pheader := by
  have upper {a x : Addr} (near : InRange (a + 8) 8 x) : InRange a 16 x :=
    @InRange.within a x 8 16 8 near (by decide) (by decide)
  have lower {a x : Addr} (near : InRange a 8 x) : InRange a 16 x :=
    Nat.lt_of_lt_of_le near (by decide)
  have type : loadBytes m' 4 pheader = loadBytes m 4 pheader :=
    loadBytes_congr fun i lt => same _ (Or.inl (inRange_add lt))
  have pOffset : load m' (pheader + 8) = load m (pheader + 8) :=
    load_congr fun x near => same x (Or.inr (Or.inl (lower near)))
  have pVaddr : load m' (pheader + 8 + 8) = load m (pheader + 8 + 8) :=
    load_congr fun x near => same x (Or.inr (Or.inl (upper near)))
  have pFilesz : load m' (pheader + 32) = load m (pheader + 32) :=
    load_congr fun x near => same x (Or.inr (Or.inr (lower near)))
  have pMemsz : load m' (pheader + 32 + 8) = load m (pheader + 32 + 8) :=
    load_congr fun x near => same x (Or.inr (Or.inr (upper near)))
  rw [BitVec.add_assoc] at pVaddr pMemsz
  rw [elfProgramHeader, elfProgramHeader, type, pOffset, pFilesz]
  exact congrArg₂ (ElfProgramHeader.mk _ _ · _ ·) pVaddr pMemsz

/-- A range lies before the end of what it is in. -/
theorem lt_of_inRange {b a : Addr} {j n bound : Nat} (small : bound ≤ 2 ^ 64)
    (here : InRange (b + BitVec.ofNat 64 j) n a) (le : b.toNat + j + n ≤ bound) :
    a.toNat < bound := by
  rcases Nat.eq_zero_or_pos n with rfl | pos
  · exact absurd here (Nat.not_lt_zero _)
  have place : (b + BitVec.ofNat 64 j).toNat = b.toNat + j := by
    rw [BitVec.toNat_add, BitVec.toNat_ofNat]
    omega
  rw [inRange_iff (by omega), place] at here
  omega

/-- The fields lie before the end of the header. -/
theorem HeaderField.lt {pheader a : Addr} {bound : Nat} (small : bound ≤ 2 ^ 64)
    (le : pheader.toNat + 48 ≤ bound) (field : HeaderField pheader a) : a.toNat < bound := by
  rcases field with type | middle | last
  · rw [← add_ofNat_zero pheader] at type
    exact lt_of_inRange small type (by omega)
  · exact @lt_of_inRange pheader a 8 16 _ small middle (by omega)
  · exact @lt_of_inRange pheader a 32 16 _ small last (by omega)

/-- What is pending of a file and its headers lies before their ends. -/
theorem Pending.lt {file a : Addr} {later : List Addr} {bound : Nat} (small : bound ≤ 2 ^ 64)
    (ends : file.toNat + 56 ≤ bound) (all : ∀ pheader ∈ later, pheader.toNat + 48 ≤ bound)
    (pending : Pending file later a) : a.toNat < bound := by
  rcases pending with table | size | ⟨pheader, mem, field⟩
  · exact @lt_of_inRange file a 32 8 _ small table (by omega)
  · exact @lt_of_inRange file a 54 2 _ small size (by omega)
  · exact field.lt small (all pheader mem)

/-- What is pending is read as it was. -/
theorem pending_congr {later : List Addr} (same : ∀ a, Pending file later a → m' a = m a) :
    (elfHeader (image m' file)).headerTable = (elfHeader (image m file)).headerTable ∧
    (elfHeader (image m' file)).programTableEntrySize
      = (elfHeader (image m file)).programTableEntrySize ∧
    ∀ pheader ∈ later, elfProgramHeader m' pheader = elfProgramHeader m pheader := by
  refine ⟨?_, ?_, fun pheader mem => ?_⟩
  · show load _ _ = load _ _
    rw [load_image, load_image]
    exact load_congr fun x near => same x (Or.inl near)
  · show BitVec.ofNat 16 (loadBytes _ 2 _) = BitVec.ofNat 16 (loadBytes _ 2 _)
    rw [loadBytes_image, loadBytes_image,
      loadBytes_congr fun i lt => same _ (Or.inr (Or.inl (inRange_add lt)))]
  · exact elfProgramHeader_congr fun a field => same a (Or.inr (Or.inr ⟨pheader, mem, field⟩))

/-- The headers without their addresses. -/
theorem map_entriesFrom : (entriesFrom m file i n).map Prod.snd
    = headersFrom (image m file) i n := by
  simp only [entriesFrom, headersFrom, List.map_map, elfProgramHeader_image]
  rfl

theorem add_sub_add (a b c : Addr) : a + b - (a + c) = b - c := by
  apply BitVec.eq_of_toNat_eq
  simp only [BitVec.toNat_sub, BitVec.toNat_add]
  have := a.isLt
  have := b.isLt
  have := c.isLt
  omega

/-! ### One header -/

/-- One header, and the others. -/
theorem recordsOf_cons {headers : List ElfProgramHeader} :
    recordsOf place l (h :: headers) = recordsOf place (recordsOf place l [h]) headers := by
  cases landing : h.landing l with
  | none => simp only [recordsOf, landing]
  | some x => simp only [recordsOf, landing]

/-- There is one record at most for each header. -/
theorem length_recordsOf : ∀ {headers : List ElfProgramHeader} {l : List Paging.ElfLoadedPage},
    (recordsOf place l headers).length ≤ l.length + headers.length := by
  intro headers
  induction headers with
  | nil =>
    intro l
    exact le_rfl
  | cons h headers ih =>
    intro l
    rw [recordsOf]
    split
    · refine ih.trans ?_
      rw [List.length_append, List.length_singleton, List.length_cons]
      omega
    · exact ih.trans (Nat.le_succ _)

/-- A segment that is loaded has a record, or none when it is copied as a whole. -/
theorem recordsOf_single {x : Nat} (load : h.type = elfSegmentLoad) (nonempty : h.pMemsz ≠ 0)
    (leaves : LeavesAt l h x) : recordsOf place l [h] = after place l.length l h x := by
  rw [recordsOf, landing_of_leavesAt load nonempty leaves, after]
  by_cases all : x = h.pMemsz.toNat
  · rw [if_pos all, if_pos all]
    rfl
  · rw [if_neg all, if_neg all]
    rfl

/-- No other header has one. -/
theorem recordsOf_other (other : ¬ (h.type = elfSegmentLoad ∧ h.pMemsz ≠ 0)) :
    recordsOf place l [h] = l := by
  have nowhere : h.landing l = none := if_neg other
  rw [recordsOf, nowhere]
  rfl

/-- One header of the walk. -/
theorem Walking.step (walking : Walking place file header l ((pheader, h) :: later) s)
    (undisturbed : Undisturbed place (Pending file) l ((pheader, h) :: later))
    (step : (if (elfProgramHeader s.bytes pheader).type = elfSegmentLoad
      then elfLoadSegment place file fuel s pheader else some (true, s)) = some (loaded, s')) :
    loaded = true ∧ s'.examined = s.examined ∧
      Walking place file header (recordsOf place l [h]) later s' := by
  have read : elfProgramHeader s.bytes pheader = h := walking.headers _ (List.mem_cons_self ..)
  have rest : ∀ e ∈ later, elfProgramHeader s.bytes e.1 = e.2 := fun e mem =>
    walking.headers e (List.mem_cons_of_mem _ mem)
  rw [read] at step
  split at step
  next load =>
    have spares (nonempty : (elfProgramHeader s.bytes pheader).pMemsz ≠ 0) :
        Spares place s.pools l (elfProgramHeader s.bytes pheader) := by
      rw [read] at nonempty ⊢
      rw [walking.pools]
      exact (undisturbed.1 load nonempty).1
    obtain ⟨rfl, ⟨empty, rfl⟩ | ⟨nonempty, x, leaves, examined, pools, decodes, same⟩⟩ :=
      walking.decodes.loaded spares step
    · rw [read] at empty
      rw [recordsOf_other fun both => both.2 empty]
      exact ⟨rfl, rfl, { walking with headers := rest }⟩
    · rw [read] at nonempty leaves pools decodes same
      rw [walking.pools] at pools decodes same
      rw [recordsOf_single load nonempty leaves]
      have missed := (undisturbed.1 load nonempty).2
      obtain ⟨table, entrySize, headers⟩ := pending_congr fun a pending => same a
        (fun copies => missed a (Or.inl copies) pending)
        (fun fills => missed a (Or.inr (Or.inl fills)) pending)
        (fun own => missed a (Or.inr (Or.inr own)) pending)
      refine ⟨rfl, examined, decodes, by omega, table.trans walking.table,
        entrySize.trans walking.entrySize, fun e mem => ?_⟩
      rw [headers e.1 (List.mem_map_of_mem mem)]
      exact rest e mem
  next other =>
    rw [Option.some.injEq, Prod.mk.injEq] at step
    obtain ⟨rfl, rfl⟩ := step
    rw [recordsOf_other fun both => other both.1]
    exact ⟨rfl, rfl, { walking with headers := rest }⟩

/-! ### The walk -/

/-- A round of the walk. -/
theorem headerLoop_more
    (lt : pheader - (file + (elfHeader (image s.bytes file)).headerTable) < size) :
    headerLoop place file fuel size (rounds + 1) s pheader =
      (if (elfProgramHeader s.bytes pheader).type = elfSegmentLoad
        then elfLoadSegment place file fuel { s with examined := s.examined ++ [pheader] } pheader
        else some (true, { s with examined := s.examined ++ [pheader] })).bind fun r =>
      if r.1 then headerLoop place file fuel size rounds r.2
        (pheader + (elfHeader (image r.2.bytes file)).programTableEntrySize.setWidth 64)
      else some none := by
  rw [headerLoop, if_neg (BitVec.not_le.mpr lt)]
  by_cases load : (elfProgramHeader s.bytes pheader).type = elfSegmentLoad
  · simp only [if_pos load]
    show Option.bind _ _ = _
    congr 1
    ext ⟨loaded, s'⟩ : 1
    cases loaded with
    | false => rfl
    | true => rfl
  · simp only [if_neg load]
    rfl

/-- Loading a segment examines no header. -/
theorem elfLoadSegment_examined
    (run : elfLoadSegment place file fuel s pheader = some (loaded, s')) :
    s'.examined = s.examined := by
  by_cases empty : (elfProgramHeader s.bytes pheader).pMemsz = 0
  · rw [elfLoadSegment_empty empty, Option.some.injEq, Prod.mk.injEq] at run
    rw [← run.2]
  · rw [elfLoadSegment_eq empty, Option.map_eq_some_iff] at run
    obtain ⟨⟨m, _ | rest⟩, -, out⟩ := run
    · rw [← (Prod.mk.inj out).2]
      rfl
    · rw [← (Prod.mk.inj out).2]
      rfl

/-- The walk only adds to the headers it has examined, and adds the one it stands at. -/
theorem headerLoop_examined : ∀ {rounds : Nat} {s : Kernel} {pheader : Addr},
    headerLoop place file fuel size rounds s pheader = some (some r) →
      (size ≤ pheader - (file + (elfHeader (image s.bytes file)).headerTable) ∧ r = s) ∨
      (pheader - (file + (elfHeader (image s.bytes file)).headerTable) < size ∧
        ∃ w, r.examined = s.examined ++ pheader :: w) := by
  intro rounds
  -- A round examines the header it stands at; whatever it loads, the list only grows.
  induction rounds with
  | zero =>
    intro s pheader run
    simp [headerLoop] at run
  | succ rounds ih =>
    intro s pheader run
    by_cases lt : pheader - (file + (elfHeader (image s.bytes file)).headerTable) < size
    swap
    · rw [headerLoop, if_pos (BitVec.not_lt.mp lt), Option.some.injEq, Option.some.injEq] at run
      exact Or.inl ⟨BitVec.not_lt.mp lt, run.symm⟩
    · refine Or.inr ⟨lt, ?_⟩
      rw [headerLoop_more lt, Option.bind_eq_some_iff] at run
      obtain ⟨⟨loaded, s'⟩, step, rest⟩ := run
      have examined : s'.examined = s.examined ++ [pheader] := by
        split at step
        next => exact elfLoadSegment_examined step
        next => rw [← (Prod.mk.inj (Option.some.inj step)).2]
      split at rest
      next =>
        rcases ih rest with ⟨-, rfl⟩ | ⟨-, w, more⟩
        · exact ⟨[], examined⟩
        · exact ⟨_, more.trans ((congrArg (· ++ _) examined).trans (List.append_assoc ..))⟩
      next => simp at rest

/-- How far the walk has come, which may go round. -/
theorem Walking.distance (walking : Walking place file header l later s) :
    (file + headerAt header i - (file + (elfHeader (image s.bytes file)).headerTable)).toNat
      = i * header.programTableEntrySize.toNat % 2 ^ 64 := by
  rw [walking.table, add_sub_add, headerAt_sub]

/-- The walk through headers that are all in the table comes out behind them, with the records they
come to. -/
theorem Walking.run : ∀ {later : List (Addr × ElfProgramHeader)} {l : List Paging.ElfLoadedPage}
    {i rounds : Nat} {s : Kernel}, Walking place file header l later s →
    Undisturbed place (Pending file) l later →
    (∀ j e, later[j]? = some e → e.1 = file + headerAt header (i + j)) →
    (∀ j < later.length, (i + j) * header.programTableEntrySize.toNat % 2 ^ 64 < size.toNat) →
    headerLoop place file fuel size rounds s (file + headerAt header i) = some (some r) →
      ∃ rounds' s', Walking place file header (recordsOf place l (later.map Prod.snd)) [] s' ∧
        s'.examined = s.examined ++ later.map Prod.fst ∧
        headerLoop place file fuel size rounds' s' (file + headerAt header (i + later.length))
          = some (some r) := by
  intro later
  -- What is pending shrinks by the header just read, so the file need only hold for the rest.
  induction later with
  | nil =>
    intro l i rounds s walking _ _ _ run
    exact ⟨rounds, s, walking, (List.append_nil _).symm, run⟩
  | cons e later ih =>
    obtain ⟨pheader, h⟩ := e
    intro l i rounds s walking undisturbed at_ below run
    have here : pheader = file + headerAt header i := at_ 0 _ rfl
    subst here
    have lt : file + headerAt header i - (file + (elfHeader (image s.bytes file)).headerTable)
        < size := by
      rw [BitVec.lt_def, walking.distance]
      exact below 0 (Nat.zero_lt_succ _)
    cases rounds with
    | zero => simp [headerLoop] at run
    | succ rounds =>
      rw [headerLoop_more lt, Option.bind_eq_some_iff] at run
      obtain ⟨⟨loaded, s'⟩, step, rest⟩ := run
      have walking' : Walking place file header l ((file + headerAt header i, h) :: later)
          { s with examined := s.examined ++ [file + headerAt header i] } := { walking with }
      obtain ⟨rfl, examined, walking''⟩ := walking'.step undisturbed step
      rw [if_pos rfl, walking''.entrySize, BitVec.add_assoc, headerAt_succ] at rest
      obtain ⟨rounds', s'', last, seen, run⟩ := ih walking'' undisturbed.2
        (fun j e mem => by rw [at_ (j + 1) e mem, Nat.add_right_comm, Nat.add_assoc])
        (fun j less => by
          have := below (j + 1) (Nat.succ_lt_succ less)
          rwa [Nat.add_comm j 1, ← Nat.add_assoc] at this) rest
      refine ⟨rounds', s'', ?_, ?_, ?_⟩
      · rwa [List.map_cons, recordsOf_cons]
      · rw [seen, examined, List.append_assoc]
        rfl
      · rwa [List.length_cons, ← Nat.add_assoc, Nat.add_right_comm]

/-! ### The whole file -/

/-- What a file that is accepted has passed. -/
theorem elfLoadProgram_accepts (accepted : elfLoadProgram place file fuel m = some (some r)) :
    strncmp (elfHeader (image m file)).magic elfHeaderMagic 0 4 ≤ 0 ∧
      (elfHeader (image m file)).architecture = elfArchX8664 ∧
      (elfHeader (image m file)).endianness = elfEndiannessLittle ∧
      (elfHeader (image m file)).bitness = elfBitness64 ∧
      (elfHeader (image m file)).abi = elfAbiSystemv ∧
      ∃ m', m' = store (store (store m place.info (elfHeader (image m file)).programEntry)
          (place.info + 8) 0) (place.info + 16) place.table ∧
        headerLoop place file fuel (headerTableSize (elfHeader (image m file))) fuel ⟨m', 0, []⟩
          (file + (elfHeader (image m' file)).headerTable) = some (some r) := by
  unfold elfLoadProgram at accepted
  simp only at accepted
  split at accepted
  next => simp at accepted
  next magic =>
    split at accepted
    next => simp at accepted
    next architecture =>
      split at accepted
      next => simp at accepted
      next both =>
        split at accepted
        next => simp at accepted
        next abi =>
          rw [not_or] at both
          exact ⟨Int.not_lt.mp magic, not_not.mp architecture, not_not.mp both.1,
            not_not.mp both.2, not_not.mp abi, _, rfl, accepted⟩

/-- The three words of the `elf_load_info_t` are stored in its own block. -/
theorem stored_of_not {entry : Addr} (off : ¬ InRange place.info 24 a) :
    store (store (store m place.info entry) (place.info + 8) 0) (place.info + 16) place.table a
      = m a := by
  have field (j : Nat) (le : j + 8 ≤ 24) : ¬ InRange (place.info + BitVec.ofNat 64 j) 8 a :=
    fun near => off (near.within le (by decide))
  have first := field 0 (by decide)
  rw [add_ofNat_zero] at first
  exact (store_of_not (field 16 (by decide))).trans
    ((store_of_not (field 8 (by decide))).trans (store_of_not first))

/-- A new `elf_load_info_t` counts no records. -/
theorem stored_decodes {entry : Addr} : Decodes (store (store (store m place.info entry)
    (place.info + 8) 0) (place.info + 16) place.table) place [] := by
  refine ⟨?_, load_store _, fun i r at_ => by simp at at_⟩
  exact (@load_store_beside place.info 16 8 _ _ (by decide) (by decide) (by decide)).trans
    (load_store _)

/-- The walk begins with no records and the file as it was. -/
theorem Apart.walking (apart : Apart place file m) {entry : Addr} :
    Walking place file (elfHeader (image m file)) [] (entriesFrom m file 0
      (elfHeader (image m file)).programTableEntries.toNat)
      ⟨store (store (store m place.info entry) (place.info + 8) 0) (place.info + 16) place.table,
        0, []⟩ := by
  obtain ⟨table, entrySize, headers⟩ := @pending_congr file m
    (store (store (store m place.info entry) (place.info + 8) 0) (place.info + 16) place.table)
    ((entriesFrom m file 0 (elfHeader (image m file)).programTableEntries.toNat).map Prod.fst)
    (fun a pending => stored_of_not fun near => apart.info a near pending)
  refine ⟨stored_decodes, rfl, table, entrySize, fun e mem => ?_⟩
  rw [headers e.1 (List.mem_map_of_mem mem)]
  obtain ⟨j, -, rfl⟩ := List.mem_map.mp mem
  rfl

/-- The entries of a table that has a size are all in it, and there is an end to it behind the last
just when the size is not negative as an `int`. -/
theorem table_below {e n : Nat} (he : e < 2 ^ 16) (hn : n < 2 ^ 16) (pos : n = 0 ∨ e ≠ 0) :
    (∀ j < n, j * e % 2 ^ 64 < e * n + if 2 ^ 31 ≤ e * n then 2 ^ 64 - 2 ^ 32 else 0) ∧
      ((e * n + if 2 ^ 31 ≤ e * n then 2 ^ 64 - 2 ^ 32 else 0) ≤ n * e % 2 ^ 64 ↔
        e * n < 2 ^ 31) := by
  have small : e * n < 2 ^ 32 := product_lt he hn
  have last : n * e % 2 ^ 64 = e * n := by
    rw [Nat.mul_comm, Nat.mod_eq_of_lt (Nat.lt_trans small (by decide))]
  constructor
  · intro j lt
    have less : j * e < e * n := by
      rw [Nat.mul_comm]
      exact Nat.mul_lt_mul_of_pos_left lt (Nat.pos_of_ne_zero (pos.resolve_left (by omega)))
    rw [Nat.mod_eq_of_lt (less.trans (Nat.lt_trans small (by decide)))]
    exact Nat.lt_of_lt_of_le less (Nat.le_add_right _ _)
  · rw [last]
    split <;> omega

/-- A walk from the first header has examined those that are counted just when the table has a size
that is not negative, and then it has made the records they come to. -/
theorem Walking.count (walking : Walking place file header [] later s)
    (undisturbed : Undisturbed place (Pending file) [] later) (unseen : s.examined = [])
    (all : later.map Prod.fst = (List.range header.programTableEntries.toNat).map
      fun i => file + headerAt header i)
    (run : headerLoop place file fuel (headerTableSize header) rounds s
      (file + headerAt header 0) = some (some r)) :
    (r.examined = later.map Prod.fst ↔
      header.programTableEntrySize.toNat * header.programTableEntries.toNat < 2 ^ 31 ∧
        (header.programTableEntries.toNat = 0 ∨ header.programTableEntrySize.toNat ≠ 0)) ∧
    (r.examined = later.map Prod.fst →
      r.pools = (recordsOf place [] (later.map Prod.snd)).length) := by
  have count : later.length = header.programTableEntries.toNat := by
    simpa using congrArg List.length all
  by_cases pos : header.programTableEntries.toNat = 0 ∨ header.programTableEntrySize.toNat ≠ 0
  · obtain ⟨below, end_⟩ := table_below header.programTableEntrySize.isLt
      header.programTableEntries.isLt pos
    rw [← headerTableSize_toNat] at below end_
    obtain ⟨rounds', s', last, seen, rest⟩ := walking.run undisturbed
      (fun j e at_ => by
        have here := congrArg (·[j]?) all
        have lt : j < header.programTableEntries.toNat :=
          count ▸ (List.getElem?_eq_some_iff.mp at_).1
        simp only [List.getElem?_map, at_, List.getElem?_range lt, Option.map_some,
          Option.some.injEq] at here
        rw [here, Nat.zero_add])
      (fun j lt => by
        rw [Nat.zero_add]
        exact below j (count ▸ lt)) run
    rw [unseen, List.nil_append] at seen
    rw [Nat.zero_add, count] at rest
    rcases headerLoop_examined rest with ⟨past, rfl⟩ | ⟨within, w, more⟩
    · rw [BitVec.le_def, last.distance] at past
      exact ⟨iff_of_true seen ⟨end_.mp past, pos⟩, fun _ => last.pools⟩
    · -- one header more is examined than there are
      rw [BitVec.lt_def, last.distance] at within
      have long : r.examined ≠ later.map Prod.fst := by
        intro same
        have length := congrArg List.length more
        rw [same, seen, List.length_append, List.length_cons] at length
        omega
      refine ⟨iff_of_false long fun fits => ?_, fun same => absurd same long⟩
      exact absurd within (Nat.not_lt.mpr (end_.mpr fits.1))
  · rw [not_or, not_not] at pos
    have empty : (headerTableSize header).toNat = 0 := by
      rw [headerTableSize_toNat, pos.2, Nat.zero_mul]
      rfl
    have none_ : r.examined ≠ later.map Prod.fst := by
      rcases headerLoop_examined run with ⟨-, rfl⟩ | ⟨within, -⟩
      · intro same
        have length := congrArg List.length same
        rw [unseen, List.length_map, count] at length
        exact pos.1 length.symm
      · rw [BitVec.lt_def, empty] at within
        exact absurd within (Nat.not_lt_zero _)
    exact ⟨iff_of_false none_ fun fits => fits.2.elim pos.1 (· pos.2),
      fun same => absurd same none_⟩

/-- When a file is accepted that the loader does not write over, it is an ELF file for this
machine, its headers are examined one by one and one page holds the records, exactly when its magic
is not a smaller string, the size of its table is a positive `int` or there are no headers, and at
most 170 of the headers reach an address that the records before them do not cover. -/
theorem elfLoadProgram_exact (place : Place) (file : Addr) (fuel : Nat) (m : Memory) (r : Kernel)
    (apart : Apart place file m) (accepted : elfLoadProgram place file fuel m = some (some r)) :
    (IsElf (elfHeader (image m file)) ∧
      r.examined = (List.range (elfHeader (image m file)).programTableEntries.toNat).map
        (fun i => file + headerAt (elfHeader (image m file)) i) ∧ r.pools ≤ 170) ↔
    0 ≤ strncmp (elfHeader (image m file)).magic elfHeaderMagic 0 4 ∧
      ((elfHeader (image m file)).programTableEntrySize.toNat
          * (elfHeader (image m file)).programTableEntries.toNat < 2 ^ 31 ∧
        ((elfHeader (image m file)).programTableEntries.toNat = 0 ∨
          (elfHeader (image m file)).programTableEntrySize.toNat ≠ 0)) ∧
      (recordsOf place [] (headersFrom (image m file) 0
        (elfHeader (image m file)).programTableEntries.toNat)).length ≤ 170 := by
  obtain ⟨magic, architecture, endianness, bitness, abi, m', stored, run⟩ :=
    elfLoadProgram_accepts accepted
  have walking := @Apart.walking _ _ _ apart (elfHeader (image m file)).programEntry
  -- the context is stored before the walk; `Apart` keeps it off the headers
  rw [← stored] at walking
  have start : (elfHeader (image m' file)).headerTable = headerAt (elfHeader (image m file)) 0 := by
    rw [headerAt, Nat.zero_mul, add_ofNat_zero, walking.table]
  have all : (entriesFrom m file 0 (elfHeader (image m file)).programTableEntries.toNat).map
      Prod.fst
      = (List.range (elfHeader (image m file)).programTableEntries.toNat).map
        fun i => file + headerAt (elfHeader (image m file)) i := by
    simp only [entriesFrom, List.map_map, Function.comp_def, Nat.zero_add]
  rw [start] at run
  obtain ⟨count, made⟩ := walking.count apart.walk rfl all run
  rw [all] at count made
  rw [map_entriesFrom] at made
  rw [← count]
  constructor
  · rintro ⟨elf, examined, few⟩
    refine ⟨Int.le_of_eq (strncmp_eq_zero.mpr ?_).symm, examined, made examined ▸ few⟩
    intro j lt
    rw [Nat.zero_add]
    exact elf.magic j lt
  -- `strncmp` refuses only positive differences, so the magic also needs `0 ≤`
  · rintro ⟨notLess, examined, few⟩
    have zero := strncmp_eq_zero.mp (Int.le_antisymm magic notLess)
    refine ⟨⟨fun i lt => ?_, bitness, endianness, abi, architecture⟩, examined,
      made examined ▸ few⟩
    have := zero i lt
    rwa [Nat.zero_add] at this

end

/-- The header of a file at `0x500000` with its first eight bytes and its number of program headers,
which begin at `0x500040` and have 56 bytes each. -/
def elfAt (ident entries : Addr) : List (Addr × Addr) :=
  [(0x500000, ident), (0x500010, 0x1003e0002), (0x500018, 0x400000), (0x500020, 0x40),
    (0x500030, 0x38000000000000), (0x500038, entries)]

/-- An ELF file with two pages of zeros and a null header. -/
def bssFile : Memory := wordsAt (elfAt 0x10102464c457f 2 ++ bssAt 0x500040 0x400000 0x2000)

/-- Its two program headers. -/
theorem bssFile_entries : entriesFrom bssFile 0x500000 0
    (elfHeader (image bssFile 0x500000)).programTableEntries.toNat
      = [(0x500040, ⟨elfSegmentLoad, 0, 0x400000, 0, 0x2000⟩), (0x500078, ⟨0, 0, 0, 0, 0⟩)] := by
  decide +kernel

/-- The loader writes beside them. -/
theorem bssFile_apart : Apart quietPlace 0x500000 bssFile := by
  have low {later : List Addr} (all : ∀ pheader ∈ later, pheader.toNat + 48 ≤ 0x600000) {a : Addr}
      (pending : Pending 0x500000 later a) : a.toNat < 0x600000 :=
    pending.lt (by decide) (by decide) all
  constructor
  · rw [bssFile_entries]
    intro a near pending
    have high := ((@inRange_iff quietPlace.info a 24 (by decide)).mp near).1
    have start : quietPlace.info.toNat = 0x700000 := rfl
    have := low (by simp) pending
    omega
  · rw [bssFile_entries]
    refine ⟨fun _ _ => ⟨bss_spares rfl (by decide) (by decide), fun a written pending => ?_⟩,
      fun load => absurd load (by decide), trivial⟩
    have := low (by simp) pending
    rcases written with copies | fills | own
    · exact bss_copies rfl copies
    · have := bss_fills rfl (by decide) (by decide) fills
      omega
    · have := quiet_own own
      omega

/-- The file is accepted, and both headers are examined. -/
theorem elfLoadProgram_exact_bss :
    ∃ r, elfLoadProgram quietPlace 0x500000 3 bssFile = some (some r) ∧
    IsElf (elfHeader (image bssFile 0x500000)) ∧ r.examined = [0x500040, 0x500078] ∧
    r.pools ≤ 170 := by
  have accepted : (elfLoadProgram quietPlace 0x500000 3 bssFile).join.isSome := by decide +kernel
  obtain ⟨r, accepted⟩ := Option.isSome_iff_exists.mp accepted
  have accepted := Option.join_eq_some_iff.mp accepted
  have exact_ := elfLoadProgram_exact _ _ _ _ r bssFile_apart accepted
  have few : (recordsOf quietPlace [] (headersFrom (image bssFile 0x500000) 0
      (elfHeader (image bssFile 0x500000)).programTableEntries.toNat)).length ≤ 170 := by
    rw [← map_entriesFrom, bssFile_entries]
    exact length_recordsOf.trans (by decide)
  obtain ⟨elf, examined, few⟩ := exact_.mpr
    ⟨by decide +kernel, by decide +kernel, few⟩
  refine ⟨r, accepted, elf, examined.trans ?_, few⟩
  decide +kernel

/-- A file with zeros for its magic is accepted. -/
theorem elfLoadProgram_accepts_other : ¬ ∀ (place : Place) (file : Addr) (fuel : Nat)
    (m : Memory) (r : Kernel), elfLoadProgram place file fuel m = some (some r) →
      IsElf (elfHeader (image m file)) ∧
        r.examined = (List.range (elfHeader (image m file)).programTableEntries.toNat).map
          (fun i => file + headerAt (elfHeader (image m file)) i) ∧ r.pools ≤ 170 := by
  intro always
  have accepted : (elfLoadProgram quietPlace 0x500000 1
      (wordsAt (elfAt 0x10200000000 0))).join.isSome
      := by decide +kernel
  obtain ⟨r, accepted⟩ := Option.isSome_iff_exists.mp accepted
  have magic := (always _ _ _ _ r (Option.join_eq_some_iff.mp accepted)).1.magic 0 (by decide)
  revert magic
  decide +kernel

end Skylight.ElfMemory
