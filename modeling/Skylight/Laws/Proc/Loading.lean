import Skylight.Proc.ElfMemory
import Skylight.Laws.Proc.Segments

/-!
# Loading one segment in one memory

The copying loop leaves at a stop that is the first it can leave at, where what is taken for mapped
is what the records say once the bytes before the stop are copied: a copy to the records' own page
or to the `elf_load_info_t` is seen by the next look at them.

As long as no write of a segment comes to the count and the records, memory goes on holding the
records it held with the new one behind them, and the loop leaves at the stop it would leave at if
nothing was copied. Along a run of such segments the loader and the mapper agree on what is mapped
exactly when every record starts at a page. Segments that are written over the records are not
followed any further.
-/

namespace Skylight.ElfMemory

open Bytes Elf

/-- What is taken for mapped once the first `y` bytes of a header are copied. -/
def seen (info file : Addr) (m : Memory) (header : ElfProgramHeader) (y : Nat) : Addr → Bool :=
  elfIsPageMapped (memcpy m header.pVaddr (file + header.pOffset) y) info

/-- The `elf_load_info_t` counts the records `l`, and they are in the page of the records. -/
structure Decodes (m : Memory) (place : Place) (l : List Paging.ElfLoadedPage) : Prop where
  count : segmentCount m place.info = BitVec.ofNat 64 l.length
  table : segments m place.info = place.table
  held : ∀ i r, l[i]? = some r →
    elfLoadedPage m (place.table + BitVec.ofNat 64 (24 * i)) = r

/-- The count, the pointer and the first `k` records. -/
def Own (place : Place) (k : Nat) (a : Addr) : Prop :=
  InRange (place.info + 8) 16 a ∨ InRange place.table (24 * k) a

/-- There is place for `k` records beside the `elf_load_info_t`. -/
structure Room (place : Place) (k : Nat) : Prop where
  fits : 24 * k ≤ 2 ^ 64
  apart : ∀ a, InRange place.table (24 * k) a → ¬ InRange (place.info + 8) 16 a

/-- The copies of a segment into pages that the records `l` cover write `a`. -/
def Copies (l : List Paging.ElfLoadedPage) (header : ElfProgramHeader) (a : Addr) : Prop :=
  ∃ y, Reaches (fun _ => Elf.elfIsPageMapped l) header y ∧ InRange header.pVaddr y a

/-- The pool number `k` is written at `a`, with what is left of the segment behind its copies. -/
def Fills (place : Place) (k : Nat) (l : List Paging.ElfLoadedPage) (header : ElfProgramHeader)
    (a : Addr) : Prop :=
  ∃ x, LeavesAt l header x ∧ x ≠ header.pMemsz.toNat ∧
    InRange (place.pool k + ((header.advance (BitVec.ofNat 64 x)).pVaddr &&& 0xfff))
      (max (header.advance (BitVec.ofNat 64 x)).pMemsz.toNat
        (header.advance (BitVec.ofNat 64 x)).pFilesz.toNat) a

/-- A segment is loaded beside the count and the records `l`, and there is place for one more. -/
structure Spares (place : Place) (k : Nat) (l : List Paging.ElfLoadedPage)
    (header : ElfProgramHeader) : Prop where
  room : Room place (l.length + 1)
  copies : ∀ a, Copies l header a → ¬ Own place l.length a
  fills : ∀ a, Fills place k l header a → ¬ Own place (l.length + 1) a

/-- The records behind a segment that the loop leaves at `x`. -/
def after (place : Place) (k : Nat) (l : List Paging.ElfLoadedPage) (header : ElfProgramHeader)
    (x : Nat) : List Paging.ElfLoadedPage :=
  if x = header.pMemsz.toNat then l else l ++ [record place k header x]

section
variable {place : Place} {file info pheader a x : Addr} {fuel k n i : Nat} {m m' : Memory}
  {s s' : Kernel} {header : ElfProgramHeader} {l : List Paging.ElfLoadedPage}
  {segment : Paging.ElfLoadedPage}

/-! ### The loop -/

/-- A round copies the next bytes, and what is seen then is what is seen further on. -/
theorem copyMapped_follows : Follows (fun m v => elfIsPageMapped m info v)
    (fun m header => memcpy m header.pVaddr (file + header.pOffset) header.nextPageOffset.toNat)
    (seen info file) := by
  refine ⟨fun _ _ _ => rfl, fun m header y v => ?_⟩
  rw [seen, seen, memcpy_add, BitVec.ofNat_toNat, BitVec.setWidth_eq, BitVec.add_assoc]
  rfl

/-- The loop in memory is the loop of `Laws.Proc.Stops`. -/
theorem copyMapped_eq : ∀ {fuel : Nat} {m : Memory} {header : ElfProgramHeader},
    copyMapped info file fuel m header = copyLoop (fun m v => elfIsPageMapped m info v)
      (fun m header => memcpy m header.pVaddr (file + header.pOffset) header.nextPageOffset.toNat)
      fuel m header := by
  intro fuel
  induction fuel with
  | zero =>
    intro m header
    rfl
  | succ fuel ih =>
    intro m header
    simp only [copyMapped, copyLoop, ih]

/-- The loop leaves at the first stop it can leave at, with the bytes before it copied. -/
theorem copyMapped_run {r : Memory × Option ElfProgramHeader} (nonempty : header.pMemsz ≠ 0)
    (run : copyMapped info file fuel m header = some r) :
    ∃ x, ExitsAt (seen info file m header) header x ∧
      r.1 = memcpy m header.pVaddr (file + header.pOffset) x ∧
      r.2 = if x = header.pMemsz.toNat then none
        else some (header.advance (BitVec.ofNat 64 x)) := by
  rw [copyMapped_eq] at run
  refine copyMapped_follows.run
    (fun m header x t => t = memcpy m header.pVaddr (file + header.pOffset) x) (fun _ _ => rfl)
    (fun m header y t here => ?_) nonempty run
  rw [here, memcpy_add, BitVec.ofNat_toNat, BitVec.setWidth_eq, BitVec.add_assoc]
  rfl

/-- Nothing is copied where nothing is mapped. -/
theorem copyMapped_unmapped (unmapped : elfIsPageMapped m info header.pVaddr = false) :
    copyMapped info file (fuel + 1) m header = some (m, some header) := by
  rw [copyMapped, if_neg (by rw [unmapped]; exact Bool.false_ne_true)]

/-- An empty segment is not loaded. -/
theorem elfLoadSegment_empty (empty : (elfProgramHeader s.bytes pheader).pMemsz = 0) :
    elfLoadSegment place file fuel s pheader = some (true, s) := by
  simp only [elfLoadSegment, empty, if_true]
  rfl

/-- A segment is what the loop leaves of it, with a record and a pool for that. -/
theorem elfLoadSegment_eq (nonempty : (elfProgramHeader s.bytes pheader).pMemsz ≠ 0) :
    elfLoadSegment place file fuel s pheader =
      (copyMapped place.info file fuel s.bytes (elfProgramHeader s.bytes pheader)).map fun r =>
        (true, r.2.elim { s with bytes := r.1 } fun rest =>
          { s with bytes := loadRest place file s.pools r.1 rest, pools := s.pools + 1 }) := by
  simp only [elfLoadSegment, if_neg nonempty]
  cases copyMapped place.info file fuel s.bytes (elfProgramHeader s.bytes pheader) with
  | none => rfl
  | some r =>
    obtain ⟨m, _ | rest⟩ := r
    · rfl
    · rfl

/-- The loop ends just when it has a stop to leave at. -/
theorem copyMapped_ends_iff (nonempty : header.pMemsz ≠ 0) :
    (∃ fuel, (copyMapped info file fuel m header).isSome) ↔
      ∃ x, header.IsStop x ∧ Exits (seen info file m header) header x := by
  simp only [copyMapped_eq]
  exact copyMapped_follows.ends_iff nonempty

/-- Loading a segment ends exactly when there is nothing to load or the loop has a stop to leave
at: one where all of the segment is copied, or whose page no record covers, as memory has the
records once the bytes before the stop are copied. -/
theorem elfLoadSegment_ends_iff (place : Place) (file : Addr) (s : Kernel) (pheader : Addr) :
    (∃ fuel, (elfLoadSegment place file fuel s pheader).isSome) ↔
      (elfProgramHeader s.bytes pheader).pMemsz = 0 ∨
        ∃ x, (elfProgramHeader s.bytes pheader).IsStop x ∧
          Exits (seen place.info file s.bytes (elfProgramHeader s.bytes pheader))
            (elfProgramHeader s.bytes pheader) x := by
  by_cases empty : (elfProgramHeader s.bytes pheader).pMemsz = 0
  · simp only [empty, true_or, iff_true]
    exact ⟨0, by rw [elfLoadSegment_empty empty]; rfl⟩
  · simp only [elfLoadSegment_eq empty, Option.isSome_map, empty, false_or]
    exact copyMapped_ends_iff empty

end

/-! ### Memory for the examples -/

/-- Memory of zeros with some words of eight bytes written. -/
def wordsAt (words : List (Addr × Addr)) : Memory :=
  words.foldl (fun m w => store m w.1 w.2) fun _ => 0

/-- A program header at `pheader`, without file data. -/
def bssAt (pheader pVaddr pMemsz : Addr) : List (Addr × Addr) :=
  [(pheader, 1), (pheader + 16, pVaddr), (pheader + 40, pMemsz)]

/-- A segment with no file data that begins in a page that is mapped: nothing is copied, and the
loop stays where it is. -/
theorem elfLoadSegment_not_always_ends : ¬ ∀ (place : Place) (file : Addr) (s : Kernel)
    (pheader : Addr), ∃ fuel, (elfLoadSegment place file fuel s pheader).isSome := by
  intro always
  let m := wordsAt ([(0x700008, 1), (0x700010, 0x701000), (0x701000, 0x400000),
    (0x701008, 0x800000), (0x701010, 0x1000)] ++ bssAt 0x500040 0x400800 0x100)
  have read : elfProgramHeader m 0x500040 = ⟨elfSegmentLoad, 0, 0x400800, 0, 0x100⟩ := by
    decide +kernel
  have some_left : (⟨elfSegmentLoad, 0, 0x400800, 0, 0x100⟩ : ElfProgramHeader).pMemsz ≠ 0 := by
    decide
  have mapped : elfIsPageMapped m 0x700000 0x400800 = true := by decide +kernel
  obtain ⟨fuel, ends⟩ := always quietPlace 0x500000 ⟨m, 1, []⟩ 0x500040
  rw [elfLoadSegment_eq (by rw [read]; exact some_left), Option.isSome_map, read] at ends
  obtain ⟨x, stop, whole | unmapped⟩ := (copyMapped_ends_iff some_left).mp ⟨fuel, ends⟩
  · obtain rfl : x = 0 := Nat.le_zero.mp stop.1
    exact absurd whole (by decide)
  · obtain rfl : x = 0 := Nat.le_zero.mp stop.1
    have same : elfIsPageMapped m 0x700000 0x400800 = false := unmapped
    rw [mapped] at same
    exact Bool.false_ne_true same.symm

/-! ### The records in memory -/

section
variable {place : Place} {file info pheader a b x : Addr} {fuel k n i j : Nat} {m m' : Memory}
  {s s' : Kernel} {header : ElfProgramHeader} {l : List Paging.ElfLoadedPage}
  {segment : Paging.ElfLoadedPage}

/-- Two steps are one. -/
theorem add_add_ofNat (a : Addr) (i j : Nat) :
    a + BitVec.ofNat 64 i + BitVec.ofNat 64 j = a + BitVec.ofNat 64 (i + j) := by
  rw [BitVec.add_assoc, BitVec.ofNat_add]

/-- A word stored beside another is not seen there. -/
theorem load_store_beside {w : Addr} (apart : i + 8 ≤ j ∨ j + 8 ≤ i) (hi : i < 2 ^ 63)
    (hj : j < 2 ^ 63) : load (store m (a + BitVec.ofNat 64 i) w) (a + BitVec.ofNat 64 j)
      = load m (a + BitVec.ofNat 64 j) := by
  apply load_store_of_apart
  · simp only [BitVec.toNat_sub, BitVec.toNat_add, BitVec.toNat_ofNat]
    have := a.isLt
    omega
  · simp only [BitVec.toNat_sub, BitVec.toNat_add, BitVec.toNat_ofNat]
    have := a.isLt
    omega

/-- A record is read from its twenty-four bytes. -/
theorem elfLoadedPage_congr (same : ∀ x, InRange a 24 x → m' x = m x) :
    elfLoadedPage m' a = elfLoadedPage m a := by
  have field (i : Nat) (le : i + 8 ≤ 24) :
      load m' (a + BitVec.ofNat 64 i) = load m (a + BitVec.ofNat 64 i) :=
    load_congr fun x near => same x (near.within le (by decide))
  have first := field 0 (by decide)
  rw [add_ofNat_zero] at first
  rw [elfLoadedPage, elfLoadedPage, first]
  exact congrArg₂ _ (field 8 (by decide)) (field 16 (by decide))

/-- The count and the pointer are read from sixteen bytes. -/
theorem info_congr (same : ∀ x, InRange (info + 8) 16 x → m' x = m x) :
    segmentCount m' info = segmentCount m info ∧ segments m' info = segments m info := by
  have upper : info + 16 = info + 8 + BitVec.ofNat 64 8 := by
    rw [BitVec.add_assoc]
    rfl
  constructor
  · apply load_congr
    intro x near
    exact same x (Nat.lt_of_lt_of_le near (by decide))
  · rw [segments, segments, upper]
    apply load_congr
    intro x near
    exact same x (near.within (by decide) (by decide))

/-- The list that memory holds is what `elf_is_page_mapped` reads. -/
theorem Decodes.read (decodes : Decodes m place l) (fits : 24 * l.length ≤ 2 ^ 64) :
    records m place.info = l := by
  have count : (segmentCount m place.info).toNat = l.length := by
    rw [decodes.count, BitVec.toNat_ofNat]
    exact Nat.mod_eq_of_lt (by omega)
  rw [ElfMemory.records, count]
  apply List.ext_getElem?
  intro i
  rw [List.getElem?_map]
  rcases Nat.lt_or_ge i l.length with lt | ge
  · have place_ : segments m place.info + 24 * BitVec.ofNat 64 i
        = place.table + BitVec.ofNat 64 (24 * i) := by
      rw [decodes.table, BitVec.ofNat_mul]
      rfl
    rw [List.getElem?_range lt, List.getElem?_eq_getElem lt, Option.map_some, place_,
      decodes.held i _ (List.getElem?_eq_getElem lt)]
  · rw [List.getElem?_eq_none (by simpa using ge), List.getElem?_eq_none ge]
    rfl

/-- Writes that miss the count and the records leave them. -/
theorem Decodes.congr (decodes : Decodes m place l) (fits : 24 * l.length ≤ 2 ^ 64)
    (same : ∀ x, Own place l.length x → m' x = m x) : Decodes m' place l := by
  obtain ⟨count, table⟩ := info_congr fun x near => same x (Or.inl near)
  refine ⟨count.trans decodes.count, table.trans decodes.table, fun i r at_ => ?_⟩
  have lt : i < l.length := (List.getElem?_eq_some_iff.mp at_).1
  rw [elfLoadedPage_congr fun x near => same x (Or.inr (near.within (by omega) fits))]
  exact decodes.held i r at_

/-- Place for fewer records. -/
theorem Room.le (room : Room place n) (le : k ≤ n) : Room place k := by
  refine ⟨le_trans (Nat.mul_le_mul_left _ le) room.fits, fun a near => room.apart a ?_⟩
  exact Nat.lt_of_lt_of_le near (Nat.mul_le_mul_left _ le)

/-- The first records are among more of them. -/
theorem Own.le (own : Own place k a) (le : k ≤ n) : Own place n a :=
  own.imp_right fun near => Nat.lt_of_lt_of_le near (Nat.mul_le_mul_left _ le)

/-- Where the next record goes, as long as the count and the pointer stay. -/
theorem Decodes.next (decodes : Decodes m place l)
    (same : ∀ x, InRange (place.info + 8) 16 x → m' x = m x) :
    nextSegment m' place.info = place.table + BitVec.ofNat 64 (24 * l.length) := by
  obtain ⟨count, table⟩ := info_congr same
  rw [nextSegment, count, table, decodes.count, decodes.table, BitVec.ofNat_mul]
  rfl

/-- The three fields of a record, stored one after the other. -/
def putRecord (m : Memory) (a : Addr) (segment : Paging.ElfLoadedPage) : Memory :=
  store (store (store m a segment.loadedAt) (a + 8) segment.locatedAt) (a + 16) segment.length

/-- A record changes its own bytes only. -/
theorem putRecord_of_not (off : ¬ InRange a 24 x) : putRecord m a segment x = m x := by
  have field (i : Nat) (le : i + 8 ≤ 24) : ¬ InRange (a + BitVec.ofNat 64 i) 8 x :=
    fun near => off (near.within le (by decide))
  have first := field 0 (by decide)
  rw [add_ofNat_zero] at first
  exact (store_of_not (field 16 (by decide))).trans
    ((store_of_not (field 8 (by decide))).trans (store_of_not first))

/-- The record is read back. -/
theorem elfLoadedPage_putRecord : elfLoadedPage (putRecord m a segment) a = segment := by
  have beside (i j : Nat) (m : Memory) (w : Addr) (apart : i + 8 ≤ j ∨ j + 8 ≤ i) (hi : i < 2 ^ 63)
      (hj : j < 2 ^ 63) := @load_store_beside a i j m w apart hi hj
  have zero (m : Memory) : load m a = load m (a + BitVec.ofNat 64 0) := by rw [add_ofNat_zero]
  have loadedAt : load (putRecord m a segment) a = segment.loadedAt := by
    rw [putRecord, zero]
    refine (beside 16 0 _ _ (by decide) (by decide) (by decide)).trans ?_
    refine (beside 8 0 _ _ (by decide) (by decide) (by decide)).trans ?_
    rw [← zero, load_store]
  have locatedAt : load (putRecord m a segment) (a + 8) = segment.locatedAt := by
    rw [putRecord]
    refine (beside 16 8 _ _ (by decide) (by decide) (by decide)).trans ?_
    exact load_store ..
  rw [elfLoadedPage, loadedAt, locatedAt, putRecord, load_store]

/-- A new record is stored behind the others, and then it is counted. -/
theorem Decodes.addSegment_eq (decodes : Decodes m place l) (room : Room place (l.length + 1)) :
    addSegment m place.info segment =
      store (putRecord m (place.table + BitVec.ofNat 64 (24 * l.length)) segment)
        (place.info + 8) (BitVec.ofNat 64 (l.length + 1)) := by
  have beside {j : Nat} (le : j + 8 ≤ 24) {x w : Addr} {m : Memory}
      (near : InRange (place.info + 8) 16 x) :
      store m (place.table + BitVec.ofNat 64 (24 * l.length) + BitVec.ofNat 64 j) w x = m x := by
    apply store_of_not
    intro here
    rw [add_add_ofNat] at here
    exact room.apart x (here.within (by omega) room.fits) near
  have first {x w : Addr} {m : Memory} (near : InRange (place.info + 8) 16 x) :
      store m (place.table + BitVec.ofNat 64 (24 * l.length)) w x = m x := by
    have zero := @beside 0 (by decide) x w m near
    rwa [add_ofNat_zero] at zero
  have second {x w : Addr} {m : Memory} (near : InRange (place.info + 8) 16 x) :
      store m (place.table + BitVec.ofNat 64 (24 * l.length) + 8) w x = m x :=
    @beside 8 (by decide) x w m near
  have third {x w : Addr} {m : Memory} (near : InRange (place.info + 8) 16 x) :
      store m (place.table + BitVec.ofNat 64 (24 * l.length) + 16) w x = m x :=
    @beside 16 (by decide) x w m near
  -- none of the stores moves the place of the next
  unfold ElfMemory.addSegment
  simp only
  rw [decodes.next fun _ _ => rfl, decodes.next fun x near => first near,
    decodes.next fun x near => (second near).trans (first near),
    (info_congr fun x near => (third near).trans ((second near).trans (first near))).1,
    decodes.count, putRecord, BitVec.ofNat_add l.length 1]
  rfl

/-- A new record changes nothing but its own bytes and the count. -/
theorem Decodes.addSegment_of_not (decodes : Decodes m place l)
    (room : Room place (l.length + 1)) (count : ¬ InRange (place.info + 8) 8 x)
    (slot : ¬ InRange (place.table + BitVec.ofNat 64 (24 * l.length)) 24 x) :
    addSegment m place.info segment x = m x := by
  rw [decodes.addSegment_eq room, store_of_not count, putRecord_of_not slot]

/-- The records with the new one. -/
theorem Decodes.added (decodes : Decodes m place l) (room : Room place (l.length + 1)) :
    Decodes (addSegment m place.info segment) place (l ++ [segment]) := by
  have fits := room.fits
  have eq := @Decodes.addSegment_eq _ _ _ segment decodes room
  have inTable {x : Addr}
      (near : InRange (place.table + BitVec.ofNat 64 (24 * l.length)) 24 x) :
      InRange place.table (24 * (l.length + 1)) x := near.within (by omega) fits
  constructor
  · rw [segmentCount, eq, load_store, List.length_append, List.length_singleton]
  · rw [← decodes.table]
    apply load_congr
    intro x near
    have upper : place.info + 16 = place.info + 8 + BitVec.ofNat 64 8 := by
      rw [BitVec.add_assoc]
      rfl
    rw [upper] at near
    have info : InRange (place.info + 8) 16 x := near.within (by decide) (by decide)
    have count : ¬ InRange (place.info + 8) 8 x := fun below => below.not_behind (by decide) near
    exact decodes.addSegment_of_not room count fun slot => room.apart x (inTable slot) info
  · intro i r at_
    rcases Nat.lt_or_ge i l.length with lt | ge
    · rw [List.getElem?_append_left lt] at at_
      rw [← decodes.held i r at_]
      apply elfLoadedPage_congr
      intro x near
      have table : InRange place.table (24 * l.length) x := near.within (by omega) (by omega)
      refine decodes.addSegment_of_not room (fun count => ?_) (table.not_behind (by omega))
      exact room.apart x (Nat.lt_of_lt_of_le table (by omega))
        (Nat.lt_of_lt_of_le count (by decide))
    · obtain rfl : i = l.length := by
        have := (List.getElem?_eq_some_iff.mp at_).1
        rw [List.length_append, List.length_singleton] at this
        omega
      rw [List.getElem?_append_right le_rfl, Nat.sub_self, List.getElem?_cons_zero,
        Option.some.injEq] at at_
      subst at_
      refine Eq.trans ?_ (@elfLoadedPage_putRecord
        (place.table + BitVec.ofNat 64 (24 * l.length)) m segment)
      rw [eq]
      apply elfLoadedPage_congr
      intro x near
      apply store_of_not
      intro count
      exact room.apart x (inTable near) (Nat.lt_of_lt_of_le count (by decide))

/-! ### One segment -/

/-- The loop leaves where it would leave if nothing was copied, and leaves the records. -/
theorem Decodes.copied (decodes : Decodes m place l) (spares : Spares place k l header)
    {r : Memory × Option ElfProgramHeader} (nonempty : header.pMemsz ≠ 0)
    (run : copyMapped place.info file fuel m header = some r) :
    ∃ x, LeavesAt l header x ∧ Decodes r.1 place l ∧
      (∀ a, ¬ Copies l header a → r.1 a = m a) ∧
      r.2 = if x = header.pMemsz.toNat then none
        else some (header.advance (BitVec.ofNat 64 x)) := by
  have fits : 24 * l.length ≤ 2 ^ 64 := (spares.room.le (Nat.le_succ _)).fits
  have copied {y : Nat} (reach : Reaches (fun _ => Elf.elfIsPageMapped l) header y) (a : Addr)
      (off : ¬ Copies l header a) :
      memcpy m header.pVaddr (file + header.pOffset) y a = m a :=
    memcpy_of_not fun near => off ⟨y, reach, near⟩
  have stays {y : Nat} (reach : Reaches (fun _ => Elf.elfIsPageMapped l) header y) :
      Decodes (memcpy m header.pVaddr (file + header.pOffset) y) place l :=
    decodes.congr fits fun a own => copied reach a fun copies => spares.copies a copies own
  obtain ⟨x, at_, eq, left⟩ := copyMapped_run nonempty run
  have leaves : LeavesAt l header x := by
    refine (exitsAt_congr fun y reach v => ?_).mp at_
    exact congrArg (Elf.elfIsPageMapped · v) ((stays reach).read fits)
  refine ⟨x, leaves, eq ▸ stays leaves.toReaches, fun a off => ?_, left⟩
  rw [eq]
  exact copied leaves.toReaches a off

/-- The rest gets its record, and the pool is filled. -/
theorem Decodes.filled (decodes : Decodes m place l) (spares : Spares place k l header)
    {x : Nat} (leaves : LeavesAt l header x) (more : x ≠ header.pMemsz.toNat) :
    Decodes (loadRest place file k m (header.advance (BitVec.ofNat 64 x))) place
        (l ++ [record place k header x]) ∧
      ∀ a, ¬ Fills place k l header a → ¬ Own place (l.length + 1) a →
        loadRest place file k m (header.advance (BitVec.ofNat 64 x)) a = m a := by
  have added := @Decodes.added _ _ _ (record place k header x) decodes spares.room
  have filled (a : Addr) (off : ¬ Fills place k l header a) :
      loadRest place file k m (header.advance (BitVec.ofNat 64 x)) a
        = ElfMemory.addSegment m place.info (record place k header x) a := by
    have apart {n : Nat} (le : n ≤ max (header.advance (BitVec.ofNat 64 x)).pMemsz.toNat
        (header.advance (BitVec.ofNat 64 x)).pFilesz.toNat) :
        ¬ InRange (place.pool k + ((header.advance (BitVec.ofNat 64 x)).pVaddr &&& 0xfff)) n a :=
      fun near => off ⟨x, leaves, more, Nat.lt_of_lt_of_le near le⟩
    exact (memcpy_of_not (apart (le_max_right ..))).trans (memset_of_not (apart (le_max_left ..)))
  constructor
  · refine added.congr ?_ fun a own => filled a fun fills => ?_
    · rw [List.length_append, List.length_singleton]
      exact spares.room.fits
    · rw [List.length_append, List.length_singleton] at own
      exact spares.fills a fills own
  · intro a off other
    rw [filled a off]
    refine decodes.addSegment_of_not spares.room (fun count => ?_) fun slot => ?_
    · exact other (Or.inl (Nat.lt_of_lt_of_le count (by decide)))
    · exact other (Or.inr (slot.within (by omega) spares.room.fits))

/-- A segment that spares the records adds its own to them, or none when it is empty or copied as
a whole. -/
theorem Decodes.loaded {loaded : Bool} (decodes : Decodes s.bytes place l)
    (spares : (elfProgramHeader s.bytes pheader).pMemsz ≠ 0 →
      Spares place s.pools l (elfProgramHeader s.bytes pheader))
    (run : elfLoadSegment place file fuel s pheader = some (loaded, s')) :
    loaded = true ∧ ((elfProgramHeader s.bytes pheader).pMemsz = 0 ∧ s' = s ∨
      (elfProgramHeader s.bytes pheader).pMemsz ≠ 0 ∧
      ∃ x, LeavesAt l (elfProgramHeader s.bytes pheader) x ∧ s'.examined = s.examined ∧
        s'.pools + l.length = s.pools
          + (after place s.pools l (elfProgramHeader s.bytes pheader) x).length ∧
        Decodes s'.bytes place (after place s.pools l (elfProgramHeader s.bytes pheader) x) ∧
        ∀ a, ¬ Copies l (elfProgramHeader s.bytes pheader) a →
          ¬ Fills place s.pools l (elfProgramHeader s.bytes pheader) a →
          ¬ Own place (l.length + 1) a → s'.bytes a = s.bytes a) := by
  by_cases empty : (elfProgramHeader s.bytes pheader).pMemsz = 0
  · rw [elfLoadSegment_empty empty, Option.some.injEq, Prod.mk.injEq] at run
    exact ⟨run.1.symm, Or.inl ⟨empty, run.2.symm⟩⟩
  · have spares := spares empty
    rw [elfLoadSegment_eq empty, Option.map_eq_some_iff] at run
    obtain ⟨⟨m, rest⟩, copied, out⟩ := run
    rw [Prod.mk.injEq] at out
    obtain ⟨rfl, rfl⟩ := out
    obtain ⟨x, leaves, stays, same, left⟩ := decodes.copied spares empty copied
    dsimp only at stays same left
    refine ⟨rfl, Or.inr ⟨empty, x, leaves, ?_⟩⟩
    subst left
    by_cases all : x = (elfProgramHeader s.bytes pheader).pMemsz.toNat
    · simp only [after, if_pos all, Option.elim_none]
      exact ⟨trivial, trivial, stays, fun a off _ _ => same a off⟩
    · obtain ⟨decodes', same'⟩ := @Decodes.filled _ file _ _ _ _ stays spares _ leaves all
      simp only [after, if_neg all, Option.elim_some]
      refine ⟨trivial, ?_, decodes', fun a copies fills own => (same' a fills own).trans
        (same a copies)⟩
      rw [List.length_append, List.length_singleton]
      show s.pools + 1 + l.length = _
      omega

/-! ### Runs of segments -/

end

/-- Segments loaded one after the other from the state `s`, each with the state after it. -/
def IsRun (place : Place) (file : Addr) : Kernel → List (Addr × Kernel) → Prop
  | _, [] => True
  | s, (pheader, s') :: run =>
    (∃ fuel loaded, elfLoadSegment place file fuel s pheader = some (loaded, s')) ∧
      IsRun place file s' run

/-- The program headers of a run, each with the state before it. -/
def befores : Kernel → List (Addr × Kernel) → List (Kernel × Addr)
  | _, [] => []
  | s, (pheader, s') :: run => (s, pheader) :: befores s' run

/-- In the state `s` the segment of a program header is empty or loaded beside the count and the
records. -/
def SparesAt (place : Place) (s : Kernel) (pheader : Addr) : Prop :=
  (elfProgramHeader s.bytes pheader).pMemsz ≠ 0 →
    Spares place s.pools (records s.bytes place.info) (elfProgramHeader s.bytes pheader)

section
variable {place : Place} {file pheader : Addr} {fuel : Nat} {s s' : Kernel}
  {l : List Paging.ElfLoadedPage} {run : List (Addr × Kernel)}

/-- One segment: the two readings still agree exactly when its record starts at a page. -/
theorem Decodes.agrees_step {loaded : Bool} (decodes : Decodes s.bytes place l)
    (fits : 24 * l.length ≤ 2 ^ 64) (agrees : Agrees l) (spares : SparesAt place s pheader)
    (step : elfLoadSegment place file fuel s pheader = some (loaded, s')) :
    ∃ l', Decodes s'.bytes place l' ∧ 24 * l'.length ≤ 2 ^ 64 ∧
      (Agrees l' ↔ StartsAtPage l (elfProgramHeader s.bytes pheader)) := by
  rw [SparesAt, decodes.read fits] at spares
  obtain ⟨-, ⟨empty, rfl⟩ | ⟨nonempty, x, leaves, -, -, decodes', -⟩⟩ :=
    decodes.loaded spares step
  · exact ⟨l, decodes, fits, fun _ nonempty => absurd empty nonempty, fun _ => agrees⟩
  · refine ⟨_, decodes', ?_, agrees_next agrees nonempty leaves⟩
    have room := (spares nonempty).room.fits
    rw [after]
    split
    · exact fits
    · rw [List.length_append, List.length_singleton]
      exact room

/-- The two readings along a run, header by header. -/
theorem Decodes.agrees_run : ∀ {s : Kernel} {l : List Paging.ElfLoadedPage},
    Decodes s.bytes place l → 24 * l.length ≤ 2 ^ 64 → Agrees l → IsRun place file s run →
    (∀ before ∈ befores s run, SparesAt place before.1 before.2) →
    ((∀ step ∈ run, Agrees (records step.2.bytes place.info)) ↔
      ∀ before ∈ befores s run, StartsAtPage (records before.1.bytes place.info)
        (elfProgramHeader before.1.bytes before.2)) := by
  induction run with
  | nil =>
    intro s l _ _ _ _ _
    simp [befores]
  | cons step run ih =>
    obtain ⟨pheader, s'⟩ := step
    intro s l decodes fits agrees ⟨⟨fuel, loaded, load⟩, later⟩ spares
    rw [befores, List.forall_mem_cons] at spares
    obtain ⟨l', decodes', fits', one⟩ := decodes.agrees_step fits agrees spares.1 load
    simp only [befores, List.forall_mem_cons, decodes.read fits, decodes'.read fits', ← one]
    exact and_congr_right fun agrees' => ih decodes' fits' agrees' later spares.2

/-- Along every run of segments that are loaded beside the count and the records, the loader and
the mapper agree after every segment exactly when every record of the run starts at a page, and
ends inside the address space. -/
theorem loader_agrees_iff (place : Place) (file : Addr) (s : Kernel) (run : List (Addr × Kernel))
    (first : segmentCount s.bytes place.info = 0)
    (table : segments s.bytes place.info = place.table)
    (isRun : IsRun place file s run)
    (spares : ∀ before ∈ befores s run, SparesAt place before.1 before.2) :
    (∀ step ∈ run, ∀ v, elfIsPageMapped step.2.bytes place.info v = true ↔
        WillMap (records step.2.bytes place.info) v) ↔
      ∀ before ∈ befores s run, StartsAtPage (records before.1.bytes place.info)
        (elfProgramHeader before.1.bytes before.2) := by
  have decodes : Decodes s.bytes place [] := ⟨first, table, fun i r at_ => by simp at at_⟩
  exact decodes.agrees_run (by decide) agrees_nil isRun spares

end

/-- A state before the first segment, whose program header is at `0x500040`. -/
def bssKernel (pVaddr pMemsz : Addr) : Kernel :=
  ⟨wordsAt ((0x700010, 0x701000) :: bssAt 0x500040 pVaddr pMemsz), 0, []⟩

section
variable {header : ElfProgramHeader} {s : Kernel} {pheader file a : Addr} {place : Place}

/-- The first segment of a program is loaded as it is. -/
theorem first_run (none : records s.bytes place.info = [])
    (nonempty : (elfProgramHeader s.bytes pheader).pMemsz ≠ 0) :
    IsRun place file s [(pheader, { s with
      bytes := loadRest place file s.pools s.bytes (elfProgramHeader s.bytes pheader)
      pools := s.pools + 1 })] := by
  have unmapped : elfIsPageMapped s.bytes place.info (elfProgramHeader s.bytes pheader).pVaddr
      = false := by
    rw [elfIsPageMapped, none, List.any_nil]
  refine ⟨⟨1, true, ?_⟩, trivial⟩
  rw [elfLoadSegment_eq nonempty, copyMapped_unmapped unmapped]
  rfl

/-- Without file data the loop stays at its first stop. -/
theorem bss_stop {y : Nat} (empty : header.pFilesz = 0) (stop : header.IsStop y) : y = 0 := by
  have le := stop.1
  rw [empty] at le
  exact Nat.le_zero.mp le

/-- And copies nothing. -/
theorem bss_copies (empty : header.pFilesz = 0) : ¬ Copies [] header a := by
  rintro ⟨y, reach, near⟩
  rw [bss_stop empty reach.stop] at near
  exact Nat.not_lt_zero _ near

/-- On the quiet machine the pools lie behind everything else. -/
theorem bss_fills (empty : header.pFilesz = 0)
    (low : 0x800000 ≤ (quietPlace.pool 0 + (header.pVaddr &&& 0xfff)).toNat)
    (high : (quietPlace.pool 0 + (header.pVaddr &&& 0xfff)).toNat + header.pMemsz.toNat ≤ 2 ^ 64)
    (fills : Fills quietPlace 0 [] header a) : 0x800000 ≤ a.toNat := by
  obtain ⟨x, leaves, -, near⟩ := fills
  rw [bss_stop empty leaves.stop, show BitVec.ofNat 64 0 = (0 : Addr) from rfl, advance_zero, empty,
    show (0 : Addr).toNat = 0 from rfl, Nat.max_zero, inRange_iff high] at near
  omega

/-- Where the loader's own memory is on the quiet machine. -/
theorem quiet_own (own : Own quietPlace 1 a) : 0x700008 ≤ a.toNat ∧ a.toNat < 0x701018 := by
  have info : InRange (quietPlace.info + 8) 16 a ↔
      0x700008 ≤ a.toNat ∧ a.toNat < 0x700018 := inRange_iff (by decide)
  have table : InRange quietPlace.table 24 a ↔
      0x701000 ≤ a.toNat ∧ a.toNat < 0x701018 := inRange_iff (by decide)
  have own : InRange (quietPlace.info + 8) 16 a ∨ InRange quietPlace.table 24 a := own
  rw [info, table] at own
  omega

/-- A first segment without file data spares the records there. -/
theorem bss_spares (empty : header.pFilesz = 0)
    (low : 0x800000 ≤ (quietPlace.pool 0 + (header.pVaddr &&& 0xfff)).toNat)
    (high : (quietPlace.pool 0 + (header.pVaddr &&& 0xfff)).toNat + header.pMemsz.toNat ≤ 2 ^ 64) :
    Spares quietPlace 0 [] header := by
  refine ⟨⟨by decide, fun a near other => ?_⟩, fun a copies => absurd copies (bss_copies empty),
    fun a fills own => ?_⟩
  · have table : 0x701000 ≤ a.toNat ∧ a.toNat < 0x701018 :=
      (@inRange_iff quietPlace.table a 24 (by decide)).mp near
    rw [inRange_iff (by decide), show (quietPlace.info + 8).toNat = 0x700008 from rfl] at other
    omega
  · have low := bss_fills empty low high fills
    have high := quiet_own own
    omega

end

/-- Two pages of zeros from a page on. -/
theorem loader_agrees_iff_page : ∃ s', IsRun quietPlace 0x500000 (bssKernel 0x400000 0x2000)
      [(0x500040, s')] ∧
    (elfIsPageMapped s'.bytes quietPlace.info 0x401000 = true ↔
      WillMap (records s'.bytes quietPlace.info) 0x401000) := by
  have read : elfProgramHeader (bssKernel 0x400000 0x2000).bytes 0x500040
      = ⟨elfSegmentLoad, 0, 0x400000, 0, 0x2000⟩ := by decide +kernel
  have first : segmentCount (bssKernel 0x400000 0x2000).bytes quietPlace.info = 0 := by
    decide +kernel
  have none : records (bssKernel 0x400000 0x2000).bytes quietPlace.info = [] := by
    rw [records, first]
    rfl
  have run := @first_run (bssKernel 0x400000 0x2000) 0x500040 0x500000 quietPlace none
    (by rw [read]; decide)
  have exact_ := loader_agrees_iff quietPlace 0x500000 _ _ first (by decide +kernel) run
    (fun before mem => by
      obtain rfl := List.mem_singleton.mp mem
      rw [SparesAt, none, read]
      exact fun _ => bss_spares rfl (by decide) (by decide))
  refine ⟨_, run, exact_.mpr ?_ _ (List.mem_singleton_self _) 0x401000⟩
  intro before mem
  obtain rfl := List.mem_singleton.mp mem
  rw [none, read]
  intro _ x leaves _
  obtain rfl : x = 0 := Nat.le_zero.mp leaves.stop.1
  right
  decide

/-- A segment that starts inside a page: the mapper will map the page from its start, and the
loader takes it for mapped from the segment on. -/
theorem loader_not_always_agrees : ¬ ∀ (place : Place) (file : Addr) (s : Kernel)
    (run : List (Addr × Kernel)), segmentCount s.bytes place.info = 0 →
      segments s.bytes place.info = place.table → IsRun place file s run →
      ∀ step ∈ run, ∀ v, elfIsPageMapped step.2.bytes place.info v = true ↔
        WillMap (records step.2.bytes place.info) v := by
  intro always
  have read : elfProgramHeader (bssKernel 0x400010 0x10).bytes 0x500040
      = ⟨elfSegmentLoad, 0, 0x400010, 0, 0x10⟩ := by decide +kernel
  have first : segmentCount (bssKernel 0x400010 0x10).bytes quietPlace.info = 0 := by
    decide +kernel
  have table : segments (bssKernel 0x400010 0x10).bytes quietPlace.info = quietPlace.table := by
    decide +kernel
  have none : records (bssKernel 0x400010 0x10).bytes quietPlace.info = [] := by
    rw [records, first]
    rfl
  have run := @first_run (bssKernel 0x400010 0x10) 0x500040 0x500000 quietPlace none
    (by rw [read]; decide)
  have agrees := always _ _ _ _ first table run _ (List.mem_singleton_self _) 0x400000
  -- the record that the run has made
  have decodes : Decodes (bssKernel 0x400010 0x10).bytes quietPlace [] :=
    ⟨first, table, fun i r at_ => by simp at at_⟩
  have spares : Spares quietPlace 0 [] ⟨elfSegmentLoad, 0, 0x400010, 0, 0x10⟩ :=
    bss_spares rfl (by decide) (by decide)
  have leaves : LeavesAt [] ⟨elfSegmentLoad, 0, 0x400010, 0, 0x10⟩ 0 :=
    ⟨⟨isStop_zero, fun y lt => absurd lt (Nat.not_lt_zero y)⟩, Or.inr rfl⟩
  obtain ⟨made, -⟩ := @Decodes.filled quietPlace 0x500000 0 _ _ _ decodes spares _ leaves
    (by decide)
  have made := made.read (by decide)
  rw [show BitVec.ofNat 64 0 = (0 : Addr) from rfl, advance_zero, ← read] at made
  have unmapped : Elf.elfIsPageMapped [record quietPlace 0 ⟨elfSegmentLoad, 0, 0x400010, 0, 0x10⟩ 0]
      0x400000 = false := by decide
  have page : WillMap [record quietPlace 0 ⟨elfSegmentLoad, 0, 0x400010, 0, 0x10⟩ 0] 0x400000 :=
    (willMap_singleton record_whole).mpr (by decide)
  have mapped := agrees.mpr (made.symm ▸ page)
  have same := congrArg (Elf.elfIsPageMapped · 0x400000) made
  exact Bool.false_ne_true (unmapped.symm.trans (same.symm.trans mapped))

end Skylight.ElfMemory
