import Skylight.Laws.Proc.Image
import Skylight.Laws.Proc.Walk

/-!
# The loader beside its file

The loader in the one memory does what the loader does whose file and records stand apart, run for
run and byte for byte, as long as none of its writes comes to the file, the count or the records.
What is proved of the one is then true of the other, the image of a program among it.

The law of one header is `Holds.step`; `headerLoop_beside` follows the walk by induction on its
rounds. The other direction is not claimed: what the loader does once it writes over its file is
said, where it is said at all, by `Laws.Proc.Loading` and `Laws.Proc.Walk`, in the one memory.
-/

namespace Skylight.ElfMemory

open Bytes Elf

/-- The state that a loader is in when all it has lies in the one memory. -/
def ofLoader (file : Addr) (l : Loader) : Kernel :=
  ⟨l.bytes, l.segments.length, l.examined.map (file + ·)⟩

/-- Memory holds the first `size` bytes of the file, and the records. -/
structure Holds (place : Place) (file : Addr) (size : Nat) (content : Memory) (l : Loader) :
    Prop where
  decodes : Decodes l.bytes place l.segments
  file : ∀ a, a.toNat < size → l.bytes (file + a) = content a

/-- The headers of a file and the data of its segments are in its first `size` bytes. -/
structure Inside (content : Memory) (size : Nat) : Prop where
  small : size ≤ 2 ^ 64
  header : 64 ≤ size
  headers : ∀ i < (elfHeader content).programTableEntries.toNat,
    (headerAt (elfHeader content) i).toNat + 48 ≤ size
  data : ∀ header ∈ headersFrom content 0 (elfHeader content).programTableEntries.toNat,
    header.type = elfSegmentLoad → header.pMemsz ≠ 0 →
      header.pOffset.toNat + header.pFilesz.toNat ≤ size

/-- Nothing the loader writes lies in the file's first `size` bytes, and no segment in the count
and the records. -/
structure Beside (place : Place) (file : Addr) (size : Nat) (m : Memory) : Prop where
  inside : Inside (image m file) size
  info : ∀ a, InRange place.info 24 a → ¬ InRange file size a
  walk : Undisturbed place (fun _ => InRange file size) [] (entriesFrom m file 0
    (elfHeader (image m file)).programTableEntries.toNat)

section
variable {place : Place} {file a : Addr} {size fuel rounds n i : Nat} {content m : Memory}
  {l : Loader} {header : ElfProgramHeader}

/-! ### One segment -/

/-- A copy, byte by byte. -/
theorem memcpy_bytes {offset : Addr} : (l.memcpy content a offset n).bytes =
    fun x => if InRange a n x then content (offset + (x - a)) else l.bytes x := rfl

/-- A copy of the file's data to a place beside it. -/
theorem memcpy_file {offset : Addr} (kept : ∀ a, a.toNat < size → m (file + a) = content a)
    (small : size ≤ 2 ^ 64) (inside : offset.toNat + n ≤ size)
    (beside : ∀ x, InRange a n x → ¬ InRange file size x) :
    memcpy m a (file + offset) n = fun x => if InRange a n x then content (offset + (x - a))
      else m x := by
  have source {d : Addr} (lt : d.toNat < n) : (offset + d).toNat < size := by
    rw [BitVec.toNat_add]
    omega
  rw [memcpy_apart (by omega)]
  · funext x
    split
    next near =>
      rw [BitVec.add_assoc]
      exact kept _ (source near)
    next => rfl
  · intro x near data
    apply beside x near
    have offset_lt := source data
    have place_ : file + (offset + (x - (file + offset))) = x := by
      rw [← BitVec.add_assoc, BitVec.add_comm, BitVec.sub_add_cancel]
    rw [← place_, InRange, add_sub_self]
    exact offset_lt

/-- Copying into mapped pages does the same. -/
theorem copyMapped_beside (small : size ≤ 2 ^ 64) : ∀ {fuel : Nat} {l : Loader}
    {header : ElfProgramHeader}, Holds place file size content l →
    24 * l.segments.length ≤ 2 ^ 64 → header.pMemsz ≠ 0 →
    header.pOffset.toNat + header.pFilesz.toNat ≤ size →
    (∀ a, Copies l.segments header a →
      ¬ Own place l.segments.length a ∧ ¬ InRange file size a) →
    copyMapped place.info file fuel l.bytes header =
      (Elf.copyMapped content fuel l header).map fun r => (r.1.bytes, r.2) := by
  intro fuel
  -- Both loops see the same records, since no round writes to them, and copy the same bytes.
  induction fuel with
  | zero =>
    intro l header _ _ _ _ _
    rfl
  | succ fuel ih =>
    intro l header holds fits nonempty inside beside
    have same : elfIsPageMapped l.bytes place.info header.pVaddr
        = Elf.elfIsPageMapped l.segments header.pVaddr :=
      congrArg (Elf.elfIsPageMapped · header.pVaddr) (holds.decodes.read fits)
    cases mapped : Elf.elfIsPageMapped l.segments header.pVaddr with
    | false =>
      rw [copyMapped_unmapped (same.trans mapped), Elf.copyMapped_unmapped mapped]
      rfl
    | true =>
      have follows := @Elf.copyMapped_follows content
      have filesz := @nextPageOffset_toNat header
      have onward (y : Nat) :=
        (@Follows.reaches_advance _ _ _ _ l header y follows nonempty mapped).mp
      have reach := onward 0 ⟨isStop_zero, fun y lt => absurd lt (Nat.not_lt_zero y)⟩
      rw [Nat.add_zero] at reach
      simp only [Loader.memcpy_segments] at onward
      rw [copyMapped, if_pos (same.trans mapped), Elf.copyMapped_succ mapped]
      generalize header.nextPageOffset = n at *
      have copied : memcpy l.bytes header.pVaddr (file + header.pOffset) n.toNat
          = (l.memcpy content header.pVaddr header.pOffset n.toNat).bytes := by
        rw [memcpy_bytes]
        exact memcpy_file holds.file small (by omega) fun x near => (beside x ⟨_, reach, near⟩).2
      have stays {x : Addr} (off : ¬ Copies l.segments header x) :
          (l.memcpy content header.pVaddr header.pOffset n.toNat).bytes x = l.bytes x := by
        rw [← copied]
        exact memcpy_of_not fun near => off ⟨_, reach, near⟩
      simp only
      rw [copied]
      split
      next => rfl
      next more =>
        refine @ih (l.memcpy content header.pVaddr header.pOffset n.toNat) (header.advance n)
          ⟨?_, fun a lt => ?_⟩ (by rwa [Loader.memcpy_segments]) more ?_ fun a copies => ?_
        · exact holds.decodes.congr fits fun x own => stays fun copies => (beside x copies).1 own
        · rw [← holds.file a lt]
          refine stays fun copies => (beside _ copies).2 ?_
          rw [InRange, add_sub_self]
          exact lt
        · show (header.pOffset + n).toNat + (header.pFilesz - n).toNat ≤ size
          rw [BitVec.toNat_add, BitVec.toNat_sub]
          have := header.pFilesz.isLt
          omega
        · obtain ⟨y, later, near⟩ := copies
          have later := onward y later
          have near : InRange (header.pVaddr + n) y a := near
          rw [show n = BitVec.ofNat 64 n.toNat by rw [BitVec.ofNat_toNat, BitVec.setWidth_eq]]
            at near
          have bound := later.stop.1
          have := header.pFilesz.isLt
          exact beside a ⟨_, later, near.within le_rfl (by omega)⟩

/-- What is left gets the same record and the same pool. -/
theorem loadRest_beside (holds : Holds place file size content l) (small : size ≤ 2 ^ 64)
    (spares : Spares place l.segments.length l.segments header) {x : Nat}
    (leaves : LeavesAt l.segments header x) (more : x ≠ header.pMemsz.toNat)
    (inside : header.pOffset.toNat + header.pFilesz.toNat ≤ size)
    (beside : ∀ a, Fills place l.segments.length l.segments header a ∨
      Own place (l.segments.length + 1) a → ¬ InRange file size a) :
    loadRest place file l.segments.length l.bytes (header.advance (BitVec.ofNat 64 x))
      = (Elf.loadRest content place l (header.advance (BitVec.ofNat 64 x))).bytes := by
  have added : addSegment l.bytes place.info ⟨(header.advance (BitVec.ofNat 64 x)).pVaddr,
        place.pool l.segments.length, (header.advance (BitVec.ofNat 64 x)).requiredPages * 0x1000⟩
      = (l.addSegment place (record place l.segments.length header x)).bytes := by
    rw [holds.decodes.addSegment_eq spares.room, BitVec.ofNat_mul,
      BitVec.ofNat_add l.segments.length 1]
    rfl
  have apart {n : Nat} {y : Addr} (le : n ≤ max (header.advance (BitVec.ofNat 64 x)).pMemsz.toNat
      (header.advance (BitVec.ofNat 64 x)).pFilesz.toNat)
      (near : InRange (place.pool l.segments.length
        + ((header.advance (BitVec.ofNat 64 x)).pVaddr &&& 0xfff)) n y) :
      ¬ InRange file size y :=
    beside y (Or.inl ⟨x, leaves, more, Nat.lt_of_lt_of_le near le⟩)
  have bound := leaves.stop.1
  have data : (header.advance (BitVec.ofNat 64 x)).pOffset.toNat
      + (header.advance (BitVec.ofNat 64 x)).pFilesz.toNat ≤ size := by
    show (header.pOffset + BitVec.ofNat 64 x).toNat + (header.pFilesz - BitVec.ofNat 64 x).toNat
      ≤ size
    rw [BitVec.toNat_add, BitVec.toNat_sub, BitVec.toNat_ofNat]
    have := header.pFilesz.isLt
    omega
  refine (@memcpy_file file _ size _ content _ _ (fun a lt => ?_) small data
    fun y near => apart (le_max_right ..) near).trans ?_
  · have here : InRange file size (file + a) := by
      rw [InRange, add_sub_self]
      exact lt
    have off : ¬ Own place (l.segments.length + 1) (file + a) := fun own =>
      beside _ (Or.inr own) here
    refine (memset_of_not fun near => apart (le_max_left ..) near here).trans ?_
    rw [holds.decodes.addSegment_of_not spares.room, holds.file a lt]
    · exact fun count => off (Or.inl (Nat.lt_of_lt_of_le count (by decide)))
    · exact fun slot => off (Or.inr (slot.within (by omega) spares.room.fits))
  · rw [added]
    rfl

/-- A segment is loaded the same. -/
theorem elfLoadSegment_beside {pheader : Addr} (holds : Holds place file size content l)
    (small : size ≤ 2 ^ 64) (read : elfProgramHeader l.bytes pheader = header)
    (inside : header.pMemsz ≠ 0 → header.pOffset.toNat + header.pFilesz.toNat ≤ size)
    (beside : header.pMemsz ≠ 0 → Spares place l.segments.length l.segments header ∧
      ∀ a, Copies l.segments header a ∨ Fills place l.segments.length l.segments header a ∨
        Own place (l.segments.length + 1) a → ¬ InRange file size a) :
    elfLoadSegment place file fuel (ofLoader file l) pheader =
      (Elf.elfLoadSegment content place fuel l header).map fun r => (r.1, ofLoader file r.2) := by
  have read : elfProgramHeader (ofLoader file l).bytes pheader = header := read
  by_cases empty : header.pMemsz = 0
  · rw [elfLoadSegment_empty (by rw [read]; exact empty), Elf.elfLoadSegment_empty empty]
    rfl
  obtain ⟨spares, missed⟩ := beside empty
  have fits : 24 * l.segments.length ≤ 2 ^ 64 := (spares.room.le (Nat.le_succ _)).fits
  have copies : copyMapped place.info file fuel (ofLoader file l).bytes header
      = (Elf.copyMapped content fuel l header).map fun r => (r.1.bytes, r.2) :=
    copyMapped_beside small holds fits empty (inside empty) fun a copied =>
      ⟨spares.copies a copied, missed a (Or.inl copied)⟩
  rw [elfLoadSegment_eq (by rw [read]; exact empty), Elf.elfLoadSegment_eq empty, read, copies]
  cases run : Elf.copyMapped content fuel l header with
  | none => rfl
  | some r =>
    obtain ⟨x, leaves, segments, examined, -, left⟩ := Elf.copyMapped_run empty run
    rw [run] at copies
    obtain ⟨-, -, decodes, kept, -⟩ := holds.decodes.copied spares empty copies
    obtain ⟨l', rest⟩ := r
    dsimp only at segments examined left decodes kept
    subst left
    simp only [Option.map_some]
    by_cases all : x = header.pMemsz.toNat
    · simp only [if_pos all, Option.elim_none, ofLoader, segments, examined]
    · simp only [if_neg all, Option.elim_some, ofLoader]
      rw [← segments] at decodes spares leaves missed
      have holds' : Holds place file size content l' := by
        refine ⟨decodes, fun a lt => (kept _ fun copied => ?_).trans (holds.file a lt)⟩
        refine missed _ (Or.inl (segments ▸ copied)) ?_
        rw [InRange, add_sub_self]
        exact lt
      have same := loadRest_beside holds' small spares leaves all (inside empty)
        fun a written => missed a (Or.inr written)
      rw [← segments, same, ← examined]
      simp only [Elf.loadRest, Loader.memcpy_segments, Loader.memset_segments,
        Loader.addSegment_segments, List.length_append, List.length_singleton,
        Loader.memcpy_examined, Loader.memset_examined, Loader.addSegment_examined]

/-! ### The walk -/

/-- The file is read the same where it lies. -/
theorem Holds.reads (holds : Holds place file size content l) (inside : Inside content size) :
    (elfHeader (image l.bytes file)).headerTable = (elfHeader content).headerTable ∧
    (elfHeader (image l.bytes file)).programTableEntrySize
      = (elfHeader content).programTableEntrySize ∧
    ∀ i < (elfHeader content).programTableEntries.toNat,
      elfProgramHeader l.bytes (file + headerAt (elfHeader content) i)
        = elfProgramHeader content (headerAt (elfHeader content) i) := by
  have small := inside.small
  have header := inside.header
  refine ⟨?_, ?_, fun i lt => ?_⟩
  · apply load_congr
    intro x near
    have le : (32 : Addr).toNat + 0 + 8 ≤ size := by
      show 32 + 0 + 8 ≤ size
      omega
    rw [← add_ofNat_zero (32 : Addr)] at near
    exact holds.file x (lt_of_inRange small near le)
  · refine congrArg (BitVec.ofNat 16) (loadBytes_congr fun i lt => holds.file _ ?_)
    have near : InRange (54 + BitVec.ofNat 64 0) 2 (54 + BitVec.ofNat 64 i) := by
      rw [add_ofNat_zero]
      exact inRange_add lt
    refine lt_of_inRange small near ?_
    show 54 + 0 + 2 ≤ size
    omega
  · rw [← elfProgramHeader_image]
    apply elfProgramHeader_congr
    intro a field
    exact holds.file a (field.lt small (inside.headers i lt))

/-- One header: what the loader whose file stands apart makes of it is what memory holds then. -/
theorem Holds.step {pheader : Addr} {later : List (Addr × ElfProgramHeader)} {l' : Loader}
    {loaded : Bool} (holds : Holds place file size content l) (small : size ≤ 2 ^ 64)
    (read : elfProgramHeader l.bytes pheader = header)
    (undisturbed : Undisturbed place (fun _ => InRange file size) l.segments
      ((pheader, header) :: later))
    (inside : header.type = elfSegmentLoad → header.pMemsz ≠ 0 →
      header.pOffset.toNat + header.pFilesz.toNat ≤ size)
    (step : (if header.type = elfSegmentLoad then Elf.elfLoadSegment content place fuel l header
      else some (true, l)) = some (loaded, l')) :
    loaded = true ∧ Holds place file size content l' ∧
      Undisturbed place (fun _ => InRange file size) l'.segments later := by
  obtain ⟨rfl, -, records⟩ := stepHeader step
  have records : recordsOf place l.segments [header] = l'.segments := records []
  refine ⟨rfl, ?_, records ▸ undisturbed.2⟩
  split at step
  next load =>
    have run := @elfLoadSegment_beside _ _ _ fuel _ _ _ _ holds small read (inside load)
      (undisturbed.1 load)
    rw [step] at run
    have spares : (elfProgramHeader (ofLoader file l).bytes pheader).pMemsz ≠ 0 →
        Spares place (ofLoader file l).pools l.segments
          (elfProgramHeader (ofLoader file l).bytes pheader) := by
      rw [show elfProgramHeader (ofLoader file l).bytes pheader = header from read]
      exact fun nonempty => (undisturbed.1 load nonempty).1
    obtain ⟨-, ⟨empty, same⟩ | ⟨nonempty, x, leaves, -, -, decodes, kept⟩⟩ :=
      holds.decodes.loaded (s := ofLoader file l) spares run
    · have bytes : l'.bytes = l.bytes := congrArg Kernel.bytes same
      rw [show elfProgramHeader (ofLoader file l).bytes pheader = header from read] at empty
      rw [recordsOf_other fun both => both.2 empty] at records
      exact ⟨records ▸ bytes ▸ holds.decodes, fun a lt => bytes ▸ holds.file a lt⟩
    · rw [show elfProgramHeader (ofLoader file l).bytes pheader = header from read]
        at nonempty leaves decodes kept
      rw [recordsOf_single load nonempty leaves] at records
      refine ⟨records ▸ decodes, fun a lt => ?_⟩
      have here : InRange file size (file + a) := by
        rw [InRange, add_sub_self]
        exact lt
      have missed := (undisturbed.1 load nonempty).2
      rw [← holds.file a lt]
      exact kept _ (fun copies => missed _ (Or.inl copies) here)
        (fun fills => missed _ (Or.inr (Or.inl fills)) here)
        fun own => missed _ (Or.inr (Or.inr own)) here
  next =>
    obtain rfl := (Prod.mk.inj (Option.some.inj step)).2
    exact holds

/-- The walk is the same: by induction on the headers, with `Holds.step` for each of them, the
loader with the file apart and the one with the file in memory come to the same end. -/
theorem headerLoop_beside {table : Addr} (inside : Inside content size)
    (ends : table.toNat ≤ (elfHeader content).programTableEntries.toNat
      * (elfHeader content).programTableEntrySize.toNat % 2 ^ 64) :
    ∀ {later : List (Addr × ElfProgramHeader)} {rounds i : Nat} {l : Loader},
      Holds place file size content l →
      Undisturbed place (fun _ => InRange file size) l.segments later →
      (∀ j e, later[j]? = some e → e = (file + headerAt (elfHeader content) (i + j),
        elfProgramHeader content (headerAt (elfHeader content) (i + j)))) →
      i + later.length = (elfHeader content).programTableEntries.toNat →
      headerLoop place file fuel table rounds (ofLoader file l)
          (file + headerAt (elfHeader content) i) =
        (Elf.headerLoop content place fuel table rounds l
          (headerAt (elfHeader content) i)).map (Option.map (ofLoader file)) := by
  have distance {l : Loader} (holds : Holds place file size content l) (i : Nat) :
      file + headerAt (elfHeader content) i
          - (file + (elfHeader (image (ofLoader file l).bytes file)).headerTable)
        = headerAt (elfHeader content) i - (elfHeader content).headerTable := by
    rw [show (elfHeader (image (ofLoader file l).bytes file)).headerTable
      = (elfHeader content).headerTable from (holds.reads inside).1, add_sub_add]
  -- where the one walk ends the other does
  have ended {rounds i : Nat} {l : Loader} (holds : Holds place file size content l)
      (ge : table ≤ headerAt (elfHeader content) i - (elfHeader content).headerTable) :
      headerLoop place file fuel table rounds (ofLoader file l)
          (file + headerAt (elfHeader content) i) =
        (Elf.headerLoop content place fuel table rounds l
          (headerAt (elfHeader content) i)).map (Option.map (ofLoader file)) := by
    cases rounds with
    | zero => rfl
    | succ rounds =>
      rw [headerLoop, if_pos (by rw [distance holds]; exact ge), Elf.headerLoop, if_pos ge]
      rfl
  intro later
  induction later with
  | nil =>
    intro rounds i l holds _ _ count
    apply ended holds
    rw [List.length_nil, Nat.add_zero] at count
    rw [BitVec.le_def, headerAt_sub, count]
    exact ends
  | cons e later ih =>
    intro rounds i l holds undisturbed at_ count
    by_cases lt : headerAt (elfHeader content) i - (elfHeader content).headerTable < table
    swap
    · exact ended holds (BitVec.not_lt.mp lt)
    cases rounds with
    | zero => rfl
    | succ rounds =>
      have here := at_ 0 e rfl
      subst here
      rw [List.length_cons] at count
      have read : elfProgramHeader l.bytes (file + headerAt (elfHeader content) i)
          = elfProgramHeader content (headerAt (elfHeader content) i) :=
        (holds.reads inside).2.2 i (by omega)
      have data : elfProgramHeader content (headerAt (elfHeader content) i) ∈
          headersFrom content 0 (elfHeader content).programTableEntries.toNat :=
        List.mem_map.mpr ⟨i, List.mem_range.mpr (by omega), by rw [Nat.zero_add]⟩
      have examined : ({ ofLoader file l with examined := (ofLoader file l).examined
          ++ [file + headerAt (elfHeader content) i] } : Kernel)
          = ofLoader file { l with examined :=
            l.examined ++ [headerAt (elfHeader content) i] } := by
        simp only [ofLoader, List.map_append, List.map_cons, List.map_nil]
      rw [headerLoop_more (by rw [distance holds]; exact lt), Elf.headerLoop_more lt, examined,
        show elfProgramHeader (ofLoader file l).bytes (file + headerAt (elfHeader content) i)
          = _ from read]
      generalize elfProgramHeader content (headerAt (elfHeader content) i) = h at *
      have holds' : Holds place file size content
          { l with examined := l.examined ++ [headerAt (elfHeader content) i] } :=
        ⟨holds.decodes, holds.file⟩
      have same : (if h.type = elfSegmentLoad then elfLoadSegment place file fuel
            (ofLoader file { l with examined := l.examined ++ [headerAt (elfHeader content) i] })
            (file + headerAt (elfHeader content) i)
          else some (true, ofLoader file
            { l with examined := l.examined ++ [headerAt (elfHeader content) i] })) =
          (if h.type = elfSegmentLoad then Elf.elfLoadSegment content place fuel
            { l with examined := l.examined ++ [headerAt (elfHeader content) i] } h
          else some (true, { l with examined :=
            l.examined ++ [headerAt (elfHeader content) i] })).map
            fun r => (r.1, ofLoader file r.2) := by
        split
        next load =>
          exact elfLoadSegment_beside holds' inside.small read (inside.data h data load)
            (undisturbed.1 load)
        next => rfl
      rw [same]
      cases step : (if h.type = elfSegmentLoad then Elf.elfLoadSegment content place fuel
          { l with examined := l.examined ++ [headerAt (elfHeader content) i] } h
        else some (true, { l with examined :=
          l.examined ++ [headerAt (elfHeader content) i] })) with
      | none => rfl
      | some r =>
        obtain ⟨loaded, l'⟩ := r
        obtain ⟨rfl, holds'', later'⟩ :=
          holds'.step inside.small read undisturbed (inside.data h data) step
        have size_ : (elfHeader (image (ofLoader file l').bytes file)).programTableEntrySize
            = (elfHeader content).programTableEntrySize := (holds''.reads inside).2.1
        simp only [Option.map_some, Option.bind_some, if_true, size_, BitVec.add_assoc,
          headerAt_succ]
        refine ih holds'' later' (fun j e mem => ?_) (by omega)
        rw [at_ (j + 1) e mem, Nat.add_comm j 1, ← Nat.add_assoc]

/-! ### The whole file -/

/-- Beside its file the loader in the one memory does what the loader does whose file stands apart:
it ends with the same answer, the same memory and the same records. -/
theorem elfLoadProgram_beside (beside : Beside place file size m)
    (counted : (elfHeader (image m file)).programTableEntrySize.toNat
      * (elfHeader (image m file)).programTableEntries.toNat < 2 ^ 31)
    (sized : (elfHeader (image m file)).programTableEntries.toNat = 0 ∨
      (elfHeader (image m file)).programTableEntrySize.toNat ≠ 0) :
    elfLoadProgram place file fuel m =
      (Elf.elfLoadProgram (image m file) place fuel m).map (Option.map (ofLoader file)) := by
  simp only [elfLoadProgram, Elf.elfLoadProgram]
  split_ifs
  · rfl
  · rfl
  · rfl
  · rfl
  have holds : Holds place file size (image m file)
      ((((⟨m, (elfHeader (image m file)).programEntry, [], [], []⟩ : Loader).store place.info
        (elfHeader (image m file)).programEntry).store (place.info + 8) 0).store (place.info + 16)
        place.table) := by
    refine ⟨stored_decodes, fun a lt => stored_of_not fun near => beside.info _ near ?_⟩
    rw [InRange, add_sub_self]
    exact lt
  have start := (holds.reads beside.inside).1
  have first : headerAt (elfHeader (image m file)) 0 = (elfHeader (image m file)).headerTable := by
    rw [headerAt, Nat.zero_mul, add_ofNat_zero]
  have ends : (headerTableSize (elfHeader (image m file))).toNat ≤
      (elfHeader (image m file)).programTableEntries.toNat
        * (elfHeader (image m file)).programTableEntrySize.toNat % 2 ^ 64 := by
    rw [headerTableSize_toNat]
    exact (table_below (elfHeader (image m file)).programTableEntrySize.isLt
      (elfHeader (image m file)).programTableEntries.isLt sized).2.mpr counted
  have walk := @headerLoop_beside place file size fuel _ _ beside.inside ends _ fuel 0 _ holds
    beside.walk
    (fun j e at_ => by
      rw [entriesFrom, List.getElem?_map] at at_
      obtain ⟨k, mem, rfl⟩ := Option.map_eq_some_iff.mp at_
      obtain ⟨lt, rfl⟩ := List.getElem?_eq_some_iff.mp mem
      rw [List.getElem_range, elfProgramHeader_image])
    (by rw [entriesFrom, List.length_map, List.length_range, Nat.zero_add])
  rw [first] at walk
  rw [show (elfHeader (image (store (store (store m place.info
    (elfHeader (image m file)).programEntry) (place.info + 8) 0) (place.info + 16) place.table)
      file)).headerTable = (elfHeader (image m file)).headerTable from start]
  exact walk

/-- In the one memory, too, a file whose segments lie apart has its image in the pools. -/
theorem image_in_memory (beside : Beside place file size m) (wf : WellFormed (image m file))
    (fresh : Fresh place (loads (image m file))) (plain : Plain (loads (image m file))) :
    ∃ enough, ∀ fuel, enough ≤ fuel → ∃ r,
      elfLoadProgram place file fuel m = some (some (ofLoader file r)) ∧
        Faithful (image m file) place r := by
  obtain ⟨enough, runs⟩ := @plain_faithful (image m file) m place wf fresh plain
  have counted : (elfHeader (image m file)).programTableEntrySize.toNat
      * (elfHeader (image m file)).programTableEntries.toNat < 2 ^ 31 := by
    have small := (elfHeader (image m file)).programTableEntries.isLt
    rw [wf.entrySize, show (56 : BitVec 16).toNat = 56 from rfl]
    omega
  have sized : (elfHeader (image m file)).programTableEntrySize.toNat ≠ 0 := by
    rw [wf.entrySize]
    decide
  refine ⟨enough, fun fuel le => ?_⟩
  obtain ⟨r, run, faithful⟩ := runs fuel le
  refine ⟨r, ?_, faithful⟩
  rw [elfLoadProgram_beside beside counted (Or.inr sized), run]
  rfl

end

end Skylight.ElfMemory
