import Skylight.Laws.Proc.AddressSpace
import Skylight.Laws.Proc.Stops

/-!
# Records of segments

What is left of a segment behind the stop its loop leaves at gets a record, and the record is read
in two ways: the loader takes it from the address it starts at, and the mapper from the page. The
two readings of a list of records stay the same just when each new record starts at a page. The
module also says what the loader over a file that stands apart makes of one segment.
-/

namespace Skylight.Elf

open Bytes

/-- The loop does not go on from the stop `x`, with the records `info`. -/
abbrev Leaves (info : List Paging.ElfLoadedPage) : ElfProgramHeader → Nat → Prop :=
  Exits fun _ => elfIsPageMapped info

/-- The stop the loop leaves at, with the records `info`. -/
abbrev LeavesAt (info : List Paging.ElfLoadedPage) : ElfProgramHeader → Nat → Prop :=
  ExitsAt fun _ => elfIsPageMapped info

section
variable {file : Memory} {place : Place} {fuel k n x y : Nat} {l l' : Loader}
  {header rest : ElfProgramHeader} {info : List Paging.ElfLoadedPage}

/-! ### The loop -/

/-- The loop with the records it does not change. -/
theorem copyMapped_eq : ∀ {fuel : Nat} {l : Loader} {header : ElfProgramHeader},
    copyMapped file fuel l header = copyLoop (fun l => elfIsPageMapped l.segments)
      (fun l header => l.memcpy file header.pVaddr header.pOffset header.nextPageOffset.toNat)
      fuel l header := by
  intro fuel
  induction fuel with
  | zero =>
    intro l header
    rfl
  | succ fuel ih =>
    intro l header
    simp only [copyMapped, copyLoop, ih]

/-- No round changes the records. -/
theorem copyMapped_follows : Follows (fun l : Loader => elfIsPageMapped l.segments)
    (fun l header => l.memcpy file header.pVaddr header.pOffset header.nextPageOffset.toNat)
    (fun l _ _ => elfIsPageMapped l.segments) := by
  refine ⟨fun _ _ _ => rfl, fun l header y v => ?_⟩
  rw [Loader.memcpy_segments]

/-- One round: the copy, and the rest of the header. -/
theorem copyMapped_succ (mapped : elfIsPageMapped l.segments header.pVaddr = true) :
    copyMapped file (fuel + 1) l header =
      if (header.advance header.nextPageOffset).pMemsz = 0
      then some (l.memcpy file header.pVaddr header.pOffset header.nextPageOffset.toNat, none)
      else copyMapped file fuel
        (l.memcpy file header.pVaddr header.pOffset header.nextPageOffset.toNat)
        (header.advance header.nextPageOffset) := by
  rw [copyMapped, if_pos mapped]

/-- Nothing is copied where nothing is mapped. -/
theorem copyMapped_unmapped (unmapped : elfIsPageMapped l.segments header.pVaddr = false) :
    copyMapped file (fuel + 1) l header = some (l, some header) := by
  rw [copyMapped, if_neg (by rw [unmapped]; exact Bool.false_ne_true)]

/-- At the end of the file data nothing moves any more. -/
theorem copyMapped_spins (empty : header.pFilesz = 0) (some_left : header.pMemsz ≠ 0) :
    ∀ {fuel : Nat} {l : Loader}, elfIsPageMapped l.segments header.pVaddr = true →
      copyMapped file fuel l header = none := by
  have none_copied : header.nextPageOffset = 0 := by
    apply BitVec.eq_of_toNat_eq
    rw [nextPageOffset_toNat, empty]
    exact Nat.min_eq_right (Nat.zero_le _)
  have stays : header.advance 0 = header := by
    simp [ElfProgramHeader.advance]
  intro fuel
  induction fuel with
  | zero =>
    intro l _
    rfl
  | succ fuel ih =>
    intro l mapped
    rw [copyMapped_succ mapped, none_copied, stays, if_neg some_left]
    exact ih mapped

/-- The loop leaves at a stop that is the first it can leave at, with what is behind it. -/
theorem copyMapped_run {r : Loader × Option ElfProgramHeader} (nonempty : header.pMemsz ≠ 0)
    (run : copyMapped file fuel l header = some r) :
    ∃ x, LeavesAt l.segments header x ∧ r.1.segments = l.segments ∧
      r.1.examined = l.examined ∧ (∃ w, r.1.written = l.written ++ w) ∧
      r.2 = if x = header.pMemsz.toNat then none
        else some (header.advance (BitVec.ofNat 64 x)) := by
  rw [copyMapped_eq] at run
  have rounds (l : Loader) (header : ElfProgramHeader) (t : Loader)
      (rest : t.segments = (l.memcpy file header.pVaddr header.pOffset
          header.nextPageOffset.toNat).segments ∧
        t.examined = (l.memcpy file header.pVaddr header.pOffset
          header.nextPageOffset.toNat).examined ∧
        ∃ w, t.written = (l.memcpy file header.pVaddr header.pOffset
          header.nextPageOffset.toNat).written ++ w) :
      t.segments = l.segments ∧ t.examined = l.examined ∧ ∃ w, t.written = l.written ++ w := by
    obtain ⟨segments, examined, w, written⟩ := rest
    rw [Loader.memcpy_segments] at segments
    rw [Loader.memcpy_examined] at examined
    rw [Loader.memcpy_written, List.append_assoc] at written
    exact ⟨segments, examined, _, written⟩
  obtain ⟨x, at_, ⟨segments, examined, written⟩, left⟩ := copyMapped_follows.run
    (fun l _ _ t => t.segments = l.segments ∧ t.examined = l.examined ∧
      ∃ w, t.written = l.written ++ w)
    (fun l _ => ⟨rfl, rfl, [], by simp⟩) (fun l header _ t => rounds l header t) nonempty run
  exact ⟨x, at_, segments, examined, written, left⟩

/-! ### The whole segment -/

/-- What `elf_load_segment` does with what the loop leaves: a record and a pool for it. -/
def loadRest (file : Memory) (place : Place) (l : Loader) (header : ElfProgramHeader) : Loader :=
  ((l.addSegment place ⟨header.pVaddr, place.pool l.segments.length,
    header.requiredPages * 0x1000⟩).memset
      (place.pool l.segments.length + (header.pVaddr &&& 0xfff)) header.pMemsz.toNat).memcpy file
        (place.pool l.segments.length + (header.pVaddr &&& 0xfff)) header.pOffset
        header.pFilesz.toNat

/-- An empty segment is not loaded. -/
theorem elfLoadSegment_empty (empty : header.pMemsz = 0) :
    elfLoadSegment file place fuel l header = some (true, l) := by
  rw [elfLoadSegment, if_pos empty]
  rfl

/-- A segment is what the loop leaves of it, with a record and a pool for that. -/
theorem elfLoadSegment_eq (nonempty : header.pMemsz ≠ 0) :
    elfLoadSegment file place fuel l header = (copyMapped file fuel l header).map fun r =>
      (true, r.2.elim r.1 (loadRest file place r.1)) := by
  rw [elfLoadSegment, if_neg nonempty]
  cases copyMapped file fuel l header with
  | none => rfl
  | some r =>
    obtain ⟨l', _ | rest⟩ := r
    · rfl
    · rfl

end

/-! ## What the loader and the mapper take for mapped -/

/-- The record for what is left of a header behind its first `x` bytes. -/
def record (place : Place) (k : Nat) (header : ElfProgramHeader) (x : Nat) :
    Paging.ElfLoadedPage :=
  ⟨(header.advance (BitVec.ofNat 64 x)).pVaddr, place.pool k,
    (header.advance (BitVec.ofNat 64 x)).requiredPages * 0x1000⟩

/-- `task_new_page_table` will map the page of `v` for one of the records. -/
def WillMap (info : List Paging.ElfLoadedPage) (v : Addr) : Prop :=
  ∃ r ∈ Paging.segmentRequests info, r.virt = v &&& ~~~0xfff

/-- The loader and the mapper agree on what is mapped. -/
def Agrees (info : List Paging.ElfLoadedPage) : Prop :=
  ∀ v, elfIsPageMapped info v = true ↔ WillMap info v

/-- The record of a header, if it gets one, starts at a page and ends inside the address space,
or has no pages. -/
def StartsAtPage (info : List Paging.ElfLoadedPage) (header : ElfProgramHeader) : Prop :=
  header.pMemsz ≠ 0 → ∀ x, LeavesAt info header x → x ≠ header.pMemsz.toNat →
    (header.advance (BitVec.ofNat 64 x)).requiredPages * 0x1000 = 0 ∨
      (header.pVaddr.toNat + x) % 0x1000 = 0 ∧
        (header.pVaddr + BitVec.ofNat 64 x).toNat
          + ((header.advance (BitVec.ofNat 64 x)).requiredPages * 0x1000).toNat < 2 ^ 64

section
variable {file : Memory} {place : Place} {fuel k n x y : Nat} {l l' : Loader} {loaded : Bool}
  {header rest : ElfProgramHeader} {info : List Paging.ElfLoadedPage} {v a : Addr}
  {s : Paging.ElfLoadedPage}

/-- A segment adds its record, or none when it is empty or copied as a whole. -/
theorem elfLoadSegment_run (run : elfLoadSegment file place fuel l header = some (loaded, l')) :
    loaded = true ∧ ((header.pMemsz = 0 ∧ l' = l) ∨ header.pMemsz ≠ 0 ∧
      ∃ x, LeavesAt l.segments header x ∧ l'.examined = l.examined ∧
        l'.segments = if x = header.pMemsz.toNat then l.segments
          else l.segments ++ [record place l.segments.length header x]) := by
  by_cases empty : header.pMemsz = 0
  · rw [elfLoadSegment_empty empty, Option.some.injEq, Prod.mk.injEq] at run
    exact ⟨run.1.symm, Or.inl ⟨empty, run.2.symm⟩⟩
  · rw [elfLoadSegment_eq empty, Option.map_eq_some_iff] at run
    obtain ⟨⟨t, rest⟩, copied, out⟩ := run
    rw [Prod.mk.injEq] at out
    obtain ⟨rfl, rfl⟩ := out
    obtain ⟨x, at_, segments, examined, -, left⟩ := copyMapped_run empty copied
    refine ⟨rfl, Or.inr ⟨empty, x, at_, ?_⟩⟩
    dsimp only at segments examined left
    subst left
    split
    next all => exact ⟨examined, segments⟩
    next more =>
      simp only [Option.elim, loadRest, Loader.memcpy_segments, Loader.memset_segments,
        Loader.addSegment_segments, Loader.memcpy_examined, Loader.memset_examined,
        Loader.addSegment_examined, segments, examined, true_and]
      rfl

/-- The page of an address, in numbers. -/
theorem page_toNat (a : Addr) : (a &&& ~~~0xfff).toNat = a.toNat - a.toNat % 0x1000 := by
  have bits : ∀ i < 64, (~~~0xfff : Addr).getLsbD i = decide (12 ≤ i) := by decide
  have shifted : a &&& (~~~0xfff : Addr) = (a >>> 12) <<< 12 := by
    apply BitVec.eq_of_getLsbD_eq
    intro i lt
    rw [BitVec.getLsbD_and, bits i lt, BitVec.getLsbD_shiftLeft, BitVec.getLsbD_ushiftRight]
    by_cases h : 12 ≤ i
    · simp [h, lt, Nat.not_lt_of_le h]
    · simp [h, Nat.lt_of_not_le h]
  have small := a.isLt
  rw [shifted, BitVec.toNat_shiftLeft, BitVec.toNat_ushiftRight, Nat.shiftLeft_eq,
    Nat.shiftRight_eq_div_pow]
  omega

/-- The page of a page is itself. -/
theorem page_page (a : Addr) : (a &&& ~~~0xfff) &&& ~~~0xfff = a &&& ~~~0xfff := by
  rw [BitVec.and_assoc, BitVec.and_self]

/-- The pages of a record are a range from its page on. -/
theorem willMap_singleton (whole : s.length.toNat % 0x1000 = 0) :
    WillMap [s] v ↔ InRange (s.loadedAt &&& ~~~0xfff) s.length.toNat v := by
  have page := page_toNat s.loadedAt
  have vpage := page_toNat v
  have small := s.length.isLt
  have vsmall := v.isLt
  have asmall := s.loadedAt.isLt
  have count : Paging.rounds 0 s.length = s.length.toNat / 0x1000 := by
    rw [Paging.rounds, show (0 : Addr).toNat = 0 from rfl]
    omega
  simp only [WillMap, Paging.segmentRequests, List.flatMap_cons, List.flatMap_nil,
    List.append_nil, List.mem_map, exists_exists_and_eq_and, Paging.pagesBetween, List.mem_range,
    count, Paging.ElfLoadedPage.request, InRange]
  constructor
  · rintro ⟨i, lt, here⟩
    have place := congrArg BitVec.toNat here
    rw [BitVec.toNat_add, BitVec.toNat_add, BitVec.toNat_ofNat, page, vpage,
      show (0 : Addr).toNat = 0 from rfl] at place
    rw [BitVec.toNat_sub, page]
    omega
  · intro inside
    rw [BitVec.toNat_sub, page] at inside
    refine ⟨(v - (s.loadedAt &&& ~~~0xfff)).toNat / 0x1000, ?_, ?_⟩
    · rw [BitVec.toNat_sub, page]
      omega
    · apply BitVec.eq_of_toNat_eq
      rw [BitVec.toNat_add, BitVec.toNat_add, BitVec.toNat_ofNat, page, vpage,
        show (0 : Addr).toNat = 0 from rfl, BitVec.toNat_sub, page]
      omega

/-- A page is mapped for one list of records or for the other. -/
theorem willMap_append {info' : List Paging.ElfLoadedPage} :
    WillMap (info ++ info') v ↔ WillMap info v ∨ WillMap info' v := by
  simp only [WillMap, Paging.segmentRequests, List.flatMap_append, List.mem_append, or_and_right,
    exists_or]

/-- Whether an address is mapped hangs on its page. -/
theorem willMap_page : WillMap info (v &&& ~~~0xfff) ↔ WillMap info v := by
  simp only [WillMap, page_page]

/-- And taken for mapped for one or the other. -/
theorem elfIsPageMapped_append {info' : List Paging.ElfLoadedPage} :
    elfIsPageMapped (info ++ info') v = true ↔
      elfIsPageMapped info v = true ∨ elfIsPageMapped info' v = true := by
  rw [elfIsPageMapped, List.any_append, Bool.or_eq_true]
  rfl

/-- One record covers what is between its two ends. -/
theorem elfIsPageMapped_singleton : elfIsPageMapped [s] v = true ↔
    s.loadedAt.toNat ≤ v.toNat ∧ v.toNat < (s.loadedAt + s.length).toNat := by
  simp only [elfIsPageMapped, List.any_cons, List.any_nil, Bool.or_false, decide_eq_true_eq,
    gt_iff_lt, BitVec.le_def, BitVec.lt_def]

/-- A record more, from an address that was not mapped on: the two readings agree when it starts
at a page and does not go round. -/
theorem agrees_append (agrees : Agrees info) (unmapped : elfIsPageMapped info s.loadedAt = false)
    (whole : s.length.toNat % 0x1000 = 0) : Agrees (info ++ [s]) ↔
      s.length = 0 ∨ s.loadedAt.toNat % 0x1000 = 0 ∧
        s.loadedAt.toNat + s.length.toNat < 2 ^ 64 := by
  have page := page_toNat s.loadedAt
  have small := s.loadedAt.isLt
  constructor
  · intro both
    by_cases empty : s.length = 0
    · exact Or.inl empty
    have pos : 0 < s.length.toNat := Nat.pos_of_ne_zero fun e =>
      empty (BitVec.eq_of_toNat_eq e)
    have here : WillMap (info ++ [s]) (s.loadedAt &&& ~~~0xfff) := by
      rw [willMap_append, willMap_singleton whole]
      right
      rw [InRange, BitVec.sub_self]
      exact pos
    rcases elfIsPageMapped_append.mp ((both _).mpr here) with before | new
    · -- the page was mapped before, and so was the address in it
      rw [agrees, willMap_page, ← agrees, unmapped] at before
      simp at before
    · rw [elfIsPageMapped_singleton, page, BitVec.toNat_add] at new
      right
      omega
  · intro fits v
    rw [elfIsPageMapped_append, willMap_append, agrees v, willMap_singleton whole,
      elfIsPageMapped_singleton]
    apply or_congr_right
    rcases fits with empty | ⟨aligned, fits⟩
    · rw [empty, show s.loadedAt + 0 = s.loadedAt from BitVec.add_zero _, InRange,
        show (0 : Addr).toNat = 0 from rfl]
      omega
    · have same : s.loadedAt &&& ~~~0xfff = s.loadedAt := by
        apply BitVec.eq_of_toNat_eq
        omega
      rw [same, inRange_iff (Nat.le_of_lt fits), BitVec.toNat_add, Nat.mod_eq_of_lt fits]

/-- Records are of whole pages. -/
theorem record_whole : (record place k header x).length.toNat % 0x1000 = 0 := by
  rw [record, BitVec.toNat_mul, show (0x1000 : Addr).toNat = 0x1000 from rfl]
  omega

/-- One segment: the two readings still agree exactly when its record starts at a page. -/
theorem agrees_next (agrees : Agrees info) (nonempty : header.pMemsz ≠ 0)
    (at_ : LeavesAt info header x) :
    Agrees (if x = header.pMemsz.toNat then info else info ++ [record place k header x]) ↔
      StartsAtPage info header := by
  by_cases all : x = header.pMemsz.toNat
  · rw [if_pos all]
    refine ⟨fun _ _ y at_' more => absurd (at_'.unique at_ ▸ all) more, fun _ => agrees⟩
  · have unmapped : elfIsPageMapped info (record place k header x).loadedAt = false :=
      at_.leaves.resolve_left all
    have place_ : (header.pVaddr.toNat + x) % 0x1000
        = (header.pVaddr + BitVec.ofNat 64 x).toNat % 0x1000 := by
      rw [BitVec.toNat_add, BitVec.toNat_ofNat]
      omega
    rw [if_neg all, agrees_append agrees unmapped record_whole]
    constructor
    · intro fits _ y at_' _
      obtain rfl := at_'.unique at_
      rw [place_]
      exact fits
    · intro starts
      have fits := starts nonempty x at_ all
      rw [place_] at fits
      exact fits

/-- Without records nothing is mapped. -/
theorem agrees_nil : Agrees [] := by
  intro v
  simp [elfIsPageMapped, WillMap, Paging.segmentRequests]

end

/-- Allocators on a quiet machine. -/
def quietPlace : Place := ⟨0x700000, 0x701000, fun k => 0x800000 + 0x100000 * BitVec.ofNat 64 k⟩

end Skylight.Elf
