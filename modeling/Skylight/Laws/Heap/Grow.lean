import Skylight.Laws.Heap.Obtain

/-!
# A longer heap

`heap_expand` puts a segment behind the last one, on whole pages, and joins it with the last one
if that is free (`Tiled.expand`). `heap_initialize` makes the first segment
(`initialize_tiled`).

Both map pages with `paging_map_page` before they write headers; what that does to the tables is
left open here, since no header is read from a table. The lengths are taken to be small enough
that the heap ends below `2 ^ 64`; a length that is rounded to nothing is the subject of
`Laws.Heap.Sizes`, and a frame that is missing that of `Laws.Heap.Exhaustion`.
-/

namespace Skylight.Heap

open Bytes

/-- A length in whole pages. -/
def wholePages (n : Nat) : Nat := (n + 0xfff) / 0x1000 * 0x1000

/-- The writes of `heap_expand`. -/
def writeSegment (h : Heap) (newSegment length : Addr) : Heap :=
  let h := h.setFree newSegment true
  let h := h.setLast newSegment h.lastHeader
  let h := h.setNext h.lastHeader newSegment
  let h := { h with lastHeader := newSegment }
  let h := h.setNext newSegment 0
  h.setLength newSegment length

section
variable {h h' : Heap} {g : Nat → Addr} {fuel a l p n m : Nat} {s t : Segment}
  {pre post segs : List Segment} {w x y v : Addr}

/-! ### Pages -/

/-- Mapping a page is a matter of the tables alone. -/
theorem mapPage_heap (run : h.mapPage g fuel y = some h') :
    ∃ tables, h' = { h with tables := tables } := by
  rw [mapPage] at run
  obtain ⟨r, -, rfl⟩ := Option.map_eq_some_iff.mp run
  exact ⟨r.2, rfl⟩

/-- And so is mapping several of them. -/
theorem mapPages_heap : ∀ {n : Nat} {h h' : Heap} {y : Addr}, mapPages g fuel n h y = some h' →
    ∃ tables, h' = { h with tables := tables } := by
  intro n
  induction n with
  | zero =>
    intro h h' y run
    cases run
    exact ⟨h.tables, rfl⟩
  | succ n ih =>
    intro h h' y run
    obtain ⟨h₁, first, rest⟩ := Option.bind_eq_some_iff.mp run
    obtain ⟨t₁, rfl⟩ := mapPage_heap first
    obtain ⟨t₂, rfl⟩ := ih rest
    exact ⟨t₂, rfl⟩

/-- The loop of `heap_expand` moves the end of the heap page by page. -/
theorem growPages_heap : ∀ {n : Nat} {h h' : Heap}, growPages g fuel n h = some h' →
    ∃ tables, h' = { h with
      heapEnd := h.heapEnd + BitVec.ofNat 64 (0x1000 * n), tables := tables } := by
  intro n
  induction n with
  | zero =>
    intro h h' run
    cases run
    refine ⟨h.tables, ?_⟩
    rw [show h.heapEnd + BitVec.ofNat 64 (0x1000 * 0) = h.heapEnd from BitVec.add_zero _]
  | succ n ih =>
    intro h h' run
    obtain ⟨h₁, first, rest⟩ := Option.bind_eq_some_iff.mp run
    obtain ⟨t₁, rfl⟩ := mapPage_heap first
    obtain ⟨t₂, rfl⟩ := ih rest
    have sum : h.heapEnd + BitVec.ofNat 64 (0x1000 * (n + 1)) =
        h.heapEnd + 0x1000 + BitVec.ofNat 64 (0x1000 * n) := by
      rw [Nat.mul_succ, Nat.add_comm (0x1000 * n), BitVec.ofNat_add, ← BitVec.add_assoc]
      rfl
    refine ⟨t₂, ?_⟩
    rw [sum]

/-! ### A segment behind the last -/

/-- The header of the new segment. -/
theorem writeSegment_new (far : Far h.lastHeader y) :
    (h.writeSegment y v).header y = ⟨v, 0, h.lastHeader, true⟩ := by
  rw [writeSegment]
  rw [header_setLength, header_setNext]
  show Header.mk v 0 (((h.setFree y true).setLast y h.lastHeader).setNext h.lastHeader y
    |>.header y).last (((h.setFree y true).setLast y h.lastHeader).setNext h.lastHeader y
    |>.header y).free = _
  rw [header_setNext_far far, header_setLast, header_setFree]

/-- The segment that was the last leads to it. -/
theorem writeSegment_last (far : Far h.lastHeader y) :
    (h.writeSegment y v).header h.lastHeader = { h.header h.lastHeader with next := y } := by
  rw [writeSegment]
  rw [header_setLength_far far.symm, header_setNext_far far.symm]
  show (((h.setFree y true).setLast y h.lastHeader).setNext h.lastHeader y).header h.lastHeader = _
  rw [header_setNext, header_setLast_far far.symm, header_setFree_far far.symm]

/-- The headers of the others are as before. -/
theorem writeSegment_far (far : Far y w) (far' : Far h.lastHeader w) :
    (h.writeSegment y v).header w = h.header w := by
  rw [writeSegment]
  rw [header_setLength_far far, header_setNext_far far]
  show (((h.setFree y true).setLast y h.lastHeader).setNext h.lastHeader y).header w = _
  rw [header_setNext_far far', header_setLast_far far, header_setFree_far far]

/-- No byte outside the two headers changes. -/
theorem writeSegment_mem (off : ¬ InRange y 32 x) (off' : ¬ InRange h.lastHeader 32 x) :
    (h.writeSegment y v).mem x = h.mem x := by
  rw [writeSegment]
  rw [setLength_mem off, setNext_mem off]
  show (((h.setFree y true).setLast y h.lastHeader).setNext h.lastHeader y).mem x = _
  rw [setNext_mem off', setLast_mem off, setFree_mem off]

/-- The headers after `heap_expand` wrote: the last one leads to the new one, the others are as they
were. -/
theorem Tiled.writeSegment_linked (tiled : Tiled h segs) (room : h.heapEnd.toNat + 32 ≤ 2 ^ 64) :
    Linked (h.writeSegment h.heapEnd v).header h.heapEnd.toNat 0 h.heapStart.toNat segs ∧
      (h.writeSegment h.heapEnd v).header h.heapEnd = ⟨v, 0, h.lastHeader, true⟩ := by
  obtain ⟨pre, s, rfl⟩ := (List.eq_nil_or_concat' segs).resolve_left tiled.nonempty
  obtain ⟨pos, low, high, -⟩ := tiled.bounds rfl
  have place : h.lastHeader = BitVec.ofNat 64 (fin h.heapStart.toNat pre) :=
    (tiled.lastHeader_iff rfl).mpr rfl
  have stop : fin h.heapStart.toNat pre + 32 + s.length = h.heapEnd.toNat := by
    rw [← tiled.ends, fin_append]
    rfl
  have value : h.heapEnd = BitVec.ofNat 64 (fin h.heapStart.toNat pre + 32 + s.length) := by
    rw [stop, BitVec.ofNat_toNat, BitVec.setWidth_eq]
  have far : Far h.lastHeader h.heapEnd := by
    rw [place, value]
    exact far_ofNat (by omega) (by omega)
  obtain ⟨left, here, -⟩ := linked_append.mp tiled.linked
  refine ⟨linked_append.mpr ⟨?_, ?_, trivial⟩, writeSegment_new far⟩
  · apply left.congr
    intro b _ le
    have near : Far (BitVec.ofNat 64 (fin h.heapStart.toNat pre)) (BitVec.ofNat 64 b) :=
      (far_ofNat le (by omega)).symm
    rw [writeSegment_far _ (place ▸ near)]
    rw [value]
    exact (far_ofNat (by omega) (by omega)).symm
  · rw [← place, writeSegment_last far, place, here]
    show Header.mk _ h.heapEnd _ _ = Header.mk _ (BitVec.ofNat 64 h.heapEnd.toNat) _ _
    rw [BitVec.ofNat_toNat, BitVec.setWidth_eq]

/-- The list with a segment more. -/
theorem Tiled.append (tiled : Tiled h segs) (start : h'.heapStart = h.heapStart)
    (ends : h'.heapEnd.toNat = h.heapEnd.toNat + 32 + m)
    (memory : h'.mem = (h.writeSegment h.heapEnd (BitVec.ofNat 64 m)).mem)
    (last : h'.lastHeader = h.heapEnd) (some : 0 < m) (even : m % 16 = 0) :
    Tiled h' (segs ++ [⟨m, true⟩]) ∧ ∀ x, h'.mem x ≠ h.mem x →
      InRange h.heapEnd 32 x ∨ InRange h.lastHeader 32 x := by
  have small := h'.heapEnd.isLt
  have header (w : Addr) :
      h'.header w = (h.writeSegment h.heapEnd (BitVec.ofNat 64 m)).header w :=
    header_congr fun x _ => congrFun memory x
  obtain ⟨linked, here⟩ := @Tiled.writeSegment_linked h _ (BitVec.ofNat 64 m) tiled (by omega)
  have before : BitVec.ofNat 64 (lastOf 0 h.heapStart.toNat segs) = h.lastHeader := by
    rw [tiled.last, BitVec.ofNat_toNat, BitVec.setWidth_eq]
  constructor
  · constructor
    · exact List.append_ne_nil_of_right_ne_nil _ (List.cons_ne_nil _ _)
    · rw [start, linked_append, tiled.ends]
      refine ⟨linked.congr_headers fun b _ => header _, ?_, trivial⟩
      rw [BitVec.ofNat_toNat, BitVec.setWidth_eq, header, here, before]
      rfl
    · rw [start, ends, fin_append, tiled.ends]
      rfl
    · rw [start, lastOf_append, last, tiled.ends]
      rfl
    · rw [start]
      exact tiled.start
    · intro t mem
      rcases List.mem_append.mp mem with mem | mem
      · exact tiled.lengths t mem
      · rw [List.mem_singleton.mp mem]
        exact ⟨some, even⟩
  · intro x changed
    by_contra off
    rw [not_or] at off
    apply changed
    rw [memory, writeSegment_mem off.1 off.2]

/-! ### `heap_expand` -/

/-- A length in whole pages is the least multiple of a page that is not below it. -/
theorem wholePages_bounds (n : Nat) : n ≤ wholePages n ∧ wholePages n < n + 4096 ∧
    wholePages n % 4096 = 0 := by
  rw [wholePages]
  omega

/-- The rounding of `heap_expand`. -/
theorem expand_length (less : n + 4096 ≤ 2 ^ 64) :
    (if BitVec.ofNat 64 n % 0x1000 ≠ 0 then
      BitVec.ofNat 64 n - BitVec.ofNat 64 n % 0x1000 + 0x1000 else BitVec.ofNat 64 n) =
      BitVec.ofNat 64 (wholePages n) := by
  have value : (BitVec.ofNat 64 n).toNat = n := by
    rw [BitVec.toNat_ofNat]
    omega
  have rem : (BitVec.ofNat 64 n % 0x1000).toNat = n % 4096 := by
    rw [BitVec.toNat_umod, value]
    rfl
  split
  · next some =>
    have odd : n % 4096 ≠ 0 := by
      intro zero
      apply some
      apply BitVec.eq_of_toNat_eq
      rw [rem, zero]
      rfl
    apply BitVec.eq_of_toNat_eq
    rw [BitVec.toNat_add, BitVec.toNat_sub, rem, value, BitVec.toNat_ofNat, wholePages,
      show (0x1000 : Addr).toNat = 4096 from rfl]
    omega
  · next none =>
    have zero : n % 4096 = 0 := by
      rw [← rem, Decidable.not_not.mp none]
      rfl
    congr 1
    rw [wholePages]
    omega

/-- What is written depends on the memory and on the last header only. -/
theorem writeSegment_congr {h₀ : Heap} (memory : h₀.mem = h.mem)
    (last : h₀.lastHeader = h.lastHeader) :
    (h₀.writeSegment y v).mem = (h.writeSegment y v).mem := by
  cases h₀
  cases h
  subst memory
  subst last
  rfl

/-- `heap_expand` up to its last step. -/
theorem expand_steps (less : n + 4096 ≤ 2 ^ 64)
    (run : h.heapExpand g fuel (BitVec.ofNat 64 n) = some h') :
    ∃ h₁ : Heap, h' = h₁.headerCombineBackward h.heapEnd ∧ h₁.heapStart = h.heapStart ∧
      h₁.heapEnd = h.heapEnd + BitVec.ofNat 64 (wholePages n) ∧
      h₁.mem = (h.writeSegment h.heapEnd (BitVec.ofNat 64 (wholePages n) - headerSize)).mem ∧
      h₁.lastHeader = h.heapEnd ∧ h₁.heapInitialized = h.heapInitialized := by
  rw [heapExpand] at run
  simp only [expand_length less] at run
  obtain ⟨h₀, grown, rest⟩ := Option.bind_eq_some_iff.mp run
  have pages : 0x1000 * (BitVec.ofNat 64 (wholePages n) / 0x1000).toNat = wholePages n := by
    have bounds := wholePages_bounds n
    rw [BitVec.toNat_udiv, BitVec.toNat_ofNat, show (0x1000 : Addr).toNat = 4096 from rfl]
    omega
  have memory : h₀.mem = h.mem ∧ h₀.lastHeader = h.lastHeader ∧ h₀.heapStart = h.heapStart ∧
      h₀.heapEnd = h.heapEnd + BitVec.ofNat 64 (wholePages n) ∧
      h₀.heapInitialized = h.heapInitialized := by
    obtain ⟨tables, rfl⟩ := growPages_heap grown
    rw [pages]
    exact ⟨rfl, rfl, rfl, rfl, rfl⟩
  obtain ⟨memory, last, start, ends, init⟩ := memory
  refine ⟨h₀.writeSegment h.heapEnd (BitVec.ofNat 64 (wholePages n) - headerSize),
    (Option.some.inj rest).symm, start, ends, writeSegment_congr memory last, rfl, init⟩

/-- `heap_expand` puts a free segment of whole pages behind the others, joined with the last one
where that is free. No block moves and no byte of one changes. -/
theorem Tiled.expand (tiled : Tiled h segs) (pos : 0 < n)
    (room : h.heapEnd.toNat + wholePages n < 2 ^ 64)
    (run : h.heapExpand g fuel (BitVec.ofNat 64 n) = some h') :
    Tiled h' (joinBack segs [⟨wholePages n - 32, true⟩]) ∧
      Touches h h' (blocks h.heapStart.toNat segs) ∧ h'.heapStart = h.heapStart ∧
      h'.heapEnd.toNat = h.heapEnd.toNat + wholePages n ∧
      h'.heapInitialized = h.heapInitialized := by
  obtain ⟨le, lt, whole⟩ := wholePages_bounds n
  obtain ⟨h₁, eq, start, grown, memory, last, init⟩ := expand_steps (n := n) (by omega) run
  rw [eq]
  have length : BitVec.ofNat 64 (wholePages n) - headerSize = BitVec.ofNat 64
      (wholePages n - 32) := by
    apply BitVec.eq_of_toNat_eq
    rw [headerSize, BitVec.toNat_sub, BitVec.toNat_ofNat, BitVec.toNat_ofNat,
      show (32 : Addr).toNat = 32 from rfl]
    omega
  rw [length] at memory
  have ends : h₁.heapEnd.toNat = h.heapEnd.toNat + wholePages n := by
    rw [grown, BitVec.toNat_add, BitVec.toNat_ofNat]
    omega
  obtain ⟨more, writes⟩ :=
    tiled.append start (by rw [ends]; omega) memory last (by omega) (by omega)
  have place : fin h₁.heapStart.toNat segs = h.heapEnd.toNat := by
    rw [start]
    exact tiled.ends
  obtain ⟨joined, back⟩ := more.combineBackward place
  rw [show BitVec.ofNat 64 h.heapEnd.toNat = h.heapEnd by
    rw [BitVec.ofNat_toNat, BitVec.setWidth_eq]] at joined back
  have same : blocks h₁.heapStart.toNat (segs ++ [⟨wholePages n - 32, true⟩]) =
      blocks h.heapStart.toNat segs := by
    rw [start, blocks_append]
    exact List.append_nil _
  have touches := back.touches more
  rw [same] at touches
  refine ⟨joined, ?_, back.start.trans start, (congrArg _ back.ends).trans ends,
    back.initialized.trans init⟩
  apply Touches.trans _ touches back.start (Nat.le_of_eq (congrArg _ back.ends.symm))
  intro x changed
  rw [start, ends]
  have low : h.heapStart.toNat ≤ h.heapEnd.toNat := by
    rw [← tiled.ends]
    exact le_fin
  rcases writes x changed with near | near
  · rw [inRange_iff (by omega)] at near
    refine ⟨by omega, by omega, ?_⟩
    rintro ⟨b, mem, inside⟩
    have high := (blocks_bounds mem).2
    rw [tiled.ends] at high
    omega
  · obtain ⟨pre, s, rfl⟩ := (List.eq_nil_or_concat' segs).resolve_left tiled.nonempty
    rw [(tiled.lastHeader_iff rfl).mpr rfl] at near
    obtain ⟨from', to', off⟩ := tiled.touch (header_mem rfl) near
    exact ⟨from', by omega, off⟩

/-! ### `heap_initialize` -/

/-- The writes of `heap_initialize`. -/
def writeStart (h : Heap) (start length : Addr) : Heap :=
  (((h.setLength start length).setNext start 0).setLast start 0).setFree start true

/-- The header of the first segment. -/
theorem writeStart_header : (h.writeStart y v).header y = ⟨v, 0, 0, true⟩ := by
  rw [writeStart, header_setFree, header_setLast, header_setNext, header_setLength]

/-- No byte outside it changes. -/
theorem writeStart_mem (off : ¬ InRange y 32 x) : (h.writeStart y v).mem x = h.mem x := by
  rw [writeStart, setFree_mem off, setLast_mem off, setNext_mem off, setLength_mem off]

/-- What `heap_initialize` leaves behind, field by field. -/
theorem initialize_steps (run : h.heapInitialize g fuel y v = some h') :
    h'.heapStart = y ∧ h'.heapEnd = y + v * 0x1000 ∧
      h'.mem = (h.writeStart y (v * 0x1000 - headerSize)).mem ∧ h'.lastHeader = y ∧
      h'.heapInitialized = true := by
  rw [heapInitialize] at run
  obtain ⟨h₀, mapped, rest⟩ := Option.bind_eq_some_iff.mp run
  obtain ⟨tables, rfl⟩ := mapPages_heap mapped
  cases rest
  exact ⟨rfl, rfl, rfl, rfl, rfl⟩

/-- `heap_initialize` makes one free segment of 256 pages at the fixed address, whatever the heap
was before. -/
theorem initialize_tiled (run : h.heapInitialize g fuel 0x7f0000000000 256 = some h') :
    Tiled h' [⟨0xfffe0, true⟩] ∧ Touches h h' [] ∧ h'.heapStart = 0x7f0000000000 ∧
      h'.heapEnd = 0x7f0000100000 ∧ h'.heapInitialized = true := by
  obtain ⟨start, ends, memory, last, init⟩ := initialize_steps run
  rw [show (256 : Addr) * 0x1000 - headerSize = 0xfffe0 by decide] at memory
  rw [show (0x7f0000000000 : Addr) + 256 * 0x1000 = 0x7f0000100000 by decide] at ends
  refine ⟨?_, ?_, start, ends, init⟩
  · constructor
    · exact List.cons_ne_nil _ _
    · rw [start]
      refine ⟨?_, trivial⟩
      show h'.header 0x7f0000000000 = _
      rw [header_congr fun x _ => congrFun memory x, writeStart_header]
      rfl
    · rw [start, ends]
      rfl
    · rw [start, last]
      rfl
    · rw [start]
      decide
    · rw [List.forall_mem_singleton]
      decide
  · intro x changed
    rw [start, ends]
    have near : InRange 0x7f0000000000 32 x := by
      by_contra off
      apply changed
      rw [memory, writeStart_mem off]
    rw [inRange_iff (by decide), show (0x7f0000000000 : Addr).toNat =
      0x7f0000000000 from rfl] at near
    refine ⟨near.1, ?_, ?_⟩
    · show x.toNat < 0x7f0000100000
      omega
    · rintro ⟨b, mem, -⟩
      cases mem

end

end Skylight.Heap
