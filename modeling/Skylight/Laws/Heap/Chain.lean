import Skylight.Laws.Heap.Segments

/-!
# The chain of segments

What each function that patches headers does to the list of segments: `header_split` puts two
for one, `header_combine_forward` one for two, and a mark is set in place.

A function is first inverted into what it writes, in the order of the source (`Split`, `Join`);
the law about the list (`Tiled.of_split`, `Tiled.of_join`) uses only that record. `Touches` says
of every such step that it stores inside the heap and to no payload in use. The lists are those
of one heap: what the pools do behind the end of a payload is the business of `Laws.Heap.Pools`.
-/

namespace Skylight.Heap

open Bytes

/-- The segments tile the heap from `heap_start` to `heap_end`, and the links agree. -/
structure Tiled (h : Heap) (segs : List Segment) : Prop where
  nonempty : segs ≠ []
  linked : Linked h.header 0 0 h.heapStart.toNat segs
  ends : fin h.heapStart.toNat segs = h.heapEnd.toNat
  last : lastOf 0 h.heapStart.toNat segs = h.lastHeader.toNat
  start : 0 < h.heapStart.toNat ∧ h.heapStart.toNat % 16 = 0
  lengths : ∀ s ∈ segs, 0 < s.length ∧ s.length % 16 = 0

/-- A step that writes inside the heap, and to none of the blocks. -/
def Touches (h h' : Heap) (bs : List (Nat × Nat)) : Prop :=
  ∀ x, h'.mem x ≠ h.mem x → h'.heapStart.toNat ≤ x.toNat ∧ x.toNat < h'.heapEnd.toNat ∧
    ¬ Used bs x

section
variable {h h' h'' : Heap} {hd hd' : Addr → Header} {nxt l l' a b p e : Nat} {s t : Segment}
  {pre post old new segs : List Segment} {x : Addr} {bs : List (Nat × Nat)} {f : Bool}

/-! ### Replacing segments -/

/-- What stands before the list matters only when it is empty. -/
theorem lastOf_eq (some : segs ≠ []) : lastOf l a segs = lastOf l' a segs := by
  cases segs with
  | nil => exact absurd rfl some
  | cons s segs => rfl

/-- A new neighbour before the first segment. -/
theorem Linked.relast (h : Linked hd nxt l a (s :: segs))
    (first : hd' (BitVec.ofNat 64 a) =
      { hd (BitVec.ofNat 64 a) with last := BitVec.ofNat 64 l' })
    (rest : ∀ b, a + 32 ≤ b → b + 32 ≤ fin a (s :: segs) →
      hd' (BitVec.ofNat 64 b) = hd (BitVec.ofNat 64 b)) : Linked hd' nxt l' a (s :: segs) := by
  constructor
  · rw [first, h.1]
  · exact h.2.congr fun b le => rest b (by omega)

/-- Links of a list cut in three: the middle one may then be replaced by another. -/
theorem linked_three (some : old ≠ []) : Linked hd 0 l a (pre ++ old ++ post) ↔
    Linked hd (fin a pre) l a pre ∧
      Linked hd (nextOf 0 (fin (fin a pre) old) post) (lastOf l a pre) (fin a pre) old ∧
      Linked hd 0 (lastOf l (fin a pre) old) (fin (fin a pre) old) post := by
  cases old with
  | nil => exact absurd rfl some
  | cons s old =>
    rw [List.append_assoc, List.cons_append, linked_append, ← List.cons_append]
    apply and_congr_right'
    cases post with
    | nil =>
      rw [List.append_nil]
      exact ⟨fun h => ⟨h, trivial⟩, fun h => h.1⟩
    | cons t post => exact linked_append

/-- Some segments replaced by others that end at the same place: the chain stays when their
headers are linked and all other headers are as before. -/
theorem Tiled.replace (tiled : Tiled h (pre ++ old ++ post)) (ho : old ≠ []) (hn : new ≠ [])
    (hp : fin h.heapStart.toNat pre = p) (he : fin p old = e) (total : fin p new = e)
    (lengths : ∀ s ∈ new, 0 < s.length ∧ s.length % 16 = 0)
    (start : h'.heapStart = h.heapStart) (ends : h'.heapEnd = h.heapEnd)
    (before : ∀ b, b + 32 ≤ p → h'.header (BitVec.ofNat 64 b) = h.header (BitVec.ofNat 64 b))
    (linked : Linked h'.header (nextOf 0 e post) (lastOf 0 h.heapStart.toNat pre) p new)
    (first : post ≠ [] → h'.header (BitVec.ofNat 64 e) =
      { h.header (BitVec.ofNat 64 e) with last := BitVec.ofNat 64 (lastOf 0 p new) })
    (after : ∀ b, e + 32 ≤ b → b + 32 ≤ h.heapEnd.toNat →
      h'.header (BitVec.ofNat 64 b) = h.header (BitVec.ofNat 64 b))
    (last : post = [] → h'.lastHeader.toNat = lastOf 0 p new)
    (keep : post ≠ [] → h'.lastHeader = h.lastHeader) : Tiled h' (pre ++ new ++ post) := by
  subst hp
  subst he
  obtain ⟨left, -, right⟩ := (linked_three ho).mp tiled.linked
  have whole : fin (fin (fin h.heapStart.toNat pre) old) post = h.heapEnd.toNat := by
    have whole := tiled.ends
    rwa [fin_append, fin_append] at whole
  constructor
  · exact fun none => hn (List.append_eq_nil_iff.mp (List.append_eq_nil_iff.mp none).1).2
  · rw [start, linked_three hn, total]
    refine ⟨left.congr fun b _ le => before b le, linked, ?_⟩
    cases post with
    | nil => trivial
    | cons t post =>
      apply right.relast (first (List.cons_ne_nil t post))
      intro b le room
      exact after b le (by rw [← whole]; exact room)
  · rw [start, ends, fin_append, fin_append, total]
    exact whole
  · rw [start, lastOf_append, lastOf_append]
    cases post with
    | nil => exact (lastOf_eq hn).trans (last rfl).symm
    | cons t post =>
      rw [keep (List.cons_ne_nil t post), ← tiled.last, lastOf_append, fin_append, total,
        fin_append]
      rfl
  · rw [start]
    exact tiled.start
  · intro s mem
    rcases List.mem_append.mp mem with mem | mem
    · rcases List.mem_append.mp mem with mem | mem
      · exact tiled.lengths s (List.mem_append_left _ (List.mem_append_left _ mem))
      · exact lengths s mem
    · exact tiled.lengths s (List.mem_append_right _ mem)

/-! ### One segment -/

/-- The header of a segment. -/
theorem Tiled.header (tiled : Tiled h (pre ++ s :: post)) (hp : fin h.heapStart.toNat pre = p) :
    h.header (BitVec.ofNat 64 p) = ⟨BitVec.ofNat 64 s.length,
      BitVec.ofNat 64 (nextOf 0 (p + 32 + s.length) post),
      BitVec.ofNat 64 (lastOf 0 h.heapStart.toNat pre), s.free⟩ := by
  subst hp
  exact (linked_append.mp tiled.linked).2.1

/-- A segment lies in the heap. -/
theorem Tiled.bounds (tiled : Tiled h (pre ++ s :: post)) (hp : fin h.heapStart.toNat pre = p) :
    0 < p ∧ h.heapStart.toNat ≤ p ∧ p + 32 + s.length ≤ h.heapEnd.toNat ∧
      h.heapEnd.toNat < 2 ^ 64 := by
  subst hp
  have low : h.heapStart.toNat ≤ fin h.heapStart.toNat pre := le_fin
  have high := tiled.ends
  rw [fin_append, fin] at high
  have room : fin h.heapStart.toNat pre + 32 + s.length ≤ _ := @le_fin _ post
  have start := tiled.start.1
  exact ⟨by omega, low, by omega, h.heapEnd.isLt⟩

/-- Headers at numbers that are 32 apart are far. -/
theorem far_ofNat (le : a + 32 ≤ b) (fits : b + 32 ≤ 2 ^ 64) :
    Far (BitVec.ofNat 64 a) (BitVec.ofNat 64 b) := by
  apply far_of_le
  · rw [BitVec.toNat_ofNat, BitVec.toNat_ofNat]
    omega
  · rw [BitVec.toNat_ofNat]
    omega

/-- What is written to a header is no block's. -/
theorem Tiled.touch (tiled : Tiled h segs) (mem : p ∈ headers h.heapStart.toNat segs)
    (near : InRange (BitVec.ofNat 64 p) 32 x) :
    h.heapStart.toNat ≤ x.toNat ∧ x.toNat < h.heapEnd.toNat ∧
      ¬ Used (blocks h.heapStart.toNat segs) x := by
  obtain ⟨low, high⟩ := headers_bounds mem
  rw [tiled.ends] at high
  have small := h.heapEnd.isLt
  have value : (BitVec.ofNat 64 p).toNat = p := by
    rw [BitVec.toNat_ofNat]
    omega
  rw [inRange_iff (by omega), value] at near
  refine ⟨by omega, by omega, ?_⟩
  rintro ⟨b, hb, inside⟩
  have := blocks_headers hb mem
  omega

/-- The place of a segment is not `NULL`. -/
theorem ofNat_ne_zero (pos : 0 < p) (small : p < 2 ^ 64) : BitVec.ofNat 64 p ≠ 0 := by
  intro zero
  have value := congrArg BitVec.toNat zero
  rw [BitVec.toNat_ofNat, show (0 : Addr).toNat = 0 from rfl] at value
  omega

/-- Steps one after the other, when the heap did not become smaller. -/
theorem Touches.trans (t : Touches h h' bs) (t' : Touches h' h'' bs)
    (start : h''.heapStart = h'.heapStart) (ends : h'.heapEnd.toNat ≤ h''.heapEnd.toNat) :
    Touches h h'' bs := by
  intro x changed
  by_cases early : h'.mem x = h.mem x
  · exact t' x fun same => changed (same.trans early)
  · obtain ⟨low, high, off⟩ := t x early
    rw [start]
    exact ⟨low, by omega, off⟩

/-- The segment behind it. -/
theorem Tiled.neighbour (tiled : Tiled h (pre ++ s :: t :: post))
    (hp : fin h.heapStart.toNat pre = p) :
    h.header (BitVec.ofNat 64 (p + 32 + s.length)) = ⟨BitVec.ofNat 64 t.length,
      BitVec.ofNat 64 (nextOf 0 (p + 32 + s.length + 32 + t.length) post), BitVec.ofNat 64 p,
      t.free⟩ ∧ p + 32 + s.length + 32 + t.length ≤ h.heapEnd.toNat := by
  rw [List.append_cons] at tiled
  have place : fin h.heapStart.toNat (pre ++ [s]) = p + 32 + s.length := by
    rw [fin_append, hp]
    rfl
  obtain ⟨-, -, high, -⟩ := tiled.bounds place
  refine ⟨?_, high⟩
  rw [tiled.header place, lastOf_append, hp]
  rfl

/-- Fewer blocks are touched less. -/
theorem Touches.mono {bs' : List (Nat × Nat)} (t : Touches h h' bs) (sub : bs' ⊆ bs) :
    Touches h h' bs' := by
  intro x changed
  obtain ⟨low, high, off⟩ := t x changed
  refine ⟨low, high, ?_⟩
  rintro ⟨b, mem, inside⟩
  exact off ⟨b, sub mem, inside⟩

/-- A mark is set in place. -/
theorem Tiled.setFree (tiled : Tiled h (pre ++ s :: post)) (hp : fin h.heapStart.toNat pre = p)
    (f : Bool) : Tiled (h.setFree (BitVec.ofNat 64 p) f) (pre ++ { s with free := f } :: post) := by
  obtain ⟨pos, low, high, small⟩ := tiled.bounds hp
  have here := tiled.header hp
  rw [List.append_cons] at tiled
  rw [List.append_cons]
  refine tiled.replace (List.cons_ne_nil _ _) (List.cons_ne_nil _ _) hp rfl rfl
    ?_ rfl rfl ?_ ?_ ?_ ?_ ?_ ?_
  · intro s' mem
    rw [List.mem_singleton.mp mem]
    exact tiled.lengths s (List.mem_append_left _
      (List.mem_append_right _ (List.mem_singleton_self s)))
  · intro b le
    exact header_setFree_far (far_ofNat le (by omega)).symm
  · refine ⟨?_, trivial⟩
    rw [header_setFree, here]
    rfl
  · intro some
    cases post with
    | nil => exact absurd rfl some
    | cons t post =>
      rw [← List.append_cons] at tiled
      obtain ⟨next, room⟩ := tiled.neighbour hp
      show (h.setFree _ _).header (BitVec.ofNat 64 (p + 32 + s.length)) =
        { h.header (BitVec.ofNat 64 (p + 32 + s.length)) with last := BitVec.ofNat 64 p }
      rw [header_setFree_far (far_ofNat (by omega) (by omega)), next]
  · intro b le room
    have le : p + 32 + s.length + 32 ≤ b := le
    exact header_setFree_far (far_ofNat (by omega) (by omega))
  · intro none
    have last := tiled.last
    rw [none, List.append_nil, lastOf_append, hp] at last
    exact last.symm
  · intro _
    rfl

/-! ### Two segments for one -/

/-- The neighbour behind, if there is one, is linked back to `v`. -/
def patchLast (h : Heap) (y v : Addr) : Heap := if y ≠ 0 then h.setLast y v else h

section
variable {y v w : Addr}

/-- Only the neighbour's own header changes. -/
theorem patchLast_far (far : y ≠ 0 → Far y w) : (h.patchLast y v).header w = h.header w := by
  rw [patchLast]
  split
  · next some => exact header_setLast_far (far some)
  · rfl

/-- The neighbour's `last` is the new header. -/
theorem patchLast_self (some : y ≠ 0) :
    (h.patchLast y v).header y = { h.header y with last := v } := by
  rw [patchLast, if_pos some]
  exact header_setLast h y v

/-- No byte outside the neighbour's header changes. -/
theorem patchLast_mem (off : y ≠ 0 → ¬ InRange y 32 x) : (h.patchLast y v).mem x = h.mem x := by
  rw [patchLast]
  split
  · next some => exact setLast_mem (off some)
  · rfl

theorem patchLast_rest : (h.patchLast y v).lastHeader = h.lastHeader ∧
    (h.patchLast y v).heapStart = h.heapStart ∧ (h.patchLast y v).heapEnd = h.heapEnd ∧
    (h.patchLast y v).heapInitialized = h.heapInitialized := by
  rw [patchLast]
  split <;> exact ⟨rfl, rfl, rfl, rfl⟩

/-- The writes to the two headers of a split. -/
def writeSplit (h : Heap) (segment newHeader next length size : Addr) (f : Bool) : Heap :=
  (((((h.setNext newHeader next).setNext segment newHeader).setLast newHeader segment).setLength
    newHeader length).setFree newHeader f).setLength segment size

/-- The last header moves when it was `y`. -/
def moveLast (h : Heap) (y v : Addr) : Heap :=
    if h.lastHeader = y then { h with lastHeader := v } else h

/-- The mark that is copied is still there when it is copied. -/
theorem writeSplit_free {segment newHeader next length : Addr} (far : Far newHeader segment) :
    ((((h.setNext newHeader next).setNext segment newHeader).setLast newHeader segment).setLength
      newHeader length).isFree segment = h.isFree segment := by
  rw [← isFree_header, header_setLength_far far, header_setLast_far far, header_setNext]
  show ((h.setNext newHeader next).header segment).free = _
  rw [header_setNext_far far, isFree_header]

/-- `header_split`, when the size is large enough and there is room: the writes in the order of
the source. -/
theorem headerSplit_steps {segment size newHeader : Addr} (big : ¬ size < 0x10)
    (room : ¬ (h.length segment - size - headerSize).toInt < 0x10)
    (hn : segment + size + headerSize = newHeader) :
    (h.headerSplit segment size).2 =
      let h₁ := h.patchLast (h.next segment) newHeader
      let h₂ := (((h₁.setNext newHeader (h₁.next segment)).setNext segment newHeader).setLast
        newHeader segment).setLength newHeader (h.length segment - size - headerSize)
      ((h₂.setFree newHeader (h₂.isFree segment)).setLength segment size).moveLast segment
        newHeader := by
  subst hn
  have steps : h.headerSplit segment size = if size < 0x10 then (0, h) else
      if (h.length segment - size - headerSize).toInt < 0x10 then (0, h) else
      let h₁ := h.patchLast (h.next segment) (segment + size + headerSize)
      let h₂ := (((h₁.setNext (segment + size + headerSize) (h₁.next segment)).setNext segment
        (segment + size + headerSize)).setLast (segment + size + headerSize) segment).setLength
        (segment + size + headerSize) (h.length segment - size - headerSize)
      (segment + size + headerSize, ((h₂.setFree (segment + size + headerSize)
        (h₂.isFree segment)).setLength segment size).moveLast segment
          (segment + size + headerSize)) := rfl
  rw [steps, if_neg big, if_neg room]

/-- With the headers apart, the writes are those to the two headers, the neighbour's `last` and
the last header. -/
theorem headerSplit_eq {segment size newHeader : Addr} (big : ¬ size < 0x10)
    (room : ¬ (h.length segment - size - headerSize).toInt < 0x10)
    (hn : segment + size + headerSize = newHeader) (far : Far newHeader segment)
    (away : h.next segment ≠ 0 → Far (h.next segment) segment) :
    (h.headerSplit segment size).2 =
      ((h.patchLast (h.next segment) newHeader).writeSplit segment newHeader (h.next segment)
        (h.length segment - size - headerSize) size (h.isFree segment)).moveLast segment
          newHeader := by
  have same : (h.patchLast (h.next segment) newHeader).header segment = h.header segment :=
    patchLast_far away
  have next : (h.patchLast (h.next segment) newHeader).next segment = h.next segment := by
    rw [← next_header, same, next_header]
  have free : (h.patchLast (h.next segment) newHeader).isFree segment = h.isFree segment := by
    rw [← isFree_header, same, isFree_header]
  rw [headerSplit_steps big room hn]
  simp only []
  rw [writeSplit_free far, next, free]
  rfl

section
variable {segment newHeader next length size : Addr}

/-- The first of the two headers has the new length and leads to the second. -/
theorem writeSplit_segment (far : Far newHeader segment) :
    (h.writeSplit segment newHeader next length size f).header segment =
      { h.header segment with length := size, next := newHeader } := by
  rw [writeSplit, header_setLength, header_setFree_far far, header_setLength_far far,
    header_setLast_far far, header_setNext, header_setNext_far far]

/-- The second has what was left over. -/
theorem writeSplit_newHeader (far : Far newHeader segment) :
    (h.writeSplit segment newHeader next length size f).header newHeader =
      ⟨length, next, segment, f⟩ := by
  rw [writeSplit, header_setLength_far far.symm, header_setFree, header_setLength, header_setLast,
    header_setNext_far far.symm, header_setNext]

/-- No other header changes. -/
theorem writeSplit_far (far : Far segment w) (far' : Far newHeader w) :
    (h.writeSplit segment newHeader next length size f).header w = h.header w := by
  rw [writeSplit, header_setLength_far far, header_setFree_far far', header_setLength_far far',
    header_setLast_far far', header_setNext_far far, header_setNext_far far']

/-- No byte outside the two headers changes. -/
theorem writeSplit_mem (off : ¬ InRange segment 32 x) (off' : ¬ InRange newHeader 32 x) :
    (h.writeSplit segment newHeader next length size f).mem x = h.mem x := by
  rw [writeSplit, setLength_mem off, setFree_mem off', setLength_mem off', setLast_mem off',
    setNext_mem off, setNext_mem off']

theorem writeSplit_rest :
    (h.writeSplit segment newHeader next length size f).lastHeader = h.lastHeader ∧
      (h.writeSplit segment newHeader next length size f).heapStart = h.heapStart ∧
      (h.writeSplit segment newHeader next length size f).heapEnd = h.heapEnd ∧
      (h.writeSplit segment newHeader next length size f).heapInitialized =
        h.heapInitialized := ⟨rfl, rfl, rfl, rfl⟩

end

theorem moveLast_header : (h.moveLast y v).header w = h.header w := by
  rw [moveLast]
  split <;> rfl

theorem moveLast_rest : (h.moveLast y v).mem = h.mem ∧ (h.moveLast y v).heapStart = h.heapStart ∧
    (h.moveLast y v).heapEnd = h.heapEnd ∧
    (h.moveLast y v).heapInitialized = h.heapInitialized ∧
    (h.moveLast y v).lastHeader = if h.lastHeader = y then v else h.lastHeader := by
  rw [moveLast]
  split <;> exact ⟨rfl, rfl, rfl, rfl, rfl⟩

/-- A header put behind that of `segment`, for `length` bytes of its payload. -/
structure Split (h h' : Heap) (segment newHeader size length : Addr) : Prop where
  first : h'.header segment = { h.header segment with length := size, next := newHeader }
  second : h'.header newHeader = ⟨length, h.next segment, segment, h.isFree segment⟩
  behind : h.next segment ≠ 0 → Far newHeader (h.next segment) →
    h'.header (h.next segment) = { h.header (h.next segment) with last := newHeader }
  others : ∀ w, Far segment w → Far newHeader w → (h.next segment ≠ 0 → Far (h.next segment) w) →
    h'.header w = h.header w
  writes : ∀ x, h'.mem x ≠ h.mem x → InRange segment 32 x ∨ InRange newHeader 32 x ∨
    h.next segment ≠ 0 ∧ InRange (h.next segment) 32 x
  last : h'.lastHeader = if h.lastHeader = segment then newHeader else h.lastHeader
  start : h'.heapStart = h.heapStart
  ends : h'.heapEnd = h.heapEnd
  initialized : h'.heapInitialized = h.heapInitialized

/-- `header_split` does what `Split` says, when nothing overlaps. -/
theorem headerSplit_split {segment size newHeader : Addr} (big : ¬ size < 0x10)
    (room : ¬ (h.length segment - size - headerSize).toInt < 0x10)
    (hn : segment + size + headerSize = newHeader) (far : Far newHeader segment)
    (away : h.next segment ≠ 0 → Far (h.next segment) segment) :
    Split h (h.headerSplit segment size).2 segment newHeader size
      (h.length segment - size - headerSize) := by
  rw [headerSplit_eq big room hn far away]
  obtain ⟨last, start, ends, init⟩ := patchLast_rest (h := h) (y := h.next segment) (v := newHeader)
  constructor
  · rw [moveLast_header, writeSplit_segment far, patchLast_far away]
  · rw [moveLast_header, writeSplit_newHeader far]
  · intro some far'
    rw [moveLast_header, writeSplit_far (away some).symm far', patchLast_self some]
  · intro w one two three
    rw [moveLast_header, writeSplit_far one two, patchLast_far three]
  · intro x changed
    by_contra off
    rw [not_or, not_or, not_and] at off
    apply changed
    rw [moveLast_rest.1, writeSplit_mem off.1 off.2.1, patchLast_mem off.2.2]
  · rw [moveLast_rest.2.2.2.2, writeSplit_rest.1, last]
  · rw [moveLast_rest.2.1, writeSplit_rest.2.1, start]
  · rw [moveLast_rest.2.2.1, writeSplit_rest.2.2.1, ends]
  · rw [moveLast_rest.2.2.2.1, writeSplit_rest.2.2.2, init]

end

theorem le_lastOf (some : segs ≠ []) : a ≤ lastOf l a segs := by
  induction segs generalizing l a with
  | nil => exact absurd rfl some
  | cons s segs ih =>
    cases segs with
    | nil => exact Nat.le_refl a
    | cons t segs =>
      calc a ≤ a + 32 + s.length := by omega
        _ ≤ lastOf a (a + 32 + s.length) (t :: segs) := ih (List.cons_ne_nil t segs)

/-- The header behind a segment, when there is one. -/
theorem Tiled.next (tiled : Tiled h (pre ++ s :: post)) (hp : fin h.heapStart.toNat pre = p)
    (some : h.next (BitVec.ofNat 64 p) ≠ 0) : post ≠ [] ∧
      h.next (BitVec.ofNat 64 p) = BitVec.ofNat 64 (p + 32 + s.length) ∧
      p + 32 + s.length + 32 ≤ h.heapEnd.toNat := by
  have here := tiled.header hp
  rw [← next_header, here] at some ⊢
  cases post with
  | nil => exact absurd rfl some
  | cons t post =>
    obtain ⟨-, room⟩ := tiled.neighbour hp
    exact ⟨List.cons_ne_nil t post, rfl, by omega⟩

/-- The last segment is the last header's, and no other is. -/
theorem Tiled.lastHeader_iff (tiled : Tiled h (pre ++ s :: post))
    (hp : fin h.heapStart.toNat pre = p) : h.lastHeader = BitVec.ofNat 64 p ↔ post = [] := by
  obtain ⟨-, -, high, small⟩ := tiled.bounds hp
  have last := tiled.last
  rw [lastOf_append, hp] at last
  constructor
  · intro here
    by_contra some
    rw [here, BitVec.toNat_ofNat] at last
    have later : p + 32 + s.length ≤ lastOf p (p + 32 + s.length) post := le_lastOf some
    rw [show lastOf _ p (s :: post) = lastOf p (p + 32 + s.length) post from rfl] at last
    omega
  · rintro rfl
    apply BitVec.eq_of_toNat_eq
    rw [← last, BitVec.toNat_ofNat]
    show p = _
    omega

/-- The list after a split, from what the split wrote: the segment is cut in two behind the first
`n` bytes, of the kind it had, and all the others are untouched. -/
theorem Tiled.of_split {n : Nat} (tiled : Tiled h (pre ++ s :: post))
    (hp : fin h.heapStart.toNat pre = p) (some : 0 < n) (room : n + 32 < s.length)
    (even : n % 16 = 0)
    (split : Split h h' (BitVec.ofNat 64 p) (BitVec.ofNat 64 (p + 32 + n)) (BitVec.ofNat 64 n)
      (BitVec.ofNat 64 (s.length - n - 32))) :
    Tiled h' (pre ++ [⟨n, s.free⟩, ⟨s.length - n - 32, s.free⟩] ++ post) := by
  obtain ⟨pos, low, high, small⟩ := tiled.bounds hp
  have here := tiled.header hp
  have behind (some : h.next (BitVec.ofNat 64 p) ≠ 0) := tiled.next hp some
  have last := tiled.lastHeader_iff hp
  have linked := split.first
  rw [here] at linked
  have second := split.second
  rw [← next_header, ← isFree_header, here] at second
  have far (b : Nat) (le : p + 32 + s.length + 32 ≤ b) (fits : b + 32 ≤ h.heapEnd.toNat) :
      h'.header (BitVec.ofNat 64 b) = h.header (BitVec.ofNat 64 b) := by
    apply split.others _ (far_ofNat (by omega) (by omega)) (far_ofNat (by omega) (by omega))
    intro some
    rw [(behind some).2.1]
    exact far_ofNat (by omega) (by omega)
  have near (b : Nat) (le : b + 32 ≤ p) :
      h'.header (BitVec.ofNat 64 b) = h.header (BitVec.ofNat 64 b) := by
    apply split.others _ (far_ofNat le (by omega)).symm (far_ofNat (by omega) (by omega)).symm
    intro some
    obtain ⟨-, eq, fits⟩ := behind some
    rw [eq]
    exact (far_ofNat (by omega) (by omega)).symm
  have first (some : post ≠ []) : h'.header (BitVec.ofNat 64 (p + 32 + s.length)) =
      { h.header (BitVec.ofNat 64 (p + 32 + s.length)) with
        last := BitVec.ofNat 64 (p + 32 + n) } := by
    obtain ⟨t, rest, rfl⟩ := List.exists_cons_of_ne_nil some
    obtain ⟨-, fits⟩ := tiled.neighbour hp
    have next : h.next (BitVec.ofNat 64 p) = BitVec.ofNat 64 (p + 32 + s.length) := by
      rw [← next_header, here]
      rfl
    have away : h.next (BitVec.ofNat 64 p) ≠ 0 := by
      rw [next]
      exact ofNat_ne_zero (by omega) (by omega)
    rw [← next]
    apply split.behind away
    rw [next]
    exact far_ofNat (by omega) (by omega)
  rw [List.append_cons] at tiled
  refine tiled.replace (List.cons_ne_nil _ _) (List.cons_ne_nil _ _) hp rfl ?_ ?_ split.start
    split.ends near ⟨linked, second, trivial⟩ first far ?_ ?_
  · show p + 32 + n + 32 + (s.length - n - 32) = p + 32 + s.length
    omega
  · have even' := (tiled.lengths s (List.mem_append_left _ (List.mem_append_right _
      (List.mem_singleton_self s)))).2
    intro t mem
    rw [List.mem_cons, List.mem_singleton] at mem
    rcases mem with rfl | rfl
    · exact ⟨some, even⟩
    · exact ⟨by show 0 < s.length - n - 32; omega, by show (s.length - n - 32) % 16 = 0; omega⟩
  · intro none
    rw [split.last, if_pos (last.mpr none), BitVec.toNat_ofNat]
    show _ = p + 32 + n
    omega
  · intro some
    rw [split.last, if_neg fun same => some (last.mp same)]

/-! ### One segment for two -/

section
variable {segment y z v w : Addr}

/-- The header of the segment behind `segment` given up. -/
structure Join (h h' : Heap) (segment y z : Addr) : Prop where
  first : h'.header segment = { h.header segment with
    length := h.length segment + h.length y + headerSize, next := z }
  behind : z ≠ 0 → Far segment z → h'.header z = { h.header z with last := segment }
  others : ∀ w, Far segment w → (z ≠ 0 → Far z w) → h'.header w = h.header w
  writes : ∀ x, h'.mem x ≠ h.mem x → InRange segment 32 x ∨ z ≠ 0 ∧ InRange z 32 x
  last : h'.lastHeader = if h.lastHeader = y then segment else h.lastHeader
  start : h'.heapStart = h.heapStart
  ends : h'.heapEnd = h.heapEnd
  initialized : h'.heapInitialized = h.heapInitialized

/-- `header_combine_forward` before a free segment: the writes in the order of the source. -/
theorem headerCombineForward_steps (hy : h.next segment = y) (some : y ≠ 0)
    (free : h.isFree y = true) : h.headerCombineForward segment =
      let h₁ := h.moveLast y segment
      let h₂ := h₁.patchLast (h₁.next (h₁.next segment)) segment
      let h₃ := h₂.setLength segment (h₂.length segment + h₂.length (h₂.next segment) + headerSize)
      h₃.setNext segment (h₃.next (h₃.next segment)) := by
  subst hy
  have steps : h.headerCombineForward segment = if h.next segment = 0 then h else
      if !h.isFree (h.next segment) then h else
      let h₁ := if h.next segment = h.lastHeader then { h with lastHeader := segment } else h
      let h₂ := h₁.patchLast (h₁.next (h₁.next segment)) segment
      let h₃ := h₂.setLength segment (h₂.length segment + h₂.length (h₂.next segment) + headerSize)
      h₃.setNext segment (h₃.next (h₃.next segment)) := rfl
  have same : (if h.next segment = h.lastHeader then { h with lastHeader := segment } else h) =
      h.moveLast (h.next segment) segment := if_congr eq_comm rfl rfl
  rw [steps, if_neg some, if_neg (by rw [free]; decide), same]

/-- `header_combine_forward` before a free segment. -/
theorem headerCombineForward_join (hy : h.next segment = y) (hz : h.next y = z) (some : y ≠ 0)
    (free : h.isFree y = true) (far : Far segment y)
    (away : z ≠ 0 → Far z segment ∧ Far z y) :
    Join h (h.headerCombineForward segment) segment y z := by
  obtain ⟨mem, start, ends, init, last⟩ := moveLast_rest (h := h) (y := y) (v := segment)
  have header (w : Addr) : (h.moveLast y segment).header w = h.header w := moveLast_header
  have next (w : Addr) : (h.moveLast y segment).next w = h.next w := by
    rw [← next_header, header, next_header]
  have segment' : ((h.moveLast y segment).patchLast z segment).header segment =
      h.header segment := by
    rw [patchLast_far fun some => (away some).1, header]
  have y' : ((h.moveLast y segment).patchLast z segment).header y = h.header y := by
    rw [patchLast_far fun some => (away some).2, header]
  rw [headerCombineForward_steps hy some free]
  simp only []
  rw [next segment, hy, next y, hz]
  generalize hh : (h.moveLast y segment).patchLast z segment = h₂ at segment' y'
  obtain ⟨last₂, start₂, ends₂, init₂⟩ := patchLast_rest (h := h.moveLast y segment) (y := z)
    (v := segment)
  rw [hh] at last₂ start₂ ends₂ init₂
  have one : h₂.next segment = y := by
    rw [← next_header, segment', next_header, hy]
  have two : h₂.length segment + h₂.length y + headerSize =
      h.length segment + h.length y + headerSize := by
    rw [← length_header, segment', ← length_header, y', length_header, length_header]
  rw [one, two]
  have three : (h₂.setLength segment (h.length segment + h.length y + headerSize)).next segment =
      y := by
    rw [← next_header, header_setLength, segment', ← hy]
    rfl
  have four : (h₂.setLength segment (h.length segment + h.length y + headerSize)).next y = z := by
    rw [← next_header, header_setLength_far far, y', next_header, hz]
  rw [three, four]
  constructor
  · rw [header_setNext, header_setLength, segment']
  · intro some far'
    rw [header_setNext_far far', header_setLength_far far', ← hh, patchLast_self some, header]
  · intro w one two
    rw [header_setNext_far one, header_setLength_far one, ← hh, patchLast_far two, header]
  · intro x changed
    by_contra off
    rw [not_or, not_and] at off
    apply changed
    rw [setNext_mem off.1, setLength_mem off.1, ← hh, patchLast_mem off.2, mem]
  · exact last₂.trans last
  · exact start₂.trans start
  · exact ends₂.trans ends
  · exact init₂.trans init

end

/-- The list after a join, from what the join wrote: the second segment goes into the first with its
header, which keeps its kind, and all the others are untouched. -/
theorem Tiled.of_join (tiled : Tiled h (pre ++ s :: t :: post)) (hp : fin h.heapStart.toNat pre = p)
    (join : Join h h' (BitVec.ofNat 64 p) (BitVec.ofNat 64 (p + 32 + s.length))
      (BitVec.ofNat 64 (nextOf 0 (p + 32 + s.length + 32 + t.length) post))) :
    Tiled h' (pre ++ ⟨s.length + t.length + 32, s.free⟩ :: post) := by
  obtain ⟨pos, low, high, small⟩ := tiled.bounds hp
  obtain ⟨second, fits⟩ := tiled.neighbour hp
  have here := tiled.header hp
  have sizes := tiled.lengths s (List.mem_append_right _ (List.mem_cons_self ..))
  have sizes' := tiled.lengths t (List.mem_append_right _ (List.mem_cons_of_mem _
    (List.mem_cons_self ..)))
  have place : fin h.heapStart.toNat (pre ++ [s]) = p + 32 + s.length := by
    rw [fin_append, hp]
    rfl
  have tiled' := tiled
  rw [List.append_cons] at tiled'
  have next : h.next (BitVec.ofNat 64 (p + 32 + s.length)) =
      BitVec.ofNat 64 (nextOf 0 (p + 32 + s.length + 32 + t.length) post) := by
    rw [← next_header, second]
  have behind (some : BitVec.ofNat 64 (nextOf 0 (p + 32 + s.length + 32 + t.length) post) ≠ 0) := by
    have facts := tiled'.next place (by rw [next]; exact some)
    rwa [next] at facts
  have last := tiled'.lastHeader_iff place
  have linked := join.first
  rw [← length_header, ← length_header, here, second] at linked
  have first (some : post ≠ []) : h'.header (BitVec.ofNat 64 (p + 32 + s.length + 32 + t.length)) =
      { h.header (BitVec.ofNat 64 (p + 32 + s.length + 32 + t.length)) with
        last := BitVec.ofNat 64 p } := by
    obtain ⟨u, rest, rfl⟩ := List.exists_cons_of_ne_nil some
    obtain ⟨-, fits'⟩ := tiled'.neighbour place
    apply join.behind
    · show BitVec.ofNat 64 (p + 32 + s.length + 32 + t.length) ≠ 0
      exact ofNat_ne_zero (by omega) (by omega)
    · show Far (BitVec.ofNat 64 p) (BitVec.ofNat 64 (p + 32 + s.length + 32 + t.length))
      exact far_ofNat (by omega) (by omega)
  have far (b : Nat) (le : p + 32 + s.length + 32 + t.length + 32 ≤ b)
      (fits : b + 32 ≤ h.heapEnd.toNat) :
      h'.header (BitVec.ofNat 64 b) = h.header (BitVec.ofNat 64 b) := by
    apply join.others _ (far_ofNat (by omega) (by omega))
    intro some
    rw [(behind some).2.1]
    exact far_ofNat (by omega) (by omega)
  have near (b : Nat) (le : b + 32 ≤ p) :
      h'.header (BitVec.ofNat 64 b) = h.header (BitVec.ofNat 64 b) := by
    apply join.others _ (far_ofNat le (by omega)).symm
    intro some
    obtain ⟨-, eq, fits⟩ := behind some
    rw [eq]
    exact (far_ofNat (by omega) (by omega)).symm
  have pair : pre ++ s :: t :: post = pre ++ [s, t] ++ post := by
    rw [List.append_assoc]
    rfl
  rw [pair] at tiled
  rw [List.append_cons]
  refine tiled.replace (List.cons_ne_nil _ _) (List.cons_ne_nil _ _) hp rfl ?_ ?_ join.start
    join.ends near ⟨?_, trivial⟩ first far ?_ ?_
  · show p + 32 + (s.length + t.length + 32) = p + 32 + s.length + 32 + t.length
    omega
  · intro u mem
    rw [List.mem_singleton.mp mem]
    exact ⟨by show 0 < s.length + t.length + 32; omega,
      by show (s.length + t.length + 32) % 16 = 0; omega⟩
  · rw [linked, headerSize, show (32 : Addr) = BitVec.ofNat 64 32 from rfl, ← BitVec.ofNat_add,
      ← BitVec.ofNat_add]
    rfl
  · intro none
    rw [join.last, if_pos (last.mpr none), BitVec.toNat_ofNat]
    show _ = p
    omega
  · intro some
    rw [join.last, if_neg fun same => some (last.mp same)]

end

end Skylight.Heap
