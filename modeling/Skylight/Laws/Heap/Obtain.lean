import Skylight.Laws.Heap.Release

/-!
# Taking a block

`malloc` goes through the segments for the first free one that is long enough, splits it when
what is left over can be a segment, and marks it. When there is none it makes the heap longer
and looks again.

The laws follow one round of that loop: `Tiled.round_skips` for a segment that does not do,
`Tiled.round_fits` for one that does, and `Tiled.loop`, by induction on the rest of the list,
for the whole search. `Tiled.loop_some` bounds the rounds by the length of the list. Lengths are
compared as signed words by the source; the laws ask for lengths below `2 ^ 63`, which the chain
gives.
-/

namespace Skylight.Heap

open Bytes

/-- What becomes of a free segment when `n` bytes of it are taken. -/
def place (n : Nat) (s : Segment) : List Segment :=
  if n + 48 ≤ s.length then [⟨n, false⟩, ⟨s.length - n - 32, s.free⟩] else [⟨s.length, false⟩]

/-- A segment that `n` bytes can be taken from. -/
def Fits (n : Nat) (s : Segment) : Prop := s.free = true ∧ n ≤ s.length

instance fitsDecidable (n : Nat) : DecidablePred (Fits n) := fun _ =>
  inferInstanceAs (Decidable (_ ∧ _))

/-- `n` bytes of the segment `s` taken. -/
structure Taken (h h' : Heap) (pre : List Segment) (s : Segment) (post : List Segment) (n : Nat) :
    Prop where
  tiled : Tiled h' (pre ++ place n s ++ post)
  touches : Touches h h' (blocks h.heapStart.toNat (pre ++ s :: post))
  start : h'.heapStart = h.heapStart
  ends : h'.heapEnd = h.heapEnd
  initialized : h'.heapInitialized = h.heapInitialized

section
variable {h h' : Heap} {a l p n : Nat} {s t : Segment} {pre post segs : List Segment}
  {bs : List (Nat × Nat)} {x : Addr}

/-- The payload of a free segment is no block's. -/
theorem not_used_of_free (hp : fin a pre = p) (free : s.free = true) (low : p ≤ x.toNat)
    (high : x.toNat < p + 32 + s.length) : ¬ Used (blocks a (pre ++ s :: post)) x := by
  rintro ⟨b, mem, from', to'⟩
  rw [blocks_append, hp, blocks, if_pos free] at mem
  rcases List.mem_append.mp mem with mem | mem
  · have := (blocks_bounds mem).2
    rw [hp] at this
    omega
  · have := (blocks_bounds mem).1
    omega

/-- The first piece of a segment that is split is marked like one that is not. -/
theorem Tiled.split_taken (tiled : Tiled h (pre ++ s :: post)) (hp : fin h.heapStart.toNat pre = p)
    (free : s.free = true) (room : n + 48 ≤ s.length) (even : n % 16 = 0)
    (split : Split h h' (BitVec.ofNat 64 p) (BitVec.ofNat 64 (p + 32 + n)) (BitVec.ofNat 64 n)
      (BitVec.ofNat 64 (s.length - n - 32))) (some : 0 < n) :
    Taken h (h'.setFree (BitVec.ofNat 64 p) false) pre s post n := by
  obtain ⟨pos, low, high, small⟩ := tiled.bounds hp
  have halves := tiled.of_split hp some (by omega) even split
  rw [List.append_assoc, List.cons_append] at halves
  have place : fin h'.heapStart.toNat pre = p := by
    rw [split.start]
    exact hp
  have marked := halves.setFree place false
  have marks : Rewrites h' (h'.setFree (BitVec.ofNat 64 p) false)
      (pre ++ ⟨n, s.free⟩ :: ([⟨s.length - n - 32, s.free⟩] ++ post)) :=
    Tiled.setFree_rewrites place false
  have same : blocks h'.heapStart.toNat
      (pre ++ ⟨n, s.free⟩ :: ([⟨s.length - n - 32, s.free⟩] ++ post)) =
      blocks h.heapStart.toNat (pre ++ s :: post) := by
    rw [split.start, blocks_append, blocks_append, hp, blocks, blocks,
      List.singleton_append, blocks, if_pos free, if_pos free, if_pos free]
    congr 2
    show p + 32 + n + 32 + (s.length - n - 32) = p + 32 + s.length
    omega
  have touches := marks.touches halves
  rw [same] at touches
  refine ⟨?_, ?_, split.start, split.ends, split.initialized⟩
  · rw [Heap.place, if_pos room, List.append_assoc]
    exact marked
  · refine Touches.trans ?_ touches rfl (Nat.le_refl _)
    intro x changed
    rw [split.start, split.ends]
    rcases split.writes x changed with near | near | ⟨next, near⟩
    · exact tiled.touch (header_mem hp) near
    · rw [inRange_iff (by rw [BitVec.toNat_ofNat]; omega), BitVec.toNat_ofNat] at near
      refine ⟨by omega, by omega, not_used_of_free hp free ?_ ?_⟩ <;> omega
    · obtain ⟨more, eq, -⟩ := tiled.next hp next
      rw [eq] at near
      obtain ⟨u, rest, rfl⟩ := List.exists_cons_of_ne_nil more
      exact tiled.touch (neighbour_mem hp) near

/-- The length that the code reads at the place of a segment. -/
theorem Tiled.length (tiled : Tiled h (pre ++ s :: post)) (hp : fin h.heapStart.toNat pre = p) :
    h.length (BitVec.ofNat 64 p) = BitVec.ofNat 64 s.length := by
  rw [← length_header, tiled.header hp]

/-- And the mark. -/
theorem Tiled.isFree (tiled : Tiled h (pre ++ s :: post)) (hp : fin h.heapStart.toNat pre = p) :
    h.isFree (BitVec.ofNat 64 p) = s.free := by
  rw [← isFree_header, tiled.header hp]

/-- What `header_split` compares with the least length. -/
theorem toInt_rest {m : Nat} (le : n ≤ m) (signed : m < 2 ^ 63) :
    (BitVec.ofNat 64 m - BitVec.ofNat 64 n - headerSize).toInt = m - n - 32 := by
  rw [headerSize, show (32 : Addr) = BitVec.ofNat 64 32 from rfl]
  rw [BitVec.toInt_eq_toNat_cond, BitVec.toNat_sub, BitVec.toNat_sub, BitVec.toNat_ofNat,
    BitVec.toNat_ofNat, BitVec.toNat_ofNat]
  split
  · omega
  · omega

/-- `header_split` on a free segment with room for a second one, the comparison of which is
signed. -/
theorem Tiled.splits (tiled : Tiled h (pre ++ s :: post)) (hp : fin h.heapStart.toNat pre = p)
    (big : 16 ≤ n) (room : n + 48 ≤ s.length) (signed : s.length < 2 ^ 63) :
    Split h (h.headerSplit (BitVec.ofNat 64 p) (BitVec.ofNat 64 n)).2 (BitVec.ofNat 64 p)
      (BitVec.ofNat 64 (p + 32 + n)) (BitVec.ofNat 64 n) (BitVec.ofNat 64 (s.length - n - 32)) := by
  obtain ⟨pos, low, high, small⟩ := tiled.bounds hp
  have rest : h.length (BitVec.ofNat 64 p) - BitVec.ofNat 64 n - headerSize =
      BitVec.ofNat 64 (s.length - n - 32) := by
    apply BitVec.eq_of_toNat_eq
    rw [tiled.length hp, headerSize, BitVec.toNat_sub, BitVec.toNat_sub, BitVec.toNat_ofNat,
      BitVec.toNat_ofNat, BitVec.toNat_ofNat, show (32 : Addr).toNat = 32 from rfl]
    omega
  have place : BitVec.ofNat 64 p + BitVec.ofNat 64 n + headerSize =
      BitVec.ofNat 64 (p + 32 + n) := by
    rw [show headerSize = BitVec.ofNat 64 32 from rfl, ← BitVec.ofNat_add, ← BitVec.ofNat_add,
      Nat.add_right_comm]
  have enough : ¬ BitVec.ofNat 64 n < (0x10 : Addr) := by
    rw [BitVec.lt_def, BitVec.toNat_ofNat, show (0x10 : Addr).toNat = 16 from rfl]
    omega
  have left : ¬ (h.length (BitVec.ofNat 64 p) - BitVec.ofNat 64 n - headerSize).toInt < 0x10 := by
    rw [tiled.length hp, toInt_rest (by omega) signed]
    omega
  have split := headerSplit_split enough left place
    (far_ofNat (a := p) (b := p + 32 + n) (by omega) (by omega)).symm (by
      intro next
      obtain ⟨-, eq, le⟩ := tiled.next hp next
      rw [eq]
      exact (far_ofNat (by omega) (by omega)).symm)
  rwa [rest] at split

/-- A segment that is not much longer is not split. -/
theorem Tiled.whole (tiled : Tiled h (pre ++ s :: post)) (hp : fin h.heapStart.toNat pre = p)
    (le : n ≤ s.length) (tight : s.length < n + 48) (signed : s.length < 2 ^ 63) :
    (h.headerSplit (BitVec.ofNat 64 p) (BitVec.ofNat 64 n)).2 = h := by
  have left : (h.length (BitVec.ofNat 64 p) - BitVec.ofNat 64 n - headerSize).toInt < 0x10 := by
    rw [tiled.length hp, toInt_rest le signed]
    omega
  rw [headerSplit]
  split
  · rfl
  · simp only []
    rw [if_pos left]

/-- The mark alone. -/
theorem Tiled.mark_taken (tiled : Tiled h (pre ++ s :: post)) (hp : fin h.heapStart.toNat pre = p)
    (tight : s.length < n + 48) : Taken h (h.setFree (BitVec.ofNat 64 p) false) pre s post n := by
  have marked := tiled.setFree hp false
  have marks : Rewrites h (h.setFree (BitVec.ofNat 64 p) false) (pre ++ s :: post) :=
    Tiled.setFree_rewrites hp false
  refine ⟨?_, marks.touches tiled, rfl, rfl, rfl⟩
  rw [place, if_neg (by omega), ← List.append_cons]
  exact marked

/-- What `malloc` does with the segment it stops at. -/
theorem Tiled.take (tiled : Tiled h (pre ++ s :: post)) (hp : fin h.heapStart.toNat pre = p)
    (fits : Fits n s) (big : 16 ≤ n) (even : n % 16 = 0) (signed : s.length < 2 ^ 63) :
    Taken h ((h.headerSplit (BitVec.ofNat 64 p) (BitVec.ofNat 64 n)).2.setFree
      (BitVec.ofNat 64 p) false) pre s post n := by
  by_cases room : n + 48 ≤ s.length
  · exact tiled.split_taken hp fits.1 room even (tiled.splits hp big room signed) (by omega)
  · rw [tiled.whole hp fits.2 (by omega) signed]
    exact tiled.mark_taken hp (by omega)

/-- What a round of the loop does with a segment that fits: it splits it where it is longer, marks
it busy and answers with the address behind its header. -/
theorem Tiled.round_fits {fuel : Nat} (tiled : Tiled h (pre ++ s :: post))
    (hp : fin h.heapStart.toNat pre = p) (fits : Fits n s) (signed : h.heapEnd.toNat < 2 ^ 63) :
    mallocLoop (BitVec.ofNat 64 n) (fuel + 1) h (BitVec.ofNat 64 p) =
      some (some (BitVec.ofNat 64 (p + 32),
        (h.headerSplit (BitVec.ofNat 64 p) (BitVec.ofNat 64 n)).2.setFree (BitVec.ofNat 64 p)
          false)) := by
  obtain ⟨pos, low, high, small⟩ := tiled.bounds hp
  obtain ⟨free, le⟩ := fits
  rw [mallocLoop, tiled.isFree hp, tiled.length hp, BitVec.ofNat_add]
  rcases Nat.lt_or_eq_of_le le with lt | eq
  · rw [if_pos]
    · rfl
    · refine ⟨free, ?_⟩
      rw [BitVec.lt_def, BitVec.toNat_ofNat, BitVec.toNat_ofNat]
      omega
  · rw [if_neg, if_pos ⟨free, congrArg _ eq.symm⟩, tiled.whole hp le (by omega) (by omega)]
    · rfl
    · rw [eq]
      exact fun both => absurd both.2 (BitVec.lt_irrefl _)

/-- And with one that does not: it goes on to the next segment, and at the last one it leaves the
loop, so that `malloc` has to expand the heap. -/
theorem Tiled.round_skips {fuel : Nat} (tiled : Tiled h (pre ++ s :: post))
    (hp : fin h.heapStart.toNat pre = p) (skip : ¬ Fits n s) (signed : h.heapEnd.toNat < 2 ^ 63)
    (less : n < 2 ^ 64) :
    mallocLoop (BitVec.ofNat 64 n) (fuel + 1) h (BitVec.ofNat 64 p) =
      if post = [] then some none
      else mallocLoop (BitVec.ofNat 64 n) fuel h (BitVec.ofNat 64 (p + 32 + s.length)) := by
  obtain ⟨pos, low, high, small⟩ := tiled.bounds hp
  have next : h.next (BitVec.ofNat 64 p) =
      BitVec.ofNat 64 (nextOf 0 (p + 32 + s.length) post) := by
    rw [← next_header, tiled.header hp]
  rw [mallocLoop, tiled.isFree hp, tiled.length hp, if_neg, if_neg, next]
  · cases post with
    | nil => rfl
    | cons t post =>
      rw [if_neg (List.cons_ne_nil t post), if_neg]
      · rfl
      · exact ofNat_ne_zero (by show 0 < p + 32 + s.length; omega)
          (by show p + 32 + s.length < _; omega)
  · rintro ⟨free, eq⟩
    have value := congrArg BitVec.toNat eq
    rw [BitVec.toNat_ofNat, BitVec.toNat_ofNat] at value
    exact skip ⟨free, by omega⟩
  · rintro ⟨free, lt⟩
    rw [BitVec.lt_def, BitVec.toNat_ofNat, BitVec.toNat_ofNat] at lt
    exact skip ⟨free, by omega⟩

/-- The loop of `malloc`, from one of the segments on: either none of the rest fits, or the first
that fits is taken. -/
theorem Tiled.loop (big : 16 ≤ n) (even : n % 16 = 0) (less : n < 2 ^ 64)
    (signed : h.heapEnd.toNat < 2 ^ 63) :
    ∀ {fuel : Nat} {pre segs : List Segment} {p : Nat} {answer : Option (Addr × Heap)},
      Tiled h (pre ++ segs) → segs ≠ [] → fin h.heapStart.toNat pre = p →
      mallocLoop (BitVec.ofNat 64 n) fuel h (BitVec.ofNat 64 p) = some answer →
      (answer = none ∧ ∀ s ∈ segs, ¬ Fits n s) ∨
        ∃ h' mid s post, segs = mid ++ s :: post ∧ Fits n s ∧ (∀ s ∈ mid, ¬ Fits n s) ∧
          answer = some (BitVec.ofNat 64 (fin h.heapStart.toNat (pre ++ mid) + 32), h') ∧
          Taken h h' (pre ++ mid) s post n := by
  intro fuel
  -- The fuel counts rounds. `pre` are the segments already passed, none of which fits.
  induction fuel with
  | zero =>
    intro pre segs p answer _ _ _ run
    cases run
  | succ fuel ih =>
    intro pre segs p answer tiled nonempty hp run
    obtain ⟨s, segs, rfl⟩ := List.exists_cons_of_ne_nil nonempty
    obtain ⟨pos, low, high, small⟩ := tiled.bounds hp
    by_cases fits : Fits n s
    · right
      rw [tiled.round_fits hp fits signed] at run
      cases run
      have taken := tiled.take hp fits big even (by omega)
      have none : ∀ t ∈ ([] : List Segment), ¬ Fits n t := fun t mem => nomatch mem
      rw [← List.append_nil pre] at taken hp
      subst hp
      exact ⟨_, [], s, segs, rfl, fits, none, rfl, taken⟩
    · rw [tiled.round_skips hp fits signed less] at run
      split at run
      · next last =>
        cases run
        subst last
        exact Or.inl ⟨rfl, List.forall_mem_singleton.mpr fits⟩
      · next more =>
        have place : fin h.heapStart.toNat (pre ++ [s]) = p + 32 + s.length := by
          rw [fin_append, hp]
          rfl
        rw [List.append_cons] at tiled
        rcases ih tiled more place run with ⟨none, rest⟩ | ⟨h', mid, t, post, rfl, found⟩
        · exact Or.inl ⟨none, List.forall_mem_cons.mpr ⟨fits, rest⟩⟩
        · right
          obtain ⟨fits', first, eq, taken⟩ := found
          rw [List.append_assoc, List.singleton_append] at eq taken
          exact ⟨h', s :: mid, t, post, rfl, fits', List.forall_mem_cons.mpr ⟨fits, first⟩, eq,
            taken⟩

/-- The loop ends: a round goes on to the next segment, and the links of a tiled heap lead to each
segment once. As many rounds as segments are enough. -/
theorem Tiled.loop_some (less : n < 2 ^ 64) (signed : h.heapEnd.toNat < 2 ^ 63) :
    ∀ {fuel : Nat} {pre segs : List Segment} {p : Nat}, Tiled h (pre ++ segs) → segs ≠ [] →
      fin h.heapStart.toNat pre = p → segs.length ≤ fuel →
      ∃ answer, mallocLoop (BitVec.ofNat 64 n) fuel h (BitVec.ofNat 64 p) = some answer := by
  intro fuel
  induction fuel with
  | zero =>
    intro pre segs p _ nonempty _ le
    exact absurd (List.length_eq_zero_iff.mp (Nat.le_zero.mp le)) nonempty
  | succ fuel ih =>
    intro pre segs p tiled nonempty hp le
    obtain ⟨s, segs, rfl⟩ := List.exists_cons_of_ne_nil nonempty
    by_cases fits : Fits n s
    · exact ⟨_, tiled.round_fits hp fits signed⟩
    · rw [tiled.round_skips hp fits signed less]
      split
      · exact ⟨none, rfl⟩
      · next more =>
        rw [List.append_cons] at tiled
        apply ih tiled more _ (Nat.le_of_succ_le_succ le)
        rw [fin_append, hp]
        rfl

end

end Skylight.Heap
