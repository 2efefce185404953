import Mathlib.Data.List.Basic
import Skylight.Laws.Heap.Chain

/-!
# Giving a block back

`free` marks the segment, joins it with a free one behind it, and joins the result with a free
one before it. On the list of segments that is `release`, and `Tiled.free` says that the code
does just that, for a pointer that is the payload of one of the segments.

`Rewrites` is what all three steps have in common: they store to headers of the list and to
nothing else, so no payload in use changes. What `free` does with any other pointer is not said,
apart from `free_rest`: it never moves the end of the heap.
-/

namespace Skylight.Heap

open Bytes

/-- The first segment takes in the second if that is free. -/
def joinFirst : List Segment → List Segment
  | s :: t :: segs => if t.free then ⟨s.length + t.length + 32, s.free⟩ :: segs else s :: t :: segs
  | segs => segs

/-- The last segment of the first list takes in the first of the second, if both are free. -/
def joinBack : List Segment → List Segment → List Segment
  | [], segs => segs
  | [r], segs => if r.free then joinFirst (r :: segs) else r :: segs
  | r :: s :: pre, segs => r :: joinBack (s :: pre) segs

/-- The segments when one of them is given back. -/
def release (pre : List Segment) (s : Segment) (post : List Segment) : List Segment :=
  joinBack pre (joinFirst ({ s with free := true } :: post))

/-- A step that writes to headers only. -/
structure Rewrites (h h' : Heap) (segs : List Segment) : Prop where
  writes : ∀ x, h'.mem x ≠ h.mem x →
    ∃ n ∈ headers h.heapStart.toNat segs, InRange (BitVec.ofNat 64 n) 32 x
  start : h'.heapStart = h.heapStart
  ends : h'.heapEnd = h.heapEnd
  initialized : h'.heapInitialized = h.heapInitialized

section
variable {h h' : Heap} {a l p : Nat} {s t : Segment} {pre post segs : List Segment}
  {bs : List (Nat × Nat)}

/-- Nothing stored. -/
theorem Rewrites.refl : Rewrites h h segs where
  writes _ changed := absurd rfl changed
  start := rfl
  ends := rfl
  initialized := rfl

/-- What goes to headers only touches no block. -/
theorem Rewrites.touches (w : Rewrites h h' segs) (tiled : Tiled h segs) :
    Touches h h' (blocks h.heapStart.toNat segs) := by
  intro x changed
  obtain ⟨n, mem, near⟩ := w.writes x changed
  rw [w.start, w.ends]
  exact tiled.touch mem near

/-- The join with the segment before, where that segment is known. -/
theorem joinBack_append (pre : List Segment) (r : Segment) (segs : List Segment) :
    joinBack (pre ++ [r]) segs = pre ++ if r.free then joinFirst (r :: segs) else r :: segs := by
  induction pre with
  | nil => rfl
  | cons q pre ih =>
    rw [List.cons_append, List.cons_append, ← ih]
    cases pre <;> rfl

/-- A join of free segments is no block's business. -/
theorem blocks_joinFirst (free : s.free = true) :
    blocks a (joinFirst (s :: segs)) = blocks a (s :: segs) := by
  cases segs with
  | nil => rfl
  | cons t segs =>
    rw [joinFirst]
    split
    · next ht =>
      rw [blocks, blocks, blocks, if_pos free, if_pos free, if_pos ht]
      congr 1
      show a + 32 + (s.length + t.length + 32) = a + 32 + s.length + 32 + t.length
      omega
    · rfl

/-- A join with what is before is no block's business either. -/
theorem blocks_joinBack :
    blocks a (joinBack pre (s :: segs)) = blocks a (pre ++ s :: segs) := by
  rcases List.eq_nil_or_concat' pre with rfl | ⟨pre, r, rfl⟩
  · rfl
  · rw [joinBack_append, List.append_assoc, blocks_append, blocks_append]
    congr 1
    split
    · next hr => exact blocks_joinFirst hr
    · rfl

/-- The place of a segment is that of one of the headers. -/
theorem header_mem (hp : fin a pre = p) : p ∈ headers a (pre ++ s :: post) := by
  subst hp
  exact headers_append_mem

/-- The place of a header that is not the first. -/
theorem neighbour_mem (hp : fin a pre = p) :
    p + 32 + s.length ∈ headers a (pre ++ s :: t :: post) := by
  rw [List.append_cons]
  apply header_mem
  rw [fin_append, hp]
  rfl

/-- `header_combine_forward` on a segment of the list. -/
theorem Tiled.combineForward (tiled : Tiled h (pre ++ s :: post))
    (hp : fin h.heapStart.toNat pre = p) :
    Tiled (h.headerCombineForward (BitVec.ofNat 64 p)) (pre ++ joinFirst (s :: post)) ∧
      Rewrites h (h.headerCombineForward (BitVec.ofNat 64 p)) (pre ++ s :: post) := by
  obtain ⟨pos, low, high, small⟩ := tiled.bounds hp
  have here := tiled.header hp
  cases post with
  | nil =>
    have none : h.next (BitVec.ofNat 64 p) = 0 := by
      rw [← next_header, here]
      rfl
    rw [headerCombineForward, if_pos none]
    exact ⟨tiled, Rewrites.refl⟩
  | cons t post =>
    obtain ⟨second, fits⟩ := tiled.neighbour hp
    have next : h.next (BitVec.ofNat 64 p) = BitVec.ofNat 64 (p + 32 + s.length) := by
      rw [← next_header, here]
      rfl
    have some : BitVec.ofNat 64 (p + 32 + s.length) ≠ 0 :=
      ofNat_ne_zero (by omega) (by omega)
    have free : h.isFree (BitVec.ofNat 64 (p + 32 + s.length)) = t.free := by
      rw [← isFree_header, second]
    rw [joinFirst]
    split
    · next ht =>
      have place : fin h.heapStart.toNat (pre ++ [s]) = p + 32 + s.length := by
        rw [fin_append, hp]
        rfl
      have tiled' := tiled
      rw [List.append_cons] at tiled'
      have next' : h.next (BitVec.ofNat 64 (p + 32 + s.length)) =
          BitVec.ofNat 64 (nextOf 0 (p + 32 + s.length + 32 + t.length) post) := by
        rw [← next_header, second]
      have behind (z : BitVec.ofNat 64
          (nextOf 0 (p + 32 + s.length + 32 + t.length) post) ≠ 0) := by
        have facts := tiled'.next place (by rw [next']; exact z)
        rwa [next'] at facts
      have join := headerCombineForward_join next next' some (free.trans ht)
        (far_ofNat (by omega) (by omega)) (by
          intro z
          obtain ⟨-, eq, le⟩ := behind z
          rw [eq]
          exact ⟨(far_ofNat (by omega) (by omega)).symm, (far_ofNat (by omega) (by omega)).symm⟩)
      refine ⟨tiled.of_join hp join, ?_, join.start, join.ends, join.initialized⟩
      intro x changed
      rcases join.writes x changed with near | ⟨z, near⟩
      · exact ⟨p, header_mem hp, near⟩
      · obtain ⟨more, eq, -⟩ := behind z
        rw [eq] at near
        obtain ⟨u, rest, rfl⟩ := List.exists_cons_of_ne_nil more
        refine ⟨_, ?_, near⟩
        rw [List.append_cons]
        exact neighbour_mem place
    · next ht =>
      have stay : h.headerCombineForward (BitVec.ofNat 64 p) = h := by
        rw [headerCombineForward, next, if_neg some, free, if_pos]
        rw [Bool.not_eq_true] at ht
        rw [ht]
        rfl
      rw [stay]
      exact ⟨tiled, Rewrites.refl⟩

/-- `header_combine_backward` on a segment of the list. -/
theorem Tiled.combineBackward (tiled : Tiled h (pre ++ s :: post))
    (hp : fin h.heapStart.toNat pre = p) :
    Tiled (h.headerCombineBackward (BitVec.ofNat 64 p)) (joinBack pre (s :: post)) ∧
      Rewrites h (h.headerCombineBackward (BitVec.ofNat 64 p)) (pre ++ s :: post) := by
  have here := tiled.header hp
  have last : h.last (BitVec.ofNat 64 p) = BitVec.ofNat 64 (lastOf 0 h.heapStart.toNat pre) := by
    rw [← last_header, here]
  rcases List.eq_nil_or_concat' pre with rfl | ⟨pre, r, rfl⟩
  · have stay : h.headerCombineBackward (BitVec.ofNat 64 p) = h := by
      rw [headerCombineBackward, if_neg]
      exact fun both => both.1 last
    rw [stay]
    exact ⟨tiled, Rewrites.refl⟩
  · rw [List.append_assoc, List.singleton_append] at tiled ⊢
    have before := tiled.header rfl
    obtain ⟨pos, -, high, small⟩ := tiled.bounds rfl
    rw [lastOf_append] at last
    have last : h.last (BitVec.ofNat 64 p) = BitVec.ofNat 64 (fin h.heapStart.toNat pre) := last
    have mark : h.isFree (BitVec.ofNat 64 (fin h.heapStart.toNat pre)) = r.free := by
      rw [← isFree_header, before]
    rw [joinBack_append, headerCombineBackward, last, mark]
    by_cases hr : r.free = true
    · rw [if_pos hr, if_pos ⟨ofNat_ne_zero pos (by omega), hr⟩]
      exact tiled.combineForward rfl
    · rw [if_neg hr, if_neg fun both => hr both.2]
      exact ⟨tiled, Rewrites.refl⟩

/-- A list that is joined at its front still has a first segment. -/
theorem joinFirst_cons (s : Segment) (segs : List Segment) :
    ∃ t rest, joinFirst (s :: segs) = t :: rest := by
  cases segs with
  | nil => exact ⟨s, [], rfl⟩
  | cons t segs =>
    rw [joinFirst]
    split
    · exact ⟨_, _, rfl⟩
    · exact ⟨_, _, rfl⟩

/-- The block is gone, and no other is. -/
theorem blocks_release (hp : fin a pre = p) :
    blocks a (release pre s post) = blocks a pre ++ blocks (p + 32 + s.length) post := by
  obtain ⟨t, rest, eq⟩ := joinFirst_cons { s with free := true } post
  rw [release, eq, blocks_joinBack, ← eq, blocks_append, blocks_joinFirst rfl, hp]
  rfl

/-- A mark is in a header. -/
theorem Tiled.setFree_rewrites (hp : fin h.heapStart.toNat pre = p) (f : Bool) :
    Rewrites h (h.setFree (BitVec.ofNat 64 p) f) (pre ++ s :: post) where
  writes x changed := by
    refine ⟨p, header_mem hp, ?_⟩
    by_contra off
    exact changed (setFree_mem off)
  start := rfl
  ends := rfl
  initialized := rfl

/-- What `free` does with the block of a segment: the segment becomes free, joined with the one
behind it and then with the one before it, where these are free. -/
theorem Tiled.free (tiled : Tiled h (pre ++ s :: post)) (hp : fin h.heapStart.toNat pre = p) :
    let h' := h.free (BitVec.ofNat 64 (p + 32))
    Tiled h' (release pre s post) ∧
      Touches h h' (blocks h.heapStart.toNat (release pre s post)) ∧
      h'.heapStart = h.heapStart ∧ h'.heapEnd = h.heapEnd ∧
      h'.heapInitialized = h.heapInitialized := by
  have address : BitVec.ofNat 64 (p + 32) - headerSize = BitVec.ofNat 64 p := by
    rw [headerSize, BitVec.ofNat_add]
    exact BitVec.add_sub_cancel _ _
  intro h'
  have marked := tiled.setFree hp true
  have marks : Rewrites h (h.setFree (BitVec.ofNat 64 p) true) (pre ++ s :: post) :=
    Tiled.setFree_rewrites hp true
  obtain ⟨joined, forward⟩ := marked.combineForward hp
  obtain ⟨t, rest, eq⟩ := joinFirst_cons { s with free := true } post
  rw [eq] at joined
  have place : fin ((h.setFree (BitVec.ofNat 64 p) true).headerCombineForward
      (BitVec.ofNat 64 p)).heapStart.toNat pre = p := by
    rw [forward.start]
    exact hp
  obtain ⟨last, backward⟩ := joined.combineBackward place
  rw [← eq] at last backward
  have same : h' = ((h.setFree (BitVec.ofNat 64 p) true).headerCombineForward
      (BitVec.ofNat 64 p)).headerCombineBackward (BitVec.ofNat 64 p) := by
    show h.free _ = _
    rw [Heap.free, address]
  have start := backward.start.trans forward.start
  have ends := backward.ends.trans forward.ends
  have one := marks.touches tiled
  have two := forward.touches marked
  have three := backward.touches (eq ▸ joined)
  rw [same]
  refine ⟨last, ?_, start, ends, backward.initialized.trans forward.initialized⟩
  -- after the mark the blocks are those that stay, and no join changes them
  have blocks₁ : blocks (h.setFree (BitVec.ofNat 64 p) true).heapStart.toNat
      (pre ++ { s with free := true } :: post) =
        blocks h.heapStart.toNat (release pre s post) := by
    rw [blocks_release hp, blocks_append]
    show _ ++ blocks (fin h.heapStart.toNat pre) _ = _
    rw [hp]
    rfl
  have blocks₂ : blocks ((h.setFree (BitVec.ofNat 64 p) true).headerCombineForward
      (BitVec.ofNat 64 p)).heapStart.toNat (pre ++ joinFirst ({ s with free := true } :: post)) =
        blocks h.heapStart.toNat (release pre s post) := by
    rw [← blocks₁, forward.start, blocks_append, blocks_append, blocks_joinFirst rfl]
  rw [blocks₁] at two
  rw [blocks₂] at three
  apply Touches.trans _ three backward.start (Nat.le_of_eq (congrArg _ backward.ends.symm))
  apply Touches.trans _ two forward.start (Nat.le_of_eq (congrArg _ forward.ends.symm))
  apply one.mono
  rw [blocks_release hp, blocks_append, hp, blocks]
  split
  · exact List.Subset.refl _
  · intro b mem
    rcases List.mem_append.mp mem with mem | mem
    · exact List.mem_append_left _ mem
    · exact List.mem_append_right _ (List.mem_cons_of_mem _ mem)

/-- A join moves no end of the heap. -/
theorem headerCombineForward_rest (h : Heap) (y : Addr) :
    (h.headerCombineForward y).heapEnd = h.heapEnd ∧
      (h.headerCombineForward y).heapInitialized = h.heapInitialized := by
  rw [headerCombineForward]
  split
  · exact ⟨rfl, rfl⟩
  · split
    · exact ⟨rfl, rfl⟩
    · simp only []
      split
      · split
        · exact ⟨rfl, rfl⟩
        · exact ⟨rfl, rfl⟩
      · split
        · exact ⟨rfl, rfl⟩
        · exact ⟨rfl, rfl⟩

/-- `free` leaves `heap_end` and the flag of an initialized heap, whatever it is called with; the
heap never gives pages back. -/
theorem free_rest (h : Heap) (y : Addr) : (h.free y).heapEnd = h.heapEnd ∧
    (h.free y).heapInitialized = h.heapInitialized := by
  rw [Heap.free, headerCombineBackward]
  obtain ⟨ends, init⟩ := headerCombineForward_rest (h.setFree (y - headerSize) true)
    (y - headerSize)
  split
  · obtain ⟨ends', init'⟩ := headerCombineForward_rest
      ((h.setFree (y - headerSize) true).headerCombineForward (y - headerSize))
      (((h.setFree (y - headerSize) true).headerCombineForward (y - headerSize)).last
        (y - headerSize))
    exact ⟨ends'.trans ends, init'.trans init⟩
  · exact ⟨ends, init⟩

end

end Skylight.Heap
