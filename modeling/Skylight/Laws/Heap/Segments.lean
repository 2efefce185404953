import Skylight.Laws.Heap.Headers

/-!
# Segments

The heap as the list of its segments. A segment begins where the one before it ends, so lengths
and marks are all there is to say; the links say it again, and must agree (`Linked`).

The list is the abstract state of the heap: `blocks` are the payloads in use, `headers` the
places of the headers, `fin` where the list ends. The laws are those of lists put one behind the
other, and that payloads and headers lie apart; that the code keeps such a list is proved in the
modules that follow.
-/

namespace Skylight.Heap

open Bytes

/-- A segment: the length of its payload, and whether it is free. -/
structure Segment where
  length : Nat
  free : Bool
  deriving DecidableEq

/-- Where segments that begin at `a` end. -/
def fin (a : Nat) : List Segment → Nat
  | [] => a
  | s :: segs => fin (a + 32 + s.length) segs

/-- The header of the last one of them, `l` if there is none. -/
def lastOf (l a : Nat) : List Segment → Nat
  | [] => l
  | s :: segs => lastOf a (a + 32 + s.length) segs

/-- The payloads that are not free, and their lengths. -/
def blocks (a : Nat) : List Segment → List (Nat × Nat)
  | [] => []
  | s :: segs =>
    if s.free then blocks (a + 32 + s.length) segs
    else (a + 32, s.length) :: blocks (a + 32 + s.length) segs

/-- The headers. -/
def headers (a : Nat) : List Segment → List Nat
  | [] => []
  | s :: segs => a :: headers (a + 32 + s.length) segs

/-- What the `next` of a segment that ends at `b` is: `nxt` behind the last one. -/
def nextOf (nxt b : Nat) : List Segment → Nat
  | [] => nxt
  | _ :: _ => b

/-- Headers that link segments from `a` on. The `last` of the first one is `l` and the `next` of
the last one is `nxt`. -/
def Linked (hd : Addr → Header) (nxt : Nat) : Nat → Nat → List Segment → Prop
  | _, _, [] => True
  | l, a, s :: segs =>
    hd (BitVec.ofNat 64 a) = ⟨BitVec.ofNat 64 s.length,
      BitVec.ofNat 64 (nextOf nxt (a + 32 + s.length) segs), BitVec.ofNat 64 l, s.free⟩ ∧
    Linked hd nxt a (a + 32 + s.length) segs

/-- A byte of one of the blocks. -/
def Used (bs : List (Nat × Nat)) (x : Addr) : Prop :=
  ∃ b ∈ bs, b.1 ≤ x.toNat ∧ x.toNat < b.1 + b.2

section
variable {hd hd' : Addr → Header} {nxt l a b n : Nat} {s t : Segment} {xs ys segs : List Segment}
  {x : Addr} {q : Nat × Nat}

/-- Segments one behind the other end where the second list does. -/
theorem fin_append : fin a (xs ++ ys) = fin (fin a xs) ys := by
  induction xs generalizing a with
  | nil => rfl
  | cons s xs ih => exact ih

/-- The last header of two lists is that of the second, seen from the end of the first. -/
theorem lastOf_append : lastOf l a (xs ++ ys) = lastOf (lastOf l a xs) (fin a xs) ys := by
  induction xs generalizing l a with
  | nil => rfl
  | cons s xs ih => exact ih

/-- The blocks of two lists are those of the first and those of the second behind it. -/
theorem blocks_append : blocks a (xs ++ ys) = blocks a xs ++ blocks (fin a xs) ys := by
  induction xs generalizing a with
  | nil => rfl
  | cons s xs ih =>
    rw [List.cons_append, blocks, blocks, ih, fin]
    cases s.free <;> rfl

/-- And so are the headers. -/
theorem headers_append : headers a (xs ++ ys) = headers a xs ++ headers (fin a xs) ys := by
  induction xs generalizing a with
  | nil => rfl
  | cons s xs ih => rw [List.cons_append, headers, headers, ih, fin, List.cons_append]

/-- Segments end behind where they begin. -/
theorem le_fin : a ≤ fin a segs := by
  induction segs generalizing a with
  | nil => exact Nat.le_refl a
  | cons s segs ih =>
    calc a ≤ a + 32 + s.length := by omega
      _ ≤ fin (a + 32 + s.length) segs := ih

/-- Links in two parts. -/
theorem linked_append : Linked hd nxt l a (xs ++ s :: ys) ↔
    Linked hd (fin a xs) l a xs ∧ Linked hd nxt (lastOf l a xs) (fin a xs) (s :: ys) := by
  induction xs generalizing l a with
  | nil => exact ⟨fun h => ⟨trivial, h⟩, fun h => h.2⟩
  | cons t xs ih =>
    have same : nextOf nxt (a + 32 + t.length) (xs ++ s :: ys) =
        nextOf (fin a (t :: xs)) (a + 32 + t.length) xs := by
      cases xs <;> rfl
    rw [List.cons_append, Linked, ih, same, ← and_assoc]
    rfl

/-- Only the headers of the segments matter. -/
theorem Linked.congr_headers (h : Linked hd nxt l a segs)
    (same : ∀ b ∈ headers a segs, hd' (BitVec.ofNat 64 b) = hd (BitVec.ofNat 64 b)) :
    Linked hd' nxt l a segs := by
  induction segs generalizing l a with
  | nil => trivial
  | cons s segs ih =>
    rw [headers, List.forall_mem_cons] at same
    constructor
    · rw [same.1]
      exact h.1
    · exact ih h.2 same.2

/-- All payloads end before the segments do. -/
theorem blocks_bounds (mem : q ∈ blocks a segs) : a + 32 ≤ q.1 ∧ q.1 + q.2 ≤ fin a segs := by
  induction segs generalizing a with
  | nil => cases mem
  | cons s segs ih =>
    rw [blocks] at mem
    have room : a + 32 + s.length ≤ fin (a + 32 + s.length) segs := le_fin
    have later (mem : q ∈ blocks (a + 32 + s.length) segs) :
        a + 32 ≤ q.1 ∧ q.1 + q.2 ≤ fin a (s :: segs) := by
      obtain ⟨low, high⟩ := ih mem
      exact ⟨by omega, high⟩
    split at mem
    · exact later mem
    · rcases List.mem_cons.mp mem with rfl | mem
      · exact ⟨Nat.le_refl _, room⟩
      · exact later mem

/-- A header lies between the two ends of the list. -/
theorem headers_bounds (mem : n ∈ headers a segs) : a ≤ n ∧ n + 32 ≤ fin a segs := by
  induction segs generalizing a with
  | nil => cases mem
  | cons s segs ih =>
    have room : a + 32 + s.length ≤ fin (a + 32 + s.length) segs := le_fin
    rcases List.mem_cons.mp mem with rfl | mem
    · exact ⟨Nat.le_refl _, by rw [fin]; omega⟩
    · obtain ⟨low, high⟩ := ih mem
      exact ⟨by omega, high⟩

/-- They lie between the two ends. -/
theorem Linked.congr (h : Linked hd nxt l a segs)
    (same : ∀ b, a ≤ b → b + 32 ≤ fin a segs →
      hd' (BitVec.ofNat 64 b) = hd (BitVec.ofNat 64 b)) : Linked hd' nxt l a segs := by
  apply h.congr_headers
  intro b mem
  exact same b (headers_bounds mem).1 (headers_bounds mem).2

/-- No payload meets a header. -/
theorem blocks_headers (mem : q ∈ blocks a segs) (hn : n ∈ headers a segs) :
    q.1 + q.2 ≤ n ∨ n + 32 ≤ q.1 := by
  induction segs generalizing a with
  | nil => cases mem
  | cons s segs ih =>
    rw [blocks] at mem
    have above (mem : q ∈ blocks (a + 32 + s.length) segs) : q.1 + q.2 ≤ n ∨ n + 32 ≤ q.1 := by
      rcases List.mem_cons.mp hn with rfl | hn
      · have := (blocks_bounds mem).1
        omega
      · exact ih mem hn
    split at mem
    · exact above mem
    · rcases List.mem_cons.mp mem with rfl | mem
      · rcases List.mem_cons.mp hn with rfl | hn
        · exact Or.inr (Nat.le_refl _)
        · exact Or.inl (headers_bounds hn).1
      · exact above mem

theorem headers_append_mem : fin a xs ∈ headers a (xs ++ s :: ys) := by
  rw [headers_append]
  exact List.mem_append_right _ (List.mem_cons_self ..)

end

end Skylight.Heap
