import Skylight.Mem.Heap.Allocator

/-!
# Headers

A header is four fields of 32 bytes, read and written one at a time by the code. The laws say
what a write to one field does to that header, read back as a record, and that it does nothing
to a header that is `Far`, that is one whose bytes are not among its own.

Everything about the heap's lists goes through these laws: the modules above never look at the
bytes of a header again. Nothing is said of headers that overlap, which the chain of segments
excludes.
-/

namespace Skylight

open Bytes

namespace Heap

/-- `heap_seg_header_t` -/
@[ext] structure Header where
  length : Addr
  next : Addr
  last : Addr
  free : Bool

/-- The header at an address. -/
def header (h : Heap) (a : Addr) : Header := ⟨h.length a, h.next a, h.last a, h.isFree a⟩

/-- Headers at these addresses do not overlap. -/
def Far (a b : Addr) : Prop := 32 ≤ (a - b).toNat ∧ 32 ≤ (b - a).toNat

section
variable {h h' : Heap} {a b x v d e : Addr} {f : Bool} {m : Memory} {c : BitVec 8}

theorem next_header : (h.header a).next = h.next a := rfl

theorem length_header : (h.header a).length = h.length a := rfl

theorem last_header : (h.header a).last = h.last a := rfl

theorem isFree_header : (h.header a).free = h.isFree a := rfl

/-- Far headers are far from each other either way. -/
theorem Far.symm (far : Far a b) : Far b a := ⟨far.2, far.1⟩

/-- A header that begins behind another, with none of the two wrapping, is far from it. -/
theorem far_of_le (le : a.toNat + 32 ≤ b.toNat) (fits : b.toNat + 32 ≤ 2 ^ 64) : Far a b := by
  have := a.isLt
  rw [Far, BitVec.toNat_sub, BitVec.toNat_sub]
  omega

/-- A header is not far from itself. -/
theorem Far.ne (far : Far a b) : a ≠ b := by
  rintro rfl
  have zero := far.1
  rw [BitVec.sub_self] at zero
  exact absurd zero (by decide)

/-- Headers far from each other share no byte. -/
theorem Far.not_inRange (far : Far a b) (near : InRange b 32 x) : ¬ InRange a 32 x := by
  obtain ⟨one, two⟩ := far
  rw [InRange, BitVec.toNat_sub] at near
  rw [InRange, BitVec.toNat_sub]
  rw [BitVec.toNat_sub] at one two
  have := a.isLt
  have := b.isLt
  have := x.isLt
  omega

/-! ### Fields of one header -/

theorem add_sub_add (a d e : Addr) : a + d - (a + e) = d - e := by
  apply BitVec.eq_of_toNat_eq
  rw [BitVec.toNat_sub, BitVec.toNat_sub, BitVec.toNat_add, BitVec.toNat_add]
  have := a.isLt
  have := e.isLt
  omega

/-- A field is left by a write to another field of the same header. -/
theorem load_store_field (hd : 8 ≤ (d - e).toNat) (he : 8 ≤ (e - d).toNat) :
    load (store m (a + d) v) (a + e) = load m (a + e) := by
  apply load_store_of_apart
  · rw [add_sub_add]
    exact hd
  · rw [add_sub_add]
    exact he

/-- The first field written leaves the others. -/
theorem load_store_first (he : 8 ≤ (0 - e).toNat) (he' : 8 ≤ (e - 0).toNat) :
    load (store m a v) (a + e) = load m (a + e) := by
  have same := load_store_field (m := m) (a := a) (v := v) he he'
  rwa [show a + 0 = a from BitVec.add_zero a] at same

/-- Another field written leaves the first. -/
theorem load_first_store (hd : 8 ≤ (d - 0).toNat) (hd' : 8 ≤ (0 - d).toNat) :
    load (store m (a + d) v) a = load m a := by
  have same := load_store_field (m := m) (a := a) (v := v) hd hd'
  rwa [show a + 0 = a from BitVec.add_zero a] at same

/-- A word written beside a byte. -/
theorem store_byte (apart : 8 ≤ (x - a).toNat) : store m a v x = m x :=
  store_of_not (Nat.not_lt.mpr apart)

/-- A byte written beside a word. -/
theorem load_update (apart : 8 ≤ (x - a).toNat) : load (Function.update m x c) a = load m a := by
  apply load_congr
  intro y near
  apply Function.update_of_ne
  rintro rfl
  exact absurd near (Nat.not_lt.mpr apart)

/-- `length` is written, and the other fields are as before. -/
theorem header_setLength (h : Heap) (a v : Addr) :
    (h.setLength a v).header a = { h.header a with length := v } := by
  ext1
  · exact load_store v
  · exact load_store_first (by decide) (by decide)
  · exact load_store_first (by decide) (by decide)
  · show (store h.mem a v (a + 24) != 0) = _
    rw [store_byte]
    · rfl
    · rw [add_sub_self]
      decide

/-- `next` is written, and the other fields are as before. -/
theorem header_setNext (h : Heap) (a v : Addr) :
    (h.setNext a v).header a = { h.header a with next := v } := by
  ext1
  · exact load_first_store (by decide) (by decide)
  · exact load_store v
  · exact load_store_field (by decide) (by decide)
  · show (store h.mem (a + 8) v (a + 24) != 0) = _
    rw [store_byte]
    · rfl
    · rw [add_sub_add]
      decide

/-- `last` is written, and the other fields are as before. -/
theorem header_setLast (h : Heap) (a v : Addr) :
    (h.setLast a v).header a = { h.header a with last := v } := by
  ext1
  · exact load_first_store (by decide) (by decide)
  · exact load_store_field (by decide) (by decide)
  · exact load_store v
  · show (store h.mem (a + 16) v (a + 24) != 0) = _
    rw [store_byte]
    · rfl
    · rw [add_sub_add]
      decide

/-- The mark is written, and the other fields are as before. -/
theorem header_setFree (h : Heap) (a : Addr) (f : Bool) :
    (h.setFree a f).header a = { h.header a with free := f } := by
  ext1
  · apply load_update
    rw [add_sub_self]
    decide
  · apply load_update
    rw [add_sub_add]
    decide
  · apply load_update
    rw [add_sub_add]
    decide
  · show (Function.update h.mem (a + 24) (if f then 1 else 0) (a + 24) != 0) = f
    rw [Function.update_self]
    cases f <;> rfl

/-! ### Other headers -/

/-- A field lies in its header. -/
theorem field_inRange (hd : d.toNat ≤ 24) (near : InRange (a + d) 8 x) : InRange a 32 x := by
  rw [InRange, BitVec.toNat_sub, BitVec.toNat_add] at near
  rw [InRange, BitVec.toNat_sub]
  have := a.isLt
  have := x.isLt
  omega

/-- A header is read from its own bytes. -/
theorem header_congr (same : ∀ x, InRange a 32 x → h'.mem x = h.mem x) :
    h'.header a = h.header a := by
  have field {d : Addr} (hd : d.toNat ≤ 24) (x : Addr) (near : InRange (a + d) 8 x) :
      h'.mem x = h.mem x := same x (field_inRange hd near)
  ext1
  · apply load_congr
    have first := field (d := 0) (by decide)
    rwa [show a + 0 = a from BitVec.add_zero a] at first
  · exact load_congr (field (by decide))
  · exact load_congr (field (by decide))
  · show (h'.mem (a + 24) != 0) = (h.mem (a + 24) != 0)
    rw [field (d := 24) (by decide) (a + 24)]
    rw [InRange, BitVec.sub_self]
    decide

/-- A write to `length` leaves every byte outside the header. -/
theorem setLength_mem (off : ¬ InRange a 32 x) : (h.setLength a v).mem x = h.mem x := by
  apply store_of_not
  intro near
  apply off (field_inRange (d := 0) (by decide) _)
  rwa [show a + 0 = a from BitVec.add_zero a]

/-- A write to `next` leaves every byte outside the header. -/
theorem setNext_mem (off : ¬ InRange a 32 x) : (h.setNext a v).mem x = h.mem x :=
  store_of_not fun near => off (field_inRange (by decide) near)

/-- A write to `last` leaves every byte outside the header. -/
theorem setLast_mem (off : ¬ InRange a 32 x) : (h.setLast a v).mem x = h.mem x :=
  store_of_not fun near => off (field_inRange (by decide) near)

/-- A write to the mark leaves every byte outside the header. -/
theorem setFree_mem (off : ¬ InRange a 32 x) : (h.setFree a f).mem x = h.mem x := by
  apply Function.update_of_ne
  rintro rfl
  apply off
  rw [InRange, add_sub_self]
  decide

/-- It leaves the headers far away. -/
theorem header_setLength_far (far : Far a b) : (h.setLength a v).header b = h.header b :=
  header_congr fun _ near => setLength_mem (far.not_inRange near)

theorem header_setNext_far (far : Far a b) : (h.setNext a v).header b = h.header b :=
  header_congr fun _ near => setNext_mem (far.not_inRange near)

theorem header_setLast_far (far : Far a b) : (h.setLast a v).header b = h.header b :=
  header_congr fun _ near => setLast_mem (far.not_inRange near)

theorem header_setFree_far (far : Far a b) : (h.setFree a f).header b = h.header b :=
  header_congr fun _ near => setFree_mem (far.not_inRange near)

end

end Heap

end Skylight
