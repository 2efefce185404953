import Skylight.Laws.Heap.Coalesce

/-!
# What realloc copies

`realloc` reads the length of the old block, and copies as many bytes as it was asked for all
the same. When the block has fewer, the rest is what lies behind it, the next header first.

`realloc_copies_iff` is exact: in every state of a run the call copies the block and nothing
else just when it is asked for no more than the length in the header of the block. In both cases
the chain and the other blocks are as before, since only the new block is written; the copy is
the forward one of the source, and old and new block lie apart.
-/

namespace Skylight.Heap

open Bytes

/-- The bytes that `memcpy` reads when `realloc` calls it. -/
def Copied (pointer size : Addr) : Addr → Prop := InRange pointer size.toNat

/-- The length in the header of a block. -/
def payload (h : Heap) (pointer : Addr) : Nat := (h.length (pointer - headerSize)).toNat

/-- A call of `realloc` copies the block and nothing else, and leaves the other blocks and the
chain. -/
structure Copies (w : World) (p size q : Addr) (h' : Heap) : Prop where
  reads : ∀ x, Copied p size x → InRange p (w.heap.payload p) x
  content : ∀ i < min (w.heap.payload p) size.toNat,
    h'.mem (q + BitVec.ofNat 64 i) = w.heap.mem (p + BitVec.ofNat 64 i)
  others : ∀ r n, r ≠ p → w.live r = some n → h'.payload r = w.heap.payload r ∧
    h'.isFree (r - headerSize) = false ∧
    ∀ x, InRange r (w.heap.payload r) x → h'.mem x = w.heap.mem x
  chain : ∃ segs, Tiled h' segs ∧ Merged segs

/-- A byte of a block. -/
def Inside (b : Nat × Nat) (x : Addr) : Prop := b.1 ≤ x.toNat ∧ x.toNat < b.1 + b.2

section
variable {h h₁ h' : Heap} {g : Nat → Addr} {fuel n : Nat} {segs segs₁ : List Segment}
  {size p q x : Addr} {live : Addr → Option Nat} {w : World} {b c : Nat × Nat}

/-! ### Blocks and their headers -/

/-- The length in the header of a block is the block's. -/
theorem Tiled.payload (tiled : Tiled h segs) (mem : b ∈ blocks h.heapStart.toNat segs)
    (start : b.1 = p.toNat) : h.payload p = b.2 ∧ h.isFree (p - headerSize) = false := by
  obtain ⟨pre, s, post, rfl, used, rfl⟩ := mem_blocks mem
  obtain ⟨-, low, high, small⟩ := tiled.bounds rfl
  have place : p - headerSize = BitVec.ofNat 64 (fin h.heapStart.toNat pre) := by
    have start : fin h.heapStart.toNat pre + 32 = p.toNat := start
    apply BitVec.eq_of_toNat_eq
    rw [headerSize, BitVec.toNat_sub, BitVec.toNat_ofNat, show (32 : Addr).toNat = 32 from rfl]
    omega
  rw [Heap.payload, place, tiled.length rfl, tiled.isFree rfl, BitVec.toNat_ofNat]
  exact ⟨Nat.mod_eq_of_lt (by omega), used⟩

/-- A live block is in use, with at least the length that was asked for. -/
theorem Sound.block (sound : Sound h live segs) (there : live p = some n) :
    (p.toNat, h.payload p) ∈ blocks h.heapStart.toNat segs ∧ n ≤ h.payload p := by
  obtain ⟨b, mem, start, le⟩ := sound.holds.there p n there
  rw [(sound.tiled.payload mem start).1, ← start]
  exact ⟨mem, le⟩

/-- A block does not wrap, so its bytes are those between two numbers. -/
theorem Tiled.inside_iff (tiled : Tiled h segs)
    (mem : (p.toNat, n) ∈ blocks h.heapStart.toNat segs) : Inside (p.toNat, n) x ↔
    InRange p n x := by
  have high := (tiled.block_bounds mem).2
  have small := h.heapEnd.isLt
  rw [inRange_iff (Nat.le_of_lt (Nat.lt_of_le_of_lt high small))]
  rfl

/-- What touches no block leaves its bytes. -/
theorem touches_inside (touches : Touches h h' (blocks n segs)) (mem : b ∈ blocks n segs)
    (inside : Inside b x) : h'.mem x = h.mem x := by
  by_contra changed
  exact (touches x changed).2.2 ⟨b, mem, inside⟩

/-! ### The three steps -/

/-- `malloc` leaves the blocks there are, and what it gives is beside them. -/
theorem Sound.malloc_blocks (sound : Sound h live segs) (trim : Trim h)
    (less : size.toNat < 2 ^ 40) (run : h.malloc g fuel size = some (q, h₁)) :
    ∃ segs₁, Tiled h₁ segs₁ ∧ Merged segs₁ ∧
      (∀ b ∈ blocks h.heapStart.toNat segs, b ∈ blocks h₁.heapStart.toNat segs₁ ∧ b.1 ≠ q.toNat ∧
        ∀ x, Inside b x → h₁.mem x = h.mem x) ∧
      (0 < size.toNat → ∃ c ∈ blocks h₁.heapStart.toNat segs₁, c.1 = q.toNat ∧
        size.toNat ≤ c.2) := by
  have trim₁ := sound.malloc_trim trim less run
  rcases sound.malloc less run with ⟨rfl, zero, rfl⟩ | ⟨pos, n, pre, s, post, granted, le⟩
  · refine ⟨segs, sound.tiled, trim.merged _ sound.tiled,
      fun b mem => ⟨mem, ?_, fun _ _ => rfl⟩, ?_⟩
    · intro zero
      have low := (blocks_bounds mem).1
      rw [zero] at low
      exact absurd low (by show ¬ _ ≤ 0; omega)
    · intro pos
      rw [zero] at pos
      exact absurd pos (Nat.lt_irrefl 0)
  · refine ⟨_, granted.tiled, trim₁.merged _ granted.tiled, fun b mem => ?_, fun _ => ?_⟩
    · have there := mem
      rw [granted.others] at there
      refine ⟨?_, ?_, fun x => touches_inside granted.touches mem⟩
      · rw [granted.start, blocks_used granted.used, List.mem_append, List.mem_cons]
        rcases List.mem_append.mp there with left | right
        · exact Or.inl left
        · exact Or.inr (Or.inr right)
      · rw [granted.place]
        exact blocks_ne there
    · refine ⟨(fin h.heapStart.toNat pre + 32, s.length), ?_, granted.place.symm,
        le.trans granted.enough⟩
      rw [granted.start, blocks_used granted.used]
      exact List.mem_append_right _ (List.mem_cons_self ..)

/-- Bytes put into one block are in no other. -/
theorem Tiled.memcpy (tiled : Tiled h segs) (c : Nat × Nat)
    (mem : c ∈ blocks h.heapStart.toNat segs) (start : c.1 = q.toNat) (le : n ≤ c.2) :
    Tiled { h with mem := memcpy h.mem q p n } segs ∧
      ∀ b ∈ blocks h.heapStart.toNat segs, b.1 ≠ q.toNat → ∀ x, Inside b x →
        Bytes.memcpy h.mem q p n x = h.mem x := by
  have high := (tiled.block_bounds mem).2
  have small := h.heapEnd.isLt
  have within (x : Addr) (near : InRange q n x) : Inside c x := by
    rw [inRange_iff (by omega)] at near
    exact ⟨by omega, by omega⟩
  constructor
  · apply tiled.write
    intro x changed
    refine ⟨c, mem, within x ?_⟩
    by_contra off
    exact changed (memcpy_of_not off)
  · intro b hb ne x inside
    apply memcpy_of_not
    intro near
    have apart := blocks_apart hb mem (start ▸ ne)
    obtain ⟨low', high'⟩ := within x near
    obtain ⟨low, high⟩ := inside
    omega

/-- `free` of a block leaves the others. -/
theorem Tiled.free_blocks (tiled : Tiled h segs) (merged : Merged segs)
    (mem : (p.toNat, n) ∈ blocks h.heapStart.toNat segs) :
    ∃ segs', Tiled (h.free p) segs' ∧ Merged segs' ∧
      ∀ b ∈ blocks h.heapStart.toNat segs, b.1 ≠ p.toNat →
        b ∈ blocks (h.free p).heapStart.toNat segs' ∧ ∀ x, Inside b x →
          (h.free p).mem x = h.mem x := by
  obtain ⟨pre, s, post, rfl, used, eq⟩ := mem_blocks mem
  obtain ⟨start, -⟩ := Prod.mk.inj eq
  have place : p = BitVec.ofNat 64 (fin h.heapStart.toNat pre + 32) := by
    rw [← start, BitVec.ofNat_toNat, BitVec.setWidth_eq]
  obtain ⟨tiled', touches, start', -, -⟩ := tiled.free rfl
  rw [← place] at tiled' touches start'
  refine ⟨_, tiled', merged.release, fun b hb ne => ?_⟩
  have stays : b ∈ blocks h.heapStart.toNat (release pre s post) := by
    rw [blocks_release rfl, List.mem_append]
    rw [blocks_used used, List.mem_append, List.mem_cons] at hb
    rcases hb with left | rfl | right
    · exact Or.inl left
    · exact absurd start.symm ne
    · exact Or.inr right
  rw [start']
  exact ⟨stays, fun x => touches_inside touches stays⟩

/-! ### `realloc` -/

/-- The copy of a block, when no more is asked for than there can be. -/
theorem Sound.realloc (sound : Sound h live segs) (trim : Trim h) (there : live p = some n)
    (less : size.toNat < 2 ^ 40) (run : h.realloc g fuel p size = some (q, h')) :
    ∃ h₁ segs', h.malloc g fuel size = some (q, h₁) ∧ Tiled h' segs' ∧ Merged segs' ∧
      (∀ b ∈ blocks h.heapStart.toNat segs, (∀ x, Inside b x → h₁.mem x = h.mem x) ∧
        (b.1 ≠ p.toNat → b ∈ blocks h'.heapStart.toNat segs' ∧
          ∀ x, Inside b x → h'.mem x = h.mem x)) ∧
      (size.toNat ≤ h.payload p →
        ∀ i < size.toNat, h'.mem (q + BitVec.ofNat 64 i) = h₁.mem (p + BitVec.ofNat 64 i)) := by
  obtain ⟨⟨new, h₁⟩, grantedRun, rest⟩ := Option.bind_eq_some_iff.mp run
  obtain ⟨eq, freed⟩ := Prod.mk.inj (Option.some.inj rest)
  have eq : new = q := eq
  subst eq
  obtain ⟨segs₁, tiled₁, merged₁, stay, room⟩ := sound.malloc_blocks trim less grantedRun
  obtain ⟨mem, -⟩ := sound.block there
  have mem₁ := (stay _ mem).1
  -- what is copied lands in a block that was not there
  have copied : ∃ h₂ : Heap, h₂ = { h₁ with mem := memcpy h₁.mem new p size.toNat } ∧
      Tiled h₂ segs₁ ∧ ∀ b ∈ blocks h₁.heapStart.toNat segs₁, b.1 ≠ new.toNat →
        ∀ x, Inside b x → h₂.mem x = h₁.mem x := by
    refine ⟨_, rfl, ?_⟩
    rcases Nat.eq_zero_or_pos size.toNat with zero | pos
    · have same : memcpy h₁.mem new p size.toNat = h₁.mem := by
        funext x
        apply memcpy_of_not
        rw [zero]
        exact Nat.not_lt_zero _
      rw [same]
      exact ⟨tiled₁, fun _ _ _ _ _ => rfl⟩
    · obtain ⟨c, hc, start, le⟩ := room pos
      exact tiled₁.memcpy c hc start le
  obtain ⟨h₂, write, tiled₂, kept⟩ := copied
  have start₂ : h₂.heapStart = h₁.heapStart := by rw [write]
  rw [← write] at freed
  have freed : h₂.free p = h' := freed
  rw [← start₂] at mem₁ kept
  obtain ⟨segs', tiled', merged', keeps⟩ := tiled₂.free_blocks merged₁ mem₁
  rw [freed] at tiled' keeps
  refine ⟨h₁, segs', grantedRun, tiled', merged', fun b hb => ?_, fun within i lt => ?_⟩
  · obtain ⟨hb₁, new, same⟩ := stay b hb
    rw [← start₂] at hb₁
    refine ⟨same, fun ne => ?_⟩
    obtain ⟨hb', same'⟩ := keeps b hb₁ ne
    refine ⟨hb', fun x inside => ?_⟩
    calc h'.mem x = h₂.mem x := same' x inside
      _ = h₁.mem x := kept b hb₁ new x inside
      _ = h.mem x := same x inside
  · obtain ⟨c, hc, start, le⟩ := room (Nat.zero_lt_of_lt lt)
    rw [← start₂] at hc
    have ne : c.1 ≠ p.toNat := by
      rw [start]
      exact fun same => (stay _ mem).2.1 same.symm
    have high := (tiled₂.block_bounds hc).2
    have small := h₂.heapEnd.isLt
    have inside (j : Nat) (less : j < size.toNat) : Inside c (new + BitVec.ofNat 64 j) := by
      constructor <;> rw [BitVec.toNat_add, BitVec.toNat_ofNat] <;> omega
    rw [(keeps c hc ne).2 _ (inside i lt), write]
    -- the old block is read where nothing of the new one lies
    apply memcpy_at (Nat.le_of_lt size.isLt) lt
    intro j less same
    have old := (tiled₂.block_bounds mem₁).2
    have apart := blocks_apart hc mem₁ ne
    obtain ⟨low, top⟩ := inside j (less.trans lt)
    rw [← same, BitVec.toNat_add, BitVec.toNat_ofNat] at low top
    dsimp only at old apart
    omega

/-- `realloc` copies the block and nothing else just when it is asked for no more than the block
has. -/
theorem realloc_copies_iff (reach : World.Reachable g w) (there : w.live p = some n)
    (run : w.heap.realloc g fuel p size = some (q, h')) :
    Copies w p size q h' ↔ size.toNat ≤ w.heap.payload p := by
  obtain ⟨segs, sound⟩ := (reachable_inv reach).sound there
  have trim := reachable_trim reach sound.initialized
  constructor
  · intro copies
    by_contra more
    have inside := copies.reads (p + BitVec.ofNat 64 (w.heap.payload p))
      (inRange_add (Nat.lt_of_not_le more))
    have small : w.heap.payload p < 2 ^ 64 := BitVec.isLt _
    rw [InRange, add_sub_self, BitVec.toNat_ofNat, Nat.mod_eq_of_lt small] at inside
    exact Nat.lt_irrefl _ inside
  · intro le
    obtain ⟨mem, -⟩ := sound.block there
    have high := (sound.tiled.block_bounds mem).2
    have low := (sound.tiled.block_bounds mem).1
    have ends := sound.low
    rw [trim.start, show (0x7f0000000000 : Addr).toNat = 0x7f0000000000 from rfl] at low
    have high : p.toNat + w.heap.payload p ≤ w.heap.heapEnd.toNat := high
    have low : 0x7f0000000000 + 32 ≤ p.toNat := low
    obtain ⟨h₁, segs', -, tiled', merged', blocks', content⟩ :=
      sound.realloc trim there (by omega) run
    refine ⟨fun x near => Nat.lt_of_lt_of_le near le, fun i lt => ?_, fun r m ne other => ?_,
      segs', tiled', merged'⟩
    · rw [content le i (by omega)]
      apply (blocks' _ mem).1
      rw [sound.tiled.inside_iff mem]
      exact inRange_add (by omega)
    · obtain ⟨mem', -⟩ := sound.block other
      obtain ⟨hr, same⟩ := (blocks' _ mem').2 fun eq => ne (BitVec.eq_of_toNat_eq eq)
      obtain ⟨length, used⟩ := tiled'.payload hr rfl
      refine ⟨length, used, fun x near => same x ?_⟩
      rw [sound.tiled.inside_iff mem']
      exact near

end

/-! ### On the machine -/

open Paging (spaceFrames)

/-- The block of the first call, asked for again with `n` bytes. -/
theorem machine_realloc {n : Nat} {size : Addr} (round : roundUp size = BitVec.ofNat 64 n)
    (big : 16 ≤ n) (even : n % 16 = 0) (le : n ≤ 0xfffa0) : ∃ w q h',
      World.Reachable spaceFrames w ∧ w.live 0x7f0000000020 = some 32 ∧
      w.heap.payload 0x7f0000000020 = 32 ∧
      w.heap.realloc spaceFrames 3 0x7f0000000020 size = some (q, h') := by
  obtain ⟨w, reach, init, start, ends, there, -, tiled, -⟩ := machine_ready
  have signed : w.heap.heapEnd.toNat < 2 ^ 63 := by
    rw [ends]
    decide
  obtain ⟨h₁, mid, s, post, -, -, -, call, -, -⟩ := @Tiled.malloc_fits w.heap spaceFrames 2 n _ size
    tiled init round big even (by omega) signed
    ⟨⟨0xfffa0, true⟩, List.mem_cons_of_mem _ (List.mem_singleton_self _), rfl, le⟩
    (Nat.le_refl 2)
  have mem : (0x7f0000000020, 32) ∈
      blocks w.heap.heapStart.toNat [⟨32, false⟩, ⟨0xfffa0, true⟩] := by
    rw [start]
    exact List.mem_cons_self ..
  exact ⟨w, _, _, reach, there, (tiled.payload mem rfl).1,
    Option.bind_eq_some_iff.mpr ⟨_, call, rfl⟩⟩

/-- Sixteen bytes of a block of thirty-two. -/
theorem realloc_copies_machine : ∃ w q h', World.Reachable spaceFrames w ∧
    w.heap.realloc spaceFrames 3 0x7f0000000020 16 = some (q, h') ∧
    Copies w 0x7f0000000020 16 q h' := by
  obtain ⟨w, q, h', reach, there, length, run⟩ :=
    @machine_realloc 16 16 rfl (by decide) rfl (by decide)
  refine ⟨w, q, h', reach, run, (realloc_copies_iff reach there run).mpr ?_⟩
  rw [length]
  decide

/-- Sixty-four bytes of it: the next header is read. -/
theorem realloc_copies_more : ¬ ∀ (g : Nat → Addr) (w : World) (p size q : Addr) (n fuel : Nat)
    (h' : Heap), World.Reachable g w → w.live p = some n →
    w.heap.realloc g fuel p size = some (q, h') → Copies w p size q h' := by
  intro all
  obtain ⟨w, q, h', reach, there, length, run⟩ :=
    @machine_realloc 64 64 rfl (by decide) rfl (by decide)
  have copies := all _ _ _ _ _ _ _ _ reach there run
  have inside := copies.reads (0x7f0000000020 + 32)
    (show InRange 0x7f0000000020 64 _ by decide)
  rw [length] at inside
  exact absurd inside (by decide)

end Skylight.Heap
