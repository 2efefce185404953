import Skylight.Laws.Heap.Copy

/-!
# Sizes near the end of the range

`malloc` rounds up to 16 and `heap_expand` to pages, both modulo `2 ^ 64`. Sizes whose pages come
out as none give the heap a segment that begins where it ends; a product that wraps gives a block
that is too short.

Proved is when exactly a call answers as it should, for every size and every state that runs reach:
`malloc_serves` and `calloc_serves` on the heap that is searched, `sizes_iff` on any heap. A size
may also fail for want of pages: what a call takes behind the heap must be mapped (`Obtainable`),
and it must be below `2 ^ 47`, where the addresses of the lower half end. That `heap_expand` has no
such bound itself is why `Low` is part of what a call has to keep. What the processor does above
that bound is not modelled, and neither is what becomes of the heap after a call that did not
answer.
-/

namespace Skylight.Heap

open Bytes

/-- The rounding of `heap_expand`. -/
def expandLength (length : Addr) : Addr :=
  if length % 0x1000 ≠ 0 then length - length % 0x1000 + 0x1000 else length

/-- The pages of one expansion for `malloc(size)`. -/
def pagesFor (size : Addr) : Nat := (expandLength (roundUp size) / 0x1000).toNat

/-- The heap that a call searches first: the one there is, or the one it initializes. -/
def Starts (g : Nat → Addr) (h h₁ : Heap) : Prop :=
  h.heapInitialized = true ∧ h₁ = h ∨
    h.heapInitialized = false ∧ ∃ fuel, h.heapInitialize g fuel 0x7f0000000000 256 = some h₁

/-- The answer is `NULL`, or a block inside the heap with room for `n` bytes, and the segments tile
the heap. -/
def Answers (h : Heap) (q : Addr) (n : Nat) : Prop :=
  ∃ segs, Tiled h segs ∧ (q = 0 ∨ ∃ L, (q.toNat, L) ∈ blocks h.heapStart.toNat segs ∧
    h.heapStart.toNat ≤ q.toNat ∧ q.toNat + L ≤ h.heapEnd.toNat ∧ n ≤ L)

/-- The pages that a call maps behind the heap are in the lower half of the addresses. -/
def Low (g : Nat → Addr) (fuel : Nat) (h : Heap) (size : Addr) : Prop :=
  ∃ k, expansions g fuel h size = some k ∧ h.heapEnd.toNat + k * pagesFor size * 0x1000 < 2 ^ 47

/-- A call that searches `h` first returns, with such an answer. -/
def Returns (g : Nat → Addr) (h : Heap) (size : Addr) (call : Nat → Option (Addr × Heap))
    (n : Nat) :
    Prop :=
  ∃ deep, ∀ fuel, deep ≤ fuel → Low g fuel h size ∧
    ∃ q h', call fuel = some (q, h') ∧ Answers h' q n

/-- A call on `h` does, whether it has to initialize the heap or not. -/
def Serves (g : Nat → Addr) (h : Heap) (size : Addr) (call : Nat → Option (Addr × Heap)) (n : Nat) :
    Prop :=
  ∃ h₁, Starts g h h₁ ∧ Returns g h₁ size call n

/-- What `malloc(size)` takes can be had: the pages of the expansions until the size fits can be
mapped behind the heap, in the lower half. -/
def Obtainable (g : Nat → Addr) (h : Heap) (size : Addr) : Prop :=
  ∃ segs k, Tiled h segs ∧ Rounds ((size.toNat + 15) / 16 * 16) k segs ∧
    (∃ fuel, (growPages g fuel (k * pagesFor size) h).isSome) ∧
    h.heapEnd.toNat + k * pagesFor size * 0x1000 < 2 ^ 47

section
variable {h h₁ h' : Heap} {g : Nat → Addr} {fuel fuel' n a l nxt : Nat} {segs : List Segment}
  {size elements q y : Addr} {answer : Option (Addr × Heap)}

/-! ### The heap that is searched -/

/-- More fuel changes nothing for pages that were mapped. -/
theorem mapPages_deeper {m : Nat} (run : mapPages g fuel m h y = some h') (le : fuel ≤ fuel') :
    mapPages g fuel' m h y = some h' := by
  induction m generalizing h y with
  | zero => exact run
  | succ m ih =>
    obtain ⟨h₁, first, rest⟩ := Option.bind_eq_some_iff.mp run
    exact Option.bind_eq_some_iff.mpr ⟨h₁, mapPage_deeper first le, ih rest⟩

/-- Nor for the first segment. -/
theorem heapInitialize_deeper {pages : Addr} (run : h.heapInitialize g fuel y pages = some h')
    (le : fuel ≤ fuel') : h.heapInitialize g fuel' y pages = some h' := by
  obtain ⟨h₁, mapped, rest⟩ := Option.bind_eq_some_iff.mp run
  exact Option.bind_eq_some_iff.mpr ⟨h₁, mapPages_deeper mapped le, rest⟩

/-- A call on a heap is one on the heap it starts with. -/
theorem Starts.malloc (starts : Starts g h h₁) : ∃ deep, ∀ fuel, deep ≤ fuel → ∀ size,
    h.malloc g fuel size = h₁.malloc g fuel size := by
  rcases starts with ⟨-, rfl⟩ | ⟨fresh, fuel₀, first⟩
  · exact ⟨0, fun _ _ _ => rfl⟩
  · obtain ⟨-, -, -, -, init⟩ := initialize_tiled first
    refine ⟨fuel₀ + 1, fun fuel le size => ?_⟩
    obtain ⟨fuel, rfl⟩ := Nat.exists_eq_add_of_le' (Nat.le_trans (Nat.le_add_left 1 _) le)
    exact malloc_initialize fresh (heapInitialize_deeper first (Nat.le_of_succ_le_succ le)) init

/-- `calloc` is `malloc` of the product, and zeros. -/
theorem calloc_eq : h.calloc g fuel elements size =
    (h.malloc g fuel (elements * size)).map fun r =>
      (r.1, { r.2 with mem := memset r.2.mem r.1 0 (elements * size).toNat }) := by
  rw [calloc]
  cases h.malloc g fuel (elements * size) with
  | none => rfl
  | some r => rfl

/-- A call of `calloc` on a heap is one on the heap it starts with. -/
theorem Starts.calloc (starts : Starts g h h₁) : ∃ deep, ∀ fuel, deep ≤ fuel → ∀ elements size,
    h.calloc g fuel elements size = h₁.calloc g fuel elements size := by
  obtain ⟨deep, same⟩ := starts.malloc
  refine ⟨deep, fun fuel le elements size => ?_⟩
  rw [calloc_eq, calloc_eq, same fuel le]

/-- The heap that a call starts with is tiled. -/
theorem Starts.tiled {w : World} (reach : World.Reachable g w) (starts : Starts g w.heap h₁) :
    ∃ segs, Tiled h₁ segs ∧ h₁.heapInitialized = true ∧ h₁.heapEnd.toNat < 2 ^ 47 := by
  rcases starts with ⟨init, rfl⟩ | ⟨-, fuel, first⟩
  · obtain ⟨segs, sound⟩ := reachable_sound reach init
    exact ⟨segs, sound.tiled, init, sound.low⟩
  · obtain ⟨tiled, -, -, ends, init⟩ := initialize_tiled first
    refine ⟨_, tiled, init, ?_⟩
    rw [ends]
    decide

/-- A call that is another call returns as that does. -/
theorem Returns.congr {call call' : Nat → Option (Addr × Heap)} (returns : Returns g h size call n)
    (same : ∃ deep, ∀ fuel, deep ≤ fuel → call' fuel = call fuel) : Returns g h size call' n := by
  obtain ⟨deep, served⟩ := returns
  obtain ⟨deep', same⟩ := same
  refine ⟨max deep deep', fun fuel le => ?_⟩
  rw [same fuel (le_of_max_le_right le)]
  exact served fuel (le_of_max_le_left le)

/-! ### Sizes that are rounded without a carry -/

/-- The first of the sizes that `heap_expand` rounds to nothing comes after this one. -/
theorem roundUp_small (small : size.toNat ≤ 2 ^ 64 - 4096) :
    roundUp size = BitVec.ofNat 64 ((size.toNat + 15) / 16 * 16) := by
  rw [← roundUp_toNat (by omega), BitVec.ofNat_toNat, BitVec.setWidth_eq]

/-- The pages of an expansion, for a size that is not rounded past the last page. -/
theorem pagesFor_small (small : size.toNat ≤ 2 ^ 64 - 4096) :
    pagesFor size = wholePages ((size.toNat + 15) / 16 * 16) / 4096 := by
  have bounds := wholePages_bounds ((size.toNat + 15) / 16 * 16)
  rw [pagesFor, roundUp_small small, expandLength, expand_length (by omega), BitVec.toNat_udiv,
    BitVec.toNat_ofNat, show (0x1000 : Addr).toNat = 4096 from rfl]
  omega

theorem roundUp_zero (zero : size.toNat = 0) : roundUp size = 0 := by
  rw [roundUp_small (by omega), zero]
  rfl

/-- A call that asks for nothing, or rounds to it. -/
theorem malloc_null (init : h.heapInitialized = true) (none : roundUp size = 0) :
    h.malloc g (fuel + 1) size = some (0, h) := by
  rw [Heap.malloc, init, none]
  rfl

/-- A block granted is an answer. -/
theorem Granted.answers {segs pre post : List Segment} {s : Segment}
    (granted : Granted h h' segs q n pre s post) {m : Nat} (le : m ≤ n) : Answers h' q m := by
  have mem : (q.toNat, s.length) ∈ blocks h'.heapStart.toNat (pre ++ s :: post) := by
    rw [granted.start, blocks_used granted.used, granted.place]
    exact List.mem_append_right _ (List.mem_cons_self ..)
  have bounds := granted.tiled.block_bounds mem
  refine ⟨_, granted.tiled, Or.inr ⟨s.length, mem, ?_, bounds.2, le.trans granted.enough⟩⟩
  exact (Nat.le_add_right _ 32).trans bounds.1

/-- A size that rounds to nothing asks for no expansion. -/
theorem expansions_null (init : h.heapInitialized = true) (none : roundUp size = 0) :
    expansions g (fuel + 1) h size = some 0 := by
  rw [expansions, init, none]
  rfl

/-- What is not rounded past the last page is rounded to whole pages. -/
theorem wholePages_small (small : size.toNat ≤ 2 ^ 64 - 4096) :
    wholePages ((size.toNat + 15) / 16 * 16) = pagesFor size * 0x1000 := by
  have bounds := wholePages_bounds ((size.toNat + 15) / 16 * 16)
  rw [pagesFor_small small]
  omega

/-- Where a heap was made longer, its pages could be mapped. -/
theorem Grown.pages (grown : Grown g n m h h') (less : n + 4096 ≤ 2 ^ 64) :
    ∃ fuel, (growPages g fuel (m * (wholePages n / 4096)) h).isSome := by
  have pages : (BitVec.ofNat 64 (wholePages n) / 0x1000).toNat = wholePages n / 4096 := by
    have bounds := wholePages_bounds n
    rw [BitVec.toNat_udiv, BitVec.toNat_ofNat, show (0x1000 : Addr).toNat = 4096 from rfl]
    omega
  induction grown with
  | refl h =>
    rw [Nat.zero_mul]
    exact ⟨0, rfl⟩
  | @step h h₁ h' m fuel none grow rest ih =>
    obtain ⟨fuel', more⟩ := ih
    obtain ⟨h₂, more⟩ := Option.isSome_iff_exists.mp more
    obtain ⟨h₃, mapped, eq⟩ := Option.bind_eq_some_iff.mp grow
    simp only [expand_length less, pages] at mapped
    obtain ⟨h₄, again, tables, ends⟩ := heapExpand_maps (g := g) less mapped
    obtain rfl : h₄ = h₁ := Option.some.inj (again.symm.trans grow)
    obtain ⟨h₅, more, -⟩ := growPages_congr more tables.symm ends.symm
    refine ⟨max fuel fuel', Option.isSome_iff_exists.mpr ⟨h₅, ?_⟩⟩
    rw [Nat.succ_mul, Nat.add_comm, growPages_add]
    exact Option.bind_eq_some_iff.mpr ⟨h₃, growPages_deeper mapped (le_max_left ..),
      growPages_deeper more (le_max_right ..)⟩

/-- A size that is not too near the end, where its pages can be had. -/
theorem Obtainable.returns (obtainable : Obtainable g h size) (init : h.heapInitialized = true)
    (pos : 0 < size.toNat) (small : size.toNat ≤ 2 ^ 64 - 4096) :
    ∃ segs, Tiled h segs ∧ ∃ deep, ∀ fuel, deep ≤ fuel → Low g fuel h size ∧
      ∃ q h', h.malloc g fuel size = some (q, h') ∧
        ∃ n pre s post, Granted h h' segs q n pre s post ∧ size.toNat ≤ n := by
  have round := roundUp_small small
  have whole := wholePages_small small
  obtain ⟨segs, k, tiled, rounds, ⟨fuel₀, maps⟩, low⟩ := obtainable
  have count : k * pagesFor size = k * (wholePages ((size.toNat + 15) / 16 * 16) / 4096) := by
    rw [whole, Nat.mul_div_cancel _ (by decide)]
  rw [Nat.mul_assoc, ← whole] at low
  rw [count] at maps
  have pages : ∀ k, k * pagesFor size * 0x1000 =
      k * wholePages ((size.toNat + 15) / 16 * 16) := by
    intro k
    rw [Nat.mul_assoc, whole]
  generalize rounded : (size.toNat + 15) / 16 * 16 = n at *
  have bounds := wholePages_bounds n
  -- one expansion is short: it is below the bound, or the size fits in the heap there is
  have short : wholePages n < 2 ^ 48 := by
    cases k with
    | zero =>
      obtain ⟨s, mem, -, le⟩ := rounds.enough
      obtain ⟨pre, post, rfl⟩ := List.append_of_mem mem
      have high := (tiled.bounds rfl).2.2.1
      rw [Nat.zero_mul, Nat.add_zero] at low
      omega
    | succ k =>
      rw [Nat.succ_mul] at low
      omega
  obtain ⟨h₁, maps⟩ := Option.isSome_iff_exists.mp maps
  obtain ⟨deep, returns⟩ := tiled.malloc_returns init round (by omega) (by omega)
    (by rw [Nat.succ_mul]; omega) rounds maps
  refine ⟨segs, tiled, deep, fun fuel le => ?_⟩
  obtain ⟨⟨q, h'⟩, call⟩ := returns fuel le
  obtain ⟨-, count⟩ := tiled.malloc_rounds init round (by omega) (by omega) (by omega) rounds call
  obtain ⟨pre, s, post, granted⟩ :=
    tiled.malloc init round (by omega) (by omega) (by omega) call
  exact ⟨⟨k, count, by rw [pages]; exact low⟩, q, h', call, n, pre, s, post, granted, by omega⟩

/-- A call that returns and stays low has had what it takes, and does not answer `NULL`. -/
theorem Tiled.obtainable (tiled : Tiled h segs) (init : h.heapInitialized = true)
    (pos : 0 < size.toNat) (small : size.toNat ≤ 2 ^ 64 - 4096) (low : Low g fuel h size)
    (call : h.malloc g fuel size = some (q, h')) : Obtainable g h size ∧ q ≠ 0 := by
  have round := roundUp_small small
  have whole := wholePages_small small
  obtain ⟨k, count, low⟩ := low
  have bound := low
  rw [Nat.mul_assoc, ← whole] at low
  have pages : k * pagesFor size = k * (wholePages ((size.toNat + 15) / 16 * 16) / 4096) := by
    rw [whole, Nat.mul_div_cancel _ (by decide)]
  generalize rounded : (size.toNat + 15) / 16 * 16 = n at *
  have bounds := wholePages_bounds n
  obtain ⟨k', h₁, fuel', grown, count', search⟩ :=
    malloc_grown init round (by omega) (by omega) (by omega) call
  obtain rfl := Option.some.inj (count.symm.trans count')
  obtain ⟨tiled₁, start, ends⟩ := tiled.grown (by omega) grown (by omega)
  obtain ⟨mid, s, post, eq, fits, -, rfl⟩ :=
    tiled₁.found (by omega) (by omega) (by omega) (by omega) search
  have rounds : Rounds n k segs :=
    ⟨tiled.grown_early (by omega) (by omega) (by omega) grown, s, eq ▸ List.mem_append_cons_self,
      fits⟩
  rw [eq] at tiled₁
  obtain ⟨-, -, high, -⟩ := tiled₁.bounds rfl
  refine ⟨⟨segs, k, tiled, rounded.symm ▸ rounds, ?_, bound⟩, ofNat_ne_zero (by omega) (by omega)⟩
  rw [pages]
  exact grown.pages (by omega)

/-! ### Sizes that are rounded to no page -/

/-- The multiples of 16 behind the last page. -/
def Wraps (n : Nat) : Prop := 2 ^ 64 - 4096 < n ∧ n < 2 ^ 64 ∧ n % 16 = 0

/-- A segment that begins where the heap ends. -/
structure Overrun (h : Heap) (segs : List Segment) : Prop where
  nonempty : segs ≠ []
  linked : Linked h.header h.heapEnd.toNat 0 h.heapStart.toNat segs
  ends : fin h.heapStart.toNat segs = h.heapEnd.toNat
  beyond : ∃ last, h.header h.heapEnd = ⟨0 - headerSize, 0, last, true⟩
  last : h.lastHeader = h.heapEnd

/-- A length behind the last page is rounded to nothing. -/
theorem expandLength_wraps (wraps : Wraps n) :
    (if BitVec.ofNat 64 n % 0x1000 ≠ 0 then
      BitVec.ofNat 64 n - BitVec.ofNat 64 n % 0x1000 + 0x1000 else BitVec.ofNat 64 n) = 0 := by
  obtain ⟨low, high, -⟩ := wraps
  have value : (BitVec.ofNat 64 n).toNat = n := by
    rw [BitVec.toNat_ofNat]
    omega
  have rem : (BitVec.ofNat 64 n % 0x1000).toNat = n % 4096 := by
    rw [BitVec.toNat_umod, value]
    rfl
  have odd : BitVec.ofNat 64 n % 0x1000 ≠ 0 := by
    intro zero
    rw [zero, show (0 : Addr).toNat = 0 from rfl] at rem
    omega
  rw [if_pos odd]
  apply BitVec.eq_of_toNat_eq
  rw [BitVec.toNat_add, BitVec.toNat_sub, rem, value, show (0x1000 : Addr).toNat = 4096 from rfl,
    show (0 : Addr).toNat = 0 from rfl]
  omega

/-- Nothing is mapped, and a header is written all the same. -/
theorem heapExpand_wraps (wraps : Wraps n) : h.heapExpand g fuel (BitVec.ofNat 64 n) =
    some ((h.writeSegment h.heapEnd (0 - headerSize)).headerCombineBackward h.heapEnd) := by
  rw [heapExpand]
  simp only [expandLength_wraps wraps]
  rfl

/-- A search that finds nothing in the list goes on behind it. -/
theorem Linked.search (linked : Linked h.header nxt l a segs) (some : segs ≠ [])
    (less : n < 2 ^ 64) (short : fin a segs ≤ n) (pos : 0 < nxt) (small : nxt < 2 ^ 64)
    (run : mallocLoop (BitVec.ofNat 64 n) fuel h (BitVec.ofNat 64 a) = Option.some answer) :
    ∃ fuel', mallocLoop (BitVec.ofNat 64 n) fuel' h (BitVec.ofNat 64 nxt) =
      Option.some answer := by
  -- No segment is long enough, so the search comes to what the last one leads to.
  induction segs generalizing a l fuel with
  | nil => exact absurd rfl some
  | cons s segs ih =>
    cases fuel with
    | zero => cases run
    | succ fuel =>
      have room : a + 32 + s.length ≤ fin a (s :: segs) := le_fin
      have length : h.length (BitVec.ofNat 64 a) = BitVec.ofNat 64 s.length := by
        rw [← length_header, linked.1]
      have next : h.next (BitVec.ofNat 64 a) =
          BitVec.ofNat 64 (nextOf nxt (a + 32 + s.length) segs) := by
        rw [← next_header, linked.1]
      have shorter : (BitVec.ofNat 64 s.length).toNat < (BitVec.ofNat 64 n).toNat := by
        rw [BitVec.toNat_ofNat, BitVec.toNat_ofNat]
        omega
      have more : BitVec.ofNat 64 (nextOf nxt (a + 32 + s.length) segs) ≠ 0 := by
        cases segs with
        | nil => exact ofNat_ne_zero pos small
        | cons t segs =>
          exact ofNat_ne_zero (by show 0 < a + 32 + s.length; omega)
            (by show a + 32 + s.length < _; omega)
      rw [mallocLoop, length, if_neg, if_neg, next, if_neg more] at run
      · cases segs with
        | nil => exact ⟨fuel, run⟩
        | cons t segs => exact ih linked.2 (List.cons_ne_nil t segs) short run
      · rintro ⟨-, eq⟩
        rw [eq] at shorter
        exact Nat.lt_irrefl _ shorter
      · rintro ⟨-, lt⟩
        exact Nat.lt_asymm shorter lt

theorem headerSplit_ends (h : Heap) (a v : Addr) : (h.headerSplit a v).2.heapEnd = h.heapEnd := by
  rw [headerSplit]
  split
  · rfl
  · simp only []
    split
    · rfl
    · simp only []
      split <;> split <;> rfl

/-- A search through an overrun heap finds nothing, or the segment behind the end. -/
theorem Overrun.search (past : Overrun h segs) (wraps : Wraps n) (low : h.heapEnd.toNat < 2 ^ 47)
    (run : mallocLoop (BitVec.ofNat 64 n) fuel h h.heapStart = some answer) :
    answer = none ∨ ∃ h', answer = some (h.heapEnd + headerSize, h') ∧ h'.heapEnd = h.heapEnd := by
  have pos : h.heapStart.toNat + 32 ≤ h.heapEnd.toNat := by
    obtain ⟨s, rest, rfl⟩ := List.exists_cons_of_ne_nil past.nonempty
    rw [← past.ends]
    exact (Nat.le_add_right _ s.length).trans le_fin
  obtain ⟨less, high, -⟩ := wraps
  rw [← BitVec.setWidth_eq h.heapStart, ← BitVec.ofNat_toNat] at run
  obtain ⟨fuel, run⟩ := past.linked.search past.nonempty high (by rw [past.ends]; omega) (by omega)
    h.heapEnd.isLt run
  rw [BitVec.ofNat_toNat, BitVec.setWidth_eq] at run
  obtain ⟨last, beyond⟩ := past.beyond
  have next : h.next h.heapEnd = 0 := by
    rw [← next_header, beyond]
  cases fuel with
  | zero => cases run
  | succ fuel =>
    rw [mallocLoop] at run
    split at run
    · exact Or.inr ⟨_, (Option.some.inj run).symm, headerSplit_ends h _ _⟩
    · split at run
      · exact Or.inr ⟨_, (Option.some.inj run).symm, rfl⟩
      · exact Or.inl (Option.some.inj run).symm

/-- The writes of `heap_expand` once more at the same place. -/
theorem writeSegment_again (last : h.lastHeader = y) {v : Addr} :
    (h.writeSegment y v).header y = ⟨v, 0, y, true⟩ := by
  rw [writeSegment, header_setLength, header_setNext]
  show Header.mk v 0 (((h.setFree y true).setLast y h.lastHeader).setNext h.lastHeader y
    |>.header y).last (((h.setFree y true).setLast y h.lastHeader).setNext h.lastHeader y
    |>.header y).free = _
  rw [last, header_setNext, header_setLast, header_setFree]

/-- Another expansion leaves an overrun heap overrun. -/
theorem Overrun.expand (past : Overrun h segs) (low : h.heapEnd.toNat < 2 ^ 47) :
    Overrun ((h.writeSegment h.heapEnd (0 - headerSize)).headerCombineBackward h.heapEnd) segs := by
  have here := writeSegment_again past.last (v := 0 - headerSize)
  have stay : (h.writeSegment h.heapEnd (0 - headerSize)).headerCombineBackward h.heapEnd =
      h.writeSegment h.heapEnd (0 - headerSize) := by
    rw [headerCombineBackward, ← last_header, here]
    split
    · rw [headerCombineForward, ← next_header, here]
      rfl
    · rfl
  rw [stay]
  refine ⟨past.nonempty, ?_, past.ends, ⟨h.heapEnd, here⟩, rfl⟩
  apply past.linked.congr
  intro b _ le
  have far : Far h.heapEnd (BitVec.ofNat 64 b) := by
    rw [← BitVec.setWidth_eq h.heapEnd, ← BitVec.ofNat_toNat]
    rw [past.ends] at le
    exact (far_ofNat le (by omega)).symm
  exact writeSegment_far far (past.last ▸ far)

theorem length_back (v : Addr) : v + (0 - headerSize) + headerSize = v := by
  rw [BitVec.add_assoc, BitVec.sub_add_cancel]
  exact BitVec.add_zero v

/-- A heap is tiled by the headers it has, whatever the other bytes are. -/
theorem Tiled.of_headers (tiled : Tiled h segs)
    (same : ∀ b ∈ headers h.heapStart.toNat segs,
      h'.header (BitVec.ofNat 64 b) = h.header (BitVec.ofNat 64 b))
    (start : h'.heapStart = h.heapStart) (ends : h'.heapEnd = h.heapEnd)
    (last : h'.lastHeader = h.lastHeader) : Tiled h' segs := by
  refine ⟨tiled.nonempty, ?_, ?_, ?_, start ▸ tiled.start, tiled.lengths⟩
  · rw [start]
    exact tiled.linked.congr_headers same
  · rw [start, ends, tiled.ends]
  · rw [start, last, tiled.last]

/-- The first one overruns the heap, or comes to nothing when its last segment is free. -/
theorem Tiled.expand_wraps (tiled : Tiled h segs) (low : h.heapEnd.toNat < 2 ^ 47) :
    let h' := (h.writeSegment h.heapEnd (0 - headerSize)).headerCombineBackward h.heapEnd
    Tiled h' segs ∨ Overrun h' segs := by
  intro h'
  obtain ⟨linked, here⟩ := @Tiled.writeSegment_linked h segs (0 - headerSize) tiled (by omega)
  obtain ⟨pre, s, rfl⟩ := (List.eq_nil_or_concat' segs).resolve_left tiled.nonempty
  obtain ⟨pos, -, high, -⟩ := tiled.bounds rfl
  have place : h.lastHeader = BitVec.ofNat 64 (fin h.heapStart.toNat pre) :=
    (tiled.lastHeader_iff rfl).mpr rfl
  have stop : fin h.heapStart.toNat pre + 32 + s.length = h.heapEnd.toNat := by
    rw [← tiled.ends, fin_append]
    rfl
  have far : Far h.lastHeader h.heapEnd := by
    rw [place, ← BitVec.setWidth_eq h.heapEnd, ← BitVec.ofNat_toNat]
    exact far_ofNat (by omega) (by omega)
  have some : h.lastHeader ≠ 0 := by
    rw [place]
    exact ofNat_ne_zero pos (by omega)
  have tail := writeSegment_last (v := 0 - headerSize) far
  have before := tiled.header rfl
  rw [← place] at before
  have last : (h.writeSegment h.heapEnd (0 - headerSize)).last h.heapEnd = h.lastHeader := by
    rw [← last_header, here]
  have mark : (h.writeSegment h.heapEnd (0 - headerSize)).isFree h.lastHeader = s.free := by
    rw [← isFree_header, tail, before]
  have step : h' = if h.lastHeader ≠ 0 ∧ s.free = true then
      (h.writeSegment h.heapEnd (0 - headerSize)).headerCombineForward h.lastHeader
      else h.writeSegment h.heapEnd (0 - headerSize) := by
    show headerCombineBackward _ _ = _
    rw [headerCombineBackward, last, mark]
  by_cases free : s.free = true
  · left
    rw [if_pos ⟨some, free⟩] at step
    have join : Join (h.writeSegment h.heapEnd (0 - headerSize)) h' h.lastHeader h.heapEnd 0 := by
      rw [step]
      apply headerCombineForward_join _ _ _ _ far (fun z => absurd rfl z)
      · rw [← next_header, tail]
      · rw [← next_header, here]
      · intro zero
        rw [zero] at stop
        exact absurd stop (by show _ ≠ 0; omega)
      · rw [← isFree_header, here]
    -- the last header is as it was before it led anywhere
    have again : h'.header h.lastHeader = h.header h.lastHeader := by
      rw [join.first, ← length_header, ← length_header, tail, here, before]
      show Header.mk (BitVec.ofNat 64 s.length + (0 - headerSize) + headerSize) 0 _ _ = _
      rw [length_back]
      rfl
    apply tiled.of_headers _ join.start join.ends
    · rw [join.last]
      exact if_pos rfl
    · intro b mem
      rw [headers_append] at mem
      rcases List.mem_append.mp mem with mem | mem
      · have le := (headers_bounds mem).2
        have near : Far h.lastHeader (BitVec.ofNat 64 b) := by
          rw [place]
          exact (far_ofNat le (by omega)).symm
        have near' : Far h.heapEnd (BitVec.ofNat 64 b) := by
          rw [← BitVec.setWidth_eq h.heapEnd, ← BitVec.ofNat_toNat]
          exact (far_ofNat (by omega) (by omega)).symm
        rw [join.others _ near fun z => absurd rfl z, writeSegment_far near' near]
      · rw [List.mem_singleton.mp mem, ← place]
        exact again
  · right
    rw [if_neg fun both => free both.2] at step
    rw [step]
    exact ⟨tiled.nonempty, linked, tiled.ends, ⟨_, here⟩, rfl⟩

/-- A call for such a size that returns gives a block behind the end of the heap. -/
theorem malloc_outside (state : Tiled h segs ∨ Overrun h segs) (init : h.heapInitialized = true)
    (low : h.heapEnd.toNat < 2 ^ 47) (wraps : Wraps n) (round : roundUp size = BitVec.ofNat 64 n)
    (run : h.malloc g fuel size = some (q, h')) :
    q = h.heapEnd + headerSize ∧ h'.heapEnd = h.heapEnd := by
  -- A heap that was overrun once stays so: the header is written at the same place each time.
  induction fuel generalizing h size with
  | zero => cases run
  | succ fuel ih =>
    have ⟨less, high, even⟩ := wraps
    rw [malloc_succ init round (by omega) high] at run
    obtain ⟨answer, search, run⟩ := Option.bind_eq_some_iff.mp run
    have found : answer = none ∨ ∃ h', answer = some (h.heapEnd + headerSize, h') ∧
        h'.heapEnd = h.heapEnd := by
      rcases state with tiled | past
      · left
        cases answer with
        | none => rfl
        | some block =>
          obtain ⟨mid, s, post, eq, fits, -⟩ :=
            tiled.found (by omega) even high (by omega) search
          rw [eq] at tiled
          have ends := (tiled.bounds rfl).2.2.1
          exact absurd fits.2 (by omega)
      · exact past.search wraps low search
    rcases found with rfl | ⟨h₁, rfl, ends⟩
    · obtain ⟨h₁, grow, run⟩ := Option.bind_eq_some_iff.mp run
      have init₁ := heapExpand_initialized grow
      rw [heapExpand_wraps wraps] at grow
      have ends : h₁.heapEnd = h.heapEnd := by
        rw [← Option.some.inj grow]
        exact (headerCombineBackward_ends _ h.heapEnd).2
      have state₁ : Tiled h₁ segs ∨ Overrun h₁ segs := by
        rw [← Option.some.inj grow]
        rcases state with tiled | past
        · exact tiled.expand_wraps low
        · exact Or.inr (past.expand low)
      have later := ih state₁ (init₁.trans init) (by rw [ends]; exact low)
          (roundUp_even even high) run
      rw [ends] at later
      exact later
    · obtain ⟨rfl, rfl⟩ := Prod.mk.inj (Option.some.inj run)
      exact ⟨rfl, ends⟩

/-- A size behind the last page is rounded to one of the lengths that wrap. -/
theorem roundUp_wraps (low : 2 ^ 64 - 4096 < size.toNat) (high : size.toNat ≤ 2 ^ 64 - 16) :
    ∃ n, Wraps n ∧ roundUp size = BitVec.ofNat 64 n := by
  refine ⟨(size.toNat + 15) / 16 * 16, ⟨by omega, by omega, by omega⟩, ?_⟩
  rw [← roundUp_toNat (by omega), BitVec.ofNat_toNat, BitVec.setWidth_eq]

/-- The last sizes of all are rounded to nothing by `malloc` itself. -/
theorem roundUp_null (high : 2 ^ 64 - 16 < size.toNat) : roundUp size = 0 := by
  have small := size.isLt
  have rem : (size % 0x10).toNat = size.toNat % 16 := BitVec.toNat_umod
  rw [roundUp, if_pos]
  · apply BitVec.eq_of_toNat_eq
    rw [BitVec.toNat_add, BitVec.toNat_sub, rem, show (0x10 : Addr).toNat = 16 from rfl,
      show (0 : Addr).toNat = 0 from rfl]
    omega
  · rw [gt_iff_lt, BitVec.lt_def, rem, show (0 : Addr).toNat = 0 from rfl]
    omega

/-! ### What is served -/

/-- `NULL` is an answer. -/
theorem answers_null (tiled : Tiled h segs) : Answers h 0 n := ⟨segs, tiled, Or.inl rfl⟩

/-- A block behind the end is no answer. -/
theorem not_answers_outside (low : h.heapEnd.toNat < 2 ^ 47) :
    ¬ Answers h (h.heapEnd + headerSize) n := by
  have place : (h.heapEnd + headerSize).toNat = h.heapEnd.toNat + 32 := by
    rw [headerSize, BitVec.toNat_add, show (32 : Addr).toNat = 32 from rfl]
    omega
  rintro ⟨segs, -, zero | ⟨L, -, -, high, -⟩⟩
  · have value := congrArg BitVec.toNat zero
    rw [place, show (0 : Addr).toNat = 0 from rfl] at value
    omega
  · rw [place] at high
    omega

/-- `malloc` serves the sizes that are rounded to nothing, and of the others those that are not
rounded past the last page and whose pages can be had. -/
theorem Tiled.malloc_serves (tiled : Tiled h segs) (init : h.heapInitialized = true)
    (low : h.heapEnd.toNat < 2 ^ 47) :
    Returns g h size (h.malloc g · size) size.toNat ↔
      size.toNat = 0 ∨ 2 ^ 64 - 16 < size.toNat ∨
        size.toNat ≤ 2 ^ 64 - 4096 ∧ Obtainable g h size := by
  have null (none : roundUp size = 0) : Returns g h size (h.malloc g · size) size.toNat := by
    refine ⟨1, fun fuel le => ?_⟩
    obtain ⟨fuel, rfl⟩ := Nat.exists_eq_add_of_le' le
    refine ⟨⟨0, expansions_null init none, ?_⟩, 0, h, malloc_null init none, answers_null tiled⟩
    rwa [Nat.zero_mul, Nat.zero_mul]
  constructor
  · rintro ⟨deep, served⟩
    obtain ⟨bound, q, h', call, answers⟩ := served deep (Nat.le_refl deep)
    by_contra bad
    rw [not_or, not_or] at bad
    obtain ⟨some, low', none⟩ := bad
    by_cases small : size.toNat ≤ 2 ^ 64 - 4096
    · exact none ⟨small, (tiled.obtainable init (by omega) small bound call).1⟩
    · obtain ⟨n, wraps, round⟩ := @roundUp_wraps size (by omega) (by omega)
      obtain ⟨rfl, ends⟩ := malloc_outside (Or.inl tiled) init low wraps round call
      rw [← ends] at answers
      exact not_answers_outside (by rw [ends]; exact low) answers
  · rintro (zero | high | ⟨small, obtainable⟩)
    · exact null (roundUp_zero zero)
    · exact null (roundUp_null high)
    · rcases Nat.eq_zero_or_pos size.toNat with zero | pos
      · exact null (roundUp_zero zero)
      obtain ⟨segs', tiled', deep, served⟩ := obtainable.returns init pos small
      refine ⟨deep, fun fuel le => ?_⟩
      obtain ⟨bound, q, h', call, n, pre, s, post, granted, enough⟩ := served fuel le
      exact ⟨bound, q, h', call, granted.answers enough⟩

/-- A heap whose first header is cleared is no list of segments. -/
theorem not_tiled_cleared {m : Nat} (low : h.heapEnd.toNat < 2 ^ 47) (many : 2 ^ 47 ≤ m) :
    ¬ Tiled { h with mem := memset h.mem 0 0 m } segs := by
  intro tiled
  obtain ⟨s, rest, rfl⟩ := List.exists_cons_of_ne_nil tiled.nonempty
  have ends : fin h.heapStart.toNat (s :: rest) = h.heapEnd.toNat := tiled.ends
  have room : h.heapStart.toNat + 32 + s.length ≤ fin h.heapStart.toNat (s :: rest) := le_fin
  have length := congrArg Header.length tiled.linked.1
  rw [header, Heap.length] at length
  dsimp only at length
  rw [BitVec.ofNat_toNat, BitVec.setWidth_eq] at length
  have none : load (memset h.mem 0 0 m) h.heapStart = load (fun _ => 0) h.heapStart := by
    apply load_congr
    intro x near
    rw [inRange_iff (by omega)] at near
    apply if_pos
    rw [InRange, show (x - 0).toNat = x.toNat from congrArg BitVec.toNat (BitVec.sub_zero x)]
    omega
  have zero : load (fun _ => 0) h.heapStart = 0 := by
    simp [load, loadBytes]
  have pos := (tiled.lengths s (List.mem_cons_self ..)).1
  rw [none, zero] at length
  exact ofNat_ne_zero pos (by omega) length.symm

/-- Bytes put into the block that was given. -/
theorem Answers.fill (answers : Answers h q n) (null : q = 0 → n = 0) {m : Memory}
    (inside : ∀ x, m x ≠ h.mem x → InRange q n x) : Answers { h with mem := m } q n := by
  obtain ⟨segs, tiled, given⟩ := answers
  refine ⟨segs, ?_, given⟩
  apply tiled.write
  intro x changed
  have near := inside x changed
  rcases given with zero | ⟨L, mem, low, high, le⟩
  · rw [null zero] at near
    exact absurd near (Nat.not_lt_zero _)
  · have small := h.heapEnd.isLt
    rw [inRange_iff (by omega)] at near
    exact ⟨_, mem, near.1, by show _ < q.toNat + L; omega⟩

/-- `calloc` serves a product that is nothing modulo `2 ^ 64`, or is not rounded past the last
page and whose pages can be had. -/
theorem Tiled.calloc_serves (tiled : Tiled h segs) (init : h.heapInitialized = true)
    (low : h.heapEnd.toNat < 2 ^ 47) :
    Returns g h (elements * size) (h.calloc g · elements size) (elements.toNat * size.toNat) ↔
      2 ^ 64 ∣ elements.toNat * size.toNat ∨
        elements.toNat * size.toNat ≤ 2 ^ 64 - 4096 ∧ Obtainable g h (elements * size) := by
  have value : (elements * size).toNat = elements.toNat * size.toNat % 2 ^ 64 := BitVec.toNat_mul ..
  constructor
  · rintro ⟨deep, served⟩
    obtain ⟨bound, q, h', call, answers⟩ := served deep (Nat.le_refl deep)
    have call : h.calloc g deep elements size = Option.some (q, h') := call
    rw [calloc_eq] at call
    obtain ⟨⟨q', h₁⟩, call', eq⟩ := Option.map_eq_some_iff.mp call
    obtain ⟨rfl, rfl⟩ := Prod.mk.inj eq
    by_contra bad
    rw [not_or, Nat.dvd_iff_mod_eq_zero] at bad
    obtain ⟨some, large⟩ := bad
    by_cases small : (elements * size).toNat ≤ 2 ^ 64 - 4096
    · obtain ⟨obtainable, ne⟩ := tiled.obtainable init (by omega) small bound call'
      -- the product has wrapped, and no block is as long as that
      have wrapped : ¬ elements.toNat * size.toNat ≤ 2 ^ 64 - 4096 :=
        fun le => large ⟨le, obtainable⟩
      obtain ⟨segs', tiled', zero | ⟨L, -, -, high, le⟩⟩ := answers
      · exact ne zero
      · have small := h₁.heapEnd.isLt
        have high : q'.toNat + L ≤ h₁.heapEnd.toNat := high
        omega
    · by_cases high : 2 ^ 64 - 16 < (elements * size).toNat
      · cases deep with
        | zero => cases call'
        | succ deep =>
          rw [malloc_null init (roundUp_null high)] at call'
          obtain ⟨rfl, rfl⟩ := Prod.mk.inj (Option.some.inj call')
          obtain ⟨segs', tiled', -⟩ := answers
          exact not_tiled_cleared low (by omega) tiled'
      · obtain ⟨n, wraps, round⟩ := @roundUp_wraps (elements * size) (by omega) (by omega)
        obtain ⟨rfl, ends⟩ := malloc_outside (Or.inl tiled) init low wraps round call'
        rw [← ends] at answers low
        generalize hm : memset _ _ _ _ = m at answers
        exact not_answers_outside (h := { h₁ with mem := m }) low answers
  · intro good
    rcases Nat.eq_zero_or_pos (elements * size).toNat with zero | pos
    · have none := roundUp_zero zero
      refine ⟨1, fun fuel le => ?_⟩
      obtain ⟨fuel, rfl⟩ := Nat.exists_eq_add_of_le' le
      refine ⟨⟨0, expansions_null init none, by rwa [Nat.zero_mul, Nat.zero_mul]⟩, 0, _,
        calloc_eq.trans (congrArg _ (malloc_null init none)), ?_⟩
      have same : memset h.mem 0 0 (elements * size).toNat = h.mem := by
        funext x
        apply memset_of_not
        rw [zero]
        exact Nat.not_lt_zero _
      show Answers { h with mem := memset h.mem 0 0 (elements * size).toNat } 0 _
      rw [same]
      exact answers_null tiled
    · have exact' : elements.toNat * size.toNat = (elements * size).toNat ∧
          Obtainable g h (elements * size) := by
        rcases good with ⟨k, eq⟩ | ⟨le, obtainable⟩
        · rw [value, eq, Nat.mul_mod_right] at pos
          exact absurd pos (Nat.lt_irrefl 0)
        · exact ⟨by omega, obtainable⟩
      obtain ⟨exact', obtainable⟩ := exact'
      have small : (elements * size).toNat ≤ 2 ^ 64 - 4096 := by
        rcases good with ⟨k, eq⟩ | ⟨le, -⟩
        · rw [value, eq, Nat.mul_mod_right]
          exact Nat.zero_le _
        · omega
      obtain ⟨segs', tiled', deep, served⟩ := obtainable.returns init pos small
      refine ⟨deep, fun fuel le => ?_⟩
      obtain ⟨bound, q, h', call, n, pre, s, post, granted, enough⟩ := served fuel le
      refine ⟨bound, q, _, calloc_eq.trans (congrArg _ call), ?_⟩
      have place := granted.place
      rw [exact']
      apply (granted.answers enough).fill
      · rintro rfl
        rw [show (0 : Addr).toNat = 0 from rfl] at place
        omega
      · intro x changed
        by_contra off
        exact changed (memset_of_not off)

/-- In every state of a run, `malloc` and `calloc` serve exactly the sizes whose arithmetic does not
wrap and whose pages can be had, and those that wrap to nothing. -/
theorem sizes_iff {w : World} {elements per : Addr} (reach : World.Reachable g w) :
    (Serves g w.heap size (w.heap.malloc g · size) size.toNat ↔
      ∃ h₁, Starts g w.heap h₁ ∧ (size.toNat = 0 ∨ 2 ^ 64 - 16 < size.toNat ∨
        size.toNat ≤ 2 ^ 64 - 4096 ∧ Obtainable g h₁ size)) ∧
    (Serves g w.heap (elements * per) (w.heap.calloc g · elements per)
        (elements.toNat * per.toNat) ↔
      ∃ h₁, Starts g w.heap h₁ ∧ (2 ^ 64 ∣ elements.toNat * per.toNat ∨
        elements.toNat * per.toNat ≤ 2 ^ 64 - 4096 ∧ Obtainable g h₁ (elements * per))) := by
  constructor
  · refine exists_congr fun h₁ => and_congr_right fun starts => ?_
    obtain ⟨segs, tiled, init, low⟩ := starts.tiled reach
    obtain ⟨deep, same⟩ := starts.malloc
    rw [← tiled.malloc_serves init low]
    exact ⟨fun s => s.congr ⟨deep, fun fuel le => (same fuel le size).symm⟩,
      fun s => s.congr ⟨deep, fun fuel le => same fuel le size⟩⟩
  · refine exists_congr fun h₁ => and_congr_right fun starts => ?_
    obtain ⟨segs, tiled, init, low⟩ := starts.tiled reach
    obtain ⟨deep, same⟩ := starts.calloc
    rw [← tiled.calloc_serves init low]
    exact ⟨fun s => s.congr ⟨deep, fun fuel le => (same fuel le elements per).symm⟩,
      fun s => s.congr ⟨deep, fun fuel le => same fuel le elements per⟩⟩

end

/-! ### On the machine -/

open Paging (spaceFrames)

/-- The heap after the first call, with frames for more: a used segment, and the rest free. -/
def machineSegments : List Segment := [⟨32, false⟩, ⟨0xfffa0, true⟩]

theorem machine_sizes : ∃ w, World.Reachable spaceFrames w ∧ Starts spaceFrames w.heap w.heap ∧
    ∀ size k, Rounds ((size.toNat + 15) / 16 * 16) k machineSegments → k * pagesFor size ≤ 1024 →
      Obtainable spaceFrames w.heap size := by
  obtain ⟨w, reach, init, -, ends, -, -, tiled, supply⟩ := machine_ready
  refine ⟨w, reach, Or.inl ⟨init, rfl⟩, fun size k rounds few => ?_⟩
  refine ⟨_, k, tiled, rounds, ⟨2 ^ 28, (supply.fewer few).growPages⟩, ?_⟩
  rw [ends, show (0x7f0000100000 : Addr).toNat = 0x7f0000100000 from rfl]
  omega

/-- A mebibyte, for which the heap is made longer, and four times sixteen bytes. -/
theorem sizes_machine : ∃ w, World.Reachable spaceFrames w ∧
    Serves spaceFrames w.heap 0x100000 (w.heap.malloc spaceFrames · 0x100000) 0x100000 ∧
    Serves spaceFrames w.heap (4 * 16) (w.heap.calloc spaceFrames · 4 16) 64 := by
  obtain ⟨w, reach, starts, obtainable⟩ := machine_sizes
  obtain ⟨one, two⟩ := @sizes_iff spaceFrames 0x100000 w 4 16 reach
  have longer : Rounds (((0x100000 : Addr).toNat + 15) / 16 * 16) 1 machineSegments :=
    ⟨by decide, ⟨0x1fffa0, true⟩, by decide, by decide⟩
  have fits : Rounds (((4 * 16 : Addr).toNat + 15) / 16 * 16) 0 machineSegments :=
    ⟨by decide, ⟨0xfffa0, true⟩, by decide, by decide⟩
  exact ⟨w, reach,
    one.mpr ⟨_, starts, .inr (.inr ⟨by decide, obtainable _ 1 longer (by decide)⟩)⟩,
    two.mpr ⟨_, starts, .inr ⟨by decide, obtainable _ 0 fits (by decide)⟩⟩⟩

/-- A product that wraps to sixteen, which the heap has. -/
theorem sizes_wrap : ∃ w, World.Reachable spaceFrames w ∧ Starts spaceFrames w.heap w.heap ∧
    Obtainable spaceFrames w.heap (0x1000000000000001 * 16) ∧
    ¬ Serves spaceFrames w.heap (0x1000000000000001 * 16)
      (w.heap.calloc spaceFrames · 0x1000000000000001 16)
      ((0x1000000000000001 : Addr).toNat * (16 : Addr).toNat) := by
  obtain ⟨w, reach, starts, obtainable⟩ := machine_sizes
  have fits : Rounds (((0x1000000000000001 * 16 : Addr).toNat + 15) / 16 * 16) 0 machineSegments :=
    ⟨by decide, ⟨0xfffa0, true⟩, by decide, by decide⟩
  refine ⟨w, reach, starts, obtainable _ 0 fits (by decide), ?_⟩
  rintro ⟨h₁, starts', served⟩
  obtain ⟨segs, tiled, init, low⟩ := starts'.tiled reach
  obtain ⟨deep, same⟩ := starts'.calloc
  have onward : Returns spaceFrames h₁ (0x1000000000000001 * 16)
      (h₁.calloc spaceFrames · 0x1000000000000001 16) _ :=
    served.congr ⟨deep, fun fuel le => (same fuel le _ _).symm⟩
  rcases (tiled.calloc_serves init low).mp onward with wraps | ⟨small, -⟩
  · exact absurd wraps (by decide)
  · exact absurd small (by decide)

end Skylight.Heap
