import Skylight.Laws.Heap.Contracts
import Skylight.Laws.Paging.Replace

/-!
# Rounds of malloc

A call of `malloc` is a search, or a longer heap and another call. What a run does is said by
the number of times it makes the heap longer, and that is at most two.

The source calls itself again after `heap_expand`, with nothing that bounds the depth. `Rounds`
gives the exact number from the segments and the size; `Tiled.malloc_rounds` shows that a call
which returns has made just as many expansions, and `Tiled.malloc_returns` that it does return,
with enough fuel, when the pages it asks for can be mapped. `malloc_terminates` says both of
every state of a run. The bound of two comes from the join: a first expansion may be short by a
header, a second is joined with it.
-/

namespace Skylight.Heap

open Bytes

/-- The number of calls of `heap_expand` that `malloc` makes. -/
def expansions (g : Nat → Addr) : Nat → Heap → Addr → Option Nat
  | 0, _, _ => none
  | fuel + 1, h, size => do
    let h ← if !h.heapInitialized then h.heapInitialize g fuel 0x7f0000000000 256 else some h
    let size := roundUp size
    if size = 0 then return 0
    match ← mallocLoop size fuel h h.heapStart with
    | some _ => return 0
    | none =>
      let h ← h.heapExpand g fuel size
      return (← expansions g fuel h size) + 1

/-- A heap made longer so many times, each time because nothing was found. -/
inductive Grown (g : Nat → Addr) (n : Nat) : Nat → Heap → Heap → Prop
  | refl (h : Heap) : Grown g n 0 h h
  | step {h h₁ h' : Heap} {k fuel : Nat}
      (none : mallocLoop (BitVec.ofNat 64 n) fuel h h.heapStart = some none)
      (grow : h.heapExpand g fuel (BitVec.ofNat 64 n) = some h₁) (rest : Grown g n k h₁ h') :
      Grown g n (k + 1) h h'

/-- The segments of a heap made longer by `L` bytes so many times. -/
def lengthen (L : Nat) : Nat → List Segment → List Segment
  | 0, segs => segs
  | k + 1, segs => lengthen L k (joinBack segs [⟨L - 32, true⟩])

section
variable {h h₁ h' : Heap} {g : Nat → Addr} {fuel fuel' k m n L : Nat} {s t : Segment}
  {pre post segs segs' : List Segment} {size q y : Addr}

/-! ### The shape of a run -/

/-- A join leaves the flag of `heap_initialize`. -/
theorem headerCombineBackward_initialized (h : Heap) (y : Addr) :
    (h.headerCombineBackward y).heapInitialized = h.heapInitialized := by
  rw [headerCombineBackward]
  split
  · exact (headerCombineForward_rest h (h.last y)).2
  · rfl

/-- So does a longer heap. -/
theorem heapExpand_initialized {length : Addr} (run : h.heapExpand g fuel length = some h') :
    h'.heapInitialized = h.heapInitialized := by
  obtain ⟨h₁, grown, rest⟩ := Option.bind_eq_some_iff.mp run
  obtain ⟨tables, same⟩ := growPages_heap grown
  have init : h₁.heapInitialized = h.heapInitialized := by rw [same]
  rw [← Option.some.inj rest, headerCombineBackward_initialized]
  exact init

/-- One round of `malloc`, counted. -/
theorem expansions_succ (init : h.heapInitialized = true) (round : roundUp size = BitVec.ofNat 64 n)
    (pos : 0 < n) (less : n < 2 ^ 64) : expansions g (fuel + 1) h size =
      (mallocLoop (BitVec.ofNat 64 n) fuel h h.heapStart).bind fun found =>
        match found with
        | some _ => some 0
        | none => (h.heapExpand g fuel (BitVec.ofNat 64 n)).bind fun h =>
          (expansions g fuel h (BitVec.ofNat 64 n)).map (· + 1) := by
  rw [expansions, init, round]
  simp only [Bool.not_true, Bool.false_eq_true, if_false, Option.bind_eq_bind, Option.bind_some]
  rw [if_neg (ofNat_ne_zero pos less)]
  cases mallocLoop (BitVec.ofNat 64 n) fuel h h.heapStart with
  | none => rfl
  | some found =>
    cases found with
    | some block => rfl
    | none =>
      show (h.heapExpand g fuel (BitVec.ofNat 64 n)).bind _ = (h.heapExpand g fuel _).bind _
      congr 1
      funext h
      show (expansions g fuel h (BitVec.ofNat 64 n)).bind _ = _
      cases expansions g fuel h (BitVec.ofNat 64 n) <;> rfl

/-- A run makes the heap longer until a search finds a block. -/
theorem malloc_grown (init : h.heapInitialized = true) (round : roundUp size = BitVec.ofNat 64 n)
    (even : n % 16 = 0) (pos : 0 < n) (less : n < 2 ^ 64)
    (run : malloc g fuel h size = some (q, h')) :
    ∃ k h₁ fuel', Grown g n k h h₁ ∧ expansions g fuel h size = some k ∧
      mallocLoop (BitVec.ofNat 64 n) fuel' h₁ h₁.heapStart = some (some (q, h')) := by
  induction fuel generalizing h size with
  | zero => cases run
  | succ fuel ih =>
    rw [malloc_succ init round pos less] at run
    rw [expansions_succ init round pos less]
    obtain ⟨found, search, rest⟩ := Option.bind_eq_some_iff.mp run
    rw [search, Option.bind_some]
    cases found with
    | some block =>
      cases rest
      exact ⟨0, h, fuel, .refl h, rfl, search⟩
    | none =>
      obtain ⟨h₁, grow, rest⟩ := Option.bind_eq_some_iff.mp rest
      obtain ⟨k, h₂, fuel', grown, count, found⟩ :=
        ih ((heapExpand_initialized grow).trans init) (roundUp_even even less) rest
      refine ⟨k + 1, h₂, fuel', .step search grow grown, ?_, found⟩
      rw [grow, Option.bind_some, count]
      rfl

/-! ### The segments of a longer heap -/

/-- Each time the heap is one segment longer, or its last segment is. -/
theorem Tiled.grown (tiled : Tiled h segs) (pos : 0 < n) (grown : Grown g n k h h₁)
    (room : h.heapEnd.toNat + k * wholePages n < 2 ^ 64) :
    Tiled h₁ (lengthen (wholePages n) k segs) ∧ h₁.heapStart = h.heapStart ∧
      h₁.heapEnd.toNat = h.heapEnd.toNat + k * wholePages n := by
  induction grown generalizing segs with
  | refl h =>
    rw [Nat.zero_mul]
    exact ⟨tiled, rfl, rfl⟩
  | step none grow rest ih =>
    rw [Nat.succ_mul] at room ⊢
    obtain ⟨tiled₁, -, start, ends, -⟩ := tiled.expand pos (by omega) grow
    obtain ⟨tiled₂, start', ends'⟩ := ih tiled₁ (by omega)
    exact ⟨tiled₂, start'.trans start, by omega⟩

/-- Nothing fits where a search found nothing. -/
theorem Tiled.none_fits (tiled : Tiled h segs) (big : 16 ≤ n) (even : n % 16 = 0)
    (less : n < 2 ^ 64) (signed : h.heapEnd.toNat < 2 ^ 63)
    (search : mallocLoop (BitVec.ofNat 64 n) fuel h h.heapStart = some none) :
    ∀ s ∈ segs, ¬ Fits n s := by
  have start : h.heapStart = BitVec.ofNat 64 (fin h.heapStart.toNat []) := by
    show _ = BitVec.ofNat 64 h.heapStart.toNat
    rw [BitVec.ofNat_toNat, BitVec.setWidth_eq]
  have tiled' : Tiled h ([] ++ segs) := tiled
  rw [start] at search
  rcases Tiled.loop big even less signed tiled' tiled.nonempty rfl search with
    ⟨-, none⟩ | ⟨h', mid, s, post, -, -, -, eq, -⟩
  · exact none
  · cases eq

/-- What a search finds is taken. -/
theorem Tiled.found (tiled : Tiled h segs) (big : 16 ≤ n) (even : n % 16 = 0)
    (less : n < 2 ^ 64) (signed : h.heapEnd.toNat < 2 ^ 63)
    (search : mallocLoop (BitVec.ofNat 64 n) fuel h h.heapStart = some (some (q, h'))) :
    ∃ mid s post, segs = mid ++ s :: post ∧ Fits n s ∧ Taken h h' mid s post n ∧
      q = BitVec.ofNat 64 (fin h.heapStart.toNat mid + 32) := by
  have start : h.heapStart = BitVec.ofNat 64 (fin h.heapStart.toNat []) := by
    show _ = BitVec.ofNat 64 h.heapStart.toNat
    rw [BitVec.ofNat_toNat, BitVec.setWidth_eq]
  have tiled' : Tiled h ([] ++ segs) := tiled
  rw [start] at search
  rcases Tiled.loop big even less signed tiled' tiled.nonempty rfl search with
    ⟨none, -⟩ | ⟨h₁, mid, s, post, rfl, fits, -, eq, taken⟩
  · cases none
  · obtain ⟨rfl, rfl⟩ := Prod.mk.inj (Option.some.inj eq)
    exact ⟨mid, s, post, rfl, fits, taken, rfl⟩

/-- After two expansions the last segment is long enough. -/
theorem lengthen_two (segs : List Segment) (big : 32 ≤ L) : ∃ s ∈ lengthen L 2 segs, Fits L s := by
  obtain ⟨front, m, eq, le⟩ := joinBack_last segs (L - 32)
  show ∃ s ∈ joinBack (joinBack segs [⟨L - 32, true⟩]) [⟨L - 32, true⟩], Fits L s
  rw [eq, joinBack_free]
  exact ⟨_, List.mem_append_right _ (List.mem_singleton_self _), rfl,
    by show L ≤ m + (L - 32) + 32; omega⟩

/-- The heap is made longer at most twice. -/
theorem Tiled.grown_le (tiled : Tiled h segs) (big : 16 ≤ n) (even : n % 16 = 0)
    (room : h.heapEnd.toNat + 2 * wholePages n < 2 ^ 63) (grown : Grown g n k h h₁) : k ≤ 2 := by
  have bounds := wholePages_bounds n
  by_contra more
  cases grown with
  | refl => exact more (Nat.zero_le 2)
  | step none₀ grow₀ rest =>
    cases rest with
    | refl => exact more (by decide)
    | step none₁ grow₁ rest =>
      cases rest with
      | refl => exact more (by decide)
      | step none₂ grow₂ rest =>
        have two : Grown g n 2 h _ := .step none₀ grow₀ (.step none₁ grow₁ (.refl _))
        obtain ⟨tiled₂, -, ends⟩ := tiled.grown (by omega) two (by omega)
        obtain ⟨s, mem, free, le⟩ := lengthen_two (L := wholePages n) segs (by omega)
        exact tiled₂.none_fits big even (by omega) (by omega) none₂ s mem ⟨free, by omega⟩

/-! ### Pages -/

/-- More fuel changes nothing for a page that was mapped. -/
theorem mapPage_deeper (run : h.mapPage g fuel y = some h') (le : fuel ≤ fuel') :
    h.mapPage g fuel' y = some h' := by
  rw [Heap.mapPage] at run ⊢
  obtain ⟨r, mapped, eq⟩ := Option.map_eq_some_iff.mp run
  exact Option.map_eq_some_iff.mpr ⟨r, Paging.mapPage_mono mapped le, eq⟩

/-- Nor for the loop of `heap_expand`. -/
theorem growPages_deeper (run : growPages g fuel m h = some h') (le : fuel ≤ fuel') :
    growPages g fuel' m h = some h' := by
  induction m generalizing h with
  | zero => exact run
  | succ m ih =>
    obtain ⟨h₁, first, rest⟩ := Option.bind_eq_some_iff.mp run
    exact Option.bind_eq_some_iff.mpr ⟨h₁, mapPage_deeper first le, ih rest⟩

/-- Pages mapped in two loops, one after the other. -/
theorem growPages_add : growPages g fuel (m + n) h =
    (growPages g fuel m h).bind (growPages g fuel n) := by
  induction m generalizing h with
  | zero =>
    rw [Nat.zero_add]
    rfl
  | succ m ih =>
    rw [Nat.add_right_comm, growPages, growPages, Option.bind_assoc]
    congr 1
    funext h₁
    exact ih

/-- What is mapped behind the heap is a matter of the tables and of where it ends. -/
theorem growPages_congr {h₀ : Heap} (run : growPages g fuel m h = some h')
    (tables : h₀.tables = h.tables) (ends : h₀.heapEnd = h.heapEnd) :
    ∃ h₁, growPages g fuel m h₀ = some h₁ ∧ h₁.tables = h'.tables ∧ h₁.heapEnd = h'.heapEnd := by
  induction m generalizing h h₀ with
  | zero =>
    cases run
    exact ⟨h₀, rfl, tables, ends⟩
  | succ m ih =>
    obtain ⟨h₁, first, rest⟩ := Option.bind_eq_some_iff.mp run
    rw [Heap.mapPage, ← tables, ← ends] at first
    obtain ⟨r, mapped, rfl⟩ := Option.map_eq_some_iff.mp first
    obtain ⟨h₂, more, eqs⟩ := @ih _ { h₀ with tables := r.2, heapEnd := h₀.heapEnd + 0x1000 } rest
      rfl (by rw [ends])
    refine ⟨h₂, Option.bind_eq_some_iff.mpr ⟨{ h₀ with tables := r.2 }, ?_, more⟩, eqs⟩
    exact Option.map_eq_some_iff.mpr ⟨r, mapped, rfl⟩

theorem headerCombineForward_tables (h : Heap) (y : Addr) :
    (h.headerCombineForward y).tables = h.tables := by
  rw [headerCombineForward]
  split
  · rfl
  · split
    · rfl
    · simp only []
      split <;> split <;> rfl

/-- A join leaves the tables and the end of the heap. -/
theorem headerCombineBackward_ends (h : Heap) (y : Addr) :
    (h.headerCombineBackward y).tables = h.tables ∧
      (h.headerCombineBackward y).heapEnd = h.heapEnd := by
  rw [headerCombineBackward]
  split
  · exact ⟨headerCombineForward_tables h (h.last y), (headerCombineForward_rest h (h.last y)).1⟩
  · exact ⟨rfl, rfl⟩

/-- `heap_expand` returns when its pages can be mapped. -/
theorem heapExpand_maps (less : n + 4096 ≤ 2 ^ 64)
    (maps : growPages g fuel (wholePages n / 4096) h = some h') :
    ∃ h₁, h.heapExpand g fuel (BitVec.ofNat 64 n) = some h₁ ∧ h₁.tables = h'.tables ∧
      h₁.heapEnd = h'.heapEnd := by
  have pages : (BitVec.ofNat 64 (wholePages n) / 0x1000).toNat = wholePages n / 4096 := by
    have bounds := wholePages_bounds n
    rw [BitVec.toNat_udiv, BitVec.toNat_ofNat, show (0x1000 : Addr).toNat = 4096 from rfl]
    omega
  rw [heapExpand]
  simp only [expand_length less, pages, maps, Option.bind_eq_bind, Option.bind_some]
  generalize BitVec.ofNat 64 (wholePages n) - headerSize = length
  exact ⟨_, rfl, headerCombineBackward_ends _ h.heapEnd⟩

/-- More fuel changes nothing for an expansion that returned. -/
theorem heapExpand_deeper {length : Addr} (run : h.heapExpand g fuel length = some h')
    (le : fuel ≤ fuel') : h.heapExpand g fuel' length = some h' := by
  obtain ⟨h₁, grown, rest⟩ := Option.bind_eq_some_iff.mp run
  exact Option.bind_eq_some_iff.mpr ⟨h₁, growPages_deeper grown le, rest⟩

/-! ### How many rounds -/

/-- The heap has to be made longer `k` times before `n` bytes fit. -/
structure Rounds (n k : Nat) (segs : List Segment) : Prop where
  early : ∀ i < k, ∀ s ∈ lengthen (wholePages n) i segs, ¬ Fits n s
  enough : ∃ s ∈ lengthen (wholePages n) k segs, Fits n s

/-- A size asks for one number of expansions. -/
theorem Rounds.unique (r : Rounds n k segs) (r' : Rounds n m segs) : k = m := by
  obtain ⟨s, mem, fits⟩ := r.enough
  obtain ⟨s', mem', fits'⟩ := r'.enough
  rcases Nat.lt_trichotomy k m with lt | eq | gt
  · exact absurd fits (r'.early k lt s mem)
  · exact eq
  · exact absurd fits' (r.early m gt s' mem')

/-- Two are always enough. -/
theorem exists_rounds (segs : List Segment) (pos : 0 < n) : ∃ k ≤ 2, Rounds n k segs := by
  have bounds := wholePages_bounds n
  obtain ⟨s, mem, free, le⟩ := lengthen_two (L := wholePages n) segs (by omega)
  have last : ∃ s ∈ lengthen (wholePages n) 2 segs, Fits n s := ⟨s, mem, free, by omega⟩
  have some : ∃ k, ∃ s ∈ lengthen (wholePages n) k segs, Fits n s := ⟨2, last⟩
  classical
  refine ⟨Nat.find some, Nat.find_min' some last, ?_, Nat.find_spec some⟩
  intro i lt s mem fits
  exact Nat.find_min some lt ⟨s, mem, fits⟩

/-- It asks for none just when there is a segment it fits. -/
theorem Rounds.zero_iff (r : Rounds n k segs) : k = 0 ↔ ∃ s ∈ segs, Fits n s := by
  constructor
  · rintro rfl
    exact r.enough
  · rintro ⟨s, mem, fits⟩
    by_contra some
    exact r.early 0 (Nat.pos_of_ne_zero some) s mem fits

/-- Each expansion is made because nothing fitted. -/
theorem Tiled.grown_early (tiled : Tiled h segs) (big : 16 ≤ n) (even : n % 16 = 0)
    (room : h.heapEnd.toNat + k * wholePages n < 2 ^ 63) (grown : Grown g n k h h₁) :
    ∀ i < k, ∀ s ∈ lengthen (wholePages n) i segs, ¬ Fits n s := by
  have bounds := wholePages_bounds n
  induction grown generalizing segs with
  | refl h =>
    intro i lt
    exact absurd lt (Nat.not_lt_zero i)
  | step none grow rest ih =>
    rw [Nat.succ_mul] at room
    obtain ⟨tiled₁, -, -, ends, -⟩ := tiled.expand (by omega) (by omega) grow
    intro i lt
    cases i with
    | zero => exact tiled.none_fits big even (by omega) (by omega) none
    | succ i => exact ih tiled₁ (by omega) i (Nat.lt_of_succ_lt_succ lt)

/-- A call that returns has made the heap longer as often as it had to be: `Rounds` is the number
from the segments and the size, and it is at most two. -/
theorem Tiled.malloc_rounds (tiled : Tiled h segs) (init : h.heapInitialized = true)
    (round : roundUp size = BitVec.ofNat 64 n) (big : 16 ≤ n) (even : n % 16 = 0)
    (room : h.heapEnd.toNat + 2 * wholePages n < 2 ^ 63) (rounds : Rounds n k segs)
    (run : h.malloc g fuel size = some (q, h')) :
    q ≠ 0 ∧ expansions g fuel h size = some k := by
  have bounds := wholePages_bounds n
  obtain ⟨j, h₁, fuel', grown, count, search⟩ :=
    malloc_grown init round even (by omega) (by omega) run
  have le : j ≤ 2 := tiled.grown_le big even room grown
  have most : j * wholePages n ≤ 2 * wholePages n := Nat.mul_le_mul_right _ le
  obtain ⟨tiled₁, start, ends⟩ := tiled.grown (by omega) grown (by omega)
  obtain ⟨mid, s, post, eq, fits, taken, rfl⟩ :=
    tiled₁.found big even (by omega) (by omega) search
  have here : Rounds n j segs :=
    ⟨tiled.grown_early big even (by omega) grown, s, eq ▸ List.mem_append_cons_self, fits⟩
  rw [eq] at tiled₁
  obtain ⟨-, -, high, -⟩ := tiled₁.bounds rfl
  refine ⟨ofNat_ne_zero (by omega) (by omega), ?_⟩
  rw [count, here.unique rounds]

/-- A call returns when the pages it asks for can be mapped: then there is a depth of recursion that
is enough, and every greater one gives a block. -/
theorem Tiled.malloc_returns (tiled : Tiled h segs) (init : h.heapInitialized = true)
    (round : roundUp size = BitVec.ofNat 64 n) (big : 16 ≤ n) (even : n % 16 = 0)
    (room : h.heapEnd.toNat + (k + 1) * wholePages n < 2 ^ 63) (rounds : Rounds n k segs)
    (maps : growPages g fuel (k * (wholePages n / 4096)) h = some h₁) :
    ∃ deep, ∀ fuel', deep ≤ fuel' → ∃ block, h.malloc g fuel' size = some block := by
  have bounds := wholePages_bounds n
  -- Induction on the expansions that are missing; one fewer is missing behind each.
  induction k generalizing h segs size h₁ with
  | zero =>
    refine ⟨segs.length + 1, fun fuel' le => ?_⟩
    obtain ⟨fuel', rfl⟩ := Nat.exists_eq_add_of_le' (Nat.le_trans (Nat.le_add_left 1 _) le)
    obtain ⟨h', mid, s, post, -, -, -, call, -, -⟩ := @Tiled.malloc_fits h g fuel' n segs size
      tiled init round big even (by omega) (by omega) rounds.enough (Nat.le_of_succ_le_succ le)
    exact ⟨_, call⟩
  | succ k ih =>
    rw [Nat.succ_mul] at room
    rw [Nat.succ_mul, Nat.add_comm, growPages_add] at maps
    obtain ⟨h₂, first, maps⟩ := Option.bind_eq_some_iff.mp maps
    obtain ⟨h₃, grow, tables, ends⟩ := heapExpand_maps (by omega) first
    obtain ⟨tiled₃, -, -, ends', init₃⟩ := tiled.expand (by omega) (by omega) grow
    obtain ⟨h₄, maps, -⟩ := growPages_congr maps tables ends
    have later : Rounds n k (joinBack segs [⟨wholePages n - 32, true⟩]) :=
      ⟨fun i lt => rounds.early (i + 1) (Nat.succ_lt_succ lt), rounds.enough⟩
    obtain ⟨deep, returns⟩ := ih tiled₃ (init₃.trans init) (roundUp_even even (by omega))
      (by omega) later maps
    refine ⟨max fuel (max deep segs.length) + 1, fun fuel' le => ?_⟩
    obtain ⟨fuel', rfl⟩ := Nat.exists_eq_add_of_le' (Nat.le_trans (Nat.le_add_left 1 _) le)
    have le : max fuel (max deep segs.length) ≤ fuel' := Nat.le_of_succ_le_succ le
    have start : h.heapStart = BitVec.ofNat 64 (fin h.heapStart.toNat []) := by
      show _ = BitVec.ofNat 64 h.heapStart.toNat
      rw [BitVec.ofNat_toNat, BitVec.setWidth_eq]
    have tiled' : Tiled h ([] ++ segs) := tiled
    obtain ⟨answer, search⟩ := Tiled.loop_some (n := n) (by omega) (by omega) tiled'
      tiled.nonempty rfl (show segs.length ≤ fuel' by omega)
    rw [malloc_succ init round (by omega) (by omega), start, search, Option.bind_some]
    cases answer with
    | some block => exact ⟨block, rfl⟩
    | none =>
      obtain ⟨block, call⟩ := returns fuel' (by omega)
      exact ⟨block, Option.bind_eq_some_iff.mpr ⟨h₃, heapExpand_deeper grow (by omega), call⟩⟩

/-- In every state of a run, `malloc` makes the heap longer as often as it has to, at most twice,
and returns a block when the pages for that can be mapped. -/
theorem malloc_terminates {w : World} (reach : World.Reachable g w)
    (init : w.heap.heapInitialized = true) (pos : 0 < size.toNat) (less : size.toNat < 2 ^ 40) :
    ∃ segs, Tiled w.heap segs ∧ ∃ k ≤ 2,
      (k = 0 ↔ ∃ s ∈ segs, s.free = true ∧ (size.toNat + 15) / 16 * 16 ≤ s.length) ∧
      ((∃ fuel, (growPages g fuel (k * (wholePages ((size.toNat + 15) / 16 * 16) / 4096))
        w.heap).isSome) →
        ∃ deep, ∀ fuel, deep ≤ fuel → (w.heap.malloc g fuel size).isSome) ∧
      ∀ fuel q h', w.heap.malloc g fuel size = some (q, h') →
        q ≠ 0 ∧ expansions g fuel w.heap size = some k := by
  obtain ⟨segs, sound⟩ := reachable_sound reach init
  have value := @roundUp_toNat size (by omega)
  generalize even : (size.toNat + 15) / 16 * 16 = n at value ⊢
  have round : roundUp size = BitVec.ofNat 64 n := by
    rw [← value, BitVec.ofNat_toNat, BitVec.setWidth_eq]
  have low := sound.low
  have bounds := wholePages_bounds n
  obtain ⟨k, le, rounds⟩ := exists_rounds segs (show 0 < n by omega)
  have most : (k + 1) * wholePages n ≤ 3 * wholePages n :=
    Nat.mul_le_mul_right _ (Nat.succ_le_succ le)
  refine ⟨segs, sound.tiled, k, le, rounds.zero_iff, ?_, fun fuel q h' run => ?_⟩
  · rintro ⟨fuel, maps⟩
    obtain ⟨h₁, maps⟩ := Option.isSome_iff_exists.mp maps
    obtain ⟨deep, returns⟩ := sound.tiled.malloc_returns init round (by omega) (by omega)
      (by omega) rounds maps
    exact ⟨deep, fun fuel le => Option.isSome_iff_exists.mpr (returns fuel le)⟩
  · exact sound.tiled.malloc_rounds init round (by omega) (by omega) (by omega) rounds run

end

/-! ### On the machine -/

open Paging (spaceFrames)

/-- Frames for `k` pages are enough for `k` rounds. -/
theorem Supply.growPages {g : Nat → Addr} {fuel n k : Nat} {h : Heap}
    (supply : Supply g fuel n k h.tables) : (Heap.growPages g fuel k h).isSome := by
  induction k generalizing h with
  | zero => rfl
  | succ k ih =>
    obtain ⟨h₁, first, rest⟩ := supply.mapPage h.heapEnd
    rw [Heap.growPages, first, Option.bind_some]
    exact ih rest

/-- And for fewer. -/
theorem Supply.fewer {g : Nat → Addr} {fuel n k m : Nat} {s : Paging.State}
    (supply : Supply g fuel n k s) (le : m ≤ k) : Supply g fuel n m s :=
  ⟨supply.wf, supply.fresh, by have := supply.room; omega, supply.deep⟩

/-- The heap after the first call, with frames left for more pages. -/
theorem machine_ready : ∃ w, World.Reachable spaceFrames w ∧ w.heap.heapInitialized = true ∧
    w.heap.heapStart = 0x7f0000000000 ∧ w.heap.heapEnd = 0x7f0000100000 ∧
    w.live 0x7f0000000020 = some 32 ∧ (∀ p ≠ 0x7f0000000020, w.live p = none) ∧
    Tiled w.heap [⟨32, false⟩, ⟨0xfffa0, true⟩] ∧
    Supply spaceFrames (2 ^ 28) (2 ^ 29) 1024 w.heap.tables := by
  obtain ⟨h', call, init, start, ends, tiled, supply⟩ := @Supply.first_malloc spaceFrames
    (2 ^ 28 - 1) _ 1024 machineWorld.heap 32 (machine_supply (by decide)) rfl rfl
  have reach : World.Reachable spaceFrames machineWorld :=
    ⟨machineWorld, machine_initial, Relation.ReflTransGen.refl⟩
  have none : ∀ p, machineWorld.live p = none := fun _ => rfl
  generalize machineWorld = w at call reach none
  have low : h'.heapEnd.toNat < 2 ^ 47 := by
    rw [ends]
    decide
  have step := World.step_malloc call (by decide) low
  obtain ⟨w₀, initial, runs⟩ := reach
  have there : grant w.live 0x7f0000000020 32 0x7f0000000020 = some 32 := grant_self (by decide)
  exact ⟨⟨h', grant w.live 0x7f0000000020 32⟩, ⟨w₀, initial, runs.tail ⟨_, _, trivial, step⟩⟩, init,
    start, ends, there, fun p ne => (grant_of_ne (Or.inr ne)).trans (none p), tiled, supply⟩

/-- A block of a mebibyte, which the heap does not have after the first call. -/
theorem malloc_terminates_machine : ∃ w, World.Reachable spaceFrames w ∧
    w.heap.heapInitialized = true ∧ ∃ deep, ∀ fuel, deep ≤ fuel →
      (w.heap.malloc spaceFrames fuel 0x100000).isSome := by
  obtain ⟨w, reach, init, -, -, -, -, -, supply⟩ := machine_ready
  obtain ⟨segs, -, k, le, -, returns, -⟩ :=
    @malloc_terminates spaceFrames 0x100000 w reach init (by decide) (by decide)
  have pages : k * (wholePages (((0x100000 : Addr).toNat + 15) / 16 * 16) / 4096) = k * 256 := by
    congr 1
  rw [pages] at returns
  exact ⟨w, reach, init, returns ⟨_, (supply.fewer (by omega)).growPages⟩⟩

end Skylight.Heap
