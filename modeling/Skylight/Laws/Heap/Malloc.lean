import Skylight.Laws.Heap.Grow

/-!
# What malloc gives

A search through the segments, and a longer heap when it finds none that fits. One expansion may
be short of a header; the second joins the first and is not.

`Tiled.malloc` is the law of the whole call on an initialized heap: what it returns is a block
of the rounded size that was not there before (`Granted`), and the segments still tile the heap.
It speaks of calls that return; that they do, and after how many expansions, is
`Laws.Heap.Rounds`. Sizes whose arithmetic wraps are left to `Laws.Heap.Sizes`.
-/

namespace Skylight.Heap

open Bytes

/-- A block of `n` bytes at `q` that was not there before. -/
structure Granted (h h' : Heap) (segs : List Segment) (q : Addr) (n : Nat) (pre : List Segment)
    (s : Segment) (post : List Segment) : Prop where
  tiled : Tiled h' (pre ++ s :: post)
  used : s.free = false
  place : q.toNat = fin h.heapStart.toNat pre + 32
  enough : n ≤ s.length
  others : blocks h.heapStart.toNat segs = blocks h.heapStart.toNat pre ++
    blocks (fin h.heapStart.toNat pre + 32 + s.length) post
  touches : Touches h h' (blocks h.heapStart.toNat segs)
  start : h'.heapStart = h.heapStart
  grows : h.heapEnd.toNat ≤ h'.heapEnd.toNat
  initialized : h'.heapInitialized = h.heapInitialized

section
variable {h h₁ h' : Heap} {g : Nat → Addr} {fuel n m : Nat} {s : Segment}
  {pre post segs segs₁ : List Segment} {size q : Addr}

/-- The rounding of `malloc`, for a size that is not rounded past the last word. -/
theorem roundUp_toNat (less : size.toNat + 16 ≤ 2 ^ 64) :
    (roundUp size).toNat = (size.toNat + 15) / 16 * 16 := by
  have rem : (size % 0x10).toNat = size.toNat % 16 := BitVec.toNat_umod
  rw [roundUp]
  split
  · next some =>
    rw [gt_iff_lt, BitVec.lt_def, rem, show (0 : Addr).toNat = 0 from rfl] at some
    rw [BitVec.toNat_add, BitVec.toNat_sub, rem, show (0x10 : Addr).toNat = 16 from rfl]
    omega
  · next none =>
    rw [gt_iff_lt, BitVec.lt_def, rem, show (0 : Addr).toNat = 0 from rfl] at none
    omega

/-- A round of `malloc` on an initialized heap. -/
theorem malloc_succ (init : h.heapInitialized = true) (round : roundUp size = BitVec.ofNat 64 n)
    (pos : 0 < n) (less : n < 2 ^ 64) : malloc g (fuel + 1) h size =
      (mallocLoop (BitVec.ofNat 64 n) fuel h h.heapStart).bind fun found =>
        match found with
        | some block => some block
        | none => (h.heapExpand g fuel (BitVec.ofNat 64 n)).bind fun h =>
          malloc g fuel h (BitVec.ofNat 64 n) := by
  rw [malloc, init, round]
  simp only [Bool.not_true, Bool.false_eq_true, if_false, Option.bind_eq_bind, Option.bind_some]
  rw [if_neg (ofNat_ne_zero pos less)]
  rfl

/-- The first call goes on as if the heap had been there. -/
theorem malloc_initialize (fresh : h.heapInitialized = false)
    (first : h.heapInitialize g fuel 0x7f0000000000 256 = some h₁)
    (init : h₁.heapInitialized = true) :
    malloc g (fuel + 1) h size = malloc g (fuel + 1) h₁ size := by
  rw [malloc, malloc, fresh, init]
  simp only [Bool.not_false, Bool.not_true, Bool.false_eq_true, if_true, if_false,
    Option.bind_eq_bind, Option.bind_some, first]

/-- A multiple of 16 is not rounded. -/
theorem roundUp_even (even : n % 16 = 0) (less : n < 2 ^ 64) :
    roundUp (BitVec.ofNat 64 n) = BitVec.ofNat 64 n := by
  rw [roundUp, if_neg]
  rw [gt_iff_lt, BitVec.lt_def, BitVec.toNat_umod, BitVec.toNat_ofNat, Nat.mod_eq_of_lt less,
    show (0x10 : Addr).toNat = 16 from rfl, even]
  exact Nat.lt_irrefl 0

/-- What was found is a block of its own. -/
theorem Taken.granted (taken : Taken h h' pre s post n) (fits : Fits n s) :
    ∃ t rest, Granted h h' (pre ++ s :: post) (BitVec.ofNat 64 (fin h.heapStart.toNat pre + 32)) n
      pre t rest := by
  have tiled := taken.tiled
  rw [List.append_assoc] at tiled
  have before : blocks h.heapStart.toNat (pre ++ s :: post) = blocks h.heapStart.toNat pre ++
      blocks (fin h.heapStart.toNat pre + 32 + s.length) post := by
    rw [blocks_append, blocks, if_pos fits.1]
  have address {t : Segment} {rest : List Segment} (tiled : Tiled h' (pre ++ t :: rest)) :
      (BitVec.ofNat 64 (fin h.heapStart.toNat pre + 32)).toNat =
        fin h.heapStart.toNat pre + 32 := by
    obtain ⟨-, -, high, small⟩ := tiled.bounds rfl
    rw [taken.start] at high
    rw [BitVec.toNat_ofNat]
    omega
  have grows : h.heapEnd.toNat ≤ h'.heapEnd.toNat := Nat.le_of_eq (congrArg _ taken.ends.symm)
  by_cases room : n + 48 ≤ s.length
  · rw [place, if_pos room, List.cons_append, List.singleton_append] at tiled
    refine ⟨_, _, tiled, rfl, address tiled, Nat.le_refl n, ?_, taken.touches, taken.start, grows,
      taken.initialized⟩
    rw [before, blocks, if_pos fits.1]
    congr 2
    show _ = fin h.heapStart.toNat pre + 32 + n + 32 + (s.length - n - 32)
    omega
  · rw [place, if_neg room, List.singleton_append] at tiled
    exact ⟨_, _, tiled, rfl, address tiled, fits.2, before, taken.touches, taken.start, grows,
      taken.initialized⟩

/-- A round grants a block, or finds that nothing fits and makes the heap longer. -/
theorem Tiled.malloc_round (tiled : Tiled h segs) (init : h.heapInitialized = true)
    (round : roundUp size = BitVec.ofNat 64 n) (big : 16 ≤ n) (even : n % 16 = 0)
    (room : h.heapEnd.toNat + wholePages n < 2 ^ 63)
    (run : malloc g (fuel + 1) h size = some (q, h')) :
    (∃ pre s post, Granted h h' segs q n pre s post) ∨
      (∀ s ∈ segs, ¬ Fits n s) ∧ ∃ h₁, h.heapExpand g fuel (BitVec.ofNat 64 n) = some h₁ ∧
        malloc g fuel h₁ (BitVec.ofNat 64 n) = some (q, h') := by
  have le := (wholePages_bounds n).1
  rw [malloc_succ init round (by omega) (by omega)] at run
  obtain ⟨found, search, run⟩ := Option.bind_eq_some_iff.mp run
  have start : h.heapStart = BitVec.ofNat 64 h.heapStart.toNat := by
    rw [BitVec.ofNat_toNat, BitVec.setWidth_eq]
  rw [start] at search
  have tiled' : Tiled h ([] ++ segs) := tiled
  rcases Tiled.loop big even (by omega) (by omega) tiled' tiled.nonempty rfl search with
    ⟨rfl, none⟩ | ⟨h₁, mid, s, post, rfl, fits, -, rfl, taken⟩
  · obtain ⟨h₁, grown, rest⟩ := Option.bind_eq_some_iff.mp run
    exact Or.inr ⟨none, h₁, grown, rest⟩
  · cases run
    obtain ⟨t, rest, granted⟩ := taken.granted fits
    exact Or.inl ⟨mid, t, rest, granted⟩

/-- A split maps nothing. -/
theorem headerSplit_tables (h : Heap) (a v : Addr) : (h.headerSplit a v).2.tables = h.tables := by
  rw [headerSplit]
  split
  · rfl
  · simp only []
    split
    · rfl
    · simp only []
      split <;> split <;> rfl

/-- A search maps nothing. -/
theorem mallocLoop_tables : ∀ {fuel : Nat} {a : Addr},
    mallocLoop size fuel h a = some (some (q, h')) → h'.tables = h.tables := by
  intro fuel
  induction fuel with
  | zero =>
    intro a run
    cases run
  | succ fuel ih =>
    intro a run
    rw [mallocLoop] at run
    split at run
    · obtain ⟨-, rfl⟩ := Prod.mk.inj (Option.some.inj (Option.some.inj run))
      exact headerSplit_tables h a size
    · split at run
      · obtain ⟨-, rfl⟩ := Prod.mk.inj (Option.some.inj (Option.some.inj run))
        rfl
      · split at run
        · cases run
        · exact ih run

/-- The first segment that fits is taken, and nothing is mapped. -/
theorem Tiled.malloc_fits (tiled : Tiled h segs) (init : h.heapInitialized = true)
    (round : roundUp size = BitVec.ofNat 64 n) (big : 16 ≤ n) (even : n % 16 = 0)
    (less : n < 2 ^ 64) (signed : h.heapEnd.toNat < 2 ^ 63) (fits : ∃ s ∈ segs, Fits n s)
    (le : segs.length ≤ fuel) :
    ∃ h' mid s post, segs = mid ++ s :: post ∧ Fits n s ∧ (∀ t ∈ mid, ¬ Fits n t) ∧
      malloc g (fuel + 1) h size =
        some (BitVec.ofNat 64 (fin h.heapStart.toNat mid + 32), h') ∧
      Taken h h' mid s post n ∧ h'.tables = h.tables := by
  have start : BitVec.ofNat 64 (fin h.heapStart.toNat []) = h.heapStart := by
    show BitVec.ofNat 64 h.heapStart.toNat = _
    rw [BitVec.ofNat_toNat, BitVec.setWidth_eq]
  have tiled' : Tiled h ([] ++ segs) := tiled
  obtain ⟨answer, search⟩ := Tiled.loop_some less signed tiled' tiled.nonempty rfl le
  rcases Tiled.loop big even less signed tiled' tiled.nonempty rfl search with
    ⟨-, none⟩ | ⟨h', mid, s, post, rfl, fits, skips, rfl, taken⟩
  · obtain ⟨s, mem, fits⟩ := fits
    exact absurd fits (none s mem)
  · refine ⟨h', mid, s, post, rfl, fits, skips, ?_, taken, mallocLoop_tables search⟩
    rw [start] at search
    rw [malloc_succ init round (by omega) less, search]
    rfl

/-- A free segment put behind the others is the last, alone or with one before it. -/
theorem joinBack_last (segs : List Segment) (n : Nat) :
    ∃ front m, joinBack segs [⟨n, true⟩] = front ++ [⟨m, true⟩] ∧ n ≤ m := by
  rcases List.eq_nil_or_concat' segs with rfl | ⟨front, r, rfl⟩
  · exact ⟨[], n, rfl, Nat.le_refl n⟩
  · rw [joinBack_append]
    by_cases free : r.free = true
    · refine ⟨front, r.length + n + 32, ?_, by omega⟩
      rw [if_pos free, joinFirst, if_pos rfl, free]
    · refine ⟨front ++ [r], n, ?_, Nat.le_refl n⟩
      rw [if_neg free, List.append_assoc]
      rfl

/-- The next one is joined with it. -/
theorem joinBack_free (front : List Segment) (m n : Nat) :
    joinBack (front ++ [⟨m, true⟩]) [⟨n, true⟩] = front ++ [⟨m + n + 32, true⟩] := by
  rw [joinBack_append]
  rfl

/-- A free segment put behind the others is no block. -/
theorem blocks_joinBack_new {a : Nat} (segs : List Segment) (n : Nat) :
    blocks a (joinBack segs [⟨n, true⟩]) = blocks a segs := by
  rw [blocks_joinBack, blocks_append]
  exact List.append_nil _

/-- A block granted after a longer heap is granted. -/
theorem Granted.after {L : Nat} (granted : Granted h₁ h' (joinBack segs [⟨L, true⟩]) q n pre s post)
    (touches : Touches h h₁ (blocks h.heapStart.toNat segs)) (start : h₁.heapStart = h.heapStart)
    (grows : h.heapEnd.toNat ≤ h₁.heapEnd.toNat)
    (init : h₁.heapInitialized = h.heapInitialized) : Granted h h' segs q n pre s post := by
  have others := granted.others
  have later := granted.touches
  rw [blocks_joinBack_new, start] at others later
  refine ⟨granted.tiled, granted.used, ?_, granted.enough, others, ?_, granted.start.trans start,
    grows.trans granted.grows, granted.initialized.trans init⟩
  · rw [granted.place, start]
  · exact touches.trans later granted.start granted.grows

/-- An initialized heap grants a block of every size there is room for: the call that returns
answers with a segment that was free, split from it where it was longer, after as many expansions as
were needed. -/
theorem Tiled.malloc (tiled : Tiled h segs) (init : h.heapInitialized = true)
    (round : roundUp size = BitVec.ofNat 64 n) (big : 16 ≤ n) (even : n % 16 = 0)
    (room : h.heapEnd.toNat + 2 * wholePages n < 2 ^ 62)
    (run : malloc g fuel h size = some (q, h')) :
    ∃ pre s post, Granted h h' segs q n pre s post := by
  have bounds := wholePages_bounds n
  have round' : roundUp (BitVec.ofNat 64 n) = BitVec.ofNat 64 n := roundUp_even even (by omega)
  cases fuel with
  | zero => cases run
  | succ fuel =>
    rcases tiled.malloc_round init round big even (by omega) run with
      granted | ⟨-, h₁, grown₁, run⟩
    · exact granted
    obtain ⟨tiled₁, touches₁, start₁, ends₁, init₁⟩ := tiled.expand (by omega) (by omega) grown₁
    cases fuel with
    | zero => cases run
    | succ fuel =>
      rcases tiled₁.malloc_round (init₁.trans init) round' big even (by omega) run with
        ⟨pre, s, post, granted⟩ | ⟨none, h₂, grown₂, run⟩
      · exact ⟨pre, s, post, granted.after touches₁ start₁ (by omega) init₁⟩
      obtain ⟨tiled₂, touches₂, start₂, ends₂, init₂⟩ := tiled₁.expand (by omega) (by omega) grown₂
      cases fuel with
      | zero => cases run
      | succ fuel =>
        rcases tiled₂.malloc_round (init₂.trans (init₁.trans init)) round' big even (by omega) run
          with ⟨pre, s, post, granted⟩ | ⟨none', -, -⟩
        · have granted₁ := granted.after touches₂ start₂ (by omega) init₂
          exact ⟨pre, s, post, granted₁.after touches₁ start₁ (by omega) init₁⟩
        · -- the second segment has joined the first, and that is enough
          obtain ⟨front, m, eq, le⟩ := joinBack_last segs (wholePages n - 32)
          rw [eq, joinBack_free] at none'
          have fits : Fits n ⟨m + (wholePages n - 32) + 32, true⟩ :=
            ⟨rfl, by show n ≤ m + (wholePages n - 32) + 32; omega⟩
          exact absurd fits (none' _ (List.mem_append_right _ (List.mem_singleton_self _)))

end

end Skylight.Heap
