import Skylight.Apps.Malloc
import Skylight.Laws.Heap.Malloc

/-!
# How the heap of prism lies

`free` accepts no header, so all segments but the last stay in use, and the heap is a list of
segments in use and the last one. A segment may be followed by bytes that no segment has: that is
what `header_split` leaves, which takes two headers off what is left for one.
-/

namespace Skylight.UserHeap

open Skylight.Bytes Skylight.Heap

/-- A segment: the length in its header, and the bytes behind it that are lost. -/
structure Piece where
  length : Nat
  lost : Nat

/-- What it takes of the heap, with its header. -/
def Piece.reach (p : Piece) : Nat := 32 + p.length + p.lost

/-- Where segments that begin at `a` end. -/
def pastEnd (a : Nat) : List Piece → Nat
  | [] => a
  | p :: ps => pastEnd (a + p.reach) ps

/-- The header of the last one of them, `l` if there is none. -/
def lastPlace (l a : Nat) : List Piece → Nat
  | [] => l
  | p :: ps => lastPlace a (a + p.reach) ps

/-- Headers in use from `a` on, each of which leads to the next. -/
def Chained (hd : Addr → Header) : Nat → Nat → List Piece → Prop
  | _, _, [] => True
  | l, a, p :: ps =>
    hd (BitVec.ofNat 64 a) = ⟨BitVec.ofNat 64 p.length, BitVec.ofNat 64 (a + p.reach),
      BitVec.ofNat 64 l, false⟩ ∧ Chained hd a (a + p.reach) ps

/-- The segments before the last, and the last. -/
structure Layout where
  used : List Piece
  tail : Piece
  free : Bool

/-- Where `malloc` has the heap begin. -/
@[irreducible] def base : Nat := 0x7f0000000000

/-- The heap begins there. -/
theorem base_eq : base = 0x7f0000000000 := by rw [base]

/-- The last header. -/
def Layout.place (l : Layout) : Nat := pastEnd base l.used

/-- The end of the heap. -/
def Layout.fin (l : Layout) : Nat := l.place + l.tail.reach

/-- The heap lies as the layout says. -/
structure Lies (h : Heap) (l : Layout) : Prop where
  initialized : h.heapInitialized = true
  start : h.heapStart = BitVec.ofNat 64 base
  chained : Chained h.header 0 base l.used
  tail : h.header (BitVec.ofNat 64 l.place) =
    ⟨BitVec.ofNat 64 l.tail.length, 0, BitVec.ofNat 64 (lastPlace 0 base l.used), l.free⟩
  last : h.lastHeader = BitVec.ofNat 64 l.place
  ends : h.heapEnd = BitVec.ofNat 64 l.fin

/-- The last segment is free and has `n` bytes. -/
def Layout.Fits (l : Layout) (n : Nat) : Prop := l.free = true ∧ n ≤ l.tail.length

instance (l : Layout) (n : Nat) : Decidable (l.Fits n) := inferInstanceAs (Decidable (_ ∧ _))

/-- The last segment cut in two. -/
def Layout.cut (l : Layout) (n : Nat) : Layout :=
  ⟨l.used ++ [⟨n, 0⟩], ⟨l.tail.length - n - 64, l.tail.lost + 32⟩, true⟩

/-- `n` bytes of the last segment, which is cut if it has 64 bytes more. -/
def Layout.take (l : Layout) (n : Nat) : Layout :=
  if n + 64 ≤ l.tail.length then l.cut n else { l with free := false }

/-- The last segment with `n` bytes more. -/
def Layout.longer (l : Layout) (n : Nat) : Layout :=
  { l with tail := ⟨l.tail.length + n, l.tail.lost⟩ }

/-- A free segment behind the last one. -/
def Layout.append (l : Layout) (n : Nat) : Layout := ⟨l.used ++ [l.tail], ⟨n - 32, 0⟩, true⟩

/-- `heap_expand` -/
def Layout.grow (l : Layout) (n : Nat) : Layout :=
  if l.free then l.longer (wholePages n) else l.append (wholePages n)

/-- The layout that `malloc` takes from. -/
def Layout.ready (l : Layout) (n : Nat) : Layout :=
  if l.Fits n then l else if (l.grow n).Fits n then l.grow n else (l.grow n).grow n

section
variable {h h' : Heap} {g : Nat → Addr} {cr3 : Addr} {hd hd' : Addr → Header} {a b n fuel k : Nat}
  {p : Piece} {ps us : List Piece} {l : Layout} {x y z q size : Addr}

/-! ### Chains -/

/-- One segment more. -/
theorem pastEnd_concat : pastEnd a (us ++ [p]) = pastEnd a us + p.reach := by
  induction us generalizing a with
  | nil => rfl
  | cons q us ih => exact ih

/-- The last header is then its own. -/
theorem lastPlace_concat : lastPlace k a (us ++ [p]) = pastEnd a us := by
  induction us generalizing k a with
  | nil => rfl
  | cons q us ih => exact ih

/-- Segments end behind where they begin. -/
theorem le_pastEnd : a ≤ pastEnd a us := by
  induction us generalizing a with
  | nil => exact Nat.le_refl a
  | cons q us ih => exact Nat.le_trans (Nat.le_add_right a q.reach) ih

/-- A chain with one more segment. -/
theorem chained_concat : Chained hd k a (us ++ [p]) ↔ Chained hd k a us ∧
    hd (BitVec.ofNat 64 (pastEnd a us)) = ⟨BitVec.ofNat 64 p.length,
      BitVec.ofNat 64 (pastEnd a us + p.reach), BitVec.ofNat 64 (lastPlace k a us), false⟩ := by
  induction us generalizing k a with
  | nil =>
    show _ ∧ True ↔ True ∧ _
    rw [and_true, true_and]
    rfl
  | cons q us ih =>
    rw [List.cons_append, Chained, ih, ← and_assoc]
    rfl

/-- Only the headers before the end matter. -/
theorem Chained.congr (chained : Chained hd k a us) (same : ∀ b, a ≤ b → b + 32 ≤ pastEnd a us →
    hd' (BitVec.ofNat 64 b) = hd (BitVec.ofNat 64 b)) : Chained hd' k a us := by
  induction us generalizing k a with
  | nil => trivial
  | cons q us ih =>
    have room : a + q.reach ≤ pastEnd (a + q.reach) us := le_pastEnd
    have wide : 32 ≤ q.reach := by
      rw [Piece.reach]
      omega
    refine ⟨?_, ih chained.2 fun b le => same b (by omega)⟩
    rw [same a (Nat.le_refl a) (by rw [pastEnd]; omega)]
    exact chained.1

/-- The last segment is in the heap. -/
theorem Layout.base_le (l : Layout) : base ≤ l.place := le_pastEnd

/-- And ends with it at the latest. -/
theorem Layout.place_le (l : Layout) : l.place + 32 + l.tail.length ≤ l.fin := by
  rw [Layout.fin, Piece.reach]
  omega

/-! ### Taking -/

/-- The length in the last header. -/
theorem Lies.length (lies : Lies h l) :
    h.length (BitVec.ofNat 64 l.place) = BitVec.ofNat 64 l.tail.length := by
  rw [← length_header, lies.tail]

/-- It leads nowhere. -/
theorem Lies.next (lies : Lies h l) : h.next (BitVec.ofNat 64 l.place) = 0 := by
  rw [← next_header, lies.tail]

/-- And its mark. -/
theorem Lies.isFree (lies : Lies h l) : h.isFree (BitVec.ofNat 64 l.place) = l.free := by
  rw [← isFree_header, lies.tail]

/-- A mark of the last segment. -/
theorem Lies.setFree (lies : Lies h l) (small : l.fin < 2 ^ 63) (f : Bool) :
    Lies (h.setFree (BitVec.ofNat 64 l.place) f) { l with free := f } := by
  have room := l.place_le
  refine ⟨lies.initialized, lies.start, ?_, ?_, lies.last, lies.ends⟩
  · apply lies.chained.congr
    intro b _ le
    exact header_setFree_far (far_ofNat le (by
      show l.place + 32 ≤ 2 ^ 64
      omega)).symm
  · show (h.setFree _ f).header (BitVec.ofNat 64 l.place) = _
    rw [header_setFree, lies.tail]

/-- A segment with less than 64 bytes more than `n` is not split. -/
theorem headerSplit_whole {L : Nat} (length : h.length x = BitVec.ofNat 64 L) (le : n ≤ L)
    (short : L < n + 64) (signed : L < 2 ^ 63) : (headerSplit h x (BitVec.ofNat 64 n)).2 = h := by
  have left : (h.length x - BitVec.ofNat 64 n - headerSize).toInt < 0x20 := by
    rw [length, toInt_rest le signed]
    omega
  rw [headerSplit]
  split
  · rfl
  · rw [if_pos left]

/-- The writes of a split of the last segment. -/
theorem headerSplit_cut {L : Nat} (length : h.length x = BitVec.ofNat 64 L) (last : h.next x = 0)
    (big : 16 ≤ n) (room : n + 64 ≤ L) (signed : L < 2 ^ 63)
    (place : x + BitVec.ofNat 64 n + headerSize = y) : (headerSplit h x (BitVec.ofNat 64 n)).2 =
      (h.writeSplit x y 0 (BitVec.ofNat 64 (L - n - 64)) (BitVec.ofNat 64 n) true).moveLast x
        y := by
  subst place
  have enough : ¬ BitVec.ofNat 64 n < (0x10 : Addr) := by
    rw [BitVec.lt_def, BitVec.toNat_ofNat, show (0x10 : Addr).toNat = 16 from rfl]
    omega
  have left : ¬ (h.length x - BitVec.ofNat 64 n - headerSize).toInt < 0x20 := by
    rw [length, toInt_rest (by omega) signed]
    omega
  have rest : h.length x - BitVec.ofNat 64 n - headerSize - headerSize =
      BitVec.ofNat 64 (L - n - 64) := by
    apply BitVec.eq_of_toNat_eq
    rw [length, headerSize, BitVec.toNat_sub, BitVec.toNat_sub, BitVec.toNat_sub,
      BitVec.toNat_ofNat,
      BitVec.toNat_ofNat, BitVec.toNat_ofNat, show (32 : Addr).toNat = 32 from rfl]
    omega
  rw [headerSplit, if_neg enough]
  dsimp only
  rw [if_neg left, if_neg (not_not.mpr last), last, rest]
  rfl

/-- The second piece begins behind the first. -/
theorem Layout.cut_place (l : Layout) (n : Nat) : (l.cut n).place = l.place + 32 + n := by
  rw [Layout.place, Layout.cut, pastEnd_concat, ← Layout.place]
  show l.place + (32 + n + 0) = _
  omega

/-- The end of the heap stays. -/
theorem Layout.cut_fin (room : n + 64 ≤ l.tail.length) : (l.cut n).fin = l.fin := by
  rw [Layout.fin, Layout.cut_place, Layout.fin, Layout.cut, Piece.reach, Piece.reach]
  dsimp only
  omega

/-- The headers of a split, with the first one marked. -/
theorem Lies.cut (lies : Lies h l) (room : n + 64 ≤ l.tail.length) (small : l.fin < 2 ^ 63)
    (hy : y = BitVec.ofNat 64 (l.place + 32 + n)) :
    Lies (((h.writeSplit (BitVec.ofNat 64 l.place) y 0 (BitVec.ofNat 64 (l.tail.length - n - 64))
      (BitVec.ofNat 64 n) true).moveLast (BitVec.ofNat 64 l.place) y).setFree
        (BitVec.ofNat 64 l.place) false) (l.cut n) := by
  have fin := l.place_le
  have far : Far (BitVec.ofNat 64 l.place) y := hy ▸ far_ofNat (by omega) (by omega)
  obtain ⟨-, start, ends, initialized, last⟩ := @moveLast_rest
    (h.writeSplit (BitVec.ofNat 64 l.place) y 0 (BitVec.ofNat 64 (l.tail.length - n - 64))
      (BitVec.ofNat 64 n) true) (BitVec.ofNat 64 l.place) y
  refine ⟨initialized.trans lies.initialized, start.trans lies.start, ?_, ?_, ?_, ?_⟩
  · refine chained_concat.mpr ⟨?_, ?_⟩
    · apply lies.chained.congr
      intro b _ le
      have le' : b + 32 ≤ l.place := le
      have near := far_ofNat (a := b) (b := l.place) le' (by omega)
      have near' := far_ofNat (a := b) (b := l.place + 32 + n) (by omega) (by omega)
      rw [header_setFree_far near.symm, moveLast_header, writeSplit_far near.symm (hy ▸ near'.symm)]
    · show (Heap.setFree _ (BitVec.ofNat 64 l.place) false).header (BitVec.ofNat 64 l.place) = _
      have next : pastEnd base l.used + Piece.reach ⟨n, 0⟩ = l.place + 32 + n := by
        rw [← Layout.cut_place, Layout.place, Layout.cut, pastEnd_concat]
      rw [header_setFree, moveLast_header, writeSplit_segment far.symm, lies.tail, hy, next]
  · rw [Layout.cut_place, ← hy, header_setFree_far far, moveLast_header,
      writeSplit_newHeader far.symm]
    show _ = Header.mk _ _ (BitVec.ofNat 64 (lastPlace 0 base (l.used ++ [⟨n, 0⟩]))) true
    rw [lastPlace_concat]
    rfl
  · rw [Layout.cut_place, ← hy]
    refine last.trans ?_
    rw [writeSplit_rest.1, if_pos lies.last]
  · rw [Layout.cut_fin room, ← lies.ends]
    exact ends

/-- `n` bytes of a free last segment. -/
theorem Lies.take (lies : Lies h l) (fits : l.Fits n) (big : 16 ≤ n) (small : l.fin < 2 ^ 63) :
    Lies ((headerSplit h (BitVec.ofNat 64 l.place) (BitVec.ofNat 64 n)).2.setFree
      (BitVec.ofNat 64 l.place) false) (l.take n) := by
  have room := l.place_le
  rw [Layout.take]
  split
  · next long =>
    have place : BitVec.ofNat 64 l.place + BitVec.ofNat 64 n + headerSize =
        BitVec.ofNat 64 (l.place + 32 + n) := by
      rw [show headerSize = BitVec.ofNat 64 32 from rfl, ← BitVec.ofNat_add, ← BitVec.ofNat_add,
        Nat.add_right_comm]
    rw [headerSplit_cut lies.length lies.next big long (by omega) place]
    exact lies.cut long small rfl
  · next short =>
    rw [headerSplit_whole lies.length fits.2 (by omega) (by omega)]
    exact lies.setFree small false

/-! ### The walk -/

/-- The walk passes what is in use. -/
theorem mallocLoop_passes (chained : Chained h.header k a us) (pos : 0 < a)
    (small : pastEnd a us < 2 ^ 64) {r : Option (Addr × Heap)}
    (run : mallocLoop size fuel h (BitVec.ofNat 64 a) = some r) :
    ∃ fuel', mallocLoop size fuel' h (BitVec.ofNat 64 (pastEnd a us)) = some r := by
  induction us generalizing k a fuel with
  | nil => exact ⟨fuel, run⟩
  | cons q us ih =>
    cases fuel with
    | zero => cases run
    | succ fuel =>
      have le : a + q.reach ≤ pastEnd (a + q.reach) us := le_pastEnd
      have used : h.isFree (BitVec.ofNat 64 a) = false := by
        rw [← isFree_header, chained.1]
      have next : h.next (BitVec.ofNat 64 a) = BitVec.ofNat 64 (a + q.reach) := by
        rw [← next_header, chained.1]
      have some' : BitVec.ofNat 64 (a + q.reach) ≠ 0 := ofNat_ne_zero (by omega) (by
        rw [pastEnd] at small
        omega)
      rw [mallocLoop, used, if_neg (fun no => absurd no.1 (by decide)),
        if_neg (fun no => absurd no.1 (by decide)), next, if_neg some'] at run
      exact ih chained.2 (by omega) small run

/-- What the last round answers. -/
theorem Lies.round (lies : Lies h l) (big : 16 ≤ n) (small : l.fin < 2 ^ 63) (less : n < 2 ^ 64)
    {r : Option (Addr × Heap)}
    (run : mallocLoop (BitVec.ofNat 64 n) fuel h (BitVec.ofNat 64 l.place) = some r) :
    (l.Fits n → ∃ h', r = some (BitVec.ofNat 64 (l.place + 32), h') ∧ Lies h' (l.take n)) ∧
      (¬ l.Fits n → r = none) := by
  cases fuel with
  | zero => cases run
  | succ fuel =>
    have room := l.place_le
    have place : BitVec.ofNat 64 l.place + headerSize = BitVec.ofNat 64 (l.place + 32) := by
      rw [show headerSize = BitVec.ofNat 64 32 from rfl, ← BitVec.ofNat_add]
    rw [mallocLoop, lies.isFree, lies.length, lies.next, place] at run
    have order : BitVec.ofNat 64 n < BitVec.ofNat 64 l.tail.length ↔ n < l.tail.length := by
      rw [BitVec.lt_def, BitVec.toNat_ofNat, BitVec.toNat_ofNat]
      omega
    have same : BitVec.ofNat 64 l.tail.length = BitVec.ofNat 64 n ↔ l.tail.length = n := by
      rw [← BitVec.toNat_inj, BitVec.toNat_ofNat, BitVec.toNat_ofNat]
      omega
    rw [if_pos rfl] at run
    split at run
    · next more =>
      cases run
      have fits : l.Fits n := ⟨more.1, Nat.le_of_lt (order.mp more.2)⟩
      exact ⟨fun _ => ⟨_, rfl, lies.take fits big small⟩, fun no => absurd fits no⟩
    · next not_more =>
      split at run
      · next equal =>
        cases run
        have length := same.mp equal.2
        have fits : l.Fits n := ⟨equal.1, Nat.le_of_eq length.symm⟩
        refine ⟨fun _ => ⟨_, rfl, ?_⟩, fun no => absurd fits no⟩
        have taken := lies.setFree small false
        rw [Layout.take, if_neg (by omega)]
        exact taken
      · next other =>
        cases run
        refine ⟨fun fits => ?_, fun _ => rfl⟩
        rcases Nat.lt_or_eq_of_le fits.2 with lt | eq
        · exact absurd ⟨fits.1, order.mpr lt⟩ not_more
        · exact absurd ⟨fits.1, same.mpr eq.symm⟩ other

/-! ### Pages -/

/-- A page mapped is a matter of the tables. -/
theorem pmap_heap (run : pmap g cr3 fuel h y = some h') :
    ∃ tables, h' = { h with tables := tables } := by
  obtain ⟨r, -, rfl⟩ := Option.map_eq_some_iff.mp run
  exact ⟨r.2, rfl⟩

/-- And so are several. -/
theorem mapPages_heap (run : mapPages g cr3 fuel n h y = some h') :
    ∃ tables, h' = { h with tables := tables } := by
  induction n generalizing h y with
  | zero =>
    cases run
    exact ⟨h'.tables, rfl⟩
  | succ n ih =>
    obtain ⟨h₁, first, rest⟩ := Option.bind_eq_some_iff.mp run
    obtain ⟨t₁, rfl⟩ := pmap_heap first
    obtain ⟨t₂, rfl⟩ := ih rest
    exact ⟨t₂, rfl⟩

/-- The loop of `heap_expand` moves the end of the heap. -/
theorem growPages_heap (run : growPages g cr3 fuel n h = some h') : ∃ tables, h' = { h with
    heapEnd := h.heapEnd + BitVec.ofNat 64 (0x1000 * n), tables := tables } := by
  induction n generalizing h with
  | zero =>
    cases run
    refine ⟨h'.tables, ?_⟩
    rw [show h'.heapEnd + BitVec.ofNat 64 (0x1000 * 0) = h'.heapEnd from BitVec.add_zero _]
  | succ n ih =>
    obtain ⟨h₁, first, rest⟩ := Option.bind_eq_some_iff.mp run
    obtain ⟨t₁, rfl⟩ := pmap_heap first
    obtain ⟨t₂, rfl⟩ := ih rest
    have sum : h.heapEnd + BitVec.ofNat 64 (0x1000 * (n + 1)) =
        h.heapEnd + 0x1000 + BitVec.ofNat 64 (0x1000 * n) := by
      rw [Nat.mul_succ, Nat.add_comm (0x1000 * n), BitVec.ofNat_add, ← BitVec.add_assoc]
      rfl
    refine ⟨t₂, ?_⟩
    rw [sum]

/-! ### Growing -/

/-- A header cleared. -/
def clear (h : Heap) (a : Addr) : Heap := { h with mem := memset h.mem a 0 headerSize.toNat }

/-- Zeros read back. -/
theorem loadBytes_zero : ∀ {n : Nat} {a : Addr}, loadBytes (fun _ => 0) n a = 0
  | 0, _ => rfl
  | n + 1, a => by
    rw [loadBytes, loadBytes_zero]
    rfl

/-- A header that is cleared is zero. -/
theorem header_clear (h : Heap) (a : Addr) : (clear h a).header a = ⟨0, 0, 0, false⟩ := by
  have zero : ∀ y, InRange a 32 y → (clear h a).mem y = (fun _ => 0 : Memory) y :=
    fun y near => if_pos near
  rw [header_congr (h := { h with mem := fun _ => 0 }) zero]
  ext1
  · exact congrArg (BitVec.ofNat 64) loadBytes_zero
  · exact congrArg (BitVec.ofNat 64) loadBytes_zero
  · exact congrArg (BitVec.ofNat 64) loadBytes_zero
  · rfl

/-- The others stay. -/
theorem header_clear_far (far : Far x y) : (clear h x).header y = h.header y :=
  header_congr fun _ near => memset_of_not (far.not_inRange near)

/-- The last segment takes up a free one behind it. -/
structure Merged (h h' : Heap) (a b : Addr) : Prop where
  header : h'.header a = { h.header a with
    length := h.length a + h.length b + headerSize, next := 0 }
  far : ∀ c, Far a c → Far b c → h'.header c = h.header c
  last : h'.lastHeader = a
  rest : h'.heapStart = h.heapStart ∧ h'.heapEnd = h.heapEnd ∧
    h'.heapInitialized = h.heapInitialized

/-- `header_combine_forward` before a free segment: the writes in the order of the source. -/
theorem headerCombineForward_steps (next : h.next x = y) (nonzero : y ≠ 0)
    (free : h.isFree y = true) : headerCombineForward h x =
      let h₁ := h.moveLast y x
      let h₂ := h₁.patchLast (h₁.next (h₁.next x)) x
      let h₃ := h₂.setLength x (h₂.length x + h₂.length (h₂.next x) + headerSize)
      let h₄ := clear h₃ (h₃.next x)
      h₄.setNext x (h₄.next (h₄.next x)) := by
  subst next
  have steps : headerCombineForward h x = if h.next x = 0 then h else
      if !h.isFree (h.next x) then h else
      let h₁ := if h.next x = h.lastHeader then { h with lastHeader := x } else h
      let h₂ := h₁.patchLast (h₁.next (h₁.next x)) x
      let h₃ := h₂.setLength x (h₂.length x + h₂.length (h₂.next x) + headerSize)
      let h₄ := clear h₃ (h₃.next x)
      h₄.setNext x (h₄.next (h₄.next x)) := rfl
  have same : (if h.next x = h.lastHeader then { h with lastHeader := x } else h) =
      h.moveLast (h.next x) x := if_congr eq_comm rfl rfl
  rw [steps, if_neg nonzero, free, if_neg (by decide), same]

/-- The header behind `a` cleared, so that nothing is behind `a`. -/
structure Cut (h h' : Heap) (a b c : Addr) : Prop where
  header : h'.header a = { h.header a with
    length := h.length a + h.length b + headerSize, next := 0 }
  far : ∀ w, Far a w → Far b w → (c ≠ 0 → Far c w) → h'.header w = h.header w
  last : h'.lastHeader = if h.lastHeader = b then a else h.lastHeader
  rest : h'.heapStart = h.heapStart ∧ h'.heapEnd = h.heapEnd ∧
    h'.heapInitialized = h.heapInitialized

/-- `header_combine_forward` before a free segment. -/
theorem headerCombineForward_cut (far : Far x y) (next : h.next x = y) (nonzero : y ≠ 0)
    (free : h.isFree y = true) (ends : h.next y = z) (away : z ≠ 0 → Far z x ∧ Far z y) :
    Cut h (headerCombineForward h x) x y z := by
  have header (w : Addr) : (h.moveLast y x).header w = h.header w := moveLast_header
  have next₁ (w : Addr) : (h.moveLast y x).next w = h.next w := by
    rw [← next_header, header, next_header]
  rw [headerCombineForward_steps next nonzero free]
  dsimp only
  rw [next₁ x, next, next₁ y, ends]
  have header₂ : ((h.moveLast y x).patchLast z x).header x = h.header x := by
    rw [patchLast_far fun some => (away some).1, header]
  have header₂' : ((h.moveLast y x).patchLast z x).header y = h.header y := by
    rw [patchLast_far fun some => (away some).2, header]
  generalize hh : (h.moveLast y x).patchLast z x = h₂ at header₂ header₂'
  have next₂ : h₂.next x = y := by rw [← next_header, header₂, next_header, next]
  have length₂ : h₂.length x + h₂.length y + headerSize = h.length x + h.length y + headerSize := by
    rw [← length_header, header₂, ← length_header, header₂', length_header, length_header]
  rw [next₂, length₂]
  generalize hh' : h₂.setLength x (h.length x + h.length y + headerSize) = h₃
  have header₃ : h₃.header x =
      { h.header x with length := h.length x + h.length y + headerSize } := by
    rw [← hh', header_setLength, header₂]
  have next₃ : h₃.next x = y := by
    rw [← next_header, header₃]
    exact next
  have next₄ : (clear h₃ y).next ((clear h₃ y).next x) = 0 := by
    have same : (clear h₃ y).next x = y := by
      rw [← next_header, header_clear_far far.symm, next_header, next₃]
    rw [same, ← next_header, header_clear]
  rw [next₃, next₄]
  have rest : h₃.lastHeader = (h.moveLast y x).lastHeader ∧ h₃.heapStart = h.heapStart ∧
      h₃.heapEnd = h.heapEnd ∧ h₃.heapInitialized = h.heapInitialized := by
    obtain ⟨last₂, start₂, ends₂, init₂⟩ := patchLast_rest (h := h.moveLast y x) (y := z) (v := x)
    obtain ⟨-, start₁, ends₁, init₁, -⟩ := moveLast_rest (h := h) (y := y) (v := x)
    rw [← hh', ← hh]
    exact ⟨last₂, start₂.trans start₁, ends₂.trans ends₁, init₂.trans init₁⟩
  refine ⟨?_, fun w one two three => ?_, rest.1.trans moveLast_rest.2.2.2.2, rest.2⟩
  · rw [header_setNext, header_clear_far far.symm, header₃]
  · rw [header_setNext_far one, header_clear_far two, ← hh', header_setLength_far one, ← hh,
      patchLast_far three, header]

/-- With nothing behind the second segment the two become one. -/
theorem headerCombineForward_merged (far : Far x y) (next : h.next x = y) (nonzero : y ≠ 0)
    (free : h.isFree y = true) (last : h.lastHeader = y) (ends : h.next y = 0) :
    Merged h (headerCombineForward h x) x y := by
  have cut := headerCombineForward_cut far next nonzero free ends fun some => absurd rfl some
  refine ⟨cut.header, fun c away away' => cut.far c away away' fun some => absurd rfl some, ?_,
    cut.rest⟩
  rw [cut.last, if_pos last]

/-- `heap_expand` up to its last step. -/
theorem expand_steps (less : n + 4096 ≤ 2 ^ 64)
    (run : heapExpand g cr3 fuel h (BitVec.ofNat 64 n) = some h') : ∃ tables,
      h' = headerCombineBackward (Heap.writeSegment { h with
        heapEnd := h.heapEnd + BitVec.ofNat 64 (wholePages n), tables := tables }
          h.heapEnd (BitVec.ofNat 64 (wholePages n) - headerSize)) h.heapEnd := by
  rw [heapExpand] at run
  simp only [expand_length less] at run
  obtain ⟨h₀, grown, rest⟩ := Option.bind_eq_some_iff.mp run
  have pages : 0x1000 * (BitVec.ofNat 64 (wholePages n) / 0x1000).toNat = wholePages n := by
    have bounds := wholePages_bounds n
    rw [BitVec.toNat_udiv, BitVec.toNat_ofNat, show (0x1000 : Addr).toNat = 4096 from rfl]
    omega
  obtain ⟨tables, rfl⟩ := growPages_heap grown
  rw [pages] at rest
  exact ⟨tables, (Option.some.inj rest).symm⟩

/-- The new segment begins where the heap ended. -/
theorem Layout.append_place (l : Layout) (n : Nat) : (l.append n).place = l.fin := pastEnd_concat

/-- And the heap ends behind it. -/
theorem Layout.append_fin (l : Layout) {n : Nat} (le : 32 ≤ n) : (l.append n).fin = l.fin + n := by
  rw [Layout.fin, Layout.append_place]
  show l.fin + (32 + (n - 32) + 0) = _
  omega

/-- The headers once the new segment is written: the last one leads to it. -/
structure Written (h : Heap) (l : Layout) (n : Nat) (h' : Heap) : Prop where
  initialized : h'.heapInitialized = true
  start : h'.heapStart = BitVec.ofNat 64 base
  chained : Chained h'.header 0 base l.used
  tail : h'.header (BitVec.ofNat 64 l.place) = ⟨BitVec.ofNat 64 l.tail.length,
    BitVec.ofNat 64 l.fin, BitVec.ofNat 64 (lastPlace 0 base l.used), l.free⟩
  new : h'.header (BitVec.ofNat 64 l.fin) =
    ⟨BitVec.ofNat 64 (n - 32), 0, BitVec.ofNat 64 l.place, true⟩
  last : h'.lastHeader = BitVec.ofNat 64 l.fin
  ends : h'.heapEnd = BitVec.ofNat 64 (l.fin + n)

/-- What is written for a new segment. -/
theorem Lies.written (lies : Lies h l) (le : 32 ≤ n) (small : l.fin + n < 2 ^ 63)
    (tables : Paging.State) : Written h l n (Heap.writeSegment { h with
      heapEnd := h.heapEnd + BitVec.ofNat 64 n, tables := tables } h.heapEnd
        (BitVec.ofNat 64 n - headerSize)) := by
  have room := l.place_le
  have far : Far (BitVec.ofNat 64 l.place) (BitVec.ofNat 64 l.fin) :=
    far_ofNat (by omega) (by omega)
  have length : BitVec.ofNat 64 n - headerSize = BitVec.ofNat 64 (n - 32) := by
    apply BitVec.eq_of_toNat_eq
    rw [headerSize, BitVec.toNat_sub, BitVec.toNat_ofNat, BitVec.toNat_ofNat,
      show (32 : Addr).toNat = 32 from rfl]
    omega
  generalize hh : ({ h with heapEnd := h.heapEnd + BitVec.ofNat 64 n, tables := tables } :
    Heap) = h₀
  have last : h₀.lastHeader = BitVec.ofNat 64 l.place := by
    rw [← hh]
    exact lies.last
  have header (c : Addr) : h₀.header c = h.header c := by
    rw [← hh]
    rfl
  rw [lies.ends, length]
  refine ⟨?_, ?_, ?_, ?_, ?_, rfl, ?_⟩
  · rw [← hh]
    exact lies.initialized
  · rw [← hh]
    exact lies.start
  · apply lies.chained.congr
    intro b _ le
    have le' : b + 32 ≤ l.place := le
    have near := far_ofNat (a := b) (b := l.place) le' (by omega)
    have near' := far_ofNat (a := b) (b := l.fin) (by omega) (by omega)
    rw [writeSegment_far near'.symm (last ▸ near.symm), header]
  · have before := writeSegment_last (h := h₀) (v := BitVec.ofNat 64 (n - 32)) (last ▸ far)
    rw [last, header, lies.tail] at before
    exact before
  · rw [writeSegment_new (last ▸ far), last]
  · rw [← hh]
    show h.heapEnd + BitVec.ofNat 64 n = _
    rw [lies.ends, BitVec.ofNat_add]

/-- Behind a last segment that is in use the new one stays. -/
theorem Written.behind (written : Written h l n h') (mark : l.free = false) (le : 32 ≤ n) :
    Lies h' (l.append n) := by
  refine ⟨written.initialized, written.start, ?_, ?_, ?_, ?_⟩
  · refine chained_concat.mpr ⟨written.chained, ?_⟩
    rw [← mark]
    exact written.tail
  · rw [Layout.append_place, written.new]
    show _ = Header.mk _ _ (BitVec.ofNat 64 (lastPlace 0 base (l.used ++ [l.tail]))) true
    rw [lastPlace_concat]
    rfl
  · rw [Layout.append_place]
    exact written.last
  · rw [Layout.append_fin l le]
    exact written.ends

/-- The heap ends later by as much. -/
theorem Layout.longer_fin (l : Layout) (n : Nat) : (l.longer n).fin = l.fin + n := by
  rw [Layout.fin, Layout.fin, Layout.longer, Piece.reach, Piece.reach]
  show l.place + (32 + (l.tail.length + n) + l.tail.lost) = _
  omega

/-- A last segment that is free takes the new one up. -/
theorem Written.joined (written : Written h l n h') (le : 32 ≤ n)
    (small : l.fin + n < 2 ^ 63) :
    Lies (headerCombineForward h' (BitVec.ofNat 64 l.place)) (l.longer n) := by
  have room := l.place_le
  have far : Far (BitVec.ofNat 64 l.place) (BitVec.ofNat 64 l.fin) :=
    far_ofNat (by omega) (by omega)
  have next : h'.next (BitVec.ofNat 64 l.place) = BitVec.ofNat 64 l.fin := by
    rw [← next_header, written.tail]
  have nonzero : BitVec.ofNat 64 l.fin ≠ 0 := ofNat_ne_zero (by omega) (by omega)
  have free : h'.isFree (BitVec.ofNat 64 l.fin) = true := by
    rw [← isFree_header, written.new]
  have ends : h'.next (BitVec.ofNat 64 l.fin) = 0 := by
    rw [← next_header, written.new]
  obtain ⟨header, away, last, start, ends', initialized⟩ :=
    headerCombineForward_merged far next nonzero free written.last ends
  refine ⟨initialized.trans written.initialized, start.trans written.start, ?_, ?_, last, ?_⟩
  · apply written.chained.congr
    intro b _ le
    have le' : b + 32 ≤ l.place := le
    have near := far_ofNat (a := b) (b := l.place) le' (by omega)
    have near' := far_ofNat (a := b) (b := l.fin) (by omega) (by omega)
    exact away _ near.symm near'.symm
  · have length : BitVec.ofNat 64 l.tail.length + BitVec.ofNat 64 (n - 32) + headerSize =
        BitVec.ofNat 64 (l.tail.length + n) := by
      rw [show headerSize = BitVec.ofNat 64 32 from rfl, ← BitVec.ofNat_add, ← BitVec.ofNat_add,
        Nat.add_assoc, Nat.sub_add_cancel le]
    rw [show (l.longer n).place = l.place from rfl, header, ← length_header, ← length_header,
      written.tail, written.new, length]
    rfl
  · rw [ends', written.ends, Layout.longer_fin]

/-- `heap_expand` makes the last segment longer if it is free, and puts one behind it if it is
not. -/
theorem Lies.grow (lies : Lies h l) (pos : 0 < n) (less : n + 4096 ≤ 2 ^ 64)
    (small : l.fin + wholePages n < 2 ^ 63)
    (run : heapExpand g cr3 fuel h (BitVec.ofNat 64 n) = some h') : Lies h' (l.grow n) := by
  have room := l.place_le
  have low := l.base_le
  have above := base_eq
  have le : 32 ≤ wholePages n := by
    have bounds := wholePages_bounds n
    omega
  obtain ⟨h₁, written, eq⟩ : ∃ h₁, Written h l (wholePages n) h₁ ∧
      h' = headerCombineBackward h₁ h.heapEnd := by
    obtain ⟨tables, eq⟩ := expand_steps less run
    exact ⟨_, lies.written le small tables, eq⟩
  have back : h₁.last h.heapEnd = BitVec.ofNat 64 l.place := by
    rw [← last_header, lies.ends, written.new]
  have free : h₁.isFree (BitVec.ofNat 64 l.place) = l.free := by
    rw [← isFree_header, written.tail]
  rw [eq, headerCombineBackward, back, free, Layout.grow]
  by_cases mark : l.free = true
  · have nonzero : BitVec.ofNat 64 l.place ≠ 0 := ofNat_ne_zero (by omega) (by omega)
    rw [if_pos ⟨nonzero, mark⟩, if_pos mark]
    exact written.joined le small
  · rw [if_neg (fun both => mark both.2), if_neg mark]
    exact written.behind ((Bool.not_eq_true _).mp mark) le

/-! ### `malloc` -/

/-- The first segment. -/
def Layout.first : Layout := ⟨[], ⟨0xfffe0, 0⟩, true⟩

/-- It begins with the heap. -/
theorem Layout.first_place : Layout.first.place = base := rfl

/-- It is a megabyte. -/
theorem Layout.first_fin : Layout.first.fin = base + 0x100000 := by
  rw [Layout.fin, Layout.first_place, Layout.first, Piece.reach]
  dsimp only

/-- What `heap_initialize` leaves behind, field by field. -/
theorem initialize_steps (run : heapInitialize g cr3 fuel h y x = some h') :
    h'.heapStart = y ∧ h'.heapEnd = y + x * 0x1000 ∧
      h'.mem = (h.writeStart y (x * 0x1000 - headerSize)).mem ∧ h'.lastHeader = y ∧
      h'.heapInitialized = true := by
  rw [heapInitialize] at run
  obtain ⟨h₀, mapped, rest⟩ := Option.bind_eq_some_iff.mp run
  obtain ⟨tables, rfl⟩ := mapPages_heap mapped
  cases rest
  exact ⟨rfl, rfl, rfl, rfl, rfl⟩

/-- It makes the first segment. -/
theorem initialize_lies (run : heapInitialize g cr3 fuel h 0x7f0000000000 256 = some h') :
    Lies h' Layout.first := by
  obtain ⟨start, ends, memory, last, initialized⟩ := initialize_steps run
  have address : BitVec.ofNat 64 base = 0x7f0000000000 := by
    rw [base_eq]
    rfl
  rw [show (256 : Addr) * 0x1000 - headerSize = 0xfffe0 by decide] at memory
  refine ⟨initialized, start.trans address.symm, trivial, ?_, last.trans address.symm, ?_⟩
  · rw [Layout.first_place, address, header_congr fun z _ => congrFun memory z, writeStart_header]
    rfl
  · rw [Layout.first_fin, BitVec.ofNat_add, address, ends]
    rfl

/-- A round of `malloc` on an initialized heap. -/
theorem malloc_succ (init : h.heapInitialized = true) (round : roundUp size = BitVec.ofNat 64 n)
    (pos : 0 < n) (less : n < 2 ^ 64) : malloc g cr3 (fuel + 1) h size =
      (mallocLoop (BitVec.ofNat 64 n) fuel h h.heapStart).bind fun found =>
        match found with
        | some block => some block
        | none => (heapExpand g cr3 fuel h (BitVec.ofNat 64 n)).bind fun h =>
          malloc g cr3 fuel h (BitVec.ofNat 64 n) := by
  rw [malloc, init, round]
  simp only [Bool.not_true, Bool.false_eq_true, if_false, Option.bind_eq_bind, Option.bind_some]
  rw [if_neg (ofNat_ne_zero pos less)]
  rfl

/-- A round of `malloc`: the block is taken, or the heap is made longer. -/
theorem Lies.malloc_round (lies : Lies h l) (round : roundUp size = BitVec.ofNat 64 n)
    (big : 16 ≤ n) (less : n < 2 ^ 62) (small : l.fin < 2 ^ 62)
    (run : malloc g cr3 fuel h size = some (q, h')) :
    (l.Fits n → q = BitVec.ofNat 64 (l.place + 32) ∧ Lies h' (l.take n)) ∧
      (¬ l.Fits n → ∃ fuel' h₁, Lies h₁ (l.grow n) ∧
        malloc g cr3 fuel' h₁ (BitVec.ofNat 64 n) = some (q, h')) := by
  cases fuel with
  | zero => cases run
  | succ fuel =>
    have above := base_eq
    have room := l.place_le
    have bounds := wholePages_bounds n
    rw [malloc_succ lies.initialized round (by omega) (by omega), lies.start] at run
    obtain ⟨found, loop, rest⟩ := Option.bind_eq_some_iff.mp run
    obtain ⟨fuel', last⟩ := mallocLoop_passes lies.chained (by omega) (by
      show l.place < 2 ^ 64
      omega) loop
    obtain ⟨fits, misfits⟩ := lies.round big (by omega) (by omega) last
    constructor
    · intro yes
      obtain ⟨h₁, rfl, taken⟩ := fits yes
      cases rest
      exact ⟨rfl, taken⟩
    · intro no
      rw [misfits no] at rest
      obtain ⟨h₁, grown, again⟩ := Option.bind_eq_some_iff.mp rest
      exact ⟨fuel, h₁, lies.grow (by omega) (by omega) (by omega) grown, again⟩

/-- The heap ends later by whole pages. -/
theorem Layout.grow_fin (l : Layout) (pos : 0 < n) : (l.grow n).fin = l.fin + wholePages n := by
  have bounds := wholePages_bounds n
  rw [Layout.grow]
  split
  · exact l.longer_fin _
  · exact l.append_fin (by omega)

/-- Its last segment is free then. -/
theorem Layout.grow_free (l : Layout) (n : Nat) : (l.grow n).free = true := by
  rw [Layout.grow]
  split
  · next mark => exact mark
  · rfl

/-- After two growths there is room. -/
theorem Layout.grow_twice (l : Layout) (n : Nat) : ((l.grow n).grow n).Fits n := by
  have bounds := wholePages_bounds n
  refine ⟨Layout.grow_free _ n, ?_⟩
  rw [Layout.grow, if_pos (l.grow_free n)]
  show n ≤ (l.grow n).tail.length + wholePages n
  omega

/-- There is room in the layout that `malloc` takes from. -/
theorem Layout.ready_fits (l : Layout) (n : Nat) : (l.ready n).Fits n := by
  rw [Layout.ready]
  split
  · assumption
  · split
    · assumption
    · exact l.grow_twice n

/-- The block that `malloc` hands out, and how the heap lies then. -/
theorem Lies.obtains (lies : Lies h l) (round : roundUp size = BitVec.ofNat 64 n) (big : 16 ≤ n)
    (even : n % 16 = 0) (less : n < 2 ^ 48) (small : l.fin < 2 ^ 48)
    (run : malloc g cr3 fuel h size = some (q, h')) :
    q = BitVec.ofNat 64 ((l.ready n).place + 32) ∧ Lies h' ((l.ready n).take n) := by
  have bounds := wholePages_bounds n
  have again := roundUp_even even (show n < 2 ^ 64 by omega)
  have grown := l.grow_fin (show 0 < n by omega)
  obtain ⟨fits, misfits⟩ := lies.malloc_round round big (by omega) (by omega) run
  rw [Layout.ready]
  split
  · next yes => exact fits yes
  · next no =>
    obtain ⟨fuel', h₁, lies₁, run₁⟩ := misfits no
    obtain ⟨fits₁, misfits₁⟩ := lies₁.malloc_round again big (by omega) (by omega) run₁
    split
    · next yes => exact fits₁ yes
    · next no₁ =>
      obtain ⟨fuel'', h₂, lies₂, run₂⟩ := misfits₁ no₁
      have grown₁ := (l.grow n).grow_fin (show 0 < n by omega)
      exact (lies₂.malloc_round again big (by omega) (by omega) run₂).1 (l.grow_twice n)

/-- The first call makes the first segment. -/
theorem malloc_fresh (fresh : h.heapInitialized = false)
    (run : malloc g cr3 fuel h size = some (q, h')) :
    ∃ h₁, Lies h₁ Layout.first ∧ malloc g cr3 fuel h₁ size = some (q, h') := by
  cases fuel with
  | zero => cases run
  | succ fuel =>
    rw [malloc, fresh] at run
    obtain ⟨h₁, first, rest⟩ := Option.bind_eq_some_iff.mp run
    have lies := initialize_lies first
    refine ⟨h₁, lies, ?_⟩
    rw [malloc, lies.initialized]
    exact rest

/-- A request for nothing. -/
theorem Lies.malloc_nothing (lies : Lies h l) (round : roundUp size = 0)
    (run : malloc g cr3 fuel h size = some (q, h')) : q = 0 ∧ h' = h := by
  cases fuel with
  | zero => cases run
  | succ fuel =>
    rw [malloc, lies.initialized, round] at run
    cases run
    exact ⟨rfl, rfl⟩

end

end Skylight.UserHeap
