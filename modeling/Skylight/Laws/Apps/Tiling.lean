import Skylight.Laws.Apps.Runs

/-!
# What the heap of prism loses

`header_split` takes two headers off what is left for one, so that a split loses 32 bytes for good.
A run loses nothing if every call takes all of a segment, which its length decides.

`tiles_iff` is about all runs, from the first call on: segment lies next to segment up to the
end of the heap, if and only if the lengths that were asked for leave nothing (`NoneLeft`), the
first of the first megabyte and each later one of the pages mapped for it. `free` plays no part,
since it recovers nothing.
-/

namespace Skylight.UserHeap

open Skylight.Bytes Skylight.Heap

/-- From there on segment lies next to segment up to the end of the heap. -/
inductive TilesFrom (h : Heap) : Addr → Prop
  | last {a : Addr} : h.next a = 0 → a.toNat + 32 + (h.length a).toNat = h.heapEnd.toNat →
      TilesFrom h a
  | next {a : Addr} : h.next a ≠ 0 → (h.next a).toNat = a.toNat + 32 + (h.length a).toNat →
      TilesFrom h (h.next a) → TilesFrom h a

/-- The segments of the heap, once it is there, tile it. -/
def Tiles (h : Heap) : Prop := h.heapInitialized = true → TilesFrom h h.heapStart

/-- The first length takes the first segment, and each later one all that is mapped for it: less
than 64 bytes are left, which makes no segment, and 32 of the pages are for the header. -/
def NoneLeft : List Nat → Prop
  | [] => True
  | n :: lengths => (0xfffa0 < n ∧ n ≤ 0xfffe0) ∧
      ∀ m ∈ lengths, m + 32 ≤ wholePages m ∧ wholePages m < m + 96

/-- No byte of the heap is lost. -/
def Layout.Exact (l : Layout) : Prop := ∀ p ∈ l.pieces, p.lost = 0

section
variable {h : Heap} {g : Nat → Addr} {cr3 : Addr} {n : Nat} {pre post : List Piece} {q : Piece}
  {l : Layout} {w w₀ : World} {ops : List Op} {lengths : List Nat}

/-! ### Tiles -/

/-- Where a segment lies. -/
theorem Layout.pieces_fin (split : l.pieces = pre ++ q :: post) :
    pastEnd (pastEnd base pre + q.reach) post = l.fin := by
  rw [← l.pastEnd_pieces, split, pastEnd_append]
  rfl

/-- What a header says where addresses do not wrap. -/
theorem Lies.header_toNat (lies : Lies h l) (small : l.fin ≤ 2 ^ 47)
    (split : l.pieces = pre ++ q :: post) :
    (BitVec.ofNat 64 (pastEnd base pre)).toNat = pastEnd base pre ∧
      (h.length (BitVec.ofNat 64 (pastEnd base pre))).toNat = q.length := by
  have fin := Layout.pieces_fin split
  have room : pastEnd base pre + q.reach ≤ pastEnd (pastEnd base pre + q.reach) post := le_pastEnd
  have wide : q.reach = 32 + q.length + q.lost := rfl
  rw [(lies.header split).1, BitVec.toNat_ofNat, BitVec.toNat_ofNat]
  omega

/-- From a segment on the heap is tiled when nothing is lost there. -/
theorem Lies.tilesFrom_iff (lies : Lies h l) (small : l.fin ≤ 2 ^ 47)
    (split : l.pieces = pre ++ q :: post) :
    TilesFrom h (BitVec.ofNat 64 (pastEnd base pre)) ↔ ∀ p ∈ q :: post, p.lost = 0 := by
  have above := base_eq
  have wide : q.reach = 32 + q.length + q.lost := rfl
  obtain ⟨place, size⟩ := lies.header_toNat small split
  obtain ⟨-, next⟩ := lies.header split
  -- Induction on the segments behind; each is left where its length and what it lost end.
  induction post generalizing pre q with
  | nil =>
    have ends : h.heapEnd.toNat = pastEnd base pre + q.reach := by
      rw [lies.ends, BitVec.toNat_ofNat, ← Layout.pieces_fin split, pastEnd]
      have fin := Layout.pieces_fin split
      rw [pastEnd] at fin
      omega
    have next : h.next (BitVec.ofNat 64 (pastEnd base pre)) = 0 := by
      rcases next with ⟨-, -, next, -⟩ | ⟨no, -⟩
      · exact next
      · exact absurd rfl no
    rw [List.forall_mem_singleton]
    constructor
    · intro tiles
      cases tiles with
      | last _ reaches => omega
      | next more => exact absurd next more
    · intro exact
      exact .last next (by omega)
  | cons t post ih =>
    have split' : l.pieces = (pre ++ [q]) ++ t :: post := by
      rw [split, List.append_assoc]
      rfl
    obtain ⟨place', size'⟩ := lies.header_toNat small split'
    have next : h.next (BitVec.ofNat 64 (pastEnd base pre)) =
        BitVec.ofNat 64 (pastEnd base (pre ++ [q])) := by
      rcases next with ⟨no, -⟩ | ⟨-, next, -⟩
      · cases no
      · rw [next, pastEnd_concat]
    have nonzero : h.next (BitVec.ofNat 64 (pastEnd base pre)) ≠ 0 := by
      have start : base ≤ pastEnd base (pre ++ [q]) := le_pastEnd
      intro zero
      rw [← next, zero] at place'
      change 0 = _ at place'
      omega
    have rest : TilesFrom h (h.next (BitVec.ofNat 64 (pastEnd base pre))) ↔
        ∀ p ∈ t :: post, p.lost = 0 := by
      rw [next]
      exact ih split' rfl place' size' (lies.header split').2
    rw [← next, pastEnd_concat] at place'
    rw [List.forall_mem_cons, ← rest]
    constructor
    · intro tiles
      cases tiles with
      | last none => exact absurd none nonzero
      | next _ beside tiles => exact ⟨by omega, tiles⟩
    · intro both
      exact .next nonzero (by omega) both.2

/-- And so the whole heap. -/
theorem Lies.tiles_exact (lies : Lies h l) (small : l.fin ≤ 2 ^ 47) : Tiles h ↔ l.Exact := by
  obtain ⟨q, post, split⟩ := List.exists_cons_of_ne_nil
    (show l.pieces ≠ [] from List.append_ne_nil_of_right_ne_nil _ (List.cons_ne_nil _ _))
  have tiles : TilesFrom h (BitVec.ofNat 64 base) ↔ ∀ p ∈ q :: post, p.lost = 0 :=
    @tilesFrom_iff h [] post q l lies small split
  rw [Tiles, lies.start, Layout.Exact, split]
  exact ⟨fun tiled => tiles.mp (tiled lies.initialized), fun exact _ => tiles.mpr exact⟩

/-! ### Lengths -/

/-- The segments but the last, and the last. -/
theorem exact_iff : l.Exact ↔ (∀ p ∈ l.used, p.lost = 0) ∧ l.tail.lost = 0 := by
  rw [Layout.Exact, Layout.pieces, List.forall_mem_append, List.forall_mem_singleton]

/-- A longer heap loses nothing more. -/
theorem grow_exact (l : Layout) (n : Nat) : (l.grow n).Exact ↔ l.Exact := by
  rw [Layout.grow]
  split
  · rw [exact_iff, exact_iff]
    rfl
  · exact exact_iff.trans (and_iff_left rfl)

/-- Nor does the one that `malloc` takes from. -/
theorem ready_exact (l : Layout) (n : Nat) : (l.ready n).Exact ↔ l.Exact := by
  rw [Layout.ready]
  split
  · exact Iff.rfl
  · split
    · exact grow_exact l n
    · rw [grow_exact, grow_exact]

/-- A split loses a header. -/
theorem take_exact : (l.take n).Exact ↔ l.Exact ∧ l.tail.length < n + 64 := by
  rw [Layout.take]
  split
  · next long =>
    refine iff_of_false (fun exact => ?_) (fun both => by omega)
    have lost : l.tail.lost + 32 = 0 := (exact_iff.mp exact).2
    omega
  · next short => exact (and_iff_left (Nat.lt_of_not_le short)).symm

/-- A call loses nothing when there is not enough left for a split. -/
theorem serve_exact : (l.serve n).Exact ↔ l.Exact ∧ (l.ready n).tail.length < n + 64 := by
  rw [Layout.serve, take_exact, ready_exact]

/-- All of a segment is in use then. -/
theorem serve_free (exact : (l.serve n).Exact) : (l.serve n).free = false := by
  have short := (serve_exact.mp exact).2
  rw [Layout.serve, Layout.take, if_neg (by omega)]

/-- The lengths for which that is so of the first segment. -/
theorem first_serve_exact : (Layout.first.serve n).Exact ↔ 0xfffa0 < n ∧ n ≤ 0xfffe0 := by
  have pages := wholePages_bounds n
  have exact : Layout.first.Exact := exact_iff.mpr ⟨List.forall_mem_nil _, rfl⟩
  have grown : (Layout.first.grow n).tail.length = 0xfffe0 + wholePages n := by
    rw [Layout.grow, if_pos (show Layout.first.free = true from rfl)]
    rfl
  have fits : Layout.first.Fits n ↔ n ≤ 0xfffe0 := and_iff_right rfl
  have fits' : (Layout.first.grow n).Fits n := ⟨Layout.grow_free _ n, by omega⟩
  rw [serve_exact, and_iff_right exact, Layout.ready]
  split
  · next yes =>
    rw [fits] at yes
    show 0xfffe0 < n + 64 ↔ _
    omega
  · next no =>
    rw [fits] at no
    rw [grown]
    omega

/-- Behind a segment in use the pages for the call are a segment of their own. -/
theorem serve_exact_used (used : l.free = false) (pos : 0 < n) :
    (l.serve n).Exact ↔ l.Exact ∧ n + 32 ≤ wholePages n ∧ wholePages n < n + 96 := by
  have pages := wholePages_bounds n
  have no : ¬ l.Fits n := fun fits => by
    rw [Layout.Fits, used] at fits
    cases fits.1
  have grown : l.grow n = l.append (wholePages n) := by
    rw [Layout.grow, if_neg (by rw [used]; exact Bool.false_ne_true)]
  have fits : (l.grow n).Fits n ↔ n + 32 ≤ wholePages n := by
    rw [grown]
    refine (and_iff_right rfl).trans ?_
    show n ≤ wholePages n - 32 ↔ _
    omega
  rw [serve_exact, Layout.ready, if_neg no]
  refine and_congr_right fun _ => ?_
  split
  · next yes =>
    rw [fits] at yes
    rw [grown]
    show wholePages n - 32 < n + 64 ↔ _
    omega
  · next no' =>
    rw [fits] at no'
    rw [Layout.grow, if_pos (Layout.grow_free l n), grown]
    show wholePages n - 32 + wholePages n < n + 64 ↔ _
    omega

/-- The lengths for which it is so of the later ones. -/
theorem foldl_exact (used : l.Exact → l.free = false) (pos : ∀ n ∈ lengths, 0 < n) :
    (lengths.foldl Layout.serve l).Exact ↔
      l.Exact ∧ ∀ n ∈ lengths, n + 32 ≤ wholePages n ∧ wholePages n < n + 96 := by
  induction lengths generalizing l with
  | nil => exact (and_iff_left (List.forall_mem_nil _)).symm
  | cons n lengths ih =>
    rw [List.forall_mem_cons] at pos
    rw [List.foldl_cons, ih serve_free pos.2, List.forall_mem_cons, ← and_assoc]
    refine and_congr_left fun _ => ?_
    by_cases exact : l.Exact
    · exact serve_exact_used (used exact) pos.1
    · rw [serve_exact]
      exact iff_of_false (fun both => exact both.1) (fun both => exact both.1)

/-- What the lengths of a run lose. -/
theorem laid_exact (pos : ∀ n ∈ lengths, 0 < n) : (laid lengths).Exact ↔ NoneLeft lengths := by
  cases lengths with
  | nil => exact iff_of_true (exact_iff.mpr ⟨List.forall_mem_nil _, rfl⟩) trivial
  | cons n lengths =>
    rw [List.forall_mem_cons] at pos
    rw [laid, List.foldl_cons, foldl_exact serve_free pos.2, first_serve_exact]
    rfl

/-- No length is zero. -/
theorem asked_pos : ∀ n ∈ asked ops, 0 < n := by
  induction ops with
  | nil => exact List.forall_mem_nil _
  | cons op ops ih =>
    cases op with
    | malloc size =>
      rw [asked]
      split
      · exact ih
      · next something =>
        refine List.forall_mem_cons.mpr ⟨?_, ih⟩
        exact Nat.pos_of_ne_zero fun zero => something (BitVec.eq_of_toNat_eq zero)
    | free pointer => exact ih
    | write address byte => exact ih

/-- What every run leaves is tiled, segment by segment up to the end of the heap, exactly if the
lengths it asked for leave nothing of the segments that they were taken from. -/
theorem tiles_iff (initial : World.Initial w₀) (trace : Trace g cr3 w₀ ops w) :
    Tiles w.heap ↔ NoneLeft (asked ops) := by
  rcases trace.inv initial with ⟨fresh, none⟩ | sound
  · rw [none]
    refine iff_of_true (fun initialized => ?_) trivial
    rw [fresh.1] at initialized
    cases initialized
  · rw [sound.lies.tiles_exact sound.low, laid_exact asked_pos]

end

open Paging (spaceFrames)

/-- The length of one call. -/
theorem asked_one {size : Addr} {n : Nat} (round : roundUp size = BitVec.ofNat 64 n) (pos : 0 < n)
    (less : n < 2 ^ 64) : asked [.malloc size] = [n] := by
  rw [asked, round, if_neg (ofNat_ne_zero pos less), BitVec.toNat_ofNat, Nat.mod_eq_of_lt less]
  rfl

/-- A block as long as the first segment leaves nothing. -/
theorem tiles_iff_machine : ∃ w,
    Trace spaceFrames (spaceFrames 0) machineWorld [.malloc 0xfffe0] w ∧ Tiles w.heap := by
  have round : roundUp 0xfffe0 = BitVec.ofNat 64 0xfffe0 := by decide
  obtain ⟨p, w, step, -⟩ := machine_obtains round (by decide) (by decide) (by decide) (by decide)
  have trace := Trace.start.step step
  refine ⟨w, trace, (tiles_iff machine_initial trace).mpr ?_⟩
  rw [List.nil_append, asked_one round (by decide) (by decide)]
  exact ⟨by decide, List.forall_mem_nil _⟩

/-- Of what a block of 16 bytes leaves 32 bytes are lost. -/
theorem not_tiles : ∃ w, Trace spaceFrames (spaceFrames 0) machineWorld [.malloc 16] w ∧
    ¬ Tiles w.heap := by
  have round : roundUp 16 = BitVec.ofNat 64 16 := by decide
  obtain ⟨p, w, step, live⟩ := machine_obtains round (by decide) (by decide) (by decide) (by decide)
  have trace := Trace.start.step step
  refine ⟨w, trace, fun tiles => ?_⟩
  rcases trace.inv machine_initial with ⟨fresh, -⟩ | sound
  · rw [fresh.2 p] at live
    cases live
  · rw [sound.lies.tiles_exact sound.low, laid_exact asked_pos, List.nil_append,
      asked_one round (by decide) (by decide)] at tiles
    exact absurd tiles.1.1 (by decide)

end Skylight.UserHeap
