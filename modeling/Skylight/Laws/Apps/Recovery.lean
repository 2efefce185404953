import Skylight.Laws.Apps.Runs

/-!
# What `free` of prism recovers

Nothing: in every run it leaves the heap as it is, the block stays in a segment in use, and the
heap has room for all that was ever asked for.

`free` begins with a test of the header that holds of no header there is, since it asks for a
free mark and every block is in use. `free_recovers_none` says what comes of it for every run
and every live block: the segment is not free after the call, and the heap has room, at one
time, for the sum of all lengths that were ever asked for. Whether a program runs out of memory
by it depends on the program.
-/

namespace Skylight.UserHeap

open Skylight.Bytes Skylight.Heap

/-- The headers that `next` leads to from `heap_start`. -/
inductive Reaches (h : Heap) : Addr → Prop
  | start : Reaches h h.heapStart
  | next {a : Addr} : Reaches h a → h.next a ≠ 0 → Reaches h (h.next a)

/-- A free segment has the block at `p`, and its neighbours are not free. -/
def Regained (h : Heap) (p : Addr) : Prop :=
  ∃ a, Reaches h a ∧ h.isFree a = true ∧ InRange (a + headerSize) (h.length a).toNat p ∧
    (h.next a ≠ 0 → h.isFree (h.next a) = false) ∧ (h.last a ≠ 0 → h.isFree (h.last a) = false)

/-- What `free` is to do for the block of `n` bytes at `p`: the segment is free and merged, and the
heap serves the next call for as much without growing. -/
structure Recovers (g : Nat → Addr) (cr3 : Addr) (h : Heap) (p : Addr) (n : Nat) : Prop where
  regained : Regained (free h p) p
  again : ∀ size fuel q h', 0 < size.toNat → size.toNat ≤ n →
    malloc g cr3 fuel (free h p) size = some (q, h') → q ≠ 0 ∧ h'.heapEnd = (free h p).heapEnd

/-- What segments and their headers take. -/
def taken (ps : List Piece) : Nat := (ps.map fun p => p.length + 32).sum

section
variable {h : Heap} {g : Nat → Addr} {cr3 p : Addr} {a n : Nat} {us ps : List Piece} {l : Layout}
  {x : Addr} {w w₀ : World} {ops : List Op} {lengths : List Nat}

/-! ### Headers -/

/-- All headers that `next` leads to are those of segments. -/
theorem Lies.reaches (lies : Lies h l) (reaches : Reaches h x) :
    ∃ pre q post, l.pieces = pre ++ q :: post ∧ x = BitVec.ofNat 64 (pastEnd base pre) := by
  induction reaches with
  | start =>
    obtain ⟨q, post, split⟩ := List.exists_cons_of_ne_nil
      (show l.pieces ≠ [] from List.append_ne_nil_of_right_ne_nil _ (List.cons_ne_nil _ _))
    exact ⟨[], q, post, split, lies.start⟩
  | next _ more ih =>
    obtain ⟨pre, q, post, split, rfl⟩ := ih
    obtain ⟨-, ⟨-, -, none, -⟩ | ⟨some', next, -⟩⟩ := lies.header split
    · exact absurd none more
    · obtain ⟨t, post, rfl⟩ := List.exists_cons_of_ne_nil some'
      refine ⟨pre ++ [q], t, post, ?_, ?_⟩
      · rw [split, List.append_assoc]
        rfl
      · rw [next, pastEnd_concat]

/-- The last header is the only one that may be free. -/
theorem Lies.reaches_free (lies : Lies h l) (reaches : Reaches h x) (free : h.isFree x = true) :
    l.free = true ∧ x = BitVec.ofNat 64 l.place := by
  obtain ⟨pre, q, post, split, rfl⟩ := lies.reaches reaches
  obtain ⟨-, ⟨-, rfl, -, last⟩ | ⟨-, -, used⟩⟩ := lies.header split
  · exact ⟨last.symm.trans free, rfl⟩
  · rw [used] at free
    cases free

/-- A live block stays in a segment in use. -/
theorem Sound.not_regained (sound : Sound w l) (live : w.live p = some n) :
    ¬ Regained w.heap p := by
  rintro ⟨x, reaches, free, inside, -⟩
  obtain ⟨mark, rfl⟩ := sound.lies.reaches_free reaches free
  obtain ⟨pre, q, post, split, rfl, -⟩ := sound.owns p n live
  rw [Layout.inUse, if_pos mark] at split
  have room : pastEnd base pre + q.reach ≤ l.place := by
    rw [Layout.place, split, pastEnd_append]
    exact le_pastEnd
  have wide : q.reach = 32 + q.length + q.lost := rfl
  have above := base_eq
  have low := sound.low
  have fin := l.place_le
  rw [sound.lies.length, InRange, headerSize, BitVec.toNat_sub, BitVec.toNat_add,
    BitVec.toNat_ofNat,
    BitVec.toNat_ofNat, BitVec.toNat_ofNat, show (32 : Addr).toNat = 32 from rfl] at inside
  omega

/-- What `free` leaves of a live block. -/
theorem Sound.not_recovers (sound : Sound w l) (live : w.live p = some n) :
    UserHeap.free w.heap p = w.heap ∧ ¬ Recovers g cr3 w.heap p n := by
  have same := sound.lies.free_owned sound.low (sound.owns p n live)
  refine ⟨same, fun recovers => ?_⟩
  have regained := recovers.regained
  rw [same] at regained
  exact sound.not_regained live regained

/-! ### Room -/

/-- What two lists take. -/
theorem taken_append (us ps : List Piece) : taken (us ++ ps) = taken us + taken ps := by
  rw [taken, List.map_append, List.sum_append]
  rfl

/-- It is not more than where they end. -/
theorem taken_le : a + taken us ≤ pastEnd a us := by
  induction us generalizing a with
  | nil => exact Nat.le_refl a
  | cons p us ih =>
    have rest := @ih (a + p.reach)
    have wide : p.reach = 32 + p.length + p.lost := rfl
    rw [pastEnd, show taken (p :: us) = p.length + 32 + taken us from rfl]
    omega

/-- All that was asked for stays in use. -/
theorem taken_serve (l : Layout) (n : Nat) :
    taken l.inUse + (n + 32) ≤ taken (l.serve n).inUse := by
  obtain ⟨q, le, inUse, -⟩ := Layout.take_inUse (l.ready_fits n)
  rw [Layout.serve, inUse, Layout.ready_inUse, taken_append]
  show _ ≤ _ + (q.length + 32 + 0)
  omega

/-- Every call takes what it asks for, and a header. -/
theorem taken_foldl (l : Layout) : taken l.inUse + (lengths.map (· + 32)).sum ≤
    taken (lengths.foldl Layout.serve l).inUse := by
  induction lengths generalizing l with
  | nil => exact Nat.le_refl _
  | cons n lengths ih =>
    have served := taken_serve l n
    have rest := ih (l.serve n)
    rw [List.map_cons, List.sum_cons, List.foldl_cons]
    omega

/-- The segments in use lie in the heap. -/
theorem Layout.taken_fin (l : Layout) : base + taken l.inUse ≤ l.fin := by
  obtain ⟨rest, all⟩ := l.inUse_front
  have le := @taken_le base l.pieces
  rw [← all, taken_append, all, l.pastEnd_pieces] at le
  omega

/-- There is room for all of it. -/
theorem Sound.room (sound : Sound w (laid lengths)) :
    (lengths.map (· + 32)).sum ≤ w.heap.heapEnd.toNat - w.heap.heapStart.toNat := by
  have above := base_eq
  have low := sound.low
  have all := @taken_foldl lengths Layout.first
  have within := (laid lengths).taken_fin
  rw [laid] at low within
  rw [sound.lies.ends, sound.lies.start, BitVec.toNat_ofNat, BitVec.toNat_ofNat, laid]
  omega

/-- In every run `free` does nothing for a live block, and the heap has room for all that was ever
asked for. -/
theorem free_recovers_none (initial : World.Initial w₀) (trace : Trace g cr3 w₀ ops w) :
    (∀ p n, w.live p = some n → free w.heap p = w.heap ∧ ¬ Recovers g cr3 w.heap p n) ∧
      (w.heap.heapInitialized = true →
        ((asked ops).map (· + 32)).sum ≤ w.heap.heapEnd.toNat - w.heap.heapStart.toNat) := by
  rcases trace.inv initial with ⟨fresh, -⟩ | sound
  · refine ⟨fun p n live => ?_, fun initialized => ?_⟩
    · rw [fresh.2 p] at live
      cases live
    · rw [fresh.1] at initialized
      cases initialized
  · exact ⟨fun p n live => sound.not_recovers live, fun _ => sound.room⟩

end

open Paging (spaceFrames)

/-- A block of 32 bytes. -/
theorem free_recovers_none_machine : ∃ p w,
    Trace spaceFrames (spaceFrames 0) machineWorld [.malloc 32] w ∧ w.live p = some 32 ∧
      free w.heap p = w.heap ∧ ¬ Recovers spaceFrames (spaceFrames 0) w.heap p 32 := by
  obtain ⟨p, w, step, live⟩ := machine_obtains (n := 32) (show roundUp 32 = _ by decide) (by decide)
    (by decide) (by decide) (by decide)
  have trace := Trace.start.step step
  obtain ⟨same, not_recovers⟩ := (free_recovers_none machine_initial trace).1 p 32 live
  exact ⟨p, w, trace, live, same, not_recovers⟩

/-- A block of 16 bytes that is given back is not free. -/
theorem free_not_recovers : ∃ p w,
    Trace spaceFrames (spaceFrames 0) machineWorld [.malloc 16] w ∧ w.live p = some 16 ∧
      ¬ Recovers spaceFrames (spaceFrames 0) w.heap p 16 := by
  obtain ⟨p, w, step, live⟩ := machine_obtains (n := 16) (show roundUp 16 = _ by decide) (by decide)
    (by decide) (by decide) (by decide)
  have trace := Trace.start.step step
  rcases trace.inv machine_initial with ⟨fresh, -⟩ | sound
  · rw [fresh.2 p] at live
    cases live
  · exact ⟨p, w, trace, live, (sound.not_recovers live).2⟩

end Skylight.UserHeap
