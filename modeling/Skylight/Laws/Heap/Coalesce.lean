import Mathlib.Data.List.Chain
import Skylight.Laws.Heap.Rounds

/-!
# No two free segments side by side

A split leaves its second piece where the free segment was, a release joins on both sides, and a
segment put behind the others joins the last. So free segments are as long as they can be, and a
heap without blocks is one.

`Merged` says that no two neighbours are free, and `Trim` that it holds of the one list the
headers describe. Each change of the list (`Merged.place`, `Merged.release`, `Merged.joinBack`)
keeps it, `Inv.trim` makes a step law of that, and `heap_coalesced` the result about runs. The
clients are those of `Laws.Heap.Client`, with the same promises. Nothing is said of the list
between two writes of one call, where neighbours may well be free.
-/

namespace Skylight.Heap

open Bytes

/-- No two neighbours are free. -/
def Merged (segs : List Segment) : Prop :=
  segs.IsChain fun s t => ¬ (s.free = true ∧ t.free = true)

/-- Where the heap begins, and that its free segments are as long as they can be. -/
structure Trim (h : Heap) : Prop where
  start : h.heapStart = 0x7f0000000000
  merged : ∀ segs, Tiled h segs → Merged segs

section
variable {h h' : Heap} {g : Nat → Addr} {fuel n k a l l' : Nat} {s t : Segment}
  {hd : Addr → Header} {pre post segs segs' : List Segment} {size q p : Addr}
  {live : Addr → Option Nat} {w w' : World} {op : Op}

/-! ### One list for one heap -/

/-- The headers say what the segments are. -/
theorem linked_unique (linked : Linked hd 0 l a segs) (linked' : Linked hd 0 l' a segs')
    (fins : fin a segs = fin a segs') (small : fin a segs < 2 ^ 64) : segs = segs' := by
  -- A header says how long its segment is, and so where the next one is; the ends stop both lists
  -- at once.
  induction segs generalizing a l l' segs' with
  | nil =>
    cases segs' with
    | nil => rfl
    | cons t segs' =>
      have room : a + 32 + t.length ≤ fin a (t :: segs') := le_fin
      have none : fin a [] = a := rfl
      omega
  | cons s segs ih =>
    have room : a + 32 + s.length ≤ fin a (s :: segs) := le_fin
    cases segs' with
    | nil =>
      have none : fin a [] = a := rfl
      omega
    | cons t segs' =>
      have room' : a + 32 + t.length ≤ fin a (t :: segs') := le_fin
      have same := linked.1.symm.trans linked'.1
      have length := congrArg BitVec.toNat (congrArg Header.length same)
      have free : s.free = t.free := congrArg Header.free same
      rw [BitVec.toNat_ofNat, BitVec.toNat_ofNat, Nat.mod_eq_of_lt (by omega),
        Nat.mod_eq_of_lt (by omega)] at length
      have first : s = t := by
        cases s
        cases t
        cases length
        cases free
        rfl
      subst first
      congr 1
      exact ih linked.2 linked'.2 fins small

/-- A heap is tiled in one way only. -/
theorem Tiled.unique (tiled : Tiled h segs) (tiled' : Tiled h segs') : segs = segs' := by
  apply linked_unique tiled.linked tiled'.linked (tiled.ends.trans tiled'.ends.symm)
  rw [tiled.ends]
  exact h.heapEnd.isLt

/-- It is enough to know one list of its segments. -/
theorem Trim.of_tiled (start : h.heapStart = 0x7f0000000000) (tiled : Tiled h segs)
    (merged : Merged segs) : Trim h :=
  ⟨start, fun _ tiled' => tiled.unique tiled' ▸ merged⟩

/-! ### Lists without free neighbours -/

theorem merged_singleton (s : Segment) : Merged [s] := List.isChain_singleton s

/-- A segment in use may stand before anything. -/
theorem Merged.cons_used (used : s.free = false) (merged : Merged segs) : Merged (s :: segs) := by
  apply List.isChain_cons.mpr
  refine ⟨fun t _ both => ?_, merged⟩
  rw [used] at both
  exact absurd both.1 (by decide)

/-- Free neighbours stand side by side in the first part or in the second. -/
theorem merged_split : Merged (pre ++ s :: post) ↔ Merged (pre ++ [s]) ∧ Merged (s :: post) :=
  List.isChain_split

/-- Whether the neighbours go with a segment is a matter of its mark. -/
theorem Merged.mark (merged : Merged (s :: post)) (le : t.free = true → s.free = true) :
    Merged (t :: post) := by
  obtain ⟨head, rest⟩ := List.isChain_cons.mp merged
  exact List.isChain_cons.mpr ⟨fun u mem both => head u mem ⟨le both.1, both.2⟩, rest⟩

/-- The last segment may always be marked as in use. -/
theorem Merged.mark_last (merged : Merged (pre ++ [s])) (le : t.free = true → s.free = true) :
    Merged (pre ++ [t]) := by
  obtain ⟨left, -, meet⟩ := List.isChain_append.mp merged
  refine List.isChain_append.mpr ⟨left, merged_singleton t, ?_⟩
  intro u last v head both
  cases head
  exact meet u last s rfl ⟨both.1, le both.2⟩

/-- A free segment that took in its neighbour. -/
theorem Merged.joinFirst (merged : Merged segs) (free : s.free = true) :
    Merged (Heap.joinFirst (s :: segs)) ∧ ∃ m rest,
    Heap.joinFirst (s :: segs) = ⟨m, true⟩ :: rest := by
  cases segs with
  | nil => exact ⟨merged_singleton s, s.length, [], by rw [← free]; rfl⟩
  | cons t segs =>
    rw [Heap.joinFirst, free]
    split
    · next ht => exact ⟨merged.mark fun _ => ht, _, _, rfl⟩
    · next ht =>
      rw [Bool.not_eq_true] at ht
      refine ⟨List.isChain_cons.mpr ⟨?_, merged⟩, s.length, t :: segs, by rw [← free]⟩
      intro u head both
      cases head
      rw [ht] at both
      exact absurd both.2 (by decide)

/-- What is put behind a list of which no two neighbours are free, joined with the end of it where
that is free, leaves no two free neighbours either. -/
theorem Merged.joinBack (before : Merged pre) (merged : Merged (s :: segs)) :
    Merged (Heap.joinBack pre (s :: segs)) := by
  rcases List.eq_nil_or_concat' pre with rfl | ⟨pre, r, rfl⟩
  · exact merged
  · rw [joinBack_append]
    split
    · next hr =>
      obtain ⟨joined, m, rest, eq⟩ := merged.joinFirst hr
      rw [eq] at joined ⊢
      exact merged_split.mpr ⟨before.mark_last fun _ => hr, joined⟩
    · next hr =>
      rw [Bool.not_eq_true] at hr
      exact merged_split.mpr ⟨before, merged.cons_used hr⟩

/-- A block given back: its segment becomes free and takes in a free neighbour on either side, so no
two free ones come to stand together. -/
theorem Merged.release (merged : Merged (pre ++ s :: post)) : Merged (Heap.release pre s post) := by
  obtain ⟨before, rest⟩ := List.isChain_append.mp merged
  obtain ⟨-, after⟩ := List.isChain_cons.mp rest.1
  obtain ⟨joined, m, more, eq⟩ := @Merged.joinFirst { s with free := true } post after rfl
  rw [Heap.release, eq]
  rw [eq] at joined
  exact Merged.joinBack before joined

/-- A block taken: the busy part stands before what is left of its free segment, so no two free ones
come to stand together. -/
theorem Merged.place (merged : Merged (pre ++ s :: post)) :
    Merged (pre ++ Heap.place n s ++ post) := by
  obtain ⟨before, after⟩ := merged_split.mp merged
  have used {t : Segment} (ht : t.free = false) : t.free = true → s.free = true := by
    intro free
    rw [ht] at free
    cases free
  rw [List.append_assoc, Heap.place]
  split
  · apply merged_split.mpr
    refine ⟨before.mark_last (used rfl), ?_⟩
    exact Merged.cons_used rfl (after.mark id)
  · exact merged_split.mpr ⟨before.mark_last (used rfl), after.mark (used rfl)⟩

/-- A longer heap still has no free neighbours, since the new segment is joined. -/
theorem Merged.lengthen (merged : Merged segs) (L k : Nat) : Merged (Heap.lengthen L k segs) := by
  induction k generalizing segs with
  | zero => exact merged
  | succ k ih => exact ih (merged.joinBack (merged_singleton _))

/-! ### Every step -/

/-- `malloc` on a sound heap. -/
theorem Sound.malloc_trim (sound : Sound h live segs) (trim : Trim h)
    (less : size.toNat < 2 ^ 40) (run : h.malloc g fuel size = some (q, h')) : Trim h' := by
  rcases sound.malloc less run with ⟨-, -, rfl⟩ | ⟨pos, -⟩
  · exact trim
  have value := @roundUp_toNat size (by omega)
  have round : roundUp size = BitVec.ofNat 64 (roundUp size).toNat := by
    rw [BitVec.ofNat_toNat, BitVec.setWidth_eq]
  generalize (roundUp size).toNat = n at value round
  have low := sound.low
  have bounds := wholePages_bounds n
  obtain ⟨k, h₁, fuel', grown, -, search⟩ :=
    malloc_grown sound.initialized round (by omega) (by omega) (by omega) run
  have le : k ≤ 2 := sound.tiled.grown_le (by omega) (by omega) (by omega) grown
  have most : k * wholePages n ≤ 2 * wholePages n := Nat.mul_le_mul_right _ le
  obtain ⟨tiled₁, start, ends⟩ := sound.tiled.grown (by omega) grown (by omega)
  obtain ⟨mid, s, post, eq, -, taken, -⟩ :=
    tiled₁.found (by omega) (by omega) (by omega) (by omega) search
  have merged := (trim.merged segs sound.tiled).lengthen (wholePages n) k
  rw [eq] at merged
  exact .of_tiled (taken.start.trans (start.trans trim.start)) taken.tiled merged.place

/-- `malloc`, whatever was before. -/
theorem Inv.malloc_trim (inv : Inv w) (trim : w.heap.heapInitialized = true → Trim w.heap)
    (less : size.toNat < 2 ^ 40) (run : w.heap.malloc g fuel size = some (q, h')) : Trim h' := by
  obtain ⟨h₀, segs, sound, -, run, same | ⟨start, rfl⟩⟩ := inv.ready run
  · exact sound.malloc_trim (same ▸ trim (same ▸ sound.initialized)) less run
  · exact sound.malloc_trim (.of_tiled start sound.tiled (merged_singleton _)) less run

/-- Writes into live blocks. -/
theorem Trim.write (trim : Trim h) (tiled : Tiled h segs) {mem : Memory}
    (tiled' : Tiled { h with mem := mem } segs) : Trim { h with mem := mem } :=
  .of_tiled trim.start tiled' (trim.merged segs tiled)

/-- `free` joins on both sides. -/
theorem Sound.free_trim (sound : Sound h live segs) (trim : Trim h) (hp : live p = some n) :
    Trim (h.free p) := by
  obtain ⟨pre, s, post, rfl, -, start, sound', -⟩ := sound.free hp
  exact .of_tiled (start.trans trim.start) sound'.tiled (trim.merged _ sound.tiled).release

/-- Every step leaves the heap with no two free neighbours, from one that has none. Writes of the
client do not come near the headers. -/
theorem Inv.trim (inv : Inv w) (trim : w.heap.heapInitialized = true → Trim w.heap)
    (step : w.Step g op q w') : Trim w'.heap := by
  cases op with
  | malloc size =>
    obtain ⟨less, ⟨fuel, run⟩, -⟩ := step
    obtain ⟨⟨new, h'⟩, call, eq⟩ := Option.map_eq_some_iff.mp run
    obtain ⟨rfl, rfl⟩ := Prod.mk.inj eq
    exact inv.malloc_trim trim less call
  | calloc elements size =>
    obtain ⟨less, ⟨fuel, run⟩, low⟩ := step
    obtain ⟨⟨new, h'⟩, call, eq⟩ := Option.map_eq_some_iff.mp run
    obtain ⟨rfl, rfl⟩ := Prod.mk.inj eq
    obtain ⟨h₁, segs, grantedRun, exact', rfl, sound, sound', -⟩ := inv.calloc less call low
    have less' : (elements * size).toNat < 2 ^ 40 := exact'.trans_lt less
    exact (inv.malloc_trim trim less' grantedRun).write sound.tiled sound'.tiled
  | realloc pointer size =>
    obtain ⟨⟨isLive, less⟩, ⟨fuel, run⟩, low⟩ := step
    obtain ⟨k, hk⟩ := Option.isSome_iff_exists.mp isLive
    obtain ⟨⟨new, h'⟩, call, eq⟩ := Option.map_eq_some_iff.mp run
    obtain ⟨rfl, rfl⟩ := Prod.mk.inj eq
    obtain ⟨h₁, h₂, segs, grantedRun, copied, freed, sound, -, sound', -, fresh⟩ :=
      inv.realloc_copies less call low
    have old : grant w.live new size.toNat pointer = some k :=
      (grant_of_ne (ne_of_new fresh hk)).trans hk
    have trim₂ : Trim h₂ := by
      rw [copied] at sound' ⊢
      exact (inv.malloc_trim trim less grantedRun).write sound.tiled sound'.tiled
    show Trim h'
    rw [freed]
    exact sound'.free_trim trim₂ old
  | free pointer =>
    obtain ⟨isLive, ⟨fuel, run⟩, -⟩ := step
    obtain ⟨k, hk⟩ := Option.isSome_iff_exists.mp isLive
    rw [run_free, Option.some.injEq, Prod.mk.injEq] at run
    obtain ⟨-, rfl⟩ := run
    obtain ⟨segs, sound⟩ := inv.sound hk
    have after := sound.free_trim (trim sound.initialized) hk
    generalize w.heap.free pointer = h' at after ⊢
    exact after
  | write address byte =>
    obtain ⟨⟨pointer, k, hk, near⟩, ⟨fuel, run⟩, -⟩ := step
    cases run
    obtain ⟨segs, sound⟩ := inv.sound hk
    have written := @Sound.write w.heap segs w.live sound (Function.update w.heap.mem address byte)
      fun x changed => by
        refine ⟨pointer, k, hk, ?_⟩
        have same : x = address := by
          by_contra ne
          exact changed (Function.update_of_ne ne _ _)
        rw [same]
        exact near
    exact (trim sound.initialized).write sound.tiled written.tiled

/-- Every state of a run. -/
theorem reachable_trim (reach : World.Reachable g w) (init : w.heap.heapInitialized = true) :
    Trim w.heap := by
  obtain ⟨w₀, initial, run⟩ := reach
  revert init
  induction run with
  | refl =>
    intro init
    rw [initial.1] at init
    cases init
  | tail before step ih =>
    intro _
    obtain ⟨op, answer, -, step⟩ := step
    exact (Inv.run (Or.inl initial) before).trim ih step

/-! ### No block -/

/-- A heap without blocks has free segments only. -/
theorem blocks_eq_nil (none : blocks a segs = []) : ∀ s ∈ segs, s.free = true := by
  induction segs generalizing a with
  | nil =>
    intro s mem
    cases mem
  | cons s segs ih =>
    rw [blocks] at none
    split at none
    · next free => exact List.forall_mem_cons.mpr ⟨free, ih none⟩
    · cases none

/-- Free segments that are as long as they can be are one. -/
theorem Merged.single (merged : Merged segs) (some : segs ≠ [])
    (free : ∀ s ∈ segs, s.free = true) : ∃ n, segs = [⟨n, true⟩] := by
  cases segs with
  | nil => exact absurd rfl some
  | cons s segs =>
    cases segs with
    | nil =>
      refine ⟨s.length, ?_⟩
      rw [← free s (List.mem_singleton_self s)]
    | cons t segs =>
      obtain ⟨head, -⟩ := List.isChain_cons.mp merged
      rw [List.forall_mem_cons, List.forall_mem_cons] at free
      exact absurd ⟨free.1, free.2.1⟩ (head t rfl)

/-- In every state of a run no two neighbours are free, and a heap of which nothing is live is one
free segment. -/
theorem heap_coalesced (reach : World.Reachable g w) (init : w.heap.heapInitialized = true) :
    ∃ segs, Tiled w.heap segs ∧ (segs.IsChain fun s t => ¬ (s.free = true ∧ t.free = true)) ∧
      ((∀ p, w.live p = none) →
        segs = [⟨w.heap.heapEnd.toNat - w.heap.heapStart.toNat - 32, true⟩] ∧
          w.heap.length w.heap.heapStart = w.heap.heapEnd - w.heap.heapStart - 32 ∧
          w.heap.next w.heap.heapStart = 0 ∧ w.heap.isFree w.heap.heapStart = true ∧
          w.heap.lastHeader = w.heap.heapStart) := by
  obtain ⟨segs, sound⟩ := reachable_sound reach init
  have tiled := sound.tiled
  have merged := (reachable_trim reach init).merged segs tiled
  refine ⟨segs, tiled, merged, fun dead => ?_⟩
  -- no live block, so no busy segment; two free ones would be neighbours
  have none : blocks w.heap.heapStart.toNat segs = [] := by
    apply List.eq_nil_iff_forall_not_mem.mpr
    intro b mem
    obtain ⟨n, there⟩ := sound.holds.owned b mem
    rw [dead] at there
    cases there
  obtain ⟨n, rfl⟩ := merged.single tiled.nonempty (blocks_eq_nil none)
  have ends : w.heap.heapStart.toNat + 32 + n = w.heap.heapEnd.toNat := tiled.ends
  have first : w.heap.heapStart = BitVec.ofNat 64 w.heap.heapStart.toNat := by
    rw [BitVec.ofNat_toNat, BitVec.setWidth_eq]
  have header := tiled.linked.1
  rw [← first] at header
  have small := w.heap.heapEnd.isLt
  have length : n = w.heap.heapEnd.toNat - w.heap.heapStart.toNat - 32 := by omega
  refine ⟨by rw [← length], ?_, ?_, ?_, ?_⟩
  · rw [← length_header, header]
    apply BitVec.eq_of_toNat_eq
    rw [BitVec.toNat_sub, BitVec.toNat_sub, show (32 : Addr).toNat = 32 from rfl]
    show (BitVec.ofNat 64 n).toNat = _
    rw [BitVec.toNat_ofNat]
    omega
  · rw [← next_header, header]
    rfl
  · rw [← isFree_header, header]
  · apply BitVec.eq_of_toNat_eq
    rw [← tiled.last]
    rfl

end

open Paging (spaceFrames)

/-- A block taken and given back. -/
theorem heap_coalesced_machine : ∃ w, World.Reachable spaceFrames w ∧
    w.heap.heapInitialized = true ∧ w.heap.lastHeader = w.heap.heapStart := by
  obtain ⟨w, ⟨w₀, initial, runs⟩, init, -, ends, there, none, -, -⟩ := machine_ready
  obtain ⟨ends', init'⟩ := free_rest w.heap 0x7f0000000020
  have isLive : (w.live 0x7f0000000020).isSome = true := by rw [there]; rfl
  have low : (w.heap.free 0x7f0000000020).heapEnd.toNat < 2 ^ 47 := by
    rw [ends', ends]
    decide
  have step : w.Step spaceFrames (.free 0x7f0000000020) 0
      ⟨w.heap.free 0x7f0000000020, revoke w.live 0x7f0000000020⟩ :=
    ⟨isLive, ⟨0, run_free⟩, fun _ => low⟩
  have dead (p : Addr) : revoke w.live 0x7f0000000020 p = Option.none := by
    by_cases same : p = 0x7f0000000020
    · rw [same, revoke, Function.update_self]
    · rw [revoke, Function.update_of_ne same, none p same]
  generalize w.heap.free 0x7f0000000020 = h at step init'
  have init₁ := init'.trans init
  have reach : World.Reachable spaceFrames ⟨h, revoke w.live 0x7f0000000020⟩ :=
    ⟨w₀, initial, runs.tail ⟨_, _, trivial, step⟩⟩
  obtain ⟨segs, -, -, whole⟩ := heap_coalesced reach init₁
  obtain ⟨-, -, -, -, last⟩ := whole dead
  exact ⟨_, reach, init₁, last⟩

end Skylight.Heap
