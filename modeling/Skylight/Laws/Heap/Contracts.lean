import Skylight.Laws.Heap.Client
import Skylight.Laws.Proc.AddressSpace

/-!
# Contracts of the kernel heap

In every run the chain of headers tiles the heap, and the blocks handed out are apart, inside
it, and nobody's but their owners'.

`heap_tiled` is the first of the two: from any initial state, through any calls of `malloc`,
`calloc`, `realloc` and `free` and any writes of the clients to their own blocks, the segments
found by following `next` from the start are linked both ways and end where the heap does.
`malloc_isolated` is the second: a block that a call returns shares no byte with a header or
with another live block, and stays as it is while others are at work.

The clients keep to `Admits`: they free and write what they own and ask for less than `2 ^ 40`
bytes at a time. A run goes on while the heap ends below `2 ^ 47`, so frames are not assumed to
last: a call without them has no step here. A copy by `realloc` that reads behind the old block
is allowed, since it writes to the new one only.
-/

namespace Skylight.Heap

open Bytes

/-- The headers that are found by going from one to the `next`, at most so many. -/
def follow (h : Heap) : Nat → Addr → List Addr
  | 0, _ => []
  | n + 1, a => a :: if h.next a = 0 then [] else follow h n (h.next a)

section
variable {h : Heap} {g : Nat → Addr} {a l n : Nat} {segs : List Segment} {w w' w'' : World}
  {size q : Addr}

/-- All headers are at multiples of 16. -/
theorem headers_even (start : a % 16 = 0) (lengths : ∀ s ∈ segs, 0 < s.length ∧ s.length % 16 = 0) :
    ∀ b ∈ headers a segs, b % 16 = 0 := by
  induction segs generalizing a with
  | nil =>
    intro b mem
    cases mem
  | cons s segs ih =>
    rw [List.forall_mem_cons] at lengths
    have even := lengths.1.2
    rw [headers, List.forall_mem_cons]
    exact ⟨start, ih (by omega) lengths.2⟩

/-- The links lead through the headers of the list. -/
theorem follow_linked (linked : Linked h.header 0 l a segs) (small : fin a segs < 2 ^ 64)
    (le : segs.length ≤ n) (nonempty : segs ≠ []) :
    follow h n (BitVec.ofNat 64 a) = (headers a segs).map (BitVec.ofNat 64) := by
  induction segs generalizing l a n with
  | nil => exact absurd rfl nonempty
  | cons s segs ih =>
    cases n with
    | zero => cases le
    | succ n =>
      have next : h.next (BitVec.ofNat 64 a) =
          BitVec.ofNat 64 (nextOf 0 (a + 32 + s.length) segs) := by
        rw [← next_header, linked.1]
      rw [follow, next, headers, List.map_cons]
      congr 1
      cases segs with
      | nil => rfl
      | cons t segs =>
        have room : a + 32 + s.length ≤ fin a (s :: t :: segs) := le_fin
        rw [if_neg]
        · exact ih linked.2 small (Nat.le_of_succ_le_succ le) (List.cons_ne_nil t segs)
        · exact ofNat_ne_zero (by show 0 < a + 32 + s.length; omega)
            (by show a + 32 + s.length < _; omega)

/-- In every state after the first call the heap is sound. -/
theorem reachable_sound (reach : World.Reachable g w) (init : w.heap.heapInitialized = true) :
    ∃ segs, Sound w.heap w.live segs := by
  rcases reachable_inv reach with ⟨fresh, -⟩ | sound
  · rw [init] at fresh
    cases fresh
  · exact sound

/-- In every state the segments tile the heap, each linked to its neighbours, and the links lead
through all of them. -/
theorem heap_tiled (reach : World.Reachable g w) (init : w.heap.heapInitialized = true) :
    ∃ segs, Tiled w.heap segs ∧
      follow w.heap segs.length w.heap.heapStart =
        (headers w.heap.heapStart.toNat segs).map (BitVec.ofNat 64) ∧
      ∀ a ∈ headers w.heap.heapStart.toNat segs, a % 16 = 0 := by
  obtain ⟨segs, sound⟩ := reachable_sound reach init
  have tiled := sound.tiled
  refine ⟨segs, tiled, ?_, headers_even tiled.start.2 tiled.lengths⟩
  have links := follow_linked tiled.linked (by rw [tiled.ends]; exact w.heap.heapEnd.isLt)
    (Nat.le_refl segs.length) tiled.nonempty
  rwa [BitVec.ofNat_toNat, BitVec.setWidth_eq] at links

/-- A live block lies in the heap, apart from every header and every other live block. -/
theorem Sound.isolated {live : Addr → Option Nat} (sound : Sound h live segs)
    (there : live q = some n) :
    q.toNat % 16 = 0 ∧ h.heapStart.toNat ≤ q.toNat ∧ q.toNat + n ≤ h.heapEnd.toNat ∧
      (∀ p k, p ≠ q → live p = some k → q.toNat + n ≤ p.toNat ∨ p.toNat + k ≤ q.toNat) ∧
      ∀ a ∈ headers h.heapStart.toNat segs, q.toNat + n ≤ a ∨ a + 32 ≤ q.toNat := by
  obtain ⟨b, mem, start, le⟩ := sound.holds.there q n there
  obtain ⟨low, high⟩ := sound.tiled.block_bounds mem
  have even := headers_even sound.tiled.start.2 sound.tiled.lengths
  refine ⟨?_, by omega, by omega, fun p k ne other => sound.apart there other ne.symm, ?_⟩
  · obtain ⟨pre, s, post, rfl, -, rfl⟩ := mem_blocks mem
    have place : fin h.heapStart.toNat pre + 32 = q.toNat := start
    have := even _ headers_append_mem
    omega
  · intro a ha
    have := blocks_headers mem ha
    omega

/-- A block that `malloc` returns lies in the heap, apart from every header and every other
block, and keeps its bytes until it is given back. -/
theorem malloc_isolated (reach : World.Reachable g w) (step : w.Step g (.malloc size) q w')
    (pos : 0 < size.toNat) :
    q.toNat % 16 = 0 ∧ w'.heap.heapStart.toNat ≤ q.toNat ∧
      q.toNat + size.toNat ≤ w'.heap.heapEnd.toNat ∧
      (∀ p n, p ≠ q → w'.live p = some n →
        q.toNat + size.toNat ≤ p.toNat ∨ p.toNat + n ≤ q.toNat) ∧
      (∃ segs, Tiled w'.heap segs ∧ ∀ a ∈ headers w'.heap.heapStart.toNat segs,
        q.toNat + size.toNat ≤ a ∨ a + 32 ≤ q.toNat) ∧
      ∀ ops w'', (∀ op, ops op → op.Spares q size.toNat) → World.Runs g ops w' w'' →
        ∀ x, InRange q size.toNat x → w''.heap.mem x = w'.heap.mem x := by
  obtain ⟨less, ⟨fuel, run⟩, low⟩ := step
  obtain ⟨⟨new, h'⟩, call, eq⟩ := Option.map_eq_some_iff.mp run
  obtain ⟨rfl, rfl⟩ := Prod.mk.inj eq
  obtain ⟨segs, sound, -, fresh⟩ := (reachable_inv reach).malloc less call low
  have some : new ≠ 0 := by
    rcases fresh with ⟨-, zero⟩ | ⟨some, -, -⟩
    · exact absurd pos (by omega)
    · exact some
  have there : grant w.live new size.toNat new = Option.some size.toNat := grant_self some
  obtain ⟨even, low, high, others, apart⟩ := sound.isolated there
  refine ⟨even, low, high, others, ⟨segs, sound.tiled, apart⟩, fun ops w'' spares run => ?_⟩
  have inv : Inv ⟨h', grant w.live new size.toNat⟩ := Or.inr ⟨segs, sound⟩
  exact (inv.spared there spares run).2

end

/-! ### A machine -/

open Paging (given Fresh WellFormed spaceFrames spaceFrames_given spaceFrames_toNat newRoot
  newRoot_empty machineRoot mapPage_some mapPage_runs lacking_lt)

/-- Page tables that `k` pages can be mapped in, each on a frame of its own, with the frames
before the call `n` of `pmm_alloc_page`. -/
structure Supply (g : Nat → Addr) (fuel n k : Nat) (s : Paging.State) : Prop where
  wf : WellFormed s
  fresh : Fresh s (given g s.served n)
  room : s.served + s.lacking + k ≤ n
  deep : s.lacking < fuel

section
variable {g : Nat → Addr} {fuel n k : Nat} {h : Heap}

/-- A page on the frame that the call before hands out. -/
theorem Supply.page {s : Paging.State} (y : Addr) (flags : BitVec 16)
    (supply : Supply g fuel n (k + 1) s) : ∃ s', Paging.pagingMapPage g fuel
        { s with served := s.served + 1 } y (g s.served) flags = some (y, s') ∧
      s'.pml4 = s.pml4 ∧ Supply g fuel n k s' := by
  obtain ⟨wf, fresh, room, deep⟩ := supply
  let s₁ : Paging.State := { s with served := s.served + 1 }
  have wf' : WellFormed s₁ := ⟨wf.1, wf.2⟩
  have same : s₁.lacking = s.lacking := rfl
  rw [Paging.given_succ (by omega)] at fresh
  have rest : Fresh s₁ (given g s₁.served n) := by
    have right : Fresh s (given g (s.served + 1) n) :=
      ⟨(List.nodup_cons.mp fresh.nodup).2, (List.forall_mem_cons.mp fresh.frame).2,
        (List.forall_mem_cons.mp fresh.unused).2⟩
    exact ⟨right.1, right.2, right.3⟩
  have enough : s₁.served + s₁.lacking ≤ n := by
    rw [same]
    show s.served + 1 + _ ≤ n
    omega
  have supplied : Paging.Supplied g s₁ := by
    have front := rest
    rw [Paging.given_append (show s₁.served ≤ s₁.served + s₁.lacking by omega) enough] at front
    exact front.left
  obtain ⟨s', run, bound⟩ := mapPage_some y (g s.served) flags wf' supplied
    (by rw [same]; exact deep)
  obtain ⟨le, spec⟩ := mapPage_runs run
  have used : Fresh s₁ (given g s₁.served s'.served) := supplied.fresh le bound
  obtain ⟨-, runs⟩ := spec wf' used
  obtain ⟨-, _, -, added⟩ := runs.maps
  have total := runs.lacking
  refine ⟨s', run, added.root, runs.wf, runs.maps.fresh (by omega) rest, ?_, ?_⟩
  · show s'.served + s'.lacking + k ≤ n
    have first : s₁.served = s.served + 1 := rfl
    omega
  · show s'.lacking < fuel
    have := le
    omega

/-- A page is mapped, and a page fewer is left. -/
theorem Supply.mapPage (y : Addr) (supply : Supply g fuel n (k + 1) h.tables) :
    ∃ h', h.mapPage g fuel y = some h' ∧ Supply g fuel n k h'.tables := by
  obtain ⟨s', run, -, rest⟩ := supply.page y Paging.flagsKernelPage
  refine ⟨{ h with tables := s' }, ?_, rest⟩
  rw [Heap.mapPage]
  exact Option.map_eq_some_iff.mpr ⟨_, run, rfl⟩

/-- So are several of them. -/
theorem Supply.mapPages : ∀ {n' : Nat} {h : Heap} (y : Addr), Supply g fuel n (n' + k) h.tables →
    ∃ h', Heap.mapPages g fuel n' h y = some h' ∧ Supply g fuel n k h'.tables := by
  intro n'
  induction n' with
  | zero =>
    intro h y supply
    rw [Nat.zero_add] at supply
    exact ⟨h, rfl, supply⟩
  | succ n' ih =>
    intro h y supply
    rw [Nat.add_right_comm] at supply
    obtain ⟨h₁, first, rest⟩ := supply.mapPage y
    obtain ⟨h', more, supply'⟩ := ih (y + 0x1000) rest
    exact ⟨h', Option.bind_eq_some_iff.mpr ⟨h₁, first, more⟩, supply'⟩

/-- The first call, for 32 bytes or for what is rounded up to that. -/
theorem Supply.first_malloc {size : Addr} (supply : Supply g (fuel + 1) n (256 + k) h.tables)
    (fresh : h.heapInitialized = false) (round : roundUp size = 32) :
    ∃ h', h.malloc g (fuel + 2) size = some (0x7f0000000020, h') ∧
      h'.heapInitialized = true ∧ h'.heapStart = 0x7f0000000000 ∧ h'.heapEnd = 0x7f0000100000 ∧
      Tiled h' [⟨32, false⟩, ⟨0xfffa0, true⟩] ∧ Supply g (fuel + 1) n k h'.tables := by
  obtain ⟨h₁, mapped, rest⟩ := supply.mapPages 0x7f0000000000
  have init : ∃ h₀, h.heapInitialize g (fuel + 1) 0x7f0000000000 256 = some h₀ ∧
      h₀.tables = h₁.tables := ⟨_, Option.bind_eq_some_iff.mpr ⟨h₁, mapped, rfl⟩, rfl⟩
  obtain ⟨h₀, init, same⟩ := init
  obtain ⟨tiled, -, start, ends, done⟩ := initialize_tiled init
  have fits : Fits 32 ⟨0xfffe0, true⟩ := ⟨rfl, by decide⟩
  obtain ⟨h', mid, s, post, eq, -, -, call, taken, tables⟩ :=
    @Tiled.malloc_fits h₀ g (fuel + 1) 32 _ size tiled done round (by decide) rfl (by decide)
      (by rw [ends]; decide) ⟨_, List.mem_singleton_self _, fits⟩ (Nat.le_add_left 1 fuel)
  rw [← malloc_initialize fresh init done] at call
  rcases mid with _ | ⟨t, mid⟩
  · obtain ⟨rfl, rfl⟩ := List.cons.inj eq
    refine ⟨h', ?_, taken.initialized.trans done, taken.start.trans start,
      taken.ends.trans ends, taken.tiled, ?_⟩
    · rw [call, start]
      rfl
    · rw [tables, same]
      exact rest
  · obtain ⟨-, none⟩ := List.cons.inj eq
    exact absurd none.symm (List.append_ne_nil_of_right_ne_nil _ (List.cons_ne_nil _ _))

end

/-- The machine before the first call. -/
def machineWorld : World := ⟨⟨fun _ => 0, 0, 0, 0, false, newRoot spaceFrames machineRoot⟩,
  fun _ => none⟩

/-- On the machine there are frames for the first call and for `k` pages more. -/
theorem machine_supply {k : Nat} (le : k ≤ 2 ^ 20) :
    Supply spaceFrames (2 ^ 28) (2 ^ 29) (256 + k) (newRoot spaceFrames machineRoot) := by
  have less := lacking_lt (newRoot spaceFrames machineRoot)
  refine ⟨newRoot_empty.wf, ?_, ?_, less⟩
  · obtain ⟨nodup, frames⟩ := spaceFrames_given (m := (newRoot spaceFrames machineRoot).served)
      (Nat.le_refl (2 ^ 29))
    refine newRoot_empty.fresh nodup
      (fun t ht => ⟨(frames t ht).1, (frames t ht).2.1⟩) fun root => ?_
    obtain ⟨-, -, j, lt, le, eq⟩ := frames _ root
    have value := congrArg BitVec.toNat eq
    rw [spaceFrames_toNat (Nat.lt_of_lt_of_le lt (Nat.le_refl _)),
      show (newRoot spaceFrames machineRoot).pml4 = spaceFrames 0 from rfl,
      spaceFrames_toNat (by decide)] at value
    have later : 1 ≤ j := le
    omega
  · show 1 + _ + (256 + k) ≤ _
    omega

/-- A call of `malloc` that returns below the bound is a step. -/
theorem World.step_malloc {g : Nat → Addr} {fuel : Nat} {w : World} {size q : Addr} {h' : Heap}
    (call : w.heap.malloc g fuel size = some (q, h')) (less : size.toNat < 2 ^ 40)
    (low : h'.heapEnd.toNat < 2 ^ 47) :
    w.Step g (.malloc size) q ⟨h', grant w.live q size.toNat⟩ :=
  ⟨less, ⟨fuel, Option.map_eq_some_iff.mpr ⟨(q, h'), call, rfl⟩⟩, fun _ => low⟩

/-- The first call on the machine returns. -/
theorem machine_step : ∃ q w, machineWorld.Step spaceFrames (.malloc 32) q w ∧
    w.heap.heapInitialized = true := by
  obtain ⟨h', call, init, -, ends, -⟩ := @Supply.first_malloc spaceFrames (2 ^ 28 - 1) _ _
    machineWorld.heap 32 (machine_supply (Nat.zero_le _)) rfl rfl
  generalize machineWorld = w at call ⊢
  have low : h'.heapEnd.toNat < 2 ^ 47 := by
    rw [ends]
    decide
  exact ⟨_, _, World.step_malloc call (by decide) low, init⟩

/-- The machine before it. -/
theorem machine_initial : World.Initial machineWorld := ⟨rfl, fun _ => rfl⟩

/-- After the first call the heap is tiled. -/
theorem heap_tiled_machine : ∃ w, World.Reachable spaceFrames w ∧
    w.heap.heapInitialized = true ∧ ∃ segs, Tiled w.heap segs := by
  obtain ⟨q, w, step, init⟩ := machine_step
  have reach : World.Reachable spaceFrames w := ⟨machineWorld, machine_initial,
    Relation.ReflTransGen.single ⟨_, q, trivial, step⟩⟩
  obtain ⟨segs, tiled, -⟩ := heap_tiled reach init
  exact ⟨w, reach, init, segs, tiled⟩

/-- The block of the first call is its owner's. -/
theorem malloc_isolated_machine : ∃ q w, machineWorld.Step spaceFrames (.malloc 32) q w ∧
    q.toNat % 16 = 0 ∧ w.heap.heapStart.toNat ≤ q.toNat ∧ q.toNat + 32 ≤ w.heap.heapEnd.toNat := by
  obtain ⟨q, w, step, -⟩ := machine_step
  have reach : World.Reachable spaceFrames machineWorld :=
    ⟨machineWorld, machine_initial, Relation.ReflTransGen.refl⟩
  obtain ⟨even, low, high, -⟩ := malloc_isolated reach step (by decide)
  exact ⟨q, w, step, even, low, high⟩

end Skylight.Heap
