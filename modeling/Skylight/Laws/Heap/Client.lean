import Mathlib.Logic.Relation
import Skylight.Laws.Heap.Malloc

/-!
# The heap and its clients

Calls of `malloc`, `calloc`, `realloc` and `free`, and what the owner of a block writes to it
between them. `live` is what has been handed out and not given back: nothing of the code reads
it. In every run the segments tile the heap, the live blocks are the ones in use, and a step
leaves the bytes of every block that is not its own.

`Inv` is the invariant: before the first call there is no block, and after it the heap is
`Sound`. A step law for each call (`Inv.malloc_steps`, `Inv.calloc_steps`, `Inv.realloc_steps`,
`Inv.free_steps`, `Inv.write_steps`) gives `Inv.steps`, and `reachable_inv` is the run law. The
step laws share one shape, `Steps`: the invariant again, and `Keeps` for the blocks that the
step spares. What the clients promise is `Admits`; a client that frees twice or writes behind
its block is outside of it.
-/

namespace Skylight.Heap

open Bytes

/-- What a client does. -/
inductive Op
  | malloc (size : Addr)
  | calloc (elements size : Addr)
  | realloc (pointer size : Addr)
  | free (pointer : Addr)
  | write (address : Addr) (byte : BitVec 8)

/-- It leaves the block of `n` bytes at `p` alone. -/
def Op.Spares (p : Addr) (n : Nat) : Op → Prop
  | .realloc pointer _ => pointer ≠ p
  | .free pointer => pointer ≠ p
  | .write address _ => ¬ InRange p n address
  | _ => True

/-- The heap, and the length asked for each live block. -/
structure World where
  heap : Heap
  live : Addr → Option Nat

/-- A pointer handed out, unless it is `NULL`. -/
def grant (live : Addr → Option Nat) (pointer : Addr) (length : Nat) : Addr → Option Nat :=
  if pointer = 0 then live else Function.update live pointer (some length)

/-- A pointer given back. -/
def revoke (live : Addr → Option Nat) (pointer : Addr) : Addr → Option Nat :=
  Function.update live pointer none

namespace World

/-- What the clients keep to: they give back and write to live blocks only, and ask for less than
`2 ^ 40` bytes. -/
def Admits (w : World) : Op → Prop
  | .malloc size => size.toNat < 2 ^ 40
  | .calloc elements size => elements.toNat * size.toNat < 2 ^ 40
  | .realloc pointer size => (w.live pointer).isSome ∧ size.toNat < 2 ^ 40
  | .free pointer => (w.live pointer).isSome
  | .write address _ => ∃ pointer n, w.live pointer = some n ∧ InRange pointer n address

/-- The answer of a call, and what is there after it. -/
def run (g : Nat → Addr) (fuel : Nat) (w : World) : Op → Option (Addr × World)
  | .malloc size => (w.heap.malloc g fuel size).map fun r =>
      (r.1, ⟨r.2, grant w.live r.1 size.toNat⟩)
  | .calloc elements size => (w.heap.calloc g fuel elements size).map fun r =>
      (r.1, ⟨r.2, grant w.live r.1 (elements.toNat * size.toNat)⟩)
  | .realloc pointer size => (w.heap.realloc g fuel pointer size).map fun r =>
      (r.1, ⟨r.2, grant (revoke w.live pointer) r.1 size.toNat⟩)
  | .free pointer => some (0, ⟨w.heap.free pointer, revoke w.live pointer⟩)
  | .write address byte =>
      some (0, ⟨{ w.heap with mem := Function.update w.heap.mem address byte }, w.live⟩)

/-- A step of a run in which `heap_end` stays below `2 ^ 47`. -/
def Step (g : Nat → Addr) (w : World) (op : Op) (answer : Addr) (w' : World) : Prop :=
  w.Admits op ∧ (∃ fuel, w.run g fuel op = some (answer, w')) ∧
    (w'.heap.heapInitialized = true → w'.heap.heapEnd.toNat < 2 ^ 47)

/-- Runs in which every call is one of `ops`. -/
def Runs (g : Nat → Addr) (ops : Op → Prop) : World → World → Prop :=
  Relation.ReflTransGen fun w w' => ∃ op answer, ops op ∧ w.Step g op answer w'

/-- Before the first call. -/
def Initial (w : World) : Prop :=
  w.heap.heapInitialized = false ∧ ∀ pointer, w.live pointer = none

/-- What a run from there reaches. -/
def Reachable (g : Nat → Addr) (w : World) : Prop :=
  ∃ w₀, Initial w₀ ∧ Runs g (fun _ => True) w₀ w

end World

/-- The live blocks are the payloads in use. -/
structure Holds (live : Addr → Option Nat) (bs : List (Nat × Nat)) : Prop where
  there : ∀ p n, live p = some n → ∃ b ∈ bs, b.1 = p.toNat ∧ n ≤ b.2
  owned : ∀ b ∈ bs, ∃ n, live (BitVec.ofNat 64 b.1) = some n

/-- A heap that has been initialized, and its live blocks. -/
structure Sound (h : Heap) (live : Addr → Option Nat) (segs : List Segment) : Prop where
  tiled : Tiled h segs
  initialized : h.heapInitialized = true
  low : h.heapEnd.toNat < 2 ^ 47
  holds : Holds live (blocks h.heapStart.toNat segs)

/-- What holds in every state of a run. -/
def Inv (w : World) : Prop := w.Initial ∨ ∃ segs, Sound w.heap w.live segs

/-- Memory of the live blocks stays. -/
def Keeps (h h' : Heap) (live : Addr → Option Nat) : Prop :=
  ∀ p n, live p = some n → ∀ x, InRange p n x → h'.mem x = h.mem x

section
variable {h h₀ h₁ h' : Heap} {g : Nat → Addr} {fuel n m a : Nat} {s : Segment}
  {pre post segs : List Segment} {size q p x : Addr} {live : Addr → Option Nat} {w w' : World}
  {b c : Nat × Nat} {bs cs : List (Nat × Nat)}

/-! ### Blocks -/

/-- Two blocks are one or apart, with a header between them. -/
theorem blocks_apart (hb : b ∈ blocks a segs) (hc : c ∈ blocks a segs) (ne : b.1 ≠ c.1) :
    b.1 + b.2 + 32 ≤ c.1 ∨ c.1 + c.2 + 32 ≤ b.1 := by
  induction segs generalizing a with
  | nil => cases hb
  | cons s segs ih =>
    rw [blocks] at hb hc
    split at hb
    · next free =>
      rw [if_pos free] at hc
      exact ih hb hc
    · next used =>
      rw [if_neg used] at hc
      rcases List.mem_cons.mp hb with rfl | hb <;> rcases List.mem_cons.mp hc with rfl | hc
      · exact absurd rfl ne
      · exact Or.inl (blocks_bounds hc).1
      · exact Or.inr (blocks_bounds hb).1
      · exact ih hb hc

/-- A block is the payload of one of the segments. -/
theorem mem_blocks (hb : b ∈ blocks a segs) : ∃ pre s post, segs = pre ++ s :: post ∧
    s.free = false ∧ b = (fin a pre + 32, s.length) := by
  induction segs generalizing a with
  | nil => cases hb
  | cons s segs ih =>
    rw [blocks] at hb
    have later (hb : b ∈ blocks (a + 32 + s.length) segs) : ∃ pre t post,
        s :: segs = pre ++ t :: post ∧ t.free = false ∧ b = (fin a pre + 32, t.length) := by
      obtain ⟨pre, t, post, rfl, used, eq⟩ := ih hb
      exact ⟨s :: pre, t, post, rfl, used, eq⟩
    split at hb
    · exact later hb
    · next used =>
      rcases List.mem_cons.mp hb with rfl | hb
      · exact ⟨[], s, segs, rfl, Bool.not_eq_true _ ▸ used, rfl⟩
      · exact later hb

/-- A block lies behind its header and ends with the heap at the latest. -/
theorem Tiled.block_bounds (tiled : Tiled h segs) (hb : b ∈ blocks h.heapStart.toNat segs) :
    h.heapStart.toNat + 32 ≤ b.1 ∧ b.1 + b.2 ≤ h.heapEnd.toNat := by
  rw [← tiled.ends]
  exact blocks_bounds hb

/-- A byte of a live block is a byte of a block in use. -/
theorem Holds.used (holds : Holds live (blocks h.heapStart.toNat segs)) (tiled : Tiled h segs)
    (hp : live p = some n) (inside : InRange p n x) :
    Used (blocks h.heapStart.toNat segs) x := by
  obtain ⟨b, mem, start, le⟩ := holds.there p n hp
  obtain ⟨-, high⟩ := tiled.block_bounds mem
  have := h.heapEnd.isLt
  rw [inRange_iff (by omega)] at inside
  exact ⟨b, mem, by omega, by omega⟩

/-- Writes into blocks in use leave the chain. -/
theorem Tiled.write (tiled : Tiled h segs) {m : Memory}
    (inside : ∀ x, m x ≠ h.mem x → Used (blocks h.heapStart.toNat segs) x) :
    Tiled { h with mem := m } segs := by
  refine ⟨tiled.nonempty, ?_, tiled.ends, tiled.last, tiled.start, tiled.lengths⟩
  apply tiled.linked.congr_headers
  intro a mem
  apply header_congr
  intro x near
  by_contra changed
  exact (tiled.touch mem near).2.2 (inside x changed)

/-- The blocks of a segment in use and of those beside it. -/
theorem blocks_used (used : s.free = false) : blocks a (pre ++ s :: post) = blocks a pre ++
    (fin a pre + 32, s.length) :: blocks (fin a pre + 32 + s.length) post := by
  rw [blocks_append, blocks, if_neg (by rw [used]; decide)]

/-- No block beside a segment begins where its payload does. -/
theorem blocks_ne (mem : b ∈ blocks a pre ++ blocks (fin a pre + 32 + s.length) post) :
    b.1 ≠ fin a pre + 32 := by
  rcases List.mem_append.mp mem with mem | mem
  · have := (blocks_bounds mem).2
    omega
  · have := (blocks_bounds mem).1
    omega

/-- A new block becomes live, at an address that is none of the others'. -/
theorem Holds.insert (holds : Holds live (bs ++ cs)) (place : q.toNat = m)
    (others : ∀ b ∈ bs ++ cs, b.1 < 2 ^ 64 ∧ b.1 ≠ m) (le : n ≤ a) :
    Holds (Function.update live q (some n)) (bs ++ (m, a) :: cs) := by
  constructor
  · intro p k live
    by_cases same : p = q
    · subst same
      rw [Function.update_self] at live
      cases live
      exact ⟨(m, a), List.mem_append_right _ (List.mem_cons_self ..), place.symm, le⟩
    · rw [Function.update_of_ne same] at live
      obtain ⟨b, mem, start, le⟩ := holds.there p k live
      refine ⟨b, ?_, start, le⟩
      rcases List.mem_append.mp mem with mem | mem
      · exact List.mem_append_left _ mem
      · exact List.mem_append_right _ (List.mem_cons_of_mem _ mem)
  · intro b mem
    have split : b = (m, a) ∨ b ∈ bs ++ cs := by
      rw [List.mem_append, List.mem_cons] at mem
      rw [List.mem_append]
      tauto
    rcases split with rfl | mem
    · refine ⟨n, ?_⟩
      rw [← place, BitVec.ofNat_toNat, BitVec.setWidth_eq, Function.update_self]
    · rw [Function.update_of_ne]
      · exact holds.owned b mem
      · rintro rfl
        rw [BitVec.toNat_ofNat, Nat.mod_eq_of_lt (others b mem).1] at place
        exact (others b mem).2 place

/-- A block given back is live no more. -/
theorem Holds.remove (holds : Holds live (bs ++ (m, a) :: cs)) (place : p.toNat = m)
    (others : ∀ b ∈ bs ++ cs, b.1 < 2 ^ 64 ∧ b.1 ≠ m) : Holds (revoke live p) (bs ++ cs) := by
  constructor
  · intro p' k there
    have ne : p' ≠ p := by
      rintro rfl
      rw [revoke, Function.update_self] at there
      cases there
    rw [revoke, Function.update_of_ne ne] at there
    obtain ⟨b, mem, start, le⟩ := holds.there p' k there
    refine ⟨b, ?_, start, le⟩
    rcases List.mem_append.mp mem with mem | mem
    · exact List.mem_append_left _ mem
    · rcases List.mem_cons.mp mem with rfl | mem
      · exact absurd (BitVec.eq_of_toNat_eq (start.symm.trans place.symm)) ne
      · exact List.mem_append_right _ mem
  · intro b mem
    rw [revoke, Function.update_of_ne]
    · apply holds.owned b
      rcases List.mem_append.mp mem with mem | mem
      · exact List.mem_append_left _ mem
      · exact List.mem_append_right _ (List.mem_cons_of_mem _ mem)
    · rintro rfl
      rw [BitVec.toNat_ofNat, Nat.mod_eq_of_lt (others b mem).1] at place
      exact (others b mem).2 place

/-- The blocks beside a segment, as `Holds` wants them. -/
theorem Tiled.others (tiled : Tiled h (pre ++ s :: post)) : ∀ b ∈ blocks h.heapStart.toNat pre ++
    blocks (fin h.heapStart.toNat pre + 32 + s.length) post,
      b.1 < 2 ^ 64 ∧ b.1 ≠ fin h.heapStart.toNat pre + 32 := by
  intro b mem
  refine ⟨?_, blocks_ne mem⟩
  have inside : b ∈ blocks h.heapStart.toNat (pre ++ { s with free := true } :: post) := by
    rw [blocks_append]
    exact mem
  have high := (blocks_bounds inside).2
  have ends := tiled.ends
  rw [fin_append] at high ends
  have small := h.heapEnd.isLt
  have same : fin (fin h.heapStart.toNat pre) ({ s with free := true } :: post) =
      fin (fin h.heapStart.toNat pre) (s :: post) := rfl
  omega

/-- What is not touched of the blocks in use is not touched of the live ones. -/
theorem Sound.keeps (sound : Sound h live segs)
    (touches : Touches h h' (blocks h.heapStart.toNat segs)) :
    Keeps h h' live := by
  intro p n there x inside
  by_contra changed
  exact (touches x changed).2.2 (sound.holds.used sound.tiled there inside)

/-- A block granted is live, and the others are as before. -/
theorem Granted.sound (granted : Granted h h' segs q n pre s post) (sound : Sound h live segs)
    (le : m ≤ n) (low : h'.heapEnd.toNat < 2 ^ 47) :
    Sound h' (grant live q m) (pre ++ s :: post) ∧ Keeps h h' live ∧ q ≠ 0 ∧ live q = none := by
  have start := granted.start
  have tiled := granted.tiled
  have others := tiled.others
  have place := granted.place
  rw [start] at others
  have pos : q ≠ 0 := by
    rintro rfl
    rw [show (0 : Addr).toNat = 0 from rfl] at place
    omega
  have holds := sound.holds
  rw [granted.others] at holds
  refine ⟨⟨tiled, granted.initialized.trans sound.initialized, low, ?_⟩,
    sound.keeps granted.touches, pos, ?_⟩
  · rw [grant, if_neg pos, start, blocks_used granted.used]
    exact holds.insert place others (le.trans granted.enough)
  · cases there : live q with
    | none => rfl
    | some k =>
      obtain ⟨b, mem, eq, -⟩ := holds.there q k there
      exact absurd (eq.trans place) (others b mem).2

/-- `malloc` on a sound heap. -/
theorem Sound.malloc (sound : Sound h live segs) (less : size.toNat < 2 ^ 40)
    (run : h.malloc g fuel size = some (q, h')) :
    (q = 0 ∧ size.toNat = 0 ∧ h' = h) ∨ 0 < size.toNat ∧ ∃ n pre s post,
      Granted h h' segs q n pre s post ∧ size.toNat ≤ n := by
  have value := @roundUp_toNat size (by omega)
  have round : roundUp size = BitVec.ofNat 64 (roundUp size).toNat := by
    rw [BitVec.ofNat_toNat, BitVec.setWidth_eq]
  have low := sound.low
  have pages := wholePages_bounds (roundUp size).toNat
  rcases Nat.eq_zero_or_pos size.toNat with zero | pos
  · left
    have nothing : roundUp size = 0 := by
      apply BitVec.eq_of_toNat_eq
      rw [value, zero]
      rfl
    cases fuel with
    | zero => cases run
    | succ fuel =>
      rw [Heap.malloc, sound.initialized, nothing] at run
      cases run
      exact ⟨rfl, zero, rfl⟩
  · right
    obtain ⟨pre, s, post, granted⟩ := sound.tiled.malloc sound.initialized round (by omega)
      (by omega) (by omega) run
    exact ⟨pos, _, pre, s, post, granted, by omega⟩

/-! ### Writes and frees -/

/-- What two steps keep, both keep. -/
theorem Keeps.trans (k : Keeps h h₁ live) (k' : Keeps h₁ h' live) : Keeps h h' live :=
  fun p n there x inside => (k' p n there x inside).trans (k p n there x inside)

/-- Writes into live blocks leave the heap sound. -/
theorem Sound.write (sound : Sound h live segs) {mem : Memory}
    (inside : ∀ x, mem x ≠ h.mem x → ∃ p n, live p = some n ∧ InRange p n x) :
    Sound { h with mem := mem } live segs where
  tiled := by
    apply sound.tiled.write
    intro x changed
    obtain ⟨p, n, there, near⟩ := inside x changed
    exact sound.holds.used sound.tiled there near
  initialized := sound.initialized
  low := sound.low
  holds := sound.holds

/-- Live blocks share no byte. -/
theorem Sound.apart (sound : Sound h live segs) {p' : Addr} (hp : live p = some n)
    (hp' : live p' = some m) (ne : p ≠ p') :
    p.toNat + n ≤ p'.toNat ∨ p'.toNat + m ≤ p.toNat := by
  obtain ⟨b, hb, start, le⟩ := sound.holds.there p n hp
  obtain ⟨c, hc, start', le'⟩ := sound.holds.there p' m hp'
  have away : b.1 ≠ c.1 := by
    intro same
    exact ne (BitVec.eq_of_toNat_eq (start.symm.trans (same.trans start')))
  have := blocks_apart hb hc away
  omega

/-- A byte of one live block is no byte of another. -/
theorem Sound.not_inRange (sound : Sound h live segs) {p' : Addr} (hp : live p = some n)
    (hp' : live p' = some m) (ne : p ≠ p') (inside : InRange p n x) : ¬ InRange p' m x := by
  obtain ⟨b, hb, start, le⟩ := sound.holds.there p n hp
  obtain ⟨c, hc, start', le'⟩ := sound.holds.there p' m hp'
  have high := (sound.tiled.block_bounds hb).2
  have high' := (sound.tiled.block_bounds hc).2
  have small := h.heapEnd.isLt
  have away := sound.apart hp hp' ne
  rw [inRange_iff (by omega)] at inside ⊢
  omega

/-- `free` of a live block. -/
theorem Sound.free (sound : Sound h live segs) (hp : live p = some n) :
    ∃ pre s post, segs = pre ++ s :: post ∧ s.free = false ∧
      (h.free p).heapStart = h.heapStart ∧ Sound (h.free p) (revoke live p) (release pre s post) ∧
      Keeps h (h.free p) (revoke live p) := by
  obtain ⟨b, mem, start, -⟩ := sound.holds.there p n hp
  obtain ⟨pre, s, post, rfl, used, rfl⟩ := mem_blocks mem
  have place : p = BitVec.ofNat 64 (fin h.heapStart.toNat pre + 32) := by
    apply BitVec.eq_of_toNat_eq
    have small := p.isLt
    rw [BitVec.toNat_ofNat, ← start]
    show _ = (fin h.heapStart.toNat pre + 32) % 2 ^ 64
    have eq : fin h.heapStart.toNat pre + 32 = p.toNat := start
    omega
  obtain ⟨tiled, touches, start', ends, init⟩ := sound.tiled.free rfl
  rw [← place] at tiled touches start' ends init
  have holds := sound.holds
  rw [blocks_used used] at holds
  have after : Sound (h.free p) (revoke live p) (release pre s post) := by
    refine ⟨tiled, init.trans sound.initialized, by rw [ends]; exact sound.low, ?_⟩
    rw [start', blocks_release rfl]
    exact holds.remove start.symm sound.tiled.others
  refine ⟨pre, s, post, rfl, used, start', after, ?_⟩
  intro p' k there x inside
  by_contra changed
  have used := after.holds.used tiled there inside
  rw [start'] at used
  exact (touches x changed).2.2 used

/-! ### Steps -/

/-- The first call initializes the heap; `malloc` is then as if it had been before. -/
theorem Inv.ready (inv : Inv w) (run : w.heap.malloc g fuel size = some (q, h')) :
    ∃ h₀ segs, Sound h₀ w.live segs ∧ Keeps w.heap h₀ w.live ∧
      h₀.malloc g fuel size = some (q, h') ∧
      (h₀ = w.heap ∨ h₀.heapStart = 0x7f0000000000 ∧ segs = [⟨0xfffe0, true⟩]) := by
  rcases inv with ⟨fresh, none⟩ | ⟨segs, sound⟩
  · cases fuel with
    | zero => cases run
    | succ fuel =>
      rw [Heap.malloc, fresh] at run
      obtain ⟨h₀, first, rest⟩ := Option.bind_eq_some_iff.mp run
      obtain ⟨tiled, touches, start, ends, init⟩ := initialize_tiled first
      refine ⟨h₀, _, ⟨tiled, init, by rw [ends]; decide, ?_⟩, ?_, ?_, Or.inr ⟨start, rfl⟩⟩
      · constructor
        · intro p n there
          rw [none] at there
          cases there
        · intro b mem
          cases mem
      · intro p n there
        rw [none] at there
        cases there
      · rw [Heap.malloc, init]
        exact rest
  · exact ⟨w.heap, segs, sound, fun p n _ x _ => rfl, run, Or.inl rfl⟩

/-- `malloc`, whatever was before. -/
theorem Inv.malloc (inv : Inv w) (less : size.toNat < 2 ^ 40)
    (run : w.heap.malloc g fuel size = some (q, h'))
    (low : h'.heapInitialized = true → h'.heapEnd.toNat < 2 ^ 47) :
    ∃ segs, Sound h' (grant w.live q size.toNat) segs ∧ Keeps w.heap h' w.live ∧
      (q = 0 ∧ size.toNat = 0 ∨ q ≠ 0 ∧ 0 < size.toNat ∧ w.live q = none) := by
  obtain ⟨h₀, segs, sound, keeps, run, -⟩ := inv.ready run
  rcases sound.malloc less run with ⟨rfl, zero, rfl⟩ | ⟨pos, n, pre, s, post, granted, le⟩
  · exact ⟨segs, sound, keeps, Or.inl ⟨rfl, zero⟩⟩
  · obtain ⟨sound', keeps', some, fresh⟩ := granted.sound sound le
      (low (granted.initialized.trans sound.initialized))
    exact ⟨_, sound', keeps.trans keeps', Or.inr ⟨some, pos, fresh⟩⟩

/-- After a step the heap is sound, and the blocks it spares are as before. -/
def Steps (w w' : World) (op : Op) : Prop :=
  (∃ segs, Sound w'.heap w'.live segs) ∧ ∀ p n, w.live p = some n → op.Spares p n →
    w'.live p = some n ∧ ∀ x, InRange p n x → w'.heap.mem x = w.heap.mem x

/-- A pointer handed out changes nothing for the others. -/
theorem grant_of_ne (ne : q = 0 ∨ p ≠ q) : grant live q n p = live p := by
  rw [grant]
  split
  · rfl
  · next some => exact Function.update_of_ne (ne.resolve_left some) _ _

/-- And is live itself. -/
theorem grant_self (some : q ≠ 0) : grant live q n q = Option.some n := by
  rw [grant, if_neg some, Function.update_self]

/-- A block granted, and filled. -/
theorem Sound.fill (sound : Sound h' (grant live q n) segs) (keeps : Keeps h h' live)
    (new : q = 0 ∧ n = 0 ∨ q ≠ 0 ∧ 0 < n ∧ live q = none) (mem : Memory)
    (inside : ∀ x, mem x ≠ h'.mem x → InRange q n x) :
    Sound { h' with mem := mem } (grant live q n) segs ∧ Keeps h { h' with mem := mem } live := by
  have filled (x : Addr) (changed : mem x ≠ h'.mem x) : q ≠ 0 ∧ InRange q n x := by
    refine ⟨?_, inside x changed⟩
    rcases new with ⟨-, rfl⟩ | ⟨some, -, -⟩
    · exact absurd (inside x changed) (Nat.not_lt_zero _)
    · exact some
  constructor
  · apply sound.write
    intro x changed
    obtain ⟨some, near⟩ := filled x changed
    exact ⟨q, n, grant_self some, near⟩
  · apply keeps.trans
    intro p k there x near
    by_contra changed
    obtain ⟨some, near'⟩ := filled x changed
    have ne : p ≠ q := by
      rintro rfl
      rcases new with ⟨zero, -⟩ | ⟨-, -, none⟩
      · exact some zero
      · rw [none] at there
        cases there
    have there' : grant live q n p = Option.some k := (grant_of_ne (Or.inr ne)).trans there
    exact sound.not_inRange there' (grant_self some) ne near near'

/-- A live block is not the one that has just been handed out. -/
theorem ne_of_new (new : q = 0 ∧ n = 0 ∨ q ≠ 0 ∧ 0 < n ∧ live q = none) (there : live p = some m) :
    q = 0 ∨ p ≠ q := by
  rcases new with ⟨zero, -⟩ | ⟨-, -, none⟩
  · exact Or.inl zero
  · right
    rintro rfl
    rw [none] at there
    cases there

/-- The step law of `malloc`: the heap it leaves is sound for the blocks that are live then, and
those that were live keep their places and their bytes. -/
theorem Inv.malloc_steps (inv : Inv w) (step : w.Step g (.malloc size) q w') :
    Steps w w' (.malloc size) := by
  obtain ⟨less, ⟨fuel, run⟩, low⟩ := step
  obtain ⟨r, call, eq⟩ := Option.map_eq_some_iff.mp run
  cases eq
  obtain ⟨segs, sound, keeps, new⟩ := inv.malloc less call low
  refine ⟨⟨segs, sound⟩, fun p n there _ => ⟨?_, keeps p n there⟩⟩
  exact (grant_of_ne (ne_of_new new there)).trans there

/-- `calloc` clears what `malloc` granted. -/
theorem Inv.calloc {elements : Addr} (inv : Inv w) (less : elements.toNat * size.toNat < 2 ^ 40)
    (run : w.heap.calloc g fuel elements size = some (q, h'))
    (low : h'.heapInitialized = true → h'.heapEnd.toNat < 2 ^ 47) :
    ∃ h₁ segs, w.heap.malloc g fuel (elements * size) = some (q, h₁) ∧
      (elements * size).toNat = elements.toNat * size.toNat ∧
      h' = { h₁ with mem := memset h₁.mem q 0 (elements * size).toNat } ∧
      Sound h₁ (grant w.live q (elements.toNat * size.toNat)) segs ∧
      Sound h' (grant w.live q (elements.toNat * size.toNat)) segs ∧ Keeps w.heap h' w.live ∧
      (q = 0 ∧ elements.toNat * size.toNat = 0 ∨
        q ≠ 0 ∧ 0 < elements.toNat * size.toNat ∧ w.live q = none) := by
  have exact' : (elements * size).toNat = elements.toNat * size.toNat := by
    rw [BitVec.toNat_mul]
    exact Nat.mod_eq_of_lt (by omega)
  obtain ⟨⟨new, h₁⟩, grantedRun, rest⟩ := Option.bind_eq_some_iff.mp run
  obtain ⟨rfl, rfl⟩ := Prod.mk.inj (Option.some.inj rest)
  obtain ⟨segs, sound, keeps, fresh⟩ := inv.malloc (by rw [exact']; exact less) grantedRun low
  rw [exact'] at sound fresh
  obtain ⟨sound', keeps'⟩ :=
    sound.fill keeps fresh (memset h₁.mem new 0 (elements * size).toNat) (by
    intro x changed
    by_contra off
    rw [← exact'] at off
    exact changed (memset_of_not off))
  exact ⟨h₁, segs, grantedRun, exact', rfl, sound, sound', keeps', fresh⟩

/-- The step law of `calloc`, which is that of `malloc` for the product of the two sizes; what it
clears is its own block. -/
theorem Inv.calloc_steps {elements : Addr} (inv : Inv w)
    (step : w.Step g (.calloc elements size) q w') : Steps w w' (.calloc elements size) := by
  obtain ⟨less, ⟨fuel, run⟩, low⟩ := step
  obtain ⟨⟨new, h'⟩, call, eq⟩ := Option.map_eq_some_iff.mp run
  obtain ⟨rfl, rfl⟩ := Prod.mk.inj eq
  obtain ⟨h₁, segs, -, -, -, -, sound, keeps, fresh⟩ := inv.calloc less call low
  refine ⟨⟨segs, sound⟩, fun p n there _ => ⟨?_, keeps p n there⟩⟩
  exact (grant_of_ne (ne_of_new fresh there)).trans there

/-- One block handed out and another given back, in either order. -/
theorem grant_revoke (ne : q = 0 ∨ p ≠ q) :
    grant (revoke live p) q n = revoke (grant live q n) p := by
  rw [grant, grant]
  split
  · rfl
  · next some => exact Function.update_comm (ne.resolve_left some) _ _ _

/-- `realloc` copies to what `malloc` granted, and frees. -/
theorem Inv.realloc_copies {pointer : Addr} (inv : Inv w) (less : size.toNat < 2 ^ 40)
    (run : w.heap.realloc g fuel pointer size = some (q, h'))
    (low : h'.heapInitialized = true → h'.heapEnd.toNat < 2 ^ 47) :
    ∃ h₁ h₂ segs, w.heap.malloc g fuel size = some (q, h₁) ∧
      h₂ = { h₁ with mem := memcpy h₁.mem q pointer size.toNat } ∧ h' = h₂.free pointer ∧
      Sound h₁ (grant w.live q size.toNat) segs ∧ Keeps w.heap h₁ w.live ∧
      Sound h₂ (grant w.live q size.toNat) segs ∧ Keeps w.heap h₂ w.live ∧
      (q = 0 ∧ size.toNat = 0 ∨ q ≠ 0 ∧ 0 < size.toNat ∧ w.live q = none) := by
  obtain ⟨⟨new, h₁⟩, grantedRun, rest⟩ := Option.bind_eq_some_iff.mp run
  obtain ⟨rfl, rfl⟩ := Prod.mk.inj (Option.some.inj rest)
  have low₁ (init : h₁.heapInitialized = true) : h₁.heapEnd.toNat < 2 ^ 47 := by
    obtain ⟨ends, init'⟩ := free_rest
      { h₁ with mem := memcpy h₁.mem new pointer size.toNat } pointer
    have low := low (init'.trans init)
    rwa [ends] at low
  obtain ⟨segs, sound, keeps, fresh⟩ := inv.malloc less grantedRun low₁
  obtain ⟨sound', keeps'⟩ := sound.fill keeps fresh (memcpy h₁.mem new pointer size.toNat) (by
    intro x changed
    by_contra off
    exact changed (memcpy_of_not off))
  exact ⟨h₁, _, segs, grantedRun, rfl, rfl, sound, keeps, sound', keeps', fresh⟩

/-- `realloc` of a live block. -/
theorem Inv.realloc {pointer : Addr} {k : Nat} (inv : Inv w) (hk : w.live pointer = some k)
    (less : size.toNat < 2 ^ 40) (run : w.heap.realloc g fuel pointer size = some (q, h'))
    (low : h'.heapInitialized = true → h'.heapEnd.toNat < 2 ^ 47) :
    (∃ segs, Sound h' (grant (revoke w.live pointer) q size.toNat) segs) ∧
      ∀ p n, w.live p = some n → pointer ≠ p →
        grant (revoke w.live pointer) q size.toNat p = some n ∧
          ∀ x, InRange p n x → h'.mem x = w.heap.mem x := by
  obtain ⟨h₁, h₂, segs, -, -, freed, -, -, sound, keeps, fresh⟩ := inv.realloc_copies less run low
  have old : grant w.live q size.toNat pointer = some k :=
    (grant_of_ne (ne_of_new fresh hk)).trans hk
  obtain ⟨pre, s, post, -, -, -, sound', keeps'⟩ := sound.free old
  rw [← grant_revoke (ne_of_new fresh hk), ← freed] at sound' keeps'
  refine ⟨⟨_, sound'⟩, fun p n there spares => ?_⟩
  have still : grant (revoke w.live pointer) q size.toNat p = some n := by
    rw [grant_of_ne (ne_of_new fresh there), revoke, Function.update_of_ne spares.symm, there]
  exact ⟨still, fun x inside => (keeps' p n still x inside).trans (keeps p n there x inside)⟩

/-- The step law of `realloc`: a new block, to which the old one is copied before it is freed. Every
block but the old one stays as it is. -/
theorem Inv.realloc_steps {pointer : Addr} (inv : Inv w)
    (step : w.Step g (.realloc pointer size) q w') : Steps w w' (.realloc pointer size) := by
  obtain ⟨⟨isLive, less⟩, ⟨fuel, run⟩, low⟩ := step
  obtain ⟨k, hk⟩ := Option.isSome_iff_exists.mp isLive
  obtain ⟨⟨new, h₁⟩, call, eq⟩ := Option.map_eq_some_iff.mp run
  obtain ⟨rfl, rfl⟩ := Prod.mk.inj eq
  exact inv.realloc hk less call low

/-- Where a block is live the heap has been initialized. -/
theorem Inv.sound (inv : Inv w) (there : w.live p = some n) : ∃ segs, Sound w.heap w.live segs := by
  rcases inv with ⟨-, none⟩ | sound
  · rw [none] at there
    cases there
  · exact sound

theorem run_free {pointer : Addr} : w.run g fuel (.free pointer) =
    some (0, ⟨w.heap.free pointer, revoke w.live pointer⟩) := rfl

/-- The step law of `free`: the block is no longer live, its segment is free again, and every other
block stays as it is. -/
theorem Inv.free_steps {pointer : Addr} (inv : Inv w) (step : w.Step g (.free pointer) q w') :
    Steps w w' (.free pointer) := by
  obtain ⟨isLive, ⟨fuel, run⟩, -⟩ := step
  obtain ⟨k, hk⟩ := Option.isSome_iff_exists.mp isLive
  rw [run_free, Option.some.injEq, Prod.mk.injEq] at run
  obtain ⟨-, rfl⟩ := run
  obtain ⟨segs, sound⟩ := inv.sound hk
  obtain ⟨pre, s, post, -, -, -, sound', keeps⟩ := sound.free hk
  generalize w.heap.free pointer = h' at sound' keeps ⊢
  refine ⟨⟨_, sound'⟩, fun p n there spares => ?_⟩
  have ne : p ≠ pointer := fun same => spares same.symm
  have still : revoke w.live pointer p = some n := by
    rw [revoke, Function.update_of_ne ne, there]
  exact ⟨still, keeps p n still⟩

/-- The step law of a client's write: it is inside a live block, so no header is touched, and no
other block is. -/
theorem Inv.write_steps {address : Addr} {byte : BitVec 8} (inv : Inv w)
    (step : w.Step g (.write address byte) q w') : Steps w w' (.write address byte) := by
  obtain ⟨⟨pointer, k, hk, near⟩, ⟨fuel, run⟩, -⟩ := step
  cases run
  obtain ⟨segs, sound⟩ := inv.sound hk
  constructor
  · refine ⟨segs, sound.write fun x changed => ⟨pointer, k, hk, ?_⟩⟩
    have same : x = address := by
      by_contra ne
      exact changed (Function.update_of_ne ne _ _)
    rw [same]
    exact near
  · intro p n there spares
    refine ⟨there, fun x inside => Function.update_of_ne ?_ _ _⟩
    rintro rfl
    exact spares inside

/-- Every step, whichever the call is: the laws of the five calls in one. -/
theorem Inv.steps {op : Op} (inv : Inv w) (step : w.Step g op q w') : Steps w w' op := by
  cases op with
  | malloc size => exact inv.malloc_steps step
  | calloc elements size => exact inv.calloc_steps step
  | realloc pointer size => exact inv.realloc_steps step
  | free pointer => exact inv.free_steps step
  | write address byte => exact inv.write_steps step

/-! ### Runs -/

/-- What every step keeps, every run keeps. -/
theorem Inv.run {ops : Op → Prop} (inv : Inv w) (run : World.Runs g ops w w') : Inv w' := by
  induction run with
  | refl => exact inv
  | tail _ step ih =>
    obtain ⟨op, answer, -, step⟩ := step
    exact Or.inr (ih.steps step).1

/-- Every state of a run keeps the invariant: by induction on the run, from the boot heap and the
step law. -/
theorem reachable_inv (reach : World.Reachable g w) : Inv w := by
  obtain ⟨w₀, initial, run⟩ := reach
  exact Inv.run (Or.inl initial) run

/-- A block stays as it is in a run that spares it. -/
theorem Inv.spared {ops : Op → Prop} (inv : Inv w) (there : w.live p = some n)
    (spares : ∀ op, ops op → op.Spares p n) (run : World.Runs g ops w w') :
    w'.live p = some n ∧ ∀ x, InRange p n x → w'.heap.mem x = w.heap.mem x := by
  induction run with
  | refl => exact ⟨there, fun _ _ => rfl⟩
  | tail before step ih =>
    obtain ⟨op, answer, mem, step⟩ := step
    obtain ⟨still, same⟩ := ((inv.run before).steps step).2 p n ih.1 (spares op mem)
    exact ⟨still, fun x inside => (same x inside).trans (ih.2 x inside)⟩

end

end Skylight.Heap
