import Skylight.Laws.Heap.Contracts
import Skylight.Laws.Pmm.Pools
import Skylight.Mem.Heap.Pools

/-!
# Pools in the heap

What `pmm_alloc_pool` stores to. A pool that is not the first goes to its own block and to the
link of the one before it; the first is cleared as if its block were a page, and what lies
behind the block goes with it.

`pmmAllocPool_respects` says both. In every run of clients and calls of the manager, with at
least one pool there, a call keeps the chain and the live blocks and stores to nothing but its
own pool and the one link (`Respects`); on the first call `pmmAllocPool_not_first` shows the
header behind the block gone. `Pools` is the list that the links spell, carried through the
clients' steps by `Inv.spares_link`. The frames of the pool itself, and what the bitmap says of
them, are in `Laws.Pmm.Pools`.
-/

namespace Skylight.Heap

open Bytes Kernel

/-- A list of pools, each in a block of its own. -/
def Pools (m : Memory) (live : Addr → Option Nat) : Addr → List Addr → Prop
  | a, [] => a = 0
  | a, d :: ds => a = d ∧ d ≠ 0 ∧ live d = some 24 ∧ Pools m live (load m d) ds

/-- The kernel and its live blocks: the clients' and the pools. -/
structure Owned where
  kernel : Kernel
  live : Addr → Option Nat

namespace Owned

def world (s : Owned) : World := ⟨s.kernel.heap, s.live⟩

/-- The pools. -/
def IsPools (s : Owned) (ds : List Addr) : Prop :=
  Pools s.kernel.heap.mem s.live s.kernel.pmmPools ds

/-- The link that ends the list. -/
def Link (s : Owned) (x : Addr) : Prop := ∃ ds d, s.IsPools (ds ++ [d]) ∧ InRange d 8 x

/-- A call of `pmm_alloc_pool`, with `heap_end` below `2 ^ 47` after it. -/
def Alloc (g : Nat → Addr) (s : Owned) (count base : Nat) (pool : Option Addr) (s' : Owned) :
    Prop :=
  (∃ fuel, s.kernel.pmmAllocPool g fuel count = some (base, pool, s'.kernel)) ∧
    s'.live = (match pool with
      | none => s.live
      | some d => grant s.live d 24) ∧
    (s'.kernel.heap.heapInitialized = true → s'.kernel.heap.heapEnd.toNat < 2 ^ 47)

/-- A pool is not the first. -/
def Later (s : Owned) : Prop := s.kernel.pmm.allowing = false ∨ s.kernel.pmmPools ≠ 0

/-- What happens: a client's step that leaves the links of the pools alone, anything the manager
does to its sections, and pools that are not the first. -/
inductive Move (g : Nat → Addr) : Owned → Owned → Prop
  | client {s : Owned} {op : Op} {answer : Addr} {w : World} (step : s.world.Step g op answer w)
      (spares : ∀ ds, s.IsPools ds → ∀ d ∈ ds, op.Spares d 8) :
      Move g s ⟨{ s.kernel with heap := w.heap }, w.live⟩
  | manager {s : Owned} (pmm : Pmm.State) : Move g s ⟨{ s.kernel with pmm }, s.live⟩
  | pool {s s' : Owned} {count base : Nat} {pool : Option Addr}
      (call : s.Alloc g count base pool s') (later : s.Later) : Move g s s'

/-- Runs of them. -/
def Runs (g : Nat → Addr) : Owned → Owned → Prop := Relation.ReflTransGen (Move g)

/-- The heap is sound, or before its first call, and the pools are a list. -/
structure Ready (s : Owned) : Prop where
  inv : Inv s.world
  pools : ∃ ds, s.IsPools ds

/-- The call keeps the chain of segments and the live blocks, and stores to its own pool only,
except to `link`. -/
structure Respects (s s' : Owned) (pool : Option Addr) (link : Addr → Prop) : Prop where
  tiled : s'.kernel.heap.heapInitialized = true → ∃ segs, Tiled s'.kernel.heap segs
  keeps : ∀ p n, s.live p = some n → ∀ x, InRange p n x → ¬ link x →
    s'.kernel.heap.mem x = s.kernel.heap.mem x
  stores : ∀ r ∈ s'.kernel.written, ∀ x, InRange r.1 r.2 x →
    link x ∨ ∃ d, pool = some d ∧ InRange d 24 x

end Owned

/-- Stores to `own`, and nothing else in the heap. -/
structure Within (own : Addr → Prop) (k k' : Kernel) : Prop where
  rest : ∃ m, k'.heap = { k.heap with mem := m }
  same : ∀ x, ¬ own x → k'.heap.mem x = k.heap.mem x
  grows : ∀ r ∈ k.written, r ∈ k'.written
  written : ∀ r ∈ k'.written, r ∈ k.written ∨ ∀ x, InRange r.1 r.2 x → own x

section
variable {own own' : Addr → Prop} {k k₁ k₂ k' : Kernel} {g : Nat → Addr} {fuel n count base : Nat}
  {a d q v : Addr} {live live' : Addr → Option Nat} {m m' : Memory} {ds : List Addr}
  {segs : List Segment} {pool : Option Addr} {s s₀ s' : Owned} {w w' : World} {op : Op}

/-! ### Stores -/

/-- Nothing stored. -/
theorem Within.refl (k : Kernel) : Within own k k :=
  ⟨⟨_, rfl⟩, fun _ _ => rfl, fun _ mem => mem, fun _ mem => Or.inl mem⟩

/-- Stores one after the other. -/
theorem Within.trans (h : Within own k k₁) (h' : Within own k₁ k₂) : Within own k k₂ := by
  obtain ⟨m, eq⟩ := h.rest
  obtain ⟨m', eq'⟩ := h'.rest
  refine ⟨⟨m', ?_⟩, ?_, fun r mem => h'.grows r (h.grows r mem), ?_⟩
  · rw [eq', eq]
  · intro x off
    rw [h'.same x off, h.same x off]
  · intro r mem
    rcases h'.written r mem with mem | inside
    · exact h.written r mem
    · exact Or.inr inside

/-- What stays in a part stays in a larger one. -/
theorem Within.mono (h : Within own k k') (le : ∀ x, own x → own' x) : Within own' k k' :=
  ⟨h.rest, fun x off => h.same x fun mem => off (le x mem), h.grows, fun r mem =>
    (h.written r mem).imp_right fun inside x near => le x (inside x near)⟩

/-- What is stored behind the first bytes of a block. -/
theorem Within.set (k : Kernel) (a v : Addr) : Within (InRange a 8) k (k.set a v) := by
  refine ⟨⟨_, rfl⟩, fun x off => store_of_not off, fun r mem => List.mem_cons_of_mem _ mem, ?_⟩
  intro r mem
  rcases List.mem_cons.mp mem with rfl | mem
  · exact Or.inr fun x near => near
  · exact Or.inl mem

/-- Bytes cleared. -/
theorem Within.clear (k : Kernel) (a : Addr) (n : Nat) :
    Within (InRange a n) k (k.clear a n) := by
  refine ⟨⟨_, rfl⟩, fun x off => memset_of_not off, fun r mem => List.mem_cons_of_mem _ mem, ?_⟩
  intro r mem
  rcases List.mem_cons.mp mem with rfl | mem
  · exact Or.inr fun x near => near
  · exact Or.inl mem

/-- Stores to live blocks leave the heap sound. -/
theorem Within.sound (h : Within own k k') (sound : Sound k.heap live segs)
    (inside : ∀ x, own x → ∃ p n, live p = some n ∧ InRange p n x) : Sound k'.heap live segs := by
  obtain ⟨m, eq⟩ := h.rest
  rw [eq]
  apply sound.write
  intro x changed
  apply inside x
  by_contra off
  have same := h.same x off
  rw [eq] at same
  exact changed same

/-! ### The list of pools -/

/-- The first pool is at the head. -/
theorem Pools.head (pools : Pools m live a (d :: ds)) : a = d ∧ a ≠ 0 := by
  obtain ⟨rfl, some, -⟩ := pools
  exact ⟨rfl, some⟩

/-- Every pool is a live block. -/
theorem Pools.there (pools : Pools m live a ds) : ∀ d ∈ ds, live d = some 24 := by
  induction ds generalizing a with
  | nil =>
    intro d mem
    cases mem
  | cons e ds ih =>
    obtain ⟨-, -, there, rest⟩ := pools
    rw [List.forall_mem_cons]
    exact ⟨there, ih rest⟩

/-- The last link is `NULL`, and no other is. -/
theorem Pools.links (pools : Pools m live a (ds ++ [d])) :
    load m d = 0 ∧ ∀ e ∈ ds, load m e ≠ 0 := by
  induction ds generalizing a with
  | nil =>
    refine ⟨pools.2.2.2, fun e mem => ?_⟩
    cases mem
  | cons e ds ih =>
    obtain ⟨-, -, -, rest⟩ := pools
    obtain ⟨zero, others⟩ := ih rest
    refine ⟨zero, ?_⟩
    rw [List.forall_mem_cons]
    refine ⟨?_, others⟩
    cases ds with
    | nil => exact rest.2.1 ∘ fun zero => rest.1.symm.trans zero
    | cons f ds => exact rest.2.1 ∘ fun zero => rest.1.symm.trans zero

/-- The list stays when its blocks are live and its links are as before. -/
theorem Pools.congr (pools : Pools m live a ds) (there : ∀ d ∈ ds, live' d = some 24)
    (same : ∀ d ∈ ds, load m' d = load m d) : Pools m' live' a ds := by
  induction ds generalizing a with
  | nil => exact pools
  | cons d ds ih =>
    obtain ⟨rfl, some, -, rest⟩ := pools
    rw [List.forall_mem_cons] at there same
    refine ⟨rfl, some, there.1, ?_⟩
    rw [same.1]
    exact ih rest there.2 same.2

/-- The list with one more at its end. -/
theorem Pools.append (pools : Pools m live a (ds ++ [d]))
    (there : ∀ e ∈ ds ++ [d], live' e = some 24) (same : ∀ e ∈ ds, load m' e = load m e)
    (link : load m' d = q) (last : load m' q = 0) (some : q ≠ 0) (new : live' q = Option.some 24) :
    Pools m' live' a (ds ++ [d] ++ [q]) := by
  induction ds generalizing a with
  | nil =>
    obtain ⟨rfl, nonzero, -, -⟩ := pools
    refine ⟨rfl, nonzero, there a (List.mem_singleton_self a), link, some, new, ?_⟩
    exact last
  | cons e ds ih =>
    obtain ⟨rfl, nonzero, -, rest⟩ := pools
    rw [List.cons_append, List.forall_mem_cons] at there
    rw [List.forall_mem_cons] at same
    refine ⟨rfl, nonzero, there.1, ?_⟩
    rw [same.1]
    exact ih rest there.2 same.2

/-- The walk ends at the last pool. -/
theorem Pools.lastPool {h : Heap} (pools : Pools h.mem live a ds) (some : a ≠ 0)
    (walk : lastPool h fuel a = Option.some d) : ∃ front, ds = front ++ [d] := by
  induction fuel generalizing a ds with
  | zero => cases walk
  | succ fuel ih =>
    cases ds with
    | nil => exact absurd pools some
    | cons e ds =>
      obtain ⟨rfl, -, -, rest⟩ := pools
      rw [Kernel.lastPool] at walk
      split at walk
      · next zero =>
        cases walk
        cases ds with
        | nil => exact ⟨[], rfl⟩
        | cons f ds => exact absurd (rest.1.symm.trans zero) rest.2.1
      · next nonzero =>
        obtain ⟨front, rfl⟩ := ih rest nonzero walk
        exact ⟨a :: front, rfl⟩

/-! ### The calls -/

/-- A new pool is a live block, and the others are as before. -/
structure New (k k' : Kernel) (live : Addr → Option Nat) (q : Addr) : Prop where
  sound : ∃ segs, Sound k'.heap (grant live q 24) segs
  keeps : Keeps k.heap k'.heap live
  some : q ≠ 0
  fresh : live q = none
  pools : k'.pmmPools = k.pmmPools
  written : k'.written = k.written

/-- What `malloc` gives for a pool is a block of its own. -/
theorem newPool_new (inv : Inv ⟨k.heap, live⟩) (call : k.newPool g fuel = some (q, k'))
    (low : k'.heap.heapInitialized = true → k'.heap.heapEnd.toNat < 2 ^ 47) : New k k' live q := by
  obtain ⟨⟨pool, heap⟩, run, rest⟩ := Option.bind_eq_some_iff.mp call
  obtain ⟨⟨frames, pmm⟩, -, eq⟩ := Option.bind_eq_some_iff.mp rest
  obtain ⟨rfl, rfl⟩ := Prod.mk.inj (Option.some.inj eq)
  obtain ⟨segs, sound, keeps, new⟩ := inv.malloc (by decide) run low
  rcases new with ⟨-, zero⟩ | ⟨some, -, fresh⟩
  · exact absurd zero (by decide)
  · exact ⟨⟨segs, sound⟩, keeps, some, fresh, rfl, rfl⟩

/-- The list with the new pool at its end. -/
theorem selectPool_later (call : k.selectPool g fuel = some (q, k')) (later : k.pmmPools ≠ 0) :
    ∃ d k₁, lastPool k.heap fuel k.pmmPools = some d ∧ k.newPool g fuel = some (q, k₁) ∧
      k' = (k₁.set d q).set q 0 := by
  rw [selectPool, if_neg later] at call
  obtain ⟨d, walk, rest⟩ := Option.bind_eq_some_iff.mp call
  obtain ⟨⟨q', k₁⟩, new, eq⟩ := Option.bind_eq_some_iff.mp rest
  obtain ⟨rfl, rfl⟩ := Prod.mk.inj (Option.some.inj eq)
  exact ⟨d, k₁, walk, new, rfl⟩

/-- The first pool is cleared, over the length of a page, before its link is. -/
theorem selectPool_first (call : k.selectPool g fuel = some (q, k')) (first : k.pmmPools = 0) :
    ∃ k₁, k.newPool g fuel = some (q, k₁) ∧
      k' = { k₁.clear q 0x1000 with pmmPools := q }.set q 0 := by
  rw [selectPool, if_pos first] at call
  obtain ⟨⟨q', k₁⟩, new, eq⟩ := Option.bind_eq_some_iff.mp call
  obtain ⟨rfl, rfl⟩ := Prod.mk.inj (Option.some.inj eq)
  exact ⟨k₁, new, rfl⟩

/-- While no allocations are allowed the call answers `NULL`. -/
theorem pmmAllocPool_closed (closed : k.pmm.allowing = false)
    (call : k.pmmAllocPool g fuel count = some (base, pool, k')) :
    pool = none ∧ k' = { k with written := [] } := by
  rw [pmmAllocPool, closed] at call
  obtain ⟨-, eq⟩ := Prod.mk.inj (Option.some.inj call)
  obtain ⟨rfl, rfl⟩ := Prod.mk.inj eq
  exact ⟨rfl, rfl⟩

/-- What follows the choice of the pool: its `pages` and its `base`. -/
theorem pmmAllocPool_open (allowing : k.pmm.allowing = true)
    (call : k.pmmAllocPool g fuel count = some (base, pool, k')) :
    ∃ q k₁, { k with written := [] }.selectPool g fuel = some (q, k₁) ∧ pool = some q ∧
      k'.pmmPools = k₁.pmmPools ∧ Within (InRange (q + 8) 16) k₁ k' := by
  rw [pmmAllocPool, allowing] at call
  obtain ⟨⟨q, k₁⟩, select, rest⟩ := Option.bind_eq_some_iff.mp call
  obtain ⟨found, -, rest⟩ := Option.bind_eq_some_iff.mp rest
  have pages : Within (InRange (q + 8) 16) k₁ (k₁.set (q + 8) (BitVec.ofNat 64 count)) := by
    apply (Within.set k₁ (q + 8) _).mono
    intro x near
    exact Nat.lt_of_lt_of_le near (by decide)
  cases found with
  | none =>
    obtain ⟨pmm, -, eq⟩ := Option.bind_eq_some_iff.mp rest
    obtain ⟨-, eq⟩ := Prod.mk.inj (Option.some.inj eq)
    obtain ⟨rfl, rfl⟩ := Prod.mk.inj eq
    exact ⟨q, k₁, select, rfl, rfl, pages.rest, pages.same, pages.grows, pages.written⟩
  | some a =>
    obtain ⟨pmm, -, eq⟩ := Option.bind_eq_some_iff.mp rest
    obtain ⟨-, eq⟩ := Prod.mk.inj (Option.some.inj eq)
    obtain ⟨rfl, rfl⟩ := Prod.mk.inj eq
    generalize BitVec.ofNat 64 (_ : Pmm.Section).start = v
    have both : Within (InRange (q + 8) 16) k₁
        ((k₁.set (q + 8) (BitVec.ofNat 64 count)).set (q + 16) v) := by
      apply pages.trans
      apply (Within.set _ (q + 16) v).mono
      intro x near
      have eq : q + 16 = q + 8 + BitVec.ofNat 64 8 := by
        rw [BitVec.add_assoc]
        rfl
      rw [eq] at near
      exact InRange.within near (by decide) (by decide)
    exact ⟨q, k₁, select, rfl, rfl, both.rest, both.same, both.grows, both.written⟩

/-- Below `2 ^ 47` before the stores if after them. -/
theorem Within.low (h : Within own k k')
    (low : k'.heap.heapInitialized = true → k'.heap.heapEnd.toNat < 2 ^ 47) :
    k.heap.heapInitialized = true → k.heap.heapEnd.toNat < 2 ^ 47 := by
  obtain ⟨m, eq⟩ := h.rest
  rw [eq] at low
  exact low

/-- The pool's own part of a later call. -/
theorem Within.block (h : Within (InRange (q + 8) 16) ((k.set d v).set q 0) k') :
    Within (InRange q 24) (k.set d v) k' := by
  apply Within.trans
  · apply (Within.set _ q 0).mono
    intro x near
    exact Nat.lt_of_lt_of_le near (by decide)
  · apply h.mono
    intro x near
    exact InRange.within (i := 8) near (by decide) (by decide)

/-- After a later call the heap is sound, and the new pool is at the end of the list. -/
theorem Owned.Ready.later (ready : s.Ready) (call : s.Alloc g count base pool s')
    (allowing : s.kernel.pmm.allowing = true) (later : s.kernel.pmmPools ≠ 0) :
    ∃ ds d q, pool = some q ∧ s.IsPools (ds ++ [d]) ∧ s'.IsPools (ds ++ [d] ++ [q]) ∧
      s'.Ready ∧ Owned.Respects s s' pool (InRange d 8) := by
  obtain ⟨⟨fuel, run⟩, live, low⟩ := call
  obtain ⟨q, k₁, select, rfl, pools', within⟩ := pmmAllocPool_open allowing run
  obtain ⟨d, k, walk, run, rfl⟩ := selectPool_later select later
  obtain ⟨ds, pools⟩ := ready.pools
  obtain ⟨ds, rfl⟩ := pools.lastPool later walk
  have own := within.block
  have all : Within (fun x => InRange d 8 x ∨ InRange q 24 x) k s'.kernel :=
    ((Within.set k d q).mono fun x => Or.inl).trans (own.mono fun x => Or.inr)
  obtain ⟨⟨segs, sound⟩, keeps, some, fresh, head, log⟩ :=
    newPool_new (k := { s.kernel with written := [] }) ready.inv run (all.low low)
  have there := pools.there
  have apart {e : Addr} (mem : e ∈ ds ++ [d]) : e ≠ q := by
    rintro rfl
    exact absurd (fresh.symm.trans (there e mem)) (by decide)
  have live : s'.live = grant s.live q 24 := live
  have still {e : Addr} (mem : e ∈ ds ++ [d]) : s'.live e = Option.some 24 := by
    rw [live, grant_of_ne (Or.inr (apart mem))]
    exact there e mem
  have new : s'.live q = Option.some 24 := by
    rw [live]
    exact grant_self some
  rw [← live] at sound
  have last : d ∈ ds ++ [d] := List.mem_append_right _ (List.mem_singleton_self d)
  have sound' : Sound s'.kernel.heap s'.live segs := by
    apply all.sound sound
    rintro x (near | near)
    · exact ⟨d, 24, still last, Nat.lt_of_lt_of_le near (by decide)⟩
    · exact ⟨q, 24, new, near⟩
  have link : load s'.kernel.heap.mem d = q := by
    rw [load_congr fun x near => own.same x fun mine => ?_]
    · exact load_store q
    · exact sound.not_inRange (still last) new (apart last)
        (Nat.lt_of_lt_of_le near (by decide)) mine
  have zero : load s'.kernel.heap.mem q = 0 := by
    rw [load_congr fun x near => within.same x (near.not_behind (by decide))]
    exact load_store 0
  have others : ∀ e ∈ ds, load s'.kernel.heap.mem e = load s.kernel.heap.mem e := by
    intro e mem
    have mem' : e ∈ ds ++ [d] := List.mem_append_left _ mem
    have ne : e ≠ d := by
      rintro rfl
      exact pools.links.2 e mem pools.links.1
    apply load_congr
    intro x near
    have near' : InRange e 24 x := Nat.lt_of_lt_of_le near (by decide)
    rw [all.same, keeps e 24 (there e mem') x near']
    rintro (other | other)
    · exact sound.not_inRange (still mem') (still last) ne near'
        (Nat.lt_of_lt_of_le other (by decide))
    · exact sound.not_inRange (still mem') new (apart mem') near' other
  have list : s'.IsPools (ds ++ [d] ++ [q]) := by
    rw [Owned.IsPools, show s'.kernel.pmmPools = s.kernel.pmmPools from pools'.trans head]
    exact pools.append (fun e mem => still mem) others link zero some new
  refine ⟨ds, d, q, rfl, pools, list, ⟨Or.inr ⟨segs, sound'⟩, _, list⟩,
    fun _ => ⟨segs, sound'.tiled⟩, ?_, ?_⟩
  · intro p n hp x near off
    have ne : p ≠ q := by
      rintro rfl
      exact absurd (fresh.symm.trans hp) (by rintro ⟨⟩)
    have hp' : s'.live p = Option.some n := by
      rw [live, grant_of_ne (Or.inr ne)]
      exact hp
    rw [all.same, keeps p n hp x near]
    rintro (other | other)
    · exact off other
    · exact sound.not_inRange hp' new ne near other
  · intro r mem x near
    rcases all.written r mem with mem | inside
    · rw [log] at mem
      cases mem
    · rcases inside x near with link | mine
      · exact Or.inl link
      · exact Or.inr ⟨q, rfl, mine⟩

/-- The first pool is cleared over the length of a page. -/
theorem Owned.Alloc.first (call : s.Alloc g count base pool s')
    (allowing : s.kernel.pmm.allowing = true) (first : s.kernel.pmmPools = 0) :
    ∃ q, pool = some q ∧ (q, 0x1000) ∈ s'.kernel.written := by
  obtain ⟨⟨fuel, run⟩, -, -⟩ := call
  obtain ⟨q, k₁, select, rfl, -, within⟩ := pmmAllocPool_open allowing run
  obtain ⟨k, -, rfl⟩ := selectPool_first select first
  refine ⟨q, rfl, within.grows _ ?_⟩
  exact List.mem_cons_of_mem _ (List.mem_cons_self ..)

/-- Nothing is stored while no allocations are allowed. -/
theorem Owned.Ready.closed (ready : s.Ready) (call : s.Alloc g count base pool s')
    (closed : s.kernel.pmm.allowing = false) (link : Addr → Prop) :
    s'.Ready ∧ Owned.Respects s s' pool link := by
  obtain ⟨⟨fuel, run⟩, live, -⟩ := call
  obtain ⟨rfl, same⟩ := pmmAllocPool_closed closed run
  obtain ⟨k', live'⟩ := s'
  have same : k' = { s.kernel with written := [] } := same
  have live : live' = s.live := live
  subst same live
  refine ⟨⟨ready.inv, ready.pools⟩, fun init => ?_, fun p n _ x _ _ => rfl, fun r mem => ?_⟩
  · rcases ready.inv with ⟨fresh, -⟩ | ⟨segs, sound⟩
    · exact absurd (fresh.symm.trans init) (by decide)
    · exact ⟨segs, sound.tiled⟩
  · cases mem

/-! ### Runs -/

/-- A client's step leaves the link of a pool if the call spares it: the link lies in a block that
stays alive, and only a write into that block could change it. -/
theorem Inv.spares_link (inv : Inv w) (step : w.Step g op a w') (there : w.live d = some n)
    (le : 8 ≤ n) (spares : op.Spares d 8) :
    w'.live d = some n ∧ load w'.heap.mem d = load w.heap.mem d := by
  have steps := (inv.steps step).2 d n there
  have whole (spares : op.Spares d n) :
      w'.live d = some n ∧ load w'.heap.mem d = load w.heap.mem d := by
    obtain ⟨still, same⟩ := steps spares
    exact ⟨still, load_congr fun x near => same x (Nat.lt_of_lt_of_le near le)⟩
  cases op with
  | malloc size => exact whole spares
  | calloc elements size => exact whole spares
  | realloc pointer size => exact whole spares
  | free pointer => exact whole spares
  | write address byte =>
    obtain ⟨-, ⟨fuel, run⟩, -⟩ := step
    cases run
    refine ⟨there, load_congr fun x near => Function.update_of_ne ?_ _ _⟩
    rintro rfl
    exact spares near

/-- Every step of a run keeps the heap sound and the pools a list. -/
theorem Owned.Ready.move (ready : s.Ready) (move : Owned.Move g s s') : s'.Ready := by
  cases move with
  | client step spares =>
    obtain ⟨ds, pools⟩ := ready.pools
    have links (d : Addr) (mem : d ∈ ds) :=
      ready.inv.spares_link step (pools.there d mem) (by decide) (spares ds pools d mem)
    refine ⟨Or.inr (ready.inv.steps step).1, ds, ?_⟩
    exact pools.congr (fun d mem => (links d mem).1) fun d mem => (links d mem).2
  | manager pmm => exact ⟨ready.inv, ready.pools⟩
  | pool call later =>
    cases allowing : s.kernel.pmm.allowing with
    | false => exact (ready.closed call allowing fun _ => False).1
    | true =>
      have some : s.kernel.pmmPools ≠ 0 := by
        rcases later with closed | some
        · exact absurd (closed.symm.trans allowing) (by decide)
        · exact some
      obtain ⟨-, -, -, -, -, -, ready', -⟩ := ready.later call allowing some
      exact ready'

/-- And so does a run. -/
theorem Owned.Ready.run (ready : s₀.Ready) (run : Owned.Runs g s₀ s) : s.Ready := by
  induction run with
  | refl => exact ready
  | tail _ move ih => exact ih.move move

/-- A call of `pmm_alloc_pool` stores to its own pool and to the link of the one before it just
when the pool is not the first, and to its own pool only just when there is none. -/
theorem pmmAllocPool_respects (ready : s₀.Ready) (run : Owned.Runs g s₀ s)
    (call : s.Alloc g count base pool s') :
    (Owned.Respects s s' pool s.Link ↔ s.Later) ∧
      (Owned.Respects s s' pool (fun _ => False) ↔ s.kernel.pmm.allowing = false) := by
  have ready := ready.run run
  cases allowing : s.kernel.pmm.allowing with
  | false =>
    have respects := fun link => (ready.closed call allowing link).2
    exact ⟨iff_of_true (respects _) (Or.inl allowing), iff_of_true (respects _) rfl⟩
  | true =>
    -- the first pool's descriptor is cleared over a whole page, behind its 24 bytes
    by_cases first : s.kernel.pmmPools = 0
    · obtain ⟨q, rfl, mem⟩ := call.first allowing first
      have off : ¬ InRange q 24 (q + 24) := by
        rw [InRange, add_sub_self]
        decide
      have near : InRange q 0x1000 (q + 24) := by
        rw [InRange, add_sub_self]
        decide
      have none (link : Addr → Prop) (no : ∀ x, ¬ link x) :
          ¬ Owned.Respects s s' (some q) link := by
        intro respects
        rcases respects.stores _ mem _ near with inside | ⟨d, eq, inside⟩
        · exact no _ inside
        · cases eq
          exact off inside
      constructor
      · apply iff_of_false
        · apply none
          rintro x ⟨ds, d, pools, -⟩
          cases ds with
          | nil => exact pools.2.1 (pools.1.symm.trans first)
          | cons e ds => exact pools.2.1 (pools.1.symm.trans first)
        · rintro (closed | some)
          · exact absurd (closed.symm.trans allowing) (by decide)
          · exact some first
      · exact iff_of_false (none _ fun _ => id) (by decide)
    · obtain ⟨ds, d, q, rfl, pools, list, -, respects⟩ := ready.later call allowing first
      constructor
      · apply iff_of_true
        · refine ⟨respects.tiled, fun p n hp x near off => ?_, fun r mem x near => ?_⟩
          · exact respects.keeps p n hp x near fun link => off ⟨ds, d, pools, link⟩
          · exact (respects.stores r mem x near).imp_left fun link => ⟨ds, d, pools, link⟩
        · exact Or.inr first
      -- the last descriptor's link is stored, though its block belongs to the pool before
      · apply iff_of_false
        · intro strict
          have there := pools.there d (List.mem_append_right _ (List.mem_singleton_self d))
          have same : load s'.kernel.heap.mem d = load s.kernel.heap.mem d := by
            apply load_congr
            intro x near
            exact strict.keeps d 24 there x (Nat.lt_of_lt_of_le near (by decide)) id
          rw [pools.links.1] at same
          exact list.links.2 d (List.mem_append_right _ (List.mem_singleton_self d)) same
        · decide

/-! ### A broken chain -/

/-- The same header before two lists, of which the first has more. -/
theorem linked_head {hd hd' : Addr → Header} {l l' b : Nat} {t v : Segment}
    {rest rest' : List Segment} (linked : Linked hd 0 l b (t :: rest))
    (linked' : Linked hd' 0 l' b (v :: rest')) (more : rest ≠ [])
    (same : hd' (BitVec.ofNat 64 b) = hd (BitVec.ofNat 64 b)) (small : fin b (t :: rest) < 2 ^ 64)
    (small' : fin b (v :: rest') < 2 ^ 64) : v.length = t.length ∧ rest' ≠ [] := by
  have room : b + 32 + t.length ≤ fin b (t :: rest) := le_fin
  have room' : b + 32 + v.length ≤ fin b (v :: rest') := le_fin
  rw [linked.1, linked'.1, Header.mk.injEq] at same
  obtain ⟨length, next, -, -⟩ := same
  constructor
  · have value := congrArg BitVec.toNat length
    rwa [BitVec.toNat_ofNat, BitVec.toNat_ofNat, Nat.mod_eq_of_lt (by omega),
      Nat.mod_eq_of_lt (by omega)] at value
  · rintro rfl
    obtain ⟨u, rest, rfl⟩ := List.exists_cons_of_ne_nil more
    exact ofNat_ne_zero (show 0 < b + 32 + t.length by omega) (by omega) next.symm

/-- No chain goes through a header of length zero. -/
theorem linked_cut {hd hd' : Addr → Header} {l l' b : Nat} {t u : Segment} {pre post : List Segment}
    (linked : Linked hd 0 l b (pre ++ t :: u :: post)) (linked' : Linked hd' 0 l' b segs)
    (same : ∀ c ∈ headers b (pre ++ [t]), hd' (BitVec.ofNat 64 c) = hd (BitVec.ofNat 64 c))
    (cut : (hd' (BitVec.ofNat 64 (fin b (pre ++ [t])))).length = 0)
    (small : fin b (pre ++ t :: u :: post) < 2 ^ 64) (small' : fin b segs < 2 ^ 64)
    (lengths : ∀ v ∈ segs, 0 < v.length) : segs = [] := by
  -- The two chains go through the same headers up to the cut, where the length is none a segment
  -- has.
  induction pre generalizing segs b l l' with
  | nil =>
    cases segs with
    | nil => rfl
    | cons v rest =>
      obtain ⟨eq, more⟩ := linked_head linked linked' (List.cons_ne_nil u post)
        (same b (List.mem_cons_self ..)) small small'
      obtain ⟨z, rest, rfl⟩ := List.exists_cons_of_ne_nil more
      rw [List.forall_mem_cons, List.forall_mem_cons] at lengths
      have room : b + 32 + v.length + 32 + z.length ≤ fin b (v :: z :: rest) := le_fin
      have head := linked'.2.1
      rw [eq] at head
      have cut : (hd' (BitVec.ofNat 64 (b + 32 + t.length))).length = 0 := cut
      rw [head] at cut
      exact absurd cut (ofNat_ne_zero lengths.2.1 (by omega))
  | cons r pre ih =>
    cases segs with
    | nil => rfl
    | cons v rest =>
      rw [List.cons_append, headers, List.forall_mem_cons] at same
      have more : pre ++ t :: u :: post ≠ [] :=
        List.append_ne_nil_of_right_ne_nil _ (List.cons_ne_nil t _)
      obtain ⟨eq, more'⟩ := linked_head linked linked' more same.1 small small'
      have tail := linked'.2
      have small'' : fin (b + 32 + v.length) rest < 2 ^ 64 := small'
      rw [eq] at tail small''
      exact absurd (ih linked.2 tail same.2 cut small small'' (List.forall_mem_cons.mp lengths).2)
        more'

end

/-! ### On the machine -/

open Paging (spaceFrames)

/-- The heap after its first call, for a pool. -/
theorem machine_sound : ∃ h : Heap, h.heapStart = 0x7f0000000000 ∧ h.heapEnd = 0x7f0000100000 ∧
    Sound h (grant (fun _ => none) 0x7f0000000020 24) [⟨32, false⟩, ⟨0xfffa0, true⟩] := by
  obtain ⟨h, -, init, start, ends, tiled, -⟩ := @Supply.first_malloc spaceFrames (2 ^ 28 - 1) _ _
    machineWorld.heap 24 (machine_supply (Nat.zero_le _)) rfl rfl
  refine ⟨h, start, ends, tiled, init, by rw [ends]; decide, ?_⟩
  rw [start, show blocks _ _ = [(0x7f0000000020, 32)] from rfl]
  constructor
  · intro p n there
    by_cases same : p = 0x7f0000000020
    · subst same
      rw [grant_self (by decide)] at there
      cases there
      exact ⟨_, List.mem_singleton_self _, rfl, by decide⟩
    · rw [grant_of_ne (Or.inr same)] at there
      cases there
  · intro b mem
    rw [List.mem_singleton.mp mem]
    exact ⟨24, grant_self (by decide)⟩

section
variable {g : Nat → Addr} {fuel i : Nat} {k k₁ : Kernel} {q : Addr} {live : Addr → Option Nat}

/-- The next pool is behind the first block. -/
theorem machine_newPool (start : k.heap.heapStart = 0x7f0000000000)
    (ends : k.heap.heapEnd = 0x7f0000100000)
    (sound : Sound k.heap live [⟨32, false⟩, ⟨0xfffa0, true⟩]) :
    ∃ h, k.newPool g 3 = some (0x7f0000000060, { k with heap := h }) ∧
      h.heapStart = 0x7f0000000000 ∧ h.heapEnd = 0x7f0000100000 ∧ h.heapInitialized = true ∧
      Tiled h [⟨32, false⟩, ⟨32, false⟩, ⟨0xfff60, true⟩] := by
  have fits : Fits 32 ⟨0xfffa0, true⟩ := ⟨rfl, by decide⟩
  obtain ⟨h, mid, s, post, eq, fit, skips, call, taken, tables⟩ :=
    @Tiled.malloc_fits k.heap g 2 32 _ 24 sound.tiled sound.initialized rfl (by decide) rfl
      (by decide) (by rw [ends]; decide)
      ⟨_, List.mem_cons_of_mem _ (List.mem_singleton_self _), fits⟩ (by decide)
  have place : mid = [⟨32, false⟩] ∧ s = ⟨0xfffa0, true⟩ ∧ post = [] := by
    rcases mid with _ | ⟨t, _ | ⟨u, mid⟩⟩
    · obtain ⟨rfl, -⟩ := List.cons.inj eq
      exact absurd fit.1 (by decide)
    · obtain ⟨rfl, rest⟩ := List.cons.inj eq
      obtain ⟨rfl, rfl⟩ := List.cons.inj rest
      exact ⟨rfl, rfl, rfl⟩
    · obtain ⟨-, rest⟩ := List.cons.inj eq
      obtain ⟨-, rest⟩ := List.cons.inj rest
      exact absurd rest.symm (List.append_ne_nil_of_right_ne_nil _ (List.cons_ne_nil _ _))
  obtain ⟨rfl, rfl, rfl⟩ := place
  refine ⟨h, ?_, taken.start.trans start, taken.ends.trans ends,
    taken.initialized.trans sound.initialized, taken.tiled⟩
  rw [newPool, poolSize, call, start]
  simp only [Option.bind_eq_bind, Option.bind_some, tables, Nat.sub_self, Pmm.mallocPages]
  rfl

/-- A pool of one page, once there is a block for it. -/
theorem machine_allocPool (machine : Pmm.MachineAt i k₁.pmm) (pos : 0 < i) (lt : i < 16384)
    (allowing : k.pmm.allowing = true)
    (select : { k with written := [] }.selectPool g fuel = some (q, k₁)) :
    ∃ base k', k.pmmAllocPool g fuel 1 = some (base, some q, k') ∧
      Within (InRange (q + 8) 16) k₁ k' := by
  obtain ⟨c, found, start⟩ := @Pmm.machine_poolSection _ _ 1 machine (by omega)
  obtain ⟨s', lock, -⟩ := Pmm.machine_lockPool machine pos lt
  rw [← start] at lock
  let k₂ := (k₁.set (q + 8) (BitVec.ofNat 64 1)).set (q + 16)
    (BitVec.ofNat 64 (k₁.pmm.sec c).start)
  have call : k.pmmAllocPool g fuel 1 =
      some ((k₁.pmm.sec c).start, some q, { k₂ with pmm := s' }) := by
    rw [pmmAllocPool, allowing]
    apply Option.bind_eq_some_iff.mpr
    refine ⟨(q, k₁), select, Option.bind_eq_some_iff.mpr ⟨some c, ?_, ?_⟩⟩
    · exact congrArg Except.toOption found
    · exact Option.bind_eq_some_iff.mpr ⟨s', congrArg Except.toOption lock, rfl⟩
  obtain ⟨q', k₁', select', -, -, within⟩ := pmmAllocPool_open allowing call
  obtain ⟨rfl, rfl⟩ := Prod.mk.inj (Option.some.inj (select.symm.trans select'))
  exact ⟨_, _, call, within⟩

/-- The stores of a call, as a step of a run. -/
theorem Within.alloc {s : Owned} {base : Nat} (within : Within (InRange (q + 8) 16) k₁ k)
    (call : s.kernel.pmmAllocPool g fuel 1 = some (base, some q, k))
    (ends : k₁.heap.heapEnd = 0x7f0000100000) :
    s.Alloc g 1 base (some q) ⟨k, grant s.live q 24⟩ := by
  refine ⟨⟨fuel, call⟩, rfl, fun _ => ?_⟩
  obtain ⟨m, eq⟩ := within.rest
  show k.heap.heapEnd.toNat < 2 ^ 47
  rw [eq]
  show k₁.heap.heapEnd.toNat < 2 ^ 47
  rw [ends]
  decide

/-- What is left of the header behind the first pool is no header. -/
theorem machine_cut {h : Heap} {pmm : Pmm.State} (start : h.heapStart = 0x7f0000000000)
    (tiled : Tiled h [⟨32, false⟩, ⟨32, false⟩, ⟨0xfff60, true⟩])
    (within : Within (InRange (0x7f0000000060 + 8) 16)
      (set { clear ⟨h, 0, pmm, []⟩ 0x7f0000000060 0x1000 with pmmPools := 0x7f0000000060 }
        0x7f0000000060 0) k) : ¬ ∃ segs, Tiled k.heap segs := by
  rintro ⟨segs, tiled'⟩
  obtain ⟨m, eq⟩ := within.rest
  have start' : k.heap.heapStart.toNat = 0x7f0000000000 := by
    rw [eq]
    exact congrArg BitVec.toNat start
  have linked := tiled.linked
  have ends := tiled.ends
  have linked' := tiled'.linked
  have ends' := tiled'.ends
  rw [start] at linked ends
  rw [start'] at linked' ends'
  have outside (x : Addr) (off : ¬ InRange 0x7f0000000060 0x1000 x) : k.heap.mem x = h.mem x := by
    rw [within.same]
    · show store (memset h.mem _ _ _) _ _ x = _
      rw [store_of_not, memset_of_not off]
      exact fun near => off (Nat.lt_of_lt_of_le near (by decide))
    · exact fun near => off (InRange.within (i := 8) near (by decide) (by decide))
  have cleared (x : Addr) (near : InRange 0x7f0000000080 8 x) : k.heap.mem x = 0 := by
    rw [inRange_iff (by decide)] at near
    have low : 0x7f0000000080 ≤ x.toNat := near.1
    have high : x.toNat < 0x7f0000000088 := near.2
    rw [within.same]
    · show store (memset h.mem _ _ _) _ _ x = _
      rw [store_of_not, memset, if_pos]
      · rw [inRange_iff (by decide)]
        show 0x7f0000000060 ≤ x.toNat ∧ x.toNat < 0x7f0000001060
        omega
      · rw [inRange_iff (by decide)]
        show ¬ (0x7f0000000060 ≤ x.toNat ∧ x.toNat < 0x7f0000000068)
        omega
    · rw [inRange_iff (by decide)]
      show ¬ (0x7f0000000068 ≤ x.toNat ∧ x.toNat < 0x7f0000000078)
      omega
  apply tiled'.nonempty
  refine @linked_cut _ _ _ _ _ _ _ _ [⟨32, false⟩] _ linked linked' ?_ ?_ ?_ ?_ ?_
  · intro c mem
    have low : c = 0x7f0000000000 ∨ c = 0x7f0000000040 := by
      rcases List.mem_cons.mp mem with rfl | mem
      · exact Or.inl rfl
      · exact Or.inr (List.mem_singleton.mp mem)
    apply header_congr
    intro x near
    apply outside
    rw [inRange_iff (by decide)]
    show ¬ (0x7f0000000060 ≤ x.toNat ∧ x.toNat < 0x7f0000001060)
    rcases low with rfl | rfl
    · rw [inRange_iff (by decide)] at near
      have high : x.toNat < 0x7f0000000020 := near.2
      omega
    · rw [inRange_iff (by decide)] at near
      have high : x.toNat < 0x7f0000000060 := near.2
      omega
  · show load k.heap.mem 0x7f0000000080 = 0
    have zero : load k.heap.mem 0x7f0000000080 = load (fun _ => 0) 0x7f0000000080 :=
      load_congr fun x near => cleared x near
    rw [zero]
    rfl
  · show fin 0x7f0000000000 _ < _
    exact ends ▸ h.heapEnd.isLt
  · exact ends' ▸ k.heap.heapEnd.isLt
  · exact fun v mem => (tiled'.lengths v mem).1

end

/-- The first pool takes the header behind its block with it: its descriptor has 24 bytes and 4096
are cleared. What is left is no chain of headers. -/
theorem pmmAllocPool_not_first : ∃ s s' base pool, s.Ready ∧
    s.Alloc spaceFrames 1 base pool s' ∧ ¬ Owned.Respects s s' pool s.Link ∧
    ¬ ∃ segs, Tiled s'.kernel.heap segs := by
  obtain ⟨h, start, ends, sound⟩ := machine_sound
  obtain ⟨pmm, -, machine, -⟩ := Pmm.machine_start
  let s : Owned := ⟨⟨h, 0, pmm, []⟩, grant (fun _ => none) 0x7f0000000020 24⟩
  obtain ⟨h₁, new, start₁, ends₁, init₁, tiled₁⟩ :=
    @machine_newPool spaceFrames s.kernel s.live start ends sound
  have select : s.kernel.selectPool spaceFrames 3 = some (0x7f0000000060, _) :=
    Option.bind_eq_some_iff.mpr ⟨_, new, rfl⟩
  obtain ⟨base, k', call, within⟩ :=
    @machine_allocPool spaceFrames 3 257 s.kernel _ _ machine (by decide)
      (by decide) machine.1 select
  have broken := machine_cut start₁ tiled₁ within
  refine ⟨s, _, base, _, ⟨Or.inr ⟨_, sound⟩, [], rfl⟩, within.alloc call ends₁, ?_, broken⟩
  intro respects
  apply broken
  apply respects.tiled
  obtain ⟨m, eq⟩ := within.rest
  show k'.heap.heapInitialized = true
  rw [eq]
  exact init₁

/-- A pool that is not the first. -/
theorem pmmAllocPool_respects_second : ∃ s s' base pool, s.Ready ∧ s.Later ∧
    s.Alloc spaceFrames 1 base pool s' ∧ Owned.Respects s s' pool s.Link := by
  obtain ⟨h, start, ends, sound⟩ := machine_sound
  obtain ⟨pmm, -, machine, -⟩ := Pmm.machine_start
  let q : Addr := 0x7f0000000020
  let s : Owned := ⟨⟨{ h with mem := store h.mem q 0 }, q, pmm, []⟩, grant (fun _ => none) q 24⟩
  have nonzero : q ≠ 0 := by decide
  have there : s.live q = some 24 := @grant_self 24 q (fun _ => none) nonzero
  have sound' : Sound s.kernel.heap s.live [⟨32, false⟩, ⟨0xfffa0, true⟩] := by
    apply sound.write
    intro x changed
    refine ⟨q, 24, there, ?_⟩
    by_contra off
    exact changed (store_of_not fun near => off (Nat.lt_of_lt_of_le near (by decide)))
  have zero : load s.kernel.heap.mem q = 0 := load_store 0
  have ready : s.Ready := ⟨Or.inr ⟨_, sound'⟩, [q], rfl, nonzero, there, zero⟩
  obtain ⟨h₁, new, start₁, ends₁, -, -⟩ :=
    @machine_newPool spaceFrames s.kernel s.live start ends sound'
  have walk : lastPool s.kernel.heap 3 q = some q := by
    rw [lastPool, if_pos zero]
  have select : s.kernel.selectPool spaceFrames 3 = some (0x7f0000000060,
      ({ s.kernel with heap := h₁ }.set q 0x7f0000000060).set 0x7f0000000060 0) := by
    rw [selectPool, if_neg nonzero]
    exact Option.bind_eq_some_iff.mpr ⟨q, walk, Option.bind_eq_some_iff.mpr ⟨_, new, rfl⟩⟩
  obtain ⟨base, k', call, within⟩ :=
    @machine_allocPool spaceFrames 3 257 s.kernel _ _ machine (by decide)
      (by decide) machine.1 select
  have alloc := within.alloc call ends₁
  have later : s.Later := Or.inr nonzero
  have run : Owned.Runs spaceFrames s s := Relation.ReflTransGen.refl
  exact ⟨s, _, base, _, ready, later, alloc,
    (pmmAllocPool_respects ready run alloc).1.mpr later⟩

end Skylight.Heap
