import Skylight.Laws.Pmm.Contracts

/-!
# Pools that are not there

`pmm_alloc_pool` links its record before it looks for the pages and never takes it out again. A
request that fails answers `NULL` and changes no page, but the record stays, with the number of
pages that was asked for.

`failed_pool_traced` says so of every state that a client reaches from a valid map, and of every
request that no section can hold: there is no such request that leaves no trace. The pages that
`malloc` maps for the record itself are not counted as one.
-/

namespace Skylight.Pmm

open Chain RunLength

/-- No free section of the list has `n` pages. -/
def NoSection (s : State) (n : Nat) : Prop :=
  ∃ l, Represents s l ∧ ∀ v ∈ data l, v.free = .free → v.pages < n

/-- `NULL` is answered, the pools are those before, and the pages are as they were but for those of
the heap. -/
def LeavesNoTrace (s : State) (f : PageMap) (n : Nat) (m : Malloc) : Prop :=
  ∃ taken s' g, pmmAllocPool s n m = .ok (0, taken, s') ∧ TakesEach f taken g ∧ Shows s' g ∧
    s'.pools = s.pools

/-- `NULL` is answered and the pages are as they were but for those of the heap; one record more is
in the list. -/
def LeavesRecord (s : State) (f : PageMap) (n : Nat) (m : Malloc)
    (r : Nat × List Nat × State) : Prop :=
  r.1 = 0 ∧ (∃ g, TakesEach f r.2.1 g ∧ Shows r.2.2 g) ∧
    r.2.2.pools = s.pools ++ [⟨n, if s.pools = [] then 0 else m.stale⟩]

section
variable {s s' : State} {f g : PageMap} {n k p : Nat} {taken : List Nat} {m : Malloc}

/-- `pmm_alloc_page` does not look at the pools. -/
theorem Manages.allocPage_pools (h : Manages s f) (run : pmmAllocPage s = .ok (p, s')) :
    s'.pools = s.pools := by
  obtain ⟨l, hr, lay, -⟩ := h.list
  obtain ⟨l', -, -, -, -, -, -, pools, -⟩ := (pmmAllocPage_yields hr lay h.open_).of_ok run
  exact pools

/-- The pages of the heap are taken without a look at the pools. -/
theorem Manages.mallocPages_pools {i : Nat} : ∀ {s : State} {f : PageMap}, Manages s f →
    Yields OutOfSections (fun r => r.2.pools = s.pools) (Pmm.mallocPages i s) := by
  induction i with
  | zero => exact fun {s f} _ => rfl
  | succ i ih =>
    intro s f h
    cases run : pmmAllocPage s with
    | error e =>
      have out := h.allocPage
      rw [run] at out
      show Yields _ _ (pmmAllocPage s >>= _)
      rw [run]
      exact out
    | ok r =>
      obtain ⟨p, s₁⟩ := r
      have same := h.allocPage_pools run
      obtain ⟨g, h₁⟩ : ∃ g, Manages s₁ g := by
        rcases h.allocPage.of_ok run with ⟨-, h₁, -⟩ | ⟨-, g, -, -, h₁⟩
        · exact ⟨f, h₁⟩
        · exact ⟨g, h₁⟩
      show Yields _ _ (pmmAllocPage s >>= _)
      rw [run]
      apply (ih h₁).bind
      intro r pools
      exact pools.trans same

/-- A page that is free after pages were taken was free before. -/
theorem TakesEach.free : ∀ {taken : List Nat} {f g : PageMap}, TakesEach f taken g →
    g k = some .free → f k = some .free := by
  intro taken
  induction taken with
  | nil =>
    rintro f g rfl free
    exact free
  | cons p taken ih =>
    intro f g each free
    rw [TakesEach] at each
    split at each
    · exact ih each free
    · obtain ⟨j, f', -, ⟨-, -, rfl⟩, each⟩ := each
      have before := ih each free
      by_cases inside : j ≤ k ∧ k < j + 1
      · rw [fill_inside inside.1 inside.2] at before
        cases before
      · rwa [fill_outside inside] at before

/-- The walk of `pmm_alloc_page` over sections none of which is free. -/
theorem allocPageLoop_none {l₂ : List (Nat × Section)} :
    ∀ {l₁ : List (Nat × Section)} {fuel : Nat}, Represents s (l₁ ++ l₂) →
      (∀ v ∈ data l₂, v.free ≠ .free ∧ v.pages ≠ 0) → l₂.length ≤ fuel →
      allocPageLoop fuel s (headOr l₂ none) = .ok (0, s) := by
  induction l₂ with
  | nil =>
    intro l₁ fuel _ _ _
    cases fuel <;> rfl
  | cons x l₂ ih =>
    obtain ⟨a, v⟩ := x
    intro l₁ fuel h passed enough
    obtain ⟨fuel, rfl⟩ : ∃ i, fuel = i + 1 := ⟨fuel - 1, by simp at enough; omega⟩
    obtain ⟨kind, some⟩ := passed v (by simp)
    rw [headOr_cons, allocPageLoop, h.sec_eq, if_neg some, if_neg kind, h.next_eq]
    apply @ih (l₁ ++ [(a, v)]) fuel (by simpa using h)
    · exact fun w mem => passed w (by simp [mem])
    · simpa using enough

/-- With no page left `malloc` is answered `NULL` every time. -/
theorem mallocPages_none (alloc : pmmAllocPage s = .ok (0, s)) :
    ∀ i, Pmm.mallocPages i s = .ok (List.replicate i 0, s) := by
  intro i
  induction i with
  | zero => rfl
  | succ i ih =>
    show (pmmAllocPage s >>= _) = _
    rw [alloc]
    show (Pmm.mallocPages i s >>= _) = _
    rw [ih]
    rfl

/-- Without a free section there is none after the heap took its pages. -/
theorem Manages.noSection (h : Manages s f) (none : NoSection s n) :
    Yields OutOfSections (fun r => NoSection r.2 n) (Pmm.mallocPages k s) := by
  obtain ⟨l, hr, lay, apart, types⟩ := h.list
  obtain ⟨l', hr', short⟩ := none
  obtain rfl := hr.unique hr'
  cases n with
  | zero =>
    have kinds : ∀ v ∈ data l, v.free ≠ .free ∧ v.pages ≠ 0 := by
      intro v mem
      have kind : v.free ≠ .free := fun free => Nat.not_lt_zero _ (short v mem free)
      exact ⟨kind, fun empty => kind (lay.empty v mem empty)⟩
    have walk := @allocPageLoop_none s l [] s.fuel hr kinds
      (by have := hr.length_le; simp only [State.fuel]; omega)
    have alloc : pmmAllocPage s = .ok (0, s) := by
      unfold pmmAllocPage
      rw [if_neg (not_not.mpr h.open_), hr.first_eq, walk]
      rfl
    rw [mallocPages_none alloc]
    exact ⟨l, hr, short⟩
  | succ n =>
    apply h.mallocPages.imp
    rintro ⟨taken, t⟩ ⟨g, each, ht⟩
    obtain ⟨m, hm, laym, -, typesm⟩ := ht.list
    refine ⟨m, hm, fun v mem free => ?_⟩
    by_contra long
    -- a long section holds a run of free pages, and they were free before
    obtain ⟨before, after, split⟩ := List.append_of_mem mem
    have run : ∀ j < n + 1, f (pagesOf before + j) = some .free := by
      intro j lt
      apply each.free
      rw [← typesm, split, ← free, typeAt, runs_append, runs_cons]
      exact valueAt_run (Nat.le_add_right ..)
        (Nat.add_lt_add_left (Nat.lt_of_lt_of_le lt (Nat.le_of_not_lt long)) _)
    rw [← types] at run
    obtain ⟨w, memw, longw, freew⟩ := lay.free_run apart (Nat.succ_pos n) run
    exact absurd (short w memw freew) (Nat.not_lt.mpr longw)

/-- A request that fails leaves its record. -/
theorem Manages.leavesRecord (h : Manages s f) (none : NoSection s n) (m : Malloc) :
    Yields OutOfSections (LeavesRecord s f n m) (pmmAllocPool s n m) := by
  unfold pmmAllocPool
  rw [if_neg (not_not.mpr h.open_)]
  have pages := h.mallocPages (n := m.pages)
  have pools := h.mallocPages_pools (i := m.pages)
  have short := @Manages.noSection s f n m.pages h none
  cases run : Pmm.mallocPages m.pages s with
  | error e =>
    rw [run] at pages
    exact pages
  | ok r =>
    obtain ⟨taken, t⟩ := r
    obtain ⟨g, each, ht⟩ := pages.of_ok run
    obtain ⟨l, hr, short⟩ : NoSection t n := short.of_ok run
    have same := pools.of_ok run
    have walk : poolSection n t.fuel t t.first = .ok Option.none := by
      rcases @poolSection_ends t n l hr with
        ⟨walk, -⟩ | ⟨k, a, v, q, rfl, long, free, -⟩
      · exact walk
      · exact absurd (short v (by simp) free) (Nat.not_lt.mpr long)
    obtain ⟨t', run', ht'⟩ := (ht.withPools
      (t.pools ++ [⟨n, if s.pools = [] then 0 else m.stale⟩])).recombine
    have kept : t'.pools = t.pools ++ [⟨n, if s.pools = [] then 0 else m.stale⟩] := by
      obtain ⟨q, hq, -⟩ := (ht.withPools
        (t.pools ++ [⟨n, if s.pools = [] then 0 else m.stale⟩])).list
      obtain ⟨t'', q', run'', joined, -⟩ := @pmmRecombine_ends (fun _ => True)
        (fun _ _ _ _ _ _ => trivial) _ q hq trivial
      rw [run'] at run''
      rw [Except.ok.inj run'']
      exact joined.same.pools
    simp only [ok_bind, walk, run', pure_eq_ok]
    refine ⟨rfl, ⟨g, each, ht'.shows⟩, ?_⟩
    rw [kept, same]

/-- A record that is left is a trace. -/
theorem LeavesRecord.traced {r : Nat × List Nat × State} (h : LeavesRecord s f n m r) :
    r.2.2.pools ≠ s.pools := by
  rw [h.2.2]
  intro same
  simpa using congrArg List.length same

end

/-- In every run of a client from the state `pmm_start` builds of a valid map: no request that
fails goes without a trace, and what it leaves is its record. -/
theorem failed_pool_traced {memory : Nat → Descriptor} {map : List MemoryMapEntry} {s₀ : State}
    {c : Client} (valid : ValidMap map) (start : pmmStart memory map = .ok s₀)
    (run : Relation.ReflTransGen Client.Step (Client.start s₀) c) :
    ∃ f, Shows c.mem f ∧ ∀ n m, NoSection c.mem n → ¬ LeavesNoTrace c.mem f n m ∧
      Yields OutOfSections (LeavesRecord c.mem f n m) (pmmAllocPool c.mem n m) := by
  obtain ⟨l₀, h₀⟩ := pmmStart_ok valid start
  obtain ⟨f, sound⟩ := Sound.run ⟨_, sound_start h₀⟩ run
  refine ⟨f, sound.manages.shows, fun n m none => ?_⟩
  have leaves := sound.manages.leavesRecord none m
  refine ⟨?_, leaves⟩
  rintro ⟨taken, s', g, fails, -, -, same⟩
  exact (leaves.of_ok fails).traced same

/-! ### On the machine -/

/-- A pool larger than the memory. -/
theorem machine_noSection {i n : Nat} {s : State} (h : MachineAt i s) (more : 16385 - i < n) :
    NoSection s n := by
  obtain ⟨-, l, hr, hl⟩ := h
  refine ⟨l, hr, ?_⟩
  rw [hl]
  simp only [machineList, firstSection, List.forall_mem_cons, List.not_mem_nil, reduceCtorEq,
    false_implies, true_implies, implies_true, true_and, and_true]
  exact more

/-- On the machine, after `pmm_start`. -/
theorem failed_pool_traced_machine : ∃ s₀ f, pmmStart machineMemory machineMap = .ok s₀ ∧
    Shows s₀ f ∧ NoSection s₀ 20000 ∧ ¬ LeavesNoTrace s₀ f 20000 ⟨0, 0⟩ := by
  obtain ⟨s₀, start, h₀, -⟩ := machine_start
  obtain ⟨f, shows, traced⟩ := failed_pool_traced machineMap_valid start .refl
  have none := @machine_noSection _ 20000 _ h₀ (by decide)
  exact ⟨s₀, f, start, shows, none, (traced 20000 ⟨0, 0⟩ none).1⟩

/-- A pool of 20000 pages of the machine's 16384 leaves its record. -/
theorem failed_pool_not_traceless : ¬ ∀ (memory : Nat → Descriptor) (map : List MemoryMapEntry)
    (s₀ : State) (c : Client) (f : PageMap) (n : Nat) (m : Malloc), ValidMap map →
    pmmStart memory map = .ok s₀ → Relation.ReflTransGen Client.Step (Client.start s₀) c →
    Shows c.mem f → NoSection c.mem n → LeavesNoTrace c.mem f n m := by
  intro all
  obtain ⟨s₀, start, h₀, -⟩ := machine_start
  obtain ⟨l₀, started⟩ := pmmStart_ok machineMap_valid start
  have none := @machine_noSection _ 20000 _ h₀ (by decide)
  have manages := (sound_start started).manages
  obtain ⟨taken, s', g, fails, -, -, same⟩ := all _ _ _ _ _ 20000 ⟨0, 0⟩ machineMap_valid start
    .refl manages.shows none
  exact ((manages.leavesRecord none _).of_ok fails).traced same

end Skylight.Pmm
