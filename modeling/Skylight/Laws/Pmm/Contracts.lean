import Skylight.Laws.Pmm.Pools

/-!
# The contracts of the physical memory manager

What the manager promises its callers, over the runs and the states the other modules describe.

The map is represented (`pmmStart_showsMap`): from every valid map with a place for the
descriptors `pmm_start` answers with a list that shows each page the kind the map gives it,
unless it runs out of slots for its sections, and there is a map on which it does. Memory is
handed out once (`no_double_allocation`): in every run of a client no byte is out twice, none
lies outside of the free entries, and none among the descriptors. Pages are found wherever they
are (`allocation_complete`), and locking is exact (`locking_exact`). A page freed is free again
only where `freesPage` says so (`pmmFreePage_freesOne`); the condition is exact.

Runs are of calls that answer: a call that finds no descriptor left is no step of a run, and
that the descriptors last is not claimed. What the counter of free memory says is in
`Laws.Pmm.Counter`, what becomes of pools in `Laws.Pmm.Pools`, `Laws.Pmm.Realloc` and
`Laws.Pmm.Traces`. A map is valid when it begins with the first megabyte in use and its entries
are in order, on whole pages, with bad memory behind them; maps of any other shape are the
subject of `Laws.Pmm.Listed`.
-/

namespace Skylight.Pmm

open Chain RunLength

/-! ## The map is represented -/

/-- The list covers the memory up to the end of the last entry and shows each page its kind:
free in a free entry but for the descriptors, used in a busy entry and under the descriptors,
bad elsewhere. -/
def ShowsMap (map : List MemoryMapEntry) (s : State) : Prop :=
  ∃ l, Represents s l ∧ Contiguous 0 (data l) ∧
    (∃ e, map.getLast? = some e ∧ pagesOf (data l) * pageSize = e.fin) ∧
    ∀ p < pagesOf (data l),
      (typeAt (data l) p = some .free ↔
        (∃ e ∈ map, e.signal = memoryMapFree ∧ Covers e p) ∧ ¬ Metadata s p) ∧
      (typeAt (data l) p = some .used ↔
        (∃ e ∈ map, e.signal = memoryMapBusy ∧ Covers e p) ∨ Metadata s p) ∧
      (typeAt (data l) p = some .bad ↔
        ¬ ((∃ e ∈ map, e.signal = memoryMapFree ∧ Covers e p) ∧ ¬ Metadata s p) ∧
        ¬ ((∃ e ∈ map, e.signal = memoryMapBusy ∧ Covers e p) ∨ Metadata s p))

/-- A free entry can hold the descriptors. -/
def HasPlace (map : List MemoryMapEntry) : Prop :=
  ∃ e ∈ map, e.signal = memoryMapFree ∧ dataSizeFor (exploreMap map) ≤ e.length

/-- The list that `pmm_start` leaves shows the map. -/
theorem Started.showsMap {map : List MemoryMapEntry} (valid : ValidMap map) {s : State}
    {l : List (Nat × Section)} (h : Started map s l) : ShowsMap map s := by
  have order := valid.inOrder_all
  obtain ⟨e, he, -⟩ := valid.last
  obtain ⟨b, n, hb, hn⟩ := order.aligned e (List.mem_of_getLast? he)
  refine ⟨l, h.list, h.layout.contiguous, ⟨e, he, ?_⟩, fun p hp => ?_⟩
  · rw [h.pages, endPage_eq he, (fin_div hb hn).2, (fin_div hb hn).1]
  rw [h.pages] at hp
  rw [← order.kindIn_free, ← order.kindIn_used]
  by_cases inside : Metadata s p
  · obtain ⟨used, free⟩ := h.inside p inside
    simp [used, inside]
  · rw [h.outside p hp inside]
    cases kindIn map p <;> simp [inside]

/-- `pmm_start` represents every valid map whose sections its descriptor array can hold: it
answers, and each page has the kind that the map gives it. -/
theorem pmmStart_showsMap {memory : Nat → Descriptor} {map : List MemoryMapEntry}
    (valid : ValidMap map) (place : HasPlace map)
    (slots : pmmStart memory map ≠ .error .noSection) :
    ∃ s, pmmStart memory map = .ok s ∧ ShowsMap map s := by
  obtain ⟨e, he⟩ : ∃ e, metadataEntry map = some e := by
    obtain ⟨e, mem, hfree, hsize⟩ := place
    refine Option.isSome_iff_exists.mp (List.find?_isSome.mpr ⟨e, mem, ?_⟩)
    simpa using ⟨hfree, hsize⟩
  have start := (@pmmStart_yields memory map valid e he).imp fun s ⟨l, h⟩ => h.showsMap valid
  refine start.exists_ok fun f hf out => ?_
  rw [show f = .noSection from out] at hf
  exact slots hf

/-- The map of the machine. -/
theorem pmmStart_showsMap_machine :
    ∃ s, pmmStart machineMemory machineMap = .ok s ∧ ShowsMap machineMap s := by
  refine pmmStart_showsMap machineMap_valid
    ⟨⟨0x101000, 0x4000000, memoryMapFree⟩, by simp [machineMap], rfl, by decide⟩ ?_
  obtain ⟨s, run, -⟩ := machine_start
  rw [run]
  simp

/-- Free memory up to the last page of the address space: rounded up, its size is zero as a
word, and the descriptor array has no slots. -/
def vastMap : List MemoryMapEntry :=
  [⟨0, 0x100000, memoryMapNouse⟩, ⟨0x100000, 0xffffffffffeff000, memoryMapFree⟩,
    ⟨0xfffffffffffff000, 0x1000, memoryMapNouse⟩]

/-- The size of the array wraps to nothing, and there is no slot for the first section. -/
theorem vastMap_fails : pmmStart machineMemory vastMap = .error .noSection := by
  have size : dataSizeFor (exploreMap vastMap) = 0 := by decide
  have place : metadataEntry vastMap = some ⟨0x100000, 0xffffffffffeff000, memoryMapFree⟩ := by
    decide
  rw [pmmStart, @pmmBuild_eq machineMemory vastMap _ _ vastMap.tail rfl place (by decide) rfl,
    vastMap, List.tail_cons, startLoop_noSlots size (by
      simp [State.sec, firstState, firstSection])]
  rfl

/-- So not every map with a place for the descriptors is represented. -/
theorem pmmStart_showsMap_not_all : ¬ ∀ (memory : Nat → Descriptor) (map : List MemoryMapEntry),
    ValidMap map → HasPlace map → ∃ s, pmmStart memory map = .ok s ∧ ShowsMap map s := by
  intro all
  have valid : ValidMap vastMap :=
    { words := by decide, first := rfl, bases := by decide, lengths := by decide,
      sorted := by decide, disjoint := by decide, last := ⟨_, rfl, Or.inr rfl⟩ }
  obtain ⟨s, run, -⟩ := all machineMemory vastMap valid
    ⟨⟨0x100000, 0xffffffffffeff000, memoryMapFree⟩, by simp [vastMap], rfl, by decide⟩
  rw [vastMap_fails] at run
  cases run

/-! ## Memory is handed out once -/

/-- What holds of a client and its manager: the list is linked and contiguous, no legal call
follows a null link or runs for ever, and the runs of pages held are disjoint, inside the free
entries of the map and outside the descriptors. -/
structure ClientSafe (map : List MemoryMapEntry) (s₀ : State) (c : Client) : Prop where
  list : ∃ l, Represents c.mem l ∧ Layout (data l)
  calls : ∀ op, c.Legal op → Yields OutOfSections (fun _ => True) (c.step op)
  apart : c.held.Pairwise fun a b => Disjoint (bytes a) (bytes b)
  inside : ∀ b ∈ c.held, ∀ x ∈ bytes b,
    (∃ e ∈ map, e.signal = memoryMapFree ∧ e.base ≤ x ∧ x < e.fin) ∧
    ¬ (s₀.pmmSections ≤ x ∧ x < s₀.pmmSections + pagesFor s₀.dataSize * pageSize)

/-- Every run of a client from the state `pmm_start` builds of a valid map is safe: what is out
are free pages of the map, none twice and none of the manager's own, and no call follows a null
link. -/
theorem no_double_allocation {memory : Nat → Descriptor} {map : List MemoryMapEntry} {s₀ : State}
    {c : Client} (valid : ValidMap map) (start : pmmStart memory map = .ok s₀)
    (run : Relation.ReflTransGen Client.Step (Client.start s₀) c) : ClientSafe map s₀ c := by
  obtain ⟨l₀, h₀⟩ := pmmStart_ok valid start
  obtain ⟨f, sound⟩ := Sound.run ⟨_, sound_start h₀⟩ run
  obtain ⟨l, hr, lay, -⟩ := sound.manages.list
  have pos : 0 < pageSize := by simp [pageSize]
  refine ⟨⟨l, hr, lay⟩, fun op legal => (sound.step legal).imp fun _ _ => trivial,
    List.pairwise_map.mp sound.ledger.disjoint, fun b hb x hx => ?_⟩
  have avail := (sound.ledger.held_sub _ (List.mem_map_of_mem hb) hx).1
  obtain ⟨kind, outside⟩ := h₀.free_iff avail
  have order := valid.inOrder_all
  refine ⟨?_, fun inside => outside ?_⟩
  · obtain ⟨e, mem, hfree, covers⟩ := order.kindIn_free.mp kind
    obtain ⟨k, n, hk, hn⟩ := order.aligned e mem
    have := (covers_iff hk hn).mp covers
    refine ⟨e, mem, hfree, ?_, ?_⟩
    · rw [hk]
      exact (Nat.le_div_iff_mul_le pos).mp this.1
    · rw [(fin_div hk hn).1]
      exact (Nat.div_lt_iff_lt_mul pos).mp this.2
  · obtain ⟨k, hk⟩ := h₀.place
    rw [hk, ← Nat.add_mul] at inside
    rw [Metadata, hk, ← Nat.add_mul]
    exact ⟨Nat.mul_le_mul_right _ ((Nat.le_div_iff_mul_le pos).mpr inside.1),
      Nat.mul_lt_mul_of_pos_right ((Nat.div_lt_iff_lt_mul pos).mpr inside.2) pos⟩

/-- Two pages and a pool of three are out. -/
theorem no_double_allocation_machine : ∃ s₀ c, pmmStart machineMemory machineMap = .ok s₀ ∧
    Client.held c = [(514 * pageSize, 1), (513 * pageSize, 1), (515 * pageSize, 3)] ∧
    ClientSafe machineMap s₀ c := by
  obtain ⟨s₀, c, start, run, held⟩ := machine_busy
  exact ⟨s₀, c, start, held, no_double_allocation machineMap_valid start run⟩

/-! ## Allocation is complete -/

/-- The kind of every page, as the list of the manager has it. -/
def Shows (s : State) (f : PageMap) : Prop := ∃ l, Represents s l ∧ typeAt (data l) = f

/-- The list and the map of pages say the same. -/
theorem Manages.shows {s : State} {f : PageMap} (h : Manages s f) : Shows s f := by
  obtain ⟨l, hr, -, -, types⟩ := h.list
  exact ⟨l, hr, types⟩

/-- Pages are found wherever they are: `NULL` means that there is no free page, or no run of that
many, and any other answer is a run of free pages that is used from then on, all other pages as
they were. A pool is looked for after `malloc` took its pages. -/
structure Completes (s : State) (f : PageMap) : Prop where
  page : Yields OutOfSections (fun r => ∃ g, Shows r.2 g ∧
      ((r.1 = 0 ∧ g = f ∧ ∀ k, f k ≠ some .free) ∨ ∃ k, r.1 = k * pageSize ∧ Takes f k 1 g))
    (pmmAllocPage s)
  pool : ∀ n m, 1 ≤ n → Yields OutOfSections (fun r => ∃ f' g, TakesEach f r.2.1 f' ∧
      Shows r.2.2 g ∧ ((r.1 = 0 ∧ g = f' ∧ ∀ k, ¬ ∀ j < n, f' (k + j) = some .free) ∨
        ∃ k, r.1 = k * pageSize ∧ Takes f' k n g))
    (pmmAllocPool s n m)

/-- A manager in order finds every page, and every pool that fits. -/
theorem Manages.completes {s : State} {f : PageMap} (h : Manages s f) : Completes s f where
  page := h.allocPage.imp fun r ans => by
    rcases ans with ⟨null, hm, none⟩ | ⟨k, g, base, takes, hm⟩
    · exact ⟨f, hm.shows, Or.inl ⟨null, rfl, none⟩⟩
    · exact ⟨g, hm.shows, Or.inr ⟨k, base, takes⟩⟩
  pool n m pos := (h.scanPool n m).imp fun r ⟨f', each, ans⟩ => by
    rcases ans with ⟨null, hm, none⟩ | ⟨k, g, base, takes, hm⟩
    · exact ⟨f', f', each, hm.shows, Or.inl ⟨null, rfl, none pos⟩⟩
    · exact ⟨f', g, each, hm.shows, Or.inr ⟨k, base, takes⟩⟩

/-- In every run of a client from the state `pmm_start` builds of a valid map, `NULL` means that
there is no free page, or no run of free pages that long; any other answer is such a page or
run. -/
theorem allocation_complete {memory : Nat → Descriptor} {map : List MemoryMapEntry} {s₀ : State}
    {c : Client} (valid : ValidMap map) (start : pmmStart memory map = .ok s₀)
    (run : Relation.ReflTransGen Client.Step (Client.start s₀) c) :
    ∃ f, Shows c.mem f ∧ Completes c.mem f := by
  obtain ⟨l₀, h₀⟩ := pmmStart_ok valid start
  obtain ⟨f, sound⟩ := Sound.run ⟨_, sound_start h₀⟩ run
  exact ⟨f, sound.manages.shows, sound.manages.completes⟩

/-- After two calls of `pmm_alloc_page` and one of `pmm_alloc_pool`. -/
theorem allocation_complete_machine : ∃ s₀ c f, pmmStart machineMemory machineMap = .ok s₀ ∧
    Client.held c = [(514 * pageSize, 1), (513 * pageSize, 1), (515 * pageSize, 3)] ∧
    Shows c.mem f ∧ Completes c.mem f := by
  obtain ⟨s₀, c, start, run, held⟩ := machine_busy
  obtain ⟨f, shows, completes⟩ := allocation_complete machineMap_valid start run
  exact ⟨s₀, c, f, start, held, shows, completes⟩

/-! ## Locking is exact -/

/-- The list stays linked and contiguous, and shows the pages `g`. -/
def Leaves (g : PageMap) (s : State) : Prop :=
  ∃ l, Represents s l ∧ Contiguous 0 (data l) ∧ typeAt (data l) = g

/-- A free page is locked by itself, and a run of free pages page by page. -/
structure LocksExactly (s : State) (f : PageMap) : Prop where
  page : ∀ k, f k = some .free → Yields OutOfSections (Leaves (Function.update f k (some .used)))
    (pmmLockPage s (k * pageSize))
  pages : ∀ k n, (∀ j < n, f (k + j) = some .free) →
    Yields OutOfSections (Leaves (fill f k n .used)) (pmmLockPages s (k * pageSize) n)

/-- A manager in order is linked and contiguous. -/
theorem Manages.leaves {s : State} {f : PageMap} (h : Manages s f) : Leaves f s := by
  obtain ⟨l, hr, lay, -, types⟩ := h.list
  exact ⟨l, hr, lay.contiguous, types⟩

/-- One free page is locked. -/
theorem Manages.lockPage {s : State} {f : PageMap} (h : Manages s f) {k : Nat}
    (free : f k = some .free) :
    Yields OutOfSections (fun s' => Manages s' (Function.update f k (some .used)))
      (pmmLockPage s (k * pageSize)) := by
  obtain ⟨l, hr, lay, apart, rfl⟩ := h.list
  apply (pmmLockPage_yields hr lay apart h.open_ free).imp
  intro s' hs'
  obtain ⟨same, l', hr', lay', apart', types⟩ := hs'
  exact ⟨same.allowing.trans h.open_, l', hr', lay', apart', types⟩

/-- A manager in order locks what it is told to, and no more. -/
theorem Manages.locksExactly {s : State} {f : PageMap} (h : Manages s f) : LocksExactly s f where
  page _ free := (h.lockPage free).imp fun _ => Manages.leaves
  pages _ _ free := (h.lockPages free).imp fun _ => Manages.leaves

/-- In every run of a client from the state `pmm_start` builds of a valid map, a free page that
is locked is used then, and no other page is changed; so is a run of free pages. -/
theorem locking_exact {memory : Nat → Descriptor} {map : List MemoryMapEntry} {s₀ : State}
    {c : Client} (valid : ValidMap map) (start : pmmStart memory map = .ok s₀)
    (run : Relation.ReflTransGen Client.Step (Client.start s₀) c) :
    ∃ f, Shows c.mem f ∧ LocksExactly c.mem f := by
  obtain ⟨l₀, h₀⟩ := pmmStart_ok valid start
  obtain ⟨f, sound⟩ := Sound.run ⟨_, sound_start h₀⟩ run
  exact ⟨f, sound.manages.shows, sound.manages.locksExactly⟩

/-- After two calls of `pmm_alloc_page` and one of `pmm_alloc_pool`. -/
theorem locking_exact_machine : ∃ s₀ c f, pmmStart machineMemory machineMap = .ok s₀ ∧
    Client.held c = [(514 * pageSize, 1), (513 * pageSize, 1), (515 * pageSize, 3)] ∧
    Shows c.mem f ∧ LocksExactly c.mem f := by
  obtain ⟨s₀, c, start, run, held⟩ := machine_busy
  obtain ⟨f, shows, locks⟩ := locking_exact machineMap_valid start run
  exact ⟨s₀, c, f, start, held, shows, locks⟩

/-! ## A page freed is free -/

/-- `pmm_free_page` answers, frees page `k` and changes no other page. -/
def FreesOne (s : State) (l : List (Nat × Section)) (k : Nat) : Prop :=
  ∃ s' l', pmmFreePage s (k * pageSize) = .ok s' ∧ Represents s' l' ∧ Contiguous 0 (data l') ∧
    typeAt (data l') = Function.update (typeAt (data l)) k (some .free)

/-- A used page of a well formed list is freed exactly when its place in its section and the
kinds of the neighbours allow it, and a slot can be had where the section must be split. -/
theorem pmmFreePage_freesOne {s : State} {l : List (Nat × Section)} {k : Nat}
    (h : Represents s l) (lay : Layout (data l)) (open_ : s.allowing = true)
    (used : typeAt (data l) k = some .used) :
    FreesOne s l k ↔ freesPage (data l) k = true ∧
      (splitsPage (data l) k = true → (pmmNewSection s).1 ≠ none) := by
  have free := pmmFreePage_yields h lay open_ used
  have has : Has s (splitsPage (data l) k = true) ↔
      (splitsPage (data l) k = true → (pmmNewSection s).1 ≠ none) := by
    refine imp_congr_right fun _ => ?_
    rw [takeSection]
    split <;> simp_all
  constructor
  · rintro ⟨s', l', run, hr, -, types⟩
    obtain ⟨hhas, l'', hr', -, -, -, -, -, -, types'⟩ := free.of_ok run
    obtain rfl := hr.unique hr'
    refine ⟨?_, has.mp hhas⟩
    by_contra no
    rw [Bool.not_eq_true] at no
    rw [no, types] at types'
    have := congrFun types' k
    simp [used] at this
  · rintro ⟨frees, room⟩
    obtain ⟨s', run, -, l', hr, hl, -, -, -, -, -, types⟩ := free.exists_ok fun f hf lacks => by
      obtain ⟨-, need, fails⟩ := lacks
      obtain ⟨r, taken⟩ := has.mpr room need
      rw [fails] at taken
      cases taken
    exact ⟨s', l', run, hr, hl.contiguous, by rw [types, frees, if_pos rfl]⟩

/-- On the machine after two allocations, the second page is freed. -/
theorem pmmFreePage_freesOne_machine : ∃ s l, Represents s l ∧ data l = machineList 259 ∧
    (FreesOne s l 514 ↔ freesPage (data l) 514 = true ∧
      (splitsPage (data l) 514 = true → (pmmNewSection s).1 ≠ none)) := by
  obtain ⟨s₀, -, h₀, -⟩ := machine_start
  obtain ⟨s₁, -, h₁, -⟩ := machine_alloc h₀ (by omega) (by omega)
  obtain ⟨s₂, -, h₂, -⟩ := machine_alloc h₁ (by omega) (by omega)
  obtain ⟨open_, l, hr, hl⟩ := h₂
  exact ⟨s₂, l, hr, hl, pmmFreePage_freesOne hr (hl ▸ machine_layout (by omega) (by omega)) open_
    (by rw [hl]; decide)⟩

/-- The first of the two pages is not: it lies inside its section. -/
theorem pmmFreePage_freesOne_not_all : ¬ ∀ (memory : Nat → Descriptor)
    (map : List MemoryMapEntry) (s₀ : State) (c : Client) (l : List (Nat × Section)) (k : Nat),
    ValidMap map → pmmStart memory map = .ok s₀ →
      Relation.ReflTransGen Client.Step (Client.start s₀) c → Represents c.mem l →
      k * pageSize ∈ c.pages → FreesOne c.mem l k := by
  intro all
  obtain ⟨s₀, start, h₀, -⟩ := machine_start
  obtain ⟨s₁, alloc₁, h₁, -⟩ := machine_alloc h₀ (by omega) (by omega)
  obtain ⟨s₂, alloc₂, h₂, -⟩ := machine_alloc h₁ (by omega) (by omega)
  have step₁ : Client.Step (Client.start s₀) ⟨s₁, [513 * pageSize], []⟩ := by
    refine ⟨.allocPage, trivial, ?_⟩
    simp only [Client.step, Client.start, alloc₁, ok_bind]
    rfl
  have step₂ : Client.Step ⟨s₁, [513 * pageSize], []⟩
      ⟨s₂, [514 * pageSize, 513 * pageSize], []⟩ := by
    refine ⟨.allocPage, trivial, ?_⟩
    simp only [Client.step, alloc₂, ok_bind]
    rfl
  obtain ⟨open_, l, hr, hl⟩ := h₂
  obtain ⟨s', l', run, hr', -, types⟩ := all _ _ _ _ l 513 machineMap_valid start
    ((Relation.ReflTransGen.single step₁).tail step₂) hr (by simp)
  have free := (pmmFreePage_yields hr (hl ▸ machine_layout (by omega) (by omega)) open_
    (by rw [hl]; decide)).of_ok run
  obtain ⟨-, l'', hr'', -, -, -, -, -, -, types'⟩ := free
  obtain rfl := hr'.unique hr''
  have no : freesPage (data l) 513 = false := by rw [hl]; decide
  rw [no, types, hl] at types'
  have := congrFun types' 513
  rw [Function.update_self] at this
  exact absurd this (by decide)

end Skylight.Pmm
