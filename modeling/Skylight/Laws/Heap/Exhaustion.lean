import Skylight.Laws.Heap.Sizes
import Skylight.Laws.Paging.Exhaustion

/-!
# A heap made longer without frames

`heap_expand` maps whatever `pmm_alloc_page` answers, page after page. A frame that is missing
is a page at 0, or a table at 0, unless there is a page in its place already.

`exhaustion_spares_iff` says of `paging_map_page`, `pmap` and `heap_expand` exactly when a call
that runs out of frames leaves alone what was mapped: a table that is missing is never survived,
and a page that is missing only where its slot was taken. The condition speaks of the tables
before the call and of the frames it is answered (`GrowSpares` goes round by round). What the
processor does with a translation to the frame at 0 afterwards, and what is stored there, is not
part of it.
-/

namespace Skylight.Heap

open Paging

/-- The descriptors the loop of `heap_expand` puts into the tables. -/
def growInstalls (g : Nat → Addr) (fuel : Nat) : Nat → Heap → List Desc
  | 0, _ => []
  | pages + 1, h =>
    let (frame, tables) := h.tables.pmmAllocPage g
    mapInstalls g fuel tables h.heapEnd frame flagsKernelPage ++
      match h.mapPage g fuel h.heapEnd with
      | none => []
      | some h => growInstalls g fuel pages { h with heapEnd := h.heapEnd + 0x1000 }

/-- The descriptors `heap_expand` puts into the tables. -/
def expandInstalls (g : Nat → Addr) (fuel : Nat) (h : Heap) (length : Addr) : List Desc :=
  growInstalls g fuel (expandLength length / 0x1000).toNat h

/-- Every round of the loop spares the pages of `s₀`. -/
def GrowSpares (g : Nat → Addr) (fuel : Nat) (s₀ : Paging.State) : Nat → Heap → Prop
  | 0, _ => True
  | pages + 1, h =>
    ∃ h₁, h.mapPage g fuel h.heapEnd = some h₁ ∧
      Spares s₀ h.tables (given g (h.tables.served + 1) h₁.tables.served) h.heapEnd
        (g h.tables.served) flagsKernelPage ∧
      GrowSpares g fuel s₀ pages { h₁ with heapEnd := h₁.heapEnd + 0x1000 }

section
variable {h h₁ h' : Heap} {g : Nat → Addr} {fuel n : Nat} {s₀ s s₁ s' : Paging.State}
  {ws vs : List Mapping} {taken taken' : List Addr} {w y length : Addr}
  {L : PagingIndexer → Desc} {x : PagingIndexer}

/-! ### A round -/

/-- One round is one call of `paging_map_page` with the frame that was asked for. -/
theorem mapPage_call (run : h.mapPage g fuel y = some h₁) :
    ∃ a, pagingMapPage g fuel (h.tables.pmmAllocPage g).2 y (g h.tables.served) flagsKernelPage =
      some (a, h₁.tables) := by
  rw [mapPage] at run
  obtain ⟨⟨a, tables⟩, call, rfl⟩ := Option.map_eq_some_iff.mp run
  exact ⟨a, call⟩

/-- A page mapped has asked for a frame at least. -/
theorem mapPage_served (run : h.mapPage g fuel y = some h₁) :
    h.tables.served < h₁.tables.served := by
  obtain ⟨a, call⟩ := mapPage_call run
  exact (mapPage_runs call).1

/-- Rounds never give a frame back. -/
theorem growPages_served (run : growPages g fuel n h = some h') :
    h.tables.served ≤ h'.tables.served := by
  induction n generalizing h with
  | zero =>
    cases run
    exact Nat.le_refl _
  | succ n ih =>
    obtain ⟨h₁, first, rest⟩ := Option.bind_eq_some_iff.mp run
    have later := ih rest
    exact (Nat.le_of_lt (mapPage_served first)).trans later

/-- The pages of the kernel's heap, and those of tables. -/
def Kernel (ws : List Mapping) : Prop :=
  ∀ w ∈ ws, IsFlags w.flags ∧ w.flags = wide flagsKernelPage

/-- Pages of the heap and tables, and more of them. -/
theorem Kernel.append (h : Kernel ws) (h' : Kernel vs) : Kernel (ws ++ vs) := by
  intro w mem
  rcases List.mem_append.mp mem with mem | mem
  · exact h w mem
  · exact h' w mem

/-- The flags of a page are those it had, or the kernel's. -/
theorem Kernel.flagsOf (h : Kernel ws) :
    flagsOf (ws.foldl Mapping.apply L x) = flagsOf (L x) ∨
      flagsOf (ws.foldl Mapping.apply L x) = wide flagsKernelPage := by
  by_cases touched : ∃ w ∈ ws, w.page = x
  · right
    exact flagsOf_foldl (fun w mem => (h w mem).1) (fun w mem _ => (h w mem).2) touched
  · left
    rw [foldl_apply_of_ne]
    intro w mem page
    exact touched ⟨w, mem, page⟩

/-- A round that leads nowhere to the frame at 0. -/
theorem round_extends {m : Nat} (wf : WellFormed h.tables) (run : h.mapPage g fuel y = some h₁)
    (le : h₁.tables.served ≤ m) (fresh : Fresh h.tables (frames g h.tables.served m))
    (none : ∀ e ∈ mapInstalls g fuel (h.tables.pmmAllocPage g).2 y (g h.tables.served)
      flagsKernelPage, ¬ Null e) :
    (∃ taken ws, Extends h.tables h₁.tables taken ws ∧ Kernel ws) ∧
      Fresh h₁.tables (frames g h₁.tables.served m) ∧ pagingWalkPage h₁.tables y ≠ 0 := by
  obtain ⟨a, call⟩ := mapPage_call run
  have lt := mapPage_served run
  obtain ⟨frame, later⟩ := frames_alloc (lt.trans_le le) fresh
  rw [frames_append lt le] at later
  have wf : WellFormed (h.tables.pmmAllocPage g).2 := ⟨wf.1, wf.2⟩
  have there := tables_of_installs wf call later.left none
  have walk := walk_of_installs wf call (by decide) later.left none
  obtain ⟨-, -, ids, perm, e⟩ := (mapPage_runs call).2 wf (frames_eq there ▸ later.left)
  refine ⟨⟨_, _, e.of_served, ?_⟩, Fresh.right (frames_eq there ▸ later) e, walk⟩
  intro w mem
  refine ⟨mapped_flags perm (isFlags_wide _) w mem, ?_⟩
  rcases List.mem_append.mp mem with mem | mem
  · obtain ⟨t, -, rfl⟩ := (mem_ids perm).mp mem
    rfl
  · rw [List.mem_singleton.mp mem]

/-! ### The loop -/

/-- Every page seen before is seen after, with its flags or the kernel's. -/
theorem Extends.walk (e : Extends s s' taken ws) (h : Kernel ws) :
    Paging.Within (pagingWalkPage s w) (pagingWalkPage s' w) := by
  rw [walk_eq, walk_eq, e.leaf]
  exact (within_foldl fun w mem => (h w mem).1).1

/-- Rounds that lead nowhere to the frame at 0: no page of the heap is there. -/
theorem grown_extends (wf : WellFormed h.tables) (run : growPages g fuel n h = some h')
    (fresh : Fresh h.tables (frames g h.tables.served h'.tables.served))
    (none : ∀ e ∈ growInstalls g fuel n h, ¬ Null e) :
    (∃ taken ws, Extends h.tables h'.tables taken ws ∧ Kernel ws) ∧
      ∀ i < n, pagingWalkPage h'.tables (h.heapEnd + BitVec.ofNat 64 (0x1000 * i)) ≠ 0 := by
  -- Round by round: what one round leads to, the later ones leave.
  induction n generalizing h with
  | zero =>
    cases run
    exact ⟨⟨[], [], Extends.refl wf, fun w mem => nomatch mem⟩, fun i lt => nomatch lt⟩
  | succ n ih =>
    obtain ⟨h₁, first, rest⟩ := Option.bind_eq_some_iff.mp run
    rw [growInstalls, first, List.forall_mem_append] at none
    have le := growPages_served rest
    obtain ⟨⟨taken, ws, e, kernel⟩, fresh, walk⟩ := round_extends wf first le fresh none.1
    obtain ⟨⟨taken', vs, e', kernel'⟩, walks⟩ :=
      @ih { h₁ with heapEnd := h₁.heapEnd + 0x1000 } e.wf rest fresh none.2
    refine ⟨⟨_, _, e.trans e', kernel.append kernel'⟩, fun i lt => ?_⟩
    cases i with
    | zero =>
      rw [Nat.mul_zero, show h.heapEnd + BitVec.ofNat 64 0 = h.heapEnd from BitVec.add_zero _]
      intro zero
      have within := Extends.walk e' kernel' (w := h.heapEnd)
      rw [zero] at within
      exact walk (within_zero.mp within)
    | succ i =>
      have ends : h₁.heapEnd = h.heapEnd := by
        obtain ⟨tables, rfl⟩ := mapPage_heap first
        rfl
      have walk := walks i (Nat.lt_of_succ_lt_succ lt)
      rw [Nat.mul_succ, Nat.add_comm, BitVec.ofNat_add, ← BitVec.add_assoc, ← ends]
      exact walk

/-- A page that two steps leave is left by both. -/
theorem unchanged_trans (h : Unchanged s s₁ w) (h' : Unchanged s₁ s' w) : Unchanged s s' w :=
  ⟨h'.1.trans h.1, h'.2.trans h.2⟩

/-- And it does not matter in which direction one looks. -/
theorem unchanged_symm (h : Unchanged s s' w) : Unchanged s' s w := ⟨h.1.symm, h.2.symm⟩

/-- A page that is the same in the end was the same all along. -/
theorem unchanged_between (e : Extends s s₁ taken ws) (kernel : Kernel ws)
    (e' : Extends s₁ s' taken' vs) (kernel' : Kernel vs) (same : Unchanged s s' w) :
    Unchanged s s₁ w := by
  obtain ⟨walk, flags⟩ := same
  have first := Extends.walk e kernel (w := w)
  have rest := Extends.walk e' kernel' (w := w)
  rw [walk] at rest
  refine ⟨Paging.Within.antisymm rest first, ?_⟩
  have before : flagsOf (s₁.leaf _) = flagsOf (s.leaf (pagingIndexerAssign w)) ∨ _ :=
    e.leaf ▸ kernel.flagsOf
  have after : flagsOf (s'.leaf _) = flagsOf (s₁.leaf (pagingIndexerAssign w)) ∨ _ :=
    e'.leaf ▸ kernel'.flagsOf
  rcases before with same | own
  · exact same
  · rcases after with same | later
    · rw [← same, flags]
    · rw [own, ← later, flags]

/-- The rounds lead nowhere to the frame at 0 and leave the pages of `s₀` just when each of them
spares them. -/
theorem grown_spares_iff (wf : WellFormed h.tables) (run : growPages g fuel n h = some h')
    (fresh : Fresh h.tables (frames g h.tables.served h'.tables.served))
    (kept : ∀ w, Present s₀ w → Unchanged s₀ h.tables w) :
    ((∀ e ∈ growInstalls g fuel n h, ¬ Null e) ∧
      ∀ w, Present s₀ w → Unchanged s₀ h'.tables w) ↔ GrowSpares g fuel s₀ n h := by
  -- Bits are only added, so a page that is the same in the end was the same behind every round.
  induction n generalizing h with
  | zero =>
    cases run
    constructor
    · intro _
      trivial
    · intro _
      refine ⟨?_, kept⟩
      intro e mem
      cases mem
  | succ n ih =>
    obtain ⟨h₁, first, rest⟩ := Option.bind_eq_some_iff.mp run
    have ends : h₁.heapEnd = h.heapEnd := by
      obtain ⟨tables, rfl⟩ := mapPage_heap first
      rfl
    have le := growPages_served rest
    obtain ⟨a, call⟩ := mapPage_call first
    have lt := mapPage_served first
    obtain ⟨frame, later⟩ := frames_alloc (lt.trans_le le) fresh
    rw [frames_append lt le] at later
    have spares := @mapPage_spares_iff _ (h.tables.pmmAllocPage g).2 _ _ _ _ _ _ s₀ ⟨wf.1, wf.2⟩
      call (by decide) frame later.left
    rw [growInstalls, first, List.forall_mem_append]
    have deeper (none : ∀ e ∈ mapInstalls g fuel (h.tables.pmmAllocPage g).2 h.heapEnd
        (g h.tables.served) flagsKernelPage, ¬ Null e)
        (same : ∀ w, Present s₀ w → Unchanged s₀ h₁.tables w) :
        ((∀ e ∈ growInstalls g fuel n { h₁ with heapEnd := h₁.heapEnd + 0x1000 }, ¬ Null e) ∧
          ∀ w, Present s₀ w → Unchanged s₀ h'.tables w) ↔
        GrowSpares g fuel s₀ n { h₁ with heapEnd := h₁.heapEnd + 0x1000 } := by
      obtain ⟨⟨_, _, e, -⟩, fresh, -⟩ := round_extends wf first le fresh none
      exact @ih { h₁ with heapEnd := h₁.heapEnd + 0x1000 } e.wf rest fresh same
    constructor
    · rintro ⟨⟨none, others⟩, same⟩
      obtain ⟨⟨taken, ws, e, kernel⟩, fresh, -⟩ := round_extends wf first le fresh none
      obtain ⟨⟨taken', vs, e', kernel'⟩, -⟩ :=
        @grown_extends { h₁ with heapEnd := h₁.heapEnd + 0x1000 } _ _ _ _ e.wf rest fresh others
      have between (w : Addr) (present : Present s₀ w) : Unchanged h.tables h₁.tables w := by
        apply unchanged_between e kernel e' kernel'
        exact unchanged_trans (unchanged_symm (kept w present)) (same w present)
      have h := spares.mp ⟨none, between⟩
      refine ⟨h₁, first, ⟨h.tables, h.backed, h.page, h.idents⟩, ?_⟩
      apply (deeper none _).mp ⟨others, same⟩
      intro w present
      exact unchanged_trans (kept w present) (between w present)
    · rintro ⟨h₂, again, h, others⟩
      rw [first] at again
      cases again
      obtain ⟨none, between⟩ := spares.mpr ⟨h.tables, h.backed, h.page, h.idents⟩
      obtain ⟨rest, same⟩ := (deeper none fun w present =>
        unchanged_trans (kept w present) (between w present)).mpr others
      exact ⟨⟨none, rest⟩, same⟩

/-- `heap_expand` is its loop, as far as the tables go. -/
theorem heapExpand_grown (run : h.heapExpand g fuel length = some h') :
    ∃ h₁, growPages g fuel (expandLength length / 0x1000).toNat h = some h₁ ∧
      h'.tables = h₁.tables := by
  obtain ⟨h₁, grown, rest⟩ := Option.bind_eq_some_iff.mp run
  refine ⟨h₁, grown, ?_⟩
  rw [← Option.some.inj rest]
  exact (headerCombineBackward_ends _ h.heapEnd).1

/-- `heap_expand` leads nowhere to the frame at 0, has no page of the heap there, and leaves the
pages that were there, just when every round spares them. -/
theorem heapExpand_spares_iff (wf : WellFormed h.tables)
    (run : h.heapExpand g fuel length = some h')
    (fresh : Fresh h.tables (frames g h.tables.served h'.tables.served)) :
    ((∀ e ∈ expandInstalls g fuel h length, ¬ Null e) ∧
      (∀ i < (expandLength length / 0x1000).toNat,
        pagingWalkPage h'.tables (h.heapEnd + BitVec.ofNat 64 (0x1000 * i)) ≠ 0) ∧
      ∀ w, Present h.tables w → Unchanged h.tables h'.tables w) ↔
    GrowSpares g fuel h.tables (expandLength length / 0x1000).toNat h := by
  obtain ⟨h₁, grown, tables⟩ := heapExpand_grown run
  rw [tables] at fresh ⊢
  rw [← grown_spares_iff wf grown fresh fun _ _ => ⟨rfl, rfl⟩]
  constructor
  · rintro ⟨none, -, same⟩
    exact ⟨none, same⟩
  · rintro ⟨none, same⟩
    exact ⟨none, (grown_extends wf grown fresh none).2, same⟩

/-- A call of `paging_map_page` that misses a table always leads to the frame at 0. `pmap` and
`heap_expand` never do, give no memory there, and leave the pages that were there, just when their
tables are there and a missing frame, or a frame for a page that was there, makes no difference. -/
theorem exhaustion_spares_iff (g : Nat → Addr) (fuel : Nat) :
    (∀ s virt phys flags answer s', WellFormed s →
      pagingMapPage g fuel s virt phys flags = some (answer, s') →
      Fresh s (frames g s.served s'.served) → 0 ∈ given g s.served s'.served →
      ∃ e ∈ mapInstalls g fuel s virt phys flags, Null e) ∧
    (∀ s cr3 virt answer s', WellFormed (pagingLoadPml4 s cr3) →
      pmap g fuel cr3 virt s = some (answer, s') →
      Fresh (pagingLoadPml4 s cr3) (frames g s.served s'.served) →
      (((∀ e ∈ pmapInstalls g fuel cr3 virt s, ¬ Null e) ∧
        pagingWalkPage (pagingLoadPml4 s' cr3) answer ≠ 0 ∧
        ∀ w, Present (pagingLoadPml4 s cr3) w →
          Unchanged (pagingLoadPml4 s cr3) (pagingLoadPml4 s' cr3) w) ↔
      Spares (pagingLoadPml4 s cr3) (pagingLoadPml4 s cr3) (given g (s.served + 1) s'.served)
        (if virt = pmapVirtDefault then g s.served else virt) (g s.served) flagsUserPage)) ∧
    ∀ h length h', WellFormed h.tables → h.heapExpand g fuel length = some h' →
      Fresh h.tables (frames g h.tables.served h'.tables.served) →
      (((∀ e ∈ expandInstalls g fuel h length, ¬ Null e) ∧
        (∀ i < (expandLength length / 0x1000).toNat,
          pagingWalkPage h'.tables (h.heapEnd + BitVec.ofNat 64 (0x1000 * i)) ≠ 0) ∧
        ∀ w, Present h.tables w → Unchanged h.tables h'.tables w) ↔
      GrowSpares g fuel h.tables (expandLength length / 0x1000).toNat h) :=
  ⟨fun _ _ _ _ _ _ wf run fresh null => mapPage_installs_null wf run fresh null,
    fun _ _ _ _ _ wf run fresh => pmap_spares_iff wf run fresh,
    fun _ _ _ wf run fresh => heapExpand_spares_iff wf run fresh⟩

end

/-! ### On the machine -/

/-- A machine with no frame at all. -/
def noFrames (_ : Nat) : Addr := 0

/-- A machine that misses the first frame asked for. -/
def laterFrames (k : Nat) : Addr := if k = 0 then 0 else machineFrames k

/-- A heap of one page. -/
def machineHeap : Heap := ⟨fun _ => 0, 0x8000, 0x9000, 0x8000, true, machineRoot⟩

/-- `paging_map_page` on a machine without frames asks for two and goes on. -/
theorem machine_no_frames : ∃ s', pagingMapPage noFrames 8 machineRoot 0x8000 0x9000 7 =
    some (0x8000, s') ∧ s'.served = 2 := by
  apply exists_answer State.served
  decide +kernel

/-- `pmap` with the first frame missing asks for all four. -/
theorem machine_pmap : ∃ s', pmap laterFrames 8 0x1000 0x8000 machineRoot = some (0x8000, s') ∧
    s'.served = 4 := by
  apply exists_answer State.served
  decide +kernel

/-- An expansion with all frames there. -/
theorem machine_expand : ∃ h', machineHeap.heapExpand machineFrames 8 32 = some h' ∧
    h'.tables.served = 4 := by
  have run : (machineHeap.heapExpand machineFrames 8 32).map (·.tables.served) = some 4 := by
    decide +kernel
  obtain ⟨h', run, served⟩ := Option.map_eq_some_iff.mp run
  exact ⟨h', run, served⟩

theorem machine_tables {P : Addr → Prop} (h₁ : P 0x3000) (h₂ : P 0x4000) (h₃ : P 0x5000) :
    ∀ t ∈ [0x3000, 0x4000, (0x5000 : Addr)], P t := by
  simp only [List.forall_mem_cons]
  exact ⟨h₁, h₂, h₃, by simp⟩

/-- The empty root maps nothing. -/
theorem machineRoot_absent (w : Addr) : ¬ Present machineRoot w := by
  rw [Present, machineRoot_empty.leaf]
  decide

theorem one_page : (expandLength 32 / 0x1000).toNat = 1 := by decide

/-- The expansion spares what was mapped, since there was nothing. -/
theorem machine_spares {h' : Heap} (served : h'.tables.served = 4)
    (run : machineHeap.heapExpand machineFrames 8 32 = some h') :
    GrowSpares machineFrames 8 machineRoot 1 machineHeap := by
  obtain ⟨h₂, grown, tables⟩ := heapExpand_grown run
  rw [one_page] at grown
  obtain ⟨h₁, first, rest⟩ := Option.bind_eq_some_iff.mp grown
  have same : h₁.tables.served = 4 := by
    rw [← served, tables]
    cases rest
    rfl
  refine ⟨h₁, first, ?_, trivial⟩
  have taken : given machineFrames (machineRoot.served + 1) 4 = [0x3000, 0x4000, 0x5000] := by
    decide
  rw [same, show machineHeap.tables = machineRoot from rfl, taken]
  exact {
    tables := machine_tables (by decide) (by decide) (by decide)
    backed := fun zero => absurd zero (by decide)
    page := fun present => absurd present (machineRoot_absent _)
    idents := fun t _ present => absurd present (machineRoot_absent t) }

/-- A table missing, a page of a task missing, and a page of the heap with all frames there. -/
theorem exhaustion_spares_machine :
    (∃ e ∈ mapInstalls noFrames 8 machineRoot 0x8000 0x9000 7, Null e) ∧
    (∃ s', pmap laterFrames 8 0x1000 0x8000 machineRoot = some (0x8000, s') ∧
      ¬ ((∀ e ∈ pmapInstalls laterFrames 8 0x1000 0x8000 machineRoot, ¬ Null e) ∧
        pagingWalkPage (pagingLoadPml4 s' 0x1000) 0x8000 ≠ 0 ∧
        ∀ w, Present machineRoot w → Unchanged machineRoot (pagingLoadPml4 s' 0x1000) w)) ∧
    ∃ h', machineHeap.heapExpand machineFrames 8 32 = some h' ∧
      ∀ i < 1, pagingWalkPage h'.tables (0x9000 + BitVec.ofNat 64 (0x1000 * i)) ≠ 0 := by
  refine ⟨?_, ?_, ?_⟩
  · obtain ⟨s', run, served⟩ := machine_no_frames
    have taken : given noFrames machineRoot.served s'.served = [0, 0] := by
      rw [served]
      decide
    apply (exhaustion_spares_iff noFrames 8).1 _ _ _ _ _ _ machineRoot_empty.wf run
    · rw [frames, taken]
      exact fresh_nil machineRoot
    · rw [taken]
      decide
  · obtain ⟨s', run, served⟩ := machine_pmap
    refine ⟨s', run, fun all => ?_⟩
    have taken : frames laterFrames machineRoot.served s'.served = [0x3000, 0x4000, 0x5000] := by
      rw [served]
      decide
    have fresh : Fresh machineRoot (frames laterFrames machineRoot.served s'.served) := by
      rw [taken]
      apply machineRoot_empty.fresh (by decide) _ (by decide)
      exact machine_tables (by decide) (by decide) (by decide)
    have spares := ((exhaustion_spares_iff laterFrames 8).2.1 machineRoot 0x1000 _ _ _
      machineRoot_empty.wf run fresh).mp all
    rcases spares.backed rfl with walk | ⟨t, mem, page⟩
    · apply walk
      exact (walk_eq machineRoot 0x8000).trans (by rw [machineRoot_empty.leaf]; rfl)
    · have tables : given laterFrames (machineRoot.served + 1) 4 = [0x3000, 0x4000, 0x5000] := by
        decide
      have apart : ∀ t ∈ [0x3000, 0x4000, (0x5000 : Addr)],
          pagingIndexerAssign t ≠ pagingIndexerAssign 0x8000 :=
        machine_tables (by decide) (by decide) (by decide)
      rw [served, tables] at mem
      exact apart t mem page
  · obtain ⟨h', run, served⟩ := machine_expand
    have taken : frames machineFrames machineRoot.served h'.tables.served =
        [0x2000, 0x3000, 0x4000, 0x5000] := by
      rw [served]
      decide
    have fresh : Fresh machineRoot (frames machineFrames machineRoot.served h'.tables.served) := by
      rw [taken]
      apply machineRoot_empty.fresh (by decide) _ (by decide)
      exact List.forall_mem_cons.mpr
        ⟨by decide, machine_tables (by decide) (by decide) (by decide)⟩
    have iff := (exhaustion_spares_iff machineFrames 8).2.2 machineHeap 32 h'
      machineRoot_empty.wf run fresh
    rw [one_page] at iff
    exact ⟨h', run, (iff.mpr (machine_spares served run)).2.1⟩

/-- Without frames each of the three leads to the frame at 0. -/
theorem exhaustion_not_survived :
    (∃ s', pagingMapPage noFrames 8 machineRoot 0x8000 0x9000 7 = some (0x8000, s') ∧
      ∃ e ∈ mapInstalls noFrames 8 machineRoot 0x8000 0x9000 7, Null e) ∧
    (∃ s', pmap laterFrames 8 0x1000 0x8000 machineRoot = some (0x8000, s') ∧
      ∃ e ∈ pmapInstalls laterFrames 8 0x1000 0x8000 machineRoot, Null e) ∧
    ∃ h', machineHeap.heapExpand laterFrames 8 32 = some h' ∧
      (∃ e ∈ expandInstalls laterFrames 8 machineHeap 32, Null e) ∧
      pagingWalkPage h'.tables 0x9000 = 0 := by
  refine ⟨?_, ?_, ?_⟩
  · obtain ⟨s', run, -⟩ := machine_no_frames
    refine ⟨s', run, 3, ?_, ?_, ?_⟩ <;> decide +kernel
  · obtain ⟨s', run, -⟩ := machine_pmap
    refine ⟨s', run, 7, ?_, ?_, ?_⟩ <;> decide +kernel
  · have run : (machineHeap.heapExpand laterFrames 8 32).map
        (fun h => pagingWalkPage h.tables 0x9000) = some 0 := by
      decide +kernel
    obtain ⟨h', run, walk⟩ := Option.map_eq_some_iff.mp run
    refine ⟨h', run, ⟨3, ?_, ?_, ?_⟩, walk⟩ <;> decide +kernel

end Skylight.Heap
