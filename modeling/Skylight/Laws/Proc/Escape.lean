import Mathlib.Logic.Relation
import Skylight.Laws.Proc.Pmap

/-!
# No way out through pmap

The calls of a task one after the other, with anything in between that leaves its tables
alone: calls of other tasks, and the calls that work on the kernel's table. What has been
handed to the task is recorded page by page. As long as each call finds nothing at the pages
it maps, user code reaches what it was handed and nothing else.

`pmap_never_escapes` is about the runs whose calls of `pmap` find nothing in the way;
`pmap_not_always` is a call that does, and the page is then on neither frame. Other tasks are in
the runs as steps that leave the tables of this one.
-/

namespace Skylight.Calls

open Skylight.Paging

/-- The kernel, and what a task was handed: pages and their frames. -/
structure Watch where
  kernel : Kernel
  granted : Set (PagingIndexer × Addr)

/-- A call of the task, or something else that leaves its tables. A call that is refused is
such a thing too. The calls that map find nothing in the way. -/
inductive Watch.Step (g : Nat → Addr) (framebuffer : Framebuffer) (caller : Caller) :
    Watch → Watch → Prop
  | pmap {k : Kernel} {s' : Paging.State} {G : Set (PagingIndexer × Addr)} {fuel : Nat}
      {virt answer : Addr} (run : pmap g fuel caller.cr3 virt k.tables = some (answer, s'))
      (fresh : Fresh (pagingLoadPml4 k.tables caller.cr3) (given g k.tables.served s'.served))
      (vacant : Vacant k.tables caller.cr3 answer (g k.tables.served)
        (given g (k.tables.served + 1) s'.served)) :
      Watch.Step g framebuffer caller ⟨k, G⟩
        ⟨{ k with tables := s' }, insert (pagingIndexerAssign answer, g k.tables.served) G⟩
  | fbReq {k k' : Kernel} {G : Set (PagingIndexer × Addr)} {fuel : Nat} {answer : Addr}
      (free : k.currentFbHolderPid = nobody)
      (run : fbReq g fuel framebuffer caller k = some (answer, k'))
      (fresh : Fresh (pagingLoadPml4 k.tables caller.cr3)
        (given g k.tables.served k'.tables.served))
      (settled : Settled k.tables caller.cr3 (given g k.tables.served k'.tables.served)
        framebuffer.requests) :
      Watch.Step g framebuffer caller ⟨k, G⟩ ⟨k', {p | ∃ r ∈ framebuffer.requests, grant r = p} ∪ G⟩
  | fbKill {k : Kernel} {G : Set (PagingIndexer × Addr)} (held : k.currentFbHolderPid ≠ nobody) :
      Watch.Step g framebuffer caller ⟨k, G⟩
        ⟨fbKill framebuffer caller k, {p ∈ G | ∀ r ∈ framebuffer.requests, r.mapping.page ≠ p.1}⟩
  | kbTake {k k' : Kernel} {G : Set (PagingIndexer × Addr)} {fuel : Nat} {buffer : Addr}
      (free : k.currentPid = nobody) (run : kbMan g fuel true caller k = some (buffer, k'))
      (fresh : Fresh (pagingLoadPml4 k.tables caller.cr3)
        (given g k.tables.served k'.tables.served))
      (settled : Settled k.tables caller.cr3 (given g (k.tables.served + 1) k'.tables.served)
        [⟨buffer, buffer, flagsUserPage⟩]) :
      Watch.Step g framebuffer caller ⟨k, G⟩ ⟨k', insert (pagingIndexerAssign buffer, buffer) G⟩
  | kbRelease {k k' : Kernel} {G : Set (PagingIndexer × Addr)} {fuel : Nat} {answer : Addr}
      (own : k.currentPid = caller.pid) (held : k.currentPid ≠ nobody)
      (run : kbMan g fuel false caller k = some (answer, k')) :
      Watch.Step g framebuffer caller ⟨k, G⟩
        ⟨k', {p ∈ G | p.1 ≠ pagingIndexerAssign k.currentBuffer}⟩
  | other {k k' : Kernel} {G : Set (PagingIndexer × Addr)}
      (stays : Stays k.tables k'.tables caller.cr3) :
      Watch.Step g framebuffer caller ⟨k, G⟩ ⟨k', G⟩

/-- The task has just been made, of frames that are different from each other, and nothing
comes into the pages of its segments and its stack but their own frames. -/
def Watch.Start (g : Nat → Addr) (caller : Caller) (w : Watch) : Prop :=
  ∃ fuel image ist info task s,
    taskNewPageTable g fuel image ist info task s = some (caller.cr3, w.kernel.tables) ∧
    (given g s.served w.kernel.tables.served).Nodup ∧
    (∀ t ∈ given g s.served w.kernel.tables.served, t ≠ 0 ∧ IsFrame t) ∧
    (∀ r ∈ userRequests info task,
      Undisturbed (mappings (requests image ist info task caller.cr3)
        (given g (s.served + 1) w.kernel.tables.served)) r) ∧
    w.granted = {p | ∃ r ∈ userRequests info task, grant r = p}

/-- The table of the task is a tree, and a page of it that is open was handed to the task. -/
structure Watch.Kept (caller : Caller) (w : Watch) : Prop where
  wf : WellFormed (pagingLoadPml4 w.kernel.tables caller.cr3)
  granted : ∀ x, Open w.kernel.tables caller.cr3 x →
    (x, frameOf w.kernel.tables caller.cr3 x) ∈ w.granted

section
variable {g : Nat → Addr} {framebuffer : Framebuffer} {caller : Caller} {w w' w₀ : Watch}

/-- A new task has been handed what it reaches. -/
theorem Watch.Start.kept (h : w.Start g caller) : w.Kept caller := by
  obtain ⟨fuel, image, ist, info, task, s, run, nodup, frames, clear, granted⟩ := h
  obtain ⟨all, p, e, filled⟩ := taskNewPageTable_filled run nodup frames
  refine ⟨e.wf, fun x shown => ?_⟩
  obtain ⟨r, hr, rfl⟩ := filled.userRequests shown
  rw [granted]
  refine ⟨r, hr, ?_⟩
  have there := (filled.address_iff (requests_mapped (userRequests_asked hr))).mpr (clear r hr)
  rw [grant, frameOf, there]

/-- A page that is not open is not open after it is unmapped, and what is unmapped is not. -/
theorem granted_of_unmapped {s s' : Paging.State} {c : Addr} {G : Set (PagingIndexer × Addr)}
    {gone : PagingIndexer → Prop} [DecidablePred gone]
    (leaf : ∀ x, (pagingLoadPml4 s' c).leaf x = if gone x then 0 else (pagingLoadPml4 s c).leaf x)
    (h : ∀ x, Open s c x → (x, frameOf s c x) ∈ G) {x : PagingIndexer} (shown : Open s' c x) :
    ¬ gone x ∧ (x, frameOf s' c x) ∈ G := by
  rw [Open, leaf] at shown
  by_cases here : gone x
  · rw [if_pos here, getFlag_zero] at shown
    cases shown
  · rw [if_neg here] at shown
    refine ⟨here, ?_⟩
    rw [frameOf, leaf, if_neg here]
    exact h x shown

/-- A call that finds nothing in the way opens its frame and no other. -/
theorem Watch.Kept.step (h : w.Kept caller) (step : Watch.Step g framebuffer caller w w') :
    w'.Kept caller := by
  obtain ⟨wf, granted⟩ := h
  cases step with
  | @pmap k s' G fuel virt answer run fresh vacant =>
    have confined := (pmap_confined_iff run wf fresh).mpr vacant
    obtain ⟨-, -, -, here, -⟩ := pmap_local run wf fresh
    refine ⟨here.wf, fun x shown => ?_⟩
    by_cases new : x = pagingIndexerAssign answer
    · rw [new]
      refine Set.mem_insert_iff.mpr (Or.inl ?_)
      rw [confined.mapped.2]
    · have was := (confined.rest x new).1.mp shown
      rcases (confined.rest x new).2 with same | ⟨t, mem, page, -⟩
      · refine Set.mem_insert_of_mem _ ?_
        rw [same]
        exact granted x was
      · exact absurd (page ▸ was) (vacant.tables t mem (page ▸ new)).1
  | @fbReq k k' G fuel answer free run fresh settled =>
    obtain ⟨mapped, -, -⟩ := fbReq_mapped free run wf fresh
    refine ⟨mapped.here.wf, fun x shown => ?_⟩
    rcases mapped.open_cases settled shown with ⟨was, same⟩ | ⟨r, hr, new⟩
    · refine Or.inr ?_
      rw [same]
      exact granted x was
    · exact Or.inl ⟨r, hr, new⟩
  | @fbKill k G held =>
    obtain ⟨here, -, -, leaf⟩ := fbKill_unmapped held wf
    refine ⟨here.wf, fun x shown => ?_⟩
    obtain ⟨off, mem⟩ := granted_of_unmapped leaf granted shown
    refine ⟨mem, fun r hr page => off ?_⟩
    obtain ⟨i, hi, rfl⟩ := List.mem_map.mp hr
    exact ⟨i, hi, page⟩
  | @kbTake k k' G fuel buffer free run fresh settled =>
    have taken := kbMan_taken free run wf fresh
    obtain ⟨ids, perm, leaf⟩ := taken.leaf
    have mapped : Mapped k.tables k'.tables caller.cr3
        (given g (k.tables.served + 1) k'.tables.served) [⟨buffer, buffer, flagsUserPage⟩] :=
      ⟨taken.here, _, perm.append_right _, leaf⟩
    have frame : pagingDescGetAddress buffer = buffer := by
      rw [taken.buffer_eq]
      refine (fresh.frame (g k.tables.served) ?_).2
      rw [given_succ taken.lt]
      exact List.mem_cons_self
    refine ⟨taken.here.wf, fun x shown => ?_⟩
    rcases mapped.open_cases settled shown with ⟨was, same⟩ | ⟨r, hr, new⟩
    · refine Set.mem_insert_of_mem _ ?_
      rw [same]
      exact granted x was
    · rw [List.mem_singleton.mp hr, grant, frame] at new
      exact Set.mem_insert_iff.mpr (Or.inl new.symm)
  | @kbRelease k k' G fuel answer own held run =>
    have released := (kbMan_released own held run wf).2
    refine ⟨released.here.wf, fun x shown => ?_⟩
    obtain ⟨off, mem⟩ := granted_of_unmapped released.leaf granted shown
    exact ⟨mem, off⟩
  | @other k k' G stays =>
    refine ⟨stays.wf wf, fun x shown => ?_⟩
    rw [Open, stays.leaf] at shown
    rw [frameOf, stays.leaf]
    exact granted x shown

/-- And so a run. -/
theorem Watch.Kept.run (h : w₀.Kept caller)
    (run : Relation.ReflTransGen (Watch.Step g framebuffer caller) w₀ w) : w.Kept caller := by
  induction run with
  | refl => exact h
  | tail _ step ih => exact ih.step step

/-- In every run whose calls find nothing in the way, what is open to the task was handed to
it, and a call of `pmap` does what it should exactly where nothing is in its way. -/
theorem pmap_never_escapes (start : w₀.Start g caller)
    (run : Relation.ReflTransGen (Watch.Step g framebuffer caller) w₀ w) :
    (∀ x, Open w.kernel.tables caller.cr3 x →
      (x, frameOf w.kernel.tables caller.cr3 x) ∈ w.granted) ∧
    ∀ fuel virt answer s', pmap g fuel caller.cr3 virt w.kernel.tables = some (answer, s') →
      Fresh (pagingLoadPml4 w.kernel.tables caller.cr3)
        (given g w.kernel.tables.served s'.served) →
      (Confined w.kernel.tables s' caller.cr3 answer (g w.kernel.tables.served)
          (given g (w.kernel.tables.served + 1) s'.served) ↔
        Vacant w.kernel.tables caller.cr3 answer (g w.kernel.tables.served)
          (given g (w.kernel.tables.served + 1) s'.served)) := by
  have kept := start.kept.run run
  exact ⟨kept.granted, fun fuel virt answer s' call fresh => pmap_confined_iff call kept.wf fresh⟩

end

/-! ### The program's own page asked for again -/

/-- The task of the program. -/
def programCaller : Caller := ⟨0, spaceFrames 0⟩

/-- The kernel when the task has just been made. -/
def programKernel (s : Paging.State) : Kernel := .boot s fun _ => 0

/-- The task of the program has just been made. -/
theorem program_start {s : Paging.State} (few : s.served ≤ 2 ^ 28)
    (run : taskNewPageTable spaceFrames (2 ^ 28) programImage programIst programInfo programTask
      machineRoot = some (spaceFrames 0, s))
    (nodup : (given spaceFrames machineRoot.served s.served).Nodup)
    (frames : ∀ t ∈ given spaceFrames machineRoot.served s.served, t ≠ 0 ∧ IsFrame t) :
    Watch.Start spaceFrames programCaller
      ⟨programKernel s, {p | ∃ r ∈ userRequests programInfo programTask, grant r = p}⟩ :=
  ⟨_, _, _, _, _, _, run, nodup, frames,
    fun _ hr => program_undisturbed few (userRequests_asked hr), rfl⟩

/-- No page of a frame is open to the program, and what is there is the frame. -/
theorem program_frame {s : Paging.State} (few : s.served ≤ 2 ^ 28)
    (run : taskNewPageTable spaceFrames (2 ^ 28) programImage programIst programInfo programTask
      machineRoot = some (spaceFrames 0, s))
    (nodup : (given spaceFrames machineRoot.served s.served).Nodup)
    (frames : ∀ t ∈ given spaceFrames machineRoot.served s.served, t ≠ 0 ∧ IsFrame t)
    {k : Nat} (last : k < 2 ^ 29) :
    ¬ Open s programCaller.cr3 (pagingIndexerAssign (spaceFrames k)) ∧
      Within (frameOf s programCaller.cr3 (pagingIndexerAssign (spaceFrames k)))
        (spaceFrames k) := by
  obtain ⟨all, p, -, filled⟩ := taskNewPageTable_filled run nodup frames
  have layout := program_layout (show s.served ≤ 2 ^ 29 by omega)
  have own := programLayout_identity (spaceFrames_toNat last) (by omega) (by omega)
  rw [if_neg (by omega)] at own
  constructor
  · intro shown
    obtain ⟨r, hr, page⟩ := filled.userRequests shown
    have follows := layout _ (requests_mapped (userRequests_asked hr))
    rw [page, own, show r.mapping.flags = wide r.flags from rfl, flags_user r hr] at follows
    exact absurd (Prod.mk.inj follows).2 (by decide)
  · have clear : ∀ w ∈ mappings (requests programImage programIst programInfo programTask
        (spaceFrames 0)) (given spaceFrames 1 s.served),
        w.page = pagingIndexerAssign (spaceFrames k) →
          Within (pagingDescGetAddress w.phys) (spaceFrames k) := by
      intro w hw here
      have follows := layout w hw
      rw [here, own] at follows
      have frame : pagingDescGetAddress (spaceFrames k) = spaceFrames k :=
        (spaceFrames_lasting.frame k last).2
      rw [← (Prod.mk.inj follows).1, frame]
      exact Within.refl _
    rw [frameOf, show (pagingLoadPml4 s programCaller.cr3).leaf _ = _ from congrFun filled.leaf _]
    apply foldl_within filled.flags
    · rw [getAddress_zero]
      exact zero_within _
    · intro w hw here
      rcases (filled.mem w).mp hw with rfl | hw
      · exact filled.ctx _ fun w hw page => clear w hw (page.trans here)
      · exact clear w hw here

/-- Whatever the task asks for, there are frames for it. -/
theorem program_pmap {s : Paging.State} (few : s.served ≤ 2 ^ 28)
    (run : taskNewPageTable spaceFrames (2 ^ 28) programImage programIst programInfo programTask
      machineRoot = some (spaceFrames 0, s))
    (nodup : (given spaceFrames machineRoot.served s.served).Nodup)
    (frames : ∀ t ∈ given spaceFrames machineRoot.served s.served, t ≠ 0 ∧ IsFrame t)
    (virt : Addr) :
    ∃ s', pmap spaceFrames (2 ^ 28) programCaller.cr3 virt s =
        some (if virt = pmapVirtDefault then spaceFrames s.served else virt, s') ∧
      s'.served ≤ 2 ^ 29 ∧
      Fresh (pagingLoadPml4 s programCaller.cr3) (given spaceFrames s.served s'.served) := by
  obtain ⟨all, p, e, -⟩ := taskNewPageTable_filled run nodup frames
  have lack := lacking_lt (pagingLoadPml4 s programCaller.cr3)
  -- the tables of the new tree are frames already taken
  have old {t : Addr} {π : List (BitVec 9)} (hπ : π.length ≤ 3)
      (there : (pagingLoadPml4 s programCaller.cr3).follow π = some t) :
      ∃ k < s.served, t = spaceFrames k := by
    rcases e.news π t hπ there with root | ⟨-, mem⟩
    · have same := newRoot_empty.uses (s := newRoot spaceFrames machineRoot) ⟨π, hπ, root⟩
      refine ⟨0, ?_, same⟩
      obtain ⟨_, _, _, -, eq, part₄, part₅, part₇⟩ := taskNewPageTable_parts run
      rw [eq]
      exact Nat.lt_of_lt_of_le Nat.zero_lt_one ((part₄.1.trans part₅.1).trans part₇.1)
    · obtain ⟨-, -, k, lt, -, eq⟩ := (spaceFrames_given (show s.served ≤ 2 ^ 29 by omega)).2 t mem
      exact ⟨k, lt, eq⟩
  have fresh {m n : Nat} (le : s.served ≤ m) (bound : n ≤ 2 ^ 29) :
      Fresh (pagingLoadPml4 s programCaller.cr3) (given spaceFrames m n) := by
    obtain ⟨nodup, later⟩ := spaceFrames_given (m := m) bound
    refine ⟨nodup, fun t mem => ⟨(later t mem).1, (later t mem).2.1⟩, fun t mem π hπ there => ?_⟩
    obtain ⟨k, lt, eq⟩ := old hπ there
    obtain ⟨-, -, j, lt', le', eq'⟩ := later t mem
    have value := congrArg BitVec.toNat (eq.symm.trans eq')
    rw [spaceFrames_toNat (by omega), spaceFrames_toNat (by omega)] at value
    omega
  obtain ⟨s', call, bound⟩ := @mapPage_some spaceFrames (2 ^ 28)
    (pagingLoadPml4 { s with served := s.served + 1 } programCaller.cr3)
    (if virt = pmapVirtDefault then spaceFrames s.served else virt) (spaceFrames s.served)
    flagsUserPage ⟨e.wf.1, e.wf.2⟩ (by
      obtain ⟨nodup, frame, unused⟩ := @fresh (s.served + 1)
        (s.served + 1 + (pagingLoadPml4 s programCaller.cr3).lacking) (by omega) (by omega)
      exact ⟨nodup, frame, unused⟩) lack
  have few' : s'.served ≤ 2 ^ 29 := by
    have : s'.served ≤ s.served + 1 + (pagingLoadPml4 s programCaller.cr3).lacking := bound
    omega
  exact ⟨pagingLoadPml4 s' s.pml4, Option.bind_eq_some_iff.mpr ⟨_, call, rfl⟩, few',
    fresh (Nat.le_refl _) few'⟩

/-- Frames with one page are one frame. -/
theorem spaceFrames_page {j k : Nat} (hj : j < 2 ^ 29) (hk : k < 2 ^ 29)
    (page : pagingIndexerAssign (spaceFrames j) = pagingIndexerAssign (spaceFrames k)) :
    Within (spaceFrames j) (spaceFrames k) := by
  have value := congrArg PagingIndexer.number page
  rw [number_assign, number_assign, spaceFrames_toNat hj, spaceFrames_toNat hk] at value
  rw [show j = k by omega]
  exact Within.refl _

/-- Nothing is in the way of a frame that is mapped at its own address. -/
theorem program_vacant {s : Paging.State} (few : s.served ≤ 2 ^ 28)
    (run : taskNewPageTable spaceFrames (2 ^ 28) programImage programIst programInfo programTask
      machineRoot = some (spaceFrames 0, s))
    (nodup : (given spaceFrames machineRoot.served s.served).Nodup)
    (frames : ∀ t ∈ given spaceFrames machineRoot.served s.served, t ≠ 0 ∧ IsFrame t)
    {n : Nat} (last : n ≤ 2 ^ 29) :
    Vacant s programCaller.cr3 (spaceFrames s.served) (spaceFrames s.served)
      (given spaceFrames (s.served + 1) n) := by
  have taken := (spaceFrames_given (m := s.served + 1) last).2
  have next : s.served < 2 ^ 29 := by omega
  refine ⟨⟨(program_frame few run nodup frames next).2, fun t mem page => ?_⟩, fun t mem _ => ?_⟩
  · obtain ⟨-, -, k, lt, -, rfl⟩ := taken t mem
    exact spaceFrames_page (lt.trans_le last) next page
  · obtain ⟨-, -, k, lt, -, rfl⟩ := taken t mem
    obtain ⟨closed, own⟩ := program_frame few run nodup frames (lt.trans_le last)
    refine ⟨closed, spaceFrames k, Or.inr ⟨mem, rfl⟩, own, fun u mem' page => ?_⟩
    obtain ⟨-, -, j, lt', -, rfl⟩ := taken u mem'
    exact spaceFrames_page (lt'.trans_le last) (lt.trans_le last) page

/-- The program asks for a page anywhere, gets it, and has nothing open but what it was handed. -/
theorem pmap_never_escapes_program : ∃ w w' : Watch, w.Start spaceFrames programCaller ∧
    Watch.Step spaceFrames ⟨0, 0, 0, 0⟩ programCaller w w' ∧
    Open w'.kernel.tables programCaller.cr3
      (pagingIndexerAssign (spaceFrames w.kernel.tables.served)) ∧
    ∀ x, Open w'.kernel.tables programCaller.cr3 x →
      (x, frameOf w'.kernel.tables programCaller.cr3 x) ∈ w'.granted := by
  obtain ⟨s, run, few, nodup, frames⟩ := program_run spaceFrames_lasting
  have start := program_start few run nodup frames
  obtain ⟨s', call, few', fresh⟩ := program_pmap few run nodup frames pmapVirtDefault
  rw [if_pos rfl] at call
  have vacant := program_vacant few run nodup frames few'
  have step := @Watch.Step.pmap spaceFrames ⟨0, 0, 0, 0⟩ _ (programKernel s) _
    {p | ∃ r ∈ userRequests programInfo programTask, grant r = p} _ _ _ call fresh vacant
  obtain ⟨-, confined⟩ := @pmap_never_escapes spaceFrames ⟨0, 0, 0, 0⟩ _ _ _ start .refl
  exact ⟨_, _, start, step, ((confined _ _ _ _ call fresh).mpr vacant).mapped.1,
    (@pmap_never_escapes spaceFrames ⟨0, 0, 0, 0⟩ _ _ _ start (.single step)).1⟩

/-- The bit that tells the pages of the program's segment from the frames. -/
theorem spaceFrames_even {k : Nat} (h : k < 2 ^ 29) : (spaceFrames k).getLsbD 12 = false := by
  rw [BitVec.getLsbD, spaceFrames_toNat h, show (4096 : Nat) = 2 ^ 12 from rfl,
    Nat.testBit_two_pow_mul]
  simp [Nat.testBit_zero]

/-- The second page of the segment, asked for again, is on neither frame: the address in its entry
is the bitwise or of both. -/
theorem pmap_not_always : ¬ ∀ (g : Nat → Addr) (caller : Caller) (w : Watch) (fuel : Nat)
    (virt answer : Addr) (s' : Paging.State), w.Start g caller →
    pmap g fuel caller.cr3 virt w.kernel.tables = some (answer, s') →
    Fresh (pagingLoadPml4 w.kernel.tables caller.cr3)
      (given g w.kernel.tables.served s'.served) →
    Confined w.kernel.tables s' caller.cr3 answer (g w.kernel.tables.served)
      (given g (w.kernel.tables.served + 1) s'.served) := by
  intro all
  obtain ⟨s, run, few, nodup, frames⟩ := program_run spaceFrames_lasting
  have start := program_start few run nodup frames
  obtain ⟨s', call, -, fresh⟩ := program_pmap few run nodup frames 0x401000
  rw [if_neg (by decide)] at call
  obtain ⟨_, _, -, filled⟩ := taskNewPageTable_filled run nodup frames
  have confined := all _ _ _ _ _ _ _ start call fresh
  have within := ((pmap_confined_iff call start.kept.wf fresh).mp confined).own.1
  have segment : (⟨0x401000, 0x801000, flagsUserPage⟩ : Request) ∈ segmentRequests programInfo := by
    decide
  have there := (filled.address_iff (requests_mapped (userRequests_asked
    (List.mem_append_left _ segment)))).mpr (program_undisturbed few (userRequests_asked
    (List.mem_append_left _ segment)))
  have frame : frameOf s (spaceFrames 0) (pagingIndexerAssign 0x401000) = 0x801000 :=
    there.trans (by decide)
  have both : (0x801000 : Addr) &&& spaceFrames s.served = 0x801000 := by
    rw [← frame]
    exact within
  have bit : ((0x801000 : Addr) &&& spaceFrames s.served).getLsbD 12 = true := by
    rw [both]
    decide
  rw [BitVec.getLsbD_and, spaceFrames_even (by omega), Bool.and_false] at bit
  cases bit

end Skylight.Calls
