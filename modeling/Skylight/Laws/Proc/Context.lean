import Skylight.Laws.Proc.AddressSpace
import Skylight.Laws.Paging.Spaces

/-!
# The context of a task in its own address space

`task_new_page_table` asks where the page of the context is mapped when the new table is loaded
already, so the answer is what that table has by then, and the page behind it is not asked for
at all. The bytes of the context are where the kernel has them only on pages that were mapped to
the kernel's frames for another reason.

`context_reachable_iff` is about every byte of the context, in every call that returns: it is
found under the task's table just when the mappings of its page come to the frame that the
kernel has there. That the page of the context is never asked for is the reason. A kernel whose
tables are a tree, with one page of heap, is enough for a context that is not found.
-/

namespace Skylight.Paging

/-- `sizeof(task_context_t)` -/
def taskContextSize : Nat := 0x90

/-- What the processor makes of an address under the loaded table. -/
def translation (s : State) (v : Addr) : Option Addr :=
  let pde := s.leaf (pagingIndexerAssign v)
  if pagingDescGetFlag pde flagPresent then some
    (pagingDescGetAddress pde + (v &&& 0xfff)) else none

/-- The frames that mappings put on a page, one over the other. -/
def framesOn (ms : List Mapping) (x : PagingIndexer) : Addr :=
  (ms.filter (·.page = x)).foldr (fun w frame => pagingDescGetAddress w.phys ||| frame) 0

/-- The mappings leave the page on the frame that the pages `kernel` have there. -/
structure OnFrame (kernel : PagingIndexer → Desc) (ms : List Mapping) (ctxPage : Addr)
    (x : PagingIndexer) : Prop where
  present : pagingDescGetFlag (kernel x) flagPresent = true
  frame : pagingDescGetAddress (kernel x) = framesOn ms x
  mapped : x = pagingIndexerAssign ctxPage ∨ ∃ w ∈ ms, w.page = x

section
variable {g : Nat → Addr} {fuel : Nat} {image : KernelImage} {ist : List Addr}
  {info : List ElfLoadedPage} {task : NewTask} {s s' : State} {table v : Addr}
  {L : PagingIndexer → Desc} {ws ms all : List Mapping} {x : PagingIndexer} {a : Addr} {w : Mapping}

/-! ### The frames of a page -/

/-- One mapping, and the others. -/
theorem framesOn_cons : framesOn (w :: ms) x =
    if w.page = x then pagingDescGetAddress w.phys ||| framesOn ms x else framesOn ms x := by
  unfold framesOn
  by_cases here : w.page = x
  · rw [List.filter_cons_of_pos (by simpa using here), if_pos here, List.foldr_cons]
  · rw [List.filter_cons_of_neg (by simpa using here), if_neg here]

/-- Each frame has its bits in what they come to together. -/
theorem within_framesOn (mem : w ∈ ms) (page : w.page = x) :
    Within (pagingDescGetAddress w.phys) (framesOn ms x) := by
  induction ms with
  | nil => cases mem
  | cons v ms ih =>
    rw [framesOn_cons]
    rcases List.mem_cons.mp mem with rfl | mem
    · rw [if_pos page]
      exact within_or_left _ _
    · split
      · exact (ih mem).trans (within_or_right _ _)
      · exact ih mem

/-- And nothing else is in it. -/
theorem framesOn_within (all : ∀ w ∈ ms, w.page = x → Within (pagingDescGetAddress w.phys) a) :
    Within (framesOn ms x) a := by
  induction ms with
  | nil => exact zero_within a
  | cons v ms ih =>
    rw [List.forall_mem_cons] at all
    rw [framesOn_cons]
    split
    next here => exact (all.1 here).or (ih all.2)
    next => exact ih all.2

/-- The page of a filled table is on the frames of its mappings. -/
theorem Filled.frame {pages : PagingIndexer → Desc} {ctx : Mapping} (h : Filled pages ms ctx all) :
    pagingDescGetAddress (pages x) = framesOn ms x := by
  rw [h.leaf]
  apply Within.antisymm
  · apply foldl_within h.flags
    · rw [getAddress_zero]
      exact zero_within _
    · intro w hw here
      rcases (h.mem w).mp hw with rfl | hw
      · apply h.ctx
        intro w hw page
        exact within_framesOn hw (page.trans here)
      · exact within_framesOn hw here
  · apply framesOn_within
    intro w hw here
    exact (within_foldl h.flags).2 w ((h.mem w).mpr (Or.inr hw)) here

/-! ### The pages that are there -/

/-- A page stays there, and one that is mapped as present comes to be. -/
theorem present_foldl (present : ∀ w ∈ ws, Within flagPresent w.flags ∧ IsFlags w.flags)
    (there : pagingDescGetFlag (L x) flagPresent = true ∨ ∃ w ∈ ws, w.page = x) :
    pagingDescGetFlag (ws.foldl Mapping.apply L x) flagPresent = true := by
  induction ws generalizing L with
  | nil => simpa using there
  | cons v ws ih =>
    rw [List.forall_mem_cons] at present
    rw [List.foldl_cons]
    apply ih present.2
    by_cases here : v.page = x
    · left
      subst here
      rw [Mapping.apply, Function.update_self, ← getFlag_flagsOf (by decide),
        flagsOf_leafEntry present.1.2]
      exact present.1.1.getFlag (by decide)
    · rw [Mapping.apply, Function.update_of_ne (Ne.symm here)]
      apply there.imp_right
      rintro ⟨w, mem, page⟩
      refine ⟨w, ?_, page⟩
      rcases List.mem_cons.mp mem with rfl | mem
      · exact absurd page here
      · exact mem

/-- A page of a filled table is there when it is the context's or one that was mapped. -/
theorem Filled.present {pages : PagingIndexer → Desc} {ctx : Mapping} (h : Filled pages ms ctx all)
    (present : ∀ w ∈ all, Within flagPresent w.flags) :
    pagingDescGetFlag (pages x) flagPresent = true ↔ x = ctx.page ∨ ∃ w ∈ ms, w.page = x := by
  have here : (∃ w ∈ all, w.page = x) ↔ x = ctx.page ∨ ∃ w ∈ ms, w.page = x := by
    simp only [h.mem, or_and_right, exists_or, exists_eq_left]
    exact or_congr_left eq_comm
  rw [← here, h.leaf]
  constructor
  · intro there
    by_contra off
    rw [foldl_apply_of_ne fun w mem page => off ⟨w, mem, page⟩, getFlag_zero] at there
    exact absurd there Bool.false_ne_true
  · intro mapped
    exact present_foldl (fun w mem => ⟨present w mem, h.flags w mem⟩) (Or.inr mapped)

/-! ### The kernel's pages -/

/-- The new table takes frames of its own, and the tables of the kernel stay. -/
theorem taskNewPageTable_stays
    (run : taskNewPageTable g fuel image ist info task s = some (table, s'))
    (fresh : Unused s {s.pml4} (given g s.served s'.served)) : s'.leaf = s.leaf := by
  obtain ⟨s₄, s₅, s₇, eq, eq', part₄, part₅, part₇⟩ := taskNewPageTable_parts run
  have le : s.served < s'.served := by
    rw [eq']
    exact (part₄.1.trans part₅.1).trans part₇.1
  obtain ⟨all, p, e, -⟩ := taskNewPageTable_filled run fresh.nodup fresh.frame
  have stays : Stays s s' s.pml4 := by
    intro t used
    have off : t ∉ given g s.served s'.served := fun mem => fresh.unused t mem s.pml4 rfl used
    rw [given_succ le, List.mem_cons, not_or] at off
    have same := e.frame t off.2 fun π hπ there => off.1 (newRoot_empty.uses ⟨π, hπ, there⟩)
    rw [show (pagingLoadPml4 s' table).mem = s'.mem from rfl] at same
    rw [same]
    ext1 i
    simp [newRoot, pagingLoadPml4, off.1]
  have root : s'.pml4 = s.pml4 := by
    rw [eq']
    rfl
  have kept := stays.leaf
  rwa [loadPml4_of_eq root, loadPml4_of_eq rfl] at kept

/-- The kernel's pages are present. -/
theorem present_kernel : Within flagPresent (wide flagsKernelPage) := by
  unfold Within
  decide

/-- And so are the user's. -/
theorem present_user : Within flagPresent (wide flagsUserPage) := by
  unfold Within
  decide

/-- Every mapping of the new table is present. -/
theorem mappings_present {ids : List Addr}
    (mem : w ∈ mappings (requests image ist info task table) ids) :
    Within flagPresent w.flags := by
  rcases mapping_user_or_kernel mem with ⟨r, user, rfl⟩ | kernel
  · rw [show r.mapping.flags = wide r.flags from rfl, flags_user r user]
    exact present_user
  · rw [kernel]
    exact present_kernel

/-- Two tables translate an address in the same way when its page is there in both, on one
frame. -/
theorem translation_same {s₁ s₂ : State} :
    (∃ p, translation s₁ v = some p ∧ translation s₂ v = some p) ↔
      pagingDescGetFlag (s₁.leaf (pagingIndexerAssign v)) flagPresent = true ∧
        pagingDescGetFlag (s₂.leaf (pagingIndexerAssign v)) flagPresent = true ∧
        pagingDescGetAddress (s₂.leaf (pagingIndexerAssign v))
          = pagingDescGetAddress (s₁.leaf (pagingIndexerAssign v)) := by
  unfold translation
  constructor
  · intro ⟨p, first, second⟩
    simp only [Option.ite_none_right_eq_some, Option.some.injEq] at first second
    refine ⟨first.1, second.1, ?_⟩
    exact (BitVec.add_left_inj _).mp (second.2.trans first.2.symm)
  · intro ⟨first, second, same⟩
    refine ⟨_, if_pos first, ?_⟩
    simp only [if_pos second, same]

/-- An address is where the kernel has it exactly when its page is on the kernel's frame. -/
theorem reachable_iff (run : taskNewPageTable g fuel image ist info task s = some (table, s'))
    (fresh : Unused s {s.pml4} (given g s.served s'.served)) :
    (∃ p, translation (pagingLoadPml4 s' table) v = some p ∧ translation s' v = some p) ↔
      OnFrame s.leaf
        (mappings (requests image ist info task table) (given g (s.served + 1) s'.served))
        task.ctxPage (pagingIndexerAssign v) := by
  obtain ⟨all, p, -, filled⟩ := taskNewPageTable_filled run fresh.nodup fresh.frame
  have kernel := taskNewPageTable_stays run fresh
  have present : ∀ w ∈ all, Within flagPresent w.flags := by
    intro w mem
    rcases (filled.mem w).mp mem with rfl | mem
    · exact present_kernel
    · exact mappings_present mem
  rw [translation_same, filled.present present, filled.frame, kernel]
  constructor
  · intro ⟨mapped, there, frame⟩
    exact ⟨there, frame, mapped⟩
  · intro ⟨there, frame, mapped⟩
    exact ⟨mapped, there, frame⟩

/-- The bytes of the context are where the kernel has them exactly when what else is mapped to
each of its pages is on the kernel's frame there. -/
theorem context_reachable_iff
    (run : taskNewPageTable g fuel image ist info task s = some (table, s'))
    (fresh : Unused s {s.pml4} (given g s.served s'.served)) :
    (∀ k < taskContextSize, ∃ p,
      translation (pagingLoadPml4 s' table) (task.ctx + BitVec.ofNat 64 k) = some p ∧
        translation s' (task.ctx + BitVec.ofNat 64 k) = some p) ↔
    ∀ k < taskContextSize, OnFrame s.leaf
      (mappings (requests image ist info task table) (given g (s.served + 1) s'.served))
      task.ctxPage (pagingIndexerAssign (task.ctx + BitVec.ofNat 64 k)) := by
  apply forall₂_congr
  intro k _
  exact reachable_iff run fresh

end

/-! ### A kernel with a heap -/

/-- The entries of a kernel's tables: one path leads to a page of the heap that both tasks below
have below 4 GiB, and one to a page of its upper end. -/
def heapEntries : List (Addr × BitVec 9 × Desc) := [
  (0x1000, 0, 0x2003), (0x2000, 0, 0x3003), (0x3000, 6, 0x4003), (0x4000, 0x100, 0xd00003),
  (0x1000, 0xfe, 0x5003), (0x5000, 0, 0x6003), (0x6000, 0, 0x7003), (0x7000, 0, 0xe00003)]

/-- A kernel with two pages, whose tables are a tree. -/
def heapKernel : State where
  mem t i := ((heapEntries.find? fun e => e.1 == t && e.2.1 == i).map (·.2.2)).getD 0
  pml4 := 0x1000
  served := 0

/-- The tables at a depth. -/
def heapTables : Nat → List Addr
  | 0 => [0x1000]
  | 1 => [0x2000, 0x5000]
  | 2 => [0x3000, 0x6000]
  | _ => [0x4000, 0x7000]

/-- A child of a table is a table of the next depth. -/
theorem heapKernel_child {t c : Addr} {i : BitVec 9} {n : Nat} (depth : n < 3)
    (at_ : t ∈ heapTables n) (there : child (heapKernel.mem t i) = some c) :
    c ∈ heapTables (n + 1) := by
  have next : ∀ n < 3, heapEntries.all fun e =>
      e.1 ∈ heapTables n → pagingDescGetAddress e.2.2 ∈ heapTables (n + 1) := by decide +kernel
  have entry : heapKernel.mem t i =
      ((heapEntries.find? fun e => e.1 == t && e.2.1 == i).map (·.2.2)).getD 0 := rfl
  rw [entry] at there
  cases found : heapEntries.find? fun e => e.1 == t && e.2.1 == i with
  | none =>
    rw [found] at there
    have absent : child 0 = none := by decide
    cases absent.symm.trans there
  | some e =>
    rw [found] at there
    have here := List.find?_some found
    rw [Bool.and_eq_true, beq_iff_eq, beq_iff_eq] at here
    rw [← Option.some.inj (Option.ite_none_right_eq_some.mp there).2]
    exact of_decide_eq_true (List.all_eq_true.mp (next n depth) e (List.mem_of_find?_eq_some found))
      (here.1 ▸ at_)

/-- The tables of that kernel are at low addresses. -/
theorem heapKernel_uses {t : Addr} (used : Uses heapKernel 0x1000 t) : t.toNat ≤ 0x7000 := by
  obtain ⟨π, le, there⟩ := used
  have follows : ∀ (π : List (BitVec 9)) (n : Nat) (r : Addr), π.length + n ≤ 3 →
      r ∈ heapTables n → Radix.follow child heapKernel.mem r π = some t →
      t ∈ heapTables (π.length + n) := by
    intro π
    induction π with
    | nil =>
      intro n r _ at_ there
      rw [List.length_nil, Nat.zero_add]
      exact Option.some.inj there ▸ at_
    | cons i π ih =>
      intro n r le at_ there
      rw [List.length_cons] at le
      obtain ⟨c, first, rest⟩ := Option.bind_eq_some_iff.mp there
      rw [List.length_cons, Nat.add_right_comm, Nat.add_assoc]
      exact ih (n + 1) c (by omega) (heapKernel_child (by omega) at_ first) rest
  have at_ := follows π 0 0x1000 le (List.mem_singleton_self _) there
  have low : ∀ n ≤ 3, (heapTables n).all fun t => t.toNat ≤ 0x7000 := by decide +kernel
  exact of_decide_eq_true (List.all_eq_true.mp (low _ le) t at_)

/-- The program's task, its context in the page of the gs base. -/
def gsTask : NewTask := ⟨0xa00000, 0xd00040, 0xd00000⟩

/-- The table is made for the kernel with a heap. -/
theorem heapKernel_run {task : NewTask} (stack : Ends (task.rsp - megabyte) task.rsp) : ∃ s',
    taskNewPageTable spaceFrames (2 ^ 28) programImage programIst programInfo task heapKernel =
        some (spaceFrames 0, s') ∧ s'.served ≤ 2 ^ 28 ∧
      Unused heapKernel {heapKernel.pml4} (given spaceFrames heapKernel.served s'.served) := by
  have first : heapKernel.served = 0 := rfl
  obtain ⟨s', run, few, nodup, frames⟩ := spaceFrames_lasting.run (s := heapKernel) (by omega)
    (show ∀ segment ∈ programInfo, Ends 0 segment.length by decide) stack
  rw [first, Nat.zero_add] at few
  refine ⟨s', run, few, nodup, frames, fun t mem r root used => ?_⟩
  rw [Set.mem_singleton_iff] at root
  subst root
  have low := heapKernel_uses used
  obtain ⟨-, -, k, lt, -, rfl⟩ :=
    (spaceFrames_given (m := heapKernel.served) (show s'.served ≤ 2 ^ 29 by omega)).2 t mem
  rw [spaceFrames_toNat (by omega)] at low
  omega

/-- What is mapped to a page is on the frame of the layout. -/
theorem program_framesOn {n : Nat} (le : n ≤ 2 ^ 29) (x : PagingIndexer) :
    Within (framesOn (mappings (requests programImage programIst programInfo programTask
      (spaceFrames 0)) (given spaceFrames 1 n)) x) (programLayout x.number).1 := by
  apply framesOn_within
  intro w mem here
  have follows := program_layout le w mem
  rw [here] at follows
  rw [follows]
  exact Within.refl _

/-- A context in the page of the gs base. -/
theorem context_reachable_iff_gs : ∃ s',
    taskNewPageTable spaceFrames (2 ^ 28) programImage programIst programInfo gsTask heapKernel =
        some (spaceFrames 0, s') ∧
      ∀ k < taskContextSize, ∃ p,
        translation (pagingLoadPml4 s' (spaceFrames 0)) (gsTask.ctx + BitVec.ofNat 64 k) = some p ∧
          translation s' (gsTask.ctx + BitVec.ofNat 64 k) = some p := by
  obtain ⟨s', run, few, fresh⟩ := heapKernel_run
    (show Ends (gsTask.rsp - megabyte) gsTask.rsp by decide)
  refine ⟨s', run, (context_reachable_iff run fresh).mpr fun k lt => ?_⟩
  have same : pagingIndexerAssign (gsTask.ctx + BitVec.ofNat 64 k)
      = pagingIndexerAssign gsTask.ctxPage := by
    revert k
    decide +kernel
  have leaf : heapKernel.leaf (pagingIndexerAssign gsTask.ctxPage) = 0xd00003 := by decide +kernel
  rw [same]
  refine ⟨by rw [leaf]; decide, ?_, Or.inl rfl⟩
  rw [leaf]
  apply Within.antisymm
  · apply within_framesOn (w := (Request.identity flagsKernelPage gsTask.gsBase).mapping)
    · apply requests_mapped
      exact List.mem_append_right _ (List.mem_cons_of_mem _ (List.mem_singleton_self _))
    · decide
  · exact program_framesOn (show s'.served ≤ 2 ^ 29 by omega) _

/-- A context in a page of its own: the kernel has it on a frame, and the task finds none. -/
theorem context_not_always_reachable : ¬ ∀ (g : Nat → Addr) (fuel : Nat) (image : KernelImage)
    (ist : List Addr) (info : List ElfLoadedPage) (task : NewTask) (s s' : State) (table : Addr),
    taskNewPageTable g fuel image ist info task s = some (table, s') →
    Unused s {s.pml4} (given g s.served s'.served) →
    (∀ k < taskContextSize, (translation s (task.ctx + BitVec.ofNat 64 k)).isSome) →
    ∀ k < taskContextSize, ∃ p,
      translation (pagingLoadPml4 s' table) (task.ctx + BitVec.ofNat 64 k) = some p ∧
        translation s' (task.ctx + BitVec.ofNat 64 k) = some p := by
  intro always
  obtain ⟨s', run, few, fresh⟩ := heapKernel_run
    (show Ends (programTask.rsp - megabyte) programTask.rsp by decide)
  have heap : ∀ k < taskContextSize,
      (translation heapKernel (programTask.ctx + BitVec.ofNat 64 k)).isSome := by
    decide +kernel
  have there := (reachable_iff run fresh).mp (always _ _ _ _ _ _ _ _ _ run fresh heap 0 (by decide))
  have within := program_framesOn (show s'.served ≤ 2 ^ 29 by omega)
    (pagingIndexerAssign (programTask.ctx + BitVec.ofNat 64 0))
  have frame := there.frame
  have leaf : heapKernel.leaf (pagingIndexerAssign (programTask.ctx + BitVec.ofNat 64 0)) =
      0xe00003 := by
    decide +kernel
  rw [leaf] at frame
  rw [show mappings (requests programImage programIst programInfo programTask (spaceFrames 0))
    (given spaceFrames 1 s'.served) = mappings (requests programImage programIst programInfo
      programTask (spaceFrames 0)) (given spaceFrames (heapKernel.served + 1) s'.served) from rfl,
    ← frame] at within
  revert within
  unfold Within
  decide

end Skylight.Paging
