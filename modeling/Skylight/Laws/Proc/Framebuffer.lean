import Skylight.Laws.Proc.Pmap

/-!
# Who holds the framebuffer

`fb_req` and `fb_kill` called by processes with page tables of their own, in any order. The
holder is recorded when it asks, but `fb_kill` asks nobody who he is: it unmaps in the table
of the caller and forgets the holder, whose pages stay. So the record is right exactly as
long as only the holder gives the framebuffer back.

`framebuffer_exclusive_iff` speaks of whole runs: exclusive in every state, just when every
`fb_kill` is its holder's. A step lemma for each call (`FbKept.step`) carries the record;
`FbKept.stolen` is why one wrong call is enough.
-/

namespace Skylight.Calls

open Skylight.Paging

/-- A page of the framebuffer is open to the process. -/
def Holds (framebuffer : Framebuffer) (k : Kernel) (caller : Caller) : Prop :=
  ∃ r ∈ framebuffer.requests, Open k.tables caller.cr3 r.mapping.page

/-- One process at most holds the framebuffer, and it is the one recorded. -/
structure Exclusive (framebuffer : Framebuffer) (procs : Set Caller) (k : Kernel) : Prop where
  one : ∀ c ∈ procs, ∀ c' ∈ procs, Holds framebuffer k c → Holds framebuffer k c' → c = c'
  recorded : ∀ c ∈ procs, Holds framebuffer k c → k.currentFbHolderPid = c.pid

/-- A system call for the framebuffer. -/
inductive FbCall
  | req (caller : Caller)
  | kill (caller : Caller)

/-- A call by one of the processes, with frames that none of the page tables use. -/
inductive FbStep (g : Nat → Addr) (framebuffer : Framebuffer) (procs : Set Caller)
    (roots : Set Addr) : Kernel → FbCall → Kernel → Prop
  | req {k k' : Kernel} {caller : Caller} {fuel : Nat} {answer : Addr} (mem : caller ∈ procs)
      (run : fbReq g fuel framebuffer caller k = some (answer, k'))
      (unused : Unused k.tables roots (given g k.tables.served k'.tables.served)) :
      FbStep g framebuffer procs roots k (.req caller) k'
  | kill {k : Kernel} {caller : Caller} (mem : caller ∈ procs) :
      FbStep g framebuffer procs roots k (.kill caller) (fbKill framebuffer caller k)

/-- Calls one after the other, each with the kernel it leaves. -/
inductive FbRun (g : Nat → Addr) (framebuffer : Framebuffer) (procs : Set Caller)
    (roots : Set Addr) : Kernel → List (FbCall × Kernel) → Prop
  | nil (k : Kernel) : FbRun g framebuffer procs roots k []
  | cons {k k' : Kernel} {call : FbCall} {l : List (FbCall × Kernel)}
      (step : FbStep g framebuffer procs roots k call k')
      (rest : FbRun g framebuffer procs roots k' l) :
      FbRun g framebuffer procs roots k ((call, k') :: l)

/-- The framebuffer is given back by its holder, if it is held. -/
def FbCall.Own (k : Kernel) : FbCall → Prop
  | .req _ => True
  | .kill caller => k.currentFbHolderPid = nobody ∨ k.currentFbHolderPid = caller.pid

/-- All calls of a run are like that. -/
def AllOwn : Kernel → List (FbCall × Kernel) → Prop
  | _, [] => True
  | k, (call, k') :: l => call.Own k ∧ AllOwn k' l

/-- Processes are told apart by their pids and have page tables of their own. -/
structure Processes (procs : Set Caller) (roots : Set Addr) : Prop where
  pid : ∀ c ∈ procs, ∀ c' ∈ procs, c.pid = c'.pid → c = c'
  cr3 : ∀ c ∈ procs, ∀ c' ∈ procs, c.cr3 = c'.cr3 → c = c'
  somebody : ∀ c ∈ procs, c.pid ≠ nobody
  root : ∀ c ∈ procs, c.cr3 ∈ roots

/-- The page tables are trees apart, who holds the framebuffer is recorded, and who is recorded
holds it. -/
structure FbKept (framebuffer : Framebuffer) (procs : Set Caller) (roots : Set Addr)
    (k : Kernel) : Prop where
  spaces : Spaces k.tables roots
  recorded : ∀ c ∈ procs, Holds framebuffer k c → k.currentFbHolderPid = c.pid
  holds : k.currentFbHolderPid ≠ nobody →
    ∃ c ∈ procs, k.currentFbHolderPid = c.pid ∧ Holds framebuffer k c

section
variable {g : Nat → Addr} {framebuffer : Framebuffer} {procs : Set Caller} {roots : Set Addr}
  {k k' : Kernel} {call : FbCall} {caller : Caller} {l : List (FbCall × Kernel)} {fuel : Nat}
  {answer : Addr} {s s' : Paging.State} {c : Addr}

/-- A right record makes the framebuffer exclusive. -/
theorem FbKept.exclusive (h : FbKept framebuffer procs roots k) (ps : Processes procs roots) :
    Exclusive framebuffer procs k where
  one c hc c' hc' held held' :=
    ps.pid c hc c' hc' ((h.recorded c hc held).symm.trans (h.recorded c' hc' held'))
  recorded := h.recorded

/-- A table that stays shows the same pages. -/
theorem Stays.open_iff (h : Stays s s' c) (x : PagingIndexer) : Open s' c x ↔ Open s c x := by
  rw [Open, Open, h.leaf]

/-- A process whose table stays holds what it held. -/
theorem holds_iff (h : Stays k.tables k'.tables caller.cr3) :
    Holds framebuffer k' caller ↔ Holds framebuffer k caller :=
  exists_congr fun _ => and_congr_right fun _ => Stays.open_iff h _

/-- The last page that is mapped is open if it is a user page. -/
theorem mapAll_last_open {rs : List Request} {r : Request} (user : r.flags = flagsUserPage)
    (run : mapAll g fuel (pagingLoadPml4 s c) (rs ++ [r]) = some s')
    (wf : WellFormed (pagingLoadPml4 s c))
    (fresh : Fresh (pagingLoadPml4 s c) (given g s.served s'.served)) :
    Open s' c r.mapping.page := by
  rw [mapAll, List.foldlM_append] at run
  obtain ⟨s₁, first, last⟩ := Option.bind_eq_some_iff.mp run
  have call : ((pagingMapPage g fuel s₁ r.virt r.phys r.flags).map (·.2)).bind pure =
      some s' := last
  obtain ⟨s₂, mapped, eq⟩ := Option.bind_eq_some_iff.mp call
  obtain rfl : s₂ = s' := Option.some.inj eq
  obtain ⟨⟨a, s'⟩, own, rfl⟩ := Option.map_eq_some_iff.mp mapped
  obtain ⟨le, spec⟩ := mapAll_maps first
  have le' := (mapPage_runs own).1
  have m := spec wf (by
    rw [given_append (show s.served ≤ s₁.served from le) le'] at fresh
    exact fresh.left)
  have fresh₁ := m.fresh le' fresh
  obtain ⟨-, all, -, e⟩ := m
  have root : s₁.pml4 = c := e.root
  rw [← loadPml4_of_eq root] at own
  obtain ⟨-, -, -, -, ids, -, leaf⟩ := mapPage_local own (by rw [loadPml4_of_eq root]; exact e.wf)
    (by rw [loadPml4_of_eq root]; exact fresh₁)
  rw [Open, leaf, List.foldl_append, List.foldl_cons, List.foldl_nil, Mapping.apply,
    show r.mapping.page = pagingIndexerAssign r.virt from rfl, Function.update_self,
    ← getFlag_flagsOf (by decide), flagsOf_leafEntry (isFlags_wide _), user]
  exact user_open

/-- Who asks while the framebuffer is free holds it afterwards. -/
theorem fbReq_holds (pages : framebuffer.requests ≠ []) (free : k.currentFbHolderPid = nobody)
    (run : fbReq g fuel framebuffer caller k = some (answer, k'))
    (wf : WellFormed (pagingLoadPml4 k.tables caller.cr3))
    (fresh : Fresh (pagingLoadPml4 k.tables caller.cr3)
      (given g k.tables.served k'.tables.served)) : Holds framebuffer k' caller := by
  rcases fbReq_cases run with ⟨held, -⟩ | ⟨-, -, s, mapped, rfl⟩
  · exact absurd free held
  · obtain ⟨rs, r, split⟩ := (List.eq_nil_or_concat framebuffer.requests).resolve_left pages
    rw [List.concat_eq_append] at split
    have mem : r ∈ framebuffer.requests := by
      rw [split]
      exact List.mem_append_right _ (List.mem_singleton_self r)
    have user : r.flags = flagsUserPage := by
      obtain ⟨i, -, rfl⟩ := List.mem_map.mp mem
      rfl
    rw [show (pagesBetween 0 framebuffer.size).map framebuffer.request = rs ++ [r] from split]
      at mapped
    have last : Open s caller.cr3 r.mapping.page := mapAll_last_open user mapped wf fresh
    exact ⟨r, mem, last⟩

/-- Who gives it back does not hold it afterwards. -/
theorem fbKill_not_holds (held : k.currentFbHolderPid ≠ nobody)
    (wf : WellFormed (pagingLoadPml4 k.tables caller.cr3)) :
    ¬ Holds framebuffer (fbKill framebuffer caller k) caller := by
  obtain ⟨-, -, -, leaf⟩ := @fbKill_unmapped _ _ framebuffer held wf
  rintro ⟨r, mem, shown⟩
  obtain ⟨i, hi, rfl⟩ := List.mem_map.mp mem
  rw [Open, leaf, if_pos ⟨i, hi, rfl⟩, getFlag_zero] at shown
  cases shown

/-- A call that maps or unmaps for one process leaves the others. -/
theorem others_stay {taken : List Addr} (ps : Processes procs roots) (sp : Spaces k.tables roots)
    (here : Local k.tables k'.tables caller.cr3 taken) (un : Unused k.tables roots taken)
    (mem : caller ∈ procs) {c : Caller} (hc : c ∈ procs) (ne : c ≠ caller) :
    Stays k.tables k'.tables c.cr3 :=
  here.stays sp un (ps.root _ mem) (ps.root _ hc) fun same => ne (ps.cr3 _ hc _ mem same)

/-- No frames, nothing in use. -/
theorem Unused.nil {roots : Set Addr} : Unused s roots [] :=
  ⟨List.nodup_nil, by simp, by simp⟩

/-- One call keeps the record if it is the holder who gives back: the pages of the framebuffer are
open to the recorded process and to no other. -/
theorem FbKept.step (pages : framebuffer.requests ≠ []) (ps : Processes procs roots)
    (h : FbKept framebuffer procs roots k) (step : FbStep g framebuffer procs roots k call k')
    (own : call.Own k) : FbKept framebuffer procs roots k' := by
  cases step with
  | @req k' caller fuel answer mem run unused =>
    rcases fbReq_cases run with ⟨-, -, rfl⟩ | ⟨free, -⟩
    · exact h
    · have wf := h.spaces.wf _ (ps.root _ mem)
      have fresh := unused.fresh (ps.root _ mem)
      obtain ⟨⟨here, -⟩, -, now⟩ := fbReq_mapped free run wf fresh
      refine ⟨here.spaces h.spaces unused (ps.root _ mem), fun c hc held => ?_, fun _ =>
        ⟨caller, mem, now, fbReq_holds pages free run wf fresh⟩⟩
      by_cases same : c = caller
      · rw [now, same]
      · -- nobody held it before, and the others' tables stay
        rw [holds_iff (others_stay ps h.spaces here unused mem hc same)] at held
        exact absurd ((h.recorded c hc held).symm.trans free) (ps.somebody c hc)
  | @kill caller mem =>
    by_cases free : k.currentFbHolderPid = nobody
    · rw [fbKill, if_pos free]
      exact h
    · have holder := own.resolve_left free
      have wf := h.spaces.wf _ (ps.root _ mem)
      obtain ⟨here, -, -, -⟩ := @fbKill_unmapped _ _ framebuffer free wf
      have forgets : (fbKill framebuffer caller k).currentFbHolderPid = nobody := by
        rw [fbKill, if_neg free]
      refine ⟨here.spaces h.spaces Unused.nil (ps.root _ mem), fun c hc held => ?_, fun some =>
        absurd forgets some⟩
      by_cases same : c = caller
      · exact absurd (same ▸ held) (fbKill_not_holds free wf)
      · rw [holds_iff (others_stay ps h.spaces here Unused.nil mem hc same)] at held
        exact absurd (ps.pid c hc caller mem ((h.recorded c hc held).symm.trans holder)) same

/-- If somebody else gives it back, the holder still has it and is not recorded, so the next process
that asks is given it beside him. -/
theorem FbKept.stolen (ps : Processes procs roots) (h : FbKept framebuffer procs roots k)
    (step : FbStep g framebuffer procs roots k call k') (other : ¬ call.Own k) :
    ¬ Exclusive framebuffer procs k' := by
  cases step with
  | req => exact absurd trivial other
  | @kill caller mem =>
    obtain ⟨free, foreign⟩ := not_or.mp other
    obtain ⟨c, hc, holder, held⟩ := h.holds free
    obtain ⟨here, -, -, -⟩ := @fbKill_unmapped _ _ framebuffer free
      (h.spaces.wf _ (ps.root _ mem))
    have ne : c ≠ caller := by
      rintro rfl
      exact foreign holder
    rw [← holds_iff (others_stay ps h.spaces here Unused.nil mem hc ne)] at held
    have forgets : (fbKill framebuffer caller k).currentFbHolderPid = nobody := by
      rw [fbKill, if_neg free]
    intro exclusive
    exact ps.somebody c hc ((exclusive.recorded c hc held).symm.trans forgets)

/-- In every run the framebuffer is exclusive in every state exactly if it has no pages or
only its holder ever gives it back. -/
theorem framebuffer_exclusive_iff (ps : Processes procs roots) (start : Spaces k.tables roots)
    (free : k.currentFbHolderPid = nobody) (none : ∀ c ∈ procs, ¬ Holds framebuffer k c)
    (run : FbRun g framebuffer procs roots k l) :
    (∀ e ∈ l, Exclusive framebuffer procs e.2) ↔ framebuffer.requests = [] ∨ AllOwn k l := by
  by_cases pages : framebuffer.requests = []
  · refine iff_of_true (fun e _ => ?_) (Or.inl pages)
    have nobodyHolds (c : Caller) : ¬ Holds framebuffer e.2 c := by
      rintro ⟨r, mem, -⟩
      rw [pages] at mem
      cases mem
    exact ⟨fun c _ _ _ held => absurd held (nobodyHolds c), fun c _ held =>
      absurd held (nobodyHolds c)⟩
  have kept : FbKept framebuffer procs roots k :=
    ⟨start, fun c hc held => absurd held (none c hc), fun some => absurd free some⟩
  rw [or_iff_right pages]
  clear start free none
  -- A call that is not its holder's breaks the record at once, and nothing is asked of what
  -- follows.
  induction run with
  | nil => simp [AllOwn]
  | @cons k k' call l step rest ih =>
    rw [List.forall_mem_cons, AllOwn]
    constructor
    · intro ⟨exclusive, later⟩
      have own : call.Own k := by
        by_contra other
        exact kept.stolen ps step other exclusive
      exact ⟨own, (ih (kept.step pages ps step own)).mp later⟩
    · intro ⟨own, later⟩
      have kept' := kept.step pages ps step own
      exact ⟨kept'.exclusive ps, (ih kept').mpr later⟩

end

/-! ### Two processes -/

def firstCaller : Caller := ⟨0, 0x2000⟩

def secondCaller : Caller := ⟨1, 0x3000⟩

def twoCallers : Set Caller := {firstCaller, secondCaller}

/-- The roots of the kernel and of the two processes. -/
def threeRoots : Set Addr := {0x1000, 0x2000, 0x3000}

/-- The two processes have pids and tables of their own. -/
theorem twoCallers_processes : Processes twoCallers threeRoots := by
  constructor
  · rintro c (rfl | rfl) c' (rfl | rfl) same
    · rfl
    · exact absurd same (by decide)
    · exact absurd same (by decide)
    · rfl
  · rintro c (rfl | rfl) c' (rfl | rfl) same
    · rfl
    · exact absurd same (by decide)
    · exact absurd same (by decide)
    · rfl
  · rintro c (rfl | rfl)
    · decide
    · decide
  · rintro c (rfl | rfl)
    · exact Or.inr (Or.inl rfl)
    · exact Or.inr (Or.inr rfl)

/-- The three roots are trees apart. -/
theorem threeRoots_spaces : Spaces machineRoot threeRoots := .of_empty fun _ _ => ⟨fun _ => rfl⟩

/-- None of the frames is in one of them. -/
theorem threeRoots_unused {n : Nat} (le : n ≤ 2 ^ 29) :
    Unused machineRoot threeRoots (given spaceFrames 0 n) := by
  obtain ⟨nodup, frames⟩ := spaceFrames_given (m := 0) le
  refine ⟨nodup, fun t mem => ⟨(frames t mem).1, (frames t mem).2.1⟩, fun t mem r hr used => ?_⟩
  obtain ⟨-, -, k, lt, -, eq⟩ := frames t mem
  have same := Empty.uses (r := r) (s := machineRoot) ⟨fun _ => rfl⟩ used
  have value := congrArg BitVec.toNat (same.symm.trans eq)
  rw [spaceFrames_toNat (Nat.lt_of_lt_of_le lt le)] at value
  have low : r.toNat ≤ 0x3000 := by
    rcases hr with rfl | rfl | rfl
    · decide
    · decide
    · decide
  omega

/-- There are frames for all that is mapped first under one of the roots. -/
theorem threeRoots_ample {r : Addr} (hr : r ∈ threeRoots) :
    Ample spaceFrames (2 ^ 28) (pagingLoadPml4 machineRoot r).lacking
    (pagingLoadPml4 machineRoot r) where
  wf := threeRoots_spaces.wf r hr
  supplied := by
    have less := lacking_lt (pagingLoadPml4 machineRoot r)
    rw [Supplied, show (pagingLoadPml4 machineRoot r).served = 0 from rfl, Nat.zero_add]
    exact (threeRoots_unused (by omega)).fresh hr
  deep := lacking_lt _
  total := Nat.zero_add _

/-- A framebuffer of one page. -/
def smallFramebuffer : Framebuffer := ⟨0xffff8000fd000000, 16, 64, 32⟩

/-- The first process asks for a framebuffer. -/
theorem framebuffer_req (framebuffer : Framebuffer) : ∃ k',
    FbStep spaceFrames framebuffer twoCallers threeRoots (.boot machineRoot fun _ => 0)
      (.req firstCaller) k' ∧ k'.currentFbHolderPid = 0 ∧ k'.tables.served ≤ 2 ^ 29 := by
  have root : firstCaller.cr3 ∈ threeRoots := Or.inr (Or.inl rfl)
  obtain ⟨s, run, ample⟩ := (threeRoots_ample root).mapAll framebuffer.requests
  have bound : s.served ≤ 2 ^ 29 := by
    have total := ample.total
    have less := lacking_lt (pagingLoadPml4 machineRoot firstCaller.cr3)
    omega
  have asked : fbReq spaceFrames (2 ^ 28) framebuffer firstCaller (.boot machineRoot fun _ => 0) =
      some (framebuffer.frameAddr, { Kernel.boot machineRoot fun _ => 0 with
        currentFbHolderPid := 0, tables := pagingLoadPml4 s machineRoot.pml4 }) := by
    rw [fbReq, if_neg (not_not.mpr (show (Kernel.boot machineRoot fun _ => 0).currentFbHolderPid =
      nobody from rfl))]
    exact Option.bind_eq_some_iff.mpr ⟨s, by
      rw [mapPages, if_pos framebuffer.ends]
      exact run, rfl⟩
  exact ⟨_, .req (Or.inl rfl) asked (threeRoots_unused bound), rfl, bound⟩

/-- At first nobody holds it. -/
theorem smallFramebuffer_none (c : Caller) :
    ¬ Holds smallFramebuffer (.boot machineRoot fun _ => 0) c := by
  rintro ⟨r, -, shown⟩
  rw [Open, Empty.leaf ⟨fun _ => rfl⟩, getFlag_zero] at shown
  cases shown

/-- The first of the two processes asks for it. -/
theorem framebuffer_exclusive_two : ∃ k', Exclusive smallFramebuffer twoCallers k' ∧
    k'.currentFbHolderPid = 0 := by
  obtain ⟨k', step, holder, -⟩ := framebuffer_req smallFramebuffer
  have all := (framebuffer_exclusive_iff twoCallers_processes threeRoots_spaces rfl
    (fun c _ => smallFramebuffer_none c) (.cons step (.nil k'))).mpr (Or.inr ⟨trivial, trivial⟩)
  exact ⟨k', all _ (List.mem_singleton_self _), holder⟩

/-- The second process gives back what the first holds. -/
theorem framebuffer_not_always_exclusive : ¬ ∀ (g : Nat → Addr) (framebuffer : Framebuffer)
    (procs : Set Caller) (roots : Set Addr) (k : Kernel) (l : List (FbCall × Kernel)),
    Processes procs roots → Spaces k.tables roots → k.currentFbHolderPid = nobody →
    (∀ c ∈ procs, ¬ Holds framebuffer k c) → FbRun g framebuffer procs roots k l →
    ∀ e ∈ l, Exclusive framebuffer procs e.2 := by
  intro all
  obtain ⟨k', step, holder, -⟩ := framebuffer_req smallFramebuffer
  have kept : FbKept smallFramebuffer twoCallers threeRoots (.boot machineRoot fun _ => 0) :=
    ⟨threeRoots_spaces, fun c _ held => absurd held (smallFramebuffer_none c), fun some =>
      absurd rfl some⟩
  have kept' := kept.step (by decide) twoCallers_processes step trivial
  have second : FbStep spaceFrames smallFramebuffer twoCallers threeRoots k' (.kill secondCaller)
      (fbKill smallFramebuffer secondCaller k') := .kill (Or.inr rfl)
  apply kept'.stolen twoCallers_processes second
  · rw [FbCall.Own, holder]
    decide
  · exact all _ _ _ _ _ _ twoCallers_processes threeRoots_spaces rfl
      (fun c _ => smallFramebuffer_none c) (.cons step (.cons second (.nil _)))
      _ (List.mem_cons_of_mem _ (List.mem_singleton_self _))

end Skylight.Calls
