import Skylight.Lib.Holding
import Skylight.Laws.Proc.Escape
import Skylight.Laws.Proc.Keyboard
import Skylight.Laws.Proc.Punmap

/-!
# Processes beside each other

All calls that touch page tables, made by processes in any order: tasks are created, and map,
unmap, take and give back pages, the framebuffer and the keyboard. The frames that user code gets
at are things with holders, and page tables and what the kernel keeps are reserved, so what holds
of the processes comes from `Skylight.Holding`.

`processes_isolated` is about every state of every run. The step law has a lemma for each call
(`Isolated.create`, `Isolated.pmap`, `Isolated.punmap`, `Isolated.fbReq`, `Isolated.fbKill`,
`Isolated.kbMan`, `Isolated.keep`), and all of them go through `Isolated.change`. Frames come
from `pmm_alloc_page` as frames that nobody has; calls of `pmap` meet the condition of
`pmap_confined_iff`, and `fb_kill` is its holder's. Runs in which one of the two is broken are
the subject of `Laws.Proc.Escape` and `Laws.Proc.Framebuffer`.
-/

namespace Skylight.Calls

open Skylight.Paging Skylight.Holding

/-- The processes, the roots of all page tables, the frames that the kernel keeps to itself, and
the kernel. -/
structure Populated where
  procs : Set Caller
  roots : Set Addr
  kept : Set Addr
  kernel : Kernel

/-- The frames of the framebuffer. -/
def Framebuffer.frames (framebuffer : Framebuffer) : Set Addr :=
  {f | ∃ r ∈ framebuffer.requests, pagingDescGetAddress r.phys = f}

namespace Populated

/-- A page of the process is open on the frame. -/
def Reaches (y : Populated) (c : Caller) (f : Addr) : Prop :=
  c ∈ y.procs ∧ ∃ x, Open y.kernel.tables c.cr3 x ∧ frameOf y.kernel.tables c.cr3 x = f

/-- The frames that the kernel keeps, and those of page tables. -/
def reserved (y : Populated) : Set Addr :=
  {f | f ∈ y.kept ∨ ∃ r ∈ y.roots, Uses y.kernel.tables r f}

/-- Neither a process nor the kernel has the frame, and it is not on the screen. -/
structure Unclaimed (framebuffer : Framebuffer) (y : Populated) (f : Addr) : Prop where
  unreserved : f ∉ y.reserved
  unreached : ∀ c, ¬ y.Reaches c f
  off_screen : f ∉ framebuffer.frames

/-- What `pmm_alloc_page` gives: frames that nobody has. -/
structure Spare (framebuffer : Framebuffer) (y : Populated) (fs : List Addr) : Prop where
  nodup : fs.Nodup
  frame : ∀ t ∈ fs, t ≠ 0 ∧ IsFrame t
  unclaimed : ∀ t ∈ fs, y.Unclaimed framebuffer t

/-- User code of the process gets at the byte. -/
def Touches (y : Populated) (c : Caller) (a : Addr) : Prop :=
  ∃ f o : Addr, y.Reaches c f ∧ o < 4096 ∧ f + o = a

/-- The kernel after a call. -/
def after (y : Populated) (k : Kernel) : Populated := { y with kernel := k }

/-- A call by one of the processes, or what comes in between: a new process, a page for the kernel,
a key, a write of user code. The calls that map find nothing in the way, and only who holds the
framebuffer gives it back. -/
inductive Step (g : Nat → Addr) (framebuffer : Framebuffer) : Populated → Populated → Prop
  | create {y : Populated} {fuel : Nat} {image : KernelImage} {ist : List Addr}
      {info : List ElfLoadedPage} {task : NewTask} {caller : Caller} {s : Paging.State}
      (run : taskNewPageTable g fuel image ist info task y.kernel.tables = some (caller.cr3, s))
      (pid : caller.pid ≠ nobody ∧ ∀ c ∈ y.procs, c.pid ≠ caller.pid)
      (spare : y.Spare framebuffer (given g y.kernel.tables.served s.served))
      (program : ∀ r ∈ userRequests info task,
        Undisturbed (mappings (requests image ist info task caller.cr3)
          (given g (y.kernel.tables.served + 1) s.served)) r ∧
        pagingDescGetAddress r.phys ∉ given g y.kernel.tables.served s.served ∧
        y.Unclaimed framebuffer (pagingDescGetAddress r.phys)) :
      Step g framebuffer y
        { y with
          procs := insert caller y.procs
          roots := insert caller.cr3 y.roots
          kernel := { y.kernel with tables := s } }
  | keep {y : Populated} {f : Addr} (unclaimed : y.Unclaimed framebuffer f) :
      Step g framebuffer y { y with kept := insert f y.kept }
  | pmap {y : Populated} {caller : Caller} {fuel : Nat} {virt answer : Addr} {s : Paging.State}
      (mem : caller ∈ y.procs)
      (run : pmap g fuel caller.cr3 virt y.kernel.tables = some (answer, s))
      (spare : y.Spare framebuffer (given g y.kernel.tables.served s.served))
      (vacant : Vacant y.kernel.tables caller.cr3 answer (g y.kernel.tables.served)
        (given g (y.kernel.tables.served + 1) s.served)) :
      Step g framebuffer y (y.after { y.kernel with tables := s })
  | punmap {y : Populated} {fuel : Nat} {virt : Addr} {s : Paging.State}
      (run : punmap g fuel virt y.kernel.tables = some s)
      (spare : y.Spare framebuffer (given g y.kernel.tables.served s.served)) :
      Step g framebuffer y (y.after { y.kernel with tables := s })
  | fbReq {y : Populated} {caller : Caller} {fuel : Nat} {answer : Addr} {k : Kernel}
      (mem : caller ∈ y.procs) (run : fbReq g fuel framebuffer caller y.kernel = some (answer, k))
      (spare : y.Spare framebuffer (given g y.kernel.tables.served k.tables.served))
      (settled : y.kernel.currentFbHolderPid = nobody → Settled y.kernel.tables caller.cr3
        (given g y.kernel.tables.served k.tables.served) framebuffer.requests) :
      Step g framebuffer y (y.after k)
  | fbKill {y : Populated} {caller : Caller} (mem : caller ∈ y.procs)
      (own : (FbCall.kill caller).Own y.kernel) :
      Step g framebuffer y (y.after (fbKill framebuffer caller y.kernel))
  | kbMan {y : Populated} {caller : Caller} {fuel : Nat} {taking : Bool} {answer : Addr}
      {k : Kernel} (mem : caller ∈ y.procs)
      (run : kbMan g fuel taking caller y.kernel = some (answer, k))
      (spare : y.Spare framebuffer (given g y.kernel.tables.served k.tables.served))
      (settled : answer ≠ 0 → Settled y.kernel.tables caller.cr3
        (given g (y.kernel.tables.served + 1) k.tables.served) [⟨answer, answer, flagsUserPage⟩]) :
      Step g framebuffer y (y.after k)
  | key {y : Populated} (keycode : BitVec 8) :
      Step g framebuffer y (y.after (hidRegisterKeystroke keycode y.kernel).2)
  | write {y : Populated} (bytes : Addr → BitVec 8) :
      Step g framebuffer y (y.after { y.kernel with bytes := bytes })

/-- The page tables are trees apart, every frame is reached by one process at most, and those of
page tables and the kernel's by none. The framebuffer is reached where its holder has it. -/
structure Isolated (framebuffer : Framebuffer) (y : Populated) : Prop where
  processes : Processes y.procs y.roots
  spaces : Spaces y.kernel.tables y.roots
  loaded : y.kernel.tables.pml4 ∈ y.roots ∧ ∀ c ∈ y.procs, c.cr3 ≠ y.kernel.tables.pml4
  sound : Sound y.Reaches y.reserved
  screen : ∀ c ∈ y.procs, ∀ x, Open y.kernel.tables c.cr3 x →
    frameOf y.kernel.tables c.cr3 x ∈ framebuffer.frames →
    y.kernel.currentFbHolderPid = c.pid ∧ ∃ r ∈ framebuffer.requests, r.mapping.page = x
  off_screen : ∀ f ∈ framebuffer.frames, f ∉ y.reserved

/-- Before the first process: the kernel's own table, and a framebuffer that nobody holds. -/
structure Start (framebuffer : Framebuffer) (y : Populated) : Prop where
  procs : y.procs = ∅
  roots : y.roots = {y.kernel.tables.pml4}
  wf : WellFormed y.kernel.tables
  free : y.kernel.currentFbHolderPid = nobody
  off_screen : ∀ f ∈ framebuffer.frames, f ∉ y.reserved

section
variable {g : Nat → Addr} {framebuffer : Framebuffer} {y y' y₀ : Populated} {caller c d : Caller}
  {k : Kernel} {fs : List Addr} {f : Addr} {x : PagingIndexer}

/-- Frames that nobody has are in no table. -/
theorem Spare.unused (h : y.Spare framebuffer fs) : Unused y.kernel.tables y.roots fs where
  nodup := h.nodup
  frame := h.frame
  unused t mem r hr used := (h.unclaimed t mem).unreserved (Or.inr ⟨r, hr, used⟩)

/-- Before the first process there is nothing to reach. -/
theorem Start.isolated (h : y.Start framebuffer) : y.Isolated framebuffer where
  processes := by
    constructor <;> rw [h.procs] <;> rintro c ⟨⟩
  spaces := by
    constructor
    case wf =>
      intro r hr
      rw [h.roots] at hr
      rw [hr]
      exact h.wf
    case apart =>
      intro r hr r' hr' _ _ _
      rw [h.roots] at hr hr'
      exact hr.trans hr'.symm
  loaded := by
    rw [h.roots, h.procs]
    exact ⟨rfl, fun c no => nomatch no⟩
  sound := by
    have none (c : Caller) (f : Addr) : ¬ y.Reaches c f := by
      rintro ⟨mem, -⟩
      rw [h.procs] at mem
      cases mem
    exact ⟨fun c _ f held => absurd held (none c f), fun f _ c => none c f⟩
  screen := by
    rw [h.procs]
    rintro c ⟨⟩
  off_screen := h.off_screen

/-- A process whose tables stay reaches what it reached. -/
theorem reaches_of_stays (stays : Stays y.kernel.tables k.tables c.cr3) :
    (y.after k).Reaches c f ↔ y.Reaches c f := by
  apply and_congr_right
  intro _
  apply exists_congr
  intro x
  rw [frameOf, frameOf, Open, Open]
  show pagingDescGetFlag ((pagingLoadPml4 k.tables c.cr3).leaf x) _ = _ ∧
    pagingDescGetAddress ((pagingLoadPml4 k.tables c.cr3).leaf x) = f ↔ _
  rw [stays.leaf]

/-- What is reserved after a change of one tree was reserved, or was taken for it. -/
theorem reserved_after {r : Addr} (h : y.Isolated framebuffer) (hr : r ∈ y.roots)
    (here : Local y.kernel.tables k.tables r fs) (spare : y.Spare framebuffer fs)
    (mem : f ∈ (y.after k).reserved) : f ∈ y.reserved ∨ f ∈ fs := by
  rcases mem with kept | ⟨q, hq, used⟩
  · exact Or.inl (Or.inl kept)
  · by_cases same : q = r
    · rw [same] at used
      exact (here.news f used).imp_left fun old => Or.inr ⟨r, hr, old⟩
    · have stays := here.stays h.spaces spare.unused hr hq same
      exact Or.inl (Or.inr ⟨q, hq, stays.uses.mp used⟩)

/-- A call that maps or unmaps for one process: its pages stay on their frames, or are on frames of
`new`, which nobody else has. -/
theorem Isolated.change (h : y.Isolated framebuffer) (new : Set Addr) (mem : caller ∈ y.procs)
    (here : Local y.kernel.tables k.tables caller.cr3 fs) (spare : y.Spare framebuffer fs)
    (root : k.tables.pml4 = y.kernel.tables.pml4)
    (shown : ∀ x, Open k.tables caller.cr3 x →
      (Open y.kernel.tables caller.cr3 x ∧
        frameOf k.tables caller.cr3 x = frameOf y.kernel.tables caller.cr3 x) ∨
      frameOf k.tables caller.cr3 x ∈ new)
    (fresh : ∀ t ∈ new, t ∉ fs ∧ t ∉ y.reserved ∧ ∀ c, c ≠ caller → ¬ y.Reaches c t)
    (screen : ∀ c ∈ y.procs, ∀ x, Open k.tables c.cr3 x →
      frameOf k.tables c.cr3 x ∈ framebuffer.frames →
      k.currentFbHolderPid = c.pid ∧ ∃ r ∈ framebuffer.requests, r.mapping.page = x) :
    (y.after k).Isolated framebuffer where
  processes := h.processes
  spaces := here.spaces h.spaces spare.unused (h.processes.root _ mem)
  loaded := by
    show k.tables.pml4 ∈ y.roots ∧ ∀ c ∈ y.procs, c.cr3 ≠ k.tables.pml4
    rw [root]
    exact h.loaded
  sound := by
    have taken : ∀ t ∈ (y.after k).reserved, t ∈ y.reserved ∨ t ∈ fs := fun t =>
      reserved_after h (h.processes.root _ mem) here spare
    have gains : Gains y.Reaches (y.after k).Reaches caller new := by
      constructor
      case own =>
        rintro t ⟨-, x, user, rfl⟩
        exact (shown x user).imp_left fun ⟨was, same⟩ => ⟨mem, x, was, same.symm⟩
      case others =>
        intro c t ne now
        have stays := others_stay h.processes h.spaces here spare.unused mem now.1 ne
        exact (reaches_of_stays stays).mp now
    apply h.sound.step gains
    · exact fun t ht c ne => (fresh t ht).2.2 c ne
    · intro t ht now
      exact (taken t now).elim (fresh t ht).2.1 (fresh t ht).1
    · exact fun t now => (taken t now).imp_right fun ht => (spare.unclaimed t ht).unreached
  screen := screen
  off_screen f mem_f now := by
    rcases reserved_after h (h.processes.root _ mem) here spare now with old | ht
    · exact h.off_screen f mem_f old
    · exact (spare.unclaimed f ht).off_screen mem_f

/-- Where nothing new comes to the screen and the holder stays, the screen is as it was. -/
theorem Isolated.screen_stays (h : y.Isolated framebuffer) (mem : caller ∈ y.procs)
    (here : Local y.kernel.tables k.tables caller.cr3 fs) (spare : y.Spare framebuffer fs)
    (holder : k.currentFbHolderPid = y.kernel.currentFbHolderPid)
    (shown : ∀ x, Open k.tables caller.cr3 x →
      (Open y.kernel.tables caller.cr3 x ∧
        frameOf k.tables caller.cr3 x = frameOf y.kernel.tables caller.cr3 x) ∨
      frameOf k.tables caller.cr3 x ∉ framebuffer.frames) :
    ∀ c ∈ y.procs, ∀ x, Open k.tables c.cr3 x →
      frameOf k.tables c.cr3 x ∈ framebuffer.frames →
      k.currentFbHolderPid = c.pid ∧ ∃ r ∈ framebuffer.requests, r.mapping.page = x := by
  intro c hc x user on
  rw [holder]
  by_cases same : c = caller
  · rw [same] at user on ⊢
    rcases shown x user with ⟨was, still⟩ | off
    · rw [still] at on
      exact h.screen caller mem x was on
    · exact absurd on off
  · have stays := others_stay h.processes h.spaces here spare.unused mem hc same
    rw [Stays.open_iff stays] at user
    rw [frameOf, stays.leaf] at on
    exact h.screen c hc x user on

/-- The first frame, and the others. -/
theorem Spare.cons (h : y.Spare framebuffer (f :: fs)) :
    y.Unclaimed framebuffer f ∧ f ∉ fs ∧ y.Spare framebuffer fs where
  left := h.unclaimed f List.mem_cons_self
  right := ⟨(List.nodup_cons.mp h.nodup).1, (List.nodup_cons.mp h.nodup).2,
    fun t mem => h.frame t (List.mem_cons_of_mem _ mem),
    fun t mem => h.unclaimed t (List.mem_cons_of_mem _ mem)⟩

/-- No frames. -/
theorem Spare.nil : y.Spare framebuffer [] := ⟨List.nodup_nil, by simp, by simp⟩

/-- A frame that nobody had may be one caller's. -/
theorem Unclaimed.fresh (h : y.Unclaimed framebuffer f) (off : f ∉ fs) :
    ∀ t ∈ ({f} : Set Addr), t ∉ fs ∧ t ∉ y.reserved ∧ ∀ c, c ≠ caller → ¬ y.Reaches c t := by
  rintro t rfl
  exact ⟨off, h.unreserved, fun c _ => h.unreached c⟩

/-- A call that takes no frame and opens no page. -/
theorem Isolated.withdraw (h : y.Isolated framebuffer) (mem : caller ∈ y.procs)
    (here : Local y.kernel.tables k.tables caller.cr3 [])
    (root : k.tables.pml4 = y.kernel.tables.pml4)
    (stayed : ∀ x, Open k.tables caller.cr3 x → Open y.kernel.tables caller.cr3 x ∧
      frameOf k.tables caller.cr3 x = frameOf y.kernel.tables caller.cr3 x)
    (screen : ∀ c ∈ y.procs, ∀ x, Open k.tables c.cr3 x →
      frameOf k.tables c.cr3 x ∈ framebuffer.frames →
      k.currentFbHolderPid = c.pid ∧ ∃ r ∈ framebuffer.requests, r.mapping.page = x) :
    (y.after k).Isolated framebuffer :=
  h.change ∅ mem here Spare.nil root (fun x user => Or.inl (stayed x user))
    (fun t no => absurd no (Set.notMem_empty t)) screen

/-- `pmap` of one process: the frame it gets is one nobody has, and nothing was in the way at its
page, so nothing else comes to be open. -/
theorem Isolated.pmap {fuel : Nat} {virt answer : Addr} {s : Paging.State}
    (h : y.Isolated framebuffer) (mem : caller ∈ y.procs)
    (run : pmap g fuel caller.cr3 virt y.kernel.tables = some (answer, s))
    (spare : y.Spare framebuffer (given g y.kernel.tables.served s.served))
    (vacant : Vacant y.kernel.tables caller.cr3 answer (g y.kernel.tables.served)
      (given g (y.kernel.tables.served + 1) s.served)) :
    (y.after { y.kernel with tables := s }).Isolated framebuffer := by
  have root := h.processes.root _ mem
  have wf := h.spaces.wf _ root
  have free := spare.unused.fresh root
  have confined := (pmap_confined_iff run wf free).mpr vacant
  obtain ⟨lt, -, loaded, here, -⟩ := pmap_local run wf free
  rw [given_succ lt] at spare
  obtain ⟨unclaimed, off, spare⟩ := spare.cons
  have shown : ∀ x, Open s caller.cr3 x →
      (Open y.kernel.tables caller.cr3 x ∧
        frameOf s caller.cr3 x = frameOf y.kernel.tables caller.cr3 x) ∨
      frameOf s caller.cr3 x = g y.kernel.tables.served := by
    intro x user
    by_cases new : x = pagingIndexerAssign answer
    · rw [new]
      exact Or.inr confined.mapped.2
    · have was := (confined.rest x new).1.mp user
      rcases (confined.rest x new).2 with same | ⟨t, ht, page, -⟩
      · exact Or.inl ⟨was, same⟩
      · -- a table's own page was not open
        exact absurd (page ▸ was) (vacant.tables t ht (page ▸ new)).1
  have off_screen : ∀ x, Open s caller.cr3 x →
      (Open y.kernel.tables caller.cr3 x ∧
        frameOf s caller.cr3 x = frameOf y.kernel.tables caller.cr3 x) ∨
      frameOf s caller.cr3 x ∉ framebuffer.frames := by
    intro x user
    apply (shown x user).imp_right
    intro new
    rw [new]
    exact unclaimed.off_screen
  have screen := h.screen_stays (k := { y.kernel with tables := s }) mem here spare rfl off_screen
  exact h.change (k := { y.kernel with tables := s })
    {g y.kernel.tables.served} mem here spare loaded shown
    (unclaimed.fresh off) screen

/-- `punmap` works on the table that is loaded, which is nobody's: what the processes reach stays as
it is. -/
theorem Isolated.punmap {fuel : Nat} {virt : Addr} {s : Paging.State}
    (h : y.Isolated framebuffer) (run : punmap g fuel virt y.kernel.tables = some s)
    (spare : y.Spare framebuffer (given g y.kernel.tables.served s.served)) :
    (y.after { y.kernel with tables := s }).Isolated framebuffer := by
  by_cases given₀ : virt = 0
  · rw [Calls.punmap, if_pos given₀] at run
    cases run
    exact h
  have fresh := spare.unused.fresh h.loaded.1
  have wf := h.spaces.wf _ h.loaded.1
  obtain ⟨root, here, -⟩ := punmap_leaf run given₀ wf fresh
  have stays (c : Caller) (hc : c ∈ y.procs) : Stays y.kernel.tables s c.cr3 :=
    here.stays h.spaces spare.unused h.loaded.1 (h.processes.root c hc) (h.loaded.2 c hc)
  have taken : ∀ t ∈ (y.after { y.kernel with tables := s }).reserved, t ∈ y.reserved ∨ t ∈ _ :=
    fun t => reserved_after (k := { y.kernel with tables := s }) h h.loaded.1 here spare
  constructor
  case processes => exact h.processes
  case spaces => exact here.spaces h.spaces spare.unused h.loaded.1
  case loaded =>
    show s.pml4 ∈ y.roots ∧ ∀ c ∈ y.procs, c.cr3 ≠ s.pml4
    rw [root]
    exact h.loaded
  case sound =>
    have same (c : Caller) (t : Addr) (now : (y.after { y.kernel with tables := s }).Reaches c t) :
        y.Reaches c t := (reaches_of_stays (k := { y.kernel with tables := s })
          (stays c now.1)).mp now
    constructor
    case sole => exact fun c d t hc hd => h.sound.sole c d t (same c t hc) (same d t hd)
    case free =>
      intro t now c held
      rcases taken t now with old | ht
      · exact h.sound.free t old c (same c t held)
      · exact (spare.unclaimed t ht).unreached c (same c t held)
  case screen =>
    intro c hc x user on
    have still := stays c hc
    have user' := (Stays.open_iff still x).mp user
    apply h.screen c hc x user'
    rw [frameOf, ← still.leaf]
    exact on
  case off_screen =>
    intro f on now
    rcases taken f now with old | ht
    · exact h.off_screen f on old
    · exact (spare.unclaimed f ht).off_screen on

/-- Nobody but the holder has a page on the framebuffer. -/
theorem Isolated.off_framebuffer (h : y.Isolated framebuffer)
    (other : y.kernel.currentFbHolderPid ≠ c.pid) (on : f ∈ framebuffer.frames) :
    ¬ y.Reaches c f := by
  rintro ⟨mem, x, user, rfl⟩
  exact other (h.screen c mem x user on).1

/-- `fb_req` of one process: refused, it changes nothing; granted, the caller reaches the
framebuffer, which nobody reached before. -/
theorem Isolated.fbReq {fuel : Nat} {answer : Addr} (h : y.Isolated framebuffer)
    (mem : caller ∈ y.procs) (run : fbReq g fuel framebuffer caller y.kernel = some (answer, k))
    (spare : y.Spare framebuffer (given g y.kernel.tables.served k.tables.served))
    (settled : y.kernel.currentFbHolderPid = nobody → Settled y.kernel.tables caller.cr3
      (given g y.kernel.tables.served k.tables.served) framebuffer.requests) :
    (y.after k).Isolated framebuffer := by
  rcases fbReq_cases run with ⟨-, -, rfl⟩ | ⟨free, -⟩
  · exact h
  have root := h.processes.root _ mem
  have wf := h.spaces.wf _ root
  have nobodyHas (d : Caller) (hd : d ∈ y.procs) : y.kernel.currentFbHolderPid ≠ d.pid :=
    fun held => h.processes.somebody d hd (held.symm.trans free)
  obtain ⟨mapped, loaded, holder⟩ := fbReq_mapped free run wf (spare.unused.fresh root)
  have cases_ (x : PagingIndexer) (user : Open k.tables caller.cr3 x) :=
    mapped.open_cases (settled free) user
  apply h.change framebuffer.frames mem mapped.here spare loaded
  · intro x user
    apply (cases_ x user).imp_right
    rintro ⟨r, hr, same⟩
    exact ⟨r, hr, congrArg Prod.snd same⟩
  · intro t on
    refine ⟨fun ht => (spare.unclaimed t ht).off_screen on, h.off_screen t on, fun d _ held => ?_⟩
    exact h.off_framebuffer (nobodyHas d held.1) on held
  · intro d hd x user on
    by_cases same : d = caller
    · rw [same] at user on ⊢
      refine ⟨holder, ?_⟩
      rcases cases_ x user with ⟨was, still⟩ | ⟨r, hr, grant⟩
      · rw [still] at on
        exact absurd (h.screen caller mem x was on).1 (nobodyHas caller mem)
      · exact ⟨r, hr, congrArg Prod.fst grant⟩
    · have stays := others_stay h.processes h.spaces mapped.here spare.unused mem hd same
      rw [Stays.open_iff stays] at user
      rw [frameOf, stays.leaf] at on
      exact absurd (h.screen d hd x user on).1 (nobodyHas d hd)

/-- `fb_kill` of the holder: the framebuffer's pages are closed to the one who had them, and nobody
is recorded. -/
theorem Isolated.fbKill (h : y.Isolated framebuffer) (mem : caller ∈ y.procs)
    (own : (FbCall.kill caller).Own y.kernel) :
    (y.after (fbKill framebuffer caller y.kernel)).Isolated framebuffer := by
  by_cases free : y.kernel.currentFbHolderPid = nobody
  · rw [Calls.fbKill, if_pos free]
    exact h
  have holder : y.kernel.currentFbHolderPid = caller.pid := own.resolve_left free
  have root := h.processes.root _ mem
  obtain ⟨here, loaded, -, leaf⟩ :=
    @fbKill_unmapped y.kernel caller framebuffer free (h.spaces.wf _ root)
  have stayed (x : PagingIndexer)
      (user : Open (Calls.fbKill framebuffer caller y.kernel).tables caller.cr3 x) :
      (¬ ∃ r ∈ framebuffer.requests, r.mapping.page = x) ∧ Open y.kernel.tables caller.cr3 x ∧
        frameOf (Calls.fbKill framebuffer caller y.kernel).tables caller.cr3 x =
          frameOf y.kernel.tables caller.cr3 x := by
    rw [Open, leaf] at user
    rw [frameOf, leaf]
    by_cases gone : ∃ i ∈ pagesBetween 0 framebuffer.size,
        pagingIndexerAssign (framebuffer.frameAddr + i) = x
    · rw [if_pos gone, getFlag_zero] at user
      cases user
    · rw [if_neg gone] at user ⊢
      refine ⟨?_, user, rfl⟩
      rintro ⟨r, hr, page⟩
      obtain ⟨i, hi, rfl⟩ := List.mem_map.mp hr
      exact gone ⟨i, hi, page⟩
  apply h.withdraw mem here loaded fun x user => (stayed x user).2
  intro d hd x user on
  by_cases same : d = caller
  · rw [same] at user on
    obtain ⟨off, was, still⟩ := stayed x user
    rw [still] at on
    exact absurd (h.screen caller mem x was on).2 off
  · have stays := others_stay h.processes h.spaces here Unused.nil mem hd same
    rw [Stays.open_iff stays] at user
    rw [frameOf, stays.leaf] at on
    have held := (h.screen d hd x user on).1
    exact absurd (h.processes.pid d hd caller mem (held.symm.trans holder)) same

/-- `kb_man` of one process: where it hands out the page of keys, that is a frame nobody had, and
where it takes it back, the page is closed. -/
theorem Isolated.kbMan {fuel : Nat} {taking : Bool} {answer : Addr} (h : y.Isolated framebuffer)
    (mem : caller ∈ y.procs) (run : kbMan g fuel taking caller y.kernel = some (answer, k))
    (spare : y.Spare framebuffer (given g y.kernel.tables.served k.tables.served))
    (settled : answer ≠ 0 → Settled y.kernel.tables caller.cr3
      (given g (y.kernel.tables.served + 1) k.tables.served) [⟨answer, answer, flagsUserPage⟩]) :
    (y.after k).Isolated framebuffer := by
  have root := h.processes.root _ mem
  have wf := h.spaces.wf _ root
  rcases kbMan_cases run with ⟨-, rfl, -⟩ | ⟨rfl, own, held, -, kept⟩ |
    ⟨rfl, free, -, _, _, -, kept⟩
  · exact h
  · have released := (kbMan_released own held run wf).2
    have holder : k.currentFbHolderPid = y.kernel.currentFbHolderPid := by rw [kept]
    have stayed (x : PagingIndexer) (user : Open k.tables caller.cr3 x) :
        Open y.kernel.tables caller.cr3 x ∧
          frameOf k.tables caller.cr3 x = frameOf y.kernel.tables caller.cr3 x := by
      rw [Open, released.leaf] at user
      rw [frameOf, released.leaf]
      split at user
      · rw [getFlag_zero] at user
        cases user
      · next off =>
        rw [if_neg off]
        exact ⟨user, rfl⟩
    apply h.withdraw mem released.here released.root.1 stayed
    exact h.screen_stays mem released.here Spare.nil holder fun x user => Or.inl (stayed x user)
  · have taken := kbMan_taken free run wf (spare.unused.fresh root)
    have holder : k.currentFbHolderPid = y.kernel.currentFbHolderPid := by
      rw [kept]
      rfl
    rw [given_succ taken.lt] at spare
    have frame := spare.frame _ List.mem_cons_self
    obtain ⟨unclaimed, off, spare⟩ := spare.cons
    rw [← taken.buffer_eq] at frame unclaimed off
    obtain ⟨ids, perm, leaf⟩ := taken.leaf
    have mapped : Mapped y.kernel.tables k.tables caller.cr3
        (given g (y.kernel.tables.served + 1) k.tables.served) [⟨answer, answer, flagsUserPage⟩] :=
      ⟨taken.here, _, perm.append_right _, leaf⟩
    have shown (x : PagingIndexer) (user : Open k.tables caller.cr3 x) :
        (Open y.kernel.tables caller.cr3 x ∧
          frameOf k.tables caller.cr3 x = frameOf y.kernel.tables caller.cr3 x) ∨
        frameOf k.tables caller.cr3 x = answer := by
      apply (mapped.open_cases (settled frame.1) user).imp_right
      rintro ⟨r, hr, same⟩
      rw [List.mem_singleton.mp hr] at same
      exact (congrArg Prod.snd same).symm.trans frame.2
    apply h.change {answer} mem taken.here spare taken.root shown (unclaimed.fresh off)
    apply h.screen_stays mem taken.here spare holder
    intro x user
    apply (shown x user).imp_right
    intro new
    rw [new]
    exact unclaimed.off_screen

/-- What a new table leaves of the tables that there were. -/
structure Planted (y : Populated) (table : Addr) (s : Paging.State) (fs : List Addr) : Prop where
  spaces : Spaces s (insert table y.roots)
  stays : ∀ r ∈ y.roots, Stays y.kernel.tables s r
  news : ∀ t, Uses s table t → t ∈ fs
  loaded : s.pml4 = y.kernel.tables.pml4
  root : table ∉ y.roots

/-- A new table leaves the trees that there were, and opens what was asked for. -/
theorem taskNewPageTable_planted {fuel : Nat} {image : KernelImage} {ist : List Addr}
    {info : List ElfLoadedPage} {task : NewTask} {table : Addr} {s : Paging.State}
    (spaces : Spaces y.kernel.tables y.roots)
    (run : taskNewPageTable g fuel image ist info task y.kernel.tables = some (table, s))
    (spare : y.Spare framebuffer (given g y.kernel.tables.served s.served)) :
    y.Planted table s (given g y.kernel.tables.served s.served) := by
  obtain ⟨_, _, s₇, rfl, eq, part₄, part₅, part₇⟩ := taskNewPageTable_parts run
  have lt : y.kernel.tables.served < s.served := by
    rw [eq]
    exact (part₄.1.trans part₅.1).trans part₇.1
  obtain ⟨all, p, extends_, -⟩ := taskNewPageTable_filled run spare.nodup spare.frame
  have all_unused := spare.unused
  rw [given_succ lt] at all_unused ⊢
  set table := g y.kernel.tables.served
  set taken := given g (y.kernel.tables.served + 1) s.served
  have first : Unused y.kernel.tables y.roots [table] :=
    Unused.left (show Unused y.kernel.tables y.roots ([table] ++ taken) from all_unused)
  have blank : ∀ i, (newRoot g y.kernel.tables).mem table i = 0 := fun i => by
    simp [newRoot, pagingLoadPml4, table]
  have frame : ∀ t, t ≠ table → (newRoot g y.kernel.tables).mem t = y.kernel.tables.mem t := by
    intro t ne
    ext1 i
    simp [newRoot, pagingLoadPml4, State.clearTable, ne, table]
  have planted : Spaces (newRoot g y.kernel.tables) (insert table y.roots) :=
    spaces.insert first frame blank
  have stays₁ (r : Addr) (hr : r ∈ y.roots) : Stays y.kernel.tables (newRoot g y.kernel.tables) r :=
    fun t used => frame t fun same => first.unused table (List.mem_singleton_self _) r hr
      (same ▸ used)
  have alone (t : Addr) (used : Uses (newRoot g y.kernel.tables) table t) : t = table :=
    newRoot_empty.uses used
  have rest : Unused (newRoot g y.kernel.tables) (insert table y.roots) taken := by
    refine ⟨(List.nodup_cons.mp all_unused.nodup).2, fun t mem =>
      all_unused.frame t (List.mem_cons_of_mem _ mem), fun t mem r hr used => ?_⟩
    rcases Set.mem_insert_iff.mp hr with rfl | hr
    · exact (List.nodup_cons.mp all_unused.nodup).1 (alone t used ▸ mem)
    · exact all_unused.unused t (List.mem_cons_of_mem _ mem) r hr ((stays₁ r hr).uses.mp used)
  have filled : Local (newRoot g y.kernel.tables) (pagingLoadPml4 s table) table taken := by
    rw [← loadPml4_of_eq (s := newRoot g y.kernel.tables) (r := table) rfl] at extends_
    exact extends_.local
  have here : Local (newRoot g y.kernel.tables) s table taken :=
    ⟨filled.frame, filled.news, filled.wf⟩
  have new := Set.mem_insert table y.roots
  have off : table ∉ y.roots := fun old =>
    first.unused table (List.mem_singleton_self _) table old Uses.root
  constructor
  case spaces => exact here.spaces planted rest new
  case stays =>
    intro r hr
    have ne : r ≠ table := fun same => off (same ▸ hr)
    exact (stays₁ r hr).trans (here.stays planted rest new (Set.mem_insert_of_mem _ hr) ne)
  case news =>
    intro t used
    rcases here.news t used with old | mem
    · rw [alone t old]
      exact List.mem_cons_self
    · exact List.mem_cons_of_mem _ mem
  case loaded =>
    rw [eq]
    rfl
  case root => exact off

/-- The processes with one more, whose tables have just been made. -/
def created (y : Populated) (caller : Caller) (s : Paging.State) : Populated :=
  { y with
    procs := insert caller y.procs
    roots := insert caller.cr3 y.roots
    kernel := { y.kernel with tables := s } }

/-- What is reserved then was reserved, or was taken for the new table. -/
theorem Planted.reserved {s : Paging.State} (h : y.Planted caller.cr3 s fs)
    (mem : f ∈ (y.created caller s).reserved) : f ∈ y.reserved ∨ f ∈ fs := by
  rcases mem with kept | ⟨r, hr, used⟩
  · exact Or.inl (Or.inl kept)
  · rcases Set.mem_insert_iff.mp hr with rfl | hr
    · exact Or.inr (h.news f used)
    · exact Or.inl (Or.inr ⟨r, hr, (h.stays r hr).uses.mp used⟩)

/-- The processes there were reach what they reached. -/
theorem Planted.reaches {s : Paging.State} (h : y.Planted caller.cr3 s fs)
    (processes : Processes y.procs y.roots) (hc : c ∈ y.procs) :
    (∃ x, Open s c.cr3 x ∧ frameOf s c.cr3 x = f) ↔ y.Reaches c f := by
  have stays := h.stays _ (processes.root c hc)
  rw [Reaches, and_iff_right hc]
  apply exists_congr
  intro x
  rw [Stays.open_iff stays, frameOf, stays.leaf, frameOf]

/-- What a new process reaches is its program's. -/
theorem created_shown {fuel : Nat} {image : KernelImage} {ist : List Addr}
    {info : List ElfLoadedPage} {task : NewTask} {s : Paging.State}
    (run : taskNewPageTable g fuel image ist info task y.kernel.tables = some (caller.cr3, s))
    (spare : y.Spare framebuffer (given g y.kernel.tables.served s.served))
    (clear : ∀ r ∈ userRequests info task,
      Undisturbed (mappings (requests image ist info task caller.cr3)
        (given g (y.kernel.tables.served + 1) s.served)) r)
    (user : Open s caller.cr3 x) :
    ∃ r ∈ userRequests info task, pagingDescGetAddress r.phys = frameOf s caller.cr3 x := by
  obtain ⟨all, p, -, filled⟩ := taskNewPageTable_filled run spare.nodup spare.frame
  obtain ⟨r, hr, rfl⟩ := filled.userRequests user
  refine ⟨r, hr, ?_⟩
  exact ((filled.address_iff (requests_mapped (userRequests_asked hr))).mpr (clear r hr)).symm

/-- A new process is none of those there were, and has a table of its own. -/
theorem Planted.processes {s : Paging.State} (h : y.Planted caller.cr3 s fs)
    (processes : Processes y.procs y.roots)
    (pid : caller.pid ≠ nobody ∧ ∀ c ∈ y.procs, c.pid ≠ caller.pid) :
    Processes (insert caller y.procs) (insert caller.cr3 y.roots) := by
  have root_ne {c : Caller} (hc : c ∈ y.procs) : c.cr3 ≠ caller.cr3 := fun same =>
    h.root (same ▸ processes.root c hc)
  constructor
  case pid =>
    rintro c (rfl | hc) d (rfl | hd) same
    · rfl
    · exact absurd same.symm (pid.2 d hd)
    · exact absurd same (pid.2 c hc)
    · exact processes.pid c hc d hd same
  case cr3 =>
    rintro c (rfl | hc) d (rfl | hd) same
    · rfl
    · exact absurd same.symm (root_ne hd)
    · exact absurd same (root_ne hc)
    · exact processes.cr3 c hc d hd same
  case somebody =>
    rintro c (rfl | hc)
    · exact pid.1
    · exact processes.somebody c hc
  case root =>
    rintro c (rfl | hc)
    · exact Set.mem_insert _ _
    · exact Set.mem_insert_of_mem _ (processes.root c hc)

/-- A new process has its program and its stack, and nobody else has any of it: its frames are
unclaimed, and its tables are frames that nobody had. -/
theorem Isolated.create {fuel : Nat} {image : KernelImage} {ist : List Addr}
    {info : List ElfLoadedPage} {task : NewTask} {s : Paging.State} (h : y.Isolated framebuffer)
    (run : taskNewPageTable g fuel image ist info task y.kernel.tables = some (caller.cr3, s))
    (pid : caller.pid ≠ nobody ∧ ∀ c ∈ y.procs, c.pid ≠ caller.pid)
    (spare : y.Spare framebuffer (given g y.kernel.tables.served s.served))
    (program : ∀ r ∈ userRequests info task,
      Undisturbed (mappings (requests image ist info task caller.cr3)
        (given g (y.kernel.tables.served + 1) s.served)) r ∧
      pagingDescGetAddress r.phys ∉ given g y.kernel.tables.served s.served ∧
      y.Unclaimed framebuffer (pagingDescGetAddress r.phys)) :
    (y.created caller s).Isolated framebuffer := by
  have planted := taskNewPageTable_planted h.spaces run spare
  have stays {c : Caller} (hc : c ∈ y.procs) : Stays y.kernel.tables s c.cr3 :=
    planted.stays _ (h.processes.root c hc)
  have shown (x : PagingIndexer) (user : Open s caller.cr3 x) :=
    created_shown run spare (fun r hr => (program r hr).1) user
  constructor
  case processes => exact planted.processes h.processes pid
  case spaces => exact planted.spaces
  case loaded =>
    show s.pml4 ∈ insert caller.cr3 y.roots ∧ ∀ c ∈ insert caller y.procs, c.cr3 ≠ s.pml4
    rw [planted.loaded]
    refine ⟨Set.mem_insert_of_mem _ h.loaded.1, ?_⟩
    rintro c (rfl | hc)
    · exact fun same => planted.root (same ▸ h.loaded.1)
    · exact h.loaded.2 c hc
  case sound =>
    apply h.sound.step (c := caller)
    case gains =>
      constructor
      case own =>
        rintro t ⟨-, x, user, same⟩
        right
        obtain ⟨r, hr, there⟩ := shown x user
        exact (⟨r, hr, there.trans same⟩ :
          ∃ r ∈ userRequests info task, pagingDescGetAddress r.phys = t)
      case others =>
        rintro c t ne ⟨hc | hc, reach⟩
        · exact absurd hc ne
        · exact (planted.reaches h.processes hc).mp reach
    case alone =>
      rintro t ⟨r, hr, rfl⟩ c -
      exact (program r hr).2.2.unreached c
    case unreserved =>
      rintro t ⟨r, hr, rfl⟩ now
      exact (planted.reserved now).elim (program r hr).2.2.unreserved (program r hr).2.1
    case more =>
      exact fun t now => (planted.reserved now).imp_right fun mem =>
        (spare.unclaimed t mem).unreached
  case screen =>
    rintro c (rfl | hc) x user on
    · obtain ⟨r, hr, there⟩ := shown x user
      exact absurd (there ▸ on) (program r hr).2.2.off_screen
    · have user' := (Stays.open_iff (stays hc) x).mp user
      apply h.screen c hc x user'
      rw [frameOf, ← (stays hc).leaf]
      exact on
  case off_screen =>
    intro f on now
    rcases planted.reserved now with old | mem
    · exact h.off_screen f on old
    · exact (spare.unclaimed f mem).off_screen on

/-- A page more for the kernel, one that nobody has: it is reserved from now on, and what the
processes reach stays. -/
theorem Isolated.keep (h : y.Isolated framebuffer) (unclaimed : y.Unclaimed framebuffer f) :
    Isolated framebuffer { y with kept := insert f y.kept } where
  processes := h.processes
  spaces := h.spaces
  loaded := h.loaded
  sound := by
    refine ⟨h.sound.sole, ?_⟩
    rintro t ((rfl | kept) | used) c held
    · exact unclaimed.unreached c held
    · exact h.sound.free t (Or.inl kept) c held
    · exact h.sound.free t (Or.inr used) c held
  screen := h.screen
  off_screen := by
    rintro t on ((rfl | kept) | used)
    · exact unclaimed.off_screen on
    · exact h.off_screen t on (Or.inl kept)
    · exact h.off_screen t on (Or.inr used)

/-- Every step keeps the processes apart. -/
theorem Isolated.step (h : y.Isolated framebuffer) (step : Step g framebuffer y y') :
    y'.Isolated framebuffer := by
  cases step with
  | create run pid spare program => exact h.create run pid spare program
  | keep unclaimed => exact h.keep unclaimed
  | pmap mem run spare vacant => exact h.pmap mem run spare vacant
  | punmap run spare => exact h.punmap run spare
  | fbReq mem run spare settled => exact h.fbReq mem run spare settled
  | fbKill mem own => exact h.fbKill mem own
  | kbMan mem run spare settled => exact h.kbMan mem run spare settled
  | key keycode =>
    rw [hidRegisterKeystroke]
    split
    · exact h
    · rw [show (true, kbManSaveKey keycode y.kernel).2 = kbManSaveKey keycode y.kernel from rfl,
        saveKey_fields]
      exact ⟨h.processes, h.spaces, h.loaded, h.sound, h.screen, h.off_screen⟩
  | write bytes => exact ⟨h.processes, h.spaces, h.loaded, h.sound, h.screen, h.off_screen⟩

/-- And every run. -/
theorem run_isolated (start : y₀.Start framebuffer)
    (run : Relation.ReflTransGen (Step g framebuffer) y₀ y) : y.Isolated framebuffer := by
  induction run with
  | refl => exact start.isolated
  | tail _ step ih => exact ih.step step

/-- A frame is a multiple of a page. -/
theorem frame_mod (h : IsFrame f) : f.toNat % 4096 = 0 := by
  have low : f &&& 0xfff = 0 := by
    rw [← show f &&& addressMask = f from h, BitVec.and_assoc,
      show addressMask &&& (0xfff : Addr) = 0 from by decide]
    exact BitVec.and_zero
  have value := congrArg BitVec.toNat low
  rw [BitVec.toNat_and, show (0xfff : Addr).toNat = 2 ^ 12 - 1 from rfl,
    Nat.and_two_pow_sub_one_eq_mod] at value
  exact value

/-- A byte is in one frame only. -/
theorem frame_of_byte {e o p : Addr} (he : IsFrame e) (hf : IsFrame f) (ho : o < 4096)
    (hp : p < 4096) (same : e + o = f + p) : e = f := by
  have value := congrArg BitVec.toNat same
  have e_mod := frame_mod he
  have f_mod := frame_mod hf
  have e_le := frame_le he
  have f_le := frame_le hf
  have o_lt : o.toNat < 4096 := BitVec.lt_def.mp ho
  have p_lt : p.toNat < 4096 := BitVec.lt_def.mp hp
  rw [BitVec.toNat_add, BitVec.toNat_add] at value
  exact BitVec.eq_of_toNat_eq (by omega)

/-- What is reached is a frame. -/
theorem Reaches.frame (h : y.Reaches c f) : IsFrame f := by
  obtain ⟨-, x, -, rfl⟩ := h
  exact getAddress_frame _

/-- In every state of every run no byte is in reach of two processes, none of a page table or of
the kernel's is in reach of any, and the framebuffer is in reach of its holder only. -/
theorem processes_isolated (start : y₀.Start framebuffer)
    (run : Relation.ReflTransGen (Step g framebuffer) y₀ y) :
    (∀ c d a, y.Touches c a → y.Touches d a → c = d) ∧
    (∀ c a, y.Touches c a → ∀ f ∈ y.reserved, IsFrame f → ∀ o < 4096, f + o ≠ a) ∧
    ∀ c, ∀ f ∈ framebuffer.frames, y.Reaches c f → y.kernel.currentFbHolderPid = c.pid := by
  have h := run_isolated start run
  refine ⟨?_, ?_, fun c f on reach => ?_⟩
  · rintro c d a ⟨e, o, reach, ho, rfl⟩ ⟨f, p, reach', hp, same⟩
    have eq := frame_of_byte reach'.frame reach.frame hp ho same
    exact h.sound.sole c d e reach (eq ▸ reach')
  · rintro c a ⟨e, p, reach, hp, rfl⟩ f kept frame o ho same
    have eq := frame_of_byte frame reach.frame ho hp same
    exact h.sound.free f kept c (eq ▸ reach)
  · by_contra other
    exact h.off_framebuffer other on reach

end

/-! ### The first process -/

/-- A screen of one page. -/
def smallScreen : Framebuffer := ⟨0xffff8000fd000000, 1, 4096, 8⟩

/-- The machine before its first process, with a page kept for the kernel. -/
def machinePopulated : Populated := ⟨∅, {0x1000}, {0x7000}, .boot machineRoot fun _ => 0⟩

/-- The frame of the screen. -/
theorem smallScreen_frames : smallScreen.frames = {0xfd000000} := by
  ext f
  have pages : smallScreen.requests = [⟨0xffff8000fd000000, 0xfd000000, flagsUserPage⟩] := by decide
  rw [Framebuffer.frames, pages]
  constructor
  · rintro ⟨r, hr, rfl⟩
    rw [List.mem_singleton.mp hr]
    decide
  · rintro rfl
    exact ⟨_, List.mem_cons_self, by decide⟩

/-- What the kernel keeps at first. -/
theorem machinePopulated_reserved :
    f ∈ machinePopulated.reserved ↔ f = 0x7000 ∨ f = 0x1000 := by
  apply or_congr Iff.rfl
  constructor
  · rintro ⟨r, rfl, used⟩
    exact Empty.uses (r := 0x1000) (s := machineRoot) ⟨fun _ => rfl⟩ used
  · rintro rfl
    exact ⟨0x1000, rfl, Uses.root⟩

/-- It is a start. -/
theorem machinePopulated_start : machinePopulated.Start smallScreen where
  procs := rfl
  roots := rfl
  wf := machineRoot_empty.wf
  free := rfl
  off_screen := by
    rw [smallScreen_frames]
    rintro f rfl
    rw [machinePopulated_reserved]
    decide

/-- Nobody has a frame but the two of the kernel. -/
theorem machinePopulated_unclaimed (two : f ≠ 0x7000 ∧ f ≠ 0x1000) (off : f ≠ 0xfd000000) :
    machinePopulated.Unclaimed smallScreen f where
  unreserved := by
    rw [machinePopulated_reserved, not_or]
    exact two
  unreached := by
    rintro c ⟨⟨⟩, -⟩
  off_screen := by
    rw [smallScreen_frames]
    exact off

/-- The program's frames are none of those. -/
theorem program_low : ∀ r ∈ userRequests programInfo programTask,
    0x800000 ≤ pagingDescGetAddress r.phys ∧ pagingDescGetAddress r.phys ≤ 0xa00000 := by
  decide +kernel

section
variable {s : Paging.State} (few : s.served ≤ 2 ^ 28)
  (run : taskNewPageTable spaceFrames (2 ^ 28) programImage programIst programInfo programTask
    machineRoot = some (spaceFrames 0, s))
  (nodup : (given spaceFrames machineRoot.served s.served).Nodup)
  (frames : ∀ t ∈ given spaceFrames machineRoot.served s.served, t ≠ 0 ∧ IsFrame t)

include few nodup frames

/-- Nobody has the frames of the first table. -/
theorem program_spare : machinePopulated.Spare smallScreen
    (given spaceFrames machinePopulated.kernel.tables.served s.served) := by
  have later := (spaceFrames_given (m := 0) (show s.served ≤ 2 ^ 29 by omega)).2
  refine ⟨nodup, frames, fun t mem => ?_⟩
  obtain ⟨-, -, k, lt, -, rfl⟩ := later t mem
  have value := spaceFrames_toNat (show k < 2 ^ 29 by omega)
  apply machinePopulated_unclaimed <;> bv_omega

include run

/-- The first process is made. -/
theorem program_created :
    Step spaceFrames smallScreen machinePopulated (machinePopulated.created programCaller s) := by
  have later := (spaceFrames_given (m := 0) (show s.served ≤ 2 ^ 29 by omega)).2
  have program : ∀ r ∈ userRequests programInfo programTask,
      Undisturbed (mappings (requests programImage programIst programInfo programTask
        programCaller.cr3) (given spaceFrames 1 s.served)) r ∧
      pagingDescGetAddress r.phys ∉ given spaceFrames 0 s.served ∧
      machinePopulated.Unclaimed smallScreen (pagingDescGetAddress r.phys) := by
    intro r hr
    obtain ⟨low, high⟩ := program_low r hr
    refine ⟨program_undisturbed few (userRequests_asked hr), fun mem => ?_, ?_⟩
    · obtain ⟨-, -, k, lt, -, eq⟩ := later _ mem
      have value := spaceFrames_toNat (show k < 2 ^ 29 by omega)
      bv_omega
    · apply machinePopulated_unclaimed <;> bv_omega
  exact @Step.create spaceFrames smallScreen machinePopulated _ _ _ _ _ programCaller s run
    ⟨by decide, fun c no => nomatch no⟩ (program_spare few nodup frames) program

/-- Nobody has the frames behind that. -/
theorem program_later {k : Nat} (ge : s.served ≤ k) (lt : k < 2 ^ 29) :
    (machinePopulated.created programCaller s).Unclaimed smallScreen (spaceFrames k) := by
  have value := spaceFrames_toNat lt
  have spare := program_spare few nodup frames
  constructor
  case unreserved =>
    intro mem
    have planted := taskNewPageTable_planted machinePopulated_start.isolated.spaces run spare
    rcases planted.reserved mem with old | taken
    · rcases machinePopulated_reserved.mp old with same | same <;> bv_omega
    · obtain ⟨-, -, j, before, -, same⟩ :=
        (spaceFrames_given (m := 0) (show s.served ≤ 2 ^ 29 by omega)).2 _ taken
      have := spaceFrames_lasting.once k lt j (by omega) same
      omega
  case unreached =>
    rintro c ⟨rfl | no, x, user, same⟩
    · obtain ⟨r, hr, there⟩ := @created_shown spaceFrames smallScreen machinePopulated programCaller
        x _ _ _ _ _ s run spare (fun r hr => program_undisturbed few (userRequests_asked hr)) user
      have low := (program_low r hr).2
      rw [there.trans same] at low
      bv_omega
    · cases no
  case off_screen =>
    rw [smallScreen_frames]
    intro same
    rw [Set.mem_singleton_iff] at same
    bv_omega

end

/-! ### A second process -/

/-- A second process has a stack of its own, and no segment. -/
def secondTask : NewTask := ⟨0x1200000, 0x7f0000000040, 0x1300000⟩

/-- The second process, whose table is the next frame. -/
def secondCaller (s : Paging.State) : Caller := ⟨1, spaceFrames s.served⟩

/-- What is mapped below the kernel is mapped to itself, and the stack is the user's. -/
def secondLayout (n : Nat) : Addr × Desc :=
  (BitVec.ofNat 64 (4096 * n),
    if 0x1100 ≤ n ∧ n < 0x1200 then wide flagsUserPage else wide flagsKernelPage)

/-- All that is mapped for the second process is mapped by its layout. -/
theorem second_layout {m k n : Nat} (table : m < 2 ^ 30) (le : n ≤ 2 ^ 30) :
    ∀ w ∈ mappings (requests programImage programIst [] secondTask (spaceFrames m))
      (given spaceFrames k n), w.page.number < 0xffff80000 →
      secondLayout w.page.number = (pagingDescGetAddress w.phys, w.flags) := by
  have identity (flags : BitVec 16) {v : Addr} {n : Nat} (value : v.toNat = 4096 * n)
      (low : n < 2 ^ 36)
      (same : (if 0x1100 ≤ n ∧ n < 0x1200 then wide flagsUserPage else wide flagsKernelPage) =
        wide flags) :
      secondLayout (Request.identity flags v).mapping.page.number =
        (pagingDescGetAddress (Request.identity flags v).mapping.phys, wide flags) := by
    obtain ⟨number, address⟩ := identity_page value low
    rw [show (Request.identity flags v).mapping.page = pagingIndexerAssign v from rfl, number,
      secondLayout, same]
    exact congrArg (·, wide flags) address.symm
  have kernel : ∀ r ∈ programImage.requests, 0xffff80000 ≤ r.mapping.page.number := by decide
  intro w hw below
  rcases List.mem_append.mp hw with h | h
  · obtain ⟨t, mem, rfl⟩ := List.mem_map.mp h
    obtain ⟨-, -, j, lt, -, rfl⟩ := (spaceFrames_long.apart le).2 t mem
    exact identity flagsKernelPage (spaceFrames_value (by omega)) (by omega) (if_neg (by omega))
  · obtain ⟨r, asked, rfl⟩ := List.mem_map.mp h
    simp only [requests, userRequests, List.mem_append] at asked
    rcases asked with ((h | h | h) | h) | h
    · exact absurd below (Nat.not_lt.mpr (kernel r h))
    · cases h
    · obtain ⟨x, mem, rfl⟩ := List.mem_map.mp h
      obtain ⟨i, lt, rfl⟩ := mem_pagesBetween mem
      have few : i < 256 := lt
      apply identity flagsUserPage (n := 0x1100 + i) _ (by omega) (if_pos (by omega))
      show ((0x1100000#64) + BitVec.ofNat 64 (0x1000 * i)).toNat = _
      rw [BitVec.toNat_add, BitVec.toNat_ofNat, BitVec.toNat_ofNat]
      omega
    · obtain ⟨top, mem, h⟩ := List.mem_flatMap.mp h
      obtain ⟨i, few, rfl⟩ := List.mem_map.mp h
      rw [List.mem_range] at few
      rw [show top = 0xb00000 from List.mem_singleton.mp mem]
      apply identity flagsKernelPage (n := 0xb00 - i) _ (by omega) (if_neg (by omega))
      rw [BitVec.toNat_sub_of_le, BitVec.toNat_ofNat]
      · show 0xb00000 - _ = _
        omega
      · rw [BitVec.le_def, BitVec.toNat_ofNat]
        show _ ≤ 0xb00000
        omega
    · rcases List.mem_pair.mp h with rfl | rfl
      · exact identity flagsKernelPage (spaceFrames_value table) (by omega) (if_neg (by omega))
      · exact identity flagsKernelPage (n := 0x1300) rfl (by decide) rfl

/-- The pages of its stack, and their frames. -/
theorem second_stack : ∀ r ∈ userRequests [] secondTask,
    (0x1100 ≤ r.mapping.page.number ∧ r.mapping.page.number < 0x1200) ∧
    0x1100000 ≤ pagingDescGetAddress r.phys ∧ pagingDescGetAddress r.phys < 0x1200000 := by
  decide +kernel

/-- What is mapped to a page of its stack is what was asked for. -/
theorem second_agrees {m k n : Nat} (table : m < 2 ^ 30) (le : n ≤ 2 ^ 30) {r : Request}
    (h : r ∈ userRequests [] secondTask) {w : Mapping}
    (hw : w ∈ mappings (requests programImage programIst [] secondTask (spaceFrames m))
      (given spaceFrames k n)) (here : w.page = r.mapping.page) :
    pagingDescGetAddress w.phys = pagingDescGetAddress r.phys ∧ w.flags = r.mapping.flags := by
  have low : r.mapping.page.number < 0xffff80000 := (second_stack r h).1.2.trans (by decide)
  have asked : r.mapping ∈ mappings (requests programImage programIst [] secondTask (spaceFrames m))
      (given spaceFrames k n) := requests_mapped (userRequests_asked h)
  have own := second_layout table le _ asked low
  have other := second_layout table le w hw (here ▸ low)
  rw [here] at other
  exact Prod.ext_iff.mp (other.symm.trans own)

/-- The first process has been made, and the machine is then asked by it for a page anywhere. -/
structure Asks (s s' : Paging.State) : Prop where
  run : taskNewPageTable spaceFrames (2 ^ 28) programImage programIst programInfo programTask
    machineRoot = some (spaceFrames 0, s)
  few : s.served ≤ 2 ^ 28
  nodup : (given spaceFrames machineRoot.served s.served).Nodup
  frames : ∀ t ∈ given spaceFrames machineRoot.served s.served, t ≠ 0 ∧ IsFrame t
  call : pmap spaceFrames (2 ^ 28) programCaller.cr3 pmapVirtDefault s =
    some (spaceFrames s.served, s')
  room : s'.served ≤ 2 ^ 29

/-- It gets that far. -/
theorem exists_asks : ∃ s s', Asks s s' := by
  obtain ⟨s, run, few, nodup, frames⟩ := program_run spaceFrames_lasting
  obtain ⟨s', call, room, -⟩ := program_pmap few run nodup frames pmapVirtDefault
  rw [if_pos rfl] at call
  exact ⟨s, s', run, few, nodup, frames, call, room⟩

/-- The processes then. -/
def asked (s s' : Paging.State) : Populated :=
  (machinePopulated.created programCaller s).after
    { (machinePopulated.created programCaller s).kernel with tables := s' }

section
variable {s s' s₂ : Paging.State}

/-- The first process is made. -/
theorem Asks.created (h : Asks s s') :
    Step spaceFrames smallScreen machinePopulated (machinePopulated.created programCaller s) :=
  program_created h.few h.run h.nodup h.frames

/-- The processes are apart when it has been. -/
theorem Asks.isolated (h : Asks s s') :
    (machinePopulated.created programCaller s).Isolated smallScreen :=
  machinePopulated_start.isolated.step h.created

/-- Nobody has the frames that the call takes. -/
theorem Asks.spare (h : Asks s s') : (machinePopulated.created programCaller s).Spare smallScreen
    (given spaceFrames s.served s'.served) := by
  obtain ⟨nodup, later⟩ := spaceFrames_given (m := s.served) h.room
  have room := h.room
  refine ⟨nodup, fun t mem => ⟨(later t mem).1, (later t mem).2.1⟩, fun t mem => ?_⟩
  obtain ⟨-, -, k, lt, ge, rfl⟩ := later t mem
  exact program_later h.few h.run h.nodup h.frames ge (by omega)

/-- Nothing is in its way. -/
theorem Asks.vacant (h : Asks s s') : Vacant s programCaller.cr3 (spaceFrames s.served)
    (spaceFrames s.served) (given spaceFrames (s.served + 1) s'.served) :=
  program_vacant h.few h.run h.nodup h.frames h.room

/-- The call is a step. -/
theorem Asks.step (h : Asks s s') :
    Step spaceFrames smallScreen (machinePopulated.created programCaller s) (asked s s') :=
  Step.pmap (y := machinePopulated.created programCaller s) (Set.mem_insert _ _) h.call h.spare
    h.vacant

/-- The tables of the process are well-formed, and the frames of the call are not in them. -/
theorem Asks.fresh (h : Asks s s') : WellFormed (pagingLoadPml4 s programCaller.cr3) ∧
    Fresh (pagingLoadPml4 s programCaller.cr3) (given spaceFrames s.served s'.served) := by
  have root := h.isolated.processes.root programCaller (Set.mem_insert _ _)
  exact ⟨h.isolated.spaces.wf _ root, h.spare.unused.fresh root⟩

/-- The process gets its page, and nothing else changes for it. -/
theorem Asks.confined (h : Asks s s') : Confined s s' programCaller.cr3 (spaceFrames s.served)
    (spaceFrames s.served) (given spaceFrames (s.served + 1) s'.served) :=
  (pmap_confined_iff h.call h.fresh.1 h.fresh.2).mpr h.vacant

/-- A frame is free unless it was taken for a table, for the program or for the call. -/
theorem Asks.unclaimed (h : Asks s s') {f : Addr} (new : ∀ k < s'.served, f ≠ spaceFrames k)
    (program : ¬ (0x800000 ≤ f ∧ f ≤ 0xa00000)) (two : f ≠ 0x7000 ∧ f ≠ 0x1000)
    (off : f ≠ 0xfd000000) : (asked s s').Unclaimed smallScreen f := by
  have few := h.few
  have spare := program_spare h.few h.nodup h.frames
  obtain ⟨lt, -, -, here, -⟩ := pmap_local h.call h.fresh.1 h.fresh.2
  have taken {m : Nat} {t : Addr} (mem : t ∈ given spaceFrames m s'.served) : f ≠ t := by
    obtain ⟨-, -, k, lt, -, rfl⟩ := (spaceFrames_given h.room).2 t mem
    exact new k lt
  constructor
  case unreserved =>
    intro mem
    have later := h.spare
    rw [given_succ lt] at later
    rcases reserved_after (k := (asked s s').kernel) h.isolated
      (h.isolated.processes.root programCaller (Set.mem_insert _ _)) here later.cons.2.2 mem
      with old | table
    · have planted := taskNewPageTable_planted machinePopulated_start.isolated.spaces h.run spare
      rcases planted.reserved old with kernel | table
      · exact (machinePopulated_reserved.mp kernel).elim two.1 two.2
      · obtain ⟨-, -, k, before, -, same⟩ :=
          (spaceFrames_given (m := 0) (show s.served ≤ 2 ^ 29 by omega)).2 _ table
        exact new k (before.trans lt) same
    · exact taken table rfl
  case unreached =>
    rintro c ⟨rfl | no, x, user, same⟩
    · by_cases page : x = pagingIndexerAssign (spaceFrames s.served)
      · rw [page] at same
        exact new s.served lt (same.symm.trans h.confined.mapped.2)
      · rcases (h.confined.rest x page).2 with still | ⟨t, mem, -, table⟩
        · obtain ⟨r, hr, there⟩ := @created_shown spaceFrames smallScreen machinePopulated
            programCaller x _ _ _ _ _ s h.run spare
            (fun r hr => program_undisturbed few (userRequests_asked hr))
            ((h.confined.rest x page).1.mp user)
          apply program
          rw [← same, show frameOf (asked s s').kernel.tables programCaller.cr3 x = _ from still,
            ← there]
          exact program_low r hr
        · exact taken mem (same.symm.trans table)
    · cases no
  case off_screen =>
    rw [smallScreen_frames]
    exact off

/-- A table more takes frames that nobody has. -/
theorem Asks.spare_later (h : Asks s s') (few : s₂.served ≤ 2 ^ 30) :
    (asked s s').Spare smallScreen (given spaceFrames s'.served s₂.served) := by
  have room := h.room
  obtain ⟨nodup, later⟩ := spaceFrames_long.apart (m := s'.served) few
  refine ⟨nodup, fun t mem => ⟨(later t mem).1, (later t mem).2.1⟩, fun t mem => ?_⟩
  obtain ⟨-, -, k, lt, ge, rfl⟩ := later t mem
  have value := spaceFrames_value (show k < 2 ^ 30 by omega)
  apply h.unclaimed
  · intro j before same
    have := spaceFrames_long.once k (by omega) j (by omega) same
    omega
  all_goals bv_omega

/-- The second process is made. -/
theorem Asks.second (h : Asks s s') (few : s₂.served ≤ 2 ^ 30)
    (run : taskNewPageTable spaceFrames (2 ^ 28) programImage programIst [] secondTask s' =
      some (spaceFrames s'.served, s₂)) :
    Step spaceFrames smallScreen (asked s s') ((asked s s').created (secondCaller s') s₂) := by
  have room := h.room
  have later := (spaceFrames_long.apart (m := s'.served) few).2
  have other : (secondCaller s').pid ≠ nobody := (by decide : (1 : BitVec 64) ≠ nobody)
  have different : programCaller.pid ≠ (secondCaller s').pid := (by decide : (0 : BitVec 64) ≠ 1)
  have program : ∀ r ∈ userRequests [] secondTask,
      Undisturbed (mappings (requests programImage programIst [] secondTask
        (secondCaller s').cr3) (given spaceFrames (s'.served + 1) s₂.served)) r ∧
      pagingDescGetAddress r.phys ∉ given spaceFrames s'.served s₂.served ∧
      (asked s s').Unclaimed smallScreen (pagingDescGetAddress r.phys) := by
    intro r hr
    obtain ⟨-, low, high⟩ := second_stack r hr
    refine ⟨fun w hw here => ?_, fun mem => ?_, ?_⟩
    · rw [(second_agrees (by omega) few hr hw here).1]
      exact Within.refl _
    · obtain ⟨-, -, k, lt, -, same⟩ := later _ mem
      have value := spaceFrames_value (show k < 2 ^ 30 by omega)
      bv_omega
    · apply h.unclaimed
      · intro k lt same
        have value := spaceFrames_value (show k < 2 ^ 30 by omega)
        bv_omega
      all_goals bv_omega
  refine @Step.create spaceFrames smallScreen (asked s s') _ _ _ _ _ (secondCaller s') s₂ run
    ⟨other, ?_⟩ (h.spare_later few) program
  rintro c (rfl | no)
  · exact different
  · cases no

end

/-- Two processes are made; the first asks for a page anywhere and gets it, the second has its
stack, and user code writes to memory. -/
theorem processes_isolated_program : ∃ (y : Populated) (c : Caller) (n : Nat) (f : Addr),
    Relation.ReflTransGen (Step spaceFrames smallScreen) machinePopulated y ∧
    y.procs = {c, programCaller} ∧ c ≠ programCaller ∧
    y.Reaches programCaller (spaceFrames n) ∧ y.Reaches c f ∧
    (∀ c d a, y.Touches c a → y.Touches d a → c = d) ∧
    ∀ c a, y.Touches c a → ∀ f ∈ y.reserved, IsFrame f → ∀ o < 4096, f + o ≠ a := by
  obtain ⟨s, s', h⟩ := exists_asks
  have room := h.room
  obtain ⟨s₂, run, few, nodup, frames⟩ := spaceFrames_long.run (s := s') (by omega)
    (List.forall_mem_nil _) (show Ends (secondTask.rsp - megabyte) secondTask.rsp by decide)
  replace few : s₂.served ≤ 2 ^ 30 := by omega
  have first : programCaller ∈ (asked s s').procs := Set.mem_insert _ _
  have planted : (asked s s').Planted (secondCaller s').cr3 s₂ _ :=
    taskNewPageTable_planted (h.isolated.step h.step).spaces run (h.spare_later few)
  have still := (planted.reaches (h.isolated.step h.step).processes first).mpr
    ⟨first, _, h.confined.mapped⟩
  -- the lowest page of the second stack
  have lowest : Request.identity flagsUserPage 0x1100000 ∈ userRequests [] secondTask :=
    List.mem_append_right _ (List.mem_map.mpr ⟨0x1100000, List.mem_map.mpr
      ⟨0, List.mem_range.mpr (by decide), rfl⟩, rfl⟩)
  obtain ⟨all, p, -, filled⟩ := taskNewPageTable_filled run nodup frames
  have opened := filled.opens lowest
    ⟨by decide, fun w hw here => (second_agrees (by omega) few lowest hw here).2⟩
  have calls := (((Relation.ReflTransGen.single h.created).tail h.step).tail
    (h.second few run)).tail (Step.write fun _ => 1)
  obtain ⟨apart, kept, -⟩ := processes_isolated machinePopulated_start calls
  refine ⟨_, secondCaller s', s.served, _, calls, ?_, ?_,
    ⟨Set.mem_insert_of_mem _ first, still⟩, ⟨Set.mem_insert _ _, _, opened, rfl⟩, apart, kept⟩
  · exact congrArg (insert _) (LawfulSingleton.insert_empty_eq _)
  · intro same
    have pid : (1 : BitVec 64) = 0 := congrArg Caller.pid same
    exact absurd pid (by decide)

end Populated

end Skylight.Calls
