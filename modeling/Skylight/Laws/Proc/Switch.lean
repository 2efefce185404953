import Skylight.Laws.Cpu.Irq
import Skylight.Laws.Proc.RoundRobin

/-!
# Switching tasks

The timer interrupts a task in user mode, and its handler may choose another one to go on
with. `irq_stub` then loads the general registers and the page tables of the chosen task,
but goes back with the stack pointer, `rbp`, the flags and the instruction pointer that the
processor and the stub pushed for the interrupted one. What each task was last interrupted
or created with is kept beside the run, to compare with.

`switch_exact_iff` is about every run of user code and timer interrupts: each interrupt comes
back, in one way only, and the task goes on exactly just when it is `Alike`, that is when stack
pointer, `rbp`, flags and instruction pointer are the interrupted task's own. User code is
arbitrary up to what `UserStep` excludes; the compiled handler is a parameter, which leaves
alone what a handler has to (`Timer`). Floating point registers are not saved by the source and
are not modelled.
-/

namespace Skylight.Proc

open X86 Cpu Scheduler

/-- What a task needs to go on. -/
@[ext] structure Snapshot where
  reg : Reg → Word
  rip : Word
  rflags : Word
  cr3 : Word

/-- What a processor goes on with. -/
def snapshot (u : X86.Cpu) : Snapshot := ⟨u.reg, u.rip, u.rflags, u.cr .cr3⟩

/-- The task list, the processor in user mode, and what each task was last interrupted or
created with. -/
structure Running where
  k : Scheduler
  cpu : X86.Cpu
  last : Nat → Snapshot

/-- The position of the current task. -/
def current (k : Scheduler) : Nat := (k.find k.currentTaskId).getD 0

/-- The kernel with another compiled function behind a symbol. -/
def relink (img : Image Symbol) (f : Symbol) (g : X86.Cpu → X86.Cpu) : Image Symbol :=
  { img with compiled := Function.update img.compiled f g }

/-- The GS bases as the timer's handler finds them when user code was interrupted. -/
def swapped (u : X86.Cpu) : X86.Cpu := { u with gsBase := u.kernelGsBase, kernelGsBase := u.gsBase }

section
variable (img : Image Symbol) (vector : Vector) (ist rsp0 : Word) (n : Nat) (ctx gs : Nat → Word)
  (timer : Scheduler → X86.Cpu → X86.Cpu)

/-- The contexts and gs pages of the `n` tasks, the interrupt stack and the handlers' table do
not overlap. -/
structure Layout : Prop where
  apart : ∀ l < n, Apart 8400 (slot (alignStack ist) 1) (ctx l) (gs l) (img.addr .safeR15)
  table : ∀ l < n, TableApart img vector 8400 (alignStack ist) (ctx l)
  contexts : ∀ l < n, ∀ m < n, l ≠ m → ∀ a ∈ contextBytes (ctx l), a ∉ contextBytes (ctx m)
  pages : ∀ l < n, ∀ m < n, ∀ i < 0x30, gs m + i ∉ contextBytes (ctx l)
  entry : ∀ m < n, ∀ i < 0x30, handlerEntry img vector ≠ gs m + i
  present : ∀ l < n, gs l ≠ 0

/-- What the timer's handler leaves alone except where `task_select_next` writes. -/
def timerKeeps : Set Word :=
  {a | ∃ l < n, a ∈ taskBytes (ctx l) (gs l)} ∪ {handlerEntry img vector}

/-- The compiled handler of the timer, for each state of the task list, does what
`__local_timer_builtin_handler` does, and keeps to the calling convention. -/
def Timer : Prop := ∀ (k : Scheduler) (s : X86.Cpu), s.reg .rsp = slot (alignStack ist) 6 →
  Returns (timerKeeps img vector n ctx gs ∪ below 6 (alignStack ist)) (s.cr .cr3)
    (localTimerBuiltinHandler rsp0 k s).2 (timer k s)

/-- A timer interrupt. -/
inductive Tick : Running → Running → Prop
  | irq {k : Scheduler} {u s : X86.Cpu} {last : Nat → Snapshot}
      (back : Leaves (relink img (.routine vector) (timer k))
        ⟨interrupt ist none u, irqStub vector, []⟩ s) :
      Tick ⟨k, u, last⟩ ⟨(localTimerBuiltinHandler rsp0 k (swapped u)).1, s,
        Function.update last (current k) (snapshot u)⟩

/-- User code, and the kernel on its behalf. It does not write to the contexts of other tasks,
to the pointer to its own, or to the handlers' table. -/
inductive UserStep : Running → Running → Prop
  | user {k : Scheduler} {u s : X86.Cpu} {last : Nat → Snapshot}
      (ds : s.seg .ds ≠ 0x10) (base : s.gsBase = u.gsBase)
        (kernel : s.kernelGsBase = u.kernelGsBase)
      (others : ∀ l < n, l ≠ current k → ∀ a ∈ contextBytes (ctx l), s.mem a = u.mem a)
      (pointer : s.mem (gs (current k) + 0x20#64) = u.mem (gs (current k) + 0x20#64))
      (entry : s.mem (handlerEntry img vector) = u.mem (handlerEntry img vector)) :
      UserStep ⟨k, u, last⟩ ⟨k, s, last⟩

/-- User code and timer interrupts. -/
def RunStep (x y : Running) : Prop :=
  UserStep img vector n ctx gs x y ∨ Tick img vector ist rsp0 timer x y

/-- A task is running in user mode, and the others are ready to go on. -/
structure Ready (x : Running) : Prop where
  listed : Listed x.k (current x.k)
  length : x.k.tasks.length = n
  contexts : ∀ l < n, (x.k.task l).ctx = ctx l
  pages : ∀ l < n, (x.k.task l).gsBase = gs l
  ds : x.cpu.seg .ds ≠ 0x10
  base : x.cpu.gsBase = 0
  kernel : x.cpu.kernelGsBase = gs (current x.k)
  pointer : x.cpu.mem (gs (current x.k) + 0x20#64) = ctx (current x.k)
  entry : img.symbol (x.cpu.mem (handlerEntry img vector)) = some (.routine vector)
  holds : ∀ l < n, l ≠ current x.k →
    Holds x.cpu.mem (ctx l) (x.last l).reg (x.last l).cr3

end

/-- The current task goes on exactly where it was last interrupted or created. -/
def Exact (x : Running) : Prop := snapshot x.cpu = x.last (current x.k)

/-- The task that the timer will go on with is the current one, or was last interrupted or
created with the stack pointer, `rbp`, flags and instruction pointer of the current one. -/
def Alike (x : Running) : Prop :=
  let next := x.k.after (current x.k)
  next = current x.k ∨
    (x.last next).reg .rsp = x.cpu.reg .rsp ∧ (x.last next).reg .rbp = x.cpu.reg .rbp ∧
    (x.last next).rflags = x.cpu.rflags ∧ (x.last next).rip = x.cpu.rip

section
variable {img : Image Symbol} {vector : Vector} {ist rsp0 pml4 : Word} {n : Nat}
  {ctx gs : Nat → Word} {timer : Scheduler → X86.Cpu → X86.Cpu} {k : Scheduler} {i j l : Nat}
  {u s : X86.Cpu} {t : Task} {a : Word} {x y z : Running}

/-- Another handler is linked in, and the kernel's other code is where it was. -/
theorem relink_kernel (K : Cpu.Kernel img pml4) (g : X86.Cpu → X86.Cpu) :
    Cpu.Kernel (relink img (.routine vector) g) pml4 where
  text := K.text
  syncs s := by
    have other : Symbol.pagingSyncCr3 ≠ .routine vector := by rintro ⟨⟩
    show Returns _ pml4 s (Function.update img.compiled (.routine vector) g .pagingSyncCr3 s)
    rw [Function.update_of_ne other]
    exact K.syncs s

/-- The position of the current task. -/
theorem current_of_listed (h : Listed k i) : current k = i := by
  rw [current, h.find]
  rfl

/-- After the scheduler it is the next position. -/
theorem after_current (h : Listed k i) :
    current (taskSelectNext rsp0 k u).2.1 = k.after i :=
  current_of_listed h.next

/-- `task_select_next` writes nothing but the gs page of the task it goes on with. -/
theorem loadGsBase_mem (off : ∀ i < 0x30, a ≠ t.gsBase + i) :
    (loadGsBase rsp0 t u).mem a = u.mem a := by
  have ne (i : Word) (lt : i < 0x30) : (a = t.gsBase + i) = False := eq_false (off i lt)
  have first : (a = t.gsBase) = False := by
    have zero := ne 0 (by decide)
    rwa [BitVec.ofNat_eq_ofNat, BitVec.add_zero] at zero
  simp [loadGsBase, ne, first]

/-- The gs page points to the context. -/
theorem loadGsBase_pointer : (loadGsBase rsp0 t u).mem (t.gsBase + 0x20#64) = t.ctx := by
  simp [loadGsBase]

/-- In user mode the handler finds GS bases with which it goes on to `task_select_next`. -/
theorem localTimerBuiltinHandler_task (base : u.gsBase ≠ 0) (kernel : u.kernelGsBase = 0) :
    localTimerBuiltinHandler rsp0 k u = (taskSelectNext rsp0 k u).2 := by
  rw [localTimerBuiltinHandler, if_pos ⟨base, kernel⟩]

/-- `task_select_next` changes the context of no task, and the gs page of the current one only
to the GS base. -/
theorem taskSelectNext_fixed (h : Listed k i) (lt : l < k.tasks.length) :
    ((taskSelectNext rsp0 k u).2.1.task l).ctx = (k.task l).ctx ∧
    ((taskSelectNext rsp0 k u).2.1.task l).gsBase =
      if i = l then u.gsBase else (k.task l).gsBase := by
  have get := @taskSelectNext_get _ _ l rsp0 u h.find
  rw [get_of_lt lt, Option.map_some] at get
  rw [task_of_get get]
  exact ⟨rfl, rfl⟩

/-- The processor when it goes on with the task at position `i`. -/
theorem taskSelectNext_cpu (h : Listed k i) : ∃ t : Task,
    (taskSelectNext rsp0 k u).2.2 = loadGsBase rsp0 t u ∧ t.ctx = (k.task (k.after i)).ctx ∧
    t.gsBase = if i = k.after i then u.gsBase else (k.task (k.after i)).gsBase := by
  have fixed := @taskSelectNext_fixed rsp0 _ _ _ u h (after_lt h.lt)
  refine ⟨(taskSelectNext rsp0 k u).2.1.task (k.after i), ?_, fixed⟩
  rw [taskSelectNext_some h.find]
  rfl

/-- What the handler returns to the stub with: the interrupted task saved, the GS base and the
pointer of the task to go on with, and the other contexts as they were. -/
structure Handled (img : Image Symbol) (vector : Vector) (ist : Word) (n : Nat)
    (ctx gs : Nat → Word) (i j : Nat) (u s : X86.Cpu) : Prop where
  pushed : Pushed (alignStack ist) u s.mem
  rbp : s.mem (slot (alignStack ist) 6) = u.reg .rbp
  rsp : s.reg .rsp = slot (alignStack ist) 6
  base : s.gsBase = gs j
  kernel : s.kernelGsBase = 0
  pointer : s.mem (gs j + 0x20#64) = ctx j
  entry : s.mem (handlerEntry img vector) = u.mem (handlerEntry img vector)
  saved : Holds s.mem (ctx i) u.reg (u.cr .cr3)
  others : ∀ l < n, l ≠ i → ∀ a ∈ contextBytes (ctx l), s.mem a = u.mem a

/-- The stub up to the return of the handler. -/
theorem Ready.handled (K : Cpu.Kernel img pml4) (L : Layout img vector ist n ctx gs)
    (T : Timer img vector ist rsp0 n ctx gs timer) (h : Ready img vector n ctx gs x) :
    ∃ s, Runs (relink img (.routine vector) (timer x.k))
        ⟨interrupt ist none x.cpu, irqStub vector, []⟩ ⟨s, irqTaskRest vector, []⟩ ∧
      Handled img vector ist n ctx gs (current x.k) (x.k.after (current x.k)) x.cpu s := by
  obtain ⟨k, u, last⟩ := x
  obtain ⟨listed, length, contexts, pages, ds, base, kernel, pointer, entry, -⟩ := h
  dsimp only at *
  have lt : current k < n := length ▸ listed.lt
  have lt' : k.after (current k) < n := length ▸ after_lt listed.lt
  set i := current k
  set j := k.after i
  set top := alignStack ist with top_def
  have K' : Cpu.Kernel (relink img (.routine vector) (timer k)) pml4 := relink_kernel K (timer k)
  obtain ⟨s₃, run₃, S⟩ := @irqStub_saves _ vector (ctx i) _ ist _ K' ds
    (by rw [kernel]; exact L.apart i lt) ⟨(L.table i lt).stack, (L.table i lt).context,
      (L.table i lt).safe⟩ (by rw [kernel]; exact pointer)
  have R := T k s₃ S.rsp
  have handler : localTimerBuiltinHandler rsp0 k s₃ = (taskSelectNext rsp0 k s₃).2 :=
    localTimerBuiltinHandler_task (by rw [S.gsBase, kernel]; exact L.present i lt)
      (S.kernelGsBase.trans base)
  obtain ⟨t, cpu, tctx, tgs⟩ := @taskSelectNext_cpu rsp0 _ _ s₃ listed
  rw [handler, cpu] at R
  have tgs : t.gsBase = gs j := by
    rw [tgs, ← pages j lt']
    split
    · next same =>
      rw [S.gsBase, kernel, ← pages i lt]
      exact congrArg (fun l => (k.task l).gsBase) same
    · rfl
  have tctx : t.ctx = ctx j := tctx.trans (contexts j lt')
  have call : Runs (relink img (.routine vector) (timer k))
      ⟨s₃, .callReg .r15 :: irqTaskRest vector, []⟩ ⟨timer k s₃, irqTaskRest vector, []⟩ := by
    have at₃ : img.symbol (s₃.reg .r15) = some (.routine vector) := by
      rw [S.r15]
      exact entry
    have text : img.code (.routine vector) = none := by rw [K.text]; rfl
    have run := @runs_callReg_compiled _ (relink img (.routine vector) (timer k)) _
      (irqTaskRest vector) [] _ _ at₃ text
    have self : (relink img (.routine vector) (timer k)).compiled (.routine vector) = timer k :=
      Function.update_self _ _ _
    rwa [self] at run
  have loaded (a : Word) (keep : a ∈ timerKeeps img vector n ctx gs ∪ below 6 top)
      (off : ∀ i < 0x30, a ≠ gs j + i) : (timer k s₃).mem a = s₃.mem a := by
    rw [R.mem a keep]
    exact loadGsBase_mem (by rw [tgs]; exact off)
  have stack (m : Nat) (one : 1 ≤ m) (hm : m ≤ 6) :
      (timer k s₃).mem (slot top m) = s₃.mem (slot top m) := by
    apply loaded _ (Or.inr ⟨m, one, hm, rfl⟩)
    intro o lt₀
    rw [slot_pred one]
    exact (L.apart j lt').stack_gs _ o (by omega) lt₀
  have context (l : Nat) (hl : l < n) (a : Word) (ha : a ∈ contextBytes (ctx l)) :
      (timer k s₃).mem a = s₃.mem a := by
    apply loaded _ (Or.inl (Or.inl ⟨l, hl, Or.inl ha⟩))
    rintro o lt₀ rfl
    exact L.pages l hl j lt' o lt₀ ha
  refine ⟨timer k s₃, run₃.trans call, ?_⟩
  constructor
  case pushed => exact S.pushed.congr fun m one le => stack m one (Nat.le_succ_of_le le)
  case rbp => exact (stack 6 (by decide) (by decide)).trans S.rbp
  case rsp => exact (R.reg .rsp rfl).trans S.rsp
  case base => exact R.gsBase.trans tgs
  case kernel => exact R.kernelGsBase
  case pointer =>
    rw [R.mem _ (Or.inl (Or.inl ⟨j, lt', Or.inr rfl⟩)), ← tgs]
    exact loadGsBase_pointer.trans tctx
  case entry =>
    rw [loaded _ (Or.inl (Or.inr rfl)) (L.entry j lt')]
    exact S.mem _ (L.table i lt).stack (L.table i lt).context (L.table i lt).safe
  case saved => exact S.holds.congr (context i lt)
  case others =>
    intro l hl other a ha
    rw [context l hl a ha]
    obtain ⟨o, lt₀, eq⟩ := id ha
    apply S.mem
    · rintro ⟨m, one, le, here⟩
      rw [eq, slot_pred one] at here
      exact (L.apart l hl).stack_context _ o (by omega) lt₀ here.symm
    · exact L.contexts l hl i lt other a ha
    · rw [eq]
      exact (L.apart l hl).context_safe o lt₀

/-- The context of the task to go on with holds what it was last interrupted or created with. -/
theorem Handled.holds (H : Handled img vector ist n ctx gs i j u s)
    {last : Nat → Snapshot}
    (h : ∀ l < n, l ≠ i → Holds u.mem (ctx l) (last l).reg (last l).cr3) {l : Nat} (hl : l < n) :
    Holds s.mem (ctx l) (Function.update last i (snapshot u) l).reg
      (Function.update last i (snapshot u) l).cr3 := by
  by_cases here : l = i
  · subst here
    rw [Function.update_self]
    exact H.saved
  · rw [Function.update_of_ne here]
    exact (h l hl here).congr (H.others l hl here)

/-- A timer interrupt goes on with the task after the current one, with the general registers
and page tables it left, and with the rest of what the current one left. -/
structure Resumed (ist : Word) (v : Snapshot) (g : Word) (u s s' : X86.Cpu) : Prop where
  rip : s'.rip = u.rip
  rflags : s'.rflags = u.rflags
  rsp : s'.reg .rsp = u.reg .rsp
  rbp : s'.reg .rbp = u.reg .rbp
  reg : ∀ r, r ≠ .rsp → r ≠ .rbp → s'.reg r = v.reg r
  cr3 : s'.cr .cr3 = v.cr3
  ds : s'.seg .ds = 0x1b
  base : s'.gsBase = 0
  kernel : s'.kernelGsBase = g
  mem : ∀ a, a ≠ slot (alignStack ist) 7 → a ≠ slot (alignStack ist) 8 → s'.mem a = s.mem a

/-- The rest of the stub, with the frame of the interrupted task. -/
theorem Handled.resumed {linked : Image Symbol} {v : Snapshot} (K : Cpu.Kernel linked pml4)
    (H : Handled img vector ist n ctx gs i j u s) (L : Layout img vector ist n ctx gs) (lt : j < n)
    (holds : Holds s.mem (ctx j) v.reg v.cr3) :
    ∃ s', Leaves linked ⟨s, irqTaskRest vector, []⟩ s' ∧ Resumed ist v (gs j) u s s' := by
  have A := (L.apart j lt).weaken (m := 7) (by decide)
  rw [← H.base] at A
  have pointer := H.pointer
  rw [← H.base] at pointer
  obtain ⟨s', out, rip, rflags, rsp, rbp, reg, cr, seg, base, kernel, mem⟩ :=
    irqTaskRest_leaves vector K H.pushed H.rbp H.rsp A pointer holds
  refine ⟨s', out, rip, rflags, rsp, rbp, reg, ?_, ?_, base.trans H.kernel,
    kernel.trans H.base, mem⟩
  · rw [cr, Function.update_self]
  · rw [seg]
    rfl

/-- The task goes on where it was just when the four things that the frame holds are the same
for both. -/
theorem Resumed.snapshot_eq_iff {v : Snapshot} {g : Word} {s' : X86.Cpu}
    (R : Resumed ist v g u s s') : snapshot s' = v ↔ v.reg .rsp = u.reg .rsp ∧
      v.reg .rbp = u.reg .rbp ∧ v.rflags = u.rflags ∧ v.rip = u.rip := by
  constructor
  · rintro rfl
    exact ⟨R.rsp, R.rbp, R.rflags, R.rip⟩
  · rintro ⟨rsp, rbp, rflags, rip⟩
    apply Snapshot.ext
    · funext r
      by_cases sp : r = .rsp
      · subst sp
        exact R.rsp.trans rsp.symm
      · by_cases bp : r = .rbp
        · subst bp
          exact R.rbp.trans rbp.symm
        · exact R.reg r sp bp
    · exact R.rip.trans rip.symm
    · exact R.rflags.trans rflags.symm
    · exact R.cr3

/-- One timer interrupt. It comes back, in one way only, with another task ready or the same;
and that task goes on exactly where it was if the two are alike, and only then. -/
theorem Ready.tick (K : Cpu.Kernel img pml4) (L : Layout img vector ist n ctx gs)
    (T : Timer img vector ist rsp0 n ctx gs timer) (h : Ready img vector n ctx gs x) :
    ∃ z, (∀ y, Tick img vector ist rsp0 timer x y ↔ y = z) ∧ Ready img vector n ctx gs z ∧
      (Exact z ↔ Alike x) := by
  obtain ⟨s, run, H⟩ := h.handled K L T
  obtain ⟨k, u, last⟩ := x
  obtain ⟨listed, length, contexts, pages, ds, base, kernel, pointer, entry, holds⟩ := h
  dsimp only at *
  have lt : current k < n := length ▸ listed.lt
  have lt' : k.after (current k) < n := length ▸ after_lt listed.lt
  have now := @after_current rsp0 _ _ (swapped u) listed
  obtain ⟨s', out, R⟩ := H.resumed (relink_kernel K (timer k)) L lt' (H.holds holds lt')
  have handler : (localTimerBuiltinHandler rsp0 k (swapped u)).1 =
      (taskSelectNext rsp0 k (swapped u)).2.1 := by
    rw [localTimerBuiltinHandler_task]
    · show u.kernelGsBase ≠ 0
      rw [kernel]
      exact L.present _ lt
    · exact base
  set v := Function.update last (current k) (snapshot u) with def_v
  have frame (a : Word) (off : ∀ m, 1 ≤ m → m ≤ 8400 → a ≠ slot (alignStack ist) m) :
      s'.mem a = s.mem a := R.mem a (off 7 (by decide) (by decide)) (off 8 (by decide) (by decide))
  have back := run.leaves out
  refine ⟨⟨(localTimerBuiltinHandler rsp0 k (swapped u)).1, s', v⟩, fun y => ⟨?_, ?_⟩, ?_, ?_⟩
  · rintro ⟨again⟩
    rw [again.unique back]
  · rintro rfl
    exact .irq back
  · rw [handler]
    constructor
    case listed => exact now.symm ▸ listed.next
    case length => exact taskSelectNext_length.trans length
    case contexts =>
      intro l hl
      exact (taskSelectNext_fixed listed (length.symm ▸ hl)).1.trans (contexts l hl)
    case pages =>
      intro l hl
      rw [(taskSelectNext_fixed listed (length.symm ▸ hl)).2]
      split
      · next here => exact here ▸ kernel
      · exact pages l hl
    case ds =>
      show s'.seg .ds ≠ 0x10
      rw [R.ds]
      decide
    case base => exact R.base
    case kernel => exact R.kernel.trans (congrArg gs now.symm)
    case pointer =>
      show s'.mem (gs (current _) + 0x20#64) = ctx (current _)
      rw [now, frame, H.pointer]
      intro m one le
      rw [slot_pred one]
      exact ((L.apart _ lt').stack_gs _ _ (by omega) (by decide)).symm
    case entry =>
      show img.symbol (s'.mem _) = _
      rw [frame, H.entry, entry]
      rintro m one le here
      exact (L.table _ lt).stack ⟨m, one, le, here⟩
    case holds =>
      intro l hl _
      refine (H.holds holds hl).congr fun a ha => frame a fun m one le here => ?_
      obtain ⟨o, lt₀, rfl⟩ := ha
      rw [slot_pred one] at here
      exact (L.apart l hl).stack_context _ o (by omega) lt₀ here.symm
  · rw [Exact, handler]
    show snapshot s' = v (current _) ↔ _
    rw [now, R.snapshot_eq_iff, Alike]
    by_cases here : k.after (current k) = current k
    · rw [here, def_v, Function.update_self]
      exact iff_of_true ⟨rfl, rfl, rfl, rfl⟩ (Or.inl rfl)
    · rw [def_v, Function.update_of_ne here]
      exact (or_iff_right here).symm

/-- User code keeps the others ready. -/
theorem UserStep.ready (step : UserStep img vector n ctx gs x y) (h : Ready img vector n ctx gs x) :
    Ready img vector n ctx gs y := by
  cases step with
  | user ds base kernel others pointer entry =>
    constructor
    case listed => exact h.listed
    case length => exact h.length
    case contexts => exact h.contexts
    case pages => exact h.pages
    case ds => exact ds
    case base => exact base.trans h.base
    case kernel => exact kernel.trans h.kernel
    case pointer => exact pointer.trans h.pointer
    case entry => exact (congrArg img.symbol entry).trans h.entry
    case holds => exact fun l hl other => (h.holds l hl other).congr (others l hl other)

/-- In every state of a run a task is running and the others are ready. -/
theorem run_ready (K : Cpu.Kernel img pml4) (L : Layout img vector ist n ctx gs)
    (T : Timer img vector ist rsp0 n ctx gs timer) (start : Ready img vector n ctx gs x)
    (run : Relation.ReflTransGen (RunStep img vector ist rsp0 n ctx gs timer) x y) :
    Ready img vector n ctx gs y := by
  induction run with
  | refl => exact start
  | tail _ step ready =>
    cases step with
    | inl user => exact user.ready ready
    | inr tick =>
      obtain ⟨z, only, after, -⟩ := ready.tick K L T
      rw [(only _).mp tick]
      exact after

/-- Every timer interrupt of a run comes back, and the task it goes on with is exactly where it
was last interrupted or created if and only if it is alike the one interrupted. -/
theorem switch_exact_iff (K : Cpu.Kernel img pml4) (L : Layout img vector ist n ctx gs)
    (T : Timer img vector ist rsp0 n ctx gs timer) (start : Ready img vector n ctx gs x)
    (run : Relation.ReflTransGen (RunStep img vector ist rsp0 n ctx gs timer) x y) :
    ∃ z, (∀ y', Tick img vector ist rsp0 timer y y' ↔ y' = z) ∧ (Exact z ↔ Alike y) := by
  obtain ⟨z, only, -, exact_⟩ := (run_ready K L T start run).tick K L T
  exact ⟨z, only, exact_⟩

/-! ### A task just created -/

/-- Clearing a page writes nothing else. -/
theorem zeroPage_mem {g : Word} (off : ∀ i < 512, a ≠ g + BitVec.ofNat 64 (8 * i)) :
    (zeroPage g u).mem a = u.mem a := by
  have rest (is : List Nat) (off : ∀ i ∈ is, a ≠ g + BitVec.ofNat 64 (8 * i)) (u : X86.Cpu) :
      (is.foldl (fun u i => u.write (g + BitVec.ofNat 64 (8 * i)) 0) u).mem a = u.mem a := by
    induction is generalizing u with
    | nil => rfl
    | cons i is ih =>
      rw [List.foldl_cons, ih fun j hj => off j (List.mem_cons_of_mem i hj), write_mem,
        if_neg (off i List.mem_cons_self)]
  rw [zeroPage]
  exact rest (List.range 512) (fun i hi => off i (List.mem_range.mp hi)) u

/-- A field that is cleared is zero. -/
theorem clear_mem {c f : Word} {fields : List Word} (h : f ∈ fields) (u : X86.Cpu) :
    (fields.foldl (fun u f => u.write (c + f) 0) u).mem (c + f) = 0 := by
  have keeps (fields : List Word) (u : X86.Cpu) (zero : u.mem (c + f) = 0) :
      (fields.foldl (fun u f => u.write (c + f) 0) u).mem (c + f) = 0 := by
    induction fields generalizing u with
    | nil => exact zero
    | cons g fields ih =>
      apply ih
      rw [write_mem, zero, ite_self]
  induction fields generalizing u with
  | nil => cases h
  | cons g fields ih =>
    rw [List.foldl_cons]
    rcases List.mem_cons.mp h with rfl | later
    · apply keeps
      rw [write_mem, if_pos rfl]
    · exact ih later _

/-- `task_create_new` leaves a context from which the task starts with its registers zero. -/
theorem taskCreateNew_holds {entry : Word} {new : Allocated}
    (apart : ∀ i < 512, new.gsBase + BitVec.ofNat 64 (8 * i) ∉ contextBytes new.ctx) :
    Holds (taskCreateNew rsp0 entry new k u).2.2.mem new.ctx (fun _ => 0) new.table where
  field r sp bp := by
    have off (i : Nat) (hi : i < 512) :
        new.ctx + contextOffset r ≠ new.gsBase + BitVec.ofNat 64 (8 * i) :=
      fun eq => apart i hi ⟨contextOffset r, by cases r <;> decide, eq.symm⟩
    have page (i : Nat) (hi : i < 512) (d : Word) (hd : BitVec.ofNat 64 (8 * i) = d) :
        new.ctx + contextOffset r ≠ new.gsBase + d := hd ▸ off i hi
    have field : contextOffset r ∈ registerOffsets := by
      cases r <;> first | contradiction | decide
    have low : ∀ f ∈ registerOffsets, f < 0x70 := by simp [registerOffsets]
    have other (f : Word) (high : 0x70 ≤ f) : new.ctx + contextOffset r ≠ new.ctx + f := by
      intro eq
      rw [(BitVec.add_right_inj _).mp eq] at field
      exact BitVec.not_le.mpr (low f field) high
    simp only [taskCreateNew, write_mem]
    rw [if_neg (other 0x88 (by decide)), if_neg (other 0x80 (by decide)),
      if_neg (other 0x78 (by decide)), if_neg (other 0x70 (by decide)),
      if_neg (page 4 (by decide) 0x20 rfl), if_neg (page 3 (by decide) 0x18 rfl),
      if_neg (page 2 (by decide) 0x10 rfl), if_neg (page 1 (by decide) 0x08 rfl),
      if_neg (page 0 (by decide) 0x00 rfl), zeroPage_mem off]
    exact clear_mem field u
  cr3 := by simp [taskCreateNew]

end

/-- Two tasks of the machine, of which the second is running. -/
def machineRunning : Running where
  k := { twoTasks with currentTaskId := 1 }
  cpu := { machineCpu 0x1b with
    kernelGsBase := 0x4001000
    mem := fun a =>
      if a = 0x4001020 then 0x3001000
      else if a = 0x3000088 then 0x8000
      else if a = handlerEntry (machineImage machineCompiled) 33 then
        (machineImage machineCompiled).addr (.routine 33)
      else 0 }
  last _ := ⟨fun r => if r = .rsp then 0x6000000 else 0, 0x500000, 0x202, 0x8000⟩

/-- The contexts and the gs pages of the two tasks. -/
def twoContexts (l : Nat) : Word := if l = 0 then 0x3000000 else 0x3001000
def twoPages (l : Nat) : Word := if l = 0 then 0x4000000 else 0x4001000

/-- The timer's handler compiled to nothing but what it does. -/
def plainTimer (k : Scheduler) (s : X86.Cpu) : X86.Cpu := (localTimerBuiltinHandler 0 k s).2

/-- The handler leaves the page tables. -/
theorem plainTimer_cr (k : Scheduler) (s : X86.Cpu) : (plainTimer k s).cr = s.cr := by
  rw [plainTimer, localTimerBuiltinHandler]
  split
  · rw [taskSelectNext]
    split
    · rfl
    · simp only [loadGsBase, X86.Cpu.write_cr]
  · rfl

/-- It does what the timer's handler does. -/
theorem machine_timer : Timer (machineImage machineCompiled) 33 machineIst 0 2 twoContexts twoPages
    plainTimer := by
  intro k s _
  constructor
  case cr =>
    show (plainTimer k s).cr = Function.update (plainTimer k s).cr .cr3 (s.cr .cr3)
    rw [← congrFun (plainTimer_cr k s) .cr3, Function.update_eq_self]
  case reg =>
    intro r _
    rfl
  case seg => rfl
  case gsBase => rfl
  case kernelGsBase => rfl
  case mem =>
    intro a _
    rfl

/-- Where the two contexts are. -/
theorem twoContexts_between (l : Nat) : 0x3000000 ≤ twoContexts l ∧ twoContexts l ≤ 0x3001000 := by
  rw [twoContexts]
  split <;> decide

/-- Where the two gs pages are. -/
theorem twoPages_between (l : Nat) : 0x4000000 ≤ twoPages l ∧ twoPages l ≤ 0x4001000 := by
  rw [twoPages]
  split <;> decide

/-- Nothing of the machine overlaps. -/
theorem machine_layout : Layout (machineImage machineCompiled) 33 machineIst 2 twoContexts
    twoPages where
  apart l _ := machine_apart_between (twoContexts_between l).1 (twoContexts_between l).2
    (twoPages_between l).1 (twoPages_between l).2
  table l _ := machine_table_between (twoContexts_between l).1 (twoContexts_between l).2
  contexts l hl m hm other := by
    rintro a ⟨i, hi, rfl⟩ ⟨j, hj, eq⟩
    have first : twoContexts 0 = 0x3000000 := rfl
    have second : twoContexts 1 = 0x3001000 := rfl
    have : l = 0 ∧ m = 1 ∨ l = 1 ∧ m = 0 := by omega
    rcases this with ⟨rfl, rfl⟩ | ⟨rfl, rfl⟩
    · rw [first, second] at eq
      bv_omega
    · rw [first, second] at eq
      bv_omega
  pages l _ m _ i hi := by
    rintro ⟨j, hj, eq⟩
    obtain ⟨c₁, c₂⟩ := twoContexts_between l
    obtain ⟨g₁, g₂⟩ := twoPages_between m
    bv_omega
  entry m _ i hi := by
    obtain ⟨g₁, g₂⟩ := twoPages_between m
    have entry : handlerEntry (machineImage machineCompiled) 33 = 0xc108 := by decide
    rw [entry]
    bv_omega
  present l _ := by
    rw [twoPages]
    split <;> decide

/-- The first task is ready to go on. -/
theorem machine_ready : Ready (machineImage machineCompiled) 33 2 twoContexts twoPages
    machineRunning where
  listed := ⟨by decide, rfl⟩
  length := rfl
  contexts l hl := by
    have : l = 0 ∨ l = 1 := by omega
    rcases this with rfl | rfl <;> rfl
  pages l hl := by
    have : l = 0 ∨ l = 1 := by omega
    rcases this with rfl | rfl <;> rfl
  ds := by decide
  base := rfl
  kernel := rfl
  pointer := by decide
  entry := by decide
  holds l hl other := by
    have second : current machineRunning.k = 1 := by decide
    rw [second] at other
    obtain rfl : l = 0 := by omega
    constructor
    case field =>
      intro r sp bp
      cases r <;> first | contradiction | decide
    case cr3 => decide

/-- What the first task of the machine was created with. -/
def machineAllocated : Allocated := ⟨0x3000000, 0x4000000, 0x5f00000, 0x8000⟩

/-- The first task has just been created, and the second is at the first instruction of the same
program. -/
def machineTwin : Running where
  k := machineRunning.k
  cpu := { (taskCreateNew 0 0x401000 machineAllocated schedulerPreconfigure
      machineRunning.cpu).2.2 with
    reg := fun r => if r = .rsp then 0x6000000 else 0
    rip := 0x401000
    rflags := 0x202 }
  last _ := ⟨fun r => if r = .rsp then 0x6000000 else 0, 0x401000, 0x202, 0x8000⟩

/-- It holds what it was created with. -/
theorem machineTwin_holds : Holds machineTwin.cpu.mem 0x3000000 (machineTwin.last 0).reg
    (machineTwin.last 0).cr3 := by
  have apart : ∀ i < 512, machineAllocated.gsBase + BitVec.ofNat 64 (8 * i) ∉
      contextBytes machineAllocated.ctx := by
    rintro i hi ⟨j, hj, eq⟩
    rw [show machineAllocated.gsBase = 0x4000000 from rfl,
      show machineAllocated.ctx = 0x3000000 from rfl] at eq
    bv_omega
  obtain ⟨field, cr3⟩ :=
    @taskCreateNew_holds 0 schedulerPreconfigure machineRunning.cpu 0x401000 machineAllocated apart
  exact ⟨fun r sp bp => (field r sp bp).trans (if_neg sp).symm, cr3⟩

/-- The processor is in the second task, and the handler is in place. -/
theorem machineTwin_cpu : machineTwin.cpu.seg .ds ≠ 0x10 ∧ machineTwin.cpu.gsBase = 0 ∧
    machineTwin.cpu.kernelGsBase = twoPages (current machineTwin.k) ∧
    machineTwin.cpu.mem (twoPages (current machineTwin.k) + 0x20#64) =
      twoContexts (current machineTwin.k) ∧
    (machineImage machineCompiled).symbol
      (machineTwin.cpu.mem (handlerEntry (machineImage machineCompiled) 33)) =
        some (.routine 33) := by
  decide +kernel

/-- It is ready as well. -/
theorem machineTwin_ready : Ready (machineImage machineCompiled) 33 2 twoContexts twoPages
    machineTwin := by
  obtain ⟨ds, base, kernel, pointer, entry⟩ := machineTwin_cpu
  refine ⟨machine_ready.listed, machine_ready.length, machine_ready.contexts,
    machine_ready.pages, ds, base, kernel, pointer, entry, ?_⟩
  intro l hl other
  have second : current machineTwin.k = 1 := by decide
  rw [second] at other
  obtain rfl : l = 0 := by omega
  exact machineTwin_holds

/-- The timer interrupts the second task of the machine, and goes on with the first: where the
second was, which is where the first was to go on only if both were at one place. -/
theorem switch_exact_machine :
    (∃ z, (∀ y, Tick (machineImage machineCompiled) 33 machineIst 0 plainTimer machineTwin y ↔
      y = z) ∧ Exact z) ∧
    ∃ z, (∀ y, Tick (machineImage machineCompiled) 33 machineIst 0 plainTimer machineRunning y ↔
      y = z) ∧ ¬ Exact z := by
  obtain ⟨z, only, twin⟩ :=
    switch_exact_iff machine_kernel machine_layout machine_timer machineTwin_ready .refl
  obtain ⟨z', only', running⟩ :=
    switch_exact_iff machine_kernel machine_layout machine_timer machine_ready .refl
  exact ⟨⟨z, only, twin.mpr (Or.inr (by decide +kernel))⟩, z', only',
    fun exact_ => absurd (running.mp exact_) (by unfold Alike; decide)⟩

/-- A task does not always go on where it was last interrupted or created. -/
theorem switch_not_always_exact : ¬ ∀ x z : Running,
    Ready (machineImage machineCompiled) 33 2 twoContexts twoPages x →
    Tick (machineImage machineCompiled) 33 machineIst 0 plainTimer x z → Exact z := by
  intro always
  obtain ⟨z, only, -, exact_⟩ := machine_ready.tick machine_kernel machine_layout machine_timer
  have alike := exact_.mp (always _ z machine_ready ((only z).mpr rfl))
  exact absurd alike (by unfold Alike; decide)

end Skylight.Proc
