import Skylight.Laws.Cpu.Machine

/-!
# Interrupts are transparent

An interrupt taken in a task goes through the task's context: the stub saves the registers
there, calls the handler and restores them. One taken in the kernel goes through the stack.
Either way the interrupted code finds every register as it left it.

`irqStub_transparent` is about every register file and every handler that keeps to the calling
convention, in both modes: the interrupted code goes on with its general registers, its data
segment, its flags, its page tables and both GS bases. In a task that rests on stack, context
and gs page lying apart (`Apart`), and on the gs page pointing to the context; windows in which
it does not are the subject of `Laws.Cpu.Swapgs`. A handler that chooses another task is that of
`Laws.Proc.Switch`.
-/

namespace Skylight.Cpu

open X86

/-- Where `__routine_handlers` has the handler of a vector. -/
def handlerEntry (img : Image Symbol) (vector : Vector) : Word :=
  img.addr .routineHandlers + BitVec.ofNat 64 (vector.val * 8)

/-- What a handler must leave alone in a task: its context, and the gs page's pointer to it. -/
def taskBytes (c g : Word) : Set Word := contextBytes c ∪ {g + 0x20#64}

section
variable {img : Image Symbol} {vector : Vector} {top c safe pml4 a cr3 ist : Word}
  {s u : Cpu} {r : Reg} {f : Symbol}

/-- What the processor pushed, and where it left the stack pointer. -/
structure Pushed (top : Word) (u : Cpu) (mem : Word → Word) : Prop where
  ss : mem (slot top 1) = (u.seg .ss).setWidth 64
  rsp : mem (slot top 2) = u.reg .rsp
  rflags : mem (slot top 3) = u.rflags
  cs : mem (slot top 4) = (u.seg .cs).setWidth 64
  rip : mem (slot top 5) = u.rip

/-- An interrupt moves the stack pointer to the interrupt stack. -/
theorem interrupt_reg : (interrupt ist none u).reg r
    = if r = .rsp then slot (alignStack ist) 5 else u.reg r := by
  by_cases sp : r = .rsp <;> simp [interrupt, sp, slot_one]

/-- And pushes five quadwords there. -/
theorem interrupt_mem : (interrupt ist none u).mem a =
    if a = slot (alignStack ist) 5 then u.rip
    else if a = slot (alignStack ist) 4 then (u.seg .cs).setWidth 64
    else if a = slot (alignStack ist) 3 then u.rflags
    else if a = slot (alignStack ist) 2 then u.reg .rsp
    else if a = slot (alignStack ist) 1 then (u.seg .ss).setWidth 64
    else u.mem a := by
  simp [interrupt, slot_one]

/-- They are what the interrupt return takes back. -/
theorem interrupt_pushed : Pushed (alignStack ist) u (interrupt ist none u).mem := by
  constructor <;> simp [interrupt_mem, slot_inj]

/-- They are in five slots. -/
theorem Pushed.congr {mem mem' : Word → Word} (h : Pushed top u mem)
    (same : ∀ j, 1 ≤ j → j ≤ 5 → mem' (slot top j) = mem (slot top j)) : Pushed top u mem' where
  ss := (same 1 (by decide) (by decide)).trans h.ss
  rsp := (same 2 (by decide) (by decide)).trans h.rsp
  rflags := (same 3 (by decide) (by decide)).trans h.rflags
  cs := (same 4 (by decide) (by decide)).trans h.cs
  rip := (same 5 (by decide) (by decide)).trans h.rip

/-- What the interrupt return takes back. -/
structure TakenBack (u s s' : Cpu) : Prop where
  rip : s'.rip = u.rip
  rflags : s'.rflags = u.rflags
  rsp : s'.reg .rsp = u.reg .rsp
  seg : s'.seg = Function.update (Function.update s.seg .cs (u.seg .cs)) .ss (u.seg .ss)
  reg : ∀ r, r ≠ .rsp → s'.reg r = s.reg r

/-- The interrupt return takes them back. -/
theorem Pushed.interruptReturn (h : Pushed top u s.mem) (rsp : s.reg .rsp = slot top 5) :
    TakenBack u s (interruptReturn s) := by
  constructor
  case reg =>
    intro r sp
    simp [X86.interruptReturn, sp]
  all_goals simp [X86.interruptReturn, rsp, h.rip, h.rflags, h.rsp, h.cs, h.ss]

/-- `irq_stub` until it knows whether it interrupted a task. -/
def irqEntry : Text := [
  .push .rbp, .push .r15, .push .rax, .clear .rax, .fromSeg .rax .ds, .cmp16 .rax 0x10]

/-- The stub in the pieces its proof takes it in. -/
theorem irqStub_eq : irqStub vector = irqEntry ++ (.jne (.irqStubYesTask vector) ::
    ([.lea .r15 (.irqStubNoTask vector)] ++ (.jmpReg .r15 :: irqStubYesTask vector))) := rfl

/-- After `irqEntry` three registers are on the stack. -/
structure IrqEntered (top : Word) (u s : Cpu) : Prop where
  pushed : Pushed top u s.mem
  rbp : s.mem (slot top 6) = u.reg .rbp
  r15 : s.mem (slot top 7) = u.reg .r15
  rax : s.mem (slot top 8) = u.reg .rax
  rsp : s.reg .rsp = slot top 8
  reg : ∀ r, r ≠ .rsp → r ≠ .rax → s.reg r = u.reg r
  mem : ∀ a, (∀ j, 1 ≤ j → j ≤ 8 → a ≠ slot top j) → s.mem a = u.mem a
  ds : s.seg .ds = u.seg .ds
  cr : s.cr = u.cr
  gsBase : s.gsBase = u.gsBase
  kernelGsBase : s.kernelGsBase = u.kernelGsBase
  zero : s.zero = decide (u.seg .ds = 0x10)

/-- Three registers are pushed behind them. -/
theorem irqEntry_entered (addr : Symbol → Word) (ist : Word) (u : Cpu) :
    IrqEntered (alignStack ist) u (execs addr irqEntry (interrupt ist none u)) where
  pushed := by constructor <;> simp [irqEntry, interrupt_reg, interrupt_mem, slot_inj]
  rbp := by simp [irqEntry, interrupt_reg, slot_inj]
  r15 := by simp [irqEntry, interrupt_reg, slot_inj]
  rax := by simp [irqEntry, interrupt_reg]
  rsp := by simp [irqEntry, interrupt_reg]
  reg r sp ax := by simp [irqEntry, interrupt_reg, sp, ax]
  mem a off := by
    have (j : Nat) (one : 1 ≤ j) (hj : j ≤ 8) : (a = slot (alignStack ist) j) = False :=
      eq_false (off j one hj)
    simp [irqEntry, interrupt_reg, interrupt_mem, this]
  ds := by simp [irqEntry, interrupt]
  cr := rfl
  gsBase := rfl
  kernelGsBase := rfl
  zero := by simp [irqEntry, interrupt]

/-- The end of `irq_stub` for a task. -/
def irqLeaveTask : Text := [.movImm16 .rax 0x1b, .toSeg .ds .rax, .toSeg .es .rax,
  .lea .r15 .isrRestoreTaskContext]

/-- The call of the handler. -/
def irqCall (vector : Vector) : Text := [.lea .r15 .routineHandlers,
  .load .r15 .r15 (BitVec.ofNat 64 (vector.val * 8))]

/-- The handler is the one of the vector. -/
theorem irqCall_r15 (s : Cpu) :
    (execs img.addr (irqCall vector) s).reg .r15 = s.mem (handlerEntry img vector) := by
  simp [irqCall, handlerEntry]

/-- The rest of `irq_stub` for a task, from the return of the handler. -/
def irqTaskRest (vector : Vector) : Text := irqLeaveTask ++
  (.callReg .r15 :: ([.pop .rbp, .swapgs] ++ (.iretq :: irqStubNoTask vector)))

/-- The rest of `irq_stub` for the kernel, from the return of the handler. -/
def irqKernelRest : Text := popagrd ++ ([.pop .rbp] ++ [.iretq])

/-- The stub for the kernel. -/
theorem irqStubNoTask_eq : irqStubNoTask vector = [.pop .rax, .pop .r15] ++ (pushagrd ++
    (irqCall vector ++ (.callReg .r15 :: irqKernelRest))) := rfl

/-- What `irq_stub` calls the handler with when it interrupted a task: what the processor pushed
and `rbp` on the stack, and the other registers in the context. -/
structure Saved (img : Image Symbol) (vector : Vector) (pml4 top c : Word) (u s : Cpu) : Prop where
  pushed : Pushed top u s.mem
  rbp : s.mem (slot top 6) = u.reg .rbp
  rsp : s.reg .rsp = slot top 6
  r15 : s.reg .r15 = u.mem (handlerEntry img vector)
  cr : s.cr = Function.update u.cr .cr3 pml4
  gsBase : s.gsBase = u.kernelGsBase
  kernelGsBase : s.kernelGsBase = u.gsBase
  ctx : s.mem (u.kernelGsBase + 0x20#64) = c
  holds : Holds s.mem c u.reg (u.cr .cr3)
  mem : ∀ a, a ∉ below 8400 top → a ∉ contextBytes c → a ≠ img.addr .safeR15 → s.mem a = u.mem a

/-- The handlers are outside what the stub writes. -/
structure TableApart (img : Image Symbol) (vector : Vector) (n : Nat) (top c : Word) : Prop where
  stack : handlerEntry img vector ∉ below n top
  context : handlerEntry img vector ∉ contextBytes c
  safe : handlerEntry img vector ≠ img.addr .safeR15

/-- In a task the stub goes to its second part. -/
theorem irqStub_jumps (vector : Vector) (ist : Word) (K : Kernel img pml4)
    (task : u.seg .ds ≠ 0x10) :
    Runs img ⟨interrupt ist none u, irqStub vector, []⟩
      ⟨execs img.addr irqEntry (interrupt ist none u), irqStubYesTask vector, []⟩ := by
  have E := irqEntry_entered img.addr ist u
  rw [irqStub_eq]
  refine (runs_block rfl).trans (runs_jne (by rw [K.text]; rfl) ?_)
  rw [E.zero]
  exact decide_eq_false task

/-- The registers go to the context before the handler is called. -/
theorem irqStub_saves (K : Kernel img pml4) (task : u.seg .ds ≠ 0x10)
    (A : Apart 8400 (slot (alignStack ist) 1) c u.kernelGsBase (img.addr .safeR15))
    (T : TableApart img vector 8400 (alignStack ist) c)
    (ctx : u.mem (u.kernelGsBase + 0x20#64) = c) :
    ∃ s, Runs img ⟨interrupt ist none u, irqStub vector, []⟩
        ⟨s, .callReg .r15 :: irqTaskRest vector, []⟩ ∧
      Saved img vector pml4 (alignStack ist) c u s := by
  have jumps := irqStub_jumps vector ist K task
  set top := alignStack ist
  have E := irqEntry_entered img.addr ist u
  set s₁ := execs img.addr irqEntry (interrupt ist none u)
  have A₁ : Apart 8300 (slot top 6) c s₁.kernelGsBase (img.addr .safeR15) := by
    have A₆ := A.below (k := 5) (m := 8300) (by decide)
    rwa [slot_slot, ← E.kernelGsBase] at A₆
  have ctx₁ : s₁.mem (s₁.kernelGsBase + 0x20#64) = c := by
    rw [E.kernelGsBase, E.mem, ctx]
    intro j one hj
    rw [slot_pred one]
    exact (A.stack_gs _ _ (by omega) (by decide)).symm
  obtain ⟨s₂, run₂, rsp₂, rbp₂, gs₂, kgs₂, cr₂, holds₂, ctx₂, mem₂⟩ := taskSwitch_runs
    (u := u.reg) (irqCall vector ++ (.callReg .r15 :: irqTaskRest vector)) [] K A₁
    (by rw [E.rsp, slot_slot]) (by rw [slot_slot, E.rax]) (by rw [slot_slot, E.r15])
    (fun r sp ax _ => E.reg r sp ax) ctx₁
  rw [E.kernelGsBase] at gs₂ ctx₂
  rw [slot_slot] at rsp₂ mem₂
  have stack₂ (j : Nat) (one : 1 ≤ j) (hj : j ≤ 6) :
      s₂.mem (slot top j) = s₁.mem (slot top j) := by
    apply mem₂ _ (slot_not_below hj (by decide))
    · rw [slot_pred one]
      exact A.stack_not_context (by omega)
    · rw [slot_pred one]
      exact A.stack_safe _ (by omega)
  have frame₂ (a : Word) (stack : a ∉ below 8400 top) (context : a ∉ contextBytes c)
      (safe : a ≠ img.addr .safeR15) : s₂.mem a = u.mem a := by
    rw [mem₂ a (fun mem => stack (below_slot (by decide) mem)) context safe, E.mem a]
    rintro j one hj rfl
    exact stack ⟨j, one, Nat.le_trans hj (by decide), rfl⟩
  refine ⟨execs img.addr (irqCall vector) s₂, jumps.trans (run₂.trans (runs_block rfl)), ?_⟩
  constructor
  case pushed => exact E.pushed.congr fun j one le => stack₂ j one (Nat.le_succ_of_le le)
  case rbp => exact (stack₂ 6 (by decide) (by decide)).trans E.rbp
  case rsp => simpa [irqCall] using rsp₂
  case r15 => exact (irqCall_r15 s₂).trans (frame₂ _ T.stack T.context T.safe)
  case cr => exact cr₂.trans (by rw [E.cr])
  case gsBase => exact gs₂
  case kernelGsBase => exact kgs₂.trans E.gsBase
  case ctx => exact ctx₂
  case holds =>
    rw [E.cr] at holds₂
    exact holds₂
  case mem => exact frame₂

/-- A handler's return resumes whatever context the gs page points to, with the stack pointer,
`rbp`, the flags and the instruction pointer of what was interrupted. -/
theorem irqTaskRest_leaves {v : Reg → Word} (vector : Vector) (K : Kernel img pml4)
    (pushed : Pushed top u s.mem)
    (rbp : s.mem (slot top 6) = u.reg .rbp) (rsp : s.reg .rsp = slot top 6)
    (A : Apart 7 (slot top 1) c s.gsBase safe) (ctx : s.mem (s.gsBase + 0x20#64) = c)
    (holds : Holds s.mem c v cr3) :
    ∃ s', Leaves img ⟨s, irqTaskRest vector, []⟩ s' ∧ s'.rip = u.rip ∧ s'.rflags = u.rflags ∧
      s'.reg .rsp = u.reg .rsp ∧ s'.reg .rbp = u.reg .rbp ∧
      (∀ r, r ≠ .rsp → r ≠ .rbp → s'.reg r = v r) ∧ s'.cr = Function.update s.cr .cr3 cr3 ∧
      s'.seg = Function.update (Function.update (Function.update (Function.update s.seg .ds 0x1b)
        .es 0x1b) .cs (u.seg .cs)) .ss (u.seg .ss) ∧
      s'.gsBase = s.kernelGsBase ∧ s'.kernelGsBase = s.gsBase ∧
      ∀ a, a ≠ slot top 7 → a ≠ slot top 8 → s'.mem a = s.mem a := by
  set s₅ := execs img.addr irqLeaveTask s with def₅
  set rest : Text := [.pop .rbp, .swapgs] ++ (.iretq :: irqStubNoTask vector)
  set s₆ := s₅.push (img.place rest) with def₆
  have rsp₅ : s₅.reg .rsp = slot top 6 := by simp [def₅, irqLeaveTask, rsp]
  have r15₅ : s₅.reg .r15 = img.addr .isrRestoreTaskContext := by simp [def₅, irqLeaveTask]
  have seg₅ : s₅.seg = Function.update (Function.update s.seg .ds 0x1b) .es 0x1b := by
    simp [def₅, irqLeaveTask]
  have mem₆ (a : Word) (off : a ≠ slot top 7) : s₆.mem a = s.mem a := by
    have same : s₅.mem = s.mem := by simp [def₅, irqLeaveTask]
    simp [def₆, rsp₅, off, same]
  have A₆ : Apart 1 (slot top 7) c s₆.gsBase safe := by
    have A₆ := A.below (k := 6) (m := 1) (by decide)
    rwa [slot_slot] at A₆
  have ctx₆ : s₆.mem (s₆.gsBase + 0x20#64) = c :=
    (mem₆ _ (A₆.gs_ne_base (by decide))).trans ctx
  have holds₆ : Holds s₆.mem c v cr3 := holds.congr fun a ha => mem₆ a (by
    rintro rfl
    exact A₆.base_not_context ha)
  obtain ⟨s₇, run₇, back, seg₇, reg₇, mem₇⟩ := isrRestoreTaskContext_runs img rest [] A₆
    (by simp [def₆, rsp₅]) (by simp [def₆, rsp₅]) ctx₆ holds₆
  have rsp₇ : s₇.reg .rsp = slot top 6 := by
    rw [back.rsp]
    simp [def₆, rsp₅]
  have frame₇ (a : Word) (h₇ : a ≠ slot top 7) (h₈ : a ≠ slot top 8) : s₇.mem a = s.mem a := by
    rw [mem₇ _ (by rwa [slot_slot]), mem₆ _ h₇]
  have stack₇ (j : Nat) (_ : 1 ≤ j) (hj : j ≤ 6) :
      s₇.mem (slot top j) = s.mem (slot top j) := by
    refine frame₇ _ (fun eq => ?_) fun eq => ?_
    all_goals
      rw [slot_inj (by omega) (by decide)] at eq
      omega
  set s₈ := execs img.addr [.pop .rbp, .swapgs] s₇ with def₈
  have pushed₈ : Pushed top u s₈.mem := pushed.congr fun j one le =>
    stack₇ j one (Nat.le_succ_of_le le)
  have rsp₈ : s₈.reg .rsp = slot top 5 := by simp [def₈, rsp₇]
  have run : Runs img ⟨s, irqTaskRest vector, []⟩ ⟨s₈, .iretq :: irqStubNoTask vector, []⟩ := by
    refine (runs_block rfl).trans ((runs_callReg (f := .isrRestoreTaskContext) ?_ ?_).trans
      (run₇.trans (runs_block rfl)))
    · rw [← def₅, r15₅, img.symbol_addr]
    · rw [K.text]
      rfl
  have ret := pushed₈.interruptReturn rsp₈
  refine ⟨X86.interruptReturn s₈, run.leaves leaves_iretq, ret.rip, ret.rflags, ret.rsp, ?_, ?_,
    back.cr, ?_, back.kernelGsBase, back.gsBase, frame₇⟩
  · rw [ret.reg _ (by decide)]
    simp [def₈, rsp₇, stack₇ 6 (by decide) (by decide), rbp]
  · intro r sp bp
    rw [ret.reg r sp, ← reg₇ r sp bp]
    simp [def₈, sp, bp]
  · rw [ret.seg, show s₈.seg = s₇.seg from rfl, seg₇, show s₆.seg = s₅.seg from rfl, seg₅]

/-- A handler installed for a vector, which the stub calls with the stack pointer at slot `k`. It
keeps to the calling convention, and leaves `keep` and the stack from there up alone. -/
structure Handler (img : Image Symbol) (vector : Vector) (mem : Word → Word) (top : Word) (k : Nat)
    (keep : Set Word) (f : Symbol) : Prop where
  entry : img.symbol (mem (handlerEntry img vector)) = some f
  compiled : img.code f = none
  returns : ∀ s : Cpu, s.reg .rsp = slot top k →
    Returns (keep ∪ below k top) (s.cr .cr3) s (img.compiled f s)

/-- The interrupted code goes on with everything as it was. -/
structure Transparent (u s : Cpu) : Prop where
  reg : ∀ r, s.reg r = u.reg r
  rip : s.rip = u.rip
  rflags : s.rflags = u.rflags
  cr3 : s.cr .cr3 = u.cr .cr3
  ds : s.seg .ds = u.seg .ds
  gsBase : s.gsBase = u.gsBase
  kernelGsBase : s.kernelGsBase = u.kernelGsBase

/-- An interrupt in a task. -/
structure InTask (img : Image Symbol) (vector : Vector) (ist : Word) (f : Symbol) (u : Cpu) :
    Prop where
  ds : u.seg .ds = 0x1b
  apart : Apart 8400 (slot (alignStack ist) 1) (u.mem (u.kernelGsBase + 0x20#64)) u.kernelGsBase
    (img.addr .safeR15)
  table : TableApart img vector 8400 (alignStack ist) (u.mem (u.kernelGsBase + 0x20#64))
  handler : Handler img vector u.mem (alignStack ist) 6
    (taskBytes (u.mem (u.kernelGsBase + 0x20#64)) u.kernelGsBase) f

/-- An interrupt in the kernel. -/
structure InKernel (img : Image Symbol) (vector : Vector) (ist : Word) (f : Symbol) (u : Cpu) :
    Prop where
  ds : u.seg .ds = 0x10
  table : handlerEntry img vector ∉ below 20 (alignStack ist)
  handler : Handler img vector u.mem (alignStack ist) 20 ∅ f

/-- An interrupt in a task. -/
theorem irqStub_task (K : Kernel img pml4) (h : InTask img vector ist f u) :
    ∃ s, Leaves img ⟨interrupt ist none u, irqStub vector, []⟩ s ∧ Transparent u s := by
  have task : u.seg .ds ≠ 0x10 := by
    rw [h.ds]
    decide
  obtain ⟨s₃, run₃, S⟩ := irqStub_saves K task h.apart h.table rfl
  have R := h.handler.returns s₃ S.rsp
  have entry : img.symbol (s₃.reg .r15) = some f := by rw [S.r15, h.handler.entry]
  have call : Runs img ⟨s₃, .callReg .r15 :: irqTaskRest vector, []⟩
      ⟨img.compiled f s₃, irqTaskRest vector, []⟩ := runs_callReg_compiled entry h.handler.compiled
  set s₄ := img.compiled f s₃
  have stack (j : Nat) (one : 1 ≤ j) (hj : j ≤ 6) :
      s₄.mem (slot (alignStack ist) j) = s₃.mem (slot (alignStack ist) j) :=
    R.mem _ (Or.inr ⟨j, one, hj, rfl⟩)
  have gs₄ : s₄.gsBase = u.kernelGsBase := R.gsBase.trans S.gsBase
  obtain ⟨s, out, rip, rflags, rsp, rbp, reg, cr, seg, gs, kgs, -⟩ := irqTaskRest_leaves
    vector K (S.pushed.congr fun j one le => stack j one (Nat.le_succ_of_le le))
    ((stack 6 (by decide) (by decide)).trans S.rbp)
    ((R.reg .rsp rfl).trans S.rsp) (by rw [gs₄]; exact h.apart.weaken (by decide))
    (by rw [gs₄, R.mem _ (Or.inl (Or.inr rfl)), S.ctx])
    (S.holds.congr fun a ha => R.mem a (Or.inl (Or.inl ha)))
  refine ⟨s, Runs.leaves (run₃.trans call) out, fun r => ?_, rip, rflags, ?_, ?_, ?_, ?_⟩
  · by_cases sp : r = .rsp
    · rw [sp, rsp]
    · by_cases bp : r = .rbp
      · rw [bp, rbp]
      · exact reg r sp bp
  · rw [cr, Function.update_self]
  · rw [seg, h.ds]
    rfl
  · rw [gs, R.kernelGsBase, S.kernelGsBase]
  · rw [kgs, gs₄]

/-- The registers `pushagrd` pushes. -/
def generalRegisters : List Reg :=
  [.rax, .rbx, .rcx, .rdx, .rsi, .rdi, .r8, .r9, .r10, .r11, .r12, .r13, .r14, .r15]

/-- The registers, one after another. -/
theorem pushagrd_eq : pushagrd = pushes generalRegisters := rfl

/-- All of them but two. -/
theorem mem_generalRegisters (sp : r ≠ .rsp) (bp : r ≠ .rbp) : r ∈ generalRegisters := by
  cases r <;> first | contradiction | decide

/-- In the kernel the stub goes on. -/
theorem irqStub_falls (vector : Vector) (ist : Word) (K : Kernel img pml4)
    (kernel : u.seg .ds = 0x10) :
    Runs img ⟨interrupt ist none u, irqStub vector, []⟩
      ⟨(execs img.addr irqEntry (interrupt ist none u)).set .r15 (img.addr (.irqStubNoTask vector)),
        irqStubNoTask vector, []⟩ := by
  have E := irqEntry_entered img.addr ist u
  rw [irqStub_eq]
  refine (runs_block rfl).trans ((runs_jne_not ?_).trans ((runs_block rfl).trans
    (runs_jmpReg (f := .irqStubNoTask vector) ?_ (by rw [K.text]; rfl))))
  · rw [E.zero, kernel]
    rfl
  · simp

/-- An interrupt in the kernel. -/
theorem irqStub_kernel (K : Kernel img pml4) (h : InKernel img vector ist f u) :
    ∃ s, Leaves img ⟨interrupt ist none u, irqStub vector, []⟩ s ∧ Transparent u s := by
  have falls := irqStub_falls vector ist K h.ds
  have E := irqEntry_entered img.addr ist u
  obtain ⟨_, table, handler⟩ := h
  set top := alignStack ist
  set s₁ := execs img.addr irqEntry (interrupt ist none u)
  set s₂ := execs img.addr [.pop .rax, .pop .r15] (s₁.set .r15 (img.addr (.irqStubNoTask vector)))
    with def₂
  have rsp₂ : s₂.reg .rsp = slot top 6 := by simp [def₂, E.rsp]
  have reg₂ (r : Reg) (sp : r ≠ .rsp) : s₂.reg r = u.reg r := by
    by_cases ax : r = .rax
    · subst ax
      simp [def₂, E.rsp, E.rax]
    · by_cases last : r = .r15
      · subst last
        simp [def₂, E.rsp, E.r15]
      · simp [def₂, sp, ax, last, E.reg r sp ax]
  have mem₂ : s₂.mem = s₁.mem := by simp [def₂]
  obtain ⟨mem₃, eq₃, on₃, off₃⟩ := @execs_pushes _ img.addr _ _ _ generalRegisters (by decide) rsp₂
    (by decide)
  set s₃ := execs img.addr (pushes generalRegisters) s₂
  have low₃ (j : Nat) (hj : j ≤ 6) : mem₃ (slot top j) = s₁.mem (slot top j) := by
    rw [off₃ _ fun i lt _ eq => ?_, mem₂]
    have deep : i < 2 ^ 61 := Nat.lt_of_le_of_lt ‹_› (by decide)
    rw [slot_inj (by omega) deep] at eq
    omega
  have table₃ : mem₃ (handlerEntry img vector)
      = u.mem (handlerEntry img vector) := by
    have off (j : Nat) (one : 1 ≤ j) (le : j ≤ 20) :
        handlerEntry img vector ≠ slot top j :=
      fun eq => table ⟨j, one, le, eq⟩
    rw [off₃ _ fun j lt le => off j (Nat.le_of_lt (Nat.lt_of_le_of_lt (by decide) lt)) le, mem₂]
    exact E.mem _ fun j one le => off j one (Nat.le_trans le (by decide))
  set s₄ := execs img.addr (irqCall vector) s₃ with def₄
  have rsp₄ : s₄.reg .rsp = slot top 20 := by
    simp [def₄, irqCall, eq₃]
    rfl
  have cr₄ : s₄.cr = u.cr := by simp [def₄, irqCall, eq₃, def₂, E.cr]
  have ds₄ : s₄.seg .ds = u.seg .ds := by simp [def₄, irqCall, eq₃, def₂, E.ds]
  have gs₄ : s₄.gsBase = u.gsBase := by simp [def₄, irqCall, eq₃, def₂, E.gsBase]
  have kgs₄ : s₄.kernelGsBase = u.kernelGsBase := by
    simp [def₄, irqCall, eq₃, def₂, E.kernelGsBase]
  have entry : img.symbol (s₄.reg .r15) = some f := by
    rw [← handler.entry, ← table₃, def₄, irqCall_r15, eq₃]
  have R := handler.returns s₄ rsp₄
  have call : Runs img ⟨s₄, .callReg .r15 :: irqKernelRest, []⟩
      ⟨img.compiled f s₄, irqKernelRest, []⟩ := runs_callReg_compiled entry handler.compiled
  set s₅ := img.compiled f s₄
  have stack₅ (j : Nat) (one : 1 ≤ j) (hj : j ≤ 20) :
      s₅.mem (slot top j) = mem₃ (slot top j) := by
    rw [R.mem _ (Or.inr ⟨j, one, hj, rfl⟩)]
    simp [def₄, irqCall, eq₃]
  have rsp₅ : s₅.reg .rsp = slot top (6 + generalRegisters.length) :=
    (R.reg .rsp rfl).trans rsp₄
  have on₅ : Stacked s₅.mem top 6 (generalRegisters.map s₂.reg) := on₃.congr fun j lt hj =>
    stack₅ j (Nat.lt_of_le_of_lt (Nat.zero_le 6) lt) hj
  obtain ⟨reg₆, eq₆, rsp₆, loaded₆, kept₆⟩ := execs_pops img.addr (by decide) rsp₅ on₅
  set s₇ := execs img.addr [.pop .rbp] (execs img.addr (pops generalRegisters) s₅) with def₇
  have pushed₇ : Pushed top u s₇.mem := E.pushed.congr fun j one hj => by
    have same : s₇.mem = s₅.mem := by simp [def₇, eq₆]
    rw [same, stack₅ j one (Nat.le_trans hj (by decide)), low₃ j (Nat.le_succ_of_le hj)]
  have rbp₆ : s₅.mem (slot top 6) = u.reg .rbp := by
    rw [stack₅ 6 (by decide) (by decide), low₃ 6 (by decide), E.rbp]
  have ret := pushed₇.interruptReturn (by simp [def₇, eq₆, rsp₆])
  have run : Runs img ⟨interrupt ist none u, irqStub vector, []⟩ ⟨s₇, [.iretq], []⟩ := by
    have enter : Runs img ⟨s₁.set .r15 (img.addr (.irqStubNoTask vector)), irqStubNoTask vector, []⟩
        ⟨s₄, .callReg .r15 :: irqKernelRest, []⟩ := by
      rw [irqStubNoTask_eq]
      exact (runs_block rfl).trans ((runs_block rfl).trans (runs_block rfl))
    have exit : Runs img ⟨s₅, irqKernelRest, []⟩ ⟨s₇, [.iretq], []⟩ := by
      exact (runs_block rfl).trans (runs_block rfl)
    exact falls.trans (enter.trans (call.trans exit))
  refine ⟨interruptReturn s₇, run.leaves leaves_iretq, fun r => ?_, ret.rip, ret.rflags, ?_, ?_,
    ?_, ?_⟩
  · by_cases sp : r = .rsp
    · rw [sp, ret.rsp]
    · rw [ret.reg r sp]
      by_cases bp : r = .rbp
      · subst bp
        simp [def₇, eq₆, rsp₆, rbp₆]
      · rw [← reg₂ r sp, ← loaded₆ r (mem_generalRegisters sp bp)]
        simp [def₇, eq₆, sp, bp]
  · have same : (interruptReturn s₇).cr = s₅.cr := by simp [interruptReturn, def₇, eq₆]
    rw [same, R.cr, Function.update_self, cr₄]
  · have same : s₇.seg = s₅.seg := by simp [def₇, eq₆]
    rw [ret.seg, same, R.seg, ← ds₄]
    rfl
  · have same : (interruptReturn s₇).gsBase = s₅.gsBase := by simp [interruptReturn, def₇, eq₆]
    rw [same, R.gsBase, gs₄]
  · have same : (interruptReturn s₇).kernelGsBase = s₅.kernelGsBase := by
      simp [interruptReturn, def₇, eq₆]
    rw [same, R.kernelGsBase, kgs₄]

/-- Interrupts are transparent, wherever they are taken: the interrupted code goes on with its
registers, flags, data segment, page tables and GS bases as they were, whatever handler was
called that keeps to the calling convention. -/
theorem irqStub_transparent (K : Kernel img pml4)
    (h : InTask img vector ist f u ∨ InKernel img vector ist f u) :
    ∃ s, Leaves img ⟨interrupt ist none u, irqStub vector, []⟩ s ∧ Transparent u s := by
  cases h with
  | inl task => exact irqStub_task K task
  | inr kernel => exact irqStub_kernel K kernel

end

/-- The machine in a task with data segment `ds`, or in the kernel, its interrupt 33 handled. -/
def machineCpu (ds : BitVec 16) : Cpu where
  reg r := contextOffset r + 0x700000
  cr c := if c = .cr3 then 0x9000 else 0x20
  seg _ := ds
  rflags := 0x202
  rip := 0x401000
  gsBase := 0
  kernelGsBase := machineGs
  mem a :=
    if a = machineGs + 0x20 then machineContext
    else if a = handlerEntry (machineImage machineCompiled) 33 then
      (machineImage machineCompiled).addr (.routine 33)
    else 0
  zero := false
  less := false

/-- The machine has a handler. -/
theorem machine_handler (ds : BitVec 16) (k : Nat) (keep : Set Word) :
    Handler (machineImage machineCompiled) 33 (machineCpu ds).mem (alignStack machineIst) k keep
      (.routine 33) where
  entry := by
    show (machineImage machineCompiled).symbol ((machineCpu 0).mem _) = _
    decide
  compiled := rfl
  returns s _ := machine_returns _ s

/-- Its table is apart from a context in this place. -/
theorem machine_table_between {c : Word} (c₁ : 0x3000000 ≤ c) (c₂ : c ≤ 0x3001000) :
    TableApart (machineImage machineCompiled) 33 8400 (alignStack machineIst) c := by
  have ist : alignStack machineIst = 0x2000000 := by decide
  have entry : handlerEntry (machineImage machineCompiled) 33 = 0xc108 := by decide
  constructor
  case safe => decide
  case stack =>
    rintro ⟨j, one, le, eq⟩
    rw [ist, entry, slot] at eq
    bv_omega
  case context =>
    rintro ⟨i, lt, eq⟩
    rw [entry] at eq
    bv_omega

/-- And from the machine's. -/
theorem machine_table : TableApart (machineImage machineCompiled) 33 8400 (alignStack machineIst)
    machineContext := machine_table_between (by decide) (by decide)

/-- An interrupt taken in a task of the machine, and one taken in its kernel. -/
theorem irqStub_transparent_machine :
    (∃ s, Leaves (machineImage machineCompiled)
      ⟨interrupt machineIst none (machineCpu 0x1b), irqStub 33, []⟩ s ∧
      Transparent (machineCpu 0x1b) s) ∧
    ∃ s, Leaves (machineImage machineCompiled)
      ⟨interrupt machineIst none (machineCpu 0x10), irqStub 33, []⟩ s ∧
      Transparent (machineCpu 0x10) s := by
  have table : handlerEntry (machineImage machineCompiled) 33 ∉ below 20
      (alignStack machineIst) := by
    rintro ⟨j, one, le, eq⟩
    exact machine_table.stack ⟨j, one, Nat.le_trans le (by decide), eq⟩
  exact ⟨irqStub_transparent machine_kernel
      (Or.inl ⟨rfl, machine_apart, machine_table, machine_handler 0x1b 6 _⟩),
    irqStub_transparent machine_kernel (Or.inr ⟨rfl, table, machine_handler 0x10 20 ∅⟩)⟩

end Skylight.Cpu
