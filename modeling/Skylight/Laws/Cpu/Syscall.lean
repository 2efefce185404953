import Skylight.Laws.Cpu.Machine

/-!
# System calls

`syscall_dispatch` on the kernel stack of a task: the caller's registers go to the task's
context, the handler of the number in `rax` is called with the caller's arguments, and the
registers come back from the context, all but the two a result is in.

`syscall_preserves` is about every register file, every number that names a handler and every
handler that keeps to the calling convention: arguments and result are passed on, and the other
registers are the caller's again. `rcx` and `r11` are the processor's. Numbers without a handler
are in `Laws.Cpu.Gate`, interrupts in between in `Laws.Cpu.Swapgs`.
-/

namespace Skylight.Cpu

open X86

section
variable {img : Image Symbol} {top c g safe pml4 a cr3 : Word} {s u : Cpu} {r : Reg} {f : Symbol}
  {v : Reg → Word}

/-- `syscall_switch_kernel` until it stores the fields through `rax`. -/
def switchPrologue : Text := syscallSwitchKernel.take 9

/-- The routine in the pieces its proof takes it in. -/
theorem syscallSwitchKernel_eq : syscallSwitchKernel = switchPrologue ++
    (stores .rax contextFields ++ (.call .pagingSyncCr3 :: ([.pop .rbp] ++ [.ret]))) := rfl

/-- `syscall_switch_kernel` saves the caller's registers, but for `rax`. -/
theorem syscallSwitchKernel_runs (rest : Text) (frames : List Text) (K : Kernel img pml4)
    (A : Apart 8200 top c s.gsBase safe) (rsp : s.reg .rsp = slot top 0)
    (ret : s.mem (slot top 0) = img.place rest) (ctx : s.mem (s.gsBase + 0x20#64) = c)
    (cr3_ : s.mem (c + 0x88#64) = cr3) :
    ∃ s', Quiet img ⟨s, syscallSwitchKernel, rest :: frames⟩ ⟨s', rest, frames⟩ ∧
      Resumes s s' pml4 ∧ s'.seg = Function.update (Function.update s.seg .ds 0x10) .es 0x10 ∧
      Holds s'.mem c (Function.update s.reg .rax c) cr3 ∧
      ∀ a, a ∉ below 8196 top → a ∉ contextBytes c → s'.mem a = s.mem a := by
  set s₁ := execs img.addr switchPrologue s with def₁
  have rsp₁ : s₁.reg .rsp = slot top 1 := by
    simp [def₁, switchPrologue, syscallSwitchKernel, rsp]
  have rax₁ : s₁.reg .rax = c := by
    simp [def₁, switchPrologue, syscallSwitchKernel, rsp, ctx, A.gs_stack_ne]
  have reg₁ (r : Reg) (ax : r ≠ .rax) (sp : r ≠ .rsp) (bp : r ≠ .rbp) : s₁.reg r = s.reg r := by
    simp [def₁, switchPrologue, syscallSwitchKernel, ax, sp, bp]
  have mem₁ (a : Word) : s₁.mem a =
      if a = c then c else if a = slot top 1 then s.reg .rbp else s.mem a := by
    simp [def₁, switchPrologue, syscallSwitchKernel, rsp, ctx, A.gs_stack_ne]
  have seg₁ : s₁.seg = Function.update (Function.update s.seg .ds 0x10) .es 0x10 := by
    simp [def₁, switchPrologue, syscallSwitchKernel]
  have holds₂ := @holds_stores c cr3 _ (Function.update s.reg .rax c) img.addr rax₁
    (by simp [mem₁]) (fun r ax sp bp => by simp [reg₁ r ax sp bp, ax]) (by
      rw [mem₁, if_neg (by simp), if_neg (A.stack_context 1 _ (by decide) (by decide)).symm, cr3_])
  obtain ⟨mem₂, eq₂⟩ := execs_stores img.addr .rax contextFields (s := s₁)
  have kept₂ (a : Word) (off : a ∉ contextBytes c) : mem₂ a = s₁.mem a := by
    have := stores_mem_of_ne img.addr rax₁ off
    rwa [eq₂] at this
  rw [eq₂] at holds₂
  set s₂ : Cpu := { s₁ with mem := mem₂ } with def₂
  have R := K.syncs s₂
  set s₃ := img.compiled .pagingSyncCr3 s₂
  have rsp₃ : s₃.reg .rsp = slot top 1 := (R.reg .rsp rfl).trans rsp₁
  have kept₃ (a : Word) (off : a ∉ below 8195 (slot top 1)) : s₃.mem a = mem₂ a := by
    refine R.mem a fun mem => off ?_
    rw [show s₂.reg .rsp = slot top 1 from rsp₁] at mem
    obtain ⟨j, one, le, eq⟩ := mem
    exact ⟨j, one, Nat.le_trans le (by decide), eq⟩
  have off_base (a : Word) (off : a ∉ contextBytes c) : a ≠ c := fun eq =>
    off ⟨0, by decide, eq.trans (BitVec.add_zero c).symm⟩
  have mem₃ (a : Word) (off : a ∉ below 8196 top) (off' : a ∉ contextBytes c) :
      s₃.mem a = s.mem a := by
    rw [kept₃ a fun mem => off (below_slot (by decide) mem), kept₂ a off', mem₁,
      if_neg (off_base a off'), if_neg fun eq => off ⟨1, by decide, by decide, eq⟩]
  have rbp₃ : s₃.mem (slot top 1) = s.reg .rbp := by
    have off := A.stack_not_context (k := 1) (by decide)
    rw [kept₃ _ (slot_not_below (Nat.le_refl 1) (by decide)), kept₂ _ off, mem₁,
      if_neg (off_base _ off), if_pos rfl]
  have ret₃ : s₃.mem (slot top 0) = img.place rest := by
    have here : slot top 0 ∉ below 8196 (slot top 0) :=
      slot_not_below (Nat.le_refl 0) (by decide)
    rw [slot_zero] at here
    rw [mem₃ _ (by rwa [slot_zero]) (A.stack_not_context (by decide)), ret]
  have run₃ : Quiet img ⟨s, syscallSwitchKernel, rest :: frames⟩
      ⟨s₃, [.pop .rbp] ++ [.ret], rest :: frames⟩ := by
    rw [syscallSwitchKernel_eq]
    refine (quiet_block rfl).trans ((quiet_block rfl).trans ?_)
    rw [eq₂]
    exact quiet_call_compiled (by rw [K.text]; rfl)
  refine ⟨(execs img.addr [.pop .rbp] s₃).drop, ?_, ⟨?_, ?_, ?_, ?_, R.cr⟩, ?_, ?_, mem₃⟩
  · refine run₃.trans ((quiet_block rfl).trans (quiet_ret ?_))
    show (execs img.addr [.pop .rbp] s₃).top = img.place rest
    simp [rsp₃, ret₃]
  · simp [rsp₃, rsp]
  · simp [rsp₃, rbp₃]
  · exact R.gsBase
  · exact R.kernelGsBase
  · exact R.seg.trans seg₁
  · refine holds₂.congr fun a ha => ?_
    exact kept₃ a fun mem => A.context_not_below ha (below_slot (by decide) mem)

/-- `syscall_switch_user` until it loads the fields through `rax`. -/
def switchUserPrologue : Text := syscallSwitchUser.take 12

/-- And the way back. -/
theorem syscallSwitchUser_eq : syscallSwitchUser = switchUserPrologue ++
    ((loads .rax contextFields ++ [.load .rax .rax 0x00]) ++
      ([.pop .rdx, .pop .rax, .pop .rbp] ++ [.ret])) := rfl

/-- `syscall_switch_user` gives the registers what the context of the gs page holds, and keeps
the two a result is in. -/
theorem syscallSwitchUser_runs (img : Image Symbol) (rest : Text) (frames : List Text)
    (A : Apart 3 top c s.gsBase safe) (rsp : s.reg .rsp = slot top 0)
    (ret : s.mem (slot top 0) = img.place rest) (ctx : s.mem (s.gsBase + 0x20#64) = c)
    (holds : Holds s.mem c v cr3) :
    ∃ s', Quiet img ⟨s, syscallSwitchUser, rest :: frames⟩ ⟨s', rest, frames⟩ ∧
      Resumes s s' cr3 ∧ s'.seg = Function.update (Function.update s.seg .ds 0x1b) .es 0x1b ∧
      (∀ r, r ≠ .rsp → r ≠ .rbp → r ≠ .rax → r ≠ .rdx → s'.reg r = v r) ∧
      s'.reg .rax = s.reg .rax ∧ s'.reg .rdx = s.reg .rdx ∧
      ∀ a, a ∉ below 3 top → s'.mem a = s.mem a := by
  set s₁ := execs img.addr switchUserPrologue s with def₁
  have rsp₁ : s₁.reg .rsp = slot top 3 := by
    simp [def₁, switchUserPrologue, syscallSwitchUser, rsp]
  have mem₁ (a : Word) : s₁.mem a = if a = slot top 3 then s.reg .rdx else
      if a = slot top 2 then s.reg .rax else if a = slot top 1 then s.reg .rbp else s.mem a := by
    simp [def₁, switchUserPrologue, syscallSwitchUser, rsp]
  have rax₁ : s₁.reg .rax = c := by
    simp [def₁, switchUserPrologue, syscallSwitchUser, rsp, ctx, A.gs_stack_ne]
  have frame₁ (a : Word) (off : a ∉ below 3 top) : s₁.mem a = s.mem a := by
    rw [mem₁, if_neg fun eq => off ⟨3, by decide, by decide, eq⟩,
      if_neg fun eq => off ⟨2, by decide, by decide, eq⟩,
      if_neg fun eq => off ⟨1, by decide, by decide, eq⟩]
  have holds₁ : Holds s₁.mem c v cr3 := holds.congr fun a ha => frame₁ a (A.context_not_below ha)
  have cr₁ : s₁.cr = Function.update s.cr .cr3 cr3 := by
    have field := holds.cr3
    simp [def₁, switchUserPrologue, syscallSwitchUser, rsp, ctx, A.gs_stack_ne,
      A.context_stack_ne, field]
  obtain ⟨reg₂, eq₂⟩ := loads_rest img.addr (s := s₁)
  have fields₂ (r : Reg) (sp : r ≠ .rsp) (bp : r ≠ .rbp) : reg₂ r = v r := by
    have := loads_reg img.addr rax₁ holds₁ sp bp
    rwa [eq₂] at this
  have rsp₂ : reg₂ .rsp = slot top 3 := by
    have := loads_reg_of_ne img.addr (s := s₁) (Or.inl rfl : Reg.rsp = .rsp ∨ _)
    rwa [eq₂, rsp₁] at this
  set s₂ : Cpu := { s₁ with reg := reg₂ }
  have run₂ : Quiet img ⟨s, syscallSwitchUser, rest :: frames⟩
      ⟨s₂, [.pop .rdx, .pop .rax, .pop .rbp] ++ [.ret], rest :: frames⟩ := by
    rw [syscallSwitchUser_eq, ← eq₂]
    exact (quiet_block rfl).trans (quiet_block rfl)
  refine ⟨(execs img.addr [.pop .rdx, .pop .rax, .pop .rbp] s₂).drop, ?_, ⟨?_, ?_, rfl, rfl, cr₁⟩,
    ?_, ?_, ?_, ?_, frame₁⟩
  · refine run₂.trans ((quiet_block rfl).trans (quiet_ret ?_))
    show (execs img.addr [.pop .rdx, .pop .rax, .pop .rbp] s₂).top = img.place rest
    simp [s₂, rsp₂, mem₁, ret, slot_inj]
  · simp [s₂, rsp₂, rsp]
  · simp [s₂, rsp₂, mem₁, slot_inj]
  · simp [s₂, def₁, switchUserPrologue, syscallSwitchUser]
  · intro r sp bp ax dx
    simp [s₂, sp, bp, ax, dx, fields₂]
  · simp [s₂, rsp₂, mem₁, slot_inj]
  · simp [s₂, rsp₂, mem₁]

/-- `syscall_dispatch` until it compares the number. -/
def dispatchEntry : Text := syscallDispatch.take 6

/-- The end of a system call, on the user's side of `syscall_switch_user`. -/
def dispatchExit : Text := [.pop .rbp, .loadGs .rsp 0x28, .swapgs]

/-- The arguments taken back, and the handler of the number. -/
def dispatchLoad : Text := [.pop .rax, .pop .rdx, .pop .rsi, .pop .rdi, .lea .r10 .syscallTable,
  .leaScaled .r10 .r10 .rax 8, .load .rax .r10 0, .clear .r10, .cld]

/-- The dispatch in the pieces its proof takes it in. -/
theorem syscallDispatch_eq : syscallDispatch = dispatchEntry ++ (.jge .syscallDispatchGenerateUd ::
    ([.push .rdi, .push .rsi, .push .rdx, .push .rax] ++ (.call .syscallSwitchKernel ::
      (dispatchLoad ++ (.callReg .rax :: syscallDispatchSysret))))) := rfl

/-- Where `syscall_table` has the handler of a number. -/
def tableEntry (img : Image Symbol) (number : Word) : Word := img.addr .syscallTable + number * 8

/-- A task that may call the system: its kernel stack ends at `top` and its context is at `c`. -/
structure Caller (img : Image Symbol) (top c : Word) (u : Cpu) : Prop where
  stack : u.mem (u.kernelGsBase + 0x10#64) = top
  context : u.mem (u.kernelGsBase + 0x20#64) = c
  cr3 : u.mem (c + 0x88#64) = u.cr .cr3
  apart : Apart 8400 (slot top 1) c u.kernelGsBase (img.addr .safeR15)

/-- What `syscall_dispatch` holds when it is about to compare the number. -/
structure Dispatched (top c : Word) (u s : Cpu) : Prop where
  rsp : s.reg .rsp = slot top 1
  reg : ∀ r, r ≠ .rsp → r ≠ .rbp → s.reg r = u.reg r
  rbp : s.mem (slot top 1) = u.reg .rbp
  user : s.mem (u.kernelGsBase + 0x28#64) = u.reg .rsp
  mem : ∀ a, a ≠ slot top 1 → a ≠ u.kernelGsBase + 0x28#64 → s.mem a = u.mem a
  cr : s.cr = u.cr
  seg : s.seg = u.seg
  gsBase : s.gsBase = u.kernelGsBase
  kernelGsBase : s.kernelGsBase = u.gsBase
  less : s.less = (u.reg .rax).slt nsyscalls

/-- What it holds where it compares the number. -/
theorem dispatchEntry_dispatched (C : Caller img top c u) :
    Dispatched top c u (execs img.addr dispatchEntry u) := by
  have ne : u.kernelGsBase + 0x28#64 ≠ slot top 1 := C.apart.gs_ne_base (by decide)
  have stack := C.stack
  constructor
  case reg =>
    intro r sp bp
    simp [dispatchEntry, syscallDispatch, sp, bp]
  case mem =>
    intro a h₁ h₂
    simp [dispatchEntry, syscallDispatch, stack, slot_one, h₁, h₂]
  all_goals simp [dispatchEntry, syscallDispatch, stack, slot_one, ne]

/-- What the handler of a system call is called with. -/
structure Called (img : Image Symbol) (pml4 top c : Word) (u s : Cpu) : Prop where
  rsp : s.reg .rsp = slot top 1
  rax : s.reg .rax = s.mem (tableEntry img (u.reg .rax))
  rdi : s.reg .rdi = u.reg .rdi
  rsi : s.reg .rsi = u.reg .rsi
  rdx : s.reg .rdx = u.reg .rdx
  rbp : s.mem (slot top 1) = u.reg .rbp
  user : s.mem (u.kernelGsBase + 0x28#64) = u.reg .rsp
  context : s.mem (u.kernelGsBase + 0x20#64) = c
  holds : Holds s.mem c (Function.update u.reg .rax c) (u.cr .cr3)
  cr : s.cr = Function.update u.cr .cr3 pml4
  seg : s.seg = Function.update (Function.update u.seg .ds 0x10) .es 0x10
  gsBase : s.gsBase = u.kernelGsBase
  kernelGsBase : s.kernelGsBase = u.gsBase
  mem : ∀ a, a ∉ below 8400 top → a ∉ contextBytes c → a ≠ u.kernelGsBase + 0x28#64 →
    s.mem a = u.mem a

/-- What is on the stack when the kernel's tables are about to be loaded: the caller's `rbp`, its
arguments, the number, and where the routine returns to. -/
structure GateEntered (img : Image Symbol) (top : Word) (u s : Cpu) : Prop where
  rsp : s.reg .rsp = slot top 6
  reg : ∀ r, r ≠ .rsp → r ≠ .rbp → s.reg r = u.reg r
  ret : s.mem (slot top 6) =
    img.place (dispatchLoad ++ (.callReg .rax :: syscallDispatchSysret))
  rax : s.mem (slot top 5) = u.reg .rax
  rdx : s.mem (slot top 4) = u.reg .rdx
  rsi : s.mem (slot top 3) = u.reg .rsi
  rdi : s.mem (slot top 2) = u.reg .rdi
  rbp : s.mem (slot top 1) = u.reg .rbp
  user : s.mem (u.kernelGsBase + 0x28#64) = u.reg .rsp
  mem : ∀ a, a ∉ below 6 top → a ≠ u.kernelGsBase + 0x28#64 → s.mem a = u.mem a
  cr : s.cr = u.cr
  seg : s.seg = u.seg
  gsBase : s.gsBase = u.kernelGsBase
  kernelGsBase : s.kernelGsBase = u.gsBase

/-- The gs page is not on the kernel's stack. -/
theorem Caller.gs_off (C : Caller img top c u) {i : Word} (hi : i < 0x30) :
    u.kernelGsBase + i ∉ below 6 top := by
  rintro ⟨j, one, le, eq⟩
  rw [slot_pred one] at eq
  exact C.apart.stack_gs _ i (by omega) hi eq.symm

theorem dispatchEntry_entered (C : Caller img top c u) :
    GateEntered img top u
      ((execs img.addr [.push .rdi, .push .rsi, .push .rdx, .push .rax]
        (execs img.addr dispatchEntry u)).push
          (img.place (dispatchLoad ++ (.callReg .rax :: syscallDispatchSysret)))) := by
  have D := dispatchEntry_dispatched C
  set s₁ := execs img.addr dispatchEntry u
  set s₂ := execs img.addr [.push .rdi, .push .rsi, .push .rdx, .push .rax] s₁ with def₂
  set s₃ := s₂.push (img.place (dispatchLoad ++ (.callReg .rax :: syscallDispatchSysret)))
    with def₃
  have rsp₂ : s₂.reg .rsp = slot top 5 := by simp [def₂, D.rsp]
  have mem₃ (a : Word) : s₃.mem a =
      if a = slot top 6 then img.place (dispatchLoad ++ (.callReg .rax :: syscallDispatchSysret))
      else if a = slot top 5 then u.reg .rax
      else if a = slot top 4 then u.reg .rdx
      else if a = slot top 3 then u.reg .rsi
      else if a = slot top 2 then u.reg .rdi else s₁.mem a := by
    simp [def₃, def₂, D.rsp, D.reg]
  have ne {a : Word} (off : a ∉ below 6 top) (j : Nat) (one : 1 ≤ j) (le : j ≤ 6) :
      a ≠ slot top j := fun eq => off ⟨j, one, le, eq⟩
  constructor
  case rsp => simp [def₃, rsp₂]
  case reg =>
    intro r sp bp
    have pushed : s₃.reg r = s₁.reg r := by simp [def₃, def₂, sp]
    rw [pushed, D.reg r sp bp]
  case ret => rw [mem₃, if_pos rfl]
  case rax => simp [mem₃, slot_inj]
  case rdx => simp [mem₃, slot_inj]
  case rsi => simp [mem₃, slot_inj]
  case rdi => simp [mem₃, slot_inj]
  case rbp => simp [mem₃, slot_inj, D.rbp]
  case user =>
    have off := C.gs_off (i := 0x28#64) (by decide)
    simp [mem₃, ne off, D.user]
  case mem =>
    intro a off user
    have ne := ne off
    rw [mem₃, if_neg (ne 6 (by decide) (by decide)), if_neg (ne 5 (by decide) (by decide)),
      if_neg (ne 4 (by decide) (by decide)), if_neg (ne 3 (by decide) (by decide)),
      if_neg (ne 2 (by decide) (by decide)), D.mem a (ne 1 (by decide) (by decide)) user]
  case cr => simp [def₃, def₂, D.cr]
  case seg => simp [def₃, def₂, D.seg]
  case gsBase => simp [def₃, def₂, D.gsBase]
  case kernelGsBase => simp [def₃, def₂, D.kernelGsBase]

/-- A number below the limit gets to the call of a handler, and nothing is called on the way
but the two routines that are named. -/
theorem syscallDispatch_calls (K : Kernel img pml4) (C : Caller img top c u)
    (lt : (u.reg .rax).slt nsyscalls = true) :
    ∃ s, Quiet img ⟨u, syscallDispatch, []⟩ ⟨s, .callReg .rax :: syscallDispatchSysret, []⟩ ∧
      Called img pml4 top c u s := by
  have less := (dispatchEntry_dispatched C).less
  have E := dispatchEntry_entered C
  set s₃ := (execs img.addr [.push .rdi, .push .rsi, .push .rdx, .push .rax]
    (execs img.addr dispatchEntry u)).push
      (img.place (dispatchLoad ++ (.callReg .rax :: syscallDispatchSysret)))
  have context_off (a : Word) (ha : a ∈ contextBytes c) : a ∉ below 6 top := by
    rintro ⟨j, one, le, eq⟩
    rw [slot_pred one] at eq
    obtain ⟨i, hi, rfl⟩ := ha
    exact C.apart.stack_context _ i (by omega) hi eq.symm
  have user_off : u.kernelGsBase + 0x28#64 ∉ contextBytes c := C.apart.gs_not_context (by decide)
  have A₃ : Apart 8200 (slot top 6) c s₃.gsBase (img.addr .safeR15) := by
    have A := C.apart.below (k := 5) (m := 8200) (by decide)
    rwa [slot_slot, ← E.gsBase] at A
  have ctx₃ : s₃.mem (s₃.gsBase + 0x20#64) = c := by
    rw [E.gsBase, E.mem _ (C.gs_off (by decide)) (by simp), C.context]
  have cr3₃ : s₃.mem (c + 0x88#64) = u.cr .cr3 := by
    have mem : c + 0x88#64 ∈ contextBytes c := ⟨0x88, by decide, rfl⟩
    rw [E.mem _ (context_off _ mem) fun eq => user_off (eq ▸ mem), C.cr3]
  obtain ⟨s₄, run₄, back, seg₄, holds₄, mem₄⟩ := syscallSwitchKernel_runs
    (dispatchLoad ++ (.callReg .rax :: syscallDispatchSysret)) [] K A₃
    (show s₃.reg .rsp = slot (slot top 6) 0 by rw [E.rsp, slot_zero])
    (by rw [slot_slot]; exact E.ret) ctx₃ cr3₃
  -- the routine leaves the stack above it, and the gs page
  have stack₄ (j : Nat) (one : 1 ≤ j) (le : j ≤ 6) : s₄.mem (slot top j) = s₃.mem (slot top j) := by
    refine mem₄ _ (slot_not_below le (by decide)) ?_
    rw [slot_pred one]
    exact C.apart.stack_not_context (by omega)
  have gs₄ (i : Word) (hi : i < 0x30) (off : u.kernelGsBase + i ∉ contextBytes c) :
      s₄.mem (u.kernelGsBase + i) = s₃.mem (u.kernelGsBase + i) := by
    refine mem₄ _ ?_ off
    have off := A₃.gs_not_below (i := i) hi
    rw [E.gsBase] at off
    rintro ⟨j, one, le, eq⟩
    exact off ⟨j, one, Nat.le_trans le (by decide), eq⟩
  have rsp₄ : s₄.reg .rsp = slot top 5 := by
    rw [back.rsp, E.rsp]
    simp
  have rax₄ := (stack₄ 5 (by decide) (by decide)).trans E.rax
  have rdx₄ := (stack₄ 4 (by decide) (by decide)).trans E.rdx
  have rsi₄ := (stack₄ 3 (by decide) (by decide)).trans E.rsi
  have rdi₄ := (stack₄ 2 (by decide) (by decide)).trans E.rdi
  set s₅ := execs img.addr dispatchLoad s₄ with def₅
  have mem₅ : s₅.mem = s₄.mem := by simp [def₅, dispatchLoad]
  have run : Quiet img ⟨u, syscallDispatch, []⟩
      ⟨s₅, .callReg .rax :: syscallDispatchSysret, []⟩ := by
    rw [syscallDispatch_eq]
    exact (quiet_block rfl).trans ((quiet_jge_not (less.trans lt)).trans ((quiet_block rfl).trans
      ((quiet_call (by rw [K.text]; rfl)).trans (run₄.trans (quiet_block rfl)))))
  refine ⟨s₅, run, ?_⟩
  constructor
  case rsp => simp [def₅, dispatchLoad, rsp₄]
  case rax => simp [def₅, dispatchLoad, rsp₄, rax₄, tableEntry]
  case rdi => simp [def₅, dispatchLoad, rsp₄, rdi₄]
  case rsi => simp [def₅, dispatchLoad, rsp₄, rsi₄]
  case rdx => simp [def₅, dispatchLoad, rsp₄, rdx₄]
  case rbp => rw [mem₅, stack₄ 1 (by decide) (by decide), E.rbp]
  case user => rw [mem₅, gs₄ _ (by decide) user_off, E.user]
  case context =>
    rw [mem₅, gs₄ _ (by decide) (C.apart.gs_not_context (by decide)), ← E.gsBase, ctx₃]
  case holds =>
    rw [mem₅]
    refine holds₄.of_eq fun r sp bp => ?_
    by_cases ax : r = .rax
    · rw [ax, Function.update_self, Function.update_self]
    · rw [Function.update_of_ne ax, Function.update_of_ne ax, E.reg r sp bp]
  case cr =>
    have same : s₅.cr = s₄.cr := by simp [def₅, dispatchLoad]
    rw [same, back.cr, E.cr]
  case seg =>
    have same : s₅.seg = s₄.seg := by simp [def₅, dispatchLoad]
    rw [same, seg₄, E.seg]
  case gsBase =>
    have same : s₅.gsBase = s₄.gsBase := by simp [def₅, dispatchLoad]
    rw [same, back.gsBase, E.gsBase]
  case kernelGsBase =>
    have same : s₅.kernelGsBase = s₄.kernelGsBase := by simp [def₅, dispatchLoad]
    rw [same, back.kernelGsBase, E.kernelGsBase]
  case mem =>
    intro a off off' user
    rw [mem₅, mem₄ a (fun mem => off (below_slot (by decide) mem)) off', E.mem a ?_ user]
    rintro ⟨j, one, le, eq⟩
    exact off ⟨j, one, Nat.le_trans le (by decide), eq⟩

/-- What a system call returns with, whose result registers are those of `s`. -/
structure Returned (top c : Word) (v : Reg → Word) (cr3 : Word) (s s' : Cpu) : Prop where
  reg : ∀ r, r ≠ .rsp → r ≠ .rbp → r ≠ .rax → r ≠ .rdx → s'.reg r = v r
  rax : s'.reg .rax = s.reg .rax
  rdx : s'.reg .rdx = s.reg .rdx
  rbp : s'.reg .rbp = s.mem (slot top 1)
  rsp : s'.reg .rsp = s.mem (s.gsBase + 0x28#64)
  rip : s'.rip = v .rcx
  rflags : s'.rflags = v .r11 &&& 0x3c7fd7 ||| 2
  cr : s'.cr = Function.update s.cr .cr3 cr3
  ds : s'.seg .ds = 0x1b
  gsBase : s'.gsBase = s.kernelGsBase
  kernelGsBase : s'.kernelGsBase = s.gsBase
  mem : ∀ a, a ∉ below 5 top → s'.mem a = s.mem a

/-- The end of `syscall_dispatch`, whatever the gs page's context holds. -/
theorem syscallDispatchSysret_leaves (K : Kernel img pml4)
    (A : Apart 8 (slot top 1) c s.gsBase safe) (rsp : s.reg .rsp = slot top 1)
    (ctx : s.mem (s.gsBase + 0x20#64) = c) (holds : Holds s.mem c v cr3) :
    ∃ s', Leaves img ⟨s, syscallDispatchSysret, []⟩ s' ∧ Returned top c v cr3 s s' := by
  set s₁ := s.push (img.place (dispatchExit ++ (.sysret :: syscallDispatchGenerateUd))) with def₁
  have rsp₁ : s₁.reg .rsp = slot (slot top 2) 0 := by simp [def₁, rsp]
  have mem₁ (a : Word) (off : a ≠ slot top 2) : s₁.mem a = s.mem a := by simp [def₁, rsp, off]
  have ret₁ : s₁.mem (slot (slot top 2) 0)
      = img.place (dispatchExit ++ (.sysret :: syscallDispatchGenerateUd)) := by
    simp [def₁, rsp]
  have A₁ : Apart 3 (slot top 2) c s₁.gsBase safe := by
    have A₁ := A.below (k := 1) (m := 3) (by decide)
    rwa [slot_slot] at A₁
  have ctx₁ : s₁.mem (s₁.gsBase + 0x20#64) = c :=
    (mem₁ _ (A₁.gs_ne_base (by decide))).trans ctx
  have holds₁ : Holds s₁.mem c v cr3 := holds.congr fun a ha => mem₁ a (by
    rintro rfl
    exact A₁.base_not_context ha)
  obtain ⟨s₂, run₂, back, seg₂, reg₂, rax₂, rdx₂, mem₂⟩ := syscallSwitchUser_runs img
    (dispatchExit ++ (.sysret :: syscallDispatchGenerateUd)) [] A₁ rsp₁ ret₁ ctx₁ holds₁
  have rsp₂ : s₂.reg .rsp = slot top 1 := by
    rw [back.rsp, rsp₁]
    simp
  have frame₂ (a : Word) (off : a ∉ below 5 top) : s₂.mem a = s.mem a := by
    rw [mem₂ a fun mem => off (below_slot (by decide) mem),
      mem₁ a fun eq => off ⟨2, by decide, by decide, eq⟩]
  have rbp₂ : s₂.mem (slot top 1) = s.mem (slot top 1) := by
    rw [mem₂ _ (slot_not_below (by decide) (by decide)), mem₁ _ (by simp [slot_inj])]
  have user₂ : s₂.mem (s.gsBase + 0x28#64) = s.mem (s.gsBase + 0x28#64) := by
    have off : s.gsBase + 0x28#64 ∉ below 3 (slot top 2) := A₁.gs_not_below (by decide)
    rw [mem₂ _ off]
    exact mem₁ _ (A₁.gs_ne_base (by decide))
  have gs₂ : s₂.gsBase = s.gsBase := back.gsBase
  set s₃ := execs img.addr dispatchExit s₂ with def₃
  have run : Runs img ⟨s, syscallDispatchSysret, []⟩
      ⟨s₃, .sysret :: syscallDispatchGenerateUd, []⟩ := by
    have enter : Quiet img ⟨s, syscallDispatchSysret, []⟩ ⟨s₁, syscallSwitchUser,
        [dispatchExit ++ (.sysret :: syscallDispatchGenerateUd)]⟩ :=
      quiet_call (f := Symbol.syscallSwitchUser) (by rw [K.text]; rfl)
    exact Quiet.runs (enter.trans (run₂.trans (quiet_block rfl)))
  have reg₃ (r : Reg) (sp : r ≠ .rsp) (bp : r ≠ .rbp) : s₃.reg r = s₂.reg r := by
    simp [def₃, dispatchExit, sp, bp]
  have same (r : Reg) (sp : r ≠ .rsp) : s₁.reg r = s.reg r := by simp [def₁, sp]
  refine ⟨systemReturn s₃, run.leaves leaves_sysret, ?_⟩
  constructor
  case reg =>
    intro r sp bp ax dx
    exact (reg₃ r sp bp).trans (reg₂ r sp bp ax dx)
  case rax =>
    exact (reg₃ _ (by decide) (by decide)).trans (rax₂.trans (same _ (by decide)))
  case rdx =>
    exact (reg₃ _ (by decide) (by decide)).trans (rdx₂.trans (same _ (by decide)))
  case rbp => simp [systemReturn, def₃, dispatchExit, rsp₂, rbp₂]
  case rsp => simp [systemReturn, def₃, dispatchExit, gs₂, user₂]
  case rip =>
    show s₃.reg .rcx = _
    rw [reg₃ _ (by decide) (by decide), reg₂ _ (by decide) (by decide) (by decide) (by decide)]
  case rflags =>
    show s₃.reg .r11 &&& 0x3c7fd7 ||| 2 = _
    rw [reg₃ _ (by decide) (by decide), reg₂ _ (by decide) (by decide) (by decide) (by decide)]
  case cr => exact back.cr
  case ds =>
    have segs : s₃.seg = s₂.seg := by simp [def₃, dispatchExit]
    simp [systemReturn, segs, seg₂]
  case gsBase => exact back.kernelGsBase
  case kernelGsBase => exact back.gsBase
  case mem =>
    have mems : (systemReturn s₃).mem = s₂.mem := by simp [systemReturn, def₃, dispatchExit]
    rw [mems]
    exact frame₂

/-- The entries of `syscall_table` are where nothing the dispatch writes is. -/
structure Table (img : Image Symbol) (top c g : Word) (mem : Word → Word) : Prop where
  entry : ∀ number f, syscallTable number.toNat = some f →
    mem (tableEntry img number) = img.addr f
  stack : ∀ number f, syscallTable number.toNat = some f → tableEntry img number ∉ below 8400 top
  context : ∀ number f, syscallTable number.toNat = some f →
    tableEntry img number ∉ contextBytes c
  gs : ∀ number f, syscallTable number.toNat = some f → tableEntry img number ≠ g + 0x28#64

/-- A number that names a handler calls it. -/
theorem Called.target (T : Table img top c u.kernelGsBase u.mem) (h : Called img pml4 top c u s)
    (named : syscallTable (u.reg .rax).toNat = some f) : s.reg .rax = img.addr f := by
  rw [h.rax, h.mem _ (T.stack _ f named) (T.context _ f named) (T.gs _ f named),
    T.entry _ f named]

/-- There are 152 entries. -/
theorem named_lt {number : Word} (named : syscallTable number.toNat = some f) :
    number.toNat < 152 := by
  unfold syscallTable at named
  split at named <;> first | omega | cases named

/-- The numbers with a handler are below the limit. -/
theorem slt_of_named {number : Word} (named : syscallTable number.toNat = some f) :
    number.slt nsyscalls = true := by
  have small := named_lt named
  rw [BitVec.slt_iff_toInt_lt, BitVec.toInt_eq_toNat_of_lt (by omega)]
  show (number.toNat : Int) < 152
  omega

/-- The handlers are compiled functions. -/
theorem compiled_of_named {n : Nat} (named : syscallTable n = some f) : f.text = none := by
  unfold syscallTable at named
  split at named <;> cases named <;> rfl

/-- What a handler must leave alone: the caller's context and gs page, and the stack above it. -/
def callerBytes (top c g : Word) : Set Word :=
  contextBytes c ∪ {a | ∃ i < 0x30, a = g + i} ∪ below 1 top

/-- The caller goes on with its registers, but for those a result is in. -/
structure Preserved (u s : Cpu) : Prop where
  reg : ∀ r, r ≠ .rax → r ≠ .rdx → r ≠ .rcx → r ≠ .r11 → s.reg r = u.reg r
  rcx : s.reg .rcx = u.rip
  r11 : s.reg .r11 = u.rflags
  rip : s.rip = u.rip
  cr3 : s.cr .cr3 = u.cr .cr3
  ds : s.seg .ds = u.seg .ds

/-- System calls preserve the caller's registers, but for those that a result is in and those
that the processor itself uses. The handler is called with the caller's arguments, and what it
returns is what the caller gets. -/
theorem syscall_preserves (K : Kernel img pml4) (C : Caller img top c u)
    (T : Table img top c u.kernelGsBase u.mem) (ds : u.seg .ds = 0x1b)
    (named : syscallTable (u.reg .rax).toNat = some f)
    (handler : ∀ s : Cpu, s.reg .rsp = slot top 1 →
      ∃ cr3, Returns (callerBytes top c u.kernelGsBase) cr3 s (img.compiled f s)) :
    ∃ s s', Runs img ⟨systemCall u, syscallDispatch, []⟩
        ⟨s, .callReg .rax :: syscallDispatchSysret, []⟩ ∧
      s.reg .rax = img.addr f ∧ s.reg .rdi = u.reg .rdi ∧ s.reg .rsi = u.reg .rsi ∧
      s.reg .rdx = u.reg .rdx ∧
      Leaves img ⟨systemCall u, syscallDispatch, []⟩ s' ∧
      s'.reg .rax = (img.compiled f s).reg .rax ∧ Preserved u s' := by
  have C' : Caller img top c (systemCall u) := ⟨C.stack, C.context, C.cr3, C.apart⟩
  have named' : syscallTable ((systemCall u).reg .rax).toNat = some f := named
  obtain ⟨s, run, called⟩ := syscallDispatch_calls K C' (slt_of_named named')
  have T' : Table img top c (systemCall u).kernelGsBase (systemCall u).mem := T
  have target : s.reg .rax = img.addr f := called.target T' named'
  have call : Runs img ⟨s, .callReg .rax :: syscallDispatchSysret, []⟩
      ⟨img.compiled f s, syscallDispatchSysret, []⟩ := by
    apply runs_callReg_compiled
    · rw [target, img.symbol_addr]
    · rw [K.text, compiled_of_named named]
  obtain ⟨cr3, R⟩ := handler s called.rsp
  set t := img.compiled f s
  have gs : t.gsBase = u.kernelGsBase := R.gsBase.trans called.gsBase
  have page (i : Word) (hi : i < 0x30) : t.mem (t.gsBase + i) = s.mem (u.kernelGsBase + i) := by
    rw [gs]
    exact R.mem _ (Or.inl (Or.inr ⟨i, hi, rfl⟩))
  obtain ⟨s', out, back⟩ := syscallDispatchSysret_leaves K
    (by rw [gs]; exact C.apart.weaken (by decide)) ((R.reg .rsp rfl).trans called.rsp)
    ((page _ (by decide)).trans called.context)
    (called.holds.congr fun a ha => R.mem a (Or.inl (Or.inl ha)))
  refine ⟨s, s', run.runs, target, called.rdi, called.rsi, called.rdx,
    Runs.leaves (run.runs.trans call) out, back.rax, ?_⟩
  constructor
  case reg =>
    intro r ax dx cx eleven
    by_cases sp : r = .rsp
    · rw [sp, back.rsp, page _ (by decide)]
      exact called.user
    · by_cases bp : r = .rbp
      · rw [bp, back.rbp, R.mem _ (Or.inr ⟨1, by decide, by decide, rfl⟩), called.rbp]
        rfl
      · rw [back.reg r sp bp ax dx, Function.update_of_ne ax]
        simp [systemCall, cx, eleven]
  case rcx => exact back.reg .rcx (by decide) (by decide) (by decide) (by decide)
  case r11 => exact back.reg .r11 (by decide) (by decide) (by decide) (by decide)
  case rip => exact back.rip
  case cr3 =>
    rw [back.cr, Function.update_self]
    rfl
  case ds => rw [back.ds, ds]

end

/-- The machine has a task that may call. -/
theorem machineCaller_caller (number : Word) : Caller (machineImage machineCompiled)
    (alignStack machineIst) machineContext (machineCaller number) where
  stack := rfl
  context := rfl
  cr3 := rfl
  apart := machine_apart

/-- The handlers that there are. -/
theorem named_cases {number : Word} {f : Symbol} (named : syscallTable number.toNat = some f) :
    (number, f) ∈ [((144, .rdinfo) : Word × Symbol), (145, .pmap), (146, .punmap), (147, .fbReq),
      (148, .fbKill), (149, .pid), (150, .kbMan)] := by
  generalize eq : number.toNat = n at named
  have here : number = BitVec.ofNat 64 n := by rw [← eq, BitVec.ofNat_toNat, BitVec.setWidth_eq]
  rw [here]
  unfold syscallTable at named
  split at named <;> cases named <;> decide

/-- Their entries are apart from what the dispatch writes. -/
theorem machineCaller_table (number : Word) : Table (machineImage machineCompiled)
    (alignStack machineIst) machineContext machineGs (machineCaller number).mem where
  entry n f named := by
    have mem := named_cases named
    simp only [List.mem_cons, List.not_mem_nil, or_false, Prod.mk.injEq] at mem
    rcases mem with ⟨rfl, rfl⟩ | ⟨rfl, rfl⟩ | ⟨rfl, rfl⟩ | ⟨rfl, rfl⟩ | ⟨rfl, rfl⟩ | ⟨rfl, rfl⟩ |
      ⟨rfl, rfl⟩ <;> rfl
  stack n f named := by
    have small := named_lt named
    rintro ⟨j, one, le, eq⟩
    rw [show alignStack machineIst = 0x2000000 from by decide, tableEntry, slot,
      show (machineImage machineCompiled).addr .syscallTable = 0xd000 from by decide] at eq
    bv_omega
  context n f named := by
    have small := named_lt named
    rintro ⟨j, lt, eq⟩
    rw [tableEntry, machineContext,
      show (machineImage machineCompiled).addr .syscallTable = 0xd000 from by decide] at eq
    bv_omega
  gs n f named := by
    have small := named_lt named
    rw [tableEntry, machineGs,
      show (machineImage machineCompiled).addr .syscallTable = 0xd000 from by decide]
    bv_omega

/-- A task of the machine that asks for its process number. -/
theorem syscall_preserves_machine :
    ∃ s s', Runs (machineImage machineCompiled)
    ⟨systemCall (machineCaller 149), syscallDispatch, []⟩
        ⟨s, .callReg .rax :: syscallDispatchSysret, []⟩ ∧
      s.reg .rax = (machineImage machineCompiled).addr .pid ∧
      Leaves (machineImage machineCompiled)
        ⟨systemCall (machineCaller 149), syscallDispatch, []⟩ s' ∧
      s'.reg .rax = 0 ∧ Preserved (machineCaller 149) s' := by
  obtain ⟨s, s', run, target, -, -, -, out, rax, kept⟩ := syscall_preserves machine_kernel
    (machineCaller_caller 149) (machineCaller_table 149) rfl (f := .pid) rfl
    fun s _ => ⟨_, machine_returns _ s⟩
  exact ⟨s, s', run, target, out, rax, kept⟩

end Skylight.Cpu
