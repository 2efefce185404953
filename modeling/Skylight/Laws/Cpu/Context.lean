import Mathlib.Tactic.Set
import Skylight.Cpu.Text
import Skylight.Lib.X86.Runs

/-!
# Saving and restoring a task's context

`isr_save_task_context` writes the registers of the interrupted task to its
`task_context_t`, which the gs page points to, and `isr_restore_task_context` reads them
back. What each does is said register by register, for a stack, a context and a gs page
that do not overlap.
-/

namespace Skylight.Cpu

open X86

/-- Where a general register is in `task_context_t`. -/
def contextOffset : Reg → Word
  | .rax => 0x00 | .rbx => 0x08 | .rcx => 0x10 | .rdx => 0x18
  | .rdi => 0x20 | .rsi => 0x28 | .r8 => 0x30 | .r9 => 0x38
  | .r10 => 0x40 | .r11 => 0x48 | .r12 => 0x50 | .r13 => 0x58
  | .r14 => 0x60 | .r15 => 0x68 | .rsp => 0x70 | .rbp => 0x78

/-- The fields that are stored and loaded through `rax`. -/
def contextFields : List (Word × Reg) := [
  (0x08, .rbx), (0x10, .rcx), (0x18, .rdx), (0x20, .rdi), (0x28, .rsi), (0x30, .r8),
  (0x38, .r9), (0x40, .r10), (0x48, .r11), (0x50, .r12), (0x58, .r13), (0x60, .r14),
  (0x68, .r15)]

/-- Every register but three has a field that goes through `rax`. -/
theorem mem_contextFields {r : Reg} (ax : r ≠ .rax) (sp : r ≠ .rsp) (bp : r ≠ .rbp) :
    (contextOffset r, r) ∈ contextFields := by
  cases r <;> first | contradiction | decide

/-- The context at `c` holds the general registers `u` and the page tables `cr3`. -/
structure Holds (mem : Word → Word) (c : Word) (u : Reg → Word) (cr3 : Word) : Prop where
  field : ∀ r, r ≠ .rsp → r ≠ .rbp → mem (c + contextOffset r) = u r
  cr3 : mem (c + 0x88#64) = cr3

/-- The bytes of the context at `c`. -/
def contextBytes (c : Word) : Set Word := {a | ∃ i < 0x90, a = c + i}

/-- The `n` quadwords of the stack below the address `top`. -/
def below (n : Nat) (top : Word) : Set Word := {a | ∃ j, 1 ≤ j ∧ j ≤ n ∧ a = slot top j}

/-- The quadwords from `top` down to `n` below it, the context at `c`, the first part of the
gs page at `g`, and `__safe_r15` do not overlap. -/
structure Apart (n : Nat) (top c g safe : Word) : Prop where
  stack_context : ∀ j i, j ≤ n → i < 0x90 → slot top j ≠ c + i
  stack_gs : ∀ j i, j ≤ n → i < 0x30 → slot top j ≠ g + i
  stack_safe : ∀ j, j ≤ n → slot top j ≠ safe
  context_gs : ∀ i j, i < 0x90 → j < 0x30 → c + i ≠ g + j
  context_safe : ∀ i, i < 0x90 → c + i ≠ safe
  gs_safe : ∀ i, i < 0x30 → g + i ≠ safe

/-- The stack a compiled function may use. -/
def compiledFrame : Nat := 8192

/-- The kernel's program: its text, and `paging_sync_cr3`, which loads the kernel's page
tables and writes nothing but its frame. -/
structure Kernel (img : Image Symbol) (pml4 : Word) : Prop where
  text : img.code = Symbol.text
  syncs : ∀ s : Cpu, Returns {a | a ∉ below compiledFrame (s.reg .rsp)} pml4 s
    (img.compiled .pagingSyncCr3 s)

section
variable {img : Image Symbol} {n m k : Nat} {top c g safe pml4 a cr3 : Word} {s : Cpu}
  {addr : Symbol → Word} {u : Reg → Word} {r : Reg}
  {mem mem' : Word → Word}

/-- Fewer quadwords further down are apart as well. -/
theorem Apart.below (h : Apart n top c g safe) (hk : k + m ≤ n) :
    Apart m (slot top k) c g safe where
  stack_context j i hj hi := by
    rw [slot_slot]
    exact h.stack_context _ _ (by omega) hi
  stack_gs j i hj hi := by
    rw [slot_slot]
    exact h.stack_gs _ _ (by omega) hi
  stack_safe j hj := by
    rw [slot_slot]
    exact h.stack_safe _ (by omega)
  context_gs := h.context_gs
  context_safe := h.context_safe
  gs_safe := h.gs_safe

/-- And fewer from the same place. -/
theorem Apart.weaken (h : Apart n top c g safe) (hm : m ≤ n) : Apart m top c g safe where
  stack_context j i hj hi := h.stack_context j i (Nat.le_trans hj hm) hi
  stack_gs j i hj hi := h.stack_gs j i (Nat.le_trans hj hm) hi
  stack_safe j hj := h.stack_safe j (Nat.le_trans hj hm)
  context_gs := h.context_gs
  context_safe := h.context_safe
  gs_safe := h.gs_safe

/-- What is below a place further down is below the place. -/
theorem below_slot (h : k + m ≤ n) : Cpu.below m (slot top k) ⊆ Cpu.below n top := by
  rintro a ⟨j, one, le, rfl⟩
  exact ⟨k + j, by omega, by omega, slot_slot⟩

/-- A slot at or above a stack pointer is not below it. -/
theorem slot_not_below (hk : k ≤ m) (hn : m + n < 2 ^ 61) :
    slot top k ∉ Cpu.below n (slot top m) := by
  rintro ⟨j, one, le, eq⟩
  rw [slot_slot, slot_inj (by omega) (by omega)] at eq
  omega

/-- The context is not on the stack. -/
theorem Apart.context_not_below (h : Apart n top c g safe) (ha : a ∈ contextBytes c) :
    a ∉ Cpu.below n top := by
  rintro ⟨j, _, le, eq⟩
  obtain ⟨i, hi, rfl⟩ := ha
  exact h.stack_context j i le hi eq.symm

/-- Nor is the first part of the gs page. -/
theorem Apart.gs_not_below (h : Apart n top c g safe) {i : Word} (hi : i < 0x30) :
    g + i ∉ Cpu.below n top := by
  rintro ⟨j, _, le, eq⟩
  exact h.stack_gs j i le hi eq.symm

/-- The gs page is not in the context. -/
theorem Apart.gs_not_context (h : Apart n top c g safe) {j : Word} (hj : j < 0x30) :
    g + j ∉ contextBytes c := by
  rintro ⟨i, hi, eq⟩
  exact h.context_gs i j hi hj eq.symm

/-- Nor is a slot of the stack. -/
theorem Apart.stack_not_context (h : Apart n top c g safe) (hk : k ≤ n) :
    slot top k ∉ contextBytes c := by
  rintro ⟨i, hi, eq⟩
  exact h.stack_context k i hk hi eq

/-! The same facts as rewrite rules. -/

/-- A slot is no field of the context. -/
theorem Apart.stack_context_ne (h : Apart n top c g safe) {i : Word} (hk : k ≤ n)
    (hi : i < 0x90) : (slot top k = c + i) = False := eq_false (h.stack_context k i hk hi)

/-- And no field is a slot. -/
theorem Apart.context_stack_ne (h : Apart n top c g safe) {i : Word} (hk : k ≤ n)
    (hi : i < 0x90) : (c + i = slot top k) = False := eq_false (h.stack_context k i hk hi).symm

/-- A slot is not where the context begins. -/
theorem Apart.stack_base_ne (h : Apart n top c g safe) (hk : k ≤ n) : (slot top k = c) = False :=
  eq_false fun eq => h.stack_context k 0 hk (by decide) (eq.trans (BitVec.add_zero c).symm)

/-- A quadword of the gs page is no slot. -/
theorem Apart.gs_stack_ne (h : Apart n top c g safe) {i : Word} (hk : k ≤ n)
    (hi : i < 0x30) : (g + i = slot top k) = False := eq_false (h.stack_gs k i hk hi).symm

/-- The stack pointer itself is not in the gs page. -/
theorem Apart.gs_ne_base (h : Apart n (slot top k) c g safe) {i : Word} (hi : i < 0x30) :
    g + i ≠ slot top k := by
  have ne := h.stack_gs 0 i (Nat.zero_le n) hi
  rw [slot_zero] at ne
  exact ne.symm

/-- The stack pointer is not in the context. -/
theorem Apart.base_not_context (h : Apart n (slot top k) c g safe) :
    slot top k ∉ contextBytes c := by
  have off := h.stack_not_context (Nat.zero_le n)
  rwa [slot_zero] at off

/-- A context is in its bytes. -/
theorem Holds.congr (h : Holds mem c u cr3) (same : ∀ a ∈ contextBytes c, mem' a = mem a) :
    Holds mem' c u cr3 where
  field r sp bp := by
    rw [same _ ⟨contextOffset r, by cases r <;> decide, rfl⟩, h.field r sp bp]
  cr3 := by rw [same _ ⟨0x88#64, by decide, rfl⟩, h.cr3]

/-- It is about the registers, but for the two that are on the stack. -/
theorem Holds.of_eq {u' : Reg → Word} (h : Holds mem c u cr3)
    (same : ∀ r, r ≠ .rsp → r ≠ .rbp → u r = u' r) : Holds mem c u' cr3 where
  field r sp bp := (h.field r sp bp).trans (same r sp bp)
  cr3 := h.cr3

/-- `isr_save_task_context` until it stores the fields through `rax`. -/
def savePrologue : Text := isrSaveTaskContext.take 13

/-- The registers behind the first instructions. -/
theorem savePrologue_reg (addr : Symbol → Word) (A : Apart 3 top c s.gsBase safe)
    (rsp : s.reg .rsp = slot top 0) (ctx : s.mem (s.gsBase + 0x20#64) = c) :
    (execs addr savePrologue s).reg .rsp = slot top 1 ∧
    (execs addr savePrologue s).reg .rax = c ∧
    (execs addr savePrologue s).reg .r15 = s.mem (addr .safeR15) ∧
    ∀ r, r ≠ .rsp → r ≠ .rbp → r ≠ .rax → r ≠ .r15 →
      (execs addr savePrologue s).reg r = s.reg r := by
  refine ⟨?_, ?_, ?_, fun r sp bp ax r15 => ?_⟩
  · simp [savePrologue, isrSaveTaskContext, rsp]
  · simp [savePrologue, isrSaveTaskContext, rsp, ctx, A.gs_stack_ne, slot_inj]
  · simp [savePrologue, isrSaveTaskContext]
  · by_cases bx : r = .rbx
    · subst bx
      simp [savePrologue, isrSaveTaskContext, rsp, ctx, A.gs_stack_ne, A.stack_base_ne,
        A.stack_context_ne, slot_inj]
    · simp [savePrologue, isrSaveTaskContext, sp, bp, ax, r15, bx]

/-- And memory. -/
theorem savePrologue_mem (addr : Symbol → Word) (A : Apart 3 top c s.gsBase safe)
    (rsp : s.reg .rsp = slot top 0) (ctx : s.mem (s.gsBase + 0x20#64) = c) :
    (execs addr savePrologue s).mem (slot top 1) = s.reg .rbp ∧
    (execs addr savePrologue s).mem (c + 0x00) = s.reg .rax ∧
    (execs addr savePrologue s).mem (c + 0x88#64) = s.cr .cr3 ∧
    ∀ a, a ∉ below 3 top → a ∉ contextBytes c → (execs addr savePrologue s).mem a = s.mem a := by
  refine ⟨?_, ?_, ?_, fun a stack context => ?_⟩
  · simp [savePrologue, isrSaveTaskContext, rsp, ctx, A.gs_stack_ne, A.stack_base_ne,
      A.stack_context_ne, slot_inj]
  · simp [savePrologue, isrSaveTaskContext, rsp, ctx, A.gs_stack_ne, A.stack_context_ne, slot_inj]
  · simp [savePrologue, isrSaveTaskContext, rsp, ctx, A.gs_stack_ne, slot_inj]
  · have h₁ : a ≠ slot top 1 := fun eq => stack ⟨1, by decide, by decide, eq⟩
    have h₂ : a ≠ slot top 2 := fun eq => stack ⟨2, by decide, by decide, eq⟩
    have h₃ : a ≠ slot top 3 := fun eq => stack ⟨3, by decide, by decide, eq⟩
    have h₀ : a ≠ c := fun eq => context ⟨0, by decide, eq.trans (BitVec.add_zero c).symm⟩
    have h₈ : a ≠ c + 0x88#64 := fun eq => context ⟨0x88, by decide, eq⟩
    simp [savePrologue, isrSaveTaskContext, rsp, ctx, A.gs_stack_ne, slot_inj, h₀, h₁, h₂, h₃, h₈]

/-- The routine in the pieces its proof takes it in. -/
theorem isrSaveTaskContext_eq : isrSaveTaskContext = savePrologue ++
    (stores .rax contextFields ++ ([.lea .rax .pagingSyncCr3] ++ .callReg .rax ::
      ([.loadGs .rax 0x20, .pop .rbp] ++ [.ret]))) := rfl

/-- What the fields stored through `rax` make of a context. -/
theorem holds_stores (addr : Symbol → Word) (base : s.reg .rax = c) (ax : s.mem (c + 0x00) = u .rax)
    (regs : ∀ r, r ≠ .rax → r ≠ .rsp → r ≠ .rbp → s.reg r = u r)
    (cr3_ : s.mem (c + 0x88#64) = cr3) :
    Holds (execs addr (stores .rax contextFields) s).mem c u cr3 where
  field r sp bp := by
    by_cases first : r = .rax
    · subst first
      rw [execs_stores_mem_of_ne, ← ax]
      · rfl
      · intro f hf eq
        rw [base, show contextOffset .rax = 0x00 from rfl, BitVec.add_right_inj] at eq
        revert f
        simp [contextFields]
    · have mem := execs_stores_mem addr .rax contextFields (s := s) (by decide)
        (mem_contextFields first sp bp)
      rw [base] at mem
      rw [mem, regs r first sp bp]
  cr3 := by
    rw [execs_stores_mem_of_ne, cr3_]
    intro f hf eq
    rw [base, BitVec.add_right_inj] at eq
    revert f
    simp [contextFields]

/-- Storing the fields writes to the context only. -/
theorem stores_mem_of_ne (addr : Symbol → Word) (base : s.reg .rax = c) (off : a ∉ contextBytes c) :
    (execs addr (stores .rax contextFields) s).mem a = s.mem a := by
  apply execs_stores_mem_of_ne
  intro f hf eq
  rw [base] at eq
  have bound : ∀ f ∈ contextFields, f.1 < 0x90 := by simp [contextFields]
  exact off ⟨f.1, bound f hf, eq⟩

/-- What a routine leaves when it returns to the address on top of the stack. -/
structure Resumes (s s' : Cpu) (cr3 : Word) : Prop where
  rsp : s'.reg .rsp = s.reg .rsp + 8
  rbp : s'.reg .rbp = s.reg .rbp
  gsBase : s'.gsBase = s.gsBase
  kernelGsBase : s'.kernelGsBase = s.kernelGsBase
  cr : s'.cr = Function.update s.cr .cr3 cr3

/-- `isr_save_task_context` saves the registers `u` of the interrupted task, of which `r15` is
in `__safe_r15`. -/
theorem isrSaveTaskContext_runs (rest : Text) (frames : List Text) (K : Kernel img pml4)
    (A : Apart 8200 top c s.gsBase safe) (rsp : s.reg .rsp = slot top 0)
    (ret : s.mem (slot top 0) = img.place rest) (ctx : s.mem (s.gsBase + 0x20#64) = c)
    (regs : ∀ r, r ≠ .rsp → r ≠ .rbp → r ≠ .r15 → s.reg r = u r)
    (r15 : s.mem (img.addr .safeR15) = u .r15) :
    ∃ s', Runs img ⟨s, isrSaveTaskContext, rest :: frames⟩ ⟨s', rest, frames⟩ ∧
      Resumes s s' pml4 ∧ s'.seg = s.seg ∧ s'.reg .rax = c ∧
      Holds s'.mem c u (s.cr .cr3) ∧
      ∀ a, a ∉ below 8196 top → a ∉ contextBytes c → s'.mem a = s.mem a := by
  obtain ⟨rsp₁, rax₁, r15₁, reg₁⟩ :=
    savePrologue_reg img.addr (A.weaken (by decide)) rsp ctx
  obtain ⟨rbp₁, ax₁, cr3₁, mem₁⟩ :=
    savePrologue_mem img.addr (A.weaken (by decide)) rsp ctx
  set s₁ := execs img.addr savePrologue s
  obtain ⟨mem₂, eq₂⟩ := execs_stores img.addr .rax contextFields (s := s₁)
  have reg_u (r : Reg) (ax : r ≠ .rax) (sp : r ≠ .rsp) (bp : r ≠ .rbp) : s₁.reg r = u r := by
    by_cases last : r = .r15
    · rw [last, r15₁, r15]
    · rw [reg₁ r sp bp ax last, regs r sp bp last]
  have holds₂ := holds_stores img.addr rax₁
    (ax₁.trans (regs .rax (by decide) (by decide) (by decide))) reg_u cr3₁
  have kept₂ (a : Word) (off : a ∉ contextBytes c) : mem₂ a = s₁.mem a := by
    have := stores_mem_of_ne img.addr rax₁ off
    rwa [eq₂] at this
  rw [eq₂] at holds₂
  set s₃ : Cpu := { s₁ with mem := mem₂ }.set .rax (img.addr .pagingSyncCr3) with def₃
  have R := K.syncs s₃
  set s₄ := img.compiled .pagingSyncCr3 s₃
  have rsp₃ : s₃.reg .rsp = slot top 1 := by simpa [def₃] using rsp₁
  have rsp₄ : s₄.reg .rsp = slot top 1 := (R.reg .rsp rfl).trans rsp₃
  have kept₄ (a : Word) (off : a ∉ below 8195 (slot top 1)) : s₄.mem a = mem₂ a := by
    refine R.mem a fun mem => off ?_
    rw [rsp₃] at mem
    obtain ⟨j, one, le, eq⟩ := mem
    exact ⟨j, one, Nat.le_trans le (by decide), eq⟩
  have mem₄ (a : Word) (off : a ∉ below 8196 top) (off' : a ∉ contextBytes c) :
      s₄.mem a = s.mem a := by
    rw [kept₄ a fun mem => off (below_slot (by decide) mem), kept₂ a off',
      mem₁ a (fun mem => off ?_) off']
    obtain ⟨j, one, le, eq⟩ := mem
    exact ⟨j, one, Nat.le_trans le (by decide), eq⟩
  have gs₄ : s₄.gsBase = s.gsBase := R.gsBase
  have ctx₄ : s₄.mem (s.gsBase + 0x20#64) = c := by
    rw [mem₄ _ ((A.weaken (by decide)).gs_not_below (by decide)) (A.gs_not_context (by decide)),
      ctx]
  have rbp₄ : s₄.mem (slot top 1) = s.reg .rbp := by
    rw [kept₄ _ (slot_not_below (Nat.le_refl 1) (by decide)),
      kept₂ _ (A.stack_not_context (by decide)), rbp₁]
  have ret₄ : s₄.mem (slot top 0) = img.place rest := by
    have here : slot top 0 ∉ below 8196 (slot top 0) :=
      slot_not_below (Nat.le_refl 0) (by decide)
    rw [slot_zero] at here
    rw [mem₄ _ (by rwa [slot_zero]) (A.stack_not_context (by decide)), ret]
  have run₃ : Runs img ⟨s, isrSaveTaskContext, rest :: frames⟩ ⟨s₃, .callReg .rax ::
      ([.loadGs .rax 0x20, .pop .rbp] ++ [.ret]), rest :: frames⟩ := by
    have eq₃ : execs img.addr [.lea .rax .pagingSyncCr3]
        (execs img.addr (stores .rax contextFields) s₁) = s₃ := by
      rw [eq₂]
      rfl
    rw [isrSaveTaskContext_eq, ← eq₃]
    exact (runs_block rfl).trans ((runs_block rfl).trans (runs_block rfl))
  have at₃ : img.symbol (s₃.reg .rax) = some .pagingSyncCr3 := by
    rw [def₃, Cpu.set_reg, if_pos rfl, img.symbol_addr]
  refine ⟨(execs img.addr [.loadGs .rax 0x20, .pop .rbp] s₄).drop, ?_, ?_, ?_, ?_, ?_, ?_⟩
  · refine run₃.trans ((runs_callReg_compiled at₃ (by rw [K.text]; rfl)).trans
      ((runs_block rfl).trans (runs_ret ?_)))
    show (execs img.addr [.loadGs .rax 0x20, .pop .rbp] s₄).top = img.place rest
    simp [rsp₄, ret₄]
  · refine ⟨?_, ?_, gs₄, R.kernelGsBase, R.cr⟩
    · simp [rsp₄, rsp]
    · simp [rsp₄, rbp₄]
  · exact R.seg
  · simpa [gs₄] using ctx₄
  · refine holds₂.congr fun a ha => ?_
    exact kept₄ a fun mem => A.context_not_below ha (below_slot (by decide) mem)
  · exact mem₄

/-- What loading the fields through `rax`, and `rax` last, makes of the registers. -/
theorem loads_reg (addr : Symbol → Word) (base : s.reg .rax = c) (h : Holds s.mem c u cr3)
    (sp : r ≠ .rsp)
    (bp : r ≠ .rbp) :
    (execs addr (loads .rax contextFields ++ [.load .rax .rax 0x00]) s).reg r = u r := by
  obtain ⟨reg, eq⟩ := execs_loads addr .rax contextFields (s := s)
  have kept : reg .rax = c := by
    have := execs_loads_reg_of_ne addr .rax contextFields (s := s) (r := .rax)
      (by decide)
    rwa [eq, base] at this
  rw [execs_append, eq, execs_cons, execs_nil, exec, Cpu.set_reg]
  by_cases first : r = .rax
  · subst first
    show (if Reg.rax = .rax then s.mem (reg .rax + 0x00) else reg .rax) = u .rax
    rw [if_pos rfl, kept]
    exact h.field .rax sp bp
  · have loaded := execs_loads_reg addr .rax contextFields (s := s) (by decide) (by decide)
      (mem_contextFields first sp bp)
    rw [eq, base, h.field r sp bp] at loaded
    rw [if_neg first]
    exact loaded

/-- Loading the fields leaves the two stack registers. -/
theorem loads_reg_of_ne (addr : Symbol → Word) (h : r = .rsp ∨ r = .rbp) :
    (execs addr (loads .rax contextFields ++ [.load .rax .rax 0x00]) s).reg r = s.reg r := by
  have off : ∀ f ∈ contextFields, f.2 ≠ r := by rcases h with rfl | rfl <;> decide
  have ax : r ≠ .rax := by rcases h with rfl | rfl <;> decide
  rw [execs_append, execs_cons, execs_nil, exec, Cpu.set_reg, if_neg ax,
    execs_loads_reg_of_ne addr .rax contextFields off]

/-- Loading the fields changes nothing but registers. -/
theorem loads_rest (addr : Symbol → Word) :
    ∃ reg, execs addr (loads .rax contextFields ++ [.load .rax .rax 0x00]) s
    = { s with reg := reg } := by
  obtain ⟨reg, eq⟩ := execs_loads addr .rax contextFields (s := s)
  rw [execs_append, eq]
  exact ⟨_, rfl⟩

/-- `isr_restore_task_context` until it loads the fields through `rax`. -/
def restorePrologue : Text := isrRestoreTaskContext.take 6

/-- The routine in the pieces its proof takes it in. -/
theorem isrRestoreTaskContext_eq : isrRestoreTaskContext = restorePrologue ++
    ((loads .rax contextFields ++ [.load .rax .rax 0x00]) ++ ([.pop .rbp] ++ [.ret])) := rfl

/-- `isr_restore_task_context` gives the registers what the context of the gs page holds. -/
theorem isrRestoreTaskContext_runs (img : Image Symbol) (rest : Text) (frames : List Text)
    (A : Apart 1 top c s.gsBase safe)
    (rsp : s.reg .rsp = slot top 0) (ret : s.mem (slot top 0) = img.place rest)
    (ctx : s.mem (s.gsBase + 0x20#64) = c) (holds : Holds s.mem c u cr3) :
    ∃ s', Runs img ⟨s, isrRestoreTaskContext, rest :: frames⟩ ⟨s', rest, frames⟩ ∧
      Resumes s s' cr3 ∧ s'.seg = s.seg ∧ (∀ r, r ≠ .rsp → r ≠ .rbp → s'.reg r = u r) ∧
      ∀ a, a ≠ slot top 1 → s'.mem a = s.mem a := by
  set s₁ := execs img.addr restorePrologue s with def₁
  have rsp₁ : s₁.reg .rsp = slot top 1 := by
    simp [def₁, restorePrologue, isrRestoreTaskContext, rsp]
  have mem₁ (a : Word) : s₁.mem a = if a = slot top 1 then s.reg .rbp else s.mem a := by
    simp [def₁, restorePrologue, isrRestoreTaskContext, rsp]
  have rax₁ : s₁.reg .rax = c := by
    simp [def₁, restorePrologue, isrRestoreTaskContext, rsp, ctx, A.gs_stack_ne]
  have holds₁ : Holds s₁.mem c u cr3 := holds.congr fun a ha => by
    rw [mem₁, if_neg]
    rintro rfl
    exact A.stack_not_context (Nat.le_refl 1) ha
  have cr₁ : s₁.cr = Function.update s.cr .cr3 cr3 := by
    have field := holds.cr3
    simp [def₁, restorePrologue, isrRestoreTaskContext, rsp, ctx, A.gs_stack_ne,
      A.context_stack_ne, field]
  obtain ⟨reg₂, eq₂⟩ := loads_rest img.addr (s := s₁)
  have fields₂ (r : Reg) (sp : r ≠ .rsp) (bp : r ≠ .rbp) : reg₂ r = u r := by
    have := loads_reg img.addr rax₁ holds₁ sp bp
    rwa [eq₂] at this
  have rsp₂ : reg₂ .rsp = slot top 1 := by
    have := loads_reg_of_ne img.addr (s := s₁) (Or.inl rfl : Reg.rsp = .rsp ∨ _)
    rwa [eq₂, rsp₁] at this
  set s₂ : Cpu := { s₁ with reg := reg₂ }
  have run₂ : Runs img ⟨s, isrRestoreTaskContext, rest :: frames⟩
      ⟨s₂, [.pop .rbp] ++ [.ret], rest :: frames⟩ := by
    rw [isrRestoreTaskContext_eq, ← eq₂]
    exact (runs_block rfl).trans (runs_block rfl)
  have ne : slot top 0 ≠ slot top 1 := by simp [slot_inj]
  refine ⟨(execs img.addr [.pop .rbp] s₂).drop, ?_, ⟨?_, ?_, rfl, rfl, cr₁⟩, ?_, ?_, ?_⟩
  · refine run₂.trans ((runs_block rfl).trans (runs_ret ?_))
    show (execs img.addr [.pop .rbp] s₂).top = img.place rest
    simp [s₂, rsp₂, mem₁, ret, ne]
  · simp [s₂, rsp₂, rsp]
  · simp [s₂, rsp₂, mem₁]
  · simp [s₂, def₁, restorePrologue, isrRestoreTaskContext]
  · intro r sp bp
    simp [s₂, sp, bp, fields₂]
  · intro a off
    simp [s₂, mem₁, off]

/-- What both `.yes_task` begin with, up to the call of `isr_save_task_context`. -/
def taskSwitch : Text :=
  [.swapgs] ++ kernelSegments ++ [.pop .rax, .pop .r15] ++ saveR15 ++
    [.lea .r15 .isrSaveTaskContext]

/-- The registers where `isr_save_task_context` is called. -/
theorem taskSwitch_reg (addr : Symbol → Word) (A : Apart 2 top c g (addr .safeR15))
    (rsp : s.reg .rsp = slot top 2) :
    (execs addr taskSwitch s).reg .rsp = slot top 0 ∧
    (execs addr taskSwitch s).reg .rax = s.mem (slot top 2) ∧
    (execs addr taskSwitch s).reg .r15 = addr .isrSaveTaskContext ∧
    ∀ r, r ≠ .rsp → r ≠ .rax → r ≠ .r15 → (execs addr taskSwitch s).reg r = s.reg r := by
  refine ⟨?_, ?_, ?_, fun r sp ax r15 => ?_⟩
  · simp [taskSwitch, kernelSegments, saveR15, rsp]
  · have ne := A.stack_safe 1 (by decide)
    simp [taskSwitch, kernelSegments, saveR15, rsp, ne]
  · simp [taskSwitch, kernelSegments, saveR15]
  · simp [taskSwitch, kernelSegments, saveR15, sp, ax, r15]

/-- And memory. -/
theorem taskSwitch_mem (addr : Symbol → Word) (rsp : s.reg .rsp = slot top 2) :
    (execs addr taskSwitch s).mem (addr .safeR15) = s.mem (slot top 1) ∧
    ∀ a, a ≠ slot top 1 → a ≠ addr .safeR15 → (execs addr taskSwitch s).mem a = s.mem a := by
  refine ⟨?_, fun a stack safe => ?_⟩
  · simp [taskSwitch, kernelSegments, saveR15, rsp]
  · simp [taskSwitch, kernelSegments, saveR15, rsp, stack, safe]

/-- Entering the kernel from a task: the registers `u` of the task, of which `rax` and `r15` are
on the stack, end up in its context. -/
theorem taskSwitch_runs (rest : Text) (frames : List Text) (K : Kernel img pml4)
    (A : Apart 8300 top c s.kernelGsBase (img.addr .safeR15)) (rsp : s.reg .rsp = slot top 2)
    (rax : s.mem (slot top 2) = u .rax) (r15 : s.mem (slot top 1) = u .r15)
    (regs : ∀ r, r ≠ .rsp → r ≠ .rax → r ≠ .r15 → s.reg r = u r)
    (ctx : s.mem (s.kernelGsBase + 0x20#64) = c) :
    ∃ s', Runs img ⟨s, taskSwitch ++ (.callReg .r15 :: ([.storeGs 0x20 .rax] ++ rest)), frames⟩
        ⟨s', rest, frames⟩ ∧
      s'.reg .rsp = slot top 0 ∧ s'.reg .rbp = u .rbp ∧ s'.gsBase = s.kernelGsBase ∧
      s'.kernelGsBase = s.gsBase ∧ s'.cr = Function.update s.cr .cr3 pml4 ∧
      Holds s'.mem c u (s.cr .cr3) ∧ s'.mem (s.kernelGsBase + 0x20#64) = c ∧
      ∀ a, a ∉ below 8297 (slot top 0) → a ∉ contextBytes c → a ≠ img.addr .safeR15 →
        s'.mem a = s.mem a := by
  obtain ⟨rsp₁, rax₁, r15₁, reg₁⟩ := taskSwitch_reg img.addr (A.weaken (by decide)) rsp
  obtain ⟨safe₁, mem₁⟩ := taskSwitch_mem img.addr rsp
  set s₁ := execs img.addr taskSwitch s with def₁
  set s₂ := s₁.push (img.place ([.storeGs 0x20 .rax] ++ rest)) with def₂
  have rsp₂ : s₂.reg .rsp = slot (slot top 1) 0 := by simp [def₂, rsp₁]
  have mem₂ (a : Word) (off : a ≠ slot top 1) : s₂.mem a = s₁.mem a := by
    simp [def₂, rsp₁, off]
  have A₂ : Apart 8200 (slot top 1) c s₂.gsBase (img.addr .safeR15) := A.below (by decide)
  have ctx₂ : s₂.mem (s₂.gsBase + 0x20#64) = c := by
    have stack := (A.stack_gs 1 0x20#64 (by decide) (by decide)).symm
    have safe := A.gs_safe 0x20#64 (by decide)
    show s₂.mem (s.kernelGsBase + 0x20#64) = c
    rw [mem₂ _ stack, mem₁ _ stack safe, ctx]
  have regs₂ (r : Reg) (sp : r ≠ .rsp) (bp : r ≠ .rbp) (last : r ≠ .r15) : s₂.reg r = u r := by
    have kept : s₂.reg r = s₁.reg r := by simp [def₂, sp]
    by_cases ax : r = .rax
    · rw [kept, ax, rax₁, rax]
    · rw [kept, reg₁ r sp ax last, regs r sp ax last]
  have r15₂ : s₂.mem (img.addr .safeR15) = u .r15 := by
    rw [mem₂ _ (A.stack_safe 1 (by decide)).symm, safe₁, r15]
  obtain ⟨s₃, run₃, back, -, rax₃, holds₃, mem₃⟩ := isrSaveTaskContext_runs
    ([.storeGs 0x20 .rax] ++ rest) frames K A₂ rsp₂
    (by simp [def₂, rsp₁]) ctx₂ regs₂ r15₂
  have gs₃ : s₃.gsBase = s.kernelGsBase := back.gsBase
  have rbp₂ : s₂.reg .rbp = u .rbp := by
    have kept : s₂.reg .rbp = s₁.reg .rbp := by simp [def₂]
    rw [kept, reg₁ _ (by decide) (by decide) (by decide),
      regs _ (by decide) (by decide) (by decide)]
  have mem₄ (a : Word) : (exec img.addr (.storeGs 0x20 .rax) s₃).mem a
      = if a = s.kernelGsBase + 0x20#64 then c else s₃.mem a := by simp [gs₃, rax₃]
  have run₁ : Runs img ⟨s, taskSwitch ++ (.callReg .r15 :: ([.storeGs 0x20 .rax] ++ rest)), frames⟩
      ⟨s₂, isrSaveTaskContext, ([.storeGs 0x20 .rax] ++ rest) :: frames⟩ := by
    refine (runs_block rfl).trans (runs_callReg (f := .isrSaveTaskContext) ?_ ?_)
    · rw [← def₁, r15₁, img.symbol_addr]
    · rw [K.text]
      rfl
  refine ⟨exec img.addr (.storeGs 0x20 .rax) s₃, run₁.trans (run₃.trans (runs_block rfl)), ?_, ?_,
    gs₃, back.kernelGsBase, back.cr, ?_, ?_, ?_⟩
  · show s₃.reg .rsp = slot top 0
    rw [back.rsp, rsp₂]
    simp
  · exact back.rbp.trans rbp₂
  · refine holds₃.congr fun a ha => ?_
    rw [mem₄, if_neg]
    rintro rfl
    exact A.gs_not_context (by decide) ha
  · rw [mem₄, if_pos rfl]
  · intro a stack context safe
    have out : a ∉ below 8196 (slot top 1) := by
      intro mem
      have := @below_slot 8297 8196 1 (slot top 0) (by decide)
      rw [slot_slot] at this
      exact stack (this mem)
    have one : a ≠ slot top 1 := by
      rintro rfl
      exact stack ⟨1, by decide, by decide, by rw [slot_slot]⟩
    rw [mem₄]
    by_cases gs : a = s.kernelGsBase + 0x20#64
    · rw [if_pos gs, gs, ctx]
    · rw [if_neg gs, mem₃ a out context, mem₂ a one, mem₁ a one safe]

end

end Skylight.Cpu
