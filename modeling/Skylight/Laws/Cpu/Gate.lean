import Mathlib.Tactic.IntervalCases
import Skylight.Laws.Cpu.Syscall

/-!
# What the system-call gate calls

The number in `rax` and the argument in `rdi` are the caller's. The comparison is signed, the
table's first 144 entries and its last are zero, `rdinfo` does not look at the bounds of its
own table, and a refused call loads the caller's registers from a context nothing was saved to.
-/

namespace Skylight.Cpu

open X86

/-- The gate is safe for the call `s` enters it with: a number that names a handler has that
handler called and nothing else, and `rdinfo` calls one of its four functions through one of its
four entries; any other number calls nothing, has the opcode at the return address zeroed, and
goes back there with the caller's registers, `rax` apart. -/
structure GateSafe (img : Image Symbol) (s : Cpu) : Prop where
  calls : ∀ f, syscallTable (s.reg .rax).toNat = some f →
    ∀ e, Runs img ⟨s, syscallDispatch, []⟩ e → ∀ w, e.indirect = some w → w = img.addr f ∧
      (f = .rdinfo → ∃ i g, retrievers[i]? = some g ∧ rdinfoTarget img e.cpu = img.addr g ∧
        retrieverSlot img (e.cpu.reg .rdi) = retrieverSlot img (BitVec.ofNat 64 i))
  refuses : syscallTable (s.reg .rax).toNat = none →
    (∀ e, Runs img ⟨s, syscallDispatch, []⟩ e → e.indirect = none) ∧
    ∃ s', Leaves img ⟨s, syscallDispatch, []⟩ s' ∧ s'.mem (s.reg .rcx) = 0 ∧
      s'.rip = s.reg .rcx ∧ ∀ r, r ≠ .rax → s'.reg r = s.reg r

/-- The calls the gate is safe for. -/
def Admissible (c : Word) (s : Cpu) : Prop :=
  (∃ f, syscallTable (s.reg .rax).toNat = some f ∧
    (f = .rdinfo → (s.reg .rdi).toNat % 2 ^ 61 < 4)) ∨
  ((s.reg .rax).slt nsyscalls = false ∧
    ∀ r, r ≠ .rax → r ≠ .rdx → r ≠ .rsp → r ≠ .rbp → s.mem (c + contextOffset r) = s.reg r)

/-- `retriever` has its four functions, where nothing the dispatch writes is. -/
structure Retrievers (img : Image Symbol) (top c g : Word) (mem : Word → Word) : Prop where
  entry : ∀ i f, retrievers[i]? = some f → mem (retrieverSlot img (BitVec.ofNat 64 i)) = img.addr f
  stack : ∀ i < 4, retrieverSlot img (BitVec.ofNat 64 i) ∉ below 8400 top
  context : ∀ i < 4, retrieverSlot img (BitVec.ofNat 64 i) ∉ contextBytes c
  gs : ∀ i < 4, retrieverSlot img (BitVec.ofNat 64 i) ≠ g + 0x28#64

/-- The return address is not in what the dispatch writes or reads. -/
structure ReturnApart (top c g w : Word) : Prop where
  stack : w ∉ below 8400 top
  context : w ∉ contextBytes c
  gs : ∀ i < 0x30, w ≠ g + i

section
variable {img : Image Symbol} {top c pml4 : Word} {s : Cpu} {f : Symbol} {i : Nat}

/-- The texts a system call ends with. -/
def calm : Symbol → Bool
  | .syscallSwitchUser | .syscallDispatchSysret => true
  | _ => false

/-- The texts lead to each other only. -/
theorem calm_closed (K : Kernel img pml4) (g : Symbol) (code : Text) (hg : calm g = true)
    (text : img.code g = some code) : code.all (Instr.within calm) = true := by
  rw [K.text] at text
  cases g with
  | syscallSwitchUser => cases text; rfl
  | syscallDispatchSysret => cases text; rfl
  | _ => cases hg

/-- A field is looked up in one of the four entries exactly when it is below four, up to the bits
the scaling loses. -/
theorem retrieverSlot_iff {field : Word} :
    retrieverSlot img field = retrieverSlot img (BitVec.ofNat 64 i) ∧ i < 4 ↔
      field.toNat % 2 ^ 61 = i ∧ i < 4 := by
  rw [retrieverSlot, retrieverSlot, BitVec.add_right_inj]
  refine and_congr_left fun lt => ?_
  have eight : (8 : Word).toNat = 8 := rfl
  rw [← BitVec.toNat_inj]
  simp only [BitVec.toNat_mul, BitVec.toNat_ofNat, eight]
  omega

/-- There are four functions. -/
theorem lt_of_retriever (h : retrievers[i]? = some f) : i < 4 :=
  (List.getElem?_eq_some_iff.mp h).1

/-- A number that names a handler: the gate is safe but for `rdinfo`'s argument. -/
theorem gate_named (K : Kernel img pml4) (C : Caller img top c s)
    (T : Table img top c s.kernelGsBase s.mem) (R : Retrievers img top c s.kernelGsBase s.mem)
    (named : syscallTable (s.reg .rax).toNat = some f) :
    GateSafe img s ↔ (f = .rdinfo → (s.reg .rdi).toNat % 2 ^ 61 < 4) := by
  obtain ⟨t, run, called⟩ := syscallDispatch_calls K C (slt_of_named named)
  have target : t.reg .rax = img.addr f := called.target T named
  constructor
  · intro safe rd
    obtain ⟨-, inner⟩ := safe.calls f named _ run.runs _ rfl
    obtain ⟨i, g, entry, -, same⟩ := inner rd
    rw [called.rdi] at same
    obtain ⟨eq, lt⟩ := retrieverSlot_iff.mp ⟨same, lt_of_retriever entry⟩
    rwa [eq]
  · intro small
    refine ⟨fun g named' e reach w ind => ?_, fun none => by rw [named] at none; cases none⟩
    rw [named] at named'
    cases named'
    -- the call of the handler is the only place an address comes from a register
    rcases run.reach reach with calm | reach
    · rw [calm] at ind
      cases ind
    rcases Relation.ReflTransGen.cases_head reach with rfl | ⟨e', next, reach⟩
    · cases ind
      refine ⟨target, fun rd => ?_⟩
      obtain ⟨same, lt⟩ := retrieverSlot_iff.mpr ⟨rfl, small rd⟩
      obtain ⟨g, entry⟩ : ∃ g, retrievers[(s.reg .rdi).toNat % 2 ^ 61]? = some g :=
        ⟨_, List.getElem?_eq_getElem lt⟩
      refine ⟨_, g, entry, ?_, by rw [called.rdi]; exact same⟩
      rw [rdinfoTarget, called.rdi, same,
        called.mem _ (R.stack _ lt) (R.context _ lt) (R.gs _ lt), R.entry _ g entry]
    · have call : step img ⟨t, .callReg .rax :: syscallDispatchSysret, []⟩ =
          .go ⟨img.compiled f t, syscallDispatchSysret, []⟩ := by
        show enter img (t.reg .rax) t _ _ = _
        rw [enter, target, img.symbol_addr]
        simp only [K.text, compiled_of_named named]
      rw [call] at next
      cases next
      have settled : Settled calm ⟨img.compiled f t, syscallDispatchSysret, []⟩ :=
        ⟨rfl, fun is mem => absurd mem List.not_mem_nil⟩
      rw [(settled.run (calm_closed K) reach).indirect] at ind
      cases ind

/-- A number below the limit, as a signed number, that names no handler: something is called. -/
theorem gate_unnamed (K : Kernel img pml4) (C : Caller img top c s)
    (none_ : syscallTable (s.reg .rax).toNat = none) (lt : (s.reg .rax).slt nsyscalls = true) :
    ¬ GateSafe img s := by
  intro safe
  obtain ⟨t, run, -⟩ := syscallDispatch_calls K C lt
  have quiet := (safe.refuses none_).1 _ run.runs
  cases quiet

/-- A number at or above the limit: what the caller gets back is what the context holds. -/
theorem gate_refused (K : Kernel img pml4) (C : Caller img top c s)
    (none_ : syscallTable (s.reg .rax).toNat = none) (ge : (s.reg .rax).slt nsyscalls = false)
    (ret : ReturnApart top c s.kernelGsBase (s.reg .rcx)) :
    GateSafe img s ↔ ∀ r, r ≠ .rax → r ≠ .rdx → r ≠ .rsp → r ≠ .rbp →
      s.mem (c + contextOffset r) = s.reg r := by
  have D := dispatchEntry_dispatched C
  set s₁ := execs img.addr dispatchEntry s
  set s₂ := execs img.addr [.clear .rax, .store .rcx 0 .rax] s₁ with def₂
  have run : Quiet img ⟨s, syscallDispatch, []⟩ ⟨s₂, syscallDispatchSysret, []⟩ := by
    rw [syscallDispatch_eq]
    refine (quiet_block rfl).trans ((quiet_jge (by rw [K.text]; rfl) (D.less.trans ge)).trans ?_)
    exact (@quiet_block _ _ _ [.clear .rax, .store .rcx 0 .rax] _ _ rfl).trans
      (quiet_jmp (by rw [K.text]; rfl))
  have gs₂ : s₂.gsBase = s.kernelGsBase := by simp [def₂, D.gsBase]
  have rsp₂ : s₂.reg .rsp = slot top 1 := by simp [def₂, D.rsp]
  have cx : s₁.reg .rcx = s.reg .rcx := D.reg _ (by decide) (by decide)
  have mem₂ (a : Word) : s₂.mem a = if a = s.reg .rcx then 0 else s₁.mem a := by
    simp [def₂, cx]
  have one : slot top 1 ≠ s.reg .rcx := fun eq => ret.stack ⟨1, by decide, by decide, eq.symm⟩
  have field (o : Word) (ho : o < 0x90) : s₂.mem (c + o) = s.mem (c + o) := by
    rw [mem₂, if_neg fun eq => ret.context ⟨o, ho, eq.symm⟩, D.mem]
    · intro eq
      exact C.apart.base_not_context ⟨o, ho, eq.symm⟩
    · exact C.apart.context_gs o 0x28 ho (by decide)
  have ctx₂ : s₂.mem (s₂.gsBase + 0x20#64) = c := by
    rw [gs₂, mem₂, if_neg (ret.gs _ (by decide)).symm, D.mem _ (C.apart.gs_ne_base (by decide))
      (by simp), C.context]
  have holds₂ : Holds s₂.mem c (fun r => s₂.mem (c + contextOffset r)) (s₂.mem (c + 0x88#64)) :=
    ⟨fun _ _ _ => rfl, rfl⟩
  obtain ⟨s', out, back⟩ := syscallDispatchSysret_leaves K
    (by rw [gs₂]; exact C.apart.weaken (by decide)) rsp₂ ctx₂ holds₂
  have leaves : Leaves img ⟨s, syscallDispatch, []⟩ s' := run.runs.leaves out
  have loaded (r : Reg) (sp : r ≠ .rsp) (bp : r ≠ .rbp) (ax : r ≠ .rax) (dx : r ≠ .rdx) :
      s'.reg r = s.mem (c + contextOffset r) :=
    (back.reg r sp bp ax dx).trans (field _ (by cases r <;> decide))
  constructor
  · intro safe r ax dx sp bp
    obtain ⟨-, t, out', -, -, regs⟩ := safe.refuses none_
    rw [← loaded r sp bp ax dx, out'.unique leaves |>.symm, regs r ax]
  · intro same
    have unnamed (f : Symbol) (named : syscallTable (s.reg .rax).toNat = some f) : False := by
      rw [none_] at named
      cases named
    refine ⟨fun f named => (unnamed f named).elim, fun _ => ⟨fun e reach => ?_, ?_⟩⟩
    · rcases run.reach reach with quiet | reach
      · exact quiet
      · have settled : Settled calm ⟨s₂, syscallDispatchSysret, []⟩ :=
          ⟨rfl, fun is mem => absurd mem List.not_mem_nil⟩
        exact (settled.run (calm_closed K) reach).indirect
    · refine ⟨s', leaves, ?_, ?_, fun r ax => ?_⟩
      · rw [back.mem _ fun mem => ret.stack ?_, mem₂, if_pos rfl]
        obtain ⟨j, one, le, eq⟩ := mem
        exact ⟨j, one, Nat.le_trans le (by decide), eq⟩
      · rw [back.rip, field _ (by decide), same _ (by decide) (by decide) (by decide) (by decide)]
      · by_cases sp : r = .rsp
        · have user : s₂.mem (s.kernelGsBase + 0x28#64) = s.reg .rsp := by
            rw [mem₂, if_neg (ret.gs _ (by decide)).symm, D.user]
          rw [sp, back.rsp, gs₂, user]
        · by_cases bp : r = .rbp
          · rw [bp, back.rbp, mem₂, if_neg one, D.rbp]
          · by_cases dx : r = .rdx
            · rw [dx, back.rdx]
              simp [def₂, D.reg]
            · rw [loaded r sp bp ax dx, same r ax dx sp bp]

/-- The gate is safe for exactly the admissible calls: those whose number names a handler, for
`rdinfo` with one of its four fields, and those at or above the limit when the context holds the
caller's registers already. -/
theorem gate_safe_iff (K : Kernel img pml4) (C : Caller img top c s)
    (T : Table img top c s.kernelGsBase s.mem) (R : Retrievers img top c s.kernelGsBase s.mem)
    (ret : ReturnApart top c s.kernelGsBase (s.reg .rcx)) :
    GateSafe img s ↔ Admissible c s := by
  cases named : syscallTable (s.reg .rax).toNat with
  | some f =>
    rw [gate_named K C T R named, Admissible]
    constructor
    · exact fun small => Or.inl ⟨f, named, small⟩
    · rintro (⟨g, named', small⟩ | ⟨ge, -⟩)
      · rw [named] at named'
        cases named'
        exact small
      · rw [slt_of_named named] at ge
        cases ge
  | none =>
    cases lt : (s.reg .rax).slt nsyscalls with
    | true =>
      refine iff_of_false (gate_unnamed K C named lt) ?_
      rintro (⟨g, named', -⟩ | ⟨ge, -⟩)
      · rw [named] at named'
        cases named'
      · rw [lt] at ge
        cases ge
    | false =>
      rw [gate_refused K C named lt ret, Admissible]
      constructor
      · exact fun same => Or.inr ⟨lt, same⟩
      · rintro (⟨g, named', -⟩ | ⟨-, same⟩)
        · rw [named] at named'
          cases named'
        · exact same

end

/-- The four functions are in their place. -/
theorem machineCaller_retrievers (number : Word) : Retrievers (machineImage machineCompiled)
    (alignStack machineIst) machineContext machineGs (machineCaller number).mem where
  entry i f h := by
    have lt := lt_of_retriever h
    interval_cases i <;> cases h <;> rfl
  stack i hi := by
    rintro ⟨j, one, le, eq⟩
    revert eq
    rw [show alignStack machineIst = 0x2000000 from by decide, retrieverSlot, slot,
      show (machineImage machineCompiled).addr .retriever = 0x17000 from by decide]
    bv_omega
  context i hi := by
    rintro ⟨j, lt, eq⟩
    revert eq
    rw [retrieverSlot, machineContext,
      show (machineImage machineCompiled).addr .retriever = 0x17000 from by decide]
    bv_omega
  gs i hi := by
    rw [retrieverSlot, machineGs,
      show (machineImage machineCompiled).addr .retriever = 0x17000 from by decide]
    bv_omega

/-- The return address is elsewhere. -/
theorem machineCaller_return (number : Word) : ReturnApart (alignStack machineIst) machineContext
    machineGs ((machineCaller number).reg .rcx) where
  stack := by
    rintro ⟨j, one, le, eq⟩
    revert eq
    rw [show alignStack machineIst = 0x2000000 from by decide, slot]
    simp only [machineCaller]
    bv_omega
  context := by
    rintro ⟨j, lt, eq⟩
    revert eq
    simp only [machineCaller, machineContext]
    bv_omega
  gs i hi := by
    simp only [machineCaller, machineGs]
    bv_omega

/-- On the machine the gate is safe for number 149 and unsafe for number 0. -/
theorem gate_safe_iff_machine :
    (GateSafe (machineImage machineCompiled) (machineCaller 149) ↔
      Admissible machineContext (machineCaller 149)) ∧
    Admissible machineContext (machineCaller 149) :=
  ⟨gate_safe_iff machine_kernel (machineCaller_caller 149) (machineCaller_table 149)
    (machineCaller_retrievers 149) (machineCaller_return 149),
    Or.inl ⟨.pid, rfl, fun rd => by cases rd⟩⟩

/-- Number 0 calls the null pointer in the first entry of the table. -/
theorem gate_unsafe_machine : ¬ GateSafe (machineImage machineCompiled) (machineCaller 0) ∧
    ∃ e, Runs (machineImage machineCompiled) ⟨machineCaller 0, syscallDispatch, []⟩ e ∧
      e.indirect = some 0 := by
  refine ⟨gate_unnamed machine_kernel (machineCaller_caller 0) rfl rfl, ?_⟩
  obtain ⟨t, run, called⟩ := syscallDispatch_calls machine_kernel (machineCaller_caller 0) rfl
  refine ⟨_, run.runs, ?_⟩
  show some (t.reg .rax) = some 0
  have entry : tableEntry (machineImage machineCompiled) ((machineCaller 0).reg .rax) = 0xd000 := by
    decide
  rw [called.rax, entry, called.mem]
  · rfl
  · rintro ⟨j, one, le, eq⟩
    rw [show alignStack machineIst = 0x2000000 from by decide, slot] at eq
    bv_omega
  · rintro ⟨j, lt, eq⟩
    rw [machineContext] at eq
    bv_omega
  · decide

end Skylight.Cpu
