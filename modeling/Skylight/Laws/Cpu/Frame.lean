import Skylight.Laws.Cpu.Irq

/-!
# What an exception's frame says

The stubs push a vector, and an error code where the processor did not, and
`isr_xframe_assembler` pushes every register below them. `isr_exception_handler` gets the
address of that frame. In a task the scratch values on top are popped first; in the kernel
they are not, and the frame it gets starts two quadwords too low.

`xframe_describes_iff` is exact, for every exception and every register file: the handler is
called with the address of a frame that describes the exception just when it was raised in a
task and the stub pushed an error code if and only if the processor did not. What the handler
prints is left to `Laws.Cpu.Backtrace`.
-/

namespace Skylight.Cpu

open X86

/-- The exceptions the processor pushes an error code for. -/
def hardwareCodes : List Vector := [8, 10, 11, 12, 13, 14, 17, 21, 29, 30]

/-- Where `isr_xframe_t` has a control register. -/
def xframeControl : Cr → Word
  | .cr4 => 0x00 | .cr3 => 0x08 | .cr2 => 0x10 | .cr0 => 0x18

/-- Where `isr_xframe_t` has a general register; `rbp` and `rsp` are in its base frame. -/
def xframeGeneral : Reg → Word
  | .r15 => 0x20 | .r14 => 0x28 | .r13 => 0x30 | .r12 => 0x38 | .r11 => 0x40 | .r10 => 0x48
  | .r9 => 0x50 | .r8 => 0x58 | .rdi => 0x60 | .rsi => 0x68 | .rdx => 0x70 | .rcx => 0x78
  | .rbx => 0x80 | .rax => 0x88 | .rbp => 0x90 | .rsp => 0xc0

/-- The `isr_xframe_t` at `a` says what the processor `u` was at the exception. -/
structure Describes (mem : Word → Word) (a : Word) (vector : Vector) (code : Option Word)
    (u : Cpu) : Prop where
  control : ∀ r, mem (a + xframeControl r) = u.cr r
  general : ∀ r, mem (a + xframeGeneral r) = u.reg r
  vector : mem (a + 0x98) = BitVec.ofNat 64 vector.val
  errorCode : mem (a + 0xa0) = code.getD 0
  rip : mem (a + 0xa8) = u.rip
  cs : mem (a + 0xb0) = (u.seg .cs).setWidth 64
  rflags : mem (a + 0xb8) = u.rflags

section
variable {img : Image Symbol} {vector : Vector} {k i j : Nat} {top c pml4 ist : Word} {s u : Cpu}
  {code : Option Word} {mem : Word → Word} {ws : List Word} {w : Word}

/-- A quadword that was pushed is in its slot. -/
theorem Stacked.get (h : Stacked mem top k ws) (at_ : ws[i]? = some w) :
    mem (slot top (k + 1 + i)) = w := by
  induction ws generalizing k i with
  | nil => cases at_
  | cons v ws ih =>
    cases i with
    | zero =>
      cases at_
      exact h.1
    | succ i =>
      rw [← ih h.2 at_]
      congr 2
      omega

/-- Slots are eight bytes apart, and go down. -/
theorem slot_up (le : i ≤ j) : slot top j + BitVec.ofNat 64 (8 * i) = slot top (j - i) := by
  obtain ⟨n, rfl⟩ := Nat.exists_eq_add_of_le' le
  rw [Nat.add_sub_cancel, slot, slot, Nat.mul_add, BitVec.ofNat_add]
  bv_omega

/-- The frame assembled over `k` quadwords: `rbp`, the general and the control registers, and
four quadwords of scratch. -/
structure Assembled (top : Word) (k : Nat) (u s : Cpu) : Prop where
  rsp : s.reg .rsp = slot top (k + 23)
  rbp : s.mem (slot top (k + 1)) = u.reg .rbp
  general : Stacked s.mem top (k + 1) (generalRegisters.map u.reg)
  control : Stacked s.mem top (k + 15) [u.cr .cr0, u.cr .cr2, u.cr .cr3, u.cr .cr4]
  zero : s.mem (slot top (k + 21)) = 0
  gsBase : s.gsBase = u.gsBase
  kernelGsBase : s.kernelGsBase = u.kernelGsBase
  compared : s.zero = decide (u.seg .ds = 0x10)

/-- `isr_xframe_assembler` until it knows whether it interrupted a task. -/
def xframeEntry : Text := [.pop .r15, .push .rbp, .mov .rbp .rsp]

def xframeScratch : Text := pushacrd ++ [.fromSeg .rax .ds, .push .rax, .pushImm 0, .push .r15,
  .push .rax, .clear .rax, .fromSeg .rax .ds, .cmp16 .rax 0x10]

/-- The routine in the pieces its proof takes it in. -/
theorem isrXframeAssembler_eq : isrXframeAssembler = xframeEntry ++ (pushagrd ++
    (xframeScratch ++ (.jne .isrXframeYesTask :: ([.lea .r15 .isrXframeNoTask] ++
      (.jmpReg .r15 :: isrXframeYesTask))))) := rfl

/-- The frame is assembled over what is on the stack. -/
theorem isrXframeAssembler_assembles (deep : k < 100) (rsp : s.reg .rsp = slot top (k + 1))
    (r15 : s.mem (slot top (k + 1)) = u.reg .r15)
    (reg : ∀ r, r ≠ .rsp → r ≠ .r15 → s.reg r = u.reg r) (cr : s.cr = u.cr)
    (ds : s.seg .ds = u.seg .ds) (gs : s.gsBase = u.gsBase)
    (kgs : s.kernelGsBase = u.kernelGsBase) :
    Assembled top k u (execs img.addr (xframeEntry ++ (pushagrd ++ xframeScratch)) s) ∧
    (∀ j ≤ k, (execs img.addr (xframeEntry ++ (pushagrd ++ xframeScratch)) s).mem (slot top j)
      = s.mem (slot top j)) ∧
    ∀ a, a ∉ below (k + 23) top →
      (execs img.addr (xframeEntry ++ (pushagrd ++ xframeScratch)) s).mem a = s.mem a := by
  set s₁ := execs img.addr xframeEntry s with def₁
  have rsp₁ : s₁.reg .rsp = slot top (k + 1) := by simp [def₁, xframeEntry, rsp]
  have reg₁ (r : Reg) (hr : r ∈ generalRegisters) : s₁.reg r = u.reg r := by
    by_cases last : r = .r15
    · subst last
      simp [def₁, xframeEntry, rsp, r15]
    · have sp : r ≠ .rsp := by
        rintro rfl
        revert hr
        decide
      have bp : r ≠ .rbp := by
        rintro rfl
        revert hr
        decide
      simp [def₁, xframeEntry, sp, bp, last, reg r sp last]
  have mem₁ (a : Word) : s₁.mem a = if a = slot top (k + 1) then u.reg .rbp else s.mem a := by
    simp [def₁, xframeEntry, rsp, reg]
  obtain ⟨mem₂, eq₂, on₂, off₂⟩ := @execs_pushes _ img.addr _ _ _ generalRegisters (by decide) rsp₁
    (Nat.lt_of_lt_of_le (Nat.add_lt_add_right (Nat.add_lt_add_right deep 1) _) (by decide))
  set s₂ := execs img.addr (pushes generalRegisters) s₁
  have rsp₂ : s₂.reg .rsp = slot top (k + 15) := by
    simp [eq₂]
    rfl
  set s₃ := execs img.addr xframeScratch s₂ with def₃
  have rsp₃ : s₃.reg .rsp = slot top (k + 23) := by
    simp [def₃, xframeScratch, pushacrd, rsp₂]
  have slot_eq (i j : Nat) (hi : i < 100) (hj : j < 100) :
      slot top (k + i) = slot top (k + j) ↔ i = j := by
    rw [slot_inj (by omega) (by omega), Nat.add_left_cancel_iff]
  have low_eq (j : Nat) (hj : j ≤ k + 15) (i : Nat) (lo : 16 ≤ i) (hi : i < 100) :
      (slot top j = slot top (k + i)) = False := by
    rw [slot_inj (by omega) (by omega)]
    exact eq_false (by omega)
  have high₃ : s₃.mem (slot top (k + 16)) = s₂.cr .cr0 ∧ s₃.mem (slot top (k + 17)) = s₂.cr .cr2 ∧
      s₃.mem (slot top (k + 18)) = s₂.cr .cr3 ∧ s₃.mem (slot top (k + 19)) = s₂.cr .cr4 ∧
      s₃.mem (slot top (k + 21)) = 0 := by
    simp [def₃, xframeScratch, pushacrd, rsp₂, Nat.add_assoc, slot_eq]
  have low₃ (j : Nat) (hj : j ≤ k + 15) : s₃.mem (slot top j) = mem₂ (slot top j) := by
    have kept : s₃.mem (slot top j) = s₂.mem (slot top j) := by
      simp [def₃, xframeScratch, pushacrd, rsp₂, Nat.add_assoc, low_eq j hj]
    rw [kept, eq₂]
  have cr₂ : s₂.cr = u.cr := by
    rw [eq₂, ← cr]
    simp [def₁, xframeEntry]
  have below₂ (j : Nat) (hj : j ≤ k + 1) : mem₂ (slot top j) = s₁.mem (slot top j) := by
    apply off₂
    intro i lt le eq
    have len : generalRegisters.length = 14 := rfl
    rw [slot_inj (by omega) (by omega)] at eq
    omega
  have all : execs img.addr (xframeEntry ++ (pushagrd ++ xframeScratch)) s = s₃ := by
    rw [execs_append, execs_append, pushagrd_eq]
  rw [all]
  rw [cr₂] at high₃
  refine ⟨?_, fun j hj => ?_, fun a off => ?_⟩
  · constructor
    case rsp => exact rsp₃
    case rbp => rw [low₃ _ (by omega), below₂ _ (Nat.le_refl _), mem₁, if_pos rfl]
    case general =>
      have same : generalRegisters.map s₁.reg = generalRegisters.map u.reg :=
        List.map_congr_left reg₁
      rw [same] at on₂
      refine on₂.congr fun j lt le => low₃ j ?_
      rw [List.length_map] at le
      exact le
    case control => exact ⟨high₃.1, high₃.2.1, high₃.2.2.1, high₃.2.2.2.1, trivial⟩
    case zero => exact high₃.2.2.2.2
    case gsBase => simp [def₃, xframeScratch, pushacrd, eq₂, def₁, xframeEntry, gs]
    case kernelGsBase => simp [def₃, xframeScratch, pushacrd, eq₂, def₁, xframeEntry, kgs]
    case compared => simp [def₃, xframeScratch, pushacrd, eq₂, def₁, xframeEntry, ds]
  · have ne : slot top j ≠ slot top (k + 1) := fun eq => by
      rw [slot_inj (by omega) (by omega)] at eq
      omega
    rw [low₃ _ (by omega), below₂ _ (by omega), mem₁, if_neg ne]
  · have ne (j : Nat) (one : 1 ≤ j) (le : j ≤ k + 23) : a ≠ slot top j := fun eq =>
      off ⟨j, one, le, eq⟩
    have kept : s₃.mem a = s₂.mem a := by
      have ne' (i : Nat) (lo : 16 ≤ i) (hi : i ≤ 23) : (a = slot top (k + i)) = False :=
        eq_false (ne _ (by omega) (by omega))
      simp [def₃, xframeScratch, pushacrd, rsp₂, Nat.add_assoc, ne']
    have len : generalRegisters.length = 14 := rfl
    rw [kept, eq₂]
    show mem₂ a = s.mem a
    rw [off₂ a fun j lt le => ne j (by omega) (by omega), mem₁, if_neg (ne _ (by omega) (by omega))]

/-- What a stub pushes before it goes to `isr_xframe_assembler`. -/
def stubPushes (vector : Vector) : Text := (if vector ∈ errStubs then [] else [.pushImm 0]) ++
  [.pushImm (BitVec.ofNat 64 vector.val), .push .r15, .lea .r15 .isrXframeAssembler]

/-- A stub pushes, and goes on to the routine. -/
theorem isrStub_eq : isrStub vector = stubPushes vector ++ [.jmpReg .r15] := by
  unfold isrStub stubPushes
  split <;> rfl

/-- How many quadwords the processor pushes. -/
def codeDepth (code : Option Word) : Nat := if code.isSome then 6 else 5

/-- How many the processor and the stub push, `r15` apart. -/
def baseDepth (vector : Vector) (code : Option Word) : Nat :=
  codeDepth code + if vector ∈ errStubs then 1 else 2

/-- The processor at the first instruction of a stub. -/
structure Entered (top : Word) (code : Option Word) (u s : Cpu) : Prop where
  rsp : s.reg .rsp = slot top (codeDepth code)
  pushed : Pushed top u s.mem
  hardware : ∀ e, code = some e → s.mem (slot top 6) = e
  reg : ∀ r, r ≠ .rsp → s.reg r = u.reg r
  mem : ∀ a, a ∉ below 6 top → s.mem a = u.mem a
  cr : s.cr = u.cr
  ds : s.seg .ds = u.seg .ds
  gsBase : s.gsBase = u.gsBase
  kernelGsBase : s.kernelGsBase = u.kernelGsBase

/-- What the processor does at an exception. -/
theorem interrupt_entered (code : Option Word) (ist : Word) (u : Cpu) :
    Entered (alignStack ist) code u (interrupt ist code u) := by
  have ne (a : Word) (off : a ∉ below 6 (alignStack ist)) (j : Nat) (one : 1 ≤ j) (le : j ≤ 6) :
      (a = slot (alignStack ist) j) = False := eq_false fun eq => off ⟨j, one, le, eq⟩
  cases code with
  | none =>
    constructor
    case pushed => exact interrupt_pushed
    case reg => intro r sp; simp [interrupt, sp]
    case mem => intro a off; simp [interrupt, slot_one, ne a off]
    case hardware => intro e h; cases h
    all_goals simp [interrupt, slot_one, codeDepth]
  | some e =>
    constructor
    case pushed => constructor <;> simp [interrupt, slot_one, slot_inj]
    case reg => intro r sp; simp [interrupt, sp]
    case mem => intro a off; simp [interrupt, slot_one, ne a off]
    case hardware => intro e' h; cases h; simp [interrupt, slot_one]
    all_goals simp [interrupt, slot_one, codeDepth]

/-- It pushes six quadwords at most. -/
theorem codeDepth_le (code : Option Word) : codeDepth code ≤ 6 := by
  unfold codeDepth
  split <;> omega

/-- The processor at the first instruction of `isr_xframe_assembler`. -/
structure Stubbed (top : Word) (vector : Vector) (code : Option Word) (u t s : Cpu) : Prop where
  rsp : s.reg .rsp = slot top (baseDepth vector code + 1)
  r15 : s.mem (slot top (baseDepth vector code + 1)) = u.reg .r15
  number : s.mem (slot top (baseDepth vector code)) = BitVec.ofNat 64 vector.val
  zero : vector ∉ errStubs → s.mem (slot top (baseDepth vector code - 1)) = 0
  entry : ∀ j ≤ codeDepth code, s.mem (slot top j) = t.mem (slot top j)
  reg : ∀ r, r ≠ .rsp → r ≠ .r15 → s.reg r = u.reg r
  mem : ∀ a, a ∉ below 9 top → s.mem a = u.mem a
  cr : s.cr = u.cr
  ds : s.seg .ds = u.seg .ds
  gsBase : s.gsBase = u.gsBase
  kernelGsBase : s.kernelGsBase = u.kernelGsBase

/-- What the stub adds. -/
theorem stubPushes_stubbed {t : Cpu} (E : Entered top code u t) :
    Stubbed top vector code u t (execs img.addr (stubPushes vector) t) ∧
    (execs img.addr (stubPushes vector) t).reg .r15 = img.addr .isrXframeAssembler := by
  have le := codeDepth_le code
  have slot_eq (i j : Nat) (hi : i < 100) (hj : j < 100) :
      slot top (codeDepth code + i) = slot top (codeDepth code + j) ↔ i = j := by
    rw [slot_inj (by omega) (by omega), Nat.add_left_cancel_iff]
  have low (j : Nat) (hj : j ≤ codeDepth code) (i : Nat) (lo : 1 ≤ i) (hi : i < 100) :
      (slot top j = slot top (codeDepth code + i)) = False := by
    rw [slot_inj (by omega) (by omega)]
    exact eq_false (by omega)
  have off (a : Word) (ha : a ∉ below 9 top) (i : Nat) (lo : 1 ≤ i) (hi : i ≤ 3) :
      (a = slot top (codeDepth code + i)) = False :=
    eq_false fun eq => ha ⟨_, by omega, by omega, eq⟩
  have frame (a : Word) (ha : a ∉ below 9 top) : t.mem a = u.mem a :=
    E.mem a fun ⟨j, one, le, eq⟩ => ha ⟨j, one, Nat.le_trans le (by decide), eq⟩
  by_cases err : vector ∈ errStubs
  · refine ⟨?_, by simp [stubPushes, err]⟩
    constructor
    case reg => intro r sp last; simp [stubPushes, err, sp, last, E.reg r sp]
    case mem =>
      intro a ha
      simp [stubPushes, err, E.rsp, Nat.add_assoc, off a ha, frame a ha]
    case entry =>
      intro j hj
      simp [stubPushes, err, E.rsp, Nat.add_assoc, low j hj]
    case zero => exact fun h => absurd err h
    all_goals simp [stubPushes, err, baseDepth, E.rsp, E.reg, E.cr, E.ds, E.gsBase,
      E.kernelGsBase, Nat.add_assoc, slot_eq]
  · refine ⟨?_, by simp [stubPushes, err]⟩
    constructor
    case reg => intro r sp last; simp [stubPushes, err, sp, last, E.reg r sp]
    case mem =>
      intro a ha
      simp [stubPushes, err, E.rsp, Nat.add_assoc, off a ha, frame a ha]
    case entry =>
      intro j hj
      simp [stubPushes, err, E.rsp, Nat.add_assoc, low j hj]
    all_goals simp [stubPushes, err, baseDepth, E.rsp, E.reg, E.cr, E.ds, E.gsBase,
      E.kernelGsBase, Nat.add_assoc, slot_eq]

/-- What the frame is when `isr_xframe_assembler` has built it. -/
structure Framed (top : Word) (vector : Vector) (code : Option Word) (u s : Cpu) : Prop where
  assembled : Assembled top (baseDepth vector code) u s
  pushed : Pushed top u s.mem
  hardware : ∀ e, code = some e → s.mem (slot top 6) = e
  number : s.mem (slot top (baseDepth vector code)) = BitVec.ofNat 64 vector.val
  zero : vector ∉ errStubs → s.mem (slot top (baseDepth vector code - 1)) = 0
  mem : ∀ a, a ∉ below 32 top → s.mem a = u.mem a

/-- A stub runs to the place where task and kernel part, with the frame built. -/
theorem isrStub_frames (K : Kernel img pml4) (vector : Vector) (code : Option Word) (ist : Word)
    (u : Cpu) : ∃ s, Runs img ⟨interrupt ist code u, isrStub vector, []⟩
        ⟨s, .jne .isrXframeYesTask :: ([.lea .r15 .isrXframeNoTask] ++
          (.jmpReg .r15 :: isrXframeYesTask)), []⟩ ∧
      Framed (alignStack ist) vector code u s := by
  have E := interrupt_entered code ist u
  set top := alignStack ist
  set t := interrupt ist code u
  obtain ⟨S, target⟩ := @stubPushes_stubbed img vector _ _ _ _ E
  set s := execs img.addr (stubPushes vector) t
  have depth : codeDepth code + 1 ≤ baseDepth vector code ∧ baseDepth vector code ≤ 8 := by
    have := codeDepth_le code
    unfold baseDepth
    split <;> omega
  obtain ⟨A, low, far⟩ := @isrXframeAssembler_assembles img _ _ _ u (by omega) S.rsp S.r15
    S.reg S.cr S.ds S.gsBase S.kernelGsBase
  set f := execs img.addr (xframeEntry ++ (pushagrd ++ xframeScratch)) s with deff
  have run : Runs img ⟨t, isrStub vector, []⟩ ⟨f, .jne .isrXframeYesTask ::
      ([.lea .r15 .isrXframeNoTask] ++ (.jmpReg .r15 :: isrXframeYesTask)), []⟩ := by
    have plain : (stubPushes vector).all Instr.plain = true := by
      unfold stubPushes
      split <;> rfl
    have jump : Runs img ⟨s, [.jmpReg .r15], []⟩ ⟨s, isrXframeAssembler, []⟩ :=
      runs_jmpReg target (by rw [K.text]; rfl)
    rw [isrStub_eq]
    refine (runs_block plain).trans (jump.trans ?_)
    rw [isrXframeAssembler_eq, deff, execs_append, execs_append]
    exact (runs_block rfl).trans ((runs_block rfl).trans (runs_block rfl))
  refine ⟨f, run, A, ?_, ?_, ?_, ?_, ?_⟩
  · have five : 5 ≤ codeDepth code := by
      unfold codeDepth
      split <;> omega
    refine E.pushed.congr fun j one le => ?_
    rw [low j (by omega), S.entry j (by omega)]
  · rintro e rfl
    rw [low 6 (by simp [codeDepth] at depth; omega), S.entry 6 (by simp [codeDepth]),
      E.hardware e rfl]
  · rw [low _ (Nat.le_refl _), S.number]
  · intro h
    rw [low _ (Nat.sub_le _ _), S.zero h]
  · intro a off
    rw [far a fun ⟨j, one, le, eq⟩ => off ⟨j, one, by omega, eq⟩,
      S.mem a fun ⟨j, one, le, eq⟩ => off ⟨j, one, by omega, eq⟩]

/-- A frame in its place describes the exception when the stub pushed what the processor had
left out. -/
theorem Framed.describes (h : Framed top vector code u s) (seven : baseDepth vector code = 7)
    (matched : code = none → vector ∉ errStubs)
    (same : ∀ j, 1 ≤ j → j ≤ 26 → mem (slot top j) = s.mem (slot top j)) :
    Describes mem (slot top 26) vector code u := by
  obtain ⟨A, P, hardware, number, zero, -⟩ := h
  rw [seven] at A number zero
  have field (i : Nat) (hi : i ≤ 25) :
      mem (slot top 26 + BitVec.ofNat 64 (8 * i)) = s.mem (slot top (26 - i)) := by
    rw [slot_up (by omega), same _ (by omega) (by omega)]
  constructor
  case control =>
    intro r
    cases r with
    | cr4 => exact (field 0 (by decide)).trans (Stacked.get A.control (i := 3) rfl)
    | cr3 => exact (field 1 (by decide)).trans (Stacked.get A.control (i := 2) rfl)
    | cr2 => exact (field 2 (by decide)).trans (Stacked.get A.control (i := 1) rfl)
    | cr0 => exact (field 3 (by decide)).trans (Stacked.get A.control (i := 0) rfl)
  case general =>
    intro r
    by_cases sp : r = .rsp
    · rw [sp]
      exact (field 24 (by decide)).trans P.rsp
    by_cases bp : r = .rbp
    · rw [bp]
      exact (field 18 (by decide)).trans A.rbp
    obtain ⟨i, lt, rfl⟩ := List.getElem_of_mem (mem_generalRegisters sp bp)
    have place : ∀ i (h : i < generalRegisters.length),
        xframeGeneral generalRegisters[i] = BitVec.ofNat 64 (8 * (17 - i)) := by decide
    have fourteen : i < 14 := lt
    rw [place i lt, field _ (by omega),
      ← Stacked.get A.general (i := i) (w := u.reg generalRegisters[i])
      (by rw [List.getElem?_map, List.getElem?_eq_getElem lt]; rfl)]
    congr 2
    omega
  case vector => exact (field 19 (by decide)).trans number
  case errorCode =>
    refine (field 20 (by decide)).trans ?_
    cases code with
    | none => exact zero (matched rfl)
    | some e => exact hardware e rfl
  case rip => exact (field 21 (by decide)).trans P.rip
  case cs => exact (field 22 (by decide)).trans P.cs
  case rflags => exact (field 23 (by decide)).trans P.rflags

/-- A second error code under the processor's moves the base frame by one quadword. -/
theorem Framed.not_describes (h : Framed top vector code u s) (eight : baseDepth vector code = 8)
    (unmatched : vector ∉ errStubs) (some_ : code.isSome = true) (bit : u.rflags.getLsbD 1 = true)
    (same : ∀ j, 1 ≤ j → j ≤ 27 → mem (slot top j) = s.mem (slot top j)) :
    ¬ Describes mem (slot top 27) vector code u := by
  obtain ⟨A, P, hardware, number, zero, -⟩ := h
  rw [eight] at zero
  intro D
  have field (i : Nat) (hi : i ≤ 26) :
      mem (slot top 27 + BitVec.ofNat 64 (8 * i)) = s.mem (slot top (27 - i)) := by
    rw [slot_up (by omega), same _ (by omega) (by omega)]
  obtain ⟨e, rfl⟩ := Option.isSome_iff_exists.mp some_
  have code_zero : e = 0 :=
    D.errorCode.symm.trans ((field 20 (by decide)).trans (zero unmatched))
  have rip_zero : u.rip = e := D.rip.symm.trans ((field 21 (by decide)).trans (hardware e rfl))
  have cs_zero := D.cs.symm.trans ((field 22 (by decide)).trans P.rip)
  have flags_zero := D.rflags.symm.trans ((field 23 (by decide)).trans P.cs)
  rw [flags_zero, cs_zero, rip_zero, code_zero] at bit
  cases bit

/-- The call of the handler. -/
def xframeCall : Text := [.leaDisp .rdi .rsp 0x10, .lea .r15 .isrExceptionHandler]

/-- In the kernel the handler is called first. -/
theorem isrXframeNoTask_eq : ∃ rest, isrXframeNoTask = xframeCall ++ (.callReg .r15 :: rest) :=
  ⟨_, rfl⟩

/-- In a task the context is saved before that. -/
theorem isrXframeYesTask_eq : ∃ rest, isrXframeYesTask = taskSwitch ++ (.callReg .r15 ::
    ([.storeGs 0x20 .rax] ++ (xframeCall ++ (.callReg .r15 :: rest)))) := ⟨_, rfl⟩

/-- An exception in a task: its context and gs page are apart from the stack. -/
structure TaskFaults (img : Image Symbol) (ist : Word) (u : Cpu) : Prop where
  apart : Apart 8400 (slot (alignStack ist) 1) (u.mem (u.kernelGsBase + 0x20#64)) u.kernelGsBase
    (img.addr .safeR15)

/-- In a task the handler gets the frame. -/
theorem isrStub_task (K : Kernel img pml4) (vector : Vector) (code : Option Word)
    (task : u.seg .ds ≠ 0x10) (T : TaskFaults img ist u) :
    ∃ s f rest, Runs img ⟨interrupt ist code u, isrStub vector, []⟩
        ⟨s, .callReg .r15 :: rest, []⟩ ∧
      s.reg .r15 = img.addr .isrExceptionHandler ∧
      s.reg .rdi = slot (alignStack ist) (baseDepth vector code + 19) ∧
      Framed (alignStack ist) vector code u f ∧
      ∀ j, 1 ≤ j → j ≤ baseDepth vector code + 19 →
        s.mem (slot (alignStack ist) j) = f.mem (slot (alignStack ist) j) := by
  obtain ⟨f, run, F⟩ := isrStub_frames K vector code ist u
  obtain ⟨rest, text⟩ := isrXframeYesTask_eq
  have A := F.assembled
  have deep : baseDepth vector code ≤ 8 := by
    have := codeDepth_le code
    unfold baseDepth
    split <;> omega
  have ctx : f.mem (f.kernelGsBase + 0x20#64) = u.mem (u.kernelGsBase + 0x20#64) := by
    rw [A.kernelGsBase, F.mem]
    rintro ⟨j, one, le, eq⟩
    rw [slot_pred one] at eq
    exact T.apart.stack_gs _ _ (by omega) (by decide) eq.symm
  have apart := T.apart
  generalize u.mem (u.kernelGsBase + 0x20#64) = c at apart ctx
  obtain ⟨A₂, slots₂⟩ : Apart 8300 (slot (alignStack ist) (baseDepth vector code + 21)) c
      f.kernelGsBase (img.addr .safeR15) ∧
      ∀ k, slot (slot (alignStack ist) (baseDepth vector code + 21)) k =
        slot (alignStack ist) (baseDepth vector code + 21 + k) := by
    have A₂ := apart.below (k := baseDepth vector code + 20) (m := 8300) (by omega)
    rw [slot_slot, show 1 + (baseDepth vector code + 20) = baseDepth vector code + 21 by omega,
      ← A.kernelGsBase] at A₂
    exact ⟨A₂, fun k => slot_slot⟩
  obtain ⟨s, run₂, rsp₂, -, -, -, -, -, -, mem₂⟩ := taskSwitch_runs
    (u := fun r => if r = .rax then f.mem (slot (alignStack ist) (baseDepth vector code + 23))
      else if r = .r15 then f.mem (slot (alignStack ist) (baseDepth vector code + 22))
      else f.reg r) (xframeCall ++ (.callReg .r15 :: rest)) [] K A₂
    (by rw [slots₂]; exact A.rsp) (by rw [slots₂, if_pos rfl])
    (by rw [slots₂, if_neg (by decide), if_pos rfl])
    (fun r _ ax last => by rw [if_neg ax, if_neg last]) ctx
  rw [slots₂] at rsp₂ mem₂
  have jump : Runs img ⟨f, .jne .isrXframeYesTask :: ([.lea .r15 .isrXframeNoTask] ++
      (.jmpReg .r15 :: isrXframeYesTask)), []⟩ ⟨f, isrXframeYesTask, []⟩ := by
    refine runs_jne (by rw [K.text]; rfl) ?_
    rw [A.compared]
    exact decide_eq_false task
  rw [← text] at run₂
  refine ⟨execs img.addr xframeCall s, f, rest, run.trans (jump.trans (run₂.trans
    (runs_block rfl))), ?_, ?_, F, fun j one le => ?_⟩
  · simp [xframeCall]
  · have two : slot (alignStack ist) (baseDepth vector code + 21) + 0x10#64 =
        slot (alignStack ist) (baseDepth vector code + 19) := slot_up (i := 2) (by omega)
    simp [xframeCall, rsp₂, two]
  · have same : (execs img.addr xframeCall s).mem = s.mem := by simp [xframeCall]
    rw [same]
    refine mem₂ _ (slot_not_below (by omega) (by omega)) ?_ ?_
    · rw [slot_pred one]
      exact apart.stack_not_context (by omega)
    · rw [slot_pred one]
      exact apart.stack_safe _ (by omega)

/-- In the kernel the handler gets an address two quadwords below the frame's. -/
theorem isrStub_kernel (K : Kernel img pml4) (vector : Vector) (code : Option Word)
    (kernel : u.seg .ds = 0x10) :
    ∃ s f rest, Runs img ⟨interrupt ist code u, isrStub vector, []⟩
        ⟨s, .callReg .r15 :: rest, []⟩ ∧
      s.reg .r15 = img.addr .isrExceptionHandler ∧
      s.reg .rdi = slot (alignStack ist) (baseDepth vector code + 21) ∧
      Framed (alignStack ist) vector code u f ∧ s.mem = f.mem := by
  obtain ⟨f, run, F⟩ := isrStub_frames K vector code ist u
  set t := execs img.addr xframeCall (f.set .r15 (img.addr .isrXframeNoTask)) with deft
  have jump : Runs img ⟨f, .jne .isrXframeYesTask :: ([.lea .r15 .isrXframeNoTask] ++
      (.jmpReg .r15 :: isrXframeYesTask)), []⟩
      ⟨f.set .r15 (img.addr .isrXframeNoTask), isrXframeNoTask, []⟩ := by
    refine (runs_jne_not ?_).trans ((runs_block rfl).trans (runs_jmpReg
      (f := Symbol.isrXframeNoTask) (by simp) (by rw [K.text]; rfl)))
    rw [F.assembled.compared, kernel]
    rfl
  obtain ⟨rest, text⟩ := isrXframeNoTask_eq
  rw [text] at jump
  refine ⟨t, f, rest, run.trans (jump.trans (runs_block rfl)), ?_, ?_, F, ?_⟩
  · simp [deft, xframeCall]
  · have two : slot (alignStack ist) (baseDepth vector code + 23) + 0x10#64 =
        slot (alignStack ist) (baseDepth vector code + 21) := slot_up (i := 2) (by omega)
    simp [deft, xframeCall, F.assembled.rsp, two]
  · simp [deft, xframeCall]

/-- The handler gets a frame that describes the exception exactly when it was raised in a task
and its vector is not one of the two whose error code the stub does not expect. In long mode
`cr4` is not zero, and bit 1 of the flags is always set. -/
theorem xframe_describes_iff (K : Kernel img pml4) (vector : Vector) (code : Option Word)
    (hardware : code.isSome = true ↔ vector ∈ hardwareCodes)
    (T : u.seg .ds ≠ 0x10 → TaskFaults img ist u) (long : u.cr .cr4 ≠ 0)
    (bit : u.rflags.getLsbD 1 = true) :
    ∃ s rest, Runs img ⟨interrupt ist code u, isrStub vector, []⟩ ⟨s, .callReg .r15 :: rest, []⟩ ∧
      s.reg .r15 = img.addr .isrExceptionHandler ∧
      (Describes s.mem (s.reg .rdi) vector code u ↔
        u.seg .ds ≠ 0x10 ∧ vector ≠ 21 ∧ vector ≠ 29) := by
  have only : ∀ v ∈ hardwareCodes, v ∈ errStubs ∨ v = 21 ∨ v = 29 := by
    simp [hardwareCodes, errStubs]
  have apart : ∀ v ∈ errStubs, v ∈ hardwareCodes ∧ v ≠ 21 ∧ v ≠ 29 := by
    simp [hardwareCodes, errStubs]
  -- from the kernel the frame starts with two scratch quadwords: `cr4` is read as zero
  by_cases ds : u.seg .ds = 0x10
  · obtain ⟨s, f, rest, run, target, rdi, F, mem⟩ := @isrStub_kernel _ _ ist _ K vector code ds
    refine ⟨s, rest, run, target, iff_of_false (fun D => long ?_) fun h => h.1 ds⟩
    rw [← D.control .cr4, rdi, mem]
    exact (congrArg f.mem (BitVec.add_zero _)).trans F.assembled.zero
  · obtain ⟨s, f, rest, run, target, rdi, F, mem⟩ := isrStub_task K vector code ds (T ds)
    refine ⟨s, rest, run, target, ?_⟩
    rw [rdi]
    by_cases err : vector ∈ errStubs
    · have some_ : code.isSome = true := hardware.mpr (apart vector err).1
      have seven : baseDepth vector code = 7 := by simp [baseDepth, codeDepth, err, some_]
      rw [seven] at mem ⊢
      refine iff_of_true (F.describes seven (fun h => by rw [h] at some_; cases some_) mem)
        ⟨ds, (apart vector err).2⟩
    -- vectors 21 and 29 push a code that their stub takes for none
    · by_cases some_ : code.isSome = true
      · have eight : baseDepth vector code = 8 := by simp [baseDepth, codeDepth, err, some_]
        rw [eight] at mem ⊢
        refine iff_of_false (F.not_describes eight err some_ bit mem) fun ⟨_, h, h'⟩ => ?_
        rcases (only vector (hardware.mp some_)).resolve_left err with eq | eq
        · exact h eq
        · exact h' eq
      · have seven : baseDepth vector code = 7 := by simp [baseDepth, codeDepth, err, some_]
        rw [seven] at mem ⊢
        refine iff_of_true (F.describes seven (fun _ => err) mem) ⟨ds, ?_, ?_⟩
        · rintro rfl
          exact some_ (hardware.mpr (by decide))
        · rintro rfl
          exact some_ (hardware.mpr (by decide))

end

/-- A page fault in a task of the machine is described. -/
theorem xframe_describes_iff_machine :
    ∃ s rest, Runs (machineImage machineCompiled)
        ⟨interrupt machineIst (some 2) (machineCpu 0x1b), isrStub 14, []⟩
        ⟨s, .callReg .r15 :: rest, []⟩ ∧
      Describes s.mem (s.reg .rdi) 14 (some 2) (machineCpu 0x1b) := by
  obtain ⟨s, rest, run, -, iff⟩ := xframe_describes_iff (u := machineCpu 0x1b) machine_kernel 14
    (some 2) (by simp [hardwareCodes]) (fun _ => ⟨machine_apart⟩) (by decide) (by decide)
  exact ⟨s, rest, run, iff.mpr (by decide)⟩

/-- The same fault in the kernel: the handler finds `rax` where the vector should be. -/
theorem xframe_kernel_machine :
    ∃ s rest, Runs (machineImage machineCompiled)
        ⟨interrupt machineIst (some 2) (machineCpu 0x10), isrStub 14, []⟩
        ⟨s, .callReg .r15 :: rest, []⟩ ∧
      s.reg .r15 = (machineImage machineCompiled).addr .isrExceptionHandler ∧
      s.mem (s.reg .rdi + 0x98) = 0x700000 ∧
      ¬ Describes s.mem (s.reg .rdi) 14 (some 2) (machineCpu 0x10) := by
  obtain ⟨s, f, rest, run, target, rdi, F, mem⟩ := @isrStub_kernel _ _ machineIst
    (machineCpu 0x10) machine_kernel 14 (some 2) rfl
  have rax : s.mem (s.reg .rdi + 0x98) = 0x700000 := by
    have place : slot (alignStack machineIst) 28 + BitVec.ofNat 64 (8 * 19) =
        slot (alignStack machineIst) 9 := slot_up (by decide)
    rw [rdi, mem]
    exact (congrArg f.mem place).trans F.assembled.general.1
  refine ⟨s, rest, run, target, rax, fun D => ?_⟩
  have number := D.vector
  rw [rax] at number
  revert number
  decide

end Skylight.Cpu
