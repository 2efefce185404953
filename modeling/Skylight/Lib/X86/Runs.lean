import Mathlib.Algebra.Group.Nat.Defs
import Skylight.Lib.X86.Machine

/-!
# Running assembly text

The rules by which a run is followed: a block of instructions that do not transfer control
is one rule, and so is each kind of transfer. `slot top k` is the place of the quadword
number `k` below the address `top`, so that a stack pointer is known by its slot.

The rules compose into `Runs`, and a run that leaves the text by `iretq` or `sysret` into `Leaves`,
which has one outcome only. `Stacked` says what lies on a stretch of the stack, so that pushes and
pops are one rule each. `Settled` is for text in which every jump stays among symbols of a kind.
Nothing here depends on a program: image, text and symbols are parameters.
-/

namespace Skylight.X86

namespace Cpu

variable (s : Cpu) (r r' : Reg) (a v : Word)

@[simp] theorem set_reg : (s.set r v).reg r' = if r' = r then v else s.reg r' := by
  simp only [set, Function.update_apply]

@[simp] theorem set_cr : (s.set r v).cr = s.cr := rfl
@[simp] theorem set_seg : (s.set r v).seg = s.seg := rfl
@[simp] theorem set_mem : (s.set r v).mem = s.mem := rfl
@[simp] theorem set_gsBase : (s.set r v).gsBase = s.gsBase := rfl
@[simp] theorem set_kernelGsBase : (s.set r v).kernelGsBase = s.kernelGsBase := rfl

@[simp] theorem write_mem (b : Word) :
    (s.write a v).mem b = if b = a then v else s.mem b := by
  simp only [write, Function.update_apply]

@[simp] theorem write_reg : (s.write a v).reg = s.reg := rfl
@[simp] theorem write_cr : (s.write a v).cr = s.cr := rfl
@[simp] theorem write_seg : (s.write a v).seg = s.seg := rfl
@[simp] theorem write_gsBase : (s.write a v).gsBase = s.gsBase := rfl
@[simp] theorem write_kernelGsBase : (s.write a v).kernelGsBase = s.kernelGsBase := rfl

end Cpu

/-- The place of the quadword number `k` below `top`. -/
def slot (top : Word) (k : Nat) : Word := top - BitVec.ofNat 64 (8 * k)

section
variable {top : Word} {j k : Nat}

/-- The slot at the top is the top. -/
theorem slot_zero : slot top 0 = top := BitVec.sub_zero top

@[simp] theorem slot_sub : slot top k - 8#64 = slot top (k + 1) := by
  rw [slot, slot, Nat.mul_succ, BitVec.ofNat_add, BitVec.sub_sub]

@[simp] theorem slot_add : slot top (k + 1) + 8#64 = slot top k := by
  rw [← slot_sub, BitVec.sub_add_cancel]

@[simp] theorem slot_slot : slot (slot top j) k = slot top (j + k) := by
  rw [slot, slot, slot, Nat.mul_add, BitVec.ofNat_add, BitVec.sub_sub]

/-- Counting from the first slot. -/
theorem slot_pred (one : 1 ≤ k) : slot top k = slot (slot top 1) (k - 1) := by
  rw [slot_slot, Nat.add_sub_cancel' one]

/-- A push goes to the first slot. -/
theorem slot_one : top - 8#64 = slot top 1 := by
  rw [← slot_sub, slot_zero]

/-- Slots of different numbers are different addresses, as long as the numbers do not go round. -/
theorem slot_inj (hj : j < 2 ^ 61) (hk : k < 2 ^ 61) : slot top j = slot top k ↔ j = k := by
  constructor
  · intro h
    have := congrArg BitVec.toNat ((BitVec.sub_right_inj top).mp h)
    rw [BitVec.toNat_ofNat, BitVec.toNat_ofNat] at this
    omega
  · rintro rfl
    rfl

end

attribute [simp] exec Cpu.push Cpu.drop Cpu.top

section
variable {S : Type} (addr : S → Word) {s : Cpu} {i : Instr S} {is js : List (Instr S)}

@[simp] theorem execs_nil : execs addr [] s = s := rfl

@[simp] theorem execs_cons : execs addr (i :: is) s = execs addr is (exec addr i s) := rfl

@[simp] theorem execs_append : execs addr (is ++ js) s = execs addr js (execs addr is s) :=
  List.foldl_append

/-- Registers stored to the fields of a record. -/
def stores (b : Reg) (fs : List (Word × Reg)) : List (Instr S) :=
  fs.map fun f => .store b f.1 f.2

/-- Registers loaded from the fields of a record. -/
def loads (b : Reg) (fs : List (Word × Reg)) : List (Instr S) :=
  fs.map fun f => .load f.2 b f.1

variable (b : Reg) (fs : List (Word × Reg)) {r : Reg} {o a : Word}

/-- Storing a record writes to memory only. -/
theorem execs_stores : ∃ mem, execs addr (stores b fs) s = { s with mem := mem } := by
  induction fs generalizing s with
  | nil => exact ⟨s.mem, rfl⟩
  | cons f fs ih => exact ih (s := s.write (s.reg b + f.1) (s.reg f.2))

/-- A block of stores leaves the quadwords it does not name. -/
theorem execs_stores_mem_of_ne (off : ∀ f ∈ fs, a ≠ s.reg b + f.1) :
    (execs addr (stores b fs) s).mem a = s.mem a := by
  induction fs generalizing s with
  | nil => rfl
  | cons f fs ih =>
    rw [List.forall_mem_cons] at off
    show (execs addr (stores b fs) (s.write (s.reg b + f.1) (s.reg f.2))).mem a = _
    rw [ih (by simpa using off.2), Cpu.write_mem, if_neg off.1]

/-- Each register of the block is where its offset says, if no two offsets are one. -/
theorem execs_stores_mem (apart : (fs.map Prod.fst).Nodup) (mem : (o, r) ∈ fs) :
    (execs addr (stores b fs) s).mem (s.reg b + o) = s.reg r := by
  induction fs generalizing s with
  | nil => cases mem
  | cons f fs ih =>
    rw [List.map_cons, List.nodup_cons] at apart
    show (execs addr (stores b fs) (s.write (s.reg b + f.1) (s.reg f.2))).mem _ = _
    rcases List.mem_cons.mp mem with rfl | mem
    · rw [execs_stores_mem_of_ne, Cpu.write_mem, if_pos rfl]
      intro g hg eq
      rw [Cpu.write_reg, BitVec.add_right_inj] at eq
      exact apart.1 (List.mem_map.mpr ⟨g, hg, eq.symm⟩)
    · exact ih (s := s.write (s.reg b + f.1) (s.reg f.2)) apart.2 mem

/-- Loading a record writes to registers only. -/
theorem execs_loads : ∃ reg, execs addr (loads b fs) s = { s with reg := reg } := by
  induction fs generalizing s with
  | nil => exact ⟨s.reg, rfl⟩
  | cons f fs ih => exact ih (s := s.set f.2 (s.mem (s.reg b + f.1)))

/-- A block of loads leaves the registers it does not name. -/
theorem execs_loads_reg_of_ne (off : ∀ f ∈ fs, f.2 ≠ r) :
    (execs addr (loads b fs) s).reg r = s.reg r := by
  induction fs generalizing s with
  | nil => rfl
  | cons f fs ih =>
    rw [List.forall_mem_cons] at off
    show (execs addr (loads b fs) (s.set f.2 (s.mem (s.reg b + f.1)))).reg r = _
    rw [ih off.2, Cpu.set_reg, if_neg off.1.symm]

/-- Each register of the block has what its offset holds. The base must not be loaded on the way,
and no register twice. -/
theorem execs_loads_reg (base : ∀ f ∈ fs, f.2 ≠ b) (apart : (fs.map Prod.snd).Nodup)
    (mem : (o, r) ∈ fs) : (execs addr (loads b fs) s).reg r = s.mem (s.reg b + o) := by
  induction fs generalizing s with
  | nil => cases mem
  | cons f fs ih =>
    rw [List.forall_mem_cons] at base
    rw [List.map_cons, List.nodup_cons] at apart
    show (execs addr (loads b fs) (s.set f.2 (s.mem (s.reg b + f.1)))).reg r = _
    rcases List.mem_cons.mp mem with rfl | mem
    · rw [execs_loads_reg_of_ne, Cpu.set_reg, if_pos rfl]
      intro g hg eq
      exact apart.1 (List.mem_map.mpr ⟨g, hg, eq⟩)
    · rw [ih base.2 apart.2 mem, Cpu.set_mem, Cpu.set_reg, if_neg base.1.symm]

end

/-- The words `ws` lie on the stack below the slot `k`, the first of them uppermost. -/
def Stacked (mem : Word → Word) (top : Word) : Nat → List Word → Prop
  | _, [] => True
  | k, w :: ws => mem (slot top (k + 1)) = w ∧ Stacked mem top (k + 1) ws

section
variable {mem mem' : Word → Word} {top : Word} {j k : Nat} {ws : List Word}

/-- What is on a stretch of the stack depends on its quadwords only. -/
theorem Stacked.congr (h : Stacked mem top k ws)
    (same : ∀ j, k < j → j ≤ k + ws.length → mem' (slot top j) = mem (slot top j)) :
    Stacked mem' top k ws := by
  induction ws generalizing k with
  | nil => trivial
  | cons w ws ih =>
    rw [List.length_cons] at same
    refine ⟨(same _ (Nat.lt_succ_self k) (by omega)).trans h.1, ih h.2 fun j lt le => ?_⟩
    exact same j (Nat.lt_of_succ_lt lt) (by omega)

end

section
variable {S : Type} (addr : S → Word) {s : Cpu} {top : Word} {k : Nat} {rs : List Reg}

/-- Registers pushed one after the other. -/
def pushes (rs : List Reg) : List (Instr S) := rs.map .push

/-- What `pushes` pushed, popped. -/
def pops (rs : List Reg) : List (Instr S) := rs.reverse.map .pop

/-- Pushes put the registers on the stack in their order, move the stack pointer by so many slots,
and change no other quadword. -/
theorem execs_pushes (sp : .rsp ∉ rs) (rsp : s.reg .rsp = slot top k)
    (deep : k + rs.length < 2 ^ 61) :
    ∃ mem, execs addr (pushes rs) s =
        { s with reg := Function.update s.reg .rsp (slot top (k + rs.length)), mem := mem } ∧
      Stacked mem top k (rs.map s.reg) ∧
      ∀ a, (∀ j, k < j → j ≤ k + rs.length → a ≠ slot top j) → mem a = s.mem a := by
  induction rs generalizing s k with
  | nil =>
    refine ⟨s.mem, ?_, trivial, fun _ _ => rfl⟩
    show s = { s with reg := Function.update s.reg .rsp (slot top k) }
    rw [← rsp, Function.update_eq_self]
  | cons r rs ih =>
    rw [List.mem_cons, not_or] at sp
    rw [List.length_cons] at deep
    have rsp' : (s.push (s.reg r)).reg .rsp = slot top (k + 1) := by simp [rsp]
    obtain ⟨mem, eq, on, off⟩ := ih sp.2 rsp' (by omega)
    have off' (a : Word) (h : ∀ j, k + 1 < j → j ≤ k + 1 + rs.length → a ≠ slot top j) :
        mem a = if a = slot top (k + 1) then s.reg r else s.mem a := by
      rw [off a h]
      simp [rsp]
    refine ⟨mem, ?_, ⟨?_, ?_⟩, fun a h => ?_⟩
    · show execs addr (pushes rs) (s.push (s.reg r)) = _
      rw [eq, List.length_cons, Nat.add_right_comm]
      simp only [Cpu.push, Cpu.set, Cpu.write, Function.update_idem]
      rfl
    · rw [off' _ fun j lt le h => ?_, if_pos rfl]
      rw [slot_inj (by omega) (by omega)] at h
      omega
    · have same : rs.map (s.push (s.reg r)).reg = rs.map s.reg :=
        List.map_congr_left fun r' hr' => by
          have ne : r' ≠ .rsp := fun eq => sp.2 (eq ▸ hr')
          simp [ne]
      rwa [same] at on
    · rw [List.length_cons] at h
      rw [off' a fun j lt le => h j (by omega) (by omega), if_neg (h _ (by omega) (by omega))]

/-- Pops take from the stack what lies there into the registers, last first, and change no memory.
-/
theorem execs_pops {v : Reg → Word} (sp : .rsp ∉ rs) (rsp : s.reg .rsp = slot top (k + rs.length))
    (on : Stacked s.mem top k (rs.map v)) :
    ∃ reg, execs addr (pops rs) s = { s with reg := reg } ∧ reg .rsp = slot top k ∧
      (∀ r ∈ rs, reg r = v r) ∧ ∀ r, r ∉ rs → r ≠ .rsp → reg r = s.reg r := by
  induction rs generalizing k with
  | nil => exact ⟨s.reg, rfl, rsp, fun _ h => absurd h List.not_mem_nil,
      fun _ _ _ => rfl⟩
  | cons r rs ih =>
    rw [List.mem_cons, not_or] at sp
    rw [List.length_cons, Nat.add_comm rs.length, ← Nat.add_assoc] at rsp
    obtain ⟨reg, eq, rsp', loaded, kept⟩ := ih sp.2 rsp on.2
    have split : pops (S := S) (r :: rs) = pops rs ++ [.pop r] := by
      rw [pops, List.reverse_cons, List.map_append]
      rfl
    refine ⟨_, by rw [split, execs_append, eq]; rfl, ?_, ?_, ?_⟩
    · simp [Cpu.set, rsp', sp.1]
    · intro r' hr'
      by_cases last : r' = r
      · subst last
        simpa [Cpu.set, rsp', Function.update_apply] using on.1
      · have mem : r' ∈ rs := (List.mem_cons.mp hr').resolve_left last
        have ne : r' ≠ .rsp := fun eq => sp.2 (eq ▸ mem)
        simp [Cpu.set, last, ne, loaded r' mem]
    · intro r' out ne
      rw [List.mem_cons, not_or] at out
      simp [Cpu.set, out.1, ne, kept r' out.2 ne]

end

/-- The low sixteen bits of a register written are what was written. -/
@[simp] theorem low_setLow16 (w : Word) (v : BitVec 16) : (setLow16 w v).setWidth 16 = v := by
  rw [setLow16, BitVec.setWidth_or, BitVec.setWidth_and]
  have none : (~~~0xffff : Word).setWidth 16 = 0 := by decide
  rw [none, BitVec.setWidth_setWidth_of_le _ (by decide), BitVec.setWidth_eq]
  exact (congrArg (· ||| v) BitVec.and_zero).trans BitVec.zero_or

/-- The registers a called function gives back as it found them. -/
def Reg.calleeSaved : Reg → Bool
  | .rbx | .rbp | .rsp | .r12 | .r13 | .r14 | .r15 => true
  | _ => false

/-- A compiled function that keeps to the calling convention: it gives back the registers it
has to, leaves the segments, the GS bases and the control registers alone except that it may
load `cr3`, and does not write to `keep`. -/
structure Returns (keep : Set Word) (cr3 : Word) (s s' : Cpu) : Prop where
  reg : ∀ r, r.calleeSaved = true → s'.reg r = s.reg r
  seg : s'.seg = s.seg
  cr : s'.cr = Function.update s.cr .cr3 cr3
  gsBase : s'.gsBase = s.gsBase
  kernelGsBase : s'.kernelGsBase = s.kernelGsBase
  mem : ∀ a ∈ keep, s'.mem a = s.mem a

section
variable {S : Type} {img : Image S} {s s' : Cpu} {is rest code : List (Instr S)}
  {frames : List (List (Instr S))} {c c' : Config S} {f : S} {r : Reg} {w : Word}

/-- A quiet stretch is a run. -/
theorem Quiet.runs (h : Quiet img c c') : Runs img c c' :=
  Relation.ReflTransGen.mono (fun _ _ step => step.2) _ _ h

/-- Whatever a run reaches lies on a quiet run from the same start, or after it. -/
theorem Quiet.reach (h : Quiet img c c') {d : Config S} (run : Runs img c d) :
    d.indirect = none ∨ Runs img c' d := by
  induction h using Relation.ReflTransGen.head_induction_on with
  | refl => exact Or.inr run
  | head first _ ih =>
    rcases Relation.ReflTransGen.cases_head run with rfl | ⟨e, next, run⟩
    · exact Or.inl first.1
    · rw [first.2] at next
      cases next
      exact ih run

/-- A block that does not transfer control is one rule. -/
theorem quiet_block (plain : is.all Instr.plain = true) :
    Quiet img ⟨s, is ++ rest, frames⟩ ⟨execs img.addr is s, rest, frames⟩ := by
  induction is generalizing s with
  | nil => exact .refl
  | cons i is ih =>
    rw [List.all_cons, Bool.and_eq_true] at plain
    refine .head ?_ (ih plain.2)
    cases i <;> first | exact ⟨rfl, rfl⟩ | exact absurd plain.1 Bool.false_ne_true

/-- A call of text pushes the place behind it and goes on in the text. -/
theorem quiet_call (text : img.code f = some code) :
    Quiet img ⟨s, .call f :: rest, frames⟩ ⟨s.push (img.place rest), code, rest :: frames⟩ := by
  refine .single ⟨rfl, ?_⟩
  show enter img (img.addr f) s rest frames = _
  rw [enter, img.symbol_addr]
  simp only [text]

/-- A call of compiled code is what that code does, and goes on behind the call. -/
theorem quiet_call_compiled (text : img.code f = none) :
    Quiet img ⟨s, .call f :: rest, frames⟩ ⟨img.compiled f s, rest, frames⟩ := by
  refine .single ⟨rfl, ?_⟩
  show enter img (img.addr f) s rest frames = _
  rw [enter, img.symbol_addr]
  simp only [text]

/-- A return goes on behind the call if the place it finds on the stack is that. -/
theorem quiet_ret (found : s.top = img.place rest) :
    Quiet img ⟨s, .ret :: is, rest :: frames⟩ ⟨s.drop, rest, frames⟩ := by
  refine .single ⟨rfl, ?_⟩
  show (if s.top = img.place rest then _ else _) = _
  rw [if_pos found]

/-- A jump to the address of a symbol goes on in its text. -/
theorem jump_text (text : img.code f = some code) :
    jump img (img.addr f) s frames = .go ⟨s, code, frames⟩ := by
  rw [jump, img.symbol_addr, Option.bind_some, text]

/-- `jge` is taken when the comparison before it did not find less. -/
theorem quiet_jge (text : img.code f = some code) (ge : s.less = false) :
    Quiet img ⟨s, .jge f :: rest, frames⟩ ⟨s, code, frames⟩ := by
  refine .single ⟨rfl, ?_⟩
  show (if s.less = true then _ else _) = _
  rw [if_neg (by rw [ge]; exact Bool.false_ne_true)]
  exact jump_text text

/-- And is passed when it did. -/
theorem quiet_jge_not (lt : s.less = true) :
    Quiet img ⟨s, .jge f :: rest, frames⟩ ⟨s, rest, frames⟩ := by
  refine .single ⟨rfl, ?_⟩
  show (if s.less = true then _ else _) = _
  rw [if_pos lt]

/-- `jmp` goes on in the text of its symbol. -/
theorem quiet_jmp (text : img.code f = some code) :
    Quiet img ⟨s, .jmp f :: rest, frames⟩ ⟨s, code, frames⟩ :=
  .single ⟨rfl, jump_text text⟩

/-- A block of plain instructions runs to its end: the rule that most of a routine is followed by.
-/
theorem runs_block (plain : is.all Instr.plain = true) :
    Runs img ⟨s, is ++ rest, frames⟩ ⟨execs img.addr is s, rest, frames⟩ :=
  (quiet_block plain).runs

/-- The rule of a return, as a run. -/
theorem runs_ret (found : s.top = img.place rest) :
    Runs img ⟨s, .ret :: is, rest :: frames⟩ ⟨s.drop, rest, frames⟩ :=
  (quiet_ret found).runs

/-- A call through a register goes where the register holds the address of a text. -/
theorem runs_callReg (at_ : img.symbol (s.reg r) = some f) (text : img.code f = some code) :
    Runs img ⟨s, .callReg r :: rest, frames⟩ ⟨s.push (img.place rest), code, rest :: frames⟩ := by
  refine .single ?_
  show enter img (s.reg r) s rest frames = _
  rw [enter, at_]
  simp only [text]

/-- Or is what the compiled code does, if it holds the address of that. -/
theorem runs_callReg_compiled (at_ : img.symbol (s.reg r) = some f) (text : img.code f = none) :
    Runs img ⟨s, .callReg r :: rest, frames⟩ ⟨img.compiled f s, rest, frames⟩ := by
  refine .single ?_
  show enter img (s.reg r) s rest frames = _
  rw [enter, at_]
  simp only [text]

/-- `jne` is taken when the comparison before it did not find equal. -/
theorem runs_jne (text : img.code f = some code) (ne : s.zero = false) :
    Runs img ⟨s, .jne f :: rest, frames⟩ ⟨s, code, frames⟩ := by
  refine .single ?_
  show (if s.zero = true then _ else _) = _
  rw [if_neg (by rw [ne]; exact Bool.false_ne_true)]
  exact jump_text text

/-- And is passed when it did. -/
theorem runs_jne_not (eq : s.zero = true) :
    Runs img ⟨s, .jne f :: rest, frames⟩ ⟨s, rest, frames⟩ := by
  refine .single ?_
  show (if s.zero = true then _ else _) = _
  rw [if_pos eq]

/-- A jump through a register goes on in the text whose address the register holds. -/
theorem runs_jmpReg (at_ : s.reg r = img.addr f) (text : img.code f = some code) :
    Runs img ⟨s, .jmpReg r :: rest, frames⟩ ⟨s, code, frames⟩ := by
  refine .single ?_
  show jump img (s.reg r) s frames = _
  rw [at_]
  exact jump_text text

/-- `iretq` leaves the text with what the interrupt frame on the stack has. -/
theorem leaves_iretq : Leaves img ⟨s, .iretq :: rest, frames⟩ (interruptReturn s) :=
  ⟨_, .refl, rfl⟩

/-- `sysret` leaves it with the address and the flags that `rcx` and `r11` hold. -/
theorem leaves_sysret : Leaves img ⟨s, .sysret :: rest, frames⟩ (systemReturn s) :=
  ⟨_, .refl, rfl⟩

/-- A run up to where the text is left leaves it so. -/
theorem Runs.leaves (h : Runs img c c') (l : Leaves img c' s) : Leaves img c s := by
  obtain ⟨d, run, out⟩ := l
  exact ⟨d, h.trans run, out⟩

/-- One step has one outcome, so of two runs from a configuration one goes on from the other. -/
theorem Runs.linear {d : Config S} (h : Runs img c c') (h' : Runs img c d) :
    Runs img c' d ∨ Runs img d c' := by
  apply Relation.ReflTransGen.total_of_right_unique ?_ h h'
  intro a b b' hb hb'
  rw [hb] at hb'
  cases hb'
  rfl

/-- The text is left in one state only: a step has one outcome. -/
theorem Leaves.unique {s' : Cpu} (h : Leaves img c s) (h' : Leaves img c s') : s = s' := by
  obtain ⟨d, run, out⟩ := h
  obtain ⟨d', run', out'⟩ := h'
  have last {e e' : Config S} {t : Cpu} (run : Runs img e e') (out : step img e = .leave t) :
      e = e' := by
    rcases Relation.ReflTransGen.cases_head run with eq | ⟨_, next, -⟩
    · exact eq
    · rw [out] at next
      cases next
  have same : d = d' := by
    rcases run.linear run' with on | on
    · exact last on out
    · exact (last on out').symm
  rw [same, out'] at out
  cases out
  rfl

/-- An instruction that goes only to the symbols `calm`, and takes no address from a register. -/
def Instr.within (calm : S → Bool) : Instr S → Bool
  | .jne g | .jge g | .jmp g | .call g => calm g
  | .jmpReg _ | .callReg _ => false
  | _ => true

/-- Nothing left to run goes outside `calm`. -/
structure Settled (calm : S → Bool) (c : Config S) : Prop where
  todo : c.todo.all (Instr.within calm) = true
  frames : ∀ is ∈ c.frames, is.all (Instr.within calm) = true

/-- Settled text does not jump through registers. -/
theorem Settled.indirect {calm : S → Bool} (h : Settled calm c) : c.indirect = none := by
  obtain ⟨todo, -⟩ := h
  unfold Config.indirect
  split
  all_goals first | rfl | simp_all [Instr.within]

section
variable {calm : S → Bool} (closed : ∀ g code, calm g = true → img.code g = some code →
  code.all (Instr.within calm) = true)
include closed

/-- A jump to a settled symbol stays in settled text. -/
theorem Settled.jump {g : S} (hg : calm g = true)
    (frames : ∀ is ∈ c.frames, is.all (Instr.within calm) = true)
    (next : X86.jump img (img.addr g) s c.frames = .go c') : Settled calm c' := by
  rw [X86.jump, img.symbol_addr, Option.bind_some] at next
  cases text : img.code g with
  | none => rw [text] at next; cases next
  | some code =>
    rw [text] at next
    cases next
    exact ⟨closed g code hg text, frames⟩

/-- So does every step. -/
theorem Settled.step (h : Settled calm c) (next : step img c = .go c') : Settled calm c' := by
  obtain ⟨todo, frames⟩ := h
  obtain ⟨t, is, fs⟩ := c
  cases is with
  | nil => cases next
  | cons i rest =>
    rw [List.all_cons, Bool.and_eq_true] at todo
    obtain ⟨here, rest_in⟩ := todo
    cases i with
    | jmpReg r => cases here
    | callReg r => cases here
    | jmp g => exact Settled.jump closed (c := ⟨t, [], fs⟩) here frames next
    | jne g =>
      simp only [X86.step] at next
      split at next
      · cases next
        exact ⟨rest_in, frames⟩
      · exact Settled.jump closed (c := ⟨t, [], fs⟩) here frames next
    | jge g =>
      simp only [X86.step] at next
      split at next
      · cases next
        exact ⟨rest_in, frames⟩
      · exact Settled.jump closed (c := ⟨t, [], fs⟩) here frames next
    | call g =>
      simp only [X86.step, enter, img.symbol_addr] at next
      split at next
      · cases next
        refine ⟨closed g _ here ‹_›, fun is mem => ?_⟩
        rcases List.mem_cons.mp mem with rfl | mem
        · exact rest_in
        · exact frames is mem
      · cases next
        exact ⟨rest_in, frames⟩
    | ret =>
      simp only [X86.step] at next
      split at next
      · cases next
      · split at next
        · cases next
          exact ⟨frames _ (List.mem_cons_self ..),
            fun is mem => frames is (List.mem_cons_of_mem _ mem)⟩
        · cases next
    | iretq => cases next
    | sysret => cases next
    | _ =>
      cases next
      exact ⟨rest_in, frames⟩

/-- From a settled configuration no address is ever taken from a register. -/
theorem Settled.run (h : Settled calm c) (run : Runs img c c') : Settled calm c' := by
  induction run with
  | refl => exact h
  | tail _ next ih => exact ih.step closed next

end

end

end Skylight.X86
