import Skylight.Cpu.Idt
import Skylight.Laws.Cpu.Machine
import Skylight.Lib.Slots
import Skylight.Lib.Steps

/-!
# Vectors and their stubs

Drivers take vectors, install handlers on the ones they hold and give them back. The table of
vectors says what is held, and what is installed has its handler; but there are stubs for seven
vectors only, so a descriptor is right just when its vector is one of these.
-/

namespace Skylight.Idt

open X86 (Word)
open Cpu (Vector Symbol Text)

/-- The address in a descriptor. -/
def Descriptor.isr (d : Descriptor) : Word :=
  d.baseLow.setWidth 64 ||| d.baseMid.setWidth 64 <<< 16 ||| d.baseHigh.setWidth 64 <<< 32

/-- The entries of `__routine_handlers` that a text calls through. -/
def dispatches : Text → List Word
  | .lea .r15 .routineHandlers :: .load .r15 .r15 entry :: .callReg .r15 :: rest =>
    entry :: dispatches rest
  | _ :: rest => dispatches rest
  | [] => []

/-- A stub calls through the entry of the vector, and through no other. -/
structure Dispatches (stub : Symbol) (vector : Vector) : Prop where
  text : ∃ text, stub.text = some text ∧ dispatches text ≠ [] ∧
    ∀ entry ∈ dispatches text, entry = BitVec.ofNat 64 (vector.val * 8)

/-- The descriptor of the vector is that of a stub of `isr.s` which calls the vector's handler. -/
def Describes (addr : Symbol → Word) (s : State) (vector : Vector) : Prop :=
  ∃ stub ∈ irqStubs, Dispatches (.irqStub stub) vector ∧ (s.idt vector).isr = addr (.irqStub stub)

/-- What a driver does. The words behind the table of stubs are as they are at that time. -/
inductive Op
  | allocate
  | install (vector : Vector) (handler : Word) (behind : Vector → Word)
  | free (vector : Vector)

/-- The table, and the vectors that were handed out. -/
structure Client where
  state : State
  held : List Vector

/-- A driver installs handlers on vectors it holds, and gives these back. -/
def step (addr : Symbol → Word) (c : Client) : Op → Option Client
  | .allocate =>
    let (vector, state) := idtAllocateVector c.state
    some ⟨state, if vector = 0 then c.held else vector :: c.held⟩
  | .install vector handler behind =>
    if vector ∈ c.held then
      some { c with state := idtInstallIrqHandler addr behind vector handler c.state }
    else none
  | .free vector =>
    if vector ∈ c.held then some ⟨idtFreeVector vector c.state, c.held.erase vector⟩ else none

/-- What every step should be like. -/
structure Sound (addr : Symbol → Word) (c : Client) (op : Op) (c' : Client) : Prop where
  distinct : c'.held.Nodup
  above : ∀ v ∈ c'.held, 32 ≤ v.val
  full : op = .allocate → (idtAllocateVector c.state).1 = 0 →
    ∀ v : Vector, 32 ≤ v.val → v ∈ c.held
  describes : ∀ vector handler behind, op = .install vector handler behind →
    Describes addr c'.state vector ∧ c'.state.routineHandlers vector = handler

/-- The vectors of the exceptions. -/
def exceptions : Set Vector := { v | v.val < cpuExceptionCount }

/-- The table has the vectors of the exceptions and those that are held. -/
def Client.Kept (c : Client) : Prop := Slots exceptions c.state.vectors c.held

/-- After `idt_assemble`, with no vector handed out. -/
def Client.assembled (addr : Symbol → Word) (behind : Vector → Word) (base : Word) : Client :=
  ⟨idtAssemble addr behind base .boot, []⟩

section
variable {addr : Symbol → Word} {behind : Vector → Word} {base isr handler : Word}
  {flags ist : BitVec 8} {s : State} {v w : Vector} {c c' : Client} {op : Op} {ops : List Op}

/-! ### The functions -/

/-- The low bits of a word, masked or not. -/
theorem low_setWidth (x : Word) (k : Nat) :
    (x &&& BitVec.ofNat 64 (2 ^ k - 1)).setWidth k = x.setWidth k := by
  apply BitVec.eq_of_getLsbD_eq
  intro i lt
  simp only [BitVec.getLsbD_setWidth, BitVec.getLsbD_and, BitVec.getLsbD_ofNat,
    Nat.testBit_two_pow_sub_one, lt, decide_true, Bool.true_and, Bool.and_true]
  by_cases inside : i < 64
  · simp [inside]
  · simp [BitVec.getLsbD_of_ge x i (by omega)]

/-- The three parts of an address make the address. -/
theorem idtSetDescriptor_isr : ((idtSetDescriptor v isr flags ist s).idt v).isr = isr := by
  unfold idtSetDescriptor Descriptor.isr
  dsimp only
  rw [Function.update_self]
  dsimp only
  rw [show (0xFFFF : Word) = BitVec.ofNat 64 (2 ^ 16 - 1) from rfl,
    show (0xFFFFFFFF : Word) = BitVec.ofNat 64 (2 ^ 32 - 1) from rfl, low_setWidth, low_setWidth,
    low_setWidth]
  apply BitVec.eq_of_getLsbD_eq
  intro i lt
  simp only [BitVec.getLsbD_or, BitVec.getLsbD_setWidth, BitVec.getLsbD_shiftLeft,
    BitVec.getLsbD_ushiftRight, lt, decide_true, Bool.true_and]
  by_cases low : i < 16
  · simp [low, show i < 32 by omega]
  by_cases mid : i < 32
  · simp [low, mid, show i - 16 < 16 by omega, show i - 16 < 64 by omega,
      show 16 + (i - 16) = i by omega]
  · simp [low, mid, show ¬ i - 16 < 16 by omega, show i - 32 < 32 by omega,
      show i - 32 < 64 by omega, show 32 + (i - 32) = i by omega]

/-- Other descriptors stay. -/
theorem idtSetDescriptor_of_ne (ne : w ≠ v) :
    (idtSetDescriptor v isr flags ist s).idt w = s.idt w :=
  Function.update_of_ne ne _ _

/-- The first free vector is handed out; the answer is 0 when there is none. -/
theorem idtAllocateVector_cases (s : State) :
    (∃ v, s.vectors v = false ∧
      idtAllocateVector s = (v, { s with vectors := Function.update s.vectors v true })) ∨
    (∀ v, s.vectors v = true) ∧ idtAllocateVector s = (0, s) := by
  unfold idtAllocateVector
  cases found : (List.finRange 256).find? (!s.vectors ·) with
  | none =>
    refine Or.inr ⟨fun v => ?_, rfl⟩
    have used := List.find?_eq_none.mp found v (List.mem_finRange v)
    simpa using used
  | some v =>
    refine Or.inl ⟨v, ?_, rfl⟩
    have free := List.find?_some found
    simpa using free

/-- A vector that is handed out is held. -/
theorem allocate_slots {held : List Vector} (h : Slots exceptions s.vectors held) :
    Slots exceptions (idtAllocateVector s).2.vectors
      (if (idtAllocateVector s).1 = 0 then held else (idtAllocateVector s).1 :: held) := by
  rcases idtAllocateVector_cases s with ⟨v, free, eq⟩ | ⟨-, eq⟩
  · have some : v ≠ 0 := by
      rintro rfl
      exact (h.not_of_free free).1 (show 0 < 32 by decide)
    rw [eq, if_neg some]
    exact h.take free
  · rw [eq, if_pos rfl]
    exact h

/-- The vectors of a list are taken. -/
theorem assembleVector_vectors (l : List Vector) (s : State) :
    (l.foldl (assembleVector addr behind) s).vectors v = true ↔ v ∈ l ∨ s.vectors v = true := by
  induction l generalizing s with
  | nil => simp
  | cons w l ih =>
    rw [List.foldl_cons, ih]
    by_cases same : v = w
    · subst same
      simp [assembleVector]
    · simp [assembleVector, idtSetDescriptor, same]

/-- And go to the stack for exceptions. -/
theorem assembleVector_ist (l : List Vector) (s : State)
    (h : v ∈ l ∨ (s.idt v).ist = tssIstException) :
    ((l.foldl (assembleVector addr behind) s).idt v).ist = tssIstException := by
  induction l generalizing s with
  | nil => exact h.resolve_left List.not_mem_nil
  | cons w l ih =>
    apply ih
    by_cases same : v = w
    · subst same
      simp [assembleVector, idtSetDescriptor]
    · simp only [List.mem_cons, same, false_or] at h
      simpa [assembleVector, idtSetDescriptor, same] using h

/-- The first vectors are those of the exceptions. -/
theorem mem_exceptions : v ∈ (List.finRange 256).take cpuExceptionCount ↔ v ∈ exceptions := by
  unfold exceptions cpuExceptionCount
  rw [List.mem_take_iff_getElem]
  constructor
  · rintro ⟨i, lt, rfl⟩
    rw [List.getElem_finRange]
    exact Nat.lt_of_lt_of_le lt (Nat.min_le_left _ _)
  · intro lt
    refine ⟨v.val, Nat.lt_min.mpr ⟨lt, by rw [List.length_finRange]; exact v.isLt⟩, ?_⟩
    rw [List.getElem_finRange]
    rfl

/-- After `idt_assemble` they are taken, and no others. -/
theorem idtAssemble_vectors :
    (idtAssemble addr behind base .boot).vectors v = true ↔ v ∈ exceptions := by
  unfold idtAssemble
  dsimp only
  rw [assembleVector_vectors, mem_exceptions]
  exact or_iff_left Bool.false_ne_true

/-- They have a stack of their own. -/
theorem idtAssemble_ist (low : v ∈ exceptions) :
    ((idtAssemble addr behind base s).idt v).ist = tssIstException :=
  assembleVector_ist _ _ (Or.inl (mem_exceptions.mpr low))

/-! ### The stubs -/

/-- A stub looks at the entry of its vector, and calls through it. -/
theorem dispatches_irqStub (v : Vector) : dispatches (Cpu.irqStub v) =
    [BitVec.ofNat 64 (v.val * 8), BitVec.ofNat 64 (v.val * 8)] := rfl

/-- Entries of different vectors are different. -/
theorem entry_inj (same : BitVec.ofNat 64 (v.val * 8) = BitVec.ofNat 64 (w.val * 8)) : v = w := by
  have values := congrArg BitVec.toNat same
  rw [BitVec.toNat_ofNat, BitVec.toNat_ofNat] at values
  ext
  omega

/-- A stub calls the handler of its own vector. -/
theorem dispatches_iff : Dispatches (.irqStub w) v ↔ w = v := by
  constructor
  · intro h
    obtain ⟨text, is, -, all⟩ := h.text
    obtain rfl := Option.some.inj is
    apply entry_inj
    apply all
    rw [dispatches_irqStub]
    exact List.mem_cons_self
  · rintro rfl
    refine ⟨_, rfl, ?_, ?_⟩
    · rw [dispatches_irqStub]
      exact List.cons_ne_nil _ _
    · rw [dispatches_irqStub]
      intro entry mem
      simpa using mem

/-- There are stubs for seven vectors. -/
theorem mem_irqStubs : v ∈ irqStubs ↔ 32 ≤ v.val ∧ v.val < 39 := by
  revert v
  decide +kernel

/-- An installed handler has its stub just when the vector has one. -/
theorem install_describes_iff :
    Describes addr (idtInstallIrqHandler addr behind v handler s) v ↔ v ∈ irqStubs := by
  constructor
  · rintro ⟨stub, mem, calls, -⟩
    rwa [← dispatches_iff.mp calls]
  · intro mem
    refine ⟨v, mem, dispatches_iff.mpr rfl, ?_⟩
    unfold idtInstallIrqHandler
    dsimp only
    rw [idtSetDescriptor_isr, isrStubTable, if_neg, if_pos mem]
    exact Nat.not_lt.mpr (mem_irqStubs.mp mem).1

/-! ### Steps -/

/-- A vector is asked for. -/
theorem step_allocate : step addr c .allocate = some ⟨(idtAllocateVector c.state).2,
    if (idtAllocateVector c.state).1 = 0 then c.held
    else (idtAllocateVector c.state).1 :: c.held⟩ :=
  rfl

/-- A handler goes on a vector that is held. -/
theorem step_install : step addr c (.install v handler behind) = some c' ↔
    v ∈ c.held ∧ { c with state := idtInstallIrqHandler addr behind v handler c.state } = c' := by
  unfold step
  rw [Option.ite_none_right_eq_some, Option.some_inj]

/-- A vector that is held is given back. -/
theorem step_free : step addr c (.free v) = some c' ↔
    v ∈ c.held ∧ ⟨idtFreeVector v c.state, c.held.erase v⟩ = c' := by
  unfold step
  rw [Option.ite_none_right_eq_some, Option.some_inj]

/-- What is held stays in the table. -/
theorem Client.Kept.after (h : c.Kept) (run : step addr c op = some c') : c'.Kept := by
  cases op with
  | allocate =>
    rw [step_allocate] at run
    obtain rfl := Option.some.inj run
    exact allocate_slots h
  | install v handler behind =>
    obtain ⟨-, rfl⟩ := step_install.mp run
    exact h
  | free v =>
    obtain ⟨mem, rfl⟩ := step_free.mp run
    exact h.give mem

/-- A step is as it should be unless a handler goes on a vector without a stub. -/
theorem Client.Kept.step_sound (h : c.Kept) (run : step addr c op = some c') :
    Sound addr c op c' ↔ ∀ v handler behind, op = .install v handler behind → v.val < 39 := by
  have h' := h.after run
  constructor
  · rintro sound v handler behind rfl
    have describes := (sound.describes v handler behind rfl).1
    obtain ⟨-, rfl⟩ := step_install.mp run
    exact (mem_irqStubs.mp (install_describes_iff.mp describes)).2
  · intro small
    refine ⟨h'.nodup, fun v mem => Nat.not_lt.mp (h'.apart v mem), ?_, ?_⟩
    · rintro rfl none v high
      rcases idtAllocateVector_cases c.state with ⟨w, free, eq⟩ | ⟨all, -⟩
      · rw [eq] at none
        obtain rfl := none
        exact absurd (show 0 < 32 by decide) (h.not_of_free free).1
      · exact h.full all v (Nat.not_lt.mpr high)
    · rintro v handler behind rfl
      obtain ⟨mem, rfl⟩ := step_install.mp run
      refine ⟨install_describes_iff.mpr (mem_irqStubs.mpr ⟨?_, small v handler behind rfl⟩), ?_⟩
      · exact Nat.not_lt.mp (h.apart v mem)
      · exact Function.update_self ..

/-- After `idt_assemble` nothing is held. -/
theorem assembled_kept : (Client.assembled addr behind base).Kept where
  used_iff _ := idtAssemble_vectors.trans (or_iff_left List.not_mem_nil).symm
  nodup := List.nodup_nil
  apart := List.forall_mem_nil _

/-- And so a run. -/
theorem steps_sound_iff :
    Steps (step addr) (Sound addr) (.assembled addr behind base) ops ↔
      Steps (step addr) (fun _ op _ => ∀ v handler behind, op = .install v handler behind →
        v.val < 39) (.assembled addr behind base) ops := by
  apply steps_iff assembled_kept
  · intro c op c' h run
    exact h.step_sound run
  · intro c op c' h run _
    exact h.after run

/-- Every step of a run is as it should be if and only if handlers are installed on vectors below 39
alone. -/
theorem sound_iff (run : (ops.foldlM (step addr) (.assembled addr behind base)).isSome) :
    Steps (step addr) (Sound addr) (.assembled addr behind base) ops ↔
      ∀ op ∈ ops, ∀ v handler behind, op = .install v handler behind → v.val < 39 :=
  steps_sound_iff.trans (steps_of_operations run)

end

/-! ### Eight vectors -/

/-- A driver takes `n` vectors, and installs a handler on the last one. -/
def takeAndInstall (n : Nat) (vector : Vector) : List Op :=
  List.replicate n .allocate ++ [.install vector 0x5000 fun _ => 0]

/-- The addresses of a linked kernel. -/
def linked (f : Symbol) : Word := (Cpu.machineImage Cpu.machineCompiled).addr f

/-- Seven vectors have their stubs. -/
theorem sound_seven : Steps (step linked) (Sound linked) (.assembled linked (fun _ => 0) 0)
    (takeAndInstall 7 38) := by
  apply (sound_iff (by decide +kernel)).mpr
  rintro op mem v handler behind rfl
  simp [takeAndInstall] at mem
  rw [mem.1]
  decide

/-- The eighth has none. -/
theorem not_always_sound : ¬ ∀ (addr : Symbol → Word) (behind : Vector → Word) (base : Word)
    (ops : List Op), (ops.foldlM (step addr) (.assembled addr behind base)).isSome →
    Steps (step addr) (Sound addr) (.assembled addr behind base) ops := by
  intro all
  have run : ((takeAndInstall 8 39).foldlM (step linked)
      (.assembled linked (fun _ => 0) 0)).isSome := by decide +kernel
  have sound := all linked (fun _ => 0) 0 (takeAndInstall 8 39) run
  have small := (steps_of_operations run).mp (steps_sound_iff.mp sound)
  exact absurd (small _ (List.mem_append_right _ (List.mem_singleton_self _)) 39 _ _ rfl)
    (by decide)

end Skylight.Idt
