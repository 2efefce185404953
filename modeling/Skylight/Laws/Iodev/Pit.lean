import Skylight.Iodev.Pit
import Skylight.Laws.Cpu.Idt

/-!
# Turning the timer on and off

`pit_disable` gives `pit_vector` back, which is 0 while the timer has no vector, and leaves the
number of the line in `gsi`, where `pit_enable` looks for `0xFF`. So it has to be called on an
enabled timer, and the timer is not enabled again.

`sound_iff_allowed` is about every run of the driver's calls, with other drivers that take
vectors and give their own back in between: every step is as it should be if and only if every
call is allowed, which is asked of the state that it finds.
-/

namespace Skylight.Pit

open X86 (Word)
open Cpu (Vector Symbol)
open Apic (IoApic apicIoGetGsi apicIoGetRedirect apicIoRedirectIrq apicIoUnmaskIrq)
open Idt

/-- A call of the driver, or what another one does with vectors of its own. -/
inductive Op
  | enable (behind : Vector → Word)
  | disable
  | allocate
  | free (vector : Vector)

/-- The driver, the vectors it took and did not give back, those of the other drivers, and whether
`pit_disable` was the last call of the two. -/
structure World where
  pit : State
  mine : List Vector
  others : List Vector
  disabled : Bool

/-- A vector that was handed out, where it is one. -/
def handed (vector : Vector) (held : List Vector) : List Vector :=
  if vector = 0 then held else vector :: held

section
variable (addr : Symbol → Word) (handler : Word)

/-- One call. `pit_enable` takes a vector where it finds `gsi` as it was at first. -/
def step (w : World) : Op → Option World
  | .enable behind =>
    some { w with
      pit := pitEnable addr behind handler w.pit
      mine := if w.pit.gsi = 0xFF then handed (idtAllocateVector w.pit.idt).1 w.mine else w.mine
      disabled := false }
  | .disable =>
    some { w with pit := pitDisable w.pit, mine := w.mine.erase w.pit.pitVector, disabled := true }
  | .allocate =>
    let (vector, idt) := idtAllocateVector w.pit.idt
    some { w with pit := { w.pit with idt := idt }, others := handed vector w.others }
  | .free vector =>
    if vector ∈ w.others then
      some { w with
        pit := { w.pit with idt := idtFreeVector vector w.pit.idt }
        others := w.others.erase vector }
    else none

/-- The timer has a vector that was free before, with the handler installed and the line on it. -/
structure Enabled (behind : Vector → Word) (w w' : World) : Prop where
  fresh : w.pit.idt.vectors w'.pit.pitVector = false
  mine : w'.pit.pitVector ∈ w'.mine
  handler : w'.pit.idt.routineHandlers w'.pit.pitVector = handler
  stub : (w'.pit.idt.idt w'.pit.pitVector).isr = isrStubTable addr behind w'.pit.pitVector
  line : apicIoGetRedirect (apicIoGetGsi pitIrqLine w'.pit.io) w'.pit.io =
    { apicIoGetRedirect (apicIoGetGsi pitIrqLine w.pit.io) w.pit.io with
      vector := BitVec.ofNat 8 w'.pit.pitVector.val
      masked := false }

/-- What every step should be like. The table of `idt_assemble` was `start`. -/
structure Sound (start : Idt.State) (w : World) (op : Op) (w' : World) : Prop where
  releases : op = .disable → w.pit.pitVector ∈ w.mine
  exceptions : ∀ v ∈ exceptions, w'.pit.idt.vectors v = true ∧ w'.pit.idt.idt v = start.idt v
  others : ∀ v ∈ w'.others, w'.pit.idt.vectors v = true
  again : ∀ behind, op = .enable behind → w.disabled = true → Enabled addr handler behind w w'

end

/-- `pit_disable` comes to a timer that has a vector, and `pit_enable` finds `gsi` as it was at
first when it follows, and a free vector when it takes one. -/
def Allowed (w : World) : Op → Prop
  | .enable _ => (w.disabled = true → w.pit.gsi = 0xFF) ∧
    (w.pit.gsi = 0xFF → ∃ v, w.pit.idt.vectors v = false)
  | .disable => w.pit.pitVector ≠ 0
  | _ => True

/-- After `idt_assemble`, with any I/O APIC. -/
def World.boot (start : Idt.State) (io : IoApic) : World :=
  ⟨⟨0, 0, 0xFF, start, io, []⟩, [], [], false⟩

/-- As long as only allowed calls are made. -/
structure Kept (start : Idt.State) (w : World) : Prop where
  slots : Slots exceptions w.pit.idt.vectors (w.mine ++ w.others)
  exceptions : ∀ v ∈ exceptions, w.pit.idt.idt v = start.idt v
  mine : w.pit.pitVector ≠ 0 → w.pit.pitVector ∈ w.mine

section
variable {addr : Symbol → Word} {handler : Word} {behind : Vector → Word} {start : Idt.State}
  {w w' : World} {op : Op} {v : Vector} {s : State}

/-! ### The calls -/

/-- A timer that has its line is left as it is. -/
theorem pitEnable_skip (ne : s.gsi ≠ 0xFF) : pitEnable addr behind handler s = s := if_pos ne

/-- Otherwise it takes a vector. -/
theorem pitEnable_idt (eq : s.gsi = 0xFF) : (pitEnable addr behind handler s).idt =
    idtInstallIrqHandler addr behind (idtAllocateVector s.idt).1 handler
      (idtAllocateVector s.idt).2 := by
  unfold pitEnable
  rw [if_neg (not_not.mpr eq)]
  rfl

/-- And remembers it. -/
theorem pitEnable_pitVector (eq : s.gsi = 0xFF) :
    (pitEnable addr behind handler s).pitVector = (idtAllocateVector s.idt).1 := by
  unfold pitEnable
  rw [if_neg (not_not.mpr eq)]
  rfl

/-- The fields of an entry, read back. -/
theorem redirect_fields (v : Vector) (alow ltriggered : Bool) :
    let entry : BitVec 32 := ((BitVec.ofNat 8 v.val).setWidth 32 |||
      (BitVec.ofBool alow).setWidth 32 <<< 13 ||| (BitVec.ofBool ltriggered).setWidth 32 <<< 15 |||
      1 <<< 16) &&& ~~~0x10000
    (entry &&& 0xFF).setWidth 8 = BitVec.ofNat 8 v.val ∧ (entry &&& 1 <<< 13 != 0) = alow ∧
      (entry &&& 1 <<< 15 != 0) = ltriggered ∧ (entry &&& 1 <<< 16 != 0) = false := by
  revert v alow ltriggered
  decide +kernel

/-- An entry that was redirected and unmasked. -/
theorem redirect_unmasked (irq : BitVec 8) (v : Vector) (alow ltriggered : Bool) (io : IoApic) :
    apicIoGetRedirect irq (apicIoUnmaskIrq irq
      (apicIoRedirectIrq irq (BitVec.ofNat 8 v.val) alow ltriggered io)) =
        ⟨irq, BitVec.ofNat 8 v.val, alow, ltriggered, false⟩ := by
  obtain ⟨vector, low, level, mask⟩ := redirect_fields v alow ltriggered
  simp only [apicIoGetRedirect, apicIoUnmaskIrq, apicIoRedirectIrq, IoApic.read, IoApic.write,
    Function.update_self]
  rw [vector, low, level, mask]

/-- The line is put on the vector. -/
theorem pitEnable_line (eq : s.gsi = 0xFF) :
    apicIoGetRedirect (apicIoGetGsi pitIrqLine (pitEnable addr behind handler s).io)
        (pitEnable addr behind handler s).io =
      { apicIoGetRedirect (apicIoGetGsi pitIrqLine s.io) s.io with
        vector := BitVec.ofNat 8 (idtAllocateVector s.idt).1.val
        masked := false } := by
  unfold pitEnable
  rw [if_neg (not_not.mpr eq)]
  exact redirect_unmasked ..

/-! ### The table of vectors -/

/-- No exception has the vector of a driver. -/
theorem ne_of_exception (high : v ∉ exceptions) {u : Vector} (low : u ∈ exceptions) : u ≠ v := by
  rintro rfl
  exact high low

/-- A vector given back leaves the exceptions. -/
theorem idtFreeVector_idt (high : v ∉ exceptions) (t : Idt.State) {u : Vector}
    (low : u ∈ exceptions) : (idtFreeVector v t).idt u = t.idt u :=
  idtSetDescriptor_of_ne (ne_of_exception high low)

/-- And so does a handler. -/
theorem idtInstall_idt (high : v ∉ exceptions) (t : Idt.State) {u : Vector}
    (low : u ∈ exceptions) :
    (idtInstallIrqHandler addr behind v handler t).idt u = t.idt u :=
  idtSetDescriptor_of_ne (ne_of_exception high low)

/-- And a vector taken. -/
theorem idtAllocateVector_idt (t : Idt.State) : (idtAllocateVector t).2.idt = t.idt := by
  rcases idtAllocateVector_cases t with ⟨v, -, eq⟩ | ⟨-, eq⟩
  · rw [eq]
  · rw [eq]

/-! ### Steps -/

/-- The call of `pit_enable`. -/
theorem step_enable : step addr handler w (.enable behind) = some { w with
    pit := pitEnable addr behind handler w.pit
    mine := if w.pit.gsi = 0xFF then handed (idtAllocateVector w.pit.idt).1 w.mine else w.mine
    disabled := false } := rfl

/-- Another driver gives a vector back. -/
theorem step_free : step addr handler w (.free v) = some w' ↔ v ∈ w.others ∧
    { w with
      pit := { w.pit with idt := idtFreeVector v w.pit.idt }
      others := w.others.erase v } = w' := by
  unfold step
  rw [Option.ite_none_right_eq_some, Option.some_inj]

/-- A vector handed out is one of those held. -/
theorem handed_perm (v : Vector) (mine others : List Vector) :
    (mine ++ handed v others).Perm (if v = 0 then mine ++ others else v :: (mine ++ others)) := by
  unfold handed
  split
  · exact List.Perm.refl _
  · exact List.perm_middle

/-- What is free is handed out. -/
theorem Kept.takes (h : Kept start w) (free : ∃ v, w.pit.idt.vectors v = false) :
    ∃ v, v ≠ 0 ∧ v ∉ Idt.exceptions ∧ w.pit.idt.vectors v = false ∧
      (idtAllocateVector w.pit.idt).1 = v := by
  obtain ⟨u, unused⟩ := free
  rcases idtAllocateVector_cases w.pit.idt with ⟨v, free, eq⟩ | ⟨all, -⟩
  · have high := (h.slots.not_of_free free).1
    refine ⟨v, ?_, high, free, congrArg Prod.fst eq⟩
    rintro rfl
    exact high (show 0 < 32 by decide)
  · rw [all u] at unused
    cases unused

/-- A call that is allowed keeps it. -/
theorem Kept.after (h : Kept start w) (run : step addr handler w op = some w')
    (allowed : Allowed w op) : Kept start w' := by
  cases op with
  | enable behind =>
    rw [step_enable] at run
    obtain rfl := Option.some.inj run
    by_cases first : w.pit.gsi = 0xFF
    · obtain ⟨v, some, high, free, eq⟩ := h.takes (allowed.2 first)
      have slots := allocate_slots h.slots
      rw [if_neg (eq ▸ some)] at slots
      refine ⟨?_, ?_, ?_⟩
      · dsimp only
        rw [if_pos first, handed, if_neg (eq ▸ some), pitEnable_idt first]
        exact slots
      · intro u low
        dsimp only
        rw [pitEnable_idt first, eq, idtInstall_idt high _ low, idtAllocateVector_idt]
        exact h.exceptions u low
      · intro _
        dsimp only
        rw [if_pos first, handed, if_neg (eq ▸ some), pitEnable_pitVector first]
        exact List.mem_cons_self
    · rw [if_neg first, pitEnable_skip first]
      exact ⟨h.slots, h.exceptions, h.mine⟩
  | disable =>
    obtain rfl := Option.some.inj run
    have mem := h.mine allowed
    refine ⟨?_, ?_, fun some => absurd rfl some⟩
    · have slots := h.slots.give (List.mem_append_left _ mem)
      rw [List.erase_append_left _ mem] at slots
      exact slots
    · intro u low
      have high := h.slots.apart _ (List.mem_append_left _ mem)
      exact (idtFreeVector_idt high _ low).trans (h.exceptions u low)
  | allocate =>
    obtain rfl := Option.some.inj run
    refine ⟨?_, ?_, h.mine⟩
    · exact (allocate_slots h.slots).perm (handed_perm ..)
    · intro u low
      exact (congrFun (idtAllocateVector_idt _) u).trans (h.exceptions u low)
  | free v =>
    obtain ⟨mem, rfl⟩ := step_free.mp run
    have apart : v ∉ w.mine := fun mine =>
      (List.nodup_append.mp h.slots.nodup).2.2 v mine v mem rfl
    refine ⟨?_, ?_, h.mine⟩
    · have slots := h.slots.give (List.mem_append_right _ mem)
      rw [List.erase_append_right _ apart] at slots
      exact slots
    · intro u low
      have high := h.slots.apart _ (List.mem_append_right _ mem)
      exact (idtFreeVector_idt high _ low).trans (h.exceptions u low)

/-- And is as it should be. -/
theorem Kept.sound (h : Kept start w) (run : step addr handler w op = some w')
    (allowed : Allowed w op) : Sound addr handler start w op w' := by
  have h' := h.after run allowed
  refine ⟨?_, ?_, ?_, ?_⟩
  · rintro rfl
    exact h.mine allowed
  · intro v low
    exact ⟨(h'.slots.used_iff v).mpr (Or.inl low), h'.exceptions v low⟩
  · intro v mem
    exact (h'.slots.used_iff v).mpr (Or.inr (List.mem_append_right _ mem))
  · rintro behind rfl off
    have first := allowed.1 off
    obtain ⟨v, some, high, free, eq⟩ := h.takes (allowed.2 first)
    rw [step_enable] at run
    obtain rfl := Option.some.inj run
    have vector : (pitEnable addr behind handler w.pit).pitVector = v :=
      (pitEnable_pitVector first).trans eq
    constructor
    case fresh =>
      dsimp only
      rwa [vector]
    case mine =>
      dsimp only
      rw [vector, if_pos first, handed, eq, if_neg some]
      exact List.mem_cons_self
    case handler =>
      dsimp only
      rw [vector, pitEnable_idt first, eq]
      exact Function.update_self ..
    case stub =>
      dsimp only
      rw [vector, pitEnable_idt first, eq]
      exact idtSetDescriptor_isr
    case line =>
      dsimp only
      rw [pitEnable_line first, vector, eq]

/-- A call that is not allowed goes wrong. -/
theorem Kept.allowed (h : Kept start w) (ist : (start.idt 0).ist = tssIstException)
    (run : step addr handler w op = some w') (sound : Sound addr handler start w op w') :
    Allowed w op := by
  cases op with
  | enable behind =>
    rw [step_enable] at run
    obtain rfl := Option.some.inj run
    constructor
    · intro off
      by_contra later
      have enabled := sound.again behind rfl off
      have free := enabled.fresh
      have mine := enabled.mine
      dsimp only at free mine
      rw [pitEnable_skip later] at free mine
      rw [if_neg later] at mine
      have used := (h.slots.used_iff _).mpr (Or.inr (List.mem_append_left _ mine))
      rw [used] at free
      cases free
    · intro first
      by_contra none
      rcases idtAllocateVector_cases w.pit.idt with ⟨v, free, -⟩ | ⟨-, eq⟩
      · exact none ⟨v, free⟩
      · have kept := (sound.exceptions 0 (show 0 < 32 by decide)).2
        dsimp only at kept
        rw [pitEnable_idt first, eq] at kept
        have other := congrArg Descriptor.ist kept
        rw [ist] at other
        unfold idtInstallIrqHandler idtSetDescriptor at other
        dsimp only at other
        rw [Function.update_self] at other
        exact absurd (show tssIstRoutine = tssIstException from other) (by decide)
  | disable =>
    have mine := sound.releases rfl
    intro zero
    rw [zero] at mine
    exact h.slots.apart 0 (List.mem_append_left _ mine) (show 0 < 32 by decide)
  | allocate => trivial
  | free v => trivial

/-- It holds after `idt_assemble`. -/
theorem boot_kept (base : Word) (io : IoApic) : Kept (idtAssemble addr behind base .boot)
    (.boot (idtAssemble addr behind base .boot) io) where
  slots := assembled_kept
  exceptions _ _ := rfl
  mine some := absurd rfl some

/-- Every step of a run is as it should be if and only if every call of the run is allowed. -/
theorem sound_iff_allowed (base : Word) (io : IoApic) (ops : List Op) :
    Steps (step addr handler) (Sound addr handler (idtAssemble addr behind base .boot))
        (.boot (idtAssemble addr behind base .boot) io) ops ↔
      Steps (step addr handler) (fun w op _ => Allowed w op)
        (.boot (idtAssemble addr behind base .boot) io) ops := by
  apply steps_iff (boot_kept base io)
  · intro w op w' h run
    exact ⟨h.allowed (idtAssemble_ist (show 0 < 32 by decide)) run, h.sound run⟩
  · intro w op w' h run allowed
    exact h.after run allowed

end

/-- An I/O APIC whose lines have the numbers of their interrupts. -/
def identityIo : IoApic := ⟨[], fun _ => 0, id⟩

/-- Turned off before it was on, the timer gives back the vector of an exception. -/
theorem not_always_sound_disable : ¬ ∀ (addr : Symbol → Word) (handler : Word)
    (behind : Vector → Word) (base : Word) (io : IoApic) (ops : List Op),
    Steps (step addr handler) (Sound addr handler (idtAssemble addr behind base .boot))
      (.boot (idtAssemble addr behind base .boot) io) ops := by
  intro all
  have steps := all linked 0x5000 (fun _ => 0) 0 identityIo [.disable]
  have sound := (steps_cons.mp steps _ rfl).1
  have kept := @boot_kept linked (fun _ => 0) 0 identityIo
  exact absurd rfl (kept.allowed (idtAssemble_ist (show 0 < 32 by decide)) rfl sound)

end Skylight.Pit
