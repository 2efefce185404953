import Skylight.Iodev.Drivers
import Skylight.Laws.Iodev.Pit
import Skylight.Laws.Iodev.Redirect
import Skylight.Lib.Owners

/-!
# Where interrupts go

What an interrupt does depends on the entry of its line, the descriptor of the vector there and the
handler of that vector. `Routing` has these three, with what the drivers find their own lines by,
and `Routing.Kept` says of them that each line that is not masked is on the vector of a driver that
it belongs to, with the stub of the vector and the driver's handler behind it. The drivers do only a
few things to it, and each of these keeps it.
-/

namespace Skylight.Drivers

open X86 (Word)
open Cpu (Vector Symbol)
open Apic
open Idt

instance : Fintype Driver where
  elems := {.uart, .pit, .kbd, .timer}
  complete d := by cases d <;> decide

/-- The lines of a driver, as the keyboard controller and the others are wired. -/
def irqLines : Driver → List (BitVec 8)
  | .uart => [serialCom1Irq, serialCom2Irq]
  | .pit => [Pit.pitIrqLine]
  | .kbd => [ps2KbdIrqLine]
  | .timer => []

/-- What says where an interrupt goes. -/
structure Routing where
  idt : Idt.State
  io : IoApic
  lvtTimer : BitVec 32
  vectorOf : Driver → Vector
  inputMasked : Bool
  inputComGsi : BitVec 8
  kbdGsi : BitVec 8
  pitGsi : BitVec 8

/-- The vector of a driver, 0 while it has none. -/
def State.vectorOf (s : State) : Driver → Vector
  | .uart => s.uart.inputIdtVector
  | .pit => s.pit.pitVector
  | .kbd => s.kbd.vector
  | .timer => s.timer.vector

def State.routing (s : State) : Routing :=
  ⟨s.idt, s.io, s.lapic .lvtTimer, s.vectorOf, s.uart.inputMasked, s.uart.inputComGsi, s.kbd.gsi,
    s.pit.gsi⟩

/-- Whether the local APIC's own timer is masked. -/
def Routing.lvtMasked (r : Routing) : Bool := r.lvtTimer &&& 1 <<< 16 != 0

/-- A driver serves a line: the line is its own, and on its vector. The console and the keyboard
have to find the line again to mask it. -/
structure Routing.Serves (r : Routing) (d : Driver) (irq : BitVec 8) : Prop where
  own : ∃ line ∈ irqLines d, irq = apicIoGetGsi line r.io
  some : r.vectorOf d ≠ 0
  vector : r.io.vector irq = BitVec.ofNat 8 (r.vectorOf d).val
  console : d = .uart → irq = r.inputComGsi ∧ irq ≠ 0 ∧ r.inputMasked = false
  keyboard : d = .kbd → irq = r.kbdGsi

section
variable (addr : Symbol → Word) (handlers : Driver → Word)

/-- The stubs are at different addresses, and so are the handlers. -/
structure Linked : Prop where
  stubs : Set.InjOn (fun v => addr (.irqStub v)) { v | v ∈ irqStubs }
  handlers : Function.Injective handlers

/-- A vector has its stub and a driver's handler. -/
structure Installed (idt : Idt.State) (v : Vector) (d : Driver) : Prop where
  stub : v ∈ irqStubs
  isr : (idt.idt v).isr = addr (.irqStub v)
  handler : idt.routineHandlers v = handlers d

/-- As long as the drivers only do what they do. The table of `idt_assemble` was `start`, and the
lines are `wired` as the tables said. -/
structure Routing.Kept (start : Idt.State) (wired : BitVec 8 → BitVec 8) (r : Routing) : Prop where
  owned : Owned exceptions r.idt.vectors r.vectorOf
  installed : ∀ d, r.vectorOf d ≠ 0 → Installed addr handlers r.idt (r.vectorOf d) d
  exceptions : ∀ v ∈ exceptions, r.idt.idt v = start.idt v
  lines : ∀ irq, r.io.masked irq = false → ∃ d, r.Serves d irq
  timer : r.lvtMasked = false → r.vectorOf .timer ≠ 0 ∧
    (r.lvtTimer &&& 0xFF).setWidth 8 = BitVec.ofNat 8 (r.vectorOf .timer).val
  map : r.io.gsiMap = wired
  console : r.inputComGsi = 0 ∨ ∃ line ∈ irqLines .uart, r.inputComGsi = wired line

variable (behind : Vector → Word)

/-- A driver takes a vector and installs its handler. -/
def Routing.enlist (d : Driver) (r : Routing) : Routing :=
  let (v, idt) := idtAllocateVector r.idt
  { r with
    idt := idtInstallIrqHandler addr behind v (handlers d) idt
    vectorOf := Function.update r.vectorOf d v }

/-- The console takes a vector, and the line of a port is put on it. -/
def Routing.selectInput (line : BitVec 8) (r : Routing) : Routing :=
  let r := r.enlist addr handlers behind .uart
  let gsi := apicIoGetGsi line r.io
  { r with
    inputComGsi := gsi
    io := apicIoRedirectIrq gsi (BitVec.ofNat 8 (r.vectorOf .uart).val) false false r.io }

end

/-- A driver gives its vector back. -/
def Routing.dismiss (d : Driver) (r : Routing) : Routing :=
  { r with idt := idtFreeVector (r.vectorOf d) r.idt, vectorOf := Function.update r.vectorOf d 0 }

/-- The console's line is masked or not, if it has one. -/
def Routing.setInputMasked (masked : Bool) (r : Routing) : Routing :=
  { r with
    inputMasked := masked
    io :=
      if r.inputComGsi = 0 then r.io
      else if masked then apicIoMaskIrq r.inputComGsi r.io
      else apicIoUnmaskIrq r.inputComGsi r.io }

section
variable {addr : Symbol → Word} {handlers : Driver → Word} {behind : Vector → Word}
  {start t : Idt.State} {wired : BitVec 8 → BitVec 8} {r : Routing} {d e : Driver}
    {irq irq' vector : BitVec 8} {v w : Vector}

/-! ### Vectors -/

/-- The vector 0 is an exception's, so it stands for none. -/
theorem zero_exception : (0 : Vector) ∈ exceptions := show 0 < 32 by decide

/-- The vector handed out is the first one that is free. -/
theorem idtAllocateVector_first (free : ∃ v, t.vectors v = false) :
    ∃ v, t.vectors v = false ∧ (∀ w < v, t.vectors w = true) ∧
      idtAllocateVector t = (v, { t with vectors := Function.update t.vectors v true }) := by
  unfold idtAllocateVector
  cases found : (List.finRange 256).find? (!t.vectors ·) with
  | none =>
    obtain ⟨u, unused⟩ := free
    have used := List.find?_eq_none.mp found u (List.mem_finRange u)
    rw [unused] at used
    exact absurd rfl used
  | some v =>
    obtain ⟨unused, i, lt, at_, before⟩ := List.find?_eq_some_iff_getElem.mp found
    rw [List.getElem_finRange] at at_
    refine ⟨v, by simpa using unused, fun w less => ?_, rfl⟩
    have i_eq : i = v.val := congrArg Fin.val at_
    have used := before w.val (i_eq ▸ less)
    rw [List.getElem_finRange] at used
    simpa using used

/-- While a driver has no vector, one of those with a stub is free. -/
theorem exists_free (h : Owned exceptions t.vectors r.vectorOf) (none : r.vectorOf d = 0) :
    ∃ w : Vector, w.val < 36 ∧ t.vectors w = false := by
  by_contra all
  have few := h.card_lt (none ▸ zero_exception : r.vectorOf d ∈ exceptions)
    (t := {32, 33, 34, 35}) fun w mem => ?_
  · exact absurd few (by decide +kernel)
  · have place : 32 ≤ w.val ∧ w.val < 36 := by
      simp only [Finset.mem_insert, Finset.mem_singleton] at mem
      rcases mem with rfl | rfl | rfl | rfl
      all_goals decide
    refine ⟨Nat.not_lt.mpr place.1, ?_⟩
    by_contra free
    exact all ⟨w, place.2, Bool.not_eq_true _ ▸ free⟩

/-- So a driver that takes its first vector takes one of these. -/
theorem allocated (h : Owned exceptions t.vectors r.vectorOf) (none : r.vectorOf d = 0) :
    ∃ v, t.vectors v = false ∧ v ∈ irqStubs ∧
      idtAllocateVector t = (v, { t with vectors := Function.update t.vectors v true }) := by
  obtain ⟨w, small, unused⟩ := exists_free h none
  obtain ⟨v, free, first, eq⟩ := idtAllocateVector_first ⟨w, unused⟩
  refine ⟨v, free, mem_irqStubs.mpr ⟨Nat.not_lt.mp (h.not_of_free free).1, ?_⟩, eq⟩
  have le : v ≤ w := by
    by_contra less
    rw [first w (not_le.mp less)] at unused
    cases unused
  rw [Fin.le_def] at le
  omega

/-- Descriptor and handler are all there is. -/
theorem Installed.congr {t' : Idt.State} (h : Installed addr handlers t v d)
    (descriptor : t'.idt v = t.idt v) (handler : t'.routineHandlers v = t.routineHandlers v) :
    Installed addr handlers t' v d :=
  ⟨h.stub, descriptor ▸ h.isr, handler.trans h.handler⟩

/-- A handler on a vector with a stub is installed. -/
theorem installed_install (mem : v ∈ irqStubs) :
    Installed addr handlers (idtInstallIrqHandler addr behind v (handlers d) t) v d := by
  refine ⟨mem, ?_, Function.update_self ..⟩
  unfold idtInstallIrqHandler
  rw [idtSetDescriptor_isr, isrStubTable, if_neg, if_pos mem]
  exact Nat.not_lt.mpr (mem_irqStubs.mp mem).1

/-! ### Lines -/

/-- What a driver serves it serves while nothing of it changes. -/
theorem Routing.Serves.congr {r' : Routing} (h : r.Serves d irq)
    (entry : apicIoGetRedirect irq r'.io = apicIoGetRedirect irq r.io)
    (map : r'.io.gsiMap = r.io.gsiMap) (vector : r'.vectorOf d = r.vectorOf d)
    (console : d = .uart → r'.inputComGsi = r.inputComGsi ∧ r'.inputMasked = r.inputMasked)
    (keyboard : d = .kbd → r'.kbdGsi = r.kbdGsi) : r'.Serves d irq where
  own := by
    obtain ⟨line, mem, at_⟩ := h.own
    exact ⟨line, mem, at_.trans (congrFun map line).symm⟩
  some := vector ▸ h.some
  vector := by
    rw [vector, IoApic.vector, entry]
    exact h.vector
  console mine := by
    rw [(console mine).1, (console mine).2]
    exact h.console mine
  keyboard mine := (h.keyboard mine).trans (keyboard mine).symm

/-- A driver that is dismissed has no vector. -/
theorem dismiss_vectorOf : (r.dismiss d).vectorOf d = 0 := by
  unfold Routing.dismiss
  exact Function.update_self ..

namespace Routing.Kept

/-- Every line that is not masked has its old entry, or somebody serves it. -/
theorem io (h : r.Kept addr handlers start wired) {io' : IoApic} (map : io'.gsiMap = r.io.gsiMap)
    (entries : ∀ irq, io'.masked irq = false →
      apicIoGetRedirect irq io' = apicIoGetRedirect irq r.io ∨
        ∃ d, { r with io := io' }.Serves d irq) :
    { r with io := io' }.Kept addr handlers start wired := by
  refine ⟨h.owned, h.installed, h.exceptions, fun irq unmasked => ?_, h.timer, map.trans h.map,
    h.console⟩
  rcases entries irq unmasked with same | served
  · have before : r.io.masked irq = false := by
      rw [IoApic.masked, ← same]
      exact unmasked
    obtain ⟨d, serves⟩ := h.lines irq before
    exact ⟨d, serves.congr same map rfl (fun _ => ⟨rfl, rfl⟩) fun _ => rfl⟩
  · exact served

/-- Masking keeps it. -/
theorem mask (h : r.Kept addr handlers start wired) (irq : BitVec 8) :
    { r with io := apicIoMaskIrq irq r.io }.Kept addr handlers start wired := by
  refine h.io rfl fun irq' unmasked => Or.inl (getRedirect_mask_of_ne ?_)
  rintro rfl
  rw [masked_mask] at unmasked
  cases unmasked

/-- And so does redirecting, which masks. -/
theorem redirect (h : r.Kept addr handlers start wired) (irq vector : BitVec 8)
    (alow ltriggered : Bool) :
    { r with io := apicIoRedirectIrq irq vector alow ltriggered r.io }.Kept addr handlers start
    wired := by
  refine h.io rfl fun irq' unmasked => Or.inl (getRedirect_redirect_of_ne ?_)
  rintro rfl
  rw [masked_redirect] at unmasked
  cases unmasked

/-- A line may be unmasked when somebody serves it. -/
theorem unmask (h : r.Kept addr handlers start wired) (serves : r.Serves d irq) :
    { r with io := apicIoUnmaskIrq irq r.io }.Kept addr handlers start wired := by
  refine h.io rfl fun irq' _ => ?_
  by_cases same : irq' = irq
  · subst same
    refine Or.inr ⟨d, serves.own, serves.some, ?_, serves.console, serves.keyboard⟩
    exact vector_unmask.trans serves.vector
  · exact Or.inl (getRedirect_unmask_of_ne same)

/-- So a driver that has a vector may put a line of its own on it. -/
theorem connect (h : r.Kept addr handlers start wired) (some : r.vectorOf d ≠ 0)
    (own : ∃ line ∈ irqLines d, irq = apicIoGetGsi line r.io) (alow ltriggered : Bool)
    (console : d = .uart → irq = r.inputComGsi ∧ irq ≠ 0 ∧ r.inputMasked = false)
    (keyboard : d = .kbd → irq = r.kbdGsi) :
    { r with
      io := apicIoUnmaskIrq irq (apicIoRedirectIrq irq (BitVec.ofNat 8 (r.vectorOf d).val) alow
        ltriggered r.io) }.Kept addr handlers start wired := by
  have h₁ := h.redirect irq (BitVec.ofNat 8 (r.vectorOf d).val) alow ltriggered
  exact h₁.unmask (d := d) ⟨own, some, vector_redirect, console, keyboard⟩

/-- The console may change what it finds its line by while it serves none. -/
theorem find (h : r.Kept addr handlers start wired)
    (none : ∀ irq, r.io.masked irq = false → ¬ r.Serves .uart irq) (masked : Bool)
    {gsi : BitVec 8} (own : gsi = 0 ∨ ∃ line ∈ irqLines .uart, gsi = wired line) :
    { r with inputMasked := masked, inputComGsi := gsi }.Kept addr handlers start wired := by
  refine ⟨h.owned, h.installed, h.exceptions, fun irq unmasked => ?_, h.timer, h.map, own⟩
  obtain ⟨d, serves⟩ := h.lines irq unmasked
  refine ⟨d, serves.congr rfl rfl rfl (fun mine => ?_) fun _ => rfl⟩
  exact absurd (mine ▸ serves) (none irq unmasked)

/-- And so may the keyboard. -/
theorem keyboard (h : r.Kept addr handlers start wired)
    (none : ∀ irq, r.io.masked irq = false → ¬ r.Serves .kbd irq) (gsi : BitVec 8) :
    { r with kbdGsi := gsi }.Kept addr handlers start wired := by
  refine ⟨h.owned, h.installed, h.exceptions, fun irq unmasked => ?_, h.timer, h.map, h.console⟩
  obtain ⟨d, serves⟩ := h.lines irq unmasked
  refine ⟨d, serves.congr rfl rfl rfl (fun _ => ⟨rfl, rfl⟩) fun mine => ?_⟩
  exact absurd (mine ▸ serves) (none irq unmasked)

/-- The gsi that `pit_enable` looks at says nothing of where an interrupt goes. -/
theorem pit (h : r.Kept addr handlers start wired) (gsi : BitVec 8) :
    { r with pitGsi := gsi }.Kept addr handlers start wired :=
  ⟨h.owned, h.installed, h.exceptions,
    fun irq unmasked => (h.lines irq unmasked).imp fun _ serves =>
      serves.congr rfl rfl rfl (fun _ => ⟨rfl, rfl⟩) fun _ => rfl,
    h.timer, h.map, h.console⟩

variable (behind) in
/-- A driver without a vector gets one that has a stub. -/
theorem enlist (h : r.Kept addr handlers start wired) (none : r.vectorOf d = 0) :
    (r.enlist addr handlers behind d).Kept addr handlers start wired ∧
      (r.enlist addr handlers behind d).vectorOf d ≠ 0 := by
  obtain ⟨v, free, stub, eq⟩ := allocated h.owned none
  have high := (h.owned.not_of_free free).1
  have others := (h.owned.not_of_free free).2
  unfold Routing.enlist
  rw [eq]
  refine ⟨⟨?_, fun e some => ?_, fun u low => ?_, fun irq unmasked => ?_, fun unmasked => ?_,
    h.map, h.console⟩, ?_⟩
  · exact h.owned.take free (none ▸ zero_exception)
  · by_cases mine : e = d
    · subst mine
      dsimp only
      rw [Function.update_self]
      exact installed_install stub
    · dsimp only at some ⊢
      rw [Function.update_of_ne mine] at some ⊢
      exact (h.installed e some).congr (idtSetDescriptor_of_ne (others e))
        (Function.update_of_ne (others e) ..)
  · exact (idtSetDescriptor_of_ne (Pit.ne_of_exception high low)).trans (h.exceptions u low)
  · obtain ⟨e, serves⟩ := h.lines irq unmasked
    have other : e ≠ d := fun mine => serves.some (mine ▸ none)
    exact ⟨e, serves.congr rfl rfl (Function.update_of_ne other ..) (fun _ => ⟨rfl, rfl⟩)
      fun _ => rfl⟩
  · have timer := h.timer unmasked
    have other : .timer ≠ d := fun mine => timer.1 (mine ▸ none)
    dsimp only
    rw [Function.update_of_ne other]
    exact timer
  · dsimp only
    rw [Function.update_self]
    rintro rfl
    exact high zero_exception

/-- A driver that serves no line may give its vector back. -/
theorem dismiss (h : r.Kept addr handlers start wired) (some : r.vectorOf d ≠ 0) (line : d ≠ .timer)
    (none : ∀ irq, r.io.masked irq = false → ¬ r.Serves d irq) :
    (r.dismiss d).Kept addr handlers start wired := by
  have high : r.vectorOf d ∉ Idt.exceptions :=
    Nat.not_lt.mpr (mem_irqStubs.mp (h.installed d some).stub).1
  have others (e) (other : e ≠ d) (some' : r.vectorOf e ≠ 0) : r.vectorOf e ≠ r.vectorOf d :=
    fun same => other (h.owned.apart e d same (same ▸ high))
  refine ⟨h.owned.give high zero_exception, fun e some' => ?_, fun u low => ?_,
    fun irq unmasked => ?_, fun unmasked => ?_, h.map, h.console⟩
  · by_cases mine : e = d
    · subst mine
      exact absurd (Function.update_self ..) some'
    · unfold Routing.dismiss at some' ⊢
      dsimp only at some' ⊢
      rw [Function.update_of_ne mine] at some' ⊢
      exact (h.installed e some').congr (idtSetDescriptor_of_ne (others e mine some'))
        (Function.update_of_ne (others e mine some') ..)
  · exact (idtSetDescriptor_of_ne (Pit.ne_of_exception high low)).trans (h.exceptions u low)
  · obtain ⟨e, serves⟩ := h.lines irq unmasked
    have other : e ≠ d := fun mine => none irq unmasked (mine ▸ serves)
    exact ⟨e, serves.congr rfl rfl (Function.update_of_ne other ..) (fun _ => ⟨rfl, rfl⟩)
      fun _ => rfl⟩
  · unfold Routing.dismiss
    dsimp only
    rw [Function.update_of_ne (Ne.symm line)]
    exact h.timer unmasked

/-- A driver whose only line is masked is dismissed. -/
theorem retire (h : r.Kept addr handlers start wired) (io' : IoApic) (gsi : BitVec 8)
    (some : r.vectorOf d ≠ 0) (line : d ≠ .timer) (map : io'.gsiMap = r.io.gsiMap)
    (closed : ∀ irq, io'.masked irq = false →
      irq ≠ gsi ∧ apicIoGetRedirect irq io' = apicIoGetRedirect irq r.io)
    (only : ∀ irq, r.Serves d irq → irq = gsi) :
    ({ r with io := io' }.dismiss d).Kept addr handlers start wired := by
  have h₁ := h.io map fun irq unmasked => Or.inl (closed irq unmasked).2
  refine h₁.dismiss some line fun irq unmasked serves => ?_
  obtain ⟨other, entry⟩ := closed irq unmasked
  exact other (only irq (serves.congr entry.symm map.symm rfl (fun _ => ⟨rfl, rfl⟩) fun _ => rfl))

/-- The local timer is put on its vector. -/
theorem lvt (h : r.Kept addr handlers start wired) (some : r.vectorOf .timer ≠ 0)
    {value : BitVec 32}
    (on : (value &&& 0xFF).setWidth 8 = BitVec.ofNat 8 (r.vectorOf .timer).val) :
    { r with lvtTimer := value }.Kept addr handlers start wired :=
  ⟨h.owned, h.installed, h.exceptions,
    fun irq unmasked => (h.lines irq unmasked).imp fun _ serves =>
      serves.congr rfl rfl rfl (fun _ => ⟨rfl, rfl⟩) fun _ => rfl,
    fun _ => ⟨some, on⟩, h.map, h.console⟩

/-- A line that is found by nobody any more is masked. -/
theorem setInputMasked (h : r.Kept addr handlers start wired) :
    (r.setInputMasked true).Kept addr handlers start wired := by
  unfold Routing.setInputMasked
  split_ifs with zero no
  · refine h.find (fun irq unmasked serves => ?_) true h.console
    obtain ⟨at_, some, -⟩ := serves.console rfl
    exact some (at_.trans zero)
  · refine (h.mask r.inputComGsi).find (fun irq unmasked serves => ?_) true h.console
    obtain rfl : irq = r.inputComGsi := (serves.console rfl).1
    rw [masked_mask] at unmasked
    cases unmasked
  · exact absurd rfl no

/-- The console with an input port: it has a vector, and its line is not masked any more, if the
line is not 0. -/
theorem selectInput (h : r.Kept addr handlers start wired) (none : r.vectorOf .uart = 0)
    (masked : r.inputMasked = true) {line : BitVec 8} (own : line ∈ irqLines .uart) :
    ((r.selectInput addr handlers behind line).setInputMasked false).Kept addr handlers start
    wired := by
  obtain ⟨h₁, some⟩ := h.enlist behind none
  have still : (r.enlist addr handlers behind .uart).inputMasked = true := masked
  have h₂ := h₁.redirect (apicIoGetGsi line (r.enlist addr handlers behind .uart).io)
    (BitVec.ofNat 8 ((r.enlist addr handlers behind .uart).vectorOf .uart).val) false false
  have h₃ := h₂.find (fun irq _ serves => by
    have open' := (serves.console rfl).2.2
    rw [still] at open'
    cases open') false (Or.inr ⟨line, own, congrFun h₁.map line⟩)
  unfold Routing.setInputMasked
  split_ifs with zero no
  · exact h₃
  · exact absurd no (by decide)
  · refine h₃.unmask (d := .uart)
      ⟨⟨line, own, rfl⟩, some, vector_redirect, fun _ => ?_, fun no => ?_⟩
    · exact ⟨rfl, zero, rfl⟩
    · cases no

end Routing.Kept

end

end Skylight.Drivers
