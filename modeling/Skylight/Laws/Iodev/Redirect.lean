import Skylight.Iodev.Apic

/-!
# The entries of the I/O APIC

What the functions of `ioapic.c` do to the entry of a line, and that they leave the other entries
alone. An entry that is redirected is masked, so a controller whose entries were masked at power-on
still has them masked when `configure_io_apic` is done.
-/

namespace Skylight.Apic

open Skylight.Acpi
open Skylight.Paging (Addr)

/-- Whether the entry of a line is masked. -/
def IoApic.masked (io : IoApic) (irq : BitVec 8) : Bool := (apicIoGetRedirect irq io).masked

/-- The vector in the entry of a line. -/
def IoApic.vector (io : IoApic) (irq : BitVec 8) : BitVec 8 := (apicIoGetRedirect irq io).vector

variable {io io' : IoApic} {irq irq' vector : BitVec 8} {alow ltriggered : Bool} {x : BitVec 32}
  {mem : Bytes} {madt record : Addr} {fuel : Nat}

/-! ### One entry -/

/-- The number of a register does not wrap. -/
theorem redirection_toNat :
    (ioapicRegisterRedirection irq).toNat = 16 + 2 * irq.toNat := by
  have small := irq.isLt
  rw [ioapicRegisterRedirection, BitVec.toNat_add, BitVec.toNat_mul, BitVec.toNat_setWidth]
  show (16 + 2 * (irq.toNat % 2 ^ 32) % 2 ^ 32) % 2 ^ 32 = _
  omega

/-- Different lines have different registers. -/
theorem redirection_ne (ne : irq' ≠ irq) :
    ioapicRegisterRedirection irq' ≠ ioapicRegisterRedirection irq := by
  intro same
  have values := congrArg BitVec.toNat same
  rw [redirection_toNat, redirection_toNat] at values
  exact ne (BitVec.eq_of_toNat_eq (by omega))

/-- The low half of an entry is no high half. -/
theorem redirection_ne_succ :
    ioapicRegisterRedirection irq' ≠ ioapicRegisterRedirection irq + 1 := by
  intro same
  have values := congrArg BitVec.toNat same
  have small := irq.isLt
  rw [BitVec.toNat_add, redirection_toNat, redirection_toNat] at values
  change _ = (16 + 2 * irq.toNat + 1) % 2 ^ 32 at values
  omega

/-- An entry is read from its low half. -/
theorem getRedirect_congr (same : io'.read (ioapicRegisterRedirection irq) =
    io.read (ioapicRegisterRedirection irq)) :
    apicIoGetRedirect irq io' = apicIoGetRedirect irq io := by
  unfold apicIoGetRedirect
  rw [same]

/-- Another low half leaves it. -/
theorem getRedirect_write_of_ne (ne : irq' ≠ irq) :
    apicIoGetRedirect irq' (io.write (ioapicRegisterRedirection irq) x) =
      apicIoGetRedirect irq' io :=
  getRedirect_congr (Function.update_of_ne (redirection_ne ne) ..)

/-- And any high half does. -/
theorem getRedirect_write_succ :
    apicIoGetRedirect irq' (io.write (ioapicRegisterRedirection irq + 1) x) =
      apicIoGetRedirect irq' io :=
  getRedirect_congr (Function.update_of_ne redirection_ne_succ ..)

/-- Masking another line leaves it. -/
theorem getRedirect_mask_of_ne (ne : irq' ≠ irq) :
    apicIoGetRedirect irq' (apicIoMaskIrq irq io) = apicIoGetRedirect irq' io :=
  getRedirect_write_of_ne ne

/-- And so does unmasking. -/
theorem getRedirect_unmask_of_ne (ne : irq' ≠ irq) :
    apicIoGetRedirect irq' (apicIoUnmaskIrq irq io) = apicIoGetRedirect irq' io :=
  getRedirect_write_of_ne ne

/-- And redirecting. -/
theorem getRedirect_redirect_of_ne (ne : irq' ≠ irq) :
    apicIoGetRedirect irq' (apicIoRedirectIrq irq vector alow ltriggered io) =
      apicIoGetRedirect irq' io :=
  (getRedirect_write_of_ne ne).trans getRedirect_write_succ

/-- A line that is masked is masked. -/
theorem masked_mask : (apicIoMaskIrq irq io).masked irq = true := by
  simp only [IoApic.masked, apicIoGetRedirect, apicIoMaskIrq, IoApic.read, IoApic.write,
    Function.update_self, bne_iff_ne, ne_eq]
  intro none
  have bit := congrArg (BitVec.getLsbD · 16) none
  simp at bit

/-- Unmasking leaves the rest of an entry. -/
theorem getRedirect_unmask : apicIoGetRedirect irq (apicIoUnmaskIrq irq io) =
    { apicIoGetRedirect irq io with masked := false } := by
  have kept (e field : BitVec 32) (apart : ~~~(0x10000 : BitVec 32) &&& field = field) :
      e &&& ~~~(0x10000 : BitVec 32) &&& field = e &&& field := by
    rw [BitVec.and_assoc, apart]
  have vector (e) := kept e 0xFF (by decide)
  have low (e) := kept e ((1 <<< 13 : Nat) : BitVec 32) (by decide)
  have level (e) := kept e ((1 <<< 15 : Nat) : BitVec 32) (by decide)
  have mask (e : BitVec 32) :
      e &&& ~~~(0x10000 : BitVec 32) &&& ((1 <<< 16 : Nat) : BitVec 32) = 0 := by
    rw [BitVec.and_assoc]
    exact BitVec.and_zero
  simp only [apicIoGetRedirect, apicIoUnmaskIrq, IoApic.read, IoApic.write, Function.update_self]
  rw [vector, low, level, mask]
  rfl

/-- One that is unmasked is not. -/
theorem masked_unmask : (apicIoUnmaskIrq irq io).masked irq = false := by
  rw [IoApic.masked, getRedirect_unmask]

/-- It has the vector it had. -/
theorem vector_unmask : (apicIoUnmaskIrq irq io).vector irq = io.vector irq := by
  rw [IoApic.vector, getRedirect_unmask]
  rfl

/-- The bits of an entry that is redirected, for all vectors and modes. -/
theorem redirect_bits : ∀ (vector : Fin 256) (alow ltriggered : Bool),
    let entry : BitVec 32 := (BitVec.ofFin vector : BitVec 8).setWidth 32 |||
      (BitVec.ofBool alow).setWidth 32 <<< 13 ||| (BitVec.ofBool ltriggered).setWidth 32 <<< 15 |||
      1 <<< 16
    (entry &&& 0xFF).setWidth 8 = BitVec.ofFin vector ∧ (entry &&& 1 <<< 16 != 0) = true := by
  decide +kernel

/-- It is masked. -/
theorem masked_redirect : (apicIoRedirectIrq irq vector alow ltriggered io).masked irq = true := by
  simp only [IoApic.masked, apicIoGetRedirect, apicIoRedirectIrq, IoApic.read, IoApic.write,
    Function.update_self]
  exact (redirect_bits vector.toFin alow ltriggered).2

/-- It is on its vector. -/
theorem vector_redirect :
    (apicIoRedirectIrq irq vector alow ltriggered io).vector irq = vector := by
  simp only [IoApic.vector, apicIoGetRedirect, apicIoRedirectIrq, IoApic.read, IoApic.write,
    Function.update_self]
  exact (redirect_bits vector.toFin alow ltriggered).1

/-- No function but `apic_io_unmask_irq` unmasks an entry. -/
theorem masked_redirect_of (h : io.masked irq' = true) :
    (apicIoRedirectIrq irq vector alow ltriggered io).masked irq' = true := by
  by_cases same : irq' = irq
  · rw [same]
    exact masked_redirect
  · rw [IoApic.masked, getRedirect_redirect_of_ne same]
    exact h

/-- What is masked and redirected, in whatever order, is no line that is not masked. -/
theorem redirected_mask (unmasked : (apicIoRedirectIrq irq vector alow ltriggered
    (apicIoMaskIrq irq io)).masked irq' = false) :
    irq' ≠ irq ∧ apicIoGetRedirect irq' (apicIoRedirectIrq irq vector alow ltriggered
      (apicIoMaskIrq irq io)) = apicIoGetRedirect irq' io := by
  have other : irq' ≠ irq := by
    rintro rfl
    rw [masked_redirect] at unmasked
    cases unmasked
  exact ⟨other, (getRedirect_redirect_of_ne other).trans (getRedirect_mask_of_ne other)⟩

/-- A line that is not masked is not the one that was redirected. -/
theorem masked_redirected (unmasked : (apicIoMaskIrq irq
    (apicIoRedirectIrq irq vector alow ltriggered io)).masked irq' = false) :
    irq' ≠ irq ∧ apicIoGetRedirect irq' (apicIoMaskIrq irq
      (apicIoRedirectIrq irq vector alow ltriggered io)) = apicIoGetRedirect irq' io := by
  have other : irq' ≠ irq := by
    rintro rfl
    rw [masked_mask] at unmasked
    cases unmasked
  exact ⟨other, (getRedirect_mask_of_ne other).trans (getRedirect_redirect_of_ne other)⟩

/-! ### At power-on -/

/-- What every round keeps, the loop keeps. -/
theorem recordLoop_keeps {σ : Type} {P : σ → Prop} {body : σ → Addr → σ} {s s' : σ}
    (keeps : ∀ s record, P s → P (body s record)) (start : P s)
    (run : recordLoop mem madt body fuel record s = some s') : P s' := by
  induction fuel generalizing record s with
  | zero => cases run
  | succ fuel ih =>
    rw [recordLoop] at run
    split at run
    · obtain rfl := Option.some.inj run
      exact start
    · exact ih (keeps _ _ start) run

/-- What was masked at power-on is masked when the controllers are configured. -/
theorem configureIoApic_masked (reset : ∀ irq, io.masked irq = true)
    (run : configureIoApic mem madt fuel io = some io') : ∀ irq, io'.masked irq = true := by
  obtain ⟨io₁, first, second⟩ := Option.bind_eq_some_iff.mp run
  have registered : ∀ irq, io₁.masked irq = true := by
    refine recordLoop_keeps (P := fun io => ∀ irq, io.masked irq = true) (fun io record h => ?_)
      reset first
    rw [ioapicRecord]
    split
    · exact h
    · exact h
  refine recordLoop_keeps (P := fun io => ∀ irq, io.masked irq = true) (fun io record h => ?_)
    registered second
  rw [isoRecord]
  split
  · exact fun irq => masked_redirect_of (h irq)
  · exact h

end Skylight.Apic
