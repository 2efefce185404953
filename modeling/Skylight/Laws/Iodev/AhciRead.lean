import Mathlib.Tactic.Ring
import Skylight.Iodev.AhciRead

/-!
# What a read asks for

The command against the request it is for. Three of its fields are those of the request up to a
bound each, or never: the address skips its fourth byte, the count has 16 bits, and the length is
written as it is where one less is meant.
-/

namespace Skylight.Ahci

/-- The address in a FIS. -/
def FisRegH2d.lba (f : FisRegH2d) : Nat :=
  f.lba0.toNat + 2 ^ 8 * f.lba1.toNat + 2 ^ 16 * f.lba2.toNat + 2 ^ 24 * f.lba3.toNat +
    2 ^ 32 * f.lba4.toNat + 2 ^ 40 * f.lba5.toNat

/-- The number of sectors in a FIS. -/
def FisRegH2d.count (f : FisRegH2d) : Nat := f.countLow.toNat + 2 ^ 8 * f.countHigh.toNat

/-- The bytes that an entry describes: its count is one less. -/
def PrdtEntry.bytes (e : PrdtEntry) : Nat := e.byteCount.toNat + 1

/-- The command asks for these sectors, and for a buffer of their size. -/
structure Encodes (slot : Slot) (lba : BitVec 64) (sectorCount : BitVec 32) : Prop where
  lba : slot.commandFis.lba = lba.toNat
  count : slot.commandFis.count = sectorCount.toNat
  bytes : slot.prdtEntry.bytes = 512 * sectorCount.toNat

section
variable {available : Bool} {drive : DriveHandle} {port : Polled} {rounds k : Nat} {lba : BitVec 64}
  {sectorCount : BitVec 32} {outBuffer : BitVec 64} {slot slot' : Slot}

/-- A byte of an address. -/
theorem toNat_byte (x : BitVec 32) (k : Nat) :
    (((x >>> k) &&& 0xFF).setWidth 8).toNat = x.toNat / 2 ^ k % 2 ^ 8 := by
  rw [BitVec.toNat_setWidth, BitVec.toNat_and, BitVec.toNat_ushiftRight, Nat.shiftRight_eq_div_pow,
    show (0xFF : BitVec 32).toNat = 2 ^ 8 - 1 from rfl, Nat.and_two_pow_sub_one_eq_mod, Nat.mod_mod]

/-- Three bytes are a number below `2 ^ 24`. -/
theorem three_bytes (n : Nat) :
    n / 2 ^ 0 % 2 ^ 8 + 2 ^ 8 * (n / 2 ^ 8 % 2 ^ 8) + 2 ^ 16 * (n / 2 ^ 16 % 2 ^ 8) =
    n % 2 ^ 24 := by
  have second : n / 2 ^ 16 = n / 2 ^ 8 / 2 ^ 8 := (Nat.div_div_eq_div_mul n (2 ^ 8) (2 ^ 8)).symm
  rw [second, Nat.pow_zero, Nat.div_one]
  omega

/-- The address is the request's up to its third byte. -/
theorem fillSlot_lba (bits : lba.toNat < 2 ^ 48) :
    (fillSlot lba sectorCount outBuffer slot).commandFis.lba = lba.toNat ↔ lba.toNat < 2 ^ 24 := by
  have lower : ((lba >>> 0).setWidth 32).toNat = lba.toNat % 2 ^ 32 := by
    rw [BitVec.toNat_setWidth, BitVec.ushiftRight_zero]
  have upper : ((lba >>> 32).setWidth 32).toNat = lba.toNat / 2 ^ 32 := by
    rw [BitVec.toNat_setWidth, BitVec.toNat_ushiftRight, Nat.shiftRight_eq_div_pow]
    omega
  have decoded : (fillSlot lba sectorCount outBuffer slot).commandFis.lba =
      lba.toNat % 2 ^ 32 % 2 ^ 24 + 2 ^ 24 * (lba.toNat / 2 ^ 32 % 2 ^ 24) := by
    rw [← three_bytes (lba.toNat % 2 ^ 32), ← three_bytes (lba.toNat / 2 ^ 32), FisRegH2d.lba,
      fillSlot]
    dsimp only
    rw [toNat_byte, toNat_byte, toNat_byte, toNat_byte, toNat_byte, toNat_byte, lower, upper]
    ring
  -- the fourth byte of the field is the fifth of the address
  have high : lba.toNat / 2 ^ 32 % 2 ^ 24 = lba.toNat / 2 ^ 32 := Nat.mod_eq_of_lt (by omega)
  rw [decoded, high]
  omega

/-- The count is the request's up to 16 bits. -/
theorem fillSlot_count :
    (fillSlot lba sectorCount outBuffer slot).commandFis.count = sectorCount.toNat ↔
      sectorCount.toNat < 2 ^ 16 := by
  have low := toNat_byte sectorCount 0
  rw [BitVec.ushiftRight_zero] at low
  rw [FisRegH2d.count, fillSlot]
  dsimp only
  rw [low, BitVec.toNat_setWidth, BitVec.toNat_ushiftRight, Nat.shiftRight_eq_div_pow]
  omega

/-- An entry describes an odd number of bytes. -/
theorem fillSlot_bytes : (fillSlot lba sectorCount outBuffer slot).prdtEntry.bytes =
    512 * sectorCount.toNat % 2 ^ 22 + 1 := by
  rw [PrdtEntry.bytes, fillSlot]
  dsimp only
  rw [BitVec.toNat_setWidth, BitVec.toNat_mul, show (512 : BitVec 32).toNat = 512 from rfl]
  omega

/-- What is issued was filled in for the request. -/
theorem issued_eq (issued : (ahciDriveCommandReadWait available drive port rounds lba sectorCount
    outBuffer slot).issued = some slot') : slot' = fillSlot lba sectorCount outBuffer slot := by
  rw [ahciDriveCommandReadWait] at issued
  split_ifs at issued
  · exact (Option.some.inj issued).symm

/-- No command that is issued is the request. Its address is if it has three bytes, its count is if
it has two, and its length never is. -/
theorem encodes_never (bits : lba.toNat < 2 ^ 48)
    (issued : (ahciDriveCommandReadWait available drive port rounds lba sectorCount outBuffer
      slot).issued = some slot') :
    ¬ Encodes slot' lba sectorCount ∧
      (slot'.commandFis.lba = lba.toNat ↔ lba.toNat < 2 ^ 24) ∧
      (slot'.commandFis.count = sectorCount.toNat ↔ sectorCount.toNat < 2 ^ 16) ∧
      slot'.prdtEntry.bytes ≠ 512 * sectorCount.toNat := by
  obtain rfl := issued_eq issued
  have bytes : (fillSlot lba sectorCount outBuffer slot).prdtEntry.bytes ≠
      512 * sectorCount.toNat := by
    rw [fillSlot_bytes]
    omega
  exact ⟨fun encodes => bytes encodes.bytes, fillSlot_lba bits, fillSlot_count, bytes⟩

end

/-! ### A request -/

/-- An idle drive. -/
def idlePort : Polled := ⟨fun _ => 0x50, fun _ => 0, fun _ => 0⟩

/-- A command that has not been used. -/
def newSlot : Slot := ⟨0, 0, 0, .zero, ⟨0, 0, 0, 0, 0, 0⟩⟩

/-- Four sectors from the first on, and an entry for a byte more. -/
theorem not_encodes : ¬ Encodes (fillSlot 0 4 0x200000 newSlot) 0 4 := by
  intro encodes
  have bytes := encodes.bytes
  rw [fillSlot_bytes] at bytes
  exact absurd bytes (by decide)

/-- Four sectors: the address and the count are right, and the length is not. -/
theorem encodes_never_four :
    ¬ Encodes (fillSlot 0 4 0x200000 newSlot) 0 4 ∧
      ((fillSlot 0 4 0x200000 newSlot).commandFis.lba = 0 ↔ 0 < 2 ^ 24) ∧
      ((fillSlot 0 4 0x200000 newSlot).commandFis.count = 4 ↔ 4 < 2 ^ 16) ∧
      (fillSlot 0 4 0x200000 newSlot).prdtEntry.bytes ≠ 512 * 4 := by
  have issued : (ahciDriveCommandReadWait true ⟨none, 0, .sata⟩ idlePort 1 0 4 0x200000
      newSlot).issued = some (fillSlot 0 4 0x200000 newSlot) := rfl
  exact encodes_never (by decide) issued

end Skylight.Ahci
