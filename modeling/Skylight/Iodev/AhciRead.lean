import Skylight.Iodev.Ahci

/-!
# Reading from a drive

`ahci_drive_command_read_wait` of `iodev/disk/ahci.c`, with the structures of `iodev/disk/ahci.h`
that it fills in. The registers of a port that change while they are polled are what each read of
them gives.
-/

namespace Skylight.Ahci

/-- `ahci_hba_prdt_entry_t` -/
structure PrdtEntry where
  dataBaseLower : BitVec 32
  dataBaseUpper : BitVec 32
  reserved : BitVec 32
  byteCount : BitVec 22
  reservedBits : BitVec 9
  interruptPlease : BitVec 1

/-- `ahci_fis_reg_h2d_t`, without its reserved fields. -/
structure FisRegH2d where
  fisType : BitVec 8
  portMultiplier : BitVec 4
  commandControl : BitVec 1
  command : BitVec 8
  featureLow : BitVec 8
  lba0 : BitVec 8
  lba1 : BitVec 8
  lba2 : BitVec 8
  deviceRegister : BitVec 8
  lba3 : BitVec 8
  lba4 : BitVec 8
  lba5 : BitVec 8
  featureHigh : BitVec 8
  countLow : BitVec 8
  countHigh : BitVec 8
  isoCommandCompletion : BitVec 8
  control : BitVec 8

/-- A cleared FIS. -/
def FisRegH2d.zero : FisRegH2d := ⟨0, 0, 0, 0, 0, 0, 0, 0, 0, 0, 0, 0, 0, 0, 0, 0, 0⟩

/-- The first command of a port: the fields of its header that are set for it, and what its table
holds. -/
structure Slot where
  commandFisLength : BitVec 5
  writeField : BitVec 1
  prdtLength : BitVec 16
  commandFis : FisRegH2d
  prdtEntry : PrdtEntry

/-- What the registers of a port are at each read. -/
structure Polled where
  taskFileData : Nat → BitVec 32
  interruptStatus : Nat → BitVec 32
  commandIssue : Nat → BitVec 32

/-- `AHCI_ATA_DEV_BUSY` -/
def ataDevBusy : BitVec 32 := 0x80
/-- `AHCI_ATA_DEV_DRQ` -/
def ataDevDrq : BitVec 32 := 0x08
/-- `AHCI_ATA_CMD_READ_DMA_EXT` -/
def ataCmdReadDmaExt : BitVec 8 := 0x25
/-- `AHCI_FIS_TYPE_REG_H2D` -/
def fisTypeRegH2d : BitVec 8 := 0x27
/-- `CMD_FIS_REG_LBA_MODE` -/
def cmdFisRegLbaMode : BitVec 8 := 1 <<< 6
/-- `HBA_STATUS_TFES` -/
def hbaStatusTfes : BitVec 32 := 1 <<< 30

/-- What is written before the drive is waited for. `memset` ends before the entry. -/
def fillSlot (lba : BitVec 64) (sectorCount : BitVec 32) (outBuffer : BitVec 64) (slot : Slot) :
    Slot :=
  let lbaLower := (lba >>> 0).setWidth 32
  let lbaUpper := (lba >>> 32).setWidth 32
  { commandFisLength := 20 / 4
    writeField := 0
    prdtLength := 1
    prdtEntry := { slot.prdtEntry with
      dataBaseLower := (outBuffer >>> 0).setWidth 32
      dataBaseUpper := (outBuffer >>> 32).setWidth 32
      byteCount := (sectorCount * 512).setWidth 22
      interruptPlease := 1 }
    commandFis := { FisRegH2d.zero with
      fisType := fisTypeRegH2d
      commandControl := 1
      command := ataCmdReadDmaExt
      lba0 := ((lbaLower >>> 0) &&& 0xFF).setWidth 8
      lba1 := ((lbaLower >>> 8) &&& 0xFF).setWidth 8
      lba2 := ((lbaLower >>> 16) &&& 0xFF).setWidth 8
      lba3 := ((lbaUpper >>> 0) &&& 0xFF).setWidth 8
      lba4 := ((lbaUpper >>> 8) &&& 0xFF).setWidth 8
      lba5 := ((lbaUpper >>> 16) &&& 0xFF).setWidth 8
      deviceRegister := cmdFisRegLbaMode
      countLow := (sectorCount &&& 0xFF).setWidth 8
      countHigh := (sectorCount >>> 8).setWidth 8 } }

/-- The loop that waits for the drive: whether it is idle at one of the reads. -/
def waitIdle (port : Polled) : Nat → Nat → Bool
  | 0, _ => false
  | reads + 1, k =>
    if port.taskFileData k &&& (ataDevBusy ||| ataDevDrq) = 0 then true
    else waitIdle port reads (k + 1)

/-- The loop that waits for the command. -/
def waitDone (port : Polled) : Nat → Nat → Option Bool
  | 0, _ => none
  | rounds + 1, k =>
    if port.interruptStatus k &&& hbaStatusTfes ≠ 0 then some false
    else if port.commandIssue k = 0 then some true
    else waitDone port rounds (k + 1)

/-- What a call does: the command that is issued, and what it answers within the rounds given. -/
structure Read where
  issued : Option Slot
  answer : Option Bool

/-- `ahci_drive_command_read_wait`. The watchdog allows `0x100002` reads. -/
def ahciDriveCommandReadWait (available : Bool) (drive : DriveHandle) (port : Polled) (rounds : Nat)
    (lba : BitVec 64) (sectorCount : BitVec 32) (outBuffer : BitVec 64) (slot : Slot) : Read :=
  if !available then ⟨none, some false⟩
  else if drive.portType ≠ .sata then ⟨none, some false⟩
  else
    let slot := fillSlot lba sectorCount outBuffer slot
    if waitIdle port 0x100002 0 then ⟨some slot, waitDone port rounds 0⟩
    else ⟨none, some false⟩

end Skylight.Ahci
