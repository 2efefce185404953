import Skylight.Mem.Pmm.Pfa

/-!
# Ports of the AHCI controller

`ahci_controller_configure_all_ports` of `iodev/disk/ahci.c`: the ports with a drive are found, and
each is given a command list, a page for received FISes, and command tables. The registers of a port
that start and stop it are left out.
-/

namespace Skylight.Ahci

open Skylight.Pmm

/-- `ahci_controller_port_type_t` -/
inductive PortType
  | none
  | sata
  | satapi
  | semb
  | pm
  deriving DecidableEq

/-- The registers of a port that tell what is behind it. -/
structure PortRegisters where
  sataStatus : BitVec 32
  signature : BitVec 32

/-- `ahci_hba_mem_t`, as far as the driver reads it. -/
structure Hba where
  portsImplemented : BitVec 32
  ports : Nat → PortRegisters

/-- `ahci_drive_handle_t` -/
structure DriveHandle where
  portHba : Option PortRegisters
  portNumber : Nat
  portType : PortType

/-- `AHCI_CONTROLLER_PORT_COUNT` -/
def portCount : Nat := 0x20

/-- `AHCI_CMD_HEADERS_PER_LIST` -/
def cmdHeadersPerList : Nat := 0x20

/-- `ahci_controller_classify_port` -/
def classifyPort (port : PortRegisters) : PortType :=
  let interfacePowerManagement := (port.sataStatus >>> 8) &&& 0b111
  let deviceDetection := port.sataStatus &&& 0b111
  if deviceDetection ≠ 0x03 then .none
  else if interfacePowerManagement ≠ 0x01 then .none
  else if port.signature = 0x00000101 then .sata
  else if port.signature = 0xEB140101 then .satapi
  else if port.signature = 0xC33C0101 then .semb
  else if port.signature = 0x96690101 then .pm
  else .none

/-- `ahci_controller_register_port` -/
def registerPort (hba : Hba) (drivePorts : Nat → DriveHandle) (port : Nat) : Nat → DriveHandle :=
  let portType := classifyPort (hba.ports port)
  match portType with
  | .sata | .satapi => Function.update drivePorts port ⟨some (hba.ports port), port, portType⟩
  | _ => drivePorts

/-- `ahci_controller_probe_ports`, from handles that are all zero. -/
def probePorts (hba : Hba) : Nat → DriveHandle :=
  (List.range portCount).foldl
    (fun drivePorts i =>
      if hba.portsImplemented.getLsbD i then registerPort hba drivePorts i else drivePorts)
    fun _ => ⟨none, 0, .none⟩

/-- `DESIRED_PRDT_LENGTH` -/
def desiredPrdtLength : Nat := 8

/-- `sizeof(ahci_hba_prdt_entry_t)` -/
def prdtEntrySize : Nat := 16

/-- `sizeof(ahci_hba_command_table_t)`: its entries are not counted. -/
def commandTableSize : Nat := 0x80

/-- `cmd_table_size` -/
def cmdTableSize : Nat := commandTableSize + prdtEntrySize * desiredPrdtLength

/-- The fields of an `ahci_hba_command_header_t` that are set here. -/
structure CommandHeader where
  prdtLength : Nat
  commandTableBaseLower : Nat
  commandTableBaseUpper : Nat

/-- `GET_CMD_TABLE_BASE` -/
def CommandHeader.tableBase (h : CommandHeader) : Nat :=
  h.commandTableBaseLower + h.commandTableBaseUpper * 2 ^ 32

/-- What a port was given: its pages, the headers in the first of them, and the memory that was
cleared for the tables. The manager before and after `pmm_alloc_pool`, and the pages the heap took
in that call, are kept for the statement. -/
structure Configured where
  port : Nat
  cmdBase : Nat
  fisBase : Nat
  headers : List CommandHeader
  cleared : Nat × Nat
  before : State
  after : State
  taken : List Nat

/-- `ahci_controller_configure_port`, the driver being available. `m` is what `malloc` does in
`pmm_alloc_pool`. -/
def configurePort (drivePorts : Nat → DriveHandle) (m : Malloc) (portNo : Nat) (s : State) :
    Except Fault (Option Configured × State) := do
  let drive := drivePorts portNo
  if drive.portHba.isNone ∨ drive.portType = .none ∨ drive.portNumber ≠ portNo then
    return (none, s)
  let (newCmdBase, s) ← pmmAllocPage s
  let (newFisBase, s) ← pmmAllocPage s
  let before := s
  let (cmdTablesAddr, taken, s) ← pmmAllocPool s (cmdTableSize / pageSize) m
  let headers := (List.range cmdHeadersPerList).map fun i =>
    let cmdTableBase := Word.add cmdTablesAddr (Word.mul i cmdTableSize)
    { prdtLength := desiredPrdtLength
      commandTableBaseLower := cmdTableBase % 2 ^ 32
      commandTableBaseUpper := cmdTableBase / 2 ^ 32 }
  let port :=
    { port := portNo
      cmdBase := newCmdBase
      fisBase := newFisBase
      headers := headers
      cleared := (cmdTablesAddr, cmdTableSize * cmdHeadersPerList)
      before := before
      after := s
      taken := taken }
  return (some port, s)

/-- The loop of `ahci_controller_configure_all_ports`. -/
def configurePorts (drivePorts : Nat → DriveHandle) (m : Nat → Malloc) :
    List Nat → State → Except Fault (List Configured × State)
  | [], s => .ok ([], s)
  | i :: rest, s => do
    let (port, s) ← configurePort drivePorts (m i) i s
    let (ports, s) ← configurePorts drivePorts m rest s
    return (port.toList ++ ports, s)

/-- `ahci_controller_configure_all_ports`, the first time. -/
def configureAllPorts (hba : Hba) (m : Nat → Malloc) (s : State) :
    Except Fault (List Configured × State) :=
  configurePorts (probePorts hba) m (List.range portCount) s

end Skylight.Ahci
