import Mathlib.Data.BitVec

/-!
# The shell on the serial port

`iodev/uart/shell.c`. What a command prints is its own business: a run of its handler is one
event. The line that is typed is kept in the memory from `command_buffer` on, a page of it.
-/

namespace Skylight.Shell

/-- `__shell_command_help`, …, `__shell_command_disk_dump` -/
inductive Command
  | help | ping | dumpIdt | dumpGdt | dumpTss | dumpProc | memMap | uartInfo | pciInfo | clear
  | diskInfo | diskDump
  deriving DecidableEq

/-- `__shell_command_handlers` -/
def handlers : List Command :=
  [.help, .ping, .dumpIdt, .dumpGdt, .dumpTss, .dumpProc, .memMap, .uartInfo, .pciInfo, .clear,
    .diskInfo, .diskDump]

/-- The bytes of a text, without the NUL. -/
def ascii (s : String) : List (BitVec 8) := s.toList.map fun c => BitVec.ofNat 8 c.toNat

/-- `__uart_shell_commands` -/
def commands : List (List (BitVec 8)) :=
  ["help", "ping", "idt", "gdt", "tss", "lsp", "mem", "uart", "pci", "clear", "lsdisks",
    "disktest"].map ascii

def shellPrompt : List (BitVec 8) := ascii "glass #> "

/-- What is seen of the shell: a byte that it sends, and a handler that it runs. -/
inductive Event
  | sent (byte : BitVec 8)
  | ran (command : Command)

/-- `prompt_placed`, `output_port`, the memory from `command_buffer` on and
`command_buffer_index`, with all events so far. -/
structure State where
  promptPlaced : Bool
  outputPort : BitVec 16
  commandBuffer : Nat → BitVec 8
  commandBufferIndex : Nat
  events : List Event

/-- `__uart_internal_write` to the output port -/
def internalWrite (s : List (BitVec 8)) (m : State) : State :=
  if m.outputPort = 0 then m else { m with events := m.events ++ s.map .sent }

/-- `uart_shell_cancel_prompt` -/
def cancelPrompt (m : State) : State :=
  if !m.promptPlaced then m else
  { internalWrite (List.replicate shellPrompt.length 8) m with promptPlaced := false }

/-- `uart_shell_replace_prompt` -/
def replacePrompt (m : State) : State :=
  let m := if m.promptPlaced then cancelPrompt m else m
  { internalWrite shellPrompt m with promptPlaced := true }

/-- `uart_shell_write` -/
def shellWrite (s : List (BitVec 8)) (m : State) : State :=
  let m := cancelPrompt m
  if m.outputPort = 0 then m else replacePrompt (internalWrite s m)

/-- `uart_shell_command_execute` -/
def commandExecute (commandNo : Nat) (m : State) : State :=
  match handlers[commandNo]? with
  | none => m
  | some command => { m with events := m.events ++ [.ran command] }

def pagingPageSize : Nat := 0x1000

/-- `uart_shell_clear_buffer` -/
def clearBuffer (m : State) : State :=
  { m with
    commandBuffer := fun i => if i < pagingPageSize then 0 else m.commandBuffer i
    commandBufferIndex := 0 }

/-- `__uart_command_match`: a command ends with a NUL. -/
def commandMatch (input : Nat → BitVec 8) : List (BitVec 8) → Bool
  | [] => input 0 == 0
  | c :: command => if input 0 ≠ c then false else commandMatch (fun i => input (i + 1)) command

def uartshBufferMax : Nat := 4094

/-- `uart_command_buffer_append` -/
def commandBufferAppend (c : BitVec 8) (m : State) : State :=
  if m.commandBufferIndex ≤ uartshBufferMax then
    { m with
      commandBuffer := Function.update m.commandBuffer m.commandBufferIndex c
      commandBufferIndex := m.commandBufferIndex + 1 }
  else m

/-- `uart_shell_command_finalize` -/
def commandFinalize (m : State) : State :=
  if m.commandBufferIndex = 0 then replacePrompt { m with promptPlaced := false } else
  let m := { m with commandBuffer := Function.update m.commandBuffer m.commandBufferIndex 0 }
  match commands.findIdx? (commandMatch m.commandBuffer) with
  | some i => clearBuffer (replacePrompt { commandExecute i m with promptPlaced := false })
  | none => clearBuffer (shellWrite (ascii "Unknown command...\r\n") m)

def unsupportedLf : BitVec 8 := 0x0A
def supportedCr : BitVec 8 := 0x0D

/-- `__uart_shell_handle_character` -/
def handleCharacter (m : State) (c : BitVec 8) : State :=
  if c = unsupportedLf ∨ c = supportedCr then
    commandFinalize (internalWrite (ascii "\r\n") m)
  else if (c < 0x20 ∨ c > 0x7E) ∧ c ≠ supportedCr then m
  else
    let cs := if c = supportedCr then unsupportedLf else c
    commandBufferAppend c (internalWrite [cs] m)

/-- `uart_shell_start`, in any memory. -/
def shellStart (outPort : BitVec 16) (memory : Nat → BitVec 8) : State :=
  replacePrompt
    { promptPlaced := false
      outputPort := outPort
      commandBuffer := fun i => if i < pagingPageSize then 0 else memory i
      commandBufferIndex := 0
      events := [] }

def State.run (m : State) (stream : List (BitVec 8)) : State := stream.foldl handleCharacter m

end Skylight.Shell
