import Skylight.Extra.Conv
import Skylight.Lib.X86.Machine

/-!
# The trace of a crash

`__print_interrupt_stacktrace` of `cpu/interrupts/isr.c`. A frame has the next one at `rbp` and its
return address at `rbp + 8`. The loop over the frames takes fuel.
-/

namespace Skylight.Backtrace

open X86 (Word)
open Conv (Buffer utoa cString)
open Shell (ascii)

/-- `symbol_t`, the name without its NUL -/
structure Symbol where
  addr : Word
  name : List (BitVec 8)

/-- The address that ends `__symbol_tab`. -/
def lastAddr : Word := 0xFFFFFFFFFFFFFFFF

/-- `ctx->base_frame`, as far as it is read -/
structure BaseFrame where
  rbp : Word
  rip : Word

/-- What `serial_print_quiet` was given, and `itoa_buffer`. -/
structure Trace where
  printed : List (BitVec 8)
  itoaBuffer : Buffer

/-- `serial_print_quiet` -/
def Trace.print (t : Trace) (s : List (BitVec 8)) : Trace := { t with printed := t.printed ++ s }

/-- The search in `__symbol_tab`. -/
def searchSymbol (rip : Word) : List Symbol → Option Symbol
  | symbol :: next :: rest =>
    if symbol.addr = lastAddr then none
    else if rip ≥ symbol.addr ∧ rip < next.addr then some symbol
    else searchSymbol rip (next :: rest)
  | _ => none

/-- The first half of a round: the line for an address. -/
def printAddress (symbolTab : List Symbol) (rip : Word) (t : Trace) : Option Trace :=
  let t := t.print (ascii "\t")
  (utoa rip t.itoaBuffer 16).map fun (_, buffer) =>
    let t := { t with itoaBuffer := buffer }
    let t := t.print (cString buffer 67)
    match searchSymbol rip symbolTab with
    | some symbol => ((t.print (ascii " <")).print symbol.name).print (ascii ">\r\n")
    | none => t.print (ascii " <unknown>\r\n")

/-- The loop over the frames. -/
def stacktraceLoop (mem : Word → Word) (symbolTab : List Symbol) (ctx : BaseFrame) :
    Nat → Word → Word → Trace → Option Trace
  | 0, _, _, _ => none
  | fuel + 1, rbp, rip, t =>
    (printAddress symbolTab rip t).bind fun t =>
      let rbp := if rip ≠ ctx.rip then mem rbp else rbp
      if rbp = 0 then some t
      else stacktraceLoop mem symbolTab ctx fuel rbp (mem (rbp + 8)) t

/-- `__print_interrupt_stacktrace`, with any bytes in `itoa_buffer`. -/
def printInterruptStacktrace (mem : Word → Word) (symbolTab : List Symbol) (fuel : Nat)
    (ctx : BaseFrame) (itoaBuffer : Buffer) : Option Trace :=
  let t : Trace := ⟨ascii "\r\nAttempted stacktrace: interrupt during \r\n", itoaBuffer⟩
  stacktraceLoop mem symbolTab ctx fuel ctx.rbp ctx.rip t

end Skylight.Backtrace
