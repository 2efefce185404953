import Skylight.Extra.Conv
import Skylight.Extra.Strings

/-!
# Formatted output

`vprintf` of `extra/std/printf.c`. A place in `format` is what is left of it. The two buffers of 256
bytes are written with the bound checked; a width that runs out of one, and a read behind the NUL of
`format`, end the call with the fault.
-/

namespace Skylight.Printf

open Shell (ascii)
open Conv (Buffer cString)
open Strings (peek advance)

abbrev Word := BitVec 64

scoped instance lawfulByte : LawfulBEq (BitVec 8) := inferInstance

/-- A character constant. -/
def chr (c : Char) : BitVec 8 := BitVec.ofNat 8 c.toNat

/-- A byte of `format` behind its NUL is read, a byte outside a number buffer is written, or the
divisions of a `double` do not end in the rounds given. -/
inductive Fault
  | read
  | write
  | rounds
  deriving DecidableEq

/-- What the code does not say: what lies in memory, and what the arithmetic of a `double` is. -/
structure Machine (Double : Type) where
  /-- The byte at a negative place of `digit`. -/
  stray : Int → BitVec 8
  /-- What is read behind `intStrBuffer` if there is no NUL in it. -/
  behind : List (BitVec 8)
  /-- The string at an address. -/
  string : Word → List (BitVec 8)
  /-- The `double` in an argument. -/
  double : Word → Double
  /-- `floating >= 10` -/
  atLeastTen : Double → Bool
  /-- `floating / 10` -/
  divTen : Double → Double
  /-- `floating * 10` -/
  mulTen : Double → Double
  /-- `floating - (int) floating` -/
  fraction : Double → Double
  /-- `(intmax_t) floating` -/
  toInt : Double → Word
  /-- `(intmax_t) (floating + 0.5)` -/
  round : Double → Word

/-! ### `__int_str` -/

/-- The bytes of `intStrBuffer`, and of `a`. -/
def bufferSize : Nat := 256

def store (b : Buffer) (i : Nat) (c : BitVec 8) : Except Fault Buffer :=
  if i < bufferSize then .ok (Function.update b i c) else .error .write

def strlen (b : Buffer) : Nat := (cString b bufferSize).length

/-- The bytes of a string and its NUL, from `i` on. -/
def copyString : List (BitVec 8) → Buffer → Nat → Except Fault Buffer
  | [], dest, i => store dest i 0
  | c :: src, dest, i => do copyString src (← store dest i c) (i + 1)

def strcat (dest src : Buffer) : Except Fault Buffer :=
  copyString (cString src bufferSize) dest (strlen dest)

def strcpy (dest src : Buffer) : Except Fault Buffer := copyString (cString src bufferSize) dest 0

/-- `digit`, with the digits of the base `17`, which is 16 with small letters. -/
def digit (base : Nat) : List (BitVec 8) :=
  if base = 16 then ascii "0123456789ABCDEF"
  else if base = 17 then ascii "0123456789abcdef"
  else ascii "0123456789"

/-- `digit[index]` -/
def digitAt (stray : Int → BitVec 8) (digit : List (BitVec 8)) (index : Int) : BitVec 8 :=
  if 0 ≤ index then digit.getD index.toNat 0 else stray index

/-- The loop that moves `p` past the digits. A value has at most 64. -/
def shiftLoop (base : Nat) : Nat → Int → Nat → Nat
  | 0, _, p => p
  | rounds + 1, shifter, p =>
    let p := p + 1
    let shifter := shifter.tdiv base
    if shifter = 0 then p else shiftLoop base rounds shifter p

/-- The loop that writes the digits, the last one first. -/
def digitLoop (digitOf : Int → BitVec 8) (base : Nat) :
    Nat → Int → Nat → Buffer → Except Fault Buffer
  | 0, _, _, b => .ok b
  | rounds + 1, i, p, b => do
    let p := p - 1
    let b ← store b p (digitOf (i.tmod base))
    let i := i.tdiv base
    if i = 0 then return b else digitLoop digitOf base rounds i p b

/-- `while (padding--) b[strlen(b)] = pad` -/
def padLoop (pad : BitVec 8) : Nat → Buffer → Except Fault Buffer
  | 0, b => .ok b
  | padding + 1, b => do padLoop pad padding (← store b (strlen b) pad)

/-- The character before the digits. -/
def signOf (negative plusSignIfNeeded spaceSignIfNeeded : Bool) : Option (BitVec 8) :=
  if negative then some (chr '-')
  else if plusSignIfNeeded then some (chr '+')
  else if spaceSignIfNeeded then some (chr ' ')
  else none

/-- `*p++ = c`, if there is a sign. -/
def putSign (b : Buffer) : Option (BitVec 8) → Except Fault (Buffer × Nat)
  | none => .ok (b, 0)
  | some c => do return (← store b 0 c, 1)

/-- `__int_str`. The negation of `i` and the difference of the lengths wrap. -/
def intStr (stray : Int → BitVec 8) (i : Word) (b : Buffer) (base : Nat)
    (plusSignIfNeeded spaceSignIfNeeded : Bool) (paddingNo : BitVec 32) (justify zeroPad : Bool) :
    Except Fault Buffer := do
  let digitOf := digitAt stray (digit base)
  let base := if base = 17 then 16 else base
  let negative := decide (i.toInt < 0)
  let i := (if negative then -i else i).toInt
  let (b, p) ← putSign b (signOf negative plusSignIfNeeded spaceSignIfNeeded)
  let p := shiftLoop base 64 i p
  let b ← store b p 0
  let b ← digitLoop digitOf base 64 i p b
  let padding := (paddingNo - BitVec.ofNat 32 (strlen b)).toInt.toNat
  let pad := if zeroPad then chr '0' else chr ' '
  if justify then padLoop pad padding b
  else
    let a ← padLoop pad padding fun _ => 0
    let a ← strcat a b
    strcpy b a

/-! ### Arguments and output -/

/-- The kinds of arguments that are passed in different ways. -/
inductive Class
  | integer
  | double
  | longDouble
  deriving DecidableEq

/-- The variables of `vprintf`. `format` is what is left from `format[i]` on; `out` are the bytes
printed, `stores` the pointers of `%n` with their length and what is written there. The classes of
the arguments taken are kept for the statement only. -/
structure State where
  format : List (BitVec 8)
  list : Nat → Word
  chars : BitVec 32
  out : List (BitVec 8)
  stores : List (Word × BitVec 8 × BitVec 32)
  taken : List Class

namespace State

/-- `++i`, at a place that is not the NUL -/
def skip (s : State) : State := { s with format := s.format.tail }

/-- `va_arg` -/
def vaArg (s : State) (c : Class) : Word × State :=
  (s.list 0, { s with list := fun n => s.list (n + 1), taken := s.taken ++ [c] })

/-- `displayCharacter`. A NUL counts and is not printed. -/
def displayCharacter (s : State) (c : BitVec 8) : State :=
  { s with chars := s.chars + 1, out := if c = 0 then s.out else s.out ++ [c] }

/-- `displayString` -/
def displayString (s : State) (str : List (BitVec 8)) : State := str.foldl displayCharacter s

end State

/-! ### The scanner -/

/-- What stands between `%` and the end of a conversion. -/
structure Spec where
  leftJustify : Bool
  zeroPad : Bool
  spaceNoSign : Bool
  altForm : Bool
  plusSign : Bool
  lengthSpec : BitVec 32
  precSpec : BitVec 32
  length : BitVec 8
  specifier : BitVec 8

def isdigit (c : BitVec 8) : Bool := (chr '0').toInt ≤ c.toInt && c.toInt ≤ (chr '9').toInt

/-- The flags. -/
def scanFlags (spec : Spec) : List (BitVec 8) → Spec × List (BitVec 8)
  | [] => (spec, [])
  | c :: format =>
    if c = chr '-' then scanFlags { spec with leftJustify := true } format
    else if c = chr '+' then scanFlags { spec with plusSign := true } format
    else if c = chr '#' then scanFlags { spec with altForm := true } format
    else if c = chr ' ' then scanFlags { spec with spaceNoSign := true } format
    else if c = chr '0' then scanFlags { spec with zeroPad := true } format
    else (spec, c :: format)

/-- Digits of a number. -/
def scanDigits (n : BitVec 32) : List (BitVec 8) → BitVec 32 × List (BitVec 8)
  | [] => (n, [])
  | c :: format =>
    if isdigit c then scanDigits (n * 10 + (c.signExtend 32 - 48)) format else (n, c :: format)

/-- A number, or `*` behind it for an argument. -/
def scanNumber (s : State) : BitVec 32 × State :=
  let (n, format) := scanDigits 0 s.format
  let s := { s with format := format }
  if peek s.format = chr '*' then
    let (n, s) := s.vaArg .integer
    (n.setWidth 32, s.skip)
  else (n, s)

def scanPrecision (s : State) : BitVec 32 × State :=
  if peek s.format = chr '.' then scanNumber s.skip else (6, s)

/-- The length. At a second `h` the scanner stays. -/
def scanLength (s : State) : BitVec 8 × State :=
  if peek s.format ∈ ascii "hljztL" then
    let length := peek s.format
    let s := s.skip
    if peek s.format = chr 'h' then (chr 'H', s)
    else if peek s.format = chr 'l' then (chr 'q', s.skip)
    else (length, s)
  else (0, s)

/-- All of it; the place is that of the specifier then. -/
def scan (s : State) : Spec × State :=
  let (spec, format) := scanFlags ⟨false, false, false, false, false, 0, 0, 0, 0⟩ s.format
  let (lengthSpec, s) := scanNumber { s with format := format }
  let (precSpec, s) := scanPrecision s
  let (length, s) := scanLength s
  ({ spec with
      lengthSpec := lengthSpec, precSpec := precSpec, length := length,
      specifier := peek s.format }, s)

/-! ### Conversions -/

section
variable {Double : Type} (machine : Machine Double)

/-- What `displayString` reads from `intStrBuffer` on. -/
def Machine.text (b : Buffer) : List (BitVec 8) :=
  let str := cString b bufferSize
  if str.length < bufferSize then str else str ++ machine.behind

/-- The value of an argument of an unsigned conversion; there is none if the length is unknown. -/
def unsignedInteger (length : BitVec 8) (w : Word) : Option Word :=
  if length = 0 then some ((w.setWidth 32).setWidth 64)
  else if length = chr 'H' then some ((w.setWidth 8).setWidth 64)
  else if length = chr 'h' then some ((w.setWidth 16).setWidth 64)
  else if length ∈ ascii "lqjzt" then some w
  else none

/-- The same of `d` and `i`. -/
def signedInteger (length : BitVec 8) (w : Word) : Option Word :=
  if length = 0 then some ((w.setWidth 32).signExtend 64)
  else if length = chr 'H' then some ((w.setWidth 8).signExtend 64)
  else if length = chr 'h' then some ((w.setWidth 16).signExtend 64)
  else if length ∈ ascii "lqjzt" then some w
  else none

/-- A case of an integer conversion: an argument is taken if the length is known. -/
def showInteger (integer : BitVec 8 → Word → Option Word) (base : Nat) (spec : Spec) (s : State) :
    Except Fault State :=
  match integer spec.length (s.list 0) with
  | none => .ok s
  | some i => do
    let s := (s.vaArg .integer).2
    let b ← intStr machine.stray i (fun _ => 0) base spec.plusSign spec.spaceNoSign spec.lengthSpec
      spec.leftJustify spec.zeroPad
    return s.displayString (machine.text b)

/-- `while (emode && floating >= 10)`: what is left of `floating`, and `expo` -/
def scaleLoop (emode : Bool) : Nat → Double → BitVec 32 → Except Fault (Double × BitVec 32)
  | 0, _, _ => .error .rounds
  | rounds + 1, floating, expo =>
    if emode ∧ machine.atLeastTen floating then
      scaleLoop emode rounds (machine.divTen floating) (expo + 1)
    else .ok (floating, expo)

/-- `form` -/
def formOf (spec : Spec) (emode : Bool) (expo : BitVec 32) : BitVec 32 :=
  let form := spec.lengthSpec - spec.precSpec - expo -
    (if spec.precSpec ≠ 0 ∨ spec.altForm then 1 else 0)
  let form := if emode then form - 4 else form
  if form.toInt < 0 then 0 else form

/-- `intStrBuffer[index] = 0` -/
def terminate (b : Buffer) (index : BitVec 32) : Except Fault Buffer :=
  if index.toInt < 0 then .error .write else store b index.toNat 0

/-- The places behind the point. -/
def showFraction (floating : Double) (b : Buffer) (spec : Spec) (s : State) :
    Except Fault (Buffer × State) := do
  let floating := machine.mulTen^[spec.precSpec.toInt.toNat] (machine.fraction floating)
  let decPlaces := machine.round floating
  if spec.precSpec ≠ 0 then
    let s := s.displayCharacter (chr '.')
    let b ← intStr machine.stray decPlaces b 10 false false 0 false false
    let b ← terminate b spec.precSpec
    return (b, s.displayString (machine.text b))
  else return (b, if spec.altForm then s.displayCharacter (chr '.') else s)

/-- The cases of `e`, `f` and `g`, and what follows the `switch` for `e`. -/
def showDouble (rounds : Nat) (spec : Spec) (s : State) : Except Fault State := do
  let emode := decide (spec.specifier = chr 'e' ∨ spec.specifier = chr 'E')
  let (argument, s) := s.vaArg .double
  let (floating, expo) ← scaleLoop machine emode rounds (machine.double argument) 0
  let b ← intStr machine.stray (machine.toInt floating) (fun _ => 0) 10 spec.plusSign
    spec.spaceNoSign (formOf spec emode expo) spec.leftJustify spec.zeroPad
  let s := s.displayString (machine.text b)
  let (b, s) ← showFraction machine floating b spec s
  if emode then
    let s := s.displayString [spec.specifier, chr '+']
    let b ← intStr machine.stray (expo.signExtend 64) b 10 false false 2 false true
    return s.displayString (machine.text b)
  else return s

/-- The prefix of an alternative form. -/
def State.displayPrefix (s : State) (spec : Spec) (str : List (BitVec 8)) : State :=
  if spec.altForm then s.displayString str else s

/-- `case 'n'`: a pointer is taken if the length is known. -/
def showCount (spec : Spec) (s : State) : State :=
  if spec.length = 0 ∨ spec.length ∈ ascii "Hhlqjzt" then
    let (pointer, s) := s.vaArg .integer
    { s with stores := s.stores ++ [(pointer, spec.length, s.chars)] }
  else s

/-- The `switch` over the specifier. -/
def convert (rounds : Nat) (spec : Spec) (s : State) : Except Fault State :=
  let c := spec.specifier
  if c = chr 'o' then showInteger machine unsignedInteger 8 spec (s.displayPrefix spec (ascii "0"))
  else if c = chr 'p' then
    showInteger machine unsignedInteger 16 { spec with length := chr 'z' } s
  else if c = chr 'X' then
    showInteger machine unsignedInteger 16 spec (s.displayPrefix spec (ascii "0x"))
  else if c = chr 'x' then
    showInteger machine unsignedInteger 17 spec (s.displayPrefix spec (ascii "0x"))
  else if c = chr 'u' then showInteger machine unsignedInteger 10 spec s
  else if c = chr 'd' ∨ c = chr 'i' then showInteger machine signedInteger 10 spec s
  else if c = chr 'c' then
    let (argument, s) := s.vaArg .integer
    .ok (s.displayCharacter (argument.setWidth 8))
  else if c = chr 's' then
    let (argument, s) := s.vaArg .integer
    .ok (s.displayString (machine.string argument))
  else if c = chr 'n' then .ok (showCount spec s)
  else if c ∈ ascii "eEfFgG" then showDouble machine rounds spec s
  else .ok s

/-- The body of the loop over `format`, and its `++i`: the next character is read then. -/
def round (rounds : Nat) (s : State) : Except Fault State :=
  if peek s.format = chr '%' then do
    let (spec, s) := scan s.skip
    let s ← convert machine rounds spec s
    match advance s.format with
    | none => .error .read
    | some format => return { s with format := format }
  else .ok (s.displayCharacter (peek s.format)).skip

/-- The loop over `format`, of which a round passes a character at least. -/
def formatLoop (rounds : Nat) : Nat → State → Except Fault State
  | 0, s => .ok s
  | length + 1, s =>
    if peek s.format = 0 then .ok s else do formatLoop rounds length (← round machine rounds s)

/-- `vprintf`: the bytes it prints, what it writes for `%n` and the count it returns are in the
answer. -/
def vprintf (rounds : Nat) (format : List (BitVec 8)) (list : Nat → Word) : Except Fault State :=
  formatLoop machine rounds format.length ⟨format, list, 0, [], [], []⟩

end

end Skylight.Printf
