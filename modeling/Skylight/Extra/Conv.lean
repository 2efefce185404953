import Mathlib.Logic.Function.Basic
import Skylight.Iodev.Shell

/-!
# Numbers as text

`utoa` and `itoa` of `extra/itoa.c`. The text is written to the bytes from `str` on.
-/

namespace Skylight.Conv

open Shell (ascii)

/-- The bytes from an address on. -/
abbrev Buffer := Nat → BitVec 8

/-- `BASE_MAX_DIGIT_MAP` -/
def baseMaxDigitMap : List Nat :=
  [0, 0, 64, 41, 32, 28, 25, 23, 22, 21, 20, 19, 18, 18, 17, 17, 16]

/-- `MIN_DIGIT_BASE` -/
def minDigitBase : Nat := 2
/-- `MAX_DIGIT_BASE` -/
def maxDigitBase : Nat := 16

/-- `memset(str, 0, size)` -/
def clear (str : Buffer) (size : Nat) : Buffer := fun i => if i < size then 0 else str i

/-- `"0123456789abcdef"[digit]` -/
def digitCharacter (digit : Nat) : BitVec 8 := (ascii "0123456789abcdef").getD digit 0

/-- The loop that counts the digits: what is left of `i`. -/
def countLoop (base : BitVec 64) : Nat → BitVec 64 → Nat
  | 0, _ => 0
  | i + 1, tmp =>
    let tmp := tmp / base
    if tmp = 0 then i + 1 else countLoop base i tmp

/-- The loop that writes the digits, the last one first. It counts down in a byte, and ends with the
last digit; `rounds` bounds it. -/
def digitLoop (base : BitVec 64) : Nat → BitVec 8 → BitVec 64 → Buffer → Option Buffer
  | 0, _, _, _ => none
  | rounds + 1, i, tmp, str =>
    let character := digitCharacter (tmp % base).toNat
    let tmp := tmp / base
    let str := Function.update str i.toNat character
    if tmp = 0 then some str else digitLoop base rounds (i - 1) tmp str

/-- `utoa`: whether it answers `str` or `NULL`, and the bytes. A value has at most 64 digits. -/
def utoa (value : BitVec 64) (str : Buffer) (base : BitVec 8) : Option (Bool × Buffer) :=
  if base.toNat < minDigitBase ∨ base.toNat > maxDigitBase then some (false, str)
  else
    let baseMaxDigits := baseMaxDigitMap.getD base.toNat 0
    let str := clear str (baseMaxDigits + 1)
    if value = 0 then some (true, Function.update str 0 (digitCharacter 0))
    else
      let offset := countLoop (base.setWidth 64) baseMaxDigits value
      let i := BitVec.ofNat 8 (baseMaxDigits - offset)
      (digitLoop (base.setWidth 64) 64 i value str).map fun str => (true, str)

/-- `"0123456789abcdef"[index]`, with an index that may be none of the string. `around` is what lies
beside the string. -/
def digitAt (around : Int → BitVec 8) (index : Int) : BitVec 8 :=
  if 0 ≤ index ∧ index ≤ 16 then digitCharacter index.toNat else around index

/-- The same count of a signed value, which is divided towards zero. -/
def signedCountLoop (base : Nat) : Nat → Int → Nat
  | 0, _ => 0
  | i + 1, tmp =>
    let tmp := tmp.tdiv base
    if tmp = 0 then i + 1 else signedCountLoop base i tmp

/-- The loops of `itoa` that write the digits, down to the place `low` at most. The places they read
of the alphabet are kept for the statement only. -/
def signedDigitLoop (around : Int → BitVec 8) (base low : Nat) :
    Nat → BitVec 8 → Int → Buffer → List Int → Option (Buffer × List Int)
  | 0, _, _, _, _ => none
  | rounds + 1, i, tmp, str, read =>
    if ¬ i.toNat ≥ low then some (str, read)
    else
      let index := tmp.tmod base
      let character := digitAt around index
      let tmp := tmp.tdiv base
      let str := Function.update str i.toNat character
      let read := read ++ [index]
      if tmp = 0 then some (str, read) else signedDigitLoop around base low rounds
        (i - 1) tmp str read

/-- `itoa`: whether it answers `str` or `NULL`, the bytes, and the places it reads of the alphabet.
The negation wraps. -/
def itoa (around : Int → BitVec 8) (value : BitVec 64) (str : Buffer) (base : BitVec 8) :
    Option (Bool × Buffer × List Int) :=
  if base.toNat < minDigitBase ∨ base.toNat > maxDigitBase then some (false, str, [])
  else
    let baseMaxDigits := baseMaxDigitMap.getD base.toNat 0
    let str := clear str (baseMaxDigits + 1)
    if value = 0 then some (true, Function.update str 0 (digitCharacter 0), [])
    else
      let i := baseMaxDigits
      let negative := value.toInt < 0
      let value := if negative then -value else value
      let baseMaxDigits := if negative then baseMaxDigits + 1 else baseMaxDigits
      let offset := signedCountLoop base.toNat i value.toInt
      let i := BitVec.ofNat 8 (baseMaxDigits - offset)
      if negative then
        (signedDigitLoop around base.toNat 1 64 i value.toInt str []).map fun (str, read) =>
          (true, Function.update str 0 0x2D, read)
      else
        (signedDigitLoop around base.toNat 0 64 i value.toInt str []).map fun (str, read) =>
          (true, str, read)

/-- A text from its first byte to the NUL, in an array of `size` bytes. -/
def cString (str : Buffer) (size : Nat) : List (BitVec 8) :=
  ((List.range size).map str).takeWhile (· ≠ 0)

end Skylight.Conv
