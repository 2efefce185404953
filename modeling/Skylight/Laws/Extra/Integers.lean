import Skylight.Lib.Justify
import Skylight.Laws.Extra.Vprintf

/-!
# Integers in `vprintf`

What a conversion of an integer prints, next to the text that the standard of the language gives for
it. All of them end in `__int_str`, which takes the value for a signed one, the flags of a sign for
those of every conversion, and pads the sign with the digits.

`renders_iff` is about flags in any order, a width below 256 in digits or in an argument, every
length, and every value. What the standard prescribes is a definition of its own
(`Conversion.text`), written without a look at the code; a precision and the flag `#` are not
part of it. That the buffers hold is not a condition, since they do for such a width.
-/

namespace Skylight.Printf

open Shell (ascii)
open Conv (Buffer cString)
open Strings (peek peek_cons advance)
open Justify (field pad)

/-! ### Conversions and their texts -/

/-- A width in digits, of which zero has none, or in an argument. -/
inductive Width
  | digits (n : Nat)
  | star

/-- A conversion of an integer. -/
structure Conversion where
  flags : { fs : List (BitVec 8) // ∀ c ∈ fs, c ∈ ascii "-+ 0" }
  width : Width
  length : { length : Length // length ≠ .L }
  specifier : { c : BitVec 8 // c ∈ ascii "diouxX" }

def Width.value (list : Nat → Word) : Width → Int
  | .digits n => n
  | .star => ((list 0).setWidth 32).toInt

/-- The arguments behind that of a width. -/
def Width.after (list : Nat → Word) : Width → Nat → Word
  | .digits _ => list
  | .star => fun n => list (n + 1)

/-- The bits of the type of a length. -/
def Length.bits : Length → Nat
  | .none => 32
  | .hh => 8
  | .h => 16
  | _ => 64

/-- A digit of the standard, with capital letters or with small ones. -/
def standardDigit (capital : Bool) (d : Nat) : BitVec 8 :=
  if d < 10 then chr '0' + BitVec.ofNat 8 d
  else (if capital then chr 'A' else chr 'a') + BitVec.ofNat 8 (d - 10)

def standardBase (c : BitVec 8) : Nat :=
  if c = chr 'o' then 8 else if c = chr 'x' ∨ c = chr 'X' then 16 else 10

namespace Conversion
variable (c : Conversion) (list : Nat → Word)

def has (flag : Char) : Bool := c.flags.1.contains (chr flag)

def signed : Bool := decide (c.specifier.1 ∈ ascii "di")

/-- The argument that is converted. -/
def argument : Word := c.width.after list 0

/-- Its value in the type of the conversion. -/
def value : Int :=
  let n := (c.argument list).setWidth c.length.1.bits
  if c.signed then n.toInt else n.toNat

/-- The sign, which only signed conversions have. -/
def sign : List (BitVec 8) :=
  if c.signed then
    if c.value list < 0 then [chr '-']
    else if c.has '+' then [chr '+']
    else if c.has ' ' then [chr ' ']
    else []
  else []

def digits : List (BitVec 8) :=
  (Conv.digits (standardBase c.specifier.1) (c.value list).natAbs).map
    (standardDigit (decide (c.specifier.1 = chr 'X')))

/-- What the standard prescribes: `-` overrides `0`, and so does a negative width. -/
def text : List (BitVec 8) :=
  field (chr ' ') (chr '0') (c.has '-') (c.has '0') (c.width.value list) (c.sign list)
    (c.digits list)

end Conversion

/-! ### The format -/

/-- The digits of a width in the format. -/
def widthText (n : Nat) : List (BitVec 8) := if n = 0 then [] else numeral 10 n

/-- A width is written in digits. -/
theorem widthText_digits {n : Nat} : ∀ c ∈ widthText n, isdigit c = true := by
  have all : ∀ d < 10, isdigit ((digit 10).getD d 0) = true := by decide
  intro c mem
  rw [widthText] at mem
  split at mem
  · cases mem
  · obtain ⟨d, there, rfl⟩ := List.mem_map.mp mem
    exact all d (Conv.digits_lt (by decide) n d there)

/-- A width below 256 is read from its digits, of which none is taken for a flag. -/
theorem widthText_spec : ∀ n < 256, peek (widthText n) ∉ flagCharacters ∧
    (widthText n).foldl (fun n c => n * 10 + (c.signExtend 32 - 48)) 0 = BitVec.ofNat 32 n := by
  decide +kernel

/-- The flags are some of the scanner's. -/
theorem flags_known : ∀ c ∈ ascii "-+ 0", c ∈ flagCharacters := by
  decide

/-- And so are the conversions. -/
theorem specifiers_known : ∀ c ∈ ascii "diouxX", c ∈ conversions := by
  decide

def Width.count : Width → Count
  | .digits n => .digits ⟨widthText n, widthText_digits⟩
  | .star => .star

/-- The specification in the format. -/
def Conversion.directive (c : Conversion) : Directive where
  flags := ⟨c.flags.1, fun x mem => flags_known x (c.flags.2 x mem)⟩
  width := c.width.count
  precision := none
  length := c.length.1
  conversion := ⟨c.specifier.1, specifiers_known _ c.specifier.2⟩

/-- The width in `lengthSpec`. -/
def Width.word (list : Nat → Word) : Width → BitVec 32
  | .digits n => BitVec.ofNat 32 n
  | .star => (list 0).setWidth 32

/-- What the scanner makes of it. -/
def Conversion.spec (c : Conversion) (list : Nat → Word) : Spec where
  leftJustify := c.has '-'
  zeroPad := c.has '0'
  spaceNoSign := c.has ' '
  altForm := false
  plusSign := c.has '+'
  lengthSpec := c.width.word list
  precSpec := 6
  length := c.length.1.byte
  specifier := if c.length.1 = .hh then chr 'h' else c.specifier.1

/-- The value for `__int_str`. -/
def Conversion.word (c : Conversion) (list : Nat → Word) : Word :=
  let n := (c.argument list).setWidth c.length.1.bits
  if c.signed then n.signExtend 64 else n.setWidth 64

/-- The base that `vprintf` gives to `__int_str`. -/
def digitBase (c : BitVec 8) : Nat :=
  if c = chr 'o' then 8 else if c = chr 'X' then 16 else if c = chr 'x' then 17 else 10

/-- The digits of the code are those of the standard. -/
theorem digitBase_spec : ∀ c ∈ ascii "diouxX", digitBase c ∈ bases ∧
    radix (digitBase c) = standardBase c ∧ ∀ d < standardBase c,
      (digit (digitBase c)).getD d 0 = standardDigit (decide (c = chr 'X')) d := by
  decide

/-! ### The scanner -/

section
variable {Double : Type} {machine : Machine Double} {c : Conversion} {spec : Spec} {s s' : State}
  {rounds base : Nat} {stray : Int → BitVec 8} {fs rest t : List (BitVec 8)} {x : Word}
  {w : BitVec 32} {plus space justify zeroPad : Bool}

/-- What the flags set. -/
theorem foldl_mark (flags : ∀ c ∈ fs, c ∈ ascii "-+ 0") : fs.foldl Spec.mark spec = { spec with
    leftJustify := spec.leftJustify || fs.contains (chr '-'),
    zeroPad := spec.zeroPad || fs.contains (chr '0'),
    spaceNoSign := spec.spaceNoSign || fs.contains (chr ' '),
    plusSign := spec.plusSign || fs.contains (chr '+') } := by
  induction fs generalizing spec with
  | nil => simp only [List.foldl_nil, List.contains_nil, Bool.or_false]
  | cons c fs ih =>
    rw [List.forall_mem_cons] at flags
    rw [List.foldl_cons, ih flags.2]
    have known : c = chr '-' ∨ c = chr '+' ∨ c = chr ' ' ∨ c = chr '0' := by
      have mem := flags.1
      rw [show ascii "-+ 0" = [chr '-', chr '+', chr ' ', chr '0'] from rfl] at mem
      simpa only [List.mem_cons, List.not_mem_nil, or_false] using mem
    rcases known with rfl | rfl | rfl | rfl
    all_goals simp [Spec.mark, chr]

/-- A width below 256 is read as it is. -/
theorem Width.toInt_word {width : Width} {list : Nat → Word}
    (below : (width.value list).natAbs < 256) : (width.word list).toInt = width.value list := by
  cases width with
  | digits n =>
    change n < 256 at below
    show (BitVec.ofNat 32 n).toInt = n
    rw [BitVec.toInt_eq_toNat_cond, BitVec.toNat_ofNat]
    omega
  | star => rfl

/-- The scanner on a width. -/
theorem scanNumber_width (width : Width) (below : (width.value s.list).natAbs < 256)
    (stops : Stops rest) (format : s.format = width.count.text ++ rest) :
    ∃ s', scanNumber s = (width.word s.list, s') ∧ s'.format = rest ∧ s'.out = s.out ∧
      s'.list = width.after s.list := by
  cases width with
  | digits n =>
    refine ⟨{ s with format := rest }, ?_, rfl, rfl, rfl⟩
    rw [scanNumber_digits widthText_digits stops format, (widthText_spec n below).2]
    rfl
  | star =>
    exact ⟨{ (s.vaArg .integer).2 with format := rest }, scanNumber_star format, rfl, rfl, rfl⟩

/-- The scanner on a conversion. -/
theorem scan_conversion (below : (c.width.value s.list).natAbs < 256)
    (format : s.format = c.directive.text ++ rest) : ∃ s', scan s = (c.spec s.list, s') ∧
      s'.format = c.length.1.leaves c.specifier.1 rest ∧ s'.out = s.out ∧
      s'.list 0 = c.argument s.list := by
  have known := specifiers_known c.specifier.1 c.specifier.2
  obtain ⟨stops, point⟩ := @stops_conversion rest _ known c.length.1
  have split : s.format =
      c.flags.1 ++ (c.width.count.text ++ (c.length.1.text ++ c.specifier.1 :: rest)) := by
    rw [format, Directive.text]
    simp only [Conversion.directive, precisionText, List.append_assoc, List.nil_append,
      List.singleton_append]
  have stop : peek (c.width.count.text ++ (c.length.1.text ++ c.specifier.1 :: rest)) ∉
      flagCharacters := by
    cases width : c.width with
    | digits n =>
      rw [width] at below
      have first := (widthText_spec n below).1
      show peek (widthText n ++ _) ∉ _
      cases digits : widthText n with
      | nil => exact stops.1
      | cons d ds =>
        rw [digits] at first
        exact first
    | star => exact (by decide : chr '*' ∉ flagCharacters)
  have flags := @scanFlags_flags ⟨false, false, false, false, false, 0, 0, 0, 0⟩ c.flags.1
    (c.width.count.text ++ (c.length.1.text ++ c.specifier.1 :: rest))
    fun x mem => flags_known x (c.flags.2 x mem)
  rw [← split, scanFlags_stop stop, foldl_mark c.flags.2] at flags
  obtain ⟨s₁, width, place, out, list⟩ := scanNumber_width
    (s := { s with format := c.width.count.text ++ (c.length.1.text ++ c.specifier.1 :: rest) })
    c.width below stops rfl
  have precision : scanPrecision s₁ = (6, s₁) := by
    rw [scanPrecision, if_neg (by rwa [place])]
  have lengths := scanLength_eq known c.length.1 place
  refine ⟨{ s₁ with format := c.length.1.leaves c.specifier.1 rest },
    (scan_steps flags width precision lengths).trans ?_, rfl, out, ?_⟩
  · rw [Conversion.spec, Length.leaves]
    split <;> rfl
  · show s₁.list 0 = _
    rw [list]
    rfl

/-! ### The conversion -/

/-- The cases of integers. -/
theorem convert_integer (mem : spec.specifier ∈ ascii "diouxX") (alt : spec.altForm = false) :
    convert machine rounds spec s = showInteger machine
      (if spec.specifier ∈ ascii "di" then signedInteger else unsignedInteger)
      (digitBase spec.specifier) spec s := by
  obtain ⟨left, zero, space, alt', plus, width, precision, length, specifier⟩ := spec
  obtain rfl : alt' = false := alt
  have known : specifier = chr 'd' ∨ specifier = chr 'i' ∨ specifier = chr 'o' ∨
      specifier = chr 'u' ∨ specifier = chr 'x' ∨ specifier = chr 'X' := by
    have mem' : specifier ∈ [chr 'd', chr 'i', chr 'o', chr 'u', chr 'x', chr 'X'] := mem
    simpa only [List.mem_cons, List.not_mem_nil, or_false] using mem'
  rcases known with rfl | rfl | rfl | rfl | rfl | rfl <;> rfl

/-- A second `h` converts nothing. -/
theorem convert_h (specifier : spec.specifier = chr 'h') :
    convert machine rounds spec s = .ok s := by
  obtain ⟨left, zero, space, alt, plus, width, precision, length, specifier'⟩ := spec
  obtain rfl : specifier' = chr 'h' := specifier
  rfl

/-- Types have 64 bits at most. -/
theorem Length.bits_le (length : Length) : length.bits ≤ 64 := by
  cases length <;> decide

/-- A signed argument, cut to its type. -/
theorem signedInteger_bits {length : Length} (read : length ≠ .hh) (standard : length ≠ .L) :
    signedInteger length.byte x = some ((x.setWidth length.bits).signExtend 64) := by
  have whole : some x = some ((x.setWidth 64).signExtend 64) := by
    rw [BitVec.setWidth_eq, BitVec.signExtend_eq]
  cases length
  case hh => exact absurd rfl read
  case L => exact absurd rfl standard
  case none => rfl
  case h => rfl
  all_goals exact whole

/-- And an unsigned one. -/
theorem unsignedInteger_bits {length : Length} (read : length ≠ .hh) (standard : length ≠ .L) :
    unsignedInteger length.byte x = some ((x.setWidth length.bits).setWidth 64) := by
  have whole : some x = some ((x.setWidth 64).setWidth 64) := by
    rw [BitVec.setWidth_eq, BitVec.setWidth_eq]
  cases length
  case hh => exact absurd rfl read
  case L => exact absurd rfl standard
  case none => rfl
  case h => rfl
  all_goals exact whole

/-- The value of an argument is the one of its type, but for a length `hh`, which is not read. -/
theorem integer_word {list : Nat → Word} (read : c.length.1 ≠ .hh) :
    (if c.specifier.1 ∈ ascii "di" then signedInteger else unsignedInteger) c.length.1.byte
      (c.argument list) = some (c.word list) := by
  rw [Conversion.word, Conversion.signed]
  simp only [decide_eq_true_eq]
  split
  · exact signedInteger_bits read c.length.2
  · exact unsignedInteger_bits read c.length.2

/-- The value of a signed conversion. -/
theorem toInt_word {list : Nat → Word} (signed : c.signed = true) :
    (c.word list).toInt = c.value list := by
  rw [Conversion.word, Conversion.value, if_pos signed, if_pos signed]
  exact BitVec.toInt_signExtend_of_le (Length.bits_le _)

/-- And of an unsigned one. -/
theorem toNat_word {list : Nat → Word} (signed : c.signed = false) :
    ((c.word list).toNat : Int) = c.value list := by
  have none : ¬ c.signed = true := Bool.eq_false_iff.mp signed
  rw [Conversion.word, Conversion.value, if_neg none, if_neg none]
  exact congrArg _ (BitVec.toNat_setWidth_of_le (Length.bits_le _))

/-! ### The padding -/

/-- A text in a buffer is read back. -/
theorem text_putAt {b : Buffer} (full : ∀ ch ∈ t, ch ≠ 0) (less : t.length < bufferSize) :
    machine.text (putAt 0 (t ++ [0]) b) = t := by
  rw [Machine.text, cString_putAt less, takeWhile_full full, if_pos less]

/-- And in a cleared one. -/
theorem text_written (full : ∀ ch ∈ t, ch ≠ 0) (less : t.length < bufferSize) :
    machine.text (written t) = t := by
  rw [Machine.text, cString_written (Nat.le_of_lt less), takeWhile_full full, if_pos less]

/-- In a width below 256 the text of a number is padded as a whole. -/
theorem intStr_pad (below : w.toInt.natAbs < 256)
    (full : ∀ ch ∈ numberText stray x base plus space, ch ≠ 0) : ∃ b,
      intStr stray x (fun _ => 0) base plus space w justify zeroPad = .ok b ∧
        machine.text b = pad (chr ' ') (chr '0') justify zeroPad w.toInt
          (numberText stray x base plus space) := by
  have few := @length_numberText base stray plus space x
  have padding : paddingOf w (numberText stray x base plus space) =
      (w.toInt - ((numberText stray x base plus space).length : Nat)).toNat := by
    rw [paddingOf, takeWhile_full full, toInt_sub_ofNat few, if_pos (by omega)]
  have solid : ∀ n, ∀ ch ∈ List.replicate n (padOf zeroPad), ch ≠ 0 := fun n ch mem =>
    List.eq_of_mem_replicate mem ▸ padOf_ne_zero
  have size : bufferSize = 256 := rfl
  cases justify with
  | false =>
    rw [intStr_right, takeWhile_full full, padding, if_pos (by omega)]
    refine ⟨_, rfl, ?_⟩
    rw [text_putAt (List.forall_mem_append.mpr ⟨solid _, full⟩)]
    · rfl
    · rw [List.length_append, List.length_replicate]
      omega
  | true =>
    rw [intStr_left full, padding, if_pos (by omega)]
    refine ⟨_, rfl, ?_⟩
    rw [text_written (List.forall_mem_append.mpr ⟨full, solid _⟩)]
    · rfl
    · rw [List.length_append, List.length_replicate]
      omega

/-! ### What is printed -/

/-- What stands in the buffer before the padding. -/
def Conversion.number (c : Conversion) (stray : Int → BitVec 8) (list : Nat → Word) :
    List (BitVec 8) :=
  numberText stray (c.word list) (digitBase c.specifier.1) (c.has '+') (c.has ' ')

/-- A round with a length `hh` converts nothing. -/
theorem round_hh (below : (c.width.value s.list).natAbs < 256) (hh : c.length.1 = .hh)
    (format : s.format = chr '%' :: (c.directive.text ++ rest)) :
    ∃ s', round machine rounds s = .ok s' ∧ s'.out = s.out := by
  have percent : peek s.format = chr '%' := by rw [format, peek_cons]
  have text : s.skip.format = c.directive.text ++ rest := by
    rw [State.skip, format]
    rfl
  obtain ⟨s₁, scanned, place, out, -⟩ := @scan_conversion c s.skip rest below text
  rw [Length.leaves, if_pos hh] at place
  refine ⟨_, (round_percent percent).mpr ⟨s₁, c.specifier.1 :: rest, ?_, ?_, rfl⟩, out⟩
  · rw [scanned]
    exact convert_h (if_pos hh)
  · rw [place]
    rfl

/-- A round with another one prints the number, padded as a whole. -/
theorem round_integer (below : (c.width.value s.list).natAbs < 256) (read : c.length.1 ≠ .hh)
    (format : s.format = chr '%' :: (c.directive.text ++ rest))
    (full : ∀ ch ∈ c.number machine.stray s.list, ch ≠ 0) :
    ∃ s', round machine rounds s = .ok s' ∧ s'.out = s.out ++ pad (chr ' ') (chr '0') (c.has '-')
      (c.has '0') (c.width.value s.list) (c.number machine.stray s.list) := by
  have percent : peek s.format = chr '%' := by rw [format, peek_cons]
  have text : s.skip.format = c.directive.text ++ rest := by
    rw [State.skip, format]
    rfl
  obtain ⟨s₁, scanned, place, out, argument⟩ := @scan_conversion c s.skip rest below text
  rw [Length.leaves, if_neg read] at place
  have specifier : (c.spec s.list).specifier = c.specifier.1 := if_neg read
  have width : (c.spec s.list).lengthSpec.toInt = c.width.value s.list := Width.toInt_word below
  obtain ⟨b, written, printed⟩ := @intStr_pad _ machine (digitBase c.specifier.1) machine.stray
    (c.word s.list) (c.spec s.list).lengthSpec (c.has '+') (c.has ' ') (c.has '-') (c.has '0')
    (width ▸ below) full
  rw [width] at printed
  have solid : ∀ ch ∈ machine.text b, ch ≠ 0 := by
    intro ch mem
    rw [printed] at mem
    rcases Justify.of_mem_pad mem with rfl | rfl | mem
    · decide
    · decide
    · exact full ch mem
  have converted : convert machine rounds (c.spec s.list) s₁ =
      .ok ((s₁.vaArg .integer).2.displayString (machine.text b)) := by
    have value : (if c.specifier.1 ∈ ascii "di" then signedInteger else unsignedInteger)
        (c.spec s.list).length (s₁.list 0) = some (c.word s.list) := argument ▸ integer_word read
    rw [convert_integer (specifier ▸ c.specifier.2) rfl, specifier]
    exact showInteger_eq value written
  obtain ⟨format', -, -⟩ := displayString_rest (s₁.vaArg .integer).2 (machine.text b)
  refine ⟨_, (round_percent percent).mpr ⟨(s₁.vaArg .integer).2.displayString (machine.text b),
    rest, ?_, ?_, rfl⟩, ?_⟩
  · rw [scanned]
    exact converted
  · rw [format']
    show advance s₁.format = _
    rw [place]
    rfl
  · show (State.displayString _ _).out = _
    rw [displayString_out _ solid, printed]
    exact congrArg (· ++ _) out

/-! ### Digits and signs -/

variable {list : Nat → Word}

/-- No digit is a character of another kind. -/
theorem standardDigit_spec : ∀ c ∈ ascii "diouxX", 1 < standardBase c ∧ ∀ d < standardBase c,
    standardDigit (decide (c = chr 'X')) d ∉ ascii " -+z" := by
  decide

/-- No digit is a sign or a padding. -/
theorem digits_solid {ch : BitVec 8} (mem : ch ∈ c.digits list) : ch ∉ ascii " -+z" := by
  obtain ⟨large, solid⟩ := standardDigit_spec c.specifier.1 c.specifier.2
  obtain ⟨d, there, rfl⟩ := List.mem_map.mp mem
  exact solid d (Conv.digits_lt large _ d there)

/-- There is a digit. -/
theorem digits_ne_nil : c.digits list ≠ [] := by
  rw [Conversion.digits, Conv.digits]
  intro none
  have none := List.map_eq_nil_iff.mp none
  split at none
  · cases none
  · next some' => exact some' (Nat.digits_eq_nil_iff_eq_zero.mp (List.reverse_eq_nil_iff.mp none))

/-- The digits of the code are the standard's. -/
theorem numeral_standard :
    numeral (digitBase c.specifier.1) (c.value list).natAbs = c.digits list := by
  obtain ⟨-, base, same⟩ := digitBase_spec c.specifier.1 c.specifier.2
  obtain ⟨large, -⟩ := standardDigit_spec c.specifier.1 c.specifier.2
  rw [numeral, base]
  exact List.map_congr_left fun d mem => same d (Conv.digits_lt large _ d mem)

/-- A sign is one of three characters. -/
theorem sign_known {ch : BitVec 8} (mem : ch ∈ c.sign list) : ch ∈ ascii " -+" := by
  rw [Conversion.sign] at mem
  split_ifs at mem
  · exact List.mem_singleton.mp mem ▸ by decide
  · exact List.mem_singleton.mp mem ▸ by decide
  · exact List.mem_singleton.mp mem ▸ by decide
  · cases mem
  · cases mem

/-- The least value, as a word. -/
theorem value_eq_least (x : Word) : x = BitVec.intMin 64 ↔ x.toInt = -2 ^ 63 := by
  rw [← BitVec.toInt_inj]
  exact Iff.rfl

/-- The number of a value that has a magnitude. -/
theorem number_eq (some' : (c.word list).toInt ≠ -2 ^ 63) : c.number stray list =
    (signOf (decide ((c.word list).toInt < 0)) (c.has '+') (c.has ' ')).toList ++
      numeral (digitBase c.specifier.1) (c.word list).toInt.natAbs :=
  numberText_eq (digitBase_spec _ c.specifier.2).1 fun same => some' ((value_eq_least _).mp same)

/-- No character of the number is a NUL, unless one lies before `digit`. -/
theorem number_full (solid : (c.word list).toInt ≠ -2 ^ 63 ∨ ∀ m, stray m ≠ 0) :
    ∀ ch ∈ c.number stray list, ch ≠ 0 := by
  have known := (digitBase_spec _ c.specifier.2).1
  rcases solid with some' | some'
  · rw [number_eq some', ← @number_eq _ (fun _ => 1) _ some']
    exact numberText_full known fun _ => by decide
  · exact numberText_full known some'

/-- A signed number is its sign and its digits. -/
theorem number_signed (signed : c.signed = true) (some' : c.value list ≠ -2 ^ 63) :
    c.number stray list = c.sign list ++ c.digits list := by
  rw [← toInt_word signed] at some'
  rw [number_eq some', toInt_word signed, numeral_standard, Conversion.sign, if_pos signed, signOf]
  simp only [decide_eq_true_eq]
  split_ifs <;> rfl

/-- An unsigned one gets the sign that the flags ask for. -/
theorem number_unsigned (signed : c.signed = false) (low : c.value list < 2 ^ 63) :
    c.number stray list =
      (signOf false (c.has '+') (c.has ' ')).toList ++ c.digits list := by
  have natural := @toNat_word c list signed
  have value : (c.word list).toInt = c.value list := by
    rw [BitVec.toInt_eq_toNat_cond, if_pos (by omega), natural]
  rw [number_eq (by omega), value, numeral_standard, decide_eq_false (by omega)]

/-- A value that is negative for `__int_str` has a `-`. -/
theorem minus_mem_number (negative : (c.word list).toInt < 0) :
    chr '-' ∈ c.number stray list := by
  by_cases least : (c.word list).toInt = -2 ^ 63
  · rw [Conversion.number, (value_eq_least _).mpr least, numberText_least]
    exact List.mem_cons_self ..
  · rw [number_eq least, decide_eq_true negative]
    exact List.mem_append_left _ (List.mem_cons_self ..)

/-- The first digit of the least value is what lies before `digit`. -/
theorem stray_mem_number (least : (c.word list).toInt = -2 ^ 63) :
    chr 'z' ∈ c.number (fun _ => chr 'z') list := by
  obtain ⟨some', negative, -⟩ := leastDigits_spec (digitBase_spec _ c.specifier.2).1
  obtain ⟨first, rest, split⟩ := List.exists_cons_of_ne_nil some'
  rw [split, List.headD_cons] at negative
  rw [Conversion.number, (value_eq_least _).mpr least, numberText_least, split, List.map_cons,
    digitAt, if_neg (by omega)]
  exact List.mem_cons_of_mem _ (List.mem_cons_self ..)

/-! ### The padded number and the field -/

/-- What is in the text is sign, digit or padding. -/
theorem not_mem_text {ch : BitVec 8} (pads : ch ∉ ascii " 0") (sign : ch ∉ c.sign list)
    (digits : ch ∉ c.digits list) : ch ∉ c.text list := by
  intro mem
  rcases Justify.mem_field mem with rfl | rfl | mem | mem
  · exact pads (by decide)
  · exact pads (by decide)
  · exact sign mem
  · exact digits mem

/-- Unsigned conversions have no sign. -/
theorem sign_unsigned (signed : c.signed = false) : c.sign list = [] := by
  rw [Conversion.sign, signed]
  rfl

/-- A character that is printed and not in the text. -/
theorem pad_ne_text {ch : BitVec 8} (mem : ch ∈ t) (absent : ch ∉ c.text list) :
    pad (chr ' ') (chr '0') (c.has '-') (c.has '0') (c.width.value list) t ≠ c.text list :=
  fun same => absent (same ▸ Justify.mem_pad mem)

/-- The padding is the one of the field. -/
def Conversion.Padded (c : Conversion) (list : Nat → Word) : Prop :=
  (c.sign list ++ c.digits list).length < (c.width.value list).natAbs →
    0 ≤ c.width.value list ∧ (c.has '0' = true → c.has '-' = false ∧ c.sign list = [])

/-- The padding of the code is the standard's just when the number is padded so. -/
theorem pad_eq_text_iff : pad (chr ' ') (chr '0') (c.has '-') (c.has '0') (c.width.value list)
    (c.sign list ++ c.digits list) = c.text list ↔ c.Padded list :=
  Justify.pad_eq_field_iff (by decide) fun mem => absurd (sign_known mem) (by decide)

/-- And for an unsigned one when no flag asks for a sign that would show. -/
theorem unsigned_iff (signed : c.signed = false) (low : c.value list < 2 ^ 63) :
    pad (chr ' ') (chr '0') (c.has '-') (c.has '0') (c.width.value list) (c.number stray list) =
        c.text list ↔
      c.has '+' = false ∧ (c.has ' ' = true → c.has '-' = false ∧ c.has '0' = false ∧
        ((c.digits list).length : Int) < c.width.value list) ∧ c.Padded list := by
  have sign := @sign_unsigned c list signed
  rw [number_unsigned signed low, signOf, if_neg Bool.false_ne_true]
  cases plus : c.has '+' with
  | true =>
    refine iff_of_false (pad_ne_text (List.mem_append_left _ (List.mem_cons_self ..))
      (not_mem_text (by decide) ?_ ?_)) fun both => by cases both.1
    · rw [sign]
      exact List.not_mem_nil
    · exact fun mem => absurd (digits_solid mem) (by decide)
  | false =>
    rw [if_neg Bool.false_ne_true, and_iff_right rfl]
    cases space : c.has ' ' with
    | true =>
      have solid : chr ' ' ∉ c.digits list := fun mem => absurd (digits_solid mem) (by decide)
      have text : c.text list = field (chr ' ') (chr '0') (c.has '-') (c.has '0')
          (c.width.value list) [] (c.digits list) := by
        rw [Conversion.text, sign]
      rw [if_pos rfl, text, imp_iff_right rfl]
      refine (Justify.pad_blank_eq_field_iff (by decide) digits_ne_nil solid).trans ?_
      refine (and_iff_left_of_imp ?_).symm
      rintro ⟨-, zero, wide⟩ -
      exact ⟨by omega, fun yes => by rw [zero] at yes; cases yes⟩
    | false =>
      have number : c.digits list = c.sign list ++ c.digits list := by
        rw [sign, List.nil_append]
      rw [if_neg Bool.false_ne_true, Option.toList_none, List.nil_append]
      have iff := @pad_eq_text_iff c list
      rw [← number] at iff
      rw [iff]
      exact (and_iff_right fun no => absurd no Bool.false_ne_true).symm

/-! ### Conversions that are as prescribed -/

/-- The round of a conversion prints its text, whatever lies before `digit`. -/
def Renders (machine : Machine Double) (c : Conversion) (s : State) : Prop := ∀ stray rounds,
  ∃ s', round (machine.withStray stray) rounds s = .ok s' ∧ s'.out = s.out ++ c.text s.list

/-- What is printed as prescribed: no length `hh`, not the least value, and of the unsigned ones
none that is negative for `__int_str`. With no sign there is no flag for one, but for a space among
others; and neither `0` nor a negative width changes the padding. -/
structure Plain (c : Conversion) (list : Nat → Word) : Prop where
  length : c.length.1 ≠ .hh
  signed : c.signed = true → c.value list ≠ -2 ^ 63
  unsigned : c.signed = false → c.value list < 2 ^ 63 ∧ c.has '+' = false ∧
    (c.has ' ' = true → c.has '-' = false ∧ c.has '0' = false ∧
      ((c.digits list).length : Int) < c.width.value list)
  padded : c.Padded list

/-- There is a text. -/
theorem text_ne_nil : c.text list ≠ [] := by
  intro none
  have length := congrArg List.length none
  have some' := List.length_pos_iff.mpr (@digits_ne_nil c list)
  rw [Conversion.text, Justify.length_field, List.length_append, List.length_nil] at length
  omega

/-- A length `hh` prints nothing. -/
theorem not_renders_hh (below : (c.width.value s.list).natAbs < 256) (hh : c.length.1 = .hh)
    (format : s.format = chr '%' :: (c.directive.text ++ rest)) : ¬ Renders machine c s := by
  intro renders
  obtain ⟨s', run, out⟩ := renders (fun _ => 0) 0
  obtain ⟨s'', run', out'⟩ := round_hh below hh format
  obtain rfl := Except.ok.inj (run.symm.trans run')
  rw [out', List.self_eq_append_right] at out
  exact text_ne_nil out

/-- With a length that is read, the padded number is the text. -/
theorem renders_number (below : (c.width.value s.list).natAbs < 256) (read : c.length.1 ≠ .hh)
    (format : s.format = chr '%' :: (c.directive.text ++ rest)) : Renders machine c s ↔
      (c.word s.list).toInt ≠ -2 ^ 63 ∧ ∀ stray, pad (chr ' ') (chr '0') (c.has '-') (c.has '0')
        (c.width.value s.list) (c.number stray s.list) = c.text s.list := by
  have runs (stray : Int → BitVec 8) (rounds : Nat) (full : ∀ ch ∈ c.number stray s.list, ch ≠ 0) :=
    @round_integer _ (machine.withStray stray) c s rounds rest below read format full
  have same {stray : Int → BitVec 8} (full : ∀ ch ∈ c.number stray s.list, ch ≠ 0)
      (renders : Renders machine c s) : pad (chr ' ') (chr '0') (c.has '-') (c.has '0')
        (c.width.value s.list) (c.number stray s.list) = c.text s.list := by
    obtain ⟨s', run, out⟩ := renders stray 0
    obtain ⟨s'', run', out'⟩ := runs stray 0 full
    obtain rfl := Except.ok.inj (run.symm.trans run')
    exact List.append_cancel_left (out'.symm.trans out)
  constructor
  · intro renders
    have some' : (c.word s.list).toInt ≠ -2 ^ 63 := by
      intro least
      refine pad_ne_text (stray_mem_number least) (not_mem_text (by decide) ?_ ?_)
        (same (number_full (Or.inr fun _ => by decide)) renders)
      · exact fun mem => absurd (sign_known mem) (by decide)
      · exact fun mem => absurd (digits_solid mem) (by decide)
    exact ⟨some', fun stray => same (number_full (Or.inl some')) renders⟩
  · rintro ⟨some', text⟩ stray rounds
    obtain ⟨s', run, out⟩ := runs stray rounds (number_full (Or.inl some'))
    exact ⟨s', run, out.trans (congrArg _ (text stray))⟩

/-- A conversion prints what is prescribed, whatever lies before `digit`, if and only if it is
plain: no length `hh`, not the least value, no unsigned value with a sign, and padding that is
the one of the field. -/
theorem renders_iff (below : (c.width.value s.list).natAbs < 256)
    (format : s.format = chr '%' :: (c.directive.text ++ rest)) :
    Renders machine c s ↔ Plain c s.list := by
  by_cases hh : c.length.1 = .hh
  · exact iff_of_false (not_renders_hh below hh format) fun plain => plain.length hh
  rw [renders_number below hh format]
  cases signed : c.signed with
  | true =>
    rw [toInt_word signed]
    constructor
    · rintro ⟨some', text⟩
      have padded := text fun _ => 0
      rw [number_signed signed some', pad_eq_text_iff] at padded
      exact ⟨hh, fun _ => some', fun no => absurd (signed.symm.trans no) (by decide), padded⟩
    · intro plain
      refine ⟨plain.signed signed, fun stray => ?_⟩
      rw [number_signed signed (plain.signed signed), pad_eq_text_iff]
      exact plain.padded
  | false =>
    have natural := @toNat_word c s.list signed
    by_cases low : c.value s.list < 2 ^ 63
    · have some' : (c.word s.list).toInt ≠ -2 ^ 63 := by
        rw [BitVec.toInt_eq_toNat_cond, if_pos (by omega)]
        omega
      simp only [unsigned_iff signed low, and_iff_right some']
      constructor
      · intro all
        obtain ⟨plus, space, padded⟩ := all fun _ => 0
        exact ⟨hh, fun no => absurd (signed.symm.trans no) (by decide),
          fun _ => ⟨low, plus, space⟩, padded⟩
      · intro plain _
        obtain ⟨-, plus, space⟩ := plain.unsigned signed
        exact ⟨plus, space, plain.padded⟩
    · have negative : (c.word s.list).toInt < 0 := by
        have less := (c.word s.list).isLt
        rw [BitVec.toInt_eq_toNat_cond, if_neg (by omega)]
        omega
      refine iff_of_false (fun both => ?_) fun plain => low (plain.unsigned signed).1
      refine pad_ne_text (minus_mem_number negative) (not_mem_text (by decide) ?_ ?_)
        (both.2 fun _ => 0)
      · rw [sign_unsigned signed]
        exact List.not_mem_nil
      · exact fun mem => absurd (digits_solid mem) (by decide)

end

/-! ### Conversions -/

/-- Flags, a width in digits and a conversion of `int`. -/
def decimal (flags : { fs : List (BitVec 8) // ∀ c ∈ fs, c ∈ ascii "-+ 0" }) (width : Nat) :
    Conversion := ⟨flags, .digits width, ⟨.none, by decide⟩, ⟨chr 'd', by decide⟩⟩

/-- A sign and a width. -/
theorem renders_iff_plus : Renders naturals (decimal ⟨ascii "+", by decide⟩ 6)
    ⟨ascii "%+6d", fun _ => 42, 0, [], [], []⟩ := by
  have format : ascii "%+6d" =
      chr '%' :: ((decimal ⟨ascii "+", by decide⟩ 6).directive.text ++ []) := by decide
  refine (renders_iff (by decide) format).mpr ⟨by decide, fun _ => by decide, fun no => ?_, ?_⟩
  · exact absurd no (by decide)
  · rw [Conversion.Padded]
    decide

/-- An unsigned value with a sign, zeros before a sign, zeros behind the digits, and a length that
is not read. -/
theorem not_renders :
    ¬ Renders naturals ⟨⟨[], by decide⟩, .digits 0, ⟨.l, by decide⟩, ⟨chr 'u', by decide⟩⟩
      ⟨ascii "%lu", fun _ => -1, 0, [], [], []⟩ ∧
    ¬ Renders naturals (decimal ⟨ascii "0", by decide⟩ 5)
      ⟨ascii "%05d", fun _ => -7, 0, [], [], []⟩ ∧
    ¬ Renders naturals (decimal ⟨ascii "-0", by decide⟩ 5)
      ⟨ascii "%-05d", fun _ => 7, 0, [], [], []⟩ ∧
    ¬ Renders naturals ⟨⟨[], by decide⟩, .digits 0, ⟨.hh, by decide⟩, ⟨chr 'd', by decide⟩⟩
      ⟨ascii "%hhd", fun _ => 7, 0, [], [], []⟩ := by
  refine ⟨fun renders => ?_, fun renders => ?_, fun renders => ?_, ?_⟩
  · obtain ⟨-, same⟩ :=
      (renders_number (by decide) (by decide) (List.append_nil _).symm).mp renders
    exact absurd (same fun _ => 0) (by decide)
  · obtain ⟨-, same⟩ :=
      (renders_number (by decide) (by decide) (List.append_nil _).symm).mp renders
    exact absurd (same fun _ => 0) (by decide)
  · obtain ⟨-, same⟩ :=
      (renders_number (by decide) (by decide) (List.append_nil _).symm).mp renders
    exact absurd (same fun _ => 0) (by decide)
  · exact not_renders_hh (by decide) rfl (List.append_nil _).symm

end Skylight.Printf
