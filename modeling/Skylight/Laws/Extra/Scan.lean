import Skylight.Laws.Extra.Printf

/-!
# Conversion specifications

What may stand behind a `%`, and what the scanner of `vprintf` makes of it. It passes all of it
but a second `h`, which it takes for the specifier.

A `Directive` is a specification as the standard writes it: flags, a width, a precision, a
length, a conversion, in this order. `scan_directive` says where the scanner is behind its text,
what it has set and which arguments it has taken, for every directive. `directive_unique` says
that a text is that of one directive only, so what follows a `%` means one thing. The scanner on
other texts is followed only as far as it comes nearer to the end (`scan_suffix`).
-/

namespace Skylight.Printf

open Shell (ascii)
open Strings (peek peek_cons)

/-- A number in a specification, or an argument for it. -/
inductive Count
  | digits (ds : { ds : List (BitVec 8) // ∀ c ∈ ds, isdigit c = true })
  | star

inductive Length
  | none
  | hh
  | h
  | ll
  | l
  | j
  | z
  | t
  | L
  deriving DecidableEq

def flagCharacters : List (BitVec 8) := ascii "-+# 0"

def conversions : List (BitVec 8) := ascii "diouxXeEfFgGaAcspn%"

/-- Flags, a width, a precision, a length and a conversion. -/
structure Directive where
  flags : { fs : List (BitVec 8) // ∀ c ∈ fs, c ∈ flagCharacters }
  width : Count
  precision : Option Count
  length : Length
  conversion : { c : BitVec 8 // c ∈ conversions }

def Count.text : Count → List (BitVec 8)
  | .digits ds => ds.1
  | .star => [chr '*']

def precisionText : Option Count → List (BitVec 8)
  | none => []
  | some count => chr '.' :: count.text

def Length.text : Length → List (BitVec 8)
  | .none => []
  | .hh => ascii "hh"
  | .h => ascii "h"
  | .ll => ascii "ll"
  | .l => ascii "l"
  | .j => ascii "j"
  | .z => ascii "z"
  | .t => ascii "t"
  | .L => ascii "L"

/-- The arguments that a number takes. -/
def Count.own : Count → List Class
  | .digits _ => []
  | .star => [.integer]

/-- The arguments that a precision takes. -/
def precisionOwn : Option Count → List Class
  | none => []
  | some count => count.own

/-- Its bytes in the format. -/
def Directive.text (d : Directive) : List (BitVec 8) :=
  d.flags.1 ++ (d.width.text ++ (precisionText d.precision ++ (d.length.text ++ [d.conversion.1])))

/-- What the scanner calls a length. -/
def Length.byte : Length → BitVec 8
  | .none => 0
  | .hh => chr 'H'
  | .h => chr 'h'
  | .ll => chr 'q'
  | .l => chr 'l'
  | .j => chr 'j'
  | .z => chr 'z'
  | .t => chr 't'
  | .L => chr 'L'

/-- A flag in the variables. -/
def Spec.mark (spec : Spec) (c : BitVec 8) : Spec :=
  if c = chr '-' then { spec with leftJustify := true }
  else if c = chr '+' then { spec with plusSign := true }
  else if c = chr '#' then { spec with altForm := true }
  else if c = chr ' ' then { spec with spaceNoSign := true }
  else if c = chr '0' then { spec with zeroPad := true }
  else spec

/-- Neither a flag nor a digit follows, nor a `*`. -/
def Stops (s : List (BitVec 8)) : Prop :=
  peek s ∉ flagCharacters ∧ isdigit (peek s) = false ∧ peek s ≠ chr '*'

/-- Arguments of these classes are taken, and no others. -/
structure Took (own : List Class) (s s' : State) : Prop where
  taken : s'.taken = s.taken ++ own
  list : s'.list = fun n => s.list (n + own.length)

section
variable {spec : Spec} {fs ds rest t : List (BitVec 8)} {c : BitVec 8} {n : BitVec 32}
  {s s' s'' : State} {own own' : List Class}

/-- Arguments taken one after another. -/
theorem Took.trans (first : Took own s s') (second : Took own' s' s'') :
    Took (own ++ own') s s'' := by
  refine ⟨?_, ?_⟩
  · rw [second.taken, first.taken, List.append_assoc]
  · rw [second.list, first.list, List.length_append]
    funext n
    dsimp only
    rw [Nat.add_assoc, Nat.add_comm own'.length]

/-- None taken. -/
theorem Took.none (taken : s'.taken = s.taken) (list : s'.list = s.list) : Took [] s s' :=
  ⟨taken.trans (List.append_nil _).symm, list⟩

/-- One taken. -/
theorem Took.vaArg (class' : Class) : Took [class'] s (s.vaArg class').2 := ⟨rfl, rfl⟩

/-! ### Flags and digits -/

/-- The flags, one by one. -/
theorem mem_flagCharacters : c ∈ flagCharacters ↔
    c = chr '-' ∨ c = chr '+' ∨ c = chr '#' ∨ c = chr ' ' ∨ c = chr '0' := by
  rw [show flagCharacters = [chr '-', chr '+', chr '#', chr ' ', chr '0'] from rfl]
  simp only [List.mem_cons, List.not_mem_nil, or_false]

/-- A flag is marked. -/
theorem scanFlags_mark (flag : c ∈ flagCharacters) :
    scanFlags spec (c :: rest) = scanFlags (spec.mark c) rest := by
  rw [scanFlags]
  rcases mem_flagCharacters.mp flag with rfl | rfl | rfl | rfl | rfl <;> rfl

/-- All flags are. -/
theorem scanFlags_flags (flags : ∀ c ∈ fs, c ∈ flagCharacters) :
    scanFlags spec (fs ++ rest) = scanFlags (fs.foldl Spec.mark spec) rest := by
  induction fs generalizing spec with
  | nil => rfl
  | cons c fs ih =>
    rw [List.forall_mem_cons] at flags
    rw [List.cons_append, scanFlags_mark flags.1, ih flags.2]
    rfl

/-- The scanner stops where there is none. -/
theorem scanFlags_stop (stop : peek rest ∉ flagCharacters) :
    scanFlags spec rest = (spec, rest) := by
  cases rest with
  | nil => rfl
  | cons c rest =>
    change c ∉ _ at stop
    rw [mem_flagCharacters, not_or, not_or, not_or, not_or] at stop
    obtain ⟨minus, plus, sharp, space, zero⟩ := stop
    rw [scanFlags, if_neg minus, if_neg plus, if_neg sharp, if_neg space, if_neg zero]

/-- Digits are read. -/
theorem scanDigits_digits (digits : ∀ c ∈ ds, isdigit c = true) : scanDigits n (ds ++ rest) =
    scanDigits (ds.foldl (fun n c => n * 10 + (c.signExtend 32 - 48)) n) rest := by
  induction ds generalizing n with
  | nil => rfl
  | cons c ds ih =>
    rw [List.forall_mem_cons] at digits
    rw [List.cons_append, scanDigits, if_pos digits.1, ih digits.2]
    rfl

/-- Up to where there is none. -/
theorem scanDigits_stop (stop : isdigit (peek rest) = false) : scanDigits n rest = (n, rest) := by
  cases rest with
  | nil => rfl
  | cons c rest =>
    rw [scanDigits, if_neg]
    exact (Bool.not_eq_true _).mpr stop

/-- Of the digits of a width the leading zeros are taken for flags. -/
theorem scanFlags_digits (digits : ∀ c ∈ ds, isdigit c = true) (stops : Stops rest) :
    ∃ spec' ds', (∀ c ∈ ds', isdigit c = true) ∧
      scanFlags spec (ds ++ rest) = (spec', ds' ++ rest) := by
  induction ds generalizing spec with
  | nil => exact ⟨spec, [], digits, scanFlags_stop stops.1⟩
  | cons c ds ih =>
    by_cases flag : c ∈ flagCharacters
    · rw [List.cons_append, scanFlags_mark flag]
      exact ih (List.forall_mem_cons.mp digits).2
    · exact ⟨spec, c :: ds, digits, scanFlags_stop flag⟩

/-! ### Numbers -/

/-- A number in digits. -/
theorem scanNumber_digits (digits : ∀ c ∈ ds, isdigit c = true) (stops : Stops rest)
    (format : s.format = ds ++ rest) : scanNumber s =
      (ds.foldl (fun n c => n * 10 + (c.signExtend 32 - 48)) 0, { s with format := rest }) := by
  rw [scanNumber, format, scanDigits_digits digits, scanDigits_stop stops.2.1]
  dsimp only
  rw [if_neg stops.2.2]

/-- A number in an argument. -/
theorem scanNumber_star (format : s.format = chr '*' :: rest) : scanNumber s =
    ((s.list 0).setWidth 32, { (s.vaArg .integer).2 with format := rest }) := by
  rw [scanNumber, format, scanDigits_stop (by rfl)]
  rfl

/-- A number is passed, and its argument is taken. -/
theorem scanNumber_count (count : Count) (stops : Stops rest)
    (format : s.format = count.text ++ rest) : ∃ n s', scanNumber s = (n, s') ∧
      s'.format = rest ∧ Took count.own s s' := by
  cases count with
  | digits ds => exact ⟨_, _, scanNumber_digits ds.2 stops format, rfl, Took.none rfl rfl⟩
  | star => exact ⟨_, _, scanNumber_star format, rfl, ⟨rfl, rfl⟩⟩

/-! ### Specifications -/

/-- No conversion is of another kind of character. -/
theorem conversions_spec : ∀ c ∈ conversions, (c ∉ flagCharacters ∧ isdigit c = false ∧
    c ≠ chr '*') ∧ c ≠ chr '.' ∧ c ∉ ascii "hljztL" := by
  decide

/-- No length is a flag, a digit, a `*` or a point. -/
theorem lengths_spec : ∀ c ∈ ascii "hljztL", (c ∉ flagCharacters ∧ isdigit c = false ∧
    c ≠ chr '*') ∧ c ≠ chr '.' := by
  decide

/-- A length is nothing, or begins with one of its letters. -/
theorem length_text (length : Length) :
    length.text = [] ∨ ∃ x t, length.text = x :: t ∧ x ∈ ascii "hljztL" := by
  cases length
  case none => exact Or.inl rfl
  all_goals exact Or.inr ⟨_, _, rfl, by decide⟩

/-- A length and a conversion end a number. -/
theorem stops_conversion (known : c ∈ conversions) (length : Length) :
    Stops (length.text ++ c :: rest) ∧ peek (length.text ++ c :: rest) ≠ chr '.' := by
  rcases length_text length with none | ⟨x, t, some', letter⟩
  · rw [none]
    exact ⟨(conversions_spec c known).1, (conversions_spec c known).2.1⟩
  · rw [some']
    exact lengths_spec x letter

/-- And so does a precision. -/
theorem stops_precision (stops : Stops rest) (precision : Option Count) :
    Stops (precisionText precision ++ rest) := by
  have point : chr '.' ∉ flagCharacters ∧ isdigit (chr '.') = false ∧ chr '.' ≠ chr '*' := by
    decide
  cases precision with
  | none => exact stops
  | some count => exact point

/-- The scanner on a precision. -/
theorem scanPrecision_eq (precision : Option Count) (stops : Stops rest)
    (point : peek rest ≠ chr '.') (format : s.format = precisionText precision ++ rest) :
    ∃ n s', scanPrecision s = (n, s') ∧ s'.format = rest ∧ Took (precisionOwn precision) s s' := by
  cases precision with
  | none =>
    have format' : s.format = rest := format
    rw [scanPrecision, if_neg (by rwa [format'])]
    exact ⟨_, _, rfl, format', Took.none rfl rfl⟩
  | some count =>
    have format' : s.skip.format = count.text ++ rest := by
      rw [State.skip, format]
      rfl
    rw [scanPrecision, if_pos (by rw [format]; rfl)]
    obtain ⟨n, s', run, place, took⟩ := scanNumber_count count stops format'
    exact ⟨n, s', run, place, took.taken, took.list⟩

/-- Where the scanner is after a length, at the specifier. -/
def Length.leaves (length : Length) (c : BitVec 8) (rest : List (BitVec 8)) : List (BitVec 8) :=
  if length = .hh then chr 'h' :: c :: rest else c :: rest

/-- On one letter of a length. -/
theorem scanLength_letter {x : BitVec 8} (known : c ∈ conversions) (letter : x ∈ ascii "hljztL")
    (format : s.format = x :: c :: rest) :
    scanLength s = (x, { s with format := c :: rest }) := by
  obtain ⟨-, -, other⟩ := conversions_spec c known
  have h : c ≠ chr 'h' := fun same => other (same ▸ by decide)
  have l : c ≠ chr 'l' := fun same => other (same ▸ by decide)
  have next : s.skip.format = c :: rest := by
    rw [State.skip, format]
    rfl
  rw [scanLength, format, if_pos (show peek (x :: c :: rest) ∈ _ from letter)]
  dsimp only
  rw [next, peek_cons, if_neg h, if_neg l, State.skip, format]
  rfl

/-- And on a length. -/
theorem scanLength_eq (known : c ∈ conversions) (length : Length)
    (format : s.format = length.text ++ c :: rest) :
    scanLength s = (length.byte, { s with format := length.leaves c rest }) := by
  cases length
  case none =>
    have format' : s.format = c :: rest := format
    rw [scanLength, format', peek_cons, if_neg (conversions_spec c known).2.2, Length.leaves,
      if_neg (by decide), ← format']
    rfl
  case hh =>
    rw [scanLength, State.skip, format]
    rfl
  case ll =>
    rw [scanLength, State.skip, format]
    rfl
  all_goals exact scanLength_letter known (by decide) format

/-- The scanner, part by part. -/
theorem scan_steps {format : List (BitVec 8)} {m : BitVec 32} {length : BitVec 8} {s₁ s₂ s₃ : State}
    (flags : scanFlags ⟨false, false, false, false, false, 0, 0, 0, 0⟩ s.format = (spec, format))
    (width : scanNumber { s with format := format } = (n, s₁))
    (precision : scanPrecision s₁ = (m, s₂))
    (lengths : scanLength s₂ = (length, s₃)) :
    scan s = ({ spec with
      lengthSpec := n, precSpec := m, length := length, specifier := peek s₃.format }, s₃) := by
  rw [scan, flags]
  dsimp only
  rw [width]
  dsimp only
  rw [precision]
  dsimp only
  rw [lengths]

/-- All of a specification is passed but a second `h`, which the scanner leaves for the text behind
it. The arguments taken are those of a width and a precision given as stars. -/
theorem scan_directive (d : Directive) (format : s.format = d.text ++ rest) :
    ∃ spec s', scan s = (spec, s') ∧ s'.format = d.length.leaves d.conversion.1 rest ∧
      Took (d.width.own ++ precisionOwn d.precision) s s' ∧ spec.length = d.length.byte ∧
      spec.specifier = if d.length = .hh then chr 'h' else d.conversion.1 := by
  obtain ⟨stops, point⟩ := @stops_conversion rest _ d.conversion.2 d.length
  have stops' := stops_precision stops d.precision
  have split : s.format = d.flags.1 ++ (d.width.text ++ (precisionText d.precision ++
      (d.length.text ++ d.conversion.1 :: rest))) := by
    rw [format, Directive.text]
    simp only [List.append_assoc, List.singleton_append]
  -- the flags with the leading zeros of the width, and what is left of the width
  obtain ⟨spec, count, own, passed⟩ : ∃ (spec : Spec) (count : Count), count.own = d.width.own ∧
      scanFlags ⟨false, false, false, false, false, 0, 0, 0, 0⟩ s.format =
        (spec, count.text ++ (precisionText d.precision ++
          (d.length.text ++ d.conversion.1 :: rest))) := by
    rw [split, scanFlags_flags d.flags.2]
    cases d.width with
    | digits ds =>
      obtain ⟨spec, ds', digits, eq⟩ := scanFlags_digits ds.2 stops'
      exact ⟨spec, .digits ⟨ds', digits⟩, rfl, eq⟩
    | star =>
      have star : chr '*' ∉ flagCharacters := by decide
      exact ⟨_, .star, rfl, scanFlags_stop star⟩
  obtain ⟨n, s₁, width, place₁, took₁⟩ := scanNumber_count count stops'
    (s := { s with format := count.text ++ (precisionText d.precision ++
      (d.length.text ++ d.conversion.1 :: rest)) }) rfl
  obtain ⟨m, s₂, precision, place₂, took₂⟩ := scanPrecision_eq d.precision stops point place₁
  have lengths := scanLength_eq d.conversion.2 d.length place₂
  refine ⟨_, _, scan_steps passed width precision lengths, rfl, ?_, rfl, ?_⟩
  · rw [← own]
    exact ⟨(took₁.trans took₂).taken, (took₁.trans took₂).list⟩
  · show peek (d.length.leaves d.conversion.1 rest) = _
    rw [Length.leaves]
    split <;> rfl

/-- Lengths are told apart. -/
theorem Length.byte_inj : ∀ length length' : Length,
    length.byte = length'.byte → length = length' := by
  intro length length'
  cases length <;> cases length' <;> decide

/-- There is one way only to end a specification, so reading a text as pieces is no choice: length,
conversion and the rest are functions of the text. -/
theorem directive_unique {d d' : Directive} {rest' : List (BitVec 8)}
    (same : d.text ++ rest = d'.text ++ rest') :
    d.length = d'.length ∧ d.conversion.1 = d'.conversion.1 ∧ rest = rest' := by
  obtain ⟨spec, s₁, scanned, leaves, -, length, -⟩ := @scan_directive rest
    ⟨d.text ++ rest, fun _ => 0, 0, [], [], []⟩ d rfl
  obtain ⟨spec', s₁', scanned', leaves', -, length', -⟩ := @scan_directive rest'
    ⟨d.text ++ rest, fun _ => 0, 0, [], [], []⟩ d' same
  obtain ⟨rfl, rfl⟩ := Prod.mk.inj (scanned.symm.trans scanned')
  have equal := Length.byte_inj _ _ (length.symm.trans length')
  have place := leaves.symm.trans leaves'
  rw [equal, Length.leaves, Length.leaves] at place
  refine ⟨equal, ?_⟩
  split at place
  · exact List.cons.inj (List.cons.inj place).2
  · exact List.cons.inj place

/-! ### Places -/

/-- Flags are passed. -/
theorem scanFlags_suffix : (scanFlags spec fs).2 <:+ fs := by
  induction fs generalizing spec with
  | nil => exact List.suffix_rfl
  | cons c fs ih =>
    rw [scanFlags]
    split_ifs
    · exact ih.trans (List.suffix_cons c fs)
    · exact ih.trans (List.suffix_cons c fs)
    · exact ih.trans (List.suffix_cons c fs)
    · exact ih.trans (List.suffix_cons c fs)
    · exact ih.trans (List.suffix_cons c fs)
    · exact List.suffix_rfl

/-- Digits are passed. -/
theorem scanDigits_suffix : (scanDigits n ds).2 <:+ ds := by
  induction ds generalizing n with
  | nil => exact List.suffix_rfl
  | cons c ds ih =>
    rw [scanDigits]
    split
    · exact ih.trans (List.suffix_cons c ds)
    · exact List.suffix_rfl

/-- A number is passed. -/
theorem scanNumber_suffix : (scanNumber s).2.format <:+ s.format := by
  rw [scanNumber]
  dsimp only
  split
  · exact (List.tail_suffix _).trans scanDigits_suffix
  · exact scanDigits_suffix

/-- A precision is passed. -/
theorem scanPrecision_suffix : (scanPrecision s).2.format <:+ s.format := by
  rw [scanPrecision]
  split
  · exact scanNumber_suffix.trans (List.tail_suffix _)
  · exact List.suffix_rfl

/-- A length is passed. -/
theorem scanLength_suffix : (scanLength s).2.format <:+ s.format := by
  rw [scanLength]
  dsimp only
  split_ifs
  · exact List.tail_suffix _
  · exact (List.tail_suffix _).trans (List.tail_suffix _)
  · exact List.tail_suffix _
  · exact List.suffix_rfl

/-- The scanner comes nearer to the end of the format, or stays; it never looks behind. That the
loop over the format ends rests on this. -/
theorem scan_suffix : (scan s).2.format <:+ s.format := by
  rw [scan]
  dsimp only
  refine scanLength_suffix.trans (scanPrecision_suffix.trans (scanNumber_suffix.trans ?_))
  exact scanFlags_suffix

end

end Skylight.Printf
