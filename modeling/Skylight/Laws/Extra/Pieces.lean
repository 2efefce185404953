import Skylight.Laws.Extra.Integers

/-!
# Whole formats

A format is read piece by piece: characters, integers, `%c`, `%s` and `%n`. What a call of `vprintf`
prints, counts and stores is what its pieces do one after the other, each with the arguments that
the ones before it have left.

`vprintf_printed` is by induction on the pieces, with one round for each (`round_piece`).
Integers are those of `Laws.Extra.Integers`, with the flags `-`, `+`, space and `0` and a width
below 256. Strings are read when they are displayed: that `%n` stores over none of them is a
condition on the machine.
-/

namespace Skylight.Printf

open Shell (ascii)
open Conv (Buffer)
open Strings (peek peek_cons advance)
open Justify (pad)

/-- A piece of a format. -/
inductive Piece
  | literal (c : { c : BitVec 8 // c ≠ 0 ∧ c ≠ chr '%' })
  | integer (c : Conversion)
  | char
  | string
  | count

def Piece.text : Piece → List (BitVec 8)
  | .literal c => [c.1]
  | .integer c => chr '%' :: c.directive.text
  | .char => ascii "%c"
  | .string => ascii "%s"
  | .count => ascii "%n"

/-- What a call has done: the characters displayed, of which a NUL is counted only, what was stored
for `%n`, and the arguments that are left. -/
structure Record where
  list : Nat → Word
  displayed : List (BitVec 8)
  stores : List (Word × BitVec 8 × BitVec 32)

def Record.display (r : Record) (str : List (BitVec 8)) : Record :=
  { r with displayed := r.displayed ++ str }

/-- An argument less. -/
def Record.drop (r : Record) : Record := { r with list := fun n => r.list (n + 1) }

section
variable {Double : Type} (machine : Machine Double)

/-- What a piece does. -/
def Piece.print (r : Record) : Piece → Record
  | .literal c => r.display [c.1]
  | .integer c => Record.drop { r.display (c.text r.list) with list := c.width.after r.list }
  | .char => (r.display [(r.list 0).setWidth 8]).drop
  | .string => (r.display (machine.string (r.list 0))).drop
  | .count =>
    Record.drop { r with
      stores := r.stores ++ [(r.list 0, 0, BitVec.ofNat 32 r.displayed.length)] }

/-- What the pieces do one after the other. -/
def printed (r : Record) (ps : List Piece) : Record := ps.foldl (Piece.print machine) r

/-- An integer that is printed as it should be. -/
def Piece.Fits (r : Record) : Piece → Prop
  | .integer c => (c.width.value r.list).natAbs < 256 ∧ Plain c r.list
  | _ => True

/-- Every integer among the pieces is one, with the arguments that come to it. -/
def Fit : Record → List Piece → Prop
  | _, [] => True
  | r, p :: ps => p.Fits r ∧ Fit (p.print machine r) ps

end

/-- The variables of a call are those of the record. -/
structure Agrees (r : Record) (s : State) : Prop where
  list : s.list = r.list
  out : s.out = r.displayed.filter (· ≠ 0)
  chars : s.chars = BitVec.ofNat 32 r.displayed.length
  stores : s.stores = r.stores

/-- Nothing is displayed or stored between two states. -/
structure Quiet (s s' : State) : Prop where
  out : s'.out = s.out
  chars : s'.chars = s.chars
  stores : s'.stores = s.stores

section
variable {Double : Type} {machine : Machine Double} {r : Record} {s s' s'' : State} {c : Conversion}
  {rounds n : Nat} {rest : List (BitVec 8)} {p : Piece} {ps : List Piece} {spec : Spec}

/-- Nothing done. -/
theorem Quiet.refl (s : State) : Quiet s s := ⟨rfl, rfl, rfl⟩

/-- Two steps in which nothing is displayed. -/
theorem Quiet.trans (first : Quiet s s') (second : Quiet s' s'') : Quiet s s'' :=
  ⟨second.out.trans first.out, second.chars.trans first.chars, second.stores.trans first.stores⟩

/-- What displays nothing agrees. -/
theorem Agrees.quiet (h : Agrees r s) (quiet : Quiet s s') (list : s'.list = s.list) :
    Agrees r s' :=
  ⟨list.trans h.list, quiet.out.trans h.out, quiet.chars.trans h.chars,
    quiet.stores.trans h.stores⟩

/-- An argument is taken. -/
theorem Agrees.vaArg (h : Agrees r s) (c : Class) : Agrees r.drop (s.vaArg c).2 := by
  refine ⟨?_, h.out, h.chars, h.stores⟩
  show (fun n => s.list (n + 1)) = fun n => r.list (n + 1)
  rw [h.list]

/-- A character displayed. -/
theorem Agrees.displayCharacter (h : Agrees r s) (ch : BitVec 8) :
    Agrees (r.display [ch]) (s.displayCharacter ch) := by
  refine ⟨h.list, ?_, ?_, h.stores⟩
  · rw [State.displayCharacter, Record.display, List.filter_append, ← h.out]
    dsimp only
    split
    next nul =>
      rw [nul]
      exact (List.append_nil _).symm
    next some' => rw [List.filter_singleton, decide_eq_true some', cond_true]
  · rw [State.displayCharacter, Record.display, List.length_append, List.length_singleton,
      BitVec.ofNat_add, ← h.chars]
    rfl

/-- A string displayed. -/
theorem Agrees.displayString (h : Agrees r s) (str : List (BitVec 8)) :
    Agrees (r.display str) (s.displayString str) := by
  induction str generalizing r s with
  | nil => exact ⟨h.list, by rw [Record.display, List.append_nil]; exact h.out,
      by rw [Record.display, List.append_nil]; exact h.chars, h.stores⟩
  | cons ch str ih =>
    have rest := ih (h.displayCharacter ch)
    rw [Record.display, Record.display, List.append_assoc] at rest
    exact rest

/-! ### The scanner displays nothing -/

/-- Nothing is displayed for a width. -/
theorem scanNumber_quiet : Quiet s (scanNumber s).2 := by
  rw [scanNumber]
  dsimp only
  split
  · exact ⟨rfl, rfl, rfl⟩
  · exact ⟨rfl, rfl, rfl⟩

/-- Nor for a precision. -/
theorem scanPrecision_quiet : Quiet s (scanPrecision s).2 := by
  rw [scanPrecision]
  split
  · exact (show Quiet s s.skip from ⟨rfl, rfl, rfl⟩).trans scanNumber_quiet
  · exact .refl s

/-- Nor for a length. -/
theorem scanLength_quiet : Quiet s (scanLength s).2 := by
  rw [scanLength]
  dsimp only
  split_ifs
  all_goals exact ⟨rfl, rfl, rfl⟩

/-- Nor for any of a specification but its conversion. -/
theorem scan_quiet : Quiet s (scan s).2 := by
  have flags : Quiet s { s with
      format := (scanFlags ⟨false, false, false, false, false, 0, 0, 0, 0⟩ s.format).2 } :=
    ⟨rfl, rfl, rfl⟩
  exact ((flags.trans scanNumber_quiet).trans scanPrecision_quiet).trans scanLength_quiet

/-! ### Rounds -/

/-- No flags. -/
theorem nil_flags : ∀ c ∈ ([] : List (BitVec 8)), c ∈ flagCharacters := List.forall_mem_nil _

/-- No digits. -/
theorem nil_digits : ∀ c ∈ ([] : List (BitVec 8)), isdigit c = true := List.forall_mem_nil _

/-- A conversion without options. -/
def bare (ch : { ch : BitVec 8 // ch ∈ conversions }) : Directive :=
  ⟨⟨[], nil_flags⟩, .digits ⟨[], nil_digits⟩, none, .none, ch⟩

/-- A round with one of them. -/
theorem round_bare (agrees : Agrees r s) (ch : { ch : BitVec 8 // ch ∈ conversions })
    (format : s.format = chr '%' :: ch.1 :: rest) {r' : Record}
    (converted : ∀ spec s₁, Agrees r s₁ → spec.length = 0 → spec.specifier = ch.1 →
      ∃ s₂, convert machine rounds spec s₁ = .ok s₂ ∧ s₂.format = s₁.format ∧ Agrees r' s₂) :
    ∃ s', round machine rounds s = .ok s' ∧ s'.format = rest ∧ Agrees r' s' := by
  have percent : peek s.format = chr '%' := by rw [format, peek_cons]
  have text : s.skip.format = (bare ch).text ++ rest := by
    rw [State.skip, format]
    rfl
  obtain ⟨spec, s₁, scanned, place, took, length, specifier⟩ := scan_directive (bare ch) text
  have quiet : Quiet s.skip (scan s.skip).2 := scan_quiet
  rw [scanned] at quiet
  have skipped : Agrees r s.skip := ⟨agrees.list, agrees.out, agrees.chars, agrees.stores⟩
  have before : Agrees r s₁ := skipped.quiet quiet took.list
  obtain ⟨s₂, run, same, after⟩ := converted spec s₁ before length specifier
  refine ⟨{ s₂ with format := rest }, (round_percent percent).mpr ⟨s₂, rest, ?_, ?_, rfl⟩, rfl,
    after.list, after.out, after.chars, after.stores⟩
  · rw [scanned]
    exact run
  · rw [same, place]
    rfl

/-- The number in the buffer is the text, when it is printed as it should be. -/
theorem Plain.number {list : Nat → Word} (plain : Plain c list) (stray : Int → BitVec 8) :
    (∀ ch ∈ c.number stray list, ch ≠ 0) ∧ pad (chr ' ') (chr '0') (c.has '-') (c.has '0')
      (c.width.value list) (c.number stray list) = c.text list := by
  cases signed : c.signed with
  | true =>
    have some' := plain.signed signed
    refine ⟨number_full (Or.inl (by rwa [toInt_word signed])), ?_⟩
    rw [number_signed signed some', pad_eq_text_iff]
    exact plain.padded
  | false =>
    obtain ⟨low, plus, space⟩ := plain.unsigned signed
    have natural := @toNat_word c list signed
    have some' : (c.word list).toInt ≠ -2 ^ 63 := by
      rw [BitVec.toInt_eq_toNat_cond, if_pos (by omega)]
      omega
    exact ⟨number_full (Or.inl some'), (unsigned_iff signed low).mpr ⟨plus, space, plain.padded⟩⟩

/-- What the conversion of an integer displays. -/
theorem convert_fitting {list : Nat → Word} {s₁ : State} (below : (c.width.value list).natAbs < 256)
    (plain : Plain c list) (argument : s₁.list 0 = c.argument list) :
    convert machine rounds (c.spec list) s₁ =
      .ok ((s₁.vaArg .integer).2.displayString (c.text list)) := by
  obtain ⟨full, same⟩ := plain.number machine.stray
  have specifier : (c.spec list).specifier = c.specifier.1 := if_neg plain.length
  have width : (c.spec list).lengthSpec.toInt = c.width.value list := Width.toInt_word below
  obtain ⟨b, written, printed⟩ := @intStr_pad _ machine (digitBase c.specifier.1) machine.stray
    (c.word list) (c.spec list).lengthSpec (c.has '+') (c.has ' ') (c.has '-') (c.has '0')
    (width ▸ below) full
  rw [width] at printed
  have value : (if c.specifier.1 ∈ ascii "di" then signedInteger else unsignedInteger)
      (c.spec list).length (s₁.list 0) = some (c.word list) := argument ▸ integer_word plain.length
  rw [convert_integer (specifier ▸ c.specifier.2) rfl, specifier, ← same]
  exact (showInteger_eq value written).trans (congrArg _ (congrArg _ printed))

/-- The arguments behind those of an integer. -/
theorem own_after (list : Nat → Word) : (fun n => list (n + c.directive.own.length)) =
    fun n => c.width.after list (n + 1) := by
  have own : ∀ ch ∈ ascii "diouxX", ownOf c.length.1 ch = [.integer] := by
    cases c.length.1 <;> decide
  have last : ownOf c.directive.length c.directive.conversion.1 = [.integer] :=
    own _ c.specifier.2
  rw [Directive.own, last]
  cases width : c.width with
  | digits n =>
    rw [show c.directive.width = _ from congrArg Width.count width]
    rfl
  | star =>
    rw [show c.directive.width = _ from congrArg Width.count width]
    rfl

/-- A round with an integer. -/
theorem round_fitting (agrees : Agrees r s) (below : (c.width.value r.list).natAbs < 256)
    (plain : Plain c r.list) (format : s.format = chr '%' :: (c.directive.text ++ rest)) :
    ∃ s', round machine rounds s = .ok s' ∧ s'.format = rest ∧
      Agrees ((Piece.integer c).print machine r) s' := by
  have percent : peek s.format = chr '%' := by rw [format, peek_cons]
  have text : s.skip.format = c.directive.text ++ rest := by
    rw [State.skip, format]
    rfl
  obtain ⟨list, displayed, stores⟩ := r
  obtain rfl : s.list = list := agrees.list
  obtain ⟨s₁, scanned, place, -, argument⟩ := @scan_conversion c s.skip rest below text
  have quiet : Quiet s.skip (scan s.skip).2 := scan_quiet
  rw [Length.leaves, if_neg plain.length] at place
  rw [scanned] at quiet
  have run : round machine rounds s = .ok
      { (s₁.vaArg .integer).2.displayString (c.text s.list) with format := rest } := by
    refine (round_percent percent).mpr ⟨_, rest, ?_, ?_, rfl⟩
    · rw [scanned]
      exact convert_fitting below plain argument
    · rw [(displayString_rest ..).1]
      show advance s₁.format = _
      rw [place]
      rfl
  have other : c.specifier.1 ∉ ascii "aA" := by
    have none : ∀ x ∈ ascii "diouxX", x ∉ ascii "aA" := by decide
    exact none _ c.specifier.2
  obtain ⟨-, took⟩ := (@round_directive _ machine s _ rounds c.directive rest format run).mpr
    ⟨plain.length, other, fun no => absurd no c.length.2⟩
  have skipped : Agrees ⟨s₁.list, displayed, stores⟩ s₁ :=
    ⟨rfl, quiet.out.trans agrees.out, quiet.chars.trans agrees.chars,
      quiet.stores.trans agrees.stores⟩
  have shown := (skipped.vaArg .integer).displayString (c.text s.list)
  exact ⟨_, run, rfl, took.list.trans (own_after s.list), shown.out, shown.chars, shown.stores⟩

/-- The case of `%c`. -/
theorem convert_char (specifier : spec.specifier = chr 'c') : convert machine rounds spec s =
    .ok ((s.vaArg .integer).2.displayCharacter ((s.list 0).setWidth 8)) := by
  obtain ⟨left, zero, space, alt, plus, width, precision, length, specifier'⟩ := spec
  obtain rfl : specifier' = chr 'c' := specifier
  rfl

/-- The case of `%s`. -/
theorem convert_string (specifier : spec.specifier = chr 's') : convert machine rounds spec s =
    .ok ((s.vaArg .integer).2.displayString (machine.string (s.list 0))) := by
  obtain ⟨left, zero, space, alt, plus, width, precision, length, specifier'⟩ := spec
  obtain rfl : specifier' = chr 's' := specifier
  rfl

/-- The case of `%n`. -/
theorem convert_count (specifier : spec.specifier = chr 'n') :
    convert machine rounds spec s = .ok (showCount spec s) := by
  obtain ⟨left, zero, space, alt, plus, width, precision, length, specifier'⟩ := spec
  obtain rfl : specifier' = chr 'n' := specifier
  rfl

/-- One round does what one piece does: from states that agree, it passes the piece's text, takes
its arguments, and leaves states that agree. The run over all pieces is an induction on this. -/
theorem round_piece (agrees : Agrees r s) (fits : p.Fits r) (format : s.format = p.text ++ rest) :
    ∃ s', round machine rounds s = .ok s' ∧ s'.format = rest ∧ Agrees (p.print machine r) s' := by
  cases p with
  | literal c =>
    have first : peek s.format = c.1 := by
      rw [format]
      rfl
    refine ⟨_, round_literal (first ▸ c.2.2), ?_, ?_⟩
    · show s.format.tail = rest
      rw [format]
      rfl
    · have shown := agrees.displayCharacter c.1
      rw [first]
      exact ⟨shown.list, shown.out, shown.chars, shown.stores⟩
  | integer c => exact round_fitting agrees fits.1 fits.2 format
  | char =>
    refine round_bare agrees ⟨chr 'c', by decide⟩ format fun spec s₁ before _ specifier => ?_
    have shown := (before.vaArg .integer).displayCharacter ((s₁.list 0).setWidth 8)
    refine ⟨_, convert_char specifier, rfl, ?_⟩
    rw [before.list] at shown ⊢
    exact ⟨shown.list, shown.out, shown.chars, shown.stores⟩
  | string =>
    refine round_bare agrees ⟨chr 's', by decide⟩ format fun spec s₁ before _ specifier => ?_
    have shown := (before.vaArg .integer).displayString (machine.string (s₁.list 0))
    refine ⟨_, convert_string specifier, (displayString_rest ..).1, ?_⟩
    rw [before.list] at shown ⊢
    exact ⟨shown.list, shown.out, shown.chars, shown.stores⟩
  | count =>
    refine round_bare agrees ⟨chr 'n', by decide⟩ format
      fun spec s₁ before length specifier => ?_
    refine ⟨_, convert_count specifier, ?_, ?_⟩
    all_goals rw [showCount, if_pos (Or.inl length)]
    · rfl
    · refine ⟨(before.vaArg .integer).list, before.out, before.chars, ?_⟩
      show s₁.stores ++ [(s₁.list 0, spec.length, s₁.chars)] = _
      rw [before.stores, before.list, before.chars, length]
      rfl

/-! ### Calls -/

/-- A piece begins with a character. -/
theorem text_ne_zero : ∃ ch t, p.text = ch :: t ∧ ch ≠ 0 := by
  cases p with
  | literal c => exact ⟨c.1, [], rfl, c.2.1⟩
  | integer c => exact ⟨chr '%', _, rfl, by decide⟩
  | char => exact ⟨chr '%', _, rfl, by decide⟩
  | string => exact ⟨chr '%', _, rfl, by decide⟩
  | count => exact ⟨chr '%', _, rfl, by decide⟩

/-- The loop does what the pieces do. -/
theorem formatLoop_pieces (agrees : Agrees r s) (fit : Fit machine r ps)
    (format : s.format = ps.flatMap Piece.text) (enough : s.format.length ≤ n) :
    ∃ s', formatLoop machine rounds n s = .ok s' ∧ Agrees (printed machine r ps) s' := by
  -- Induction on the pieces, one round for each; a NUL in front ends the loop.
  induction ps generalizing n r s with
  | nil =>
    cases n with
    | zero => exact ⟨s, rfl, agrees⟩
    | succ n =>
      refine ⟨s, ?_, agrees⟩
      rw [formatLoop, format]
      rfl
  | cons p ps ih =>
    rw [List.flatMap_cons] at format
    obtain ⟨ch, t, text, some'⟩ := @text_ne_zero p
    obtain ⟨s₁, one, place, agrees₁⟩ := @round_piece _ machine r s rounds _ p agrees fit.1 format
    obtain ⟨n, rfl⟩ : ∃ m, n = m + 1 := by
      rw [format, text, List.cons_append, List.length_cons] at enough
      exact ⟨n - 1, by omega⟩
    have shorter : s₁.format.length ≤ n := by
      rw [format, text, List.length_append, List.length_cons] at enough
      rw [place]
      omega
    have more : peek s.format ≠ 0 := by
      rw [format, text]
      exact some'
    obtain ⟨s', run, agrees'⟩ := ih agrees₁ fit.2 place shorter
    refine ⟨s', ?_, agrees'⟩
    rw [formatLoop, if_neg more, one, ok_bind]
    exact run

end

/-- A call prints what its pieces display, but for the NULs, which it counts; it returns their
number, and stores for every `%n` how many there were so far. -/
theorem vprintf_printed {Double : Type} (machine : Machine Double) (rounds : Nat) (ps : List Piece)
    (list : Nat → Word) (fit : Fit machine ⟨list, [], []⟩ ps) :
    ∃ s, vprintf machine rounds (ps.flatMap Piece.text) list = .ok s ∧
      let r := printed machine ⟨list, [], []⟩ ps
      s.out = r.displayed.filter (· ≠ 0) ∧ s.chars = BitVec.ofNat 32 r.displayed.length ∧
        s.stores = r.stores ∧ s.list = r.list := by
  have start : Agrees ⟨list, [], []⟩ ⟨ps.flatMap Piece.text, list, 0, [], [], []⟩ :=
    ⟨rfl, rfl, rfl, rfl⟩
  obtain ⟨s, run, agrees⟩ := @formatLoop_pieces _ machine _ _ rounds _ ps start fit rfl le_rfl
  exact ⟨s, run, agrees.out, agrees.chars, agrees.stores, agrees.list⟩

/-- A number in three places, a character and the place of the count. -/
def row : List Piece := [.integer (decimal ⟨[], by decide⟩ 3), .char, .count]

/-- What the call of the row prints, counts and stores. -/
theorem vprintf_printed_row : ∃ s,
    vprintf naturals 0 (ascii "%3d%c%n") (fun n => [42, 0x7c, 0x1000].getD n 0) = .ok s ∧
      s.out = ascii " 42|" ∧ s.chars = 4 ∧ s.stores = [(0x1000, 0, 4)] := by
  have fit : Fit naturals ⟨fun n => [42, 0x7c, 0x1000].getD n 0, [], []⟩ row := by
    refine ⟨⟨by decide, by decide, fun _ => by decide, fun no => absurd no (by decide), ?_⟩,
      trivial, trivial, trivial⟩
    rw [Conversion.Padded]
    decide
  obtain ⟨s, run, out, chars, stores, -⟩ := vprintf_printed naturals 0 row _ fit
  exact ⟨s, run, out.trans (by decide), chars.trans (by decide), stores.trans (by decide)⟩

end Skylight.Printf
