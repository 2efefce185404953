import Skylight.Lib.Outcome
import Skylight.Laws.Extra.Scan

/-!
# The scanner of `vprintf` in a run

Round by round over the format: what is read of it, what is written to the buffers, where the
next round begins and which arguments are taken.

Each case of the `switch` has a law (`IntegerCase`, `OtherCase`, and those of doubles), and
`convert_ok_iff` puts them together: a conversion stays inside of its buffers, whatever lies
before `digit`, if and only if what it writes is `Held`. `convert_spec` says what it leaves of
the format and of the arguments. Doubles are a type of their own with the operations that the
source uses; nothing is proved of their digits.
-/

namespace Skylight.Printf

open Shell (ascii)
open Strings (peek peek_cons advance)

/-- The same machine with other bytes before `digit`. -/
def Machine.withStray {Double : Type} (machine : Machine Double) (stray : Int → BitVec 8) :
    Machine Double := { machine with stray := stray }

/-- The base and the value of an integer conversion. -/
def integerOf (spec : Spec) (w : Word) : Option (Nat × Word) :=
  let c := spec.specifier
  if c = chr 'o' then (unsignedInteger spec.length w).map (8, ·)
  else if c = chr 'p' then some (16, w)
  else if c = chr 'X' then (unsignedInteger spec.length w).map (16, ·)
  else if c = chr 'x' then (unsignedInteger spec.length w).map (17, ·)
  else if c = chr 'u' then (unsignedInteger spec.length w).map (10, ·)
  else if c = chr 'd' ∨ c = chr 'i' then (signedInteger spec.length w).map (10, ·)
  else none

/-- `emode` -/
def Spec.emode (spec : Spec) : Bool := decide (spec.specifier = chr 'e' ∨ spec.specifier = chr 'E')

/-- What a conversion writes stays in the buffers, and its divisions end. -/
structure Held {Double : Type} (machine : Machine Double) (spec : Spec) (w : Word) : Prop where
  integer : ∀ base i, integerOf spec w = some (base, i) →
    Fits i base spec.plusSign spec.spaceNoSign spec.lengthSpec spec.leftJustify
  double : spec.specifier ∈ ascii "eEfFgG" → ∃ rounds floating expo,
    scaleLoop machine spec.emode rounds (machine.double w) 0 = .ok (floating, expo) ∧
      Fits (machine.toInt floating) 10 spec.plusSign spec.spaceNoSign
        (formOf spec spec.emode expo) spec.leftJustify ∧
      (spec.precSpec = 0 ∨ 0 ≤ spec.precSpec.toInt ∧ spec.precSpec.toInt < 256)

section
variable {Double : Type} {machine : Machine Double} {spec : Spec} {s s' : State} {rounds base : Nat}
  {integer : BitVec 8 → Word → Option Word} {w : Word} {b : Conv.Buffer} {floating : Double}
  {stray : Int → BitVec 8} {expo : BitVec 32}

/-! ### Integers -/

/-- An integer whose length has a case is rendered and displayed. -/
theorem showInteger_eq {i : Word} (known : integer spec.length (s.list 0) = some i)
    (run : intStr machine.stray i (fun _ => 0) base spec.plusSign spec.spaceNoSign spec.lengthSpec
      spec.leftJustify spec.zeroPad = .ok b) : showInteger machine integer base spec s =
        .ok ((s.vaArg .integer).2.displayString (machine.text b)) := by
  rw [showInteger, known]
  dsimp only
  rw [run]
  rfl

/-- It is displayed when it can be rendered. -/
theorem showInteger_some {i : Word} (known : integer spec.length (s.list 0) = some i) :
    (∃ s', showInteger machine integer base spec s = .ok s') ↔
      ∃ b, intStr machine.stray i (fun _ => 0) base spec.plusSign spec.spaceNoSign spec.lengthSpec
        spec.leftJustify spec.zeroPad = .ok b := by
  constructor
  · rintro ⟨s', run⟩
    rw [showInteger, known] at run
    obtain ⟨b, run, -⟩ := ok_of_bind run
    exact ⟨b, run⟩
  · rintro ⟨b, run⟩
    exact ⟨_, showInteger_eq known run⟩

/-- And it can when its text fits. -/
theorem showInteger_ok_iff (known : base ∈ bases) :
    (∀ stray, ∃ s', showInteger (machine.withStray stray) integer base spec s = .ok s') ↔
      ∀ i, integer spec.length (s.list 0) = some i →
        Fits i base spec.plusSign spec.spaceNoSign spec.lengthSpec spec.leftJustify := by
  cases value : integer spec.length (s.list 0) with
  | none =>
    refine iff_of_true (fun stray => ⟨s, ?_⟩) fun i no => by cases no
    rw [showInteger, value]
  | some i =>
    rw [forall_congr' fun stray => showInteger_some value]
    exact (intStr_ok_iff known).trans ⟨fun fits j same => Option.some.inj same ▸ fits,
      fun all => all i rfl⟩

/-! ### Doubles -/

/-- A NUL is put into a buffer of 256 bytes. -/
theorem terminate_iff {n : BitVec 32} :
    (∃ b', terminate b n = .ok b') ↔ 0 ≤ n.toInt ∧ n.toInt < 256 := by
  have size : bufferSize = 256 := rfl
  rw [terminate]
  split
  · next negative => exact iff_of_false (fun ⟨_, no⟩ => by cases no) (by omega)
  · next natural =>
    have value : (n.toNat : Int) = n.toInt := by
      rw [BitVec.toInt_eq_toNat_cond] at natural ⊢
      have small := n.isLt
      split at natural
      · next low => rw [if_pos low]
      · omega
    rw [store]
    split
    · exact iff_of_true ⟨_, rfl⟩ (by omega)
    · exact iff_of_false (fun ⟨_, no⟩ => by cases no) (by omega)

/-- The fraction stays in the buffer when its precision does. -/
theorem showFraction_ok_iff : (∃ r, showFraction machine floating b spec s = .ok r) ↔
    spec.precSpec = 0 ∨ 0 ≤ spec.precSpec.toInt ∧ spec.precSpec.toInt < 256 := by
  rw [showFraction]
  dsimp only
  split
  · next some' =>
    obtain ⟨b', run⟩ := @intStr_short b 10 machine.stray false false false 0
      (machine.round (machine.mulTen^[spec.precSpec.toInt.toNat] (machine.fraction floating)))
      (by decide) (by decide) (by decide)
    rw [run, ok_bind, or_iff_right some', ← @terminate_iff b']
    constructor
    · rintro ⟨r, run⟩
      obtain ⟨b'', run, -⟩ := ok_of_bind run
      exact ⟨b'', run⟩
    · rintro ⟨b'', run⟩
      rw [run]
      exact ⟨_, rfl⟩
  · next zero => exact iff_of_true ⟨_, rfl⟩ (Or.inl (not_not.mp zero))

/-- A double ends when all its parts do. -/
theorem showDouble_ok_iff : (∃ s', showDouble machine rounds spec s = .ok s') ↔
    ∃ floating expo b,
      scaleLoop machine spec.emode rounds (machine.double (s.list 0)) 0 = .ok (floating, expo) ∧
      intStr machine.stray (machine.toInt floating) (fun _ => 0) 10 spec.plusSign spec.spaceNoSign
        (formOf spec spec.emode expo) spec.leftJustify spec.zeroPad = .ok b ∧
      (spec.precSpec = 0 ∨ 0 ≤ spec.precSpec.toInt ∧ spec.precSpec.toInt < 256) := by
  rw [showDouble]
  constructor
  · rintro ⟨s', run⟩
    obtain ⟨⟨floating, expo⟩, divided, run⟩ := ok_of_bind run
    obtain ⟨b, written, run⟩ := ok_of_bind run
    obtain ⟨r, fraction, -⟩ := ok_of_bind run
    exact ⟨floating, expo, b, divided, written, showFraction_ok_iff.mp ⟨r, fraction⟩⟩
  · rintro ⟨floating, expo, b, divided, written, precision⟩
    obtain ⟨⟨b', s'⟩, fraction⟩ := (@showFraction_ok_iff _ machine spec
      (({ s with list := fun n => s.list (n + 1), taken := s.taken ++ [.double] } :
        State).displayString (machine.text b)) b floating).mpr precision
    rw [Spec.emode] at divided written
    dsimp only [State.vaArg]
    rw [divided, ok_bind]
    dsimp only
    rw [written, ok_bind, fraction, ok_bind]
    dsimp only
    split
    · obtain ⟨b'', run⟩ := @intStr_short b' 10 machine.stray false false true 2 (expo.signExtend 64)
        (by decide) (by decide) (by decide)
      rw [run]
      exact ⟨_, rfl⟩
    · exact ⟨_, rfl⟩

/-- The scaling does not look before `digit`. -/
theorem scaleLoop_stray {emode : Bool} : scaleLoop (machine.withStray stray) emode rounds floating
    expo = scaleLoop machine emode rounds floating expo := by
  induction rounds generalizing floating expo with
  | zero => rfl
  | succ rounds ih =>
    rw [scaleLoop, scaleLoop, ih]
    rfl

/-- And ends in one way only. -/
theorem scaleLoop_unique {emode : Bool} {n : Nat} {r r' : Double × BitVec 32}
    (run : scaleLoop machine emode rounds floating expo = .ok r)
    (run' : scaleLoop machine emode n floating expo = .ok r') : r = r' := by
  induction rounds generalizing n floating expo with
  | zero => cases run
  | succ rounds ih =>
    cases n with
    | zero => cases run'
    | succ n =>
      rw [scaleLoop] at run run'
      split at run
      · next more =>
        rw [if_pos more] at run'
        exact ih run run'
      · next done =>
        rw [if_neg done] at run'
        exact Except.ok.inj (run.symm.trans run')

/-! ### Arguments -/

/-- The lengths that have a case. -/
def Known (length : BitVec 8) : Prop := length = 0 ∨ length ∈ ascii "Hhlqjzt"

instance (length : BitVec 8) : Decidable (Known length) := inferInstanceAs (Decidable (_ ∨ _))

/-- What a conversion takes. -/
def takes (length specifier : BitVec 8) : List Class :=
  if specifier = chr 'p' then [.integer]
  else if specifier ∈ ascii "oXxudin" then if Known length then [.integer] else []
  else if specifier ∈ ascii "cs" then [.integer]
  else if specifier ∈ ascii "eEfFgG" then [.double]
  else []

/-- The lengths, one by one. -/
theorem known_split {length : BitVec 8} : Known length ↔ length = 0 ∨ length = chr 'H' ∨
    length = chr 'h' ∨ length ∈ ascii "lqjzt" := by
  have all : ascii "Hhlqjzt" = chr 'H' :: chr 'h' :: ascii "lqjzt" := rfl
  rw [Known, all, List.mem_cons, List.mem_cons]

/-- An argument is converted if its length has a case. -/
theorem unsignedInteger_isSome {length : BitVec 8} :
    (unsignedInteger length w).isSome = true ↔ Known length := by
  rw [unsignedInteger, known_split]
  grind

/-- A signed argument, too. -/
theorem signedInteger_isSome {length : BitVec 8} :
    (signedInteger length w).isSome = true ↔ Known length := by
  rw [signedInteger, known_split]
  grind

/-- The case of an integer, `p` apart. -/
theorem takes_integer {length c : BitVec 8} (mem : c ∈ ascii "oXxudin") :
    takes length c = if Known length then [.integer] else [] := by
  have other : c ≠ chr 'p' := fun same => absurd (same ▸ mem) (by decide)
  rw [takes, if_neg other, if_pos mem]

/-- And those behind it. -/
theorem takes_rest {length c : BitVec 8} (mem : c ∉ ascii "opXxudi") : takes length c =
    if c = chr 'n' then if Known length then [.integer] else []
    else if c ∈ ascii "cs" then [.integer]
    else if c ∈ ascii "eEfFgG" then [.double]
    else [] := by
  have other : c ≠ chr 'p' := fun same => mem (same ▸ by decide)
  have count : c ∈ ascii "oXxudin" ↔ c = chr 'n' := by
    revert mem
    revert c
    decide
  rw [takes, if_neg other]
  simp only [count]

/-! ### The `switch` -/

/-- What a case leaves alone. -/
structure Same (s s' : State) : Prop where
  format : s'.format = s.format
  list : s'.list = s.list
  taken : s'.taken = s.taken

/-- Nothing done. -/
theorem Same.refl : Same s s := ⟨rfl, rfl, rfl⟩

/-- Two steps that leave it alone. -/
theorem Same.trans {s₁ s₂ : State} (first : Same s s₁) (second : Same s₁ s₂) : Same s s₂ :=
  ⟨second.format.trans first.format, second.list.trans first.list, second.taken.trans first.taken⟩

/-- What is displayed leaves it alone. -/
theorem displayString_same (str : List (BitVec 8)) : Same s (s.displayString str) := by
  obtain ⟨format, list, taken⟩ := displayString_rest s str
  exact ⟨format, list, taken⟩

/-- And so does a prefix. -/
theorem displayPrefix_same (str : List (BitVec 8)) : Same s (s.displayPrefix spec str) := by
  rw [State.displayPrefix]
  split
  · exact displayString_same str
  · exact Same.refl

/-- The case of an integer. -/
structure IntegerCase (Double : Type) (spec : Spec) (s : State) (base : Nat)
    (integer : BitVec 8 → Word → Option Word) (spec' : Spec) (s' : State) : Prop where
  known : base ∈ bases
  runs : ∀ (machine : Machine Double) rounds,
    convert machine rounds spec s = showInteger machine integer base spec' s'
  same : Same s s'
  value : ∀ w, integerOf spec w = (integer spec'.length w).map (base, ·)
  takes : ∀ w, takes spec.length spec.specifier =
    if (integer spec'.length w).isSome then [.integer] else []
  flags : spec' = { spec with length := spec'.length }
  other : spec.specifier ∉ ascii "eEfFgG"

/-- A case that writes to no buffer. -/
structure OtherCase (Double : Type) (spec : Spec) (s : State) : Prop where
  runs : ∀ (machine : Machine Double) rounds, ∃ s', convert machine rounds spec s = .ok s' ∧
    s'.format = s.format ∧ Took (takes spec.length spec.specifier) s s'
  value : ∀ w, integerOf spec w = none
  other : spec.specifier ∉ ascii "eEfFgG"

/-- The cases behind those of integers. -/
theorem convert_rest (machine : Machine Double) (rounds : Nat) (s : State)
    (none : spec.specifier ∉ ascii "opXxudi") : convert machine rounds spec s =
      if spec.specifier = chr 'c' then
        .ok ((s.vaArg .integer).2.displayCharacter ((s.list 0).setWidth 8))
      else if spec.specifier = chr 's' then
        .ok ((s.vaArg .integer).2.displayString (machine.string (s.list 0)))
      else if spec.specifier = chr 'n' then .ok (showCount spec s)
      else if spec.specifier ∈ ascii "eEfFgG" then showDouble machine rounds spec s
      else .ok s := by
  have ne {c : BitVec 8} (mem : c ∈ ascii "opXxudi") : spec.specifier ≠ c :=
    fun same => none (same ▸ mem)
  rw [convert]
  dsimp only
  rw [if_neg (ne (by decide)), if_neg (ne (by decide)), if_neg (ne (by decide)),
    if_neg (ne (by decide)), if_neg (ne (by decide)),
    if_neg (not_or.mpr ⟨ne (by decide), ne (by decide)⟩)]
  rfl

/-- None of the cases of doubles is another. -/
theorem double_other : ∀ c ∈ ascii "eEfFgG", c ∉ ascii "opXxudi" ∧ c ∉ ascii "cs" ∧ c ≠ chr 'c' ∧
    c ≠ chr 's' ∧ c ≠ chr 'n' := by
  decide

/-- The cases of doubles. -/
theorem convert_double (machine : Machine Double) (rounds : Nat) (s : State)
    (double : spec.specifier ∈ ascii "eEfFgG") :
    convert machine rounds spec s = showDouble machine rounds spec s := by
  obtain ⟨none, -, c, str, n⟩ := double_other spec.specifier double
  rw [convert_rest machine rounds s none, if_neg c, if_neg str, if_neg n, if_pos double]

/-- No other conversion is of an integer. -/
theorem integerOf_none (none : spec.specifier ∉ ascii "opXxudi") :
    integerOf spec w = Option.none := by
  have ne {c : BitVec 8} (mem : c ∈ ascii "opXxudi") : spec.specifier ≠ c :=
    fun same => none (same ▸ mem)
  rw [integerOf, if_neg (ne (by decide)), if_neg (ne (by decide)), if_neg (ne (by decide)),
    if_neg (ne (by decide)), if_neg (ne (by decide)),
    if_neg (not_or.mpr ⟨ne (by decide), ne (by decide)⟩)]

/-- Every integer has its case. -/
theorem integerCase (Double : Type) (s : State) (mem : spec.specifier ∈ ascii "opXxudi") :
    ∃ base integer spec' s', IntegerCase Double spec s base integer spec' s' := by
  have unsigned (mem : spec.specifier ∈ ascii "oXxudin") (w : Word) :
      takes spec.length spec.specifier =
        if (unsignedInteger spec.length w).isSome then [.integer] else [] := by
    rw [takes_integer mem]
    simp only [unsignedInteger_isSome]
  have other : spec.specifier ∉ ascii "eEfFgG" := by
    revert mem
    generalize spec.specifier = c
    revert c
    decide
  by_cases o : spec.specifier = chr 'o'
  · exact ⟨8, unsignedInteger, spec, s.displayPrefix spec (ascii "0"), by decide,
      fun machine rounds => if_pos o, displayPrefix_same _, fun w => if_pos o,
      unsigned (o ▸ by decide), rfl, other⟩
  by_cases p : spec.specifier = chr 'p'
  · exact ⟨16, unsignedInteger, { spec with length := chr 'z' }, s, by decide,
      fun machine rounds => (if_neg o).trans (if_pos p), Same.refl,
      fun w => (if_neg o).trans (if_pos p), fun w => p ▸ rfl, rfl, other⟩
  by_cases X : spec.specifier = chr 'X'
  · exact ⟨16, unsignedInteger, spec, s.displayPrefix spec (ascii "0x"), by decide,
      fun machine rounds => (if_neg o).trans ((if_neg p).trans (if_pos X)), displayPrefix_same _,
      fun w => (if_neg o).trans ((if_neg p).trans (if_pos X)), unsigned (X ▸ by decide), rfl, other⟩
  by_cases x : spec.specifier = chr 'x'
  · exact ⟨17, unsignedInteger, spec, s.displayPrefix spec (ascii "0x"), by decide,
      fun machine rounds => (if_neg o).trans ((if_neg p).trans ((if_neg X).trans (if_pos x))),
      displayPrefix_same _,
      fun w => (if_neg o).trans ((if_neg p).trans ((if_neg X).trans (if_pos x))),
      unsigned (x ▸ by decide), rfl, other⟩
  by_cases u : spec.specifier = chr 'u'
  · exact ⟨10, unsignedInteger, spec, s, by decide, fun machine rounds => (if_neg o).trans
        ((if_neg p).trans ((if_neg X).trans ((if_neg x).trans (if_pos u)))), Same.refl,
      fun w => (if_neg o).trans ((if_neg p).trans ((if_neg X).trans ((if_neg x).trans (if_pos u)))),
      unsigned (u ▸ by decide), rfl, other⟩
  have di : spec.specifier = chr 'd' ∨ spec.specifier = chr 'i' := by
    have all : ascii "opXxudi" =
        [chr 'o', chr 'p', chr 'X', chr 'x', chr 'u', chr 'd', chr 'i'] := rfl
    rw [all] at mem
    simpa [o, p, X, x, u] using mem
  refine ⟨10, signedInteger, spec, s, by decide, fun machine rounds => (if_neg o).trans
      ((if_neg p).trans ((if_neg X).trans ((if_neg x).trans ((if_neg u).trans (if_pos di))))),
    Same.refl, fun w => (if_neg o).trans
      ((if_neg p).trans ((if_neg X).trans ((if_neg x).trans ((if_neg u).trans (if_pos di))))),
    fun w => ?_, rfl, other⟩
  have mem' : spec.specifier ∈ ascii "oXxudin" := by
    rcases di with d | i
    · exact d ▸ by decide
    · exact i ▸ by decide
  rw [takes_integer mem']
  simp only [signedInteger_isSome]

/-- And all but doubles have one of the others. -/
theorem otherCase (Double : Type) (s : State) (none : spec.specifier ∉ ascii "opXxudi")
    (other : spec.specifier ∉ ascii "eEfFgG") : OtherCase Double spec s := by
  refine ⟨fun machine rounds => ?_, fun w => integerOf_none none, other⟩
  rw [convert_rest machine rounds s none]
  by_cases c : spec.specifier = chr 'c'
  · rw [if_pos c, c]
    exact ⟨_, rfl, rfl, rfl, rfl⟩
  by_cases str : spec.specifier = chr 's'
  · obtain ⟨format, list, taken⟩ :=
      displayString_rest (s.vaArg .integer).2 (machine.string (s.list 0))
    rw [if_neg c, if_pos str, str]
    exact ⟨_, rfl, format, taken, list⟩
  have text : spec.specifier ∉ ascii "cs" := by
    rw [show ascii "cs" = [chr 'c', chr 's'] from rfl, List.mem_pair]
    exact not_or.mpr ⟨c, str⟩
  rw [if_neg c, if_neg str, if_neg other, takes_rest none, if_neg text, if_neg other]
  split
  · rw [showCount]
    split
    · next known =>
      rw [if_pos (show Known spec.length from known)]
      exact ⟨_, rfl, rfl, rfl, rfl⟩
    · next unknown =>
      rw [if_neg (show ¬ Known spec.length from unknown)]
      exact ⟨_, rfl, rfl, Took.none rfl rfl⟩
  · exact ⟨_, rfl, rfl, Took.none rfl rfl⟩

/-- A double, whatever lies before `digit`. -/
theorem showDouble_stray_iff :
    (∀ stray, ∃ rounds s', showDouble (machine.withStray stray) rounds spec s = .ok s') ↔
      ∃ rounds floating expo,
        scaleLoop machine spec.emode rounds (machine.double (s.list 0)) 0 = .ok (floating, expo) ∧
          Fits (machine.toInt floating) 10 spec.plusSign spec.spaceNoSign
            (formOf spec spec.emode expo) spec.leftJustify ∧
          (spec.precSpec = 0 ∨ 0 ≤ spec.precSpec.toInt ∧ spec.precSpec.toInt < 256) := by
  constructor
  · intro all
    have each (stray : Int → BitVec 8) : ∃ rounds floating expo b,
        scaleLoop machine spec.emode rounds (machine.double (s.list 0)) 0 = .ok (floating, expo) ∧
        intStr stray (machine.toInt floating) (fun _ => 0) 10 spec.plusSign spec.spaceNoSign
          (formOf spec spec.emode expo) spec.leftJustify spec.zeroPad = .ok b ∧
        (spec.precSpec = 0 ∨ 0 ≤ spec.precSpec.toInt ∧ spec.precSpec.toInt < 256) := by
      obtain ⟨rounds, run⟩ := all stray
      obtain ⟨floating, expo, b, divided, rest⟩ := showDouble_ok_iff.mp run
      rw [scaleLoop_stray] at divided
      exact ⟨rounds, floating, expo, b, divided, rest⟩
    obtain ⟨rounds, floating, expo, -, divided, -, precision⟩ := each fun _ => 0
    refine ⟨rounds, floating, expo, divided, ?_, precision⟩
    refine (@intStr_ok_iff 10 spec.plusSign spec.spaceNoSign spec.leftJustify spec.zeroPad _ _
      (by decide)).mp fun stray => ?_
    obtain ⟨rounds', floating', expo', b, divided', written, -⟩ := each stray
    obtain ⟨rfl, rfl⟩ := Prod.mk.inj (scaleLoop_unique divided divided')
    exact ⟨b, written⟩
  · rintro ⟨rounds, floating, expo, divided, fits, precision⟩ stray
    obtain ⟨b, written⟩ := (@intStr_ok_iff 10 spec.plusSign spec.spaceNoSign spec.leftJustify
      spec.zeroPad _ _ (by decide)).mpr fits stray
    refine ⟨rounds, showDouble_ok_iff.mpr ⟨floating, expo, b, ?_, written, precision⟩⟩
    rw [scaleLoop_stray]
    exact divided

/-- The conversion ends without a write outside the buffers, whatever lies before `digit`, exactly
when its argument is held by the buffers: the condition is on the specification and the next
argument, and on nothing that was printed before. -/
theorem convert_ok_iff : (∀ stray, ∃ rounds s',
    convert (machine.withStray stray) rounds spec s = .ok s') ↔ Held machine spec (s.list 0) := by
  by_cases mem : spec.specifier ∈ ascii "opXxudi"
  · obtain ⟨base, integer, spec', s₁, case⟩ := integerCase Double s mem
    have runs := @showInteger_ok_iff _ machine spec' s₁ base integer case.known
    rw [case.same.list, case.flags] at runs
    have value (i : Word) : integer spec'.length (s.list 0) = some i ↔
        integerOf spec (s.list 0) = some (base, i) := by
      rw [case.value, Option.map_eq_some_iff]
      exact ⟨fun some' => ⟨i, some', rfl⟩, fun ⟨j, some', same⟩ => (Prod.mk.inj same).2 ▸ some'⟩
    constructor
    · intro all
      refine ⟨fun base' i some' => ?_, fun yes => absurd yes case.other⟩
      have same : base' = base := by
        rw [case.value, Option.map_eq_some_iff] at some'
        obtain ⟨j, -, same⟩ := some'
        exact (Prod.mk.inj same).1.symm
      subst same
      refine runs.mp (fun stray => ?_) i ((value i).mpr some')
      obtain ⟨rounds, s', run⟩ := all stray
      rw [case.runs, case.flags] at run
      exact ⟨s', run⟩
    · intro held stray
      obtain ⟨s', run⟩ := runs.mpr (fun i some' => held.integer base i ((value i).mp some')) stray
      rw [← case.flags] at run
      exact ⟨0, s', (case.runs _ 0).trans run⟩
  by_cases double : spec.specifier ∈ ascii "eEfFgG"
  · simp only [convert_double _ _ s double]
    rw [showDouble_stray_iff]
    refine ⟨fun yes => ⟨fun base i some' => ?_, fun _ => yes⟩, fun held => held.double double⟩
    rw [integerOf_none mem] at some'
    cases some'
  · have case := otherCase Double s mem double
    refine iff_of_true (fun stray => ?_) ⟨fun base i some' => ?_, fun yes => absurd yes double⟩
    · obtain ⟨s', run, -⟩ := case.runs (machine.withStray stray) 0
      exact ⟨0, s', run⟩
    · rw [case.value] at some'
      cases some'

/-! ### What is taken -/

/-- An integer takes one argument, where its length has a case. -/
theorem showInteger_spec (run : showInteger machine integer base spec s = .ok s') :
    s'.format = s.format ∧
      Took (if (integer spec.length (s.list 0)).isSome then [.integer] else []) s s' := by
  rw [showInteger] at run
  cases value : integer spec.length (s.list 0) with
  | none =>
    rw [value] at run
    obtain rfl := Except.ok.inj run
    exact ⟨rfl, Took.none rfl rfl⟩
  | some i =>
    rw [value] at run
    obtain ⟨b, -, run⟩ := ok_of_bind run
    obtain rfl := Except.ok.inj run
    obtain ⟨format, list, taken⟩ := displayString_rest (s.vaArg .integer).2 (machine.text b)
    exact ⟨format, taken, list⟩

/-- A fraction takes none. -/
theorem showFraction_spec {b' : Conv.Buffer}
    (run : showFraction machine floating b spec s = .ok (b', s')) : Same s s' := by
  rw [showFraction] at run
  dsimp only at run
  split at run
  · obtain ⟨b₁, -, run⟩ := ok_of_bind run
    obtain ⟨b₂, -, run⟩ := ok_of_bind run
    obtain ⟨-, rfl⟩ := Prod.mk.inj (Except.ok.inj run)
    obtain ⟨format, list, taken⟩ :=
      displayString_rest (s.displayCharacter (chr '.')) (machine.text b₂)
    exact ⟨format, list, taken⟩
  · obtain ⟨-, rfl⟩ := Prod.mk.inj (Except.ok.inj run)
    split <;> exact ⟨rfl, rfl, rfl⟩

/-- A double takes one. -/
theorem showDouble_spec (run : showDouble machine rounds spec s = .ok s') :
    s'.format = s.format ∧ Took [.double] s s' := by
  rw [showDouble] at run
  obtain ⟨⟨floating, expo⟩, -, run⟩ := ok_of_bind run
  obtain ⟨b₁, -, run⟩ := ok_of_bind run
  obtain ⟨⟨b₂, s₂⟩, fraction, run⟩ := ok_of_bind run
  have same₁ : Same (s.vaArg .double).2 s₂ :=
    (displayString_same (machine.text b₁)).trans (showFraction_spec fraction)
  dsimp only at run
  split at run
  · obtain ⟨b₃, -, run⟩ := ok_of_bind run
    obtain rfl := Except.ok.inj run
    have same₂ := same₁.trans ((displayString_same [spec.specifier, chr '+']).trans
      (displayString_same (machine.text b₃)))
    exact ⟨same₂.format, same₂.taken, same₂.list⟩
  · obtain rfl := Except.ok.inj run
    exact ⟨same₁.format, same₁.taken, same₁.list⟩

/-- A conversion takes the arguments of its class and leaves the rest of the format alone, whatever
it prints of them. -/
theorem convert_spec (run : convert machine rounds spec s = .ok s') :
    s'.format = s.format ∧ Took (takes spec.length spec.specifier) s s' := by
  by_cases mem : spec.specifier ∈ ascii "opXxudi"
  · obtain ⟨base, integer, spec', s₁, case⟩ := integerCase Double s mem
    rw [case.runs] at run
    obtain ⟨format, taken, list⟩ := showInteger_spec run
    rw [case.takes (s₁.list 0)]
    exact ⟨format.trans case.same.format, taken.trans (by rw [case.same.taken]),
      list.trans (by rw [case.same.list])⟩
  by_cases double : spec.specifier ∈ ascii "eEfFgG"
  · obtain ⟨-, text, -, -, n⟩ := double_other spec.specifier double
    rw [convert_double machine rounds s double] at run
    rw [takes_rest mem, if_neg n, if_neg text, if_pos double]
    exact showDouble_spec run
  · obtain ⟨s₁, run', spec₁⟩ := (otherCase Double s mem double).runs machine rounds
    obtain rfl := Except.ok.inj (run.symm.trans run')
    exact spec₁

end

end Skylight.Printf
