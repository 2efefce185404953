import Skylight.Laws.Extra.Format

/-!
# Runs of `vprintf`

Behind a `%` the loop takes whatever the scanner leaves for the specifier: the NUL too, and the
second `h` of a length. Where it does neither, and the padding stays in its buffers, it goes on
behind the conversion and takes the arguments that are its own.

`parses_iff` is about every format and every machine: each specification is read to its end and
takes its own arguments, and the call comes to the NUL, if and only if every round is `Careful`.
That is asked of all states that the rounds reach. What is printed is in `Laws.Extra.Integers`
and `Laws.Extra.Pieces`.
-/

namespace Skylight.Printf

open Shell (ascii)
open Strings (peek peek_cons advance)

/-- The argument of a conversion. -/
def ownOf (length : Length) (c : BitVec 8) : List Class :=
  if c = chr '%' then []
  else if c ∈ ascii "eEfFgGaA" then [if length = .L then .longDouble else .double]
  else [.integer]

/-- The arguments of a specification. -/
def Directive.own (d : Directive) : List Class :=
  d.width.own ++ precisionOwn d.precision ++ ownOf d.length d.conversion.1

/-- A round as it should be: a character is printed and passed, or a specification is passed and its
arguments are taken. -/
structure Follows (s s' : State) : Prop where
  literal : peek s.format ≠ chr '%' →
    s'.format = s.format.tail ∧ s'.out = s.out ++ [peek s.format] ∧ Took [] s s'
  directive : ∀ (d : Directive) rest, s.format = chr '%' :: (d.text ++ rest) →
    s'.format = rest ∧ Took d.own s s'

section
variable {Double : Type} (machine : Machine Double)

/-- The next round ends in one, whatever lies before `digit`. -/
def Resumes (s : State) : Prop := ∀ stray, ∃ rounds s',
  round (machine.withStray stray) rounds s = .ok s' ∧ Follows s s'

/-- What the next round meets: a specifier before the NUL, widths that the buffers hold, and none of
the lengths and conversions that are not read as they are written. -/
structure Careful (s : State) : Prop where
  ends : peek s.format = chr '%' → (scan s.skip).2.format ≠ []
  held : peek s.format = chr '%' → Held machine (scan s.skip).1 ((scan s.skip).2.list 0)
  read : ∀ (d : Directive) rest, s.format = chr '%' :: (d.text ++ rest) →
    d.length ≠ .hh ∧ d.conversion.1 ∉ ascii "aA" ∧
      (d.length = .L → d.conversion.1 ∈ ascii "csp%")

/-- The states before the rounds of a call. -/
inductive Reaches (format : List (BitVec 8)) (list : Nat → Word) : State → Prop
  | start : Reaches format list ⟨format, list, 0, [], [], []⟩
  | step {s s' : State} {stray : Int → BitVec 8} {rounds : Nat} : Reaches format list s →
      s.format ≠ [] → round (machine.withStray stray) rounds s = .ok s' → Reaches format list s'

/-- A call that comes to the NUL, and every round of it as it should be. -/
structure Parses (format : List (BitVec 8)) (list : Nat → Word) : Prop where
  ends : ∀ stray, ∃ rounds s,
    vprintf (machine.withStray stray) rounds format list = .ok s ∧ s.format = []
  resumes : ∀ s, Reaches machine format list s → s.format ≠ [] → Resumes machine s

end

section
variable {Double : Type} {machine : Machine Double} {spec : Spec} {s s' : State}
  {rounds rounds' n : Nat} {stray : Int → BitVec 8} {format : List (BitVec 8)} {list : Nat → Word}

/-! ### A round -/

/-- A round at a `%`. -/
theorem round_percent (percent : peek s.format = chr '%') : round machine rounds s = .ok s' ↔
    ∃ s₁ place, convert machine rounds (scan s.skip).1 (scan s.skip).2 = .ok s₁ ∧
      advance s₁.format = some place ∧ s' = { s₁ with format := place } := by
  rw [round, if_pos percent]
  dsimp only
  constructor
  · intro run
    obtain ⟨s₁, converted, run⟩ := ok_of_bind run
    cases next : advance s₁.format with
    | none =>
      rw [next] at run
      cases run
    | some place =>
      rw [next] at run
      exact ⟨s₁, place, converted, next, (Except.ok.inj run).symm⟩
  · rintro ⟨s₁, place, converted, next, rfl⟩
    rw [converted, ok_bind, next]
    rfl

/-- And at another character. -/
theorem round_literal (literal : peek s.format ≠ chr '%') :
    round machine rounds s = .ok (s.displayCharacter (peek s.format)).skip := by
  rw [round, if_neg literal]

/-- The round goes on behind the specifier, if there is one. -/
theorem advance_eq_some {t place : List (BitVec 8)} :
    advance t = some place ↔ ∃ c, t = c :: place := by
  cases t with
  | nil => exact iff_of_false (fun no => by cases no) fun ⟨c, no⟩ => by cases no
  | cons c t =>
    rw [advance, Option.some_inj]
    exact ⟨fun same => ⟨c, same ▸ rfl⟩, fun ⟨_, same⟩ => (List.cons.inj same).2⟩

/-- The classes that a conversion takes are its own but for these. -/
theorem takes_iff (length : Length) : ∀ c ∈ conversions,
    (takes length.byte c = ownOf length c ↔
      c ∉ ascii "aA" ∧ (length = .L → c ∈ ascii "csp%")) := by
  cases length <;> decide

/-- The specification in front, read and converted. -/
theorem round_directive {d : Directive} {rest : List (BitVec 8)}
    (text : s.format = chr '%' :: (d.text ++ rest)) (run : round machine rounds s = .ok s') :
    (s'.format = rest ∧ Took d.own s s') ↔ d.length ≠ .hh ∧ d.conversion.1 ∉ ascii "aA" ∧
      (d.length = .L → d.conversion.1 ∈ ascii "csp%") := by
  have percent : peek s.format = chr '%' := by rw [text, peek_cons]
  obtain ⟨s₁, place, converted, next, rfl⟩ := (round_percent percent).mp run
  have text' : s.skip.format = d.text ++ rest := by
    rw [State.skip, text]
    rfl
  obtain ⟨spec, s₂, scanned, leaves, took, length, specifier⟩ := scan_directive d text'
  rw [scanned] at converted
  obtain ⟨format, took'⟩ := convert_spec converted
  obtain ⟨c, split⟩ := advance_eq_some.mp next
  rw [format, leaves, Length.leaves] at split
  rw [length, specifier] at took'
  by_cases hh : d.length = .hh
  · rw [if_pos hh] at split
    obtain ⟨-, rfl⟩ := List.cons.inj split
    refine iff_of_false (fun both => ?_) fun both => both.1 hh
    exact List.cons_ne_self _ _ both.1
  · rw [if_neg hh] at split took'
    obtain ⟨-, rfl⟩ := List.cons.inj split
    rw [← takes_iff d.length d.conversion.1 d.conversion.2]
    have all := took.trans took'
    constructor
    · rintro ⟨-, own⟩
      refine ⟨hh, ?_⟩
      have same := all.taken.symm.trans own.taken
      rw [Directive.own] at same
      exact List.append_cancel_left (List.append_cancel_left same)
    · rintro ⟨-, same⟩
      rw [Directive.own, ← same]
      exact ⟨rfl, all.taken, all.list⟩

/-- One round goes on as it should if and only if it meets nothing else. -/
theorem resumes_iff (some' : s.format ≠ []) (full : ∀ c ∈ s.format, c ≠ 0) :
    Resumes machine s ↔ Careful machine s := by
  by_cases percent : peek s.format = chr '%'
  · constructor
    · intro resumes
      refine ⟨fun _ => ?_, fun _ => convert_ok_iff.mp fun stray => ?_, fun d rest text => ?_⟩
      · obtain ⟨rounds, s', run, -⟩ := resumes fun _ => 0
        obtain ⟨s₁, place, converted, next, -⟩ := (round_percent percent).mp run
        obtain ⟨c, split⟩ := advance_eq_some.mp next
        rw [← (convert_spec converted).1, split]
        exact List.cons_ne_nil c place
      · obtain ⟨rounds, s', run, -⟩ := resumes stray
        obtain ⟨s₁, place, converted, -⟩ := (round_percent percent).mp run
        exact ⟨rounds, s₁, converted⟩
      · obtain ⟨rounds, s', run, follows⟩ := resumes fun _ => 0
        exact (round_directive text run).mp (follows.directive d rest text)
    · intro careful stray
      obtain ⟨rounds, s₁, converted⟩ := convert_ok_iff.mpr (careful.held percent) stray
      obtain ⟨c, place, split⟩ := List.exists_cons_of_ne_nil (careful.ends percent)
      have run : round (machine.withStray stray) rounds s = .ok { s₁ with format := place } := by
        refine (round_percent percent).mpr ⟨s₁, place, converted, ?_, rfl⟩
        rw [(convert_spec converted).1, split]
        rfl
      refine ⟨rounds, _, run, fun literal => absurd percent literal, fun d rest text => ?_⟩
      exact (round_directive text run).mpr (careful.read d rest text)
  · have other (d : Directive) (rest : List (BitVec 8)) :
        s.format ≠ chr '%' :: (d.text ++ rest) := by
      intro text
      rw [text, peek_cons] at percent
      exact percent rfl
    refine iff_of_true (fun stray => ?_) ⟨fun yes => absurd yes percent,
      fun yes => absurd yes percent, fun d rest text => absurd text (other d rest)⟩
    refine ⟨0, _, round_literal percent, fun _ => ⟨rfl, ?_, Took.none rfl rfl⟩,
      fun d rest text => absurd text (other d rest)⟩
    obtain ⟨c, t, split⟩ := List.exists_cons_of_ne_nil some'
    rw [split] at full
    rw [split, peek_cons]
    exact if_neg (full c (List.mem_cons_self ..))

/-- It comes nearer to the NUL. -/
theorem round_suffix (some' : s.format ≠ []) (run : round machine rounds s = .ok s') :
    ∃ c t, s.format = c :: t ∧ s'.format <:+ t := by
  obtain ⟨c, t, split⟩ := List.exists_cons_of_ne_nil some'
  refine ⟨c, t, split, ?_⟩
  have skip : s.skip.format = t := by
    rw [State.skip, split]
    rfl
  by_cases percent : peek s.format = chr '%'
  · obtain ⟨s₁, place, converted, next, rfl⟩ := (round_percent percent).mp run
    obtain ⟨c', split'⟩ := advance_eq_some.mp next
    rw [(convert_spec converted).1] at split'
    have suffix := @scan_suffix s.skip
    rw [split', skip] at suffix
    exact (List.suffix_cons c' place).trans suffix
  · rw [round_literal percent] at run
    obtain rfl := Except.ok.inj run
    exact skip ▸ List.suffix_rfl

/-! ### More rounds for the divisions -/

/-- More rounds change nothing for a scaling that ended. -/
theorem scaleLoop_mono {emode : Bool} {floating : Double} {expo : BitVec 32}
    {r : Double × BitVec 32} (le : rounds ≤ rounds')
    (run : scaleLoop machine emode rounds floating expo = .ok r) :
    scaleLoop machine emode rounds' floating expo = .ok r := by
  induction rounds generalizing rounds' floating expo with
  | zero => cases run
  | succ rounds ih =>
    obtain ⟨more, rfl⟩ := Nat.exists_eq_add_of_le' le
    rw [← Nat.add_assoc, scaleLoop]
    rw [scaleLoop] at run
    split at run
    · next again =>
      rw [if_pos again]
      exact ih (Nat.le_add_left rounds more) run
    · next done =>
      rw [if_neg done]
      exact run

/-- Nor for a double. -/
theorem showDouble_mono (le : rounds ≤ rounds')
    (run : showDouble machine rounds spec s = .ok s') :
    showDouble machine rounds' spec s = .ok s' := by
  rw [showDouble] at run ⊢
  obtain ⟨r, divided, run⟩ := ok_of_bind run
  dsimp only [State.vaArg] at divided ⊢
  rw [scaleLoop_mono le divided]
  exact run

/-- Nor for a conversion. -/
theorem convert_mono (le : rounds ≤ rounds') (run : convert machine rounds spec s = .ok s') :
    convert machine rounds' spec s = .ok s' := by
  by_cases double : spec.specifier ∈ ascii "eEfFgG"
  · rw [convert_double machine _ s double] at run ⊢
    exact showDouble_mono le run
  · rw [convert] at run ⊢
    dsimp only at run ⊢
    rw [if_neg double] at run ⊢
    exact run

/-- Nor for a round of the loop. -/
theorem round_mono (le : rounds ≤ rounds') (run : round machine rounds s = .ok s') :
    round machine rounds' s = .ok s' := by
  by_cases percent : peek s.format = chr '%'
  · obtain ⟨s₁, place, converted, rest⟩ := (round_percent percent).mp run
    exact (round_percent percent).mpr ⟨s₁, place, convert_mono le converted, rest⟩
  · rw [round_literal percent] at run ⊢
    exact run

/-- Nor for the loop. -/
theorem formatLoop_mono (le : rounds ≤ rounds')
    (run : formatLoop machine rounds n s = .ok s') : formatLoop machine rounds' n s = .ok s' := by
  induction n generalizing s with
  | zero => exact run
  | succ n ih =>
    rw [formatLoop] at run ⊢
    split at run
    · next nul =>
      rw [if_pos nul]
      exact run
    · next more =>
      obtain ⟨s₁, one, run⟩ := ok_of_bind run
      rw [if_neg more, round_mono le one, ok_bind]
      exact ih run

/-! ### All of the format -/

/-- What is left of the format is an end of it. -/
theorem Reaches.suffix (reaches : Reaches machine format list s) : s.format <:+ format := by
  induction reaches with
  | start => exact List.suffix_rfl
  | step _ some' run ih =>
    obtain ⟨c, t, split, suffix⟩ := round_suffix some' run
    exact suffix.trans ((split ▸ List.suffix_cons c t).trans ih)

/-- And has no NUL. -/
theorem Reaches.full (full : ∀ c ∈ format, c ≠ 0) (reaches : Reaches machine format list s) :
    ∀ c ∈ s.format, c ≠ 0 := fun c mem => full c (reaches.suffix.subset mem)

/-- If every round that may come resumes, the loop ends at the NUL. -/
theorem formatLoop_ends (full : ∀ c ∈ format, c ≠ 0)
    (resumes : ∀ s, Reaches machine format list s → s.format ≠ [] → Resumes machine s)
    (reaches : Reaches machine format list s) (enough : s.format.length ≤ n) :
    ∃ rounds s', formatLoop (machine.withStray stray) rounds n s = .ok s' ∧ s'.format = [] := by
  induction n generalizing s with
  | zero => exact ⟨0, s, rfl, List.length_eq_zero_iff.mp (Nat.le_zero.mp enough)⟩
  | succ n ih =>
    by_cases nul : s.format = []
    · refine ⟨0, s, ?_, nul⟩
      rw [formatLoop, nul]
      rfl
    · obtain ⟨rounds, s₁, one, -⟩ := resumes s reaches nul stray
      obtain ⟨c, t, split, suffix⟩ := round_suffix nul one
      have shorter : s₁.format.length ≤ n := by
        have le := suffix.length_le
        rw [split, List.length_cons] at enough
        omega
      obtain ⟨rounds', s', run, ends⟩ := ih (reaches.step nul one) shorter
      have more : peek s.format ≠ 0 := by
        rw [split, peek_cons]
        exact reaches.full full c (split ▸ List.mem_cons_self ..)
      refine ⟨max rounds rounds', s', ?_, ends⟩
      rw [formatLoop, if_neg more, round_mono (Nat.le_max_left ..) one, ok_bind]
      exact formatLoop_mono (Nat.le_max_right ..) run

/-- A format is read to its NUL, each specification to its end and with its own arguments, if and
only if every round is careful. -/
theorem parses_iff (full : ∀ c ∈ format, c ≠ 0) : Parses machine format list ↔
    ∀ s, Reaches machine format list s → s.format ≠ [] → Careful machine s := by
  constructor
  · intro parses s reaches some'
    exact (resumes_iff some' (reaches.full full)).mp (parses.resumes s reaches some')
  · intro careful
    have resumes : ∀ s, Reaches machine format list s → s.format ≠ [] → Resumes machine s :=
      fun s reaches some' =>
        (resumes_iff some' (reaches.full full)).mpr (careful s reaches some')
    exact ⟨fun stray => formatLoop_ends full resumes .start (Nat.le_refl _), resumes⟩

/-- The only specification that stands there. -/
theorem Careful.of_text {d : Directive} {rest : List (BitVec 8)}
    (text : s.format = chr '%' :: (d.text ++ rest)) (ends : (scan s.skip).2.format ≠ [])
    (held : Held machine (scan s.skip).1 ((scan s.skip).2.list 0))
    (read : d.length ≠ .hh ∧ d.conversion.1 ∉ ascii "aA" ∧
      (d.length = .L → d.conversion.1 ∈ ascii "csp%")) : Careful machine s := by
  refine ⟨fun _ => ends, fun _ => held, fun d' rest' text' => ?_⟩
  have same := (List.cons.inj (text.symm.trans text')).2
  obtain ⟨length, conversion, -⟩ := directive_unique same
  rw [← length, ← conversion]
  exact read

end

/-! ### Formats -/

/-- Numbers without places behind the point. -/
def naturals : Machine Nat where
  stray := fun _ => 0
  behind := []
  string := fun _ => []
  double := BitVec.toNat
  atLeastTen := fun n => decide (10 ≤ n)
  divTen := fun n => n / 10
  mulTen := fun n => n * 10
  fraction := fun _ => 0
  toInt := BitVec.ofNat 64
  round := BitVec.ofNat 64

/-- `%5d` -/
def five : Directive where
  flags := ⟨[], by decide⟩
  width := .digits ⟨ascii "5", by decide⟩
  precision := none
  length := .none
  conversion := ⟨chr 'd', by decide⟩

/-- A width that a buffer holds. -/
theorem five_careful : Careful naturals ⟨ascii "%5d|", fun _ => 7, 0, [], [], []⟩ := by
  have text : ascii "%5d|" = chr '%' :: (five.text ++ ascii "|") := rfl
  refine Careful.of_text text (by decide) ⟨fun base i value => ?_, fun double => ?_⟩ (by decide)
  · have same : some (10, 7) = some (base, i) := value
    obtain ⟨rfl, rfl⟩ := Prod.mk.inj (Option.some.inj same)
    show Fits 7 10 false false 5 false
    rw [Fits]
    decide
  · exact absurd (show chr 'd' ∈ ascii "eEfFgG" from double) (by decide)

/-- A width of five. -/
theorem parses_iff_five : Parses naturals (ascii "%5d|") fun _ => 7 := by
  refine (parses_iff (by decide)).mpr fun s reaches some' => ?_
  -- the places: at the `%`, behind the `d`, and at the NUL
  have places : s = ⟨ascii "%5d|", fun _ => 7, 0, [], [], []⟩ ∨ s.format <:+ ascii "|" := by
    clear some'
    induction reaches with
    | start => exact Or.inl rfl
    | @step s s' stray rounds _ some' run ih =>
      right
      rcases ih with rfl | behind
      · have text : ascii "%5d|" = chr '%' :: (five.text ++ ascii "|") := rfl
        have place := ((round_directive text run).mpr (five_careful.read five _ text)).1
        exact place ▸ List.suffix_rfl
      · obtain ⟨c, t, split, suffix⟩ := round_suffix some' run
        exact suffix.trans ((split ▸ List.suffix_cons c t).trans behind)
  rcases places with rfl | behind
  · exact five_careful
  · have other : peek s.format ≠ chr '%' := by
      obtain ⟨c, t, split⟩ := List.exists_cons_of_ne_nil some'
      have mem : c ∈ ascii "|" := behind.subset (split ▸ List.mem_cons_self ..)
      rw [split, peek_cons]
      exact fun percent => absurd (percent ▸ mem) (by decide)
    refine ⟨fun yes => absurd yes other, fun yes => absurd yes other, fun d rest text => ?_⟩
    rw [text, peek_cons] at other
    exact absurd rfl other

/-- A format that ends behind a `%`, a width that no buffer holds, and a second `h`. -/
theorem not_parses : ¬ Parses naturals (ascii "%") (fun _ => 7) ∧
    ¬ Parses naturals (ascii "%300d") (fun _ => 7) ∧
    ¬ Parses naturals (ascii "%hhd") fun _ => 7 := by
  have start {format : List (BitVec 8)} (some' : format ≠ []) (full : ∀ c ∈ format, c ≠ 0)
      (parses : Parses naturals format fun _ => 7) :
      Careful naturals ⟨format, fun _ => 7, 0, [], [], []⟩ :=
    (resumes_iff some' full).mp (parses.resumes _ .start some')
  refine ⟨fun parses => ?_, fun parses => ?_, fun parses => ?_⟩
  · exact (start (by decide) (by decide) parses).ends rfl rfl
  · have fits := ((start (by decide) (by decide) parses).held rfl).integer 10 7 rfl
    have high : (300 : Int) ≤ 255 := fits.2
    exact absurd high (by decide)
  · have text : ascii "%hhd" = chr '%' :: ((⟨⟨[], by decide⟩, .digits ⟨[], by decide⟩, none, .hh,
        ⟨chr 'd', by decide⟩⟩ : Directive).text ++ []) := rfl
    exact ((start (by decide) (by decide) parses).read _ _ text).1 rfl

end Skylight.Printf
