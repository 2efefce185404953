import Mathlib.Data.List.GetD
import Mathlib.Data.List.TakeWhile
import Skylight.Extra.Printf
import Skylight.Laws.Extra.Conv

/-!
# The formatter of integers

`__int_str` writes a sign and digits, and pads them in the buffer itself on the right and in a
second one on the left. The digits of the least `intmax_t` are read from before `digit`, since it is
its own negation.
-/

namespace Skylight.Printf

open Conv (Buffer cString)

/-- A text from `i` on. -/
def putAt (i : Nat) (t : List (BitVec 8)) (b : Buffer) : Buffer := fun j =>
  if i ≤ j then t.getD (j - i) (b j) else b j

/-- A text in a buffer that was cleared. -/
def written (t : List (BitVec 8)) : Buffer := fun j => t.getD j 0

/-- What `i % base` is in the rounds of the loop, the last digit first. -/
def remainders (base : Nat) : Nat → Int → List Int
  | 0, _ => []
  | rounds + 1, i =>
    i.tmod base :: if i.tdiv base = 0 then [] else remainders base rounds (i.tdiv base)

/-- The sign and the digits. -/
def numberText (stray : Int → BitVec 8) (i : Word) (base : Nat) (plus space : Bool) :
    List (BitVec 8) :=
  (signOf (i.toInt < 0) plus space).toList ++
    ((remainders (if base = 17 then 16 else base) 64
      (if i.toInt < 0 then -i else i).toInt).reverse.map (digitAt stray (digit base)))

/-- The character of the padding. -/
def padOf (zeroPad : Bool) : BitVec 8 := if zeroPad then chr '0' else chr ' '

/-- How many of them. -/
def paddingOf (w : BitVec 32) (t : List (BitVec 8)) : Nat :=
  (w - BitVec.ofNat 32 (t.takeWhile (· ≠ 0)).length).toInt.toNat

section
variable {b dest : Buffer} {t u v : List (BitVec 8)} {c pad : BitVec 8}
  {i j k n p base rounds : Nat} {m : Int} {digitOf : Int → BitVec 8} {stray : Int → BitVec 8}
    {plus space justify zeroPad : Bool}
  {w : BitVec 32} {x : Word}

/-! ### Bytes -/

/-- No text. -/
theorem putAt_nil : putAt i [] b = b := by
  ext1 j
  rw [putAt, List.getD_nil, ite_self]

/-- The first character, and the others. -/
theorem putAt_cons : putAt (i + 1) t (Function.update b i c) = putAt i (c :: t) b := by
  ext1 j
  simp only [putAt, Function.update_apply]
  grind

/-- A character behind a text. -/
theorem putAt_concat : putAt i t (Function.update b (i + t.length) c) = putAt i (t ++ [c]) b := by
  ext1 j
  simp only [putAt, Function.update_apply]
  grind

/-- A character behind two texts. -/
theorem putAt_between : putAt u.length v (Function.update (putAt 0 u b) (u.length + v.length) c) =
    putAt 0 (u ++ v ++ [c]) b := by
  ext1 j
  simp only [putAt, Function.update_apply]
  grind

/-- A text behind a text that was written. -/
theorem putAt_written : putAt t.length (u ++ [0]) (written t) = written (t ++ u) := by
  ext1 j
  simp only [putAt, written]
  grind

/-- One character more. -/
theorem written_concat : Function.update (written t) t.length c = written (t ++ [c]) := by
  ext1 j
  simp only [written, Function.update_apply]
  grind

/-- A string and its NUL are copied if they fit. -/
theorem copyString_eq : copyString u b i =
    if i + u.length < bufferSize then .ok (putAt i (u ++ [0]) b) else .error .write := by
  induction u generalizing b i with
  | nil =>
    rw [copyString, store, List.nil_append, ← putAt_cons, putAt_nil]
    rfl
  | cons c u ih =>
    rw [copyString, store, List.length_cons, List.cons_append, ← putAt_cons]
    split
    · show copyString u _ (i + 1) = _
      rw [ih, Nat.add_right_comm, Nat.add_assoc]
    · rw [if_neg (by omega)]
      rfl

/-- A text that ends at a NUL or with the array. -/
theorem cString_of_text (same : ∀ j < t.length, b j = t.getD j 0)
    (ends : t.length = n ∨ t.length < n ∧ b t.length = 0) :
    cString b n = t.takeWhile (· ≠ 0) := by
  have first : (List.range t.length).map b = t := by
    apply List.ext_getElem
    · rw [List.length_map, List.length_range]
    · intro j _ h
      rw [List.getElem_map, List.getElem_range, same j h, List.getD_eq_getElem _ _ h]
  rw [cString]
  rcases ends with rfl | ⟨less, nul⟩
  · rw [first]
  · obtain ⟨m, rfl⟩ := Nat.exists_eq_add_of_le (Nat.succ_le_of_lt less)
    rw [Nat.succ_add_eq_add_succ, List.range_add, List.map_append, first, List.range_succ_eq_map,
      List.map_cons, List.map_cons, Nat.add_zero, nul, List.takeWhile_append]
    split
    · next whole =>
      rw [List.takeWhile_cons_of_neg (by simp), List.append_nil]
      exact ((List.takeWhile_prefix _).eq_of_length whole).symm
    · rfl

/-- A text without a NUL is read to its end. -/
theorem takeWhile_full (full : ∀ c ∈ t, c ≠ 0) : t.takeWhile (· ≠ 0) = t :=
  List.takeWhile_eq_self_iff.mpr fun c mem => decide_eq_true (full c mem)

/-- A written text is read back. -/
theorem cString_written (le : t.length ≤ bufferSize) :
    cString (written t) bufferSize = t.takeWhile (· ≠ 0) := by
  refine cString_of_text (fun _ _ => rfl) ?_
  rcases Nat.eq_or_lt_of_le le with eq | lt
  · exact Or.inl eq
  · exact Or.inr ⟨lt, by rw [written, List.getD_eq_default _ _ (Nat.le_refl _)]⟩

/-- And one with a NUL behind it. -/
theorem cString_putAt (less : t.length < bufferSize) :
    cString (putAt 0 (t ++ [0]) b) bufferSize = t.takeWhile (· ≠ 0) := by
  refine cString_of_text (fun j lt => ?_) (Or.inr ⟨less, ?_⟩)
  · simp only [putAt]
    grind
  · simp only [putAt]
    grind

/-! ### Padding -/

/-- The padding of a text in the buffer itself. -/
theorem padLoop_written (full : ∀ c ∈ t, c ≠ 0) (nonzero : pad ≠ 0) (le : t.length ≤ bufferSize) :
    padLoop pad n (written t) = if t.length + n ≤ bufferSize
      then .ok (written (t ++ List.replicate n pad)) else .error .write := by
  induction n generalizing t with
  | zero =>
    rw [padLoop, Nat.add_zero, if_pos le, List.replicate_zero, List.append_nil]
  | succ n ih =>
    rw [padLoop, strlen, cString_written le, takeWhile_full full, store]
    split
    · next less =>
      have full' : ∀ c ∈ t ++ [pad], c ≠ 0 := by
        rw [List.forall_mem_append, List.forall_mem_singleton]
        exact ⟨full, nonzero⟩
      have le' : (t ++ [pad]).length ≤ bufferSize := by
        rw [List.length_append]
        exact less
      show padLoop pad n _ = _
      rw [written_concat, ih full' le', List.append_assoc, List.length_append,
        List.length_singleton, Nat.add_assoc, Nat.add_comm 1 n]
      rfl
    · rw [if_neg (by omega)]
      rfl

/-- A cleared buffer. -/
theorem written_nil : written [] = fun _ => 0 := by
  ext1 j
  rw [written, List.getD_nil]

/-- The padding of the second buffer. -/
theorem padLoop_clear (nonzero : pad ≠ 0) : padLoop pad n (fun _ => 0) =
    if n ≤ bufferSize then .ok (written (List.replicate n pad)) else .error .write := by
  rw [← written_nil, padLoop_written (List.forall_mem_nil _) nonzero (Nat.zero_le _),
    List.length_nil, Nat.zero_add, List.nil_append]

/-! ### The digits -/

/-- There is a digit for each round at most. -/
theorem length_remainders : (remainders base rounds m).length ≤ rounds := by
  induction rounds generalizing m with
  | zero => exact Nat.le_refl 0
  | succ rounds ih =>
    rw [remainders, List.length_cons]
    split
    · exact Nat.succ_le_succ (Nat.zero_le rounds)
    · exact Nat.succ_le_succ ih

/-- The first loop counts the digits. -/
theorem shiftLoop_eq : shiftLoop base rounds m p = p + (remainders base rounds m).length := by
  induction rounds generalizing m p with
  | zero => rfl
  | succ rounds ih =>
    rw [shiftLoop, remainders, List.length_cons]
    split
    · rfl
    · rw [ih, Nat.add_right_comm, Nat.add_assoc]

/-- The digits end before `p`. -/
theorem digitLoop_eq (room : (remainders base rounds m).length ≤ p) (le : p ≤ bufferSize) :
    digitLoop digitOf base rounds m p b =
      .ok (putAt (p - (remainders base rounds m).length)
        ((remainders base rounds m).reverse.map digitOf) b) := by
  induction rounds generalizing m p b with
  | zero => rw [digitLoop, remainders, List.reverse_nil, List.map_nil, putAt_nil]
  | succ rounds ih =>
    rw [remainders, List.length_cons] at room
    rw [digitLoop, remainders, List.length_cons, List.reverse_cons, List.map_append,
      List.map_singleton, ← putAt_concat, List.length_map, List.length_reverse, store,
        if_pos (by omega)]
    show (if _ then Except.ok _ else _) = _
    split
    · next last =>
      rw [List.length_nil, List.reverse_nil, List.map_nil, putAt_nil]
      rfl
    · next more =>
      rw [if_neg more] at room
      rw [ih (by omega) (by omega), show p - 1 - (remainders base rounds (m.tdiv base)).length =
        p - ((remainders base rounds (m.tdiv base)).length + 1) by omega,
        show p - ((remainders base rounds (m.tdiv base)).length + 1) +
          (remainders base rounds (m.tdiv base)).length = p - 1 by omega]

/-- A sign goes to the first place. -/
theorem putSign_eq (sign : Option (BitVec 8)) :
    putSign b sign = .ok (putAt 0 sign.toList b, sign.toList.length) := by
  cases sign with
  | none => rw [putSign, Option.toList_none, putAt_nil]; rfl
  | some c => rw [putSign, Option.toList_some, ← putAt_cons, putAt_nil]; rfl

/-- A sign and 64 digits. -/
theorem length_numberText : (numberText stray x base plus space).length ≤ 65 := by
  have few : (signOf (x.toInt < 0) plus space).toList.length ≤ 1 := Option.length_toList_le
  have digits := @length_remainders (if base = 17 then 16 else base) 64
    (if x.toInt < 0 then -x else x).toInt
  rw [numberText, List.length_append, List.length_map, List.length_reverse]
  omega

/-- The text and a NUL behind it, padded. -/
theorem intStr_eq : intStr stray x b base plus space w justify zeroPad =
    if justify then padLoop (padOf zeroPad) (paddingOf w (numberText stray x base plus space))
      (putAt 0 (numberText stray x base plus space ++ [0]) b)
    else (padLoop (padOf zeroPad) (paddingOf w (numberText stray x base plus space)) fun _ => 0) >>=
      fun a => strcat a (putAt 0 (numberText stray x base plus space ++ [0]) b) >>=
        strcpy (putAt 0 (numberText stray x base plus space ++ [0]) b) := by
  have short := @length_numberText base stray plus space x
  have split : (numberText stray x base plus space).length =
      (signOf (x.toInt < 0) plus space).toList.length +
        (remainders (if base = 17 then 16 else base) 64
          (if x.toInt < 0 then -x else x).toInt).length := by
    rw [numberText, List.length_append, List.length_map, List.length_reverse]
  have room : (numberText stray x base plus space).length < bufferSize :=
    Nat.lt_of_le_of_lt short (by decide)
  have bytes : digitLoop (digitAt stray (digit base)) (if base = 17 then 16 else base) 64
      (if x.toInt < 0 then -x else x).toInt (numberText stray x base plus space).length
      (Function.update (putAt 0 (signOf (x.toInt < 0) plus space).toList b)
        (numberText stray x base plus space).length 0) =
      .ok (putAt 0 (numberText stray x base plus space ++ [0]) b) := by
    rw [digitLoop_eq (by omega) (by omega), split, Nat.add_sub_cancel, numberText, ← putAt_between,
      List.length_map, List.length_reverse]
  rw [intStr, putSign_eq]
  simp only [decide_eq_true_eq]
  show (store _ (shiftLoop _ _ _ _) 0 >>= _) = _
  rw [shiftLoop_eq, ← split, store, if_pos room]
  show (digitLoop _ _ _ _ _ _ >>= _) = _
  rw [bytes]
  show (if _ then padLoop _ (w - BitVec.ofNat 32 (strlen _)).toInt.toNat _ else _) = _
  rw [strlen, cString_putAt room]
  rfl

/-! ### What is written -/

/-- The padding is no NUL. -/
theorem padOf_ne_zero : padOf zeroPad ≠ 0 := by
  cases zeroPad <;> decide

/-- What is read has no NUL. -/
theorem takeWhile_all : ∀ c ∈ t.takeWhile (· ≠ 0), c ≠ 0 := by
  intro c mem
  simpa using List.mem_takeWhile_imp mem

/-- Padding on the left. -/
theorem intStr_right : intStr stray x b base plus space w false zeroPad =
    if paddingOf w (numberText stray x base plus space) +
        ((numberText stray x base plus space).takeWhile (· ≠ 0)).length < bufferSize then
      .ok (putAt 0 (List.replicate (paddingOf w (numberText stray x base plus space))
        (padOf zeroPad) ++ (numberText stray x base plus space).takeWhile (· ≠ 0) ++ [0])
          (putAt 0 (numberText stray x base plus space ++ [0]) b))
    else .error .write := by
  have room : (numberText stray x base plus space).length < bufferSize :=
    Nat.lt_of_le_of_lt length_numberText (by decide)
  rw [intStr_eq, if_neg Bool.false_ne_true, padLoop_clear padOf_ne_zero]
  generalize paddingOf w (numberText stray x base plus space) = n
  generalize numberText stray x base plus space = t at room ⊢
  have full : ∀ c ∈ List.replicate n (padOf zeroPad), c ≠ 0 := fun c mem =>
    List.eq_of_mem_replicate mem ▸ padOf_ne_zero
  by_cases le : n ≤ bufferSize
  · have length : (List.replicate n (padOf zeroPad)).length ≤ bufferSize := by
      rw [List.length_replicate]
      exact le
    have all : ∀ c ∈ List.replicate n (padOf zeroPad) ++ t.takeWhile (· ≠ 0), c ≠ 0 :=
      List.forall_mem_append.mpr ⟨full, takeWhile_all⟩
    rw [if_pos le]
    show (strcat _ _ >>= _) = _
    rw [strcat, strlen, cString_written length, takeWhile_full full, cString_putAt room,
      copyString_eq, putAt_written, List.length_replicate]
    split
    · next fits =>
      have fits' :
          (List.replicate n (padOf zeroPad) ++ t.takeWhile (· ≠ 0)).length < bufferSize := by
        rw [List.length_append, List.length_replicate]
        exact fits
      show strcpy _ _ = _
      rw [strcpy, cString_written (Nat.le_of_lt fits'), takeWhile_full all, copyString_eq,
        Nat.zero_add, if_pos fits']
    · rfl
  · rw [if_neg le, if_neg (by omega)]
    rfl

/-- Padding on the right, in a cleared buffer. -/
theorem intStr_left (full : ∀ c ∈ numberText stray x base plus space, c ≠ 0) :
    intStr stray x (fun _ => 0) base plus space w true zeroPad =
      if (numberText stray x base plus space).length +
          paddingOf w (numberText stray x base plus space) ≤ bufferSize then
        .ok (written (numberText stray x base plus space ++
          List.replicate (paddingOf w (numberText stray x base plus space)) (padOf zeroPad)))
      else .error .write := by
  have room : (numberText stray x base plus space).length ≤ bufferSize :=
    Nat.le_trans length_numberText (by decide)
  have start : putAt 0 (numberText stray x base plus space ++ [0]) (fun _ => 0) =
      written (numberText stray x base plus space) := by
    rw [← written_nil]
    exact putAt_written (t := [])
  rw [intStr_eq, if_pos rfl, start, padLoop_written full padOf_ne_zero room]

/-! ### Digits of a base -/

/-- The bases that `vprintf` uses. -/
def bases : List Nat := [8, 10, 16, 17]

/-- The number of digits of a base. -/
def radix (base : Nat) : Nat := if base = 17 then 16 else base

/-- The digits of a number. -/
def numeral (base n : Nat) : List (BitVec 8) :=
  (Conv.digits (radix base) n).map fun d => (digit base).getD d 0

/-- The bases are between two and sixteen. -/
theorem radix_range (known : base ∈ bases) : 2 ≤ radix base ∧ radix base ≤ 16 := by
  revert base
  decide

/-- No digit is a NUL. -/
theorem digit_ne_zero (known : base ∈ bases) : ∀ d < radix base, (digit base).getD d 0 ≠ 0 := by
  revert base
  decide

/-- Zero has one digit. -/
theorem remainders_zero : remainders base (rounds + 1) 0 = [0] := by
  rw [remainders, Int.zero_tmod, Int.zero_tdiv, if_pos rfl]

/-- The digits of a number are Mathlib's. -/
theorem remainders_natural (large : 1 < radix base) (pos : 0 < n)
    (enough : (Nat.digits (radix base) n).length ≤ rounds) :
    remainders (radix base) rounds n = (Nat.digits (radix base) n).map Int.ofNat := by
  induction rounds generalizing n with
  | zero =>
    rw [Nat.digits_def' large pos] at enough
    cases enough
  | succ rounds ih =>
    rw [Nat.digits_def' large pos, List.length_cons] at enough
    rw [Nat.digits_def' large pos, remainders, List.map_cons]
    refine congrArg₂ List.cons rfl ?_
    have div : (n : Int).tdiv (radix base : Nat) = (n / radix base : Nat) := rfl
    rw [div]
    split
    · next zero =>
      rw [Int.natCast_eq_zero.mp zero, Nat.digits_zero]
      rfl
    · next more =>
      exact ih (Nat.pos_of_ne_zero fun zero => more (by rw [zero]; rfl)) (by omega)

/-- The text of a value that has a magnitude. -/
theorem numberText_eq (known : base ∈ bases) (ne : x ≠ BitVec.intMin 64) :
    numberText stray x base plus space =
      (signOf (x.toInt < 0) plus space).toList ++ numeral base x.toInt.natAbs := by
  obtain ⟨low, high⟩ := radix_range known
  have few := Conv.length_magnitude (b := radix base) low high x
  have enough := (Conv.baseMaxDigitMap_range (b := radix base) low high).2
  rw [numberText, Conv.magnitude_eq ne, numeral, Conv.digits]
  refine congrArg _ ?_
  show ((remainders (radix base) 64 _).reverse.map _) = _
  split
  · next zero =>
    rw [zero, Int.natCast_zero, remainders_zero]
    rfl
  · next some' =>
    rw [remainders_natural low (Nat.pos_of_ne_zero some') (by omega), ← List.map_reverse,
      List.map_map]
    rfl

/-- No digit of a numeral is a NUL. -/
theorem numeral_full (known : base ∈ bases) : ∀ c ∈ numeral base n, c ≠ 0 := by
  intro c mem
  obtain ⟨d, there, rfl⟩ := List.mem_map.mp mem
  exact digit_ne_zero known d (Conv.digits_lt (radix_range known).1 n d there)

/-! ### The least value -/

/-- The digits of the least value, the first one first: that one is read before `digit`, and no
other one in the same place. -/
def leastDigits (base : Nat) : List Int :=
  (remainders (radix base) 64 (-BitVec.intMin 64).toInt).reverse

/-- What is known of the digits of the least value, for all bases. -/
theorem leastDigits_spec (known : base ∈ bases) : leastDigits base ≠ [] ∧
    (leastDigits base).headD 0 < 0 ∧ (leastDigits base).headD 0 ∉ (leastDigits base).tail ∧
    (∀ m ∈ leastDigits base, m < radix base) ∧
    (leastDigits base).length = (numeral base (BitVec.intMin 64).toInt.natAbs).length := by
  revert base
  decide +kernel

/-- Its text. -/
theorem numberText_least : numberText stray (BitVec.intMin 64) base plus space =
    chr '-' :: (leastDigits base).map (digitAt stray (digit base)) := rfl

/-- The digits of the least value are what lies before `digit`. -/
theorem digitAt_full (known : base ∈ bases) (some' : ∀ m, stray m ≠ 0) {m : Int}
    (small : m < radix base) : digitAt stray (digit base) m ≠ 0 := by
  rw [digitAt]
  split
  · next natural => exact digit_ne_zero known _ (by omega)
  · exact some' m

/-- No NUL is in it, unless one lies before `digit`. -/
theorem numberText_full (known : base ∈ bases) (some' : ∀ m, stray m ≠ 0) :
    ∀ c ∈ numberText stray x base plus space, c ≠ 0 := by
  have sign : ∀ c ∈ (signOf (x.toInt < 0) plus space).toList, c ≠ 0 := by
    generalize decide (x.toInt < 0) = negative
    revert negative plus space
    decide
  by_cases least : x = BitVec.intMin 64
  · subst least
    rw [numberText_least, List.forall_mem_cons]
    refine ⟨by decide, fun c mem => ?_⟩
    obtain ⟨m, there, rfl⟩ := List.mem_map.mp mem
    exact digitAt_full known some' ((leastDigits_spec known).2.2.2.1 m there)
  · rw [numberText_eq known least, List.forall_mem_append]
    exact ⟨sign, numeral_full known⟩

/-! ### Widths -/

/-- The bytes of a buffer that are not in use. -/
def vacant (b : Buffer) : Nat := ((List.range bufferSize).map b).count 0

/-- A byte written, in a list. -/
theorem map_update : (List.range n).map (Function.update b i c) =
    ((List.range n).map b).set i c := by
  apply List.ext_getElem
  · rw [List.length_set, List.length_map, List.length_map]
  · intro j h _
    rw [List.getElem_map, List.getElem_range, List.getElem_set, List.getElem_map,
      List.getElem_range, Function.update_apply]
    simp only [eq_comm]

/-- The string ends at the first vacant byte. -/
theorem strlen_spec : strlen b < bufferSize ∧ b (strlen b) = 0 ∨
    strlen b = bufferSize ∧ vacant b = 0 := by
  have length : ((List.range bufferSize).map b).length = bufferSize := by
    rw [List.length_map, List.length_range]
  have split := @List.takeWhile_append_dropWhile _ (· ≠ 0) ((List.range bufferSize).map b)
  rw [strlen, cString, vacant]
  by_cases none : ((List.range bufferSize).map b).dropWhile (· ≠ 0) = []
  · rw [none, List.append_nil] at split
    rw [split, List.count_eq_zero]
    exact Or.inr ⟨length, fun mem => takeWhile_all 0 (split.symm ▸ mem) rfl⟩
  · obtain ⟨d, ds, rest⟩ := List.exists_cons_of_ne_nil none
    have zero : d = 0 := by
      have first := @List.head_dropWhile_not _ (fun c => decide (c ≠ 0)) _ none
      simp only [rest, List.head_cons] at first
      exact not_not.mp (of_decide_eq_false first)
    rw [rest, zero] at split
    generalize ((List.range bufferSize).map b).takeWhile (· ≠ 0) = u at split
    have less : u.length < bufferSize := by
      rw [← length, ← split, List.length_append, List.length_cons]
      omega
    refine Or.inl ⟨less, ?_⟩
    have here : ((List.range bufferSize).map b)[u.length]? = some 0 := by
      rw [← split, List.getElem?_append_right (Nat.le_refl _), Nat.sub_self]
      rfl
    rw [List.getElem?_map, List.getElem?_range less] at here
    exact Option.some.inj here

/-- Each byte of padding takes a vacant one. -/
theorem padLoop_vacant (nonzero : pad ≠ 0) :
    (∃ b', padLoop pad n b = .ok b') ↔ n ≤ vacant b := by
  induction n generalizing b with
  | zero => exact iff_of_true ⟨b, rfl⟩ (Nat.zero_le _)
  | succ n ih =>
    rw [padLoop, store]
    rcases @strlen_spec b with ⟨less, nul⟩ | ⟨whole, none⟩
    · have one : vacant (Function.update b (strlen b) pad) + 1 = vacant b := by
        have length : strlen b < ((List.range bufferSize).map b).length := by
          rw [List.length_map, List.length_range]
          exact less
        have here : ((List.range bufferSize).map b)[strlen b] = 0 := by
          rw [List.getElem_map, List.getElem_range, nul]
        have some' : 0 < vacant b := List.count_pos_iff.mpr (here ▸ List.getElem_mem length)
        rw [vacant, map_update, List.count_set length, here, if_pos (by decide),
          if_neg (by simpa using nonzero), ← vacant]
        omega
      rw [if_pos less]
      show (∃ b', padLoop pad n (Function.update b (strlen b) pad) = .ok b') ↔ _
      rw [ih, ← one, Nat.succ_le_succ_iff]
    · rw [if_neg (by omega), none]
      exact iff_of_false (fun ⟨_, no⟩ => by cases no) (by omega)

/-- The bytes behind a text are vacant. -/
theorem vacant_written (le : t.length ≤ bufferSize) :
    vacant (written t) = bufferSize - t.length + t.count 0 := by
  have bytes : (List.range bufferSize).map (written t) =
      t ++ List.replicate (bufferSize - t.length) 0 := by
    apply List.ext_getElem
    · rw [List.length_map, List.length_range, List.length_append, List.length_replicate]
      omega
    · intro j h _
      rw [List.getElem_map, List.getElem_range, written]
      grind
  rw [vacant, bytes, List.count_append, List.count_replicate_self, Nat.add_comm]

/-- The length of the text of a number. -/
def numberLength (x : Word) (base : Nat) (plus space : Bool) : Nat :=
  (signOf (x.toInt < 0) plus space).toList.length + (numeral base x.toInt.natAbs).length

/-- The widths for which a number and its padding stay in the buffers: a difference of `int`s that
does not wrap, and no more than 256 bytes on the right and 255 on the left, where the NUL is copied.
The text of the least value may have a NUL in it, which padding on the right fills. -/
def Fits (x : Word) (base : Nat) (plus space : Bool) (w : BitVec 32) (justify : Bool) : Prop :=
  -2 ^ 31 + (numberLength x base plus space : Int) ≤ w.toInt ∧ w.toInt ≤
    if justify then
      if x = BitVec.intMin 64 then 258 - (numberLength x base plus space : Int) else 256
    else 255

/-- The length does not depend on what lies before `digit`. -/
theorem length_numberText_eq (known : base ∈ bases) :
    (numberText stray x base plus space).length = numberLength x base plus space := by
  by_cases least : x = BitVec.intMin 64
  · subst least
    rw [numberText_least, List.length_cons, List.length_map, (leastDigits_spec known).2.2.2.2,
      numberLength, Nat.add_comm]
    rfl
  · rw [numberText_eq known least, List.length_append, numberLength]

/-- It is 65 at most. -/
theorem numberLength_le (known : base ∈ bases) : numberLength x base plus space ≤ 65 := by
  rw [← @length_numberText_eq _ (fun _ => 0) _ _ _ known]
  exact length_numberText

/-- The difference of the lengths, an `int`. -/
theorem toInt_sub_ofNat (few : k ≤ 65) : (w - BitVec.ofNat 32 k).toInt =
    if -2 ^ 31 + (k : Int) ≤ w.toInt then w.toInt - k else w.toInt - k + 2 ^ 32 := by
  have low := BitVec.le_toInt w
  have high := BitVec.toInt_lt (x := w)
  have small : (BitVec.ofNat 32 k).toInt = k := by
    rw [BitVec.toInt_eq_toNat_cond, BitVec.toNat_ofNat]
    omega
  rw [BitVec.toInt_sub, small, Int.bmod_def]
  split <;> split <;> omega

/-- The padding, where the difference does not wrap. -/
theorem paddingOf_eq (le : (t.takeWhile (· ≠ 0)).length ≤ k) (few : k ≤ 65)
    (low : -2 ^ 31 + (k : Int) ≤ w.toInt) :
    (paddingOf w t : Int) = w.toInt - (t.takeWhile (· ≠ 0)).length ∨
      paddingOf w t = 0 ∧ w.toInt ≤ (t.takeWhile (· ≠ 0)).length := by
  rw [paddingOf, toInt_sub_ofNat (by omega), if_pos (by omega)]
  omega

/-- Where it does, it is too long. -/
theorem paddingOf_wraps (few : t.length ≤ 65) (full : ∀ c ∈ t, c ≠ 0)
    (low : ¬ -2 ^ 31 + (t.length : Int) ≤ w.toInt) : bufferSize < paddingOf w t := by
  have least := BitVec.le_toInt w
  rw [paddingOf, takeWhile_full full, toInt_sub_ofNat few, if_neg low]
  have size : bufferSize = 256 := rfl
  omega

/-- On the left, whatever lies before `digit`. -/
theorem intStr_right_iff (known : base ∈ bases) :
    (∀ stray, ∃ b', intStr stray x b base plus space w false zeroPad = .ok b') ↔
      Fits x base plus space w false := by
  have few := @numberLength_le base plus space x known
  have size : bufferSize = 256 := rfl
  rw [Fits, if_neg Bool.false_ne_true]
  constructor
  · intro all
    -- no digit is a NUL
    obtain ⟨b', run⟩ := all fun _ => 1
    have full := @numberText_full base (fun _ => 1) plus space x known fun _ => by decide
    have length := @length_numberText_eq base (fun _ => 1) plus space x known
    rw [intStr_right, takeWhile_full full] at run
    split at run
    · next fits =>
      by_cases low : -2 ^ 31 + (numberLength x base plus space : Int) ≤ w.toInt
      · have padding := paddingOf_eq (w := w) (by rw [takeWhile_full full, length]) few low
        rw [takeWhile_full full] at padding
        omega
      · have wraps := paddingOf_wraps (by omega) full (by rwa [length])
        omega
    · cases run
  · rintro ⟨low, high⟩ stray
    have length := @length_numberText_eq base stray plus space x known
    have le : ((numberText stray x base plus space).takeWhile (· ≠ 0)).length ≤
        numberLength x base plus space := length ▸ (List.takeWhile_prefix _).length_le
    have padding := paddingOf_eq le few low
    rw [intStr_right, if_pos (by omega)]
    exact ⟨_, rfl⟩

/-- On the right there must be a vacant byte for each byte of padding. -/
theorem intStr_left_vacant : (∃ b', intStr stray x (fun _ => 0) base plus space w true zeroPad =
    .ok b') ↔ paddingOf w (numberText stray x base plus space) ≤
      bufferSize - (numberText stray x base plus space).length +
        (numberText stray x base plus space).count 0 := by
  have room : (numberText stray x base plus space).length ≤ bufferSize :=
    Nat.le_trans length_numberText (by decide)
  have start : putAt 0 (numberText stray x base plus space ++ [0]) (fun _ => 0) =
      written (numberText stray x base plus space) := by
    rw [← written_nil]
    exact putAt_written (t := [])
  rw [intStr_eq, if_pos rfl, start, padLoop_vacant padOf_ne_zero, vacant_written room]

/-- A NUL in front of the digits of the least value. -/
theorem numberText_hole (known : base ∈ bases) : ∃ stray : Int → BitVec 8,
    ((numberText stray (BitVec.intMin 64) base plus space).takeWhile (· ≠ 0)).length = 1 ∧
      (numberText stray (BitVec.intMin 64) base plus space).count 0 = 1 := by
  obtain ⟨some', -, other, small, -⟩ := leastDigits_spec known
  obtain ⟨first, rest, split⟩ := List.exists_cons_of_ne_nil some'
  have negative := (leastDigits_spec known).2.1
  rw [split] at negative other small
  rw [List.headD_cons] at negative other
  rw [List.tail_cons] at other
  refine ⟨fun m => if m = first then 0 else 1, ?_⟩
  have hole : digitAt (fun m => if m = first then 0 else 1) (digit base) first = 0 := by
    rw [digitAt, if_neg (by omega), if_pos rfl]
  have full :
      (rest.map (digitAt (fun m => if m = first then 0 else 1) (digit base))).count 0 = 0 := by
    rw [List.count_eq_zero]
    intro mem
    obtain ⟨m, there, zero⟩ := List.mem_map.mp mem
    rw [digitAt] at zero
    split at zero
    · next natural =>
      have lt := small m (List.mem_cons_of_mem _ there)
      exact digit_ne_zero known m.toNat (by omega) zero
    · rw [if_neg (fun same : m = first => other (same ▸ there))] at zero
      exact absurd zero (by decide)
  rw [numberText_least, split, List.map_cons, hole]
  constructor
  · rfl
  · rw [List.count_cons, List.count_cons, full]
    rfl

/-- On the right, whatever lies before `digit`. -/
theorem intStr_left_iff (known : base ∈ bases) :
    (∀ stray, ∃ b', intStr stray x (fun _ => 0) base plus space w true zeroPad = .ok b') ↔
      Fits x base plus space w true := by
  have few := @numberLength_le base plus space x known
  have size : bufferSize = 256 := rfl
  rw [Fits, if_pos rfl]
  constructor
  · intro all
    -- no digit is a NUL
    have run := intStr_left_vacant.mp (all fun _ => 1)
    have full := @numberText_full base (fun _ => 1) plus space x known fun _ => by decide
    have length := @length_numberText_eq base (fun _ => 1) plus space x known
    have none : (numberText (fun _ => 1) x base plus space).count 0 = 0 :=
      List.count_eq_zero.mpr fun mem => full 0 mem rfl
    by_cases low : -2 ^ 31 + (numberLength x base plus space : Int) ≤ w.toInt
    · have padding := paddingOf_eq (w := w) (by rw [takeWhile_full full, length]) few low
      rw [takeWhile_full full] at padding
      refine ⟨low, ?_⟩
      split
      · next least =>
        subst least
        obtain ⟨stray, one, count⟩ := @numberText_hole base plus space known
        have length' := @length_numberText_eq base stray plus space (BitVec.intMin 64) known
        have run' := intStr_left_vacant.mp (all stray)
        have le : ((numberText stray (BitVec.intMin 64) base plus space).takeWhile
            (· ≠ 0)).length ≤ numberLength (BitVec.intMin 64) base plus space := by
          rw [← length']
          exact (List.takeWhile_prefix _).length_le
        have padding' := paddingOf_eq le few low
        omega
      · omega
    · have wraps := paddingOf_wraps (by omega) full (by rwa [length])
      omega
  · rintro ⟨low, high⟩ stray
    have length := @length_numberText_eq base stray plus space x known
    have le : ((numberText stray x base plus space).takeWhile (· ≠ 0)).length ≤
        numberLength x base plus space := length ▸ (List.takeWhile_prefix _).length_le
    have padding := paddingOf_eq le few low
    rw [intStr_left_vacant]
    by_cases least : x = BitVec.intMin 64
    · rw [if_pos least] at high
      subst least
      have start : 1 ≤ ((numberText stray (BitVec.intMin 64) base plus space).takeWhile
          (· ≠ 0)).length := by
        rw [numberText_least, List.takeWhile_cons_of_pos (by decide)]
        exact Nat.succ_le_succ (Nat.zero_le _)
      by_cases hole : 0 ∈ numberText stray (BitVec.intMin 64) base plus space
      · have some' := List.count_pos_iff.mpr hole
        omega
      · have digits := List.length_pos_iff.mpr (leastDigits_spec known).1
        rw [takeWhile_full fun c mem zero => hole (zero ▸ mem)] at padding
        rw [numberText_least, List.length_cons, List.length_map] at length
        omega
    · rw [if_neg least] at high
      have same :
          numberText stray x base plus space = numberText (fun _ => 1) x base plus space := by
        rw [numberText_eq known least, numberText_eq known least]
      have full := @numberText_full base (fun _ => 1) plus space x known fun _ => by decide
      rw [← same] at full
      rw [takeWhile_full full] at padding
      omega

/-- The buffers hold a number and its padding just when the width fits. -/
theorem intStr_ok_iff (known : base ∈ bases) :
    (∀ stray, ∃ b', intStr stray x (fun _ => 0) base plus space w justify zeroPad = .ok b') ↔
      Fits x base plus space w justify := by
  cases justify with
  | false => exact intStr_right_iff known
  | true => exact intStr_left_iff known

/-- A small width on the left, in any buffer. -/
theorem intStr_short (known : base ∈ bases) (low : 0 ≤ w.toInt) (high : w.toInt ≤ 255) :
    ∃ b', intStr stray x b base plus space w false zeroPad = .ok b' := by
  have few := @numberLength_le base plus space x known
  refine (intStr_right_iff known).mpr ⟨by omega, ?_⟩ stray
  rw [if_neg Bool.false_ne_true]
  exact high

/-! ### Output -/

/-- A string that is displayed leaves the rest. -/
theorem displayString_rest (s : State) (str : List (BitVec 8)) :
    (s.displayString str).format = s.format ∧ (s.displayString str).list = s.list ∧
      (s.displayString str).taken = s.taken := by
  induction str generalizing s with
  | nil => exact ⟨rfl, rfl, rfl⟩
  | cons c str ih => exact ih (s.displayCharacter c)

/-- A string without a NUL is displayed whole. -/
theorem displayString_out (s : State) {str : List (BitVec 8)} (full : ∀ c ∈ str, c ≠ 0) :
    (s.displayString str).out = s.out ++ str := by
  induction str generalizing s with
  | nil => exact (List.append_nil _).symm
  | cons c str ih =>
    rw [List.forall_mem_cons] at full
    rw [State.displayString, List.foldl_cons]
    refine (ih (s.displayCharacter c) full.2).trans ?_
    rw [State.displayCharacter, if_neg full.1, List.append_assoc]
    rfl

end

end Skylight.Printf
