import Mathlib.Data.Nat.Digits.Lemmas
import Skylight.Extra.Conv

/-!
# The text of a number

`utoa` writes the digits of a number, the first one at the start, and a NUL behind the last one.
`itoa` writes a sign before them. It clears no byte for the sign, so it leaves a negative number
that needs all its digits without a NUL, and the least number of all has no magnitude to write.

`utoa_numeral` and `itoa_renders_iff` are about every value, every base from 2 to 16 and every
buffer. Reads before the alphabet, which the least value brings about, are in the model as bytes
at negative places; so it is proved and not assumed that no other value reads them.
-/

namespace Skylight.Conv

open Shell (ascii)

/-- The digits of a number in a base, the first one first; zero has one. -/
def digits (base n : Nat) : List Nat := if n = 0 then [0] else (Nat.digits base n).reverse

/-- The text of a number. -/
def textOf (base n : Nat) : List (BitVec 8) := (digits base n).map digitCharacter

/-- The number that a text of digits stands for. -/
def readDigits (base : Nat) (text : List (BitVec 8)) : Nat :=
  text.foldl (fun n c => n * base + (ascii "0123456789abcdef").idxOf c) 0

/-- The same with a sign before them. -/
def readSigned (base : Nat) : List (BitVec 8) → Int
  | [] => 0
  | c :: text => if c = 0x2D then -readDigits base text else readDigits base (c :: text)

/-- Digits of the base without a leading zero that read back as the number. -/
structure Numeral (base n : Nat) (text : List (BitVec 8)) : Prop where
  nonempty : text ≠ []
  digits : ∀ c ∈ text, c ∈ (ascii "0123456789abcdef").take base
  leading : text.head? = some 0x30 → text = [0x30]
  value : readDigits base text = n

/-- The bytes begin with the text and a NUL. -/
structure IsString (str : Buffer) (text : List (BitVec 8)) : Prop where
  bytes : ∀ j (h : j < text.length), str j = text[j]
  full : ∀ c ∈ text, c ≠ 0
  nul : str text.length = 0

/-- `itoa` writes the sign and the digits of the value, and reads its alphabet at digits only. -/
def Renders (around : Int → BitVec 8) (value : BitVec 64) (str : Buffer) (base : BitVec 8) : Prop :=
  ∃ written read ds, itoa around value str base = some (true, written, read) ∧
    IsString written ((if value.toInt < 0 then [0x2D] else []) ++ ds) ∧
    Numeral base.toNat value.toInt.natAbs ds ∧
    readSigned base.toNat ((if value.toInt < 0 then [0x2D] else []) ++ ds) = value.toInt ∧
    ∀ index ∈ read, 0 ≤ index ∧ index < base.toNat

section
variable {base : BitVec 64} {tmp value : BitVec 64} {b i k rounds : Nat} {str : Buffer}

/-! ### The loops -/

/-- The count goes down once for each digit but the first. -/
theorem countLoop_eq (large : 1 < base.toNat) (ne : tmp ≠ 0)
    (enough : (Nat.digits base.toNat tmp.toNat).length ≤ i) :
    countLoop base i tmp = i + 1 - (Nat.digits base.toNat tmp.toNat).length := by
  have pos : tmp.toNat ≠ 0 := fun zero => ne (BitVec.eq_of_toNat_eq zero)
  induction i generalizing tmp with
  | zero =>
    rw [Nat.digits_def' large (Nat.pos_of_ne_zero pos)] at enough
    cases enough
  | succ i ih =>
    rw [Nat.digits_def' large (Nat.pos_of_ne_zero pos), List.length_cons] at enough ⊢
    rw [countLoop]
    have div : (tmp / base).toNat = tmp.toNat / base.toNat := BitVec.toNat_udiv
    split
    · next zero =>
      rw [← div, zero]
      simp
    · next more =>
      rw [ih more (by rw [div]; omega) fun zero => more (BitVec.eq_of_toNat_eq zero), div]
      omega

/-- The bytes with the digits `ds` down from the place `i`. -/
def written (ds : List Nat) (i : Nat) (str : Buffer) : Buffer := fun j =>
  if j ≤ i ∧ i - j < ds.length then digitCharacter (ds.getD (i - j) 0) else str j

/-- One digit. -/
theorem written_single (d : Nat) (i : Nat) (str : Buffer) :
    written [d] i str = Function.update str i (digitCharacter d) := by
  ext1 j
  unfold written
  by_cases here : j = i
  · subst here
    simp
  · rw [Function.update_of_ne here, if_neg]
    rw [List.length_singleton]
    omega

/-- The last digit, and those before it. -/
theorem written_cons (d : Nat) (ds : List Nat) (i : Nat) (str : Buffer) :
    written ds i (Function.update str (i + 1) (digitCharacter d)) =
      written (d :: ds) (i + 1) str := by
  ext1 j
  unfold written
  rw [List.length_cons]
  rcases Nat.lt_trichotomy j (i + 1) with before | rfl | behind
  · rw [Function.update_of_ne (Nat.ne_of_lt before), show i + 1 - j = (i - j) + 1 by omega,
      List.getD_cons_succ]
    by_cases inside : i - j < ds.length
    · rw [if_pos (by omega), if_pos (by omega)]
    · rw [if_neg (by omega), if_neg (by omega)]
  · rw [if_neg (by omega), if_pos (by omega), Function.update_self, Nat.sub_self,
      List.getD_cons_zero]
  · rw [if_neg (by omega), if_neg (by omega), Function.update_of_ne (Nat.ne_of_gt behind)]

/-- The digits are written down from the place of the last one. -/
theorem digitLoop_eq (large : 1 < base.toNat) (ne : tmp ≠ 0) {i : BitVec 8}
    (room : (Nat.digits base.toNat tmp.toNat).length ≤ i.toNat + 1)
    (enough : (Nat.digits base.toNat tmp.toNat).length ≤ rounds) :
    digitLoop base rounds i tmp str =
      some (written (Nat.digits base.toNat tmp.toNat) i.toNat str) := by
  have pos : tmp.toNat ≠ 0 := fun zero => ne (BitVec.eq_of_toNat_eq zero)
  -- One round takes the last digit, so the digits are unfolded from that end.
  induction rounds generalizing tmp i str with
  | zero =>
    rw [Nat.digits_def' large (Nat.pos_of_ne_zero pos)] at enough
    cases enough
  | succ rounds ih =>
    rw [Nat.digits_def' large (Nat.pos_of_ne_zero pos), List.length_cons] at room enough
    rw [Nat.digits_def' large (Nat.pos_of_ne_zero pos), digitLoop]
    have div : (tmp / base).toNat = tmp.toNat / base.toNat := BitVec.toNat_udiv
    have mod : (tmp % base).toNat = tmp.toNat % base.toNat := BitVec.toNat_umod
    rw [mod]
    split
    · next zero =>
      rw [← div, zero, show (0 : BitVec 64).toNat = 0 from rfl, Nat.digits_zero, written_single]
    · next more =>
      have pos' : (tmp / base).toNat ≠ 0 := fun zero => more (BitVec.eq_of_toNat_eq zero)
      rw [← div] at room enough ⊢
      have shorter : 0 < (Nat.digits base.toNat (tmp / base).toNat).length := by
        rw [Nat.digits_def' large (Nat.pos_of_ne_zero pos')]
        exact Nat.succ_pos _
      obtain ⟨k, more'⟩ : ∃ k, i.toNat = k + 1 := ⟨i.toNat - 1, by omega⟩
      have next : (i - 1).toNat = k := by
        rw [BitVec.toNat_sub, show (1 : BitVec 8).toNat = 1 from rfl]
        omega
      rw [ih more (by rw [next]; omega) (by omega) pos', next, more', written_cons]

/-! ### The text -/

/-- No digit is a NUL. -/
theorem digitCharacter_ne {d : Nat} (small : d < 16) : digitCharacter d ≠ 0 := by
  revert d
  decide

/-- A digit is found at its place in the alphabet. -/
theorem idxOf_digitCharacter {d : Nat} (small : d < 16) :
    (ascii "0123456789abcdef").idxOf (digitCharacter d) = d := by
  revert d
  decide

/-- The digits of a base, in the alphabet. -/
theorem mem_alphabet {b : Nat} (high : b ≤ 16) {c : BitVec 8} :
    c ∈ (ascii "0123456789abcdef").take b ↔ ∃ d < b, digitCharacter d = c := by
  have whole : ascii "0123456789abcdef" = (List.range 16).map digitCharacter := by decide
  rw [whole, ← List.map_take, List.take_range, Nat.min_eq_left high, List.mem_map]
  simp only [List.mem_range]

/-- Digits are below the base. -/
theorem digits_lt {b : Nat} (large : 1 < b) (n : Nat) : ∀ d ∈ digits b n, d < b := by
  intro d mem
  unfold digits at mem
  split at mem
  · rw [List.mem_singleton.mp mem]
    omega
  · exact Nat.digits_lt_base large (List.mem_reverse.mp mem)

/-- A text with a NUL behind it, in an array. -/
theorem cString_eq {text : List (BitVec 8)} {size : Nat} (inside : text.length < size)
    (bytes : ∀ j (h : j < text.length), str j = text[j]) (full : ∀ c ∈ text, c ≠ 0)
    (nul : str text.length = 0) : cString str size = text := by
  obtain ⟨k, rfl⟩ := Nat.exists_eq_add_of_le (Nat.succ_le_of_lt inside)
  have first : (List.range text.length).map str = text := by
    apply List.ext_getElem
    · rw [List.length_map, List.length_range]
    · intro j _ h
      rw [List.getElem_map, List.getElem_range, bytes j h]
  unfold cString
  rw [Nat.succ_add_eq_add_succ, List.range_add, List.map_append, first, List.range_succ_eq_map,
    List.map_cons, List.map_cons, Nat.add_zero, nul]
  rw [List.takeWhile_append_of_pos (by simpa using full), List.takeWhile_cons_of_neg (by simp),
    List.append_nil]

/-- No value has more digits than the table says. -/
theorem digits_length_le {b : Nat} (low : minDigitBase ≤ b) (high : b ≤ maxDigitBase)
    (value : BitVec 64) : (Nat.digits b value.toNat).length ≤ baseMaxDigitMap.getD b 0 := by
  have all : ∀ b, minDigitBase ≤ b → b ≤ maxDigitBase → 2 ^ 64 ≤ b ^ baseMaxDigitMap.getD b 0 := by
    unfold minDigitBase maxDigitBase
    intro b low high
    interval_cases b <;> decide
  rw [Nat.digits_length_le_iff]
  · exact Nat.lt_of_lt_of_le value.isLt (all b low high)
  · exact low

/-- The number of digits is Mathlib's. -/
theorem length_digits (b n : Nat) (pos : n ≠ 0) :
    (digits b n).length = (Nat.digits b n).length := by
  unfold digits
  rw [if_neg pos, List.length_reverse]

/-- No character of a text is a NUL. -/
theorem textOf_full {b : Nat} (low : minDigitBase ≤ b) (high : b ≤ maxDigitBase) (n : Nat) :
    ∀ c ∈ textOf b n, c ≠ 0 := by
  intro c mem
  obtain ⟨d, digit, rfl⟩ := List.mem_map.mp mem
  exact digitCharacter_ne (Nat.lt_of_lt_of_le (digits_lt low n d digit) high)

/-- The table has between one and 64 digits for each base. -/
theorem baseMaxDigitMap_range {b : Nat} (low : minDigitBase ≤ b) (high : b ≤ maxDigitBase) :
    0 < baseMaxDigitMap.getD b 0 ∧ baseMaxDigitMap.getD b 0 ≤ 64 := by
  unfold minDigitBase maxDigitBase at *
  interval_cases b <;> decide

/-- The text of a number is its numeral. -/
theorem textOf_numeral {b : Nat} (low : minDigitBase ≤ b) (high : b ≤ maxDigitBase) (n : Nat) :
    Numeral b n (textOf b n) where
  nonempty := by
    unfold textOf digits
    split
    · simp
    · next pos => simpa using Nat.digits_ne_nil_iff_ne_zero.mpr pos
  digits c mem := by
    obtain ⟨d, digit, rfl⟩ := List.mem_map.mp mem
    exact (mem_alphabet high).mpr ⟨d, digits_lt low n d digit, rfl⟩
  leading first := by
    unfold textOf digits at first ⊢
    split at first
    · next zero => rw [if_pos zero]; rfl
    · next pos =>
      rw [List.head?_map, List.head?_reverse] at first
      obtain ⟨d, last, zero⟩ := Option.map_eq_some_iff.mp first
      have small := Nat.digits_lt_base low (List.mem_of_getLast? last)
      obtain rfl : d = 0 := by
        have at_zero := congrArg (ascii "0123456789abcdef").idxOf zero
        rwa [idxOf_digitCharacter (Nat.lt_of_lt_of_le small high)] at at_zero
      have some : Nat.digits b n ≠ [] := Nat.digits_ne_nil_iff_ne_zero.mpr pos
      rw [List.getLast?_eq_some_getLast some] at last
      exact absurd (Option.some.inj last) (Nat.getLast_digit_ne_zero b pos)
  value := by
    have reads : ∀ ds : List Nat, (∀ d ∈ ds, d < b) →
        readDigits b (ds.reverse.map digitCharacter) = Nat.ofDigits b ds := by
      intro ds small
      rw [readDigits, List.foldl_map, List.foldl_reverse, Nat.ofDigits_eq_foldr]
      induction ds with
      | nil => rfl
      | cons d ds ih =>
        rw [List.foldr_cons, List.foldr_cons, ih fun d mem => small d (List.mem_cons_of_mem _ mem),
          idxOf_digitCharacter (Nat.lt_of_lt_of_le (small d (List.mem_cons_self ..)) high),
          Nat.mul_comm, Nat.add_comm]
        rfl
    unfold textOf digits
    split
    · next zero =>
      have nought := reads [0] (by simpa using Nat.zero_lt_of_lt low)
      rw [zero]
      simpa using nought
    · rw [reads _ fun d mem => Nat.digits_lt_base low mem, Nat.ofDigits_digits]

/-- A number has one numeral. -/
theorem Numeral.eq_textOf {b n : Nat} {text : List (BitVec 8)} (h : Numeral b n text)
    (low : minDigitBase ≤ b) (high : b ≤ maxDigitBase) : text = textOf b n := by
  have small : ∀ c ∈ text, (ascii "0123456789abcdef").idxOf c < b ∧
      digitCharacter ((ascii "0123456789abcdef").idxOf c) = c := by
    intro c mem
    obtain ⟨d, lt, rfl⟩ := (mem_alphabet high).mp (h.digits c mem)
    rw [idxOf_digitCharacter (Nat.lt_of_lt_of_le lt high)]
    exact ⟨lt, rfl⟩
  set ds := (text.map (ascii "0123456789abcdef").idxOf).reverse with def_ds
  have back : ds.reverse.map digitCharacter = text := by
    rw [def_ds, List.reverse_reverse, List.map_map]
    conv_rhs => rw [← List.map_id text]
    exact List.map_congr_left fun c mem => (small c mem).2
  have value : Nat.ofDigits b ds = n := by
    rw [← h.value, readDigits, Nat.ofDigits_eq_foldr, def_ds, List.foldr_reverse, List.foldl_map]
    simp only [Nat.cast_id, Nat.mul_comm b, Nat.add_comm]
  have below : ∀ d ∈ ds, d < b := by
    intro d mem
    obtain ⟨c, there, rfl⟩ := List.mem_map.mp (List.mem_reverse.mp mem)
    exact (small c there).1
  obtain ⟨c, rest, rfl⟩ := List.exists_cons_of_ne_nil h.nonempty
  by_cases zero : c = 0x30
  · obtain rfl : rest = [] := by
      have whole := h.leading (congrArg some zero)
      exact (List.cons.inj whole).2
    have nought : n = 0 := by
      rw [← h.value, zero]
      simp [readDigits, ascii]
    rw [nought, zero]
    rfl
  · have first : ∀ some : ds ≠ [], ds.getLast some ≠ 0 := by
      intro some last
      apply zero
      have at_head : (ascii "0123456789abcdef").idxOf c = 0 := by
        simpa only [def_ds, List.getLast_reverse, List.map_cons, List.head_cons] using last
      rw [← (small c (List.mem_cons_self ..)).2, at_head]
      rfl
    have written := Nat.digits_ofDigits b low ds below first
    rw [value] at written
    have pos : n ≠ 0 := by
      rintro rfl
      rw [Nat.digits_zero] at written
      rw [def_ds] at written
      simp at written
    unfold textOf Conv.digits
    rw [if_neg pos, written, back]

/-! ### The bytes -/

/-- The bytes with a text at the start. -/
def put (text : List (BitVec 8)) (str : Buffer) : Buffer := fun j => text.getD j (str j)

/-- A byte that is cleared. -/
theorem clear_inside (str : Buffer) {j n : Nat} (inside : j < n) : clear str n j = 0 :=
    if_pos inside

/-- And one that is not. -/
theorem clear_behind (str : Buffer) {j n : Nat} (behind : n ≤ j) : clear str n j = str j :=
  if_neg (Nat.not_lt.mpr behind)

/-- Behind the text nothing is written. -/
theorem put_behind {text : List (BitVec 8)} {j : Nat} (behind : text.length ≤ j) :
    put text str j = str j := by
  rw [put, List.getD_eq_getElem?_getD, List.getElem?_eq_none behind]
  rfl

/-- A text of one character. -/
theorem put_single (c : BitVec 8) (str : Buffer) : Function.update str 0 c = put [c] str := by
  ext1 j
  cases j with
  | zero => exact Function.update_self ..
  | succ j => rw [Function.update_of_ne (Nat.succ_ne_zero j), put_behind (by simp)]

/-- A text with a NUL behind it is a string. -/
theorem put_isString {text : List (BitVec 8)} (full : ∀ c ∈ text, c ≠ 0)
    (nul : str text.length = 0) : IsString (put text str) text where
  bytes j h := by
    rw [put, List.getD_eq_getElem?_getD, List.getElem?_eq_getElem h, Option.getD_some]
  full := full
  nul := (put_behind (Nat.le_refl _)).trans nul

/-- A digit of the reversed text. -/
theorem getD_reverse_map {ds : List Nat} {j : Nat} (inside : j < ds.length) (c : BitVec 8) :
    (ds.reverse.map digitCharacter).getD j c = digitCharacter (ds.getD (ds.length - 1 - j) 0) := by
  rw [List.getD_eq_getElem?_getD, List.getD_eq_getElem?_getD, List.getElem?_map,
    List.getElem?_reverse inside, List.getElem?_eq_getElem (by omega)]
  rfl

/-- And none behind it. -/
theorem getD_reverse_map_behind {ds : List Nat} {j : Nat} (behind : ¬ j < ds.length)
    (c : BitVec 8) :
    (ds.reverse.map digitCharacter).getD j c = c := by
  rw [List.getD_eq_getElem?_getD, List.getElem?_eq_none (by simpa using behind)]
  rfl

/-- Digits written down to the first place are a text at the start. -/
theorem written_put {ds : List Nat} (some : ds ≠ []) :
    written ds (ds.length - 1) str = put (ds.reverse.map digitCharacter) str := by
  have pos := List.length_pos_of_ne_nil some
  ext1 j
  unfold written put
  by_cases inside : j < ds.length
  · rw [if_pos (by omega), getD_reverse_map inside]
  · rw [if_neg (by omega), getD_reverse_map_behind inside]

/-- Digits written down to the second place, with a character before them. -/
theorem update_written_put {ds : List Nat} {c : BitVec 8} :
    Function.update (written ds ds.length str) 0 c =
      put (c :: ds.reverse.map digitCharacter) str := by
  ext1 j
  cases j with
  | zero => exact Function.update_self ..
  | succ j =>
    rw [Function.update_of_ne (Nat.succ_ne_zero j)]
    unfold written put
    rw [List.getD_cons_succ]
    by_cases inside : j < ds.length
    · rw [if_pos (by omega), getD_reverse_map inside, Nat.sub_sub, Nat.add_comm]
    · rw [if_neg (by omega), getD_reverse_map_behind inside]

/-! ### `utoa` -/

/-- What is written is the text of the number, in cleared bytes. -/
theorem utoa_eq {base : BitVec 8} (low : minDigitBase ≤ base.toNat)
    (high : base.toNat ≤ maxDigitBase) (value : BitVec 64) (str : Buffer) :
    utoa value str base = some (true, put (textOf base.toNat value.toNat)
      (clear str (baseMaxDigitMap.getD base.toNat 0 + 1))) := by
  have digits_max := baseMaxDigitMap_range low high
  have fits := digits_length_le low high value
  set n := baseMaxDigitMap.getD base.toNat 0 with def_n
  unfold utoa
  rw [if_neg (by omega), ← def_n]
  dsimp only
  split
  · next zero =>
    rw [zero, put_single]
    rfl
  · next ne =>
    have pos : value.toNat ≠ 0 := fun zero => ne (BitVec.eq_of_toNat_eq zero)
    have same : (base.setWidth 64).toNat = base.toNat := by
      rw [BitVec.toNat_setWidth, Nat.mod_eq_of_lt (Nat.lt_trans base.isLt (by decide))]
    have large : 1 < (base.setWidth 64).toNat := same ▸ low
    have some : Nat.digits base.toNat value.toNat ≠ [] := Nat.digits_ne_nil_iff_ne_zero.mpr pos
    have length := List.length_pos_of_ne_nil some
    have place : (BitVec.ofNat 8 (n - countLoop (base.setWidth 64) n value)).toNat =
        (Nat.digits base.toNat value.toNat).length - 1 := by
      rw [countLoop_eq large ne (by rwa [same]), same, BitVec.toNat_ofNat]
      omega
    rw [digitLoop_eq large ne (by rw [place, same]; omega) (by rw [same]; omega), place, same,
      written_put some, textOf, digits, if_neg pos]
    rfl

/-- A text is as long as the table says at most. -/
theorem length_textOf {b : Nat} (low : minDigitBase ≤ b) (high : b ≤ maxDigitBase)
    (value : BitVec 64) : (textOf b value.toNat).length ≤ baseMaxDigitMap.getD b 0 := by
  rw [textOf, List.length_map]
  by_cases zero : value.toNat = 0
  · rw [zero]
    exact (baseMaxDigitMap_range low high).1
  · rw [length_digits b _ zero]
    exact digits_length_le low high value

/-- What is written is the text of the number, in any memory. -/
theorem utoa_text {base : BitVec 8} (low : minDigitBase ≤ base.toNat)
    (high : base.toNat ≤ maxDigitBase) (value : BitVec 64) (str : Buffer) {size : Nat}
    (inside : baseMaxDigitMap.getD base.toNat 0 < size) :
    ∃ written, utoa value str base = some (true, written) ∧
      cString written size = textOf base.toNat value.toNat := by
  have length := length_textOf low high value
  have string := put_isString (textOf_full low high value.toNat)
    (clear_inside str (Nat.lt_succ_of_le length))
  exact ⟨_, utoa_eq low high value str,
    cString_eq (Nat.lt_of_le_of_lt length inside) string.bytes string.full string.nul⟩

/-- `utoa` writes a numeral of the value and a NUL behind it, of no more digits than the table says,
and no byte behind the place of the table. -/
theorem utoa_numeral {base : BitVec 8} (low : minDigitBase ≤ base.toNat)
    (high : base.toNat ≤ maxDigitBase) (value : BitVec 64) (str : Buffer) :
    ∃ written text, utoa value str base = some (true, written) ∧ IsString written text ∧
      Numeral base.toNat value.toNat text ∧
      text.length ≤ baseMaxDigitMap.getD base.toNat 0 ∧
      ∀ j > baseMaxDigitMap.getD base.toNat 0, written j = str j := by
  have length := length_textOf low high value
  refine ⟨_, _, utoa_eq low high value str,
    put_isString (textOf_full low high value.toNat) (clear_inside str (Nat.lt_succ_of_le length)),
    textOf_numeral low high value.toNat, length, fun j behind => ?_⟩
  rw [put_behind (by omega)]
  exact clear_behind str (by omega)

/-- The largest value in base two. -/
theorem utoa_numeral_last : ∃ written text, utoa (-1) (fun _ => 0x55) 2 = some (true, written) ∧
    IsString written text ∧ Numeral 2 (2 ^ 64 - 1) text ∧ text.length ≤ 64 ∧
      ∀ j > 64, written j = 0x55 :=
  @utoa_numeral 2 (by decide) (by decide) (-1) fun _ => 0x55

/-! ### `itoa` -/

/-- Division towards zero divides the magnitude. -/
theorem natAbs_div {b : Nat} (tmp : Int) : (tmp.tdiv b).natAbs = tmp.natAbs / b := by
  rw [Int.natAbs_tdiv, Int.natAbs_natCast]
  rfl

/-- The count is that of the digits of the magnitude. -/
theorem signedCountLoop_eq {tmp : Int} (large : 1 < b) (ne : tmp ≠ 0)
    (enough : (Nat.digits b tmp.natAbs).length ≤ i) :
    signedCountLoop b i tmp = i + 1 - (Nat.digits b tmp.natAbs).length := by
  have pos := Int.natAbs_pos.mpr ne
  induction i generalizing tmp with
  | zero =>
    rw [Nat.digits_def' large pos] at enough
    cases enough
  | succ i ih =>
    rw [Nat.digits_def' large pos, List.length_cons, ← natAbs_div] at enough ⊢
    rw [signedCountLoop]
    split
    · next zero =>
      rw [zero]
      simp
    · next more =>
      rw [ih more (by omega) (Int.natAbs_pos.mpr more)]
      omega

/-- The digits of a positive value are written down from the place of the last one. -/
theorem signedDigitLoop_pos {around : Int → BitVec 8} {low m : Nat} (large : 1 < b) (high : b ≤ 16)
    (pos : 0 < m) {i : BitVec 8} {read : List Int}
    (room : (Nat.digits b m).length + low ≤ i.toNat + 1)
    (enough : (Nat.digits b m).length ≤ rounds) (digit : ∀ index ∈ read, 0 ≤ index ∧ index < b) :
    ∃ read', signedDigitLoop around b low rounds i m str read =
      some (written (Nat.digits b m) i.toNat str, read') ∧
        ∀ index ∈ read', 0 ≤ index ∧ index < b := by
  -- A positive value behaves as its magnitude does, and no index leaves the alphabet.
  induction rounds generalizing m i str read with
  | zero =>
    rw [Nat.digits_def' large pos] at enough
    cases enough
  | succ rounds ih =>
    rw [Nat.digits_def' large pos, List.length_cons] at room enough
    rw [Nat.digits_def' large pos, signedDigitLoop, if_neg (by omega)]
    have small := Nat.mod_lt m (Nat.lt_trans Nat.zero_lt_one large)
    have mod : (m : Int).tmod b = (m % b : Nat) := rfl
    have div : (m : Int).tdiv b = (m / b : Nat) := rfl
    have character : digitAt around (m % b : Nat) = digitCharacter (m % b) :=
      if_pos ⟨by omega, by omega⟩
    have digit' : ∀ index ∈ read ++ [((m % b : Nat) : Int)], 0 ≤ index ∧ index < b := by
      intro index mem
      rcases List.mem_append.mp mem with mem | mem
      · exact digit index mem
      · rw [List.mem_singleton.mp mem]
        omega
    dsimp only
    rw [mod, div, character]
    split
    · next zero =>
      have nought : m / b = 0 := by exact_mod_cast zero
      rw [nought, Nat.digits_zero, written_single]
      exact ⟨_, rfl, digit'⟩
    · next more =>
      have pos' : 0 < m / b := Nat.pos_of_ne_zero fun zero => more (by rw [zero]; rfl)
      have shorter : 0 < (Nat.digits b (m / b)).length := by
        rw [Nat.digits_def' large pos']
        exact Nat.succ_pos _
      obtain ⟨k, more'⟩ : ∃ k, i.toNat = k + 1 := ⟨i.toNat - 1, by omega⟩
      have next : (i - 1).toNat = k := by
        rw [BitVec.toNat_sub, show (1 : BitVec 8).toNat = 1 from rfl]
        omega
      obtain ⟨read', run, all⟩ := ih pos' (by rw [next]; omega) (by omega) digit'
      rw [run, next, more', written_cons]
      exact ⟨read', rfl, all⟩

/-- The first digit of a negative value is read before the alphabet. -/
theorem signedDigitLoop_neg {around : Int → BitVec 8} {low : Nat} {tmp : Int} (large : 1 < b)
    (neg : tmp < 0) {i : BitVec 8} {read : List Int}
    (room : (Nat.digits b tmp.natAbs).length + low ≤ i.toNat + 1) {r : Buffer × List Int}
    (run : signedDigitLoop around b low rounds i tmp str read = some r) :
    ∃ index ∈ r.2, index < 0 := by
  -- Division is towards zero: the value keeps its sign until it is zero, and the last index is
  -- negative.
  induction rounds generalizing tmp i str read with
  | zero => cases run
  | succ rounds ih =>
    have pos := Int.natAbs_pos.mpr (Int.ne_of_lt neg)
    rw [Nat.digits_def' large pos, List.length_cons, ← natAbs_div] at room
    rw [signedDigitLoop, if_neg (by omega)] at run
    dsimp only at run
    split at run
    · next zero =>
      obtain rfl := Option.some.inj run
      refine ⟨tmp.tmod b, by simp, ?_⟩
      have whole := Int.tmod_add_mul_tdiv tmp b
      rw [zero, Int.mul_zero, Int.add_zero] at whole
      rw [whole]
      exact neg
    · next more =>
      have neg' : tmp.tdiv b < 0 := by
        have le : tmp.tdiv b ≤ 0 := by
          have ge := Int.tdiv_nonneg (Int.neg_nonneg_of_nonpos neg.le) (Int.natCast_nonneg b)
          rw [Int.neg_tdiv] at ge
          omega
        omega
      have shorter : 0 < (Nat.digits b (tmp.tdiv b).natAbs).length := by
        rw [Nat.digits_def' large (Int.natAbs_pos.mpr more)]
        exact Nat.succ_pos _
      have next : (i - 1).toNat = i.toNat - 1 := by
        rw [BitVec.toNat_sub, show (1 : BitVec 8).toNat = 1 from rfl]
        omega
      exact ih neg' (by rw [next]; omega) run

/-- The sign and the digits of a value. -/
def signedText (base : Nat) (value : BitVec 64) : List (BitVec 8) :=
  (if value.toInt < 0 then [0x2D] else []) ++ textOf base value.toInt.natAbs

/-- A magnitude is a word. -/
theorem magnitude_lt (value : BitVec 64) : value.toInt.natAbs < 2 ^ 64 := by
  have low := BitVec.le_toInt value
  have high := BitVec.toInt_lt (x := value)
  omega

/-- The digits of a magnitude fit the table. -/
theorem length_magnitude {b : Nat} (low : minDigitBase ≤ b) (high : b ≤ maxDigitBase)
    (value : BitVec 64) :
    (Nat.digits b value.toInt.natAbs).length ≤ baseMaxDigitMap.getD b 0 := by
  have fits := digits_length_le low high (BitVec.ofNat 64 value.toInt.natAbs)
  rwa [BitVec.toNat_ofNat, Nat.mod_eq_of_lt (magnitude_lt value)] at fits

/-- Negation gives the magnitude, of all values but the least. -/
theorem neg_toInt {value : BitVec 64} (neg : value.toInt < 0) (ne : value ≠ BitVec.intMin 64) :
    (-value).toInt = value.toInt.natAbs := by
  rw [BitVec.toInt_neg_of_ne_intMin ne]
  omega

/-- The magnitude that `itoa` writes. -/
theorem magnitude_eq {value : BitVec 64} (ne : value ≠ BitVec.intMin 64) :
    (if value.toInt < 0 then -value else value).toInt = value.toInt.natAbs := by
  split
  · next neg => exact neg_toInt neg ne
  · next pos => omega

/-- What `itoa` writes, in cleared bytes. -/
theorem itoa_eq {base : BitVec 8} (low : minDigitBase ≤ base.toNat)
    (high : base.toNat ≤ maxDigitBase) {value : BitVec 64} (ne : value ≠ BitVec.intMin 64)
    (around : Int → BitVec 8) (str : Buffer) :
    ∃ read, itoa around value str base = some (true, put (signedText base.toNat value)
      (clear str (baseMaxDigitMap.getD base.toNat 0 + 1)), read) ∧
        ∀ index ∈ read, 0 ≤ index ∧ index < base.toNat := by
  have digits_max := baseMaxDigitMap_range low high
  have fits := length_magnitude low high value
  set n := baseMaxDigitMap.getD base.toNat 0 with def_n
  have whole := magnitude_eq ne
  unfold itoa
  rw [if_neg (by omega), ← def_n]
  dsimp only
  rw [whole]
  split
  · next zero =>
    rw [zero]
    exact ⟨[], by rw [put_single]; rfl, List.forall_mem_nil _⟩
  · next some =>
    have pos : value.toInt.natAbs ≠ 0 := by
      intro zero
      apply some
      apply BitVec.eq_of_toInt_eq
      simpa using zero
    have nonempty : Nat.digits base.toNat value.toInt.natAbs ≠ [] :=
      Nat.digits_ne_nil_iff_ne_zero.mpr pos
    have length := List.length_pos_of_ne_nil nonempty
    have count : signedCountLoop base.toNat n (value.toInt.natAbs : Int) =
        n + 1 - (Nat.digits base.toNat value.toInt.natAbs).length := by
      rw [signedCountLoop_eq low (by omega) (by rwa [Int.natAbs_natCast]), Int.natAbs_natCast]
    rw [count]
    have text : textOf base.toNat value.toInt.natAbs =
        (Nat.digits base.toNat value.toInt.natAbs).reverse.map digitCharacter := by
      rw [textOf, digits, if_neg pos]
    by_cases neg : value.toInt < 0
    · have place : (BitVec.ofNat 8 (n + 1 -
          (n + 1 - (Nat.digits base.toNat value.toInt.natAbs).length))).toNat =
            (Nat.digits base.toNat value.toInt.natAbs).length := by
        rw [BitVec.toNat_ofNat]
        omega
      rw [if_pos neg, if_pos neg]
      obtain ⟨read, run, digit⟩ := @signedDigitLoop_pos base.toNat 64 (clear str (n + 1)) around 1
        value.toInt.natAbs low high (Nat.pos_of_ne_zero pos) (BitVec.ofNat 8 (n + 1 -
          (n + 1 - (Nat.digits base.toNat value.toInt.natAbs).length))) [] (by rw [place])
        (by omega) (List.forall_mem_nil _)
      refine ⟨read, ?_, digit⟩
      rw [run, place, Option.map_some, update_written_put, signedText, if_pos neg, text]
      rfl
    · have place : (BitVec.ofNat 8 (n -
          (n + 1 - (Nat.digits base.toNat value.toInt.natAbs).length))).toNat =
            (Nat.digits base.toNat value.toInt.natAbs).length - 1 := by
        rw [BitVec.toNat_ofNat]
        omega
      rw [if_neg neg, if_neg neg]
      obtain ⟨read, run, digit⟩ := @signedDigitLoop_pos base.toNat 64 (clear str (n + 1)) around 0
        value.toInt.natAbs low high (Nat.pos_of_ne_zero pos) (BitVec.ofNat 8 (n -
          (n + 1 - (Nat.digits base.toNat value.toInt.natAbs).length))) [] (by rw [place]; omega)
        (by omega) (List.forall_mem_nil _)
      refine ⟨read, ?_, digit⟩
      rw [run, place, Option.map_some, written_put nonempty, signedText, if_neg neg, text]
      rfl

/-- The text reads back as the value. -/
theorem readSigned_signedText {b : Nat} (low : minDigitBase ≤ b) (high : b ≤ maxDigitBase)
    (value : BitVec 64) : readSigned b (signedText b value) = value.toInt := by
  have numeral := textOf_numeral low high value.toInt.natAbs
  unfold signedText
  split
  · next neg =>
    rw [List.singleton_append, readSigned, if_pos rfl, numeral.value]
    omega
  · next pos =>
    obtain ⟨c, text, eq⟩ := List.exists_cons_of_ne_nil numeral.nonempty
    have digit : c ≠ 0x2D := by
      obtain ⟨d, lt, rfl⟩ := (mem_alphabet high).mp
        (numeral.digits c (by rw [eq]; exact List.mem_cons_self ..))
      have all : ∀ d < 16, digitCharacter d ≠ 0x2D := by decide
      exact all d (Nat.lt_of_lt_of_le lt high)
    have value' := numeral.value
    rw [eq] at value' ⊢
    rw [List.nil_append, readSigned, if_neg digit, value']
    omega

/-- No character of it is a NUL. -/
theorem signedText_full {b : Nat} (low : minDigitBase ≤ b) (high : b ≤ maxDigitBase)
    (value : BitVec 64) : ∀ c ∈ signedText b value, c ≠ 0 := by
  intro c mem
  rcases List.mem_append.mp mem with sign | digit
  · split at sign
    · rw [List.mem_singleton.mp sign]
      decide
    · cases sign
  · exact textOf_full low high _ c digit

/-- The least value stays negative, and `itoa` reads before its alphabet. -/
theorem itoa_intMin {base : BitVec 8} (low : minDigitBase ≤ base.toNat)
    (high : base.toNat ≤ maxDigitBase) {around : Int → BitVec 8} {written : Buffer}
    {read : List Int}
    (run : itoa around (BitVec.intMin 64) str base = some (true, written, read)) :
    ∃ index ∈ read, index < 0 := by
  have digits_max := baseMaxDigitMap_range low high
  have fits := length_magnitude low high (BitVec.intMin 64)
  set n := baseMaxDigitMap.getD base.toNat 0 with def_n
  have neg : (BitVec.intMin 64).toInt < 0 := by decide
  have same : -BitVec.intMin 64 = BitVec.intMin 64 := by decide
  unfold itoa at run
  rw [if_neg (by omega), ← def_n] at run
  dsimp only at run
  rw [if_neg (show BitVec.intMin 64 ≠ 0 by decide), if_pos neg, if_pos neg, if_pos neg, same,
    signedCountLoop_eq low (Int.ne_of_lt neg) fits] at run
  obtain ⟨⟨bytes, places⟩, loop, whole⟩ := Option.map_eq_some_iff.mp run
  obtain ⟨rfl, rfl⟩ := Prod.mk.inj (Prod.mk.inj whole).2
  refine signedDigitLoop_neg low neg ?_ loop
  rw [BitVec.toNat_ofNat]
  omega

section
variable {base : BitVec 8} {around : Int → BitVec 8} {value : BitVec 64}

/-- The least value is not rendered. -/
theorem Renders.ne_intMin (h : Renders around value str base) (low : minDigitBase ≤ base.toNat)
    (high : base.toNat ≤ maxDigitBase) : value ≠ BitVec.intMin 64 := by
  rintro rfl
  obtain ⟨written, read, ds, run, -, -, -, digit⟩ := h
  obtain ⟨index, mem, before⟩ := itoa_intMin low high run
  have inside := (digit index mem).1
  omega

/-- A negative number is one character longer. -/
theorem length_signedText (neg : value.toInt < 0) :
    (signedText b value).length = (Nat.digits b value.toInt.natAbs).length + 1 := by
  rw [signedText, if_pos neg, List.singleton_append, List.length_cons, textOf, List.length_map,
    length_digits _ _ (by omega)]

/-- The magnitudes that have all the digits of the table. -/
theorem magnitude_full (low : minDigitBase ≤ base.toNat) (high : base.toNat ≤ maxDigitBase) :
    base.toNat ^ (baseMaxDigitMap.getD base.toNat 0 - 1) ≤ value.toInt.natAbs ↔
      (Nat.digits base.toNat value.toInt.natAbs).length = baseMaxDigitMap.getD base.toNat 0 := by
  have fits := length_magnitude low high value
  have digits_max := baseMaxDigitMap_range low high
  rw [← Nat.not_lt, ← Nat.digits_length_le_iff low]
  omega

/-- Behind all the digits of a negative number the byte was a NUL before. -/
theorem Renders.nul (h : Renders around value str base) (low : minDigitBase ≤ base.toNat)
    (high : base.toNat ≤ maxDigitBase) (neg : value.toInt < 0)
    (all : base.toNat ^ (baseMaxDigitMap.getD base.toNat 0 - 1) ≤ value.toInt.natAbs) :
    str (baseMaxDigitMap.getD base.toNat 0 + 1) = 0 := by
  have ne := h.ne_intMin low high
  obtain ⟨written, read, ds, run, string, numeral, -, -⟩ := h
  obtain ⟨read', run', -⟩ := itoa_eq low high ne around str
  rw [run'] at run
  obtain ⟨rfl, -⟩ := Prod.mk.inj (Prod.mk.inj (Option.some.inj run)).2
  rw [numeral.eq_textOf low high] at string
  have last := string.nul
  have same : (signedText base.toNat value).length = baseMaxDigitMap.getD base.toNat 0 + 1 := by
    rw [length_signedText neg, (magnitude_full low high).mp all]
  rwa [← signedText, put_behind (Nat.le_refl _), same, clear_behind str (Nat.le_refl _)] at last

end

/-- `itoa` renders every value but the least, in any bytes, if the byte behind the cleared ones is a
NUL where a negative number has all the digits of the table. -/
theorem itoa_renders_iff {base : BitVec 8} (low : minDigitBase ≤ base.toNat)
    (high : base.toNat ≤ maxDigitBase) (around : Int → BitVec 8) (value : BitVec 64)
    (str : Buffer) : Renders around value str base ↔ value ≠ BitVec.intMin 64 ∧
      (value.toInt < 0 →
        base.toNat ^ (baseMaxDigitMap.getD base.toNat 0 - 1) ≤ value.toInt.natAbs →
        str (baseMaxDigitMap.getD base.toNat 0 + 1) = 0) := by
  constructor
  · exact fun renders => ⟨renders.ne_intMin low high, renders.nul low high⟩
  · rintro ⟨ne, nul⟩
    have fits := length_magnitude low high value
    obtain ⟨read, run, digit⟩ := itoa_eq low high ne around str
    refine ⟨_, read, _, run, put_isString (signedText_full low high value) ?_,
      textOf_numeral low high _, readSigned_signedText low high value, digit⟩
    by_cases neg : value.toInt < 0
    · rw [length_signedText neg]
      by_cases all : base.toNat ^ (baseMaxDigitMap.getD base.toNat 0 - 1) ≤ value.toInt.natAbs
      · rw [(magnitude_full low high).mp all, clear_behind str (Nat.le_refl _)]
        exact nul neg all
      · rw [magnitude_full low high] at all
        exact clear_inside str (by omega)
    · have short := length_textOf low high (BitVec.ofNat 64 value.toInt.natAbs)
      rw [BitVec.toNat_ofNat, Nat.mod_eq_of_lt (magnitude_lt value)] at short
      apply clear_inside
      rw [signedText, if_neg neg, List.nil_append]
      exact Nat.lt_succ_of_le short

/-- Two digits and a sign. -/
theorem itoa_renders_small : Renders (fun _ => 0) (-42) (fun _ => 0x55) 10 :=
  (itoa_renders_iff (by decide) (by decide) _ _ _).mpr
    ⟨by decide, fun _ all => absurd all (by decide)⟩

/-- Sixteen digits and a sign take the place of the NUL. -/
theorem itoa_unterminated : ¬ Renders (fun _ => 0) (-0x1000000000000000) (fun _ => 0x55) 16 := by
  intro renders
  have nul := renders.nul (by decide) (by decide) (by decide) (by decide)
  cases nul

end

end Skylight.Conv
