import Mathlib.Data.List.Basic

/-!
# Numbers in a field

A field of a width holds a sign and digits. What fills it are blanks on one of its sides, or zeros
between the two. A text that is padded as a whole, on one side and with one character, is that field
only where sign and zeros do not meet.

`pad_eq_field_iff` says exactly when such a padding is the field, and `pad_blank_eq_field_iff` the
same for a text with a blank before its digits. Characters are of any type. Blank and zero have to
differ, the sign may not hold a zero, and where a blank stands for the sign the digits may not hold
a blank.
-/

namespace Skylight.Justify

variable {α : Type*} {blank zero a : α} {left zeros : Bool} {width : Int}
  {sign digits text : List α}

/-- Sign and digits in a field. A negative width stands for the left side. -/
def field (blank zero : α) (left zeros : Bool) (width : Int) (sign digits : List α) : List α :=
  let fill := width.natAbs - (sign ++ digits).length
  if left ∨ width < 0 then sign ++ digits ++ List.replicate fill blank
  else if zeros then sign ++ (List.replicate fill zero ++ digits)
  else List.replicate fill blank ++ (sign ++ digits)

/-- A text that is padded as a whole. -/
def pad (blank zero : α) (left zeros : Bool) (width : Int) (text : List α) : List α :=
  let fill := (width - text.length).toNat
  if left then text ++ List.replicate fill (if zeros then zero else blank)
  else List.replicate fill (if zeros then zero else blank) ++ text

/-- Padding loses no character of the text. -/
theorem mem_pad (mem : a ∈ text) : a ∈ pad blank zero left zeros width text := by
  rw [pad]
  split
  · exact List.mem_append_left _ mem
  · exact List.mem_append_right _ mem

/-- What is in a padded text is its filling or was in the text. -/
theorem of_mem_pad (mem : a ∈ pad blank zero left zeros width text) :
    a = blank ∨ a = zero ∨ a ∈ text := by
  rw [pad] at mem
  split_ifs at mem
  all_goals
    simp only [List.mem_append, List.mem_replicate] at mem
    tauto

/-- Nothing else is in a field. -/
theorem mem_field (mem : a ∈ field blank zero left zeros width sign digits) :
    a = blank ∨ a = zero ∨ a ∈ sign ∨ a ∈ digits := by
  rw [field] at mem
  split_ifs at mem
  all_goals
    simp only [List.mem_append, List.mem_replicate] at mem
    tauto

/-- A field is as long as its width, or as what it holds where that is longer. -/
theorem length_field : (field blank zero left zeros width sign digits).length =
    max width.natAbs (sign ++ digits).length := by
  rw [field]
  split_ifs
  all_goals
    simp only [List.length_append, List.length_replicate]
    omega

/-- So is a padded text, but a negative width pads nothing. -/
theorem length_pad : (pad blank zero left zeros width text).length =
    max width.toNat text.length := by
  rw [pad]
  split
  all_goals
    simp only [List.length_append, List.length_replicate]
    omega

/-- A field that is not wider than what it holds. -/
theorem field_narrow (narrow : width.natAbs ≤ (sign ++ digits).length) :
    field blank zero left zeros width sign digits = sign ++ digits := by
  rw [field, Nat.sub_eq_zero_of_le narrow]
  simp only [List.replicate_zero, List.append_nil, List.nil_append, ite_self]

/-- A text that fills its width is not padded. -/
theorem pad_narrow (narrow : width ≤ text.length) :
    pad blank zero left zeros width text = text := by
  rw [pad, Int.toNat_of_nonpos (by omega)]
  simp only [List.replicate_zero, List.append_nil, List.nil_append, ite_self]

/-- With its own sign a padded number is the field, unless zeros stand where they may not. -/
theorem pad_eq_field_iff (other : blank ≠ zero) (natural : zero ∉ sign) :
    pad blank zero left zeros width (sign ++ digits) =
        field blank zero left zeros width sign digits ↔
      ((sign ++ digits).length < width.natAbs →
        0 ≤ width ∧ (zeros = true → left = false ∧ sign = [])) := by
  rcases Nat.lt_or_ge (sign ++ digits).length width.natAbs with wide | narrow
  · rw [imp_iff_right wide]
    rcases Int.lt_or_le width 0 with negative | positive
    · refine iff_of_false (fun same => ?_) fun both => by omega
      have length := congrArg List.length same
      rw [length_pad, length_field] at length
      omega
    · obtain ⟨n, fill⟩ := Nat.exists_eq_add_of_lt wide
      have left_fill : width.natAbs - (sign ++ digits).length = n + 1 := by omega
      have pad_fill : (width - ((sign ++ digits).length : Nat)).toNat = n + 1 := by omega
      rw [pad, field]
      rw [left_fill, pad_fill, and_iff_right positive]
      have right : ¬ (false = true ∨ width < 0) := by
        rw [not_or]
        exact ⟨Bool.false_ne_true, by omega⟩
      cases left <;> cases zeros
      case true.true =>
        refine iff_of_false (fun same => ?_) fun both => by cases (both rfl).1
        rw [if_pos rfl, if_pos rfl, if_pos (Or.inl rfl)] at same
        have filled := List.append_cancel_left same
        rw [List.replicate_succ, List.replicate_succ] at filled
        exact other (List.cons.inj filled).1.symm
      case true.false =>
        rw [if_pos rfl, if_neg Bool.false_ne_true, if_pos (Or.inl rfl)]
        exact iff_of_true rfl fun no => absurd no Bool.false_ne_true
      case false.false =>
        rw [if_neg Bool.false_ne_true, if_neg Bool.false_ne_true, if_neg right,
          if_neg Bool.false_ne_true]
        exact iff_of_true rfl fun no => absurd no Bool.false_ne_true
      case false.true =>
        rw [if_neg Bool.false_ne_true, if_pos rfl, if_neg right, if_pos rfl]
        constructor
        · intro same _
          refine ⟨rfl, ?_⟩
          cases sign with
          | nil => rfl
          | cons s sign =>
            rw [List.replicate_succ] at same
            exact absurd ((List.cons.inj same).1 ▸ List.mem_cons_self ..) natural
        · intro both
          rw [(both rfl).2]
          rfl
  · rw [pad_narrow (by omega), field_narrow narrow]
    exact iff_of_true rfl fun wide => by omega

/-- A blank for a sign that is none disappears among blanks only. -/
theorem pad_blank_eq_field_iff (other : blank ≠ zero) (some' : digits ≠ [])
    (solid : blank ∉ digits) :
    pad blank zero left zeros width (blank :: digits) =
        field blank zero left zeros width [] digits ↔
      left = false ∧ zeros = false ∧ (digits.length : Int) < width := by
  obtain ⟨d, ds, rfl⟩ := List.exists_cons_of_ne_nil some'
  constructor
  · intro same
    have right : ¬ (left = true ∨ width < 0) := by
      intro either
      have first : ∃ t, pad blank zero left zeros width (blank :: d :: ds) = blank :: t := by
        rcases either with rfl | negative
        · rw [pad, if_pos rfl]
          exact ⟨_, rfl⟩
        · rw [pad_narrow (by omega)]
          exact ⟨_, rfl⟩
      obtain ⟨t, first⟩ := first
      rw [first, field, if_pos either] at same
      exact solid ((List.cons.inj same).1 ▸ List.mem_cons_self ..)
    have blanks : zeros = false := by
      cases zeros with
      | false => rfl
      | true =>
        have mem : blank ∈ pad blank zero left true width (blank :: d :: ds) :=
          mem_pad (List.mem_cons_self ..)
        rw [same, field, if_neg right, if_pos rfl, List.nil_append, List.mem_append,
          List.mem_replicate] at mem
        rcases mem with ⟨-, mem⟩ | mem
        · exact absurd mem other
        · exact absurd mem solid
    have length := congrArg List.length same
    rw [length_pad, length_field, List.nil_append, List.length_cons] at length
    rw [not_or, Bool.not_eq_true] at right
    exact ⟨right.1, blanks, by omega⟩
  · rintro ⟨rfl, rfl, wide⟩
    obtain ⟨n, fill⟩ := Nat.exists_eq_add_of_lt (show (d :: ds).length < width.natAbs by omega)
    have pad_fill : (width - ((blank :: d :: ds).length : Nat)).toNat = n := by
      simp only [List.length_cons] at fill ⊢
      omega
    have field_fill : width.natAbs - ([] ++ d :: ds).length = n + 1 := by
      rw [List.nil_append]
      omega
    have right : ¬ (false = true ∨ width < 0) := by
      rw [not_or]
      exact ⟨Bool.false_ne_true, by omega⟩
    rw [pad, field, pad_fill, field_fill, if_neg right]
    simp only [Bool.false_eq_true, if_false, List.nil_append]
    rw [List.replicate_succ', List.append_assoc]
    rfl

end Skylight.Justify
