import Mathlib.Data.Fintype.Card
import Mathlib.Data.Set.Basic
import Mathlib.Logic.Function.Basic

/-!
# Slots and their owners

A table says of every slot whether it is used, and every owner names a slot. `Owned reserved used
owner` says that the used slots are the reserved ones and those that somebody names, each by one
owner; who names a reserved slot has none. With as many owners as there are, few slots are used.

`take` and `give` are the steps, each for one owner; `card_lt` bounds the slots in use by the number
of owners, which is how a table that is larger than that is seen never to be full. An owner has one
slot at most; holders of several are in `Lib.Slots`.
-/

namespace Skylight

variable {A D : Type*}

/-- The used slots are the reserved ones and those of the owners. -/
structure Owned (reserved : Set A) (used : A → Bool) (owner : D → A) : Prop where
  used_iff : ∀ a, used a = true ↔ a ∈ reserved ∨ ∃ d, owner d = a
  apart : ∀ c d, owner c = owner d → owner c ∉ reserved → c = d

namespace Owned

variable {reserved : Set A} {used : A → Bool} {owner : D → A} {a z : A} {c d : D}

/-- Nobody has a free slot. -/
theorem not_of_free (h : Owned reserved used owner) (free : used a = false) :
    a ∉ reserved ∧ ∀ d, owner d ≠ a := by
  have unused : ¬ used a = true := by
    rw [free]
    decide
  rw [h.used_iff, not_or, not_exists] at unused
  exact unused

variable [DecidableEq A] [DecidableEq D]

/-- Somebody without a slot takes a free one. -/
theorem take (h : Owned reserved used owner) (free : used a = false) (none : owner d ∈ reserved) :
    Owned reserved (Function.update used a true) (Function.update owner d a) where
  used_iff b := by
    by_cases same : b = a
    · subst same
      rw [Function.update_self]
      exact iff_of_true rfl (Or.inr ⟨d, Function.update_self ..⟩)
    rw [Function.update_of_ne same, h.used_iff]
    refine or_congr_right' fun open' => ⟨?_, ?_⟩
    · rintro ⟨c, rfl⟩
      have other : c ≠ d := fun same => open' (same ▸ none)
      exact ⟨c, Function.update_of_ne other ..⟩
    · rintro ⟨c, at_⟩
      have other : c ≠ d := by
        rintro rfl
        exact same (at_.symm.trans (Function.update_self ..))
      exact ⟨c, (Function.update_of_ne other ..).symm.trans at_⟩
  apart b c same open' := by
    have others := (h.not_of_free free).2
    by_cases mine : b = d
    · subst mine
      by_contra other
      rw [Function.update_self, Function.update_of_ne (Ne.symm other)] at same
      exact others c same.symm
    by_cases mine' : c = d
    · subst mine'
      rw [Function.update_of_ne mine, Function.update_self] at same
      exact absurd same (others b)
    rw [Function.update_of_ne mine, Function.update_of_ne mine'] at same
    rw [Function.update_of_ne mine] at open'
    exact h.apart b c same open'

/-- Somebody gives a slot back. -/
theorem give (h : Owned reserved used owner) (open' : owner d ∉ reserved) (none : z ∈ reserved) :
    Owned reserved (Function.update used (owner d) false) (Function.update owner d z) where
  used_iff b := by
    by_cases same : b = owner d
    · subst same
      rw [Function.update_self]
      refine iff_of_false (by decide) ?_
      rintro (low | ⟨c, at_⟩)
      · exact open' low
      by_cases mine : c = d
      · subst mine
        rw [Function.update_self] at at_
        exact open' (at_ ▸ none)
      · rw [Function.update_of_ne mine] at at_
        exact mine (h.apart c d at_ (at_ ▸ open'))
    rw [Function.update_of_ne same, h.used_iff]
    refine or_congr_right' fun high => ⟨?_, ?_⟩
    · rintro ⟨c, rfl⟩
      have other : c ≠ d := fun mine => same (congrArg owner mine)
      exact ⟨c, Function.update_of_ne other ..⟩
    · rintro ⟨c, at_⟩
      have other : c ≠ d := by
        rintro rfl
        rw [Function.update_self] at at_
        exact high (at_ ▸ none)
      exact ⟨c, (Function.update_of_ne other ..).symm.trans at_⟩
  apart b c same high := by
    by_cases mine : b = d
    · subst mine
      rw [Function.update_self] at high
      exact absurd none high
    rw [Function.update_of_ne mine] at same high
    by_cases mine' : c = d
    · subst mine'
      rw [Function.update_self] at same
      exact absurd none (same ▸ high)
    rw [Function.update_of_ne mine'] at same
    exact h.apart b c same high

/-- While somebody has no slot, fewer are used than there are owners. -/
theorem card_lt [Fintype D] (h : Owned reserved used owner) (none : owner d ∈ reserved)
    {t : Finset A} (all : ∀ a ∈ t, a ∉ reserved ∧ used a = true) : t.card < Fintype.card D := by
  have owners : t ⊆ (Finset.univ.erase d).image owner := by
    intro a mem
    obtain ⟨open', used'⟩ := all a mem
    obtain ⟨c, at_⟩ := ((h.used_iff a).mp used').resolve_left open'
    have other : c ≠ d := by
      rintro rfl
      exact open' (at_ ▸ none)
    exact Finset.mem_image.mpr ⟨c, Finset.mem_erase.mpr ⟨other, Finset.mem_univ c⟩, at_⟩
  calc t.card ≤ ((Finset.univ.erase d).image owner).card := Finset.card_le_card owners
    _ ≤ (Finset.univ.erase d).card := Finset.card_image_le
    _ < Finset.univ.card := Finset.card_erase_lt_of_mem (Finset.mem_univ d)

end Owned

end Skylight
