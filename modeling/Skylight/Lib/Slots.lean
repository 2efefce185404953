import Mathlib.Data.List.Nodup
import Mathlib.Data.Set.Basic
import Mathlib.Logic.Function.Basic

/-!
# Slots taken and given back

A table says of every slot whether it is used. `Slots reserved used held` is what it says where
some slots are reserved from the start and the others are used just while they are held. A free slot
may be taken, and a held one given back; when no slot is free, all but the reserved ones are held.

`take` and `give` are the two steps and `full` is what an allocator that finds no free slot may
conclude. Which free slot is taken, and how it is found, is left to the program.
-/

namespace Skylight

variable {A : Type*}

/-- The used slots are the reserved ones and those held, each once. -/
structure Slots (reserved : Set A) (used : A → Bool) (held : List A) : Prop where
  used_iff : ∀ a, used a = true ↔ a ∈ reserved ∨ a ∈ held
  nodup : held.Nodup
  apart : ∀ a ∈ held, a ∉ reserved

namespace Slots

variable {reserved : Set A} {used : A → Bool} {held : List A} {a : A}

/-- A free slot is neither reserved nor held. -/
theorem not_of_free (h : Slots reserved used held) (free : used a = false) :
    a ∉ reserved ∧ a ∉ held := by
  rw [← not_or, ← h.used_iff, free]
  decide

/-- With no free slot all are held. -/
theorem full (h : Slots reserved used held) (none : ∀ a, used a = true) (a : A)
    (other : a ∉ reserved) : a ∈ held :=
  ((h.used_iff a).mp (none a)).resolve_left other

/-- The order of the held slots does not matter. -/
theorem perm {held' : List A} (h : Slots reserved used held) (p : held'.Perm held) :
    Slots reserved used held' where
  used_iff a := (h.used_iff a).trans (or_congr_right p.mem_iff.symm)
  nodup := p.symm.nodup h.nodup
  apart a mem := h.apart a (p.mem_iff.mp mem)

variable [DecidableEq A]

/-- A free slot is taken: it was nobody's, so nothing is held twice. -/
theorem take (h : Slots reserved used held) (free : used a = false) :
    Slots reserved (Function.update used a true) (a :: held) where
  used_iff b := by
    by_cases same : b = a
    · subst same
      simp
    · rw [Function.update_of_ne same, h.used_iff, List.mem_cons, or_iff_right same]
  nodup := List.nodup_cons.mpr ⟨(h.not_of_free free).2, h.nodup⟩
  apart := List.forall_mem_cons.mpr ⟨(h.not_of_free free).1, h.apart⟩

/-- A held slot is given back: it is not reserved and was held once, so it is free. -/
theorem give (h : Slots reserved used held) (mem : a ∈ held) :
    Slots reserved (Function.update used a false) (held.erase a) where
  used_iff b := by
    by_cases same : b = a
    · subst same
      simp [h.nodup.not_mem_erase, h.apart b mem]
    · rw [Function.update_of_ne same, h.used_iff, List.mem_erase_of_ne same]
  nodup := h.nodup.erase a
  apart b mem' := h.apart b (List.mem_of_mem_erase mem')

end Slots

end Skylight
