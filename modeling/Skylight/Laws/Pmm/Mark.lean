import Skylight.Laws.Pmm.Layout

/-!
# Marking one page of a section

The allocator, the freer and the locker all end in one of three edits of a section and
its neighbours: the seam to a neighbour moves by a page, the first page is split off and
given another kind, or a page from the middle is. Each edit is stated once here, on the
array, on the layout and on the pages.
-/

namespace Skylight.Pmm

open Chain RunLength

variable {s : State} {l₁ l₂ : List (Nat × Section)} {a b : Nat} {u v w : Section}

/-- The first page of a non-empty section is of the section's kind. -/
theorem typeAt_first {l₁ l₂ : List Section} (pos : v.pages ≠ 0) :
    typeAt (l₁ ++ v :: l₂) (pagesOf l₁) = some v.free := by
  simp only [typeAt, runs_append, runs_cons]
  exact valueAt_run le_rfl (by rw [pagesOf]; omega)

/-- A section that is not bad ends at an address. -/
theorem Layout.fin_lt_of_ne_bad {l₁ l₂ : List Section} (h : Layout (l₁ ++ v :: l₂))
    (hv : v.free ≠ .bad) : v.start + v.pages * pageSize < 2 ^ 64 := by
  obtain ⟨k, u, w, m, rfl, rfl⟩ := h.neighbours hv
  exact h.fin_lt.1

/-- The word operations on a section that is not bad do not wrap. -/
theorem Layout.words {l₁ l₂ : List Section} (h : Layout (l₁ ++ v :: l₂)) (hv : v.free ≠ .bad) :
    Word.add v.pages 1 = v.pages + 1 ∧
      (v.pages ≠ 0 → Word.sub v.pages 1 = v.pages - 1 ∧
        Word.add v.start pageSize = v.start + pageSize) ∧
      Word.add v.start (Word.mul v.pages pageSize) = v.start + v.pages * pageSize := by
  have fin := h.fin_lt_of_ne_bad hv
  have hp : v.pages + 1 < 2 ^ 64 := by simp only [pageSize] at fin; omega
  refine ⟨Word.add_eq hp, fun pos => ⟨Word.sub_eq (by omega) (by omega), Word.add_eq ?_⟩, ?_⟩
  · simp only [pageSize] at fin ⊢; omega
  · rw [Word.mul_eq (Nat.lt_of_le_of_lt (Nat.le_add_left ..) fin), Word.add_eq fin]

/-- What is left behind a page split off the front of `v`. -/
def restOf (v : Section) (n : Nat) : List (Nat × Section) :=
  if v.pages = 1 then [] else [(n, ⟨v.start + pageSize, v.pages - 1, v.free⟩)]

/-- A split behind the first page and a mark on it: one page changes. What may lie beyond the last
section of the list has no part in it. -/
theorem markFirst_yields {e : List Section} (h : Represents s (l₁ ++ (a, v) :: l₂))
    (lay : Layout (data l₁ ++ v :: (data l₂ ++ e))) (hv : v.free ≠ .bad) (pos : v.pages ≠ 0)
    (t : SectionType) :
    Yields (Lacks s (v.pages ≠ 1)) (fun s' => Has s (v.pages ≠ 1) ∧
        SameGlobals s (s'.setVal a { s'.sec a with free := t }) ∧
        ∃ n, Represents (s'.setVal a { s'.sec a with free := t })
            (l₁ ++ (a, ⟨v.start, 1, t⟩) :: (restOf v n ++ l₂)) ∧
          Layout (data (l₁ ++ (a, ⟨v.start, 1, t⟩) :: (restOf v n ++ l₂)) ++ e) ∧
          typeAt (data (l₁ ++ (a, ⟨v.start, 1, t⟩) :: (restOf v n ++ l₂)) ++ e) =
            Function.update (typeAt (data (l₁ ++ (a, v) :: l₂) ++ e)) (pagesOf (data l₁)) (some t))
      (pmmSectionSplit s a (Word.add v.start pageSize)) := by
  obtain ⟨ne₁, -⟩ := lay.ne_nil hv
  have two : 2 ≤ (l₁ ++ (a, v) :: l₂).length := by
    have := List.length_pos_iff.mpr (mt data_eq_nil.mpr ne₁)
    simp only [List.length_append, List.length_cons]
    omega
  obtain ⟨-, hw, hend⟩ := lay.words hv
  rw [(hw pos).2]
  by_cases one : v.pages = 1
  · have hv₁ : (⟨v.start, 1, v.free⟩ : Section) = v := by rw [← one]
    rw [pmmSectionSplit_end h (by rw [hend, one, Nat.one_mul])]
    obtain ⟨lay', types⟩ := lay.retag hv one t
    refine ⟨fun ne => absurd one ne, sameGlobals_setVal .., 0, ?_, ?_, ?_⟩ <;>
      rw [restOf, if_pos one, List.nil_append]
    · rw [h.sec_eq, ← one]
      exact h.setVal _
    · rw [← one]
      simpa using lay'
    · rw [← one]
      simpa using types
  · have lt : 1 < v.pages := by omega
    have hsplit := pmmSectionSplit_yields h two (lay.fin_lt_of_ne_bad hv) lt
    rw [Nat.one_mul] at hsplit
    refine (hsplit.weaken fun f hf => ⟨hf.1, one, hf.2.2⟩).imp fun s' ⟨has, same, n, hr⟩ => ?_
    obtain ⟨lay', types⟩ := lay.split hv one_pos lt
    obtain ⟨lay'', types'⟩ := lay'.retag hv rfl t
    refine ⟨fun _ => has trivial, same.trans (sameGlobals_setVal ..), n, ?_, ?_, ?_⟩ <;>
      rw [restOf, if_neg one, List.singleton_append]
    · rw [hr.sec_eq]
      exact hr.setVal _
    · simpa using lay''
    · rw [types] at types'
      simpa using types'

end Skylight.Pmm
