import Skylight.Laws.Pmm.Mark

/-!
# Allocating one page

What `pmm_alloc_page` does to the pages a section list stands for: it hands out a free
page and marks it used, and it answers `NULL` only when no page is free. No link is
followed that is null. The walk is proved section by section: the sections passed are
not free, the empty ones among them are gone.

`pmmAllocPage_yields` is what the other modules use. The section that the walk may need and
cannot get (`OutOfSections`) is the only failure left; when it does happen is the subject of
`Laws.Pmm.Room` and `Laws.Pmm.Reuse`.
-/

namespace Skylight.Pmm

open Chain RunLength

/-- What the walk of `pmm_alloc_page` leaves of a list, `e` lying beyond it, and answers. -/
def Allocates (e : List Section) (s : State) (l : List (Nat × Section)) (r : Nat × State) : Prop :=
  SameGlobals s r.2 ∧ ∃ l', Represents r.2 l' ∧ Layout (data l' ++ e) ∧
    (FreeApart (data l ++ e) → FreeApart (data l' ++ e)) ∧
    ((r.1 = 0 ∧ typeAt (data l' ++ e) = typeAt (data l ++ e) ∧
        ∀ k, typeAt (data l ++ e) k ≠ some .free) ∨
      ∃ k, 0 < k ∧ r.1 = k * pageSize ∧ typeAt (data l ++ e) k = some .free ∧
        typeAt (data l' ++ e) = Function.update (typeAt (data l ++ e)) k (some .used))

/-- A page was free, and there was no section for the pages behind it. -/
def NoRest (l : List Section) (f : Fault) : Prop :=
  OutOfSections f ∧ ∃ k, typeAt l k = some .free

/-- The walk of `pmm_alloc_page` finds a page before it comes to an empty last section. -/
def Spares (l : List Section) : Prop :=
  (∃ v ∈ l, v.free = .free ∧ v.pages ≠ 0) ∨ ∀ v, l.getLast? = some v → v.pages ≠ 0

/-- Before bad memory the walk finds a page or comes to the end, and looks at no link behind it.
-/
theorem Layout.spares {l : List Section} (h : Layout l) : Spares l := by
  obtain ⟨y, l', rfl, bad⟩ := h.last
  refine Or.inr fun v last none => ?_
  rw [List.getLast?_concat, Option.some.injEq] at last
  have free := h.empty v (by simp [last]) none
  rw [← last, bad] at free
  cases free

/-- A section that is passed has no part in it. -/
theorem Spares.tail {v : Section} {l : List Section} (h : Spares (v :: l))
    (passed : ¬ (v.free = .free ∧ v.pages ≠ 0)) : Spares l := by
  rcases h with ⟨w, mem, some⟩ | last
  · rcases List.mem_cons.mp mem with rfl | mem
    · exact absurd some passed
    · exact Or.inl ⟨w, mem, some⟩
  · refine Or.inr fun w here => last w ?_
    cases l with
    | nil => cases here
    | cons x l => exact here

/-- A list of sections that are not free has no free page. -/
theorem typeAt_ne_free {l : List Section} (h : ∀ v ∈ l, v.free ≠ .free) (k : Nat) :
    typeAt l k ≠ some .free := by
  intro hk
  obtain ⟨l₁, n, l₂, hl, -, -⟩ := exists_run hk
  have : (n, SectionType.free) ∈ runs l := by rw [hl]; simp
  obtain ⟨v, hv, e⟩ := List.mem_map.mp this
  exact h v hv (congrArg Prod.snd e)

section
variable {e : List Section}

/-- A list that shows the same pages allocates the same. -/
theorem Allocates.of_same {s s' : State} {l l' : List (Nat × Section)} {r : Nat × State}
    (h : Allocates e s' l' r) (same : SameGlobals s s')
    (types : typeAt (data l' ++ e) = typeAt (data l ++ e))
    (apart : FreeApart (data l ++ e) → FreeApart (data l' ++ e)) : Allocates e s l r := by
  obtain ⟨hg, l'', hr, hl, ha, ht⟩ := h
  rw [types] at ht
  exact ⟨same.trans hg, l'', hr, hl, fun fa => ha (apart fa), ht⟩

variable {s : State} {k m : List (Nat × Section)} {p a b : Nat} {u v w : Section}

/-- The page of a free section that follows a used one goes to the used one. -/
theorem allocates_grow (h : Represents s (k ++ (p, u) :: (a, v) :: m))
    (lay : Layout (data k ++ u :: v :: (data m ++ e))) (free : v.free = .free)
    (pos : v.pages ≠ 0) (used : u.free = .used) :
    Allocates e s (k ++ (p, u) :: (a, v) :: m) (v.start,
      (s.setVal p { u with pages := Word.add u.pages 1 }).setVal a
        { v with pages := Word.sub v.pages 1, start := Word.add v.start pageSize }) := by
  have lay' : Layout ((data k ++ [u]) ++ v :: (data m ++ e)) := by simpa using lay
  obtain ⟨hup, -⟩ := lay.words (by simp [used])
  obtain ⟨-, hvw, -⟩ := lay'.words (by simp [free])
  obtain ⟨hvp, hvs⟩ := hvw pos
  obtain ⟨lay'', types⟩ := lay.seamRight (by simp [used]) (by simp [free]) pos fun _ => free
  rw [hup, hvp, hvs]
  refine ⟨⟨rfl, rfl, rfl, rfl, rfl⟩, _, h.setVal₂ _ _, by simpa using lay'', fun fa => ?_,
    Or.inr ⟨pagesOf (data k ++ [u]), lay'.pagesOf_pos (by simp), lay'.start_eq, ?_, ?_⟩⟩
  · exact fa.congr (by simp)
  · have := @typeAt_first v (data k ++ [u]) (data m ++ e) pos
    simpa [free] using this
  · simpa [used] using types

/-- The first page of any other free section is split off and marked used. -/
theorem allocates_split (h : Represents s (k ++ (p, u) :: (a, v) :: m))
    (lay : Layout (data k ++ u :: v :: (data m ++ e))) (free : v.free = .free)
    (pos : v.pages ≠ 0) :
    Yields (NoRest (data k ++ u :: v :: (data m ++ e)))
      (fun s' => Allocates e s (k ++ (p, u) :: (a, v) :: m)
        (v.start, s'.setVal a { s'.sec a with free := .used }))
      (pmmSectionSplit s a (Word.add v.start pageSize)) := by
  have h' : Represents s ((k ++ [(p, u)]) ++ (a, v) :: m) := by simpa using h
  have lay' : Layout ((data k ++ [u]) ++ v :: (data m ++ e)) := by simpa using lay
  have first : typeAt (data k ++ u :: v :: (data m ++ e)) (pagesOf (data k ++ [u])) =
      some .free := by
    have := @typeAt_first v (data k ++ [u]) (data m ++ e) pos
    simpa [free] using this
  have mark := markFirst_yields h' (by simpa using lay') (by simp [free]) pos .used
  refine (mark.weaken fun f hf => ⟨hf.out, _, first⟩).imp fun s' ⟨_, same, n, hr, hl, ht⟩ => ?_
  refine ⟨same, _, hr, hl, fun fa => ?_, Or.inr ⟨pagesOf (data k ++ [u]),
    lay'.pagesOf_pos (by simp), lay'.start_eq, by simpa using first, by simpa using ht⟩⟩
  · unfold restOf
    simp only [data_append, data_cons, List.append_assoc, List.cons_append,
      List.nil_append] at fa ⊢
    rw [freeApart_split, freeApart_cons] at fa
    rw [freeApart_split, freeApart_cons]
    refine ⟨fa.1, by simp, ?_⟩
    -- what follows the page starts like what followed the section, or with the rest of it
    split
    · exact fa.2.2.notFirst (by simp)
    · refine freeApart_cons.mpr ⟨by simp, fa.2.2.congr ?_⟩
      simp

/-- The walk, from the section behind `l₁` on. -/
theorem allocPageLoop_yields {l₂ : List (Nat × Section)} (beyond : ∀ w ∈ e, w.free ≠ .free) :
    ∀ {l₁ : List (Nat × Section)} {s : State} {fuel : Nat}, Represents s (l₁ ++ l₂) →
      Layout (data (l₁ ++ l₂) ++ e) → (∀ v ∈ data l₁, v.free ≠ .free) → Spares (data l₂) →
      l₂.length ≤ fuel →
      Yields (NoRest (data (l₁ ++ l₂) ++ e)) (Allocates e s (l₁ ++ l₂))
        (allocPageLoop fuel s (headOr l₂ none)) := by
  -- `l₁` are the sections already passed. None of them is free, and the empty ones among them are
  -- gone.
  induction l₂ with
  | nil =>
    intro l₁ s fuel h lay passed _ _
    have none_free : ∀ k, typeAt (data (l₁ ++ []) ++ e) k ≠ some .free := by
      apply typeAt_ne_free
      intro v mem
      rcases List.mem_append.mp mem with mem | mem
      · exact passed v (by simpa using mem)
      · exact beyond v mem
    cases fuel <;> exact ⟨.refl s, _, h, lay, id, Or.inl ⟨rfl, rfl, none_free⟩⟩
  | cons x l₂ ih =>
    obtain ⟨a, v⟩ := x
    intro l₁ s fuel h lay passed spares hfuel
    obtain ⟨fuel, rfl⟩ : ∃ f, fuel = f + 1 := ⟨fuel - 1, by simp at hfuel; omega⟩
    have hfuel' : l₂.length ≤ fuel := by simpa using hfuel
    have layv : Layout (data l₁ ++ v :: (data l₂ ++ e)) := by simpa using lay
    rw [headOr_cons]
    by_cases empty : v.pages = 0
    · -- an empty section is unlinked, and the walk goes on behind its predecessor
      have free := layv.empty v (by simp) empty
      obtain ⟨k, p, u, rfl⟩ := layv.before_slots (by simp [free])
      have onward_spares := spares.tail fun some => some.2 empty
      obtain ⟨b, w, m, rfl⟩ : ∃ b w m, l₂ = (b, w) :: m := by
        cases l₂ with
        | nil =>
          rcases spares with ⟨w, mem, -, some⟩ | last
          · rw [List.mem_singleton.mp mem] at some
            exact absurd empty some
          · exact absurd empty (last v rfl)
        | cons y m => exact ⟨y.1, y.2, m, rfl⟩
      have h₃ : Represents s (k ++ (p, u) :: (a, v) :: (b, w) :: m) := by simpa using h
      obtain ⟨-, -, hab⟩ := h₃.distinct
      have hdrop := h₃.dropSection
      obtain ⟨lay', types⟩ := layv.drop empty
      have run := ih (by simpa using hdrop) (by simpa using lay') passed onward_spares hfuel'
      have onward : allocPageLoop (fuel + 1) s (some a) = allocPageLoop fuel
          (pmmDeleteSection ((s.setPrev b (some p)).setNext p (some b)) a) (some b) := by
        rw [allocPageLoop, h.sec_eq, if_pos empty]
        simp only [h.next_eq, h.prev_eq, headOr_cons, deref_some, ok_bind, State.setPrev_sections,
          if_neg hab, lastOr_append, lastOr_cons, lastOr_nil, hdrop.next_eq]
      rw [onward]
      have shown : typeAt (data ((k ++ [(p, u)]) ++ (b, w) :: m) ++ e) =
          typeAt (data ((k ++ [(p, u)]) ++ (a, v) :: (b, w) :: m) ++ e) := by simpa using types
      have run' := run.weaken fun f ⟨out, free⟩ =>
        (⟨out, shown ▸ free⟩ : NoRest (data ((k ++ [(p, u)]) ++ (a, v) :: (b, w) :: m) ++ e) f)
      refine run'.imp fun r hr => hr.of_same ⟨rfl, rfl, rfl, rfl, rfl⟩ shown ?_
      intro fa
      simp only [data_append, data_cons, List.append_assoc, List.cons_append,
        List.nil_append] at fa ⊢
      rw [freeApart_split, freeApart_cons] at fa ⊢
      rw [freeApart_cons] at fa
      exact ⟨fa.1, by tauto, fa.2.2.2⟩
    rw [allocPageLoop, h.sec_eq, if_neg empty]
    by_cases free : v.free = .free
    · rw [if_pos free]
      obtain ⟨k, p, u, rfl⟩ := layv.before_slots (by simp [free])
      have h₃ : Represents s (k ++ (p, u) :: (a, v) :: l₂) := by simpa using h
      have lay₃ : Layout (data k ++ u :: v :: (data l₂ ++ e)) := by simpa using lay
      simp only [h.prev_eq, lastOr_append, lastOr_cons, lastOr_nil, deref_some, ok_bind, h₃.sec_eq]
      by_cases used : u.free = .used
      · rw [if_pos used]
        simpa using allocates_grow h₃ lay₃ free empty used
      · rw [if_neg used]
        have shown : data ((k ++ [(p, u)]) ++ (a, v) :: l₂) ++ e =
            data k ++ u :: v :: (data l₂ ++ e) := by simp
        rw [shown]
        refine (allocates_split h₃ lay₃ free empty).bind fun s' hs' => ?_
        simpa using hs'
    · rw [if_neg free, h.next_eq]
      have h' : Represents s ((l₁ ++ [(a, v)]) ++ l₂) := by simpa using h
      have := ih h' (by simpa using lay) ?_ (spares.tail fun some => free some.1) hfuel'
      · simpa using this
      · intro w hw
        simp only [data_append, data_cons, data_nil, List.mem_append,
          List.mem_singleton] at hw
        rcases hw with hw | rfl
        · exact passed w hw
        · exact free

/-- The same from the first section on, with what the call keeps beside the list. -/
theorem pmmAllocPage_within {l : List (Nat × Section)} (beyond : ∀ w ∈ e, w.free ≠ .free)
    (h : Represents s l) (lay : Layout (data l ++ e)) (spares : Spares (data l))
    (open_ : s.allowing = true) :
    Yields (NoRest (data l ++ e)) (fun r => ∃ l', Represents r.2 l' ∧ Layout (data l' ++ e) ∧
        (FreeApart (data l ++ e) → FreeApart (data l' ++ e)) ∧ r.2.allowing = true ∧
        r.2.pmmSections = s.pmmSections ∧ r.2.dataSize = s.dataSize ∧ r.2.pools = s.pools ∧
        ((r.1 = 0 ∧ typeAt (data l' ++ e) = typeAt (data l ++ e) ∧ r.2.freeMemory = s.freeMemory ∧
            ∀ k, typeAt (data l ++ e) k ≠ some .free) ∨
          ∃ k, 0 < k ∧ r.1 = k * pageSize ∧ typeAt (data l ++ e) k = some .free ∧
            r.2.freeMemory = Word.sub s.freeMemory pageSize ∧
            typeAt (data l' ++ e) = Function.update (typeAt (data l ++ e)) k (some .used)))
      (pmmAllocPage s) := by
  unfold pmmAllocPage
  simp only [open_, not_true_eq_false, ↓reduceIte, h.first_eq]
  have walk := @allocPageLoop_yields e l beyond [] s s.fuel h lay (by simp) spares
    (by have := h.length_le; simp only [State.fuel]; omega)
  refine walk.bind fun r hr => ?_
  obtain ⟨same, l', hr, hl, ha, ht⟩ := hr
  rcases ht with ⟨h0, ht, hn⟩ | ⟨k, hk, hbase, hfree, ht⟩
  · simp only [h0, ne_eq, not_true_eq_false, ↓reduceIte, pure_eq_ok, yields_ok]
    exact ⟨l', hr, hl, ha, same.allowing.trans open_, same.pmmSections, same.dataSize, same.pools,
      Or.inl ⟨trivial, ht, same.freeMemory, hn⟩⟩
  · have ne : r.1 ≠ 0 := by
      rw [hbase]
      simp only [pageSize]
      omega
    simp only [ne, ne_eq, not_false_eq_true, ↓reduceIte, pure_eq_ok, yields_ok]
    exact ⟨l', hr.congr rfl rfl rfl, hl, ha, same.allowing.trans open_, same.pmmSections,
      same.dataSize, same.pools, Or.inr ⟨k, hk, hbase, hfree, by rw [same.freeMemory], ht⟩⟩

end

/-- `pmm_alloc_page` hands out a free page, marked used, or answers `NULL` when there is none.
The counter goes down by a page with every page handed out. -/
theorem pmmAllocPage_yields {s : State} {l : List (Nat × Section)} (h : Represents s l)
    (lay : Layout (data l)) (open_ : s.allowing = true) :
    Yields OutOfSections (fun r => ∃ l', Represents r.2 l' ∧ Layout (data l') ∧
        (FreeApart (data l) → FreeApart (data l')) ∧ r.2.allowing = true ∧
        r.2.pmmSections = s.pmmSections ∧ r.2.dataSize = s.dataSize ∧ r.2.pools = s.pools ∧
        ((r.1 = 0 ∧ typeAt (data l') = typeAt (data l) ∧ r.2.freeMemory = s.freeMemory ∧
            ∀ k, typeAt (data l) k ≠ some .free) ∨
          ∃ k, 0 < k ∧ r.1 = k * pageSize ∧ typeAt (data l) k = some .free ∧
            r.2.freeMemory = Word.sub s.freeMemory pageSize ∧
            typeAt (data l') = Function.update (typeAt (data l)) k (some .used)))
      (pmmAllocPage s) := by
  have whole := @pmmAllocPage_within [] s l (by simp) h (by simpa using lay) lay.spares open_
  simpa only [List.append_nil] using whole.weaken fun _ out => out.1

end Skylight.Pmm
