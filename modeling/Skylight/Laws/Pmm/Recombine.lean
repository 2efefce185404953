import Skylight.Laws.Pmm.Layout

/-!
# Joining equal neighbours

One walk of `pmm_recombine` joins sections of one kind two by two, and a walk that joins
nothing has found every two neighbours of different kinds; walks that join something make
the list shorter, so the repetition ends. What a join keeps of a list, the whole run
keeps: `pmmRecombine_ends` is proved once for every such property, and the layout and the
pages it stands for are one.
-/

namespace Skylight.Pmm

open Chain RunLength

/-- Every two neighbours are of different kinds. -/
def KindsAlternate (l : List Section) : Prop := (l.map Section.free).IsChain (· ≠ ·)

/-- Neighbours of different kinds are not both free. -/
theorem KindsAlternate.freeApart {l : List Section} (h : KindsAlternate l) : FreeApart l :=
  List.IsChain.imp (fun _ _ ne both => ne (both.1.trans both.2.symm)) h

/-- A property of section lists that joining two neighbours of one kind keeps. -/
def JoinStable (I : List Section → Prop) : Prop :=
  ∀ l₁ u v l₂, u.free = v.free → I (l₁ ++ u :: v :: l₂) →
    I (l₁ ++ { u with pages := Word.add u.pages v.pages } :: l₂)

/-- The globals are kept and the list is one with the property `I`. -/
structure Recombined (I : List Section → Prop) (s s' : State) (l' : List (Nat × Section)) :
    Prop where
  same : SameGlobals s s'
  list : Represents s' l'
  keeps : I (data l')

section
variable {I : List Section → Prop} {s : State} {l₁ m : List (Nat × Section)} {a b c : Nat}
  {v w x : Section}

/-- The edit that joins two sections in front of a third. -/
theorem recombined_join (stable : JoinStable I)
    (h : Represents s (l₁ ++ (a, v) :: (b, w) :: (c, x) :: m))
    (keeps : I (data (l₁ ++ (a, v) :: (b, w) :: (c, x) :: m))) (same : v.free = w.free) :
    Recombined I s
      ((pmmDeleteSection ((s.setVal a { v with pages := Word.add v.pages w.pages }).setNext a
        (some c)) b).setPrev c (some a))
      (l₁ ++ (a, { v with pages := Word.add v.pages w.pages }) :: (c, x) :: m) := by
  obtain ⟨hab, hac, hbc⟩ := h.distinct
  have hx : Represents s ((l₁ ++ [(a, v), (b, w)]) ++ (c, x) :: m) := by simpa using h
  refine ⟨⟨rfl, rfl, rfl, rfl, rfl⟩, h.unlink ⟨rfl, rfl, rfl, rfl, rfl⟩ ?_ ?_ ?_, ?_⟩
  · simp [hab, hac]
  · simp [hac.symm, hbc.symm, hx.list.node]
  · intro d ha hb hc
    simp [ha, hb, hc]
  · simpa using stable (data l₁) v w (data ((c, x) :: m)) same (by simpa using keeps)

/-- The edit that joins the last two sections. -/
theorem recombined_join_last (stable : JoinStable I)
    (h : Represents s (l₁ ++ [(a, v), (b, w)])) (keeps : I (data (l₁ ++ [(a, v), (b, w)])))
    (same : v.free = w.free) :
    Recombined I s
      ((pmmDeleteSection (s.setVal a { v with pages := Word.add v.pages w.pages }) b).setNext a
        none)
      (l₁ ++ [(a, { v with pages := Word.add v.pages w.pages })]) := by
  have hab : a ≠ b := by
    have nd := h.nodup
    simp only [List.map_append, List.map_cons, List.map_nil, List.nodup_append] at nd
    simpa using nd.2.1
  refine ⟨⟨rfl, rfl, rfl, rfl, rfl⟩, ⟨h.started, ?_, ?_, ?_⟩, ?_⟩
  · refine h.list.unlinkLast h.nodup ?_ ?_
    · simp [hab]
    · intro d ha hb
      simp [ha, hb]
  · rw [← h.head]
    cases l₁ <;> rfl
  · intro d hd
    refine h.slots d ?_
    simp only [List.map_append, List.map_cons, List.map_nil, List.mem_append, List.mem_cons,
      List.not_mem_nil, or_false] at hd ⊢
    tauto
  · simpa using stable (data l₁) v w [] same (by simpa using keeps)

end

/-- What a walk from the section `l₂` begins with leaves, when `detected` was `d` before. -/
def PassEnds (I : List Section → Prop) (s : State) (l₁ l₂ : List (Nat × Section)) (d : Bool)
    (r : Bool × State) : Prop :=
  (r = (d, s) ∧ KindsAlternate (data l₂)) ∨
    (r.1 = true ∧ ∃ l', Recombined I s r.2 l' ∧ l'.length < (l₁ ++ l₂).length)

section
variable {I : List Section → Prop}

/-- A walk goes through the list. -/
theorem recombinePass_ends (stable : JoinStable I) {l₂ : List (Nat × Section)}
    {l₁ : List (Nat × Section)} {s : State} {fuel : Nat} {d : Bool}
    (h : Represents s (l₁ ++ l₂)) (keeps : I (data (l₁ ++ l₂))) (enough : l₂.length ≤ fuel) :
    ∃ r, recombinePass fuel s (headOr l₂ none) d = .ok r ∧ PassEnds I s l₁ l₂ d r := by
  match l₂ with
  | [] => exact ⟨(d, s), by cases fuel <;> rfl, Or.inl ⟨rfl, List.isChain_nil⟩⟩
  | [(a, v)] =>
    obtain ⟨f, rfl⟩ : ∃ f, fuel = f + 1 := ⟨fuel - 1, by simp at enough; omega⟩
    refine ⟨(d, s), ?_, Or.inl ⟨rfl, List.isChain_singleton _⟩⟩
    rw [headOr_cons, recombinePass]
    simp only [h.next_eq, headOr_nil, pure_eq_ok]
  | (a, v) :: (b, w) :: m =>
    obtain ⟨f, rfl⟩ : ∃ f, fuel = f + 1 := ⟨fuel - 1, by simp at enough; omega⟩
    have hb : Represents s ((l₁ ++ [(a, v)]) ++ (b, w) :: m) := by simpa using h
    rw [headOr_cons, recombinePass]
    simp only [h.next_eq, headOr_cons, h.sec_eq, hb.sec_eq, ne_eq, ite_not]
    by_cases same : v.free = w.free
    · have hab : b ≠ a := by
        have nd := h.nodup
        simp only [List.map_append, List.map_cons, List.nodup_append, List.nodup_cons,
          List.mem_cons, not_or] at nd
        exact Ne.symm nd.2.1.1.1
      rw [if_pos same]
      simp only [State.setVal_sections, if_neg hab, hb.next_eq]
      cases m with
      | nil =>
        exact ⟨_, rfl, Or.inr ⟨rfl, _, recombined_join_last stable h keeps same, by simp⟩⟩
      | cons y m =>
        obtain ⟨c, x⟩ := y
        obtain ⟨-, hac, hbc⟩ := h.distinct
        have hc : Represents s ((l₁ ++ [(a, v), (b, w)]) ++ (c, x) :: m) := by simpa using h
        have join := recombined_join stable h keeps same
        obtain ⟨r, run, ends⟩ := @recombinePass_ends stable ((c, x) :: m)
          (l₁ ++ [(a, { v with pages := Word.add v.pages w.pages })]) _ f true
          (by simpa using join.list) (by simpa using join.keeps) (by simp at enough ⊢; omega)
        refine ⟨r, ?_, Or.inr ?_⟩
        · simp only [headOr_cons, State.setNext_sections, hac.symm, ↓reduceIte,
            State.setVal_sections, hc.prev_eq, lastOr_append, lastOr_cons, lastOr_nil,
            deref_some, ok_bind]
          simpa only [headOr_cons] using run
        · rcases ends with ⟨rfl, -⟩ | ⟨hd, l', hl', hlt⟩
          · exact ⟨rfl, _, join, by simp⟩
          · refine ⟨hd, l', ⟨join.same.trans hl'.same, hl'.list, hl'.keeps⟩, ?_⟩
            simp only [List.append_assoc, List.cons_append, List.nil_append, List.length_append,
              List.length_cons] at hlt ⊢
            omega
    · rw [if_neg same]
      obtain ⟨r, run, ends⟩ := @recombinePass_ends stable ((b, w) :: m) (l₁ ++ [(a, v)]) s f d hb
        (by simpa using keeps) (by simp at enough ⊢; omega)
      refine ⟨r, run, ?_⟩
      rcases ends with ⟨rfl, alt⟩ | ⟨hd, l', hl', hlt⟩
      · exact Or.inl ⟨rfl, List.isChain_cons_cons.mpr ⟨same, alt⟩⟩
      · exact Or.inr ⟨hd, l', hl', by simpa using hlt⟩
termination_by l₂.length

/-- The repetition ends, and then neighbours differ. -/
theorem recombineLoop_ends (stable : JoinStable I) {fuel : Nat} :
    ∀ {s : State} {l : List (Nat × Section)}, Represents s l → I (data l) → l.length < fuel →
      ∃ s' l', recombineLoop fuel s = .ok s' ∧ Recombined I s s' l' ∧
        KindsAlternate (data l') := by
  induction fuel with
  | zero => intro s l _ _ lt; omega
  | succ fuel ih =>
    intro s l h keeps lt
    have hlen := h.length_le
    obtain ⟨r, run, ends⟩ := @recombinePass_ends I stable l [] s s.fuel false h keeps
      (by simp only [State.fuel]; omega)
    rw [recombineLoop, h.first_eq, run, ok_bind]
    rcases ends with ⟨rfl, alt⟩ | ⟨hd, l', hl', hlt⟩
    · exact ⟨s, l, rfl, ⟨.refl s, h, keeps⟩, alt⟩
    · obtain ⟨s'', l'', run', hr, alt⟩ := ih hl'.list hl'.keeps (by simp at hlt; omega)
      refine ⟨s'', l'', ?_, ⟨hl'.same.trans hr.same, hr.list, hr.keeps⟩, alt⟩
      obtain ⟨b, t⟩ := r
      simp only at hd run'
      simp only [hd, ↓reduceIte, run']

/-- `pmm_recombine` answers, keeps what joins keep, and leaves neighbours of different kinds. Each
pass that finds something to join makes the list shorter, so the passes end. -/
theorem pmmRecombine_ends (stable : JoinStable I) {s : State} {l : List (Nat × Section)}
    (h : Represents s l) (keeps : I (data l)) :
    ∃ s' l', pmmRecombine s = .ok s' ∧ Recombined I s s' l' ∧ KindsAlternate (data l') := by
  have := h.length_le
  exact recombineLoop_ends stable h keeps (by simp only [State.fuel]; omega)

end

/-- A layout over given pages is kept by joins. -/
theorem joinStable_within (e : List Section) (n : Nat) (f : Nat → Option SectionType) :
    JoinStable fun l => Layout (l ++ e) ∧ pagesOf l = n ∧ typeAt (l ++ e) = f := by
  rintro l₁ u v l₂ same ⟨lay, rfl, rfl⟩
  have fits : u.pages + v.pages < 2 ^ 64 := by
    have := lay.total
    simp only [pagesOf_append, pagesOf_cons] at this
    omega
  rw [List.append_assoc, List.cons_append, List.cons_append] at lay
  obtain ⟨lay', -, types⟩ := lay.join same
  rw [Word.add_eq fits, List.append_assoc, List.append_assoc, List.cons_append, List.cons_append,
    List.cons_append]
  exact ⟨lay', by simp [Nat.add_assoc], types⟩

/-- What is not free stands apart. -/
theorem freeApart_of_notFree {e : List Section} (h : ∀ w ∈ e, w.free ≠ .free) : FreeApart e := by
  induction e with
  | nil => exact List.isChain_nil
  | cons w e ih =>
    obtain ⟨hw, rest⟩ := List.forall_mem_cons.mp h
    cases e with
    | nil => exact List.isChain_singleton _
    | cons x e => exact freeApart_cons.mpr ⟨fun both => hw both.1, ih rest⟩

/-- A list that stands apart does so with what is not free behind it. -/
theorem FreeApart.append {l e : List Section} (h : FreeApart l) (beyond : ∀ w ∈ e, w.free ≠ .free) :
    FreeApart (l ++ e) := by
  unfold FreeApart
  rw [List.map_append, List.isChain_append]
  refine ⟨h, freeApart_of_notFree beyond, fun x _ y first both => ?_⟩
  obtain ⟨w, mem, rfl⟩ := List.mem_map.mp (List.mem_of_mem_head? first)
  exact beyond w mem both.2

end Skylight.Pmm
