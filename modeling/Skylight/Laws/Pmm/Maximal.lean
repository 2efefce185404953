import Skylight.Laws.Pmm.Contracts

/-!
# What joining leaves

`pmm_recombine` on any list that is contiguous and linked: sections of one kind are joined until
none are left, no page changes its kind, and the descriptors taken out of the list are cleared, so
that they can be handed out again. A list without equal neighbours is left as it is.

`pmmRecombine_joins` says all of it of every list that is contiguous and linked, however many of
its neighbours are alike, and that the call returns. That a section's slot is cleared is what
makes it free for `pmm_new_section`; whether it is ever found again is the subject of
`Laws.Pmm.Reuse`.
-/

namespace Skylight.Pmm

open Chain RunLength

/-- The slots of the list are slots of the old one, those taken out are cleared, and no other slot
is touched. -/
structure Clears (s : State) (l : List (Nat × Section)) (s' : State) (l' : List (Nat × Section)) :
    Prop where
  sub : ∀ a ∈ keys l', a ∈ keys l
  cleared : ∀ a ∈ keys l, a ∉ keys l' → s'.sections a = ⟨none, none, .zero⟩
  rest : ∀ a, a ∉ keys l → s'.sections a = s.sections a

section
variable {s s' s'' : State} {l l' l'' l₁ m : List (Nat × Section)} {a b c i : Nat} {v w x : Section}

/-- Nothing taken out. -/
theorem Clears.refl (s : State) (l : List (Nat × Section)) : Clears s l s l :=
  ⟨fun _ mem => mem, fun _ mem out => absurd mem out, fun _ _ => rfl⟩

/-- What two walks take out is cleared in the end. -/
theorem Clears.trans (h : Clears s l s' l') (h' : Clears s' l' s'' l'') : Clears s l s'' l'' where
  sub a mem := h.sub a (h'.sub a mem)
  cleared a mem out := by
    by_cases there : a ∈ keys l'
    · exact h'.cleared a there out
    · rw [h'.rest a there]
      exact h.cleared a mem there
  rest a out := by
    rw [h'.rest a fun there => out (h.sub a there)]
    exact h.rest a out

/-- Two sections joined in front of a third. -/
theorem clears_join (h : Represents s (l₁ ++ (a, v) :: (b, w) :: (c, x) :: m)) (n : Nat) :
    Clears s (l₁ ++ (a, v) :: (b, w) :: (c, x) :: m)
      ((pmmDeleteSection ((s.setVal a { v with pages := n }).setNext a (some c)) b).setPrev c
        (some a))
      (l₁ ++ (a, { v with pages := n }) :: (c, x) :: m) := by
  obtain ⟨hab, hac, hbc⟩ := h.distinct
  refine ⟨fun d mem => ?_, fun d mem out => ?_, fun d out => ?_⟩
  · simp only [List.map_append, List.map_cons, List.mem_append, List.mem_cons] at mem ⊢
    tauto
  · have gone : d = b := by
      simp only [List.map_append, List.map_cons, List.mem_append, List.mem_cons] at mem out
      tauto
    simp [gone, hbc]
  · simp only [List.map_append, List.map_cons, List.mem_append, List.mem_cons, not_or] at out
    simp [out]

/-- The last two sections joined. -/
theorem clears_join_last (h : Represents s (l₁ ++ [(a, v), (b, w)])) (n : Nat) :
    Clears s (l₁ ++ [(a, v), (b, w)])
      ((pmmDeleteSection (s.setVal a { v with pages := n }) b).setNext a none)
      (l₁ ++ [(a, { v with pages := n })]) := by
  have hab : b ≠ a := by
    have nd := h.nodup
    simp only [List.map_append, List.map_cons, List.map_nil, List.nodup_append] at nd
    exact fun e => by simp [e] at nd
  refine ⟨fun d mem => ?_, fun d mem out => ?_, fun d out => ?_⟩
  · simp only [List.map_append, List.map_cons, List.map_nil, List.mem_append,
      List.mem_cons] at mem ⊢
    tauto
  · have gone : d = b := by
      simp only [List.map_append, List.map_cons, List.map_nil, List.mem_append, List.mem_cons]
        at mem out
      tauto
    simp [gone, hab]
  · simp only [List.map_append, List.map_cons, List.map_nil, List.mem_append, List.mem_cons,
      not_or] at out
    simp [out]

/-- One walk, from the section behind `l₁` on. -/
theorem recombinePass_clears {l₂ : List (Nat × Section)} {l₁ : List (Nat × Section)} {s : State}
    {fuel : Nat} {d : Bool} {r : Bool × State} (h : Represents s (l₁ ++ l₂))
    (enough : l₂.length ≤ fuel) (run : recombinePass fuel s (headOr l₂ none) d = .ok r) :
    ∃ l', Represents r.2 l' ∧ Clears s (l₁ ++ l₂) r.2 l' := by
  match l₂ with
  | [] =>
    obtain rfl : (d, s) = r := by cases fuel <;> exact Except.ok.inj run
    exact ⟨_, h, .refl ..⟩
  | [(a, v)] =>
    obtain ⟨f, rfl⟩ : ∃ f, fuel = f + 1 := ⟨fuel - 1, by simp at enough; omega⟩
    rw [headOr_cons, recombinePass] at run
    simp only [h.next_eq, headOr_nil, pure_eq_ok] at run
    obtain rfl := Except.ok.inj run
    exact ⟨_, h, .refl ..⟩
  | (a, v) :: (b, w) :: m =>
    obtain ⟨f, rfl⟩ : ∃ f, fuel = f + 1 := ⟨fuel - 1, by simp at enough; omega⟩
    have hb : Represents s ((l₁ ++ [(a, v)]) ++ (b, w) :: m) := by simpa using h
    rw [headOr_cons, recombinePass] at run
    simp only [h.next_eq, headOr_cons, h.sec_eq, hb.sec_eq, ne_eq, ite_not] at run
    by_cases same : v.free = w.free
    · have hab : b ≠ a := by
        have nd := h.nodup
        simp only [List.map_append, List.map_cons, List.nodup_append, List.nodup_cons,
          List.mem_cons, not_or] at nd
        exact Ne.symm nd.2.1.1.1
      rw [if_pos same] at run
      simp only [State.setVal_sections, if_neg hab, hb.next_eq] at run
      have stable : JoinStable fun _ => True := fun _ _ _ _ _ _ => trivial
      cases m with
      | nil =>
        obtain rfl := Except.ok.inj run
        exact ⟨_, (recombined_join_last stable h trivial same).list, clears_join_last h _⟩
      | cons y m =>
        obtain ⟨c, x⟩ := y
        obtain ⟨-, hac, hbc⟩ := h.distinct
        have hc : Represents s ((l₁ ++ [(a, v), (b, w)]) ++ (c, x) :: m) := by simpa using h
        have join := recombined_join stable h trivial same
        simp only [headOr_cons, State.setNext_sections, hac.symm, ↓reduceIte,
          State.setVal_sections, hc.prev_eq, lastOr_append, lastOr_cons, lastOr_nil,
          deref_some, ok_bind] at run
        obtain ⟨l', list, clears⟩ := @recombinePass_clears ((c, x) :: m)
          (l₁ ++ [(a, { v with pages := Word.add v.pages w.pages })]) _ f true r
          (by simpa using join.list) (by simp at enough ⊢; omega) (by simpa using run)
        refine ⟨l', list, (clears_join h (Word.add v.pages w.pages)).trans ?_⟩
        simpa using clears
    · rw [if_neg same] at run
      obtain ⟨l', list, clears⟩ := @recombinePass_clears ((b, w) :: m) (l₁ ++ [(a, v)]) s f d r hb
        (by simp at enough ⊢; omega) run
      exact ⟨l', list, by simpa using clears⟩
termination_by l₂.length

/-- The walks, one after another. -/
theorem recombineLoop_clears {fuel : Nat} : ∀ {s s' : State} {l : List (Nat × Section)},
    Represents s l → recombineLoop fuel s = .ok s' →
      ∃ l', Represents s' l' ∧ Clears s l s' l' := by
  induction fuel with
  | zero =>
    intro s s' l _ run
    cases run
  | succ fuel ih =>
    intro s s' l h run
    have len := h.length_le
    obtain ⟨r, pass, -⟩ := @recombinePass_ends (fun _ => True) (fun _ _ _ _ _ _ => trivial) l [] s
      s.fuel false h trivial (by simp only [State.fuel]; omega)
    obtain ⟨l', list, clears⟩ := @recombinePass_clears l [] s s.fuel false r h
      (by simp only [State.fuel]; omega) pass
    rw [recombineLoop, h.first_eq, pass, ok_bind] at run
    obtain ⟨detected, t⟩ := r
    cases detected with
    | false =>
      obtain rfl := Except.ok.inj run
      exact ⟨l', list, clears⟩
    | true =>
      obtain ⟨l'', list', clears'⟩ := ih list run
      exact ⟨l'', list', clears.trans clears'⟩

/-- A walk over sections of different kinds joins nothing. -/
theorem recombinePass_still {l₂ : List (Nat × Section)} : ∀ {l₁ : List (Nat × Section)}
    {fuel : Nat}, Represents s (l₁ ++ l₂) → KindsAlternate (data l₂) → l₂.length ≤ fuel →
      recombinePass fuel s (headOr l₂ none) false = .ok (false, s) := by
  induction l₂ with
  | nil =>
    intro l₁ fuel _ _ _
    cases fuel <;> rfl
  | cons x l₂ ih =>
    obtain ⟨a, v⟩ := x
    intro l₁ fuel h alternate enough
    obtain ⟨f, rfl⟩ : ∃ f, fuel = f + 1 := ⟨fuel - 1, by simp at enough; omega⟩
    have later : Represents s ((l₁ ++ [(a, v)]) ++ l₂) := by simpa using h
    rw [headOr_cons, recombinePass]
    simp only [h.next_eq]
    cases l₂ with
    | nil => rfl
    | cons y m =>
      obtain ⟨b, w⟩ := y
      have kinds := List.isChain_cons_cons.mp alternate
      simp only [headOr_cons, h.sec_eq, later.sec_eq]
      rw [if_pos kinds.1]
      exact ih later kinds.2 (by simpa using enough)

/-- Without equal neighbours nothing is joined. -/
theorem pmmRecombine_still (h : Represents s l) (alternate : KindsAlternate (data l)) :
    pmmRecombine s = .ok s := by
  have len := h.length_le
  have pass := @recombinePass_still s l [] s.fuel h alternate (by simp only [State.fuel]; omega)
  rw [pmmRecombine, show s.fuel = s.capacity + 1 + 1 from rfl, recombineLoop, h.first_eq, pass]
  rfl

/-- A contiguous list of pages a word can count is kept by joins. -/
theorem joinStable_contiguous (n : Nat) (f : PageMap) (small : n < 2 ^ 64) :
    JoinStable fun l => Contiguous i l ∧ pagesOf l = n ∧ typeAt l = f := by
  rintro l₁ u v l₂ same ⟨con, rfl, rfl⟩
  have fits : u.pages + v.pages < 2 ^ 64 := by
    rw [pagesOf_append, pagesOf_cons, pagesOf_cons] at small
    omega
  rw [Word.add_eq fits]
  refine ⟨?_, ?_, ?_⟩
  · obtain ⟨before, start, -, behind⟩ := contiguous_append.mp con
    refine contiguous_append.mpr ⟨before, start, ?_⟩
    rwa [Nat.add_assoc, ← Nat.add_mul] at behind
  · rw [pagesOf_append, pagesOf_append, pagesOf_cons, pagesOf_cons, pagesOf_cons, Nat.add_assoc]
  · have split := valueAt_split (runs l₁) (runs l₂) u.pages v.pages u.free
    simp only [typeAt, runs_append, runs_cons, ← same]
    exact split.symm

end

/-- What `pmm_recombine` makes of the list `l` that begins at address `i`. -/
structure Joins (s : State) (l : List (Nat × Section)) (i : Nat) (s' : State)
    (l' : List (Nat × Section)) : Prop where
  list : Represents s' l'
  head : headOr l' none = headOr l none
  contiguous : Contiguous i (data l')
  alternate : KindsAlternate (data l')
  pages : typeAt (data l') = typeAt (data l)
  unlinked : ∀ a ∈ keys l, a ∉ keys l' →
    (s'.sections a).prev = none ∧ (s'.sections a).next = none
  still : pmmRecombine s' = .ok s'

/-- `pmm_recombine` on every contiguous, linked list: it answers, no page changes its kind, no
two neighbours of one kind are left, and the slots it takes out are cleared. -/
theorem pmmRecombine_joins {s : State} {l : List (Nat × Section)} {i : Nat} (h : Represents s l)
    (contiguous : Contiguous i (data l)) (words : pagesOf (data l) < 2 ^ 64) :
    ∃ s' l', pmmRecombine s = .ok s' ∧ Joins s l i s' l' := by
  obtain ⟨s', l', run, ⟨-, list, con, -, types⟩, alternate⟩ := pmmRecombine_ends
    (joinStable_contiguous (pagesOf (data l)) (typeAt (data l)) words) h ⟨contiguous, rfl, rfl⟩
  obtain ⟨l'', list', clears⟩ := recombineLoop_clears h run
  obtain rfl := list.unique list'
  refine ⟨s', l', run, list, list.head.trans h.head.symm, con, alternate, types, ?_,
    pmmRecombine_still list alternate⟩
  intro a mem out
  rw [clears.cleared a mem out]
  exact ⟨rfl, rfl⟩

/-- A used page with free sections of two and of four pages behind it. -/
def freePair : List (Nat × Section) :=
  [(0, ⟨0, 1, .used⟩), (1, ⟨pageSize, 2, .free⟩), (2, ⟨3 * pageSize, 4, .free⟩)]

/-- A manager with these sections. -/
def freePairState : State where
  pmmSections := 0x101000
  sections
    | 0 => ⟨none, some 1, ⟨0, 1, .used⟩⟩
    | 1 => ⟨some 0, some 2, ⟨pageSize, 2, .free⟩⟩
    | 2 => ⟨some 1, none, ⟨3 * pageSize, 4, .free⟩⟩
    | _ => ⟨none, none, .zero⟩
  sectionHead := 2
  dataSize := 0x1000
  freeMemory := 6 * pageSize
  allowing := true
  pools := []

/-- The manager holds these sections. -/
theorem freePair_represents : Represents freePairState freePair where
  started := by decide
  list := ⟨rfl, rfl, rfl, trivial⟩
  head := rfl
  slots := by decide

/-- The two free sections are neighbours of one kind, and `pmm_recombine` makes one of them. -/
theorem pmmRecombine_joins_pair : ¬ KindsAlternate (data freePair) ∧ ∃ s' l',
    pmmRecombine freePairState = .ok s' ∧ Joins freePairState freePair 0 s' l' := by
  refine ⟨?_, ?_⟩
  · simp [KindsAlternate, freePair, data]
  · obtain ⟨s', l', run, joins⟩ := pmmRecombine_joins freePair_represents
      (i := 0) (by simp [Contiguous, freePair, data, pageSize]) (by decide)
    exact ⟨s', l', run, joins⟩

end Skylight.Pmm
