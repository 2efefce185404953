import Skylight.Laws.Paging.Tree

/-!
# Mapping a page

What `paging_map_page` does to a well-formed tree when the frames it is given are fresh.
Each level either adds the flags to the descriptor it finds or puts a new table behind it
and maps the new table's own page, by a call of the same function on the tree as it is at
that moment. The recursion is followed by induction on its depth, and a call deeper is a
table fewer to be missing.

`mapPage_runs` is what the other modules use: every call that returns is a list of frames that
became tables, each with its own page mapped, and then the page. `mapPage_some` gives the depth
that is enough, by the number of tables that the tree lacks. That the frames are fresh is a
condition throughout.
-/

namespace Skylight.Paging

/-- What `pmm_alloc_page` answers from its call `m` until before its call `n`. -/
def given (g : Nat → Addr) (m n : Nat) : List Addr := (List.range' m (n - m)).map g

section
variable {g : Nat → Addr} {s s₁ s₂ s' : State} {π : List (BitVec 9)} {i : BitVec 9}
  {t t' n virt phys a : Addr} {f : Desc} {flags : BitVec 16} {k l m fuel : Nat}
  {ws ids : List Mapping} {identity : State → Addr → Option State}

@[simp] theorem given_self (m : Nat) : given g m m = [] := by simp [given]

/-- Answers in two parts. -/
theorem given_append (h : m ≤ k) (h' : k ≤ l) : given g m l = given g m k ++ given g k l := by
  rw [given, given, given, ← List.map_append]
  congr 1
  have split := @List.range'_append_1 m (k - m) (l - k)
  rw [Nat.add_sub_cancel' h] at split
  rw [split]
  congr 1
  omega

/-- The first answer, and the others. -/
theorem given_succ (h : m < l) : given g m l = g m :: given g (m + 1) l := by
  have one : given g m (m + 1) = [g m] := by simp [given]
  rw [given_append (Nat.le_succ m) h, one, List.singleton_append]

@[simp] theorem length_given : (given g m l).length = l - m := by simp [given]

/-- The tree after every frame answered in between became a table and had its own page
mapped, and after the pages `ws` were mapped. -/
def Runs (g : Nat → Addr) (s s' : State) (ws : List Mapping) : Prop :=
  s.served ≤ s'.served ∧ ∃ ids : List Mapping,
    ids.Perm ((given g s.served s'.served).map ident) ∧
      Extends s s' (given g s.served s'.served) (ids ++ ws)

/-- What is left is a tree. -/
theorem Runs.wf (h : Runs g s s' ws) : WellFormed s' := by
  obtain ⟨-, _, -, e⟩ := h
  exact e.wf

/-- Flags that were in an upper descriptor still are. -/
theorem Runs.covered (h : Runs g s s' ws) (c : Covered s π i f) (hπ : π.length ≤ 2) :
    Covered s' π i f := by
  obtain ⟨-, _, -, e⟩ := h
  exact c.mono hπ e

/-- A path that led to a table still does. -/
theorem Runs.keeps (h : Runs g s s' ws) (hπ : π.length ≤ 3) (ht : s.follow π = some t) :
    s'.follow π = some t := by
  obtain ⟨-, _, -, e⟩ := h
  exact e.keeps π t hπ ht

/-- The frames answered in between are exactly as many as the tree lacks fewer. -/
theorem Runs.lacking (h : Runs g s s' ws) :
    s'.served + s'.lacking = s.served + s.lacking := by
  obtain ⟨le, _, -, e⟩ := h
  have := e.fewer
  rw [length_given] at this
  omega

/-- Tables first, and then more tables and a page. -/
theorem Runs.trans (h : Runs g s s₁ []) (h' : Runs g s₁ s₂ ws) : Runs g s s₂ ws := by
  obtain ⟨le, ids, perm, e⟩ := h
  obtain ⟨le', ids', perm', e'⟩ := h'
  refine ⟨le.trans le', ids ++ ids', ?_, ?_⟩
  · rw [given_append le le', List.map_append]
    exact perm.append perm'
  · rw [given_append le le', List.append_assoc]
    rw [List.append_nil] at e
    exact e.trans e'

/-- The count of the calls of `pmm_alloc_page` is no part of the tree. -/
theorem Extends.of_served {ts : List Addr} (e : Extends { s with served := k } s' ts ws) :
    Extends s s' ts ws :=
  ⟨e.root, e.keeps, e.news, e.grows, e.leaf, e.covers, e.frame, e.fewer, e.wf⟩

/-- The tree with a new table behind the entry `i` of `table`. -/
abbrev installed (g : Nat → Addr) (s : State) (table : Addr) (i : BitVec 9) (f : Desc) : State :=
  ({ s with served := s.served + 1 }.clearTable (g s.served)).setEntry table i
    (tableEntry (s.mem table i) (g s.served) f)

/-- A level that is not there: a new table, and a call for its page. -/
theorem enterTable_absent (absent : pagingDescGetFlag (s.mem t i) flagPresent = false) :
    enterTable g identity f s t i
      = (identity (installed g s t i f) (g s.served)).map (g s.served, ·) := by
  simp only [enterTable, absent, Bool.not_false, if_true, State.pmmAllocPage]
  cases identity (installed g s t i f) (g s.served) <;> rfl

/-- A level that is there: the flags are added. -/
theorem enterTable_present (present : pagingDescGetFlag (s.mem t i) flagPresent = true) :
    enterTable g identity f s t i
      = some (pagingDescGetAddress (s.mem t i), s.setEntry t i (s.mem t i ||| f)) := by
  simp [enterTable, present]

/-- What a call for a new table's own page does. -/
def Identifies (g : Nat → Addr) (identity : State → Addr → Option State) : Prop :=
  ∀ s n s', identity s n = some s' → s.served ≤ s'.served ∧
    (WellFormed s → Fresh s (given g s.served s'.served) → Runs g s s' [ident n])

/-- A level gives no frame back. -/
theorem enterTable_served (id : Identifies g identity)
    (run : enterTable g identity f s t i = some (t', s')) : s.served ≤ s'.served := by
  cases present : pagingDescGetFlag (s.mem t i) flagPresent with
  | true =>
    rw [enterTable_present present] at run
    cases run
    exact Nat.le_refl _
  | false =>
    rw [enterTable_absent present] at run
    obtain ⟨u, answer, eq⟩ := Option.map_eq_some_iff.mp run
    cases eq
    exact (Nat.le_succ _).trans (id _ _ _ answer).1

/-- A new table is put behind an absent descriptor. -/
theorem installed_extends (wf : WellFormed s) (hπ : π.length ≤ 2) (ht : s.follow π = some t)
    (absent : pagingDescGetFlag (s.mem t i) flagPresent = false) (hf : IsFlags f)
    (fresh : Fresh s [g s.served]) :
    Extends s (installed g s t i f) [g s.served] [] ∧
      (installed g s t i f).follow (π ++ [i]) = some (g s.served) := by
  have mem := List.mem_singleton_self (g s.served)
  have wf' : WellFormed { s with served := s.served + 1 } := ⟨wf.distinct, wf.clear⟩
  obtain ⟨e, led⟩ := wf'.install hπ ht absent hf (fresh.frame _ mem).2 (fresh.unused _ mem)
  exact ⟨e.of_served, led⟩

/-- One level down: the flags are in the descriptor, which leads to the table answered. -/
theorem enterTable_runs (id : Identifies g identity) (wf : WellFormed s) (hf : IsFlags f)
    (hπ : π.length ≤ 2) (ht : s.follow π = some t)
    (run : enterTable g identity f s t i = some (t', s'))
    (fresh : Fresh s (given g s.served s'.served)) :
    Runs g s s' [] ∧ s'.follow (π ++ [i]) = some t' ∧ Covered s' π i f := by
  cases present : pagingDescGetFlag (s.mem t i) flagPresent with
  | true =>
    rw [enterTable_present present] at run
    cases run
    have e := wf.widen hπ ht present hf
    have there : s.follow (π ++ [i]) = some (pagingDescGetAddress (s.mem t i)) := by
      rw [State.follow, Radix.follow_snoc,
        show Radix.follow child s.mem s.pml4 π = some t from ht, Option.bind_some,
        child_of_present present]
    refine ⟨⟨Nat.le_refl _, [], ?_, ?_⟩, e.keeps _ _ (by simp; omega) there, t,
      e.keeps π t (by omega) ht, ?_⟩
    · rw [State.setEntry_served, given_self]
      exact List.Perm.refl _
    · rw [State.setEntry_served, given_self]
      exact e
    · rw [State.setEntry_mem, if_pos ⟨rfl, rfl⟩]
      exact within_or_right _ _
  | false =>
    have le := enterTable_served id run
    rw [enterTable_absent present] at run
    obtain ⟨u, answer, eq⟩ := Option.map_eq_some_iff.mp run
    cases eq
    obtain ⟨later, spec⟩ := id _ _ _ answer
    have split : given g s.served s'.served
        = [g s.served] ++ given g (s.served + 1) s'.served := given_succ later
    rw [split] at fresh
    obtain ⟨e, led⟩ := installed_extends wf hπ ht present hf fresh.left
    obtain ⟨-, ids, perm, e'⟩ := spec e.wf (fresh.right e)
    have whole := e.trans e'
    refine ⟨⟨le, ids ++ [ident (g s.served)], ?_, ?_⟩, ?_, ?_⟩
    · rw [split, List.map_append, List.map_singleton]
      exact (perm.append_right _).trans List.perm_append_comm
    · rw [split, List.append_nil]
      exact whole
    · exact e'.keeps _ _ (by simp; omega) led
    · refine Covered.mono ⟨t, e.keeps π t (by omega) ht, ?_⟩ hπ e'
      rw [State.setEntry_mem, if_pos ⟨rfl, rfl⟩]
      exact flags_within_tableEntry _ _ _

/-- The call one deeper. -/
abbrev identityCall (g : Nat → Addr) (fuel : Nat) (s : State) (page : Addr) : Option State :=
  (pagingMapPage g fuel s page page flagsKernelPage).map (·.2)

/-- The three levels and the page's own descriptor, one after the other. -/
theorem mapPage_cases (run : pagingMapPage g (fuel + 1) s virt phys flags = some (a, s')) :
    ∃ pdp s₁ pd s₂ pt s₃,
      enterTable g (identityCall g fuel) (wide flags) s s.pml4
        (pagingIndexerAssign virt).pml4 = some (pdp, s₁) ∧
      enterTable g (identityCall g fuel) (wide flags) s₁ pdp
        (pagingIndexerAssign virt).pml3 = some (pd, s₂) ∧
      enterTable g (identityCall g fuel) (wide flags) s₂ pd
        (pagingIndexerAssign virt).pml2 = some (pt, s₃) ∧
      a = virt ∧ s' = s₃.setEntry pt (pagingIndexerAssign virt).pml1
        (leafEntry (s₃.mem pt (pagingIndexerAssign virt).pml1) phys (wide flags)) := by
  rw [pagingMapPage] at run
  obtain ⟨⟨pdp, s₁⟩, h₁, run⟩ := Option.bind_eq_some_iff.mp run
  obtain ⟨⟨pd, s₂⟩, h₂, run⟩ := Option.bind_eq_some_iff.mp run
  obtain ⟨⟨pt, s₃⟩, h₃, run⟩ := Option.bind_eq_some_iff.mp run
  cases run
  exact ⟨pdp, s₁, pd, s₂, pt, s₃, h₁, h₂, h₃, rfl, rfl⟩

/-- A path with three indices before its end. -/
theorem covered_path {x : PagingIndexer} (h₄ : Covered s [] x.pml4 f)
    (h₃ : Covered s [x.pml4] x.pml3 f) (h₂ : Covered s [x.pml4, x.pml3] x.pml2 f) :
    ∀ π i ρ, x.path = π ++ i :: ρ → Covered s π i f := by
  intro π i ρ eq
  match π, eq with
  | [], eq =>
    cases eq
    exact h₄
  | [_], eq =>
    cases eq
    exact h₃
  | [_, _], eq =>
    cases eq
    exact h₂
  | _ :: _ :: _ :: _, eq => simp [PagingIndexer.path] at eq

/-- The three levels of a page, one after the other. -/
theorem levels_runs {x : PagingIndexer} {pdp pd pt : Addr} {s₃ : State}
    (id : Identifies g identity) (hf : IsFlags f)
    (h₁ : enterTable g identity f s s.pml4 x.pml4 = some (pdp, s₁))
    (h₂ : enterTable g identity f s₁ pdp x.pml3 = some (pd, s₂))
    (h₃ : enterTable g identity f s₂ pd x.pml2 = some (pt, s₃)) :
    s.served ≤ s₃.served ∧ (WellFormed s → Fresh s (given g s.served s₃.served) →
      Runs g s s₃ [] ∧ s₃.follow x.path = some pt ∧
        ∀ π i ρ, x.path = π ++ i :: ρ → Covered s₃ π i f) := by
  have le₁ := enterTable_served id h₁
  have le₂ := enterTable_served id h₂
  have le₃ := enterTable_served id h₃
  refine ⟨le₁.trans (le₂.trans le₃), fun wf fresh => ?_⟩
  rw [given_append le₁ (le₂.trans le₃)] at fresh
  obtain ⟨r₁, t₁, c₁⟩ := enterTable_runs (π := []) id wf hf (by simp) rfl h₁ fresh.left
  have fresh₁ : Fresh s₁ (given g s₁.served s₃.served) := by
    obtain ⟨-, _, -, e⟩ := r₁
    exact fresh.right e
  rw [given_append le₂ le₃] at fresh₁
  obtain ⟨r₂, t₂, c₂⟩ := enterTable_runs (π := [x.pml4]) id r₁.wf hf (by simp) t₁ h₂
    fresh₁.left
  have fresh₂ : Fresh s₂ (given g s₂.served s₃.served) := by
    obtain ⟨-, _, -, e⟩ := r₂
    exact fresh₁.right e
  obtain ⟨r₃, t₃, c₃⟩ := enterTable_runs (π := [x.pml4, x.pml3]) id r₂.wf hf (by simp) t₂ h₃
    fresh₂
  exact ⟨r₁.trans (r₂.trans r₃), t₃, covered_path (r₃.covered (r₂.covered c₁ (by simp)) (by simp))
    (r₃.covered c₂ (by simp)) c₃⟩

/-- Every call that returns maps its page, and before that the pages of the tables it takes, each to
itself. The induction is on the depth of the recursion, since mapping a table's own page may take
tables again. -/
theorem mapPage_runs : ∀ {fuel : Nat} {s : State} {virt phys : Addr} {flags : BitVec 16}
    {a : Addr} {s' : State},
    pagingMapPage g fuel s virt phys flags = some (a, s') → s.served ≤ s'.served ∧
      (WellFormed s → Fresh s (given g s.served s'.served) →
        a = virt ∧ Runs g s s' [⟨pagingIndexerAssign virt, phys, wide flags⟩]) := by
  intro fuel
  induction fuel with
  | zero => intro s virt phys flags a s' run; cases run
  | succ fuel ih =>
    intro s virt phys flags a s' run
    have id : Identifies g (identityCall g fuel) := by
      intro s n s' answer
      obtain ⟨r, run, rfl⟩ := Option.map_eq_some_iff.mp answer
      obtain ⟨le, spec⟩ := ih run
      exact ⟨le, fun wf fresh => (spec wf fresh).2⟩
    obtain ⟨pdp, s₁, pd, s₂, pt, s₃, h₁, h₂, h₃, answer, rfl⟩ := mapPage_cases run
    obtain ⟨le, spec⟩ := levels_runs id (isFlags_wide flags) h₁ h₂ h₃
    refine ⟨le, fun wf fresh => ⟨answer, ?_⟩⟩
    obtain ⟨r, there, covered⟩ := spec wf fresh
    refine r.trans ⟨Nat.le_refl _, [], ?_, ?_⟩
    · rw [State.setEntry_served, given_self]
      exact List.Perm.refl _
    · rw [State.setEntry_served, given_self]
      exact r.wf.map there covered

/-- A call one deeper maps a new table's own page. -/
theorem identityCall_identifies (g : Nat → Addr) (fuel : Nat) :
    Identifies g (identityCall g fuel) := by
  intro s n s' answer
  obtain ⟨r, run, rfl⟩ := Option.map_eq_some_iff.mp answer
  obtain ⟨le, spec⟩ := mapPage_runs run
  exact ⟨le, fun wf fresh => (spec wf fresh).2⟩

/-- Fresh frames for all the tables a tree lacks. -/
def Supplied (g : Nat → Addr) (s : State) : Prop :=
  Fresh s (given g s.served (s.served + s.lacking))

/-- A supply stays one for the tree as it grows. -/
theorem Runs.supplied (h : Runs g s s' ws) (sup : Supplied g s) : Supplied g s' := by
  have total := h.lacking
  obtain ⟨le, _, -, e⟩ := h
  rw [Supplied, given_append le (by omega), ← total] at sup
  exact sup.right e

/-- The frames that are left are fresh. -/
theorem Supplied.fresh (sup : Supplied g s) (le : s.served ≤ k)
    (le' : k ≤ s.served + s.lacking) : Fresh s (given g s.served k) := by
  rw [Supplied, given_append le le'] at sup
  exact sup.left

/-- One level down always ends when the calls deeper do. -/
theorem enterTable_some (i : BitVec 9) (wf : WellFormed s) (hf : IsFlags f) (hπ : π.length ≤ 2)
    (ht : s.follow π = some t) (sup : Supplied g s) (deep : s.lacking ≤ fuel)
    (deeper : ∀ s n, WellFormed s → Supplied g s → s.lacking < fuel →
      ∃ s', identity s n = some s' ∧ s'.served ≤ s.served + s.lacking) :
    ∃ t' s', enterTable g identity f s t i = some (t', s') ∧
      s'.served ≤ s.served + s.lacking := by
  cases present : pagingDescGetFlag (s.mem t i) flagPresent with
  | true => exact ⟨_, _, enterTable_present present, Nat.le_add_right _ _⟩
  | false =>
    have room : s.lacking ≠ 0 := by
      have gap : π ++ [i] ∈ Radix.vacant child 3 s.mem s.pml4 := by
        refine ⟨by simp; omega, ?_⟩
        rw [Radix.follow_snoc, show Radix.follow child s.mem s.pml4 π = some t from ht,
          Option.bind_some, child_of_absent present]
      exact Set.ncard_ne_zero_of_mem gap Radix.vacant_finite
    have split : given g s.served (s.served + s.lacking)
        = [g s.served] ++ given g (s.served + 1) (s.served + s.lacking) := given_succ (by omega)
    rw [Supplied, split] at sup
    obtain ⟨e, -⟩ := installed_extends wf hπ ht present hf sup.left
    have less := e.fewer
    rw [List.length_singleton] at less
    have total : (installed g s t i f).served + (installed g s t i f).lacking
        = s.served + s.lacking := by
      show s.served + 1 + _ = _
      omega
    have sup' : Supplied g (installed g s t i f) := by
      rw [Supplied, total]
      exact sup.right e
    obtain ⟨s', answer, bound⟩ := deeper _ (g s.served) e.wf sup' (by omega)
    rw [total] at bound
    exact ⟨g s.served, s', by rw [enterTable_absent present, answer]; rfl, bound⟩

/-- The three levels of a page end when the calls deeper do. -/
theorem levels_some (x : PagingIndexer) (id : Identifies g identity) (wf : WellFormed s)
    (hf : IsFlags f) (sup : Supplied g s) (deep : s.lacking ≤ fuel)
    (deeper : ∀ s n, WellFormed s → Supplied g s → s.lacking < fuel →
      ∃ s', identity s n = some s' ∧ s'.served ≤ s.served + s.lacking) :
    ∃ pdp s₁ pd s₂ pt s₃, enterTable g identity f s s.pml4 x.pml4 = some (pdp, s₁) ∧
      enterTable g identity f s₁ pdp x.pml3 = some (pd, s₂) ∧
      enterTable g identity f s₂ pd x.pml2 = some (pt, s₃) ∧
      s₃.served ≤ s.served + s.lacking := by
  have level {s : State} {π : List (BitVec 9)} {t : Addr} (i : BitVec 9) (wf : WellFormed s)
      (sup : Supplied g s) (deep : s.lacking ≤ fuel) (hπ : π.length ≤ 2)
      (ht : s.follow π = some t) : ∃ t' s', enterTable g identity f s t i = some (t', s') ∧
        s'.follow (π ++ [i]) = some t' ∧ Runs g s s' [] ∧ s'.lacking ≤ fuel := by
    obtain ⟨t', s', run, bound⟩ := enterTable_some i wf hf hπ ht sup deep deeper
    have le := enterTable_served id run
    obtain ⟨r, there, -⟩ := enterTable_runs id wf hf hπ ht run (sup.fresh le bound)
    have total := r.lacking
    exact ⟨t', s', run, there, r, by omega⟩
  obtain ⟨pdp, s₁, h₁, t₁, r₁, d₁⟩ := level (π := []) x.pml4 wf sup deep (by simp) rfl
  obtain ⟨pd, s₂, h₂, t₂, r₂, d₂⟩ :=
    level (π := [x.pml4]) x.pml3 r₁.wf (r₁.supplied sup) d₁ (by simp) t₁
  obtain ⟨pt, s₃, h₃, -, r₃, -⟩ :=
    level (π := [x.pml4, x.pml3]) x.pml2 r₂.wf (r₂.supplied (r₁.supplied sup)) d₂ (by simp) t₂
  have total := (r₁.trans (r₂.trans r₃)).lacking
  exact ⟨pdp, s₁, pd, s₂, pt, s₃, h₁, h₂, h₃, by omega⟩

/-- A call ends when it may go as deep as there are tables lacking: each nested call comes after a
table was put in, so fewer are lacking. That many frames are enough, too. -/
theorem mapPage_some : ∀ {fuel : Nat} {s : State} (virt phys : Addr) (flags : BitVec 16),
    WellFormed s → Supplied g s → s.lacking < fuel →
      ∃ s', pagingMapPage g fuel s virt phys flags = some (virt, s') ∧
        s'.served ≤ s.served + s.lacking := by
  intro fuel
  induction fuel with
  | zero => intro s virt phys flags _ _ lt; exact absurd lt (Nat.not_lt_zero _)
  | succ fuel ih =>
    intro s virt phys flags wf sup lt
    have deeper (s : State) (n : Addr) (wf : WellFormed s) (sup : Supplied g s)
        (lt : s.lacking < fuel) : ∃ s', identityCall g fuel s n = some s' ∧
          s'.served ≤ s.served + s.lacking := by
      obtain ⟨s', run, bound⟩ := ih n n flagsKernelPage wf sup lt
      exact ⟨s', by rw [identityCall, run]; rfl, bound⟩
    obtain ⟨pdp, s₁, pd, s₂, pt, s₃, h₁, h₂, h₃, bound⟩ :=
      levels_some (pagingIndexerAssign virt) (identityCall_identifies g fuel) wf
        (isFlags_wide flags) sup (Nat.le_of_lt_succ lt) deeper
    refine ⟨s₃.setEntry pt (pagingIndexerAssign virt).pml1
      (leafEntry (s₃.mem pt (pagingIndexerAssign virt).pml1) phys (wide flags)), ?_, bound⟩
    rw [pagingMapPage]
    exact Option.bind_eq_some_iff.mpr ⟨_, h₁, Option.bind_eq_some_iff.mpr ⟨_, h₂,
      Option.bind_eq_some_iff.mpr ⟨_, h₃, rfl⟩⟩⟩

end

end Skylight.Paging
