import Skylight.Laws.Pmm.Start
import Skylight.Laws.Pmm.Alloc
import Skylight.Laws.Pmm.Free

/-!
# The manager as a map of pages

Seen from outside the manager is a map that gives every page a kind. `Manages s f` says
that the list of `s` is well formed and shows the map `f`; each function of the manager is
then a change of `f`: pages from one on become used, or one page becomes free, or nothing
changes. The clients of the manager are proved from these laws alone.

`Governs` says the same where the list ends with memory that is not bad. `e` stands behind the last
section then, and each law has a condition that keeps the code from following its null link.
-/

namespace Skylight.Pmm

open Chain RunLength

/-- A kind for every page of the machine, none past the end of it. -/
abbrev PageMap := Nat → Option SectionType

/-- The manager is open, its list is well formed and shows the map `f`. -/
structure Manages (s : State) (f : PageMap) : Prop where
  open_ : s.allowing = true
  list : ∃ l, Represents s l ∧ Layout (data l) ∧ FreeApart (data l) ∧ typeAt (data l) = f

/-- The manager is open, its list is well formed before `e`, is made of `total` pages, and shows the
map `f` with it. -/
structure Governs (e : List Section) (total : Nat) (s : State) (f : PageMap) : Prop where
  open_ : s.allowing = true
  list : ∃ l, Represents s l ∧ Layout (data l ++ e) ∧ FreeApart (data l ++ e) ∧
    pagesOf (data l) = total ∧ typeAt (data l ++ e) = f

/-- Before bad memory the two are the same. -/
theorem manages_iff {s : State} {f : PageMap} : Manages s f ↔ ∃ total, Governs [] total s f := by
  constructor
  · intro h
    obtain ⟨l, hr, lay, apart, types⟩ := h.list
    exact ⟨_, h.open_, l, hr, by simpa using lay, by simpa using apart, rfl, by simpa using types⟩
  · rintro ⟨total, h⟩
    obtain ⟨l, hr, lay, apart, -, types⟩ := h.list
    exact ⟨h.open_, l, hr, by simpa using lay, by simpa using apart, by simpa using types⟩

/-- `n` free pages from page `k` on become used. -/
def Takes (f : PageMap) (k n : Nat) (g : PageMap) : Prop :=
  0 < k ∧ (∀ j < n, f (k + j) = some .free) ∧ g = fill f k n .used

/-- What `pmm_alloc_page` answers: a page taken, or `NULL` when no page is free. -/
def AnswersPage (f : PageMap) (r : Nat × State) : Prop :=
  (r.1 = 0 ∧ Manages r.2 f ∧ ∀ k, f k ≠ some .free) ∨
    ∃ k g, r.1 = k * pageSize ∧ Takes f k 1 g ∧ Manages r.2 g

section
variable {s : State} {f : PageMap}

/-- What `pmm_alloc_page` answers there. -/
def AnswersPageWithin (e : List Section) (total : Nat) (f : PageMap) (r : Nat × State) : Prop :=
  (r.1 = 0 ∧ Governs e total r.2 f ∧ ∀ k, f k ≠ some .free) ∨
    ∃ k g, r.1 = k * pageSize ∧ Takes f k 1 g ∧ Governs e total r.2 g

section
variable {e : List Section} {total : Nat}

/-- Equal pages, equal numbers of pages. -/
theorem pagesOf_of_types {l l' : List Section}
    (same : ∀ j, typeAt (l' ++ e) j = none ↔ typeAt (l ++ e) j = none) :
    pagesOf l' = pagesOf l := by
  have whole := pagesOf_of_none same
  rw [pagesOf_append, pagesOf_append] at whole
  exact Nat.add_right_cancel whole

/-- A change of a page that is there. -/
theorem update_none {k : Nat} {t t' : SectionType} (here : f k = some t) (j : Nat) :
    Function.update f k (some t') j = none ↔ f j = none := by
  by_cases at_k : j = k
  · rw [at_k, Function.update_self, here]
    simp
  · rw [Function.update_of_ne at_k]

/-- `pmm_alloc_page`, if it finds a page before it comes to an empty last section. -/
theorem Governs.allocPage (h : Governs e total s f) (beyond : ∀ w ∈ e, w.free ≠ .free)
    (spares : ∀ l, Represents s l → Spares (data l)) :
    Yields (fun fault => OutOfSections fault ∧ ∃ k, f k = some .free)
      (AnswersPageWithin e total f) (pmmAllocPage s) := by
  obtain ⟨l, hr, lay, apart, size, rfl⟩ := h.list
  refine (pmmAllocPage_within beyond hr lay (spares l hr) h.open_).imp fun r hr => ?_
  obtain ⟨l', hr', lay', apart', open', -, -, -, ans⟩ := hr
  rcases ans with ⟨h0, ht, -, none_free⟩ | ⟨k, pos, hk, hfree, -, ht⟩
  · have size' : pagesOf (data l') = pagesOf (data l) :=
      @pagesOf_of_types e _ _ fun j => by rw [ht]
    exact Or.inl ⟨h0, ⟨open', l', hr', lay', apart' apart, size'.trans size, ht⟩, none_free⟩
  · have size' : pagesOf (data l') = pagesOf (data l) :=
      @pagesOf_of_types e _ _ fun j => by rw [ht, update_none hfree]
    refine Or.inr ⟨k, typeAt (data l' ++ e), hk, ⟨pos, ?_, by rw [ht, fill_one]⟩,
      ⟨open', l', hr', lay', apart' apart, size'.trans size, rfl⟩⟩
    intro j hj
    obtain rfl : j = 0 := by omega
    exact hfree

/-- `pmm_free_page` on a used page, if it does not look behind the last section. -/
theorem Governs.freePage (h : Governs e total s f) (beyond : ∀ w ∈ e, w.free ≠ .used) {k : Nat}
    (used : f k = some .used)
    (before : ∀ l, Represents s l → looksBehind (data l) k = false) :
    Yields OutOfSections (fun s' => Governs e total s' f ∨
        Governs e total s' (Function.update f k (some .free))) (pmmFreePage s (k * pageSize)) := by
  obtain ⟨l, hr, lay, apart, size, rfl⟩ := h.list
  refine ((pmmFreePage_within beyond hr lay h.open_ used (before l hr)).weaken Lacks.out).imp
    fun s' hs' => ?_
  obtain ⟨-, l', hr', lay', apart', open', -, -, -, ht⟩ := hs'
  split at ht
  · have size' : pagesOf (data l') = pagesOf (data l) :=
      @pagesOf_of_types e _ _ fun j => by rw [ht, update_none used]
    exact Or.inr ⟨open', l', hr', lay', apart' apart, size'.trans size, ht⟩
  · have size' : pagesOf (data l') = pagesOf (data l) :=
      @pagesOf_of_types e _ _ fun j => by rw [ht]
    exact Or.inl ⟨open', l', hr', lay', apart' apart, size'.trans size, ht⟩

/-- `pmm_recombine` changes no page. -/
theorem Governs.recombine (h : Governs e total s f) (beyond : ∀ w ∈ e, w.free ≠ .free) :
    ∃ s', pmmRecombine s = .ok s' ∧ Governs e total s' f := by
  obtain ⟨l, hr, lay, -, size, rfl⟩ := h.list
  obtain ⟨s', l', run, ⟨same, hr', lay', size', ht⟩, alt⟩ := pmmRecombine_ends
    (joinStable_within e total (typeAt (data l ++ e))) hr ⟨lay, size, rfl⟩
  exact ⟨s', run, same.allowing.trans h.open_, l', hr', lay', alt.freeApart.append beyond,
    size', ht⟩

/-- `pmm_lock_pages` on free pages, if there is something ahead. -/
theorem Governs.lockPages (h : Governs e total s f) (beyond : ∀ w ∈ e, w.free ≠ .free) {k n : Nat}
    (free : ∀ j < n, f (k + j) = some .free) (ahead : 0 < n → Ahead total f k n) :
    Yields OutOfSections (fun s' => Governs e total s' (fill f k n .used))
      (pmmLockPages s (k * pageSize) n) := by
  obtain ⟨l, hr, lay, apart, rfl, rfl⟩ := h.list
  refine (pmmLockPages_within beyond hr lay apart h.open_ free ahead).imp fun s' hs' => ?_
  obtain ⟨same, l', hr', lay', apart', ht⟩ := hs'
  have size : pagesOf (data l') = pagesOf (data l) := by
    have whole := pagesOf_of_fill free ht
    rw [pagesOf_append, pagesOf_append] at whole
    exact Nat.add_right_cancel whole
  exact ⟨same.allowing.trans h.open_, l', hr', lay', apart', size, ht⟩

/-- The list of pools is not part of the map. -/
theorem Governs.withPools (h : Governs e total s f) (pools : List Pool) :
    Governs e total { s with pools := pools } f := by
  obtain ⟨l, hr, rest⟩ := h.list
  exact ⟨h.open_, l, hr.congr rfl rfl rfl, rest⟩

end

/-! ## Before bad memory -/

/-- No list before bad memory is looked behind. -/
theorem Manages.spares (h : Manages s f) : ∀ l, Represents s l → Spares (data l) := by
  intro l hr
  obtain ⟨l', hr', lay, -⟩ := h.list
  rw [hr.unique hr']
  exact lay.spares

/-- `pmm_alloc_page` takes a free page, or answers `NULL` when there is none. -/
theorem Manages.allocPage (h : Manages s f) :
    Yields OutOfSections (AnswersPage f) (pmmAllocPage s) := by
  obtain ⟨total, governs⟩ := manages_iff.mp h
  refine ((governs.allocPage (by simp) h.spares).weaken fun _ out => out.1).imp fun r ans => ?_
  rcases ans with ⟨h0, after, none_free⟩ | ⟨k, g, hk, takes, after⟩
  · exact Or.inl ⟨h0, manages_iff.mpr ⟨total, after⟩, none_free⟩
  · exact Or.inr ⟨k, g, hk, takes, manages_iff.mpr ⟨total, after⟩⟩

/-- `pmm_free_page` on a used page frees it or does nothing. -/
theorem Manages.freePage (h : Manages s f) {k : Nat} (used : f k = some .used) :
    Yields OutOfSections (fun s' => Manages s' f ∨ Manages s' (Function.update f k (some .free)))
      (pmmFreePage s (k * pageSize)) := by
  obtain ⟨total, governs⟩ := manages_iff.mp h
  have before : ∀ l, Represents s l → looksBehind (data l) k = false := by
    intro l hr
    obtain ⟨l', hr', lay, -, types⟩ := h.list
    rw [hr.unique hr']
    exact lay.before_last (types ▸ used) (by simp)
  refine (governs.freePage (by simp) used before).imp fun s' after => ?_
  exact after.imp (fun h' => manages_iff.mpr ⟨total, h'⟩) fun h' => manages_iff.mpr ⟨total, h'⟩

/-- `pmm_recombine` changes no page. -/
theorem Manages.recombine (h : Manages s f) :
    ∃ s', pmmRecombine s = .ok s' ∧ Manages s' f := by
  obtain ⟨total, governs⟩ := manages_iff.mp h
  obtain ⟨s', run, after⟩ := governs.recombine (by simp)
  exact ⟨s', run, manages_iff.mpr ⟨total, after⟩⟩

/-- Free pages have something ahead. -/
theorem Manages.ahead (h : Manages s f) {k n total : Nat} (governs : Governs [] total s f)
    (free : ∀ j < n, f (k + j) = some .free) (pos : 0 < n) : Ahead total f k n := by
  obtain ⟨l, hr, lay, -, types⟩ := h.list
  obtain ⟨l', hr', -, -, size, -⟩ := governs.list
  rw [← size, ← hr.unique hr', ← types]
  exact lay.ahead (types ▸ free) pos

/-- `pmm_lock_pages` on free pages makes them used, and no others. -/
theorem Manages.lockPages (h : Manages s f) {k n : Nat}
    (free : ∀ j < n, f (k + j) = some .free) :
    Yields OutOfSections (fun s' => Manages s' (fill f k n .used))
      (pmmLockPages s (k * pageSize) n) := by
  obtain ⟨total, governs⟩ := manages_iff.mp h
  refine (governs.lockPages (by simp) free (h.ahead governs free)).imp fun s' after => ?_
  exact manages_iff.mpr ⟨total, after⟩

/-- The list of pools is not part of the map. -/
theorem Manages.withPools (h : Manages s f) (pools : List Pool) :
    Manages { s with pools := pools } f := by
  obtain ⟨total, governs⟩ := manages_iff.mp h
  exact manages_iff.mpr ⟨total, governs.withPools pools⟩

end

/-! ## Pools -/

/-- A free section of at least `n` pages. -/
def Section.HasRoom (n : Nat) (v : Section) : Prop := v.pages ≥ n ∧ v.free = .free

instance hasRoomDecidable (n : Nat) : DecidablePred (Section.HasRoom n) := fun _ =>
  inferInstanceAs (Decidable (_ ∧ _))

/-- The walk of `pmm_alloc_pool` finds the first section that can hold the pool. -/
theorem poolSection_eq {s : State} {n : Nat} {l₂ : List (Nat × Section)} :
    ∀ {l₁ : List (Nat × Section)} {fuel : Nat}, Represents s (l₁ ++ l₂) → l₂.length ≤ fuel →
      poolSection n fuel s (headOr l₂ none)
        = .ok ((l₂.find? fun x => x.2.HasRoom n).map Prod.fst) := by
  induction l₂ with
  | nil =>
    intro l₁ fuel _ _
    cases fuel <;> rfl
  | cons x l₂ ih =>
    obtain ⟨a, v⟩ := x
    intro l₁ fuel h enough
    obtain ⟨f, rfl⟩ : ∃ f, fuel = f + 1 := ⟨fuel - 1, by simp at enough; omega⟩
    rw [headOr_cons, poolSection, h.sec_eq]
    by_cases fits : v.HasRoom n
    · rw [List.find?_cons, decide_eq_true fits]
      exact if_pos fits
    · have later := @ih (l₁ ++ [(a, v)]) f (by simpa using h) (by simpa using enough)
      rw [List.find?_cons, decide_eq_false fits, h.next_eq]
      exact (if_neg fits).trans later

/-- The walk answers with the first section that can hold the pool, or with none. -/
theorem poolSection_found {s : State} {n : Nat} {l : List (Nat × Section)}
    (h : Represents s l) : poolSection n s.fuel s s.first
      = .ok ((l.find? fun x => x.2.HasRoom n).map Prod.fst) := by
  rw [h.first_eq]
  apply @poolSection_eq s n l []
  · exact h
  · have len := h.length_le
    simp only [State.fuel]
    omega

/-- The walk finds a free section that is long enough, or there is none. -/
theorem poolSection_ends {s : State} {n : Nat} {l : List (Nat × Section)} (h : Represents s l) :
    (poolSection n s.fuel s s.first = .ok none ∧ ∀ v ∈ data l, ¬ v.HasRoom n) ∨
      ∃ k a v m, l = k ++ (a, v) :: m ∧ v.pages ≥ n ∧ v.free = .free ∧
        poolSection n s.fuel s s.first = .ok (some a) := by
  rw [poolSection_found h]
  cases found : l.find? fun x => x.2.HasRoom n with
  | none =>
    refine Or.inl ⟨rfl, fun v mem => ?_⟩
    obtain ⟨x, inside, rfl⟩ := List.mem_map.mp mem
    simpa using List.find?_eq_none.mp found x inside
  | some x =>
    obtain ⟨holds, k, m, rfl, -⟩ := List.find?_eq_some_iff_append.mp found
    obtain ⟨long, free⟩ := of_decide_eq_true holds
    exact Or.inr ⟨k, x.1, x.2, m, rfl, long, free, rfl⟩

/-- The pages `malloc` maps while it runs, taken one after another. -/
def TakesEach : PageMap → List Nat → PageMap → Prop
  | f, [], g => g = f
  | f, p :: ps, g => if p = 0 then TakesEach f ps g
      else ∃ k f', p = k * pageSize ∧ Takes f k 1 f' ∧ TakesEach f' ps g

/-- Every one of the `n` pages that `malloc` takes is found before an empty last section. -/
def SparesAll : Nat → State → Prop
  | 0, _ => True
  | n + 1, s => (∀ l, Represents s l → Spares (data l)) ∧
    ∀ p s', pmmAllocPage s = .ok (p, s') → SparesAll n s'

/-- The pages `malloc` maps are taken one after another, where each is found in time. -/
theorem Governs.mallocPages {e : List Section} {total n : Nat} (beyond : ∀ w ∈ e, w.free ≠ .free) :
    ∀ {s : State} {f : PageMap}, Governs e total s f → SparesAll n s →
      Yields OutOfSections (fun r => ∃ g, TakesEach f r.1 g ∧ Governs e total r.2 g)
        (Pmm.mallocPages n s) := by
  -- Every page is asked of the manager that the ones before have left.
  induction n with
  | zero => exact fun {s f} h _ => ⟨f, rfl, h⟩
  | succ n ih =>
    intro s f h spares
    rw [Pmm.mallocPages]
    have page := (h.allocPage beyond spares.1).weaken fun _ out => out.1
    cases run : pmmAllocPage s with
    | error fault =>
      rw [run] at page
      exact page
    | ok r =>
      obtain ⟨p, s₁⟩ := r
      have more := spares.2 p s₁ run
      rw [ok_bind]
      rcases page.of_ok run with ⟨h0, h₁, -⟩ | ⟨k, f', hk, takes, h₁⟩
      · refine (ih h₁ more).bind fun ⟨ps, s₂⟩ ⟨g, each, h₂⟩ => ⟨g, ?_, h₂⟩
        simp only at h0
        simpa [TakesEach, h0] using each
      · refine (ih h₁ more).bind fun ⟨ps, s₂⟩ ⟨g, each, h₂⟩ => ⟨g, ?_, h₂⟩
        simp only at hk
        have ne : p ≠ 0 := by
          have := takes.1
          simp only [hk, pageSize]
          omega
        rw [TakesEach, if_neg ne]
        exact ⟨k, f', hk, takes, each⟩

/-- Before bad memory they always are. -/
theorem Manages.sparesAll {n : Nat} : ∀ {s : State} {f : PageMap}, Manages s f → SparesAll n s := by
  induction n with
  | zero => exact fun _ => trivial
  | succ n ih =>
    intro s f h
    refine ⟨h.spares, fun p s' run => ?_⟩
    rcases h.allocPage.of_ok run with ⟨-, h', -⟩ | ⟨-, g, -, -, h'⟩
    · exact ih h'
    · exact ih h'

/-- So there they are taken without a condition. -/
theorem Manages.mallocPages {n : Nat} {s : State} {f : PageMap} (h : Manages s f) :
    Yields OutOfSections (fun r => ∃ g, TakesEach f r.1 g ∧ Manages r.2 g)
      (Pmm.mallocPages n s) := by
  obtain ⟨total, governs⟩ := manages_iff.mp h
  refine (governs.mallocPages (by simp) h.sparesAll).imp fun r ⟨g, each, after⟩ => ?_
  exact ⟨g, each, manages_iff.mpr ⟨total, after⟩⟩

/-- A run of free pages lies in one section: the next one is not free, and not empty. -/
theorem Layout.free_run {l : List Section} (lay : Layout l) (apart : FreeApart l) {k n : Nat}
    (pos : 1 ≤ n) (free : ∀ j < n, typeAt l (k + j) = some .free) :
    ∃ v ∈ l, v.pages ≥ n ∧ v.free = .free := by
  obtain ⟨r₁, m, r₂, split, lo, hi⟩ := exists_run (free 0 pos)
  obtain ⟨l₁, l₃, rfl, rfl, rest⟩ := List.map_eq_append_iff.mp split
  obtain ⟨v, l₂, rfl, hv, rfl⟩ := List.map_eq_cons_iff.mp rest
  obtain ⟨rfl, kind⟩ := Prod.mk.inj hv
  refine ⟨v, by simp, ?_, kind⟩
  by_contra short
  have lo' : pagesOf l₁ ≤ k + 0 := lo
  have hi' : k + 0 < pagesOf l₁ + v.pages := hi
  have next := free (pagesOf l₁ + v.pages - k) (by omega)
  have behind : k + (pagesOf l₁ + v.pages - k) = pagesOf (l₁ ++ [v]) := by
    rw [pagesOf_append, pagesOf_cons, pagesOf_nil]
    omega
  rw [behind] at next
  cases l₂ with
  | nil =>
    rw [typeAt, valueAt_eq_none.mpr (le_refl (pagesOf (l₁ ++ [v])))] at next
    cases next
  | cons w l₂ =>
    have other : w.free ≠ .free := by
      rw [freeApart_split, freeApart_cons] at apart
      exact fun hw => apart.2.1 ⟨kind, hw⟩
    have some : w.pages ≠ 0 := fun none => other (lay.empty w (by simp) none)
    have here := @typeAt_first w (l₁ ++ [v]) l₂ some
    rw [List.append_assoc] at here
    exact other (Option.some.inj (here.symm.trans next))

/-- The pool of `n` pages in the first free section that can hold it does not end memory. -/
def FitsAhead (n : Nat) (l : List Section) : Prop :=
  ∀ v, l.find? (fun w => w.HasRoom n) = some v → v.start / pageSize + n < pagesOf l

/-- What `pmm_alloc_pool` does with the pages that are there when it scans them: it takes a run of
them, or answers `NULL` when no run is long enough. -/
def ScansPoolWithin (e : List Section) (total : Nat) (f : PageMap) (n : Nat)
    (r : Nat × List Nat × State) : Prop :=
  ∃ f', TakesEach f r.2.1 f' ∧
    ((r.1 = 0 ∧ Governs e total r.2.2 f' ∧
        (1 ≤ n → ∀ k, ¬ ∀ j < n, f' (k + j) = some .free)) ∨
      ∃ k g, r.1 = k * pageSize ∧ Takes f' k n g ∧ Governs e total r.2.2 g)

/-- The page before a section that is not the first is there, and of the kind of a neighbour. -/
theorem Layout.page_before {l₁ l₂ : List Section} {u v : Section}
    (lay : Layout (l₁ ++ u :: v :: l₂)) (apart : FreeApart (l₁ ++ u :: v :: l₂))
    (free : v.free = .free) :
    typeAt (l₁ ++ u :: v :: l₂) (pagesOf (l₁ ++ [u]) - 1) ≠ some .free := by
  rw [freeApart_split, freeApart_cons] at apart
  have other : u.free ≠ .free := fun same => apart.2.1 ⟨same, free⟩
  have some : u.pages ≠ 0 := fun none => other (lay.empty u (by simp) none)
  have size : pagesOf (l₁ ++ [u]) = pagesOf l₁ + u.pages := by simp
  have here : typeAt (l₁ ++ u :: v :: l₂) (pagesOf (l₁ ++ [u]) - 1) = Option.some u.free := by
    rw [size, typeAt, runs_append, runs_cons]
    exact valueAt_run (show pagesOf l₁ ≤ _ by omega) (show _ < pagesOf l₁ + u.pages by omega)
  rw [here]
  exact fun same => other (Option.some.inj same)

/-- `pmm_alloc_pool`, if `malloc` is spared and the pool does not end memory. -/
theorem Governs.scanPool {e : List Section} {total : Nat} {s : State} {f : PageMap}
    (h : Governs e total s f) (beyond : ∀ w ∈ e, w.free ≠ .free) (n : Nat) (m : Malloc)
    (spares : SparesAll m.pages s)
    (ahead : 0 < n → ∀ ps s' l, Pmm.mallocPages m.pages s = .ok (ps, s') → Represents s' l →
      FitsAhead n (data l)) :
    Yields OutOfSections (ScansPoolWithin e total f n) (pmmAllocPool s n m) := by
  unfold pmmAllocPool
  simp only [h.open_, not_true_eq_false, ↓reduceIte]
  have pages := h.mallocPages beyond spares
  cases run₁ : Pmm.mallocPages m.pages s with
  | error fault =>
    rw [run₁] at pages
    exact pages
  | ok r =>
    obtain ⟨taken, s₁⟩ := r
    obtain ⟨f', each, h₁⟩ := pages.of_ok run₁
    simp only at each h₁
    rw [ok_bind]
    obtain ⟨l, hr, lay, apart, size, types⟩ := id h₁.list
    simp only
    rw [poolSection_found hr]
    cases found : l.find? fun x => x.2.HasRoom n with
    | none =>
      -- no section is long enough: equal neighbours are joined
      rw [Option.map_none, ok_bind]
      obtain ⟨s₂, run₂, h₂⟩ := (h₁.withPools (s₁.pools ++ [⟨n, if s.pools = [] then 0
        else m.stale⟩])).recombine beyond
      simp only [run₂, ok_bind]
      refine ⟨f', each, Or.inl ⟨rfl, h₂, fun pos k free => ?_⟩⟩
      rw [← types] at free
      obtain ⟨v, mem, long, kind⟩ := lay.free_run apart pos free
      rcases List.mem_append.mp mem with mem | mem
      · obtain ⟨x, inside, rfl⟩ := List.mem_map.mp mem
        have short := List.find?_eq_none.mp found x inside
        exact short (decide_eq_true ⟨long, kind⟩)
      · exact beyond v mem kind
    | some x =>
      obtain ⟨holds, q, m', rfl, -⟩ := List.find?_eq_some_iff_append.mp found
      obtain ⟨a, v⟩ := x
      obtain ⟨hn, hv⟩ := of_decide_eq_true holds
      simp only at hn hv
      rw [Option.map_some, ok_bind]
      have layv : Layout (data q ++ v :: (data m' ++ e)) := by simpa using lay
      obtain ⟨q', p, u, rfl⟩ := layv.before_slots (by simp [hv])
      have start := layv.start_eq
      have pos : 0 < pagesOf (data (q' ++ [(p, u)])) := layv.pagesOf_pos (by simp)
      have free : ∀ j < n, f' (pagesOf (data (q' ++ [(p, u)])) + j) = some .free := by
        intro j hj
        rw [← types, ← hv, data_append, data_cons, typeAt, runs_append, runs_append, runs_cons,
          List.append_assoc, List.cons_append]
        exact valueAt_run (Nat.le_add_right ..)
          (Nat.add_lt_add_left (Nat.lt_of_lt_of_le hj hn) _)
      have something : 0 < n → Ahead total f' (pagesOf (data (q' ++ [(p, u)]))) n := by
        intro some
        refine Or.inr ⟨?_, ?_⟩
        · have before := @Layout.page_before (data q') (data m' ++ e) u v (by simpa using layv)
            (by simpa using apart) hv
          rw [← types]
          simpa using before
        · have fits := ahead some taken s₁ _ run₁ hr v (by
            rw [data, List.find?_map]
            exact congrArg (Option.map Prod.snd) found)
          rwa [start, Nat.mul_div_cancel _ (by simp [pageSize]), size] at fits
      simp only [hr.sec_eq, start]
      have locked := (h₁.withPools (s₁.pools ++ [⟨n, pagesOf (data (q' ++ [(p, u)])) *
        pageSize⟩])).lockPages beyond free something
      exact locked.bind fun s₂ h₂ => ⟨f', each, Or.inr ⟨_, _, rfl, ⟨pos, free, rfl⟩, h₂⟩⟩

/-- The same before bad memory. -/
def ScansPool (f : PageMap) (n : Nat) (r : Nat × List Nat × State) : Prop :=
  ∃ f', TakesEach f r.2.1 f' ∧
    ((r.1 = 0 ∧ Manages r.2.2 f' ∧ (1 ≤ n → ∀ k, ¬ ∀ j < n, f' (k + j) = some .free)) ∨
      ∃ k g, r.1 = k * pageSize ∧ Takes f' k n g ∧ Manages r.2.2 g)

/-- Before bad memory no pool ends it. -/
theorem Manages.fitsAhead {s : State} {f : PageMap} (h : Manages s f) {n : Nat} :
    ∀ l, Represents s l → FitsAhead n (data l) := by
  intro l hr v found
  obtain ⟨l', hr', lay, -⟩ := h.list
  obtain rfl := hr.unique hr'
  obtain ⟨holds, q, m, eq, -⟩ := List.find?_eq_some_iff_append.mp found
  obtain ⟨long, free⟩ := of_decide_eq_true holds
  rw [eq] at lay ⊢
  obtain ⟨k, u, w, m', rfl, rfl⟩ := lay.neighbours (by simp [free])
  have some : 0 < pagesOf (w :: m') :=
    @Layout.pagesOf_pos_behind ((k ++ [u]) ++ [v]) (w :: m') (by simpa using lay) (by simp)
  rw [lay.start_eq, Nat.mul_div_cancel _ (by simp [pageSize]), pagesOf_append _ (v :: _),
    pagesOf_cons]
  omega

/-- `pmm_alloc_pool` before bad memory. -/
theorem Manages.scanPool {s : State} {f : PageMap} (h : Manages s f) (n : Nat) (m : Malloc) :
    Yields OutOfSections (ScansPool f n) (pmmAllocPool s n m) := by
  obtain ⟨total, governs⟩ := manages_iff.mp h
  have ahead : 0 < n → ∀ ps s' l, Pmm.mallocPages m.pages s = .ok (ps, s') → Represents s' l →
      FitsAhead n (data l) := by
    intro _ ps s' l run hr
    obtain ⟨g, -, h'⟩ := h.mallocPages.of_ok run
    exact h'.fitsAhead l hr
  refine (governs.scanPool (by simp) n m h.sparesAll ahead).imp fun r ⟨f', each, ans⟩ => ?_
  refine ⟨f', each, ?_⟩
  rcases ans with ⟨h0, after, none⟩ | ⟨k, g, hk, takes, after⟩
  · exact Or.inl ⟨h0, manages_iff.mpr ⟨total, after⟩, none⟩
  · exact Or.inr ⟨k, g, hk, takes, manages_iff.mpr ⟨total, after⟩⟩

/-- What `pmm_alloc_pool` answers after the pages of `malloc` are taken: a run of pages taken,
or `NULL` and nothing more. -/
def AnswersPool (f : PageMap) (n : Nat) (r : Nat × List Nat × State) : Prop :=
  ∃ f', TakesEach f r.2.1 f' ∧
    ((r.1 = 0 ∧ Manages r.2.2 f') ∨
      ∃ k g, r.1 = k * pageSize ∧ Takes f' k n g ∧ Manages r.2.2 g)

/-- Its answer, with the pages of `malloc` taken before. -/
theorem Manages.allocPool {s : State} {f : PageMap} (h : Manages s f) (n : Nat) (m : Malloc) :
    Yields OutOfSections (AnswersPool f n) (pmmAllocPool s n m) := by
  refine (h.scanPool n m).imp fun r ⟨f', each, ans⟩ => ⟨f', each, ?_⟩
  exact ans.imp_left fun none => ⟨none.1, none.2.1⟩

end Skylight.Pmm
