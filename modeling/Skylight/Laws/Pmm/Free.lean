import Skylight.Laws.Pmm.Walk

/-!
# Freeing one page

`pmm_free_page` never changes any page but the one it is given, and it does not always
change that one. `freesPage` is the exact condition under which it does, read off the
section that holds the page and its two neighbours in the list:

- a section of one page is freed when neither neighbour is free (next to a free one the
  combine helpers compare the kinds before the section has been marked, and do nothing);
- the last page of a longer section is always freed;
- the first page of a longer section is freed unless an empty free section stands before
  it, which begins at the same address and stops the walk;
- a page inside a section is never freed: no branch of the source handles it.

The walk is followed section by section (`freePageLoop_yields`, by the place of the page in its
section), and `pmmFreePage_yields` is the law of the call. `looksBehind` tells where it would
follow the null link behind the last section; before bad memory it never does.
-/

namespace Skylight.Pmm

open Chain RunLength

/-- The predecessor does not begin where this section does. -/
def notEmpty : Option Section → Bool
  | none => true
  | some u => u.pages ≠ 0

/-- The neighbour, if there is one, is not free. -/
def notFree : Option Section → Bool
  | none => true
  | some u => u.free ≠ .free

/-- A condition on a page, asked at the section that holds it: of the section before, the
section, the section behind and the place of the page in the section. -/
def atPage (cond : Option Section → Section → Option Section → Nat → Bool) :
    Option Section → List Section → Nat → Bool
  | _, [], _ => false
  | prev, v :: l, k =>
    if k < v.pages then cond prev v l.head? k else atPage cond (some v) l (k - v.pages)

/-- Whether `pmm_free_page` frees page `k` of a list. -/
def freesPage (l : List Section) (k : Nat) : Bool :=
  atPage (fun prev v next i =>
    if v.pages = 1 then notFree prev && notFree next
    else i + 1 = v.pages || (i = 0 && notEmpty prev)) none l k

/-- Whether it takes a new section to do so. -/
def splitsPage (l : List Section) (k : Nat) : Bool :=
  atPage (fun prev v next i =>
    v.pages ≠ 1 && if i = 0 then notFree prev else i + 1 = v.pages && notFree next) none l k

/-- Whether it follows the link of the last section: for the only page of that section, and for
any page behind its first. -/
def looksBehind (l : List Section) (k : Nat) : Bool :=
  atPage (fun prev v next i =>
    next.isNone && (i ≠ 0 || (v.pages = 1 && notEmpty prev))) none l k

/-- The condition, at the section that holds the page. -/
theorem atPage_at {cond : Option Section → Section → Option Section → Nat → Bool}
    {l₁ l₂ : List Section} {u v : Section} {k : Nat} (lo : pagesOf (l₁ ++ [u]) ≤ k)
    (hi : k < pagesOf (l₁ ++ [u]) + v.pages) :
    atPage cond none (l₁ ++ u :: v :: l₂) k
      = cond (some u) v l₂.head? (k - pagesOf (l₁ ++ [u])) := by
  have reach : ∀ {l₁ : List Section} {prev : Option Section} {k : Nat},
      pagesOf (l₁ ++ [u]) ≤ k → atPage cond prev (l₁ ++ u :: v :: l₂) k
        = atPage cond (some u) (v :: l₂) (k - pagesOf (l₁ ++ [u])) := by
    intro l₁
    induction l₁ with
    | nil =>
      intro prev k lo
      simp only [List.nil_append, pagesOf_cons, pagesOf_nil, Nat.add_zero] at lo ⊢
      rw [atPage, if_neg (by omega)]
    | cons x l₁ ih =>
      intro prev k lo
      simp only [List.cons_append, pagesOf_cons] at lo ⊢
      rw [atPage, if_neg (by omega), ih (by omega), Nat.sub_sub]
  rw [reach lo, atPage, if_pos (by omega)]

/-- The two conditions, at the section that holds the page. -/
theorem freesPage_at {l₁ l₂ : List Section} {u v : Section} {k : Nat}
    (lo : pagesOf (l₁ ++ [u]) ≤ k) (hi : k < pagesOf (l₁ ++ [u]) + v.pages) :
    freesPage (l₁ ++ u :: v :: l₂) k =
      if v.pages = 1 then notFree (some u) && notFree l₂.head?
      else k + 1 = pagesOf (l₁ ++ [u]) + v.pages ||
        (k = pagesOf (l₁ ++ [u]) && notEmpty (some u)) := by
  have last : k - pagesOf (l₁ ++ [u]) + 1 = v.pages ↔
      k + 1 = pagesOf (l₁ ++ [u]) + v.pages := by omega
  have first : k - pagesOf (l₁ ++ [u]) = 0 ↔ k = pagesOf (l₁ ++ [u]) := by omega
  rw [freesPage, atPage_at lo hi]
  simp only [last, first]

/-- Whether a section is needed, at the section that holds the page. -/
theorem splitsPage_at {l₁ l₂ : List Section} {u v : Section} {k : Nat}
    (lo : pagesOf (l₁ ++ [u]) ≤ k) (hi : k < pagesOf (l₁ ++ [u]) + v.pages) :
    splitsPage (l₁ ++ u :: v :: l₂) k =
      (v.pages ≠ 1 && if k = pagesOf (l₁ ++ [u]) then notFree (some u)
        else k + 1 = pagesOf (l₁ ++ [u]) + v.pages && notFree l₂.head?) := by
  have last : k - pagesOf (l₁ ++ [u]) + 1 = v.pages ↔
      k + 1 = pagesOf (l₁ ++ [u]) + v.pages := by omega
  have first : k - pagesOf (l₁ ++ [u]) = 0 ↔ k = pagesOf (l₁ ++ [u]) := by omega
  rw [splitsPage, atPage_at lo hi]
  simp only [last, first]

/-- In the last section. -/
theorem looksBehind_last {l : List Section} {u v : Section} {k : Nat} (lo : pagesOf (l ++ [u]) ≤ k)
    (hi : k < pagesOf (l ++ [u]) + v.pages) (no : looksBehind (l ++ [u, v]) k = false) :
    k = pagesOf (l ++ [u]) ∧ (v.pages = 1 → u.pages = 0) := by
  rw [looksBehind, atPage_at lo hi] at no
  simp only [List.head?_nil, Option.isNone_none, Bool.true_and, notEmpty, Bool.or_eq_false_iff,
    decide_eq_false_iff_not, not_not, Bool.and_eq_false_imp, decide_eq_true_eq] at no
  exact ⟨by omega, no.2⟩

/-- Behind an empty free section the first page of a section is not freed. -/
theorem freesPage_blocked {l₁ l₂ : List Section} {u v : Section} {k : Nat} (empty : u.pages = 0)
    (hu : u.free = .free) (first : pagesOf (l₁ ++ [u]) = k) (pos : v.pages ≠ 0) :
    freesPage (l₁ ++ u :: v :: l₂) k = false ∧ splitsPage (l₁ ++ u :: v :: l₂) k = false := by
  rw [freesPage_at first.le (by omega), splitsPage_at first.le (by omega)]
  constructor
  · split
    · simp [notFree, hu]
    · have : ¬ k + 1 = pagesOf (l₁ ++ [u]) + v.pages := by omega
      rw [decide_eq_false this]
      simp [notEmpty, empty]
  · rw [if_pos first.symm]
    simp [notFree, hu]

/-- The walk of `pmm_free_page` passes over idle sections. -/
theorem freePageLoop_passesIdle (page : Nat) : PassesIdle page (freePageLoop page) := by
  intro fuel s l₁ l₂ a v h idle
  rw [freePageLoop, h.sec_eq, if_neg idle.1]
  by_cases lt : v.start < page
  · obtain ⟨w, hw, hle⟩ := idle.2 lt
    cases l₂ with
    | nil => simp at hw
    | cons y l₂ =>
      obtain ⟨b, w'⟩ := y
      obtain rfl : w' = w := by simpa using hw
      have hb : s.sec b = w' := by
        have : Represents s ((l₁ ++ [(a, v)]) ++ (b, w') :: l₂) := by simpa using h
        exact this.sec_eq
      simp [lt, h.next_eq, hb, Nat.not_lt_of_le hle]
  · simp [lt, h.next_eq]

/-- What the walk of `pmm_free_page` leaves of a list, `e` lying beyond it; it has taken a section
if it had to. -/
def Frees (e : List Section) (s : State) (l : List (Nat × Section)) (k : Nat) (s' : State) : Prop :=
  Has s (splitsPage (data l ++ e) k = true) ∧ SameGlobals s s' ∧
    ∃ l', Represents s' l' ∧ Layout (data l' ++ e) ∧
      (FreeApart (data l ++ e) → FreeApart (data l' ++ e)) ∧
      typeAt (data l' ++ e) = if freesPage (data l ++ e) k then
        Function.update (typeAt (data l ++ e)) k (some .free) else typeAt (data l ++ e)

section
variable {e : List Section}

/-- Where nothing is done, nothing was to be done. -/
theorem frees_same {s : State} {l : List (Nat × Section)} {k : Nat} (h : Represents s l)
    (lay : Layout (data l ++ e)) (no : freesPage (data l ++ e) k = false)
    (whole : splitsPage (data l ++ e) k = false) : Frees e s l k s :=
  ⟨fun need => absurd (whole.symm.trans need) (by simp), .refl s, l, h, lay, id, by rw [no]; rfl⟩

variable {s : State} {k m : List (Nat × Section)} {p a b : Nat} {u v w : Section}

/-- A section of one page, the walk standing on it. -/
theorem freePageLoop_single (fuel : Nat)
    (h : Represents s (k ++ (p, u) :: (a, v) :: (b, w) :: m))
    (lay : Layout (data k ++ u :: v :: w :: (data m ++ e))) (used : v.free = .used)
    (one : v.pages = 1) :
    Yields (Lacks s (splitsPage (data (k ++ (p, u) :: (a, v) :: (b, w) :: m) ++ e)
        (pagesOf (data k ++ [u])) = true))
      (fun r => Frees e s (k ++ (p, u) :: (a, v) :: (b, w) :: m) (pagesOf (data k ++ [u])) r.2)
      (freePageLoop v.start (fuel + 1) s (some a)) := by
  have h₂ : Represents s ((k ++ [(p, u)]) ++ (a, v) :: (b, w) :: m) := by simpa using h
  have h₃ : Represents s ((k ++ [(p, u), (a, v)]) ++ (b, w) :: m) := by simpa using h
  have lay₂ : Layout ((data k ++ [u]) ++ v :: w :: (data m ++ e)) := by simpa using lay
  have cond : freesPage (data (k ++ (p, u) :: (a, v) :: (b, w) :: m) ++ e)
      (pagesOf (data k ++ [u])) = (notFree (some u) && notFree (some w)) := by
    have := @freesPage_at (data k) (w :: (data m ++ e)) u v (pagesOf (data k ++ [u])) le_rfl
      (by omega)
    rw [if_pos one] at this
    simpa using this
  have whole : splitsPage (data (k ++ (p, u) :: (a, v) :: (b, w) :: m) ++ e)
      (pagesOf (data k ++ [u])) = false := by
    have := @splitsPage_at (data k) (w :: (data m ++ e)) u v (pagesOf (data k ++ [u])) le_rfl
      (by omega)
    simpa [one] using this
  have same := fun no => @frees_same e s _ (pagesOf (data k ++ [u])) h (by simpa using lay) no whole
  rw [freePageLoop, h₂.sec_eq]
  simp only [used, one, reduceCtorEq, ↓reduceIte, h₂.prev_eq, h₂.next_eq, lastOr_append,
    lastOr_cons, lastOr_nil, headOr_cons, deref_some, ok_bind, h.sec_eq, h₃.sec_eq]
  have hvw : w.free = .free → pmmSectionCombineNext s a = .ok s := fun e =>
    pmmSectionCombineNext_ne h₂ (by rw [used, e]; simp)
  have huv : u.free = .free → pmmSectionCombineNext s p = .ok s := fun e =>
    pmmSectionCombineNext_ne h (by rw [used, e]; simp)
  have hvu : u.free = .free → pmmSectionCombinePrev s a = .ok s := fun e =>
    pmmSectionCombinePrev_ne h (by rw [used, e]; simp)
  by_cases hu : u.free = .free <;> by_cases hw : w.free = .free
  · -- the combine helpers compare kinds that differ
    simpa [hu, hw, hvw hw, huv hu] using same (by rw [cond]; simp [notFree, hu])
  · simpa [hu, hw, hvu hu] using same (by rw [cond]; simp [notFree, hu])
  · simpa [hu, hw, hvw hw] using same (by rw [cond]; simp [notFree, hw])
  · obtain ⟨lay', types⟩ := lay₂.retag (by simp [used]) one .free
    simp only [hu, hw, and_self, ↓reduceIte]
    refine ⟨fun need => absurd (whole.symm.trans need) (by simp), sameGlobals_setVal .., _,
      h₂.setVal _, by simpa [one] using lay', fun fa => ?_, ?_⟩
    · simp only [data_append, data_cons, List.append_assoc, List.cons_append,
        List.nil_append] at fa ⊢
      rw [freeApart_split, freeApart_cons, freeApart_cons] at fa ⊢
      exact ⟨fa.1, by simp [hu], by simp [hw], fa.2.2.2⟩
    · rw [cond]
      simpa [notFree, hu, hw, one] using types

/-- The first page of a longer section, the walk standing on the section. -/
theorem freePageLoop_front (fuel : Nat) (h : Represents s (k ++ (p, u) :: (a, v) :: m))
    (lay : Layout (data k ++ u :: v :: (data m ++ e))) (used : v.free = .used)
    (two : 2 ≤ v.pages) (ne : u.pages ≠ 0) :
    Yields (Lacks s (splitsPage (data (k ++ (p, u) :: (a, v) :: m) ++ e)
        (pagesOf (data k ++ [u])) = true))
      (fun r => Frees e s (k ++ (p, u) :: (a, v) :: m) (pagesOf (data k ++ [u])) r.2)
      (freePageLoop v.start (fuel + 1) s (some a)) := by
  have h₂ : Represents s ((k ++ [(p, u)]) ++ (a, v) :: m) := by simpa using h
  have lay₂ : Layout ((data k ++ [u]) ++ v :: (data m ++ e)) := by simpa using lay
  have cond : freesPage (data (k ++ (p, u) :: (a, v) :: m) ++ e)
      (pagesOf (data k ++ [u])) = true := by
    have := @freesPage_at (data k) (data m ++ e) u v (pagesOf (data k ++ [u])) le_rfl
      (by omega)
    rw [if_neg (by omega)] at this
    simpa [notEmpty, ne] using this
  have notOne : v.pages ≠ 1 := by omega
  have split : splitsPage (data (k ++ (p, u) :: (a, v) :: m) ++ e)
      (pagesOf (data k ++ [u])) = notFree (some u) := by
    have := @splitsPage_at (data k) (data m ++ e) u v (pagesOf (data k ++ [u])) le_rfl
      (by omega)
    simpa [notOne] using this
  rw [split, freePageLoop, h₂.sec_eq]
  simp only [used, notOne, reduceCtorEq, ↓reduceIte, h₂.prev_eq, lastOr_append, lastOr_cons,
    lastOr_nil, deref_some, ok_bind, h.sec_eq]
  by_cases hu : u.free = .free
  · obtain ⟨hup, -⟩ := lay.words (by simp [hu])
    obtain ⟨-, hvw, -⟩ := lay₂.words (by simp [used])
    obtain ⟨hvp, hvs⟩ := hvw (by omega)
    obtain ⟨lay', types⟩ := lay.seamRight (by simp [hu]) (by simp [used]) (by omega) (by omega)
    simp only [hu, ↓reduceIte, hup, hvp, hvs]
    refine ⟨fun need => ?_, ⟨rfl, rfl, rfl, rfl, rfl⟩, _, h.setVal₂ _ _,
      by simpa [hu, used] using lay', fun fa => fa.congr (by simp [hu, used]), ?_⟩
    · rw [split] at need
      simp [notFree, hu] at need
    rw [cond]
    simpa [hu, used] using types
  · simp only [hu, ↓reduceIte]
    have mark := markFirst_yields h₂ (by simpa using lay₂) (by simp [used]) (by omega) .free
    refine (mark.weaken fun f hf => ⟨hf.1, by simp [notFree, hu], hf.2.2⟩).bind
      fun s' ⟨has, same, n, hr, hl, ht⟩ => ?_
    refine ⟨fun _ => has notOne, same, _, hr, hl, fun fa => ?_, ?_⟩
    · unfold restOf
      simp only [notOne, ↓reduceIte, data_append, data_cons, List.append_assoc,
        List.cons_append, List.nil_append, used] at fa ⊢
      rw [freeApart_split, freeApart_cons] at fa
      rw [freeApart_split, freeApart_cons, freeApart_cons]
      exact ⟨fa.1, by simp [hu], by simp, fa.2.2.congr (by simp [used])⟩
    · rw [cond]
      simpa using ht

/-- Where the last page of a longer section lies: behind its start, and right before the next. -/
theorem Layout.back {l₁ l₂ : List Section} {v w : Section} {i : Nat}
    (lay : Layout (l₁ ++ v :: w :: l₂)) (two : 2 ≤ v.pages)
    (hi : i + 1 = pagesOf l₁ + v.pages) :
    v.start < i * pageSize ∧ i * pageSize = v.start + (v.pages - 1) * pageSize ∧
      w.start - pageSize = i * pageSize ∧ Word.sub w.start pageSize = i * pageSize := by
  have start := lay.start_eq
  obtain ⟨hfin, hws⟩ := lay.fin_lt
  have hwi : w.start - pageSize = i * pageSize := by
    rw [hws, start]
    simp only [pageSize]
    omega
  refine ⟨?_, ?_, hwi, ?_⟩
  · rw [start]
    simp only [pageSize]
    omega
  · have here : pagesOf l₁ + (v.pages - 1) = i := by omega
    rw [start, ← Nat.add_mul, here]
  · rw [Word.sub_eq (hws ▸ hfin) (by rw [hws, start]; simp only [pageSize]; omega), hwi]

/-- The last page of a longer section is freed, whatever is beside it. -/
theorem freesPage_back {l₁ l₂ : List Section} {u v : Section} {i : Nat} (two : 2 ≤ v.pages)
    (hi : i + 1 = pagesOf (l₁ ++ [u]) + v.pages) : freesPage (l₁ ++ u :: v :: l₂) i = true := by
  have at_ := @freesPage_at l₁ l₂ u v i (by omega) (by omega)
  rw [if_neg (by omega)] at at_
  simpa [hi] using at_

/-- Its page is split off where the next section is not free. -/
theorem splitsPage_back {l₁ l₂ : List Section} {u v w : Section} {i : Nat} (two : 2 ≤ v.pages)
    (hi : i + 1 = pagesOf (l₁ ++ [u]) + v.pages) :
    splitsPage (l₁ ++ u :: v :: w :: l₂) i = notFree (some w) := by
  have notOne : v.pages ≠ 1 := by omega
  have notFirst : i ≠ pagesOf (l₁ ++ [u]) := by omega
  have at_ := @splitsPage_at l₁ (w :: l₂) u v i (by omega) (by omega)
  rw [if_neg notFirst] at at_
  simpa [notOne, hi] using at_

/-- The last page of a longer section, the walk standing on the section. -/
theorem freePageLoop_back {fuel : Nat}
    (h : Represents s (k ++ (p, u) :: (a, v) :: (b, w) :: m))
    (lay : Layout (data k ++ u :: v :: w :: (data m ++ e))) (used : v.free = .used)
    (two : 2 ≤ v.pages) (enough : m.length + 1 ≤ fuel) {i : Nat}
    (hi : i + 1 = pagesOf (data k ++ [u]) + v.pages) :
    Yields (Lacks s (splitsPage (data (k ++ (p, u) :: (a, v) :: (b, w) :: m) ++ e) i = true))
      (fun r => Frees e s (k ++ (p, u) :: (a, v) :: (b, w) :: m) i r.2)
      (freePageLoop (i * pageSize) (fuel + 1) s (some a)) := by
  have h₂ : Represents s ((k ++ [(p, u)]) ++ (a, v) :: (b, w) :: m) := by simpa using h
  have h₃ : Represents s ((k ++ [(p, u), (a, v)]) ++ (b, w) :: m) := by simpa using h
  have lay₂ : Layout ((data k ++ [u]) ++ v :: w :: (data m ++ e)) := by simpa using lay
  have cond : freesPage (data (k ++ (p, u) :: (a, v) :: (b, w) :: m) ++ e) i = true := by
    simpa using @freesPage_back (data k) (w :: (data m ++ e)) u v i two hi
  have split : splitsPage (data (k ++ (p, u) :: (a, v) :: (b, w) :: m) ++ e) i
      = notFree (some w) := by
    simpa using @splitsPage_back (data k) (data m ++ e) u v w i two hi
  obtain ⟨hfin, hws⟩ := lay₂.fin_lt
  obtain ⟨hlt, hat, hwi, hsub⟩ := lay₂.back two hi
  have behind := @Layout.later (data k ++ [u]) (w :: (data m ++ e)) v i lay₂ (by omega)
  have later : ∀ x ∈ data ((b, w) :: m), i * pageSize < x.start := fun x mem =>
    behind x (List.mem_append_left e mem)
  have hgt : i * pageSize < w.start := later w (by simp)
  obtain ⟨-, hvw, -⟩ := lay₂.words (by simp [used])
  obtain ⟨hvp, -⟩ := hvw (by omega)
  rw [freePageLoop, h₂.sec_eq]
  simp only [hlt.ne, hlt, hgt, used, reduceCtorEq, ↓reduceIte, h₂.next_eq, headOr_cons, deref_some,
    ok_bind, h₃.sec_eq, hsub]
  by_cases hw : w.free = .free
  · -- the seam moves left; the walk then stops on the free section it has reached
    have lay₃ : Layout ((data k ++ [u, v]) ++ w :: (data m ++ e)) := by simpa using lay
    obtain ⟨hwp, -⟩ := lay₃.words (by simp [hw])
    obtain ⟨lay', types⟩ := lay₂.seamLeft (by simp [used]) (by simp [hw]) two
    have hr := h₂.setVal₂' ⟨v.start, v.pages - 1, .used⟩
      ⟨w.start - pageSize, w.pages + 1, .free⟩
    have stop : ∀ f t, Represents t ((k ++ [(p, u)]) ++ (a, ⟨v.start, v.pages - 1, .used⟩)
          :: (b, ⟨w.start - pageSize, w.pages + 1, .free⟩) :: m) →
        freePageLoop (w.start - pageSize) (f + 1) t (some b) = .ok (false, t) := by
      intro f t ht
      have ht' : Represents t ((k ++ [(p, u), (a, ⟨v.start, v.pages - 1, .used⟩)])
          ++ (b, ⟨w.start - pageSize, w.pages + 1, .free⟩) :: m) := by
        simpa using ht
      rw [freePageLoop, ht'.sec_eq]
      simp
    obtain ⟨f, rfl⟩ : ∃ f, fuel = f + 1 := ⟨fuel - 1, by omega⟩
    simp only [hw, ↓reduceIte, hwp, hvp, ← hwi]
    rw [hr.next_eq, headOr_cons, stop f _ hr]
    refine ⟨fun need => ?_, ⟨rfl, rfl, rfl, rfl, rfl⟩, _, hr, by simpa [used, hw] using lay',
      fun fa => ?_, ?_⟩
    · rw [split] at need
      simp [notFree, hw] at need
    · exact fa.congr (by simp [used, hw])
    · rw [cond]
      have hk : pagesOf (data k ++ [u]) + (v.pages - 1) = i := by omega
      rw [hk] at types
      simpa [hw, used] using types
  · -- the page is split off, marked, and nothing behind it is touched
    simp only [hw, ↓reduceIte]
    have lt : v.pages - 1 < v.pages := by omega
    have hsplit := pmmSectionSplit_yields h₂ (by simp; omega) hfin lt
    obtain ⟨lay', types⟩ := lay₂.split (by simp [used]) (by omega) lt
    have rest : v.pages - (v.pages - 1) = 1 := by omega
    simp only [rest, ← hat, used] at hsplit lay' types
    apply (hsplit.weaken fun f hf => ⟨hf.1, by rw [split]; simp [notFree, hw], hf.2.2⟩).bind
    rintro s' ⟨has, same, n, hr⟩
    have hr' : Represents s' ((k ++ [(p, u), (a, ⟨v.start, v.pages - 1, .used⟩)])
        ++ (n, ⟨i * pageSize, 1, .used⟩) :: (b, w) :: m) := by simpa using hr
    have lay'' : Layout (data (k ++ [(p, u), (a, ⟨v.start, v.pages - 1, .used⟩)])
        ++ ⟨i * pageSize, 1, .used⟩ :: (data ((b, w) :: m) ++ e)) := by simpa using lay'
    rw [hr.next_eq, headOr_cons, deref_some, ok_bind, hr'.sec_eq]
    have mark := markFirst_yields hr' lay'' (by simp) (by simp) .free
    apply (mark.weaken fun f hf => absurd rfl hf.2.1).bind
    rintro t ⟨-, same', n', ht, hl, hy⟩
    simp only [restOf, ↓reduceIte, List.nil_append] at ht hl hy
    have ht' : Represents (t.setVal n { t.sec n with free := .free })
        ((k ++ [(p, u), (a, ⟨v.start, v.pages - 1, .used⟩), (n, ⟨i * pageSize, 1, .free⟩)])
          ++ (b, w) :: m) := by simpa using ht
    rw [ht.next_eq, PassesIdle.behind (freePageLoop_passesIdle _) ht' later (by simpa using enough)]
    rw [freePageLoop]
    refine ⟨fun _ => has trivial, same.trans same', _, ht, hl, fun fa => ?_, ?_⟩
    · simp only [data_append, data_cons, List.append_assoc, List.cons_append,
        List.nil_append] at fa ⊢
      rw [freeApart_split, freeApart_cons, freeApart_cons] at fa
      rw [freeApart_split, freeApart_cons, freeApart_cons, freeApart_cons]
      exact ⟨fa.1, by simp, by simp, by simp [hw], fa.2.2.2⟩
    · rw [cond]
      have hk : pagesOf (data (k ++ [(p, u), (a, ⟨v.start, v.pages - 1, .used⟩)])) = i := by
        simp at hi ⊢
        omega
      simp only [data_append, data_cons, data_nil, List.append_assoc, List.cons_append,
        List.nil_append] at types hy hk ⊢
      rw [hy, types, hk]
      rfl

/-- A page inside a section, the walk standing on the section: no branch takes it. -/
theorem freePageLoop_inside {fuel : Nat}
    (h : Represents s (k ++ (p, u) :: (a, v) :: (b, w) :: m))
    (lay : Layout (data k ++ u :: v :: w :: (data m ++ e))) (used : v.free = .used)
    (enough : m.length + 1 ≤ fuel) {i : Nat} (lo : pagesOf (data k ++ [u]) < i)
    (hi : i + 1 < pagesOf (data k ++ [u]) + v.pages) :
    Yields (Lacks s (splitsPage (data (k ++ (p, u) :: (a, v) :: (b, w) :: m) ++ e) i = true))
      (fun r => Frees e s (k ++ (p, u) :: (a, v) :: (b, w) :: m) i r.2)
      (freePageLoop (i * pageSize) (fuel + 1) s (some a)) := by
  have h₂ : Represents s ((k ++ [(p, u)]) ++ (a, v) :: (b, w) :: m) := by simpa using h
  have h₃ : Represents s ((k ++ [(p, u), (a, v)]) ++ (b, w) :: m) := by simpa using h
  have lay₂ : Layout ((data k ++ [u]) ++ v :: w :: (data m ++ e)) := by simpa using lay
  have notLast : i + 1 ≠ pagesOf (data k ++ [u]) + v.pages := by omega
  have notFirst : i ≠ pagesOf (data k ++ [u]) := by omega
  have cond : freesPage (data (k ++ (p, u) :: (a, v) :: (b, w) :: m) ++ e) i = false := by
    have := @freesPage_at (data k) (w :: (data m ++ e)) u v i (by omega) (by omega)
    rw [if_neg (by omega)] at this
    rw [decide_eq_false notLast, decide_eq_false notFirst, Bool.false_and, Bool.or_false] at this
    simpa using this
  have whole : splitsPage (data (k ++ (p, u) :: (a, v) :: (b, w) :: m) ++ e) i = false := by
    have := @splitsPage_at (data k) (w :: (data m ++ e)) u v i (by omega) (by omega)
    rw [if_neg notFirst, decide_eq_false notLast, Bool.false_and, Bool.and_false] at this
    simpa using this
  have start := lay₂.start_eq
  obtain ⟨hfin, hws⟩ := lay₂.fin_lt
  have behind := @Layout.later (data k ++ [u]) (w :: (data m ++ e)) v i lay₂ (by omega)
  have later : ∀ x ∈ data ((b, w) :: m), i * pageSize < x.start := fun x mem =>
    behind x (List.mem_append_left e mem)
  have hlt : v.start < i * pageSize := by
    rw [start]
    simp only [pageSize]
    omega
  have hgt : i * pageSize < w.start := later w (by simp)
  have hsub : Word.sub w.start pageSize ≠ i * pageSize := by
    rw [Word.sub_eq (hws ▸ hfin) (by rw [hws]; simp only [pageSize]; omega), hws, start]
    simp only [pageSize]
    omega
  rw [freePageLoop, h₂.sec_eq]
  simp only [hlt.ne, hlt, hgt, used, reduceCtorEq, ↓reduceIte, h₂.next_eq, headOr_cons, deref_some,
    ok_bind, h₃.sec_eq, hsub]
  rw [← headOr_cons (b, w) m none, PassesIdle.behind (freePageLoop_passesIdle _) h₃ later
    (by simpa using enough)]
  rw [freePageLoop]
  exact frees_same h (by simpa using lay) cond whole

/-- The walk of `pmm_free_page` for a used page, from the first section on: it stops at the section
of the page, and which branch it takes there is read off the neighbours. `before` says that it does
not look behind the last section. -/
theorem freePageLoop_yields {l : List (Nat × Section)} {i : Nat}
    (beyond : ∀ w ∈ e, w.free ≠ .used) (h : Represents s l) (lay : Layout (data l ++ e))
    (used : typeAt (data l ++ e) i = some .used) (before : looksBehind (data l) i = false) :
    Yields (Lacks s (splitsPage (data l ++ e) i = true)) (fun r => Frees e s l i r.2)
      (freePageLoop (i * pageSize) s.fuel s (headOr l none)) := by
  obtain ⟨l₁, a, v, l₂, rfl, hv, lo, hi⟩ := exists_section_within beyond used
  have layv : Layout (data l₁ ++ v :: (data l₂ ++ e)) := by simpa using lay
  have hfuel := h.length_le
  simp only [List.length_append, List.length_cons] at hfuel
  by_cases clear : ∀ q x r, l₁ = q ++ x :: r → pagesOf (data q) ≠ i
  · -- the walk reaches the section that holds the page
    rw [PassesIdle.reach (freePageLoop_passesIdle _) h (layv.idle_stretch lo clear)
      (by simp only [State.fuel]; omega), headOr_cons]
    obtain ⟨q, p, u, rfl⟩ := layv.before_slots (by simp [hv])
    obtain ⟨f, hf⟩ : ∃ f, s.fuel - (q ++ [(p, u)]).length = f + 1 :=
      ⟨s.capacity + 1 - (q ++ [(p, u)]).length, by simp only [State.fuel]; omega⟩
    have enough : l₂.length ≤ f := by
      simp only [State.fuel] at hf
      omega
    have h' : Represents s (q ++ (p, u) :: (a, v) :: l₂) := by simpa using h
    have lay' : Layout (data q ++ u :: v :: (data l₂ ++ e)) := by simpa using lay
    have start := @Layout.start_eq (data q ++ [u]) (data l₂ ++ e) v (by simpa using lay)
    have hpg : pagesOf (data (q ++ [(p, u)])) = pagesOf (data q ++ [u]) := by simp
    rw [hpg] at lo hi
    have ne : i = pagesOf (data q ++ [u]) → u.pages ≠ 0 := by
      intro first
      have := clear q (p, u) [] rfl
      simp only [pagesOf_append, pagesOf_cons, pagesOf_nil] at first
      omega
    rw [hf]
    cases l₂ with
    | nil =>
      -- in the last section it is the first page of several
      obtain ⟨first, one⟩ := looksBehind_last lo hi (by simpa using before)
      have notOne : v.pages ≠ 1 := fun single => ne first (one single)
      rw [first] at hi ⊢
      rw [← start]
      simpa using freePageLoop_front f h' lay' hv (by omega) (ne first)
    | cons y m =>
      obtain ⟨b, w⟩ := y
      by_cases first : i = pagesOf (data q ++ [u])
      · rw [first] at hi ⊢
        rw [← start]
        by_cases one : v.pages = 1
        · simpa using freePageLoop_single f h' lay' hv one
        · simpa using freePageLoop_front f h' lay' hv (by omega) (ne first)
      · by_cases last : i + 1 = pagesOf (data q ++ [u]) + v.pages
        · simpa using freePageLoop_back h' lay' hv (by omega) enough last
        · simpa using freePageLoop_inside h' lay' hv enough (by omega) (by omega)
  · -- an empty section that begins at the page stops the walk
    simp only [not_forall, not_not] at clear
    obtain ⟨q, x, r, rfl, hq, clear'⟩ := exists_first (by
      obtain ⟨q, x, r, eq, hq⟩ := clear
      exact ⟨q, x, r, eq, hq⟩)
    obtain ⟨c, x⟩ := x
    have h' : Represents s (q ++ (c, x) :: (r ++ (a, v) :: l₂)) := by simpa using h
    have lay' : Layout (data q ++ x :: (data (r ++ (a, v) :: l₂) ++ e)) := by simpa using lay
    have hsum : x.pages = 0 ∧ pagesOf (data r) = 0 := by
      simp only [data_append, data_cons, pagesOf_append, pagesOf_cons] at lo
      omega
    have hx : x.free = .free := lay'.empty x (by simp) hsum.1
    have start : x.start = i * pageSize := by rw [lay'.start_eq, hq]
    simp only [List.length_append, List.length_cons] at hfuel
    obtain ⟨f, hf⟩ : ∃ f, s.fuel - q.length = f + 1 :=
      ⟨s.capacity + 1 - q.length, by simp only [State.fuel]; omega⟩
    have stop : freePageLoop (i * pageSize) (f + 1) s (some c) = .ok (false, s) := by
      rw [freePageLoop, h'.sec_eq]
      simp [start, hx]
    rw [List.append_assoc, List.cons_append,
      PassesIdle.reach (freePageLoop_passesIdle _) h' (lay'.idle_stretch hq.le clear')
        (by simp only [State.fuel]; omega), headOr_cons, hf, stop]
    -- the section right before the page is empty as well, so the condition fails
    suffices blocked : freesPage (data (q ++ (c, x) :: (r ++ (a, v) :: l₂)) ++ e) i = false ∧
        splitsPage (data (q ++ (c, x) :: (r ++ (a, v) :: l₂)) ++ e) i = false from
      frees_same h' (by simpa using lay') blocked.1 blocked.2
    rcases List.eq_nil_or_concat r with rfl | ⟨r', y, rfl⟩
    · have := @freesPage_blocked (data q) (data l₂ ++ e) x v i hsum.1 hx (by simp [hq, hsum.1])
        (by omega)
      simpa using this
    · have hy : y.2.pages = 0 ∧ pagesOf (data r') = 0 := by
        have := hsum.2
        simp only [List.concat_eq_append, data_append, data_cons, data_nil, pagesOf_append,
          pagesOf_cons, pagesOf_nil] at this
        omega
      have := @freesPage_blocked (data (q ++ (c, x) :: r')) (data l₂ ++ e) y.2 v i hy.1
        (lay'.empty y.2 (by simp) hy.1) (by simp [hq, hsum.1, hy]) (by omega)
      simpa using this

/-- `pmm_free_page` on a used page, as far as it does not look behind the last section, changes at
most that page, and it frees the page exactly when `freesPage` says so. -/
theorem pmmFreePage_within {l : List (Nat × Section)} {i : Nat}
    (beyond : ∀ w ∈ e, w.free ≠ .used) (h : Represents s l) (lay : Layout (data l ++ e))
    (open_ : s.allowing = true) (used : typeAt (data l ++ e) i = some .used)
    (before : looksBehind (data l) i = false) :
    Yields (Lacks s (splitsPage (data l ++ e) i = true)) (fun s' =>
        Has s (splitsPage (data l ++ e) i = true) ∧ ∃ l', Represents s' l' ∧
        Layout (data l' ++ e) ∧ (FreeApart (data l ++ e) → FreeApart (data l' ++ e)) ∧
        s'.allowing = true ∧ s'.pmmSections = s.pmmSections ∧ s'.dataSize = s.dataSize ∧
        s'.pools = s.pools ∧ typeAt (data l' ++ e) = if freesPage (data l ++ e) i then
          Function.update (typeAt (data l ++ e)) i (some .free) else typeAt (data l ++ e))
      (pmmFreePage s (i * pageSize)) := by
  unfold pmmFreePage
  simp only [open_, not_true_eq_false, ↓reduceIte, h.first_eq]
  refine (freePageLoop_yields beyond h lay used before).bind
    fun ⟨fell, s'⟩ ⟨has, same, l', hr, hl, ha, ht⟩ => ?_
  cases fell with
  | false =>
    exact ⟨has, l', hr, hl, ha, same.allowing.trans open_, same.pmmSections, same.dataSize,
      same.pools, ht⟩
  | true =>
    exact ⟨has, l', hr.congr rfl rfl rfl, hl, ha, same.allowing.trans open_, same.pmmSections,
      same.dataSize, same.pools, ht⟩

end

/-- A page that is not bad lies before a bad last section. -/
theorem Layout.before_last {l : List Section} (lay : Layout l) {k : Nat} {t : SectionType}
    (ht : typeAt l k = some t) (good : t ≠ .bad) : looksBehind l k = false := by
  obtain ⟨r₁, n, r₂, split, lo, hi⟩ := exists_run ht
  obtain ⟨l₁, l₃, rfl, rfl, rest⟩ := List.map_eq_append_iff.mp split
  obtain ⟨v, l₂, rfl, hv, rfl⟩ := List.map_eq_cons_iff.mp rest
  obtain ⟨rfl, kind⟩ := Prod.mk.inj hv
  obtain ⟨q, u, w, m, rfl, rfl⟩ := lay.neighbours (by rwa [kind])
  rw [List.append_assoc, List.singleton_append, looksBehind, atPage_at lo hi]
  rfl

/-- `pmm_free_page` on a used page changes at most that page, and it frees the page exactly
when `freesPage` says so. -/
theorem pmmFreePage_yields {s : State} {l : List (Nat × Section)} {k : Nat}
    (h : Represents s l) (lay : Layout (data l)) (open_ : s.allowing = true)
    (used : typeAt (data l) k = some .used) :
    Yields (Lacks s (splitsPage (data l) k = true)) (fun s' =>
        Has s (splitsPage (data l) k = true) ∧ ∃ l', Represents s' l' ∧ Layout (data l') ∧
        (FreeApart (data l) → FreeApart (data l')) ∧ s'.allowing = true ∧
        s'.pmmSections = s.pmmSections ∧ s'.dataSize = s.dataSize ∧ s'.pools = s.pools ∧
        typeAt (data l') = if freesPage (data l) k then
          Function.update (typeAt (data l)) k (some .free) else typeAt (data l))
      (pmmFreePage s (k * pageSize)) := by
  have whole := @pmmFreePage_within [] s l k (by simp) h (by simpa using lay) open_
    (by simpa using used) (lay.before_last used (by simp))
  simpa only [List.append_nil] using whole

end Skylight.Pmm
