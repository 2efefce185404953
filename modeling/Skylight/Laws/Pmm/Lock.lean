import Skylight.Laws.Pmm.Free

/-!
# Locking one page

`pmm_lock_page` on a free page marks exactly that page used, wherever it lies in its
section and whatever the neighbours are. The proof needs free sections to stand apart:
then no empty section can stand before the page and stop the walk early.

`pmmLockPage_yields` and `pmmLockPages_yields` are for lists before bad memory, where nothing
can be looked for behind the last section. For the others the conditions are `Ahead` and
`looksBehind`, and the laws that end in `_within` carry what stands behind the list along.
-/

namespace Skylight.Pmm

open Chain RunLength

/-- The walk of `pmm_lock_page` passes over idle sections. -/
theorem lockPageLoop_passesIdle (page : Nat) : PassesIdle page (lockPageLoop page) := by
  intro fuel s l₁ l₂ a v h idle
  rw [lockPageLoop, h.sec_eq]
  by_cases lt : v.start < page
  · obtain ⟨w, hw, hle⟩ := idle.2 lt
    cases l₂ with
    | nil => simp at hw
    | cons y l₂ =>
      obtain ⟨b, w'⟩ := y
      obtain rfl : w' = w := by simpa using hw
      have hb : s.sec b = w' := by
        have : Represents s ((l₁ ++ [(a, v)]) ++ (b, w') :: l₂) := by simpa using h
        exact this.sec_eq
      simp [idle.1, lt, h.next_eq, hb, Nat.not_lt_of_le hle]
  · simp [idle.1, lt, h.next_eq]

/-- Where free sections stand apart, no section before a free page begins at it. -/
theorem clear_of_freeApart {l₁ : List (Nat × Section)} {l₂ : List Section} {k : Nat}
    {v : Section} (lay : Layout (data l₁ ++ v :: l₂)) (apart : FreeApart (data l₁ ++ v :: l₂))
    (free : v.free = .free) (lo : pagesOf (data l₁) ≤ k) :
    ∀ q x r, l₁ = q ++ x :: r → pagesOf (data q) ≠ k := by
  rintro q x r rfl hq
  -- the section right before the free one would be empty, hence free
  have next_empty : ∀ y l, q ++ x :: r = l ++ [y] → y.2.pages ≠ 0 := by
    intro y l eq h0
    have hy := lay.empty y.2 (by rw [eq]; simp) h0
    rw [eq] at apart
    simp only [data_append, data_cons, data_nil, List.append_assoc, List.cons_append,
      List.nil_append] at apart
    rw [freeApart_split, freeApart_cons] at apart
    exact apart.2.1 ⟨hy, free⟩
  simp only [data_append, data_cons, pagesOf_append, pagesOf_cons] at lo
  rcases List.eq_nil_or_concat r with rfl | ⟨r', y, rfl⟩
  · exact next_empty x q rfl (by omega)
  · refine next_empty y (q ++ x :: r') (by simp) ?_
    simp only [List.concat_eq_append, data_append, data_cons, data_nil, pagesOf_append,
      pagesOf_cons, pagesOf_nil] at lo
    omega

/-- What locking page `k` leaves of a list, `e` lying beyond it. -/
def Locks (e : List Section) (s : State) (l : List (Nat × Section)) (k : Nat) (s' : State) : Prop :=
  SameGlobals s s' ∧ ∃ l', Represents s' l' ∧ Layout (data l' ++ e) ∧ FreeApart (data l' ++ e) ∧
    typeAt (data l' ++ e) = Function.update (typeAt (data l ++ e)) k (some .used)

section
variable {e : List Section}
variable {s : State} {k m : List (Nat × Section)} {p a b : Nat} {u v w : Section}

/-- A section of one page, the walk standing on it: it joins its used neighbours. -/
theorem lockPageLoop_single (fuel : Nat)
    (h : Represents s (k ++ (p, u) :: (a, v) :: (b, w) :: m))
    (lay : Layout (data k ++ u :: v :: w :: (data m ++ e)))
    (apart : FreeApart (data k ++ u :: v :: w :: (data m ++ e))) (free : v.free = .free)
    (one : v.pages = 1) :
    Yields OutOfSections (Locks e s (k ++ (p, u) :: (a, v) :: (b, w) :: m)
        (pagesOf (data k ++ [u])))
      (lockPageLoop v.start (fuel + 1) s (some a)) := by
  have h₂ : Represents s ((k ++ [(p, u)]) ++ (a, v) :: (b, w) :: m) := by simpa using h
  have lay₂ : Layout ((data k ++ [u]) ++ v :: w :: (data m ++ e)) := by simpa using lay
  rw [freeApart_split, freeApart_cons, freeApart_cons] at apart
  -- the section is marked first; the combines then see equal kinds
  obtain ⟨lay', types⟩ := lay₂.retag (by simp [free]) one .used
  have hr : Represents (s.setVal a ⟨v.start, 1, .used⟩)
      (k ++ (p, u) :: (a, ⟨v.start, 1, .used⟩) :: (b, w) :: m) := by
    simpa using h₂.setVal ⟨v.start, 1, .used⟩
  have hr₂ : Represents (s.setVal a ⟨v.start, 1, .used⟩)
      ((k ++ [(p, u)]) ++ (a, ⟨v.start, 1, .used⟩) :: (b, w) :: m) := by simpa using hr
  have hr₃ : Represents (s.setVal a ⟨v.start, 1, .used⟩)
      ((k ++ [(p, u), (a, ⟨v.start, 1, .used⟩)]) ++ (b, w) :: m) := by simpa using hr
  have same := sameGlobals_setVal s a ⟨v.start, 1, .used⟩
  have tv : typeAt (data k ++ u :: ⟨v.start, 1, .used⟩ :: w :: (data m ++ e))
      = Function.update (typeAt (data k ++ u :: v :: w :: (data m ++ e))) (pagesOf (data k ++ [u]))
        (some .used) := by simpa [one] using types
  have lv : Layout (data k ++ u :: ⟨v.start, 1, .used⟩ :: w :: (data m ++ e)) := by
    simpa [one] using lay'
  have lv₂ : Layout ((data k ++ [u]) ++ ⟨v.start, 1, .used⟩ :: w :: (data m ++ e)) := by
    simpa using lv
  have lv₃ : Layout ((data k ++ [u, ⟨v.start, 1, .used⟩]) ++ w :: (data m ++ e)) := by
    simpa using lv
  rw [lockPageLoop, h₂.sec_eq]
  simp only [one, and_self, ↓reduceIte, hr₂.prev_eq, hr₂.next_eq, lastOr_append, lastOr_cons,
    lastOr_nil, headOr_cons, deref_some, ok_bind, hr.sec_eq, hr₃.sec_eq]
  by_cases hu : u.free = .used <;> by_cases hw : w.free = .used
  · -- both neighbours: the successor absorbs the page, then the predecessor
    obtain ⟨lay₁, types₁⟩ := lv₂.merge (by simp [hw]) hw.symm
    have fits₁ : w.pages + 1 < 2 ^ 64 := by
      have := lay₁.fin_lt_of_ne_bad (by simp [hw])
      simp only [pageSize] at this
      omega
    obtain ⟨s₁, run₁, same₁, hr₁⟩ := pmmSectionCombineNext_eq hr hw.symm fits₁
    obtain ⟨k, o, x, rfl⟩ := Layout.before_slots
      (show Layout (data k ++ u :: (⟨v.start, w.pages + 1, w.free⟩ :: (data m ++ e))) by
        simpa [Nat.add_comm] using lay₁) (by simp [hu])
    have lay₁' : Layout ((data (k ++ [(o, x)])) ++ u :: ⟨v.start, w.pages + 1, w.free⟩
        :: (data m ++ e)) := by simpa [Nat.add_comm] using lay₁
    obtain ⟨lay₂, types₂⟩ := lay₁'.merge (by simp [hw]) (by simp [hu, hw])
    have fits₂ : w.pages + 1 + u.pages < 2 ^ 64 := by
      have := lay₂.fin_lt_of_ne_bad (by simp [hw])
      simp only [pageSize] at this
      omega
    obtain ⟨s₂, run₂, same₂, hr₂⟩ := pmmSectionCombineNext_eq (u := x) (v := u)
      (by simpa using hr₁) (by simp [hu, hw]) fits₂
    simp only [hu, hw, and_self, ↓reduceIte, run₁, ok_bind, run₂, yields_ok]
    refine ⟨(same.trans same₁).trans same₂, _, hr₂, ?_, ?_, ?_⟩
    · simpa [Nat.add_comm, Nat.add_left_comm] using lay₂
    · have := apart.1
      simp only [data_append, data_cons, data_nil, List.append_assoc, List.cons_append,
        List.nil_append] at this ⊢
      rw [freeApart_split, freeApart_cons] at this ⊢
      have tail := apart.2.2.2
      refine ⟨this.1, by simp [hw], tail.congr (by simp)⟩
    · have chain := types₂.trans (by simpa [Nat.add_comm] using types₁.trans (by simpa using tv))
      simpa [Nat.add_comm, Nat.add_left_comm] using chain
  · obtain ⟨lay₁, types₁⟩ := lv.merge (by simp) hu
    have fits₁ : u.pages + 1 < 2 ^ 64 := (lv.words (by simp [hu])).1 ▸ Word.add_lt ..
    obtain ⟨s₁, run₁, same₁, hr₁⟩ := pmmSectionCombinePrev_eq hr hu.symm fits₁
    simp only [hu, hw, and_false, ↓reduceIte, run₁, yields_ok]
    refine ⟨same.trans same₁, _, hr₁, ?_, ?_, ?_⟩
    · simpa [hu] using lay₁
    · simp only [data_append, data_cons, List.append_assoc, List.cons_append]
      rw [freeApart_split, freeApart_cons]
      exact ⟨apart.1.congr (by simp), by simp [hu], apart.2.2.2⟩
    · have chain := types₁.trans tv
      simpa [hu] using chain
  · obtain ⟨lay₁, types₁⟩ := lv₂.merge (by simp [hw]) hw.symm
    have fits₁ : w.pages + 1 < 2 ^ 64 := by
      have := lay₁.fin_lt_of_ne_bad (by simp [hw])
      simp only [pageSize] at this
      omega
    obtain ⟨s₁, run₁, same₁, hr₁⟩ := pmmSectionCombineNext_eq hr hw.symm fits₁
    simp only [hu, hw, false_and, ↓reduceIte, run₁, yields_ok]
    refine ⟨same.trans same₁, _, hr₁, ?_, ?_, ?_⟩
    · simpa [Nat.add_comm] using lay₁
    · simp only [data_append, data_cons, List.append_assoc, List.cons_append]
      rw [freeApart_split, freeApart_cons]
      exact ⟨apart.1, by simp [hw], apart.2.2.2.congr (by simp)⟩
    · have chain := types₁
      simp only [List.append_assoc, List.singleton_append, tv] at chain
      simpa [Nat.add_comm] using chain
  · simp only [hu, hw, and_self, ↓reduceIte]
    refine ⟨same, _, hr, by simpa using lv, ?_, by simpa using tv⟩
    simp only [data_append, data_cons, List.append_assoc, List.cons_append]
    rw [freeApart_split, freeApart_cons, freeApart_cons]
    exact ⟨apart.1, by simp, by simp, apart.2.2.2⟩

/-- The first page of a longer section behind a used one: the seam moves. -/
theorem lockPageLoop_grow {l : List (Nat × Section)} (fuel : Nat)
    (h : Represents s (k ++ (p, u) :: (a, v) :: l)) (hu : u.free = .used) (hv : v.free = .free)
    (notOne : v.pages ≠ 1) :
    lockPageLoop v.start (fuel + 1) s (some a) = .ok
      ((s.setVal p { u with pages := Word.add u.pages 1 }).setVal a
        { v with pages := Word.sub v.pages 1, start := Word.add v.start pageSize }) := by
  have h₂ : Represents s ((k ++ [(p, u)]) ++ (a, v) :: l) := by simpa using h
  rw [lockPageLoop, h₂.sec_eq]
  simp only [notOne, hv, hu, false_and, reduceCtorEq, ↓reduceIte, h₂.prev_eq, lastOr_append,
    lastOr_cons, lastOr_nil, deref_some, ok_bind, h.sec_eq, pure_eq_ok]

/-- The first page of a longer section, the walk standing on the section. -/
theorem lockPageLoop_front (fuel : Nat) (h : Represents s (k ++ (p, u) :: (a, v) :: m))
    (lay : Layout (data k ++ u :: v :: (data m ++ e)))
    (apart : FreeApart (data k ++ u :: v :: (data m ++ e))) (free : v.free = .free)
    (two : 2 ≤ v.pages) :
    Yields OutOfSections (Locks e s (k ++ (p, u) :: (a, v) :: m) (pagesOf (data k ++ [u])))
      (lockPageLoop v.start (fuel + 1) s (some a)) := by
  have h₂ : Represents s ((k ++ [(p, u)]) ++ (a, v) :: m) := by simpa using h
  have lay₂ : Layout ((data k ++ [u]) ++ v :: (data m ++ e)) := by simpa using lay
  have notOne : v.pages ≠ 1 := by omega
  by_cases hu : u.free = .used
  · rw [lockPageLoop_grow fuel h hu free notOne]
    obtain ⟨hup, -⟩ := lay.words (by simp [hu])
    obtain ⟨-, hvw, -⟩ := lay₂.words (by simp [free])
    obtain ⟨hvp, hvs⟩ := hvw (by omega)
    obtain ⟨lay', types⟩ := lay.seamRight (by simp [hu]) (by simp [free]) (by omega) (by omega)
    rw [hup, hvp, hvs]
    refine ⟨⟨rfl, rfl, rfl, rfl, rfl⟩, _, h.setVal₂ _ _, by simpa [hu, free] using lay',
      ?_, by simpa [hu, free] using types⟩
    exact apart.congr (by simp [hu, free])
  · rw [lockPageLoop, h₂.sec_eq]
    simp only [free, notOne, hu, false_and, reduceCtorEq, ↓reduceIte, h₂.prev_eq, lastOr_append,
      lastOr_cons, lastOr_nil, deref_some, ok_bind, h.sec_eq]
    have mark := markFirst_yields h₂ (by simpa using lay₂) (by simp [free]) (by omega) .used
    refine (mark.weaken Lacks.out).bind fun s' ⟨_, same, n, hr, hl, ht⟩ => ?_
    refine ⟨same, _, hr, hl, ?_, by simpa using ht⟩
    unfold restOf
    rw [freeApart_split, freeApart_cons] at apart
    simp only [notOne, ↓reduceIte, data_append, data_cons, List.append_assoc,
      List.cons_append, List.nil_append, free]
    rw [freeApart_split, freeApart_cons, freeApart_cons]
    exact ⟨apart.1, by simp, by simp, apart.2.2.congr (by simp [free])⟩

/-- The last page of a longer section, the walk standing on the section. -/
theorem lockPageLoop_back {fuel : Nat}
    (h : Represents s (k ++ (p, u) :: (a, v) :: (b, w) :: m))
    (lay : Layout (data k ++ u :: v :: w :: (data m ++ e)))
    (apart : FreeApart (data k ++ u :: v :: w :: (data m ++ e))) (free : v.free = .free)
    (two : 2 ≤ v.pages) (enough : m.length + 1 ≤ fuel) {i : Nat}
    (hi : i + 1 = pagesOf (data k ++ [u]) + v.pages) :
    Yields OutOfSections (Locks e s (k ++ (p, u) :: (a, v) :: (b, w) :: m) i)
      (lockPageLoop (i * pageSize) (fuel + 1) s (some a)) := by
  have h₂ : Represents s ((k ++ [(p, u)]) ++ (a, v) :: (b, w) :: m) := by simpa using h
  have h₃ : Represents s ((k ++ [(p, u), (a, v)]) ++ (b, w) :: m) := by simpa using h
  have lay₂ : Layout ((data k ++ [u]) ++ v :: w :: (data m ++ e)) := by simpa using lay
  obtain ⟨hfin, hws⟩ := lay₂.fin_lt
  obtain ⟨hlt, hat, hwi, hsub⟩ := lay₂.back two hi
  have behind := @Layout.later (data k ++ [u]) (w :: (data m ++ e)) v i lay₂ (by omega)
  have later : ∀ x ∈ data ((b, w) :: m), i * pageSize < x.start := fun x mem =>
    behind x (List.mem_append_left e mem)
  have hgt : i * pageSize < w.start := later w (by simp)
  have notOne : v.pages ≠ 1 := by omega
  obtain ⟨-, hvw, -⟩ := lay₂.words (by simp [free])
  obtain ⟨hvp, -⟩ := hvw (by omega)
  rw [freeApart_split, freeApart_cons, freeApart_cons] at apart
  rw [lockPageLoop, h₂.sec_eq]
  simp only [notOne, false_and, hlt.ne, hlt, hgt, free, reduceCtorEq, ↓reduceIte, h₂.next_eq,
    headOr_cons, deref_some, ok_bind, h₃.sec_eq, hsub]
  by_cases hw : w.free = .used
  · -- the seam moves left; the walk then stops on the used section it has reached
    have lay₃ : Layout ((data k ++ [u, v]) ++ w :: (data m ++ e)) := by simpa using lay
    obtain ⟨hwp, -⟩ := lay₃.words (by simp [hw])
    obtain ⟨lay', types⟩ := lay₂.seamLeft (by simp [free]) (by simp [hw]) two
    have hr := h₂.setVal₂' ⟨v.start, v.pages - 1, .free⟩
      ⟨w.start - pageSize, w.pages + 1, .used⟩
    have notFirst : w.pages + 1 ≠ 1 := by
      have := lay.empty w (by simp)
      simp only [hw, reduceCtorEq, imp_false] at this
      omega
    have stop : ∀ f t, Represents t ((k ++ [(p, u)]) ++ (a, ⟨v.start, v.pages - 1, .free⟩)
          :: (b, ⟨w.start - pageSize, w.pages + 1, .used⟩) :: m) →
        lockPageLoop (w.start - pageSize) (f + 1) t (some b) = .ok t := by
      intro f t ht
      have ht' : Represents t ((k ++ [(p, u), (a, ⟨v.start, v.pages - 1, .free⟩)])
          ++ (b, ⟨w.start - pageSize, w.pages + 1, .used⟩) :: m) := by
        simpa using ht
      rw [lockPageLoop, ht'.sec_eq]
      simp only [notFirst, false_and, ↓reduceIte, pure_eq_ok]
    obtain ⟨f, rfl⟩ : ∃ f, fuel = f + 1 := ⟨fuel - 1, by omega⟩
    simp only [hw, ↓reduceIte, hwp, hvp, ← hwi]
    rw [hr.next_eq, headOr_cons, stop f _ hr]
    refine ⟨⟨rfl, rfl, rfl, rfl, rfl⟩, _, hr, by simpa [free, hw] using lay', ?_, ?_⟩
    · simp only [data_append, data_cons, List.append_assoc, List.cons_append,
        List.nil_append]
      rw [freeApart_split, freeApart_cons, freeApart_cons]
      exact ⟨apart.1, by simpa [free] using apart.2.1, by simp, apart.2.2.2.congr (by simp [hw])⟩
    · have hk : pagesOf (data k ++ [u]) + (v.pages - 1) = i := by omega
      rw [hk] at types
      simpa [hw, free] using types
  · -- the page is split off and marked, and nothing behind it is touched
    simp only [hw, ↓reduceIte]
    have lt : v.pages - 1 < v.pages := by omega
    have hsplit := pmmSectionSplit_yields h₂ (by simp; omega) hfin lt
    obtain ⟨lay', types⟩ := lay₂.split (by simp [free]) (by omega) lt
    have rest : v.pages - (v.pages - 1) = 1 := by omega
    simp only [rest, ← hat, free] at hsplit lay' types
    apply (hsplit.weaken Lacks.out).bind
    rintro s' ⟨-, same, n, hr⟩
    have hr' : Represents s' ((k ++ [(p, u), (a, ⟨v.start, v.pages - 1, .free⟩)])
        ++ (n, ⟨i * pageSize, 1, .free⟩) :: (b, w) :: m) := by simpa using hr
    have lay'' : Layout ((data k ++ [u, ⟨v.start, v.pages - 1, .free⟩])
        ++ ⟨i * pageSize, 1, .free⟩ :: w :: (data m ++ e)) := by simpa using lay'
    obtain ⟨hl, hy⟩ := lay''.retag (by simp) rfl .used
    have ht := hr'.setVal ⟨i * pageSize, 1, .used⟩
    have ht' : Represents (s'.setVal n ⟨i * pageSize, 1, .used⟩)
        ((k ++ [(p, u), (a, ⟨v.start, v.pages - 1, .free⟩), (n, ⟨i * pageSize, 1, .used⟩)])
          ++ (b, w) :: m) := by simpa using ht
    rw [hr.next_eq, headOr_cons, deref_some, ok_bind, hr'.sec_eq]
    simp only
    rw [ht.next_eq, PassesIdle.behind (lockPageLoop_passesIdle _) ht' later (by simpa using enough)]
    rw [lockPageLoop]
    refine ⟨same.trans (sameGlobals_setVal ..), _, ht', by simpa using hl, ?_, ?_⟩
    · simp only [data_append, data_cons, List.append_assoc, List.cons_append,
        List.nil_append]
      rw [freeApart_split, freeApart_cons, freeApart_cons, freeApart_cons]
      exact ⟨apart.1, by simpa [free] using apart.2.1, by simp, by simp, apart.2.2.2⟩
    · have hk : pagesOf (data k ++ [u, ⟨v.start, v.pages - 1, .free⟩]) = i := by
        simp at hi ⊢
        omega
      rw [hk] at hy
      have chain := hy
      simp only [List.append_assoc, List.cons_append, List.nil_append] at chain types
      rw [types] at chain
      simpa using chain

/-- A page inside a section, the walk standing on the section: both sides are split off. -/
theorem lockPageLoop_inside {fuel : Nat}
    (h : Represents s (k ++ (p, u) :: (a, v) :: (b, w) :: m))
    (lay : Layout (data k ++ u :: v :: w :: (data m ++ e)))
    (apart : FreeApart (data k ++ u :: v :: w :: (data m ++ e))) (free : v.free = .free)
    (enough : m.length + 2 ≤ fuel) {i : Nat} (lo : pagesOf (data k ++ [u]) < i)
    (hi : i + 1 < pagesOf (data k ++ [u]) + v.pages) :
    Yields OutOfSections (Locks e s (k ++ (p, u) :: (a, v) :: (b, w) :: m) i)
      (lockPageLoop (i * pageSize) (fuel + 1) s (some a)) := by
  have h₂ : Represents s ((k ++ [(p, u)]) ++ (a, v) :: (b, w) :: m) := by simpa using h
  have h₃ : Represents s ((k ++ [(p, u), (a, v)]) ++ (b, w) :: m) := by simpa using h
  have lay₂ : Layout ((data k ++ [u]) ++ v :: w :: (data m ++ e)) := by simpa using lay
  have start := lay₂.start_eq
  obtain ⟨hfin, hws⟩ := lay₂.fin_lt
  have behind := @Layout.later (data k ++ [u]) (w :: (data m ++ e)) v i lay₂ (by omega)
  have later : ∀ x ∈ data ((b, w) :: m), i * pageSize < x.start := fun x mem =>
    behind x (List.mem_append_left e mem)
  have hlt : v.start < i * pageSize := by
    rw [start]
    simp only [pageSize]
    omega
  have hgt : i * pageSize < w.start := later w (by simp)
  have hsub : Word.sub w.start pageSize ≠ i * pageSize := by
    rw [Word.sub_eq (hws ▸ hfin) (by rw [hws]; simp only [pageSize]; omega), hws, start]
    simp only [pageSize]
    omega
  have notOne : v.pages ≠ 1 := by omega
  obtain ⟨j, hj⟩ : ∃ j, i = pagesOf (data k ++ [u]) + j := ⟨i - pagesOf (data k ++ [u]), by omega⟩
  have hat : i * pageSize = v.start + j * pageSize := by rw [start, ← Nat.add_mul, hj]
  have lt : j < v.pages := by omega
  rw [freeApart_split, freeApart_cons, freeApart_cons] at apart
  rw [lockPageLoop, h₂.sec_eq]
  simp only [notOne, false_and, hlt.ne, hlt, hgt, free, reduceCtorEq, ↓reduceIte, h₂.next_eq,
    headOr_cons, deref_some, ok_bind, h₃.sec_eq, hsub]
  have hsplit := pmmSectionSplit_yields h₂ (by simp; omega) hfin lt
  obtain ⟨lay', types⟩ := lay₂.split (by simp [free]) (by omega) lt
  simp only [← hat, free] at hsplit lay' types
  apply (hsplit.weaken Lacks.out).bind
  rintro s' ⟨-, same, n, hr⟩
  have hr' : Represents s' ((k ++ [(p, u), (a, ⟨v.start, j, .free⟩)])
      ++ (n, ⟨i * pageSize, v.pages - j, .free⟩) :: (b, w) :: m) := by simpa using hr
  have lay'' : Layout (data (k ++ [(p, u), (a, ⟨v.start, j, .free⟩)])
      ++ ⟨i * pageSize, v.pages - j, .free⟩ :: (data ((b, w) :: m) ++ e)) := by simpa using lay'
  rw [hr.next_eq, headOr_cons, deref_some, ok_bind, hr'.sec_eq]
  have mark := markFirst_yields hr' lay'' (by simp) (by simp; omega) .used
  apply (mark.weaken Lacks.out).bind
  rintro t ⟨-, same', n', ht, hl, hy⟩
  have longer : v.pages - j ≠ 1 := by omega
  simp only [restOf, longer, ↓reduceIte, List.cons_append, List.nil_append] at ht hl hy
  have ht' : Represents (t.setVal n { t.sec n with free := .used })
      ((k ++ [(p, u), (a, ⟨v.start, j, .free⟩), (n, ⟨i * pageSize, 1, .used⟩)])
        ++ (n', ⟨i * pageSize + pageSize, v.pages - j - 1, .free⟩) :: (b, w) :: m) := by
    simpa using ht
  have later' : ∀ x ∈ data ((n', ⟨i * pageSize + pageSize, v.pages - j - 1, .free⟩)
      :: (b, w) :: m), i * pageSize < x.start := by
    intro x hx
    rcases List.mem_cons.mp hx with rfl | hx
    · simp only [pageSize]; omega
    · exact later x hx
  rw [ht.next_eq, PassesIdle.behind (lockPageLoop_passesIdle _) ht' later'
    (by simp only [List.length_cons]; omega)]
  rw [lockPageLoop]
  refine ⟨same.trans same', _, ht, hl, ?_, ?_⟩
  · simp only [data_append, data_cons, List.append_assoc, List.cons_append,
      List.nil_append]
    rw [freeApart_split, freeApart_cons, freeApart_cons, freeApart_cons, freeApart_cons]
    exact ⟨apart.1, by simpa [free] using apart.2.1, by simp, by simp,
      by simpa [free] using apart.2.2.1, apart.2.2.2⟩
  · have hk : pagesOf (data (k ++ [(p, u), (a, ⟨v.start, j, .free⟩)])) = i := by
      simp at hj ⊢
      omega
    simp only [data_append, data_cons, data_nil, List.append_assoc, List.cons_append,
      List.nil_append] at types hy hk ⊢
    rw [hy, types, hk]

/-- The walk of `pmm_lock_page` for a free page, from the first section on. -/
theorem lockPageLoop_yields {l : List (Nat × Section)} {i : Nat}
    (beyond : ∀ w ∈ e, w.free ≠ .free) (h : Represents s l) (lay : Layout (data l ++ e))
    (apart : FreeApart (data l ++ e)) (free : typeAt (data l ++ e) i = some .free)
    (before : looksBehind (data l) i = false) :
    Yields OutOfSections (Locks e s l i)
      (lockPageLoop (i * pageSize) s.fuel s (headOr l none)) := by
  obtain ⟨l₁, a, v, l₂, rfl, hv, lo, hi⟩ := exists_section_within beyond free
  have layv : Layout (data l₁ ++ v :: (data l₂ ++ e)) := by simpa using lay
  have clear := clear_of_freeApart layv (by simpa using apart) hv lo
  have hfuel := h.length_le
  simp only [List.length_append, List.length_cons] at hfuel
  rw [PassesIdle.reach (lockPageLoop_passesIdle _) h (layv.idle_stretch lo clear)
    (by simp only [State.fuel]; omega), headOr_cons]
  obtain ⟨q, p, u, rfl⟩ := layv.before_slots (by simp [hv])
  obtain ⟨f, hf⟩ : ∃ f, s.fuel - (q ++ [(p, u)]).length = f + 1 :=
    ⟨s.capacity + 1 - (q ++ [(p, u)]).length, by simp only [State.fuel]; omega⟩
  have enough : l₂.length + 1 ≤ f := by
    simp only [State.fuel] at hf
    omega
  have h' : Represents s (q ++ (p, u) :: (a, v) :: l₂) := by simpa using h
  have lay' : Layout (data q ++ u :: v :: (data l₂ ++ e)) := by simpa using lay
  have apart' : FreeApart (data q ++ u :: v :: (data l₂ ++ e)) := by simpa using apart
  have start := @Layout.start_eq (data q ++ [u]) (data l₂ ++ e) v (by simpa using lay)
  have hpg : pagesOf (data (q ++ [(p, u)])) = pagesOf (data q ++ [u]) := by simp
  rw [hpg] at lo hi
  rw [hf, List.append_assoc, List.singleton_append]
  cases l₂ with
  | nil =>
    -- in the last section it is the first page of several
    obtain ⟨first, one⟩ := looksBehind_last lo hi (by simpa using before)
    have ne : u.pages ≠ 0 := by
      have := clear q (p, u) [] rfl
      simp only [pagesOf_append, pagesOf_cons, pagesOf_nil] at first
      omega
    have notOne : v.pages ≠ 1 := fun single => ne (one single)
    rw [first] at hi ⊢
    rw [← start]
    exact lockPageLoop_front f h' lay' apart' hv (by omega)
  | cons y m =>
    obtain ⟨b, w⟩ := y
    rw [List.length_cons] at enough
    by_cases first : i = pagesOf (data q ++ [u])
    · rw [first] at hi ⊢
      rw [← start]
      by_cases one : v.pages = 1
      · exact lockPageLoop_single f h' lay' apart' hv one
      · exact lockPageLoop_front f h' lay' apart' hv (by omega)
    · by_cases last : i + 1 = pagesOf (data q ++ [u]) + v.pages
      · exact lockPageLoop_back h' lay' apart' hv (by omega) (by omega) last
      · exact lockPageLoop_inside h' lay' apart' hv enough (by omega) (by omega)

/-- `pmm_lock_page` on a free page, as far as it does not look behind the last section, uses that
page and no other. -/
theorem pmmLockPage_within {l : List (Nat × Section)} {i : Nat} (beyond : ∀ w ∈ e, w.free ≠ .free)
    (h : Represents s l) (lay : Layout (data l ++ e)) (apart : FreeApart (data l ++ e))
    (open_ : s.allowing = true) (free : typeAt (data l ++ e) i = some .free)
    (before : looksBehind (data l) i = false) :
    Yields OutOfSections (Locks e s l i) (pmmLockPage s (i * pageSize)) := by
  unfold pmmLockPage
  simp only [open_, not_true_eq_false, ↓reduceIte, h.first_eq]
  exact lockPageLoop_yields beyond h lay apart free before

end

/-- A page of a kind other than bad ends at an address. -/
theorem Layout.page_lt {l : List Section} (lay : Layout l) {k : Nat} {t : SectionType}
    (ht : typeAt l k = some t) (good : t ≠ .bad) : (k + 1) * pageSize < 2 ^ 64 := by
  obtain ⟨l₁, n, l₂, hl, lo, hi⟩ := exists_run ht
  obtain ⟨k₁, k₂, rfl, hk₁, hk₂⟩ := List.map_eq_append_iff.mp hl
  obtain ⟨v, k₃, rfl, hv, -⟩ := List.map_eq_cons_iff.mp hk₂
  simp only [Prod.mk.injEq] at hv
  have fin := lay.fin_lt_of_ne_bad (hv.2 ▸ good)
  rw [lay.start_eq, ← Nat.add_mul] at fin
  refine Nat.lt_of_le_of_lt (Nat.mul_le_mul_right _ ?_) fin
  rw [← hk₁, ← hv.1] at hi
  exact hi

/-- A cell exists exactly below the total, so equal arrays have equal totals. -/
theorem pagesOf_le_iff {l : List Section} {k : Nat} : pagesOf l ≤ k ↔ typeAt l k = none :=
  valueAt_eq_none.symm

/-- Pages that are there stay there, and no others come. -/
theorem pagesOf_of_none {l l' : List Section}
    (same : ∀ j, typeAt l' j = none ↔ typeAt l j = none) : pagesOf l' = pagesOf l := by
  have iff : ∀ j, pagesOf l' ≤ j ↔ pagesOf l ≤ j := fun j => by
    rw [pagesOf_le_iff, pagesOf_le_iff, same]
  exact Nat.le_antisymm ((iff _).mpr le_rfl) ((iff _).mp le_rfl)

/-- A change of pages that are there leaves their number. -/
theorem pagesOf_of_fill {l l' : List Section} {k n : Nat} {t t' : SectionType}
    (here : ∀ j < n, typeAt l (k + j) = some t)
    (same : typeAt l' = fill (typeAt l) k n t') : pagesOf l' = pagesOf l := by
  apply pagesOf_of_none
  intro j
  rw [same]
  by_cases inside : k ≤ j ∧ j < k + n
  · have old := here (j - k) (by omega)
    rw [Nat.add_sub_cancel' inside.1] at old
    rw [fill_inside inside.1 inside.2, old]
    simp
  · rw [fill_outside inside]

/-! ## Runs of pages -/

/-- Seen from the pages: behind the `n` pages from `k` on some page is not free, or they stand
behind such a page and are not the last of the `total`. -/
def Ahead (total : Nat) (f : Nat → Option SectionType) (k n : Nat) : Prop :=
  (∃ j, k + n ≤ j ∧ j < total ∧ f j ≠ some .free) ∨ (f (k - 1) ≠ some .free ∧ k + n < total)

/-- It is a matter of the pages of memory. -/
theorem Ahead.congr {total k n : Nat} {f g : Nat → Option SectionType} (h : Ahead total f k n)
    (same : ∀ j < total, f j = g j) : Ahead total g k n := by
  rcases h with ⟨j, behind, below, other⟩ | ⟨first, below⟩
  · exact Or.inl ⟨j, behind, below, by rwa [← same j below]⟩
  · exact Or.inr ⟨by rwa [← same (k - 1) (by omega)], below⟩

/-- A page later there is as much ahead. -/
theorem Ahead.next {total k n : Nat} {f : Nat → Option SectionType}
    (h : Ahead total f k (n + 1)) : Ahead total (Function.update f k (some .used)) (k + 1) n := by
  rcases h with ⟨j, behind, below, other⟩ | ⟨-, below⟩
  · refine Or.inl ⟨j, by omega, below, ?_⟩
    rwa [Function.update_of_ne (by omega)]
  · refine Or.inr ⟨?_, by omega⟩
    rw [Nat.add_sub_cancel, Function.update_self]
    simp

/-- Then the walk to the first of them does not look behind the last section. -/
theorem Layout.before_of_ahead {l : List (Nat × Section)} {e : List Section} {k n : Nat}
    (lay : Layout (data l ++ e)) (beyond : ∀ w ∈ e, w.free ≠ .free)
    (free : typeAt (data l ++ e) k = some .free) (pos : 0 < n)
    (ahead : Ahead (pagesOf (data l)) (typeAt (data l ++ e)) k n) :
    looksBehind (data l) k = false := by
  obtain ⟨l₁, a, v, l₂, rfl, hv, lo, hi⟩ := exists_section_within beyond free
  have layv : Layout (data l₁ ++ v :: (data l₂ ++ e)) := by simpa using lay
  obtain ⟨q, p, u, rfl⟩ := layv.before_slots (by simp [hv])
  have inside : ∀ j, pagesOf (data q ++ [u]) ≤ j → j < pagesOf (data q ++ [u]) + v.pages →
      typeAt (data ((q ++ [(p, u)]) ++ (a, v) :: l₂) ++ e) j = some .free := by
    intro j from_start to_end
    have here := @valueAt_run _ (runs (data q ++ [u])) (runs (data l₂ ++ e)) v.pages j v.free
      from_start to_end
    rw [← hv, ← here]
    simp [typeAt]
  have split : data ((q ++ [(p, u)]) ++ (a, v) :: l₂) = data q ++ u :: v :: data l₂ := by simp
  have same : pagesOf (data (q ++ [(p, u)])) = pagesOf (data q ++ [u]) := by simp
  rw [same] at lo hi
  rw [looksBehind, split, atPage_at lo hi]
  cases l₂ with
  | cons y m => rfl
  | nil =>
    have size : pagesOf (data ((q ++ [(p, u)]) ++ [(a, v)])) =
        pagesOf (data q ++ [u]) + v.pages := by
      simp [Nat.add_assoc]
    rw [size] at ahead
    rcases ahead with ⟨j, behind, below, other⟩ | ⟨first, below⟩
    · exact absurd (inside j (by omega) below) other
    · -- the page before it is of another section
      have start : k = pagesOf (data q ++ [u]) := by
        by_contra late
        exact first (inside (k - 1) (by omega) (by omega))
      have several : v.pages ≠ 1 := by omega
      simp [start, several]

/-- What locking the `n` pages from `k` on leaves of a list. -/
def LocksAll (e : List Section) (s : State) (l : List (Nat × Section)) (k n : Nat) (s' : State) :
    Prop :=
  SameGlobals s s' ∧ ∃ l', Represents s' l' ∧ Layout (data l' ++ e) ∧ FreeApart (data l' ++ e) ∧
    typeAt (data l' ++ e) = fill (typeAt (data l ++ e)) k n .used

section
variable {e : List Section}

/-- One call for each page: the `i` pages from `k` on are locked, `n` are left. -/
theorem eachPage_yields {k : Nat} (beyond : ∀ w ∈ e, w.free ≠ .free) :
    ∀ {n i : Nat} {s : State} {l : List (Nat × Section)},
      Represents s l → Layout (data l ++ e) → FreeApart (data l ++ e) → s.allowing = true →
      (∀ j < n, typeAt (data l ++ e) (k + i + j) = some .free) →
      (0 < n → Ahead (pagesOf (data l)) (typeAt (data l ++ e)) (k + i) n) →
      Yields OutOfSections (LocksAll e s l (k + i) n)
        (eachPage pmmLockPage (k * pageSize) n i s) := by
  intro n
  -- From the first page on. What is ahead of the others is asked again of the list with that page
  -- locked.
  induction n with
  | zero =>
    intro i s l h lay apart _ _ _
    exact ⟨.refl s, l, h, lay, apart, (fill_zero ..).symm⟩
  | succ n ih =>
    intro i s l h lay apart open_ free ahead
    have here : typeAt (data l ++ e) (k + i) = some .free := by simpa using free 0 (by omega)
    have lt := lay.page_lt here (by simp)
    have hpage : Word.add (k * pageSize) (Word.mul i pageSize) = (k + i) * pageSize := by
      have sum : k * pageSize + i * pageSize < 2 ^ 64 := by
        rw [← Nat.add_mul]
        exact Nat.lt_of_le_of_lt (Nat.mul_le_mul_right _ (Nat.le_succ _)) lt
      rw [Word.mul_eq (Nat.lt_of_le_of_lt (Nat.le_add_left ..) sum), Word.add_eq sum, Nat.add_mul]
    have before := lay.before_of_ahead beyond here (Nat.succ_pos n) (ahead (Nat.succ_pos n))
    rw [eachPage, hpage]
    refine (pmmLockPage_within beyond h lay apart open_ here before).bind
      fun s' ⟨same, l', hr, hl, ha, ht⟩ => ?_
    have size : pagesOf (data l') = pagesOf (data l) := by
      have one : ∀ j < 1, typeAt (data l ++ e) (k + i + j) = some .free := fun j hj => by
        rwa [Nat.lt_one_iff.mp hj]
      have := pagesOf_of_fill one (ht.trans (fill_one ..).symm)
      simpa using this
    have onward := @ih (i + 1) s' l' hr hl ha (same.allowing.trans open_) (fun j hj => by
      have := free (j + 1) (by omega)
      rw [ht, Function.update_of_ne (by omega), ← this]
      congr 1
      omega) (fun _ => by
      rw [size, ht]
      exact (ahead (Nat.succ_pos n)).next)
    refine onward.imp fun t ⟨same', l'', hr', hl', ha', ht'⟩ => ?_
    exact ⟨same.trans same', l'', hr', hl', ha', by rw [ht', ht, fill_succ]; rfl⟩

/-- `pmm_lock_pages` on free pages that have something ahead uses these pages and no others. -/
theorem pmmLockPages_within {s : State} {l : List (Nat × Section)} {k n : Nat}
    (beyond : ∀ w ∈ e, w.free ≠ .free) (h : Represents s l) (lay : Layout (data l ++ e))
    (apart : FreeApart (data l ++ e)) (open_ : s.allowing = true)
    (free : ∀ j < n, typeAt (data l ++ e) (k + j) = some .free)
    (ahead : 0 < n → Ahead (pagesOf (data l)) (typeAt (data l ++ e)) k n) :
    Yields OutOfSections (LocksAll e s l k n) (pmmLockPages s (k * pageSize) n) := by
  unfold pmmLockPages
  simp only [open_, not_true_eq_false, ↓reduceIte]
  exact eachPage_yields beyond h lay apart open_ (by simpa using free) (by simpa using ahead)

end

/-- Before bad memory everything has something ahead. -/
theorem Layout.ahead {l : List Section} (lay : Layout l) {k n : Nat}
    (free : ∀ j < n, typeAt l (k + j) = some .free) (pos : 0 < n) :
    Ahead (pagesOf l) (typeAt l) k n := by
  obtain ⟨v, l', rfl, bad⟩ := lay.last
  have some : v.pages ≠ 0 := by
    intro none
    have empty := lay.empty v (by simp) none
    rw [bad] at empty
    cases empty
  have last : typeAt (l' ++ [v]) (pagesOf (l' ++ [v]) - 1) = Option.some .bad := by
    rw [← bad]
    have size : pagesOf (l' ++ [v]) = pagesOf l' + v.pages := by simp
    rw [size, typeAt, runs_append]
    exact valueAt_run (show pagesOf l' ≤ _ by omega) (show _ < pagesOf l' + v.pages by omega)
  have here : ¬ pagesOf (l' ++ [v]) ≤ k := by
    rw [pagesOf_le_iff]
    have := free 0 pos
    rw [Nat.add_zero] at this
    rw [this]
    simp
  refine Or.inl ⟨pagesOf (l' ++ [v]) - 1, ?_, by omega, by rw [last]; simp⟩
  by_contra inside
  have := free (pagesOf (l' ++ [v]) - 1 - k) (by omega)
  rw [Nat.add_sub_cancel' (by omega), last] at this
  cases this

/-- `pmm_lock_page` on a free page uses that page and no other. The list stays a layout without free
neighbours; the only fault is a descriptor array without a slot for a split. -/
theorem pmmLockPage_yields {s : State} {l : List (Nat × Section)} {k : Nat}
    (h : Represents s l) (lay : Layout (data l)) (apart : FreeApart (data l))
    (open_ : s.allowing = true) (free : typeAt (data l) k = some .free) :
    Yields OutOfSections (fun s' => SameGlobals s s' ∧ ∃ l', Represents s' l' ∧
        Layout (data l') ∧ FreeApart (data l') ∧
        typeAt (data l') = Function.update (typeAt (data l)) k (some .used))
      (pmmLockPage s (k * pageSize)) := by
  have whole := @pmmLockPage_within [] s l k (by simp) h (by simpa using lay) (by simpa using apart)
    open_ (by simpa using free) (lay.before_last free (by simp))
  unfold Locks at whole
  simpa only [List.append_nil] using whole

/-- `pmm_lock_pages` on free pages uses these pages and no others, page by page: the induction is on
the number of pages, and one page's law is its step. -/
theorem pmmLockPages_yields {s : State} {l : List (Nat × Section)} {k n : Nat}
    (h : Represents s l) (lay : Layout (data l)) (apart : FreeApart (data l))
    (open_ : s.allowing = true) (free : ∀ j < n, typeAt (data l) (k + j) = some .free) :
    Yields OutOfSections (fun s' => SameGlobals s s' ∧ ∃ l', Represents s' l' ∧
        Layout (data l') ∧ FreeApart (data l') ∧
        typeAt (data l') = fill (typeAt (data l)) k n .used)
      (pmmLockPages s (k * pageSize) n) := by
  have whole := @pmmLockPages_within [] s l k n (by simp) h (by simpa using lay)
    (by simpa using apart) open_ (by simpa using free) (by simpa using lay.ahead free)
  unfold LocksAll at whole
  simpa only [List.append_nil] using whole

end Skylight.Pmm
