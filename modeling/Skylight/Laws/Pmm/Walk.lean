import Skylight.Laws.Pmm.Mark

/-!
# Walking to a page

`pmm_free_page` and `pmm_lock_page` look for their page the same way: from the first
section on, past every section that neither begins at the page nor has it strictly
inside. A section is idle for a page when both tests fail there. The two walks differ in
what they do when a test succeeds, so the laws here are about any walk that passes over
idle sections.
-/

namespace Skylight.Pmm

open Chain RunLength

/-- Neither test of the walk for `page` succeeds at a section followed by `rest`. -/
def Idle (page : Nat) (v : Section) (rest : List Section) : Prop :=
  v.start ≠ page ∧ (v.start < page → ∃ w, rest.head? = some w ∧ w.start ≤ page)

/-- A walk that passes over idle sections. -/
def PassesIdle {β : Type} (page : Nat) (walk : Nat → State → Option Nat → β) : Prop :=
  ∀ {fuel : Nat} {s : State} {l₁ l₂ : List (Nat × Section)} {a : Nat} {v : Section},
    Represents s (l₁ ++ (a, v) :: l₂) → Idle page v (data l₂) →
      walk (fuel + 1) s (some a) = walk fuel s (headOr l₂ none)

section
variable {β : Type} {page : Nat} {walk : Nat → State → Option Nat → β}

/-- A walk passes over every idle stretch of the list. -/
theorem PassesIdle.stretch (passes : PassesIdle page walk) {s : State}
    {m l₂ : List (Nat × Section)} {fuel : Nat} :
    ∀ {l₁ : List (Nat × Section)}, Represents s (l₁ ++ m ++ l₂) →
      (∀ p v q, data m = p ++ v :: q → Idle page v (q ++ data l₂)) →
      walk (fuel + m.length) s (headOr (m ++ l₂) none) = walk fuel s (headOr l₂ none) := by
  induction m with
  | nil =>
    intro l₁ _ _
    rfl
  | cons x m ih =>
    obtain ⟨a, v⟩ := x
    intro l₁ h idle
    have here : Represents s (l₁ ++ (a, v) :: (m ++ l₂)) := by simpa using h
    have step := @passes (fuel + m.length) s l₁ (m ++ l₂) a v here
      (by simpa using idle [] v (data m) (by simp))
    have onward : Represents s ((l₁ ++ [(a, v)]) ++ m ++ l₂) := by simpa using h
    rw [List.length_cons, ← Nat.add_assoc, List.cons_append, headOr_cons, step]
    exact ih onward fun p w q e => idle (v :: p) w q (by simp [e])

/-- A walk from the first section reaches the first section that is not idle. -/
theorem PassesIdle.reach (passes : PassesIdle page walk) {s : State}
    {m l₂ : List (Nat × Section)} {fuel : Nat} (h : Represents s (m ++ l₂))
    (idle : ∀ p v q, data m = p ++ v :: q → Idle page v (q ++ data l₂))
    (enough : m.length ≤ fuel) :
    walk fuel s (headOr (m ++ l₂) none) = walk (fuel - m.length) s (headOr l₂ none) := by
  have := @PassesIdle.stretch β page walk passes s m l₂ (fuel - m.length) [] (by simpa using h) idle
  rwa [Nat.sub_add_cancel enough] at this

/-- Behind the page nothing happens any more. -/
theorem PassesIdle.behind (passes : PassesIdle page walk) {s : State}
    {l₁ m : List (Nat × Section)} {fuel : Nat} (h : Represents s (l₁ ++ m))
    (later : ∀ v ∈ data m, page < v.start) (enough : m.length ≤ fuel) :
    walk fuel s (headOr m none) = walk (fuel - m.length) s none := by
  have := @PassesIdle.stretch β page walk passes s m [] (fuel - m.length) l₁ (by simpa using h)
    (fun p v q e => by
      have := later v (by rw [e]; simp)
      exact ⟨by omega, fun _ => by omega⟩)
  rw [Nat.sub_add_cancel enough] at this
  simpa using this

end

/-- Of the sections that begin at page `k`, one comes first. -/
theorem exists_first {l : List (Nat × Section)} {k : Nat}
    (h : ∃ q x r, l = q ++ x :: r ∧ pagesOf (data q) = k) :
    ∃ q x r, l = q ++ x :: r ∧ pagesOf (data q) = k ∧
      ∀ q' x' r', q = q' ++ x' :: r' → pagesOf (data q') ≠ k := by
  obtain ⟨q, x, r, hl, hq⟩ := h
  induction hn : q.length using Nat.strong_induction_on generalizing q x r with
  | h n ih =>
    by_cases clear : ∀ q' x' r', q = q' ++ x' :: r' → pagesOf (data q') ≠ k
    · exact ⟨q, x, r, hl, hq, clear⟩
    · simp only [not_forall, not_not] at clear
      obtain ⟨q', x', r', rfl, hq'⟩ := clear
      refine ih q'.length ?_ q' x' (r' ++ x :: r) (by simpa using hl) hq' rfl
      rw [← hn]
      simp

/-! ## Where a page lies -/

/-- The section that holds page `k`, on a list with slots. -/
theorem exists_section {l : List (Nat × Section)} {k : Nat} {t : SectionType}
    (h : typeAt (data l) k = some t) :
    ∃ l₁ a v l₂, l = l₁ ++ (a, v) :: l₂ ∧ v.free = t ∧ pagesOf (data l₁) ≤ k ∧
      k < pagesOf (data l₁) + v.pages := by
  obtain ⟨r₁, n, r₂, hr, lo, hi⟩ := exists_run h
  simp only [runs, data, List.map_map] at hr
  obtain ⟨l₁, q, rfl, h₁, hq⟩ := List.map_eq_append_iff.mp hr
  obtain ⟨x, l₂, rfl, hx, -⟩ := List.map_eq_cons_iff.mp hq
  simp only [Function.comp_apply, Prod.mk.injEq] at hx
  have : pagesOf (data l₁) = total r₁ := by
    rw [← h₁, pagesOf, runs, data, List.map_map]
  exact ⟨l₁, x.1, x.2, l₂, rfl, hx.2, this ▸ lo, by rw [this, hx.1]; exact hi⟩

/-- The same where sections of other kinds may lie beyond the list. -/
theorem exists_section_within {l : List (Nat × Section)} {e : List Section} {k : Nat}
    {t : SectionType} (other : ∀ w ∈ e, w.free ≠ t) (h : typeAt (data l ++ e) k = some t) :
    ∃ l₁ a v l₂, l = l₁ ++ (a, v) :: l₂ ∧ v.free = t ∧ pagesOf (data l₁) ≤ k ∧
      k < pagesOf (data l₁) + v.pages := by
  rw [typeAt, runs_append, valueAt_append] at h
  split at h
  · exact exists_section h
  · obtain ⟨r₁, n, r₂, hr, -, -⟩ := exists_run h
    have mem : (n, t) ∈ runs e := by simp [hr]
    obtain ⟨w, inside, kind⟩ := List.mem_map.mp mem
    exact absurd (congrArg Prod.snd kind) (other w inside)

/-- Only the first of the sections behind decides whether a section is idle. -/
theorem Idle.congr {page : Nat} {v w : Section} {q r r' : List Section}
    (h : Idle page v (q ++ w :: r)) : Idle page v (q ++ w :: r') := by
  cases q <;> exact h

namespace Layout

variable {l₁ l₂ : List Section} {v : Section} {k : Nat}

/-- The pages of a section are its addresses, in pages. -/
theorem start_le (h : Layout (l₁ ++ v :: l₂)) (lo : pagesOf l₁ ≤ k) : v.start ≤ k * pageSize := by
  rw [h.start_eq]
  exact Nat.mul_le_mul_right _ lo

/-- Every section before the one that holds a page is idle for the page, unless it is
empty and stands right before the page. -/
theorem idle_before (h : Layout (l₁ ++ v :: l₂)) (lo : pagesOf l₁ ≤ k)
    (clear : ∀ p x q, l₁ = p ++ x :: q → pagesOf p ≠ k) :
    ∀ p x q, l₁ = p ++ x :: q → Idle (k * pageSize) x (q ++ v :: l₂) := by
  rintro p x q rfl
  have hx : x.start = pagesOf p * pageSize := by
    have : Layout (p ++ x :: (q ++ v :: l₂)) := by simpa using h
    exact this.start_eq
  refine ⟨?_, fun _ => ?_⟩
  · have := clear p x q rfl
    rw [hx]
    simp only [pageSize]
    omega
  · rw [pagesOf_append, pagesOf_cons] at lo
    cases q with
    | nil =>
      refine ⟨v, rfl, ?_⟩
      have : Layout ((p ++ [x]) ++ v :: l₂) := by simpa using h
      exact this.start_le (by simpa using lo)
    | cons y q =>
      refine ⟨y, rfl, ?_⟩
      have : Layout ((p ++ [x]) ++ y :: (q ++ v :: l₂)) := by simpa using h
      refine this.start_le ?_
      rw [pagesOf_cons] at lo
      simp only [pagesOf_append, pagesOf_cons, pagesOf_nil]
      omega

/-- The same on a list with slots, in the form a walk asks for. -/
theorem idle_stretch {l₁ l₂ : List (Nat × Section)} {a : Nat} {e : List Section}
    (h : Layout (data l₁ ++ v :: (data l₂ ++ e))) (lo : pagesOf (data l₁) ≤ k)
    (clear : ∀ q x r, l₁ = q ++ x :: r → pagesOf (data q) ≠ k) :
    ∀ p x q, data l₁ = p ++ x :: q → Idle (k * pageSize) x (q ++ data ((a, v) :: l₂)) := by
  have idle := h.idle_before lo (fun p x q eq => by
    obtain ⟨p', r, rfl, rfl, hr⟩ := List.map_eq_append_iff.mp eq
    obtain ⟨y, q', rfl, -, -⟩ := List.map_eq_cons_iff.mp hr
    exact clear p' y q' rfl)
  exact fun p x q eq => (idle p x q eq).congr

/-- Every section behind the one that holds a page begins behind the page. -/
theorem later (h : Layout (l₁ ++ v :: l₂)) (hi : k < pagesOf l₁ + v.pages) :
    ∀ x ∈ l₂, k * pageSize < x.start := by
  intro x hx
  obtain ⟨p, q, rfl⟩ := List.append_of_mem hx
  have : Layout ((l₁ ++ v :: p) ++ x :: q) := by simpa using h
  rw [this.start_eq]
  simp only [pagesOf_append, pagesOf_cons, pageSize]
  omega

end Layout

end Skylight.Pmm
