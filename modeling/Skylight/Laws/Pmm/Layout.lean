import Mathlib.Data.List.Chain
import Mathlib.Tactic.Ring
import Skylight.Lib.RunLength
import Skylight.Laws.Pmm.Slots

/-!
# The layout of a section list

A section list stands for a map of physical pages: the list is a run-length encoding,
and `typeAt l k` reads the kind of page `k`. `Layout` is what every function of the
manager keeps of the list: it starts at address 0, each section begins where the one
before ends, it is bounded by bad sections on both sides, and only a free section may
be empty. Empty free sections are real: `pmm_alloc_page` leaves one behind when it takes
the last page of a free section that follows a used one.

`FreeApart` is the part of the invariant that the layout cannot see: no two free sections
stand side by side.
-/

namespace Skylight.Pmm

open Chain RunLength

/-- The sections of a list with its slots forgotten. -/
def data (l : List (Nat × Section)) : List Section := l.map Prod.snd

/-- No slots, no sections. -/
@[simp] theorem data_nil : data [] = [] := rfl

/-- The first slot and the rest. -/
@[simp] theorem data_cons (x : Nat × Section) (l : List (Nat × Section)) :
    data (x :: l) = x.2 :: data l := rfl

/-- Lists one behind the other. -/
@[simp] theorem data_append (l₁ l₂ : List (Nat × Section)) :
    data (l₁ ++ l₂) = data l₁ ++ data l₂ := List.map_append

@[simp] theorem data_eq_nil {l : List (Nat × Section)} : data l = [] ↔ l = [] := List.map_eq_nil_iff

/-- The run-length encoding a section list is. -/
def runs (l : List Section) : List (Nat × SectionType) := l.map fun v => (v.pages, v.free)

/-- The kind of page `k`; none past the end of the list. -/
def typeAt (l : List Section) : Nat → Option SectionType := valueAt (runs l)

/-- The number of pages a section list covers. -/
def pagesOf (l : List Section) : Nat := total (runs l)

@[simp] theorem runs_nil : runs [] = [] := rfl

@[simp] theorem runs_cons (v : Section) (l : List Section) :
    runs (v :: l) = (v.pages, v.free) :: runs l := rfl

@[simp] theorem runs_append (l₁ l₂ : List Section) : runs (l₁ ++ l₂) = runs l₁ ++ runs l₂ :=
  List.map_append

@[simp] theorem pagesOf_nil : pagesOf [] = 0 := rfl

@[simp] theorem pagesOf_cons (v : Section) (l : List Section) :
    pagesOf (v :: l) = v.pages + pagesOf l := rfl

@[simp] theorem pagesOf_append (l₁ l₂ : List Section) :
    pagesOf (l₁ ++ l₂) = pagesOf l₁ + pagesOf l₂ := by
  simp [pagesOf]

/-- Each section begins where the one before it ends, the first at `a`. -/
def Contiguous : Nat → List Section → Prop
  | _, [] => True
  | a, v :: l => v.start = a ∧ Contiguous (a + v.pages * pageSize) l

@[simp] theorem contiguous_nil (a : Nat) : Contiguous a [] := trivial

@[simp] theorem contiguous_cons (a : Nat) (v : Section) (l : List Section) :
    Contiguous a (v :: l) ↔ v.start = a ∧ Contiguous (a + v.pages * pageSize) l := Iff.rfl

/-- A list is contiguous when its first part is, and its second from there on. -/
theorem contiguous_append {a : Nat} {l₁ l₂ : List Section} :
    Contiguous a (l₁ ++ l₂) ↔
      Contiguous a l₁ ∧ Contiguous (a + pagesOf l₁ * pageSize) l₂ := by
  induction l₁ generalizing a with
  | nil => simp
  | cons v l₁ ih =>
    simp only [List.cons_append, contiguous_cons, ih, pagesOf_cons, Nat.add_mul, and_assoc,
      Nat.add_assoc]

/-- What every function of the manager keeps of its section list. -/
structure Layout (l : List Section) : Prop where
  contiguous : Contiguous 0 l
  starts : ∀ v ∈ l, v.start < 2 ^ 64
  total : pagesOf l < 2 ^ 64
  first : ∃ v l', l = v :: l' ∧ v.free = .bad
  last : ∃ v l', l = l' ++ [v] ∧ v.free = .bad
  empty : ∀ v ∈ l, v.pages = 0 → v.free = .free

/-- No two free sections stand side by side. -/
def FreeApart (l : List Section) : Prop :=
  (l.map Section.free).IsChain fun a b => ¬ (a = .free ∧ b = .free)

/-- Standing apart is a matter of the section between two parts. -/
theorem freeApart_split {l₁ l₂ : List Section} {v : Section} :
    FreeApart (l₁ ++ v :: l₂) ↔ FreeApart (l₁ ++ [v]) ∧ FreeApart (v :: l₂) := by
  simp only [FreeApart, List.map_append, List.map_cons, List.map_nil]
  exact List.isChain_split

/-- And of the first two sections of a list. -/
theorem freeApart_cons {l : List Section} {u v : Section} :
    FreeApart (u :: v :: l) ↔ ¬ (u.free = .free ∧ v.free = .free) ∧ FreeApart (v :: l) := by
  simp only [FreeApart, List.map_cons, List.isChain_cons_cons]

/-- Only the kinds of the sections matter to `FreeApart`. -/
theorem FreeApart.congr {l l' : List Section} (h : FreeApart l)
    (kinds : l'.map Section.free = l.map Section.free) : FreeApart l' := by
  rwa [FreeApart, kinds]

/-- A list stands apart behind a section that is not free if it does behind any. -/
theorem FreeApart.notFirst {l : List Section} {u v : Section} (h : FreeApart (u :: l))
    (used : v.free ≠ .free) : FreeApart (v :: l) := by
  cases l with
  | nil => exact List.isChain_singleton _
  | cons w l =>
    rw [freeApart_cons] at h ⊢
    exact ⟨fun both => used both.1, h.2⟩

namespace Layout

variable {l l₁ l₂ : List Section} {v : Section}

/-- The address a section begins at, from the pages before it. -/
theorem start_eq (h : Layout (l₁ ++ v :: l₂)) : v.start = pagesOf l₁ * pageSize := by
  simpa using (contiguous_append.mp h.contiguous).2.1

/-- A section that is not bad has neighbours on both sides. -/
theorem neighbours (h : Layout (l₁ ++ v :: l₂)) (hv : v.free ≠ .bad) :
    ∃ k u w m, l₁ = k ++ [u] ∧ l₂ = w :: m := by
  obtain ⟨x, lx, hx, hxf⟩ := h.first
  obtain ⟨y, ly, hy, hyf⟩ := h.last
  rcases List.eq_nil_or_concat l₁ with rfl | ⟨k, u, rfl⟩
  · obtain rfl : v = x := by simpa using (List.cons.inj hx).1
    exact absurd hxf hv
  cases l₂ with
  | nil =>
    have := List.append_inj_right' hy (by simp)
    obtain rfl : v = y := by simpa using this
    exact absurd hyf hv
  | cons w m => exact ⟨k, u, w, m, by simp, rfl⟩

/-- What comes before a section that is not bad, on a list with slots. -/
theorem before_slots {k : List (Nat × Section)} (h : Layout (data k ++ v :: l₂))
    (hv : v.free ≠ .bad) : ∃ k' p u, k = k' ++ [(p, u)] := by
  obtain ⟨j, u, w, m, hk, -⟩ := h.neighbours hv
  obtain ⟨k', q, rfl, -, hq⟩ := List.map_eq_append_iff.mp hk
  obtain ⟨x, y, rfl, -, hy⟩ := List.map_eq_cons_iff.mp hq
  obtain rfl : y = [] := by simpa using hy
  exact ⟨k', x.1, x.2, rfl⟩

/-- Some page lies before every section but the first. -/
theorem pagesOf_pos (h : Layout (l₁ ++ l₂)) (ne : l₁ ≠ []) : 0 < pagesOf l₁ := by
  obtain ⟨x, lx, hx, hxf⟩ := h.first
  cases l₁ with
  | nil => exact absurd rfl ne
  | cons y l₁ =>
    obtain rfl : y = x := (List.cons.inj hx).1
    have : y.pages ≠ 0 := fun e => by
      have := h.empty y (by simp) e
      rw [hxf] at this
      cases this
    rw [pagesOf_cons]
    omega

/-- Some page lies behind every section but the last. -/
theorem pagesOf_pos_behind (h : Layout (l₁ ++ l₂)) (ne : l₂ ≠ []) : 0 < pagesOf l₂ := by
  obtain ⟨y, ly, hy, bad⟩ := h.last
  rcases List.eq_nil_or_concat l₂ with rfl | ⟨q, z, rfl⟩
  · exact absurd rfl ne
  · rw [List.concat_eq_append, ← List.append_assoc] at hy
    obtain rfl : z = y := by simpa using List.append_inj_right' hy rfl
    have some : z.pages ≠ 0 := fun none => by
      have empty := h.empty z (by simp) none
      rw [bad] at empty
      cases empty
    rw [List.concat_eq_append, pagesOf_append, pagesOf_cons]
    omega

/-- A section with a successor ends at an address. -/
theorem fin_lt {w : Section} (h : Layout (l₁ ++ v :: w :: l₂)) :
    v.start + v.pages * pageSize < 2 ^ 64 ∧ w.start = v.start + v.pages * pageSize := by
  have hw : w.start = v.start + v.pages * pageSize := by
    have := (contiguous_append.mp h.contiguous).2
    simp only [contiguous_cons] at this
    rw [this.2.1, this.1]
  exact ⟨hw ▸ h.starts w (by simp), hw⟩

/-- Rewriting the middle of a list over the same pages keeps the layout. -/
theorem edit {m m' : List Section} (h : Layout (l₁ ++ m ++ l₂)) (ne₁ : l₁ ≠ []) (ne₂ : l₂ ≠ [])
    (tot : pagesOf m' = pagesOf m) (con : Contiguous (pagesOf l₁ * pageSize) m')
    (emp : ∀ v ∈ m', v.pages = 0 → v.free = .free) : Layout (l₁ ++ m' ++ l₂) := by
  obtain ⟨w, l₂', rfl⟩ := List.exists_cons_of_ne_nil ne₂
  have hc := contiguous_append.mp h.contiguous
  have hw : w.start = (pagesOf l₁ + pagesOf m) * pageSize := by simpa using hc.2.1
  have hbound : (pagesOf l₁ + pagesOf m) * pageSize < 2 ^ 64 := hw ▸ h.starts w (by simp)
  refine ⟨?_, ?_, ?_, ?_, ?_, ?_⟩
  · refine contiguous_append.mpr ⟨contiguous_append.mpr
      ⟨(contiguous_append.mp hc.1).1, by simpa using con⟩, ?_⟩
    have := hc.2
    rwa [pagesOf_append, ← tot, ← pagesOf_append] at this
  · intro x hx
    simp only [List.append_assoc, List.mem_append] at hx
    rcases hx with hx | hx | hx
    · exact h.starts x (by simp [hx])
    · -- a section of the new middle begins no later than the suffix
      obtain ⟨p, q, rfl⟩ := List.append_of_mem hx
      have := (contiguous_append.mp con).2.1
      rw [pagesOf_append, pagesOf_cons] at tot
      rw [this, ← Nat.add_mul]
      refine Nat.lt_of_le_of_lt (Nat.mul_le_mul_right _ ?_) hbound
      omega
    · exact h.starts x (by simp only [List.mem_append]; exact Or.inr hx)
  · have := h.total
    rwa [pagesOf_append, pagesOf_append, tot, ← pagesOf_append, ← pagesOf_append]
  · obtain ⟨x, lx, hx, hxf⟩ := h.first
    obtain ⟨y, l₁', rfl⟩ := List.exists_cons_of_ne_nil ne₁
    obtain rfl : y = x := (List.cons.inj hx).1
    exact ⟨y, l₁' ++ m' ++ w :: l₂', by simp, hxf⟩
  · obtain ⟨y, ly, hy, hyf⟩ := h.last
    rcases List.eq_nil_or_concat (w :: l₂') with e | ⟨q, z, e⟩
    · cases e
    · rw [e, List.concat_eq_append, ← List.append_assoc] at hy
      have := List.append_inj_right' hy (by simp)
      obtain rfl : z = y := by simpa using this
      exact ⟨z, l₁ ++ m' ++ q, by rw [e, List.concat_eq_append]; simp, hyf⟩
  · intro x hx
    simp only [List.append_assoc, List.mem_append] at hx
    rcases hx with hx | hx | hx
    · exact h.empty x (by simp [hx])
    · exact emp x hx
    · exact h.empty x (by simp only [List.mem_append]; exact Or.inr hx)

/-! ## The edits, and the one page each may change -/

/-- A section that is not bad has something before it and something behind it. -/
theorem ne_nil (h : Layout (l₁ ++ v :: l₂)) (hv : v.free ≠ .bad) : l₁ ≠ [] ∧ l₂ ≠ [] := by
  obtain ⟨k, u, w, m, rfl, rfl⟩ := h.neighbours hv
  simp

/-- Dropping an empty section moves no page. -/
theorem drop (h : Layout (l₁ ++ v :: l₂)) (empty : v.pages = 0) :
    Layout (l₁ ++ l₂) ∧ typeAt (l₁ ++ l₂) = typeAt (l₁ ++ v :: l₂) := by
  have hv := h.empty v (by simp) empty
  obtain ⟨ne₁, ne₂⟩ := h.ne_nil (by simp [hv])
  constructor
  · have := @Layout.edit l₁ l₂ [v] [] (by simpa using h) ne₁ ne₂ (by simp [empty]) (by simp)
      (by simp)
    simpa using this
  · have := valueAt_drop_empty (runs l₁) (runs l₂) v.free
    simp only [typeAt, runs_append, runs_cons, empty]
    exact this.symm

/-- A seam moved right takes the first page of the right section. -/
theorem seamRight {u : Section} (h : Layout (l₁ ++ u :: v :: l₂)) (hu : u.free ≠ .bad)
    (hv : v.free ≠ .bad) (pos : v.pages ≠ 0) (emp : v.pages = 1 → v.free = .free) :
    let l' := l₁ ++ { u with pages := u.pages + 1 }
      :: { v with start := v.start + pageSize, pages := v.pages - 1 } :: l₂
    Layout l' ∧ typeAt l' =
      Function.update (typeAt (l₁ ++ u :: v :: l₂)) (pagesOf (l₁ ++ [u])) (some u.free) := by
  obtain ⟨n, hn⟩ := Nat.exists_eq_add_one_of_ne_zero pos
  have h' : Layout ((l₁ ++ [u]) ++ v :: l₂) := by simpa using h
  have hsu : u.start = pagesOf l₁ * pageSize := h.start_eq
  have hsv : v.start = (pagesOf l₁ + u.pages) * pageSize := by simpa using h'.start_eq
  constructor
  · have := @Layout.edit l₁ l₂ [u, v] [{ u with pages := u.pages + 1 },
      { v with start := v.start + pageSize, pages := v.pages - 1 }] (by simpa using h)
      (h.ne_nil hu).1 (h'.ne_nil hv).2 (by simp; omega)
      (by simp only [contiguous_cons, contiguous_nil, and_true, hsu, hsv, true_and]; ring) ?_
    · simpa using this
    · simp only [List.mem_cons, List.not_mem_nil, or_false, forall_eq_or_imp, forall_eq]
      exact ⟨fun e => absurd e (by simp), fun e => emp (by omega)⟩
  · have := valueAt_seam_right (runs l₁) (runs l₂) u.pages n u.free v.free
    simp only [typeAt, runs_append, runs_cons, runs_nil, hn, pagesOf, total_append, total_cons,
      total_nil, Nat.add_sub_cancel, Nat.add_zero]
    exact this

/-- A seam moved left gives the last page of the left section to the right one. -/
theorem seamLeft {u : Section} (h : Layout (l₁ ++ u :: v :: l₂)) (hu : u.free ≠ .bad)
    (hv : v.free ≠ .bad) (two : 2 ≤ u.pages) :
    let l' := l₁ ++ { u with pages := u.pages - 1 }
      :: { v with start := v.start - pageSize, pages := v.pages + 1 } :: l₂
    Layout l' ∧ typeAt l' =
      Function.update (typeAt (l₁ ++ u :: v :: l₂)) (pagesOf l₁ + (u.pages - 1))
        (some v.free) := by
  obtain ⟨n, hn⟩ := Nat.exists_eq_add_of_le' two
  have h' : Layout ((l₁ ++ [u]) ++ v :: l₂) := by simpa using h
  have hsu : u.start = pagesOf l₁ * pageSize := h.start_eq
  have hsv : v.start = (pagesOf l₁ + u.pages) * pageSize := by simpa using h'.start_eq
  constructor
  · have := @Layout.edit l₁ l₂ [u, v] [{ u with pages := u.pages - 1 },
      { v with start := v.start - pageSize, pages := v.pages + 1 }] (by simpa using h)
      (h.ne_nil hu).1 (h'.ne_nil hv).2 (by simp; omega)
      (by
        simp only [contiguous_cons, contiguous_nil, and_true, hsu, hsv, true_and, hn, pageSize]
        omega) ?_
    · simpa using this
    · simp only [List.mem_cons, List.not_mem_nil, or_false, forall_eq_or_imp, forall_eq]
      exact ⟨fun e => absurd e (by omega), fun e => absurd e (by simp)⟩
  · have := valueAt_seam_left (runs l₁) (runs l₂) (n + 1) v.pages u.free v.free
    simp only [typeAt, runs_append, runs_cons, hn, pagesOf, show n + 2 - 1 = n + 1 by omega]
    exact this

/-- Splitting a section moves no page. -/
theorem split (h : Layout (l₁ ++ v :: l₂)) (hv : v.free ≠ .bad) {k : Nat} (pos : 0 < k)
    (lt : k < v.pages) :
    let l' := l₁ ++ ⟨v.start, k, v.free⟩
      :: ⟨v.start + k * pageSize, v.pages - k, v.free⟩ :: l₂
    Layout l' ∧ typeAt l' = typeAt (l₁ ++ v :: l₂) := by
  have hs : v.start = pagesOf l₁ * pageSize := h.start_eq
  obtain ⟨ne₁, ne₂⟩ := h.ne_nil hv
  constructor
  · have := @Layout.edit l₁ l₂ [v] [⟨v.start, k, v.free⟩,
      ⟨v.start + k * pageSize, v.pages - k, v.free⟩] (by simpa using h) ne₁ ne₂
      (by simp; omega) (by simp [hs]) ?_
    · simpa using this
    · simp only [List.mem_cons, List.not_mem_nil, or_false, forall_eq_or_imp, forall_eq]
      exact ⟨fun e => absurd e (by omega), fun e => absurd e (by omega)⟩
  · have := valueAt_split (runs l₁) (runs l₂) k (v.pages - k) v.free
    simp only [typeAt, runs_append, runs_cons]
    rwa [Nat.add_sub_cancel' lt.le] at this

/-- Giving a section of one page another kind changes that page. -/
theorem retag (h : Layout (l₁ ++ v :: l₂)) (hv : v.free ≠ .bad) (one : v.pages = 1)
    (t : SectionType) :
    Layout (l₁ ++ { v with free := t } :: l₂) ∧ typeAt (l₁ ++ { v with free := t } :: l₂) =
      Function.update (typeAt (l₁ ++ v :: l₂)) (pagesOf l₁) (some t) := by
  have hs : v.start = pagesOf l₁ * pageSize := h.start_eq
  obtain ⟨ne₁, ne₂⟩ := h.ne_nil hv
  constructor
  · have := @Layout.edit l₁ l₂ [v] [{ v with free := t }] (by simpa using h) ne₁ ne₂
      (by simp) (by simp [hs]) (by simp [one])
    simpa using this
  · have := valueAt_retag (runs l₁) (runs l₂) v.free t
    simp only [typeAt, runs_append, runs_cons, one]
    exact this

/-- Joining two sections of one kind moves no page. -/
theorem merge {u : Section} (h : Layout (l₁ ++ u :: v :: l₂)) (hv : v.free ≠ .bad)
    (same : u.free = v.free) :
    let l' := l₁ ++ ⟨u.start, u.pages + v.pages, v.free⟩ :: l₂
    Layout l' ∧ typeAt l' = typeAt (l₁ ++ u :: v :: l₂) := by
  have h' : Layout ((l₁ ++ [u]) ++ v :: l₂) := by simpa using h
  have hs : u.start = pagesOf l₁ * pageSize := h.start_eq
  constructor
  · have := @Layout.edit l₁ l₂ [u, v] [⟨u.start, u.pages + v.pages, v.free⟩]
      (by simpa using h) (h.ne_nil (same ▸ hv)).1 (h'.ne_nil hv).2 (by simp) (by simp [hs]) ?_
    · simpa using this
    · simp only [List.mem_cons, List.not_mem_nil, or_false, forall_eq]
      intro e
      exact h.empty v (by simp) (by omega)
  · have := valueAt_split (runs l₁) (runs l₂) u.pages v.pages v.free
    simp only [typeAt, runs_append, runs_cons, same]
    exact this.symm

/-- Joining two sections of one kind anywhere in the list, its ends included. -/
theorem join {u : Section} (h : Layout (l₁ ++ u :: v :: l₂)) (same : u.free = v.free) :
    let l' := l₁ ++ { u with pages := u.pages + v.pages } :: l₂
    Layout l' ∧ pagesOf l' = pagesOf (l₁ ++ u :: v :: l₂) ∧
      typeAt l' = typeAt (l₁ ++ u :: v :: l₂) := by
  have tot : pagesOf (l₁ ++ { u with pages := u.pages + v.pages } :: l₂)
      = pagesOf (l₁ ++ u :: v :: l₂) := by simp [Nat.add_assoc]
  refine ⟨⟨?_, ?_, tot ▸ h.total, ?_, ?_, ?_⟩, tot, ?_⟩
  · have := contiguous_append.mp h.contiguous
    refine contiguous_append.mpr ⟨this.1, this.2.1, ?_⟩
    have := this.2.2.2
    rwa [Nat.add_assoc, ← Nat.add_mul] at this
  · intro x hx
    simp only [List.mem_append, List.mem_cons] at hx
    rcases hx with hx | rfl | hx
    · exact h.starts x (by simp [hx])
    · exact h.starts u (by simp)
    · exact h.starts x (by simp [hx])
  · obtain ⟨x, lx, hx, hxf⟩ := h.first
    cases l₁ with
    | nil =>
      obtain rfl : u = x := (List.cons.inj hx).1
      exact ⟨_, _, rfl, hxf⟩
    | cons y l₁ =>
      obtain rfl : y = x := (List.cons.inj hx).1
      exact ⟨y, _, rfl, hxf⟩
  · obtain ⟨y, ly, hy, hyf⟩ := h.last
    rcases List.eq_nil_or_concat l₂ with rfl | ⟨q, z, rfl⟩
    · have := List.append_inj_right' (show (l₁ ++ [u]) ++ [v] = ly ++ [y] by simpa using hy) rfl
      obtain rfl : v = y := by simpa using this
      exact ⟨_, l₁, rfl, same.trans hyf⟩
    · have := List.append_inj_right'
        (show (l₁ ++ u :: v :: q) ++ [z] = ly ++ [y] by simpa using hy) rfl
      obtain rfl : z = y := by simpa using this
      exact ⟨z, l₁ ++ { u with pages := u.pages + v.pages } :: q, by simp, hyf⟩
  · intro x hx
    simp only [List.mem_append, List.mem_cons] at hx
    rcases hx with hx | rfl | hx
    · exact h.empty x (by simp [hx])
    · intro e
      exact h.empty u (by simp) (by simp only at e; omega)
    · exact h.empty x (by simp [hx])
  · have := valueAt_split (runs l₁) (runs l₂) u.pages v.pages u.free
    simp only [typeAt, runs_append, runs_cons, ← same]
    exact this.symm

end Layout

end Skylight.Pmm
