import Mathlib.Data.List.Range
import Skylight.Lib.Radix
import Skylight.Laws.Paging.Descriptors

/-!
# The tree behind a root

The tables under `pml4` form a radix tree of depth three over tables, whose last level
holds the pages. `Extends` says what a call may do to it: no table is lost or moved, bits
are only added above the last level, and the pages change as a list of mappings says. The
relation composes, so the recursion of `paging_map_page` is followed step by step.
-/

namespace Skylight.Paging

open Radix

instance finiteBitVec {w : Nat} : Finite (BitVec w) :=
  Finite.of_injective BitVec.toFin fun _ _ => BitVec.eq_of_toFin_eq

/-- The indices that lead to the last table of a page. -/
def PagingIndexer.path (x : PagingIndexer) : List (BitVec 9) := [x.pml4, x.pml3, x.pml2]

namespace State

/-- The table a path leads to. -/
abbrev follow (s : State) (π : List (BitVec 9)) : Option Addr := Radix.follow child s.mem s.pml4 π

/-- The descriptor of a page: zero where no table holds one. -/
def leaf (s : State) (x : PagingIndexer) : Desc := (s.follow x.path).elim 0 (s.mem · x.pml1)

/-- The number of paths to a table that have none yet. -/
noncomputable def lacking (s : State) : Nat := Radix.lacking child 3 s.mem s.pml4

end State

/-- Every table is referenced once, and an absent upper descriptor holds no address. -/
structure WellFormed (s : State) : Prop where
  distinct : Distinct child 3 s.mem s.pml4
  clear : ∀ π t i, π.length ≤ 2 → s.follow π = some t → child (s.mem t i) = none →
    pagingDescGetAddress (s.mem t i) = 0

/-- Frames that the page tables do not use yet. -/
structure Fresh (s : State) (fs : List Addr) : Prop where
  nodup : fs.Nodup
  frame : ∀ t ∈ fs, t ≠ 0 ∧ IsFrame t
  unused : ∀ t ∈ fs, ∀ π : List (BitVec 9), π.length ≤ 3 → s.follow π ≠ some t

/-- A page as it is mapped. -/
structure Mapping where
  page : PagingIndexer
  phys : Addr
  flags : Desc

/-- The pages after one is mapped. -/
def Mapping.apply (pages : PagingIndexer → Desc) (w : Mapping) : PagingIndexer → Desc :=
  Function.update pages w.page (leafEntry (pages w.page) w.phys w.flags)

/-- The mapping of a table's own page. -/
def ident (t : Addr) : Mapping := ⟨pagingIndexerAssign t, t, wide flagsKernelPage⟩

/-- A flag field is part of the upper descriptor at the end of a path. -/
def Covered (s : State) (π : List (BitVec 9)) (i : BitVec 9) (f : Desc) : Prop :=
  ∃ t, s.follow π = some t ∧ Within f (s.mem t i)

/-- The tree after tables `taken` were put into it and pages mapped as `ws` says. -/
structure Extends (s s' : State) (taken : List Addr) (ws : List Mapping) : Prop where
  root : s'.pml4 = s.pml4
  keeps : ∀ π t, π.length ≤ 3 → s.follow π = some t → s'.follow π = some t
  news : ∀ π t, π.length ≤ 3 → s'.follow π = some t →
    s.follow π = some t ∨ (s.follow π = none ∧ t ∈ taken)
  grows : ∀ π t i, π.length ≤ 2 → s.follow π = some t → Within (s.mem t i) (s'.mem t i)
  leaf : s'.leaf = ws.foldl Mapping.apply s.leaf
  covers : ∀ w ∈ ws, ∀ π i ρ, w.page.path = π ++ i :: ρ → Covered s' π i w.flags
  frame : ∀ t, t ∉ taken → (∀ π : List (BitVec 9), π.length ≤ 3 → s.follow π ≠ some t) →
    s'.mem t = s.mem t
  fewer : s'.lacking + taken.length = s.lacking
  wf : WellFormed s'

section
variable {s s₁ s₂ s' : State} {x y : PagingIndexer} {π ρ : List (BitVec 9)} {i : BitVec 9}
  {t n : Addr} {f p : Desc} {a b : List Addr} {ws vs : List Mapping} {v : Addr}

/-- A path has at most three indices. -/
theorem path_length (x : PagingIndexer) : x.path.length ≤ 3 := Nat.le_refl 3

/-- The last table of a page is the one its path leads to. -/
theorem lastTable_eq (s : State) (x : PagingIndexer) : lastTable s x = s.follow x.path := by
  show _ = Radix.follow child s.mem s.pml4 [x.pml4, x.pml3, x.pml2]
  cases h₄ : pagingDescGetFlag (s.mem s.pml4 x.pml4) flagPresent with
  | false => simp [lastTable, follow, child, h₄]
  | true =>
    cases h₃ : pagingDescGetFlag (s.mem (pagingDescGetAddress (s.mem s.pml4 x.pml4)) x.pml3)
      flagPresent with
    | false => simp [lastTable, follow, child, h₄, h₃]
    | true =>
      cases h₂ : pagingDescGetFlag (s.mem (pagingDescGetAddress (s.mem (pagingDescGetAddress
        (s.mem s.pml4 x.pml4)) x.pml3)) x.pml2) flagPresent <;>
        simp [lastTable, follow, child, h₄, h₃, h₂]

/-- The walk reads the address of the page's descriptor. -/
theorem walk_eq (s : State) (v : Addr) :
    pagingWalkPage s v = pagingDescGetAddress (s.leaf (pagingIndexerAssign v)) := by
  rw [pagingWalkPage, State.leaf, lastTable_eq]
  cases s.follow (pagingIndexerAssign v).path with
  | none => exact getAddress_zero.symm
  | some t => rfl

/-- The last tables are not upper tables. -/
theorem last_ne (distinct : Distinct child 3 s.mem s.pml4) (hπ : π.length ≤ 2)
    (ht : s.follow π = some t) {u : Addr} (hu : s.follow x.path = some u) : u ≠ t := by
  rintro rfl
  have := distinct (by omega) (path_length x) ht hu
  rw [this] at hπ
  exact absurd hπ (by simp [PagingIndexer.path])

/-- A page is told by its last table and its index there. -/
theorem page_eq (distinct : Distinct child 3 s.mem s.pml4) (hx : s.follow x.path = some t)
    (hy : s.follow y.path = some t) (h : x.pml1 = y.pml1) : x = y := by
  have := distinct (path_length x) (path_length y) hx hy
  cases x
  cases y
  simp_all [PagingIndexer.path]

/-- Flags in an upper descriptor stay there. -/
theorem Covered.mono (h : Covered s π i f) (hπ : π.length ≤ 2) (e : Extends s s' a ws) :
    Covered s' π i f := by
  obtain ⟨t, ht, within⟩ := h
  exact ⟨t, e.keeps π t (by omega) ht, within.trans (e.grows π t i hπ ht)⟩

/-- The upper tables of a page lie at the three shorter ends of its path. -/
theorem path_length_le (h : x.path = π ++ i :: ρ) : π.length ≤ 2 := by
  have := congrArg List.length h
  simp [PagingIndexer.path] at this
  omega

/-- Nothing done. -/
theorem Extends.refl (wf : WellFormed s) : Extends s s [] [] where
  root := rfl
  keeps _ _ _ h := h
  news _ _ _ h := Or.inl h
  grows _ _ _ _ _ := Within.refl _
  leaf := rfl
  covers := by simp
  frame _ _ _ := rfl
  fewer := rfl
  wf := wf

/-- Two calls are one step. -/
theorem Extends.trans (h : Extends s s₁ a ws) (h' : Extends s₁ s₂ b vs) :
    Extends s s₂ (a ++ b) (ws ++ vs) where
  root := h'.root.trans h.root
  keeps π t hπ ht := h'.keeps π t hπ (h.keeps π t hπ ht)
  news π t hπ ht := by
    rcases h'.news π t hπ ht with old | ⟨none, mem⟩
    · rcases h.news π t hπ old with old | ⟨none, mem⟩
      · exact Or.inl old
      · exact Or.inr ⟨none, List.mem_append_left b mem⟩
    · refine Or.inr ⟨?_, List.mem_append_right a mem⟩
      cases ht : s.follow π with
      | none => rfl
      | some u =>
        rw [h.keeps π u hπ ht] at none
        cases none
  grows π t i hπ ht :=
    (h.grows π t i hπ ht).trans (h'.grows π t i hπ (h.keeps π t (by omega) ht))
  leaf := by rw [h'.leaf, h.leaf, List.foldl_append]
  covers w mem π i ρ hw := by
    rcases List.mem_append.mp mem with mem | mem
    · exact (h.covers w mem π i ρ hw).mono (path_length_le hw) h'
    · exact h'.covers w mem π i ρ hw
  frame t off old := by
    rw [List.mem_append, not_or] at off
    rw [h'.frame t off.2 _, h.frame t off.1 old]
    intro π hπ ht
    rcases h.news π t hπ ht with was | ⟨-, mem⟩
    · exact old π hπ was
    · exact off.1 mem
  fewer := by
    have h₁ := h.fewer
    have h₂ := h'.fewer
    rw [List.length_append]
    omega
  wf := h'.wf

/-- The first of the frames are fresh. -/
theorem Fresh.left (h : Fresh s (a ++ b)) : Fresh s a where
  nodup := (List.nodup_append.mp h.nodup).1
  frame t mem := h.frame t (List.mem_append_left b mem)
  unused t mem := h.unused t (List.mem_append_left b mem)

/-- The frames that come after those taken are fresh for the new tree. -/
theorem Fresh.right (h : Fresh s (a ++ b)) (e : Extends s s' a ws) : Fresh s' b where
  nodup := (List.nodup_append.mp h.nodup).2.1
  frame t mem := h.frame t (List.mem_append_right a mem)
  unused t mem π hπ ht := by
    rcases e.news π t hπ ht with old | ⟨-, taken⟩
    · exact h.unused t (List.mem_append_right a mem) π hπ old
    · exact (List.nodup_append.mp h.nodup).2.2 t taken t mem rfl

/-- Flags added to a present upper descriptor. -/
theorem WellFormed.widen (wf : WellFormed s) (hπ : π.length ≤ 2) (ht : s.follow π = some t)
    (present : pagingDescGetFlag (s.mem t i) flagPresent = true) (hf : IsFlags f) :
    Extends s (s.setEntry t i (s.mem t i ||| f)) [] [] := by
  have same (u : Addr) (j : BitVec 9) :
      child ((s.setEntry t i (s.mem t i ||| f)).mem u j) = child (s.mem u j) := by
    by_cases here : u = t ∧ j = i
    · rw [State.setEntry_mem, if_pos here, here.1, here.2, child_or hf present]
    · rw [State.setEntry_mem, if_neg here]
  have follow : ∀ ρ : List (BitVec 9), ρ.length ≤ 3 →
      (s.setEntry t i (s.mem t i ||| f)).follow ρ = s.follow ρ :=
    follow_congr fun _ u j _ _ => same u j
  have grows (u : Addr) (j : BitVec 9) :
      Within (s.mem u j) ((s.setEntry t i (s.mem t i ||| f)).mem u j) := by
    by_cases here : u = t ∧ j = i
    · rw [State.setEntry_mem, if_pos here, here.1, here.2]
      exact within_or_left _ _
    · rw [State.setEntry_mem, if_neg here]
      exact Within.refl _
  refine ⟨rfl, fun ρ u hρ hu => (follow ρ hρ).trans hu, fun ρ u hρ hu =>
    Or.inl ((follow ρ hρ).symm.trans hu), fun _ u j _ _ => grows u j, ?_, by simp, ?_,
    lacking_congr follow, wf.distinct.congr follow, ?_⟩
  · ext1 x
    rw [List.foldl_nil, State.leaf, State.leaf, follow x.path (path_length x)]
    cases hu : s.follow x.path with
    | none => rfl
    | some u =>
      have ne := last_ne wf.distinct hπ ht hu
      simp [ne]
  · intro u _ old
    ext1 j
    have ne : u ≠ t := by
      rintro rfl
      exact old π (by omega) ht
    rw [State.setEntry_mem, if_neg fun h => ne h.1]
  · intro ρ u j hρ hu none
    rw [same] at none
    rw [State.setEntry_mem]
    rw [follow ρ (by omega)] at hu
    have off : ¬ (u = t ∧ j = i) := by
      rintro ⟨rfl, rfl⟩
      rw [child_eq_none, present] at none
      cases none
    rw [if_neg off]
    exact wf.clear ρ u j hρ hu none

/-- A new table behind an absent upper descriptor. -/
theorem WellFormed.install (wf : WellFormed s) (hπ : π.length ≤ 2) (ht : s.follow π = some t)
    (absent : pagingDescGetFlag (s.mem t i) flagPresent = false) (hf : IsFlags f)
    (frame : IsFrame n) (unused : ∀ ρ : List (BitVec 9), ρ.length ≤ 3 → s.follow ρ ≠ some n) :
    Extends s ((s.clearTable n).setEntry t i (tableEntry (s.mem t i) n f)) [n] [] ∧
      ((s.clearTable n).setEntry t i (tableEntry (s.mem t i) n f)).follow (π ++ [i])
        = some n := by
  set s' := (s.clearTable n).setEntry t i (tableEntry (s.mem t i) n f) with def_s'
  have ne : t ≠ n := by
    rintro rfl
    exact unused π (by omega) ht
  have vacant : child (s.mem t i) = none := child_of_absent absent
  have mem (u : Addr) (j : BitVec 9) : s'.mem u j
      = if u = t ∧ j = i then tableEntry (s.mem t i) n f else if u = n then 0 else s.mem u j := by
    rw [def_s', State.setEntry_mem, State.clearTable_mem]
  have inst : Install child s.mem t i n s'.mem := by
    refine ⟨vacant, ?_, fun j => ?_, fun u j off entry => ?_⟩
    · rw [mem, if_pos ⟨rfl, rfl⟩]
      exact child_tableEntry (wf.clear π t i hπ ht vacant) frame hf
    · rw [mem, if_neg fun h => ne h.1.symm, if_pos rfl, child_zero]
    · rw [mem, if_neg entry, if_neg off]
  have shows : ∀ ρ : List (BitVec 9), ρ.length ≤ 3 →
      s'.follow ρ = if ρ = π ++ [i] then some n else s.follow ρ :=
    inst.shows wf.distinct ht (by omega) unused
  have led : s'.follow (π ++ [i]) = some n := by
    rw [shows _ (by simp; omega), if_pos rfl]
  have gap : s.follow (π ++ [i]) = none := by
    rw [State.follow, follow_snoc, show Radix.follow child s.mem s.pml4 π = some t from ht,
      Option.bind_some, vacant]
  refine ⟨⟨rfl, ?_, ?_, ?_, ?_, by simp, ?_,
    inst.lacking_succ wf.distinct ht (by omega) unused, ?_, ?_⟩, led⟩
  · intro ρ u hρ hu
    have off : ρ ≠ π ++ [i] := by
      rintro rfl
      rw [gap] at hu
      cases hu
    rw [shows ρ hρ, if_neg off, hu]
  · intro ρ u hρ hu
    rw [shows ρ hρ] at hu
    by_cases here : ρ = π ++ [i]
    · rw [if_pos here] at hu
      cases hu
      exact Or.inr ⟨by rw [here, gap], List.mem_singleton_self n⟩
    · rw [if_neg here] at hu
      exact Or.inl hu
  · intro ρ u j hρ hu
    have old : u ≠ n := by
      rintro rfl
      exact unused ρ (by omega) hu
    by_cases here : u = t ∧ j = i
    · rw [mem, if_pos here, here.1, here.2]
      exact within_tableEntry _ _ _
    · rw [mem, if_neg here, if_neg old]
      exact Within.refl _
  · ext1 x
    rw [List.foldl_nil, State.leaf, State.leaf, shows x.path (path_length x)]
    by_cases here : x.path = π ++ [i]
    · rw [if_pos here, here, gap]
      show s'.mem n x.pml1 = 0
      rw [mem, if_neg fun h => ne h.1.symm, if_pos rfl]
    · rw [if_neg here]
      cases hu : s.follow x.path with
      | none => rfl
      | some u =>
        have up := last_ne wf.distinct hπ ht hu
        have old : u ≠ n := by
          rintro rfl
          exact unused x.path (path_length x) hu
        show s'.mem u x.pml1 = s.mem u x.pml1
        rw [mem, if_neg fun h => up h.1, if_neg old]
  · intro u off old
    ext1 j
    have up : u ≠ t := by
      rintro rfl
      exact old π (by omega) ht
    rw [mem, if_neg fun h => up h.1, if_neg fun h => off (List.mem_singleton.mpr h)]
  · exact inst.distinct wf.distinct ht (by omega) unused
  · intro ρ u j hρ hu none
    rw [shows ρ (by omega)] at hu
    by_cases new : u = n
    · rw [new, mem, if_neg fun h => ne h.1.symm, if_pos rfl, getAddress_zero]
    · have entry : ¬ (u = t ∧ j = i) := by
        intro here
        rw [mem, if_pos here, child_tableEntry (wf.clear π t i hπ ht vacant) frame hf] at none
        cases none
      rw [mem, if_neg entry, if_neg new] at none ⊢
      by_cases here : ρ = π ++ [i]
      · rw [if_pos here] at hu
        exact absurd (Option.some.inj hu).symm new
      · rw [if_neg here] at hu
        exact wf.clear ρ u j hρ hu none

/-- A page's own descriptor lies in none of the upper tables. -/
theorem follow_setLeaf (distinct : Distinct child 3 s.mem s.pml4) (ht : s.follow x.path = some t)
    (e : Desc) : ∀ ρ : List (BitVec 9), ρ.length ≤ 3 →
      (s.setEntry t x.pml1 e).follow ρ = s.follow ρ := by
  refine follow_congr fun ρ u j hρ hu => ?_
  have ne := last_ne distinct (show ρ.length ≤ 2 by omega) hu ht
  rw [State.setEntry_mem, if_neg fun h => ne h.1.symm]

/-- A page's own descriptor written: the other pages stay. -/
theorem leaf_setLeaf (distinct : Distinct child 3 s.mem s.pml4) (ht : s.follow x.path = some t)
    (e : Desc) : (s.setEntry t x.pml1 e).leaf = Function.update s.leaf x e := by
  have follow := follow_setLeaf distinct ht e
  ext1 y
  rw [Function.update_apply, State.leaf, State.leaf, follow y.path (path_length y)]
  by_cases here : y = x
  · rw [if_pos here, here, ht]
    show (s.setEntry t x.pml1 e).mem t x.pml1 = e
    rw [State.setEntry_mem, if_pos ⟨rfl, rfl⟩]
  · rw [if_neg here]
    cases hu : s.follow y.path with
    | none => rfl
    | some u =>
      show (s.setEntry t x.pml1 e).mem u y.pml1 = s.mem u y.pml1
      have off : ¬ (u = t ∧ y.pml1 = x.pml1) := by
        rintro ⟨rfl, index⟩
        exact here (page_eq distinct hu ht index)
      rw [State.setEntry_mem, if_neg off]

/-- A page's descriptor may be anything. -/
theorem WellFormed.setLeaf (wf : WellFormed s) (ht : s.follow x.path = some t) (e : Desc) :
    WellFormed (s.setEntry t x.pml1 e) := by
  have follow := follow_setLeaf wf.distinct ht e
  refine ⟨wf.distinct.congr follow, ?_⟩
  intro ρ u j hρ hu none
  rw [follow ρ (by omega)] at hu
  have ne := last_ne wf.distinct hρ hu ht
  rw [State.setEntry_mem, if_neg fun h => ne h.1.symm] at none ⊢
  exact wf.clear ρ u j hρ hu none

/-- A page mapped whose tables are there and hold its flags. -/
theorem WellFormed.map (wf : WellFormed s) (ht : s.follow x.path = some t)
    (covered : ∀ π i ρ, x.path = π ++ i :: ρ → Covered s π i f) :
    Extends s (s.setEntry t x.pml1 (leafEntry (s.mem t x.pml1) p f)) [] [⟨x, p, f⟩] := by
  have follow := follow_setLeaf wf.distinct ht (leafEntry (s.mem t x.pml1) p f)
  have upper {ρ : List (BitVec 9)} {u : Addr} (j : BitVec 9) (hρ : ρ.length ≤ 2)
      (hu : s.follow ρ = some u) :
      (s.setEntry t x.pml1 (leafEntry (s.mem t x.pml1) p f)).mem u j = s.mem u j := by
    have ne := last_ne wf.distinct hρ hu ht
    rw [State.setEntry_mem, if_neg fun h => ne h.1.symm]
  refine ⟨rfl, fun ρ u hρ hu => (follow ρ hρ).trans hu, fun ρ u hρ hu =>
    Or.inl ((follow ρ hρ).symm.trans hu), ?_, ?_, ?_, ?_, lacking_congr follow,
    wf.setLeaf ht _⟩
  · intro ρ u j hρ hu
    rw [upper j hρ hu]
    exact Within.refl _
  · have here : s.leaf x = s.mem t x.pml1 := by rw [State.leaf, ht, Option.elim_some]
    rw [leaf_setLeaf wf.distinct ht, List.foldl_cons, List.foldl_nil, Mapping.apply, here]
  · intro w mem π i ρ hw
    rw [List.mem_singleton] at mem
    subst mem
    have hπ := path_length_le hw
    obtain ⟨u, hu, within⟩ := covered π i ρ hw
    refine ⟨u, (follow π (by omega)).trans hu, ?_⟩
    rw [upper i hπ hu]
    exact within
  · intro u _ old
    ext1 j
    have ne : u ≠ t := by
      rintro rfl
      exact old x.path (path_length x) ht
    rw [State.setEntry_mem, if_neg fun h => ne h.1]

end

end Skylight.Paging
