import Mathlib.Logic.Relation
import Skylight.Laws.Paging.Map

/-!
# What becomes of the pages

The descriptors of all pages after a list of mappings, and the descriptors the processor
meets on its way to one. `Guarded` is the invariant of every run from an empty root: each
upper descriptor holds the flags of every page below it.
-/

namespace Skylight.Paging

/-- The descriptors the processor meets on its way down, one for each level it gets to. -/
def visits (s : State) : Addr → List (BitVec 9) → List Desc
  | _, [] => []
  | table, i :: rest =>
    let pde := s.mem table i
    pde :: if pagingDescGetFlag pde flagPresent then visits s (pagingDescGetAddress pde) rest
      else []

/-- The levels of the walk of a page. -/
def levels (s : State) (virt : Addr) : List Desc :=
  let indexer := pagingIndexerAssign virt
  visits s s.pml4 [indexer.pml4, indexer.pml3, indexer.pml2, indexer.pml1]

section
variable {g : Nat → Addr} {s s' : State} {π : List (BitVec 9)} {i : BitVec 9} {t u : Addr}
  {e m : Desc} {ws : List Mapping} {w : Mapping} {L : PagingIndexer → Desc} {x : PagingIndexer}
  {ts : List Addr} {v : Addr}

/-- A page none of the mappings is about stays. -/
theorem foldl_apply_of_ne (h : ∀ w ∈ ws, w.page ≠ x) : ws.foldl Mapping.apply L x = L x := by
  induction ws generalizing L with
  | nil => rfl
  | cons w ws ih =>
    rw [List.forall_mem_cons] at h
    rw [List.foldl_cons, ih h.2, Mapping.apply, Function.update_of_ne h.1.symm]

/-- A page one of the mappings is about is changed by it alone. -/
theorem foldl_apply_of_mem (nodup : (ws.map Mapping.page).Nodup) (mem : w ∈ ws) :
    ws.foldl Mapping.apply L w.page = leafEntry (L w.page) w.phys w.flags := by
  induction ws generalizing L with
  | nil => cases mem
  | cons v ws ih =>
    rw [List.map_cons, List.nodup_cons] at nodup
    rw [List.foldl_cons]
    rcases List.mem_cons.mp mem with rfl | mem
    · have off : ∀ v ∈ ws, v.page ≠ w.page := fun v hv eq =>
        nodup.1 (List.mem_map.mpr ⟨v, hv, eq⟩)
      rw [foldl_apply_of_ne off, Mapping.apply, Function.update_self]
    · have ne : w.page ≠ v.page := fun eq => nodup.1 (List.mem_map.mpr ⟨w, mem, eq⟩)
      rw [ih nodup.2 mem, Mapping.apply, Function.update_of_ne ne]

/-- The flags of a page are those it had, or those of a mapping. -/
theorem flagsOf_foldl_apply (hf : ∀ w ∈ ws, IsFlags w.flags) :
    ws.foldl Mapping.apply L x = L x ∨
      ∃ w ∈ ws, w.page = x ∧ flagsOf (ws.foldl Mapping.apply L x) = w.flags := by
  induction ws using List.reverseRecOn with
  | nil => exact Or.inl rfl
  | append_singleton ws w ih =>
    have hw := hf w (List.mem_append_right ws (List.mem_singleton_self w))
    rw [List.foldl_append, List.foldl_cons, List.foldl_nil, Mapping.apply]
    by_cases here : w.page = x
    · refine Or.inr ⟨w, List.mem_append_right ws (List.mem_singleton_self w), here, ?_⟩
      rw [here, Function.update_self]
      exact flagsOf_leafEntry hw
    · rw [Function.update_of_ne (Ne.symm here)]
      rcases ih fun v hv => hf v (List.mem_append_left _ hv) with same | ⟨v, hv, page, flags⟩
      · exact Or.inl same
      · exact Or.inr ⟨v, List.mem_append_left _ hv, page, flags⟩

/-- The walk meets descriptors at the ends of the path only. -/
theorem mem_visits : ∀ {ρ : List (BitVec 9)} {t : Addr}, e ∈ visits s t ρ →
    ∃ π j π' u, ρ = π ++ j :: π' ∧ Radix.follow child s.mem t π = some u ∧ e = s.mem u j := by
  intro ρ
  induction ρ with
  | nil => intro t h; cases h
  | cons i ρ ih =>
    intro t h
    rcases List.mem_cons.mp h with rfl | h
    · exact ⟨[], i, ρ, t, rfl, rfl, rfl⟩
    · cases present : pagingDescGetFlag (s.mem t i) flagPresent with
      | false =>
        rw [if_neg (by simp [present])] at h
        cases h
      | true =>
        rw [if_pos present] at h
        obtain ⟨π, j, π', u, eq, there, rfl⟩ := ih h
        refine ⟨i :: π, j, π', u, by rw [eq, List.cons_append], ?_, rfl⟩
        rw [Radix.follow, child_of_present present]
        exact there

/-- The walk gets to the last level when all the tables are there. -/
theorem length_visits : ∀ {t : Addr}, (visits s t (π ++ [i])).length = π.length + 1 ↔
    ∃ u, Radix.follow child s.mem t π = some u := by
  induction π with
  | nil =>
    intro t
    cases present : pagingDescGetFlag (s.mem t i) flagPresent <;> simp [visits, present]
  | cons j π ih =>
    intro t
    cases present : pagingDescGetFlag (s.mem t j) flagPresent with
    | false => simp [visits, present, Radix.follow, child]
    | true =>
      rw [List.cons_append, visits, List.length_cons, List.length_cons, Nat.add_right_cancel_iff,
        if_pos present, ih, Radix.follow, child_of_present present, Option.bind_some]

/-- The last descriptor the walk meets is the page's own. -/
theorem last_mem_visits : ∀ {t : Addr}, Radix.follow child s.mem t π = some u →
    s.mem u i ∈ visits s t (π ++ [i]) := by
  induction π with
  | nil =>
    intro t h
    cases h
    exact List.mem_cons_self
  | cons j π ih =>
    intro t h
    rw [Radix.follow] at h
    obtain ⟨n, led, there⟩ := Option.bind_eq_some_iff.mp h
    cases present : pagingDescGetFlag (s.mem t j) flagPresent with
    | false =>
      rw [child_of_absent present] at led
      cases led
    | true =>
      rw [child_of_present present] at led
      cases led
      rw [List.cons_append, visits, if_pos present]
      exact List.mem_cons_of_mem _ (ih there)

/-- Every upper descriptor on the way to a page holds the flags of the page. -/
def Guarded (s : State) : Prop := ∀ (x : PagingIndexer) π i ρ t, x.path = π ++ i :: ρ →
  s.follow π = some t → Within (flagsOf (s.leaf x)) (s.mem t i)

/-- The tables on the way to a page whose descriptor is not zero are all there. -/
theorem exists_last (h : s.leaf x ≠ 0) :
    ∃ u, s.follow x.path = some u ∧ s.leaf x = s.mem u x.pml1 := by
  cases hu : s.follow x.path with
  | none => exact absurd (by rw [State.leaf, hu, Option.elim_none]) h
  | some u => exact ⟨u, rfl, by rw [State.leaf, hu, Option.elim_some]⟩

/-- The beginning of a path that leads to a table leads to one. -/
theorem exists_follow (h : s.follow (π ++ ρ) = some u) : ∃ t, s.follow π = some t := by
  rw [State.follow, Radix.follow_append] at h
  obtain ⟨t, there, -⟩ := Option.bind_eq_some_iff.mp h
  exact ⟨t, there⟩

/-- In a guarded tree a flag is set at every level of a page's walk as soon as the page's own
descriptor has it. -/
theorem Guarded.levels_iff (h : Guarded s) (hm : IsFlags m) (virt : Addr) :
    ((levels s virt).length = 4 ∧ ∀ e ∈ levels s virt, pagingDescGetFlag e m = true) ↔
      pagingDescGetFlag (s.leaf (pagingIndexerAssign virt)) m = true := by
  set x := pagingIndexerAssign virt with def_x
  have whole : levels s virt = visits s s.pml4 (x.path ++ [x.pml1]) := rfl
  rw [whole]
  constructor
  · intro ⟨len, all⟩
    obtain ⟨u, there⟩ := length_visits.mp len
    have own := all _ (last_mem_visits there)
    rw [State.leaf, show s.follow x.path = some u from there]
    exact own
  · intro own
    have ne : s.leaf x ≠ 0 := by
      intro zero
      rw [zero, getFlag_zero] at own
      cases own
    obtain ⟨u, there, leaf⟩ := exists_last ne
    refine ⟨length_visits.mpr ⟨u, there⟩, fun e he => ?_⟩
    obtain ⟨ρ, j, ρ', v, split, led, rfl⟩ := mem_visits he
    rcases List.eq_nil_or_concat ρ' with rfl | ⟨ρ', k, rfl⟩
    · obtain ⟨path, last⟩ := List.append_inj' split rfl
      rw [← path] at led
      have same : v = u := Option.some.inj (led.symm.trans there)
      rw [same, ← List.singleton_inj.mp last, ← leaf]
      exact own
    · have split' : x.path ++ [x.pml1] = (ρ ++ j :: ρ') ++ [k] := by
        rw [split, List.concat_eq_append, List.append_assoc, List.cons_append]
      have path := (List.append_inj' split' rfl).1
      have within := h x ρ j ρ' v path led
      apply within.getFlag
      rw [getFlag_flagsOf hm]
      exact own

/-- Mapping keeps the guard: what is mapped is covered, and above the rest bits are only
added. -/
theorem Guarded.extends (h : Guarded s) (hf : ∀ w ∈ ws, IsFlags w.flags)
    (e : Extends s s' ts ws) : Guarded s' := by
  intro x π i ρ t path there
  have hπ := path_length_le path
  rw [e.leaf]
  rcases flagsOf_foldl_apply (L := s.leaf) (x := x) hf with same | ⟨w, mem, rfl, flags⟩
  · rw [same]
    by_cases blank : s.leaf x = 0
    · rw [blank]
      exact zero_within _
    · obtain ⟨u, last, -⟩ := exists_last blank
      rw [path] at last
      obtain ⟨t₀, old⟩ := exists_follow last
      have kept := e.keeps π t₀ (by omega) old
      have eq : t₀ = t := Option.some.inj (kept.symm.trans there)
      rw [eq] at old
      exact (h x π i ρ t path old).trans (e.grows π t i hπ old)
  · obtain ⟨t₀, new, within⟩ := e.covers w mem π i ρ path
    have eq : t₀ = t := Option.some.inj (new.symm.trans there)
    rw [flags, ← eq]
    exact within

/-- Unmapping clears the page's descriptor and no other, in any tree that has each table once. -/
theorem unmapPage_leaf (distinct : Radix.Distinct child 3 s.mem s.pml4) (v : Addr) :
    (pagingUnmapPage s v).leaf = Function.update s.leaf (pagingIndexerAssign v) 0 := by
  rw [pagingUnmapPage, lastTable_eq]
  cases there : s.follow (pagingIndexerAssign v).path with
  | none =>
    have blank : s.leaf (pagingIndexerAssign v) = 0 := by
      rw [State.leaf, there, Option.elim_none]
    exact (Function.update_eq_self_iff.mpr blank.symm).symm
  | some u => exact leaf_setLeaf distinct there 0

/-- What unmapping does: the page's descriptor is cleared, and the tables stay. -/
theorem WellFormed.unmap (wf : WellFormed s) (v : Addr) :
    WellFormed (pagingUnmapPage s v) ∧
      (pagingUnmapPage s v).leaf = Function.update s.leaf (pagingIndexerAssign v) 0 ∧
      (∀ π : List (BitVec 9), π.length ≤ 3 → (pagingUnmapPage s v).follow π = s.follow π) ∧
      ∀ π t i, π.length ≤ 2 → s.follow π = some t → (pagingUnmapPage s v).mem t i = s.mem t i := by
  have leaf := unmapPage_leaf wf.distinct v
  rw [pagingUnmapPage, lastTable_eq] at leaf ⊢
  cases there : s.follow (pagingIndexerAssign v).path with
  | none =>
    rw [there] at leaf
    exact ⟨wf, leaf, fun _ _ => rfl, fun _ _ _ _ _ => rfl⟩
  | some u =>
    rw [there] at leaf
    refine ⟨wf.setLeaf there 0, leaf, follow_setLeaf wf.distinct there 0, ?_⟩
    intro π t i hπ ht
    have ne := last_ne wf.distinct hπ ht there
    rw [State.setEntry_mem, if_neg fun h => ne h.1.symm]

/-- A page that is unmapped asks for no flags above it. -/
theorem Guarded.unmap (h : Guarded s) (wf : WellFormed s) (v : Addr) :
    Guarded (pagingUnmapPage s v) := by
  obtain ⟨-, leaf, follow, upper⟩ := wf.unmap v
  intro x π i ρ t path there
  have hπ := path_length_le path
  rw [follow π (by omega)] at there
  rw [leaf, upper π t i hπ there]
  by_cases here : x = pagingIndexerAssign v
  · rw [here, Function.update_self]
    exact zero_within _
  · rw [Function.update_of_ne here]
    exact h x π i ρ t path there

end

end Skylight.Paging
