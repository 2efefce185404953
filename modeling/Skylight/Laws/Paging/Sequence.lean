import Mathlib.SetTheory.Cardinal.NatCard
import Skylight.Laws.Paging.Contracts
import Skylight.Proc.AddressSpace

/-!
# Many pages mapped

Calls of `paging_map_page` one after the other. The descriptor of a page holds every bit of
every address the page was ever mapped to, and the flags it was mapped with last. So a page
is where it should be exactly as long as nothing maps it elsewhere.
-/

namespace Skylight.Paging

section
variable {g : Nat → Addr} {s s₁ s₂ s' : State} {ws vs : List Mapping} {w : Mapping}
  {L : PagingIndexer → Desc} {x : PagingIndexer} {a b f : Desc} {rs : List Request} {fuel : Nat}

/-- Bits within each other are the same. -/
theorem Within.antisymm (h : Within a b) (h' : Within b a) : a = b := by
  rw [← h, BitVec.and_comm]
  exact h'

/-- What has the bits of two has both. -/
theorem Within.or (h : Within a f) (h' : Within b f) : Within (a ||| b) f := by
  show (a ||| b) &&& f = a ||| b
  rw [BitVec.and_or_distrib_right, h, h']

/-- One mapping: the address of its page gains the bits of the address it maps to. -/
theorem getAddress_apply (hf : IsFlags w.flags) : pagingDescGetAddress (w.apply L x) =
    if w.page = x then pagingDescGetAddress (L x) ||| pagingDescGetAddress w.phys
    else pagingDescGetAddress (L x) := by
  rw [Mapping.apply]
  by_cases here : w.page = x
  · rw [if_pos here, here, Function.update_self, getAddress_leafEntry hf]
  · rw [if_neg here, Function.update_of_ne (Ne.symm here)]

/-- No bit of an address is lost. -/
theorem within_foldl (hf : ∀ w ∈ ws, IsFlags w.flags) :
    Within (pagingDescGetAddress (L x)) (pagingDescGetAddress (ws.foldl Mapping.apply L x)) ∧
    ∀ w ∈ ws, w.page = x →
      Within (pagingDescGetAddress w.phys) (pagingDescGetAddress (ws.foldl Mapping.apply L x)) := by
  induction ws generalizing L with
  | nil => exact ⟨Within.refl _, by simp⟩
  | cons v ws ih =>
    rw [List.forall_mem_cons] at hf
    obtain ⟨start, later⟩ := ih (L := v.apply L) hf.2
    rw [getAddress_apply hf.1] at start
    rw [List.foldl_cons]
    constructor
    · split at start
      · exact (within_or_left _ _).trans start
      · exact start
    · intro w mem here
      rcases List.mem_cons.mp mem with rfl | mem
      · rw [if_pos here] at start
        exact (within_or_right _ _).trans start
      · exact later w mem here

/-- No bit is gained but from the mappings of the page. -/
theorem foldl_within (hf : ∀ w ∈ ws, IsFlags w.flags)
    (start : Within (pagingDescGetAddress (L x)) a)
    (h : ∀ w ∈ ws, w.page = x → Within (pagingDescGetAddress w.phys) a) :
    Within (pagingDescGetAddress (ws.foldl Mapping.apply L x)) a := by
  induction ws generalizing L with
  | nil => exact start
  | cons v ws ih =>
    rw [List.forall_mem_cons] at hf h
    apply ih hf.2 _ h.2
    rw [getAddress_apply hf.1]
    split
    · next here => exact start.or (h.1 here)
    · exact start

/-- The flags are those of the last mapping; here all have the same. -/
theorem flagsOf_foldl (hf : ∀ w ∈ ws, IsFlags w.flags) (h : ∀ w ∈ ws, w.page = x → w.flags = f)
    (mem : ∃ w ∈ ws, w.page = x) : flagsOf (ws.foldl Mapping.apply L x) = f := by
  induction ws using List.reverseRecOn with
  | nil => simp at mem
  | append_singleton ws v ih =>
    have last := List.mem_append_right ws (List.mem_singleton_self v)
    rw [List.foldl_append, List.foldl_cons, List.foldl_nil, Mapping.apply]
    by_cases here : v.page = x
    · rw [← h v last here, here, Function.update_self]
      exact flagsOf_leafEntry (hf v last)
    · rw [Function.update_of_ne (Ne.symm here)]
      apply ih (fun w hw => hf w (List.mem_append_left _ hw))
        (fun w hw => h w (List.mem_append_left _ hw))
      obtain ⟨w, hw, page⟩ := mem
      rcases List.mem_append.mp hw with hw | hw
      · exact ⟨w, hw, page⟩
      · rw [List.mem_singleton.mp hw] at page
        exact absurd page here

/-- The tree after the pages `ws` were mapped, and among them the own pages of the frames
answered in between. -/
def Maps (g : Nat → Addr) (s s' : State) (ws : List Mapping) : Prop :=
  s.served ≤ s'.served ∧ ∃ all : List Mapping,
    all.Perm ((given g s.served s'.served).map ident ++ ws) ∧
      Extends s s' (given g s.served s'.served) all

/-- One call maps its page. -/
theorem Runs.maps (h : Runs g s s' ws) : Maps g s s' ws := by
  obtain ⟨le, ids, perm, e⟩ := h
  exact ⟨le, ids ++ ws, perm.append_right ws, e⟩

/-- No call maps nothing. -/
theorem Maps.refl (wf : WellFormed s) : Maps g s s [] := by
  refine ⟨Nat.le_refl _, [], ?_, ?_⟩
  · rw [given_self]
    exact List.Perm.refl _
  · rw [given_self]
    exact Extends.refl wf

/-- What is left is a tree. -/
theorem Maps.wf (h : Maps g s s' ws) : WellFormed s' := by
  obtain ⟨-, _, -, e⟩ := h
  exact e.wf

/-- Calls one after the other. -/
theorem Maps.trans (h : Maps g s s₁ ws) (h' : Maps g s₁ s₂ vs) : Maps g s s₂ (ws ++ vs) := by
  obtain ⟨le, all, perm, e⟩ := h
  obtain ⟨le', all', perm', e'⟩ := h'
  refine ⟨le.trans le', all ++ all', (perm.append perm').trans ?_, ?_⟩
  · rw [given_append le le', List.map_append, List.append_assoc, List.append_assoc]
    apply List.Perm.append_left
    rw [← List.append_assoc, ← List.append_assoc]
    exact List.perm_append_comm.append_right vs
  · rw [given_append le le']
    exact e.trans e'

/-- The mapping a call makes. -/
def Request.mapping (r : Request) : Mapping :=
  ⟨pagingIndexerAssign r.virt, r.phys, wide r.flags⟩

/-- A request has flags and nothing else. -/
theorem Request.mapping_flags (r : Request) : IsFlags r.mapping.flags := isFlags_wide r.flags

/-- Fresh frames stay fresh for what comes after. -/
theorem Maps.fresh {n : Nat} (h : Maps g s s₁ ws) (le : s₁.served ≤ n)
    (fresh : Fresh s (given g s.served n)) : Fresh s₁ (given g s₁.served n) := by
  obtain ⟨le', _, -, e⟩ := h
  rw [given_append le' le] at fresh
  exact fresh.right e

/-- The first call, and the others. -/
theorem mapAll_cons (r : Request) : mapAll g fuel s (r :: rs) =
    ((pagingMapPage g fuel s r.virt r.phys r.flags).map (·.2)).bind (mapAll g fuel · rs) := rfl

/-- Calls one after the other map their pages. -/
theorem mapAll_maps : ∀ {rs : List Request} {s s' : State}, mapAll g fuel s rs = some s' →
    s.served ≤ s'.served ∧ (WellFormed s → Fresh s (given g s.served s'.served) →
      Maps g s s' (rs.map Request.mapping)) := by
  intro rs
  induction rs with
  | nil =>
    intro s s' run
    cases run
    exact ⟨Nat.le_refl _, fun wf _ => Maps.refl wf⟩
  | cons r rs ih =>
    intro s s' run
    rw [mapAll_cons] at run
    obtain ⟨s₁, first, rest⟩ := Option.bind_eq_some_iff.mp run
    obtain ⟨answer, call, rfl⟩ := Option.map_eq_some_iff.mp first
    obtain ⟨le, spec⟩ := mapPage_runs call
    obtain ⟨le', spec'⟩ := ih rest
    refine ⟨le.trans le', fun wf fresh => ?_⟩
    have fresh₁ := fresh
    rw [given_append le le'] at fresh₁
    have m := (spec wf fresh₁.left).2.maps
    exact m.trans (spec' m.wf (m.fresh le' fresh))

/-- A tree that can take as many tables as it lacks, with the answers before `n`. -/
structure Ample (g : Nat → Addr) (fuel n : Nat) (s : State) : Prop where
  wf : WellFormed s
  supplied : Supplied g s
  deep : s.lacking < fuel
  total : s.served + s.lacking = n

/-- It stays one when a page is mapped, which always ends. -/
theorem Ample.mapPage {n : Nat} (h : Ample g fuel n s) (virt phys : Addr) (flags : BitVec 16) :
    ∃ s', pagingMapPage g fuel s virt phys flags = some (virt, s') ∧ Ample g fuel n s' := by
  obtain ⟨s', run, bound⟩ := mapPage_some virt phys flags h.wf h.supplied h.deep
  obtain ⟨le, spec⟩ := mapPage_runs run
  obtain ⟨-, r⟩ := spec h.wf (h.supplied.fresh le bound)
  have total := r.lacking
  have deep := h.deep
  exact ⟨s', run, r.wf, r.supplied h.supplied, by omega, total.trans h.total⟩

/-- All calls of a list end. -/
theorem Ample.mapAll {n : Nat} (h : Ample g fuel n s) (rs : List Request) :
    ∃ s', mapAll g fuel s rs = some s' ∧ Ample g fuel n s' := by
  induction rs generalizing s with
  | nil => exact ⟨s, rfl, h⟩
  | cons r rs ih =>
    obtain ⟨s₁, run, ample⟩ := h.mapPage r.virt r.phys r.flags
    obtain ⟨s', rest, last⟩ := ih ample
    refine ⟨s', ?_, last⟩
    rw [mapAll_cons, run]
    exact rest

/-- And so does a loop over pages. -/
theorem Ample.mapPages {n : Nat} (h : Ample g fuel n s) {a b : Addr} (ends : Ends a b)
    (request : Addr → Request) :
    ∃ s', mapPages g fuel s a b request = some s' ∧ Ample g fuel n s' := by
  rw [Paging.mapPages, if_pos ends]
  exact h.mapAll _

/-- There are 512 entries in a table. -/
theorem card_index : Nat.card (BitVec 9) = 512 :=
  (Nat.card_congr ⟨BitVec.toFin, BitVec.ofFin, fun _ => rfl, fun _ => rfl⟩).trans (Nat.card_fin _)

/-- No tree lacks more tables than there are paths. -/
theorem lacking_lt (s : State) : s.lacking < 2 ^ 28 := by
  have inj : Set.InjOn (fun π : List (BitVec 9) => (π[0]?, π[1]?, π[2]?))
      (Radix.vacant child 3 s.mem s.pml4) := by
    rintro π ⟨hπ, -⟩ ρ ⟨hρ, -⟩ same
    obtain ⟨first, second, third⟩ : π[0]? = ρ[0]? ∧ π[1]? = ρ[1]? ∧ π[2]? = ρ[2]? := by
      simpa using same
    apply List.ext_getElem?
    intro i
    match i with
    | 0 => exact first
    | 1 => exact second
    | 2 => exact third
    | i + 3 =>
      rw [List.getElem?_eq_none (by omega), List.getElem?_eq_none (by omega)]
  have bound := Set.ncard_le_ncard_of_injOn _ (fun π _ => Set.mem_univ _) inj Set.finite_univ
  rw [Set.ncard_univ, Nat.card_prod, Nat.card_prod, Finite.card_option, card_index] at bound
  exact Nat.lt_of_le_of_lt bound (by decide)

end

end Skylight.Paging
