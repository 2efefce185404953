import Skylight.Laws.Paging.Spaces
import Skylight.Laws.Proc.AddressSpace

/-!
# A page mapped again

`paging_map_page` ends however the tables it takes are strewn, and a page that was mapped before
is mapped to the two frames' bits together.

`mapPage_terminates` bounds the recursion, which the source does not: a call for a new table's
own page may need tables itself, and each one is missing once only, so the depth is at most the
number of tables that the tree lacks. `mapPage_replaces_iff` says when a second mapping of a
page replaces the first: just when the old frame has no bit that the new one has not. That is so
for every tree and all fresh frames, and rarely.
-/

namespace Skylight.Paging

section
variable {g : Nat → Addr} {s s' : State} {π : List (BitVec 9)} {i : BitVec 9} {t : Addr}
  {virt phys answer a : Addr} {f : Desc} {flags : BitVec 16} {fuel fuel' : Nat}
  {r : Addr × State} {ws : List Mapping} {L : PagingIndexer → Desc} {x : PagingIndexer}
  {identity identity' : State → Addr → Option State}

/-! ### Depth -/

/-- A level answers the same with more room. -/
theorem enterTable_mono (le : ∀ s n s', identity s n = some s' → identity' s n = some s')
    (run : enterTable g identity f s t i = some r) : enterTable g identity' f s t i = some r := by
  cases present : pagingDescGetFlag (s.mem t i) flagPresent with
  | true =>
    rw [enterTable_present present] at run ⊢
    exact run
  | false =>
    rw [enterTable_absent present] at run ⊢
    obtain ⟨u, called, eq⟩ := Option.map_eq_some_iff.mp run
    exact Option.map_eq_some_iff.mpr ⟨u, le _ _ _ called, eq⟩

/-- Room for deeper calls changes no answer. -/
theorem mapPage_mono : ∀ {fuel fuel' : Nat} {s : State} {virt phys : Addr} {flags : BitVec 16}
    {r : Addr × State}, pagingMapPage g fuel s virt phys flags = some r → fuel ≤ fuel' →
      pagingMapPage g fuel' s virt phys flags = some r := by
  intro fuel
  induction fuel with
  | zero =>
    intro fuel' s virt phys flags r run _
    cases run
  | succ fuel ih =>
    intro fuel' s virt phys flags r run le
    obtain ⟨fuel', rfl⟩ := Nat.exists_eq_add_of_le' (Nat.le_trans (Nat.succ_pos fuel) le)
    have deeper (s : State) (n : Addr) (s' : State) (called : identityCall g fuel s n = some s') :
        identityCall g fuel' s n = some s' := by
      obtain ⟨r, run, eq⟩ := Option.map_eq_some_iff.mp called
      exact Option.map_eq_some_iff.mpr ⟨r, ih run (Nat.le_of_succ_le_succ le), eq⟩
    obtain ⟨pdp, s₁, pd, s₂, pt, s₃, h₁, h₂, h₃, answer, eq⟩ := mapPage_cases run
    rw [pagingMapPage]
    apply Option.bind_eq_some_iff.mpr
    refine ⟨_, enterTable_mono deeper h₁, Option.bind_eq_some_iff.mpr ⟨_, enterTable_mono deeper h₂,
      Option.bind_eq_some_iff.mpr ⟨_, enterTable_mono deeper h₃, ?_⟩⟩⟩
    exact congrArg some (Prod.ext answer.symm eq.symm)

/-- The recursion ends, as deep as there are tables missing and one level more, and takes no
more frames than that. It does not matter where in the tree the frames it is given lie. -/
theorem mapPage_terminates (wf : WellFormed s) (supplied : Supplied g s) (virt phys : Addr)
    (flags : BitVec 16) : ∃ s', (∀ fuel, s.lacking < fuel →
      pagingMapPage g fuel s virt phys flags = some (virt, s')) ∧ s.served ≤ s'.served ∧
      s'.served - s.served ≤ {π : List (BitVec 9) | π.length ≤ 3 ∧ s.follow π = none}.ncard := by
  obtain ⟨s', run, bound⟩ := mapPage_some virt phys flags wf supplied (Nat.lt_succ_self s.lacking)
  refine ⟨s', fun fuel deep => mapPage_mono run deep, (mapPage_runs run).1, ?_⟩
  show s'.served - s.served ≤ s.lacking
  omega

/-! ### Frames -/

/-- A page ends up at `a` when it was mapped to `a`, and to nothing with other bits. -/
theorem getAddress_foldl_iff {w : Mapping} (hf : ∀ w ∈ ws, IsFlags w.flags) (mem : w ∈ ws)
    (page : w.page = x) (own : pagingDescGetAddress w.phys = a) :
    pagingDescGetAddress (ws.foldl Mapping.apply L x) = a ↔
      Within (pagingDescGetAddress (L x)) a ∧
        ∀ v ∈ ws, v.page = x → Within (pagingDescGetAddress v.phys) a := by
  constructor
  · rintro rfl
    exact within_foldl hf
  · rintro ⟨start, all⟩
    exact getAddress_foldl hf start all (Or.inr ⟨w, mem, page, own⟩)

/-- A page that is mapped again is at its new frame just when its old frame has no other bits. -/
theorem mapPage_replaces_iff (wf : WellFormed s) (frame : IsFrame phys)
    (run : pagingMapPage g fuel s virt phys flags = some (answer, s'))
    (fresh : Fresh s (given g s.served s'.served))
    (apart : ∀ t ∈ given g s.served s'.served,
      pagingIndexerAssign t ≠ pagingIndexerAssign virt) :
    pagingWalkPage s' virt = phys ↔ pagingWalkPage s virt ||| phys = phys := by
  obtain ⟨-, spec⟩ := mapPage_runs run
  obtain ⟨-, -, ids, perm, e⟩ := spec wf fresh
  have own : (⟨pagingIndexerAssign virt, phys, wide flags⟩ : Mapping) ∈
      ids ++ [⟨pagingIndexerAssign virt, phys, wide flags⟩] :=
    List.mem_append_right _ (List.mem_singleton_self _)
  have hf : ∀ w ∈ ids ++ [⟨pagingIndexerAssign virt, phys, wide flags⟩], IsFlags w.flags := by
    intro w mem
    rcases List.mem_append.mp mem with mem | mem
    · exact ids_flags perm w mem
    · rw [List.mem_singleton.mp mem]
      exact isFlags_wide flags
  rw [walk_eq, walk_eq, e.leaf, getAddress_foldl_iff hf own rfl frame]
  generalize pagingDescGetAddress (s.leaf (pagingIndexerAssign virt)) = old
  constructor
  · rintro ⟨within, -⟩
    apply Within.antisymm
    · exact within.or (Within.refl phys)
    · exact within_or_right old phys
  · intro same
    refine ⟨same ▸ within_or_left old phys, fun w mem page => ?_⟩
    rcases List.mem_append.mp mem with mem | mem
    · obtain ⟨t, ht, rfl⟩ := (mem_ids perm).mp mem
      exact absurd page (apart t ht)
    · rw [List.mem_singleton.mp mem, show pagingDescGetAddress phys = phys from frame]
      exact Within.refl phys

end

/-! ### On the machine -/

/-- On an empty root. -/
theorem mapPage_terminates_machine :
    ∃ s', (∀ fuel, (newRoot spaceFrames machineRoot).lacking < fuel →
    pagingMapPage spaceFrames fuel (newRoot spaceFrames machineRoot) 0x8000 0x9000 7
      = some (0x8000, s')) := by
  obtain ⟨s', run, -⟩ :=
    mapPage_terminates newRoot_empty.wf
      (spaceFrames_lasting.ample (s := machineRoot) (by decide)).supplied 0x8000 0x9000 7
  exact ⟨s', run⟩

/-- A page mapped to `0x9000`, and then to another frame. -/
theorem machine_map_again {phys : Addr} {walk : Addr}
    (both : ((pagingMapPage machineFrames 5 machineRoot 0x8000 0x9000 7).bind fun r =>
      (pagingMapPage machineFrames 5 r.2 0x8000 phys 7).map fun r' =>
        (r.1, r.2.served, pagingWalkPage r.2 0x8000, r'.1, r'.2.served,
          pagingWalkPage r'.2 0x8000)) =
      some (0x8000, 3, 0x9000, 0x8000, 3, walk)) :
    ∃ s s', WellFormed s ∧ pagingWalkPage s 0x8000 = 0x9000 ∧
      pagingMapPage machineFrames 5 s 0x8000 phys 7 = some (0x8000, s') ∧
      given machineFrames s.served s'.served = [] ∧ pagingWalkPage s' 0x8000 = walk := by
  obtain ⟨⟨v, s⟩, first, rest⟩ := Option.bind_eq_some_iff.mp both
  obtain ⟨⟨v', s'⟩, second, eq⟩ := Option.map_eq_some_iff.mp rest
  simp only [Prod.mk.injEq] at eq
  obtain ⟨rfl, served, before, rfl, served', after⟩ := eq
  have step : Step machineFrames machineRoot s := by
    refine Step.map first ?_
    rw [served, machine_given]
    exact machine_fresh
  obtain ⟨wf, -⟩ := step.guarded ⟨machineRoot_empty.wf, machineRoot_empty.guarded⟩
  exact ⟨s, s', wf, before, second, by rw [served, served', given_self], after⟩

/-- No frames are always fresh. -/
theorem fresh_nil (s : State) : Fresh s [] := ⟨List.nodup_nil, by simp, by simp⟩

/-- From `0x9000` to `0xb000`, which has its bits: the page moves. -/
theorem mapPage_replaces_machine : ∃ s s', pagingWalkPage s 0x8000 = 0x9000 ∧
    pagingMapPage machineFrames 5 s 0x8000 0xb000 7 = some (0x8000, s') ∧
    pagingWalkPage s' 0x8000 = 0xb000 := by
  obtain ⟨s, s', wf, before, run, taken, -⟩ :=
    @machine_map_again 0xb000 0xb000 (by decide +kernel)
  refine ⟨s, s', before, run, (mapPage_replaces_iff wf (by decide) run ?_ ?_).mpr ?_⟩
  · rw [taken]
    exact fresh_nil s
  · rw [taken]
    simp
  · rw [before]
    decide

/-- From `0x9000` to `0x6000` the frames' bits come together. -/
theorem mapPage_not_always_replaces : ¬ ∀ (g : Nat → Addr) (s s' : State) (fuel : Nat)
    (virt phys answer : Addr) (flags : BitVec 16), WellFormed s → IsFrame phys →
    pagingMapPage g fuel s virt phys flags = some (answer, s') →
    Fresh s (given g s.served s'.served) →
    (∀ t ∈ given g s.served s'.served, pagingIndexerAssign t ≠ pagingIndexerAssign virt) →
    pagingWalkPage s' virt = phys := by
  intro all
  obtain ⟨s, s', wf, -, run, taken, walk⟩ := @machine_map_again 0x6000 0xf000 (by decide +kernel)
  have replaced := all _ _ _ _ _ _ _ _ wf (by decide) run (taken ▸ fresh_nil s)
      (by rw [taken]; simp)
  rw [walk] at replaced
  exact absurd replaced (by decide)

end Skylight.Paging
