import Skylight.Lib.Growth
import Skylight.Laws.Paging.Contracts
import Skylight.Laws.Proc.AddressSpace

/-!
# How many tables a mapping takes

`paging_map_page` takes a frame for each table on the way to its page that is not there, and for
each on the way to the own page of a frame it takes. So which places of the tree have a table is
known from the pages mapped and the frames taken, and a supply of as many frames as there are
places on the way to them is enough.
-/

namespace Skylight.Paging

open Radix

/-- The places of tables on the way to pages. -/
def ways (pages : List Addr) : Set (List (BitVec 9)) :=
  {π | ∃ v ∈ pages, π <+: (pagingIndexerAssign v).path}

/-- The places of the tables on the way to pages, but the root's. -/
def tablesOf (pages : List Addr) : List (List (BitVec 9)) :=
  (pages.flatMap fun v => (pagingIndexerAssign v).path.inits.tail).dedup

namespace State

/-- The places of the tree that have no table. -/
abbrev vacant (s : State) : Set (List (BitVec 9)) := Radix.vacant child 3 s.mem s.pml4

/-- The number of tables missing at some places. -/
noncomputable abbrev missing (s : State) (W : Set (List (BitVec 9))) : Nat :=
  Radix.missing child 3 s.mem s.pml4 W

/-- Tables were put at the places `P` that had none. -/
abbrev Grown (s s' : State) (P : Set (List (BitVec 9))) : Prop :=
  Radix.Grown child 3 s.mem s.pml4 s'.mem s'.pml4 P

end State

section
variable {g : Nat → Addr} {s s₁ s' : State} {π : List (BitVec 9)} {i : BitVec 9}
  {t t' virt phys a : Addr} {f : Desc} {flags : BitVec 16} {n fuel : Nat}
  {identity : State → Addr → Option State} {W P : Set (List (BitVec 9))} {x : PagingIndexer}
  {ws : List Mapping} {vs us : List Addr}

/-- The ways to two lists of pages. -/
theorem ways_append : ways (vs ++ us) = ways vs ∪ ways us := by
  ext π
  simp only [ways, List.mem_append, or_and_right, exists_or, Set.mem_union, Set.mem_ofPred_eq]

/-- To one page, and to the others. -/
theorem ways_cons (v : Addr) (vs : List Addr) : ways (v :: vs) = ways [v] ∪ ways vs :=
  @ways_append [v] vs

/-- More pages, more ways. -/
theorem ways_mono (sub : vs ⊆ us) : ways vs ⊆ ways us := by
  rintro π ⟨v, mem, along⟩
  exact ⟨v, sub mem, along⟩

@[simp] theorem ways_nil : ways [] = ∅ := by
  ext π
  simp [ways]

/-- The root is always there. -/
theorem nil_not_vacant : [] ∉ s.vacant := fun mem => by cases mem.2

/-- A place with a table is not vacant. -/
theorem not_vacant (led : s.follow π = some t) : π ∉ s.vacant := fun mem => by
  have none : s.follow π = none := mem.2
  rw [none] at led
  cases led

/-- Without frames taken no place gets a table. -/
theorem Extends.grown_nil (e : Extends s s' [] ws) : s.Grown s' ∅ := by
  apply Grown.of_follow
  intro π len
  show s'.follow π = s.follow π
  cases after : s'.follow π with
  | some t =>
    rcases e.news π t len after with before | ⟨-, mem⟩
    · exact before.symm
    · cases mem
  | none =>
    cases before : s.follow π with
    | none => rfl
    | some t =>
      rw [e.keeps π t len before] at after
      cases after

/-- What the call for a new table's own page adds. -/
def Spreads (g : Nat → Addr) (identity : State → Addr → Option State) : Prop :=
  ∀ s n s', identity s n = some s' → WellFormed s → Fresh s (given g s.served s'.served) →
    s.Grown s' (ways (n :: given g s.served s'.served))

/-- One level adds its own place, and those for the frames it takes. -/
theorem enterTable_grown (own : Identifies g identity) (spreads : Spreads g identity)
    (wf : WellFormed s) (hf : IsFlags f) (hπ : π.length ≤ 2) (ht : s.follow π = some t)
    (run : enterTable g identity f s t i = some (t', s'))
    (fresh : Fresh s (given g s.served s'.served)) :
    s.Grown s' ({π ++ [i]} ∪ ways (given g s.served s'.served)) := by
  cases present : pagingDescGetFlag (s.mem t i) flagPresent with
  | true =>
    obtain ⟨-, led, -⟩ := enterTable_runs own wf hf hπ ht run fresh
    rw [enterTable_present present] at run
    cases run
    have same := (wf.widen hπ ht present hf).grown_nil
    refine same.congr fun ρ mem => ?_
    rw [State.setEntry_served, given_self, ways_nil, Set.union_empty, Set.mem_singleton_iff]
    refine iff_of_false id fun here => ?_
    have before : s.follow (π ++ [i]) = some (pagingDescGetAddress (s.mem t i)) := by
      rw [State.follow, follow_snoc, show Radix.follow child s.mem s.pml4 π = some t from ht,
        Option.bind_some, child_of_present present]
    exact not_vacant before (here ▸ mem)
  | false =>
    rw [enterTable_absent present] at run
    obtain ⟨u, answer, eq⟩ := Option.map_eq_some_iff.mp run
    cases eq
    obtain ⟨later, -⟩ := own _ _ _ answer
    have split : given g s.served s'.served
        = [g s.served] ++ given g (s.served + 1) s'.served := given_succ later
    rw [split] at fresh ⊢
    obtain ⟨e, led⟩ := installed_extends wf hπ ht present hf fresh.left
    have absent : π ++ [i] ∈ s.vacant := by
      refine ⟨by simp; omega, ?_⟩
      rw [follow_snoc, show Radix.follow child s.mem s.pml4 π = some t from ht,
        Option.bind_some, child_of_absent present]
    exact (Grown.one e.keeps absent (not_vacant led) e.fewer).trans
      (spreads _ _ _ answer e.wf (fresh.right e))

/-- Addresses of one page have its indices. -/
theorem assign_eq (same : virt.toNat / 0x1000 = phys.toNat / 0x1000) :
    pagingIndexerAssign virt = pagingIndexerAssign phys := by
  have shifted : virt >>> 12 = phys >>> 12 := by
    apply BitVec.eq_of_toNat_eq
    rw [BitVec.toNat_ushiftRight, BitVec.toNat_ushiftRight, Nat.shiftRight_eq_div_pow,
      Nat.shiftRight_eq_div_pow]
    exact same
  rw [pagingIndexerAssign, pagingIndexerAssign, shifted]

/-- The places on the way to one page. -/
theorem prefix_path_iff : π <+: x.path ↔
    π = [] ∨ π = [x.pml4] ∨ π = [x.pml4, x.pml3] ∨ π = [x.pml4, x.pml3, x.pml2] := by
  rw [← List.mem_inits]
  simp [PagingIndexer.path]

/-- A call adds the places on the way to its page, and those for the frames it takes. -/
theorem mapPage_grown : ∀ {fuel : Nat} {s : State} {virt phys : Addr} {flags : BitVec 16}
    {a : Addr} {s' : State},
    pagingMapPage g fuel s virt phys flags = some (a, s') → WellFormed s →
      Fresh s (given g s.served s'.served) →
        s.Grown s' (ways (virt :: given g s.served s'.served)) := by
  intro fuel
  induction fuel with
  | zero => intro s virt phys flags a s' run; cases run
  | succ fuel ih =>
    intro s virt phys flags a s' run wf fresh
    have own := identityCall_identifies g fuel
    have spreads : Spreads g (identityCall g fuel) := by
      intro s n s' answer wf fresh
      obtain ⟨r, run, rfl⟩ := Option.map_eq_some_iff.mp answer
      exact ih run wf fresh
    have hf := isFlags_wide flags
    obtain ⟨pdp, s₁, pd, s₂, pt, s₃, h₁, h₂, h₃, -, rfl⟩ := mapPage_cases run
    have le₁ := enterTable_served own h₁
    have le₂ := enterTable_served own h₂
    have le₃ := enterTable_served own h₃
    rw [State.setEntry_served] at fresh ⊢
    obtain ⟨r, led, covered⟩ := (levels_runs own hf h₁ h₂ h₃).2 wf fresh
    have leaf := (r.wf.map (p := phys) led covered).grown_nil
    -- the frames of each level are fresh when it is entered
    have split : given g s.served s₃.served = given g s.served s₁.served ++
        (given g s₁.served s₂.served ++ given g s₂.served s₃.served) := by
      rw [given_append le₁ (le₂.trans le₃), given_append le₂ le₃]
    rw [split] at fresh ⊢
    have g₁ := enterTable_grown (π := []) own spreads wf hf (by simp) rfl h₁ fresh.left
    obtain ⟨r₁, t₁, -⟩ := enterTable_runs (π := []) own wf hf (by simp) rfl h₁ fresh.left
    obtain ⟨-, _, -, e₁⟩ := id r₁
    have fresh₁ := fresh.right e₁
    have g₂ := enterTable_grown (π := [_]) own spreads r₁.wf hf (by simp) t₁ h₂ fresh₁.left
    obtain ⟨r₂, t₂, -⟩ := enterTable_runs (π := [_]) own r₁.wf hf (by simp) t₁ h₂ fresh₁.left
    obtain ⟨-, _, -, e₂⟩ := id r₂
    have g₃ := enterTable_grown (π := [_, _]) own spreads r₂.wf hf (by simp) t₂ h₃ (fresh₁.right e₂)
    refine (((g₁.trans g₂).trans g₃).trans leaf).congr fun ρ mem => ?_
    have root : ρ ≠ [] := fun here => nil_not_vacant (here ▸ mem)
    have page : ρ ∈ ways [virt] ↔ ρ <+: (pagingIndexerAssign virt).path := by
      simp [ways]
    rw [ways_cons, ways_append, ways_append]
    simp only [Set.mem_union, Set.mem_singleton_iff, Set.mem_empty_iff_false, or_false, page,
      prefix_path_iff, root, false_or, List.nil_append, List.cons_append]
    tauto

/-! ### Frames enough -/

/-- A tree with frames for the tables missing at the places `W`, none of which lies anywhere else
than on the way to a page in `W`. -/
structure Stocked (g : Nat → Addr) (W : Set (List (BitVec 9))) (fuel n : Nat) (s : State) :
    Prop where
  wf : WellFormed s
  fresh : Fresh s (given g s.served n)
  own : ways (given g s.served n) ⊆ W
  total : s.served + s.missing W ≤ n
  deep : s.missing W < fuel

/-- It stays one when frames become tables at these places. -/
theorem Stocked.runs (h : Stocked g W fuel n s) (r : Runs g s s' ws) (grown : s.Grown s' P)
    (inside : P ⊆ W) : s'.served ≤ n ∧ Stocked g W fuel n s' := by
  have count : s'.missing W + s.lacking = s.missing W + s'.lacking := grown.missing_add inside
  have whole := r.lacking
  have total := h.total
  have deep := h.deep
  obtain ⟨le, _, -, e⟩ := r
  have le' : s'.served ≤ n := by omega
  have fresh := h.fresh
  have own := h.own
  rw [given_append le le'] at fresh own
  rw [ways_append, Set.union_subset_iff] at own
  exact ⟨le', e.wf, fresh.right e, own.2, by omega, by omega⟩

/-- A call for a new table's own page ends when there are frames. -/
def Affords (g : Nat → Addr) (W : Set (List (BitVec 9))) (fuel n : Nat)
    (identity : State → Addr → Option State) : Prop :=
  ∀ s p, Stocked g W fuel n s → ways [p] ⊆ W → ∃ s', identity s p = some s' ∧ s'.served ≤ n

/-- One level down ends, and the frames left are enough for the calls to come. -/
theorem Stocked.enterTable (h : Stocked g W (fuel + 1) n s) (own : Identifies g identity)
    (spreads : Spreads g identity) (affords : Affords g W fuel n identity) (hf : IsFlags f)
    (hπ : π.length ≤ 2) (ht : s.follow π = some t) (along : π ++ [i] ∈ W) :
    ∃ t' s', enterTable g identity f s t i = some (t', s') ∧ s'.follow (π ++ [i]) = some t' ∧
      Stocked g W (fuel + 1) n s' := by
  have ends : ∃ t' s', Paging.enterTable g identity f s t i = some (t', s') ∧ s'.served ≤ n := by
    have total := h.total
    cases present : pagingDescGetFlag (s.mem t i) flagPresent with
    | true => exact ⟨_, _, enterTable_present present, (Nat.le_add_right ..).trans total⟩
    | false =>
      have absent : π ++ [i] ∈ s.vacant := by
        refine ⟨by simp; omega, ?_⟩
        rw [follow_snoc, show Radix.follow child s.mem s.pml4 π = some t from ht,
          Option.bind_some, child_of_absent present]
      have some_missing : 0 < s.missing W := missing_pos absent along
      have split : given g s.served n = [g s.served] ++ given g (s.served + 1) n :=
        given_succ (by omega)
      have fresh := h.fresh
      have ways_own := h.own
      rw [split] at fresh ways_own
      rw [ways_append, Set.union_subset_iff] at ways_own
      obtain ⟨e, led⟩ := installed_extends h.wf hπ ht present hf fresh.left
      have one := Grown.one e.keeps absent (not_vacant led) e.fewer
      have count : (installed g s t i f).missing W + s.lacking =
          s.missing W + (installed g s t i f).lacking :=
        one.missing_add (Set.singleton_subset_iff.mpr along)
      have fewer := e.fewer
      have deep := h.deep
      rw [List.length_singleton] at fewer
      have stocked : Stocked g W fuel n (installed g s t i f) :=
        ⟨e.wf, fresh.right e, ways_own.2, by show s.served + 1 + _ ≤ n; omega, by omega⟩
      obtain ⟨s', answer, le⟩ := affords _ _ stocked ways_own.1
      exact ⟨_, s', by rw [enterTable_absent present, answer]; rfl, le⟩
  obtain ⟨t', s', run, le⟩ := ends
  have later := enterTable_served own run
  have fresh := h.fresh
  have ways_own := h.own
  rw [given_append later le] at fresh ways_own
  rw [ways_append, Set.union_subset_iff] at ways_own
  obtain ⟨r, led, -⟩ := enterTable_runs own h.wf hf hπ ht run fresh.left
  have grown := enterTable_grown own spreads h.wf hf hπ ht run fresh.left
  exact ⟨t', s', run, led, (h.runs r grown (Set.union_subset
    (Set.singleton_subset_iff.mpr along) ways_own.1)).2⟩

/-- A call ends, and leaves frames for the calls to come. -/
theorem mapPage_stocked : ∀ {fuel : Nat} {s : State} {virt : Addr} (phys : Addr)
    (flags : BitVec 16), Stocked g W fuel n s → ways [virt] ⊆ W →
      ∃ s', pagingMapPage g fuel s virt phys flags = some (virt, s') ∧ s'.served ≤ n ∧
        Stocked g W fuel n s' := by
  intro fuel
  -- The calls for new tables go one level deeper, which the places still missing pay for.
  induction fuel with
  | zero => exact fun {s virt} phys flags h _ => absurd h.deep (Nat.not_lt_zero _)
  | succ fuel ih =>
    intro s virt phys flags h along
    have own := identityCall_identifies g fuel
    have spreads : Spreads g (identityCall g fuel) := by
      intro s n s' answer wf fresh
      obtain ⟨r, run, rfl⟩ := Option.map_eq_some_iff.mp answer
      exact mapPage_grown run wf fresh
    have affords : Affords g W fuel n (identityCall g fuel) := by
      intro s p h along
      obtain ⟨s', run, le, -⟩ := ih p flagsKernelPage h along
      exact ⟨s', by rw [identityCall, run]; rfl, le⟩
    have hf := isFlags_wide flags
    have place (ρ : List (BitVec 9)) (before : ρ <+: (pagingIndexerAssign virt).path) : ρ ∈ W :=
      along ⟨virt, List.mem_singleton_self virt, before⟩
    set x := pagingIndexerAssign virt with def_x
    obtain ⟨pdp, s₁, h₁, t₁, st₁⟩ := h.enterTable (π := []) (i := x.pml4) own spreads affords hf
      (by simp) rfl (place _ (by rw [prefix_path_iff]; simp))
    obtain ⟨pd, s₂, h₂, t₂, st₂⟩ := st₁.enterTable (π := [x.pml4]) (i := x.pml3) own spreads affords
      hf (by simp) t₁ (place _ (by rw [prefix_path_iff]; simp))
    obtain ⟨pt, s₃, h₃, t₃, st₃⟩ := st₂.enterTable (π := [x.pml4, x.pml3]) (i := x.pml2) own spreads
      affords hf (by simp) t₂ (place _ (by rw [prefix_path_iff]; simp))
    set s' := s₃.setEntry pt x.pml1 (leafEntry (s₃.mem pt x.pml1) phys (wide flags)) with def_s'
    have run : pagingMapPage g (fuel + 1) s virt phys flags = some (virt, s') := by
      rw [pagingMapPage]
      exact Option.bind_eq_some_iff.mpr ⟨_, h₁, Option.bind_eq_some_iff.mpr ⟨_, h₂,
        Option.bind_eq_some_iff.mpr ⟨_, h₃, rfl⟩⟩⟩
    have le : s'.served ≤ n := (Nat.le_add_right ..).trans st₃.total
    obtain ⟨later, spec⟩ := mapPage_runs run
    have fresh := h.fresh
    have ways_own := h.own
    rw [given_append later le] at fresh ways_own
    rw [ways_append, Set.union_subset_iff] at ways_own
    have inside : ways (virt :: given g s.served s'.served) ⊆ W := by
      rw [ways_cons]
      exact Set.union_subset along ways_own.1
    exact ⟨s', run, h.runs (spec h.wf fresh.left).2 (mapPage_grown run h.wf fresh.left) inside⟩

/-- A list of calls ends. -/
theorem Stocked.mapAll (h : Stocked g W fuel n s) {rs : List Request}
    (along : ways (rs.map Request.virt) ⊆ W) :
    ∃ s', Paging.mapAll g fuel s rs = some s' ∧ Stocked g W fuel n s' := by
  induction rs generalizing s with
  | nil => exact ⟨s, rfl, h⟩
  | cons r rs ih =>
    rw [List.map_cons, ways_cons, Set.union_subset_iff] at along
    obtain ⟨s₁, run, -, stocked⟩ := mapPage_stocked r.phys r.flags h along.1
    obtain ⟨s', rest, last⟩ := ih stocked along.2
    refine ⟨s', ?_, last⟩
    rw [mapAll_cons, run]
    exact rest

/-- And so does a loop over pages. -/
theorem Stocked.mapPages (h : Stocked g W fuel n s) {a b : Addr} (ends : Ends a b)
    (request : Addr → Request)
    (along : ways (((pagesBetween a b).map request).map Request.virt) ⊆ W) :
    ∃ s', Paging.mapPages g fuel s a b request = some s' ∧ Stocked g W fuel n s' := by
  rw [Paging.mapPages, if_pos ends]
  exact h.mapAll along

/-! ### Calls one after the other -/

/-- A list of calls adds the places on the way to its pages and to the frames it takes. -/
theorem mapAll_grown : ∀ {rs : List Request} {s s' : State}, mapAll g fuel s rs = some s' →
    WellFormed s → Fresh s (given g s.served s'.served) →
      s.Grown s' (ways (rs.map Request.virt ++ given g s.served s'.served)) := by
  intro rs
  induction rs with
  | nil =>
    intro s s' run wf fresh
    cases run
    rw [given_self, List.map_nil, List.append_nil, ways_nil]
    exact Grown.of_follow fun _ _ => rfl
  | cons r rs ih =>
    intro s s' run wf fresh
    rw [mapAll_cons] at run
    obtain ⟨s₁, first, rest⟩ := Option.bind_eq_some_iff.mp run
    obtain ⟨⟨a, s₁⟩, call, rfl⟩ := Option.map_eq_some_iff.mp first
    obtain ⟨le, spec⟩ := mapPage_runs call
    have le' := (mapAll_maps rest).1
    have split : given g s.served s'.served =
        given g s.served s₁.served ++ given g s₁.served s'.served := given_append le le'
    rw [split] at fresh ⊢
    have r₁ := (spec wf fresh.left).2
    obtain ⟨-, _, -, e⟩ := id r₁
    have grown := (mapPage_grown call wf fresh.left).trans (ih rest r₁.wf (fresh.right e))
    refine grown.congr fun π _ => ?_
    rw [List.map_cons, List.cons_append, ways_cons _ (given ..), ways_cons _ (_ ++ _)]
    simp only [ways_append, Set.mem_union]
    tauto

/-- Nothing is missing any more where a tree has grown. -/
theorem missing_grown (grown : s.Grown s' P) : s'.missing P = 0 := by
  rw [State.missing, Radix.missing, grown, Set.sdiff_inter_self, Set.ncard_empty]

/-- As many frames are taken as there were places without a table on the way to the pages mapped
and to the frames taken. -/
theorem served_of_grown (m : Maps g s s' ws) (grown : s.Grown s' P) :
    s'.served = s.served + s.missing P := by
  have count : s'.missing P + s.lacking = s.missing P + s'.lacking :=
    grown.missing_add Set.Subset.rfl
  rw [missing_grown grown] at count
  obtain ⟨le, _, -, e⟩ := m
  have fewer := e.fewer
  rw [length_given] at fewer
  omega

end

/-- When there are as many fresh frames as places without a table on the way to the pages and to the
frames, every call ends. A place has a table then if it had one, or is on the way to a page mapped
or to a frame taken, and no frame more than these places need is taken. -/
theorem tables_counted (g : Nat → Addr) (fuel n : Nat) (s : State) (rs : List Request)
    (wf : WellFormed s) (fresh : Fresh s (given g s.served n)) :
    let W := ways (rs.map Request.virt ++ given g s.served n)
    s.served + s.missing W ≤ n → s.missing W < fuel →
      ∃ s', mapAll g fuel s rs = some s' ∧ s'.served ≤ n ∧
        let taken := ways (rs.map Request.virt ++ given g s.served s'.served)
        (∀ π, π.length ≤ 3 → ((s'.follow π).isSome ↔ (s.follow π).isSome ∨ π ∈ taken)) ∧
          s'.served = s.served + s.missing taken := by
  intro W total deep
  have stocked : Stocked g W fuel n s :=
    ⟨wf, fresh, ways_mono (List.subset_append_right _ _), total, deep⟩
  obtain ⟨s', run, after⟩ := stocked.mapAll (ways_mono (List.subset_append_left _ _))
  have le : s'.served ≤ n := (Nat.le_add_right ..).trans after.total
  obtain ⟨le', maps⟩ := mapAll_maps run
  rw [given_append le' le] at fresh
  have grown := mapAll_grown run wf fresh.left
  refine ⟨s', run, le, fun π len => ?_, served_of_grown (maps wf fresh.left) grown⟩
  have at_ := Set.ext_iff.mp grown π
  simp only [Radix.vacant, Set.mem_sdiff, Set.mem_ofPred_eq, len, true_and] at at_
  rw [← not_iff_not, not_or, Option.not_isSome_iff_eq_none, Option.not_isSome_iff_eq_none]
  exact at_

/-- A list that has the ways to some pages but the root's is as long as what may be missing. -/
theorem missing_ways_le {s : State} {pages : List Addr} {ρs : List (List (BitVec 9))}
    (all : ∀ v ∈ pages, ∀ π ∈ (pagingIndexerAssign v).path.inits, π ≠ [] → π ∈ ρs) :
    s.missing (ways pages) ≤ ρs.length := by
  apply missing_le
  rintro π absent ⟨v, mem, along⟩
  exact all v mem π ((List.mem_inits _ _).mpr along) fun root => nil_not_vacant (root ▸ absent)

/-- Nothing but the places listed is on the way to the pages. -/
theorem missing_le_tablesOf {s : State} {pages : List Addr} :
    s.missing (ways pages) ≤ (tablesOf pages).length := by
  apply missing_ways_le
  intro v mem π along root
  refine List.mem_dedup.mpr (List.mem_flatMap.mpr ⟨v, mem, ?_⟩)
  rw [List.mem_inits] at along
  simp only [PagingIndexer.path] at along ⊢
  rw [← List.mem_inits] at along
  simpa [root] using along

/-- Answers up to one call are among those up to a later one. -/
theorem given_sublist {g : Nat → Addr} {k m l : Nat} (le : k ≤ l) :
    (given g m k).Sublist (given g m l) :=
  (List.range'_sublist_right.mpr (Nat.sub_le_sub_right le m)).map g

/-- A new root has the frames that are missing for some pages, if there are as many and one for
itself, each of which is at one of the pages. -/
theorem newRoot_stocked {g : Nat → Addr} {fuel : Nat} {s : State} {pages frames : List Addr}
    (split : given g s.served (s.served + frames.length) = frames) (nodup : frames.Nodup)
    (fresh : ∀ t ∈ frames, t ≠ 0 ∧ IsFrame t) (own : ways frames ⊆ ways pages)
    (enough : (tablesOf pages).length < frames.length) (deep : frames.length ≤ fuel) :
    Stocked g (ways pages) fuel (s.served + frames.length) (newRoot g s) := by
  have few := (@missing_le_tablesOf (newRoot g s) pages).trans_lt enough
  have first : frames = g s.served :: given g (s.served + 1) (s.served + frames.length) := by
    rw [← given_succ (by omega), split]
  rw [first] at nodup fresh
  rw [List.forall_mem_cons] at fresh
  refine ⟨newRoot_empty.wf, newRoot_empty.fresh nodup.of_cons fresh.2 (List.nodup_cons.mp nodup).1,
    Set.Subset.trans (ways_mono ?_) own, ?_, few.trans_le deep⟩
  · show given g (s.served + 1) (s.served + frames.length) ⊆ frames
    intro t mem
    rw [first]
    exact List.mem_cons_of_mem _ mem
  · show s.served + 1 + _ ≤ s.served + _
    rw [Nat.add_assoc, Nat.add_comm 1]
    exact Nat.add_le_add_left few _

/-- Two pages that are neighbours. -/
def neighbours : List Request := [⟨0x8000, 0x9000, 7⟩, ⟨0x9000, 0xa000, 7⟩]

/-- No more than three tables are on the way to them. -/
theorem neighbours_missing (s : State) :
    s.missing (ways (neighbours.map Request.virt ++ [0x2000, 0x3000, 0x4000])) ≤ 3 := by
  have paths : ∀ v ∈ neighbours.map Request.virt ++ [0x2000, 0x3000, 0x4000],
      (pagingIndexerAssign v).path = [0, 0, 0] := by
    simp only [neighbours, List.map_cons, List.map_nil, List.cons_append, List.nil_append,
      List.forall_mem_cons]
    exact ⟨rfl, rfl, rfl, rfl, rfl, fun _ mem => by cases mem⟩
  refine @missing_ways_le s _ [[0], [0, 0], [0, 0, 0]] ?_
  intro v mem π along root
  rw [paths v mem] at along
  exact List.mem_of_ne_of_mem root along

/-- Both are mapped under an empty root, with just the frames they take. -/
theorem tables_counted_neighbours : ∃ s', mapAll machineFrames 8 machineRoot neighbours = some s' ∧
    s'.served ≤ 3 := by
  have few := neighbours_missing machineRoot
  rw [← machine_given] at few
  have fresh := machine_fresh
  rw [← machine_given] at fresh
  have total : machineRoot.served + machineRoot.missing (ways (neighbours.map Request.virt ++
      given machineFrames machineRoot.served 3)) ≤ 3 := by
    exact (Nat.zero_add _).trans_le few
  obtain ⟨s', run, le, -⟩ := tables_counted machineFrames 8 3 machineRoot neighbours
    machineRoot_empty.wf fresh total (Nat.lt_of_le_of_lt few (by decide))
  exact ⟨s', run, le⟩

end Skylight.Paging
