import Skylight.Laws.Paging.Replace

/-!
# A page moved

`paging_remap_page` takes a page's frame and flags to another page. It asks for the tables of
the old page and not for the page, and what it writes to the new one is added to what was there.

`pagingRemapPage_moves` says that the call ends, and that it is a move just when the page is
`Movable`: the old page is there and nothing adds bits at the new one, or a table of the old
page is missing and nothing is done, or the old page is not there and what is written at 0 was
there already. The own pages of the tables the call takes may change on the way, and are left
out of what stays.
-/

namespace Skylight.Paging

/-- A page is translated as before. -/
def Unchanged (s s' : State) (w : Addr) : Prop :=
  pagingWalkPage s' w = pagingWalkPage s w ∧
    flagsOf (s'.leaf (pagingIndexerAssign w)) = flagsOf (s.leaf (pagingIndexerAssign w))

/-- A page has a descriptor that is present. -/
def Present (s : State) (w : Addr) : Prop :=
  pagingDescGetFlag (s.leaf (pagingIndexerAssign w)) flagPresent = true

/-- The old page's frame and flags are the new page's, and nothing else is changed but for the
own pages of the tables `taken`; or there was nothing to move, and nothing is changed. -/
structure Moves (s s' : State) (taken : List Addr) (old new answer : Addr) : Prop where
  none : ¬ Present s old → answer = 0 ∧ ∀ w, Unchanged s s' w
  answer : Present s old → answer = new
  frame : Present s old → pagingWalkPage s' new = pagingWalkPage s old
  flags : Present s old →
    flagsOf (s'.leaf (pagingIndexerAssign new)) = flagsOf (s.leaf (pagingIndexerAssign old))
  gone : Present s old → pagingIndexerAssign old ≠ pagingIndexerAssign new →
    pagingWalkPage s' old = 0
  others : Present s old → ∀ w, pagingIndexerAssign w ≠ pagingIndexerAssign old →
    pagingIndexerAssign w ≠ pagingIndexerAssign new →
      (∀ t ∈ taken, pagingIndexerAssign w ≠ pagingIndexerAssign t) → Unchanged s s' w

/-- Nothing at the new page adds bits to the frame, and no table is at the old one. -/
structure Vacant (s : State) (taken : List Addr) (old new : Addr) : Prop where
  former : pagingIndexerAssign old ≠ pagingIndexerAssign new →
    Within (pagingWalkPage s new) (pagingWalkPage s old)
  tables : ∀ t ∈ taken, pagingIndexerAssign t = pagingIndexerAssign new →
    Within t (pagingWalkPage s old)
  apart : pagingIndexerAssign old ≠ pagingIndexerAssign new →
    ∀ t ∈ taken, pagingIndexerAssign t ≠ pagingIndexerAssign old

/-- What is written for a page that is not there is there already. -/
structure Idle (s : State) (taken : List Addr) (old new : Addr) : Prop where
  blank : pagingIndexerAssign old ≠ pagingIndexerAssign new → pagingWalkPage s old = 0 ∧
    flagsOf (s.leaf (pagingIndexerAssign old)) = 0 ∧
    flagsOf (s.leaf (pagingIndexerAssign new)) = 0
  tables : ∀ t ∈ taken, Within t (pagingWalkPage s t)
  flags : ∀ t ∈ taken, pagingIndexerAssign t ≠ pagingIndexerAssign new →
    flagsOf (s.leaf (pagingIndexerAssign t)) = wide flagsKernelPage

/-- The old page is there, and nothing is in the way at the new one; or a table of the old page
is missing; or the new page is the null page, and what is written makes no difference. -/
def Movable (s : State) (taken : List Addr) (old new : Addr) : Prop :=
  (Present s old ∧ Vacant s taken old new) ∨ lastTable s (pagingIndexerAssign old) = none ∨
    (¬ Present s old ∧ new = 0 ∧ Idle s taken old new)

/-- The page `x` as it is put at `y`. -/
abbrev carried (L : PagingIndexer → Desc) (x y : PagingIndexer) : Mapping :=
  ⟨y, pagingDescGetAddress (L x), flagsOf (L x)⟩

/-- The descriptors when the page `x` is moved to `y`. -/
abbrev moved (L : PagingIndexer → Desc) (ids : List Mapping) (x y : PagingIndexer) :
    PagingIndexer → Desc :=
  Mapping.apply (ids.foldl Mapping.apply (Function.update L x 0)) (carried L x y)

variable {s s' : State}

section
variable {g : Nat → Addr} {old new answer p : Addr} {f e : Desc} {fuel : Nat}
  {ids : List Mapping} {ts : List Addr} {L : PagingIndexer → Desc} {x y z : PagingIndexer}

/-- The flags in numbers. -/
theorem flagsOf_toNat (e : Desc) : (flagsOf e).toNat = e.toNat % 2 ^ 12 := by
  show (e &&& 0x0fff).toNat = _
  rw [BitVec.toNat_and]
  exact Nat.and_two_pow_sub_one_eq_mod e.toNat 12

/-- The flags that are passed on. -/
theorem wide_flagsOf (e : Desc) : wide ((e &&& 0x0fff).setWidth 16) = flagsOf e := by
  rw [show wide ((e &&& 0x0fff).setWidth 16) =
    flagsOf (((e &&& 0x0fff).setWidth 16).setWidth 64) from BitVec.setWidth_and]
  apply BitVec.eq_of_toNat_eq
  have low := flagsOf_toNat e
  rw [flagsOf_toNat, BitVec.toNat_setWidth, BitVec.toNat_setWidth,
    show (e &&& 0x0fff).toNat = e.toNat % 2 ^ 12 from low, low]
  omega

/-- What remapping does where the old page has its tables. -/
theorem remap_cases (run : pagingRemapPage g fuel s old new = some (answer, s')) :
    (lastTable s (pagingIndexerAssign old) = none ∧ answer = 0 ∧ s' = s) ∨
      lastTable s (pagingIndexerAssign old) ≠ none ∧ answer = new ∧ ∃ a,
        pagingMapPage g fuel (pagingUnmapPage s old) new (pagingWalkPage s old)
          ((s.leaf (pagingIndexerAssign old) &&& 0x0fff).setWidth 16) = some (a, s') := by
  rw [pagingRemapPage] at run
  cases there : lastTable s (pagingIndexerAssign old) with
  | none =>
    simp only [there] at run
    cases run
    exact Or.inl ⟨rfl, rfl, rfl⟩
  | some t =>
    have leaf : s.leaf (pagingIndexerAssign old) = s.mem t (pagingIndexerAssign old).pml1 := by
      rw [lastTable_eq] at there
      rw [State.leaf, there, Option.elim_some]
    simp only [there] at run
    obtain ⟨⟨a, s₁⟩, called, eq⟩ := Option.map_eq_some_iff.mp run
    obtain ⟨rfl, rfl⟩ := Prod.mk.inj eq
    refine Or.inr ⟨Option.some_ne_none t, rfl, a, ?_⟩
    rw [walk_eq, leaf]
    exact called

/-- A move is two changes: the old page cleared, and then mappings. -/
theorem moved_eq (L : PagingIndexer → Desc) (ids : List Mapping) (x y : PagingIndexer) :
    moved L ids x y =
      (ids ++ [carried L x y]).foldl Mapping.apply (Function.update L x 0) := by
  rw [List.foldl_append, List.foldl_cons, List.foldl_nil]

/-- The pages after a page is moved. -/
theorem remap_leaf (wf : WellFormed s) (fresh : Fresh s (given g s.served s'.served))
    (run : pagingMapPage g fuel (pagingUnmapPage s old) new (pagingWalkPage s old)
      ((s.leaf (pagingIndexerAssign old) &&& 0x0fff).setWidth 16) = some (answer, s')) :
    ∃ ids : List Mapping, ids.Perm ((given g s.served s'.served).map ident) ∧
      s'.leaf = moved s.leaf ids (pagingIndexerAssign old) (pagingIndexerAssign new) := by
  obtain ⟨wf', leaf, follow, -⟩ := wf.unmap old
  have fresh' : Fresh (pagingUnmapPage s old)
      (given g (pagingUnmapPage s old).served s'.served) := by
    rw [unmap_served]
    refine ⟨fresh.nodup, fresh.frame, fun t ht π hπ => ?_⟩
    rw [follow π hπ]
    exact fresh.unused t ht π hπ
  obtain ⟨-, spec⟩ := mapPage_runs run
  obtain ⟨-, -, ids, perm, e⟩ := spec wf' fresh'
  rw [unmap_served] at perm
  refine ⟨ids, perm, ?_⟩
  rw [e.leaf, leaf, moved_eq, walk_eq, wide_flagsOf]

/-! ### The descriptors -/

/-- What is mapped has flags and nothing else. -/
theorem moved_flags (perm : ids.Perm (ts.map ident)) :
    ∀ w ∈ ids ++ [carried L x y], IsFlags w.flags := by
  intro w mem
  rcases List.mem_append.mp mem with mem | mem
  · exact ids_flags perm w mem
  · rw [List.mem_singleton.mp mem]
    exact isFlags_flagsOf (L x)

/-- The new page has the flags of the old. -/
theorem flagsOf_moved : flagsOf (moved L ids x y y) = flagsOf (L x) := by
  rw [moved, Mapping.apply, Function.update_self]
  exact flagsOf_leafEntry (isFlags_flagsOf (L x))

/-- Any other page changes only as a table's own. -/
theorem moved_of_ne (ne : z ≠ y) :
    moved L ids x y z = ids.foldl Mapping.apply (Function.update L x 0) z := by
  rw [moved, Mapping.apply, Function.update_of_ne ne]

/-- The own page of a table. -/
theorem getAddress_ident {t : Addr} (ht : IsFrame t) :
    pagingDescGetAddress (ident t).phys = t := ht

/-- The frame is the new page's alone just when nothing else is there. -/
theorem getAddress_moved_iff (perm : ids.Perm (ts.map ident)) (frames : ∀ t ∈ ts, IsFrame t) :
    pagingDescGetAddress (moved L ids x y y) = pagingDescGetAddress (L x) ↔
      (x ≠ y → Within (pagingDescGetAddress (L y)) (pagingDescGetAddress (L x))) ∧
        ∀ t ∈ ts, pagingIndexerAssign t = y → Within t (pagingDescGetAddress (L x)) := by
  have own := List.mem_append_right ids (List.mem_singleton_self (carried L x y))
  rw [moved_eq, getAddress_foldl_iff (moved_flags perm) own rfl (getAddress_frame (L x))]
  apply and_congr
  · by_cases same : x = y
    · subst same
      rw [Function.update_self, getAddress_zero]
      exact iff_of_true (zero_within _) fun ne => absurd rfl ne
    · rw [Function.update_of_ne (Ne.symm same)]
      exact ⟨fun within _ => within, fun within => within same⟩
  · constructor
    · intro all t ht here
      have mem : ident t ∈ ids := (mem_ids perm).mpr ⟨t, ht, rfl⟩
      have within := all _ (List.mem_append_left _ mem) here
      rwa [getAddress_ident (frames t ht)] at within
    · intro all w mem here
      rcases List.mem_append.mp mem with mem | mem
      · obtain ⟨t, ht, rfl⟩ := (mem_ids perm).mp mem
        rw [getAddress_ident (frames t ht)]
        exact all t ht here
      · rw [List.mem_singleton.mp mem, show pagingDescGetAddress (carried L x y).phys =
          pagingDescGetAddress (L x) from getAddress_frame (L x)]
        exact Within.refl _

/-- The old page is gone just when no table is at it. -/
theorem moved_gone_iff (perm : ids.Perm (ts.map ident)) (frames : ∀ t ∈ ts, t ≠ 0 ∧ IsFrame t)
    (ne : x ≠ y) : pagingDescGetAddress (moved L ids x y x) = 0 ↔
      ∀ t ∈ ts, pagingIndexerAssign t ≠ x := by
  rw [moved_of_ne ne]
  constructor
  · intro zero t ht here
    have mem : ident t ∈ ids := (mem_ids perm).mpr ⟨t, ht, rfl⟩
    have within := (within_foldl (L := Function.update L x 0) (x := x) (ids_flags perm)).2
        _ mem here
    rw [getAddress_ident (frames t ht).2, zero] at within
    exact (frames t ht).1 (within.symm.trans BitVec.and_zero)
  · intro off
    rw [foldl_apply_of_ne, Function.update_self, getAddress_zero]
    intro w mem here
    obtain ⟨t, ht, rfl⟩ := (mem_ids perm).mp mem
    exact off t ht here

/-- A page that nothing is about. -/
theorem moved_other (perm : ids.Perm (ts.map ident)) (old : z ≠ x) (new : z ≠ y)
    (off : ∀ t ∈ ts, z ≠ pagingIndexerAssign t) : moved L ids x y z = L z := by
  rw [moved_of_ne new, foldl_apply_of_ne, Function.update_of_ne old]
  intro w mem here
  obtain ⟨t, ht, rfl⟩ := (mem_ids perm).mp mem
  exact off t ht here.symm

/-- The flags of a table's own page. -/
theorem flagsOf_table (perm : ids.Perm (ts.map ident)) {t : Addr} (ht : t ∈ ts)
    (ne : pagingIndexerAssign t ≠ y) :
    flagsOf (moved L ids x y (pagingIndexerAssign t)) = wide flagsKernelPage := by
  rw [moved_of_ne ne]
  apply flagsOf_foldl (ids_flags perm)
  · intro w mem _
    obtain ⟨u, -, rfl⟩ := (mem_ids perm).mp mem
    rfl
  · exact ⟨ident t, (mem_ids perm).mpr ⟨t, ht, rfl⟩, rfl⟩

/-- Nothing is changed by moving a page that is not there. -/
theorem moved_idle_iff (perm : ids.Perm (ts.map ident)) (frames : ∀ t ∈ ts, t ≠ 0 ∧ IsFrame t)
    (absent : pagingDescGetFlag (L x) flagPresent ≠ true) (hx : pagingIndexerAssign old = x)
    (hy : pagingIndexerAssign new = y) :
    (∀ w, pagingDescGetAddress (moved L ids x y (pagingIndexerAssign w)) =
        pagingDescGetAddress (L (pagingIndexerAssign w)) ∧
      flagsOf (moved L ids x y (pagingIndexerAssign w)) = flagsOf (L (pagingIndexerAssign w))) ↔
    (x ≠ y → pagingDescGetAddress (L x) = 0 ∧ flagsOf (L x) = 0 ∧ flagsOf (L y) = 0) ∧
      ∀ t ∈ ts, Within t (pagingDescGetAddress (L (pagingIndexerAssign t))) ∧
        (pagingIndexerAssign t ≠ y →
          flagsOf (L (pagingIndexerAssign t)) = wide flagsKernelPage) := by
  constructor
  · intro same
    have flags {t : Addr} (ht : t ∈ ts) (ne : pagingIndexerAssign t ≠ y) :
        flagsOf (L (pagingIndexerAssign t)) = wide flagsKernelPage := by
      rw [← (same t).2]
      exact flagsOf_table perm ht ne
    refine ⟨fun ne => ?_, fun t ht => ⟨?_, flags ht⟩⟩
    · -- no table is at the old page: it would be present there
      have off : ∀ w ∈ ids, w.page ≠ x := by
        intro w mem here
        obtain ⟨t, ht, rfl⟩ := (mem_ids perm).mp mem
        have here : pagingIndexerAssign t = x := here
        have kernel := flags ht (here ▸ ne)
        rw [here] at kernel
        apply absent
        rw [← getFlag_flagsOf (by decide), kernel]
        decide
      have gone := same old
      rw [hx, moved_of_ne ne, foldl_apply_of_ne off, Function.update_self, getAddress_zero] at gone
      have blank : flagsOf (L x) = 0 := gone.2.symm
      have new := (same new).2
      rw [hy, flagsOf_moved, blank] at new
      exact ⟨gone.1.symm, blank, new.symm⟩
    · have mem : ident t ∈ ids := (mem_ids perm).mpr ⟨t, ht, rfl⟩
      have within := (within_foldl (L := Function.update L x 0) (moved_flags (y := y) (L := L)
        (x := x) perm)).2 _ (List.mem_append_left _ mem) rfl
      rw [← moved_eq, getAddress_ident (frames t ht).2] at within
      exact (same t).1 ▸ within
  · rintro ⟨blank, tables⟩ w
    generalize pagingIndexerAssign w = z
    constructor
    · rw [moved_eq]
      apply getAddress_foldl (moved_flags perm)
      · by_cases here : z = x
        · rw [here, Function.update_self, getAddress_zero]
          exact zero_within _
        · rw [Function.update_of_ne here]
          exact Within.refl _
      · intro w mem here
        rcases List.mem_append.mp mem with mem | mem
        · obtain ⟨t, ht, rfl⟩ := (mem_ids perm).mp mem
          have here : pagingIndexerAssign t = z := here
          rw [getAddress_ident (frames t ht).2, ← here]
          exact (tables t ht).1
        · rw [List.mem_singleton.mp mem] at here ⊢
          have here : y = z := here
          rw [show pagingDescGetAddress (carried L x y).phys = pagingDescGetAddress (L x) from
            getAddress_frame (L x)]
          by_cases same : x = y
          · rw [← here, ← same]
            exact Within.refl _
          · rw [(blank same).1]
            exact zero_within _
      · by_cases here : z = x
        · by_cases same : x = y
          · refine Or.inr ⟨carried L x y, List.mem_append_right _ (List.mem_singleton_self _),
              (here.trans same).symm, ?_⟩
            rw [here]
            exact getAddress_frame (L x)
          · left
            rw [here, Function.update_self, (blank same).1, getAddress_zero]
        · left
          rw [Function.update_of_ne here]
    · by_cases new : z = y
      · subst new
        rw [flagsOf_moved]
        by_cases same : x = z
        · rw [same]
        · rw [(blank same).2.1, (blank same).2.2]
      · by_cases at' : ∃ t ∈ ts, pagingIndexerAssign t = z
        · obtain ⟨t, ht, rfl⟩ := at'
          rw [flagsOf_table perm ht new, (tables t ht).2 new]
        · have off : ∀ w ∈ ids, w.page ≠ z := by
            intro w mem here
            obtain ⟨t, ht, rfl⟩ := (mem_ids perm).mp mem
            exact at' ⟨t, ht, here⟩
          rw [moved_of_ne new, foldl_apply_of_ne off]
          by_cases here : z = x
          · rw [here, Function.update_self, (blank (here ▸ new)).2.1]
            rfl
          · rw [Function.update_of_ne here]

/-- A page is moved just when nothing is in the way. -/
theorem remap_moves_iff (wf : WellFormed s)
    (run : pagingRemapPage g fuel s old new = some (answer, s'))
    (fresh : Fresh s (given g s.served s'.served)) :
    Moves s s' (given g s.served s'.served) old new answer ↔
      Movable s (given g s.served s'.served) old new := by
  rcases remap_cases run with ⟨missing, rfl, rfl⟩ | ⟨there, rfl, a, called⟩
  · have absent : ¬ Present s' old := by
      rw [Present, State.leaf, ← lastTable_eq, missing, Option.elim_none]
      decide
    apply iff_of_true
    · exact ⟨fun _ => ⟨rfl, fun w => ⟨rfl, rfl⟩⟩, fun present => absurd present absent,
        fun present => absurd present absent, fun present => absurd present absent,
        fun present => absurd present absent, fun present => absurd present absent⟩
    · exact Or.inr (Or.inl missing)
  · obtain ⟨ids, perm, leaf⟩ := remap_leaf wf fresh called
    have frames : ∀ t ∈ given g s.served s'.served, IsFrame t := fun t ht => (fresh.frame t ht).2
    by_cases present : Present s old
    · have movable : Movable s (given g s.served s'.served) old answer ↔
          Vacant s (given g s.served s'.served) old answer := by
        constructor
        · rintro (⟨-, vacant⟩ | missing | ⟨absent, -⟩)
          · exact vacant
          · exact absurd missing there
          · exact absurd present absent
        · exact fun vacant => Or.inl ⟨present, vacant⟩
      have frame := getAddress_moved_iff (L := s.leaf) (x := pagingIndexerAssign old)
        (y := pagingIndexerAssign answer) perm frames
      have gone (ne : pagingIndexerAssign old ≠ pagingIndexerAssign answer) :=
        moved_gone_iff (L := s.leaf) perm fresh.frame ne
      rw [← leaf, ← walk_eq, ← walk_eq, ← walk_eq] at frame
      rw [movable]
      constructor
      · intro moves
        obtain ⟨former, tables⟩ := frame.mp (moves.frame present)
        refine ⟨former, tables, fun ne => (gone ne).mp ?_⟩
        rw [← leaf, ← walk_eq]
        exact moves.gone present ne
      · intro vacant
        refine ⟨fun absent => absurd present absent, fun _ => rfl,
          fun _ => frame.mpr ⟨vacant.former, vacant.tables⟩, fun _ => ?_, fun _ ne => ?_,
          fun _ w old new off => ?_⟩
        · rw [leaf, flagsOf_moved]
        · rw [walk_eq, leaf]
          exact (gone ne).mpr (vacant.apart ne)
        · rw [Unchanged, walk_eq, walk_eq, leaf, moved_other perm old new off]
          exact ⟨rfl, rfl⟩
    · have idle := moved_idle_iff (L := s.leaf) perm fresh.frame present rfl
        (rfl : pagingIndexerAssign answer = _)
      have movable : Movable s (given g s.served s'.served) old answer ↔
          answer = 0 ∧ Idle s (given g s.served s'.served) old answer := by
        constructor
        · rintro (⟨there, -⟩ | missing | ⟨-, zero, idle⟩)
          · exact absurd there present
          · exact absurd missing there
          · exact ⟨zero, idle⟩
        · rintro ⟨zero, idle⟩
          exact Or.inr (Or.inr ⟨present, zero, idle⟩)
      rw [movable]
      constructor
      · intro moves
        obtain ⟨zero, same⟩ := moves.none present
        refine ⟨zero, ?_⟩
        obtain ⟨blank, tables⟩ := idle.mp fun w => by
          rw [← leaf, ← walk_eq, ← walk_eq]
          exact same w
        refine ⟨fun ne => ?_, fun t ht => ?_, fun t ht => (tables t ht).2⟩
        · rw [walk_eq]
          exact blank ne
        · rw [walk_eq]
          exact (tables t ht).1
      · rintro ⟨zero, blank, tables, flags⟩
        refine ⟨fun _ => ⟨zero, fun w => ?_⟩, fun there => absurd there present,
          fun there => absurd there present, fun there => absurd there present,
          fun there => absurd there present, fun there => absurd there present⟩
        rw [Unchanged, walk_eq, walk_eq, leaf]
        apply idle.mpr
        refine ⟨fun ne => ?_, fun t ht => ⟨?_, flags t ht⟩⟩
        · rw [← walk_eq]
          exact blank ne
        · rw [← walk_eq]
          exact tables t ht

/-- The call ends when there are frames for all the tables that are missing. -/
theorem remap_some (wf : WellFormed s) (supplied : Supplied g s) (deep : s.lacking < fuel)
    (old new : Addr) : ∃ answer s', pagingRemapPage g fuel s old new = some (answer, s') := by
  obtain ⟨wf', -, follow, -⟩ := wf.unmap old
  have same : (pagingUnmapPage s old).lacking = s.lacking := by
    rw [State.lacking, State.lacking, unmap_pml4]
    apply Radix.lacking_congr
    intro π hπ
    have there := follow π hπ
    rwa [State.follow, unmap_pml4] at there
  have supplied' : Supplied g (pagingUnmapPage s old) := by
    rw [Supplied, unmap_served, same]
    refine ⟨supplied.nodup, supplied.frame, fun t ht π hπ => ?_⟩
    rw [follow π hπ]
    exact supplied.unused t ht π hπ
  rw [pagingRemapPage]
  cases lastTable s (pagingIndexerAssign old) with
  | none => exact ⟨0, s, rfl⟩
  | some t =>
    obtain ⟨s', called, -⟩ := mapPage_some new
      (pagingDescGetAddress (s.mem t (pagingIndexerAssign old).pml1))
      ((s.mem t (pagingIndexerAssign old).pml1 &&& 0x0fff).setWidth 16) wf' supplied'
      (same.symm ▸ deep)
    exact ⟨new, s', Option.map_eq_some_iff.mpr ⟨_, called, rfl⟩⟩

/-- Remapping a page ends, when there are frames for the tables that are missing, and is a move
just when nothing is in the way, or when there is nothing to be moved. -/
theorem pagingRemapPage_moves (wf : WellFormed s) :
    (Supplied g s → ∀ fuel, s.lacking < fuel →
      ∃ answer s', pagingRemapPage g fuel s old new = some (answer, s')) ∧
    ∀ fuel answer s', pagingRemapPage g fuel s old new = some (answer, s') →
      Fresh s (given g s.served s'.served) →
      (Moves s s' (given g s.served s'.served) old new answer ↔
        Movable s (given g s.served s'.served) old new) :=
  ⟨fun supplied _ deep => remap_some wf supplied deep old new,
    fun _ _ _ run fresh => remap_moves_iff wf run fresh⟩

end

/-! ### On the machine -/

/-- A page mapped, and then one moved. -/
theorem machine_remap {old : Addr} (run : ((pagingMapPage machineFrames 5 machineRoot 0x8000 0x9000
    7).bind fun r => (pagingRemapPage machineFrames 5 r.2 old 0xa000).map fun r' =>
      (r.1, r.2.served, r'.1, r'.2.served)) = some (0x8000, 3, 0xa000, 3)) :
    ∃ s s', pagingMapPage machineFrames 5 machineRoot 0x8000 0x9000 7 = some (0x8000, s) ∧
      s.served = 3 ∧ pagingRemapPage machineFrames 5 s old 0xa000 = some (0xa000, s') ∧
      s'.served = 3 := by
  obtain ⟨⟨v, s⟩, first, rest⟩ := Option.bind_eq_some_iff.mp run
  obtain ⟨⟨v', s'⟩, second, eq⟩ := Option.map_eq_some_iff.mp rest
  simp only [Prod.mk.injEq] at eq
  obtain ⟨rfl, served, rfl, served'⟩ := eq
  exact ⟨s, s', first, served, second, served'⟩

/-- What the first of the two calls leaves. -/
theorem machine_mapped
    (run : pagingMapPage machineFrames 5 machineRoot 0x8000 0x9000 7 = some (0x8000, s))
    (served : s.served = 3) : WellFormed s ∧ flagsOf (s.leaf (pagingIndexerAssign 0x8000)) = 7 ∧
      ∀ w, pagingIndexerAssign w ≠ pagingIndexerAssign 0x8000 →
        (∀ t ∈ ([0x2000, 0x3000, 0x4000] : List Addr),
          pagingIndexerAssign w ≠ pagingIndexerAssign t) →
        pagingWalkPage s w = 0 ∧ flagsOf (s.leaf (pagingIndexerAssign w)) = 0 := by
  have walk (t : Addr) : pagingWalkPage machineRoot t = 0 := by
    rw [walk_eq, machineRoot_empty.leaf, getAddress_zero]
  have spec := mapPage_blank machineRoot_empty.wf run
  rw [served, machine_given] at spec
  obtain ⟨-, flags, -, others, wf⟩ := spec machine_fresh (machineRoot_empty.leaf _) (by decide)
    (by decide) (machine_frames ⟨by decide, Or.inl (walk _)⟩ ⟨by decide, Or.inl (walk _)⟩
      ⟨by decide, Or.inl (walk _)⟩)
  refine ⟨wf, flags, fun w ne off => ?_⟩
  obtain ⟨same, none⟩ := others w ne off
  rw [walk] at same
  rw [machineRoot_empty.leaf] at none
  exact ⟨same, none⟩

/-- A page is moved to one that is not mapped. -/
theorem pagingRemapPage_moves_machine : ∃ s s',
    pagingRemapPage machineFrames 5 s 0x8000 0xa000 = some (0xa000, s') ∧
      Moves s s' [] 0x8000 0xa000 0xa000 := by
  obtain ⟨s, s', first, served, run, served'⟩ := @machine_remap 0x8000 (by decide +kernel)
  obtain ⟨wf, flags, others⟩ := machine_mapped first served
  have taken : given machineFrames s.served s'.served = [] := by
    rw [served, served', given_self]
  have moves := (pagingRemapPage_moves wf).2 5 _ s' run
  rw [taken] at moves
  refine ⟨s, s', run, (moves (fresh_nil s)).mpr (Or.inl ⟨?_, fun _ => ?_, ?_, ?_⟩)⟩
  · rw [Present, ← getFlag_flagsOf (by decide), flags]
    decide
  · rw [(others 0xa000 (by decide) (machine_frames (by decide) (by decide) (by decide))).1]
    exact zero_within _
  · intro t ht
    cases ht
  · intro _ t ht
    cases ht

/-- A page that is not mapped, in a table that is there, is moved all the same. -/
theorem pagingRemapPage_not_always_moves : ¬ ∀ (g : Nat → Addr) (s s' : State) (fuel : Nat)
    (old new answer : Addr), WellFormed s →
    pagingRemapPage g fuel s old new = some (answer, s') →
    Fresh s (given g s.served s'.served) →
    Moves s s' (given g s.served s'.served) old new answer := by
  intro all
  obtain ⟨s, s', first, served, run, served'⟩ := @machine_remap 0x6000 (by decide +kernel)
  obtain ⟨wf, -, others⟩ := machine_mapped first served
  have taken : given machineFrames s.served s'.served = [] := by
    rw [served, served', given_self]
  have moves := all _ _ _ _ _ _ _ wf run (by rw [taken]; exact fresh_nil s)
  have absent : ¬ Present s 0x6000 := by
    obtain ⟨-, none⟩ := others 0x6000 (by decide)
      (machine_frames (by decide) (by decide) (by decide))
    rw [Present, ← getFlag_flagsOf (by decide), none]
    decide
  exact absurd (moves.none absent).1 (by decide)

end Skylight.Paging
