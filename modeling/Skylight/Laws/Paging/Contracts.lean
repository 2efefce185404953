import Skylight.Laws.Paging.Pages

/-!
# What the page tables promise

The tables are a finite map from pages to frames: a page is mapped where nothing was, and
nothing else moves but the own pages of the tables the call takes. And they keep privileges
apart: whatever was mapped before, a page is open to user code, or writable, exactly when
its own descriptor says so.

`pagingMapPage_contract` is the first: for page-aligned frames below `2 ^ 52` with pages of
their own, below a root whose absent entries hold no address. `pagingMapPage_not_always` shows
what goes wrong behind an absent entry with an address, and with frames whose pages are not
their own. `privilege_separation` is the second, and about runs of any calls: it needs an empty
root at the beginning and nothing else. What becomes of a page that was mapped before is in
`Laws.Paging.Replace`, and what a missing frame does in `Laws.Paging.Exhaustion`.
-/

namespace Skylight.Paging

section
variable {g : Nat → Addr} {s s' : State} {ids : List Mapping} {ts : List Addr} {t v : Addr}
  {flags : BitVec 16}

/-- A root that leads to no table. -/
def Childless (s : State) : Prop := ∀ i, child (s.mem s.pml4 i) = none

/-- No path but the empty one leads to a table. -/
theorem Childless.follow (h : Childless s) : ∀ π : List (BitVec 9), π ≠ [] → s.follow π = none
  | [], ne => absurd rfl ne
  | i :: π, _ => by
    show (child (s.mem s.pml4 i)).bind _ = none
    rw [h, Option.bind_none]

/-- No page has a descriptor. -/
theorem Childless.leaf (h : Childless s) (x : PagingIndexer) : s.leaf x = 0 := by
  rw [State.leaf, h.follow x.path (List.cons_ne_nil _ _), Option.elim_none]

/-- Only the root is reached, and by one path. -/
theorem Childless.distinct (h : Childless s) : Radix.Distinct child 3 s.mem s.pml4 := by
  intro π π' t _ _ ht ht'
  cases π with
  | cons i π => rw [show Radix.follow _ _ _ _ = none from h.follow _ (by simp)] at ht; cases ht
  | nil =>
    cases π' with
    | cons i π' =>
      rw [show Radix.follow _ _ _ _ = none from h.follow _ (by simp)] at ht'
      cases ht'
    | nil => rfl

/-- Any frames but the root are fresh for a root that leads to no table. -/
theorem Childless.fresh (h : Childless s) (nodup : ts.Nodup) (frames : ∀ t ∈ ts, t ≠ 0 ∧ IsFrame t)
    (root : s.pml4 ∉ ts) : Fresh s ts where
  nodup := nodup
  frame := frames
  unused t mem π _ there := by
    cases π with
    | nil =>
      cases there
      exact root mem
    | cons i π =>
      rw [h.follow _ (List.cons_ne_nil _ _)] at there
      cases there

/-- An empty root: no page is mapped. -/
structure Empty (s : State) : Prop where
  blank : ∀ i, s.mem s.pml4 i = 0

/-- An empty root leads to no table. -/
theorem Empty.childless (h : Empty s) : Childless s := fun i => by rw [h.blank, child_zero]

/-- No page of it has a descriptor. -/
theorem Empty.leaf (h : Empty s) (x : PagingIndexer) : s.leaf x = 0 := h.childless.leaf x

/-- It is a tree. -/
theorem Empty.wf (h : Empty s) : WellFormed s where
  distinct := h.childless.distinct
  clear π t i _ ht _ := by
    cases π with
    | cons j π => rw [h.childless.follow _ (by simp)] at ht; cases ht
    | nil =>
      cases ht
      rw [h.blank, getAddress_zero]

/-- And a guarded one, since there is nothing to guard. -/
theorem Empty.guarded (h : Empty s) : Guarded s := by
  intro x π i ρ t _ _
  rw [h.leaf]
  exact zero_within _

/-- Any frames but the root are fresh for an empty root. -/
theorem Empty.fresh (h : Empty s) (nodup : ts.Nodup) (frames : ∀ t ∈ ts, t ≠ 0 ∧ IsFrame t)
    (root : s.pml4 ∉ ts) : Fresh s ts := h.childless.fresh nodup frames root

/-- The mappings of tables' own pages name each page once when the tables do. -/
theorem ident_pages (perm : ids.Perm (ts.map ident))
    (apart : (ts.map pagingIndexerAssign).Nodup) : (ids.map Mapping.page).Nodup := by
  have pages : (ids.map Mapping.page).Perm (ts.map pagingIndexerAssign) := by
    have := perm.map Mapping.page
    rwa [List.map_map] at this
  exact pages.nodup_iff.mpr apart

/-- The mappings are those of the tables. -/
theorem mem_ids (perm : ids.Perm (ts.map ident)) {w : Mapping} :
    w ∈ ids ↔ ∃ t ∈ ts, ident t = w := by
  rw [perm.mem_iff, List.mem_map]

/-- They have flags and nothing else. -/
theorem ids_flags (perm : ids.Perm (ts.map ident)) : ∀ w ∈ ids, IsFlags w.flags := by
  intro w mem
  obtain ⟨t, -, rfl⟩ := (mem_ids perm).mp mem
  exact isFlags_wide _

/-- A new table's own page ends up mapped to the table when it was not mapped elsewhere. -/
theorem walk_ident {old : Desc} (ht : IsFrame t)
    (free : pagingDescGetAddress old = 0 ∨ pagingDescGetAddress old = t) :
    pagingDescGetAddress (leafEntry old t (wide flags)) = t := by
  have own : pagingDescGetAddress t = t := ht
  rw [getAddress_leafEntry (isFlags_wide flags), own]
  rcases free with zero | same
  · rw [zero]
    exact BitVec.zero_or
  · rw [same, BitVec.or_self]

/-- A page is mapped where nothing was: it is there with its flags, the tables that the call took
are on their own pages, and the rest stays. -/
theorem mapPage_blank {virt phys answer : Addr} {fuel : Nat} (wf : WellFormed s)
    (run : pagingMapPage g fuel s virt phys flags = some (answer, s'))
    (fresh : Fresh s (given g s.served s'.served))
    (blank : s.leaf (pagingIndexerAssign virt) = 0) (frame : IsFrame phys)
    (apart : ((given g s.served s'.served).map pagingIndexerAssign).Nodup)
    (separate : ∀ t ∈ given g s.served s'.served, pagingIndexerAssign t ≠ pagingIndexerAssign virt ∧
      (pagingWalkPage s t = 0 ∨ pagingWalkPage s t = t)) :
    pagingWalkPage s' virt = phys ∧
    flagsOf (s'.leaf (pagingIndexerAssign virt)) = (flags &&& 0x0fff).setWidth 64 ∧
    (∀ t ∈ given g s.served s'.served, pagingWalkPage s' t = t) ∧
    (∀ w, pagingIndexerAssign w ≠ pagingIndexerAssign virt →
      (∀ t ∈ given g s.served s'.served, pagingIndexerAssign w ≠ pagingIndexerAssign t) →
      pagingWalkPage s' w = pagingWalkPage s w ∧
      flagsOf (s'.leaf (pagingIndexerAssign w)) = flagsOf (s.leaf (pagingIndexerAssign w))) ∧
    WellFormed s' := by
  obtain ⟨-, spec⟩ := mapPage_runs run
  obtain ⟨-, -, ids, perm, e⟩ := spec wf fresh
  have leaf (x : PagingIndexer) : s'.leaf x = (Mapping.apply (ids.foldl Mapping.apply s.leaf)
      ⟨pagingIndexerAssign virt, phys, wide flags⟩) x := by
    rw [e.leaf, List.foldl_append, List.foldl_cons, List.foldl_nil]
  have off : ∀ w ∈ ids, w.page ≠ pagingIndexerAssign virt := by
    intro w mem
    obtain ⟨t, ht, rfl⟩ := (mem_ids perm).mp mem
    exact (separate t ht).1
  -- the entry of `virt` is set once, into an empty word: the OR of the address meets nothing
  have own : s'.leaf (pagingIndexerAssign virt) = leafEntry 0 phys (wide flags) := by
    rw [leaf, Mapping.apply, Function.update_self, foldl_apply_of_ne off, blank]
  have stays (x : PagingIndexer) (ne : x ≠ pagingIndexerAssign virt)
      (other : ∀ t ∈ given g s.served s'.served, x ≠ pagingIndexerAssign t) :
      s'.leaf x = s.leaf x := by
    have away : ∀ w ∈ ids, w.page ≠ x := by
      intro w mem
      obtain ⟨t, ht, rfl⟩ := (mem_ids perm).mp mem
      exact (other t ht).symm
    rw [leaf, Mapping.apply, Function.update_of_ne ne, foldl_apply_of_ne away]
  refine ⟨?_, ?_, ?_, ?_, e.wf⟩
  · have same : pagingDescGetAddress phys = phys := frame
    rw [walk_eq, own, getAddress_leafEntry (isFlags_wide flags), getAddress_zero, same]
    exact BitVec.zero_or
  · rw [own]
    exact flagsOf_leafEntry (isFlags_wide flags)
  · intro t ht
    obtain ⟨ne, free⟩ := separate t ht
    rw [walk_eq] at free
    rw [walk_eq, leaf, Mapping.apply, Function.update_of_ne ne]
    have mem : ident t ∈ ids := (mem_ids perm).mpr ⟨t, ht, rfl⟩
    -- a frame is mapped once, so its entry is either untouched or the identity's
    have entry := foldl_apply_of_mem (L := s.leaf) (ident_pages perm apart) mem
    rw [show pagingIndexerAssign t = (ident t).page from rfl, entry]
    exact walk_ident (fresh.frame t ht).2 free
  · intro w ne other
    rw [walk_eq, walk_eq, stays _ ne other]
    exact ⟨rfl, rfl⟩

/-- The page tables are a finite map. The frames handed out are page-aligned and below
`2 ^ 52`, and two of them are two pages of the virtual addresses too, as they are below
`2 ^ 48`. Unmapping asks less of the tree: an absent entry may hold what it likes. -/
theorem pagingMapPage_contract (g : Nat → Addr) (s : State) (virt phys : Addr)
    (flags : BitVec 16) (tree : Radix.Distinct child 3 s.mem s.pml4) :
    (WellFormed s → Supplied g s → ∀ fuel, s.lacking < fuel →
      ∃ s', pagingMapPage g fuel s virt phys flags = some (virt, s')) ∧
    (WellFormed s → ∀ fuel answer s', pagingMapPage g fuel s virt phys flags = some (answer, s') →
      Fresh s (given g s.served s'.served) →
      s.leaf (pagingIndexerAssign virt) = 0 → IsFrame phys →
      ((given g s.served s'.served).map pagingIndexerAssign).Nodup →
      (∀ t ∈ given g s.served s'.served, pagingIndexerAssign t ≠ pagingIndexerAssign virt ∧
        (pagingWalkPage s t = 0 ∨ pagingWalkPage s t = t)) →
      pagingWalkPage s' virt = phys ∧
      flagsOf (s'.leaf (pagingIndexerAssign virt)) = (flags &&& 0x0fff).setWidth 64 ∧
      (∀ t ∈ given g s.served s'.served, pagingWalkPage s' t = t) ∧
      (∀ w, pagingIndexerAssign w ≠ pagingIndexerAssign virt →
        (∀ t ∈ given g s.served s'.served, pagingIndexerAssign w ≠ pagingIndexerAssign t) →
        pagingWalkPage s' w = pagingWalkPage s w ∧
        flagsOf (s'.leaf (pagingIndexerAssign w)) = flagsOf (s.leaf (pagingIndexerAssign w))) ∧
      WellFormed s') ∧
    (∀ v, pagingWalkPage (pagingUnmapPage s v) v = 0 ∧
      ∀ w, pagingIndexerAssign w ≠ pagingIndexerAssign v →
        pagingWalkPage (pagingUnmapPage s v) w = pagingWalkPage s w) := by
  refine ⟨fun wf sup fuel deep => ?_, ?_, fun v => ?_⟩
  · obtain ⟨s', run, -⟩ := mapPage_some virt phys flags wf sup deep
    exact ⟨s', run⟩
  · intro wf fuel answer s' run fresh blank frame apart separate
    exact mapPage_blank wf run fresh blank frame apart separate
  · have leaf := unmapPage_leaf tree v
    refine ⟨by rw [walk_eq, leaf, Function.update_self, getAddress_zero], fun w ne => ?_⟩
    rw [walk_eq, walk_eq, leaf, Function.update_of_ne ne]

end

/-- An empty root at `0x1000`. -/
def machineRoot : State := ⟨fun _ _ => 0, 0x1000, 0⟩

/-- The frames from `0x2000` on, one after the other. -/
def machineFrames (k : Nat) : Addr := 0x2000 + 0x1000 * BitVec.ofNat 64 k

/-- It maps nothing. -/
theorem machineRoot_empty : Empty machineRoot := ⟨fun _ => rfl⟩

/-- An answer is known by the page it names and by what shows in the tables behind it. -/
theorem exists_answer {α : Type*} {r : Option (Addr × State)} {v : Addr} (f : State → α) {a : α}
    (h : r.map (fun r => (r.1, f r.2)) = some (v, a)) : ∃ s', r = some (v, s') ∧ f s' = a := by
  cases r with
  | none => cases h
  | some r =>
    cases h
    exact ⟨r.2, rfl, rfl⟩

/-- The first page mapped in an empty tree costs three tables. -/
theorem machine_map : ∃ s', pagingMapPage machineFrames 5 machineRoot 0x8000 0x9000 7
    = some (0x8000, s') ∧ s'.served = 3 := exists_answer State.served (by decide +kernel)

/-- What holds of each of the three frames. -/
theorem machine_frames {P : Addr → Prop} (h₀ : P 0x2000) (h₁ : P 0x3000) (h₂ : P 0x4000) :
    ∀ t ∈ ([0x2000, 0x3000, 0x4000] : List Addr), P t := by
  simp only [List.forall_mem_cons]
  exact ⟨h₀, h₁, h₂, by simp⟩

/-- The frames that the first page takes. -/
theorem machine_given : given machineFrames machineRoot.served 3 = [0x2000, 0x3000, 0x4000] := by
  decide +kernel

/-- They are fresh. -/
theorem machine_fresh : Fresh machineRoot [0x2000, 0x3000, 0x4000] :=
  machineRoot_empty.fresh (by decide) (machine_frames (by decide) (by decide) (by decide))
    (by decide)

/-- The first page that is mapped, and the own page of a table. -/
theorem pagingMapPage_contract_machine :
    ∃ s', pagingMapPage machineFrames 5 machineRoot 0x8000 0x9000 7 = some (0x8000, s') ∧
      pagingWalkPage s' 0x8000 = 0x9000 ∧ pagingWalkPage s' 0x4000 = 0x4000 := by
  obtain ⟨s', run, served⟩ := machine_map
  have spec := (pagingMapPage_contract machineFrames machineRoot 0x8000 0x9000 7
    machineRoot_empty.wf.distinct).2.1 machineRoot_empty.wf 5 _ s' run
  rw [served, machine_given] at spec
  have walk (t : Addr) : pagingWalkPage machineRoot t = 0 := by
    rw [walk_eq, machineRoot_empty.leaf, getAddress_zero]
  obtain ⟨own, -, tables, -, -⟩ :=
    spec machine_fresh (machineRoot_empty.leaf _) (by decide) (by decide)
    (machine_frames ⟨by decide, Or.inl (walk _)⟩ ⟨by decide, Or.inl (walk _)⟩
      ⟨by decide, Or.inl (walk _)⟩)
  exact ⟨s', run, own, tables 0x4000 (by decide)⟩

/-! ### What the contract needs

A tree in which each table is referenced once, fresh frames, and a page of its own for each
frame that is not yet mapped elsewhere: that much alone does not make the page tables a finite
map. An entry that is absent may still hold an address, and the address of a new table is put
over its bits; and `paging_indexer_assign` takes the bits 12 to 47 of an address only, so two
addresses can be one page. -/

/-- A page asked for where the tree has each table once: what the contract asks of the tree and
the frames, but for the bits of absent entries and for addresses that differ above bit 47. -/
structure Asked (g : Nat → Addr) (s s' : State) (virt phys : Addr) : Prop where
  distinct : Radix.Distinct child 3 s.mem s.pml4
  fresh : Fresh s (given g s.served s'.served)
  vacant : s.leaf (pagingIndexerAssign virt) = 0
  frame : IsFrame phys
  separate : ∀ t ∈ given g s.served s'.served,
    t ≠ virt ∧ (pagingWalkPage s t = 0 ∨ pagingWalkPage s t = t)

/-- A root that leads to no table asks nothing but that the frames are new and not the page. -/
theorem Childless.asked {phys : Addr} (h : Childless s) (taken : given g s.served s'.served = ts)
    (nodup : ts.Nodup) (frames : ts.all fun t => decide (t ≠ 0 ∧ IsFrame t)) (root : s.pml4 ∉ ts)
    (frame : IsFrame phys) (other : v ∉ ts) : Asked g s s' v phys where
  distinct := h.distinct
  fresh := taken ▸ h.fresh nodup
    (fun t mem => of_decide_eq_true (List.all_eq_true.mp frames t mem)) root
  vacant := h.leaf _
  frame := frame
  separate t mem := by
    rw [walk_eq, h.leaf, getAddress_zero]
    exact ⟨fun same => other (taken ▸ same ▸ mem), .inl rfl⟩

/-- A root at `0x1000` whose absent entry 1 holds the address `0x8000`. -/
def strayRoot : State := { machineRoot with
  mem := fun t i => if t = 0x1000 ∧ i = 1 then 0x8000 else 0 }

/-- The entry is absent, so it leads to no table. -/
theorem strayRoot_childless : Childless strayRoot := by
  intro i
  show child (if (0x1000 : Addr) = 0x1000 ∧ i = 1 then 0x8000 else 0) = none
  split
  · decide
  · exact child_zero

/-- The frames of the machine, but for one that differs from the first in bit 48 alone. -/
def twinFrames (k : Nat) : Addr := if k = 1 then 0x1000000002000 else machineFrames k

/-- Frames from `0x800000002000` on: the page of the first is `0xffff800000002000` too. -/
def upperFrames (k : Nat) : Addr := 0x800000000000 + machineFrames k

/-- The frames a call took so far, and where a page leads. -/
def seenAt (g : Nat → Addr) (v : Addr) (s : State) : List Addr × Addr :=
  (given g 0 s.served, pagingWalkPage s v)

/-- Behind the address `0x8000` a table at `0x2000` is taken to be at `0xa000`. -/
theorem stray_map : ∃ s', pagingMapPage machineFrames 9 strayRoot 0x8000000000 0x9000 7 =
    some (0x8000000000, s') ∧ seenAt machineFrames 0x8000000000 s' =
      ([0x2000, 0x3000, 0x4000, 0x5000, 0x6000, 0x7000], 0) :=
  exists_answer (seenAt machineFrames 0x8000000000) (by decide +kernel)

/-- The page of the second table is on the frames of two tables. -/
theorem twin_map : ∃ s', pagingMapPage twinFrames 5 machineRoot 0x8000 0x9000 7 =
    some (0x8000, s') ∧ seenAt twinFrames 0x2000 s' =
      ([0x2000, 0x1000000002000, 0x4000], 0x1000000002000) :=
  exists_answer (seenAt twinFrames 0x2000) (by decide +kernel)

/-- The page asked for is that of the first table too. -/
theorem upper_map : ∃ s', pagingMapPage upperFrames 5 machineRoot 0xffff800000002000 0x9000 7 =
    some (0xffff800000002000, s') ∧ seenAt upperFrames 0xffff800000002000 s' =
      ([0x800000002000, 0x800000003000, 0x800000004000], 0x80000000b000) :=
  exists_answer (seenAt upperFrames 0xffff800000002000) (by decide +kernel)

/-- The page asked for is not mapped behind an absent entry with an address, or where it is a
frame's page by another address; and a frame is not mapped to itself when two have one page. -/
theorem pagingMapPage_not_always :
    (∃ s', pagingMapPage machineFrames 9 strayRoot 0x8000000000 0x9000 7
        = some (0x8000000000, s') ∧
      Asked machineFrames strayRoot s' 0x8000000000 0x9000 ∧
      pagingWalkPage s' 0x8000000000 ≠ 0x9000) ∧
    (∃ s', pagingMapPage twinFrames 5 machineRoot 0x8000 0x9000 7 = some (0x8000, s') ∧
      Asked twinFrames machineRoot s' 0x8000 0x9000 ∧
      ∃ t ∈ given twinFrames machineRoot.served s'.served, pagingWalkPage s' t ≠ t) ∧
    ∃ s', pagingMapPage upperFrames 5 machineRoot 0xffff800000002000 0x9000 7
        = some (0xffff800000002000, s') ∧
      Asked upperFrames machineRoot s' 0xffff800000002000 0x9000 ∧
      pagingWalkPage s' 0xffff800000002000 ≠ 0x9000 := by
  refine ⟨?_, ?_, ?_⟩
  · obtain ⟨s', run, seen⟩ := stray_map
    obtain ⟨taken, walk⟩ := Prod.ext_iff.mp seen
    refine ⟨s', run, strayRoot_childless.asked taken (by decide) (by decide) (by decide) (by decide)
      (by decide), ?_⟩
    rw [show pagingWalkPage s' 0x8000000000 = 0 from walk]
    decide
  · obtain ⟨s', run, seen⟩ := twin_map
    obtain ⟨taken, walk⟩ := Prod.ext_iff.mp seen
    refine ⟨s', run, machineRoot_empty.childless.asked taken (by decide) (by decide)
      (by decide) (by decide) (by decide), 0x2000, ?_, ?_⟩
    · rw [show given twinFrames machineRoot.served s'.served = _ from taken]
      decide
    · rw [show pagingWalkPage s' 0x2000 = 0x1000000002000 from walk]
      decide
  · obtain ⟨s', run, seen⟩ := upper_map
    obtain ⟨taken, walk⟩ := Prod.ext_iff.mp seen
    refine ⟨s', run, machineRoot_empty.childless.asked taken (by decide) (by decide)
      (by decide) (by decide) (by decide), ?_⟩
    rw [show pagingWalkPage s' 0xffff800000002000 = 0x80000000b000 from walk]
    decide

/-- A call on the page tables: a page mapped, with frames the tables do not use, or unmapped. -/
inductive Step (g : Nat → Addr) : State → State → Prop
  | map {s s' : State} {fuel : Nat} {virt phys answer : Addr} {flags : BitVec 16}
      (run : pagingMapPage g fuel s virt phys flags = some (answer, s'))
      (fresh : Fresh s (given g s.served s'.served)) : Step g s s'
  | unmap {s : State} (virt : Addr) : Step g s (pagingUnmapPage s virt)

/-- Every call keeps the tree well formed and guarded. -/
theorem Step.guarded {g : Nat → Addr} {s s' : State} (h : Step g s s')
    (inv : WellFormed s ∧ Guarded s) : WellFormed s' ∧ Guarded s' := by
  obtain ⟨wf, guarded⟩ := inv
  cases h with
  | @map fuel virt phys answer flags _ run fresh =>
    obtain ⟨-, spec⟩ := mapPage_runs run
    obtain ⟨-, -, ids, perm, e⟩ := spec wf fresh
    refine ⟨e.wf, guarded.extends ?_ e⟩
    intro w mem
    rcases List.mem_append.mp mem with mem | mem
    · exact ids_flags perm w mem
    · rw [List.mem_singleton] at mem
      rw [mem]
      exact isFlags_wide _
  | unmap virt => exact ⟨(wf.unmap virt).1, guarded.unmap wf virt⟩

/-- And so does a run. -/
theorem run_guarded {g : Nat → Addr} {s₀ s : State} (empty : Empty s₀)
    (run : Relation.ReflTransGen (Step g) s₀ s) : WellFormed s ∧ Guarded s := by
  induction run with
  | refl => exact ⟨empty.wf, empty.guarded⟩
  | tail _ step ih => exact step.guarded ih

/-- Privilege separation: in every run from an empty root the processor finds a page open to
user code, or writable, exactly when the page's own descriptor says so. -/
theorem privilege_separation (g : Nat → Addr) (s₀ s : State) (empty : Empty s₀)
    (run : Relation.ReflTransGen (Step g) s₀ s) (w : Addr) :
    (((levels s w).length = 4 ∧ ∀ e ∈ levels s w, pagingDescGetFlag e flagUser = true) ↔
      pagingDescGetFlag (s.leaf (pagingIndexerAssign w)) flagUser = true) ∧
    (((levels s w).length = 4 ∧ ∀ e ∈ levels s w, pagingDescGetFlag e flagWrite = true) ↔
      pagingDescGetFlag (s.leaf (pagingIndexerAssign w)) flagWrite = true) := by
  obtain ⟨-, guarded⟩ := run_guarded empty run
  have user : IsFlags flagUser := by decide
  have write : IsFlags flagWrite := by decide
  exact ⟨guarded.levels_iff user w, guarded.levels_iff write w⟩

/-- The page that was mapped is open to user code. -/
theorem machine_open : ∃ s', pagingMapPage machineFrames 5 machineRoot 0x8000 0x9000 7
    = some (0x8000, s') ∧ (s'.served, pagingWalkPage s' 0x8000,
      pagingDescGetFlag (s'.leaf (pagingIndexerAssign 0x8000)) flagUser) = (3, 0x9000, true) :=
  exists_answer (fun s => (s.served, pagingWalkPage s 0x8000,
    pagingDescGetFlag (s.leaf (pagingIndexerAssign 0x8000)) flagUser)) (by decide +kernel)

/-- A user page mapped below a new root is open at all four levels. -/
theorem privilege_separation_machine :
    ∃ s, Relation.ReflTransGen (Step machineFrames) machineRoot s ∧
      pagingWalkPage s 0x8000 = 0x9000 ∧ (levels s 0x8000).length = 4 ∧
      ∀ e ∈ levels s 0x8000, pagingDescGetFlag e flagUser = true := by
  obtain ⟨s', run, seen⟩ := machine_open
  obtain ⟨served, walk, isOpen⟩ := by simpa only [Prod.mk.injEq] using seen
  have fresh : Fresh machineRoot (given machineFrames machineRoot.served s'.served) := by
    rw [served, machine_given]
    exact machine_fresh
  have reach := Relation.ReflTransGen.single (Step.map run fresh)
  obtain ⟨user, -⟩ := privilege_separation machineFrames machineRoot s' machineRoot_empty
    reach 0x8000
  exact ⟨s', reach, walk, user.mpr isOpen⟩

end Skylight.Paging
