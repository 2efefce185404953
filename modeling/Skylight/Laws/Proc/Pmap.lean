import Skylight.Laws.Proc.AddressSpace
import Skylight.Laws.Proc.Calls

/-!
# What a task can reach

`pmap` maps a frame of its own at an address user code chooses, over whatever is there. The
descriptor then holds the bits of both frames. So a call stays with the frame it was given
exactly where nothing else is at the page, and the runs whose calls are of that kind never
open a frame that was not handed to the task.

`pmap_confined_iff` is exact, for fresh frames: the call opens the page on the frame it was
given and changes no other page just when the page was vacant (`Vacant`), with the frames for
tables among what may not be in the way. Runs of calls are in `Laws.Proc.Escape`.
-/

namespace Skylight.Calls

open Skylight.Paging

/-- User code may reach the page. -/
def Open (s : Paging.State) (c : Addr) (x : PagingIndexer) : Prop :=
  pagingDescGetFlag ((pagingLoadPml4 s c).leaf x) flagUser = true

/-- The frame a page is mapped to. -/
def frameOf (s : Paging.State) (c : Addr) (x : PagingIndexer) : Addr :=
  pagingDescGetAddress ((pagingLoadPml4 s c).leaf x)

/-- The page of `answer` is open on the frame `phys`, and no other page is opened, closed or
moved, but for the own pages of the frames taken for tables. -/
structure Confined (s s' : Paging.State) (c answer phys : Addr) (taken : List Addr) : Prop where
  mapped : Open s' c (pagingIndexerAssign answer) ∧ frameOf s' c (pagingIndexerAssign answer) = phys
  rest : ∀ x, x ≠ pagingIndexerAssign answer → (Open s' c x ↔ Open s c x) ∧
    (frameOf s' c x = frameOf s c x ∨ ∃ t ∈ taken, pagingIndexerAssign t = x ∧ frameOf s' c x = t)

/-- Nothing is at the page of `answer`, now or as a table's own page, that `phys` has not the
bits of. The own pages of the tables are closed, and what is there agrees. -/
structure Vacant (s : Paging.State) (c answer phys : Addr) (taken : List Addr) : Prop where
  own : Within (frameOf s c (pagingIndexerAssign answer)) phys ∧
    ∀ t ∈ taken, pagingIndexerAssign t = pagingIndexerAssign answer → Within t phys
  tables : ∀ t ∈ taken, pagingIndexerAssign t ≠ pagingIndexerAssign answer →
    ¬ Open s c (pagingIndexerAssign t) ∧
    ∃ a, (a = frameOf s c (pagingIndexerAssign t) ∨
        (a ∈ taken ∧ pagingIndexerAssign a = pagingIndexerAssign t)) ∧
      Within (frameOf s c (pagingIndexerAssign t)) a ∧
      ∀ u ∈ taken, pagingIndexerAssign u = pagingIndexerAssign t → Within u a

section
variable {g : Nat → Addr} {fuel : Nat} {s s' : Paging.State} {c v answer virt phys : Addr}
  {taken : List Addr} {ids : List Mapping} {L : PagingIndexer → Desc} {x : PagingIndexer}

/-- What `pmap` does, for fresh frames. -/
theorem pmap_local {virt answer : Addr} (run : pmap g fuel c virt s = some (answer, s'))
    (wf : WellFormed (pagingLoadPml4 s c))
    (fresh : Fresh (pagingLoadPml4 s c) (given g s.served s'.served)) :
    s.served < s'.served ∧ answer = (if virt = pmapVirtDefault then g s.served else virt) ∧
      s'.pml4 = s.pml4 ∧ Local s s' c (given g (s.served + 1) s'.served) ∧
      ∃ ids : List Mapping, ids.Perm ((given g (s.served + 1) s'.served).map ident) ∧
        (pagingLoadPml4 s' c).leaf = List.foldl Mapping.apply (pagingLoadPml4 s c).leaf
          (ids ++ [⟨pagingIndexerAssign answer, g s.served, wide flagsUserPage⟩]) := by
  rw [pmap] at run
  obtain ⟨⟨a, s₁⟩, call, run⟩ := Option.bind_eq_some_iff.mp run
  cases run
  obtain ⟨le, same, -, here, ids, perm, leaf⟩ := alloc_mapPage call wf fresh
  rw [← same] at leaf
  exact ⟨le, same, rfl, ⟨here.frame, here.news, here.wf⟩, ids, perm, leaf⟩

/-- A page `pmap` answered is mapped. -/
theorem pmap_mapped {virt : Addr} (run : pmap g fuel c virt s = some (v, s'))
    (wf : WellFormed (pagingLoadPml4 s c))
    (fresh : Fresh (pagingLoadPml4 s c) (given g s.served s'.served)) :
    pagingWalkPage (pagingLoadPml4 s' c) v ≠ 0 := by
  obtain ⟨lt, -, -, -, ids, perm, leaf⟩ := pmap_local run wf fresh
  obtain ⟨ne, frame⟩ := fresh.frame (g s.served) (by
    rw [given_succ lt]
    exact List.mem_cons_self)
  have flags : ∀ u ∈ ids ++ [⟨pagingIndexerAssign v, g s.served, wide flagsUserPage⟩],
      IsFlags u.flags := by
    intro u mem
    rcases List.mem_append.mp mem with mem | mem
    · exact ids_flags perm u mem
    · rw [List.mem_singleton.mp mem]
      exact isFlags_wide _
  have own : Within (pagingDescGetAddress (g s.served))
      (pagingWalkPage (pagingLoadPml4 s' c) v) := by
    rw [walk_eq, leaf]
    exact (within_foldl flags).2 _ (List.mem_append_right _ (List.mem_singleton_self _)) rfl
  intro zero
  rw [zero, show pagingDescGetAddress (g s.served) = g s.served from frame] at own
  exact ne (Within.antisymm own (zero_within _))

/-- The kernel's flags do not open a page. -/
theorem kernel_closed : pagingDescGetFlag (wide flagsKernelPage) flagUser = false := by decide

/-- The user's do. -/
theorem user_open : pagingDescGetFlag (wide flagsUserPage) flagUser = true := by decide

/-- The page a frame for a table lies at is closed by its own mapping. -/
theorem ids_closed (perm : ids.Perm (taken.map ident))
    (mem : ∃ t ∈ taken, pagingIndexerAssign t = x) :
    pagingDescGetFlag (ids.foldl Mapping.apply L x) flagUser = false := by
  rw [← getFlag_flagsOf (by decide), flagsOf_foldl (ids_flags perm)]
  · exact kernel_closed
  · intro w hw _
    obtain ⟨t, -, rfl⟩ := (mem_ids perm).mp hw
    rfl
  · obtain ⟨t, ht, page⟩ := mem
    exact ⟨ident t, (mem_ids perm).mpr ⟨t, ht, rfl⟩, page⟩

/-- What a call of `pmap` leaves of the pages: that of the answer open, those of new tables closed,
and on each frame bits of what was there and of what is mapped to it now. -/
structure Pmapped (s s' : Paging.State) (c answer phys : Addr) (taken : List Addr) : Prop where
  opened : Open s' c (pagingIndexerAssign answer)
  closed : ∀ t ∈ taken, pagingIndexerAssign t ≠ pagingIndexerAssign answer →
    ¬ Open s' c (pagingIndexerAssign t)
  same : ∀ x, x ≠ pagingIndexerAssign answer → (∀ t ∈ taken, pagingIndexerAssign t ≠ x) →
    (pagingLoadPml4 s' c).leaf x = (pagingLoadPml4 s c).leaf x
  grows : ∀ x, Within (frameOf s c x) (frameOf s' c x)
  holds : ∀ t ∈ taken, Within t (frameOf s' c (pagingIndexerAssign t))
  frame : ∀ x a, Within (frameOf s c x) a →
    (∀ t ∈ taken, pagingIndexerAssign t = x → Within t a) →
    (pagingIndexerAssign answer = x → Within phys a) →
    (frameOf s c x = a ∨ (∃ t ∈ taken, pagingIndexerAssign t = x ∧ t = a) ∨
      pagingIndexerAssign answer = x ∧ phys = a) →
    frameOf s' c x = a

/-- What a call leaves, in one record. -/
theorem pmap_pmapped (run : pmap g fuel c virt s = some (answer, s'))
    (wf : WellFormed (pagingLoadPml4 s c))
    (fresh : Fresh (pagingLoadPml4 s c) (given g s.served s'.served)) :
    Pmapped s s' c answer (g s.served) (given g (s.served + 1) s'.served) := by
  obtain ⟨lt, -, -, -, ids, perm, leaf⟩ := pmap_local run wf fresh
  set taken := given g (s.served + 1) s'.served with def_taken
  set L := (pagingLoadPml4 s c).leaf with def_L
  set own : Mapping := ⟨pagingIndexerAssign answer, g s.served, wide flagsUserPage⟩ with def_own
  have frames : ∀ t ∈ g s.served :: taken, t ≠ 0 ∧ IsFrame t := by
    intro t mem
    apply fresh.frame t
    rwa [given_succ lt]
  have phys : pagingDescGetAddress (g s.served) = g s.served := (frames _ List.mem_cons_self).2
  have address {t : Addr} (ht : t ∈ taken) : pagingDescGetAddress t = t :=
    (frames t (List.mem_cons_of_mem _ ht)).2
  have flags : ∀ w ∈ ids ++ [own], IsFlags w.flags := by
    intro w mem
    rcases List.mem_append.mp mem with mem | mem
    · exact ids_flags perm w mem
    · rw [List.mem_singleton.mp mem]
      exact isFlags_wide _
  have mem_all {w : Mapping} : w ∈ ids ++ [own] ↔ (∃ t ∈ taken, ident t = w) ∨ w = own := by
    rw [List.mem_append, mem_ids perm, List.mem_singleton]
  -- the page of the answer is mapped last
  have here : (pagingLoadPml4 s' c).leaf (pagingIndexerAssign answer) =
      leafEntry (ids.foldl Mapping.apply L (pagingIndexerAssign answer)) (g s.served)
        (wide flagsUserPage) := by
    rw [leaf, List.foldl_append, List.foldl_cons, List.foldl_nil, Mapping.apply,
      Function.update_self]
  have there {x : PagingIndexer} (ne : x ≠ pagingIndexerAssign answer) :
      (pagingLoadPml4 s' c).leaf x = ids.foldl Mapping.apply L x := by
    rw [leaf, List.foldl_append, List.foldl_cons, List.foldl_nil, Mapping.apply,
      Function.update_of_ne ne]
  constructor
  case opened =>
    rw [Open, here, ← getFlag_flagsOf (by decide), flagsOf_leafEntry (isFlags_wide _)]
    exact user_open
  case closed =>
    intro t ht ne
    rw [Open, there ne, ids_closed perm ⟨t, ht, rfl⟩]
    exact Bool.false_ne_true
  case same =>
    intro x ne off
    rw [there ne, foldl_apply_of_ne]
    intro w mem page
    obtain ⟨t, ht, rfl⟩ := (mem_ids perm).mp mem
    exact off t ht page
  case grows =>
    intro x
    rw [frameOf, frameOf, leaf]
    exact (within_foldl flags).1
  case holds =>
    intro t ht
    have within :=
      (within_foldl (L := L) flags).2 (ident t) (mem_all.mpr (Or.inl ⟨t, ht, rfl⟩)) rfl
    rw [show pagingDescGetAddress (ident t).phys = t from address ht, ← leaf] at within
    exact within
  case frame =>
    intro x a start tables answered reached
    rw [frameOf, leaf]
    apply getAddress_foldl flags start
    · intro w mem page
      rcases mem_all.mp mem with ⟨t, ht, rfl⟩ | rfl
      · rw [show pagingDescGetAddress (ident t).phys = t from address ht]
        exact tables t ht page
      · rw [phys]
        exact answered page
    · rcases reached with was | ⟨t, ht, page, rfl⟩ | ⟨page, rfl⟩
      · exact Or.inl was
      · exact Or.inr ⟨ident t, mem_all.mpr (Or.inl ⟨t, ht, rfl⟩), page, address ht⟩
      · exact Or.inr ⟨own, mem_all.mpr (Or.inr rfl), page, phys⟩

/-- A call of `pmap` opens its page on its frame, and no other page, exactly where nothing is in the
way: the entry was empty or fits the frame, and so do those of the tables' own pages. -/
theorem pmap_confined_iff (run : pmap g fuel c virt s = some (answer, s'))
    (wf : WellFormed (pagingLoadPml4 s c))
    (fresh : Fresh (pagingLoadPml4 s c) (given g s.served s'.served)) :
    Confined s s' c answer (g s.served) (given g (s.served + 1) s'.served) ↔
      Vacant s c answer (g s.served) (given g (s.served + 1) s'.served) := by
  have p := pmap_pmapped run wf fresh
  constructor
  · intro h
    refine ⟨⟨?_, fun t ht page => ?_⟩, fun t ht ne => ⟨?_, frameOf s' c (pagingIndexerAssign t),
      ?_, p.grows _, fun u hu page => ?_⟩⟩
    · rw [← h.mapped.2]
      exact p.grows _
    · rw [← h.mapped.2, ← page]
      exact p.holds t ht
    · exact fun was => p.closed t ht ne ((h.rest _ ne).1.mpr was)
    · rcases (h.rest _ ne).2 with was | ⟨u, hu, page, now⟩
      · exact Or.inl was
      · rw [now]
        exact Or.inr ⟨hu, page⟩
    · rw [← page]
      exact p.holds u hu
  · intro h
    refine ⟨⟨p.opened, ?_⟩, fun x ne => ?_⟩
    · exact p.frame _ _ h.own.1 h.own.2 (fun _ => Within.refl _) (Or.inr (Or.inr ⟨rfl, rfl⟩))
    · by_cases table : ∃ t ∈ given g (s.served + 1) s'.served, pagingIndexerAssign t = x
      · obtain ⟨t, ht, rfl⟩ := table
        obtain ⟨shut, a, which, start, all⟩ := h.tables t ht ne
        refine ⟨iff_of_false (p.closed t ht ne) shut, ?_⟩
        have value : frameOf s' c (pagingIndexerAssign t) = a := by
          refine p.frame _ a start all (fun page => absurd page.symm ne) ?_
          rcases which with was | ⟨hu, page⟩
          · exact Or.inl was.symm
          · exact Or.inr (Or.inl ⟨a, hu, page, rfl⟩)
        rcases which with was | ⟨hu, page⟩
        · exact Or.inl (value.trans was)
        · exact Or.inr ⟨a, hu, page, value⟩
      · have still := p.same x ne fun t ht page => table ⟨t, ht, page⟩
        rw [Open, Open, frameOf, frameOf, still]
        exact ⟨Iff.rfl, Or.inl rfl⟩

/-- The page a call maps, and the frame. -/
def grant (r : Request) : PagingIndexer × Addr := (r.mapping.page, pagingDescGetAddress r.phys)

/-- Nothing but the frames of `rs` comes into the pages of `rs`. -/
def Settled (s : Paging.State) (c : Addr) (taken : List Addr) (rs : List Request) : Prop :=
  ∀ r ∈ rs, Within (frameOf s c r.mapping.page) (pagingDescGetAddress r.phys) ∧
    Undisturbed (mappings rs taken) r

/-- Where nothing else comes in, a page that is open was open on its frame or is one of `rs` on
the frame asked for. -/
theorem Mapped.open_cases {rs : List Request} (h : Mapped s s' c taken rs)
    (settled : Settled s c taken rs) (shown : Open s' c x) :
    (Open s c x ∧ frameOf s' c x = frameOf s c x) ∨ ∃ r ∈ rs, grant r = (x, frameOf s' c x) := by
  obtain ⟨-, all, perm, leaf⟩ := h
  have mem_all {w : Mapping} : w ∈ all ↔ w ∈ mappings rs taken := perm.mem_iff
  have flags : ∀ w ∈ all, IsFlags w.flags := fun w mem => mappings_flags (mem_all.mp mem)
  rcases flagsOf_foldl_apply (x := x) (L := (pagingLoadPml4 s c).leaf) flags with
    same | ⟨w, mem, page, same⟩
  · have still : (pagingLoadPml4 s' c).leaf x = (pagingLoadPml4 s c).leaf x := by rw [leaf, same]
    refine Or.inl ⟨?_, ?_⟩
    · rw [Open, ← still]
      exact shown
    · rw [frameOf, frameOf, still]
  · rw [Open, leaf, ← getFlag_flagsOf (by decide), same] at shown
    rcases List.mem_append.mp (mem_all.mp mem) with ident | asked
    · obtain ⟨t, -, rfl⟩ := List.mem_map.mp ident
      exact absurd (kernel_closed.symm.trans shown) Bool.false_ne_true
    · obtain ⟨r, hr, rfl⟩ := List.mem_map.mp asked
      obtain ⟨start, alone⟩ := settled r hr
      refine Or.inr ⟨r, hr, ?_⟩
      rw [grant, page, frameOf, leaf]
      congr 1
      symm
      rw [page] at start
      apply getAddress_foldl flags start
      · intro v hv here
        exact alone v (mem_all.mp hv) (here.trans page.symm)
      · exact Or.inr ⟨r.mapping, mem, page, rfl⟩

end

end Skylight.Calls
