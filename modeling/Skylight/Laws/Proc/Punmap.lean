import Skylight.Laws.Proc.Pmap

/-!
# Pages given back

`pmap` maps into the table of the caller, `punmap` works on the table that is loaded, and that
is the kernel's. So no call gives a page of a task back. In the kernel's table the page is
mapped again under its frame's own address, which puts it back only where that is its address.

`punmap_undoes_iff` says both halves of any call: no page leaves the table of a task, whichever
it is, and the kernel's pages keep their frames just when the page that is mapped again was on
its own address.
-/

namespace Skylight.Calls

open Skylight.Paging

section
variable {g : Nat → Addr} {fuel : Nat} {s s' : Paging.State} {c v w : Addr}

/-- What `punmap` does to the kernel's pages. -/
theorem punmap_leaf (run : punmap g fuel v s = some s') (given₀ : v ≠ 0) (wf : WellFormed s)
    (fresh : Fresh s (given g s.served s'.served)) :
    s'.pml4 = s.pml4 ∧ Local s s' s.pml4 (given g s.served s'.served) ∧
      ∃ ids : List Mapping, ids.Perm ((given g s.served s'.served).map ident) ∧
        s'.leaf = (ids ++ [ident (pagingWalkPage s v)]).foldl Mapping.apply
          (Function.update s.leaf (pagingIndexerAssign v) 0) := by
  rw [punmap, if_neg given₀] at run
  obtain ⟨⟨answer, s₁⟩, call, rfl⟩ := Option.map_eq_some_iff.mp run
  obtain ⟨wf', leaf, follow, -⟩ := wf.unmap v
  have l := unmap_local (r := s.pml4) v wf
  have root := unmap_pml4 s v
  have same : pagingLoadPml4 (pagingUnmapPage s v) s.pml4 = pagingUnmapPage s v :=
    loadPml4_of_eq root
  rw [← same] at call
  have fresh' : Fresh (pagingLoadPml4 (pagingUnmapPage s v) s.pml4)
      (given g (pagingUnmapPage s v).served s₁.served) := by
    rw [same, unmap_served]
    refine ⟨fresh.nodup, fresh.frame, fun t mem π hπ there => ?_⟩
    rw [follow π hπ] at there
    exact fresh.unused t mem π hπ there
  obtain ⟨-, root', -, l', ids, perm, leaf'⟩ := mapPage_local call (same.symm ▸ wf') fresh'
  rw [unmap_served] at l' perm
  refine ⟨root', l.trans l', ids, perm, ?_⟩
  rw [same, leaf, loadPml4_of_eq root'] at leaf'
  exact leaf'

/-- The kernel's pages all keep their frames exactly where the page is mapped again as it was. -/
theorem punmap_kernel_iff (run : punmap g fuel v s = some s') (wf : WellFormed s)
    (fresh : Fresh s (given g s.served s'.served))
    (known : ∀ t ∈ given g s.served s'.served, pagingWalkPage s t = t) :
    (∀ w, pagingWalkPage s' w = pagingWalkPage s w) ↔
      v = 0 ∨ pagingWalkPage s v = 0 ∨
        pagingIndexerAssign (pagingWalkPage s v) = pagingIndexerAssign v := by
  by_cases given₀ : v = 0
  · rw [punmap, if_pos given₀] at run
    cases run
    simp [given₀]
  obtain ⟨-, -, ids, perm, leaf⟩ := punmap_leaf run given₀ wf fresh
  set p := pagingWalkPage s v with def_p
  have value (w : Addr) : pagingWalkPage s w = pagingDescGetAddress
      (s.leaf (pagingIndexerAssign w)) :=
    walk_eq s w
  have own : pagingDescGetAddress p = p := by
    rw [def_p, value]
    exact getAddress_frame _
  have flags : ∀ u ∈ ids ++ [ident p], IsFlags u.flags := by
    intro u mem
    rcases List.mem_append.mp mem with mem | mem
    · exact ids_flags perm u mem
    · rw [List.mem_singleton.mp mem]
      exact isFlags_wide _
  have mapped (t : Addr) (ht : t ∈ given g s.served s'.served) :
      pagingDescGetAddress (s.leaf (pagingIndexerAssign t)) = t := (value t).symm.trans (known t ht)
  -- a frame taken has its own page mapped to it already
  have taken {u : Mapping} (mem : u ∈ ids) : u.phys ≠ 0 ∧
      pagingDescGetAddress u.phys = pagingDescGetAddress (s.leaf u.page) := by
    obtain ⟨t, ht, rfl⟩ := (mem_ids perm).mp mem
    refine ⟨(fresh.frame t ht).1, ?_⟩
    exact (fresh.frame t ht).2.trans (mapped t ht).symm
  constructor
  · intro same
    by_contra no
    rw [not_or, not_or] at no
    obtain ⟨-, some, off⟩ := no
    have stays := same v
    rw [walk_eq, leaf, foldl_apply_of_ne, Function.update_self, getAddress_zero] at stays
    · exact some stays.symm
    · intro u mem here
      rcases List.mem_append.mp mem with mem | mem
      · obtain ⟨t, ht, rfl⟩ := (mem_ids perm).mp mem
        have eq : p = t := by
          rw [def_p, value, ← here]
          exact mapped t ht
        exact off (eq ▸ here)
      · rw [List.mem_singleton.mp mem] at here
        exact off here
  · intro cond w
    rw [walk_eq, leaf, value w]
    by_cases here : pagingIndexerAssign w = pagingIndexerAssign v
    · have same : pagingDescGetAddress (s.leaf (pagingIndexerAssign w)) = p := by
        rw [here, def_p, value]
      rw [same]
      apply getAddress_foldl flags
      · rw [here, Function.update_self, getAddress_zero]
        exact zero_within _
      · intro u mem page
        rcases List.mem_append.mp mem with mem | mem
        · rw [(taken mem).2, page, same]
          exact Within.refl _
        · rw [List.mem_singleton.mp mem]
          show Within (pagingDescGetAddress p) p
          rw [own]
          exact Within.refl _
      · rcases cond with none | none | page
        · exact absurd none given₀
        · left
          rw [here, Function.update_self, getAddress_zero, none]
        · right
          exact ⟨ident p, List.mem_append_right _ (List.mem_singleton_self _),
            page.trans here.symm, own⟩
    · apply getAddress_foldl flags
      · rw [Function.update_of_ne here]
        exact Within.refl _
      · intro u mem page
        rcases List.mem_append.mp mem with mem | mem
        · rw [(taken mem).2, page]
          exact Within.refl _
        · rw [List.mem_singleton.mp mem] at page ⊢
          rcases cond with none | none | back
          · exact absurd none given₀
          · show Within (pagingDescGetAddress p) _
            rw [own, none]
            exact zero_within _
          · exact absurd (page.symm.trans back) here
      · left
        rw [Function.update_of_ne here]

/-- The tables of a task stay. -/
theorem punmap_stays (sp : Spaces s {s.pml4, c}) (other : c ≠ s.pml4)
    (run : punmap g fuel v s = some s')
    (un : Unused s {s.pml4, c} (given g s.served s'.served)) : Stays s s' c := by
  have kernel : s.pml4 ∈ ({s.pml4, c} : Set Addr) := Set.mem_insert _ _
  by_cases given₀ : v = 0
  · rw [punmap, if_pos given₀] at run
    cases run
    exact Stays.refl s c
  · exact (punmap_leaf run given₀ (sp.wf _ kernel) (un.fresh kernel)).2.1.stays sp un kernel
      (Set.mem_insert_of_mem _ rfl) other

/-- `punmap` takes no page from a task's own table, and the kernel's keeps its pages exactly
where the page is none, is not mapped or is the own page of its frame. -/
theorem punmap_undoes_iff (sp : Spaces s {s.pml4, c}) (other : c ≠ s.pml4)
    (run : punmap g fuel v s = some s')
    (un : Unused s {s.pml4, c} (given g s.served s'.served))
    (known : ∀ t ∈ given g s.served s'.served, pagingWalkPage s t = t) :
    (∀ w, pagingWalkPage (pagingLoadPml4 s' c) w = pagingWalkPage (pagingLoadPml4 s c) w) ∧
    (∀ fuel₀ virt s₀ s₁, pmap g fuel₀ c virt s₀ = some (v, s₁) →
      WellFormed (pagingLoadPml4 s₀ c) →
      Fresh (pagingLoadPml4 s₀ c) (given g s₀.served s₁.served) →
      pagingWalkPage (pagingLoadPml4 s c) v = pagingWalkPage (pagingLoadPml4 s₁ c) v →
      pagingWalkPage (pagingLoadPml4 s' c) v ≠ 0) ∧
    ((∀ w, pagingWalkPage s' w = pagingWalkPage s w) ↔
      v = 0 ∨ pagingWalkPage s v = 0 ∨
        pagingIndexerAssign (pagingWalkPage s v) = pagingIndexerAssign v) := by
  have kernel : s.pml4 ∈ ({s.pml4, c} : Set Addr) := Set.mem_insert _ _
  have wf : WellFormed s := sp.wf _ kernel
  have fresh : Fresh s (given g s.served s'.served) := un.fresh kernel
  have keeps (w : Addr) :
      pagingWalkPage (pagingLoadPml4 s' c) w = pagingWalkPage (pagingLoadPml4 s c) w := by
    rw [walk_eq, walk_eq, (punmap_stays sp other run un).leaf]
  refine ⟨keeps, fun fuel₀ virt s₀ s₁ got wf₀ fresh₀ still => ?_,
    punmap_kernel_iff run wf fresh known⟩
  rw [keeps, still]
  exact pmap_mapped got wf₀ fresh₀

end

/-! ### Two empty roots -/

/-- The root of a task on the machine. -/
def machineTask : Addr := 0x1000000

/-- The kernel and the task have trees apart. -/
theorem machine_spaces : Spaces machineRoot {0x1000, machineTask} :=
  .of_empty fun _ _ => ⟨fun _ => rfl⟩

/-- The frames are in none of them. -/
theorem machine_unused : Unused machineRoot {0x1000, machineTask} (given machineFrames 0 7) := by
  have each : ∀ k ∈ List.range' 0 7, (machineFrames k ≠ 0 ∧ IsFrame (machineFrames k)) ∧
      machineFrames k ≠ 0x1000 ∧ machineFrames k ≠ machineTask := by decide +kernel
  refine ⟨by decide +kernel, fun t mem => ?_, fun t mem r hr used => ?_⟩
  · obtain ⟨k, hk, rfl⟩ := List.mem_map.mp mem
    exact (each k hk).1
  · obtain ⟨k, hk, rfl⟩ := List.mem_map.mp mem
    have same := Empty.uses (r := r) (s := machineRoot) ⟨fun _ => rfl⟩ used
    rcases hr with rfl | rfl
    · exact (each k hk).2.1 same
    · exact (each k hk).2.2 same

/-- A page of the kernel is mapped, a page of the task, and the task gives it back. -/
theorem machine_punmap : ∃ s₁ s₂ s₃,
    pmap machineFrames 5 machineTask 0x8000 s₁ = some (0x8000, s₂) ∧
    punmap machineFrames 5 0x8000 s₂ = some s₃ ∧ s₂.pml4 = 0x1000 ∧
    WellFormed (pagingLoadPml4 s₁ machineTask) ∧
    Fresh (pagingLoadPml4 s₁ machineTask) (given machineFrames s₁.served s₂.served) ∧
    Spaces s₂ {s₂.pml4, machineTask} ∧ given machineFrames s₂.served s₃.served = [] := by
  have run : (((pagingMapPage machineFrames 5 machineRoot 0x8000 0x8000 3).bind fun r =>
      (pmap machineFrames 5 machineTask 0x8000 r.2).bind fun r' =>
        (punmap machineFrames 5 0x8000 r'.2).map fun s =>
          (r.2.served, r'.1, r'.2.served, s.served)) = some (3, 0x8000, 7, 7)) := by decide +kernel
  obtain ⟨⟨_, s₁⟩, run₁, rest⟩ := Option.bind_eq_some_iff.mp run
  obtain ⟨⟨a, s₂⟩, run₂, last⟩ := Option.bind_eq_some_iff.mp rest
  obtain ⟨s₃, run₃, eq⟩ := Option.map_eq_some_iff.mp last
  obtain ⟨served₁, rfl, served₂, served₃⟩ : s₁.served = 3 ∧ a = 0x8000 ∧ s₂.served = 7 ∧
      s₃.served = 7 := by simpa using eq
  have kernel : (0x1000 : Addr) ∈ ({0x1000, machineTask} : Set Addr) := Set.mem_insert _ _
  have task : machineTask ∈ ({0x1000, machineTask} : Set Addr) := Set.mem_insert_of_mem _ rfl
  have un := machine_unused
  rw [given_append (show 0 ≤ 3 by decide) (show 3 ≤ 7 by decide)] at un
  rw [← served₁] at un
  rw [← loadPml4_of_eq (show machineRoot.pml4 = 0x1000 from rfl)] at run₁
  obtain ⟨-, root₁, -, l₁, -⟩ := mapPage_local run₁ (machine_spaces.wf _ kernel)
    (un.left.fresh kernel)
  have sp₁ := l₁.spaces machine_spaces un.left kernel
  have un₁ := un.right l₁ machine_spaces kernel
  rw [← served₂] at un₁
  have fresh₂ := un₁.fresh task
  obtain ⟨lt, -, root₂, l₂, -⟩ := pmap_local run₂ (sp₁.wf _ task) fresh₂
  have later : Unused s₁ {0x1000, machineTask} (given machineFrames (s₁.served + 1) s₂.served) := by
    rw [given_succ lt] at un₁
    exact ⟨(List.nodup_cons.mp un₁.nodup).2, fun t mem => un₁.frame t (List.mem_cons_of_mem _ mem),
      fun t mem => un₁.unused t (List.mem_cons_of_mem _ mem)⟩
  have root : s₂.pml4 = 0x1000 := root₂.trans root₁
  refine ⟨s₁, s₂, s₃, run₂, run₃, root, sp₁.wf _ task, fresh₂, ?_, ?_⟩
  · rw [root]
    exact l₂.spaces sp₁ later task
  · rw [served₂, served₃, given_self]

/-- The task's pages are as they were. -/
theorem punmap_undoes_machine : ∃ s s', punmap machineFrames 5 0x8000 s = some s' ∧
    (∀ w, pagingWalkPage (pagingLoadPml4 s' machineTask) w =
      pagingWalkPage (pagingLoadPml4 s machineTask) w) := by
  obtain ⟨-, s, s', -, run, root, -, -, sp, none⟩ := machine_punmap
  refine ⟨s, s', run, (punmap_undoes_iff sp (by rw [root]; decide) run ?_ ?_).1⟩
  · rw [none]
    exact ⟨List.nodup_nil, by simp, by simp⟩
  · simp [none]

/-- The page is still there. -/
theorem punmap_not_always : ¬ ∀ (g : Nat → Addr) (fuel : Nat) (c virt v : Addr)
    (s₀ s s' : Paging.State), pmap g fuel c virt s₀ = some (v, s) → c ≠ s.pml4 →
    Spaces s {s.pml4, c} → punmap g fuel v s = some s' →
    Unused s {s.pml4, c} (given g s.served s'.served) →
    pagingWalkPage (pagingLoadPml4 s' c) v = 0 := by
  intro all
  obtain ⟨s₁, s, s', got, run, root, wf, fresh, sp, none⟩ := machine_punmap
  have un : Unused s {s.pml4, machineTask} (given machineFrames s.served s'.served) := by
    rw [none]
    exact ⟨List.nodup_nil, by simp, by simp⟩
  have other : machineTask ≠ s.pml4 := by
    rw [root]
    decide
  have gone := all _ _ _ _ _ _ _ _ got other sp run un
  rw [walk_eq, (punmap_stays sp other run un).leaf, ← walk_eq] at gone
  exact pmap_mapped got wf fresh gone

end Skylight.Calls
