import Skylight.Laws.Paging.Sequence

/-!
# The address space of a new task

Kernel image, segments, stacks, the context, the table itself and the gs page go into one
table, and so do the own pages of the tables below it. User addresses and the addresses of
frames are the same addresses there, and nothing looks for a page that is asked for twice.
What is asked for is there exactly where all that is mapped to its page agrees with it.

`taskNewPageTable_translates` is exact, page by page: what is asked for is there just when
nothing that is mapped over it brings a bit in, since descriptors are joined and not replaced.
It also says that only the segments and the stack are open to user code. `taskNewPageTable_some`
is the other half, that the construction ends. Frames are fresh in both; what happens without
them is in `Laws.Paging.Exhaustion`.
-/

namespace Skylight.Paging

/-- The pages of the kernel image. -/
def KernelImage.requests (image : KernelImage) : List Request :=
  (pagesBetween 0 image.length).map image.request

/-- The pages of the segments. -/
def segmentRequests (info : List ElfLoadedPage) : List Request :=
  info.flatMap fun segment => (pagesBetween 0 segment.length).map segment.request

/-- The pages of the user stack. -/
def stackRequests (task : NewTask) : List Request :=
  (pagesBetween (task.rsp - megabyte) task.rsp).map (.identity flagsUserPage)

/-- The table's own page and the gs page. -/
def lastRequests (table : Addr) (task : NewTask) : List Request :=
  [.identity flagsKernelPage table, .identity flagsKernelPage task.gsBase]

/-- What user code is to reach. -/
def userRequests (info : List ElfLoadedPage) (task : NewTask) : List Request :=
  segmentRequests info ++ stackRequests task

/-- Everything that is asked for, but the page of the context. -/
def requests (image : KernelImage) (ist : List Addr) (info : List ElfLoadedPage) (task : NewTask)
    (table : Addr) : List Request :=
  image.requests ++ userRequests info task ++ istPages ist ++ lastRequests table task

/-- The page of the context. -/
def NewTask.ctxPage (task : NewTask) : Addr := task.ctx &&& 0xfffffffffffff000

/-- All that is mapped: what is asked for, and the own pages of the tables below. -/
def mappings (rs : List Request) (frames : List Addr) : List Mapping :=
  frames.map ident ++ rs.map Request.mapping

/-- Nothing is mapped to the page of `r` that has a bit the frame of `r` has not. -/
def Undisturbed (ms : List Mapping) (r : Request) : Prop :=
  ∀ w ∈ ms, w.page = r.mapping.page →
    Within (pagingDescGetAddress w.phys) (pagingDescGetAddress r.phys)

/-- Nothing is mapped to the page of `r` with other flags. -/
def Unshadowed (ms : List Mapping) (ctxPage : Addr) (r : Request) : Prop :=
  r.mapping.page ≠ pagingIndexerAssign ctxPage ∧
    ∀ w ∈ ms, w.page = r.mapping.page → w.flags = r.mapping.flags

section
variable {g : Nat → Addr} {fuel : Nat} {image : KernelImage} {ist : List Addr}
  {info : List ElfLoadedPage} {task : NewTask} {s s' : State} {table a b : Addr}
  {request : Addr → Request} {L : PagingIndexer → Desc} {ids : List Addr}

/-- A loop over pages maps each of them, in order. -/
theorem mapPages_maps (run : mapPages g fuel s a b request = some s') :
    s.served ≤ s'.served ∧ (WellFormed s → Fresh s (given g s.served s'.served) →
      Maps g s s' (((pagesBetween a b).map request).map Request.mapping)) := by
  rw [mapPages] at run
  split at run
  · exact mapAll_maps run
  · cases run

/-- What a part of the construction does, for fresh frames. -/
def Part (g : Nat → Addr) (s s' : State) (rs : List Request) : Prop :=
  s.served ≤ s'.served ∧ (WellFormed s → Fresh s (given g s.served s'.served) →
    Maps g s s' (rs.map Request.mapping))

/-- Two parts one after the other. -/
theorem Part.trans {s₁ : State} {rs rs' : List Request} (h : Part g s s₁ rs)
    (h' : Part g s₁ s' rs') :
    Part g s s' (rs ++ rs') := by
  refine ⟨h.1.trans h'.1, fun wf fresh => ?_⟩
  have first := fresh
  rw [given_append h.1 h'.1] at first
  have m := h.2 wf first.left
  rw [List.map_append]
  exact m.trans (h'.2 m.wf (m.fresh h'.1 fresh))

/-- The segments, one after another. -/
theorem segments_part : ∀ {info : List ElfLoadedPage} {s s' : State},
    info.foldlM (fun s segment => mapPages g fuel s 0 segment.length segment.request) s = some s' →
      Part g s s' (segmentRequests info) := by
  intro info
  induction info with
  | nil =>
    intro s s' run
    cases run
    exact ⟨Nat.le_refl _, fun wf _ => Maps.refl wf⟩
  | cons segment info ih =>
    intro s s' run
    rw [List.foldlM_cons] at run
    obtain ⟨s₁, first, rest⟩ := Option.bind_eq_some_iff.mp run
    exact Part.trans (mapPages_maps first) (ih rest)

/-- A single page. -/
theorem mapPage_part {virt phys answer : Addr} {flags : BitVec 16}
    (run : pagingMapPage g fuel s virt phys flags = some (answer, s')) :
    Part g s s' [⟨virt, phys, flags⟩] := by
  obtain ⟨le, spec⟩ := mapPage_runs run
  exact ⟨le, fun wf fresh => (spec wf fresh).2.maps⟩

/-- The new table, empty, on its way to be filled. -/
def newRoot (g : Nat → Addr) (s : State) : State :=
  pagingLoadPml4 (({ s with served := s.served + 1 } : State).clearTable (g s.served)) (g s.served)

/-- The new table maps nothing. -/
theorem newRoot_empty : Empty (newRoot g s) := ⟨fun i => by simp [newRoot, pagingLoadPml4]⟩

/-- The parts of the construction, one after the other. -/
theorem taskNewPageTable_parts
    (run : taskNewPageTable g fuel image ist info task s = some (table, s')) :
    ∃ s₄ s₅ s₇, table = g s.served ∧ s' = pagingLoadPml4 s₇ s.pml4 ∧
      Part g (newRoot g s) s₄ (image.requests ++ userRequests info task ++ istPages ist) ∧
      Part g s₄ s₅ [⟨task.ctxPage, pagingWalkPage s₄ task.ctxPage, flagsKernelPage⟩] ∧
      Part g s₅ s₇ (lastRequests table task) := by
  rw [taskNewPageTable] at run
  obtain ⟨s₁, kernel, run⟩ := Option.bind_eq_some_iff.mp run
  obtain ⟨s₂, segments, run⟩ := Option.bind_eq_some_iff.mp run
  obtain ⟨s₃, stack, run⟩ := Option.bind_eq_some_iff.mp run
  obtain ⟨s₄, ists, run⟩ := Option.bind_eq_some_iff.mp run
  obtain ⟨⟨_, s₅⟩, ctx, run⟩ := Option.bind_eq_some_iff.mp run
  obtain ⟨⟨_, s₆⟩, own, run⟩ := Option.bind_eq_some_iff.mp run
  obtain ⟨⟨_, s₇⟩, gs, run⟩ := Option.bind_eq_some_iff.mp run
  cases run
  refine ⟨s₄, s₅, s₇, rfl, rfl, ?_, mapPage_part ctx, ?_⟩
  · have user : Part g s₁ s₃ (userRequests info task) :=
      (segments_part segments).trans (mapPages_maps stack)
    exact (Part.trans (mapPages_maps kernel) user).trans (mapAll_maps ists)
  · exact (mapPage_part own).trans (mapPage_part gs)

/-- Everything is mapped with flags and nothing else. -/
theorem mappings_flags {rs : List Request} {frames : List Addr} {w : Mapping}
    (mem : w ∈ mappings rs frames) : IsFlags w.flags := by
  rcases List.mem_append.mp mem with mem | mem
  · obtain ⟨t, -, rfl⟩ := List.mem_map.mp mem
    exact isFlags_wide _
  · obtain ⟨r, -, rfl⟩ := List.mem_map.mp mem
    exact r.mapping_flags

/-- The mapping of the context's page to `p`. -/
def ctxMapping (task : NewTask) (p : Addr) : Mapping :=
  ⟨pagingIndexerAssign task.ctxPage, p, wide flagsKernelPage⟩

/-- The new table. The context's page is mapped to what it was before. -/
theorem taskNewPageTable_extends
    (run : taskNewPageTable g fuel image ist info task s = some (table, s'))
    (fresh : Fresh (newRoot g s) (given g (s.served + 1) s'.served)) :
    ∃ (all : List Mapping) (p : Addr),
      Extends (newRoot g s) (pagingLoadPml4 s' table) (given g (s.served + 1) s'.served) all ∧
      (∀ w, w ∈ all ↔ w = ctxMapping task p ∨
        w ∈ mappings (requests image ist info task table) (given g (s.served + 1) s'.served)) ∧
      ∀ a, (∀ w ∈ mappings (requests image ist info task table) (given g (s.served + 1) s'.served),
        w.page = pagingIndexerAssign task.ctxPage → Within (pagingDescGetAddress w.phys) a) →
        Within (pagingDescGetAddress p) a := by
  obtain ⟨s₄, s₅, s₇, rfl, rfl, part₄, part₅, part₇⟩ := taskNewPageTable_parts run
  have le₄ : s.served + 1 ≤ s₄.served := part₄.1
  have le₇ : s₄.served ≤ s₇.served := part₅.1.trans part₇.1
  have fresh' : Fresh (newRoot g s) (given g (s.served + 1) s₇.served) := fresh
  have fresh₄ := fresh'
  rw [given_append le₄ le₇] at fresh₄
  have m₄ := part₄.2 newRoot_empty.wf fresh₄.left
  have fresh₅ := m₄.fresh le₇ fresh'
  have first₅ := fresh₅
  rw [given_append part₅.1 part₇.1] at first₅
  have m₅ := part₅.2 m₄.wf first₅.left
  have m₇ := part₇.2 m₅.wf (m₅.fresh part₇.1 fresh₅)
  obtain ⟨-, all₄, perm₄, e₄⟩ := m₄
  obtain ⟨-, all₅, perm₅, e₅⟩ := m₅
  obtain ⟨-, all₇, perm₇, e₇⟩ := m₇
  have e := (e₄.trans e₅).trans e₇
  have same : pagingLoadPml4 (pagingLoadPml4 s₇ s.pml4) (g s.served) = s₇ := by
    rw [pagingLoadPml4, pagingLoadPml4, show g s.served = s₇.pml4 from e.root.symm]
  have frames : given g (s.served + 1) s₇.served = given g (newRoot g s).served s₄.served ++
      given g s₄.served s₅.served ++ given g s₅.served s₇.served := by
    rw [← given_append part₄.1 part₅.1, ← given_append (part₄.1.trans part₅.1) part₇.1]
    rfl
  refine ⟨all₄ ++ all₅ ++ all₇, pagingWalkPage s₄ task.ctxPage, ?_, fun w => ?_, ?_⟩
  · rw [same, show given g (s.served + 1) (pagingLoadPml4 s₇ s.pml4).served = _ from frames]
    exact e
  · show _ ↔ _ ∨ w ∈ mappings _ (given g (s.served + 1) s₇.served)
    rw [frames, mappings, requests, List.map_append, List.map_append, List.map_append]
    simp only [List.mem_append, perm₄.mem_iff, perm₅.mem_iff, perm₇.mem_iff, List.map_cons,
      List.map_nil, List.mem_singleton]
    show _ ↔ w = ctxMapping task (pagingWalkPage s₄ task.ctxPage) ∨ _
    rw [show Request.mapping ⟨task.ctxPage, pagingWalkPage s₄ task.ctxPage, flagsKernelPage⟩ =
      ctxMapping task (pagingWalkPage s₄ task.ctxPage) from rfl]
    tauto
  · intro a h
    have known (w : Mapping) (mem : w ∈ all₄) :
        w ∈ mappings (requests image ist info task (g s.served))
          (given g (s.served + 1) s₇.served) := by
      rw [frames, mappings, requests, List.map_append, List.map_append, List.map_append]
      rw [perm₄.mem_iff] at mem
      simp only [List.mem_append] at mem ⊢
      tauto
    rw [walk_eq, show pagingDescGetAddress (pagingDescGetAddress _) = _ from getAddress_frame _,
      e₄.leaf]
    apply foldl_within fun w mem => mappings_flags (known w mem)
    · rw [newRoot_empty.leaf, getAddress_zero]
      exact zero_within a
    · exact fun w mem => h w (known w mem)

/-- No page of it has a descriptor. -/
theorem newRoot_leaf : (newRoot g s).leaf = fun _ => 0 := by
  ext1 x
  exact newRoot_empty.leaf x

/-- Frames that are different from each other and not at zero are fresh for it. -/
theorem frames_fresh (le : s.served < s'.served) (nodup : (given g s.served s'.served).Nodup)
    (frames : ∀ t ∈ given g s.served s'.served, t ≠ 0 ∧ IsFrame t) :
    Fresh (newRoot g s) (given g (s.served + 1) s'.served) := by
  rw [given_succ le] at nodup frames
  rw [List.nodup_cons] at nodup
  rw [List.forall_mem_cons] at frames
  exact newRoot_empty.fresh nodup.2 frames.2 nodup.1

/-- The flags of the user's pages, and of no others, have the user flag. -/
theorem flags_user (r : Request) (h : r ∈ userRequests info task) : r.flags = flagsUserPage := by
  rcases List.mem_append.mp h with h | h
  · obtain ⟨segment, -, h⟩ := List.mem_flatMap.mp h
    obtain ⟨j, -, rfl⟩ := List.mem_map.mp h
    rfl
  · obtain ⟨j, -, rfl⟩ := List.mem_map.mp h
    rfl

/-- A page is asked for by the user, or with the kernel's flags. -/
theorem user_or_kernel (r : Request) (h : r ∈ requests image ist info task table) :
    r ∈ userRequests info task ∨ r.flags = flagsKernelPage := by
  simp only [requests, List.mem_append] at h
  rcases h with ((h | h) | h) | h
  · obtain ⟨t, -, rfl⟩ := List.mem_map.mp h
    exact Or.inr rfl
  · exact Or.inl h
  · obtain ⟨top, -, h⟩ := List.mem_flatMap.mp h
    obtain ⟨i, -, rfl⟩ := List.mem_map.mp h
    exact Or.inr rfl
  · rcases List.mem_pair.mp h with rfl | rfl <;> exact Or.inr rfl

/-- A mapping that is not one of the user's pages has the kernel's flags. -/
theorem mapping_user_or_kernel {w : Mapping}
    (h : w ∈ mappings (requests image ist info task table) ids) :
    (∃ r ∈ userRequests info task, r.mapping = w) ∨ w.flags = wide flagsKernelPage := by
  rcases List.mem_append.mp h with h | h
  · obtain ⟨t, -, rfl⟩ := List.mem_map.mp h
    exact Or.inr rfl
  · obtain ⟨r, mem, rfl⟩ := List.mem_map.mp h
    rcases user_or_kernel r mem with user | kernel
    · exact Or.inl ⟨r, user, rfl⟩
    · exact Or.inr (congrArg wide kernel)

/-- What the user asks for is asked for. -/
theorem userRequests_asked {r : Request} (h : r ∈ userRequests info task) :
    r ∈ requests image ist info task table := by
  simp only [requests, List.mem_append]
  exact Or.inl (Or.inl (Or.inr h))

/-- What is asked for is mapped. -/
theorem requests_mapped {rs : List Request} {r : Request} (h : r ∈ rs) :
    r.mapping ∈ mappings rs ids :=
  List.mem_append_right _ (List.mem_map.mpr ⟨r, h, rfl⟩)

/-- Pages filled by the mappings `all`: those of `ms`, and the mapping `ctx` of a page to what
`ms` has put there. -/
structure Filled (pages : PagingIndexer → Desc) (ms : List Mapping) (ctx : Mapping)
    (all : List Mapping) : Prop where
  leaf : pages = all.foldl Mapping.apply fun _ => 0
  mem : ∀ w, w ∈ all ↔ w = ctx ∨ w ∈ ms
  flags : ∀ w ∈ all, IsFlags w.flags
  ctx : ∀ a, (∀ w ∈ ms, w.page = ctx.page → Within (pagingDescGetAddress w.phys) a) →
    Within (pagingDescGetAddress ctx.phys) a

/-- A page is on the frame asked for exactly where nothing else brings a bit in. -/
theorem Filled.address_iff {pages : PagingIndexer → Desc} {ms all : List Mapping} {ctx : Mapping}
    (h : Filled pages ms ctx all) {r : Request} (asked : r.mapping ∈ ms) :
    pagingDescGetAddress (pages r.mapping.page) = pagingDescGetAddress r.phys ↔
      Undisturbed ms r := by
  rw [h.leaf]
  constructor
  · intro same w hw here
    rw [← same]
    exact (within_foldl h.flags).2 w ((h.mem w).mpr (Or.inr hw)) here
  · intro clear
    apply Within.antisymm
    · apply foldl_within h.flags
      · rw [getAddress_zero]
        exact zero_within _
      · intro w hw here
        rcases (h.mem w).mp hw with rfl | hw
        · exact h.ctx _ fun w hw page => clear w hw (page.trans here)
        · exact clear w hw here
    · exact (within_foldl h.flags).2 r.mapping ((h.mem _).mpr (Or.inr asked)) rfl

/-- A page with the user flag was mapped with it. -/
theorem Filled.user {pages : PagingIndexer → Desc} {ms all : List Mapping} {ctx : Mapping}
    (h : Filled pages ms ctx all) (low : ctx.flags = wide flagsKernelPage) {x : PagingIndexer}
    (user : pagingDescGetFlag (pages x) flagUser = true) :
    ∃ w ∈ ms, w.page = x ∧ w.flags ≠ wide flagsKernelPage := by
  have kernel : pagingDescGetFlag (wide flagsKernelPage) flagUser = false := by decide
  rw [h.leaf, ← getFlag_flagsOf (by decide)] at user
  rcases flagsOf_foldl_apply (x := x) (L := fun _ => 0) h.flags with same | ⟨w, mem, page, same⟩
  · rw [same] at user
    cases user
  · rw [same] at user
    have high : w.flags ≠ wide flagsKernelPage := by
      intro low
      rw [low] at user
      exact absurd (kernel.symm.trans user) Bool.false_ne_true
    rcases (h.mem w).mp mem with rfl | mem
    · exact absurd low high
    · exact ⟨w, mem, page, high⟩

/-- A page has the flags asked for where nothing is mapped over it with others. -/
theorem Filled.flags_eq {pages : PagingIndexer → Desc} {ms all : List Mapping} {ctx : Mapping}
    (h : Filled pages ms ctx all) {r : Request} (asked : r.mapping ∈ ms)
    (off : r.mapping.page ≠ ctx.page)
    (clear : ∀ w ∈ ms, w.page = r.mapping.page → w.flags = r.mapping.flags) :
    flagsOf (pages r.mapping.page) = r.mapping.flags := by
  rw [h.leaf]
  apply flagsOf_foldl h.flags _ ⟨r.mapping, (h.mem _).mpr (Or.inr asked), rfl⟩
  intro w hw here
  rcases (h.mem w).mp hw with rfl | hw
  · exact absurd here.symm off
  · exact clear w hw here

/-- The new table is filled, and a tree. -/
theorem taskNewPageTable_filled
    (run : taskNewPageTable g fuel image ist info task s = some (table, s'))
    (nodup : (given g s.served s'.served).Nodup)
    (frames : ∀ t ∈ given g s.served s'.served, t ≠ 0 ∧ IsFrame t) :
    ∃ all p, Extends (newRoot g s) (pagingLoadPml4 s' table)
    (given g (s.served + 1) s'.served) all ∧
      Filled (pagingLoadPml4 s' table).leaf
        (mappings (requests image ist info task table) (given g (s.served + 1) s'.served))
        (ctxMapping task p) all := by
  obtain ⟨s₄, s₅, s₇, -, eq, part₄, part₅, part₇⟩ := taskNewPageTable_parts run
  have le : s.served < s'.served := by
    rw [eq]
    exact (part₄.1.trans part₅.1).trans part₇.1
  obtain ⟨all, p, e, iff, ctx⟩ := taskNewPageTable_extends run (frames_fresh le nodup frames)
  refine ⟨all, p, e, by rw [e.leaf, newRoot_leaf], iff, fun w hw => ?_, ctx⟩
  rcases (iff w).mp hw with rfl | hw
  · exact isFlags_wide _
  · exact mappings_flags hw

/-- Only the segments and the stack are the user's. -/
theorem Filled.userRequests {pages : PagingIndexer → Desc} {all : List Mapping} {p : Addr}
    (h : Filled pages (mappings (requests image ist info task table) ids) (ctxMapping task p) all)
    {x : PagingIndexer} (user : pagingDescGetFlag (pages x) flagUser = true) :
    ∃ r ∈ userRequests info task, r.mapping.page = x := by
  obtain ⟨w, mem, page, high⟩ := h.user rfl user
  rcases mapping_user_or_kernel mem with ⟨r, hr, rfl⟩ | low
  · exact ⟨r, hr, page⟩
  · exact absurd low high

/-- A page of the user's is open when nothing has its page with other flags. -/
theorem Filled.opens {pages : PagingIndexer → Desc} {all : List Mapping} {p : Addr}
    (h : Filled pages (mappings (requests image ist info task table) ids) (ctxMapping task p) all)
    {r : Request} (mem : r ∈ Paging.userRequests info task)
    (clear : Unshadowed (mappings (requests image ist info task table) ids) task.ctxPage r) :
    pagingDescGetFlag (pages r.mapping.page) flagUser = true := by
  have same := h.flags_eq (requests_mapped (userRequests_asked mem)) clear.1 clear.2
  rw [← getFlag_flagsOf (by decide), same, show r.mapping.flags = wide r.flags from rfl,
    flags_user r mem]
  decide

/-- The translations asked for hold exactly where nothing disturbs them. Only the segments and
the stack are the user's, and of these all that no other page is mapped over. -/
theorem taskNewPageTable_translates
    (run : taskNewPageTable g fuel image ist info task s = some (table, s'))
    (nodup : (given g s.served s'.served).Nodup)
    (frames : ∀ t ∈ given g s.served s'.served, t ≠ 0 ∧ IsFrame t) :
    let all := mappings (requests image ist info task table) (given g (s.served + 1) s'.served)
    (∀ r ∈ requests image ist info task table,
      pagingWalkPage (pagingLoadPml4 s' table) r.virt = pagingDescGetAddress r.phys ↔
        Undisturbed all r) ∧
    (∀ x, pagingDescGetFlag ((pagingLoadPml4 s' table).leaf x) flagUser = true →
      ∃ r ∈ userRequests info task, r.mapping.page = x) ∧
    ∀ r ∈ userRequests info task, Unshadowed all task.ctxPage r →
      pagingDescGetFlag ((pagingLoadPml4 s' table).leaf r.mapping.page) flagUser = true := by
  intro ms
  obtain ⟨all, p, -, filled⟩ := taskNewPageTable_filled run nodup frames
  refine ⟨fun r h => ?_, fun x user => filled.userRequests user,
    fun r h clear => filled.opens h clear⟩
  rw [walk_eq]
  exact filled.address_iff (requests_mapped h)

/-- The loops over the segments end, and as many frames are left as there were asked to be. -/
theorem Ample.segments {n : Nat} (h : Ample g fuel n s)
    (ends : ∀ segment ∈ info, Ends 0 segment.length) :
    ∃ s', info.foldlM (fun s segment => Paging.mapPages g fuel s 0 segment.length segment.request) s
      = some s' ∧ Ample g fuel n s' := by
  induction info generalizing s with
  | nil => exact ⟨s, rfl, h⟩
  | cons segment info ih =>
    rw [List.forall_mem_cons] at ends
    obtain ⟨s₁, run, ample⟩ := h.mapPages ends.1 segment.request
    obtain ⟨s', rest, last⟩ := ih ample ends.2
    refine ⟨s', ?_, last⟩
    rw [List.foldlM_cons, run]
    exact rest

/-- The construction ends when its loops do and there are frames for all the tables. The parts
follow the source's order, and each leaves as many frames as tables are lacking. -/
theorem taskNewPageTable_some {n : Nat} (ist : List Addr) (h : Ample g fuel n (newRoot g s))
    (kernel : Ends 0 image.length) (segments : ∀ segment ∈ info, Ends 0 segment.length)
    (stack : Ends (task.rsp - megabyte) task.rsp) :
    ∃ s', taskNewPageTable g fuel image ist info task s = some (g s.served, s') ∧
    s'.served ≤ n := by
  obtain ⟨s₁, run₁, h₁⟩ := h.mapPages kernel image.request
  obtain ⟨s₂, run₂, h₂⟩ := h₁.segments segments
  obtain ⟨s₃, run₃, h₃⟩ := h₂.mapPages stack (.identity flagsUserPage)
  obtain ⟨s₄, run₄, h₄⟩ := h₃.mapAll (istPages ist)
  obtain ⟨s₅, run₅, h₅⟩ := h₄.mapPage task.ctxPage (pagingWalkPage s₄ task.ctxPage) flagsKernelPage
  obtain ⟨s₆, run₆, h₆⟩ := h₅.mapPage (g s.served) (g s.served) flagsKernelPage
  obtain ⟨s₇, run₇, h₇⟩ := h₆.mapPage task.gsBase task.gsBase flagsKernelPage
  refine ⟨pagingLoadPml4 s₇ s.pml4, ?_, h₇.total ▸ Nat.le_add_right _ _⟩
  exact Option.bind_eq_some_iff.mpr ⟨s₁, run₁, Option.bind_eq_some_iff.mpr ⟨s₂, run₂,
    Option.bind_eq_some_iff.mpr ⟨s₃, run₃, Option.bind_eq_some_iff.mpr ⟨s₄, run₄,
    Option.bind_eq_some_iff.mpr ⟨_, run₅, Option.bind_eq_some_iff.mpr ⟨_, run₆,
    Option.bind_eq_some_iff.mpr ⟨_, run₇, rfl⟩⟩⟩⟩⟩⟩⟩

end

/-! ### A kernel, a program and its frames -/

/-- The bits of an address in a descriptor. -/
theorem testBit_address (i : Nat) (h : i < 64) :
    addressMask.getLsbD i = decide (12 ≤ i ∧ i < 52) := by
  have all : ∀ i : Fin 64, addressMask.getLsbD i = decide (12 ≤ i.val ∧ i.val < 52) := by decide
  exact all ⟨i, h⟩

/-- A multiple of the page size below `2 ^ 52` is the address of a frame. -/
theorem isFrame_of {a : Addr} {n : Nat} (value : a.toNat = 4096 * n) (lt : n < 2 ^ 40) :
    IsFrame a := by
  apply BitVec.eq_of_getLsbD_eq
  intro i hi
  rw [BitVec.getLsbD_and, testBit_address i hi]
  by_cases low : i < 12
  · have zero : a.getLsbD i = false := by
      rw [BitVec.getLsbD, value, show (4096 : Nat) = 2 ^ 12 from rfl, Nat.testBit_two_pow_mul]
      simp [Nat.not_le.mpr low]
    rw [zero, Bool.false_and]
  · by_cases high : i < 52
    · simp [Nat.le_of_not_lt low, high]
    · have zero : a.getLsbD i = false := by
        rw [BitVec.getLsbD]
        apply Nat.testBit_lt_two_pow
        calc a.toNat < 2 ^ 52 := by omega
          _ ≤ 2 ^ i := Nat.pow_le_pow_right (by decide) (Nat.le_of_not_lt high)
      rw [zero, Bool.false_and]

/-- The number of a page. -/
def PagingIndexer.number (x : PagingIndexer) : Nat :=
  2 ^ 27 * x.pml4.toNat + 2 ^ 18 * x.pml3.toNat + 2 ^ 9 * x.pml2.toNat + x.pml1.toNat

/-- The number of a page, from its address. -/
theorem number_assign (v : Addr) : (pagingIndexerAssign v).number = v.toNat / 4096 % 2 ^ 36 := by
  have low (x : Addr) : ((x &&& 0x1ff).setWidth 9).toNat = x.toNat % 2 ^ 9 := by
    rw [BitVec.toNat_setWidth, BitVec.toNat_and, show (0x1ff : Addr).toNat = 2 ^ 9 - 1 from rfl,
      Nat.and_two_pow_sub_one_eq_mod, Nat.mod_mod]
  simp only [PagingIndexer.number, pagingIndexerAssign, low, BitVec.toNat_ushiftRight,
    Nat.shiftRight_eq_div_pow]
  omega

/-- Every other frame from `0x1000000000` on. -/
def spaceFrames (k : Nat) : Addr := BitVec.ofNat 64 (4096 * (2 ^ 24 + 2 * k))

/-- The frames in numbers. -/
theorem spaceFrames_value {k : Nat} (h : k < 2 ^ 30) :
    (spaceFrames k).toNat = 4096 * (2 ^ 24 + 2 * k) := by
  rw [spaceFrames, BitVec.toNat_ofNat]
  omega

/-- The first half of them, which is enough for two trees of tables. -/
theorem spaceFrames_toNat {k : Nat} (h : k < 2 ^ 29) :
    (spaceFrames k).toNat = 4096 * (2 ^ 24 + 2 * k) := spaceFrames_value (by omega)

/-- Frames that do not repeat before the call number `n`. -/
structure Lasting (g : Nat → Addr) (n : Nat) : Prop where
  frame : ∀ k < n, g k ≠ 0 ∧ IsFrame (g k)
  once : ∀ k < n, ∀ l < n, g k = g l → k = l

/-- Frames that last are different, not at zero, and frames. -/
theorem Lasting.apart {g : Nat → Addr} {N m n : Nat} (h : Lasting g N) (le : n ≤ N) :
    (given g m n).Nodup ∧
      ∀ t ∈ given g m n, t ≠ 0 ∧ IsFrame t ∧ ∃ k < n, m ≤ k ∧ t = g k := by
  have range {k : Nat} (hk : k ∈ List.range' m (n - m)) : m ≤ k ∧ k < n := by
    have := List.mem_range'_1.mp hk
    omega
  constructor
  · refine List.Nodup.map_on (fun k hk l hl same => ?_) List.nodup_range'
    exact h.once k ((range hk).2.trans_le le) l ((range hl).2.trans_le le) same
  · intro t ht
    obtain ⟨k, hk, rfl⟩ := List.mem_map.mp ht
    obtain ⟨ge, lt⟩ := range hk
    obtain ⟨ne, frame⟩ := h.frame k (lt.trans_le le)
    exact ⟨ne, frame, k, lt, ge, rfl⟩

/-- Those before an earlier call. -/
theorem Lasting.before {g : Nat → Addr} {n N : Nat} (h : Lasting g N) (le : n ≤ N) :
    Lasting g n where
  frame k lt := h.frame k (lt.trans_le le)
  once k hk l hl := h.once k (hk.trans_le le) l (hl.trans_le le)

/-- They are enough for one more table, however many tables it takes. -/
theorem Lasting.ample {g : Nat → Addr} {N : Nat} {s : State} (h : Lasting g N)
    (room : s.served + 2 ^ 28 ≤ N) :
    Ample g (2 ^ 28) (s.served + 1 + (newRoot g s).lacking) (newRoot g s) where
  wf := newRoot_empty.wf
  supplied := by
    have less := lacking_lt (newRoot g s)
    have one : (newRoot g s).served = s.served + 1 := rfl
    obtain ⟨nodup, frames⟩ := h.apart (m := (newRoot g s).served)
      (n := (newRoot g s).served + (newRoot g s).lacking) (by omega)
    refine newRoot_empty.fresh nodup
      (fun t ht => ⟨(frames t ht).1, (frames t ht).2.1⟩) fun root => ?_
    obtain ⟨-, -, k, lt, le, eq⟩ := frames _ root
    have own : (newRoot g s).pml4 = g s.served := rfl
    have := h.once s.served (by omega) k (by omega) (own.symm.trans eq)
    omega
  deep := lacking_lt _
  total := rfl

/-- These frames last. -/
theorem spaceFrames_long : Lasting spaceFrames (2 ^ 30) where
  frame k lt := by
    have value := spaceFrames_value lt
    refine ⟨fun zero => ?_, isFrame_of value (by omega)⟩
    rw [zero, show (0 : Addr).toNat = 0 from rfl] at value
    omega
  once k hk l hl same := by
    have value := congrArg BitVec.toNat same
    rw [spaceFrames_value hk, spaceFrames_value hl] at value
    omega

/-- And so does the first half of them. -/
theorem spaceFrames_lasting : Lasting spaceFrames (2 ^ 29) := spaceFrames_long.before (by decide)

/-- So they are fresh wherever they are taken. -/
theorem spaceFrames_given {m n : Nat} (h : n ≤ 2 ^ 29) : (given spaceFrames m n).Nodup ∧
    ∀ t ∈ given spaceFrames m n, t ≠ 0 ∧ IsFrame t ∧ ∃ k < n, m ≤ k ∧ t = spaceFrames k :=
  spaceFrames_lasting.apart h

/-- A kernel image of two pages. -/
def programImage : KernelImage := ⟨0x200000, 0xffffffff80000000, 0xffffffff80202000⟩

/-- A program of one segment, which begins inside a page. -/
def programInfo : List ElfLoadedPage := [⟨0x400010, 0x800000, 0x1800⟩]

/-- One interrupt stack. -/
def programIst : List Addr := [0xb00000, 0, 0, 0, 0, 0, 0]

def programTask : NewTask := ⟨0xa00000, 0x7f0000000040, 0xd00000⟩

/-- What each page, by number, is mapped to. -/
def programLayout (n : Nat) : Addr × Desc :=
  if 0xffff80000 ≤ n then (BitVec.ofNat 64 (4096 * (n - 0xffff80000)), wide flagsKernelPage)
  else if 0x400 ≤ n ∧ n < 0x402 then (BitVec.ofNat 64 (4096 * (n + 0x400)), wide flagsUserPage)
  else (BitVec.ofNat 64 (4096 * n),
    if 0x900 ≤ n ∧ n < 0xa00 then wide flagsUserPage else wide flagsKernelPage)

/-- Mappings that follow a layout agree. -/
theorem agree_of_layout {ms : List Mapping} {F : Nat → Addr × Desc}
    (h : ∀ w ∈ ms, F w.page.number = (pagingDescGetAddress w.phys, w.flags)) {w w' : Mapping}
    (hw : w ∈ ms) (hw' : w' ∈ ms) (same : w.page = w'.page) :
    pagingDescGetAddress w.phys = pagingDescGetAddress w'.phys ∧ w.flags = w'.flags := by
  have eq := (h w hw).symm.trans ((congrArg (fun x => F x.number) same).trans (h w' hw'))
  exact Prod.ext_iff.mp eq

/-- A page that is mapped to itself, by its number. -/
theorem identity_page {v : Addr} {n : Nat} (value : v.toNat = 4096 * n) (low : n < 2 ^ 36) :
    (pagingIndexerAssign v).number = n ∧ pagingDescGetAddress v = BitVec.ofNat 64 (4096 * n) := by
  have own : pagingDescGetAddress v = v := isFrame_of value (by omega)
  refine ⟨by rw [number_assign, value]; omega, own.trans ?_⟩
  apply BitVec.eq_of_toNat_eq
  rw [value, BitVec.toNat_ofNat]
  omega

/-- It follows the layout outside the kernel image and the segment. -/
theorem programLayout_identity {v : Addr} {n : Nat} (value : v.toNat = 4096 * n)
    (low : n < 0xffff80000) (off : n < 0x400 ∨ 0x402 ≤ n) :
    programLayout (pagingIndexerAssign v).number = (pagingDescGetAddress v,
      if 0x900 ≤ n ∧ n < 0xa00 then wide flagsUserPage else wide flagsKernelPage) := by
  obtain ⟨number, address⟩ := identity_page value (by omega)
  rw [number, programLayout, if_neg (by omega), if_neg (by omega), address]

/-- A page of a loop is reached after some rounds. -/
theorem mem_pagesBetween {a b x : Addr} (h : x ∈ pagesBetween a b) :
    ∃ i < rounds a b, x = a + BitVec.ofNat 64 (0x1000 * i) := by
  obtain ⟨i, mem, rfl⟩ := List.mem_map.mp h
  exact ⟨i, List.mem_range.mp mem, rfl⟩

/-- The program's own requests. -/
theorem program_requests_layout :
    ∀ r ∈ requests programImage programIst programInfo programTask (spaceFrames 0),
      programLayout r.mapping.page.number = (pagingDescGetAddress r.phys, r.mapping.flags) := by
  have identity (flags : BitVec 16) {v : Addr} {n : Nat} (value : v.toNat = 4096 * n)
      (low : n < 0xffff80000) (off : n < 0x400 ∨ 0x402 ≤ n)
      (same : (if 0x900 ≤ n ∧ n < 0xa00 then wide flagsUserPage else wide flagsKernelPage) =
        wide flags) : programLayout (Request.identity flags v).mapping.page.number =
          (pagingDescGetAddress v, wide flags) := by
    rw [← same]
    exact programLayout_identity value low off
  have kernel : ∀ r ∈ programImage.requests,
      programLayout r.mapping.page.number = (pagingDescGetAddress r.phys, r.mapping.flags) := by
    decide
  have segment : ∀ r ∈ segmentRequests programInfo,
      programLayout r.mapping.page.number = (pagingDescGetAddress r.phys, r.mapping.flags) := by
    decide
  intro r h
  simp only [requests, userRequests, List.mem_append] at h
  rcases h with ((h | h | h) | h) | h
  · exact kernel r h
  · exact segment r h
  · obtain ⟨x, mem, rfl⟩ := List.mem_map.mp h
    obtain ⟨i, lt, rfl⟩ := mem_pagesBetween mem
    have few : i < 256 := lt
    apply identity flagsUserPage (n := 0x900 + i) _ (by omega) (by omega) (if_pos (by omega))
    show ((0x900000#64) + BitVec.ofNat 64 (0x1000 * i)).toNat = _
    rw [BitVec.toNat_add, BitVec.toNat_ofNat, BitVec.toNat_ofNat]
    omega
  · obtain ⟨top, mem, h⟩ := List.mem_flatMap.mp h
    obtain ⟨i, few, rfl⟩ := List.mem_map.mp h
    rw [List.mem_range] at few
    rw [show top = 0xb00000 from List.mem_singleton.mp mem]
    apply identity flagsKernelPage (n := 0xb00 - i) _ (by omega) (by omega) (if_neg (by omega))
    rw [BitVec.toNat_sub_of_le, BitVec.toNat_ofNat]
    · show 0xb00000 - _ = _
      omega
    · rw [BitVec.le_def, BitVec.toNat_ofNat]
      show _ ≤ 0xb00000
      omega
  · rcases List.mem_pair.mp h with rfl | rfl
    · exact identity flagsKernelPage (spaceFrames_toNat (by decide)) (by decide) (by decide) rfl
    · exact identity flagsKernelPage (n := 0xd00) rfl (by decide) (by decide) rfl

/-- All that is mapped for the program is mapped by its layout. -/
theorem program_layout {n : Nat} (le : n ≤ 2 ^ 29) :
    ∀ w ∈ mappings (requests programImage programIst programInfo programTask (spaceFrames 0))
      (given spaceFrames 1 n),
      programLayout w.page.number = (pagingDescGetAddress w.phys, w.flags) := by
  intro w h
  rcases List.mem_append.mp h with h | h
  · obtain ⟨t, mem, rfl⟩ := List.mem_map.mp h
    obtain ⟨-, -, k, lt, -, rfl⟩ := (spaceFrames_given le).2 t mem
    have lt : k < 2 ^ 29 := Nat.lt_of_lt_of_le lt le
    rw [show (ident (spaceFrames k)).page = pagingIndexerAssign (spaceFrames k) from rfl,
      programLayout_identity (spaceFrames_toNat lt) (by omega) (by omega), if_neg (by omega)]
    rfl
  · obtain ⟨r, mem, rfl⟩ := List.mem_map.mp h
    exact program_requests_layout r mem

/-- No page of the program is asked for twice. -/
theorem program_undisturbed {n : Nat} (le : n ≤ 2 ^ 28) {r : Request}
    (h : r ∈ requests programImage programIst programInfo programTask (spaceFrames 0)) :
    Undisturbed (mappings (requests programImage programIst programInfo programTask (spaceFrames 0))
      (given spaceFrames 1 n)) r := by
  intro w hw here
  rw [(agree_of_layout (program_layout (show n ≤ 2 ^ 29 by omega)) hw (requests_mapped h) here).1]
  exact Within.refl _

/-- The table is made for any segments and stack whose loops end, from frames that last. -/
theorem Lasting.run {g : Nat → Addr} {N : Nat} {s : State} (h : Lasting g N)
    (room : s.served + 2 ^ 28 ≤ N) {info : List ElfLoadedPage} {task : NewTask}
    (ends : ∀ segment ∈ info, Ends 0 segment.length)
    (stack : Ends (task.rsp - megabyte) task.rsp) :
    ∃ s', taskNewPageTable g (2 ^ 28) programImage programIst info task s =
        some (g s.served, s') ∧ s'.served ≤ s.served + 2 ^ 28 ∧
      (given g s.served s'.served).Nodup ∧
      ∀ t ∈ given g s.served s'.served, t ≠ 0 ∧ IsFrame t := by
  obtain ⟨s', run, le⟩ := taskNewPageTable_some programIst (h.ample room)
    (show Ends 0 programImage.length by decide) ends stack
  have few : s'.served ≤ s.served + 2 ^ 28 := by
    have := lacking_lt (newRoot g s)
    omega
  obtain ⟨nodup, frames⟩ := h.apart (m := s.served) (few.trans room)
  exact ⟨s', run, few, nodup, fun t ht => ⟨(frames t ht).1, (frames t ht).2.1⟩⟩

/-- The table of the program is made, from any frames that last. -/
theorem program_run {g : Nat → Addr} (lasting : Lasting g (2 ^ 29)) : ∃ s',
    taskNewPageTable g (2 ^ 28) programImage programIst programInfo programTask machineRoot =
        some (g 0, s') ∧ s'.served ≤ 2 ^ 28 ∧
      (given g machineRoot.served s'.served).Nodup ∧
      ∀ t ∈ given g machineRoot.served s'.served, t ≠ 0 ∧ IsFrame t :=
  lasting.run (s := machineRoot) (by decide)
    (show ∀ segment ∈ programInfo, Ends 0 segment.length by decide)
    (show Ends (programTask.rsp - megabyte) programTask.rsp by decide)

/-- For this program and these frames nothing is disturbed. -/
theorem taskNewPageTable_translates_program : ∃ s',
    taskNewPageTable spaceFrames (2 ^ 28) programImage programIst programInfo programTask
    machineRoot =
      some (spaceFrames 0, s') ∧
    (∀ r ∈ requests programImage programIst programInfo programTask (spaceFrames 0),
      pagingWalkPage (pagingLoadPml4 s' (spaceFrames 0)) r.virt = pagingDescGetAddress r.phys) ∧
    ∀ x, pagingDescGetFlag ((pagingLoadPml4 s' (spaceFrames 0)).leaf x) flagUser = true ↔
      ∃ r ∈ userRequests programInfo programTask, r.mapping.page = x := by
  obtain ⟨s', run, few, nodup, frames⟩ := program_run spaceFrames_lasting
  obtain ⟨there, only, user⟩ := taskNewPageTable_translates run nodup frames
  have layout := program_layout (show s'.served ≤ 2 ^ 29 by omega)
  refine ⟨s', run, fun r h => (there r h).mpr (program_undisturbed few h), fun x => ⟨only x, ?_⟩⟩
  · rintro ⟨r, h, here⟩
    have mem : r ∈ requests programImage programIst programInfo programTask (spaceFrames 0) :=
      userRequests_asked h
    rw [← here]
    apply user r h
    constructor
    · intro ctx
      have follows := program_requests_layout r mem
      rw [ctx] at follows
      rw [show r.mapping.flags = wide r.flags from rfl, flags_user r h] at follows
      have kernel : (programLayout (pagingIndexerAssign programTask.ctxPage).number).2 ≠
          wide flagsUserPage := by decide
      exact kernel (Prod.ext_iff.mp follows).2
    · exact fun w hw here => (agree_of_layout layout hw (requests_mapped mem) here).2

/-- A frame for a table at the physical address that the program's segment has for a virtual one. -/
def segmentFrames (k : Nat) : Addr := if k = 1 then 0x400000 else spaceFrames k

/-- These frames last as well. -/
theorem segmentFrames_lasting : Lasting segmentFrames (2 ^ 29) where
  frame k lt := by
    rw [segmentFrames]
    split
    · decide
    · exact spaceFrames_lasting.frame k lt
  once k hk l hl same := by
    have apart {i : Nat} (lt : i < 2 ^ 29) : (0x400000 : Addr) ≠ spaceFrames i := by
      intro eq
      have value := congrArg BitVec.toNat eq
      rw [spaceFrames_toNat lt, show (0x400000 : Addr).toNat = 0x400000 from rfl] at value
      omega
    simp only [segmentFrames] at same
    split_ifs at same with one one'
    · rw [one, one']
    · exact absurd same (apart hl)
    · exact absurd same.symm (apart hk)
    · exact spaceFrames_lasting.once k hk l hl same

/-- A table that is filled at all has taken a frame for a table below the root. -/
theorem Extends.took {ids : List Addr} {all : List Mapping} {w : Mapping}
    (e : Extends (newRoot g s) s' ids all) (mem : w ∈ all) : ids ≠ [] := by
  obtain ⟨t, there, -⟩ := e.covers w mem [w.page.pml4] w.page.pml3 [w.page.pml2] rfl
  rcases e.news [w.page.pml4] t (by simp) there with old | ⟨-, taken⟩
  · rw [newRoot_empty.childless.follow _ (List.cons_ne_nil _ _)] at old
    cases old
  · exact List.ne_nil_of_mem taken

/-- The requests agree with each other, the frames are all different, and yet the segment's first
page is not where it is asked for: it is also the page of a frame that became a table. -/
theorem taskNewPageTable_not_always : ∃ s',
    taskNewPageTable segmentFrames (2 ^ 28) programImage programIst programInfo programTask
        machineRoot = some (segmentFrames 0, s') ∧
      (given segmentFrames machineRoot.served s'.served).Nodup ∧
      (∀ t ∈ given segmentFrames machineRoot.served s'.served, t ≠ 0 ∧ IsFrame t) ∧
      (∀ r ∈ requests programImage programIst programInfo programTask (segmentFrames 0),
        ∀ r' ∈ requests programImage programIst programInfo programTask (segmentFrames 0),
          r.mapping.page = r'.mapping.page →
            pagingDescGetAddress r.phys = pagingDescGetAddress r'.phys) ∧
      ⟨0x400000, 0x800000, flagsUserPage⟩ ∈
        requests programImage programIst programInfo programTask (segmentFrames 0) ∧
      pagingWalkPage (pagingLoadPml4 s' (segmentFrames 0)) 0x400000 ≠ 0x800000 := by
  obtain ⟨s', run, -, nodup, frames⟩ := program_run segmentFrames_lasting
  have asked : (⟨0x400000, 0x800000, flagsUserPage⟩ : Request) ∈
      requests programImage programIst programInfo programTask (segmentFrames 0) :=
    userRequests_asked (List.mem_append_left _ (by decide))
  refine ⟨s', run, nodup, frames, fun r hr r' hr' page => ?_, asked, ?_⟩
  · have first := program_requests_layout r hr
    rw [page, program_requests_layout r' hr'] at first
    exact (Prod.ext_iff.mp first).1.symm
  · obtain ⟨all, p, e, filled⟩ := taskNewPageTable_filled run nodup frames
    have took := e.took ((filled.mem _).mpr (Or.inl rfl))
    have table : (0x400000 : Addr) ∈ given segmentFrames 1 s'.served := by
      have lt : 1 < s'.served := by
        by_contra le
        exact took (by rw [show machineRoot.served + 1 = 1 from rfl, given,
          Nat.sub_eq_zero_of_le (Nat.le_of_not_lt le)]; rfl)
      rw [given_succ lt]
      exact List.mem_cons_self ..
    rw [walk_eq]
    intro there
    have clear := (filled.address_iff (requests_mapped asked)).mp there
    have within := clear (ident 0x400000)
      (List.mem_append_left _ (List.mem_map.mpr ⟨_, table, rfl⟩)) rfl
    exact absurd within (by unfold Within; decide)

end Skylight.Paging
