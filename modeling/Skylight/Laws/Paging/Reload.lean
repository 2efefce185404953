import Skylight.Laws.Paging.Spaces
import Skylight.Laws.Proc.AddressSpace
import Skylight.Mem.Paging.Reload

/-!
# The kernel's address space after a reload

Every page of memory goes into the new table twice, at its own address and in the higher half,
and the tables' own pages go in again when they are made. Two of these mappings of one page
are the same mapping, so each page is where it was asked for.

`reload_maps` says what is in the new table and that there is nothing else in it; `reload_some`
that the reload ends, with frames for all the tables. The map is of whole pages below the upper
half, and the image lies apart from both places of memory. Between the new table and the load of
`cr3` the kernel runs under the old one, which is not part of this.
-/

namespace Skylight.Paging

/-- The calls for the entries of the memory map. -/
def entryRequests (memoryMap : List MemoryMapEntry) : List Request :=
  memoryMap.flatMap fun e =>
    if e.signal ≠ memoryMapNouse then (entryPages e).flatMap pageRequests else []

/-- The address of the image's first page. -/
def KernelImage.virtual (image : KernelImage) : Addr := image.physical + image.virtualOffset

/-- The addresses the processor takes: the upper bits all repeat the bit 47. -/
def Canonical (v : Addr) : Prop := v.toNat < 2 ^ 47 ∨ 2 ^ 64 - 2 ^ 47 ≤ v.toNat

instance (v : Addr) : Decidable (Canonical v) := inferInstanceAs (Decidable (_ ∨ _))

/-- A memory map of whole pages, below the upper half. -/
def PageMap (memoryMap : List MemoryMapEntry) : Prop :=
  ∀ e ∈ memoryMap, e.base % 4096 = 0 ∧ e.base + e.length < 2 ^ 47

/-- An image of whole pages, apart from what the map's entries are mapped to. -/
structure KernelImage.Placed (image : KernelImage) (memoryMap : List MemoryMapEntry) : Prop where
  aligned : image.virtual.toNat % 4096 = 0
  frame : ∀ t ∈ pagesBetween 0 image.length, IsFrame (image.physical + t)
  canonical : ∀ t ∈ pagesBetween 0 image.length, Canonical (image.virtual + t)
  apart : ∀ t ∈ pagesBetween 0 image.length, ∀ e ∈ memoryMap, e.signal ≠ memoryMapNouse →
    ∀ p ∈ entryPages e, image.virtual + t ≠ p ∧ image.virtual + t ≠ p + pagingVirtualOffset

/-- The space that is asked for. `frames` are those of its tables. -/
structure KernelSpace (memoryMap : List MemoryMapEntry) (image : KernelImage) (frames : List Addr)
    (s : State) : Prop where
  identity : ∀ e ∈ memoryMap, e.signal ≠ memoryMapNouse → ∀ t ∈ entryPages e,
    pagingWalkPage s t = t
  upper : ∀ e ∈ memoryMap, e.signal ≠ memoryMapNouse → ∀ t ∈ entryPages e,
    pagingWalkPage s (t + pagingVirtualOffset) = t
  kernel : ∀ t ∈ pagesBetween 0 image.length,
    pagingWalkPage s (image.virtual + t) = image.physical + t
  tables : ∀ t ∈ frames, pagingWalkPage s t = t
  rest : ∀ x, (∀ e ∈ memoryMap, e.signal ≠ memoryMapNouse → ∀ t ∈ entryPages e,
      pagingIndexerAssign t ≠ x ∧ pagingIndexerAssign (t + pagingVirtualOffset) ≠ x) →
    (∀ t ∈ pagesBetween 0 image.length, pagingIndexerAssign (image.virtual + t) ≠ x) →
    s.leaf x = 0

section
variable {g : Nat → Addr} {fuel : Nat} {memoryMap : List MemoryMapEntry} {image : KernelImage}
  {s s' : State} {cr3 t v w : Addr} {e : MemoryMapEntry} {frames : List Addr}

/-- One entry of the map. -/
theorem reloadEntry_part (run : reloadEntry g fuel s e = some s') :
    Part g s s' (if e.signal ≠ memoryMapNouse then (entryPages e).flatMap pageRequests
    else []) := by
  rw [reloadEntry] at run
  split at run
  · next used =>
    rw [if_pos used]
    split at run
    · exact mapAll_maps run
    · cases run
  · next unused =>
    rw [if_neg unused]
    cases run
    exact ⟨Nat.le_refl _, fun wf _ => Maps.refl wf⟩

/-- All of them. -/
theorem entries_part : ∀ {memoryMap : List MemoryMapEntry} {s s' : State},
    memoryMap.foldlM (reloadEntry g fuel) s = some s' →
      Part g s s' (entryRequests memoryMap) := by
  intro memoryMap
  induction memoryMap with
  | nil =>
    intro s s' run
    cases run
    exact ⟨Nat.le_refl _, fun wf _ => Maps.refl wf⟩
  | cons e memoryMap ih =>
    intro s s' run
    rw [List.foldlM_cons] at run
    obtain ⟨s₁, first, rest⟩ := Option.bind_eq_some_iff.mp run
    exact Part.trans (reloadEntry_part first) (ih rest)

/-- The two loops, from the new table on. -/
theorem reload_part (run : pagingReloadKernelMap g fuel memoryMap image s = some (cr3, s')) :
    cr3 = pagingWalkPage s' s'.pml4 ∧
      Part g (newRoot g s) s' (entryRequests memoryMap ++ image.requests) := by
  rw [pagingReloadKernelMap] at run
  obtain ⟨s₁, entries, run⟩ := Option.bind_eq_some_iff.mp run
  obtain ⟨s₂, kernel, run⟩ := Option.bind_eq_some_iff.mp run
  cases run
  exact ⟨rfl, Part.trans (s := newRoot g s) (entries_part entries) (mapPages_maps kernel)⟩

/-! ### Which page an address is on -/

/-- The second place of a page, in numbers. -/
theorem toNat_upper (low : v.toNat < 2 ^ 47) :
    (v + pagingVirtualOffset).toNat = v.toNat + (2 ^ 64 - 2 ^ 47) := by
  rw [BitVec.toNat_add, show pagingVirtualOffset.toNat = 2 ^ 64 - 2 ^ 47 from rfl]
  omega

/-- The page of an address in the lower half. -/
theorem number_low (low : v.toNat < 2 ^ 47) :
    (pagingIndexerAssign v).number = v.toNat / 4096 := by
  rw [number_assign]
  omega

/-- The page of its second place. -/
theorem number_upper (low : v.toNat < 2 ^ 47) :
    (pagingIndexerAssign (v + pagingVirtualOffset)).number = 2 ^ 35 + v.toNat / 4096 := by
  rw [number_assign, toNat_upper low]
  omega

/-- Addresses of whole pages on one page are one address. -/
theorem eq_of_page (hv : Canonical v) (hw : Canonical w) (av : v.toNat % 4096 = 0)
    (aw : w.toNat % 4096 = 0) (same : pagingIndexerAssign v = pagingIndexerAssign w) : v = w := by
  have number := congrArg PagingIndexer.number same
  rw [number_assign, number_assign] at number
  apply BitVec.eq_of_toNat_eq
  have := v.isLt
  have := w.isLt
  rcases hv with hv | hv <;> rcases hw with hw | hw <;> omega

/-- An entry of whole pages does not wrap. -/
theorem entry_bounds (small : e.base + e.length < 2 ^ 47) :
    (BitVec.ofNat 64 e.base).toNat = e.base ∧
      (BitVec.ofNat 64 e.base + BitVec.ofNat 64 e.length).toNat = e.base + e.length := by
  rw [BitVec.toNat_add, BitVec.toNat_ofNat, BitVec.toNat_ofNat]
  omega

/-- The pages of an entry are the whole pages that begin in it. -/
theorem mem_entryPages (small : e.base + e.length < 2 ^ 47) (aligned : e.base % 4096 = 0) :
    t ∈ entryPages e ↔
      t.toNat % 4096 = 0 ∧ e.base ≤ t.toNat ∧ t.toNat < e.base + e.length := by
  obtain ⟨start, stop⟩ := entry_bounds small
  constructor
  · intro mem
    obtain ⟨i, lt, rfl⟩ := mem_pagesBetween mem
    rw [rounds, start, stop] at lt
    rw [BitVec.toNat_add, start, BitVec.toNat_ofNat]
    omega
  · rintro ⟨page, ge, lt⟩
    apply List.mem_map.mpr
    refine ⟨(t.toNat - e.base) / 4096, List.mem_range.mpr ?_, ?_⟩
    · rw [rounds, start, stop]
      omega
    · apply BitVec.eq_of_toNat_eq
      rw [BitVec.toNat_add, start, BitVec.toNat_ofNat]
      omega

/-- Its loop ends. -/
theorem entry_ends (small : e.base + e.length < 2 ^ 47) :
    Ends (BitVec.ofNat 64 e.base) (BitVec.ofNat 64 e.base + BitVec.ofNat 64 e.length) := by
  obtain ⟨start, stop⟩ := entry_bounds small
  rw [Ends, rounds, start, stop]
  omega

/-! ### What is mapped -/

/-- A page of an entry that is used. -/
def Usable (memoryMap : List MemoryMapEntry) (t : Addr) : Prop :=
  ∃ e ∈ memoryMap, e.signal ≠ memoryMapNouse ∧ t ∈ entryPages e

/-- A page of memory at one of its two places. -/
def OfMemory (memoryMap : List MemoryMapEntry) (w : Mapping) : Prop :=
  ∃ t, Usable memoryMap t ∧ w.phys = t ∧
    (w.page = pagingIndexerAssign t ∨ w.page = pagingIndexerAssign (t + pagingVirtualOffset))

/-- A page of the image. -/
def OfImage (image : KernelImage) (w : Mapping) : Prop :=
  ∃ t ∈ pagesBetween 0 image.length, w.phys = image.physical + t ∧
    w.page = pagingIndexerAssign (image.virtual + t)

/-- What is asked for is a page of memory at one of its two places. -/
theorem mem_entryRequests {r : Request} : r ∈ entryRequests memoryMap ↔
    ∃ t, Usable memoryMap t ∧ r ∈ pageRequests t := by
  rw [entryRequests, List.mem_flatMap]
  constructor
  · rintro ⟨e, he, mem⟩
    split at mem
    · next used =>
      obtain ⟨t, ht, mem⟩ := List.mem_flatMap.mp mem
      exact ⟨t, ⟨e, he, used, ht⟩, mem⟩
    · cases mem
  · rintro ⟨t, ⟨e, he, used, ht⟩, mem⟩
    refine ⟨e, he, ?_⟩
    rw [if_pos used]
    exact List.mem_flatMap.mpr ⟨t, ht, mem⟩

/-- There is nothing in the table but memory and the image. -/
theorem mapping_cases {w : Mapping} (usable : ∀ t ∈ frames, Usable memoryMap t)
    (mem : w ∈ mappings (entryRequests memoryMap ++ image.requests) frames) :
    OfMemory memoryMap w ∨ OfImage image w := by
  rcases List.mem_append.mp mem with mem | mem
  · obtain ⟨t, ht, rfl⟩ := List.mem_map.mp mem
    exact Or.inl ⟨t, usable t ht, rfl, Or.inl rfl⟩
  · obtain ⟨r, asked, rfl⟩ := List.mem_map.mp mem
    rcases List.mem_append.mp asked with mem | mem
    · obtain ⟨t, ht, mem⟩ := mem_entryRequests.mp mem
      rcases List.mem_pair.mp mem with rfl | rfl
      · exact Or.inl ⟨t, ht, rfl, Or.inl rfl⟩
      · exact Or.inl ⟨t, ht, rfl, Or.inr rfl⟩
    · obtain ⟨t, ht, rfl⟩ := List.mem_map.mp mem
      exact Or.inr ⟨t, ht, rfl, rfl⟩

/-- Memory is in the lower half. -/
theorem Usable.low (whole : PageMap memoryMap) (h : Usable memoryMap t) :
    t.toNat < 2 ^ 47 ∧ t.toNat % 4096 = 0 := by
  obtain ⟨e, he, -, ht⟩ := h
  obtain ⟨aligned, small⟩ := whole e he
  obtain ⟨page, -, lt⟩ := (mem_entryPages small aligned).mp ht
  exact ⟨Nat.lt_trans lt small, page⟩

/-- And made of frames. -/
theorem Usable.isFrame (whole : PageMap memoryMap) (h : Usable memoryMap t) : IsFrame t := by
  obtain ⟨low, page⟩ := h.low whole
  apply isFrame_of (n := t.toNat / 4096)
  · omega
  · omega

/-- The page of memory behind either place is told by the place. -/
theorem OfMemory.phys (whole : PageMap memoryMap) {w : Mapping} (h : OfMemory memoryMap w) :
    w.phys.toNat = 4096 * (w.page.number % 2 ^ 35) := by
  obtain ⟨t, usable, rfl, place⟩ := h
  obtain ⟨low, page⟩ := usable.low whole
  rcases place with here | here
  · rw [here, number_low low]
    omega
  · rw [here, number_upper low]
    omega

/-- The first place is an address the processor takes. -/
theorem canonical_low (low : v.toNat < 2 ^ 47) : Canonical v := Or.inl low

/-- And so is the second. -/
theorem canonical_upper (low : v.toNat < 2 ^ 47) : Canonical (v + pagingVirtualOffset) := by
  right
  rw [toNat_upper low]
  omega

/-- The image is made of whole pages. -/
theorem image_page {t : Addr} (placed : image.Placed memoryMap)
    (ht : t ∈ pagesBetween 0 image.length) : (image.virtual + t).toNat % 4096 = 0 := by
  obtain ⟨i, -, rfl⟩ := mem_pagesBetween ht
  have aligned := placed.aligned
  rw [show (0 : Addr) + BitVec.ofNat 64 (4096 * i) = _ from BitVec.zero_add _, BitVec.toNat_add,
    BitVec.toNat_ofNat]
  omega

/-- A page of the image is no page of memory. -/
theorem image_apart (whole : PageMap memoryMap) (placed : image.Placed memoryMap) {w w' : Mapping}
    (h : OfMemory memoryMap w) (h' : OfImage image w') : w.page ≠ w'.page := by
  obtain ⟨p, usable, -, place⟩ := h
  obtain ⟨t, ht, -, here⟩ := h'
  obtain ⟨low, page⟩ := usable.low whole
  obtain ⟨e, he, used, hp⟩ := usable
  obtain ⟨off, off'⟩ := placed.apart t ht e he used p hp
  have canonical := placed.canonical t ht
  have aligned := image_page placed ht
  intro same
  rw [here] at same
  rcases place with there | there
  · rw [there] at same
    exact off (eq_of_page canonical (canonical_low low) aligned page same.symm)
  · rw [there] at same
    apply off' (eq_of_page canonical (canonical_upper low) aligned _ same.symm)
    rw [toNat_upper low]
    omega

/-- Two mappings of one page are to one frame. -/
theorem mappings_agree (whole : PageMap memoryMap) (placed : image.Placed memoryMap)
    {w w' : Mapping}
    (h : OfMemory memoryMap w ∨ OfImage image w) (h' : OfMemory memoryMap w' ∨ OfImage image w')
    (same : w.page = w'.page) : w.phys = w'.phys := by
  rcases h with h | h <;> rcases h' with h' | h'
  · apply BitVec.eq_of_toNat_eq
    rw [h.phys whole, h'.phys whole, same]
  · exact absurd same (image_apart whole placed h h')
  · exact absurd same.symm (image_apart whole placed h' h)
  · obtain ⟨t, ht, phys, page⟩ := h
    obtain ⟨t', ht', phys', page'⟩ := h'
    have one := eq_of_page (placed.canonical t ht) (placed.canonical t' ht') (image_page placed ht)
      (image_page placed ht') (page.symm.trans (same.trans page'))
    rw [phys, phys', (BitVec.add_right_inj _).mp one]

/-- All that is mapped is on frames. -/
theorem mapping_isFrame (whole : PageMap memoryMap) (placed : image.Placed memoryMap) {w : Mapping}
    (h : OfMemory memoryMap w ∨ OfImage image w) : IsFrame w.phys := by
  rcases h with ⟨t, usable, rfl, -⟩ | ⟨t, ht, phys, -⟩
  · exact usable.isFrame whole
  · rw [phys]
    exact placed.frame t ht

/-- In an empty table mappings that agree are all there. -/
theorem getAddress_agreed {ms : List Mapping} {w : Mapping} (flags : ∀ w ∈ ms, IsFlags w.flags)
    (agree : ∀ w ∈ ms, ∀ w' ∈ ms, w.page = w'.page → w.phys = w'.phys) (mem : w ∈ ms)
    (frame : IsFrame w.phys) :
    pagingDescGetAddress (ms.foldl Mapping.apply (fun _ => 0) w.page) = w.phys := by
  have own : pagingDescGetAddress w.phys = w.phys := frame
  apply getAddress_foldl flags
  · rw [getAddress_zero]
    exact zero_within _
  · intro w' mem' here
    rw [agree w' mem' w mem here, own]
    exact Within.refl _
  · exact Or.inr ⟨w, mem, rfl, own⟩

/-- After the reload memory is at both its places, the image at its own, and nothing else is
anywhere. -/
theorem reload_maps (whole : PageMap memoryMap) (placed : image.Placed memoryMap)
    (run : pagingReloadKernelMap g fuel memoryMap image s = some (cr3, s'))
    (nodup : (given g s.served s'.served).Nodup)
    (free : ∀ t ∈ given g s.served s'.served, t ≠ 0 ∧
      ∃ e ∈ memoryMap, e.signal = memoryMapFree ∧ t ∈ entryPages e) :
    cr3 = g s.served ∧ s'.pml4 = g s.served ∧
      KernelSpace memoryMap image (given g s.served s'.served) s' := by
  have usable (t : Addr) (ht : t ∈ given g s.served s'.served) : Usable memoryMap t := by
    obtain ⟨-, e, he, signal, page⟩ := free t ht
    exact ⟨e, he, by rw [signal]; decide, page⟩
  obtain ⟨rfl, le, part⟩ := reload_part run
  have less : s.served < s'.served := le
  have fresh : Fresh (newRoot g s) (given g (s.served + 1) s'.served) :=
    frames_fresh less nodup fun t ht => ⟨(free t ht).1, (usable t ht).isFrame whole⟩
  obtain ⟨-, all, perm, e⟩ := part newRoot_empty.wf fresh
  have later (t : Addr) (ht : t ∈ given g (s.served + 1) s'.served) : Usable memoryMap t := by
    apply usable
    rw [given_succ less]
    exact List.mem_cons_of_mem _ ht
  -- nothing but usable memory and the image is ever mapped
  have known (w : Mapping) (mem : w ∈ all) : OfMemory memoryMap w ∨ OfImage image w :=
    mapping_cases later (perm.mem_iff.mp mem)
  have flags (w : Mapping) (mem : w ∈ all) : IsFlags w.flags :=
    mappings_flags (perm.mem_iff.mp mem)
  have leaf : s'.leaf = all.foldl Mapping.apply fun _ => 0 := by
    rw [e.leaf, newRoot_leaf]
  have walk {w : Mapping} {v : Addr} (mem : w ∈ all) (page : w.page = pagingIndexerAssign v) :
      pagingWalkPage s' v = w.phys := by
    rw [walk_eq, leaf, ← page]
    exact getAddress_agreed flags
      (fun w hw w' hw' => mappings_agree whole placed (known w hw) (known w' hw')) mem
      (mapping_isFrame whole placed (known w mem))
  have asked {r : Request} (h : r ∈ entryRequests memoryMap ++ image.requests) : r.mapping ∈ all :=
    perm.mem_iff.mpr (List.mem_append_right _ (List.mem_map.mpr ⟨r, h, rfl⟩))
  have place {t : Addr} {r : Request} (ht : Usable memoryMap t) (h : r ∈ pageRequests t) :
      r.mapping ∈ all := asked (List.mem_append_left _ (mem_entryRequests.mpr ⟨t, ht, h⟩))
  have own {t : Addr} (ht : Usable memoryMap t) : pagingWalkPage s' t = t :=
    walk (place ht (List.mem_cons_self ..)) rfl
  have root : s'.pml4 = g s.served := e.root
  refine ⟨?_, root, ?_⟩
  -- the root is one of the frames, so the reload has mapped it to itself
  · rw [root]
    apply own (usable _ _)
    rw [given_succ less]
    exact List.mem_cons_self ..
  · constructor
    · exact fun e he used t ht => own ⟨e, he, used, ht⟩
    · intro e he used t ht
      exact walk (place ⟨e, he, used, ht⟩ (List.mem_cons_of_mem _ (List.mem_singleton_self _))) rfl
    · intro t ht
      exact walk (asked (List.mem_append_right _ (List.mem_map.mpr ⟨t, ht, rfl⟩))) rfl
    · exact fun t ht => own (usable t ht)
    · intro x memory kernel
      rw [leaf, foldl_apply_of_ne]
      intro w mem here
      rcases known w mem with ⟨t, ⟨e, he, used, ht⟩, -, page | page⟩ | ⟨t, ht, -, page⟩
      · exact (memory e he used t ht).1 (page.symm.trans here)
      · exact (memory e he used t ht).2 (page.symm.trans here)
      · exact kernel t ht (page.symm.trans here)

/-- The loops over the map end. -/
theorem Ample.entries {n : Nat} (h : Ample g fuel n s) (whole : PageMap memoryMap) :
    ∃ s', memoryMap.foldlM (reloadEntry g fuel) s = some s' ∧ Ample g fuel n s' := by
  induction memoryMap generalizing s with
  | nil => exact ⟨s, rfl, h⟩
  | cons e memoryMap ih =>
    have first : ∃ s₁, reloadEntry g fuel s e = some s₁ ∧ Ample g fuel n s₁ := by
      rw [reloadEntry]
      split
      · rw [if_pos (entry_ends (whole e (List.mem_cons_self ..)).2)]
        exact h.mapAll _
      · exact ⟨s, rfl, h⟩
    obtain ⟨s₁, run, ample⟩ := first
    obtain ⟨s', rest, last⟩ := ih ample fun e he => whole e (List.mem_cons_of_mem _ he)
    refine ⟨s', ?_, last⟩
    rw [List.foldlM_cons, run]
    exact rest

/-- The reload ends when there are frames for all the tables: both loops go over finitely many
pages, and every page is mapped by a call that ends. -/
theorem reload_some {n : Nat} (h : Ample g fuel n (newRoot g s)) (whole : PageMap memoryMap)
    (kernel : Ends 0 image.length) :
    ∃ cr3 s', pagingReloadKernelMap g fuel memoryMap image s = some (cr3, s') ∧ s'.served ≤ n := by
  obtain ⟨s₁, run₁, h₁⟩ := h.entries whole
  obtain ⟨s₂, run₂, h₂⟩ := h₁.mapPages kernel image.request
  refine ⟨pagingWalkPage s₂ s₂.pml4, s₂, ?_, h₂.total ▸ Nat.le_add_right _ _⟩
  exact Option.bind_eq_some_iff.mpr ⟨s₁, run₁, Option.bind_eq_some_iff.mpr ⟨s₂, run₂, rfl⟩⟩

end

/-! ### A machine -/

/-- Free memory from `0x1000000000` on, and what the boot loader keeps below. -/
def reloadMap : List MemoryMapEntry :=
  [⟨0, 0x100000, memoryMapNouse⟩, ⟨0x200000, 0x2000, memoryMapBusy⟩,
    ⟨0x1000000000, 0x80000000000, memoryMapFree⟩]

/-- The map is one of whole pages. -/
theorem reloadMap_whole : PageMap reloadMap := by
  rw [PageMap, reloadMap, List.forall_mem_cons, List.forall_mem_cons, List.forall_mem_singleton]
  decide

/-- The image has two pages. -/
theorem programImage_pages : pagesBetween 0 programImage.length = [0, 0x1000] := by decide

/-- It lies apart from the memory. -/
theorem programImage_placed : programImage.Placed reloadMap where
  aligned := by decide
  frame := by
    rw [programImage_pages, List.forall_mem_cons, List.forall_mem_singleton]
    decide
  canonical := by
    rw [programImage_pages, List.forall_mem_cons, List.forall_mem_singleton]
    decide
  apart t ht e he used p hp := by
    -- the image is two pages in the last two gigabytes, memory ends well below in its half
    have high : 2 ^ 64 - 2 ^ 31 ≤ (programImage.virtual + t).toNat := by
      rw [programImage_pages] at ht
      rcases List.mem_pair.mp ht with rfl | rfl <;> decide
    have below : p.toNat < 2 ^ 44 := by
      have ends : ∀ e ∈ reloadMap, e.base + e.length < 2 ^ 44 := by
        rw [reloadMap, List.forall_mem_cons, List.forall_mem_cons, List.forall_mem_singleton]
        decide
      obtain ⟨aligned, small⟩ := reloadMap_whole e he
      obtain ⟨-, -, lt⟩ := (mem_entryPages small aligned).mp hp
      exact Nat.lt_trans lt (ends e he)
    constructor
    · intro same
      rw [same] at high
      omega
    · intro same
      rw [same, toNat_upper (by omega)] at high
      omega

/-- The reload of a machine with a program image. -/
theorem reload_maps_machine : ∃ s',
    pagingReloadKernelMap spaceFrames (2 ^ 28) reloadMap programImage machineRoot =
      some (spaceFrames 0, s') ∧
    KernelSpace reloadMap programImage (given spaceFrames machineRoot.served s'.served) s' := by
  obtain ⟨cr3, s', run, le⟩ :=
    reload_some (spaceFrames_lasting.ample (s := machineRoot) (by decide)) reloadMap_whole
    (show Ends 0 programImage.length by decide)
  have few : s'.served ≤ 2 ^ 28 := by
    have := lacking_lt (newRoot spaceFrames machineRoot)
    have first : machineRoot.served = 0 := rfl
    omega
  obtain ⟨nodup, frames⟩ := spaceFrames_given (m := machineRoot.served)
    (show s'.served ≤ 2 ^ 29 by omega)
  have free : ∀ t ∈ given spaceFrames machineRoot.served s'.served, t ≠ 0 ∧
      ∃ e ∈ reloadMap, e.signal = memoryMapFree ∧ t ∈ entryPages e := by
    intro t ht
    obtain ⟨some, -, k, lt, -, rfl⟩ := frames t ht
    have value := spaceFrames_toNat (show k < 2 ^ 29 by omega)
    refine ⟨some, ⟨0x1000000000, 0x80000000000, memoryMapFree⟩,
      List.mem_cons_of_mem _ (List.mem_cons_of_mem _ (List.mem_singleton_self _)), rfl, ?_⟩
    rw [mem_entryPages (by decide) (by decide), value]
    refine ⟨Nat.mul_mod_right _ _, ?_, ?_⟩
    · show 0x1000000000 ≤ _
      omega
    · show _ < 0x1000000000 + 0x80000000000
      omega
  obtain ⟨rfl, -, space⟩ := reload_maps reloadMap_whole programImage_placed run nodup free
  exact ⟨s', run, space⟩

end Skylight.Paging
