import Skylight.Laws.Paging.Reload
import Skylight.Laws.Paging.Sparse
import Skylight.Laws.Pmm.Holdings
import Skylight.Laws.Proc.Context
import Skylight.Laws.Proc.Image

/-!
# The kernel and the memory it is given

The kernel goes to a page by its address as soon as the page frame allocator has given it out. After
`paging_reload_kernel_map` every page that the allocator may give is at its own address and in the
higher half, so that these accesses are all good, and user code reaches none of them.

`held_mapped` joins the runs of `Laws.Pmm.Client` with the reload: after any run of a client
from `pmm_start`, every page held is found at its own address and in the higher half, open to no
user code. The image must be placed off the direct map and its loop must end; the frames for the
tables are held by the same client.
-/

namespace Skylight.Paging

section
variable {g : Nat → Addr} {fuel : Nat} {memoryMap : List MemoryMapEntry} {image : KernelImage}
  {s s' : State} {cr3 v t : Addr} {w : Mapping} {ids : List Addr}

/-- Every mapping of the reload has the kernel's flags. -/
theorem reload_flags (mem : w ∈ mappings (entryRequests memoryMap ++ image.requests) ids) :
    w.flags = wide flagsKernelPage := by
  rcases List.mem_append.mp mem with mem | mem
  · obtain ⟨t, -, rfl⟩ := List.mem_map.mp mem
    rfl
  · obtain ⟨r, asked, rfl⟩ := List.mem_map.mp mem
    show wide r.flags = _
    rcases List.mem_append.mp asked with mem | mem
    · obtain ⟨t, -, mem⟩ := mem_entryRequests.mp mem
      rcases List.mem_pair.mp mem with rfl | rfl <;> rfl
    · obtain ⟨t, -, rfl⟩ := List.mem_map.mp mem
      rfl

/-- The mappings of a reload, of which those of a page are to one frame. -/
structure Reloaded (memoryMap : List MemoryMapEntry) (image : KernelImage) (ids : List Addr)
    (all : List Mapping) (s : State) : Prop where
  leaf : s.leaf = all.foldl Mapping.apply fun _ => 0
  mem : ∀ w, w ∈ all ↔ w ∈ mappings (entryRequests memoryMap ++ image.requests) ids
  usable : ∀ t ∈ ids, Usable memoryMap t

/-- What the reload maps: memory twice, the image, and tables, each to one frame. -/
theorem reload_mappings (run : pagingReloadKernelMap g fuel memoryMap image s = some (cr3, s'))
    (whole : PageMap memoryMap) (nodup : (given g s.served s'.served).Nodup)
    (usable : ∀ t ∈ given g s.served s'.served, t ≠ 0 ∧ Usable memoryMap t) :
    cr3 = pagingWalkPage s' s'.pml4 ∧ s'.pml4 = g s.served ∧
    g s.served ∈ given g s.served s'.served ∧
      ∃ ids all, Reloaded memoryMap image ids all s' := by
  obtain ⟨rfl, le, part⟩ := reload_part run
  have less : s.served < s'.served := le
  have fresh : Fresh (newRoot g s) (given g (s.served + 1) s'.served) :=
    frames_fresh less nodup fun t ht => ⟨(usable t ht).1, (usable t ht).2.isFrame whole⟩
  obtain ⟨-, all, perm, e⟩ := part newRoot_empty.wf fresh
  rw [given_succ less] at usable ⊢
  refine ⟨rfl, e.root, List.mem_cons_self .., given g (s.served + 1) s'.served, all,
    by rw [e.leaf, newRoot_leaf], fun w => perm.mem_iff, fun t ht => ?_⟩
  exact (usable t (List.mem_cons_of_mem _ ht)).2

variable {all : List Mapping} {a : Addr}

/-- A page that is mapped is where its mapping says. -/
theorem Reloaded.at (h : Reloaded memoryMap image ids all s) (whole : PageMap memoryMap)
    (placed : image.Placed memoryMap) (mem : w ∈ all) (page : w.page = pagingIndexerAssign v) :
    translation s v = some (w.phys + (v &&& 0xfff)) := by
  have known (w : Mapping) (mem : w ∈ all) : OfMemory memoryMap w ∨ OfImage image w :=
    mapping_cases h.usable ((h.mem w).mp mem)
  have flags (w : Mapping) (mem : w ∈ all) : w.flags = wide flagsKernelPage :=
    reload_flags ((h.mem w).mp mem)
  have forms (w : Mapping) (mem : w ∈ all) : IsFlags w.flags := flags w mem ▸ isFlags_wide _
  have present : pagingDescGetFlag (s.leaf (pagingIndexerAssign v)) flagPresent = true := by
    rw [h.leaf]
    refine present_foldl (fun w mem => ⟨?_, forms w mem⟩) (Or.inr ⟨w, mem, page⟩)
    rw [flags w mem]
    exact present_kernel
  have address : pagingDescGetAddress (s.leaf (pagingIndexerAssign v)) = w.phys := by
    rw [h.leaf, ← page]
    exact getAddress_agreed forms
      (fun w hw w' hw' => mappings_agree whole placed (known w hw) (known w' hw')) mem
      (mapping_isFrame whole placed (known w mem))
  rw [translation, if_pos present, address]

/-- Nothing is user code's. -/
theorem Reloaded.closed (h : Reloaded memoryMap image ids all s) (x : PagingIndexer) :
    pagingDescGetFlag (s.leaf x) flagUser = false := by
  have flags (w : Mapping) (mem : w ∈ all) : w.flags = wide flagsKernelPage :=
    reload_flags ((h.mem w).mp mem)
  rw [h.leaf]
  by_cases mapped : ∃ w ∈ all, w.page = x
  · have kernel : pagingDescGetFlag (wide flagsKernelPage) flagUser = false := by decide
    rw [← getFlag_flagsOf (by decide), flagsOf_foldl fun w mem => flags w mem ▸ isFlags_wide _]
    · exact kernel
    · exact fun w mem _ => flags w mem
    · exact mapped
  · rw [foldl_apply_of_ne fun w mem page => mapped ⟨w, mem, page⟩]
    exact getFlag_zero ..

/-- Memory is at its own address, and in the higher half. -/
theorem Reloaded.memory (h : Reloaded memoryMap image ids all s) (whole : PageMap memoryMap)
    (placed : image.Placed memoryMap) {e : MemoryMapEntry} (mem : e ∈ memoryMap)
    (used : e.signal ≠ memoryMapNouse) (le : e.base ≤ a.toNat) (lt : a.toNat < e.base + e.length) :
    translation s a = some a ∧ translation s (a + pagingVirtualOffset) = some a := by
  obtain ⟨aligned, small⟩ := whole e mem
  have value := Elf.page_toNat a
  have usable : Usable memoryMap (a &&& ~~~0xfff) :=
    ⟨e, mem, used, (mem_entryPages small aligned).mpr (by omega)⟩
  have low := (usable.low whole).1
  have asked {r : Request} (h' : r ∈ pageRequests (a &&& ~~~0xfff)) : r.mapping ∈ all :=
    (h.mem _).mpr (List.mem_append_right _ (List.mem_map_of_mem
      (List.mem_append_left _ (mem_entryRequests.mpr ⟨_, usable, h'⟩))))
  have whole_byte : (a &&& ~~~0xfff) + (a &&& 0xfff) = a := Elf.page_add_offset a
  constructor
  · have there := h.at whole placed (v := a) (asked (List.mem_cons_self ..))
      (assign_eq (by show (a &&& ~~~0xfff).toNat / _ = _; rw [value]; omega))
    rw [there]
    exact congrArg some whole_byte
  · have there := h.at whole placed (v := a + pagingVirtualOffset)
      (asked (List.mem_cons_of_mem _ (List.mem_singleton_self _)))
      (assign_eq (by
        show ((a &&& ~~~0xfff) + pagingVirtualOffset).toNat / _ = _
        rw [toNat_upper low, toNat_upper (by omega), value]
        omega))
    have offset : (a + pagingVirtualOffset) &&& 0xfff = a &&& 0xfff := by
      apply BitVec.eq_of_toNat_eq
      rw [Elf.offset_toNat, Elf.offset_toNat, toNat_upper (by omega)]
      omega
    rw [there, offset]
    exact congrArg some whole_byte

/-! ### The reload ends -/

variable {W : Set (List (BitVec 9))} {n : Nat}

/-- The pages that the reload maps. -/
def reloadPages (memoryMap : List MemoryMapEntry) (image : KernelImage) : List Addr :=
  (entryRequests memoryMap ++ image.requests).map Request.virt

/-- The loops over the entries of the map end. -/
theorem Stocked.entries (h : Stocked g W fuel n s) (whole : PageMap memoryMap)
    (along : ways ((entryRequests memoryMap).map Request.virt) ⊆ W) :
    ∃ s', memoryMap.foldlM (reloadEntry g fuel) s = some s' ∧ Stocked g W fuel n s' := by
  induction memoryMap generalizing s with
  | nil => exact ⟨s, rfl, h⟩
  | cons e memoryMap ih =>
    rw [show entryRequests (e :: memoryMap) = _ ++ entryRequests memoryMap from List.flatMap_cons,
      List.map_append, ways_append, Set.union_subset_iff] at along
    have first : ∃ s₁, reloadEntry g fuel s e = some s₁ ∧ Stocked g W fuel n s₁ := by
      rw [reloadEntry]
      split
      · next used =>
        rw [if_pos (entry_ends (whole e (List.mem_cons_self ..)).2)]
        rw [if_pos used] at along
        exact h.mapAll along.1
      · exact ⟨s, rfl, h⟩
    obtain ⟨s₁, run, stocked⟩ := first
    obtain ⟨s', rest, last⟩ := ih stocked (fun e he => whole e (List.mem_cons_of_mem _ he)) along.2
    refine ⟨s', ?_, last⟩
    rw [List.foldlM_cons, run]
    exact rest

/-- The reload ends, and takes no more frames than there are. -/
theorem reload_stocked (h : Stocked g (ways (reloadPages memoryMap image)) fuel n (newRoot g s))
    (whole : PageMap memoryMap) (kernel : Ends 0 image.length) :
    ∃ cr3 s', pagingReloadKernelMap g fuel memoryMap image s = some (cr3, s') ∧ s'.served ≤ n := by
  obtain ⟨s₁, run₁, h₁⟩ := h.entries whole
    (ways_mono (List.map_subset _ (List.subset_append_left ..)))
  obtain ⟨s₂, run₂, h₂⟩ := h₁.mapPages kernel image.request
    (ways_mono (List.map_subset _ (List.subset_append_right ..)))
  refine ⟨pagingWalkPage s₂ s₂.pml4, s₂, ?_, (Nat.le_add_right ..).trans h₂.total⟩
  exact Option.bind_eq_some_iff.mpr ⟨s₁, run₁, Option.bind_eq_some_iff.mpr ⟨s₂, run₂, rfl⟩⟩

/-- A page at its own address is found there. -/
theorem walk_of_translation (page : t.toNat % 0x1000 = 0) (there : translation s t = some t) :
    pagingWalkPage s t = t := by
  have offset : t &&& 0xfff = 0 := by
    apply BitVec.eq_of_toNat_eq
    rw [Elf.offset_toNat, page]
    rfl
  rw [translation] at there
  split at there
  · have same := Option.some.inj there
    rw [offset] at same
    rw [walk_eq]
    exact (BitVec.add_zero _).symm.trans same
  · cases there

/-! ### Memory from the allocator -/

/-- The pages of tables, as the allocator gave them out. -/
def tableRuns (frames : List Addr) : List (Nat × Nat) := frames.map fun t => (t.toNat, 1)

variable {memory : Nat → Pmm.Descriptor} {s₀ : Pmm.State} {c : Pmm.Client} {frames : List Addr}

/-- A valid map below the upper half is one of whole pages. -/
theorem pageMap_of_valid (valid : Pmm.ValidMap memoryMap) (low : ∀ e ∈ memoryMap, e.fin < 2 ^ 47) :
    PageMap memoryMap := by
  intro e mem
  obtain ⟨k, n, base, -⟩ := valid.inOrder_all.aligned e mem
  refine ⟨?_, low e mem⟩
  rw [base]
  exact Nat.mul_mod_left ..

/-- Frames from the allocator are different pages of memory. -/
theorem frames_of_run (valid : Pmm.ValidMap memoryMap)
    (start : Pmm.pmmStart memory memoryMap = .ok s₀)
    (run : Relation.ReflTransGen Pmm.Client.Step (Pmm.Client.start s₀) c)
    (low : ∀ e ∈ memoryMap, e.fin < 2 ^ 47) (held : (tableRuns frames).Subperm c.held) :
    frames.Nodup ∧ ∀ t ∈ frames, t ≠ 0 ∧ Usable memoryMap t := by
  have holdings := Pmm.holdings_of_run valid start run held fun e mem => Nat.le_of_lt (low e mem)
  have first (t : Addr) : t.toNat ∈ Pmm.bytes (t.toNat, 1) := ⟨le_rfl, by simp [pageSize]⟩
  constructor
  · refine (List.pairwise_map.mp holdings.apart).imp fun {t t'} disjoint same => ?_
    subst same
    exact Set.disjoint_left.mp disjoint (first t) (first t)
  · intro t mem
    have run_mem : (t.toNat, 1) ∈ tableRuns frames := List.mem_map_of_mem mem
    obtain ⟨k, pos, base, -⟩ := holdings.whole _ run_mem
    simp only [pageSize] at base
    obtain ⟨e, at_, free, le, lt⟩ :=
      Pmm.held_free valid start run (held.subset run_mem) (first t)
    obtain ⟨aligned, small⟩ := pageMap_of_valid valid low e at_
    refine ⟨fun zero => ?_, e, at_, by rw [free]; decide, ?_⟩
    · rw [zero, show (0 : Addr).toNat = 0 from rfl] at base
      omega
    · exact (mem_entryPages small aligned).mpr ⟨by omega, le, lt⟩

/-- The frames for tables are memory, so no tables are needed for their own pages. -/
theorem ways_usable (usable : ∀ t ∈ frames, Usable memoryMap t) :
    ways frames ⊆ ways (reloadPages memoryMap image) := by
  refine ways_mono fun t mem => ?_
  refine List.mem_map.mpr ⟨.identity flagsKernelPage t, List.mem_append_left _ ?_, rfl⟩
  exact mem_entryRequests.mpr ⟨t, usable t mem, List.mem_cons_self ..⟩

end

/-- After `pmm_start` and the reload, with tables from the allocator, whatever the allocator gives
out is at its own address and in the higher half, at any time later. Nothing there is user code's,
and what is held beside the tables meets none of them. -/
theorem held_mapped (memory : Nat → Pmm.Descriptor) (map : List MemoryMapEntry) (s₀ : Pmm.State)
    (c : Pmm.Client) (g : Nat → Addr) (image : KernelImage) (s : State) (frames : List Addr)
    (valid : Pmm.ValidMap map) (start : Pmm.pmmStart memory map = .ok s₀)
    (run : Relation.ReflTransGen Pmm.Client.Step (Pmm.Client.start s₀) c)
    (low : ∀ e ∈ map, e.fin < 2 ^ 47) (placed : image.Placed map) (ends : Ends 0 image.length)
    (held : (tableRuns frames).Subperm c.held)
    (served : given g s.served (s.served + frames.length) = frames)
    (enough : (tablesOf (reloadPages map image)).length < frames.length) :
    ∀ fuel ≥ frames.length, ∃ s',
      pagingReloadKernelMap g fuel map image s = some (g s.served, s') ∧
      (∀ x, pagingDescGetFlag (s'.leaf x) flagUser = false) ∧
      ∀ c', Relation.ReflTransGen Pmm.Client.Step c c' → ∀ b ∈ c'.held,
        (∀ a : Addr, a.toNat ∈ Pmm.bytes b →
          translation s' a = some a ∧ translation s' (a + pagingVirtualOffset) = some a) ∧
        ((tableRuns frames ++ [b]).Subperm c'.held →
          ∀ r ∈ tableRuns frames, Disjoint (Pmm.bytes r) (Pmm.bytes b)) := by
  intro fuel deep
  have whole := pageMap_of_valid valid low
  obtain ⟨nodup, usable⟩ := frames_of_run valid start run low held
  have stocked := newRoot_stocked served nodup
    (fun t mem => ⟨(usable t mem).1, (usable t mem).2.isFrame whole⟩)
    (ways_usable fun t mem => (usable t mem).2) enough deep
  obtain ⟨cr3, s', reload, le⟩ := reload_stocked stocked whole ends
  have taken : (given g s.served s'.served).Sublist frames := by
    rw [← served]
    exact given_sublist le
  obtain ⟨rfl, root, first, ids, all, reloaded⟩ :=
    reload_mappings reload whole (nodup.sublist taken) fun t mem => usable t (taken.subset mem)
  obtain ⟨-, e, mem, used, page⟩ := usable _ (taken.subset first)
  obtain ⟨aligned, small⟩ := whole e mem
  obtain ⟨start_, ge, lt⟩ := (mem_entryPages small aligned).mp page
  -- `cr3` is the walk of the root under the tables it roots: the identity
  have own := (reloaded.memory whole placed mem used ge lt).1
  refine ⟨s', ?_, reloaded.closed, fun c' later b hb => ⟨fun a there => ?_, fun both r hr => ?_⟩⟩
  · rw [reload, root, walk_of_translation start_ own]
  · obtain ⟨e, mem, free, ge, lt⟩ := Pmm.held_free valid start (run.trans later) hb there
    exact reloaded.memory whole placed mem (by rw [free]; decide) ge lt
  · have holdings := Pmm.holdings_of_run valid start (run.trans later) both fun e mem =>
      Nat.le_of_lt (low e mem)
    exact holdings.disjoint_append hr (List.mem_singleton_self b)

/-! ### On the machine -/

/-- The frames that the machine gives for the tables. -/
def heldFrame (k : Nat) : Addr := BitVec.ofNat 64 (0x201000 + 0x1000 * k)

/-- The places of the tables: a table of tables in either half, and what is below them. -/
def heldTables : List (List (BitVec 9)) :=
  [[511], [511, 510], [511, 510, 1]] ++ [[0], [0, 0], [256], [256, 0]] ++
    (List.range 33).flatMap fun i => [[0, 0, BitVec.ofNat 9 i], [256, 0, BitVec.ofNat 9 i]]

/-- There are 73 of them. -/
theorem heldTables_length : heldTables.length = 73 := by decide

/-- The indices of an address, from its number. -/
theorem path_of_number {x : PagingIndexer} {i : BitVec 9} {k l : Nat}
    (number : x.number = 2 ^ 27 * i.toNat + 2 ^ 9 * k + l) (small : k < 512) (rest : l < 512) :
    x.path = [i, 0, BitVec.ofNat 9 k] := by
  have h₃ := x.pml3.isLt
  have h₂ := x.pml2.isLt
  have h₁ := x.pml1.isLt
  have hi := i.isLt
  rw [PagingIndexer.number] at number
  have first : x.pml4 = i := BitVec.eq_of_toNat_eq (by omega)
  have second : x.pml3 = 0 := BitVec.eq_of_toNat_eq (by
    rw [show (0 : BitVec 9).toNat = 0 from rfl]
    omega)
  have third : x.pml2 = BitVec.ofNat 9 k := BitVec.eq_of_toNat_eq (by
    rw [BitVec.toNat_ofNat]
    omega)
  rw [PagingIndexer.path, first, second, third]

/-- The map of the machine ends low. -/
theorem machineMap_low : ∀ e ∈ Pmm.machineMap, e.fin ≤ 0x4102000 := by decide

/-- And is of whole pages. -/
theorem machineMap_whole : PageMap Pmm.machineMap :=
  pageMap_of_valid Pmm.machineMap_valid fun e mem => by
    have := machineMap_low e mem
    omega

/-- The ways to the two places of a page of memory. -/
theorem usable_path {t : Addr} (usable : Usable Pmm.machineMap t) : ∃ k < 33,
    (pagingIndexerAssign t).path = [0, 0, BitVec.ofNat 9 k] ∧
      (pagingIndexerAssign (t + pagingVirtualOffset)).path = [256, 0, BitVec.ofNat 9 k] := by
  have low := (usable.low machineMap_whole).1
  obtain ⟨e, mem, -, page⟩ := usable
  obtain ⟨aligned, small⟩ := machineMap_whole e mem
  have lt := ((mem_entryPages small aligned).mp page).2.2
  have below : e.base + e.length ≤ 0x4102000 := machineMap_low e mem
  refine ⟨t.toNat / 2 ^ 21, by omega, path_of_number (l := t.toNat / 4096 % 512) ?_ (by omega)
    (by omega), path_of_number (l := t.toNat / 4096 % 512) ?_ (by omega) (by omega)⟩
  · rw [number_low low, show (0 : BitVec 9).toNat = 0 from rfl]
    omega
  · rw [number_upper low, show (256 : BitVec 9).toNat = 256 from rfl]
    omega

/-- Nothing else is on the way to the pages of the reload. -/
theorem machine_tables : (tablesOf (reloadPages Pmm.machineMap programImage)).length ≤ 73 := by
  rw [← heldTables_length]
  refine ((List.nodup_dedup _).subperm fun π mem => ?_).length_le
  obtain ⟨v, page, along⟩ := List.mem_flatMap.mp (List.mem_dedup.mp mem)
  have inner {i : BitVec 9} {k : Nat} (lt : k < 33) (half : i = 0 ∨ i = 256)
      (path : (pagingIndexerAssign v).path = [i, 0, BitVec.ofNat 9 k]) : π ∈ heldTables := by
    have some_row := List.mem_range.mpr lt
    rw [path] at along
    have along : π ∈ [[i], [i, 0], [i, 0, BitVec.ofNat 9 k]] := along
    simp only [List.mem_cons, List.not_mem_nil, or_false] at along
    rw [heldTables, List.mem_append, List.mem_flatMap]
    rcases half with rfl | rfl <;> rcases along with rfl | rfl | rfl
    · exact Or.inl (by decide)
    · exact Or.inl (by decide)
    · exact Or.inr ⟨k, some_row, List.mem_cons_self ..⟩
    · exact Or.inl (by decide)
    · exact Or.inl (by decide)
    · exact Or.inr ⟨k, some_row, List.mem_cons_of_mem _ (List.mem_singleton_self _)⟩
  obtain ⟨r, asked, rfl⟩ := List.mem_map.mp page
  rcases List.mem_append.mp asked with entry | kernel
  · obtain ⟨t, usable, mem⟩ := mem_entryRequests.mp entry
    obtain ⟨k, lt, own, upper⟩ := usable_path usable
    rcases List.mem_pair.mp mem with rfl | rfl
    · exact inner lt (Or.inl rfl) own
    · exact inner lt (Or.inr rfl) upper
  · have path : ∀ r ∈ programImage.requests, (pagingIndexerAssign r.virt).path = [511, 510, 1] := by
      rw [KernelImage.requests, programImage_pages]
      rw [List.map_cons, List.map_singleton, List.forall_mem_cons, List.forall_mem_singleton]
      exact ⟨rfl, rfl⟩
    rw [path r kernel] at along
    exact List.mem_append_left _ (List.mem_append_left _ along)

/-- The image lies apart from it. -/
theorem programImage_machine : programImage.Placed Pmm.machineMap where
  aligned := programImage_placed.aligned
  frame := programImage_placed.frame
  canonical := programImage_placed.canonical
  apart t ht e he used p hp := by
    have high : 2 ^ 64 - 2 ^ 31 ≤ (programImage.virtual + t).toNat := by
      rw [programImage_pages] at ht
      rcases List.mem_pair.mp ht with rfl | rfl <;> decide
    obtain ⟨aligned, small⟩ := machineMap_whole e he
    have lt := ((mem_entryPages small aligned).mp hp).2.2
    have below : e.base + e.length ≤ 0x4102000 := machineMap_low e he
    constructor
    · intro same
      rw [same] at high
      omega
    · intro same
      rw [same, toNat_upper (by omega)] at high
      omega

/-- The reload of the machine, with the first frames that it gives. -/
theorem held_mapped_machine : ∃ s',
    pagingReloadKernelMap heldFrame 74 Pmm.machineMap programImage machineRoot =
        some (0x201000, s') ∧
      ∀ x, pagingDescGetFlag (s'.leaf x) flagUser = false := by
  obtain ⟨s₀, start, h₀, -⟩ := Pmm.machine_start
  obtain ⟨c, run, -, pages, -⟩ :=
    Pmm.machine_takePages (k := 74) (c := .start s₀) h₀ (by decide) (by decide)
  have held : (tableRuns ((List.range 74).map heldFrame)).Subperm c.held := by
    rw [Pmm.Client.held, pages, show (Pmm.Client.start s₀).pages = [] from rfl]
    refine List.Subperm.trans (List.Perm.subperm ?_) (List.sublist_append_left ..).subperm
    decide
  obtain ⟨s', reload, closed, -⟩ := held_mapped Pmm.machineMemory Pmm.machineMap s₀ c heldFrame
    programImage machineRoot ((List.range 74).map heldFrame) Pmm.machineMap_valid start run
    (fun e mem => by have := machineMap_low e mem; omega) programImage_machine (by decide) held rfl
    (Nat.lt_succ_of_le machine_tables) 74 le_rfl
  exact ⟨s', reload, closed⟩

end Skylight.Paging
