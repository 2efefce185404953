import Skylight.Laws.Paging.Sparse
import Skylight.Laws.Pmm.Holdings
import Skylight.Laws.Proc.Context
import Skylight.Laws.Proc.Image
import Skylight.Laws.Proc.Switch

/-!
# From a file to a process

`elf_load_program` and then `task_create_new`, on memory that the page frame allocator gave out:
the pools of the segments, the page of their records, the gs page, the stack and the page tables.
That they lie apart is what the allocator promises, and it is all that the loader and the page
tables ask for. So user code finds the segments of the file under the new root, and nothing that
was given out for anything else.

`program_mapped` joins four modules: the runs of the allocator (`Pmm.Holdings`), the loader
(`image_faithful`), the page tables (`Maps`) and the context of the task. Its conditions are
those of the parts: a file that is well formed, with segments that start apart (`Plain`), pages
that are not asked for twice (`Clear`), frames enough for the tables, and loops that end
(`Ends`). The context's own page is not among the kernel's runs; where it is found from is in
`Laws.Proc.Context`.
-/

namespace Skylight.Program

open Elf Paging

/-- What the allocators give for a process: the pools and pages of the loader, the context, the gs
page, the lower end of the stack, and the frames that become page tables. -/
structure Parts where
  place : Place
  ctx : Paging.Addr
  gsBase : Paging.Addr
  stack : Paging.Addr
  frames : List Paging.Addr

namespace Parts

variable (parts : Parts) (file : Bytes.Memory) (image : KernelImage) (ist : List Paging.Addr)

/-- The records of the segments, each loaded as a whole. -/
def info : List ElfLoadedPage := (loads file).mapIdx (wholeRecord parts.place)

def task : NewTask := ⟨parts.stack + Paging.megabyte, parts.ctx, parts.gsBase⟩

/-- The memory for user code, as runs of pages. -/
def userRuns : List (Nat × Nat) :=
  (loads file).mapIdx (fun i header => ((parts.place.pool i).toNat, header.requiredPages.toNat)) ++
    [(parts.stack.toNat, 256)]

/-- The memory that the kernel keeps for itself. -/
def kernelRuns : List (Nat × Nat) :=
  (parts.place.table.toNat, 1) :: (parts.gsBase.toNat, 1) :: parts.frames.map fun t => (t.toNat, 1)

/-- The pages that the kernel needs under the new root. -/
def kernelPages (table : Paging.Addr) : List Paging.Addr :=
  (image.requests ++ istPages ist ++ lastRequests table parts.task).map Request.virt ++
    parts.task.ctxPage :: parts.frames

/-- The pages for user code. -/
def userPages : List Paging.Addr := (userRequests (parts.info file) parts.task).map Request.virt

end Parts

/-- No page for user code is asked for twice, or needed by the kernel. -/
structure Clear (user kernel : List Paging.Addr) : Prop where
  once : (user.map pagingIndexerAssign).Nodup
  kernel : ∀ v ∈ user, ∀ v' ∈ kernel, pagingIndexerAssign v ≠ pagingIndexerAssign v'

/-- An address of user code is translated to one of memory. -/
def Reaches (s : Paging.State) (v a : Paging.Addr) : Prop :=
  pagingDescGetFlag (s.leaf (pagingIndexerAssign v)) flagUser = true ∧ translation s v = some a

/-- User code finds the bytes of the segments where the file says. -/
def Shows (file : Bytes.Memory) (s : Paging.State) (bytes : Bytes.Memory) : Prop :=
  ∀ header ∈ loads file, ∀ k < header.pMemsz.toNat,
    ∃ a, Reaches s (header.pVaddr + BitVec.ofNat 64 k) a ∧
      bytes a = if k < header.pFilesz.toNat then file (header.pOffset + BitVec.ofNat 64 k) else 0

/-- The frames are enough for the tables of a process, and nothing is mapped over user code. -/
structure Provided (g : Nat → Paging.Addr) (image : KernelImage) (ist : List Paging.Addr)
    (s : Paging.State) (parts : Parts) (file : Bytes.Memory) : Prop where
  kernel : Ends 0 image.length
  frames : given g s.served (s.served + parts.frames.length) = parts.frames
  clear : Clear (parts.userPages file) (parts.kernelPages image ist (g s.served))
  enough : (tablesOf (parts.userPages file ++ parts.kernelPages image ist (g s.served))).length
    < parts.frames.length

section
variable {parts : Parts} {file : Bytes.Memory} {image : KernelImage} {ist : List Paging.Addr}
  {g : Nat → Paging.Addr} {fuel n limit : Nat} {W : Set (List (BitVec 9))} {s s' : Paging.State}
  {info : List ElfLoadedPage} {task : NewTask} {table v w : Paging.Addr} {header : ElfProgramHeader}
  {i k : Nat}

/-! ### What the allocator gave -/

/-- The memory of a process lies apart, below all of what the kernel's heap is made of. -/
structure Granted (limit : Nat) (parts : Parts) (file : Bytes.Memory) : Prop where
  runs : Pmm.Holdings limit (parts.userRuns file ++ parts.kernelRuns)
  physical : limit ≤ 2 ^ 52
  heap : limit ≤ parts.place.info.toNat ∧ parts.place.info.toNat + 24 ≤ 2 ^ 64

/-- The memory for user code is held. -/
theorem Granted.user (granted : Granted limit parts file) :
    Pmm.Holdings limit (parts.userRuns file) := granted.runs.sublist (List.sublist_append_left ..)

/-- And so is the kernel's. -/
theorem Granted.kernel (granted : Granted limit parts file) :
    Pmm.Holdings limit parts.kernelRuns := granted.runs.sublist (List.sublist_append_right ..)

/-- The pool of a segment is one of the runs. -/
theorem userRuns_pool (at_ : (loads file)[i]? = some header) :
    (parts.userRuns file)[i]? = some ((parts.place.pool i).toNat, header.requiredPages.toNat) := by
  obtain ⟨lt, rfl⟩ := List.getElem?_eq_some_iff.mp at_
  rw [Parts.userRuns, List.getElem?_append_left (by rwa [List.length_mapIdx]), List.getElem?_mapIdx,
    at_]
  rfl

/-- A run of the process is whole pages, and ends below the limit. -/
theorem Granted.whole (granted : Granted limit parts file) {p : Paging.Addr}
    (mem : (p.toNat, n) ∈ parts.userRuns file ++ parts.kernelRuns) :
    ∃ k, 0 < k ∧ p.toNat = 0x1000 * k ∧ 0 < n ∧ p.toNat + 0x1000 * n ≤ 2 ^ 52 := by
  obtain ⟨k, pos, base, some_pages⟩ := granted.runs.whole _ mem
  have below := granted.runs.below _ mem
  have physical := granted.physical
  simp only [pageSize] at base below
  exact ⟨k, pos, by omega, some_pages, by omega⟩

/-- It is whole pages below the limit. -/
theorem Granted.pool (granted : Granted limit parts file) (at_ : (loads file)[i]? = some header) :
    ∃ k, 0 < k ∧ (parts.place.pool i).toNat = 0x1000 * k ∧ 0 < header.requiredPages.toNat ∧
      (parts.place.pool i).toNat + 0x1000 * header.requiredPages.toNat ≤ 2 ^ 52 :=
  granted.whole (List.mem_append_left _ (List.mem_of_getElem? (userRuns_pool at_)))

/-- Its pools meet neither each other nor the memory of the loader. -/
theorem Granted.fresh (granted : Granted limit parts file) :
    Elf.Fresh parts.place (loads file) := by
  have inside {i : Nat} {header : ElfProgramHeader} {x : Paging.Addr}
      (at_ : (loads file)[i]? = some header) (near : InPool parts.place i header x) :
      x.toNat ∈ Pmm.bytes ((parts.place.pool i).toNat, header.requiredPages.toNat) := by
    obtain ⟨-, -, -, -, below⟩ := granted.pool at_
    exact (Pmm.inRange_iff_bytes (by simp only [pageSize]; omega)).mp near
  constructor
  · intro i header x at_ near own
    have mem := inside at_ near
    have run := List.mem_of_getElem? (@userRuns_pool parts file _ _ at_)
    rcases own with table | info
    · have record : (parts.place.table.toNat, 1) ∈ parts.kernelRuns := List.mem_cons_self ..
      obtain ⟨-, -, -, -, below⟩ := granted.whole (List.mem_append_right _ record)
      have mem' := (Pmm.inRange_iff_bytes (n := 1) (by simp only [pageSize]; omega)).mp table
      exact Set.disjoint_left.mp (granted.runs.disjoint_append run record) mem mem'
    · have high := ((Bytes.inRange_iff granted.heap.2).mp info).1
      have below := granted.user.below _ run
      have low := mem.2
      have heap := granted.heap.1
      simp only at low below
      omega
  · intro i j header header' x at_ at' ne near near'
    exact Set.disjoint_left.mp (granted.user.disjoint (userRuns_pool at_) (userRuns_pool at') ne)
      (inside at_ near) (inside at' near')

/-- Its frames are different pages, and none is at zero. -/
theorem Granted.frames (granted : Granted limit parts file) :
    parts.frames.Nodup ∧ ∀ t ∈ parts.frames, t ≠ 0 ∧ IsFrame t := by
  have sub : (parts.frames.map fun t => (t.toNat, 1)).Sublist parts.kernelRuns :=
    (List.sublist_cons_self ..).trans (List.sublist_cons_self ..)
  have apart := List.pairwise_map.mp (granted.kernel.sublist sub).apart
  refine ⟨apart.imp fun {t t'} disjoint same => ?_, fun t mem => ?_⟩
  · subst same
    have first : t.toNat ∈ Pmm.bytes (t.toNat, 1) := ⟨le_rfl, by simp [pageSize]⟩
    exact Set.disjoint_left.mp disjoint first first
  · obtain ⟨k, pos, value, -, below⟩ := granted.whole
      (List.mem_append_right _ (sub.subset (List.mem_map_of_mem mem)))
    refine ⟨fun zero => ?_, isFrame_of value (by omega)⟩
    rw [zero, show (0 : Paging.Addr).toNat = 0 from rfl] at value
    omega

/-! ### The page tables -/

/-- The loops over the segments end, and the tree has its frames. -/
theorem stocked_segments (h : Stocked g W fuel n s)
    (ends : ∀ segment ∈ info, Ends 0 segment.length)
    (along : ways ((segmentRequests info).map Request.virt) ⊆ W) :
    ∃ s', info.foldlM (fun s segment => Paging.mapPages g fuel s 0 segment.length segment.request) s
      = some s' ∧ Stocked g W fuel n s' := by
  induction info generalizing s with
  | nil => exact ⟨s, rfl, h⟩
  | cons segment info ih =>
    rw [List.forall_mem_cons] at ends
    have split : segmentRequests (segment :: info) =
        (pagesBetween 0 segment.length).map segment.request ++ segmentRequests info :=
      List.flatMap_cons
    rw [split, List.map_append, ways_append, Set.union_subset_iff] at along
    obtain ⟨s₁, run, stocked⟩ := h.mapPages ends.1 segment.request along.1
    obtain ⟨s', rest, last⟩ := ih stocked ends.2 along.2
    exact ⟨s', Option.bind_eq_some_iff.mpr ⟨s₁, run, rest⟩, last⟩

/-- The construction ends when its loops do and there are frames for the tables on the way to its
pages and to the frames. -/
theorem taskNewPageTable_stocked (h : Stocked g W fuel n (newRoot g s))
    (kernel : Ends 0 image.length) (segments : ∀ segment ∈ info, Ends 0 segment.length)
    (stack : Ends (task.rsp - Paging.megabyte) task.rsp)
    (along : ways (task.ctxPage :: (requests image ist info task (g s.served)).map Request.virt) ⊆
    W) :
    ∃ s', taskNewPageTable g fuel image ist info task s = some (g s.served, s') ∧
    s'.served ≤ n := by
  rw [ways_cons, Set.union_subset_iff] at along
  have part (rs : List Request) (sub : rs ⊆ requests image ist info task (g s.served)) :
      ways (rs.map Request.virt) ⊆ W := (ways_mono (List.map_subset _ sub)).trans along.2
  have page {r : Request} (mem : r ∈ requests image ist info task (g s.served)) :
      ways [r.virt] ⊆ W := part [r] fun r' mem' => List.mem_singleton.mp mem' ▸ mem
  have last {r : Request} (mem : r ∈ lastRequests (g s.served) task) :
      r ∈ requests image ist info task (g s.served) := List.mem_append_right _ mem
  obtain ⟨s₁, run₁, h₁⟩ := h.mapPages kernel image.request
    (part _ fun r mem => by simp only [requests, KernelImage.requests, List.mem_append]; tauto)
  obtain ⟨s₂, run₂, h₂⟩ := stocked_segments h₁ segments
    (part _ fun r mem => by simp only [requests, userRequests, List.mem_append]; tauto)
  obtain ⟨s₃, run₃, h₃⟩ := h₂.mapPages stack (.identity flagsUserPage)
    (part _ fun r mem => by
      simp only [requests, userRequests, stackRequests, List.mem_append]
      tauto)
  obtain ⟨s₄, run₄, h₄⟩ := h₃.mapAll
    (part (istPages ist) fun r mem => by simp only [requests, List.mem_append]; tauto)
  obtain ⟨s₅, run₅, -, h₅⟩ := mapPage_stocked (pagingWalkPage s₄ task.ctxPage) flagsKernelPage h₄
    along.1
  obtain ⟨s₆, run₆, -, h₆⟩ := mapPage_stocked (g s.served) flagsKernelPage h₅
    (page (last (List.mem_cons_self ..)))
  obtain ⟨s₇, run₇, le, -⟩ := mapPage_stocked task.gsBase flagsKernelPage h₆
    (page (last (List.mem_cons_of_mem _ (List.mem_singleton_self _))))
  refine ⟨pagingLoadPml4 s₇ s.pml4, ?_, le⟩
  exact Option.bind_eq_some_iff.mpr ⟨s₁, run₁, Option.bind_eq_some_iff.mpr ⟨s₂, run₂,
    Option.bind_eq_some_iff.mpr ⟨s₃, run₃, Option.bind_eq_some_iff.mpr ⟨s₄, run₄,
    Option.bind_eq_some_iff.mpr ⟨_, run₅, Option.bind_eq_some_iff.mpr ⟨_, run₆,
    Option.bind_eq_some_iff.mpr ⟨_, run₇, rfl⟩⟩⟩⟩⟩⟩⟩

/-- Where nothing else is asked for, the page is on the frame asked for, and user code's. -/
theorem Clear.mapped {ids : List Paging.Addr} {all : List Mapping} {p : Paging.Addr}
    {pages : PagingIndexer → Desc} {r : Request}
    (clear : Clear (parts.userPages file) (parts.kernelPages image ist table))
    (filled : Filled pages (mappings (requests image ist (parts.info file) parts.task table) ids)
      (ctxMapping parts.task p) all)
    (taken : ids ⊆ parts.frames) (mem : r ∈ userRequests (parts.info file) parts.task)
    (frame : IsFrame r.phys) :
    pagingDescGetAddress (pages (pagingIndexerAssign r.virt)) = r.phys ∧
      flagsOf (pages (pagingIndexerAssign r.virt)) = wide flagsUserPage := by
  have own : r.virt ∈ parts.userPages file := List.mem_map_of_mem mem
  have other {v : Paging.Addr} (kernel : v ∈ parts.kernelPages image ist table) :
      pagingIndexerAssign r.virt ≠ pagingIndexerAssign v := clear.kernel _ own _ kernel
  have only : ∀ w ∈ mappings (requests image ist (parts.info file) parts.task table) ids,
      w.page = r.mapping.page → w = r.mapping := by
    intro w there same
    rcases List.mem_append.mp there with there | there
    · obtain ⟨t, given, rfl⟩ := List.mem_map.mp there
      refine absurd same.symm (other ?_)
      exact List.mem_append_right _ (List.mem_cons_of_mem _ (taken given))
    · obtain ⟨q, asked, rfl⟩ := List.mem_map.mp there
      by_cases user : q ∈ userRequests (parts.info file) parts.task
      · have once := clear.once
        rw [Parts.userPages, List.map_map] at once
        rw [List.inj_on_of_nodup_map once user mem same]
      · refine absurd same.symm (other (List.mem_append_left _ (List.mem_map_of_mem ?_)))
        simp only [requests, List.mem_append] at asked ⊢
        tauto
  have asked : r.mapping ∈
      mappings (requests image ist (parts.info file) parts.task table) ids :=
    requests_mapped (userRequests_asked mem)
  have undisturbed : Undisturbed
      (mappings (requests image ist (parts.info file) parts.task table) ids) r := by
    intro w there same
    rw [only w there same]
    exact Within.refl _
  refine ⟨?_, ?_⟩
  · rw [← show pagingDescGetAddress r.phys = r.phys from frame]
    exact (filled.address_iff asked).mpr undisturbed
  · have off : r.mapping.page ≠ (ctxMapping parts.task p).page :=
      other (List.mem_append_right _ (List.mem_cons_self ..))
    have flags := filled.flags_eq asked off fun w there same => by rw [only w there same]
    rw [show r.mapping.flags = wide r.flags from rfl, flags_user r mem] at flags
    exact flags

/-! ### The pages for user code -/

/-- A page that a loop over pages goes through. -/
theorem pagesBetween_toNat {a b j : Paging.Addr} {m : Nat} (mem : j ∈ pagesBetween a b)
    (size : b.toNat = a.toNat + 0x1000 * m) : ∃ d < m, j.toNat = a.toNat + 0x1000 * d := by
  obtain ⟨d, lt, rfl⟩ := mem_pagesBetween mem
  have small := b.isLt
  rw [rounds] at lt
  refine ⟨d, by omega, ?_⟩
  rw [BitVec.toNat_add, BitVec.toNat_ofNat]
  omega

/-- The page of a byte, and how far into the page it is. -/
theorem offset_le {a : Paging.Addr} (room : a.toNat + 0x1000 ≤ 2 ^ 64) (v : Paging.Addr) :
    (a + (v &&& 0xfff)).toNat = a.toNat + v.toNat % 0x1000 := by
  rw [BitVec.toNat_add, offset_toNat]
  omega

/-- The length of a pool does not wrap. -/
theorem Granted.length (granted : Granted limit parts file) (at_ : (loads file)[i]? = some header) :
    (header.requiredPages * 0x1000).toNat = 0x1000 * header.requiredPages.toNat :=
  length_toNat (by obtain ⟨-, -, -, -, below⟩ := granted.pool at_; omega)

/-- A page for user code is on a page of its memory. -/
theorem Granted.userRequest (granted : Granted limit parts file) {r : Request}
    (mem : r ∈ userRequests (parts.info file) parts.task) :
    IsFrame r.phys ∧ r.phys.toNat + 0x1000 ≤ 2 ^ 52 ∧ ∃ b ∈ parts.userRuns file,
      ∀ d < 0x1000, r.phys.toNat + d ∈ Pmm.bytes b := by
  have within {p : Paging.Addr} {m d : Nat} (run : (p.toNat, m) ∈ parts.userRuns file) (lt : d < m)
      (value : r.phys.toNat = p.toNat + 0x1000 * d) : IsFrame r.phys ∧
        r.phys.toNat + 0x1000 ≤ 2 ^ 52 ∧ ∃ b ∈ parts.userRuns file,
          ∀ d < 0x1000, r.phys.toNat + d ∈ Pmm.bytes b := by
    obtain ⟨k, -, base, -, below⟩ := granted.whole (List.mem_append_left _ run)
    refine ⟨isFrame_of (n := k + d) (by omega) (by omega), by omega, _, run, fun e small => ?_⟩
    simp only [Pmm.bytes, pageSize, Set.mem_Ico]
    omega
  rcases List.mem_append.mp mem with segment | stack
  · obtain ⟨record, there, page⟩ := List.mem_flatMap.mp segment
    obtain ⟨j, between, rfl⟩ := List.mem_map.mp page
    obtain ⟨i, lt, rfl⟩ := List.mem_mapIdx.mp there
    have at_ : (loads file)[i]? = some (loads file)[i] := List.getElem?_eq_getElem lt
    obtain ⟨d, less, value⟩ := pagesBetween_toNat between
      ((granted.length at_).trans (Nat.zero_add _).symm)
    obtain ⟨-, -, -, -, below⟩ := granted.pool at_
    refine within (List.mem_of_getElem? (userRuns_pool at_)) less ?_
    show (parts.place.pool i + j).toNat = _
    rw [BitVec.toNat_add, value, show (0 : Paging.Addr).toNat = 0 from rfl]
    omega
  · obtain ⟨head, between, rfl⟩ := List.mem_map.mp stack
    have run : (parts.stack.toNat, 256) ∈ parts.userRuns file :=
      List.mem_append_right _ (List.mem_singleton_self _)
    obtain ⟨-, -, -, -, below⟩ := granted.whole (List.mem_append_left _ run)
    have lower : parts.task.rsp - Paging.megabyte = parts.stack := BitVec.add_sub_cancel ..
    have upper : parts.task.rsp.toNat = parts.stack.toNat + 0x1000 * 256 := by
      show (parts.stack + 0x100000).toNat = _
      rw [BitVec.toNat_add, show (0x100000 : Paging.Addr).toNat = 0x100000 from rfl]
      omega
    rw [lower] at between
    obtain ⟨d, less, value⟩ := pagesBetween_toNat between upper
    exact within run less value

/-- Each byte of a segment is on a page that is asked for. -/
theorem Granted.byte (granted : Granted limit parts file) (wf : Elf.WellFormed file)
    (at_ : (loads file)[i]? = some header) (lt : k < header.pMemsz.toNat) :
    ∃ r ∈ userRequests (parts.info file) parts.task,
      pagingIndexerAssign r.virt = pagingIndexerAssign (header.pVaddr + BitVec.ofNat 64 k) ∧
      r.phys + ((header.pVaddr + BitVec.ofNat 64 k) &&& 0xfff) =
        parts.place.pool i + (header.pVaddr &&& 0xfff) + BitVec.ofNat 64 k := by
  have ends := wf.ends header (List.mem_of_getElem? at_)
  have enough := @requiredPages_enough header
  have length := granted.length at_
  obtain ⟨m, -, base, -, below⟩ := granted.pool at_
  set j := (header.pVaddr.toNat % 0x1000 + k) / 0x1000 with def_j
  have offset : (BitVec.ofNat 64 (0x1000 * j)).toNat = 0x1000 * j := by
    rw [BitVec.toNat_ofNat]
    omega
  have virtual : (header.pVaddr + BitVec.ofNat 64 k).toNat = header.pVaddr.toNat + k := by
    rw [BitVec.toNat_add, BitVec.toNat_ofNat]
    omega
  have record : wholeRecord parts.place i header ∈ parts.info file := by
    obtain ⟨less, rfl⟩ := List.getElem?_eq_some_iff.mp at_
    exact List.mem_mapIdx.mpr ⟨i, less, rfl⟩
  refine ⟨(wholeRecord parts.place i header).request (BitVec.ofNat 64 (0x1000 * j)),
    List.mem_append_left _ (List.mem_flatMap.mpr ⟨_, record, List.mem_map.mpr ⟨_, ?_, rfl⟩⟩),
    assign_eq ?_, ?_⟩
  · refine List.mem_map.mpr ⟨j, List.mem_range.mpr ?_, BitVec.zero_add _⟩
    show j < rounds 0 (header.requiredPages * 0x1000)
    rw [rounds, length, show (0 : Paging.Addr).toNat = 0 from rfl]
    omega
  · show ((header.pVaddr &&& ~~~0xfff) + BitVec.ofNat 64 (0x1000 * j)).toNat / 0x1000 = _
    rw [BitVec.toNat_add, page_toNat, offset, virtual]
    omega
  · show parts.place.pool i + BitVec.ofNat 64 (0x1000 * j) + _ = _
    apply BitVec.eq_of_toNat_eq
    rw [BitVec.toNat_add, BitVec.toNat_add, BitVec.toNat_add, BitVec.toNat_add, offset,
      offset_toNat, offset_toNat, virtual, BitVec.toNat_ofNat]
    omega

/-! ### The entry -/

/-- A copy leaves the entry. -/
theorem memcpy_entry (l : Loader) (a offset : Paging.Addr) (m : Nat) :
    (l.memcpy file a offset m).entry = l.entry := rfl

/-- And so does a pool. -/
theorem loadRest_entry (place : Place) (l : Loader) (header : ElfProgramHeader) :
    (loadRest file place l header).entry = l.entry := rfl

/-- The loop that copies leaves it. -/
theorem copyMapped_entry : ∀ {fuel : Nat} {l : Loader} {header : ElfProgramHeader}
    {t : Loader × Option ElfProgramHeader}, copyMapped file fuel l header = some t →
      t.1.entry = l.entry := by
  intro fuel
  induction fuel with
  | zero =>
    intro l header t run
    simp [copyMapped] at run
  | succ fuel ih =>
    intro l header t run
    cases mapped : elfIsPageMapped l.segments header.pVaddr with
    | false =>
      rw [copyMapped_unmapped mapped, Option.some.injEq] at run
      rw [← run]
    | true =>
      rw [copyMapped_succ mapped] at run
      split at run
      next =>
        rw [Option.some.injEq] at run
        rw [← run, memcpy_entry]
      next => rw [ih run, memcpy_entry]

/-- So does a segment. -/
theorem elfLoadSegment_entry {l l' : Loader} {loaded : Bool} {place : Place}
    (run : elfLoadSegment file place fuel l header = some (loaded, l')) : l'.entry = l.entry := by
  by_cases empty : header.pMemsz = 0
  · rw [elfLoadSegment_empty empty, Option.some.injEq, Prod.mk.injEq] at run
    rw [← run.2]
  · rw [elfLoadSegment_eq empty, Option.map_eq_some_iff] at run
    obtain ⟨⟨t, rest⟩, copied, out⟩ := run
    rw [Prod.mk.injEq] at out
    rw [← out.2]
    cases rest with
    | none => exact copyMapped_entry copied
    | some rest => exact (loadRest_entry place t rest).trans (copyMapped_entry copied)

/-- And so does the walk. -/
theorem headerLoop_entry {place : Place} {size : Paging.Addr} {r : Loader} :
    ∀ {rounds : Nat} {l : Loader} {pheader : Paging.Addr},
      headerLoop file place fuel size rounds l pheader = some (some r) → r.entry = l.entry := by
  intro rounds
  induction rounds with
  | zero =>
    intro l pheader run
    simp [headerLoop] at run
  | succ rounds ih =>
    intro l pheader run
    by_cases lt : pheader - (elfHeader file).headerTable < size
    swap
    · rw [headerLoop, if_pos (BitVec.not_lt.mp lt), Option.some.injEq, Option.some.injEq] at run
      rw [run]
    · rw [headerLoop_more lt, Option.bind_eq_some_iff] at run
      obtain ⟨⟨loaded, l'⟩, step, rest⟩ := run
      obtain ⟨rfl, -, -⟩ := stepHeader step
      rw [if_pos rfl] at rest
      refine (ih rest).trans ?_
      dsimp only
      by_cases load : (elfProgramHeader file pheader).type = elfSegmentLoad
      · rw [if_pos load] at step
        have kept := elfLoadSegment_entry step
        exact kept
      · rw [if_neg load, Option.some.injEq, Prod.mk.injEq] at step
        rw [← step.2]

/-- The file is loaded, whole, and its entry is the one of the header. -/
theorem elfLoadProgram_loaded (wf : Elf.WellFormed file) (plain : Plain (loads file))
    (fresh : Elf.Fresh parts.place (loads file)) (bytes : Bytes.Memory)
    (enough : (elfHeader file).programTableEntries.toNat < fuel) :
    ∃ r, elfLoadProgram file parts.place fuel bytes = some (some r) ∧
      Loaded file parts.place (loads file) r ∧ r.entry = (elfHeader file).programEntry := by
  obtain ⟨fuel, rfl⟩ : ∃ k, fuel = k + 1 := ⟨fuel - 1, by omega⟩
  have first : Loaded file parts.place [] (firstLoader file parts.place bytes) :=
    firstLoader_loaded
  obtain ⟨r, run, loaded⟩ := headerLoop_loads wf fresh plain (Nat.zero_add _) rfl first enough
  refine ⟨r, ?_, loaded, (headerLoop_entry run).trans rfl⟩
  rw [elfLoadProgram_elf wf.elf, ← headerAt_zero]
  exact run

/-- `task_create_new` leaves a context with the upper end of the stack, the entry, and the table. -/
theorem taskCreateNew_context (rsp0 entry : X86.Word) (new : Proc.Allocated) (k : Proc.Scheduler)
    (u : X86.Cpu) :
    let u' := (Proc.taskCreateNew rsp0 entry new k u).2.2
    u'.mem (new.ctx + 0x70) = new.stack + 0x100000 ∧ u'.mem (new.ctx + 0x80) = entry ∧
      u'.mem (new.ctx + 0x88) = new.table := by
  simp [Proc.taskCreateNew, X86.Cpu.write_mem]

/-! ### The process -/

/-- An address on a page for user code is translated to the page's frame. -/
theorem reaches_of {pages : Paging.State} {r : Request} {p : Paging.Addr}
    (same : pagingIndexerAssign r.virt = pagingIndexerAssign v)
    (address : pagingDescGetAddress (pages.leaf (pagingIndexerAssign r.virt)) = p)
    (flags : flagsOf (pages.leaf (pagingIndexerAssign r.virt)) = wide flagsUserPage) :
    Reaches pages v (p + (v &&& 0xfff)) := by
  rw [same] at address flags
  refine ⟨?_, ?_⟩
  · rw [← getFlag_flagsOf (by decide), flags]
    decide
  · rw [translation, if_pos (by rw [← getFlag_flagsOf (by decide), flags]; decide), address]


/-- The loops of the construction end. -/
theorem Granted.ends (granted : Granted limit parts file) :
    (∀ segment ∈ parts.info file, Ends 0 segment.length) ∧
      Ends (parts.task.rsp - Paging.megabyte) parts.task.rsp := by
  constructor
  · intro segment mem
    obtain ⟨i, lt, rfl⟩ := List.mem_mapIdx.mp mem
    have at_ : (loads file)[i]? = some (loads file)[i] := List.getElem?_eq_getElem lt
    obtain ⟨-, -, -, -, below⟩ := granted.pool at_
    show 0 + 0x1000 * (((_ * 0x1000 : Paging.Addr).toNat - 0 + 0xfff) / 0x1000) < 2 ^ 64
    rw [granted.length at_]
    omega
  · have run : (parts.stack.toNat, 256) ∈ parts.userRuns file :=
      List.mem_append_right _ (List.mem_singleton_self _)
    obtain ⟨-, -, -, -, below⟩ := granted.whole (List.mem_append_left _ run)
    have upper : parts.task.rsp.toNat = parts.stack.toNat + 0x100000 := by
      show (parts.stack + 0x100000).toNat = _
      rw [BitVec.toNat_add, show (0x100000 : Paging.Addr).toNat = 0x100000 from rfl]
      omega
    rw [show parts.task.rsp - Paging.megabyte = parts.stack from BitVec.add_sub_cancel ..]
    show _ + 0x1000 * ((parts.task.rsp.toNat - _ + 0xfff) / 0x1000) < 2 ^ 64
    rw [upper]
    omega

/-- The frame of the new root, and the others. -/
theorem Provided.split (h : Provided g image ist s parts file) :
    parts.frames = g s.served :: given g (s.served + 1) (s.served + parts.frames.length) := by
  have enough := h.enough
  rw [← given_succ (by omega), h.frames]

/-- The tree has the frames that are missing for the pages asked for. -/
theorem Provided.stocked (h : Provided g image ist s parts file)
    (granted : Granted limit parts file)
    (deep : parts.frames.length ≤ fuel) :
    Stocked g (ways (parts.userPages file ++ parts.kernelPages image ist (g s.served))) fuel
      (s.served + parts.frames.length) (newRoot g s) := by
  obtain ⟨nodup, frames⟩ := granted.frames
  refine newRoot_stocked h.frames nodup frames (ways_mono fun t mem => ?_) h.enough deep
  exact List.mem_append_right _ (List.mem_append_right _ (List.mem_cons_of_mem _ mem))

/-- Every page asked for is in one of the two lists. -/
theorem pages_asked : parts.task.ctxPage ::
    (requests image ist (parts.info file) parts.task table).map Request.virt ⊆
      parts.userPages file ++ parts.kernelPages image ist table := by
  rintro v (_ | ⟨_, mem⟩)
  · exact List.mem_append_right _ (List.mem_append_right _ (List.mem_cons_self ..))
  · obtain ⟨r, asked, rfl⟩ := List.mem_map.mp mem
    by_cases user : r ∈ userRequests (parts.info file) parts.task
    · exact List.mem_append_left _ (List.mem_map_of_mem user)
    · refine List.mem_append_right _ (List.mem_append_left _ (List.mem_map_of_mem ?_))
      simp only [requests, List.mem_append] at asked ⊢
      tauto

/-- The page tables are built. -/
theorem Provided.built (h : Provided g image ist s parts file) (granted : Granted limit parts file)
    (deep : parts.frames.length ≤ fuel) :
    ∃ s', taskNewPageTable g fuel image ist (parts.info file) parts.task s = some (g s.served, s') ∧
      ∃ ids all p, ids ⊆ parts.frames ∧ Filled (pagingLoadPml4 s' (g s.served)).leaf
        (mappings (requests image ist (parts.info file) parts.task (g s.served)) ids)
        (ctxMapping parts.task p) all := by
  obtain ⟨nodup, frames⟩ := granted.frames
  obtain ⟨segments, stack⟩ := granted.ends
  obtain ⟨s', run, le⟩ := taskNewPageTable_stocked (h.stocked granted deep) h.kernel segments stack
    (ways_mono pages_asked)
  have taken : (given g s.served s'.served).Sublist parts.frames := by
    rw [← h.frames]
    exact given_sublist le
  obtain ⟨all, p, -, filled⟩ := taskNewPageTable_filled run (nodup.sublist taken)
    fun t mem => frames t (taken.subset mem)
  refine ⟨s', run, _, all, p, fun t mem => ?_, filled⟩
  rw [h.split]
  exact List.mem_cons_of_mem _ ((given_sublist le).subset mem)

section
variable {ids : List Paging.Addr} {all : List Mapping} {p a : Paging.Addr} {root : Paging.State}

/-- User code finds the bytes that were loaded. -/
theorem Clear.shows (clear : Clear (parts.userPages file) (parts.kernelPages image ist table))
    (granted : Granted limit parts file) (wf : Elf.WellFormed file) {r : Loader}
    (loaded : Loaded file parts.place (loads file) r)
    (filled : Filled root.leaf
    (mappings (requests image ist (parts.info file) parts.task table) ids)
      (ctxMapping parts.task p) all) (taken : ids ⊆ parts.frames) : Shows file root r.bytes := by
  intro header mem k lt
  obtain ⟨i, at_⟩ := List.getElem?_of_mem mem
  obtain ⟨q, asked, same, byte⟩ := granted.byte wf at_ lt
  obtain ⟨address, flags⟩ := clear.mapped filled taken asked (granted.userRequest asked).1
  refine ⟨_, reaches_of same address flags, ?_⟩
  rw [byte]
  exact loaded.content i header at_ k lt

/-- User code stays in its memory. -/
theorem Clear.confined (clear : Clear (parts.userPages file) (parts.kernelPages image ist table))
    (granted : Granted limit parts file)
    (filled : Filled root.leaf
    (mappings (requests image ist (parts.info file) parts.task table) ids)
      (ctxMapping parts.task p) all) (taken : ids ⊆ parts.frames) (reaches : Reaches root v a) :
    ∃ b ∈ parts.userRuns file, a.toNat ∈ Pmm.bytes b := by
  obtain ⟨user, there⟩ := reaches
  obtain ⟨q, asked, page⟩ := filled.userRequests user
  obtain ⟨frame, room, b, mem, inside⟩ := granted.userRequest asked
  obtain ⟨address, -⟩ := clear.mapped filled taken asked frame
  refine ⟨b, mem, ?_⟩
  rw [translation] at there
  split at there
  · rw [← page, show q.mapping.page = pagingIndexerAssign q.virt from rfl, address,
      Option.some.injEq] at there
    rw [← there, offset_le (by omega)]
    exact inside _ (by omega)
  · cases there

end


end

/-- With memory that the page frame allocator gave out, a file becomes a process: user code finds
the segments of the file, and reaches nothing but their pools and the stack, so no table, no gs page
and nothing given out for anything else. The context starts it at the entry of the file. -/
theorem program_mapped (memory : Nat → Pmm.Descriptor) (map : List MemoryMapEntry)
    (s₀ : Pmm.State) (c : Pmm.Client) (limit : Nat) (parts : Parts) (others : List (Nat × Nat))
    (file bytes : Bytes.Memory) (g : Nat → Paging.Addr) (image : KernelImage)
    (ist : List Paging.Addr) (s : Paging.State)
    (valid : Pmm.ValidMap map) (start : Pmm.pmmStart memory map = .ok s₀)
    (run : Relation.ReflTransGen Pmm.Client.Step (Pmm.Client.start s₀) c)
    (held : (parts.userRuns file ++ (parts.kernelRuns ++ others)).Subperm c.held)
    (ends : ∀ e ∈ map, e.fin ≤ limit) (physical : limit ≤ 2 ^ 52)
    (heap : limit ≤ parts.place.info.toNat ∧ parts.place.info.toNat + 24 ≤ 2 ^ 64)
    (wf : Elf.WellFormed file) (plain : Plain (loads file))
    (provided : Provided g image ist s parts file) :
    ∃ least, ∀ fuel ≥ least, ∃ r s',
      elfLoadProgram file parts.place fuel bytes = some (some r) ∧
      taskNewPageTable g fuel image ist r.segments parts.task s = some (g s.served, s') ∧
      let root := pagingLoadPml4 s' (g s.served)
      Shows file root r.bytes ∧
      (∀ v a, Reaches root v a → (∃ b ∈ parts.userRuns file, a.toNat ∈ Pmm.bytes b) ∧
        ∀ b ∈ parts.kernelRuns ++ others, a.toNat ∉ Pmm.bytes b) ∧
      ∀ rsp0 k u, let new := ⟨parts.ctx, parts.gsBase, parts.stack, g s.served⟩
        let u' := (Proc.taskCreateNew rsp0 r.entry new k u).2.2
        u'.mem (parts.ctx + 0x70) = parts.task.rsp ∧
          u'.mem (parts.ctx + 0x80) = (elfHeader file).programEntry ∧
          u'.mem (parts.ctx + 0x88) = g s.served := by
  have all := Pmm.holdings_of_run valid start run held ends
  have granted : Granted limit parts file := by
    refine ⟨all.sublist ?_, physical, heap⟩
    rw [← List.append_assoc]
    exact List.sublist_append_left ..
  refine ⟨max ((elfHeader file).programTableEntries.toNat + 1) parts.frames.length,
    fun fuel enough => ?_⟩
  obtain ⟨r, load, loaded, entry⟩ :=
    elfLoadProgram_loaded wf plain granted.fresh bytes (le_of_max_le_left enough)
  obtain ⟨s', built, ids, ws, p, taken, filled⟩ :=
    provided.built granted (le_of_max_le_right enough)
  refine ⟨r, s', load, loaded.segments ▸ built, ?_, fun v a reaches => ?_, fun rsp0 k u => ?_⟩
  -- what the user sees is the file, where he may write are his own runs
  · exact provided.clear.shows granted wf loaded filled taken
  · obtain ⟨b, mem, inside⟩ := provided.clear.confined granted filled taken reaches
    refine ⟨⟨b, mem, inside⟩, fun b' other there => ?_⟩
    exact Set.disjoint_left.mp (all.disjoint_append mem other) inside there
  · rw [entry]
    exact taskCreateNew_context ..

/-! ### A program on the machine -/

/-- The pages that the machine gives one after the other. -/
def machineFrame (k : Nat) : Paging.Addr := BitVec.ofNat 64 (0x305000 + 0x1000 * k)

/-- The memory for a file of two segments: three pools, and twelve pages behind them. -/
def machineParts : Parts where
  place :=
    { info := 0x5000000
      table := 0x303000
      pool := fun i => 0x201000 + 0x1000 * BitVec.ofNat 64 i }
  ctx := 0x5001000
  gsBase := 0x304000
  stack := 0x203000
  frames := (List.range 10).map machineFrame

/-- The memory for user code on the machine. -/
theorem machineParts_userRuns : machineParts.userRuns (twoSegments 0x10) =
    [(0x201000, 1), (0x202000, 1), (0x203000, 256)] := by
  rw [Parts.userRuns, loads_apart]
  rfl

/-- All of it is held by one client. -/
theorem machineParts_held : ∃ s₀ c, Pmm.pmmStart Pmm.machineMemory Pmm.machineMap = .ok s₀ ∧
    Relation.ReflTransGen Pmm.Client.Step (Pmm.Client.start s₀) c ∧
      (machineParts.userRuns (twoSegments 0x10) ++ (machineParts.kernelRuns ++ [])).Subperm
        c.held := by
  obtain ⟨s₀, start, h₀, -⟩ := Pmm.machine_start
  obtain ⟨c₁, step₁, h₁, pages₁, pools₁⟩ :=
    Pmm.machine_takePool (c := .start s₀) (j := 1) h₀ (by decide) (by decide) (by decide)
  obtain ⟨c₂, step₂, h₂, pages₂, pools₂⟩ :=
    Pmm.machine_takePool (j := 1) h₁ (by decide) (by decide) (by decide)
  obtain ⟨c₃, step₃, h₃, pages₃, pools₃⟩ :=
    Pmm.machine_takePool (j := 256) h₂ (by decide) (by decide) (by decide)
  obtain ⟨c₄, run, -, pages, pools⟩ :=
    Pmm.machine_takePages (k := 12) h₃ (by decide) (by decide)
  refine ⟨s₀, c₄, start, .head step₁ (.head step₂ (.head step₃ run)), ?_⟩
  rw [Pmm.Client.held, pages, pools, pools₃, pools₂, pools₁, pages₃, pages₂, pages₁,
    machineParts_userRuns, show (Pmm.Client.start s₀).pages = [] from rfl,
    show (Pmm.Client.start s₀).pools = [] from rfl]
  exact List.Perm.subperm (by decide)

/-- The numbers of the pages for user code. -/
theorem machineParts_user : (machineParts.userPages (twoSegments 0x10)).map
    (fun v => (pagingIndexerAssign v).number) = 0x400 :: 0x401 :: List.range' 0x203 256 := by
  rw [Parts.userPages, Parts.info, loads_apart]
  decide +kernel

/-- The kernel's are others. -/
theorem machineParts_kernel : ∀ n ∈ (machineParts.kernelPages programImage programIst
    (machineFrame 0)).map (fun v => (pagingIndexerAssign v).number),
      n ∉ 0x400 :: 0x401 :: List.range' 0x203 256 := by
  have apart : ∀ n ∈ (machineParts.kernelPages programImage programIst (machineFrame 0)).map
      (fun v => (pagingIndexerAssign v).number), 0x303 ≤ n ∧ n ≠ 0x400 ∧ n ≠ 0x401 := by
    decide +kernel
  intro n mem
  have := apart n mem
  simp only [List.mem_cons, List.mem_range'_1]
  omega

/-- The tables below the root. -/
def machineTables : List (List (BitVec 9)) :=
  [[0], [0, 0], [0, 0, 1], [0, 0, 2], [0, 0, 5], [0, 0, 40], [511], [511, 510], [511, 510, 1]]

/-- The tables on the way to its pages. -/
theorem machineParts_tables : ∀ v ∈ machineParts.userPages (twoSegments 0x10) ++
    machineParts.kernelPages programImage programIst (machineFrame 0),
      ∀ π ∈ (pagingIndexerAssign v).path.inits.tail, π ∈ machineTables := by
  have all : (machineParts.userPages (twoSegments 0x10) ++
      machineParts.kernelPages programImage programIst (machineFrame 0)).all (fun v =>
        (pagingIndexerAssign v).path.inits.tail.all fun π => machineTables.contains π) = true := by
    rw [Parts.userPages, Parts.info, loads_apart]
    decide +kernel
  intro v mem π along
  simpa using List.all_eq_true.mp (List.all_eq_true.mp all v mem) π along

/-- The frames are enough for them. -/
theorem machineParts_provided : Provided machineFrame programImage programIst machineRoot
    machineParts (twoSegments 0x10) where
  kernel := by decide
  frames := rfl
  clear := by
    refine ⟨List.Nodup.of_map PagingIndexer.number ?_, fun v user v' kernel same => ?_⟩
    · rw [List.map_map, show PagingIndexer.number ∘ pagingIndexerAssign = fun v =>
        (pagingIndexerAssign v).number from rfl, machineParts_user]
      simp [List.nodup_range', List.mem_range'_1]
    · refine machineParts_kernel _ (List.mem_map_of_mem kernel) ?_
      rw [← machineParts_user, ← same]
      exact List.mem_map_of_mem (f := fun v => (pagingIndexerAssign v).number) user
  enough := by
    refine Nat.lt_of_le_of_lt (List.Subperm.length_le ?_)
      (show machineTables.length < 10 by decide)
    refine (List.nodup_dedup _).subperm fun π mem => ?_
    obtain ⟨v, page, along⟩ := List.mem_flatMap.mp (List.mem_dedup.mp mem)
    exact machineParts_tables v page π along

/-- Two segments become a process. -/
theorem program_mapped_machine : ∃ fuel r s',
    elfLoadProgram (twoSegments 0x10) machineParts.place fuel (fun _ => 0) = some (some r) ∧
      taskNewPageTable machineFrame fuel programImage programIst r.segments machineParts.task
        machineRoot = some (0x305000, s') ∧
      Shows (twoSegments 0x10) (pagingLoadPml4 s' 0x305000) r.bytes := by
  obtain ⟨s₀, c, start, run, held⟩ := machineParts_held
  have plain : Plain (loads (twoSegments 0x10)) := by
    rw [loads_apart]
    refine ⟨?_, by decide⟩
    simp [ElfProgramHeader.Covers, ElfProgramHeader.requiredPages]
  obtain ⟨least, all⟩ := program_mapped Pmm.machineMemory Pmm.machineMap s₀ c 0x4102000 machineParts
    [] (twoSegments 0x10) (fun _ => 0) machineFrame programImage programIst machineRoot
    Pmm.machineMap_valid start run held (by decide) (by decide) (by decide) wellFormed_apart plain
    machineParts_provided
  obtain ⟨r, s', load, built, shows, -⟩ := all least le_rfl
  exact ⟨least, r, s', load, built, shows⟩

end Skylight.Program
