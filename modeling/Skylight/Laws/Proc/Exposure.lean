import Skylight.Laws.Proc.Framebuffer

/-!
# What of memory the framebuffer opens

`framebuffer_size` multiplies the pitch, which is in bytes already, by the bytes of a pixel, in
32 bits. So the loops of `fb_req` and `fb_kill` go through the same pages, but those are the
pages of the framebuffer only where the two lengths end in the same page.

`framebuffer_exposed_iff` is exact for every geometry and every caller: `fb_req` opens the
framebuffer and nothing else, and `fb_kill` unmaps just that, if and only if the loops are of
the right length and nothing damages a page on the way. The second condition is asked of the
tables that the call finds.
-/

namespace Skylight.Calls

open Skylight.Paging

/-- The bytes of the framebuffer. -/
def Framebuffer.length (framebuffer : Framebuffer) : Nat :=
  framebuffer.framePitch.toNat * framebuffer.frameHeight.toNat

/-- The address of a byte of the framebuffer. -/
def Framebuffer.byte (framebuffer : Framebuffer) (i : Nat) : Addr :=
  framebuffer.frameAddr + BitVec.ofNat 64 i

/-- The page has a byte of the framebuffer. -/
def Framebuffer.Page (framebuffer : Framebuffer) (x : PagingIndexer) : Prop :=
  ∃ i < framebuffer.length, pagingIndexerAssign (framebuffer.byte i) = x

/-- The number of pages the framebuffer has bytes in. -/
def Framebuffer.pages (framebuffer : Framebuffer) : Nat :=
  if framebuffer.length = 0 then 0
  else (framebuffer.frameAddr.toNat % 4096 + framebuffer.length + 4095) / 4096

/-- The loops make as many rounds as the framebuffer has pages. -/
def Framebuffer.Sized (framebuffer : Framebuffer) : Prop :=
  (framebuffer.size.toNat + 4095) / 4096 = framebuffer.pages

instance decidableSized (framebuffer : Framebuffer) : Decidable framebuffer.Sized :=
  inferInstanceAs (Decidable (_ = _))

/-- `fb_req` opens the framebuffer to the caller and nothing else, and `fb_kill`, whenever it
is called, unmaps the framebuffer and nothing else. -/
structure Exposes (framebuffer : Framebuffer) (caller : Caller) (k k' : Kernel) : Prop where
  shown : ∀ i < framebuffer.length,
    Open k'.tables caller.cr3 (pagingIndexerAssign (framebuffer.byte i)) ∧
      frameOf k'.tables caller.cr3 (pagingIndexerAssign (framebuffer.byte i)) =
        pagingDescGetAddress (framebuffer.byte i - pagingVirtualOffset)
  hidden : ∀ x, ¬ framebuffer.Page x → Open k'.tables caller.cr3 x →
    Open k.tables caller.cr3 x ∧ frameOf k'.tables caller.cr3 x = frameOf k.tables caller.cr3 x
  unmapped : ∀ k₁ : Kernel, k₁.currentFbHolderPid ≠ nobody →
    WellFormed (pagingLoadPml4 k₁.tables caller.cr3) → ∀ x,
      (framebuffer.Page x →
        (pagingLoadPml4 (fbKill framebuffer caller k₁).tables caller.cr3).leaf x = 0) ∧
      (¬ framebuffer.Page x →
        (pagingLoadPml4 (fbKill framebuffer caller k₁).tables caller.cr3).leaf x =
          (pagingLoadPml4 k₁.tables caller.cr3).leaf x)

/-- At the page of each call there is nothing before, neither an older frame nor the own page of
a table, that the frame asked for has not the bits of; and no later table has its own page
there. -/
def Undamaged (g : Nat → Addr) (fuel : Nat) (framebuffer : Framebuffer) (caller : Caller)
    (k k' : Kernel) : Prop :=
  ∀ rs r rs' s, framebuffer.requests = rs ++ r :: rs' →
    mapAll g fuel (pagingLoadPml4 k.tables caller.cr3) (rs ++ [r]) = some s →
    Within (frameOf k.tables caller.cr3 r.mapping.page) (pagingDescGetAddress r.phys) ∧
    (∀ t ∈ given g k.tables.served s.served, pagingIndexerAssign t = r.mapping.page →
      Within t (pagingDescGetAddress r.phys)) ∧
    ∀ t ∈ given g s.served k'.tables.served, pagingIndexerAssign t ≠ r.mapping.page

section
variable {g : Nat → Addr} {fuel : Nat} {framebuffer : Framebuffer} {caller : Caller}
  {k k' : Kernel} {s s₁ s' : Paging.State} {c : Addr} {rs rs' : List Request} {r : Request}
  {x y : PagingIndexer} {answer : Addr}

/-! ### The pages as numbers -/

/-- A page is its number. -/
theorem number_inj (same : x.number = y.number) : x = y := by
  have h₄ := x.pml4.isLt
  have h₃ := x.pml3.isLt
  have h₂ := x.pml2.isLt
  have h₁ := x.pml1.isLt
  have k₄ := y.pml4.isLt
  have k₃ := y.pml3.isLt
  have k₂ := y.pml2.isLt
  have k₁ := y.pml1.isLt
  unfold PagingIndexer.number at same
  cases x
  cases y
  congr 1
  all_goals
    apply BitVec.eq_of_toNat_eq
    simp only at *
    omega

/-- The page of a byte, by number. -/
theorem number_byte (i : Nat) : (pagingIndexerAssign (framebuffer.byte i)).number =
    (framebuffer.frameAddr.toNat + i) / 4096 % 2 ^ 36 := by
  rw [number_assign, Framebuffer.byte, BitVec.toNat_add, BitVec.toNat_ofNat]
  omega

/-- The first `n` pages from the beginning of the framebuffer on. -/
def Framebuffer.First (framebuffer : Framebuffer) (n : Nat) (x : PagingIndexer) : Prop :=
  ∃ i < n, x.number = (framebuffer.frameAddr.toNat / 4096 + i) % 2 ^ 36

/-- The pages of the framebuffer are so many from its beginning on. -/
theorem page_iff_first : framebuffer.Page x ↔ framebuffer.First framebuffer.pages x := by
  unfold Framebuffer.Page Framebuffer.First Framebuffer.pages
  constructor
  · intro ⟨i, lt, here⟩
    refine ⟨(framebuffer.frameAddr.toNat % 4096 + i) / 4096, ?_, ?_⟩
    · rw [if_neg (by omega)]
      omega
    · rw [← here, number_byte]
      omega
  · intro ⟨j, lt, here⟩
    by_cases none : framebuffer.length = 0
    · rw [if_pos none] at lt
      cases lt
    · rw [if_neg none] at lt
      refine ⟨4096 * j - framebuffer.frameAddr.toNat % 4096, by omega, number_inj ?_⟩
      rw [number_byte, here]
      omega

/-- The rounds of a loop. -/
theorem Framebuffer.rounds_eq :
    rounds 0 framebuffer.size = (framebuffer.size.toNat + 4095) / 4096 := by
  rw [rounds, show (0 : Addr).toNat = 0 from rfl, Nat.sub_zero]

/-- They are not many. -/
theorem Framebuffer.few : (framebuffer.size.toNat + 4095) / 4096 ≤ 2 ^ 20 := by
  have small : framebuffer.size.toNat < 2 ^ 32 := by
    rw [Framebuffer.size, BitVec.toNat_setWidth]
    exact Nat.lt_of_le_of_lt (Nat.mod_le _ _) (BitVec.isLt _)
  omega

/-- The pages the loops go through. -/
theorem loop_iff_first : (∃ i ∈ pagesBetween 0 framebuffer.size,
      pagingIndexerAssign (framebuffer.frameAddr + i) = x) ↔
    framebuffer.First ((framebuffer.size.toNat + 4095) / 4096) x := by
  have page (j : Nat) : (pagingIndexerAssign
      (framebuffer.frameAddr + (0 + BitVec.ofNat 64 (0x1000 * j)))).number =
        (framebuffer.frameAddr.toNat / 4096 + j) % 2 ^ 36 := by
    have start : framebuffer.frameAddr + (0 + BitVec.ofNat 64 (0x1000 * j)) =
        framebuffer.byte (0x1000 * j) := congrArg (_ + ·) (BitVec.zero_add _)
    rw [start, number_byte]
    omega
  unfold Framebuffer.First
  rw [← Framebuffer.rounds_eq]
  constructor
  · intro ⟨i, mem, here⟩
    obtain ⟨j, lt, rfl⟩ := mem_pagesBetween mem
    exact ⟨j, lt, by rw [← here, page]⟩
  · intro ⟨j, lt, here⟩
    exact ⟨_, List.mem_map.mpr ⟨j, List.mem_range.mpr lt, rfl⟩, number_inj (by rw [page, here])⟩

/-- Different numbers of pages are different sets, if one is small. -/
theorem first_lt {m n : Nat} (small : m ≤ 2 ^ 20) (lt : m < n) :
    ∃ x, framebuffer.First n x ∧ ¬ framebuffer.First m x := by
  refine ⟨pagingIndexerAssign (framebuffer.byte (4096 * m)), ⟨m, lt, ?_⟩, ?_⟩
  · rw [number_byte]
    omega
  · intro ⟨i, less, same⟩
    rw [number_byte] at same
    omega

/-- The loops have the right number of rounds just when they have the right pages. -/
theorem sized_iff : framebuffer.Sized ↔ ∀ x, framebuffer.Page x ↔
    ∃ i ∈ pagesBetween 0 framebuffer.size, pagingIndexerAssign (framebuffer.frameAddr + i) = x := by
  have few := framebuffer.few
  simp only [page_iff_first, loop_iff_first]
  constructor
  · intro sized x
    rw [show (framebuffer.size.toNat + 4095) / 4096 = framebuffer.pages from sized]
  · intro same
    rcases Nat.lt_trichotomy ((framebuffer.size.toNat + 4095) / 4096) framebuffer.pages with
      less | eq | more
    · obtain ⟨x, yes, no⟩ := @first_lt framebuffer _ _ few less
      exact absurd ((same x).mp yes) no
    · exact eq
    · obtain ⟨x, yes, no⟩ := @first_lt framebuffer _ _ (more.le.trans few) more
      exact absurd ((same x).mpr yes) no

/-! ### The run of `fb_req` -/

/-- What is asked last for a page shows the frame asked for exactly if nothing else came there. -/
theorem mapAll_frame_iff (run : mapAll g fuel (pagingLoadPml4 s c) (rs ++ [r]) = some s')
    (wf : WellFormed (pagingLoadPml4 s c))
    (fresh : Fresh (pagingLoadPml4 s c) (given g s.served s'.served))
    (apart : ∀ q ∈ rs, q.mapping.page ≠ r.mapping.page) :
    frameOf s' c r.mapping.page = pagingDescGetAddress r.phys ↔
      Within (frameOf s c r.mapping.page) (pagingDescGetAddress r.phys) ∧
      ∀ t ∈ given g s.served s'.served, pagingIndexerAssign t = r.mapping.page →
        Within t (pagingDescGetAddress r.phys) := by
  obtain ⟨-, -, all, perm, leaf⟩ := mapAll_mapped run wf fresh
  have flags : ∀ w ∈ all, IsFlags w.flags := fun w mem => mappings_flags (perm.mem_iff.mp mem)
  have address {t : Addr} (mem : t ∈ given g s.served s'.served) :
      pagingDescGetAddress (ident t).phys = t := (fresh.frame t mem).2
  have own : r.mapping ∈ all := by
    apply perm.mem_iff.mpr
    apply List.mem_append_right
    exact List.mem_map_of_mem (List.mem_append_right rs (List.mem_singleton_self r))
  rw [frameOf, leaf]
  constructor
  · intro same
    obtain ⟨start, comes⟩ := within_foldl (L := (pagingLoadPml4 s c).leaf) (x := r.mapping.page)
      flags
    rw [same] at start comes
    refine ⟨start, fun t mem page => ?_⟩
    have within := comes (ident t) (perm.mem_iff.mpr
      (List.mem_append_left _ (List.mem_map_of_mem mem))) page
    rwa [address mem] at within
  · rintro ⟨start, tables⟩
    apply getAddress_foldl flags start
    · intro w mem page
      rcases List.mem_append.mp (perm.mem_iff.mp mem) with table | asked
      · obtain ⟨t, given, rfl⟩ := List.mem_map.mp table
        rw [address given]
        exact tables t given page
      · obtain ⟨q, among, rfl⟩ := List.mem_map.mp asked
        rcases List.mem_append.mp among with early | last
        · exact absurd page (apart q early)
        · rw [List.mem_singleton.mp last]
          exact Within.refl _
    · exact Or.inr ⟨r.mapping, own, rfl, rfl⟩

/-- A page that is asked for no more stays, unless a table has its own page there: then it is
closed. -/
theorem mapAll_rest (run : mapAll g fuel (pagingLoadPml4 s c) rs = some s')
    (wf : WellFormed (pagingLoadPml4 s c))
    (fresh : Fresh (pagingLoadPml4 s c) (given g s.served s'.served))
    (apart : ∀ q ∈ rs, q.mapping.page ≠ x) :
    (∃ t ∈ given g s.served s'.served, pagingIndexerAssign t = x) ∧ ¬ Open s' c x ∨
    (∀ t ∈ given g s.served s'.served, pagingIndexerAssign t ≠ x) ∧
      (pagingLoadPml4 s' c).leaf x = (pagingLoadPml4 s c).leaf x := by
  obtain ⟨-, -, all, perm, leaf⟩ := mapAll_mapped run wf fresh
  have only {w : Mapping} (mem : w ∈ all) (page : w.page = x) :
      ∃ t ∈ given g s.served s'.served, ident t = w := by
    rcases List.mem_append.mp (perm.mem_iff.mp mem) with table | asked
    · exact List.mem_map.mp table
    · obtain ⟨q, among, rfl⟩ := List.mem_map.mp asked
      exact absurd page (apart q among)
  by_cases table : ∃ t ∈ given g s.served s'.served, pagingIndexerAssign t = x
  · refine Or.inl ⟨table, ?_⟩
    obtain ⟨t, mem, page⟩ := table
    have closed : flagsOf (all.foldl Mapping.apply (pagingLoadPml4 s c).leaf x) =
        wide flagsKernelPage := by
      apply flagsOf_foldl fun w mem => mappings_flags (perm.mem_iff.mp mem)
      · intro w mem page
        obtain ⟨u, -, rfl⟩ := only mem page
        rfl
      · exact ⟨ident t, perm.mem_iff.mpr (List.mem_append_left _ (List.mem_map_of_mem mem)), page⟩
    rw [Open, leaf, ← getFlag_flagsOf (by decide), closed, kernel_closed]
    exact Bool.false_ne_true
  · refine Or.inr ⟨fun t mem page => table ⟨t, mem, page⟩, ?_⟩
    rw [leaf]
    apply foldl_apply_of_ne
    intro w mem page
    obtain ⟨t, given, rfl⟩ := only mem page
    exact table ⟨t, given, page⟩

/-- A page that one call maps for user code shows the frame asked for exactly if nothing else
comes there. -/
theorem mapAll_shows_iff (user : r.flags = flagsUserPage)
    (first : mapAll g fuel (pagingLoadPml4 s c) (rs ++ [r]) = some s₁)
    (later : mapAll g fuel s₁ rs' = some s') (wf : WellFormed (pagingLoadPml4 s c))
    (fresh : Fresh (pagingLoadPml4 s c) (given g s.served s'.served))
    (apart : ∀ q ∈ rs, q.mapping.page ≠ r.mapping.page)
    (apart' : ∀ q ∈ rs', q.mapping.page ≠ r.mapping.page) :
    (Open s' c r.mapping.page ∧ frameOf s' c r.mapping.page = pagingDescGetAddress r.phys) ↔
      Within (frameOf s c r.mapping.page) (pagingDescGetAddress r.phys) ∧
      (∀ t ∈ given g s.served s₁.served, pagingIndexerAssign t = r.mapping.page →
        Within t (pagingDescGetAddress r.phys)) ∧
      ∀ t ∈ given g s₁.served s'.served, pagingIndexerAssign t ≠ r.mapping.page := by
  obtain ⟨le, spec⟩ := mapAll_maps first
  obtain ⟨le', -⟩ := mapAll_maps later
  have fresh₁ := fresh
  rw [given_append (show s.served ≤ s₁.served from le) le'] at fresh₁
  have before := fresh₁.left
  have m := spec wf before
  obtain ⟨root, here⟩ := mapAll_mapped first wf before
  have frame := mapAll_frame_iff first wf before apart
  have same := loadPml4_of_eq root
  have rest := mapAll_rest (show mapAll g fuel (pagingLoadPml4 s₁ c) rs' = some s' by rwa [same])
    (by rw [same]; exact m.wf) (by rw [same]; exact m.fresh le' fresh) apart'
  cases rest with
  | inl table =>
    obtain ⟨⟨t, mem, page⟩, closed⟩ := table
    exact iff_of_false (fun shown => closed shown.1) fun kept => kept.2.2 t mem page
  | inr none =>
    obtain ⟨off, still⟩ := none
    have opened : Open s₁ c r.mapping.page := mapAll_last_open user first wf before
    rw [Open, frameOf, still]
    constructor
    · rintro ⟨-, same⟩
      obtain ⟨start, tables⟩ := frame.mp same
      exact ⟨start, tables, off⟩
    · rintro ⟨start, tables, -⟩
      exact ⟨opened, frame.mpr ⟨start, tables⟩⟩

/-! ### The frames behind the pages -/

/-- The frame of an address, in numbers. -/
theorem getAddress_toNat (a : Addr) :
    (pagingDescGetAddress a).toNat = 4096 * (a.toNat / 4096 % 2 ^ 40) := by
  apply Nat.eq_of_testBit_eq
  intro i
  rw [pagingDescGetAddress, ← BitVec.getLsbD, BitVec.getLsbD_and,
    show (4096 : Nat) = 2 ^ 12 from rfl, Nat.testBit_two_pow_mul, Nat.testBit_mod_two_pow,
    Nat.testBit_div_two_pow]
  by_cases small : i < 64
  · rw [testBit_address i small]
    by_cases low : 12 ≤ i
    · rw [show i - 12 + 12 = i by omega, ← BitVec.getLsbD]
      by_cases high : i < 52
      · simp [low, high, show i - 12 < 40 by omega]
      · simp [high, show ¬ i - 12 < 40 by omega]
    · simp [low]
  · simp [BitVec.getLsbD_of_ge a i (by omega), show ¬ i - 12 < 40 by omega]

/-- In one page of the framebuffer all bytes have one frame. -/
theorem phys_byte {i j : Nat} (here : i / 4096 ≤ 2 ^ 20) (there : j / 4096 ≤ 2 ^ 20)
    (same : pagingIndexerAssign (framebuffer.byte i) = pagingIndexerAssign (framebuffer.byte j)) :
    pagingDescGetAddress (framebuffer.byte i - pagingVirtualOffset) =
      pagingDescGetAddress (framebuffer.byte j - pagingVirtualOffset) := by
  have number := congrArg PagingIndexer.number same
  rw [number_byte, number_byte] at number
  apply BitVec.eq_of_toNat_eq
  have value (i : Nat) : (framebuffer.byte i - pagingVirtualOffset).toNat =
      (framebuffer.frameAddr.toNat + i + 2 ^ 47) % 2 ^ 64 := by
    rw [Framebuffer.byte, BitVec.toNat_sub, BitVec.toNat_add, BitVec.toNat_ofNat,
      show pagingVirtualOffset.toNat = 2 ^ 64 - 2 ^ 47 from rfl]
    omega
  rw [getAddress_toNat, getAddress_toNat, value, value]
  omega

/-! ### What `fb_req` opens -/

/-- The page a round asks for. -/
theorem request_page (i : Addr) : (framebuffer.request i).mapping.page =
    pagingIndexerAssign (framebuffer.frameAddr + i) := rfl

/-- The requests, in order. -/
theorem requests_eq : framebuffer.requests =
    (List.range (rounds 0 framebuffer.size)).map fun j =>
      framebuffer.request (BitVec.ofNat 64 (0x1000 * j)) := by
  rw [Framebuffer.requests, pagesBetween, List.map_map]
  apply List.map_congr_left
  intro j _
  exact congrArg framebuffer.request (BitVec.zero_add _)

/-- Each page is asked for once. -/
theorem requests_nodup : (framebuffer.requests.map (·.mapping.page)).Nodup := by
  have few := framebuffer.few
  rw [requests_eq, List.map_map]
  apply List.Nodup.map_on _ List.nodup_range
  intro i hi j hj same
  rw [List.mem_range, Framebuffer.rounds_eq] at hi hj
  have number := congrArg PagingIndexer.number same
  have page (j : Nat) : ((framebuffer.request (BitVec.ofNat 64 (0x1000 * j))).mapping.page).number =
      (framebuffer.frameAddr.toNat + 0x1000 * j) / 4096 % 2 ^ 36 := number_byte (0x1000 * j)
  rw [Function.comp_apply, Function.comp_apply, page, page] at number
  omega

/-- A page that is asked for is not asked for before or after. -/
theorem requests_apart (split : framebuffer.requests = rs ++ r :: rs') :
    (∀ q ∈ rs, q.mapping.page ≠ r.mapping.page) ∧ ∀ q ∈ rs', q.mapping.page ≠ r.mapping.page := by
  have nodup := @requests_nodup framebuffer
  rw [split, List.map_append, List.map_cons, List.nodup_middle, List.nodup_cons,
    ← List.map_append] at nodup
  have off (q : Request) (mem : q ∈ rs ++ rs') : q.mapping.page ≠ r.mapping.page := fun same =>
    nodup.1 (List.mem_map.mpr ⟨q, mem, same⟩)
  exact ⟨fun q mem => off q (List.mem_append_left _ mem),
    fun q mem => off q (List.mem_append_right _ mem)⟩

/-- A run of requests up to one of them, and the rest. -/
theorem mapAll_split (run : mapAll g fuel s (rs ++ r :: rs') = some s') :
    ∃ s₁, mapAll g fuel s (rs ++ [r]) = some s₁ ∧ mapAll g fuel s₁ rs' = some s' := by
  rw [← List.singleton_append, ← List.append_assoc, mapAll, List.foldlM_append] at run
  exact Option.bind_eq_some_iff.mp run

/-- A page that was mapped shows something. -/
theorem Mapped.leaf_ne {taken : List Addr} (m : Mapped s s' c taken rs) (mem : r ∈ rs)
    (user : ∀ q ∈ rs, q.flags = flagsUserPage) : (pagingLoadPml4 s' c).leaf r.mapping.page ≠ 0 := by
  obtain ⟨-, all, perm, leaf⟩ := m
  have own : r.mapping ∈ all :=
    perm.mem_iff.mpr (List.mem_append_right _ (List.mem_map_of_mem mem))
  obtain ⟨before, after, split⟩ := List.append_of_mem own
  have flags : ∀ w ∈ all, IsFlags w.flags := fun w mem => mappings_flags (perm.mem_iff.mp mem)
  have present : ∀ w ∈ all, w.flags ≠ 0 := by
    intro w mem
    rcases List.mem_append.mp (perm.mem_iff.mp mem) with table | asked
    · obtain ⟨t, -, rfl⟩ := List.mem_map.mp table
      show wide flagsKernelPage ≠ 0
      decide
    · obtain ⟨q, among, rfl⟩ := List.mem_map.mp asked
      show wide q.flags ≠ 0
      rw [user q among]
      decide
  intro zero
  rw [leaf, split, List.foldl_append, List.foldl_cons] at zero
  rw [split] at flags present
  have flagged : flagsOf (r.mapping.apply (before.foldl Mapping.apply (pagingLoadPml4 s c).leaf)
      r.mapping.page) = r.mapping.flags := by
    rw [Mapping.apply, Function.update_self]
    exact flagsOf_leafEntry r.mapping_flags
  have none : flagsOf 0 = 0 := BitVec.zero_and
  rcases flagsOf_foldl_apply (x := r.mapping.page)
    (L := r.mapping.apply (before.foldl Mapping.apply (pagingLoadPml4 s c).leaf))
    (fun w mem => flags w (List.mem_append_right _ (List.mem_cons_of_mem _ mem))) with
    same | ⟨w, mem, -, same⟩
  · rw [← same, zero, none] at flagged
    exact present _ (List.mem_append_right _ List.mem_cons_self) flagged.symm
  · rw [zero, none] at same
    exact present w (List.mem_append_right _ (List.mem_cons_of_mem _ mem)) same.symm

/-- Both loops have the pages of the framebuffer if `fb_req` opens and `fb_kill` unmaps those. -/
theorem Exposes.sized (h : Exposes framebuffer caller k k') (free : k.currentFbHolderPid = nobody)
    (run : fbReq g fuel framebuffer caller k = some (answer, k'))
    (wf : WellFormed (pagingLoadPml4 k.tables caller.cr3))
    (fresh : Fresh (pagingLoadPml4 k.tables caller.cr3)
      (given g k.tables.served k'.tables.served)) : framebuffer.Sized := by
  obtain ⟨mapped, -, -⟩ := fbReq_mapped free run wf fresh
  -- the framebuffer is given back at once
  set k₁ : Kernel := { k' with currentFbHolderPid := 0 } with def_k₁
  have held : k₁.currentFbHolderPid ≠ nobody := by
    show (0 : BitVec 64) ≠ nobody
    decide
  have wf₁ : WellFormed (pagingLoadPml4 k₁.tables caller.cr3) := mapped.here.wf
  obtain ⟨-, -, -, leaf⟩ := @fbKill_unmapped _ _ framebuffer held wf₁
  rw [sized_iff]
  intro x
  constructor
  · intro page
    by_contra off
    have zero := (h.unmapped k₁ held wf₁ x).1 page
    rw [leaf, if_neg off] at zero
    obtain ⟨i, lt, rfl⟩ := page
    have shown := (h.shown i lt).1
    rw [Open, show (pagingLoadPml4 k'.tables caller.cr3).leaf _ = 0 from zero,
      getFlag_zero] at shown
    cases shown
  · intro loop
    by_contra off
    have same := (h.unmapped k₁ held wf₁ x).2 off
    rw [leaf, if_pos loop] at same
    obtain ⟨i, mem, rfl⟩ := loop
    apply mapped.leaf_ne (List.mem_map_of_mem mem)
    · intro q mem
      obtain ⟨i, -, rfl⟩ := List.mem_map.mp mem
      rfl
    · exact same.symm

/-- A page of the loop is asked for with the frame of each of its bytes. -/
theorem request_phys {i : Nat} {a : Addr} (sized : framebuffer.Sized)
    (lt : i < framebuffer.length) (mem : a ∈ pagesBetween 0 framebuffer.size)
    (same : pagingIndexerAssign (framebuffer.frameAddr + a) =
      pagingIndexerAssign (framebuffer.byte i)) :
    pagingDescGetAddress (framebuffer.request a).phys =
      pagingDescGetAddress (framebuffer.byte i - pagingVirtualOffset) := by
  obtain ⟨j, less, rfl⟩ := mem_pagesBetween mem
  have few := framebuffer.few
  rw [Framebuffer.rounds_eq] at less
  rw [Framebuffer.Sized, Framebuffer.pages, if_neg (by omega)] at sized
  rw [show (0 : Addr) + BitVec.ofNat 64 (0x1000 * j) = BitVec.ofNat 64 (0x1000 * j) from
    BitVec.zero_add _] at same ⊢
  rw [← phys_byte (by omega) (by omega) same, Framebuffer.byte, Framebuffer.request,
    BitVec.sub_eq_add_neg, BitVec.sub_eq_add_neg, BitVec.add_assoc, BitVec.add_assoc,
    BitVec.add_comm (-_)]

/-- `fb_req` and `fb_kill` open and unmap exactly the framebuffer if and only if their loops
are of its length, and what else lies at its pages does no damage. -/
theorem framebuffer_exposed_iff (free : k.currentFbHolderPid = nobody)
    (run : fbReq g fuel framebuffer caller k = some (answer, k'))
    (wf : WellFormed (pagingLoadPml4 k.tables caller.cr3))
    (fresh : Fresh (pagingLoadPml4 k.tables caller.cr3)
      (given g k.tables.served k'.tables.served)) :
    Exposes framebuffer caller k k' ↔
      framebuffer.Sized ∧ Undamaged g fuel framebuffer caller k k' := by
  obtain ⟨mapped, -, -⟩ := fbReq_mapped free run wf fresh
  rcases fbReq_cases run with ⟨held, -⟩ | ⟨-, -, s, calls, eq⟩
  · exact absurd free held
  have tables : pagingLoadPml4 k'.tables caller.cr3 = pagingLoadPml4 s caller.cr3 := by
    rw [eq]
    rfl
  have served : k'.tables.served = s.served := by
    rw [eq]
    rfl
  have calls' : mapAll g fuel (pagingLoadPml4 k.tables caller.cr3) framebuffer.requests = some s :=
    calls
  constructor
  · intro h
    have sized := h.sized free run wf fresh
    refine ⟨sized, fun rs r rs' s₁ split first => ?_⟩
    obtain ⟨apart, apart'⟩ := requests_apart split
    rw [split] at calls'
    obtain ⟨s₂, first', later⟩ := mapAll_split calls'
    obtain rfl : s₁ = s₂ := Option.some.inj (first.symm.trans first')
    have mem : r ∈ framebuffer.requests := by
      rw [split]
      exact List.mem_append_right _ List.mem_cons_self
    obtain ⟨a, among, rfl⟩ := List.mem_map.mp mem
    obtain ⟨i, lt, page⟩ := (sized_iff.mp sized _).mpr ⟨a, among, rfl⟩
    obtain ⟨opened, frame⟩ := h.shown i lt
    rw [page] at opened frame
    rw [Open, tables] at opened
    rw [frameOf, tables] at frame
    rw [served] at fresh ⊢
    apply (mapAll_shows_iff rfl first later wf fresh apart apart').mp
    exact ⟨opened, frame.trans (request_phys sized lt among page.symm).symm⟩
  · rintro ⟨sized, undamaged⟩
    refine ⟨fun i lt => ?_, fun x off shown => ?_, fun k₁ held wf₁ x => ?_⟩
    · obtain ⟨a, among, page⟩ := (sized_iff.mp sized _).mp ⟨i, lt, rfl⟩
      obtain ⟨rs, rs', split⟩ := List.append_of_mem
        (show framebuffer.request a ∈ framebuffer.requests from List.mem_map_of_mem among)
      obtain ⟨apart, apart'⟩ := requests_apart split
      rw [split] at calls'
      obtain ⟨s₁, first, later⟩ := mapAll_split calls'
      have free := undamaged rs _ rs' s₁ split first
      rw [served] at fresh free
      obtain ⟨opened, frame⟩ := (mapAll_shows_iff rfl first later wf fresh apart apart').mpr free
      rw [request_page, page] at opened frame
      rw [Open, frameOf, tables]
      exact ⟨opened, frame.trans (request_phys sized lt among page)⟩
    -- a page the loop does not request can only lose its leaf to a table
    · have none : ∀ q ∈ framebuffer.requests, q.mapping.page ≠ x := by
        intro q mem here
        obtain ⟨a, among, rfl⟩ := List.mem_map.mp mem
        exact off ((sized_iff.mp sized _).mpr ⟨a, among, here⟩)
      rw [served] at fresh
      rw [Open, tables] at shown
      rcases mapAll_rest calls' wf fresh none with ⟨-, closed⟩ | ⟨-, still⟩
      · exact absurd shown closed
      · rw [still] at shown
        rw [frameOf, frameOf, tables, still]
        exact ⟨shown, rfl⟩
    · obtain ⟨-, -, -, leaf⟩ := @fbKill_unmapped _ _ framebuffer held wf₁
      rw [leaf x]
      exact ⟨fun page => if_pos ((sized_iff.mp sized x).mp page),
        fun off => if_neg fun loop => off ((sized_iff.mp sized x).mpr loop)⟩

end

/-! ### A framebuffer of one page -/

/-- Nothing is in the way of the framebuffer of one page. -/
theorem smallFramebuffer_undamaged {fuel : Nat} {answer : Addr} {k' : Kernel}
    (run : fbReq spaceFrames fuel smallFramebuffer firstCaller (.boot machineRoot fun _ => 0) =
      some (answer, k')) (few : k'.tables.served ≤ 2 ^ 29) :
    Undamaged spaceFrames fuel smallFramebuffer firstCaller (.boot machineRoot fun _ => 0) k' := by
  have single : smallFramebuffer.requests = [smallFramebuffer.request 0] := by decide
  rcases fbReq_cases run with ⟨held, -⟩ | ⟨-, -, s, calls, rfl⟩
  · exact absurd rfl held
  rintro rs r rs' s₁ split first
  rw [single] at split
  obtain ⟨rfl, rfl, rfl⟩ : rs = [] ∧ r = smallFramebuffer.request 0 ∧ rs' = [] := by
    cases rs with
    | nil =>
      obtain ⟨head, tail⟩ := List.cons.inj split
      exact ⟨rfl, head.symm, tail.symm⟩
    | cons q rs =>
      have tail := (List.cons.inj split).2
      simp at tail
  obtain rfl : s₁ = s := Option.some.inj (first.symm.trans
    (show mapAll spaceFrames fuel (pagingLoadPml4 machineRoot firstCaller.cr3) [_] = some s from
      single ▸ calls))
  obtain ⟨-, frames⟩ := spaceFrames_given (m := 0) few
  refine ⟨?_, fun t mem page => ?_, fun t mem => ?_⟩
  · rw [frameOf, Empty.leaf ⟨fun _ => rfl⟩, getAddress_zero]
    exact zero_within _
  · obtain ⟨-, -, n, lt, -, rfl⟩ := frames t mem
    have number := congrArg PagingIndexer.number page
    rw [number_assign, spaceFrames_toNat (Nat.lt_of_lt_of_le lt few), request_page, number_assign,
      show (smallFramebuffer.frameAddr + 0).toNat = 0xffff8000fd000000 from rfl] at number
    omega
  · have none : t ∈ given spaceFrames s₁.served s₁.served := mem
    rw [given_self] at none
    cases none

/-- It is opened and given back as it should. -/
theorem framebuffer_exposed_small : ∃ k', k'.currentFbHolderPid = 0 ∧
    Exposes smallFramebuffer firstCaller (.boot machineRoot fun _ => 0) k' := by
  obtain ⟨k', step, holder, few⟩ := framebuffer_req smallFramebuffer
  have root : firstCaller.cr3 ∈ threeRoots := Or.inr (Or.inl rfl)
  cases step with
  | @req _ _ fuel answer mem run unused =>
    exact ⟨k', holder, (framebuffer_exposed_iff rfl run (threeRoots_spaces.wf _ root)
      (unused.fresh root)).mpr ⟨by decide, smallFramebuffer_undamaged run few⟩⟩

/-- A framebuffer of 16 rows of 64 pixels. -/
def wideFramebuffer : Framebuffer := ⟨0xffff8000fd000000, 16, 256, 32⟩

/-- Its one page comes with the three behind it. -/
theorem framebuffer_not_always_exposed : ¬ ∀ (g : Nat → Addr) (fuel : Nat)
    (framebuffer : Framebuffer) (caller : Caller) (k k' : Kernel) (answer : Addr),
    k.currentFbHolderPid = nobody → fbReq g fuel framebuffer caller k = some (answer, k') →
    WellFormed (pagingLoadPml4 k.tables caller.cr3) →
    Fresh (pagingLoadPml4 k.tables caller.cr3) (given g k.tables.served k'.tables.served) →
    Exposes framebuffer caller k k' := by
  intro all
  obtain ⟨k', step, -, -⟩ := framebuffer_req wideFramebuffer
  have root : firstCaller.cr3 ∈ threeRoots := Or.inr (Or.inl rfl)
  cases step with
  | @req _ _ fuel answer mem run unused =>
    have wf := threeRoots_spaces.wf _ root
    have fresh := unused.fresh root
    have sized := (all _ _ _ _ _ _ _ rfl run wf fresh).sized rfl run wf fresh
    exact absurd sized (by decide)

end Skylight.Calls
