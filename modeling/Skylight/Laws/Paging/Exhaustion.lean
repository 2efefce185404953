import Skylight.Laws.Paging.Remap

/-!
# Frames that are not there

`pmm_alloc_page` answers `NULL` when it has no frame, and `paging_map_page` takes that for the
frame at 0: it clears it, and leads to it.

A call is described by what it installs, in the order of the source (`mapInstalls`); `Null` is a
descriptor that leads to the frame at 0. `mapInstalls_null_iff` says of a call with all its
tables there when it installs one, and `mapPage_installs_null` that a call which misses a table
always does. `mapPage_spares_iff` and `pmap_spares_iff` are the exact conditions under which a
call with frames missing leaves everything as it was. What is stored in the frame at 0
afterwards, and who reads it, is not followed.
-/

namespace Skylight.Paging

/-- A present descriptor that leads to the frame at 0. -/
def Null (e : Desc) : Prop := pagingDescGetFlag e flagPresent = true ∧ pagingDescGetAddress e = 0

/-- The descriptors one level of `paging_map_page` puts where none was. -/
def enterInstalls (g : Nat → Addr) (identity : State → Addr → List Desc) (flags : Desc) (s : State)
    (table : Addr) (i : BitVec 9) : List Desc :=
  if pagingDescGetFlag (s.mem table i) flagPresent then []
  else tableEntry (s.mem table i) (g s.served) flags ::
    identity (installed g s table i flags) (g s.served)

/-- The descriptors `paging_map_page` puts into the tables, those of the calls inside it included,
in their order. -/
def mapInstalls (g : Nat → Addr) : Nat → State → Addr → Addr → BitVec 16 → List Desc
  | 0, _, _, _, _ => []
  | fuel + 1, s, virt, phys, flags =>
    let indexer := pagingIndexerAssign virt
    let enter := enterTable g (identityCall g fuel) (wide flags)
    let installs :=
      enterInstalls g (fun s page => mapInstalls g fuel s page page flagsKernelPage) (wide flags)
    installs s s.pml4 indexer.pml4 ++
    match enter s s.pml4 indexer.pml4 with
    | none => []
    | some (pdp, s) => installs s pdp indexer.pml3 ++
      match enter s pdp indexer.pml3 with
      | none => []
      | some (pd, s) => installs s pd indexer.pml2 ++
        match enter s pd indexer.pml2 with
        | none => []
        | some (pt, s) => [leafEntry (s.mem pt indexer.pml1) phys (wide flags)]

/-- The frames among the answers of `pmm_alloc_page`. -/
def frames (g : Nat → Addr) (m n : Nat) : List Addr := (given g m n).filter (· ≠ 0)

section
variable {g : Nat → Addr} {s s₁ s' : State} {π : List (BitVec 9)} {i : BitVec 9}
  {t t' n virt phys a : Addr} {e f p : Desc} {flags : BitVec 16} {k l m fuel : Nat}
  {ws : List Mapping} {w : Mapping} {L : PagingIndexer → Desc} {x : PagingIndexer}
  {ids : List Mapping} {ts : List Addr} {u v : Addr} {s₀ : State}
  {identity : State → Addr → Option State} {installs : State → Addr → List Desc}

/-! ### What is installed -/

/-- What a call installs: level by level, and then the page. -/
theorem mapInstalls_succ (phys : Addr) {pdp pd pt : Addr} {s₁ s₂ s₃ : State}
    (h₁ : enterTable g (identityCall g fuel) (wide flags) s s.pml4
      (pagingIndexerAssign virt).pml4 = some (pdp, s₁))
    (h₂ : enterTable g (identityCall g fuel) (wide flags) s₁ pdp
      (pagingIndexerAssign virt).pml3 = some (pd, s₂))
    (h₃ : enterTable g (identityCall g fuel) (wide flags) s₂ pd
      (pagingIndexerAssign virt).pml2 = some (pt, s₃)) {e : Desc} :
    let deeper := fun s page => mapInstalls g fuel s page page flagsKernelPage
    e ∈ mapInstalls g (fuel + 1) s virt phys flags ↔
      e ∈ enterInstalls g deeper (wide flags) s s.pml4 (pagingIndexerAssign virt).pml4 ∨
      e ∈ enterInstalls g deeper (wide flags) s₁ pdp (pagingIndexerAssign virt).pml3 ∨
      e ∈ enterInstalls g deeper (wide flags) s₂ pd (pagingIndexerAssign virt).pml2 ∨
      e = leafEntry (s₃.mem pt (pagingIndexerAssign virt).pml1) phys (wide flags) := by
  intro deeper
  rw [mapInstalls]
  simp only [h₁, h₂, h₃, List.mem_append, List.mem_singleton]
  rfl

/-- A level that is there installs nothing new. -/
theorem enterInstalls_present (present : pagingDescGetFlag (s.mem t i) flagPresent = true) :
    enterInstalls g installs f s t i = [] := if_pos present

/-- One that is not installs its table, and what maps that table's page. -/
theorem enterInstalls_absent (absent : pagingDescGetFlag (s.mem t i) flagPresent = false) :
    enterInstalls g installs f s t i = tableEntry (s.mem t i) (g s.served) f ::
      installs (installed g s t i f) (g s.served) :=
  if_neg (by rw [absent]; exact Bool.false_ne_true)

/-- The address of a new table joins the bits that were there. -/
theorem getAddress_tableEntry (hf : IsFlags f) :
    pagingDescGetAddress (tableEntry e n f) =
      pagingDescGetAddress e ||| pagingDescGetAddress n := by
  have flag : pagingDescGetAddress flagPresent = 0 := by decide
  have same : pagingDescGetAddress (n &&& addressMask) = pagingDescGetAddress n :=
    getAddress_frame n
  rw [tableEntry_eq, getAddress_or, getAddress_or, getAddress_or, flag, hf.address, same]
  simp

/-- A new table is present. -/
theorem present_tableEntry : pagingDescGetFlag (tableEntry e n f) flagPresent = true := by
  have set : pagingDescGetFlag flagPresent flagPresent = true := by decide
  rw [tableEntry_eq, BitVec.or_assoc]
  exact ((within_or_left _ _).trans (within_or_right _ _)).getFlag set

/-- A table that is not there is led to all the same. -/
theorem null_tableEntry (clear : pagingDescGetAddress e = 0) (hf : IsFlags f) :
    Null (tableEntry e 0 f) := by
  refine ⟨present_tableEntry, ?_⟩
  rw [getAddress_tableEntry hf, clear, getAddress_zero]
  exact BitVec.or_zero

/-! ### A missing table -/

/-- A call for a new table's page meets the first missing frame. -/
def Meets (g : Nat → Addr) (identity : State → Addr → Option State)
    (installs : State → Addr → List Desc) : Prop :=
  ∀ s n s' k, WellFormed s → identity s n = some s' → s.served ≤ k → k < s'.served → g k = 0 →
    Fresh s (given g s.served k) → ∃ e ∈ installs s n, Null e

/-- A level meets the first frame that is missing. -/
theorem enterInstalls_null (meets : Meets g identity installs) (wf : WellFormed s)
    (hf : IsFlags f) (hπ : π.length ≤ 2) (ht : s.follow π = some t)
    (run : enterTable g identity f s t i = some (t', s')) (le : s.served ≤ k)
    (lt : k < s'.served) (null : g k = 0) (fresh : Fresh s (given g s.served k)) :
    ∃ e ∈ enterInstalls g installs f s t i, Null e := by
  cases present : pagingDescGetFlag (s.mem t i) flagPresent with
  | true =>
    rw [enterTable_present present] at run
    cases run
    exact absurd (Nat.lt_of_le_of_lt le lt) (Nat.lt_irrefl _)
  | false =>
    rw [enterTable_absent present] at run
    obtain ⟨u, answer, eq⟩ := Option.map_eq_some_iff.mp run
    cases eq
    rw [enterInstalls_absent present]
    rcases Nat.eq_or_lt_of_le le with rfl | later
    · refine ⟨_, List.mem_cons_self .., ?_⟩
      rw [null]
      exact null_tableEntry (wf.clear π t i hπ ht (child_of_absent present)) hf
    · have split : given g s.served k = [g s.served] ++ given g (s.served + 1) k :=
        given_succ later
      rw [split] at fresh
      obtain ⟨e, -⟩ := installed_extends wf hπ ht present hf fresh.left
      obtain ⟨entry, mem, null⟩ := meets _ _ _ k e.wf answer later lt null (fresh.right e)
      exact ⟨entry, List.mem_cons_of_mem _ mem, null⟩

/-- The first missing frame is installed. -/
theorem mapPage_null : ∀ {fuel : Nat} {s : State} {virt phys : Addr} {flags : BitVec 16}
    {a : Addr} {s' : State} {k : Nat}, WellFormed s →
    pagingMapPage g fuel s virt phys flags = some (a, s') → s.served ≤ k → k < s'.served →
    g k = 0 → Fresh s (given g s.served k) →
    ∃ e ∈ mapInstalls g fuel s virt phys flags, Null e := by
  intro fuel
  -- The frame is asked for at this level, or by the call for a new table's page.
  induction fuel with
  | zero =>
    intro s virt phys flags a s' k _ run
    cases run
  | succ fuel ih =>
    intro s virt phys flags a s' k wf run le lt null fresh
    have meets : Meets g (identityCall g fuel)
        fun s page => mapInstalls g fuel s page page flagsKernelPage := by
      intro s n s' k wf answer le lt null fresh
      obtain ⟨r, run, rfl⟩ := Option.map_eq_some_iff.mp answer
      exact ih wf run le lt null fresh
    have id := identityCall_identifies g fuel
    have hf := isFlags_wide flags
    obtain ⟨pdp, s₁, pd, s₂, pt, s₃, h₁, h₂, h₃, -, rfl⟩ := mapPage_cases run
    have le₁ := enterTable_served id h₁
    have le₂ := enterTable_served id h₂
    have mem {e : Desc} := mapInstalls_succ phys h₁ h₂ h₃ (e := e)
    rcases Nat.lt_or_ge k s₁.served with lt₁ | ge₁
    · obtain ⟨e, he, null⟩ :=
        enterInstalls_null (π := []) meets wf hf (by simp) rfl h₁ le lt₁ null fresh
      exact ⟨e, mem.mpr (Or.inl he), null⟩
    rw [given_append le₁ ge₁] at fresh
    obtain ⟨r₁, t₁, -⟩ := enterTable_runs (π := []) id wf hf (by simp) rfl h₁ fresh.left
    have fresh₁ : Fresh s₁ (given g s₁.served k) := by
      obtain ⟨-, _, -, e⟩ := r₁
      exact fresh.right e
    rcases Nat.lt_or_ge k s₂.served with lt₂ | ge₂
    · obtain ⟨e, he, null⟩ := enterInstalls_null (π := [_]) meets r₁.wf hf (by simp) t₁ h₂ ge₁
        lt₂ null fresh₁
      exact ⟨e, mem.mpr (Or.inr (Or.inl he)), null⟩
    rw [given_append le₂ ge₂] at fresh₁
    obtain ⟨r₂, t₂, -⟩ := enterTable_runs (π := [_]) id r₁.wf hf (by simp) t₁ h₂ fresh₁.left
    have fresh₂ : Fresh s₂ (given g s₂.served k) := by
      obtain ⟨-, _, -, e⟩ := r₂
      exact fresh₁.right e
    obtain ⟨e, he, null⟩ := enterInstalls_null (π := [_, _]) meets r₂.wf hf (by simp) t₂ h₃ ge₂
      lt null fresh₂
    exact ⟨e, mem.mpr (Or.inr (Or.inr (Or.inl he))), null⟩

/-! ### Frames among the answers -/

/-- Frames in two parts. -/
theorem frames_append (h : m ≤ k) (h' : k ≤ l) : frames g m l = frames g m k ++ frames g k l := by
  rw [frames, given_append h h', List.filter_append]
  rfl

/-- An answer of the allocator, by its number. -/
theorem mem_given : t ∈ given g m l ↔ ∃ k, m ≤ k ∧ k < l ∧ g k = t := by
  rw [given, List.mem_map]
  constructor
  · rintro ⟨k, mem, rfl⟩
    rw [List.mem_range'_1] at mem
    exact ⟨k, mem.1, by omega, rfl⟩
  · rintro ⟨k, le, lt, rfl⟩
    exact ⟨k, List.mem_range'_1.mpr ⟨le, by omega⟩, rfl⟩

/-- Where none is missing the frames are the answers. -/
theorem frames_eq (some : ∀ t ∈ given g m l, t ≠ 0) : frames g m l = given g m l := by
  apply List.filter_eq_self.mpr
  intro t mem
  exact decide_eq_true (some t mem)

/-- Before the first missing frame all are there. -/
theorem exists_first (null : (0 : Addr) ∈ given g m l) :
    ∃ k, m ≤ k ∧ k < l ∧ g k = 0 ∧ frames g m k = given g m k := by
  have some : ∃ k, m ≤ k ∧ k < l ∧ g k = 0 := mem_given.mp null
  classical
  obtain ⟨le, lt, zero⟩ := Nat.find_spec some
  refine ⟨Nat.find some, le, lt, zero, frames_eq fun t mem => ?_⟩
  obtain ⟨j, le', lt', rfl⟩ := mem_given.mp mem
  intro zero'
  exact Nat.find_min some lt' ⟨le', by omega, zero'⟩

/-- A call that misses a table when there is no frame left installs the frame at 0, which
`pmm_alloc_page` answers then: the code does not look at the answer. -/
theorem mapPage_installs_null (wf : WellFormed s)
    (run : pagingMapPage g fuel s virt phys flags = some (a, s'))
    (fresh : Fresh s (frames g s.served s'.served))
    (null : (0 : Addr) ∈ given g s.served s'.served) :
    ∃ e ∈ mapInstalls g fuel s virt phys flags, Null e := by
  obtain ⟨k, le, lt, zero, same⟩ := exists_first null
  rw [frames_append le (Nat.le_of_lt lt), same] at fresh
  exact mapPage_null wf run le lt zero fresh.left

/-! ### No missing table -/

/-- A page mapped with the flag is present. -/
theorem present_leafEntry (hf : IsFlags f) (set : pagingDescGetFlag f flagPresent = true) :
    pagingDescGetFlag (leafEntry e p f) flagPresent = true := by
  rw [← getFlag_flagsOf (by decide), flagsOf_leafEntry hf, set]

/-- A call for a new table's page installs nothing that leads to the frame at 0. -/
def Leads (g : Nat → Addr) (identity : State → Addr → Option State)
    (installs : State → Addr → List Desc) : Prop :=
  ∀ s n s', WellFormed s → identity s n = some s' → n ≠ 0 → IsFrame n →
    Fresh s (given g s.served s'.served) → ∀ e ∈ installs s n, ¬ Null e

/-- A level with its frames there leads nowhere to the frame at 0. -/
theorem enterInstalls_leads (id : Identifies g identity) (leads : Leads g identity installs)
    (wf : WellFormed s) (hf : IsFlags f) (hπ : π.length ≤ 2) (ht : s.follow π = some t)
    (run : enterTable g identity f s t i = some (t', s'))
    (fresh : Fresh s (given g s.served s'.served)) :
    ∀ e ∈ enterInstalls g installs f s t i, ¬ Null e := by
  cases present : pagingDescGetFlag (s.mem t i) flagPresent with
  | true =>
    rw [enterInstalls_present present]
    intro e mem
    cases mem
  | false =>
    rw [enterTable_absent present] at run
    obtain ⟨u, answer, eq⟩ := Option.map_eq_some_iff.mp run
    cases eq
    have split : given g s.served s'.served
        = [g s.served] ++ given g (s.served + 1) s'.served := given_succ (id _ _ _ answer).1
    rw [split] at fresh
    obtain ⟨some, frame⟩ := fresh.frame (g s.served) (List.mem_cons_self ..)
    obtain ⟨ext, -⟩ := installed_extends wf hπ ht present hf fresh.left
    rw [enterInstalls_absent present, List.forall_mem_cons]
    refine ⟨fun null => some ?_, leads _ _ _ ext.wf answer some frame (fresh.right ext)⟩
    have zero := null.2
    rw [getAddress_tableEntry hf, wf.clear π t i hπ ht (child_of_absent present),
      show pagingDescGetAddress (g s.served) = g s.served from frame] at zero
    rw [← zero]
    exact BitVec.zero_or.symm

/-- With all the tables there, a call installs a descriptor that leads to the frame at 0 just when
the page ends up there. -/
theorem mapInstalls_null_iff : ∀ {fuel : Nat} {s : State} {virt phys : Addr} {flags : BitVec 16}
    {a : Addr} {s' : State}, WellFormed s →
    pagingMapPage g fuel s virt phys flags = some (a, s') →
    pagingDescGetFlag (wide flags) flagPresent = true →
    Fresh s (given g s.served s'.served) →
    ((∃ e ∈ mapInstalls g fuel s virt phys flags, Null e) ↔ pagingWalkPage s' virt = 0) := by
  intro fuel
  -- The calls for new tables are one level of fuel deeper, so the statement is about every page.
  induction fuel with
  | zero =>
    intro s virt phys flags a s' _ run
    cases run
  | succ fuel ih =>
    intro s virt phys flags a s' wf run set fresh
    have leads : Leads g (identityCall g fuel)
        fun s page => mapInstalls g fuel s page page flagsKernelPage := by
      intro s n s' wf answer some frame fresh e mem null
      obtain ⟨⟨a, s'⟩, run, rfl⟩ := Option.map_eq_some_iff.mp answer
      obtain ⟨-, spec⟩ := mapPage_runs run
      obtain ⟨-, -, ids, perm, ext⟩ := spec wf fresh
      have zero := (ih wf run (by decide) fresh).mp ⟨e, mem, null⟩
      have hf : ∀ w ∈ ids ++ [⟨pagingIndexerAssign n, n, wide flagsKernelPage⟩],
          IsFlags w.flags := by
        intro w hw
        rcases List.mem_append.mp hw with hw | hw
        · exact ids_flags perm w hw
        · rw [List.mem_singleton.mp hw]
          exact isFlags_wide _
      have own := (within_foldl (L := s.leaf) (x := pagingIndexerAssign n) hf).2 _
        (List.mem_append_right _ (List.mem_singleton_self _)) rfl
      rw [← ext.leaf, ← walk_eq, zero, show pagingDescGetAddress n = n from frame] at own
      apply some
      rw [← own]
      exact BitVec.and_zero
    have id := identityCall_identifies g fuel
    have hf := isFlags_wide flags
    obtain ⟨pdp, s₁, pd, s₂, pt, s₃, h₁, h₂, h₃, -, rfl⟩ := mapPage_cases run
    have mem {e : Desc} := mapInstalls_succ phys h₁ h₂ h₃ (e := e)
    obtain ⟨-, spec⟩ := levels_runs id hf h₁ h₂ h₃
    have le₁ := enterTable_served id h₁
    have le₂ := enterTable_served id h₂
    have le₃ := enterTable_served id h₃
    have fresh : Fresh s (given g s.served s₃.served) := fresh
    obtain ⟨r, there, -⟩ := spec wf fresh
    rw [given_append le₁ (le₂.trans le₃)] at fresh
    obtain ⟨r₁, t₁, -⟩ := enterTable_runs (π := []) id wf hf (by simp) rfl h₁ fresh.left
    have fresh₁ : Fresh s₁ (given g s₁.served s₃.served) := by
      obtain ⟨-, _, -, e⟩ := r₁
      exact fresh.right e
    rw [given_append le₂ le₃] at fresh₁
    obtain ⟨r₂, t₂, -⟩ := enterTable_runs (π := [_]) id r₁.wf hf (by simp) t₁ h₂ fresh₁.left
    have fresh₂ : Fresh s₂ (given g s₂.served s₃.served) := by
      obtain ⟨-, _, -, e⟩ := r₂
      exact fresh₁.right e
    have own : Null (leafEntry (s₃.mem pt (pagingIndexerAssign virt).pml1) phys (wide flags)) ↔
        pagingWalkPage (s₃.setEntry pt (pagingIndexerAssign virt).pml1
          (leafEntry (s₃.mem pt (pagingIndexerAssign virt).pml1) phys (wide flags))) virt = 0 := by
      rw [walk_eq, leaf_setLeaf r.wf.distinct there, Function.update_self]
      exact and_iff_right (present_leafEntry hf set)
    rw [← own]
    constructor
    · rintro ⟨e, he, null⟩
      rcases mem.mp he with he | he | he | rfl
      · exact absurd null
          (enterInstalls_leads (π := []) id leads wf hf (by simp) rfl h₁ fresh.left e he)
      · exact absurd null
          (enterInstalls_leads (π := [_]) id leads r₁.wf hf (by simp) t₁ h₂ fresh₁.left e he)
      · exact absurd null
          (enterInstalls_leads (π := [_, _]) id leads r₂.wf hf (by simp) t₂ h₃ fresh₂ e he)
      · exact null
    · intro null
      exact ⟨_, mem.mpr (Or.inr (Or.inr (Or.inr rfl))), null⟩

/-! ### What was there before -/

/-- Mapping `virt` leads nowhere to the frame at 0 and leaves the pages of `s₀`: every table is
there, and a frame that is not there is for a page that has one. Where a page was, the frame has
no other bits and the flags are the same. -/
structure Spares (s₀ s : State) (taken : List Addr) (virt phys : Addr) (flags : BitVec 16) :
    Prop where
  tables : ∀ t ∈ taken, t ≠ 0
  backed : phys = 0 → pagingWalkPage s virt ≠ 0 ∨
    ∃ t ∈ taken, pagingIndexerAssign t = pagingIndexerAssign virt
  page : Present s₀ virt → Within phys (pagingWalkPage s virt) ∧
    flagsOf (s.leaf (pagingIndexerAssign virt)) = wide flags
  idents : ∀ t ∈ taken, Present s₀ t → Within t (pagingWalkPage s t) ∧
    (pagingIndexerAssign t ≠ pagingIndexerAssign virt →
      flagsOf (s.leaf (pagingIndexerAssign t)) = wide flagsKernelPage)

/-- A page keeps its address when what is mapped to it has no other bits. -/
theorem getAddress_kept_iff (hf : ∀ w ∈ ws, IsFlags w.flags) :
    pagingDescGetAddress (ws.foldl Mapping.apply L x) = pagingDescGetAddress (L x) ↔
      ∀ w ∈ ws, w.page = x → Within (pagingDescGetAddress w.phys) (pagingDescGetAddress (L x)) := by
  constructor
  · intro same
    rw [← same]
    exact (within_foldl hf).2
  · intro all
    exact Within.antisymm (foldl_within hf (Within.refl _) all) (within_foldl hf).1

/-- Only nothing is in nothing. -/
theorem within_zero : Within e 0 ↔ e = 0 := by
  rw [Within, show e &&& 0 = 0 from BitVec.and_zero]
  exact eq_comm

/-- A page is at 0 when nothing put there has another address. -/
theorem getAddress_gone_iff (hf : ∀ w ∈ ws, IsFlags w.flags) :
    pagingDescGetAddress (ws.foldl Mapping.apply L x) = 0 ↔ pagingDescGetAddress (L x) = 0 ∧
      ∀ w ∈ ws, w.page = x → pagingDescGetAddress w.phys = 0 := by
  constructor
  · intro gone
    obtain ⟨start, all⟩ := @within_foldl ws L x hf
    rw [gone] at start all
    exact ⟨within_zero.mp start, fun w mem page => within_zero.mp (all w mem page)⟩
  · rintro ⟨start, all⟩
    apply within_zero.mp
    exact foldl_within hf (within_zero.mpr start) fun w mem page =>
      within_zero.mpr (all w mem page)

/-- What a call maps has flags and nothing else. -/
theorem mapped_flags {own : Mapping} (perm : ids.Perm (ts.map ident)) (hf : IsFlags own.flags) :
    ∀ w ∈ ids ++ [own], IsFlags w.flags := by
  intro w mem
  rcases List.mem_append.mp mem with mem | mem
  · exact ids_flags perm w mem
  · rw [List.mem_singleton.mp mem]
    exact hf

/-- The flags when the own pages `ids` are mapped, and then a page. -/
theorem flagsOf_mapped {own : Mapping} (perm : ids.Perm (ts.map ident)) (hf : IsFlags own.flags) :
    flagsOf ((ids ++ [own]).foldl Mapping.apply L x) =
      if own.page = x then own.flags
      else if ∃ t ∈ ts, pagingIndexerAssign t = x then wide flagsKernelPage
      else flagsOf (L x) := by
  rw [List.foldl_append, List.foldl_cons, List.foldl_nil, Mapping.apply]
  by_cases here : own.page = x
  · rw [if_pos here, here, Function.update_self]
    exact flagsOf_leafEntry hf
  rw [if_neg here, Function.update_of_ne (Ne.symm here)]
  split
  · next table =>
    obtain ⟨t, ht, page⟩ := table
    apply flagsOf_foldl (ids_flags perm)
    · intro w mem _
      obtain ⟨u, -, rfl⟩ := (mem_ids perm).mp mem
      rfl
    · exact ⟨ident t, (mem_ids perm).mpr ⟨t, ht, rfl⟩, page⟩
  · next off =>
    rw [foldl_apply_of_ne]
    intro w mem page
    obtain ⟨t, ht, rfl⟩ := (mem_ids perm).mp mem
    exact off ⟨t, ht, page⟩

/-- Presence is a matter of the page. -/
theorem Present.congr (h : Present s v) (same : pagingIndexerAssign v = pagingIndexerAssign u) :
    Present s u := by
  rw [Present, ← same]
  exact h

/-- A call leaves what was present before just when what it maps there is there. -/
theorem mapped_unchanged_iff (perm : ids.Perm (ts.map ident)) (frames : ∀ t ∈ ts, IsFrame t)
    (frame : IsFrame phys) (leaf : s'.leaf = List.foldl Mapping.apply s.leaf
      (ids ++ [⟨pagingIndexerAssign virt, phys, wide flags⟩])) :
    (∀ w, Present s₀ w → Unchanged s s' w) ↔
      (Present s₀ virt → Within phys (pagingWalkPage s virt) ∧
        flagsOf (s.leaf (pagingIndexerAssign virt)) = wide flags) ∧
      ∀ t ∈ ts, Present s₀ t → Within t (pagingWalkPage s t) ∧
        (pagingIndexerAssign t ≠ pagingIndexerAssign virt →
          flagsOf (s.leaf (pagingIndexerAssign t)) = wide flagsKernelPage) := by
  set own : Mapping := ⟨pagingIndexerAssign virt, phys, wide flags⟩
  have hf : ∀ w ∈ ids ++ [own], IsFlags w.flags := mapped_flags perm (isFlags_wide flags)
  have address {w : Addr} : pagingWalkPage s' w = pagingWalkPage s w ↔
      (pagingIndexerAssign virt = pagingIndexerAssign w → Within phys (pagingWalkPage s w)) ∧
      ∀ t ∈ ts, pagingIndexerAssign t = pagingIndexerAssign w →
        Within t (pagingWalkPage s w) := by
    rw [walk_eq, walk_eq, leaf, getAddress_kept_iff hf]
    constructor
    · intro all
      constructor
      · intro page
        have own := all own (List.mem_append_right _ (List.mem_singleton_self _)) page
        rwa [show pagingDescGetAddress phys = phys from frame] at own
      · intro t ht page
        have own := all (ident t) (List.mem_append_left _ ((mem_ids perm).mpr ⟨t, ht, rfl⟩)) page
        rwa [show pagingDescGetAddress (ident t).phys = t from frames t ht] at own
    · rintro ⟨page, tables⟩ v mem here
      rcases List.mem_append.mp mem with mem | mem
      · obtain ⟨t, ht, rfl⟩ := (mem_ids perm).mp mem
        rw [show pagingDescGetAddress (ident t).phys = t from frames t ht]
        exact tables t ht here
      · rw [List.mem_singleton.mp mem] at here ⊢
        rw [show pagingDescGetAddress phys = phys from frame]
        exact page here
  have rights {w : Addr} : flagsOf ((ids ++ [own]).foldl Mapping.apply s.leaf
      (pagingIndexerAssign w)) = _ := flagsOf_mapped perm (isFlags_wide flags)
  constructor
  · intro same
    constructor
    · intro present
      obtain ⟨walk, flag⟩ := same virt present
      refine ⟨(address.mp walk).1 rfl, ?_⟩
      rw [← flag, leaf, rights, if_pos rfl]
    · intro t ht present
      obtain ⟨walk, flag⟩ := same t present
      refine ⟨(address.mp walk).2 t ht rfl, fun ne => ?_⟩
      rw [← flag, leaf, rights, if_neg (Ne.symm ne), if_pos ⟨t, ht, rfl⟩]
  · rintro ⟨page, tables⟩ w present
    constructor
    · apply address.mpr
      constructor
      · intro same
        rw [walk_eq, ← same, ← walk_eq]
        exact (page (present.congr same.symm)).1
      · intro t ht same
        rw [walk_eq, ← same, ← walk_eq]
        exact (tables t ht (present.congr same.symm)).1
    · rw [leaf, rights]
      split
      · next here =>
        rw [← show pagingIndexerAssign virt = pagingIndexerAssign w from here]
        exact (page (present.congr (Eq.symm here))).2.symm
      · next other =>
        split
        · next table =>
          obtain ⟨t, ht, same⟩ := table
          rw [← same]
          exact ((tables t ht (present.congr same.symm)).2
            (fun eq => other (eq.symm.trans same))).symm
        · rfl

/-- A page that is mapped is at 0 when nothing was there, the frame is missing, and no table's
own page is there. -/
theorem walk_gone_iff (perm : ids.Perm (ts.map ident)) (frames : ∀ t ∈ ts, t ≠ 0 ∧ IsFrame t)
    (frame : IsFrame phys) (leaf : s'.leaf = List.foldl Mapping.apply s.leaf
      (ids ++ [⟨pagingIndexerAssign virt, phys, wide flags⟩])) :
    pagingWalkPage s' virt = 0 ↔ pagingWalkPage s virt = 0 ∧ phys = 0 ∧
      ∀ t ∈ ts, pagingIndexerAssign t ≠ pagingIndexerAssign virt := by
  rw [walk_eq, walk_eq, leaf, getAddress_gone_iff (mapped_flags perm (isFlags_wide flags))]
  apply and_congr_right
  intro _
  constructor
  · intro all
    constructor
    · rw [← show pagingDescGetAddress phys = phys from frame]
      exact all _ (List.mem_append_right _ (List.mem_singleton_self _)) rfl
    · intro t ht page
      apply (frames t ht).1
      rw [← show pagingDescGetAddress t = t from (frames t ht).2]
      exact all (ident t) (List.mem_append_left _ ((mem_ids perm).mpr ⟨t, ht, rfl⟩)) page
  · rintro ⟨zero, off⟩ w mem page
    rcases List.mem_append.mp mem with mem | mem
    · obtain ⟨t, ht, rfl⟩ := (mem_ids perm).mp mem
      exact absurd page (off t ht)
    · rw [List.mem_singleton.mp mem, zero]
      exact getAddress_zero

/-- A call leads nowhere to the frame at 0 and leaves the pages of `s₀` just when it spares
them. -/
theorem mapPage_spares_iff (wf : WellFormed s)
    (run : pagingMapPage g fuel s virt phys flags = some (a, s'))
    (set : pagingDescGetFlag (wide flags) flagPresent = true) (frame : IsFrame phys)
    (fresh : Fresh s (frames g s.served s'.served)) :
    ((∀ e ∈ mapInstalls g fuel s virt phys flags, ¬ Null e) ∧
      ∀ w, Present s₀ w → Unchanged s s' w) ↔
        Spares s₀ s (given g s.served s'.served) virt phys flags := by
  by_cases missing : (0 : Addr) ∈ given g s.served s'.served
  · obtain ⟨e, mem, null⟩ := mapPage_installs_null wf run fresh missing
    constructor
    · rintro ⟨none, -⟩
      exact absurd null (none e mem)
    · intro spares
      exact absurd rfl (spares.tables 0 missing)
  have some : ∀ t ∈ given g s.served s'.served, t ≠ 0 := by
    rintro t mem rfl
    exact missing mem
  rw [frames_eq some] at fresh
  obtain ⟨-, -, ids, perm, e⟩ := (mapPage_runs run).2 wf fresh
  have backed : (∀ e ∈ mapInstalls g fuel s virt phys flags, ¬ Null e) ↔
      (phys = 0 → pagingWalkPage s virt ≠ 0 ∨ ∃ t ∈ given g s.served s'.served,
        pagingIndexerAssign t = pagingIndexerAssign virt) := by
    have installs := mapInstalls_null_iff wf run set fresh
    rw [walk_gone_iff perm fresh.frame frame e.leaf] at installs
    constructor
    · intro none zero
      by_contra off
      rw [not_or, not_not, not_exists] at off
      obtain ⟨e, mem, null⟩ := installs.mpr ⟨off.1, zero, fun t ht page => off.2 t ⟨ht, page⟩⟩
      exact none e mem null
    · intro there e mem null
      obtain ⟨walk, zero, off⟩ := installs.mp ⟨e, mem, null⟩
      rcases there zero with walked | ⟨t, ht, page⟩
      · exact walked walk
      · exact off t ht page
  rw [backed, mapped_unchanged_iff perm (fun t ht => (fresh.frame t ht).2) frame e.leaf]
  constructor
  · rintro ⟨backed, page, idents⟩
    exact ⟨some, backed, page, idents⟩
  · intro spares
    exact ⟨spares.backed, spares.page, spares.idents⟩

/-- Where nothing leads to the frame at 0, every table is there. -/
theorem tables_of_installs (wf : WellFormed s)
    (run : pagingMapPage g fuel s virt phys flags = some (a, s'))
    (fresh : Fresh s (frames g s.served s'.served))
    (none : ∀ e ∈ mapInstalls g fuel s virt phys flags, ¬ Null e) :
    ∀ t ∈ given g s.served s'.served, t ≠ 0 := by
  rintro t mem rfl
  obtain ⟨e, mem, null⟩ := mapPage_installs_null wf run fresh mem
  exact none e mem null

/-- Where nothing leads to the frame at 0, the page does not either. -/
theorem walk_of_installs (wf : WellFormed s)
    (run : pagingMapPage g fuel s virt phys flags = some (a, s'))
    (set : pagingDescGetFlag (wide flags) flagPresent = true)
    (fresh : Fresh s (frames g s.served s'.served))
    (none : ∀ e ∈ mapInstalls g fuel s virt phys flags, ¬ Null e) : pagingWalkPage s' virt ≠ 0 := by
  rw [frames_eq (tables_of_installs wf run fresh none)] at fresh
  intro zero
  obtain ⟨e, mem, null⟩ := (mapInstalls_null_iff wf run set fresh).mpr zero
  exact none e mem null

/-! ### `pmap` -/

/-- Frames that come first are fresh by themselves. -/
theorem Fresh.of_append {fs gs : List Addr} (h : Fresh s (fs ++ gs)) : Fresh s gs where
  nodup := (List.nodup_append.mp h.nodup).2.1
  frame t mem := h.frame t (List.mem_append_right fs mem)
  unused t mem := h.unused t (List.mem_append_right fs mem)

/-- A frame that was asked for and then the others. -/
theorem frames_alloc {n : Nat} (lt : s.served < n) (fresh : Fresh s (frames g s.served n)) :
    IsFrame (g s.served) ∧ Fresh (s.pmmAllocPage g).2 (frames g (s.served + 1) n) := by
  rw [frames_append (Nat.le_succ _) lt] at fresh
  constructor
  · by_cases zero : g s.served = 0
    · rw [zero]
      exact BitVec.zero_and
    · apply (fresh.frame _ (List.mem_append_left _ _)).2
      rw [frames, List.mem_filter, mem_given]
      exact ⟨⟨_, Nat.le_refl _, Nat.lt_succ_self _, rfl⟩, decide_eq_true zero⟩
  · have later := fresh.of_append
    exact ⟨later.nodup, later.frame, later.unused⟩

/-- The descriptors `pmap` puts into the tables. -/
def pmapInstalls (g : Nat → Addr) (fuel : Nat) (cr3 virt : Addr) (s : State) : List Desc :=
  let (phys, s) := s.pmmAllocPage g
  let virt := if virt = pmapVirtDefault then phys else virt
  mapInstalls g fuel (pagingLoadPml4 s cr3) virt phys flagsUserPage

/-- `pmap` leads nowhere to the frame at 0, gives the task no page there, and leaves the pages the
task had, just when its call of `paging_map_page` spares them. -/
theorem pmap_spares_iff {cr3 virt answer : Addr} (wf : WellFormed (pagingLoadPml4 s cr3))
    (run : pmap g fuel cr3 virt s = some (answer, s'))
    (fresh : Fresh (pagingLoadPml4 s cr3) (frames g s.served s'.served)) :
    ((∀ e ∈ pmapInstalls g fuel cr3 virt s, ¬ Null e) ∧
      pagingWalkPage (pagingLoadPml4 s' cr3) answer ≠ 0 ∧
      ∀ w, Present (pagingLoadPml4 s cr3) w →
        Unchanged (pagingLoadPml4 s cr3) (pagingLoadPml4 s' cr3) w) ↔
    Spares (pagingLoadPml4 s cr3) (pagingLoadPml4 s cr3) (given g (s.served + 1) s'.served)
      (if virt = pmapVirtDefault then g s.served else virt) (g s.served) flagsUserPage := by
  rw [pmap] at run
  obtain ⟨⟨a, s₁⟩, call, run⟩ := Option.bind_eq_some_iff.mp run
  cases run
  set d := pagingLoadPml4 (s.pmmAllocPage g).2 cr3 with def_d
  have call : pagingMapPage g fuel d (if virt = pmapVirtDefault then g s.served else virt)
      (g s.served) flagsUserPage = some (answer, s₁) := call
  obtain ⟨frame, later⟩ := @frames_alloc g (pagingLoadPml4 s cr3) _ (mapPage_runs call).1 fresh
  have later : Fresh d (frames g d.served s₁.served) := later
  have wf : WellFormed d := ⟨wf.1, wf.2⟩
  have spares := @mapPage_spares_iff _ _ _ _ _ _ _ _ (pagingLoadPml4 s cr3) wf call
      (by decide) frame later
  show (_ ∧ pagingWalkPage (pagingLoadPml4 s₁ cr3) answer ≠ 0 ∧ ∀ w, _ →
    Unchanged d (pagingLoadPml4 s₁ cr3) w) ↔ _
  have there (none : ∀ e ∈ pmapInstalls g fuel cr3 virt s, ¬ Null e) :
      pagingLoadPml4 s₁ cr3 = s₁ ∧ pagingWalkPage s₁ answer ≠ 0 := by
    have walk := walk_of_installs wf call (by decide) later none
    rw [frames_eq (tables_of_installs wf call later none)] at later
    obtain ⟨same, -, _, -, e⟩ := (mapPage_runs call).2 wf later
    rw [same]
    exact ⟨loadPml4_of_eq e.root, walk⟩
  constructor
  · rintro ⟨none, -, same⟩
    rw [(there none).1] at same
    have h := spares.mp ⟨none, same⟩
    exact ⟨h.tables, h.backed, h.page, h.idents⟩
  · intro h
    obtain ⟨none, same⟩ := spares.mpr ⟨h.tables, h.backed, h.page, h.idents⟩
    rw [(there none).1]
    exact ⟨none, (there none).2, same⟩

end

end Skylight.Paging
