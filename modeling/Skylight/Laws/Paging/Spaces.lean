import Skylight.Laws.Paging.Sequence

/-!
# Several trees in one memory

The kernel and every task have a root of their own, and their tables lie side by side. What is
done under one root reaches the tables of that root and the frames it takes, so the pages
under every other root stay as they are.
-/

namespace Skylight.Paging

/-- The tree under the root `r` has the table `t`. -/
def Uses (s : State) (r t : Addr) : Prop :=
  ∃ π : List (BitVec 9), π.length ≤ 3 ∧ (pagingLoadPml4 s r).follow π = some t

/-- The trees under `roots` are well formed, and no table is in two of them. -/
structure Spaces (s : State) (roots : Set Addr) : Prop where
  wf : ∀ r ∈ roots, WellFormed (pagingLoadPml4 s r)
  apart : ∀ r ∈ roots, ∀ r' ∈ roots, ∀ t, Uses s r t → Uses s r' t → r = r'

/-- Frames that are in none of the trees. -/
structure Unused (s : State) (roots : Set Addr) (fs : List Addr) : Prop where
  nodup : fs.Nodup
  frame : ∀ t ∈ fs, t ≠ 0 ∧ IsFrame t
  unused : ∀ t ∈ fs, ∀ r ∈ roots, ¬ Uses s r t

/-- A step under the root `r`, which takes the frames `taken`. -/
structure Local (s s' : State) (r : Addr) (taken : List Addr) : Prop where
  frame : ∀ t, t ∉ taken → ¬ Uses s r t → s'.mem t = s.mem t
  news : ∀ t, Uses s' r t → Uses s r t ∨ t ∈ taken
  wf : WellFormed (pagingLoadPml4 s' r)

/-- No table of the tree under `r` is written. -/
def Stays (s s' : State) (r : Addr) : Prop := ∀ t, Uses s r t → s'.mem t = s.mem t

section
variable {g : Nat → Addr} {s s₁ s₂ s' : State} {r r' t : Addr} {roots : Set Addr}
  {fs gs taken : List Addr} {ws : List Mapping} {fuel : Nat}

/-- Loading the root that is loaded changes nothing. -/
theorem loadPml4_of_eq (h : s.pml4 = r) : pagingLoadPml4 s r = s := by
  subst h
  rfl

/-- A tree has its root. -/
theorem Uses.root : Uses s r r := ⟨[], Nat.zero_le _, rfl⟩

/-- Frames in no tree are fresh for each. -/
theorem Unused.fresh (h : Unused s roots fs) (hr : r ∈ roots) : Fresh (pagingLoadPml4 s r) fs where
  nodup := h.nodup
  frame := h.frame
  unused t mem π hπ there := h.unused t mem r hr ⟨π, hπ, there⟩

/-- And so are some of them. -/
theorem Unused.left (h : Unused s roots (fs ++ gs)) : Unused s roots fs where
  nodup := (List.nodup_append.mp h.nodup).1
  frame t mem := h.frame t (List.mem_append_left gs mem)
  unused t mem := h.unused t (List.mem_append_left gs mem)

/-- Nothing written. -/
theorem Stays.refl (s : State) (r : Addr) : Stays s s r := fun _ _ => rfl

/-- Paths lead where they led. -/
theorem Stays.follow (h : Stays s s' r) : ∀ π : List (BitVec 9), π.length ≤ 3 →
    (pagingLoadPml4 s' r).follow π = (pagingLoadPml4 s r).follow π :=
  Radix.follow_congr fun π t i hπ there => by
    rw [show (pagingLoadPml4 s' r).mem = s'.mem from rfl,
      h t ⟨π, Nat.le_of_lt hπ, there⟩]
    rfl

/-- The tree has the tables it had. -/
theorem Stays.uses (h : Stays s s' r) : Uses s' r t ↔ Uses s r t := by
  constructor
  · rintro ⟨π, hπ, there⟩
    exact ⟨π, hπ, (h.follow π hπ).symm.trans there⟩
  · rintro ⟨π, hπ, there⟩
    exact ⟨π, hπ, (h.follow π hπ).trans there⟩

/-- One step after another. -/
theorem Stays.trans (h : Stays s s₁ r) (h' : Stays s₁ s₂ r) : Stays s s₂ r := fun t used =>
  (h' t (h.uses.mpr used)).trans (h t used)

/-- The pages under the root stay. -/
theorem Stays.leaf (h : Stays s s' r) : (pagingLoadPml4 s' r).leaf = (pagingLoadPml4 s r).leaf := by
  ext1 x
  rw [State.leaf, State.leaf, h.follow x.path (path_length x)]
  cases there : (pagingLoadPml4 s r).follow x.path with
  | none => rfl
  | some t => exact congrFun (h t ⟨x.path, path_length x, there⟩) x.pml1

/-- And is still a tree. -/
theorem Stays.wf (h : Stays s s' r) (wf : WellFormed (pagingLoadPml4 s r)) :
    WellFormed (pagingLoadPml4 s' r) where
  distinct := wf.distinct.congr h.follow
  clear π t i hπ there none := by
    rw [h.follow π (by omega)] at there
    have same : (pagingLoadPml4 s' r).mem t = (pagingLoadPml4 s r).mem t :=
      h t ⟨π, by omega, there⟩
    rw [same] at none ⊢
    exact wf.clear π t i hπ there none

/-- What is done under one root leaves the trees under the others. -/
theorem Local.stays (h : Local s s' r taken) (sp : Spaces s roots) (un : Unused s roots taken)
    (hr : r ∈ roots) (hr' : r' ∈ roots) (ne : r' ≠ r) : Stays s s' r' := by
  intro t used
  apply h.frame t
  · exact fun mem => un.unused t mem r' hr' used
  · exact fun own => ne (sp.apart r' hr' r hr t used own)

/-- The trees stay apart. -/
theorem Local.spaces (h : Local s s' r taken) (sp : Spaces s roots) (un : Unused s roots taken)
    (hr : r ∈ roots) : Spaces s' roots where
  wf r' hr' := by
    by_cases same : r' = r
    · rw [same]
      exact h.wf
    · exact (h.stays sp un hr hr' same).wf (sp.wf r' hr')
  apart r₁ h₁ r₂ h₂ t u₁ u₂ := by
    -- a table new under `r` was a free frame, which no other tree has
    have clash {q : Addr} (hq : q ∈ roots) (ne : q ≠ r) (own : Uses s' r t) (other : Uses s' q t) :
        False := by
      have used := (h.stays sp un hr hq ne).uses.mp other
      rcases h.news t own with old | mem
      · exact ne (sp.apart q hq r hr t used old)
      · exact un.unused t mem q hq used
    by_cases e₁ : r₁ = r
    · by_cases e₂ : r₂ = r
      · rw [e₁, e₂]
      · exact (clash h₂ e₂ (e₁ ▸ u₁) u₂).elim
    · by_cases e₂ : r₂ = r
      · exact (clash h₁ e₁ (e₂ ▸ u₂) u₁).elim
      · exact sp.apart r₁ h₁ r₂ h₂ t ((h.stays sp un hr h₁ e₁).uses.mp u₁)
          ((h.stays sp un hr h₂ e₂).uses.mp u₂)

/-- Two steps under one root. -/
theorem Local.trans (h : Local s s₁ r fs) (h' : Local s₁ s₂ r gs) : Local s s₂ r (fs ++ gs) where
  frame t off old := by
    rw [List.mem_append, not_or] at off
    rw [h'.frame t off.2 fun used => (h.news t used).elim old off.1, h.frame t off.1 old]
  news t used := by
    rcases h'.news t used with used | mem
    · exact (h.news t used).imp_right (List.mem_append_left gs)
    · exact Or.inr (List.mem_append_right fs mem)
  wf := h'.wf

/-- Frames that come after those taken are still unused. -/
theorem Unused.right (h : Unused s roots (fs ++ gs)) (l : Local s s' r fs) (sp : Spaces s roots)
    (hr : r ∈ roots) : Unused s' roots gs where
  nodup := (List.nodup_append.mp h.nodup).2.1
  frame t mem := h.frame t (List.mem_append_right fs mem)
  unused t mem q hq used := by
    have off := h.unused t (List.mem_append_right fs mem)
    by_cases same : q = r
    · rw [same] at used
      rcases l.news t used with old | taken
      · exact off r hr old
      · exact (List.nodup_append.mp h.nodup).2.2 t taken t mem rfl
    · exact off q hq ((l.stays sp h.left hr hq same).uses.mp used)

/-- A call under a root is a step there. -/
theorem Extends.local (e : Extends (pagingLoadPml4 s r) s' taken ws) : Local s s' r taken where
  frame t off old := e.frame t off fun π hπ there => old ⟨π, hπ, there⟩
  news t used := by
    obtain ⟨π, hπ, there⟩ := used
    rw [← show s'.pml4 = r from e.root] at there
    rcases e.news π t hπ there with old | ⟨-, mem⟩
    · exact Or.inl ⟨π, hπ, old⟩
    · exact Or.inr mem
  wf := by
    rw [loadPml4_of_eq (show s'.pml4 = r from e.root)]
    exact e.wf

/-- An empty root is the only table of its tree. -/
theorem Empty.uses (h : Empty (pagingLoadPml4 s r)) (used : Uses s r t) : t = r := by
  obtain ⟨π, -, there⟩ := used
  cases π with
  | nil => exact (Option.some.inj there).symm
  | cons i π =>
    rw [h.childless.follow _ (List.cons_ne_nil _ _)] at there
    cases there

/-- Empty roots are trees apart. -/
theorem Spaces.of_empty (h : ∀ r ∈ roots, Empty (pagingLoadPml4 s r)) : Spaces s roots where
  wf r hr := (h r hr).wf
  apart r hr r' hr' _ u u' := ((h r hr).uses u).symm.trans ((h r' hr').uses u')

/-- A root of its own, empty, is put beside the others. -/
theorem Spaces.insert (sp : Spaces s roots) (un : Unused s roots [r])
    (frame : ∀ t, t ≠ r → s'.mem t = s.mem t) (blank : ∀ i, s'.mem r i = 0) :
    Spaces s' (insert r roots) := by
  have empty : Empty (pagingLoadPml4 s' r) := ⟨blank⟩
  have stays (q : Addr) (hq : q ∈ roots) : Stays s s' q := fun t used =>
    frame t fun same => un.unused r (List.mem_singleton_self r) q hq (same ▸ used)
  have clash (q : Addr) (hq : q ∈ roots) (t : Addr) (own : Uses s' r t) (other : Uses s' q t) :
      False := by
    rw [empty.uses own] at other
    exact un.unused r (List.mem_singleton_self r) q hq ((stays q hq).uses.mp other)
  constructor
  · intro q hq
    rcases Set.mem_insert_iff.mp hq with rfl | hq
    · exact empty.wf
    · exact (stays q hq).wf (sp.wf q hq)
  · intro q₁ h₁ q₂ h₂ t u₁ u₂
    rcases Set.mem_insert_iff.mp h₁ with e₁ | h₁ <;> rcases Set.mem_insert_iff.mp h₂ with e₂ | h₂
    · rw [e₁, e₂]
    · exact (clash q₂ h₂ t (e₁ ▸ u₁) u₂).elim
    · exact (clash q₁ h₁ t (e₂ ▸ u₂) u₁).elim
    · exact sp.apart q₁ h₁ q₂ h₂ t ((stays q₁ h₁).uses.mp u₁) ((stays q₂ h₂).uses.mp u₂)

@[simp] theorem unmap_pml4 (s : State) (v : Addr) : (pagingUnmapPage s v).pml4 = s.pml4 := by
  rw [pagingUnmapPage]
  cases lastTable s (pagingIndexerAssign v) <;> rfl

@[simp] theorem unmap_served (s : State) (v : Addr) : (pagingUnmapPage s v).served = s.served := by
  rw [pagingUnmapPage]
  cases lastTable s (pagingIndexerAssign v) <;> rfl

/-- Unmapping writes to the last table of the page at most. -/
theorem unmap_local (v : Addr) (wf : WellFormed (pagingLoadPml4 s r)) :
    Local s (pagingUnmapPage (pagingLoadPml4 s r) v) r [] := by
  obtain ⟨wf', -, follow, -⟩ := wf.unmap v
  have root : pagingLoadPml4 (pagingUnmapPage (pagingLoadPml4 s r) v) r =
      pagingUnmapPage (pagingLoadPml4 s r) v := loadPml4_of_eq (unmap_pml4 _ v)
  constructor
  · intro t _ old
    rw [pagingUnmapPage, lastTable_eq]
    cases there : (pagingLoadPml4 s r).follow (pagingIndexerAssign v).path with
    | none => rfl
    | some u =>
      ext1 j
      have ne : t ≠ u := fun same => old ⟨_, path_length _, same ▸ there⟩
      show (State.setEntry _ u _ 0).mem t j = _
      rw [State.setEntry_mem, if_neg fun h => ne h.1]
      rfl
  · rintro t ⟨π, hπ, there⟩
    rw [root, follow π hπ] at there
    exact Or.inl ⟨π, hπ, there⟩
  · rw [root]
    exact wf'

/-- What mapping a page under a root does. -/
theorem mapPage_local {virt phys answer : Addr} {flags : BitVec 16}
    (run : pagingMapPage g fuel (pagingLoadPml4 s r) virt phys flags = some (answer, s'))
    (wf : WellFormed (pagingLoadPml4 s r))
    (fresh : Fresh (pagingLoadPml4 s r) (given g s.served s'.served)) :
    answer = virt ∧ s'.pml4 = r ∧ s.served ≤ s'.served ∧
      Local s s' r (given g s.served s'.served) ∧
      ∃ ids : List Mapping, ids.Perm ((given g s.served s'.served).map ident) ∧
        (pagingLoadPml4 s' r).leaf = List.foldl Mapping.apply (pagingLoadPml4 s r).leaf
          (ids ++ [⟨pagingIndexerAssign virt, phys, wide flags⟩]) := by
  obtain ⟨le, spec⟩ := mapPage_runs run
  obtain ⟨same, -, ids, perm, e⟩ := spec wf fresh
  have root : s'.pml4 = r := e.root
  refine ⟨same, root, le, e.local, ids, perm, ?_⟩
  rw [loadPml4_of_eq root]
  exact e.leaf

/-- The address of a page is `a` when no bit but those of `a` comes in, and all of them do. -/
theorem getAddress_foldl {L : PagingIndexer → Desc} {x : PagingIndexer} {a : Addr}
    (hf : ∀ w ∈ ws, IsFlags w.flags) (start : Within (pagingDescGetAddress (L x)) a)
    (all : ∀ w ∈ ws, w.page = x → Within (pagingDescGetAddress w.phys) a)
    (there : pagingDescGetAddress (L x) = a ∨
      ∃ w ∈ ws, w.page = x ∧ pagingDescGetAddress w.phys = a) :
    pagingDescGetAddress (ws.foldl Mapping.apply L x) = a := by
  apply Within.antisymm (foldl_within hf start all)
  rcases there with same | ⟨w, mem, page, same⟩
  · rw [← same]
    exact (within_foldl hf).1
  · rw [← same]
    exact (within_foldl hf).2 w mem page

end

end Skylight.Paging
