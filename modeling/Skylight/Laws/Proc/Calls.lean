import Skylight.Laws.Paging.Spaces
import Skylight.Proc.Calls

/-!
# What the calls do to page tables

`fb_req`, `fb_kill` and `kb_man` load the table of the caller, map or unmap some pages of it
and load the kernel's again. Each is followed through the pages under the caller's root; the
trees under other roots stay.

Each call is split by the branches of its source (`fbReq_cases`, `kbMan_cases`), and each branch
has one law about the pages. Who may call what, and what the record of the holder is then worth,
is left to `Laws.Proc.Framebuffer` and `Laws.Proc.Keyboard`.
-/

namespace Skylight.Calls

open Skylight.Paging

section
variable {g : Nat → Addr} {fuel : Nat} {s s₁ s' : Paging.State} {r c a b : Addr}
  {rs : List Request} {page : Addr → Addr} {pages : List Addr} {k k' : Kernel} {caller : Caller}
  {framebuffer : Framebuffer}

/-- The pages `rs` are mapped under the root `r`, and `taken` is what that takes. -/
structure Mapped (s s' : Paging.State) (r : Addr) (taken : List Addr) (rs : List Request) :
    Prop where
  here : Local s s' r taken
  leaf : ∃ all : List Mapping, all.Perm (taken.map ident ++ rs.map Request.mapping) ∧
    (pagingLoadPml4 s' r).leaf = List.foldl Mapping.apply (pagingLoadPml4 s r).leaf all

/-- A loop of requests maps its pages under the root that is loaded. -/
theorem mapAll_mapped (run : mapAll g fuel (pagingLoadPml4 s r) rs = some s')
    (wf : WellFormed (pagingLoadPml4 s r))
    (fresh : Fresh (pagingLoadPml4 s r) (given g s.served s'.served)) :
    s'.pml4 = r ∧ Mapped s s' r (given g s.served s'.served) rs := by
  obtain ⟨-, all, perm, e⟩ := (mapAll_maps run).2 wf fresh
  have root : s'.pml4 = r := e.root
  refine ⟨root, e.local, all, perm, ?_⟩
  rw [loadPml4_of_eq root]
  exact e.leaf

/-- A frame is taken and a page mapped. -/
theorem alloc_mapPage {virt phys answer : Addr} {flags : BitVec 16}
    (run : pagingMapPage g fuel (pagingLoadPml4 { s with served := s.served + 1 } r) virt phys flags
      = some (answer, s')) (wf : WellFormed (pagingLoadPml4 s r))
    (fresh : Fresh (pagingLoadPml4 s r) (given g s.served s'.served)) :
    s.served < s'.served ∧ answer = virt ∧ s'.pml4 = r ∧
      Local s s' r (given g (s.served + 1) s'.served) ∧
      ∃ ids : List Mapping, ids.Perm ((given g (s.served + 1) s'.served).map ident) ∧
        (pagingLoadPml4 s' r).leaf = List.foldl Mapping.apply (pagingLoadPml4 s r).leaf
          (ids ++ [⟨pagingIndexerAssign virt, phys, wide flags⟩]) := by
  have le : s.served < s'.served := (mapPage_runs run).1
  rw [given_succ le] at fresh
  have later : Fresh (pagingLoadPml4 s r) (given g (s.served + 1) s'.served) :=
    ⟨(List.nodup_cons.mp fresh.nodup).2, fun t mem => fresh.frame t (List.mem_cons_of_mem _ mem),
      fun t mem => fresh.unused t (List.mem_cons_of_mem _ mem)⟩
  obtain ⟨same, root, -, here, ids, perm, leaf⟩ :=
    @mapPage_local g { s with served := s.served + 1 } s' r fuel _ _ _ _ run ⟨wf.1, wf.2⟩
      ⟨later.nodup, later.frame, later.unused⟩
  exact ⟨le, same, root, ⟨here.frame, here.news, here.wf⟩, ids, perm, leaf⟩

/-- The pages of a loop are unmapped under the root `r`. -/
theorem unmap_foldl : ∀ (pages : List Addr) {s₁ : Paging.State}, s₁.pml4 = r → Local s s₁ r [] →
    let s' := pages.foldl (fun s i => pagingUnmapPage s (page i)) s₁
    s'.pml4 = r ∧ s'.served = s₁.served ∧ Local s s' r [] ∧
      ∀ x, s'.leaf x = if ∃ i ∈ pages, pagingIndexerAssign (page i) = x then 0 else s₁.leaf x := by
  intro pages
  -- Unmapping takes no frame and moves no table, so the pages after it are found as before.
  induction pages with
  | nil =>
    intro s₁ root here
    exact ⟨root, rfl, here, fun x => by simp⟩
  | cons i pages ih =>
    intro s₁ root here
    have wf₁ : WellFormed s₁ := by
      rw [← loadPml4_of_eq root]
      exact here.wf
    have step := unmap_local (s := s₁) (r := r) (page i) here.wf
    rw [loadPml4_of_eq root] at step
    obtain ⟨root', served, here', leaf⟩ := ih ((unmap_pml4 s₁ (page i)).trans root)
      (here.trans step)
    refine ⟨root', served.trans (unmap_served _ _), here', fun x => ?_⟩
    rw [List.foldl_cons, leaf, (wf₁.unmap (page i)).2.1]
    by_cases later : ∃ j ∈ pages, pagingIndexerAssign (page j) = x
    · obtain ⟨j, hj, same⟩ := later
      rw [if_pos ⟨j, hj, same⟩, if_pos ⟨j, List.mem_cons_of_mem _ hj, same⟩]
    · rw [if_neg later]
      by_cases now : x = pagingIndexerAssign (page i)
      · rw [now, Function.update_self, if_pos ⟨i, List.mem_cons_self, rfl⟩]
      · rw [Function.update_of_ne now, if_neg]
        rintro ⟨j, hj, same⟩
        rcases List.mem_cons.mp hj with rfl | hj
        · exact now same.symm
        · exact later ⟨j, hj, same⟩

/-- `fb_req` refuses while somebody holds the framebuffer, whoever asks, and else maps it page by
page in the caller's tables and records the caller. -/
theorem fbReq_cases (run : fbReq g fuel framebuffer caller k = some (a, k')) :
    (k.currentFbHolderPid ≠ nobody ∧ a = 0 ∧ k' = k) ∨
    (k.currentFbHolderPid = nobody ∧ a = framebuffer.frameAddr ∧ ∃ s,
      mapAll g fuel (pagingLoadPml4 k.tables caller.cr3)
        ((pagesBetween 0 framebuffer.size).map framebuffer.request) = some s ∧
      k' = { k with currentFbHolderPid := caller.pid, tables :=
        pagingLoadPml4 s k.tables.pml4 }) := by
  rw [fbReq] at run
  split at run
  · next held =>
    cases run
    exact Or.inl ⟨held, rfl, rfl⟩
  · next free =>
    obtain ⟨s, pages, run⟩ := Option.bind_eq_some_iff.mp run
    cases run
    rw [mapPages] at pages
    split at pages
    · exact Or.inr ⟨not_not.mp free, rfl, s, pages, rfl⟩
    · cases pages

/-- The loop over the framebuffer ends. -/
theorem Framebuffer.ends (framebuffer : Framebuffer) : Ends 0 framebuffer.size := by
  have small : framebuffer.size.toNat < 2 ^ 32 := by
    rw [Framebuffer.size, BitVec.toNat_setWidth]
    exact Nat.lt_of_le_of_lt (Nat.mod_le _ _) (BitVec.isLt _)
  have zero : (0 : Addr).toNat = 0 := rfl
  rw [Ends, rounds, zero]
  omega

/-- The table of the caller after `fb_req` has mapped the framebuffer. -/
theorem fbReq_mapped (free : k.currentFbHolderPid = nobody)
    (run : fbReq g fuel framebuffer caller k = some (a, k'))
    (wf : WellFormed (pagingLoadPml4 k.tables caller.cr3))
    (fresh : Fresh (pagingLoadPml4 k.tables caller.cr3)
      (given g k.tables.served k'.tables.served)) :
    Mapped k.tables k'.tables caller.cr3 (given g k.tables.served k'.tables.served)
        ((pagesBetween 0 framebuffer.size).map framebuffer.request) ∧
      k'.tables.pml4 = k.tables.pml4 ∧ k'.currentFbHolderPid = caller.pid := by
  rcases fbReq_cases run with ⟨held, -⟩ | ⟨-, -, s, pages, rfl⟩
  · exact absurd free held
  · obtain ⟨-, here, all, perm, leaf⟩ := mapAll_mapped pages wf fresh
    exact ⟨⟨⟨here.frame, here.news, here.wf⟩, all, perm, leaf⟩, rfl, rfl⟩

/-- The table of the caller after `fb_kill` has unmapped the framebuffer. -/
theorem fbKill_unmapped (held : k.currentFbHolderPid ≠ nobody)
    (wf : WellFormed (pagingLoadPml4 k.tables caller.cr3)) :
    Local k.tables (fbKill framebuffer caller k).tables caller.cr3 [] ∧
      (fbKill framebuffer caller k).tables.pml4 = k.tables.pml4 ∧
      (fbKill framebuffer caller k).tables.served = k.tables.served ∧
      ∀ x, (pagingLoadPml4 (fbKill framebuffer caller k).tables caller.cr3).leaf x =
        if ∃ i ∈ pagesBetween 0 framebuffer.size,
          pagingIndexerAssign (framebuffer.frameAddr + i) = x then 0
        else (pagingLoadPml4 k.tables caller.cr3).leaf x := by
  have start : Local k.tables (pagingLoadPml4 k.tables caller.cr3) caller.cr3 [] :=
    ⟨fun _ _ _ => rfl, fun _ used => Or.inl used, wf⟩
  obtain ⟨root, served, here, leaf⟩ := @unmap_foldl k.tables caller.cr3
    (fun i => framebuffer.frameAddr + i) (pagesBetween 0 framebuffer.size) _ rfl start
  rw [fbKill, if_neg held]
  refine ⟨⟨here.frame, here.news, here.wf⟩, rfl, served, fun x => ?_⟩
  rw [← leaf x]
  congr 1
  exact loadPml4_of_eq root

/-- `kb_man` refuses who may not take or release; it lets go of the page, or maps a new one. -/
theorem kbMan_cases {taking : Bool} (run : kbMan g fuel taking caller k = some (a, k')) :
    (a = 0 ∧ k' = k ∧
      if taking then k.currentPid ≠ nobody else k.currentPid ≠ caller.pid ∨ k.currentPid = nobody) ∨
    (taking = false ∧ k.currentPid = caller.pid ∧ k.currentPid ≠ nobody ∧ a = 0 ∧
      k' = { k with
        currentPid := nobody, currentBuffer := 0, currentSize := 0
        tables := pagingLoadPml4 (pagingUnmapPage (pagingLoadPml4 k.tables caller.cr3)
          k.currentBuffer) k.tables.pml4 }) ∨
    (taking = true ∧ k.currentPid = nobody ∧ a = g k.tables.served ∧ ∃ answer s,
      pagingMapPage g fuel (pagingLoadPml4
        { k.tables with served := k.tables.served + 1 } caller.cr3)
        a a flagsUserPage = some (answer, s) ∧
      k' = { Kernel.write16 { k with
          currentPid := caller.pid, currentBuffer := a, currentSize := a + pagingPageSize - 2 }
            (a + pagingPageSize - 2) 0 with
        tables := pagingLoadPml4 s k.tables.pml4 }) := by
  cases taking with
  | false =>
    rw [kbMan] at run
    simp only [Bool.not_false, if_true] at run
    split at run
    · next refused =>
      cases run
      exact Or.inl ⟨rfl, rfl, by simpa using refused⟩
    · next allowed =>
      rw [not_or, not_not] at allowed
      cases run
      exact Or.inr (Or.inl ⟨rfl, allowed.1, allowed.2, rfl, rfl⟩)
  | true =>
    rw [kbMan] at run
    simp only [Bool.not_true, Bool.false_eq_true, if_false] at run
    split at run
    · next refused =>
      cases run
      exact Or.inl ⟨rfl, rfl, by simpa using refused⟩
    · next free =>
      obtain ⟨⟨answer, s⟩, call, run⟩ := Option.bind_eq_some_iff.mp run
      cases run
      exact Or.inr (Or.inr ⟨rfl, not_not.mp free, rfl, answer, s, call, rfl⟩)

/-- What a call that takes the keyboard leaves. -/
structure Taken (g : Nat → Addr) (caller : Caller) (k k' : Kernel) (buffer : Addr) : Prop where
  buffer_eq : buffer = g k.tables.served
  lt : k.tables.served < k'.tables.served
  here : Local k.tables k'.tables caller.cr3 (given g (k.tables.served + 1) k'.tables.served)
  leaf : ∃ ids : List Mapping,
    ids.Perm ((given g (k.tables.served + 1) k'.tables.served).map ident) ∧
      (pagingLoadPml4 k'.tables caller.cr3).leaf =
        List.foldl Mapping.apply (pagingLoadPml4 k.tables caller.cr3).leaf
          (ids ++ [⟨pagingIndexerAssign buffer, buffer, wide flagsUserPage⟩])
  root : k'.tables.pml4 = k.tables.pml4
  pid : k'.currentPid = caller.pid
  kept : k'.currentBuffer = buffer ∧ k'.currentSize = buffer + pagingPageSize - 2
  bytes : k'.bytes = (k.write16 (buffer + pagingPageSize - 2) 0).bytes

/-- What `kb_man` leaves when it gives the keyboard away. -/
theorem kbMan_taken (free : k.currentPid = nobody)
    (run : kbMan g fuel true caller k = some (a, k'))
    (wf : WellFormed (pagingLoadPml4 k.tables caller.cr3))
    (fresh : Fresh (pagingLoadPml4 k.tables caller.cr3)
      (given g k.tables.served k'.tables.served)) : Taken g caller k k' a := by
  rcases kbMan_cases run with ⟨-, -, refused⟩ | ⟨no, -⟩ | ⟨-, -, eq, answer, s, call, rfl⟩
  · exact absurd free refused
  · cases no
  · obtain ⟨lt, -, -, here, ids, perm, leaf⟩ := alloc_mapPage call wf fresh
    exact ⟨eq, lt, ⟨here.frame, here.news, here.wf⟩, ⟨ids, perm, leaf⟩, rfl, rfl, ⟨rfl, rfl⟩, rfl⟩

/-- What a call that gives the keyboard back leaves. -/
structure Released (caller : Caller) (k k' : Kernel) : Prop where
  here : Local k.tables k'.tables caller.cr3 []
  leaf : ∀ x, (pagingLoadPml4 k'.tables caller.cr3).leaf x =
    if x = pagingIndexerAssign k.currentBuffer then 0
    else (pagingLoadPml4 k.tables caller.cr3).leaf x
  root : k'.tables.pml4 = k.tables.pml4 ∧ k'.tables.served = k.tables.served
  pid : k'.currentPid = nobody
  kept : k'.currentBuffer = 0 ∧ k'.currentSize = 0
  bytes : k'.bytes = k.bytes

/-- What it leaves when its owner gives it back. -/
theorem kbMan_released (own : k.currentPid = caller.pid) (held : k.currentPid ≠ nobody)
    (run : kbMan g fuel false caller k = some (a, k'))
    (wf : WellFormed (pagingLoadPml4 k.tables caller.cr3)) : a = 0 ∧ Released caller k k' := by
  rcases kbMan_cases run with ⟨-, -, refused⟩ | ⟨-, -, -, zero, rfl⟩ | ⟨no, -⟩
  · rcases refused with other | none
    · exact absurd own other
    · exact absurd none held
  · have here := unmap_local k.currentBuffer wf
    refine ⟨zero, ⟨here.frame, here.news, here.wf⟩, fun x => ?_, ⟨rfl, unmap_served _ _⟩, rfl,
      ⟨rfl, rfl⟩, rfl⟩
    have root := unmap_pml4 (pagingLoadPml4 k.tables caller.cr3) k.currentBuffer
    show (pagingLoadPml4 (pagingUnmapPage _ _) caller.cr3).leaf x = _
    rw [loadPml4_of_eq (r := caller.cr3) root, (wf.unmap k.currentBuffer).2.1,
      Function.update_apply]
  · cases no

end

end Skylight.Calls
