import Skylight.Laws.Proc.Framebuffer

/-!
# Who holds the keyboard

`kb_man` called by processes in any order, keystrokes in between, and user code that writes
what it likes. The page of keys is a frame nobody had mapped, so the owner is the only one who
sees it, at one page; and whatever the size field says, a key goes into that page below it.

Frames are handed to `kb_man` as mapped in no task (`Unmapped`): at its own page nothing is, and
on its frame nothing is. The owner may write anything, the size field included, and a key still
goes below that field. Two keystrokes at a time, and the owner reading while one comes, are not
in the runs: an interrupt is one step.
-/

namespace Skylight.Calls

open Skylight.Paging

/-- Frames that are mapped in no task: nothing is on them, and nothing is at their pages. -/
structure Unmapped (s : Paging.State) (procs : Set Caller) (fs : List Addr) : Prop where
  pages : (fs.map pagingIndexerAssign).Nodup
  vacant : ∀ t ∈ fs, ∀ c ∈ procs, frameOf s c.cr3 (pagingIndexerAssign t) = 0
  frame : ∀ t ∈ fs, ∀ c ∈ procs, ∀ x, frameOf s c.cr3 x ≠ t

/-- A call of `kb_man`, a key, or a write of user code to memory. -/
inductive KbStep (g : Nat → Addr) (procs : Set Caller) (roots : Set Addr) : Kernel → Kernel → Prop
  | call {k k' : Kernel} {caller : Caller} {fuel : Nat} {taking : Bool} {answer : Addr}
      (mem : caller ∈ procs) (run : kbMan g fuel taking caller k = some (answer, k'))
      (unused : Unused k.tables roots (given g k.tables.served k'.tables.served))
      (unmapped : Unmapped k.tables procs (given g k.tables.served k'.tables.served)) :
      KbStep g procs roots k k'
  | key {k : Kernel} (keycode : BitVec 8) :
      KbStep g procs roots k (hidRegisterKeystroke keycode k).2
  | write {k : Kernel} (bytes : Addr → BitVec 8) :
      KbStep g procs roots k { k with bytes := bytes }

/-- A key goes nowhere, or below the size field of the owner's page, and is counted there. -/
def KeyStored (k : Kernel) (keycode : BitVec 8) : Prop :=
  kbManSaveKey keycode k = k ∨ k.currentPid ≠ nobody ∧ ∃ n : Nat, n < 4094 ∧
    n = (k.read16 (k.currentBuffer + 4094)).toNat ∧
    kbManSaveKey keycode k = { k with bytes := (kbManSaveKey keycode k).bytes } ∧
    (kbManSaveKey keycode k).bytes (k.currentBuffer + BitVec.ofNat 64 n) = keycode ∧
    ∀ a, a ≠ k.currentBuffer + BitVec.ofNat 64 n → a ≠ k.currentBuffer + 4094 →
      a ≠ k.currentBuffer + 4095 → (kbManSaveKey keycode k).bytes a = k.bytes a

/-- What holds of the keyboard. -/
structure KbSafe (g : Nat → Addr) (procs : Set Caller) (k : Kernel) : Prop where
  none : k.currentPid = nobody ↔ k.currentBuffer = 0 ∧ k.currentSize = 0
  owner : k.currentPid ≠ nobody → ∀ c ∈ procs, ∀ x, Open k.tables c.cr3 x →
    frameOf k.tables c.cr3 x = k.currentBuffer → c.pid = k.currentPid
  others : ∀ c ∈ procs, k.currentPid ≠ nobody → c.pid ≠ k.currentPid → ∀ fuel taking,
    kbMan g fuel taking c k = some (0, k)
  keys : ∀ keycode, KeyStored k keycode
  release : ∀ c ∈ procs, k.currentPid ≠ nobody → k.currentPid = c.pid → ∀ fuel answer k',
    kbMan g fuel false c k = some (answer, k') → ∀ x, frameOf k'.tables c.cr3 x ≠ k.currentBuffer

/-- The page of keys, while somebody has it: a frame that is mapped once, in the owner's table. -/
structure Owned (procs : Set Caller) (k : Kernel) : Prop where
  buffer : k.currentBuffer ≠ 0 ∧ IsFrame k.currentBuffer
  size : k.currentSize = k.currentBuffer + 4094
  once : ∀ c ∈ procs, ∀ x, frameOf k.tables c.cr3 x = k.currentBuffer →
    c.pid = k.currentPid ∧ x = pagingIndexerAssign k.currentBuffer

/-- The page tables are trees apart, and the page of keys is nobody's or the owner's. -/
structure KbKept (procs : Set Caller) (roots : Set Addr) (k : Kernel) : Prop where
  spaces : Spaces k.tables roots
  idle : k.currentPid = nobody → k.currentBuffer = 0 ∧ k.currentSize = 0
  busy : k.currentPid ≠ nobody → Owned procs k

section
variable {g : Nat → Addr} {procs : Set Caller} {roots : Set Addr} {k k' k₀ : Kernel}
  {caller : Caller} {fuel : Nat} {answer : Addr} {keycode : BitVec 8} {s s' : Paging.State}
  {t c : Addr} {taken : List Addr} {x : PagingIndexer}

/-- Frames are below the end of the address space. -/
theorem frame_le (h : IsFrame t) : t.toNat ≤ 0xffffffffff000 := by
  have le : t.toNat &&& addressMask.toNat ≤ addressMask.toNat := Nat.and_le_right
  rw [← BitVec.toNat_and, show t &&& addressMask = t from h] at le
  exact le

/-- Where the size field lies. -/
theorem size_eq (buffer : Addr) : buffer + pagingPageSize - 2 = buffer + 4094 := by
  rw [BitVec.sub_eq_add_neg, BitVec.add_assoc]
  rfl

/-- The size field is not at zero. -/
theorem size_ne_zero (h : IsFrame t) : t + 4094 ≠ 0 := by
  intro zero
  have value := congrArg BitVec.toNat zero
  have le := frame_le h
  rw [BitVec.toNat_add, show (4094 : Addr).toNat = 4094 from rfl,
    show (0 : Addr).toNat = 0 from rfl] at value
  omega

/-- A frame that was mapped nowhere is mapped at its own page by a call that takes it, and the
frames of tables are at theirs. -/
theorem Taken.once (h : Taken g caller k k' answer) (mem : caller ∈ procs)
    (unmapped : Unmapped k.tables procs (given g k.tables.served k'.tables.served))
    (fresh : Fresh (pagingLoadPml4 k.tables caller.cr3)
      (given g k.tables.served k'.tables.served))
    (there : frameOf k'.tables caller.cr3 x = answer) : x = pagingIndexerAssign answer := by
  obtain ⟨ids, perm, leaf⟩ := h.leaf
  obtain ⟨pages, vacant, frame⟩ := unmapped
  have frames := fresh.frame
  have nodup := fresh.nodup
  rw [given_succ h.lt] at pages vacant frame frames nodup
  rw [← h.buffer_eq] at pages vacant frame frames nodup
  rw [List.map_cons, List.nodup_cons] at pages
  by_contra ne
  rw [frameOf, leaf, List.foldl_append, List.foldl_cons, List.foldl_nil, Mapping.apply,
    Function.update_of_ne ne] at there
  by_cases table : ∃ t ∈ given g (k.tables.served + 1) k'.tables.served, pagingIndexerAssign t = x
  · obtain ⟨t, ht, rfl⟩ := table
    rw [show pagingIndexerAssign t = (ident t).page from rfl,
      foldl_apply_of_mem (ident_pages perm pages.2) ((mem_ids perm).mpr ⟨t, ht, rfl⟩),
      getAddress_leafEntry (show IsFlags (ident t).flags from isFlags_wide _)] at there
    have zero := vacant t (List.mem_cons_of_mem _ ht) caller mem
    rw [show pagingDescGetAddress ((pagingLoadPml4 k.tables caller.cr3).leaf (ident t).page) = 0
      from zero, show pagingDescGetAddress (ident t).phys = t from
        (frames t (List.mem_cons_of_mem _ ht)).2,
      show (0 : Addr) ||| t = t from BitVec.zero_or] at there
    rw [there] at ht
    exact (List.nodup_cons.mp nodup).1 ht
  · rw [foldl_apply_of_ne] at there
    · exact frame answer List.mem_cons_self caller mem x there
    · intro w hw page
      obtain ⟨t, ht, rfl⟩ := (mem_ids perm).mp hw
      exact table ⟨t, ht, page⟩

/-- Tables are not written by a key. -/
theorem saveKey_fields (keycode : BitVec 8) (k : Kernel) :
    (kbManSaveKey keycode k) = { k with bytes := (kbManSaveKey keycode k).bytes } := by
  rw [kbManSaveKey]
  split
  · rfl
  · dsimp only
    split <;> rfl

/-- What a call leaves. -/
theorem KbKept.call {taking : Bool} (ps : Processes procs roots) (h : KbKept procs roots k)
    (mem : caller ∈ procs) (run : kbMan g fuel taking caller k = some (answer, k'))
    (unused : Unused k.tables roots (given g k.tables.served k'.tables.served))
    (unmapped : Unmapped k.tables procs (given g k.tables.served k'.tables.served)) :
    KbKept procs roots k' := by
  have root := ps.root _ mem
  have wf := h.spaces.wf _ root
  have fresh := unused.fresh root
  rcases kbMan_cases run with ⟨-, rfl, -⟩ | ⟨rfl, own, held, -⟩ | ⟨rfl, free, -⟩
  · exact h
  · have released := (kbMan_released own held run wf).2
    exact ⟨released.here.spaces h.spaces Unused.nil root, fun _ => released.kept, fun some =>
      absurd released.pid some⟩
  · have taken := kbMan_taken free run wf fresh
    have later : Unused k.tables roots (given g (k.tables.served + 1) k'.tables.served) := by
      rw [given_succ taken.lt] at unused
      exact ⟨(List.nodup_cons.mp unused.nodup).2, fun t ht =>
        unused.frame t (List.mem_cons_of_mem _ ht), fun t ht =>
        unused.unused t (List.mem_cons_of_mem _ ht)⟩
    have first : answer ∈ given g k.tables.served k'.tables.served := by
      rw [given_succ taken.lt, taken.buffer_eq]
      exact List.mem_cons_self
    refine ⟨taken.here.spaces h.spaces later root, fun none => ?_, fun _ => ?_⟩
    · exact absurd (taken.pid.symm.trans none) (ps.somebody _ mem)
    · obtain ⟨buffer, size⟩ := taken.kept
      constructor
      · rw [buffer]
        exact fresh.frame _ first
      · rw [size, buffer, size_eq]
      · intro c hc x there
        rw [buffer] at there ⊢
        by_cases same : c = caller
        · rw [same] at there ⊢
          exact ⟨taken.pid.symm, taken.once mem unmapped fresh there⟩
        · have stays := others_stay ps h.spaces taken.here later mem hc same
          rw [frameOf, stays.leaf] at there
          exact absurd there (unmapped.frame _ first c hc x)

/-- A call, a key or a write keeps the page of keys one owner's. -/
theorem KbKept.step (ps : Processes procs roots) (h : KbKept procs roots k)
    (step : KbStep g procs roots k k') : KbKept procs roots k' := by
  cases step with
  | call mem run unused unmapped => exact h.call ps mem run unused unmapped
  | key keycode =>
    rw [hidRegisterKeystroke]
    split
    · exact h
    · show KbKept procs roots (kbManSaveKey keycode k)
      rw [saveKey_fields]
      exact ⟨h.spaces, h.idle, fun some => ⟨(h.busy some).1, (h.busy some).2, (h.busy some).3⟩⟩
  | write bytes =>
    exact ⟨h.spaces, h.idle, fun some => ⟨(h.busy some).1, (h.busy some).2, (h.busy some).3⟩⟩

/-- And so does a run. -/
theorem KbKept.run (ps : Processes procs roots) (h : KbKept procs roots k₀)
    (run : Relation.ReflTransGen (KbStep g procs roots) k₀ k) : KbKept procs roots k := by
  induction run with
  | refl => exact h
  | tail _ step ih => exact ih.step ps step

/-- Places in a page are told apart. -/
theorem offset_ne {buffer : Addr} {m n : Nat} (hm : m < 4096) (hn : n < 4096) (ne : m ≠ n) :
    buffer + BitVec.ofNat 64 m ≠ buffer + BitVec.ofNat 64 n := by
  intro same
  have value := congrArg BitVec.toNat (BitVec.add_right_inj buffer |>.mp same)
  rw [BitVec.toNat_ofNat, BitVec.toNat_ofNat] at value
  omega

/-- A key goes below the size field of that page, or nowhere. -/
theorem KbKept.keyStored (h : KbKept procs roots k) (keycode : BitVec 8) : KeyStored k keycode := by
  rw [KeyStored]
  by_cases none : k.currentPid = nobody
  · left
    rw [kbManSaveKey, if_pos (Or.inl none)]
  · obtain ⟨buffer, size, -⟩ := h.busy none
    have somewhere : ¬ (k.currentPid = nobody ∨ k.currentBuffer = 0 ∨ k.currentSize = 0) := by
      rintro (no | no | no)
      · exact none no
      · exact buffer.1 no
      · rw [size] at no
        exact size_ne_zero buffer.2 no
    set n := k.read16 (k.currentBuffer + 4094) with def_n
    by_cases full : n.toNat ≥ 0x1000 - 2
    · left
      rw [kbManSaveKey, if_neg somewhere, size]
      exact if_pos full
    · right
      have stored : (kbManSaveKey keycode k).bytes =
          Function.update (k.write16 (k.currentBuffer + 4094) (n + 1)).bytes
            (k.currentBuffer + n.setWidth 64) keycode := by
        rw [kbManSaveKey, if_neg somewhere, size]
        dsimp only
        rw [if_neg full]
        rfl
      have offset : n.setWidth 64 = BitVec.ofNat 64 n.toNat := by
        apply BitVec.eq_of_toNat_eq
        rw [BitVec.toNat_setWidth, BitVec.toNat_ofNat]
      have below : n.toNat < 4094 := by omega
      refine ⟨none, n.toNat, below, rfl, saveKey_fields _ _, ?_, fun a here low high => ?_⟩
      · rw [stored, offset, Function.update_self]
      · rw [stored, offset, Function.update_of_ne here, Kernel.write16]
        rw [show k.currentBuffer + 4094 + 1 = k.currentBuffer + 4095 by rw [BitVec.add_assoc]; rfl]
        dsimp only
        rw [Function.update_of_ne high, Function.update_of_ne low]

/-- What the record is worth. -/
theorem KbKept.safe (ps : Processes procs roots) (h : KbKept procs roots k) : KbSafe g procs k where
  none := by
    refine ⟨h.idle, fun zero => ?_⟩
    by_contra some
    exact (h.busy some).buffer.1 zero.1
  owner some c hc x _ there := ((h.busy some).once c hc x there).1
  others c _ some other fuel taking := by
    cases taking with
    | false =>
      rw [kbMan]
      simp only [Bool.not_false, if_true]
      rw [if_pos (Or.inl (Ne.symm other))]
      rfl
    | true =>
      rw [kbMan]
      simp only [Bool.not_true, Bool.false_eq_true, if_false]
      rw [if_pos some]
      rfl
  keys := h.keyStored
  release c hc some own fuel answer k' run x there := by
    have released := (kbMan_released own some run (h.spaces.wf _ (ps.root _ hc))).2
    rw [frameOf, released.leaf] at there
    split at there
    · rw [getAddress_zero] at there
      exact (h.busy some).buffer.1 there.symm
    · next off => exact off ((h.busy some).once c hc x there).2

/-- In every run of calls, keys and writes the keyboard has one owner, who alone sees the page,
and keys go into it. -/
theorem keyboard_exclusive (ps : Processes procs roots) (spaces : Spaces k₀.tables roots)
    (start : k₀.currentPid = nobody ∧ k₀.currentBuffer = 0 ∧ k₀.currentSize = 0)
    (run : Relation.ReflTransGen (KbStep g procs roots) k₀ k) : KbSafe g procs k := by
  have kept : KbKept procs roots k₀ := ⟨spaces, fun _ => start.2, fun some => absurd start.1 some⟩
  exact (kept.run ps run).safe ps

end

/-- The first of two processes takes the keyboard. -/
theorem keyboard_exclusive_two : ∃ k', k'.currentPid = 0 ∧ KbSafe spaceFrames twoCallers k' := by
  have taken : (kbMan spaceFrames 5 true firstCaller (.boot machineRoot fun _ => 0)).map
      (fun r => (r.2.currentPid, r.2.tables.served)) = some (0, 4) := by decide +kernel
  obtain ⟨⟨answer, k'⟩, run, now⟩ := Option.map_eq_some_iff.mp taken
  obtain ⟨pid, served⟩ := Prod.mk.inj now
  have step : KbStep spaceFrames twoCallers threeRoots (.boot machineRoot fun _ => 0) k' := by
    apply KbStep.call (Or.inl rfl) run
    · exact threeRoots_unused (by rw [served]; decide)
    · rw [served]
      refine ⟨by decide +kernel, fun t ht c hc => ?_, fun t ht c hc x there => ?_⟩
      · rw [frameOf, Empty.leaf ⟨fun _ => rfl⟩, getAddress_zero]
      · rw [frameOf, Empty.leaf ⟨fun _ => rfl⟩, getAddress_zero] at there
        exact ((threeRoots_unused (n := 4) (by decide)).frame t ht).1 there.symm
  exact ⟨k', pid, keyboard_exclusive twoCallers_processes threeRoots_spaces ⟨rfl, rfl, rfl⟩
    (.single step)⟩

end Skylight.Calls
