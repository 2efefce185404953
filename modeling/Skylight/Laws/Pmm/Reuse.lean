import Skylight.Laws.Pmm.Machine
import Skylight.Laws.Pmm.Maximal

/-!
# Whether freed slots are found again

Runs of `pmm_new_section`, each answer linked at once, and `pmm_delete_section`, from the array
`pmm_start` sets up. The head only ever goes up: it rescans when the slot under it is linked,
and in a cleared array no slot from the head on ever is. So the slots are handed out once, in
order, and with the last of them gone the bound check answers null for good, whatever was
deleted. Only a slot that reaches past the data area and reads as linked there brings the
rescan about.
-/

namespace Skylight.Pmm

open Chain RunLength

/-- The slot `n` was linked into the list `l`, and no slot outside the list was touched. -/
structure Linked (s : State) (l : List (Nat × Section)) (n : Nat) (s' : State)
    (l' : List (Nat × Section)) : Prop where
  represents : Represents s' l'
  keys : (keys l').Perm (n :: keys l)
  rest : ∀ i, i ∉ Chain.keys l' → s'.sections i = s.sections i
  head : s'.sectionHead = s.sectionHead
  size : s'.dataSize = s.dataSize

/-- The section in slot `a` was taken out of the list `l` and deleted, and no slot outside the
list was touched. -/
structure Deleted (s : State) (l : List (Nat × Section)) (a : Nat) (s' : State)
    (l' : List (Nat × Section)) : Prop where
  represents : Represents s' l'
  keys : (keys l).Perm (a :: keys l')
  cleared : s'.unlinked a = true
  rest : ∀ i, i ∉ Chain.keys l → s'.sections i = s.sections i
  head : s'.sectionHead = s.sectionHead
  size : s'.dataSize = s.dataSize

/-- The runs from the state `s₀`, with the sections taken and deleted on the way. Linking a slot
that is linked already makes no list, so no step stands for it. -/
inductive Churns (s₀ : State) : Nat → Nat → State → List (Nat × Section) → Prop
  | start {l : List (Nat × Section)} (h : Represents s₀ l) : Churns s₀ 0 0 s₀ l
  | take {t d n : Nat} {s s₁ s' : State} {l l' : List (Nat × Section)} (run : Churns s₀ t d s l)
      (call : pmmNewSection s = (some n, s₁)) (linked : Linked s₁ l n s' l') :
      Churns s₀ (t + 1) d s' l'
  | refuse {t d : Nat} {s s' : State} {l : List (Nat × Section)} (run : Churns s₀ t d s l)
      (call : pmmNewSection s = (none, s')) : Churns s₀ t d s' l
  | delete {t d a : Nat} {s s' : State} {l l' : List (Nat × Section)} (run : Churns s₀ t d s l)
      (deleted : Deleted s l a s' l') : Churns s₀ t (d + 1) s' l'

section
variable {s s' s₁ s₀ : State} {l l' l₁ l₂ : List (Nat × Section)} {a n t d k : Nat} {v w : Section}

/-! ## The calls -/

/-- Null is answered when the head has run off the array, and after a rescan that found
nothing. -/
theorem pmmNewSection_none (call : pmmNewSection s = (none, s')) :
    (s.capacity ≤ s.sectionHead ∧ s' = s) ∨
      ((∀ i < s.capacity, s.unlinked i = false) ∧ s' = { s with sectionHead := 0 }) := by
  unfold pmmNewSection at call
  split at call
  next off =>
    simp only [Prod.mk.injEq, true_and] at call
    exact Or.inl ⟨Nat.le_of_not_lt fun lt => Nat.not_lt_of_le off (capacity_room.mp lt), call.symm⟩
  next =>
    split at call
    next => simp at call
    next =>
      simp only at call
      split at call
      next => simp at call
      next linked =>
        simp only [Prod.mk.injEq, true_and] at call
        right
        subst call
        simp only [pmmSectionManagerReindex] at linked ⊢
        cases hf : (List.range s.capacity).find? s.unlinked with
        | none =>
          refine ⟨fun i hi => ?_, rfl⟩
          simpa using List.find?_eq_none.mp hf i (List.mem_range.mpr hi)
        | some i =>
          rw [hf] at linked
          exact absurd (List.find?_some hf) linked

/-- Under a head on an unlinked slot there is no rescan. -/
theorem pmmNewSection_head (lt : s.sectionHead < s.capacity)
    (free : s.unlinked s.sectionHead = true) :
    pmmNewSection s = (some s.sectionHead, { s with sectionHead := s.sectionHead + 1 }) := by
  rw [pmmNewSection, if_neg (Nat.not_le_of_lt (capacity_room.mp lt)), if_pos free]

/-- Behind the array everything is refused. -/
theorem pmmNewSection_off (le : s.capacity ≤ s.sectionHead) : pmmNewSection s = (none, s) := by
  rw [pmmNewSection, if_pos]
  exact Nat.le_of_not_lt fun lt => Nat.not_lt_of_le le (capacity_room.mpr lt)

/-- A list that lies in the first `n` slots has them all when it is that long. -/
theorem all_linked_iff (h : Represents s l) (below : ∀ a ∈ keys l, a < n) :
    (∀ i < n, i ∈ keys l) ↔ n ≤ l.length := by
  have len : (keys l).length = l.length := List.length_map ..
  rw [← len]
  constructor
  · intro all
    have sub : List.range n ⊆ keys l := fun i hi => all i (List.mem_range.mp hi)
    simpa using (List.nodup_range.subperm sub).length_le
  · intro long i hi
    have sub : keys l ⊆ List.range n := fun a ha => List.mem_range.mpr (below a ha)
    have perm := (h.nodup.subperm sub).perm_of_length_le (by simpa using long)
    exact perm.mem_iff.mpr (List.mem_range.mpr hi)

/-- Whether a slot looks unlinked is in the slot. -/
theorem unlinked_congr {i : Nat} (same : s'.sections i = s.sections i) :
    s'.unlinked i = s.unlinked i := by
  rw [State.unlinked, State.unlinked, same]

/-- The slots of a list are slots of the array. -/
theorem Represents.below (h : Represents s l) : ∀ a ∈ keys l, a < s.capacity :=
  fun a mem => capacity_room.mpr (h.slots a mem)

/-! ## An array whose last slot was cleared -/

/-- The slots from the head on are spare, and every slot that is not in the list is unlinked. -/
structure Bumping (s : State) (l : List (Nat × Section)) (t d : Nat) : Prop where
  represents : Represents s l
  head : s.sectionHead = t + 1
  count : l.length + d = t + 1
  le : t + 1 ≤ s.capacity
  below : ∀ a ∈ keys l, a < s.sectionHead
  spare : ∀ i < s.capacity, i ∉ keys l → s.unlinked i = true

namespace Bumping

/-- The slot under the head is unlinked. -/
theorem head_spare (h : Bumping s l t d) (lt : s.sectionHead < s.capacity) :
    s.unlinked s.sectionHead = true :=
  h.spare _ lt fun mem => Nat.lt_irrefl _ (h.below _ mem)

/-- A slot taken: the head goes up by one. -/
theorem take (h : Bumping s l t d) (call : pmmNewSection s = (some n, s₁))
    (linked : Linked s₁ l n s' l') : Bumping s' l' (t + 1) d := by
  have lt : s.sectionHead < s.capacity := by
    by_contra off
    rw [pmmNewSection_off (Nat.le_of_not_lt off)] at call
    simp at call
  rw [pmmNewSection_head lt (h.head_spare lt)] at call
  simp only [Prod.mk.injEq, Option.some.injEq] at call
  obtain ⟨rfl, rfl⟩ := call
  have cap : s'.capacity = s.capacity := by
    rw [State.capacity, State.capacity, linked.size]
  have head := h.head
  have new : s'.sectionHead = s.sectionHead + 1 := linked.head
  have len := linked.keys.length_eq
  simp only [List.length_map, List.length_cons] at len
  have count := h.count
  refine ⟨linked.represents, by omega, by omega, by omega, fun a mem => ?_, fun i hi out => ?_⟩
  · rw [linked.keys.mem_iff, List.mem_cons] at mem
    rcases mem with rfl | mem
    · omega
    · have := h.below a mem
      omega
  · rw [unlinked_congr (linked.rest i out)]
    rw [linked.keys.mem_iff, List.mem_cons, not_or] at out
    exact h.spare i (cap ▸ hi) out.2

/-- Null: nothing changes. -/
theorem refuse (h : Bumping s l t d) (call : pmmNewSection s = (none, s')) :
    Bumping s' l t d := by
  rcases pmmNewSection_none call with ⟨-, rfl⟩ | ⟨linked, -⟩
  · exact h
  · by_cases lt : s.sectionHead < s.capacity
    · have := h.head_spare lt
      rw [linked _ lt] at this
      simp at this
    · rw [pmmNewSection_off (Nat.le_of_not_lt lt)] at call
      simp only [Prod.mk.injEq, true_and] at call
      exact call ▸ h

/-- A slot given back lies below the head. -/
theorem delete (h : Bumping s l t d) (deleted : Deleted s l a s' l') :
    Bumping s' l' t (d + 1) := by
  have cap : s'.capacity = s.capacity := by
    rw [State.capacity, State.capacity, deleted.size]
  have head := h.head
  have same := deleted.head
  have len := deleted.keys.length_eq
  simp only [List.length_map, List.length_cons] at len
  have count := h.count
  have le := h.le
  refine ⟨deleted.represents, by omega, by omega, by omega, fun b mem => ?_, fun i hi out => ?_⟩
  · rw [same]
    exact h.below b (deleted.keys.mem_iff.mpr (List.mem_cons_of_mem _ mem))
  · by_cases e : i = a
    · rw [e]
      exact deleted.cleared
    · have there : i ∉ keys l := by
        rw [deleted.keys.mem_iff, List.mem_cons, not_or]
        exact ⟨e, out⟩
      rw [unlinked_congr (deleted.rest i there)]
      exact h.spare i (cap ▸ hi) there

/-- The slots run out with the ones handed out, not with the ones linked. -/
theorem exact_iff (h : Bumping s l t d) :
    ((pmmNewSection s).1 = none → ∀ i < s.capacity, i ∈ keys l) ↔
      t + 1 < s.capacity ∨ d = 0 := by
  have head := h.head
  have count := h.count
  have le := h.le
  rw [all_linked_iff h.represents h.represents.below]
  by_cases lt : s.sectionHead < s.capacity
  · rw [pmmNewSection_head lt (h.head_spare lt)]
    simp only [reduceCtorEq, false_implies, true_iff]
    omega
  · rw [pmmNewSection_off (Nat.le_of_not_lt lt)]
    simp only [true_implies]
    omega

end Bumping

/-! ## An array whose last slot reads as linked -/

/-- The last slot is passed over, and every other slot that is not in the list is unlinked. -/
structure Passing (s : State) (l : List (Nat × Section)) : Prop where
  represents : Represents s l
  last : s.unlinked (s.capacity - 1) = false
  out : s.capacity - 1 ∉ keys l
  spare : ∀ i < s.capacity - 1, i ∉ keys l → s.unlinked i = true

namespace Passing

/-- The last slot never looks unlinked. -/
theorem not_last (h : Passing s l) (free : s.unlinked n = true) : s.capacity - 1 ≠ n := by
  rintro rfl
  rw [h.last] at free
  simp at free

/-- A slot taken is not the last one. -/
theorem take (h : Passing s l) (call : pmmNewSection s = (some n, s₁))
    (linked : Linked s₁ l n s' l') : Passing s' l' := by
  obtain ⟨free, lt, rfl⟩ := pmmNewSection_some call
  have cap : s'.capacity = s.capacity := by
    rw [State.capacity, State.capacity, linked.size]
  have out : s.capacity - 1 ∉ keys l' := by
    rw [linked.keys.mem_iff, List.mem_cons, not_or]
    exact ⟨h.not_last free, h.out⟩
  refine ⟨linked.represents, ?_, cap ▸ out, fun i hi away => ?_⟩
  · rw [cap, unlinked_congr (linked.rest _ out)]
    exact h.last
  · rw [unlinked_congr (linked.rest i away)]
    rw [linked.keys.mem_iff, List.mem_cons, not_or] at away
    exact h.spare i (cap ▸ hi) away.2

/-- Null: the head is back at the start. -/
theorem refuse (h : Passing s l) (call : pmmNewSection s = (none, s')) : Passing s' l := by
  rcases pmmNewSection_none call with ⟨-, rfl⟩ | ⟨-, rfl⟩
  · exact h
  · exact ⟨h.represents.congr rfl rfl rfl, h.last, h.out, h.spare⟩

/-- A slot given back looks unlinked again. -/
theorem delete (h : Passing s l) (deleted : Deleted s l a s' l') : Passing s' l' := by
  have cap : s'.capacity = s.capacity := by
    rw [State.capacity, State.capacity, deleted.size]
  have out : s.capacity - 1 ∉ keys l' := fun mem =>
    h.out (deleted.keys.mem_iff.mpr (List.mem_cons_of_mem _ mem))
  refine ⟨deleted.represents, ?_, cap ▸ out, fun i hi away => ?_⟩
  · rw [cap, unlinked_congr (deleted.rest _ h.out)]
    exact h.last
  · by_cases e : i = a
    · rw [e]
      exact deleted.cleared
    · have there : i ∉ keys l := by
        rw [deleted.keys.mem_iff, List.mem_cons, not_or]
        exact ⟨e, away⟩
      rw [unlinked_congr (deleted.rest i there)]
      exact h.spare i (cap ▸ hi) there

end Passing

/-- The same with the head inside the array, and the slots counted. -/
structure Scanning (s : State) (l : List (Nat × Section)) (t d : Nat) : Prop where
  represents : Represents s l
  count : l.length + d = t + 1
  three : 3 ≤ s.capacity
  inside : s.sectionHead < s.capacity
  last : s.unlinked (s.capacity - 1) = false
  out : s.capacity - 1 ∉ keys l
  spare : ∀ i < s.capacity - 1, i ∉ keys l → s.unlinked i = true

namespace Scanning

/-- The count forgotten. -/
theorem passing (h : Scanning s l t d) : Passing s l := ⟨h.represents, h.last, h.out, h.spare⟩

/-- A slot taken, counted. -/
theorem take (h : Scanning s l t d) (call : pmmNewSection s = (some n, s₁))
    (linked : Linked s₁ l n s' l') : Scanning s' l' (t + 1) d := by
  obtain ⟨represents, last, out, spare⟩ := h.passing.take call linked
  obtain ⟨free, lt, rfl⟩ := pmmNewSection_some call
  have cap : s'.capacity = s.capacity := by
    rw [State.capacity, State.capacity, linked.size]
  have other := h.passing.not_last free
  have new : s'.sectionHead = n + 1 := linked.head
  have len := linked.keys.length_eq
  simp only [List.length_map, List.length_cons] at len
  have count := h.count
  exact ⟨represents, by omega, cap ▸ h.three, by omega, last, out, spare⟩

/-- Null, which counts nothing. -/
theorem refuse (h : Scanning s l t d) (call : pmmNewSection s = (none, s')) :
    Scanning s' l t d := by
  obtain ⟨represents, last, out, spare⟩ := h.passing.refuse call
  rcases pmmNewSection_none call with ⟨-, rfl⟩ | ⟨-, rfl⟩
  · exact h
  · exact ⟨represents, h.count, h.three, Nat.zero_lt_of_lt h.inside, last, out, spare⟩

/-- A slot given back, counted. -/
theorem delete (h : Scanning s l t d) (deleted : Deleted s l a s' l') :
    Scanning s' l' t (d + 1) := by
  obtain ⟨represents, last, out, spare⟩ := h.passing.delete deleted
  have cap : s'.capacity = s.capacity := by
    rw [State.capacity, State.capacity, deleted.size]
  have same := deleted.head
  have inside := h.inside
  have len := deleted.keys.length_eq
  simp only [List.length_map, List.length_cons] at len
  have count := h.count
  exact ⟨represents, by omega, cap ▸ h.three, by omega, last, out, spare⟩

/-- A call is refused when the list has all the slots but the last. -/
theorem refused_iff (h : Scanning s l t d) :
    (pmmNewSection s).1 = none ↔ s.capacity ≤ l.length + 1 := by
  have three := h.three
  have below : ∀ a ∈ keys l, a < s.capacity - 1 := by
    intro a mem
    have lt := h.represents.below a mem
    have ne : a ≠ s.capacity - 1 := fun e => h.out (e ▸ mem)
    omega
  have all := all_linked_iff h.represents below
  constructor
  · intro none
    rcases pmmNewSection_none (Prod.ext none rfl : pmmNewSection s = (.none, (pmmNewSection s).2))
      with ⟨off, -⟩ | ⟨linked, -⟩
    · exact absurd h.inside (Nat.not_lt_of_le off)
    · have every : ∀ i < s.capacity - 1, i ∈ keys l := by
        intro i hi
        by_contra away
        have free := h.spare i hi away
        rw [linked i (by omega)] at free
        simp at free
      have := all.mp every
      omega
  · intro long
    have every := all.mpr (by omega)
    cases call : (pmmNewSection s).1 with
    | none => rfl
    | some n =>
      obtain ⟨free, lt, -⟩ := pmmNewSection_some
        (Prod.ext call rfl : pmmNewSection s = (.some n, (pmmNewSection s).2))
      have ne := h.passing.not_last free
      have links := h.represents.list.linked (by omega) (every n (by omega))
      simp only [State.unlinked, Bool.and_eq_true, Option.isNone_iff_eq_none] at free
      rcases links with prev | next
      · exact absurd free.1 prev
      · exact absurd free.2 next

/-- Null is right when the slots that are out are all but the last. -/
theorem exact_iff (h : Scanning s l t d) :
    ((pmmNewSection s).1 = none → ∀ i < s.capacity, i ∈ keys l) ↔ t + 2 < d + s.capacity := by
  have count := h.count
  have three := h.three
  rw [h.refused_iff]
  constructor
  · intro imp
    by_contra ge
    exact h.out (imp (by omega) _ (by omega))
  · intro lt long
    omega

end Scanning

end

/-! ## The runs from the array of a map -/

section
variable {memory : Nat → Descriptor} {map : List MemoryMapEntry} {base t d n k : Nat}
  {s s' : State} {l l' l₁ l₂ : List (Nat × Section)} {a b p : Nat} {u v w : Section}

/-- A cleared array is handed out in order. -/
theorem firstState_bumping (started : base ≠ 0) (size : dataSizeFor (exploreMap map) ≠ 0)
    (cleared : slotsOf memory map = (firstState memory map base).capacity) :
    Bumping (firstState memory map base) [(0, firstSection)] 0 0 := by
  obtain ⟨two, filled⟩ := @firstState_filled memory map base size
  refine ⟨(firstState_represents started size).1, rfl, rfl, by omega, fun a mem => ?_,
    fun i hi out => ?_⟩
  · simp only [List.map_cons, List.map_nil, List.mem_singleton] at mem
    subst mem
    exact Nat.one_pos
  · simp only [List.map_cons, List.map_nil, List.mem_singleton] at out
    exact filled.spare i (Nat.pos_of_ne_zero out) (cleared ▸ hi)

/-- An array whose last slot looks linked is scanned. -/
theorem firstState_scanning (started : base ≠ 0) (size : dataSizeFor (exploreMap map) ≠ 0)
    (stale : slotsOf memory map + 1 = (firstState memory map base).capacity) :
    Scanning (firstState memory map base) [(0, firstSection)] 0 0 := by
  obtain ⟨two, filled⟩ := @firstState_filled memory map base size
  have last : (firstState memory map base).capacity - 1 = slotsOf memory map := by omega
  refine ⟨(firstState_represents started size).1, rfl, by omega, ?_, ?_, ?_, fun i hi out => ?_⟩
  · show 1 < _
    omega
  · exact filled.full _ (by omega) (by omega)
  · simp only [List.map_cons, List.map_nil, List.mem_singleton]
    omega
  · simp only [List.map_cons, List.map_nil, List.mem_singleton] at out
    exact filled.spare i (Nat.pos_of_ne_zero out) (by omega)

/-- A run leaves the size of the data area. -/
theorem Churns.size_eq {s₀ : State} (run : Churns s₀ t d s l) : s.dataSize = s₀.dataSize := by
  induction run with
  | start h => rfl
  | take run call linked ih =>
    obtain ⟨-, -, rfl⟩ := pmmNewSection_some call
    exact linked.size.trans ih
  | refuse run call ih =>
    rcases pmmNewSection_none call with ⟨-, rfl⟩ | ⟨-, rfl⟩
    · exact ih
    · exact ih
  | delete run deleted ih => exact deleted.size.trans ih

/-- And the number of slots. -/
theorem Churns.capacity_eq {s₀ : State} (run : Churns s₀ t d s l) : s.capacity = s₀.capacity := by
  rw [State.capacity, State.capacity, run.size_eq]

/-- A run leaves the array in the first shape, or in the second, as it was at the start. -/
theorem Churns.bumping {s₀ : State} {l₀ : List (Nat × Section)} (first : Bumping s₀ l₀ 0 0)
    (run : Churns s₀ t d s l) : Bumping s l t d := by
  induction run with
  | start h => rwa [h.unique first.represents]
  | take run call linked ih => exact ih.take call linked
  | refuse run call ih => exact ih.refuse call
  | delete run deleted ih => exact ih.delete deleted

/-- A run with the last slot passed over stays one. -/
theorem Churns.passing {s₀ : State} {l₀ : List (Nat × Section)} (first : Passing s₀ l₀)
    (run : Churns s₀ t d s l) : Passing s l := by
  induction run with
  | start h => rwa [h.unique first.represents]
  | take run call linked ih => exact ih.take call linked
  | refuse run call ih => exact ih.refuse call
  | delete run deleted ih => exact ih.delete deleted

/-- With the count along. -/
theorem Churns.scanning {s₀ : State} {l₀ : List (Nat × Section)} (first : Scanning s₀ l₀ 0 0)
    (run : Churns s₀ t d s l) : Scanning s l t d := by
  induction run with
  | start h => rwa [h.unique first.represents]
  | take run call linked ih => exact ih.take call linked
  | refuse run call ih => exact ih.refuse call
  | delete run deleted ih => exact ih.delete deleted

/-- In every state of every run, null means that no slot is left exactly when slots remain that
were never handed out or nothing has been deleted. When the last slot reaches past the data area
and reads as linked there, freed slots are found, and null comes once every other slot is
linked. -/
theorem slots_reused_iff (started : base ≠ 0) (size : dataSizeFor (exploreMap map) ≠ 0)
    (run : Churns (firstState memory map base) t d s l) :
    ((pmmNewSection s).1 = none → ∀ i, i * sectionSize < s.dataSize → i ∈ keys l) ↔
      if (firstState memory map base).unlinked (s.capacity - 1)
      then t + 1 < s.capacity ∨ d = 0
      else t + 2 < d + s.capacity := by
  have slots : (∀ i, i * sectionSize < s.dataSize → i ∈ keys l) ↔ ∀ i < s.capacity, i ∈ keys l := by
    simp only [capacity_room]
  have last : (firstState memory map base).unlinked (s.capacity - 1)
      = (firstState memory map 0).unlinked ((firstState memory map 0).capacity - 1) := by
    rw [run.capacity_eq]
    rfl
  have two := (@firstState_filled memory map base size).1
  have same : (firstState memory map base).capacity = (firstState memory map 0).capacity := rfl
  rw [slots, last]
  split
  next clear =>
    refine (run.bumping (firstState_bumping started size ?_)).exact_iff
    rw [same]
    simp only [slotsOf, if_pos clear]
  next stale =>
    refine (run.scanning (firstState_scanning started size ?_)).exact_iff
    rw [same]
    simp only [slotsOf, if_neg stale] at two ⊢
    omega

/-! ## The steps of the source -/

/-- A slot taken for a list is one that the call answered. -/
theorem takeSection_call (taken : takeSection s = .ok (n, s')) :
    pmmNewSection s = (some n, s') := by
  unfold takeSection at taken
  split at taken
  next m t call =>
    simp only [Except.ok.injEq, Prod.mk.injEq] at taken
    obtain ⟨rfl, rfl⟩ := taken
    exact call
  next => simp at taken

/-- What a split inside a section writes: the section, the new one and the one behind. -/
theorem pmmSectionSplit_writes {at_ : Nat} (ok : pmmSectionSplit s a at_ = .ok s')
    (lt : at_ < Word.add (s.sec a).start (Word.mul (s.sec a).pages pageSize)) :
    ∃ n s₁, takeSection s = .ok (n, s₁) ∧ (s'.sections a).next = some n ∧
      s'.sectionHead = s₁.sectionHead ∧ s'.dataSize = s₁.dataSize ∧
      ∀ i, i ≠ a → i ≠ n → (s₁.sections a).next ≠ some i → s'.sections i = s₁.sections i := by
  unfold pmmSectionSplit at ok
  simp only [ge_iff_le, if_neg (Nat.not_le_of_lt lt)] at ok
  cases taken : takeSection s with
  | error f =>
    rw [taken] at ok
    simp at ok
  | ok r =>
    obtain ⟨n, s₁⟩ := r
    rw [taken] at ok
    simp only [ok_bind, pure_eq_ok, Except.ok.injEq] at ok
    refine ⟨n, s₁, rfl, ?_⟩
    subst ok
    cases next : (s₁.sections a).next with
    | none =>
      refine ⟨?_, rfl, rfl, fun i hia hin _ => by simp [hia, hin]⟩
      by_cases e : a = n
      · simp [e]
      · simp [e]
    | some c =>
      refine ⟨?_, rfl, rfl, fun i hia hin hic => ?_⟩
      · by_cases e : a = n
        · simp [e]
        · simp [e]
      · have : i ≠ c := fun e => hic (by rw [e])
        simp [hia, hin, this]

/-- A split that makes a section is a step of a run. -/
theorem Churns.split {s₀ : State} (run : Churns s₀ t d s (l₁ ++ (a, v) :: l₂))
    (h : Represents s (l₁ ++ (a, v) :: l₂)) (two : 2 ≤ (l₁ ++ (a, v) :: l₂).length)
    (fits : v.start + v.pages * pageSize < 2 ^ 64) (inside : k < v.pages)
    (ok : pmmSectionSplit s a (v.start + k * pageSize) = .ok s') :
    ∃ n, Churns s₀ (t + 1) d s' (l₁ ++ (a, ⟨v.start, k, v.free⟩)
      :: (n, ⟨v.start + k * pageSize, v.pages - k, v.free⟩) :: l₂) := by
  have before : v.start + k * pageSize < Word.add v.start (Word.mul v.pages pageSize) := by
    rw [Word.mul_eq (Nat.lt_of_le_of_lt (Nat.le_add_left ..) fits), Word.add_eq fits]
    simp only [pageSize]
    omega
  obtain ⟨-, -, n, made⟩ := (pmmSectionSplit_yields h two fits inside).of_ok ok
  obtain ⟨m, s₁, taken, next, head, size, rest⟩ :=
    pmmSectionSplit_writes ok (by rw [h.sec_eq]; exact before)
  obtain rfl : m = n := by
    rw [made.next_eq] at next
    simpa using next.symm
  have call := takeSection_call taken
  obtain ⟨-, -, rfl⟩ := pmmNewSection_some call
  refine ⟨m, run.take call ⟨made, ?_, fun i out => ?_, head, size⟩⟩
  · simpa using (@List.perm_middle Nat m (Chain.keys l₁ ++ [a]) (Chain.keys l₂))
  · simp only [List.map_append, List.map_cons, List.mem_append, List.mem_cons, not_or] at out
    refine rest i out.2.1 out.2.2.1 ?_
    show (s.sections a).next ≠ some i
    rw [h.next_eq]
    cases l₂ with
    | nil => simp
    | cons y l₂ =>
      intro e
      simp only [headOr_cons, Option.some.injEq] at e
      exact out.2.2.2 (by simp [← e])

/-- Two sections joined in front of a third are such a step. -/
theorem Churns.join {s₀ : State} (run : Churns s₀ t d s (l₁ ++ (a, v) :: (b, w) :: (p, u) :: l₂))
    (h : Represents s (l₁ ++ (a, v) :: (b, w) :: (p, u) :: l₂)) (same : v.free = w.free) :
    Churns s₀ t (d + 1)
      ((pmmDeleteSection ((s.setVal a { v with pages := Word.add v.pages w.pages }).setNext a
        (some p)) b).setPrev p (some a))
      (l₁ ++ (a, { v with pages := Word.add v.pages w.pages }) :: (p, u) :: l₂) := by
  obtain ⟨-, joined, -⟩ :=
    recombined_join (I := fun _ => True) (fun _ _ _ _ _ _ => trivial) h trivial same
  have clears := clears_join h (Word.add v.pages w.pages)
  obtain ⟨hab, -, hbp⟩ := h.distinct
  refine run.delete (a := b) ⟨joined, ?_, ?_, clears.rest, rfl, rfl⟩
  · simpa using (@List.perm_middle Nat b (Chain.keys l₁ ++ [a]) (p :: Chain.keys l₂))
  · simp [State.unlinked, hbp]

/-- The last two sections joined are such a step. -/
theorem Churns.joinLast {s₀ : State} (run : Churns s₀ t d s (l₁ ++ [(a, v), (b, w)]))
    (h : Represents s (l₁ ++ [(a, v), (b, w)])) (same : v.free = w.free) :
    Churns s₀ t (d + 1)
      ((pmmDeleteSection (s.setVal a { v with pages := Word.add v.pages w.pages }) b).setNext a
        none)
      (l₁ ++ [(a, { v with pages := Word.add v.pages w.pages })]) := by
  obtain ⟨-, joined, -⟩ :=
    recombined_join_last (I := fun _ => True) (fun _ _ _ _ _ _ => trivial) h trivial same
  have clears := clears_join_last h (Word.add v.pages w.pages)
  have hab : b ≠ a := by
    have nd := h.nodup
    simp only [List.map_append, List.map_cons, List.map_nil, List.nodup_append] at nd
    exact fun e => by simp [e] at nd
  refine run.delete (a := b) ⟨joined, ?_, ?_, clears.rest, rfl, rfl⟩
  · simpa using (List.perm_append_singleton b (Chain.keys l₁ ++ [a]))
  · simp [State.unlinked, hab]

/-! ## Filling the array -/

/-- The first section over and over, in the first `n` slots. -/
def alike (n : Nat) : List (Nat × Section) := (List.range n).map fun i => (i, firstSection)

/-- One slot more. -/
theorem alike_succ (n : Nat) : alike (n + 1) = alike n ++ [(n, firstSection)] := by
  simp [alike, List.range_succ]

/-- The slots they are in. -/
theorem alike_keys (n : Nat) : keys (alike n) = List.range n := by
  simp [alike, Function.comp_def]

/-- Sections linked in at the end take the slots one by one. -/
theorem churns_fill (started : base ≠ 0) (size : dataSizeFor (exploreMap map) ≠ 0) :
    t + 1 ≤ slotsOf memory map → ∃ s, Churns (firstState memory map base) t 0 s (alike (t + 1)) ∧
      Represents s (alike (t + 1)) ∧ Filled s (alike (t + 1)) (slotsOf memory map) := by
  -- A fresh slot for each section, always the one under the head.
  induction t with
  | zero =>
    intro _
    have first := (@firstState_represents memory map base started size).1
    exact ⟨_, .start first, first, (firstState_filled size).2⟩
  | succ t ih =>
    intro room
    obtain ⟨s, run, h, filled⟩ := ih (by omega)
    have len : ∀ n, (alike n).length = n := by simp [alike]
    have lt : (alike (t + 1)).length < slotsOf memory map := by
      rw [len]
      omega
    have call := takeSection_call (filled.take lt)
    have inside := capacity_room.mp (Nat.lt_of_lt_of_le lt filled.bound)
    rw [len] at call inside
    rw [alike_succ] at h filled
    have fresh : t + 1 ∉ keys (alike t ++ [(t, firstSection)]) := by
      rw [← alike_succ, alike_keys]
      simp
    have made := h.linkLast fresh inside (t + 2) firstSection
    have full := filled.linkLast (by rw [len]; omega) firstSection
    rw [len] at full
    have shape : alike (t + 2) = alike t ++ [(t, firstSection), (t + 1, firstSection)] := by
      rw [alike_succ, alike_succ, List.append_assoc]
      rfl
    rw [← shape] at made full
    refine ⟨_, run.take call ⟨made, ?_, fun i out => ?_, ?_, rfl⟩, made, full⟩
    · rw [alike_keys, alike_keys, List.range_succ]
      exact List.perm_append_singleton ..
    · rw [alike_keys, List.mem_range, not_lt] at out
      have ne : i ≠ t := by omega
      have ne' : i ≠ t + 1 := by omega
      simp [State.linkLast, ne, ne']
    · simp [State.linkLast, State.setNext, State.setPrev, State.setVal]

end

/-- The slots of the machine; the last reaches past its data area. -/
theorem machine_slots : slotsOf machineMemory machineMap = 26215 ∧
    (firstState machineMemory machineMap 0x101000).capacity = 26215 := by
  have cap : (firstState machineMemory machineMap 0).capacity = 26215 := by
    simp only [State.capacity, firstState, machineMap_size, sectionSize]
  have last : (firstState machineMemory machineMap 0).unlinked 26214 = true := by
    simp [State.unlinked, firstState, clearSlot, machineMemory]
  constructor
  · simp only [slotsOf, cap, Nat.reduceSub, last, ↓reduceIte]
  · exact cap

/-- On the machine the array can be filled. -/
theorem machine_filled : ∃ s,
    Churns (firstState machineMemory machineMap 0x101000) 26214 0 s (alike 26215) ∧
      Represents s (alike 26215) := by
  have size : dataSizeFor (exploreMap machineMap) ≠ 0 := by rw [machineMap_size]; decide
  obtain ⟨s, run, h, -⟩ := @churns_fill machineMemory machineMap 0x101000 26214
    (by decide) size (by rw [machine_slots.1])
  exact ⟨s, run, h⟩

/-- A full array refuses, as it should. -/
theorem slots_reused_iff_full : ∃ s l,
    Churns (firstState machineMemory machineMap 0x101000) 26214 0 s l ∧
      ((pmmNewSection s).1 = none → ∀ i, i * sectionSize < s.dataSize → i ∈ keys l) := by
  obtain ⟨s, run, h⟩ := machine_filled
  have size : dataSizeFor (exploreMap machineMap) ≠ 0 := by rw [machineMap_size]; decide
  have last : (firstState machineMemory machineMap 0x101000).unlinked (s.capacity - 1) = true := by
    rw [run.capacity_eq, machine_slots.2]
    simp [State.unlinked, firstState, clearSlot, machineMemory]
  refine ⟨s, _, run, (slots_reused_iff (by decide) size run).mpr ?_⟩
  rw [if_pos last]
  exact Or.inr rfl

/-- One section deleted from a full array: its slot is free, and the next call answers null. -/
theorem deleted_slot_lost : ∃ s l,
    Churns (firstState machineMemory machineMap 0x101000) 26214 1 s l ∧
      (pmmNewSection s).1 = none ∧ (26213 + 1) * sectionSize ≤ s.dataSize ∧ 26213 ∉ keys l := by
  obtain ⟨s, run, h⟩ := machine_filled
  have size : dataSizeFor (exploreMap machineMap) ≠ 0 := by rw [machineMap_size]; decide
  have shape : alike 26215 = alike 26212 ++
      [(26212, firstSection), (26213, firstSection), (26214, firstSection)] := by
    rw [alike_succ 26214, alike_succ 26213, alike_succ 26212, List.append_assoc, List.append_assoc]
    rfl
  rw [shape] at run h
  have lost := run.join h rfl
  have bump := lost.bumping (firstState_bumping (by decide) size
    (machine_slots.1.trans machine_slots.2.symm))
  have cap := lost.capacity_eq.trans machine_slots.2
  refine ⟨_, _, lost, ?_, ?_, ?_⟩
  · rw [pmmNewSection_off]
    rw [bump.head, cap]
  · rw [State.capacity, sectionSize] at cap
    rw [sectionSize]
    omega
  · simp [alike]

end Skylight.Pmm
