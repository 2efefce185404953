import Skylight.Laws.Pmm.Reuse

/-!
# Where the descriptors lie

What `pmm_new_section` hands out, for a data area of any size, against the list and the end of that
area. The bound is asked of the first byte of a slot, so the slot that reaches past the area is
handed out too, unless what lies there looks like links. Then the rescan takes the first section
for unlinked when it is the only one.
-/

namespace Skylight.Pmm

open Chain

/-- The state in which `pmm_start` takes its first section, for a data area of any size. -/
def createdState (memory : Nat → Descriptor) (size base : Nat) : State :=
  let s := pmmSectionManagerCreate { State.boot memory with dataSize := size } base
  { s with sections := Function.update s.sections 0 ⟨none, none, firstSection⟩ }

/-- A slot that is handed out is not in the list, and all of it lies in the data area. -/
def Safe (s : State) (l : List (Nat × Section)) : Prop :=
  ∀ n s', pmmNewSection s = (some n, s') → n ∉ keys l ∧ (n + 1) * sectionSize ≤ s.dataSize

/-- The slot begins in the data area and ends behind it. -/
def Straddles (s : State) (i : Nat) : Prop :=
  i * sectionSize < s.dataSize ∧ s.dataSize < (i + 1) * sectionSize

/-- The head is on the slot that reaches past the data area, or back on the first one, and it is on
an unlinked slot or the first section is the only one. -/
def Astray (s : State) (l : List (Nat × Section)) : Prop :=
  s.sectionHead * sectionSize < s.dataSize ∧ (Straddles s s.sectionHead ∨ s.sectionHead = 0) ∧
    (s.unlinked s.sectionHead = true ∨ l.length = 1)

/-- Every whole slot that is not in the list is unlinked, and either the head is on an unlinked slot
or the slot that reaches past the data area is not one. -/
structure Charted (s : State) (l : List (Nat × Section)) : Prop where
  represents : Represents s l
  spare : ∀ i, (i + 1) * sectionSize ≤ s.dataSize → i ∉ keys l → s.unlinked i = true
  head : (s.sectionHead < s.capacity → s.unlinked s.sectionHead = true) ∨
    ∀ i, Straddles s i → s.unlinked i = false

section
variable {memory : Nat → Descriptor} {size base t d n i : Nat} {s s' s₀ : State}
  {l : List (Nat × Section)} {v : Section}

/-! ## One call -/

/-- A slot that begins in the data area lies in it, or reaches past its end. -/
theorem whole_or_straddles (room : i * sectionSize < s.dataSize) :
    (i + 1) * sectionSize ≤ s.dataSize ∨ Straddles s i :=
  (Nat.lt_or_ge s.dataSize ((i + 1) * sectionSize)).symm.imp_right fun lt => ⟨room, lt⟩

/-- For a call that answers, safety speaks of one slot. -/
theorem safe_iff_of_call (call : pmmNewSection s = (some n, s')) :
    Safe s l ↔ n ∉ keys l ∧ (n + 1) * sectionSize ≤ s.dataSize := by
  refine ⟨fun safe => safe n s' call, fun lies m s₁ call' => ?_⟩
  rw [call] at call'
  cases call'
  exact lies

/-- A list of one section has it in the first slot. -/
theorem Represents.alone (h : Represents s l) (one : l.length = 1) : ∃ v, l = [(0, v)] := by
  obtain ⟨x, rfl⟩ := List.length_eq_one_iff.mp one
  obtain ⟨a, v⟩ := x
  have first : some a = some 0 := h.head
  cases first
  exact ⟨v, rfl⟩

/-- A list has a section. -/
theorem Represents.length_pos (h : Represents s l) : 0 < l.length := by
  cases l with
  | nil => cases h.head
  | cons x l => exact Nat.succ_pos _

/-- The first slot is always linked in. -/
theorem Represents.zero_mem (h : Represents s l) : 0 ∈ keys l := by
  cases l with
  | nil => cases h.head
  | cons x l =>
    have first : some x.1 = some 0 := h.head
    exact Option.some.inj first ▸ List.mem_cons_self

/-- A slot in the list looks unlinked only when it is the only one. -/
theorem Represents.mem_unlinked (h : Represents s l) (mem : i ∈ keys l)
    (free : s.unlinked i = true) : l.length = 1 ∧ i = 0 := by
  rw [State.unlinked, Bool.and_eq_true, Option.isNone_iff_eq_none,
    Option.isNone_iff_eq_none] at free
  have one : l.length = 1 := by
    by_contra more
    have pos := h.length_pos
    exact h.fresh (by omega) free.1 free.2 mem
  obtain ⟨v, rfl⟩ := h.alone one
  exact ⟨one, List.mem_singleton.mp mem⟩

/-- The only section of a list has no links, so it looks unlinked. -/
theorem Represents.alone_unlinked (h : Represents s [(0, v)]) : s.unlinked 0 = true := by
  have node : s.sections 0 = ⟨none, none, v⟩ := h.list.1
  rw [State.unlinked, node]
  rfl

/-- The rescan finds the first slot first. -/
theorem pmmNewSection_rescan (room : s.sectionHead < s.capacity)
    (linked : s.unlinked s.sectionHead = false) (zero : s.unlinked 0 = true) :
    pmmNewSection s = (some 0, { s with sectionHead := 1 }) := by
  obtain ⟨c, cap⟩ : ∃ c, s.capacity = c + 1 := ⟨s.capacity - 1, by omega⟩
  have found : pmmSectionManagerReindex s = { s with sectionHead := 0 } := by
    rw [pmmSectionManagerReindex, cap, List.range_succ_eq_map, List.find?_cons_of_pos zero]
    rfl
  have zero' : State.unlinked { s with sectionHead := 0 } 0 = true := zero
  rw [pmmNewSection, if_neg (Nat.not_le_of_lt (capacity_room.mp room)), linked,
    if_neg (by decide), found]
  exact if_pos zero'

/-- When a call is safe. -/
theorem Charted.safe_iff_steady (h : Charted s l) : Safe s l ↔ ¬ Astray s l := by
  by_cases off : s.capacity ≤ s.sectionHead
  · have none := pmmNewSection_off off
    refine iff_of_true (fun n s' call => ?_) fun astray => ?_
    · rw [none] at call
      cases call
    · exact Nat.not_lt_of_le off (capacity_room.mpr astray.1)
  have room := Nat.lt_of_not_le off
  by_cases free : s.unlinked s.sectionHead = true
  · rw [safe_iff_of_call (pmmNewSection_head room free)]
    constructor
    · rintro ⟨out, whole⟩ ⟨-, straddles | zero, -⟩
      · exact Nat.not_lt_of_le whole straddles.2
      · exact out (zero ▸ h.represents.zero_mem)
    · intro steady
      refine ⟨fun mem => ?_, ?_⟩
      · have first := (h.represents.mem_unlinked mem free).2
        exact steady ⟨capacity_room.mp room, .inr first, .inl free⟩
      · refine (whole_or_straddles (capacity_room.mp room)).resolve_right fun straddles => ?_
        exact steady ⟨capacity_room.mp room, .inl straddles, .inl free⟩
  · by_cases one : l.length = 1
    · -- only the first section is linked: the rescan hands out its slot
      obtain ⟨v, rfl⟩ := h.represents.alone one
      have zero := h.represents.alone_unlinked
      have call := pmmNewSection_rescan room (Bool.not_eq_true _ ▸ free) zero
      have other : s.sectionHead ∉ keys [(0, v)] := by
        intro mem
        rw [List.mem_singleton.mp mem] at free
        exact free zero
      have straddles : Straddles s s.sectionHead :=
        (whole_or_straddles (capacity_room.mp room)).resolve_left fun whole =>
          free (h.spare _ whole other)
      rw [safe_iff_of_call call]
      exact iff_of_false (fun safe => safe.1 List.mem_cons_self)
        (not_not.mpr ⟨capacity_room.mp room, .inl straddles, .inr one⟩)
    · refine iff_of_true (fun n s' call => ?_) fun astray => astray.2.2.elim free one
      obtain ⟨found, lt, -⟩ := pmmNewSection_some call
      refine ⟨fun mem => one (h.represents.mem_unlinked mem found).1, ?_⟩
      refine (whole_or_straddles (capacity_room.mp lt)).resolve_right fun straddles => ?_
      rcases h.head with here | passed
      · exact free (here room)
      · rw [passed n straddles] at found
        cases found

/-! ## The states of a run -/

/-- Slots handed out in order are charted. -/
theorem Bumping.charted (h : Bumping s l t d) : Charted s l := by
  refine ⟨h.represents, fun i whole out => h.spare i (capacity_room.mpr ?_) out, .inl h.head_spare⟩
  rw [sectionSize] at whole ⊢
  omega

/-- So are those with the last one passed over, when the last one reaches past the end. -/
theorem Passing.charted (h : Passing s l) (rest : ¬ sectionSize ∣ s.dataSize) : Charted s l := by
  rw [sectionSize, Nat.dvd_iff_mod_eq_zero] at rest
  have cap : s.capacity = (s.dataSize + 39) / 40 := rfl
  refine ⟨h.represents, fun i whole out => h.spare i ?_ out, .inr ?_⟩
  · rw [sectionSize] at whole
    omega
  · rintro i ⟨room, behind⟩
    rw [sectionSize] at room behind
    have last : i = s.capacity - 1 := by omega
    rw [last]
    exact h.last

/-- The first slot holds the first section. -/
theorem createdState_first :
    (createdState memory size base).sections 0 = ⟨none, none, firstSection⟩ := by
  show Function.update (fun i => clearSlot size i (memory i)) 0 ⟨none, none, firstSection⟩ 0 = _
  exact Function.update_self ..

/-- The state holds that section alone. -/
theorem createdState_represents (started : base ≠ 0) (pos : 0 < size) :
    Represents (createdState memory size base) [(0, firstSection)] := by
  refine ⟨started, ⟨createdState_first, trivial⟩, rfl, fun a mem => ?_⟩
  · rw [List.mem_singleton.mp mem, Nat.zero_mul]
    exact pos

/-- And that slot looks unlinked. -/
theorem createdState_zero : (createdState memory size base).unlinked 0 = true := by
  rw [State.unlinked, createdState_first]
  rfl

/-- The whole slots have been cleared. -/
theorem createdState_spare (whole : (i + 1) * sectionSize ≤ size) :
    (createdState memory size base).unlinked i = true := by
  by_cases zero : i = 0
  · rw [zero]
    exact createdState_zero
  · have node : (createdState memory size base).sections i = clearSlot size i (memory i) := by
      show Function.update (fun i => clearSlot size i (memory i)) 0 _ i = _
      exact Function.update_of_ne zero ..
    rw [sectionSize] at whole
    rw [State.unlinked, node, clearSlot, if_pos (by rw [sectionSize]; omega),
      if_pos (by rw [sectionSize]; omega)]
    rfl

/-- With the last slot unlinked the head goes up through all of them. -/
theorem createdState_bumping (started : base ≠ 0) (pos : 0 < size)
    (last : (createdState memory size base).unlinked
      ((createdState memory size base).capacity - 1) = true) :
    Bumping (createdState memory size base) [(0, firstSection)] 0 0 := by
  have cap : (createdState memory size base).capacity = (size + 39) / 40 := rfl
  refine ⟨createdState_represents started pos, rfl, rfl, by omega, fun a mem => ?_,
    fun i lt _ => ?_⟩
  · rw [List.mem_singleton.mp mem]
    exact Nat.one_pos
  · by_cases edge : i = (createdState memory size base).capacity - 1
    · rw [edge]
      exact last
    · exact createdState_spare (by rw [sectionSize]; omega)

/-- With the last slot linked it passes over that one. -/
theorem createdState_passing (started : base ≠ 0) (pos : 0 < size)
    (last : (createdState memory size base).unlinked
      ((createdState memory size base).capacity - 1) = false) :
    Passing (createdState memory size base) [(0, firstSection)] := by
  have cap : (createdState memory size base).capacity = (size + 39) / 40 := rfl
  refine ⟨createdState_represents started pos, last, fun mem => ?_, fun i lt _ => ?_⟩
  · rw [List.mem_singleton.mp mem, createdState_zero] at last
    cases last
  · exact createdState_spare (by rw [sectionSize]; omega)

/-- A slot that was linked from the start lies across the end of the area. -/
theorem createdState_rest (last : (createdState memory size base).unlinked
    ((createdState memory size base).capacity - 1) = false) : ¬ sectionSize ∣ size ∧
      sectionSize ≤ size := by
  have cap : (createdState memory size base).capacity = (size + 39) / 40 := rfl
  rw [sectionSize, Nat.dvd_iff_mod_eq_zero]
  by_contra whole
  have clear : (createdState memory size base).unlinked
      ((createdState memory size base).capacity - 1) = true := by
    by_cases zero : (createdState memory size base).capacity - 1 = 0
    · rw [zero]
      exact createdState_zero
    · exact createdState_spare (by rw [sectionSize]; omega)
  rw [clear] at last
  cases last

/-- A run begins with a list. -/
theorem Churns.first (run : Churns s₀ t d s l) : ∃ l₀, Represents s₀ l₀ := by
  induction run with
  | start h => exact ⟨_, h⟩
  | take _ _ _ ih => exact ih
  | refuse _ _ ih => exact ih
  | delete _ _ ih => exact ih

/-- What a run from that state says of its base and its size. -/
theorem Churns.created (run : Churns (createdState memory size base) t d s l) :
    base ≠ 0 ∧ 0 < size := by
  obtain ⟨l₀, h⟩ := run.first
  have room : 0 * sectionSize < size := h.slots 0 h.zero_mem
  rw [Nat.zero_mul] at room
  exact ⟨h.started, room⟩

/-- What a run leaves is charted. -/
theorem Churns.charted (run : Churns (createdState memory size base) t d s l) : Charted s l := by
  obtain ⟨started, pos⟩ := run.created
  cases last : (createdState memory size base).unlinked
      ((createdState memory size base).capacity - 1) with
  | true => exact (run.bumping (createdState_bumping started pos last)).charted
  | false =>
    apply (run.passing (createdState_passing started pos last)).charted
    rw [run.size_eq]
    exact (createdState_rest last).1

/-- Without a slot across the end of the area the head only goes up. -/
theorem Churns.head_eq (run : Churns (createdState memory size base) t d s l)
    (whole : sectionSize ∣ size ∨ size < sectionSize) : s.sectionHead = t + 1 := by
  obtain ⟨started, pos⟩ := run.created
  have last : (createdState memory size base).unlinked
      ((createdState memory size base).capacity - 1) = true := by
    by_contra linked
    obtain ⟨rest, le⟩ := createdState_rest (Bool.not_eq_true _ ▸ linked)
    exact whole.elim rest (Nat.not_lt_of_le le)
  exact (run.bumping (createdState_bumping started pos last)).head

/-- One section after the other linked and deleted again, up to the end of the area. -/
theorem churns_alone (started : base ≠ 0) : (t + 1) * sectionSize ≤ size →
    ∃ s v, Churns (createdState memory size base) t t s [(0, v)] ∧ v.free = .bad ∧
      s.sectionHead = t + 1 := by
  -- Each round links one section and deletes it again, so the list is back to one and the head one
  -- up.
  induction t with
  | zero =>
    intro room
    have pos : 0 < size := by
      rw [sectionSize] at room
      omega
    exact ⟨_, firstSection, .start (createdState_represents started pos), rfl, rfl⟩
  | succ t ih =>
    intro room
    have less : (t + 1) * sectionSize ≤ size :=
      Nat.le_trans (Nat.mul_le_mul_right sectionSize (Nat.le_succ (t + 1))) room
    obtain ⟨s, v, run, bad, head⟩ := ih less
    have charted := run.charted
    have fresh : t + 1 ∉ keys [(0, v)] := by simp
    have whole : (t + 1 + 1) * sectionSize ≤ s.dataSize := by
      rw [run.size_eq]
      exact room
    have inside : (t + 1) * sectionSize < s.dataSize := by
      rw [sectionSize] at whole ⊢
      omega
    have free : s.unlinked s.sectionHead = true := by
      rw [head]
      exact charted.spare (t + 1) whole fresh
    have call := pmmNewSection_head (capacity_room.mpr (head ▸ inside)) free
    rw [head] at call
    have made := charted.represents.linkLast (l := []) fresh inside (t + 2) firstSection
    have taken := run.take call ⟨made, List.Perm.swap .., fun i out => ?_, rfl, rfl⟩
    · have joined := taken.joinLast made bad
      exact ⟨_, _, joined, bad, rfl⟩
    · simp only [List.nil_append, List.map_cons, List.map_nil, List.mem_cons, List.not_mem_nil,
        or_false, not_or] at out
      simp [State.linkLast, out.1, out.2]

/-- The run that goes wrong. -/
theorem churns_astray (started : base ≠ 0) (rest : ¬ sectionSize ∣ size)
    (le : sectionSize ≤ size) : ∃ t s l, Churns (createdState memory size base) t t s l ∧
      ¬ Safe s l := by
  rw [sectionSize, Nat.dvd_iff_mod_eq_zero] at rest
  rw [sectionSize] at le
  obtain ⟨s, v, run, -, head⟩ := @churns_alone memory size base (size / 40 - 1) started
    (by rw [sectionSize]; omega)
  refine ⟨_, s, _, run, ?_⟩
  have end' : s.sectionHead = size / 40 := by omega
  have same : s.dataSize = size := run.size_eq
  have straddles : Straddles s s.sectionHead := by
    rw [Straddles, end', same, sectionSize]
    omega
  rw [run.charted.safe_iff_steady, not_not]
  exact ⟨straddles.1, .inl straddles, .inr rfl⟩

end

/-- Every slot that a run is handed out is fresh and lies in the data area, whatever the run,
exactly when the area is a whole number of slots or smaller than one. In each run it holds of the
next call exactly when the head has not gone astray. -/
theorem descriptors_safe_iff (memory : Nat → Descriptor) (size : Nat) :
    ((∀ base t d s l, Churns (createdState memory size base) t d s l → Safe s l) ↔
      sectionSize ∣ size ∨ size < sectionSize) ∧
    ∀ base t d s l, Churns (createdState memory size base) t d s l →
      (Safe s l ↔ ¬ Astray s l) := by
  refine ⟨⟨fun safe => ?_, fun whole base t d s l run => ?_⟩,
    fun base t d s l run => run.charted.safe_iff_steady⟩
  · by_contra uneven
    rw [not_or, Nat.not_lt] at uneven
    obtain ⟨t, s, l, run, wrong⟩ := @churns_astray memory size 1 (by decide) uneven.1 uneven.2
    exact wrong (safe 1 t t s l run)
  · rw [run.charted.safe_iff_steady]
    have head := run.head_eq whole
    have same : s.dataSize = size := run.size_eq
    rintro ⟨room, ⟨-, behind⟩ | zero, -⟩
    · rw [same, sectionSize] at room behind
      rw [sectionSize, Nat.dvd_iff_mod_eq_zero] at whole
      omega
    · omega

/-- In a data area of a megabyte the last slot reaches 24 bytes past it. -/
theorem not_descriptors_safe : ¬ ∀ t d s l,
    Churns (createdState (fun _ => ⟨none, none, .zero⟩) 0x100000 0x101000) t d s l → Safe s l := by
  intro safe
  obtain ⟨t, s, l, run, wrong⟩ := @churns_astray (fun _ => ⟨none, none, .zero⟩) 0x100000 0x101000
    (by decide) (by decide) (by decide)
  exact wrong (safe t t s l run)

end Skylight.Pmm
