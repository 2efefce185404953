import Skylight.Laws.Pmm.Start

/-!
# Room for the sections of a map

While `pmm_start` builds its list it deletes nothing, so the slots are handed out in order
from slot 1 on and the loop succeeds exactly when the slots suffice for the sections it
builds. A slot that reaches past the end of the data area keeps what the memory held
there, and `pmm_new_section` passes it over when that looks like links.
-/

namespace Skylight.Pmm

open Chain RunLength

/-- The list takes up the first slots, the next ones up to `n` are unlinked, and none is
unlinked from `n` on. -/
structure Filled (s : State) (l : List (Nat × Section)) (n : Nat) : Prop where
  head : s.sectionHead = l.length
  keys : ∀ a, a ∈ keys l ↔ a < l.length
  spare : ∀ i, l.length ≤ i → i < n → s.unlinked i = true
  full : ∀ i, n ≤ i → i < s.capacity → s.unlinked i = false
  le : l.length ≤ n
  bound : n ≤ s.capacity

section
variable {s s' : State} {l l' : List (Nat × Section)} {n : Nat}

/-- With a spare slot the next one is handed out. -/
theorem Filled.take (h : Filled s l n) (lt : l.length < n) :
    takeSection s = .ok (l.length, { s with sectionHead := l.length + 1 }) := by
  have room := capacity_room.mp (Nat.lt_of_lt_of_le lt h.bound)
  rw [takeSection, pmmNewSection, h.head, if_neg (Nat.not_le_of_lt room),
    if_pos (h.spare _ le_rfl lt)]

/-- With none left there is none to find. -/
theorem Filled.noTake (h : Filled s l n) (hr : Represents s l) (two : 2 ≤ l.length)
    (eq : l.length = n) : takeSection s = .error .noSection := by
  have linked : ∀ i, i < s.capacity → s.unlinked i = false := by
    intro i hi
    by_cases mem : i ∈ Chain.keys l
    · rw [State.unlinked]
      rcases hr.list.linked two mem with hp | hn
      · simp [Option.isNone_eq_false_iff.mpr (Option.isSome_iff_ne_none.mpr hp)]
      · simp [Option.isNone_eq_false_iff.mpr (Option.isSome_iff_ne_none.mpr hn)]
    · rw [h.keys] at mem
      exact h.full i (by omega) hi
  by_cases room : s.sectionHead * sectionSize ≥ s.dataSize
  · simp only [takeSection, pmmNewSection, if_pos room]
  · have lt := capacity_room.mpr (Nat.lt_of_not_le room)
    have here := linked _ lt
    have none_found : (List.range s.capacity).find? s.unlinked = none := by
      simp only [List.find?_eq_none, List.mem_range, Bool.not_eq_true]
      exact linked
    have zero := linked 0 (by omega)
    simp only [takeSection, pmmNewSection, if_neg room, here, Bool.false_eq_true, ↓reduceIte,
      pmmSectionManagerReindex, none_found, Option.getD_none]
    have zero' : State.unlinked { s with sectionHead := 0 } 0 = false := zero
    simp [zero']

/-- A section more, in the next slot. -/
theorem Filled.grow (h : Filled s l n) (lt : l.length < n)
    (keys' : (Chain.keys l').Perm (l.length :: Chain.keys l))
    (head : s'.sectionHead = l.length + 1) (size : s'.dataSize = s.dataSize)
    (rest : ∀ i, i ∉ Chain.keys l' → s'.sections i = s.sections i) : Filled s' l' n := by
  have len : l'.length = l.length + 1 := by simpa using keys'.length_eq
  have cap : s'.capacity = s.capacity := by rw [State.capacity, State.capacity, size]
  have mem : ∀ a, a ∈ Chain.keys l' ↔ a < l'.length := by
    intro a
    rw [keys'.mem_iff, List.mem_cons, h.keys, len]
    omega
  have same : ∀ i, l'.length ≤ i → s'.unlinked i = s.unlinked i := by
    intro i hi
    rw [State.unlinked, State.unlinked, rest i (by rw [mem]; omega)]
  refine ⟨by rw [head, len], mem, fun i lo hi => ?_, fun i lo hi => ?_, by omega, cap ▸ h.bound⟩
  · rw [same i lo]
    exact h.spare i (by omega) hi
  · rw [same i (by omega)]
    exact h.full i lo (cap ▸ hi)

end

section
variable {s : State} {l : List (Nat × Section)} {a n m : Nat} {v w x : Section}

/-- A section linked in at the end. -/
theorem Filled.linkLast (h : Filled s (l ++ [(a, v)]) m) (lt : l.length + 1 < m) (w : Section) :
    Filled (({ s with sectionHead := l.length + 2 } : State).linkLast a (l.length + 1) w)
      (l ++ [(a, v), (l.length + 1, w)]) m := by
  refine h.grow (by simpa using lt) ?_ (by simp [State.linkLast, State.setNext, State.setPrev,
    State.setVal]) rfl fun i hi => ?_
  · have : Chain.keys (l ++ [(a, v), (l.length + 1, w)])
        = Chain.keys (l ++ [(a, v)]) ++ [l.length + 1] := by simp
    rw [this]
    simpa using List.perm_append_singleton (l.length + 1) (Chain.keys (l ++ [(a, v)]))
  · simp only [List.map_append, List.map_cons, List.map_nil, List.mem_append, List.mem_cons,
      List.not_mem_nil, or_false, not_or] at hi
    simp [State.linkLast, hi.2.1, hi.2.2]

/-- And the section of a gap before it. -/
theorem Filled.linkGap (h : Filled s (l ++ [(a, v), (n, w)]) m) (lt : l.length + 2 < m)
    (x : Section) :
    Filled (({ s with sectionHead := l.length + 3 } : State).linkGap a (l.length + 2) n x)
      (l ++ [(a, v), (l.length + 2, x), (n, w)]) m := by
  refine h.grow (by simpa using lt) ?_ (by simp [State.linkGap, State.setNext, State.setPrev,
    State.setVal]) rfl fun i hi => ?_
  · have : Chain.keys (l ++ [(a, v), (l.length + 2, x), (n, w)])
        = Chain.keys (l ++ [(a, v)]) ++ (l.length + 2) :: [n] := by simp
    rw [this]
    simpa using @List.perm_middle _ (l.length + 2) (Chain.keys (l ++ [(a, v)])) [n]
  · simp only [List.map_append, List.map_cons, List.map_nil, List.mem_append, List.mem_cons,
      List.not_mem_nil, or_false, not_or] at hi
    simp [State.linkGap, hi.2.1, hi.2.2.1, hi.2.2.2]

end

/-- The building loop succeeds exactly when its sections fit. -/
theorem startLoop_room {m : Nat} (two : 2 ≤ m) {es : List MemoryMapEntry} :
    ∀ {l : List (Nat × Section)} {s : State} {a : Nat} {v : Section},
      Represents s (l ++ [(a, v)]) → Filled s (l ++ [(a, v)]) m →
      (l.length + 1 + (built v es).length ≤ m → ∃ s', startLoop es s a = .ok s') ∧
        (m < l.length + 1 + (built v es).length → startLoop es s a = .error .noSection) := by
  -- Slots are taken in order, one for an entry and one for a gap, so only their number matters.
  induction es with
  | nil =>
    intro l s a v h filled
    have := filled.le
    simp only [List.length_append, List.length_cons, List.length_nil, Nat.zero_add] at this
    exact ⟨fun _ => ⟨s, rfl⟩, fun short => by simp [built] at short; omega⟩
  | cons e es ih =>
    intro l s a v h filled
    have len : (l ++ [(a, v)]).length = l.length + 1 := by simp
    have le := filled.le
    rw [len] at le
    rw [built_cons]
    by_cases skip : e.base = v.start
    · rw [if_pos skip, startLoop, h.sec_eq, if_pos skip]
      exact ih h filled
    rw [if_neg skip, startLoop_cons (by rwa [h.sec_eq])]
    rcases Nat.lt_or_eq_of_le le with lt | eq
    swap
    · -- no slot is left for the section of the entry
      rw [filled.noTake h (by omega) (by omega), error_bind]
      refine ⟨fun enough => ?_, fun _ => rfl⟩
      split at enough <;> simp only [List.length_cons] at enough <;> omega
    have fresh : l.length + 1 ∉ Chain.keys (l ++ [(a, v)]) := by
      rw [filled.keys, len]
      exact lt_irrefl _
    have room := capacity_room.mp (Nat.lt_of_lt_of_le lt filled.bound)
    have last := h.linkLast fresh room (l.length + 2) (entrySection e)
    have filled₁ := filled.linkLast lt (entrySection e)
    rw [filled.take (by omega), ok_bind, len]
    simp only [last.sec_eq]
    by_cases gap : v.fin = e.base
    · rw [if_neg (not_not.mpr gap), if_neg (not_not.mpr gap)]
      have onward := @ih (l ++ [(a, v)]) _ (l.length + 1) (entrySection e) (by simpa using last)
        (by simpa using filled₁)
      rw [len] at onward
      simp only [List.length_cons]
      exact ⟨fun enough => onward.1 (by omega), fun short => onward.2 (by omega)⟩
    rw [if_pos gap, if_pos gap]
    have len₁ : (l ++ [(a, v), (l.length + 1, entrySection e)]).length = l.length + 2 := by simp
    have le₁ := filled₁.le
    rw [len₁] at le₁
    simp only [List.length_cons]
    rcases Nat.lt_or_eq_of_le le₁ with lt₁ | eq₁
    swap
    · -- no slot is left for the section of the gap
      rw [filled₁.noTake last (by omega) (by omega), error_bind]
      exact ⟨fun enough => by omega, fun _ => rfl⟩
    have fresh₁ : l.length + 2 ∉ Chain.keys (l ++ [(a, v), (l.length + 1, entrySection e)]) := by
      rw [filled₁.keys, len₁]
      exact lt_irrefl _
    have room₁ := capacity_room.mp (Nat.lt_of_lt_of_le lt₁ filled₁.bound)
    have both := last.linkGap fresh₁ room₁ (l.length + 3) (gapSection v e)
    have filled₂ := filled₁.linkGap lt₁ (gapSection v e)
    rw [filled₁.take (by omega), ok_bind, len₁]
    have onward := @ih (l ++ [(a, v), (l.length + 2, gapSection v e)]) _ (l.length + 1)
      (entrySection e) (by simpa using both) (by simpa using filled₂)
    have len₂ : (l ++ [(a, v), (l.length + 2, gapSection v e)]).length = l.length + 2 := by simp
    rw [len₂] at onward
    exact ⟨fun enough => onward.1 (by omega), fun short => onward.2 (by omega)⟩

/-! ## The slots of the array -/

section
variable {memory : Nat → Descriptor} {map : List MemoryMapEntry}

/-- The slots `pmm_start` can fill: all of them, less one that reaches past the end of the
array when the words behind the end read as a link. -/
def slotsOf (memory : Nat → Descriptor) (map : List MemoryMapEntry) : Nat :=
  let s := firstState memory map 0
  if s.unlinked (s.capacity - 1) then s.capacity else s.capacity - 1

/-- An array of no size has no slots. -/
theorem slotsOf_zero (size : dataSizeFor (exploreMap map) = 0) : slotsOf memory map = 0 := by
  have cap : (firstState memory map 0).capacity = 0 := by
    simp only [State.capacity, firstState, size, sectionSize]
  rw [slotsOf]
  simp only [cap]
  split <;> rfl

/-- There are slots for a short list in a megabyte. -/
theorem slotsOf_megabyte (size : dataSizeFor (exploreMap map) = 0x100000) :
    26214 ≤ slotsOf memory map := by
  have cap : (firstState memory map 0).capacity = 26215 := by
    simp only [State.capacity, firstState, size, sectionSize]
  rw [slotsOf]
  simp only [cap]
  split <;> omega

/-- At first one slot is taken. -/
theorem firstState_filled {base : Nat} (size : dataSizeFor (exploreMap map) ≠ 0) :
    2 ≤ slotsOf memory map ∧
      Filled (firstState memory map base) ([] ++ [(0, firstSection)]) (slotsOf memory map) := by
  obtain ⟨n, hn, -⟩ := dataSizeFor_eq (exploreMap map)
  have pos : megabyte ≤ dataSizeFor (exploreMap map) := by
    rw [hn] at size ⊢
    exact Nat.le_mul_of_pos_left _ (Nat.pos_of_ne_zero fun h => size (by rw [h, Nat.zero_mul]))
  have cap : ∀ b, (firstState memory map b).capacity
      = (dataSizeFor (exploreMap map) + 39) / 40 := fun _ => rfl
  have spare : ∀ i, 1 ≤ i → i * sectionSize + 16 ≤ dataSizeFor (exploreMap map) →
      (firstState memory map base).unlinked i = true := by
    intro i hi fits
    have ne : i ≠ 0 := by omega
    have fits' : i * sectionSize + 8 ≤ dataSizeFor (exploreMap map) := by omega
    simp only [State.unlinked, firstState, ne_eq, ne, not_false_eq_true, Function.update_of_ne,
      clearSlot, if_pos fits, if_pos fits']
    rfl
  have last : ∀ i, (firstState memory map base).unlinked i = (firstState memory map 0).unlinked i :=
    fun _ => rfl
  simp only [megabyte] at pos
  simp only [sectionSize] at spare
  unfold slotsOf
  simp only [cap]
  split
  next h =>
    refine ⟨by omega, rfl, by simp, fun i lo hi => ?_, fun i lo hi => ?_, ?_, le_rfl⟩
    · simp only [List.nil_append, List.length_cons, List.length_nil, Nat.zero_add] at lo
      by_cases e : i = (dataSizeFor (exploreMap map) + 39) / 40 - 1
      · rw [e, last]
        exact h
      · exact spare i lo (by omega)
    · rw [cap] at hi
      omega
    · simp only [List.nil_append, List.length_cons, List.length_nil]
      omega
  next h =>
    refine ⟨by omega, rfl, by simp, fun i lo hi => ?_, fun i lo hi => ?_, ?_, ?_⟩
    · simp only [List.nil_append, List.length_cons, List.length_nil, Nat.zero_add] at lo
      exact spare i lo (by omega)
    · rw [cap] at hi
      obtain rfl : i = (dataSizeFor (exploreMap map) + 39) / 40 - 1 := by omega
      rw [last]
      simpa using h
    · simp only [List.nil_append, List.length_cons, List.length_nil]
      omega
    · rw [cap]
      omega

/-- The building loop of `pmm_start` succeeds exactly when the slots suffice for the map. -/
theorem firstLoop_room {base : Nat} (started : base ≠ 0)
    (size : dataSizeFor (exploreMap map) ≠ 0) (es : List MemoryMapEntry) :
    (1 + (built firstSection es).length ≤ slotsOf memory map →
      ∃ s l, startLoop es (firstState memory map base) 0 = .ok s ∧
        SameGlobals (firstState memory map base) s ∧ Represents s ((0, firstSection) :: l) ∧
        data l = built firstSection es) ∧
    (slotsOf memory map < 1 + (built firstSection es).length →
      startLoop es (firstState memory map base) 0 = .error .noSection) := by
  obtain ⟨hr, fresh⟩ := @firstState_represents memory map base started size
  obtain ⟨two, filled⟩ := @firstState_filled memory map base size
  have room := @startLoop_room _ two es [] _ 0 firstSection hr filled
  rw [List.length_nil, Nat.zero_add] at room
  refine ⟨fun enough => ?_, room.2⟩
  obtain ⟨s, run⟩ := room.1 enough
  obtain ⟨same, l, h, hl⟩ := (startLoop_yields hr fresh).of_ok run
  exact ⟨s, l, run, same, h, hl⟩

end

end Skylight.Pmm
