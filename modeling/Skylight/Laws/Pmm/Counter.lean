import Skylight.Laws.Pmm.Machine

/-!
# The counter of free memory

`pmm_start` computes `free_memory` from the list and then locks the pages of its own array,
which does not touch the counter. So the counter is too large from the first state on,
whatever the map: by the size of the descriptor array.

`free_memory_never_accurate` says so of every valid map from which `pmm_start` answers. The
function that recomputes the counter is right when it is called
(`pmmRecalculateFreeMemory_accurate`): it is called too early.
-/

namespace Skylight.Pmm

open Chain RunLength

/-- The number of free pages of a list. -/
def freePages (l : List Section) : Nat :=
  ((Finset.range (pagesOf l)).filter fun p => typeAt l p = some .free).card

/-- The counter says how much memory is free. -/
def Accurate (s : State) : Prop :=
  ∃ l, Represents s l ∧ s.freeMemory = freePages (data l) * pageSize

/-- A call of the manager's interface. -/
inductive Call
  | allocPage
  | freePage (page : Nat)
  | lockPage (page : Nat)
  | lockPages (page count : Nat)
  | unlockPage (page : Nat)
  | unlockPages (page count : Nat)
  | allocPool (count : Nat) (m : Malloc)
  | freePool (pool : Nat)

/-- The state a call leaves. -/
def Call.run (s : State) : Call → Except Fault State
  | .allocPage => do return (← pmmAllocPage s).2
  | .freePage p => pmmFreePage s p
  | .lockPage p => pmmLockPage s p
  | .lockPages p n => pmmLockPages s p n
  | .unlockPage p => pmmUnlockPage s p
  | .unlockPages p n => pmmUnlockPages s p n
  | .allocPool n m => do return (← pmmAllocPool s n m).2.2
  | .freePool p => pmmFreePool s p

/-- One call that answers. -/
def CallStep (s s' : State) : Prop := ∃ call : Call, call.run s = .ok s'

/-- The number of free pages, section by section. -/
theorem freePages_eq (l : List Section) :
    freePages l = ((l.filter fun v => v.free = .free).map Section.pages).sum := by
  rw [freePages, pagesOf, typeAt, card_valueAt, runs, List.filter_map, List.map_map]
  rfl

/-- Summed up in words, the free sections come to a word below the limit. -/
theorem freeWords_eq {l : List Section} : ∀ {acc : Nat},
    acc + freePages l * pageSize < 2 ^ 64 → freeWords l acc = acc + freePages l * pageSize := by
  induction l with
  | nil => exact fun _ => rfl
  | cons v l ih =>
    intro acc bound
    rw [freeWords]
    by_cases hv : v.free = .free
    · have cons : freePages (v :: l) = v.pages + freePages l := by
        simp [freePages_eq, hv]
      rw [cons, Nat.add_mul, ← Nat.add_assoc] at bound ⊢
      have hacc : acc + v.pages * pageSize < 2 ^ 64 :=
        Nat.lt_of_le_of_lt (Nat.le_add_right ..) bound
      have hmul : v.pages * pageSize < 2 ^ 64 := Nat.lt_of_le_of_lt (Nat.le_add_left ..) hacc
      rw [if_pos hv, Word.mul_eq hmul, Word.add_eq hacc, ih bound]
    · have cons : freePages (v :: l) = freePages l := by simp [freePages_eq, hv]
      rw [cons] at bound ⊢
      rw [if_neg hv, ih bound]

/-- The free pages lie before the last section, below the limit of the address space. -/
theorem Layout.freePages_lt {l : List Section} (lay : Layout l) :
    freePages l * pageSize < 2 ^ 64 := by
  obtain ⟨v, l', rfl, hv⟩ := lay.last
  have start := lay.start_eq
  have lt := lay.starts v (by simp)
  have le : freePages (l' ++ [v]) ≤ pagesOf l' := by
    have : freePages (l' ++ [v]) = freePages l' := by simp [freePages_eq, hv]
    rw [this, freePages]
    exact (Finset.card_filter_le _ _).trans (by simp)
  rw [start] at lt
  exact Nat.lt_of_le_of_lt (Nat.mul_le_mul_right _ le) lt

/-- `pmm_recalculate_free_memory` makes the counter right: it is then the number of free pages in
bytes, and no sum on the way wraps. -/
theorem pmmRecalculateFreeMemory_accurate {s : State} {l : List (Nat × Section)}
    (h : Represents s l) (lay : Layout (data l)) :
    ∃ s', pmmRecalculateFreeMemory s = .ok s' ∧ Accurate s' := by
  refine ⟨_, pmmRecalculateFreeMemory_eq h, l, h.congr rfl rfl rfl, ?_⟩
  have lt := lay.freePages_lt
  rw [freeWords_eq (by omega), Nat.zero_add]

/-- Pages that become used are free no more: there are `n` fewer. -/
theorem freePages_fill {l l' : List Section} {k n : Nat}
    (free : ∀ j < n, typeAt l (k + j) = some .free) (types : typeAt l' = fill (typeAt l) k n .used)
    (pos : 0 < n) : freePages l' < freePages l := by
  refine Finset.card_lt_card (Finset.ssubset_iff_of_subset ?_ |>.mpr ⟨k, ?_, ?_⟩)
  · intro p hp
    rw [Finset.mem_filter, types] at hp
    have outside : ¬ (k ≤ p ∧ p < k + n) := fun inside => by
      rw [fill_inside inside.1 inside.2] at hp
      cases hp.2
    rw [fill_outside outside] at hp
    refine Finset.mem_filter.mpr ⟨Finset.mem_range.mpr ?_, hp.2⟩
    by_contra ge
    rw [pagesOf_le_iff.mp (Nat.le_of_not_lt ge)] at hp
    cases hp.2
  · have here : typeAt l k = some .free := by simpa using free 0 pos
    refine Finset.mem_filter.mpr ⟨Finset.mem_range.mpr ?_, here⟩
    by_contra ge
    rw [pagesOf_le_iff.mp (Nat.le_of_not_lt ge)] at here
    cases here
  · intro hk
    rw [Finset.mem_filter, types, fill_inside le_rfl (by omega)] at hk
    cases hk.2

section
variable {memory : Nat → Descriptor} {map : List MemoryMapEntry} {s₀ : State}

/-- The counter computed before the pages of the array were locked is too large after. -/
theorem Starts.inaccurate {base k : Nat} {s t : State} {l l' : List (Nat × Section)}
    (h : Starts map base s l)
    (free : ∀ j < pagesFor s.dataSize, typeAt (data l) (k + j) = some .free)
    (same : SameGlobals s t) (hr : Represents t l')
    (types : typeAt (data l') = fill (typeAt (data l)) k (pagesFor s.dataSize) .used) :
    ¬ Accurate t := by
  rintro ⟨l'', hr', accurate⟩
  obtain rfl := hr.unique hr'
  have lt := h.layout.freePages_lt
  have size : 0 < s.dataSize := by
    have mem : 0 ∈ keys l := by
      have head := h.list.head
      cases l with
      | nil => cases head
      | cons x l => simpa using Or.inl (Option.some.inj head).symm
    simpa using h.list.slots 0 mem
  have pos : 0 < pagesFor s.dataSize := by
    have := pagesFor_dataSize (exploreMap map)
    rw [← h.size] at this
    rcases Nat.eq_zero_or_pos (pagesFor s.dataSize) with e | e
    · rw [e] at this
      omega
    · exact e
  have fewer := freePages_fill free types pos
  rw [same.freeMemory, h.counter, freeWords_eq (by omega), Nat.zero_add] at accurate
  have := Nat.eq_of_mul_eq_mul_right (by simp [pageSize]) accurate
  omega

/-- The counter after `pmm_start` is that of the list before its pages were locked. -/
theorem pmmStart_inaccurate (valid : ValidMap map) (start : pmmStart memory map = .ok s₀) :
    ¬ Accurate s₀ := by
  cases he : metadataEntry map with
  | none =>
    rw [pmmStart_none he] at start
    cases start
  | some e =>
    have build : Yields OutOfSections (fun s => ¬ Accurate s) (pmmStart memory map) := by
      refine (pmmBuild_yields valid he).bind fun s ⟨l, h⟩ => ?_
      refine (h.locks valid he).imp fun t ⟨_, started, same, types, free⟩ => ?_
      exact h.inaccurate free same started.list types
    exact build.of_ok start

/-- On no valid map is the counter right in every state reached from `pmm_start`: the first of
them has it too large by the pages of the descriptor array. -/
theorem free_memory_never_accurate (valid : ValidMap map) (start : pmmStart memory map = .ok s₀) :
    ¬ ∀ s, Relation.ReflTransGen CallStep s₀ s → Accurate s :=
  fun all => pmmStart_inaccurate valid start (all s₀ .refl)

end

/-- On the map of the machine. -/
theorem free_memory_never_accurate_machine : ∃ s₀, pmmStart machineMemory machineMap = .ok s₀ ∧
    ¬ ∀ s, Relation.ReflTransGen CallStep s₀ s → Accurate s := by
  obtain ⟨s₀, start, -⟩ := machine_start
  exact ⟨s₀, start, free_memory_never_accurate machineMap_valid start⟩

/-- After `pmm_start` the machine counts 64 megabytes free, and 63 are. -/
theorem free_memory_machine : ∃ s₀ l, pmmStart machineMemory machineMap = .ok s₀ ∧
    Represents s₀ l ∧ s₀.freeMemory = 64 * megabyte ∧
    freePages (data l) * pageSize = 63 * megabyte ∧
    ¬ ∀ s, Relation.ReflTransGen CallStep s₀ s → Accurate s := by
  obtain ⟨s₀, start, ⟨-, l, hr, hl⟩, -, -, hcount⟩ := machine_start
  have free : freePages (data l) * pageSize = 63 * megabyte := by
    rw [hl, freePages_eq]
    decide
  refine ⟨s₀, l, start, hr, hcount, free, fun all => ?_⟩
  obtain ⟨l', hr', accurate⟩ := all s₀ .refl
  obtain rfl := hr.unique hr'
  rw [hcount, free] at accurate
  exact absurd accurate (by decide)

end Skylight.Pmm
