import Skylight.Laws.Pmm.Room

/-!
# The free pages of any map

A map that is not in order builds a list that is not in order either: sections of no pages, and
gaps that go round the address space. What is free in it can still be told: the pages of the free
entries, except of those that begin where the entry before them does. Joining neighbours keeps it.

`pmmBuild_free` tells the free pages of any map before `pmm_start` locks its own, and
`pmmBuild_ok_iff` when it answers at all. Which of the firmware's entries are passed on in which
order is the business of `Laws.Boot.Limine`, which uses both.
-/

namespace Skylight.Pmm

open Chain RunLength

/-- A section holds a page. -/
def Section.Holds (v : Section) (p : Nat) : Prop :=
  v.start ≤ p * pageSize ∧ p * pageSize < v.start + v.pages * pageSize

/-- A page is held by a free section. -/
def FreeIn (l : List Section) (p : Nat) : Prop := ∃ v ∈ l, v.free = .free ∧ v.Holds p

/-- A page is free in the list of the manager. -/
def ListedFree (s : State) (p : Nat) : Prop := ∃ l, Represents s l ∧ FreeIn (data l) p

/-- A page is one of a free entry, which is rounded up to whole pages. -/
def FreeOf (e : MemoryMapEntry) (p : Nat) : Prop :=
  e.signal = memoryMapFree ∧ (entrySection e).Holds p

/-- The entries that get a section, behind one that begins at `c`. -/
def kept : Nat → List MemoryMapEntry → List MemoryMapEntry
  | _, [] => []
  | c, e :: es => if e.base = c then kept c es else e :: kept e.base es

/-- Free neighbours meet, and no free section goes round. -/
structure FreeRuns (l : List Section) : Prop where
  meet : l.IsChain fun v w =>
    v.free = .free → w.free = .free → w.start = v.start + v.pages * pageSize
  bound : ∀ v ∈ l, v.free = .free → v.start + v.pages * pageSize ≤ 2 ^ 65

section
variable {l₁ l₂ : List Section} {u v : Section} {p : Nat}

/-- A page is free in one list or in the other. -/
theorem freeIn_append : FreeIn (l₁ ++ l₂) p ↔ FreeIn l₁ p ∨ FreeIn l₂ p := by
  simp only [FreeIn, List.mem_append, or_and_right, exists_or]

/-- In the first section or in the rest. -/
theorem freeIn_cons : FreeIn (v :: l₂) p ↔ (v.free = .free ∧ v.Holds p) ∨ FreeIn l₂ p := by
  simp only [FreeIn, List.mem_cons, or_and_right, exists_or, exists_eq_left]

/-- Two sections that meet hold what one of both lengths holds. -/
theorem holds_join (meet : v.start = u.start + u.pages * pageSize) :
    Section.Holds { u with pages := u.pages + v.pages } p ↔ u.Holds p ∨ v.Holds p := by
  simp only [Section.Holds, meet, Nat.add_mul]
  omega

/-- Joining neighbours of one kind keeps the free pages. -/
theorem joinStable_free (f : Nat → Prop) :
    JoinStable fun l => FreeRuns l ∧ ∀ p, FreeIn l p ↔ f p := by
  rintro l₁ u v l₂ same ⟨runs, free⟩
  obtain ⟨before, meet, after⟩ := List.isChain_append_cons_cons.mp runs.meet
  have last := List.isChain_cons.mp after
  by_cases isFree : u.free = .free
  · have isFree' : v.free = .free := same ▸ isFree
    have meets := meet isFree isFree'
    have bound := runs.bound v (by simp) isFree'
    have fits : u.pages + v.pages < 2 ^ 64 := by
      rw [meets] at bound
      simp only [pageSize] at bound
      omega
    rw [Word.add_eq fits]
    refine ⟨⟨?_, ?_⟩, ?_⟩
    · apply List.isChain_append.mpr
      obtain ⟨chain, -, seam⟩ := List.isChain_append.mp before
      refine ⟨chain, List.isChain_cons.mpr ⟨?_, last.2⟩, ?_⟩
      · intro w mem _ free'
        rw [last.1 w mem isFree' free', meets, Nat.add_mul, Nat.add_assoc]
      · intro x hx y hy free₁ free₂
        obtain rfl : _ = y := Option.some.inj hy
        exact seam x hx u rfl free₁ isFree
    · intro w mem free'
      rcases List.mem_append.mp mem with mem | mem
      · exact runs.bound w (by simp [mem]) free'
      · rcases List.mem_cons.mp mem with rfl | mem
        · rw [meets] at bound
          simpa [Nat.add_mul, Nat.add_assoc] using bound
        · exact runs.bound w (by simp [mem]) free'
    · intro p
      rw [← free p]
      have joined := @holds_join u v p meets
      rw [isFree] at joined
      simp only [freeIn_append, freeIn_cons, isFree, isFree', true_and, joined, or_assoc]
  · have isFree' : v.free ≠ .free := same ▸ isFree
    refine ⟨⟨?_, ?_⟩, ?_⟩
    · apply List.isChain_append.mpr
      obtain ⟨chain, -, -⟩ := List.isChain_append.mp before
      refine ⟨chain, List.isChain_cons.mpr ⟨?_, last.2⟩, ?_⟩
      · intro w _ free' _
        exact absurd free' isFree
      · intro x _ y hy _ free₂
        obtain rfl : _ = y := Option.some.inj hy
        exact absurd free₂ isFree
    · intro w mem free'
      rcases List.mem_append.mp mem with mem | mem
      · exact runs.bound w (by simp [mem]) free'
      · rcases List.mem_cons.mp mem with rfl | mem
        · exact absurd free' isFree
        · exact runs.bound w (by simp [mem]) free'
    · intro p
      rw [← free p]
      simp only [freeIn_append, freeIn_cons, isFree, isFree', false_and, false_or]

end

/-! ## The list of a map -/

section
variable {memory : Nat → Descriptor} {map es : List MemoryMapEntry} {d e : MemoryMapEntry}
  {v : Section} {p : Nat}

/-- An entry gets a section unless it begins where the one before it does. -/
theorem mem_kept {c : Nat} : e ∈ kept c es ↔
    ∃ j : Nat, es[j]? = some e ∧ (c :: es.map (·.base))[j]? ≠ some e.base := by
  -- `c` is where the entry before begins, which is all that decides about the next.
  induction es generalizing c with
  | nil => simp [kept]
  | cons x es ih =>
    have split : (∃ j : Nat, (x :: es)[j]? = some e ∧
        (c :: (x :: es).map (·.base))[j]? ≠ some e.base) ↔ (x = e ∧ c ≠ e.base) ∨
          e ∈ kept x.base es := by
      rw [ih]
      constructor
      · rintro ⟨j, mem, ne⟩
        cases j with
        | zero => exact Or.inl ⟨by simpa using mem, by simpa using ne⟩
        | succ j => exact Or.inr ⟨j, by simpa using mem, by simpa using ne⟩
      · rintro (⟨rfl, ne⟩ | ⟨j, mem, ne⟩)
        · exact ⟨0, rfl, by simpa using ne⟩
        · exact ⟨j + 1, by simpa using mem, by simpa using ne⟩
    rw [split, kept]
    split_ifs with skip
    · rw [← skip]
      constructor
      · exact Or.inr
      · rintro (⟨rfl, ne⟩ | mem)
        · exact absurd rfl ne
        · exact mem
    · rw [List.mem_cons]
      constructor
      · rintro (rfl | mem)
        · exact Or.inl ⟨rfl, Ne.symm skip⟩
        · exact Or.inr mem
      · rintro (⟨rfl, -⟩ | mem)
        · exact Or.inl rfl
        · exact Or.inr mem

/-- Only one of the firmware's numbers says free. -/
theorem interpretSignal_free {n : Nat} : pmmInterpretSignal n = .free ↔ n = memoryMapFree := by
  rw [pmmInterpretSignal]
  split_ifs with busy free
  · simp [busy, memoryMapBusy, memoryMapFree]
  · simp [free]
  · simp [free]

/-- The free pages of the sections that are built. -/
theorem built_free : FreeIn (built v es) p ↔ ∃ e ∈ kept v.start es, FreeOf e p := by
  induction es generalizing v with
  | nil => simp [built, kept, FreeIn]
  | cons e es ih =>
    have entry : (entrySection e).free = .free ↔ e.signal = memoryMapFree := interpretSignal_free
    rw [built_cons, kept]
    split_ifs with skip gap
    · exact ih
    · rw [freeIn_cons, freeIn_cons, ih, entry]
      simp only [gapSection, reduceCtorEq, false_and, false_or, List.exists_mem_cons_iff]
      rfl
    · rw [freeIn_cons, ih, entry]
      simp only [List.exists_mem_cons_iff]
      rfl

/-- Rounding up adds less than a page. -/
theorem pagesFor_le {n : Nat} : pagesFor n * pageSize < n + pageSize := by
  have whole := Nat.div_add_mod n pageSize
  have rest := Nat.mod_lt n (show 0 < pageSize by decide)
  rw [pagesFor]
  by_cases none : n % pageSize = 0
  · rw [if_neg (not_not.mpr none)]
    simp only [pageSize] at *
    omega
  · rw [if_pos none]
    simp only [pageSize] at *
    omega

/-- Free neighbours meet in the sections that are built. -/
theorem built_runs (words : ∀ e ∈ es, e.base < 2 ^ 64 ∧ e.length < 2 ^ 64)
    (apart : es.Pairwise fun d e => d.signal = memoryMapFree →
      d.base + pagesFor d.length * pageSize ≤ e.base)
    (start : v.free = .free → ∀ e ∈ es, v.start + v.pages * pageSize ≤ e.base)
    (bound : v.free = .free → v.start + v.pages * pageSize ≤ 2 ^ 65) :
    FreeRuns (v :: built v es) := by
  -- Two neighbours are an entry and the next, or one and the gap behind it.
  induction es generalizing v with
  | nil => exact ⟨List.isChain_singleton _, by simpa [built] using bound⟩
  | cons e es ih =>
    obtain ⟨word, words⟩ := List.forall_mem_cons.mp words
    obtain ⟨before, apart⟩ := List.pairwise_cons.mp apart
    rw [built_cons]
    have rest := @ih (entrySection e) words apart
      (fun free d mem => before d mem (interpretSignal_free.mp free)) fun _ => by
        have := @pagesFor_le e.length
        simp only [entrySection, pageSize] at this ⊢
        omega
    split_ifs with skip gap
    · exact ih words apart (fun free d mem => start free d (List.mem_cons_of_mem _ mem)) bound
    · refine ⟨List.IsChain.cons_cons ?_ (List.IsChain.cons_cons ?_ rest.meet), ?_⟩
      · rintro - ⟨⟩
      · rintro ⟨⟩
      · rintro w mem free
        rcases List.mem_cons.mp mem with rfl | mem
        · exact bound free
        · rcases List.mem_cons.mp mem with rfl | mem
          · cases free
          · exact rest.bound w mem free
    · refine ⟨List.IsChain.cons_cons ?_ rest.meet, ?_⟩
      · intro free _
        have le := start free e (List.mem_cons_self ..)
        have lt := Nat.lt_of_le_of_lt le word.1
        have fin := not_not.mp gap
        rw [Section.fin, Word.mul_eq (Nat.lt_of_le_of_lt (Nat.le_add_left ..) lt),
          Word.add_eq lt] at fin
        exact fin.symm
      · rintro w mem free
        rcases List.mem_cons.mp mem with rfl | mem
        · exact bound free
        · exact rest.bound w mem free

/-- An array of no descriptors has no slot for the entry that it lies in. -/
theorem startLoop_empty (hmap : map = d :: es) (first : d.base = 0)
    (he : metadataEntry map = some e) (started : e.base ≠ 0) (bases : ∀ e ∈ es, e.base ≠ 0)
    (size : dataSizeFor (exploreMap map) = 0) :
    startLoop es (firstState memory map e.base) 0 = .error .noSection := by
  obtain ⟨x, es', rfl⟩ : ∃ x es', es = x :: es' := by
    cases es with
    | nil =>
      obtain ⟨mem, -⟩ := metadataEntry_spec he
      rw [hmap, List.mem_singleton] at mem
      rw [mem] at started
      exact absurd first started
    | cons x es' => exact ⟨x, es', rfl⟩
  have ne := bases x (List.mem_cons_self ..)
  exact startLoop_noSlots size (by simpa [State.sec, firstState, firstSection] using ne)

/-- What `pmm_start` lists as free before it locks its own pages: the free entries that the building
loop keeps, in any order of the map. -/
theorem pmmBuild_free (hmap : map = d :: es) (first : d.base = 0)
    (he : metadataEntry map = some e) (started : e.base ≠ 0)
    (words : ∀ e ∈ es, e.base < 2 ^ 64 ∧ e.length < 2 ^ 64)
    (bases : ∀ e ∈ es, e.base ≠ 0)
    (apart : es.Pairwise fun d e => d.signal = memoryMapFree →
      d.base + pagesFor d.length * pageSize ≤ e.base) :
    Yields OutOfSections (fun s => ∀ p, ListedFree s p ↔ ∃ e ∈ kept 0 es, FreeOf e p)
      (pmmBuild memory map) := by
  rw [pmmBuild_eq hmap he started first]
  by_cases size : dataSizeFor (exploreMap map) = 0
  · rw [startLoop_empty hmap first he started bases size]
    exact rfl
  obtain ⟨hr, fresh⟩ := @firstState_represents memory map e.base started size
  apply (startLoop_yields hr fresh).bind
  rintro s₁ ⟨same, l₁, h₁, hl⟩
  have h₁' : Represents s₁ ((0, firstSection) :: l₁) := by simpa using h₁
  have runs : FreeRuns (firstSection :: built firstSection es) :=
    built_runs words apart (fun free => by cases free) fun free => by cases free
  have free : ∀ p, FreeIn (firstSection :: built firstSection es) p ↔
      ∃ e ∈ kept 0 es, FreeOf e p := by
    intro p
    rw [freeIn_cons, built_free]
    simp [firstSection]
  obtain ⟨s, l, run, hr, ⟨-, listed⟩, -⟩ := afterLoop (joinStable_free _) same h₁'
    (by rw [data_cons, hl]; exact ⟨runs, free⟩)
  rw [run]
  intro p
  rw [← listed p]
  constructor
  · rintro ⟨l', hr', free⟩
    rwa [hr'.unique hr] at free
  · intro free
    exact ⟨l, hr, free⟩

/-- Without a place for the array it writes to slot 0 of one that it has not placed. -/
theorem pmmBuild_none (he : metadataEntry map = none) :
    pmmBuild memory map = .error .nullDeref := by
  rw [metadataEntry] at he
  simp only [pmmBuild, State.boot, he, State.first, ↓reduceIte, deref_none, error_bind]

/-- The map has a place for the array of descriptors, and the array slots for the sections of the
entries and of the gaps between them. -/
structure ArrayFits (memory : Nat → Descriptor) (map : List MemoryMapEntry) : Prop where
  place : ∃ e ∈ map, e.signal = memoryMapFree ∧ dataSizeFor (exploreMap map) ≤ e.length
  slots : 1 + (built firstSection map.tail).length ≤ slotsOf memory map

/-- No entry but the first begins at zero, and the array is not placed in that one. -/
theorem metadataEntry_started (hmap : map = d :: es) (nouse : d.signal = memoryMapNouse)
    (bases : ∀ e ∈ es, e.base ≠ 0) (he : metadataEntry map = some e) : e.base ≠ 0 := by
  obtain ⟨mem, free, -⟩ := metadataEntry_spec he
  rw [hmap, List.mem_cons] at mem
  rcases mem with rfl | mem
  · rw [nouse] at free
    cases free
  · exact bases e mem

/-- With room for its sections it answers. -/
theorem pmmBuild_answers (hmap : map = d :: es) (first : d.base = 0)
    (he : metadataEntry map = some e) (started : e.base ≠ 0)
    (size : dataSizeFor (exploreMap map) ≠ 0)
    (room : 1 + (built firstSection es).length ≤ slotsOf memory map) :
    ∃ s, pmmBuild memory map = .ok s := by
  obtain ⟨s₁, l₁, run, same, h₁, -⟩ := (@firstLoop_room memory map e.base started size es).1 room
  obtain ⟨s, l, run', -⟩ := afterLoop (I := fun _ => True) (fun _ _ _ _ _ _ => trivial) same h₁
    trivial
  exact ⟨s, by rw [pmmBuild_eq hmap he started first, run]; exact run'⟩

/-- It answers exactly when there is room: a map without a place ends at a null pointer, and with
too few slots the building loop gets no section. -/
theorem pmmBuild_ok_iff (hmap : map = d :: es) (first : d.base = 0)
    (nouse : d.signal = memoryMapNouse) (bases : ∀ e ∈ es, e.base ≠ 0) :
    (∃ s, pmmBuild memory map = .ok s) ↔ ArrayFits memory map := by
  have tail : map.tail = es := by rw [hmap, List.tail_cons]
  constructor
  · rintro ⟨s, answer⟩
    cases place : metadataEntry map with
    | none =>
      rw [pmmBuild_none place] at answer
      cases answer
    | some e =>
      have started := metadataEntry_started hmap nouse bases place
      refine ⟨⟨e, metadataEntry_spec place⟩, ?_⟩
      rw [tail]
      by_contra short
      have fails : startLoop es (firstState memory map e.base) 0 = .error .noSection := by
        by_cases size : dataSizeFor (exploreMap map) = 0
        · exact startLoop_empty hmap first place started bases size
        · exact (firstLoop_room started size es).2 (Nat.lt_of_not_le short)
      rw [pmmBuild_eq hmap place started first, fails] at answer
      cases answer
  · rintro ⟨⟨e', mem, free, holds⟩, slots⟩
    rw [tail] at slots
    have size : dataSizeFor (exploreMap map) ≠ 0 := by
      intro none
      rw [slotsOf_zero none] at slots
      omega
    obtain ⟨e, place⟩ : ∃ e, metadataEntry map = some e := by
      rw [← Option.isSome_iff_exists, metadataEntry, List.find?_isSome]
      exact ⟨e', mem, by simp [free, holds]⟩
    exact pmmBuild_answers hmap first place
      (metadataEntry_started hmap nouse bases place) size slots

end

end Skylight.Pmm
