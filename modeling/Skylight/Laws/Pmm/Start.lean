import Skylight.Laws.Pmm.Lock
import Skylight.Laws.Pmm.Map

/-!
# What `pmm_start` leaves

From a map in order, `pmm_start` builds a list that shows every page the kind the map
gives it, and then locks the pages the descriptors stand on. It fails in one way: the
descriptor array can run out of slots.

`pmmStart_yields` is the law of the call on a valid map with a place for the descriptors, and
`pmmStart_none` that of a map without one. The three stages of the source have a record each:
the building loop (`BuildsFrom`), the joins behind it (`Starts`) and the lock on its own pages
(`Started`). How many slots there are, and so when it fails, is counted in `Laws.Pmm.Room`.
-/

namespace Skylight.Pmm

open Chain RunLength

/-- A map as `pmm_start` expects it begins with the first megabyte and is in order behind it. -/
theorem FirmwareMap.inOrder {map : List MemoryMapEntry} (valid : FirmwareMap map) :
    ∃ es, map = ⟨0, megabyte, memoryMapNouse⟩ :: es ∧
      InOrder (megabyte / pageSize) es := by
  obtain ⟨es, rfl⟩ : ∃ es, map = ⟨0, megabyte, memoryMapNouse⟩ :: es := by
    cases map with
    | nil => simpa using valid.first
    | cons e es =>
      obtain rfl : e = _ := by simpa using valid.first
      exact ⟨es, rfl⟩
  refine ⟨es, rfl, ?_⟩
  have bases := valid.bases
  have lengths := valid.lengths
  have words := valid.words
  have sorted := (List.pairwise_cons.mp valid.sorted).2
  have disjoint := (List.pairwise_cons.mp valid.disjoint).2
  simp only [List.tail_cons] at bases lengths
  replace words : ∀ e ∈ es, e.base < 2 ^ 64 ∧ e.length < 2 ^ 64 := fun e he =>
    words e (List.mem_cons_of_mem _ he)
  -- the bound on the bases moves to the end of each entry passed
  have from_page : ∀ (es : List MemoryMapEntry) (c : Nat),
      (∀ e ∈ es, e.base < 2 ^ 64 ∧ e.length < 2 ^ 64) →
      (∀ e ∈ es, c * pageSize ≤ e.base ∧ pageSize ∣ e.base) →
      (∀ e ∈ es, 0 < e.length ∧ pageSize ∣ e.length) →
      es.Pairwise (fun d e => d.base < e.base) →
      es.Pairwise (fun d e => d.fin ≤ e.base ∨ e.fin ≤ d.base) → InOrder c es := by
    intro es
    induction es with
    | nil => exact fun _ _ _ _ _ _ => trivial
    | cons e es ih =>
      intro c words bases lengths sorted disjoint
      obtain ⟨⟨lo, b, hb⟩, bases⟩ := List.forall_mem_cons.mp bases
      obtain ⟨⟨pos, n, hn⟩, lengths⟩ := List.forall_mem_cons.mp lengths
      obtain ⟨word, words⟩ := List.forall_mem_cons.mp words
      obtain ⟨before, sorted⟩ := List.pairwise_cons.mp sorted
      obtain ⟨apart, disjoint⟩ := List.pairwise_cons.mp disjoint
      rw [Nat.mul_comm] at hb hn
      refine ⟨b, n, hb, hn, ?_, ?_, word.1, word.2, ih (b + n) words ?_ lengths sorted disjoint⟩
      · simp only [pageSize] at hn; omega
      · simp only [pageSize] at hb lo; omega
      · intro d hd
        refine ⟨?_, (bases d hd).2⟩
        rw [← (fin_div hb hn).1]
        have := before d hd
        have := lengths d hd
        rcases apart d hd with le | le
        · exact le
        · simp only [MemoryMapEntry.fin] at le; omega
  refine from_page es _ words ?_ lengths sorted disjoint
  simpa [megabyte, pageSize] using bases

/-- A valid map in two parts: the first megabyte, and what is in order behind it. -/
theorem ValidMap.inOrder {map : List MemoryMapEntry} (valid : ValidMap map) :
    ∃ es, map = ⟨0, megabyte, memoryMapNouse⟩ :: es ∧ InOrder (megabyte / pageSize) es :=
  valid.firmware.inOrder

/-- The whole map is in order. -/
theorem FirmwareMap.inOrder_all {map : List MemoryMapEntry} (valid : FirmwareMap map) :
    InOrder 0 map := by
  obtain ⟨es, rfl, order⟩ := valid.inOrder
  refine ⟨0, megabyte / pageSize, by simp, by simp [megabyte, pageSize],
    by simp [megabyte, pageSize], le_rfl, by simp, by simp [megabyte], ?_⟩
  rwa [Nat.zero_add]

/-- The whole of a valid map is in order. -/
theorem ValidMap.inOrder_all {map : List MemoryMapEntry} (valid : ValidMap map) :
    InOrder 0 map := valid.firmware.inOrder_all

/-! ## The size of the descriptor array -/

/-- The array is a whole number of megabytes. -/
theorem dataSizeFor_eq (free : Nat) :
    ∃ n, dataSizeFor free = n * megabyte ∧ n * megabyte < 2 ^ 64 := by
  have scale : ∀ t, Word.mul t roundOff / maxPmmHeaderProportion
      = t % 2 ^ 38 * megabyte := by
    intro t
    simp only [Word.mul, roundOff, megabyte, maxPmmHeaderProportion]
    omega
  refine ⟨_, scale _, ?_⟩
  simp only [megabyte]
  omega

/-- The pages of the array. -/
theorem pagesFor_dataSize (free : Nat) :
    pagesFor (dataSizeFor free) * pageSize = dataSizeFor free := by
  obtain ⟨n, hn, -⟩ := dataSizeFor_eq free
  have : n * megabyte = (n * 256) * pageSize := by simp only [megabyte, pageSize]; omega
  rw [hn, this, pagesFor_mul]

/-! ## The list of a valid map -/

section
variable {memory : Nat → Descriptor} {map : List MemoryMapEntry}

/-- The entry `pmm_start` puts the descriptors in: the first free one that can hold them. -/
def metadataEntry (map : List MemoryMapEntry) : Option MemoryMapEntry :=
  map.find? fun e => e.signal = memoryMapFree ∧ e.length ≥ dataSizeFor (exploreMap map)

/-- The entry is one of the map, free, and large enough. -/
theorem metadataEntry_spec {e : MemoryMapEntry} (h : metadataEntry map = some e) :
    e ∈ map ∧ e.signal = memoryMapFree ∧ dataSizeFor (exploreMap map) ≤ e.length := by
  refine ⟨List.mem_of_find?_eq_some h, ?_⟩
  have := List.find?_some h
  simpa using this

/-- The free entry is not the first megabyte, so the array is not placed at address zero. -/
theorem metadataEntry_base (valid : FirmwareMap map) {e : MemoryMapEntry}
    (h : metadataEntry map = some e) : e.base ≠ 0 := by
  obtain ⟨mem, hfree, -⟩ := metadataEntry_spec h
  obtain ⟨es, hmap, -⟩ := valid.inOrder
  rw [hmap, List.mem_cons] at mem
  rcases mem with rfl | mem
  · simp [memoryMapNouse, memoryMapFree] at hfree
  · have := (valid.bases e (by rw [hmap]; exact mem)).1
    simp only [megabyte] at this
    omega

/-- The sections of a map in order are a layout, with what stands behind them. -/
theorem BuildsFrom.layout_beyond {l : List Section} (whole : BuildsFrom 0 map (firstSection :: l))
    (valid : FirmwareMap map) (covers : pagesOf (firstSection :: l) = endPage 0 map) :
    Layout ((firstSection :: l) ++ beyond map) := by
  obtain ⟨e, last⟩ : ∃ e, map.getLast? = some e := by
    cases found : map.getLast? with
    | some e => exact ⟨e, rfl⟩
    | none =>
      have none := valid.first
      rw [List.getLast?_eq_none_iff.mp found] at none
      cases none
  have contiguous : Contiguous 0 (firstSection :: l) := by simpa using whole.contiguous
  have empty : ∀ v ∈ firstSection :: l, v.pages = 0 → v.free = .free := fun v hv none =>
    absurd none (whole.nonempty v hv)
  have size : pagesOf (firstSection :: l) = e.fin / pageSize := covers.trans (endPage_eq last)
  have words := valid.words e (List.mem_of_getLast? last)
  unfold beyond
  rw [last]
  by_cases bad : pmmInterpretSignal e.signal = .bad
  · dsimp only
    rw [if_pos bad, List.append_nil]
    obtain ⟨l', v, hl, hv⟩ := whole.last e last
    refine ⟨contiguous, whole.words, ?_, ⟨_, _, rfl, rfl⟩, ⟨v, l', hl, hv.trans bad⟩, empty⟩
    -- the last section begins below `2 ^ 64` and is shorter than that
    rw [size, MemoryMapEntry.fin]
    simp only [pageSize]
    omega
  · dsimp only
    rw [if_neg bad]
    have small := valid.ends e last bad
    obtain ⟨b, n, hb, hn⟩ := valid.inOrder_all.aligned e (List.mem_of_getLast? last)
    obtain ⟨fin, pages⟩ := fin_div hb hn
    rw [pages] at size
    refine ⟨?_, ?_, ?_, ⟨_, _, rfl, rfl⟩, ⟨_, _, rfl, rfl⟩, ?_⟩
    · refine contiguous_append.mpr ⟨contiguous, ?_, trivial⟩
      rw [size, Nat.zero_add, fin]
    · intro v mem
      rcases List.mem_append.mp mem with mem | mem
      · exact whole.words v mem
      · rw [List.mem_singleton.mp mem]
        exact small
    · rw [pagesOf_append, size, pagesOf_cons, pagesOf_nil]
      rw [fin] at small
      simp only [pageSize] at small ⊢
      omega
    · intro v mem
      rcases List.mem_append.mp mem with mem | mem
      · exact empty v mem
      · rw [List.mem_singleton.mp mem]
        simp

/-- The sections of a map in order, before equal neighbours are joined. -/
theorem firstSection_layout (valid : FirmwareMap map) :
    ∃ es, map = ⟨0, megabyte, memoryMapNouse⟩ :: es ∧
      Layout ((firstSection :: built firstSection es) ++ beyond map) ∧
      pagesOf (firstSection :: built firstSection es) = endPage 0 map ∧
      ∀ p < endPage 0 map, typeAt (firstSection :: built firstSection es) p
        = some (kindIn map p) := by
  obtain ⟨es, rfl, order⟩ := valid.inOrder
  have hb : BuildsFrom 256 es (built firstSection es) :=
    built_from (by simp [firstSection, megabyte, pageSize]) (by simp [firstSection, megabyte,
      pageSize]) (by simpa [megabyte, pageSize] using order)
  have whole := @BuildsFrom.entry 0 256 ⟨0, megabyte, memoryMapNouse⟩ es _
    (by simpa using hb) (by simp) (by simp [megabyte, pageSize]) (by norm_num) (by norm_num)
    (by simpa [megabyte, pageSize] using order)
  have first : (⟨0, 256, pmmInterpretSignal memoryMapNouse⟩ : Section) = firstSection := by
    simp [firstSection, megabyte, pageSize, pmmInterpretSignal, memoryMapNouse, memoryMapBusy,
      memoryMapFree]
  simp only [first] at whole
  have covers := whole.covers
  rw [Nat.zero_add] at covers
  refine ⟨es, rfl, whole.layout_beyond valid covers, covers, fun p hp => ?_⟩
  simpa using whole.kinds p (Nat.zero_le p) (by rw [Nat.zero_add, ← covers] at *; omega)

/-- The walk of `pmm_recalculate_free_memory`, on the list. -/
def freeWords : List Section → Nat → Nat
  | [], acc => acc
  | v :: l, acc => freeWords l
    (if v.free = .free then Word.add acc (Word.mul v.pages pageSize) else acc)

/-- The walk over the rest of the list. -/
theorem recalculateLoop_eq {s : State} {l₂ : List (Nat × Section)} :
    ∀ {l₁ : List (Nat × Section)} {fuel acc : Nat}, Represents s (l₁ ++ l₂) →
      l₂.length ≤ fuel →
      recalculateLoop fuel s (headOr l₂ none) acc = .ok (freeWords (data l₂) acc) := by
  induction l₂ with
  | nil =>
    intro l₁ fuel acc _ _
    cases fuel <;> rfl
  | cons x l₂ ih =>
    obtain ⟨a, v⟩ := x
    intro l₁ fuel acc h enough
    obtain ⟨f, rfl⟩ : ∃ f, fuel = f + 1 := ⟨fuel - 1, by simp at enough; omega⟩
    rw [headOr_cons, recalculateLoop, h.sec_eq, h.next_eq]
    exact @ih (l₁ ++ [(a, v)]) f _ (by simpa using h) (by simpa using enough)

/-- `pmm_recalculate_free_memory` sums up the free sections of the list. -/
theorem pmmRecalculateFreeMemory_eq {s : State} {l : List (Nat × Section)} (h : Represents s l) :
    pmmRecalculateFreeMemory s = .ok { s with freeMemory := freeWords (data l) 0 } := by
  unfold pmmRecalculateFreeMemory
  have := h.length_le
  rw [h.first_eq, @recalculateLoop_eq s l [] s.fuel 0 h (by simp only [State.fuel]; omega)]
  rfl

/-- The manager as `pmm_start` leaves it before it locks its own pages. -/
structure Starts (map : List MemoryMapEntry) (base : Nat) (s : State) (l : List (Nat × Section)) :
    Prop where
  list : Represents s l
  layout : Layout (data l)
  apart : FreeApart (data l)
  pages : pagesOf (data l) = endPage 0 map
  kinds : ∀ p < endPage 0 map, typeAt (data l) p = some (kindIn map p)
  open_ : s.allowing = true
  place : s.pmmSections = base
  size : s.dataSize = dataSizeFor (exploreMap map)
  pools : s.pools = []
  counter : s.freeMemory = freeWords (data l) 0

/-- The same, what may stand behind the last section included. -/
structure StartsWithin (e : List Section) (map : List MemoryMapEntry) (base : Nat) (s : State)
    (l : List (Nat × Section)) : Prop where
  list : Represents s l
  layout : Layout (data l ++ e)
  apart : FreeApart (data l ++ e)
  pages : pagesOf (data l) = endPage 0 map
  kinds : ∀ p < endPage 0 map, typeAt (data l ++ e) p = some (kindIn map p)
  open_ : s.allowing = true
  place : s.pmmSections = base
  size : s.dataSize = dataSizeFor (exploreMap map)
  pools : s.pools = []
  counter : s.freeMemory = freeWords (data l) 0

/-- The state in which `pmm_start` enters its building loop. -/
def firstState (memory : Nat → Descriptor) (map : List MemoryMapEntry) (base : Nat) : State :=
  { pmmSections := base
    sections := Function.update
      (fun i => clearSlot (dataSizeFor (exploreMap map)) i (memory i)) 0
      ⟨none, none, firstSection⟩
    sectionHead := 1
    dataSize := dataSizeFor (exploreMap map)
    freeMemory := exploreMap map
    allowing := false
    pools := [] }

/-- That state holds the first section, when the array has any slots. -/
theorem firstState_represents {base : Nat} (started : base ≠ 0)
    (size : dataSizeFor (exploreMap map) ≠ 0) :
    Represents (firstState memory map base) ([] ++ [(0, firstSection)]) ∧
      TakesFresh (firstState memory map base) ([] ++ [(0, firstSection)]) := by
  obtain ⟨n, hn, -⟩ := dataSizeFor_eq (exploreMap map)
  have pos : megabyte ≤ dataSizeFor (exploreMap map) := by
    rw [hn] at size ⊢
    exact Nat.le_mul_of_pos_left _ (Nat.pos_of_ne_zero fun h => size (by rw [h, Nat.zero_mul]))
  simp only [megabyte] at pos
  constructor
  · refine ⟨started, by simp [firstState], rfl, ?_⟩
    simp only [firstState, List.nil_append, List.map_cons, List.map_nil, List.mem_singleton,
      forall_eq]
    omega
  · have prev : 1 * sectionSize + 8 ≤ dataSizeFor (exploreMap map) := by
      simp only [sectionSize]; omega
    have next : 1 * sectionSize + 16 ≤ dataSizeFor (exploreMap map) := by
      simp only [sectionSize]; omega
    refine Or.inr ⟨rfl, by simp [firstState], fun _ => ?_⟩
    simp only [State.unlinked, firstState, ne_eq, one_ne_zero, not_false_eq_true,
      Function.update_of_ne, clearSlot, if_pos prev, if_pos next]
    rfl

/-- Without slots the first entry behind the first megabyte fails. -/
theorem startLoop_noSlots {s : State} {a : Nat} {e : MemoryMapEntry} {es : List MemoryMapEntry}
    (size : s.dataSize = 0) (ne : e.base ≠ (s.sec a).start) :
    startLoop (e :: es) s a = .error .noSection := by
  have : takeSection s = .error .noSection := by
    simp [takeSection, pmmNewSection, size]
  rw [startLoop, if_neg ne, this]
  rfl

/-- Where there is a place for the array, `pmm_start` is its building loop, entered behind the
first entry, and what follows the loop. -/
theorem pmmBuild_eq {d e : MemoryMapEntry} {es : List MemoryMapEntry} (hmap : map = d :: es)
    (he : metadataEntry map = some e) (started : e.base ≠ 0) (first : d.base = 0) :
    pmmBuild memory map = startLoop es (firstState memory map e.base) 0 >>= fun s =>
      pmmRecombine s >>= fun s => pmmRecalculateFreeMemory s >>= fun s =>
        pure { s with allowing := true } := by
  have skip : startLoop map (firstState memory map e.base) 0
      = startLoop es (firstState memory map e.base) 0 := by
    rw [hmap, startLoop, if_pos (by simp [State.sec, firstState, firstSection, first])]
  rw [← skip]
  unfold pmmBuild
  rw [metadataEntry] at he
  simp only [State.boot, he, pmmSectionManagerCreate, Bool.false_eq_true, ↓reduceIte, State.first,
    if_neg started, deref_some, ok_bind]
  rfl

/-- What follows the loop cannot fail, and keeps what joins keep. -/
theorem afterLoop {base : Nat} {I : List Section → Prop} (stable : JoinStable I) {s₁ : State}
    {l₁ : List (Nat × Section)} (same : SameGlobals (firstState memory map base) s₁)
    (h₁ : Represents s₁ l₁) (keeps : I (data l₁)) :
    ∃ s l, (pmmRecombine s₁ >>= fun s => pmmRecalculateFreeMemory s >>= fun s =>
        (pure { s with allowing := true } : Except Fault State)) = .ok s ∧
      Represents s l ∧ I (data l) ∧ KindsAlternate (data l) ∧ s.allowing = true ∧
      s.pmmSections = base ∧ s.dataSize = dataSizeFor (exploreMap map) ∧ s.pools = [] ∧
      s.freeMemory = freeWords (data l) 0 := by
  obtain ⟨s₂, l₂, run₂, ⟨same₂, h₂, keeps₂⟩, alt⟩ := pmmRecombine_ends stable h₁ keeps
  refine ⟨{ s₂ with freeMemory := freeWords (data l₂) 0, allowing := true }, l₂, ?_,
    h₂.congr rfl rfl rfl, keeps₂, alt, rfl, ?_, ?_, ?_, rfl⟩
  · rw [run₂, ok_bind, pmmRecalculateFreeMemory_eq h₂]
    rfl
  · exact same₂.pmmSections.trans same.pmmSections
  · exact same₂.dataSize.trans same.dataSize
  · exact same₂.pools.trans same.pools

/-- Behind the sections the pages are those of what stands there. -/
theorem typeAt_append {l e : List Section} {p : Nat} (lt : p < pagesOf l) :
    typeAt (l ++ e) p = typeAt l p := by
  rw [typeAt, runs_append, valueAt_append]
  exact if_pos lt

/-- `pmm_start` up to the locking, with an entry that can hold the array. -/
theorem pmmBuild_within (valid : FirmwareMap map) {e : MemoryMapEntry}
    (he : metadataEntry map = some e) :
    Yields OutOfSections (fun s => ∃ l, StartsWithin (beyond map) map e.base s l)
      (pmmBuild memory map) := by
  obtain ⟨es, hmap, layout, pages, kinds⟩ := firstSection_layout valid
  obtain ⟨mem, hfree, -⟩ := metadataEntry_spec he
  have started := metadataEntry_base valid he
  rw [pmmBuild_eq hmap he started rfl]
  by_cases size : dataSizeFor (exploreMap map) = 0
  · obtain ⟨d, es', rfl⟩ : ∃ d es', es = d :: es' := by
      cases es with
      | nil =>
        rw [hmap, List.mem_singleton] at mem
        simp [mem, memoryMapNouse, memoryMapFree] at hfree
      | cons d es' => exact ⟨d, es', rfl⟩
    have := (valid.bases d (by rw [hmap]; simp)).1
    rw [startLoop_noSlots size (by
      simp only [State.sec, firstState, firstSection, Function.update_self]
      simp only [megabyte] at this
      omega)]
    exact rfl
  obtain ⟨hr, fresh⟩ := @firstState_represents memory map e.base started size
  apply (startLoop_yields hr fresh).bind
  rintro s₁ ⟨same, l₁, h₁, hl⟩
  have h₁' : Represents s₁ ((0, firstSection) :: l₁) := by simpa using h₁
  obtain ⟨s, l, run, hr, ⟨lay, hpages, types⟩, alt, hopen, hplace, hsize, hpools, hcount⟩ :=
    afterLoop (joinStable_within (beyond map) (endPage 0 map)
      (typeAt ((firstSection :: built firstSection es) ++ beyond map)))
      same h₁' (by rw [data_cons, hl]; exact ⟨layout, pages, rfl⟩)
  have apart : FreeApart (data l ++ beyond map) := by
    apply alt.freeApart.append
    intro w mem
    rw [beyond_bad w mem]
    simp
  rw [run]
  exact ⟨l, hr, lay, apart, hpages,
    fun p hp => by rw [types, typeAt_append (by rw [pages]; exact hp), kinds p hp],
    hopen, hplace, hsize, hpools, hcount⟩

/-- On a valid map nothing stands behind the list. -/
theorem StartsWithin.starts {base : Nat} {s : State} {l : List (Nat × Section)}
    (h : StartsWithin [] map base s l) : Starts map base s l := by
  have layout := h.layout
  have apart := h.apart
  have kinds := h.kinds
  rw [List.append_nil] at layout apart kinds
  exact ⟨h.list, layout, apart, h.pages, kinds, h.open_, h.place, h.size, h.pools, h.counter⟩

/-- On a valid map nothing stands behind the last section. -/
theorem pmmBuild_yields (valid : ValidMap map) {e : MemoryMapEntry}
    (he : metadataEntry map = some e) :
    Yields OutOfSections (fun s => ∃ l, Starts map e.base s l) (pmmBuild memory map) := by
  refine (pmmBuild_within valid.firmware he).imp fun s ⟨l, h⟩ => ?_
  rw [valid.beyond_eq] at h
  exact ⟨l, h.starts⟩

/-- The pages of the descriptor array, which `pmm_start` locks. -/
def Metadata (s : State) (p : Nat) : Prop :=
  s.pmmSections ≤ p * pageSize ∧ p * pageSize < s.pmmSections + pagesFor s.dataSize * pageSize

/-- The entry that holds the descriptors, in pages: it is free and large enough. -/
theorem metadataEntry_pages (valid : FirmwareMap map) {e : MemoryMapEntry}
    (he : metadataEntry map = some e) :
    ∃ b, e.base = b * pageSize ∧ ∀ j < pagesFor (dataSizeFor (exploreMap map)),
      Covers e (b + j) := by
  obtain ⟨mem, hfree, hsize⟩ := metadataEntry_spec he
  have tail : e ∈ map.tail := by
    obtain ⟨es, rfl, -⟩ := valid.inOrder
    rcases List.mem_cons.mp mem with rfl | mem
    · simp [memoryMapNouse, memoryMapFree] at hfree
    · exact mem
  obtain ⟨b, hb⟩ := (valid.bases e tail).2
  obtain ⟨n, hn⟩ := (valid.lengths e tail).2
  rw [Nat.mul_comm] at hb hn
  refine ⟨b, hb, fun j hj => (covers_iff hb hn).mpr ⟨Nat.le_add_right .., ?_⟩⟩
  have le : pagesFor (dataSizeFor (exploreMap map)) * pageSize ≤ n * pageSize := by
    rw [pagesFor_dataSize, ← hn]
    exact hsize
  have := Nat.le_of_mul_le_mul_right le (by simp [pageSize])
  omega

/-- The list after `pmm_start`. -/
structure Started (map : List MemoryMapEntry) (s : State) (l : List (Nat × Section)) : Prop where
  list : Represents s l
  layout : Layout (data l)
  apart : FreeApart (data l)
  open_ : s.allowing = true
  place : ∃ b, s.pmmSections = b * pageSize
  pages : pagesOf (data l) = endPage 0 map
  outside : ∀ p < endPage 0 map, ¬ Metadata s p → typeAt (data l) p = some (kindIn map p)
  inside : ∀ p, Metadata s p → typeAt (data l) p = some .used ∧ kindIn map p = .free
  pools : s.pools = []

/-- The pages of the descriptors are free ones of the map. -/
theorem metadataEntry_free (valid : FirmwareMap map) {e : MemoryMapEntry}
    (he : metadataEntry map = some e) :
    ∀ j < pagesFor (dataSizeFor (exploreMap map)),
      e.base / pageSize + j < endPage 0 map ∧ kindIn map (e.base / pageSize + j) = .free := by
  obtain ⟨b, hb, covers⟩ := metadataEntry_pages valid he
  obtain ⟨mem, hfree, -⟩ := metadataEntry_spec he
  have order := valid.inOrder_all
  have hdiv : e.base / pageSize = b := by
    rw [hb, Nat.mul_div_cancel _ (by simp [pageSize])]
  intro j hj
  rw [hdiv]
  refine ⟨order.lt_end e mem _ (covers j hj), ?_⟩
  rw [order.kindIn_eq e mem _ (covers j hj), hfree]
  rfl

/-- The locking at the end of `pmm_start`, if there is something ahead of the descriptors. -/
theorem StartsWithin.locks (valid : FirmwareMap map) {e : MemoryMapEntry}
    (he : metadataEntry map = some e) {s : State} {l : List (Nat × Section)}
    (h : StartsWithin (beyond map) map e.base s l)
    (ahead : Ahead (endPage 0 map) (fun p => some (kindIn map p)) (e.base / pageSize)
      (pagesFor s.dataSize)) :
    Yields OutOfSections (LocksAll (beyond map) s l (e.base / pageSize) (pagesFor s.dataSize))
      (pmmLockPages s s.pmmSections (pagesFor s.dataSize)) := by
  obtain ⟨b, hb, -⟩ := metadataEntry_pages valid he
  have inside := metadataEntry_free valid he
  have notFree : ∀ w ∈ beyond map, w.free ≠ .free := by
    intro w mem
    rw [beyond_bad w mem]
    simp
  have hdiv : e.base / pageSize = b := by
    rw [hb, Nat.mul_div_cancel _ (by simp [pageSize])]
  rw [← h.size, hdiv] at inside
  rw [hdiv] at ahead ⊢
  rw [h.place, hb]
  apply pmmLockPages_within notFree h.list h.layout h.apart h.open_
  · intro j hj
    rw [h.kinds _ (inside j hj).1, (inside j hj).2]
  · intro _
    rw [h.pages]
    exact ahead.congr fun p below => (h.kinds p below).symm

/-- The locking at the end of `pmm_start`, on a valid map. -/
theorem Starts.locks (valid : ValidMap map) {e : MemoryMapEntry}
    (he : metadataEntry map = some e) {s : State} {l : List (Nat × Section)}
    (h : Starts map e.base s l) :
    Yields OutOfSections (fun s' => ∃ l', Started map s' l' ∧ SameGlobals s s' ∧
        typeAt (data l') =
          fill (typeAt (data l)) (e.base / pageSize) (pagesFor s.dataSize) .used ∧
        ∀ j < pagesFor s.dataSize, typeAt (data l) (e.base / pageSize + j) = some .free)
      (pmmLockPages s s.pmmSections (pagesFor s.dataSize)) := by
  obtain ⟨b, hb, -⟩ := metadataEntry_pages valid.firmware he
  have inside := metadataEntry_free valid.firmware he
  have hdiv : e.base / pageSize = b := by
    rw [hb, Nat.mul_div_cancel _ (by simp [pageSize])]
  rw [← h.size, hdiv] at inside
  have free : ∀ j < pagesFor s.dataSize, typeAt (data l) (b + j) = some .free := by
    intro j hj
    rw [h.kinds _ (inside j hj).1, (inside j hj).2]
  have meta_iff : ∀ t : State, SameGlobals s t → ∀ p, Metadata t p ↔
      b ≤ p ∧ p < b + pagesFor s.dataSize := by
    intro t same p
    rw [Metadata, same.pmmSections, same.dataSize, h.place, hb, ← Nat.add_mul,
      Nat.mul_le_mul_right_iff (by simp [pageSize]), Nat.mul_lt_mul_right (by simp [pageSize])]
  rw [h.place, hdiv, hb]
  refine (pmmLockPages_yields h.list h.layout h.apart h.open_ free).imp fun t ht => ?_
  obtain ⟨same, l', hr, hl, ha, htypes⟩ := ht
  refine ⟨l', ⟨hr, hl, ha, same.allowing.trans h.open_,
    ⟨b, (same.pmmSections.trans h.place).trans hb⟩, (pagesOf_of_fill free htypes).trans h.pages,
    ?_, ?_, same.pools.trans h.pools⟩, same, htypes, free⟩
  · intro p hp hm
    rw [meta_iff t same] at hm
    rw [htypes, fill_outside hm, h.kinds p hp]
  · intro p hm
    rw [meta_iff t same] at hm
    have := (inside (p - b) (by omega)).2
    rw [Nat.add_sub_cancel' hm.1] at this
    exact ⟨by rw [htypes, fill_inside hm.1 hm.2], this⟩

/-- `pmm_start` on a valid map with an entry that can hold the descriptors: every page has the kind
of the map, but those of the descriptors, which are used. It can only run out of slots. -/
theorem pmmStart_yields (valid : ValidMap map) {e : MemoryMapEntry}
    (he : metadataEntry map = some e) :
    Yields OutOfSections (fun s => ∃ l, Started map s l) (pmmStart memory map) :=
  (pmmBuild_yields valid he).bind fun _ ⟨_, h⟩ =>
    (h.locks valid he).imp fun _ ⟨l, hl, _⟩ => ⟨l, hl⟩

/-- Without such an entry it fails: it writes to slot 0 of an array it has not placed. -/
theorem pmmStart_none (he : metadataEntry map = none) :
    pmmStart memory map = .error .nullDeref := by
  rw [metadataEntry] at he
  simp only [pmmStart, pmmBuild, State.boot, he, State.first, ↓reduceIte, deref_none, error_bind]

/-- A state that `pmm_start` did build is as it should be. -/
theorem pmmStart_ok (valid : ValidMap map) {s : State} (ok : pmmStart memory map = .ok s) :
    ∃ l, Started map s l := by
  cases he : metadataEntry map with
  | none =>
    rw [pmmStart_none he] at ok
    cases ok
  | some e => exact (pmmStart_yields valid he).of_ok ok

end

end Skylight.Pmm
