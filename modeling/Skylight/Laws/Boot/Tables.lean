import Mathlib.Order.CompletePartialOrder
import Mathlib.Order.Interval.Set.Basic
import Skylight.Laws.Boot.Copy
import Skylight.Laws.Boot.Entries

/-!
# The two tables in the reserved pages

The pages are counted for the entries of the map alone, so its header pushes the last entry 16
bytes on. The table of the modules begins two pages before the end of what is reserved, and lies
apart from the map unless the entries end at the end of a page, or 8 bytes before it.
-/

namespace Skylight.Limine

/-- The bytes of the copied map: the header and `n` entries. -/
def mapBytes (candidate n : Nat) : Set Nat :=
  Set.Ico candidate (candidate + headerSize + entrySize * n)

/-- The bytes of the table of `m` modules, behind a map of `n` entries. -/
def tableBytes (candidate n m : Nat) : Set Nat :=
  Set.Ico (candidate + (mapPages n - 2) * pageSize)
    (candidate + (mapPages n - 2) * pageSize + moduleSize * m)

/-- The bytes of the pages taken for a map of `n` entries. -/
def reservedBytes (candidate n : Nat) : Set Nat :=
  Set.Ico candidate (candidate + mapPages n * pageSize)

/-- The entries that are written, when the `i`-th entry is the used one of the pair. -/
def copied (limineMap : List MemmapEntry) (i : Nat) : List MemoryMapEntry :=
  reserveMegabyte ((movePages (mapPages limineMap.length) i (limineMap.map ignoreIommu)).map
    copyEntry)

/-- The map and the table of the modules are apart in the pages taken for them, and every entry
is read back as it was written. -/
structure TablesHold (limineMap : List MemmapEntry) (modules : List File) (h : Handover) :
    Prop where
  apart : Disjoint (mapBytes h.memoryMap limineMap.length)
    (tableBytes h.memoryMap limineMap.length modules.length)
  inside : mapBytes h.memoryMap limineMap.length ∪
      tableBytes h.memoryMap limineMap.length modules.length ⊆
    reservedBytes h.memoryMap limineMap.length
  kept : ∀ i, findPair (mapPages limineMap.length) (limineMap.map ignoreIommu) = some i →
    h.map = copied limineMap i

/-- The entries do not end where a page ends or 8 bytes before, or there are no modules; and
their length is a word. -/
def TablesFit (n : Nat) (modules : List File) : Prop :=
  entrySize * n < 2 ^ 64 ∧ (modules = [] ∨ n % 512 ≠ 0 ∧ n % 512 ≠ 341)

section
variable {limineMap : List MemmapEntry} {modules : List File} {h : Handover} {words : Words}
  {n i : Nat} {es : List MemoryMapEntry}

/-- The pages of the entries, whose length is taken as a word. -/
theorem mapPages_round (n : Nat) : ∃ k, mapPages n = k + 2 ∧
    entrySize * n % 2 ^ 64 ≤ k * pageSize ∧ k * pageSize < entrySize * n % 2 ^ 64 + pageSize := by
  refine ⟨_, rfl, ?_⟩
  rw [Word.mul]
  generalize entrySize * n % 2 ^ 64 = b
  unfold pageSize
  by_cases rest : b % 4096 = 0
  · simp only [rest, ne_eq, not_true_eq_false, ↓reduceIte]
    omega
  · simp only [rest, ne_eq, not_false_eq_true, ↓reduceIte]
    omega

/-- A table that begins behind the last entry changes nothing. -/
theorem modify_overwritten {ms : List BootModule} {k : Nat}
    (spared : ms = [] ∨ n % 512 ≠ 0 ∧ n % 512 ≠ 341) :
    es.modify k (overwritten n ms) = es := by
  have same (e : MemoryMapEntry) : overwritten n ms e = e := by
    cases ms with
    | nil => rfl
    | cons m ms =>
      obtain ⟨whole, near⟩ := spared.resolve_left (List.cons_ne_nil m ms)
      rw [overwritten, if_neg, if_neg]
      · unfold entrySize pageSize
        omega
      · unfold entrySize pageSize
        omega
  apply List.ext_getElem?
  intro j
  rw [List.getElem?_modify]
  split
  · simp [same]
  · simp

theorem length_copied : (copied limineMap i).length = limineMap.length := by
  have cut (es : List MemoryMapEntry) : (cutEntries es).length = es.length := by
    induction es with
    | nil => rfl
    | cons e es ih =>
      rw [cutEntries]
      split
      · rw [List.length_cons, ih, List.length_cons]
      · rfl
  have reserve (es : List MemoryMapEntry) : (reserveMegabyte es).length = es.length := by
    cases es with
    | nil => rfl
    | cons e es => rw [reserveMegabyte, List.length_cons, cut, List.length_cons]
  rw [copied, reserve, List.length_map, movePages_length, List.length_map]

/-- The map that is read back, if its length is a word. -/
theorem reinterpret_map (run : limineReinterpret words limineMap modules = some h)
    (small : entrySize * limineMap.length < 2 ^ 64)
    (pair : findPair (mapPages limineMap.length) (limineMap.map ignoreIommu) = some i) :
    h.map = (copied limineMap i).modify (limineMap.length - 1)
      (overwritten limineMap.length (modules.map bootModule)) := by
  obtain ⟨j, found, run⟩ := Option.bind_eq_some_iff.mp run
  obtain rfl : i = j := Option.some.inj (pair.symm.trans found)
  obtain ⟨free, taken, run⟩ := Option.bind_eq_some_iff.mp run
  obtain rfl : _ = h := Option.some.inj run
  have lt := (List.getElem?_eq_some_iff.mp taken).1
  rw [List.length_map] at lt
  have read := @read_written (copied limineMap i) (modules.map bootModule)
    ((words.set (free.base + 8) (free.base + headerSize)).set free.base
      (limineMap.map ignoreIommu).length) free.base
  rw [length_copied] at read
  exact read small (by omega) (by simp [Words.set]) (by simp [Words.set])

/-- The tables are apart and every entry is kept exactly if the entries do not end in one of two
places in a page, or there are no modules. -/
theorem tables_hold_iff (few : modules.length ≤ 256)
    (run : limineReinterpret words limineMap modules = some h) :
    TablesHold limineMap modules h ↔ TablesFit limineMap.length modules := by
  obtain ⟨k, pages, le, lt⟩ := mapPages_round limineMap.length
  constructor
  · intro holds
    have apart := holds.apart
    have inside := (Set.union_subset_iff.mp holds.inside).1
    unfold mapBytes tableBytes at apart
    unfold mapBytes reservedBytes at inside
    rw [pages, Nat.add_sub_cancel] at apart
    rw [pages] at inside
    unfold headerSize entrySize pageSize moduleSize at *
    have bound := (inside (show h.memoryMap + 15 + 24 * limineMap.length ∈ Set.Ico h.memoryMap
      (h.memoryMap + 16 + 24 * limineMap.length) from ⟨by omega, by omega⟩)).2
    have small : 24 * limineMap.length < 2 ^ 64 := by omega
    refine ⟨small, or_iff_not_imp_left.mpr fun some => ?_⟩
    have pos : 0 < modules.length := List.length_pos_of_ne_nil some
    have common : h.memoryMap + k * 4096 ∉ Set.Ico h.memoryMap
        (h.memoryMap + 16 + 24 * limineMap.length) := fun mem =>
      Set.disjoint_left.mp apart mem ⟨by omega, by omega⟩
    rw [Set.mem_Ico, not_and_or] at common
    omega
  · intro ⟨small, spared⟩
    rw [Nat.mod_eq_of_lt small] at le lt
    refine ⟨?_, ?_, fun i pair => ?_⟩
    · unfold mapBytes tableBytes headerSize entrySize pageSize moduleSize at *
      rw [pages, Nat.add_sub_cancel, Set.disjoint_left]
      intro x map table
      rw [Set.mem_Ico] at map table
      rcases spared with rfl | ⟨whole, near⟩
      · rw [List.length_nil] at table
        omega
      · -- the entries end 16 bytes before the table at least
        have far : 24 * limineMap.length + 16 ≤ k * 4096 := by
          by_contra close
          have two : 512 * k = 3 * limineMap.length ∨ 512 * k = 3 * limineMap.length + 1 := by omega
          rcases two with same | same
          · omega
          · omega
        omega
    · unfold mapBytes tableBytes reservedBytes headerSize entrySize pageSize moduleSize at *
      rw [pages, Nat.add_sub_cancel]
      apply Set.union_subset
      · apply Set.Ico_subset_Ico_right
        omega
      · apply Set.Ico_subset_Ico
        · omega
        · omega
    · rw [reinterpret_map run small pair]
      apply modify_overwritten
      exact spared.imp_left fun none => by rw [none]; rfl

end

/-- Reserved memory, memory for the tables, and `n` reserved pages behind it. -/
def pagesMap (n : Nat) : List MemmapEntry :=
  ⟨0, 0x100000, memmapReserved⟩ :: ⟨0x100000, 0x4000000, memmapUsable⟩ ::
    (List.range n).map fun i => ⟨0x10000000 + 0x1000 * i, 0x1000, memmapReserved⟩

/-- The tables are put at the first megabyte. -/
theorem pagesMap_run (n : Nat) (few : n ≤ 1000) (modules : List File) :
    ∃ h, limineReinterpret (fun _ => 0) (pagesMap n) modules = some h := by
  have length : (pagesMap n).length = n + 2 := by simp [pagesMap]
  have pair : findPair (mapPages (pagesMap n).length) ((pagesMap n).map ignoreIommu) = some 0 := by
    obtain ⟨k, pages, -, lt⟩ := mapPages_round (pagesMap n).length
    have room : (0x4000000 : Nat) / pageSize > mapPages (pagesMap n).length := by
      rw [pages]
      rw [length, Nat.mod_eq_of_lt (by unfold entrySize; omega)] at lt
      unfold entrySize pageSize at lt
      unfold pageSize
      omega
    exact if_pos ⟨rfl, rfl, room⟩
  have free : ((pagesMap n).map ignoreIommu)[0 + 1]? =
      some (ignoreIommu ⟨0x100000, 0x4000000, memmapUsable⟩) := rfl
  rw [limineReinterpret, pair, Option.bind_eq_bind, Option.bind_some, free]
  exact ⟨_, rfl⟩

/-- A module of one page. -/
def pageModule : File := ⟨0xffff800000200000, 0x1000, 0xffff800000300000⟩

/-- With three entries the tables are apart. -/
theorem tables_hold_three : ∃ h,
    limineReinterpret (fun _ => 0) (pagesMap 1) [pageModule] = some h ∧
      TablesHold (pagesMap 1) [pageModule] h := by
  obtain ⟨h, run⟩ := pagesMap_run 1 (by decide) [pageModule]
  refine ⟨h, run, (tables_hold_iff (by decide) run).mpr ⟨by decide, Or.inr ?_⟩⟩
  decide

/-- With 341 entries the first module lies on the signal of the last one. -/
theorem tables_not_always_hold : ¬ ∀ (words : Words) (limineMap : List MemmapEntry)
    (modules : List File) (h : Handover), modules.length ≤ 256 →
    limineReinterpret words limineMap modules = some h → TablesHold limineMap modules h := by
  intro all
  obtain ⟨h, run⟩ := pagesMap_run 339 (by decide) [pageModule]
  have apart := (all _ _ _ h (by decide) run).apart
  rw [show (pagesMap 339).length = 341 by simp [pagesMap], mapBytes, tableBytes,
    show (mapPages 341 - 2) * pageSize = 8192 from rfl] at apart
  unfold headerSize entrySize moduleSize at apart
  exact Set.disjoint_left.mp apart (show h.memoryMap + 8192 ∈ _ from ⟨by omega, by omega⟩)
    ⟨by omega, by rw [List.length_singleton]; omega⟩

end Skylight.Limine
