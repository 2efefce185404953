import Skylight.Laws.Boot.Copy
import Skylight.Laws.Pmm.Listed

/-!
# Entries moved and cut

A map of Limine stands in order. Pages that go from one entry to the one before it leave it in order
and take just that area from usable memory, and what is cut off is the first megabyte. Two entries
then begin at one place only when the first of them is cut down to nothing.
-/

namespace Skylight.Limine

open Skylight.Pmm

/-- Usable memory, outside of the block of the IOMMU. -/
def MemmapEntry.Usable (e : MemmapEntry) : Prop := e.type = memmapUsable ∧ ¬ e.InIommu

/-- An entry covers a page. -/
def MemmapEntry.Covers (e : MemmapEntry) (p : Nat) : Prop :=
  e.base ≤ p * pageSize ∧ p * pageSize < e.fin

/-- Entries sorted by base, page-aligned, non-empty and disjoint, whose first starts at 0 and ends
in the first megabyte. -/
structure WellFormed (limineMap : List MemmapEntry) : Prop where
  first : ∃ e, limineMap.head? = some e ∧ e.base = 0 ∧ e.fin ≤ megabyte
  sorted : limineMap.Pairwise fun d e => d.base < e.base
  disjoint : limineMap.Pairwise fun d e => d.fin ≤ e.base ∨ e.fin ≤ d.base
  aligned : ∀ e ∈ limineMap, pageSize ∣ e.base ∧ pageSize ∣ e.length
  nonempty : ∀ e ∈ limineMap, 0 < e.length
  words : ∀ e ∈ limineMap, e.fin < 2 ^ 64

/-! ### The pages moved -/

/-- Entries one behind the other. -/
structure Ordered (es : List MemmapEntry) : Prop where
  apart : es.Pairwise fun d e => d.fin ≤ e.base
  aligned : ∀ e ∈ es, pageSize ∣ e.base ∧ pageSize ∣ e.length
  nonempty : ∀ e ∈ es, 0 < e.length
  words : ∀ e ∈ es, e.fin < 2 ^ 64

section
variable {es : List MemmapEntry} {d e : MemmapEntry} {n i j p : Nat}

/-- Such a map stands in order. -/
theorem WellFormed.ordered (wf : WellFormed es) : Ordered es := by
  refine ⟨?_, wf.aligned, wf.nonempty, wf.words⟩
  apply (wf.sorted.and wf.disjoint).imp_of_mem
  rintro d e - mem ⟨lt, before | behind⟩
  · exact before
  · have := wf.nonempty e mem
    simp only [MemmapEntry.fin] at behind
    omega

/-- The block of the IOMMU stays where it is. -/
theorem ignoreIommu_base : (ignoreIommu e).base = e.base := by
  rw [ignoreIommu]
  split_ifs <;> rfl

/-- Its length stays. -/
theorem ignoreIommu_length : (ignoreIommu e).length = e.length := by
  rw [ignoreIommu]
  split_ifs <;> rfl

/-- It ends where it did. -/
theorem ignoreIommu_fin : (ignoreIommu e).fin = e.fin := by
  rw [MemmapEntry.fin, ignoreIommu_base, ignoreIommu_length]
  rfl

/-- And is usable no more. -/
theorem ignoreIommu_usable : (ignoreIommu e).type = memmapUsable ↔ e.Usable := by
  rw [ignoreIommu, MemmapEntry.Usable]
  split_ifs with inside
  · simp [inside, memmapBadMemory, memmapUsable]
  · simp [inside]

/-- The map stays in order. -/
theorem Ordered.ignore (ordered : Ordered es) : Ordered (es.map ignoreIommu) := by
  refine ⟨?_, ?_, ?_, ?_⟩
  · apply List.pairwise_map.mpr
    simpa only [ignoreIommu_fin, ignoreIommu_base] using ordered.apart
  · simpa only [List.forall_mem_map, ignoreIommu_base, ignoreIommu_length] using ordered.aligned
  · simpa only [List.forall_mem_map, ignoreIommu_length] using ordered.nonempty
  · simpa only [List.forall_mem_map, ignoreIommu_fin] using ordered.words

/-- The entries stand at least a page apart. -/
theorem Ordered.index_le (ordered : Ordered es) (mem : es[i]? = some e) :
    i * pageSize ≤ e.base := by
  induction i generalizing e with
  | zero => omega
  | succ i ih =>
    have lt := (List.getElem?_eq_some_iff.mp mem).1
    have here := ih (List.getElem?_eq_getElem (Nat.lt_of_succ_lt lt))
    have before := List.pairwise_iff_getElem.mp ordered.apart i (i + 1) (by omega) lt (by omega)
    obtain ⟨-, rfl⟩ := List.getElem?_eq_some_iff.mp mem
    have pages := Nat.le_of_dvd (ordered.nonempty _ (List.getElem_mem _))
      (ordered.aligned _ (List.getElem_mem (Nat.lt_of_succ_lt lt))).2
    simp only [MemmapEntry.fin] at before
    rw [Nat.add_mul]
    omega

/-- The map fits into memory. -/
theorem Ordered.small (ordered : Ordered es) : entrySize * es.length < 2 ^ 64 := by
  rcases Nat.eq_zero_or_pos es.length with none | some
  · rw [none]
    decide
  · have lt : es.length - 1 < es.length := by omega
    have last := ordered.index_le (List.getElem?_eq_getElem lt)
    have word := ordered.words _ (List.getElem_mem lt)
    simp only [MemmapEntry.fin, entrySize, pageSize] at *
    omega

/-- The pair that the search finds. -/
theorem findPair_spec (found : findPair n es = some i) :
    ∃ l₁ used free l₂, es = l₁ ++ used :: free :: l₂ ∧ l₁.length = i ∧
      free.type = memmapUsable ∧ limineMmapTypeConvert used.type = memoryMapBusy ∧
      n < free.length / pageSize := by
  induction es generalizing i with
  | nil => cases found
  | cons used es ih =>
    cases es with
    | nil => cases found
    | cons free rest =>
      rw [findPair] at found
      split_ifs at found with pair
      · obtain rfl : 0 = i := Option.some.inj found
        exact ⟨[], used, free, rest, rfl, rfl, pair.1, pair.2.1, pair.2.2⟩
      · obtain ⟨k, found', rfl⟩ := Option.map_eq_some_iff.mp found
        obtain ⟨l₁, u, f, l₂, same, len, rest⟩ := ih found'
        exact ⟨used :: l₁, u, f, l₂, by rw [same]; rfl, by rw [List.length_cons, len], rest⟩

/-- Pages moved between two neighbours of the list. -/
theorem movePages_append (l₁ l₂ : List MemmapEntry) (used free : MemmapEntry) :
    movePages n l₁.length (l₁ ++ used :: free :: l₂) =
      l₁ ++ { used with length := Word.add used.length (Word.mul n pageSize) } ::
        { free with
          base := Word.add free.base (Word.mul n pageSize)
          length := Word.sub free.length (Word.mul n pageSize) } :: l₂ := by
  rw [movePages]
  induction l₁ with
  | nil => rfl
  | cons x l₁ ih =>
    simp only [List.length_cons, List.cons_append, List.modify_succ_cons] at ih ⊢
    rw [ih]

/-- The pages go from one entry to the other, and nothing wraps. -/
theorem moved_eq (ordered : Ordered es) (found : findPair n es = some i) :
    ∃ l₁ used free l₂, es = l₁ ++ used :: free :: l₂ ∧ l₁.length = i ∧
      free.type = memmapUsable ∧ limineMmapTypeConvert used.type = memoryMapBusy ∧
      n * pageSize < free.length ∧ pageSize ∣ free.length - n * pageSize ∧
      movePages n i es = l₁ ++ { used with length := used.length + n * pageSize } ::
        { free with
          base := free.base + n * pageSize
          length := free.length - n * pageSize } :: l₂ := by
  obtain ⟨l₁, used, free, l₂, rfl, rfl, usable, busy, large⟩ := findPair_spec found
  have size : n * pageSize < free.length := by
    have pos : 0 < pageSize := by decide
    have le := (Nat.le_div_iff_mul_le pos).mp (Nat.succ_le_of_lt large)
    rw [Nat.succ_mul] at le
    omega
  have fits := ordered.words free (by simp)
  have before : used.fin ≤ free.base :=
    (List.pairwise_cons.mp (List.pairwise_append.mp ordered.apart).2.1).1 free (by simp)
  refine ⟨l₁, used, free, l₂, rfl, rfl, usable, busy, size, ?_, ?_⟩
  · exact Nat.dvd_sub (ordered.aligned free (by simp)).2 (Nat.dvd_mul_left ..)
  · simp only [MemmapEntry.fin] at fits before
    rw [movePages_append, Word.mul_eq (by omega), Word.add_eq (by omega), Word.add_eq (by omega),
      Word.sub_eq (by omega) (by omega)]

/-- The map stays in order. -/
theorem Ordered.moved (ordered : Ordered es) (found : findPair n es = some i) :
    Ordered (movePages n i es) := by
  obtain ⟨l₁, used, free, l₂, rfl, rfl, -, -, size, whole, moved⟩ := moved_eq ordered found
  rw [moved]
  obtain ⟨first, rest, cross⟩ := List.pairwise_append.mp ordered.apart
  obtain ⟨usedBefore, rest⟩ := List.pairwise_cons.mp rest
  obtain ⟨freeBefore, rest⟩ := List.pairwise_cons.mp rest
  have meet := usedBefore free (by simp)
  have some := ordered.nonempty used (by simp)
  have word := ordered.words free (by simp)
  simp only [MemmapEntry.fin] at meet freeBefore word
  refine ⟨?_, ?_, ?_, ?_⟩
  · apply List.pairwise_append.mpr
    refine ⟨first, List.pairwise_cons.mpr ⟨?_, List.pairwise_cons.mpr ⟨?_, rest⟩⟩, ?_⟩
    · intro e mem
      rcases List.mem_cons.mp mem with rfl | mem
      · simp only [MemmapEntry.fin]
        omega
      · have := freeBefore e mem
        simp only [MemmapEntry.fin]
        omega
    · intro e mem
      have := freeBefore e mem
      simp only [MemmapEntry.fin]
      omega
    · intro d hd e mem
      have le := cross d hd used (by simp)
      rcases List.mem_cons.mp mem with rfl | mem
      · exact le
      · rcases List.mem_cons.mp mem with rfl | mem
        · show d.fin ≤ free.base + n * pageSize
          omega
        · exact cross d hd e (by simp [mem])
  · intro e mem
    rcases List.mem_append.mp mem with mem | mem
    · exact ordered.aligned e (by simp [mem])
    · rcases List.mem_cons.mp mem with rfl | mem
      · obtain ⟨base, length⟩ := ordered.aligned used (by simp)
        exact ⟨base, Nat.dvd_add length (Nat.dvd_mul_left ..)⟩
      · rcases List.mem_cons.mp mem with rfl | mem
        · obtain ⟨base, -⟩ := ordered.aligned free (by simp)
          exact ⟨Nat.dvd_add base (Nat.dvd_mul_left ..), whole⟩
        · exact ordered.aligned e (by simp [mem])
  · intro e mem
    rcases List.mem_append.mp mem with mem | mem
    · exact ordered.nonempty e (by simp [mem])
    · rcases List.mem_cons.mp mem with rfl | mem
      · exact Nat.add_pos_left some _
      · rcases List.mem_cons.mp mem with rfl | mem
        · exact Nat.sub_pos_of_lt size
        · exact ordered.nonempty e (by simp [mem])
  · intro e mem
    rcases List.mem_append.mp mem with mem | mem
    · exact ordered.words e (by simp [mem])
    · rcases List.mem_cons.mp mem with rfl | mem
      · simp only [MemmapEntry.fin]
        omega
      · rcases List.mem_cons.mp mem with rfl | mem
        · simp only [MemmapEntry.fin]
          omega
        · exact ordered.words e (by simp [mem])

/-- No entry is added. -/
theorem movePages_length : (movePages n i es).length = es.length := by
  rw [movePages, List.length_modify, List.length_modify]

/-- Free is what Limine calls usable. -/
theorem typeConvert_free {type : Nat} :
    limineMmapTypeConvert type = memoryMapFree ↔ type = memmapUsable := by
  rw [limineMmapTypeConvert]
  split_ifs with usable <;>
    simp_all [memoryMapFree, memoryMapBusy, memoryMapMmio, memoryMapNouse]

/-- What is busy is not usable. -/
theorem not_usable {type : Nat} (busy : limineMmapTypeConvert type = memoryMapBusy) :
    type ≠ memmapUsable := by
  intro usable
  rw [typeConvert_free.mpr usable] at busy
  cases busy

/-- An entry of the map after the pages are moved. -/
theorem moved_getElem? (ordered : Ordered es) (found : findPair n es = some i)
    (mem : es[j]? = some e) :
    ∃ e', (movePages n i es)[j]? = some e' ∧ e'.type = e.type ∧
      e'.fin = e.fin + (if i = j then n * pageSize else 0) ∧
      e'.base = e.base + (if i + 1 = j then n * pageSize else 0) ∧
      (i = j → e'.type ≠ memmapUsable) := by
  obtain ⟨l₁, used, free, l₂, rfl, rfl, -, busy, size, -, moved⟩ := moved_eq ordered found
  rw [moved]
  by_cases first : j < l₁.length
  · rw [List.getElem?_append_left first] at mem ⊢
    rw [if_neg (by omega), if_neg (by omega)]
    exact ⟨e, mem, rfl, rfl, rfl, fun same => by omega⟩
  · obtain ⟨k, rfl⟩ := Nat.exists_eq_add_of_le (Nat.le_of_not_lt first)
    rw [List.getElem?_append_right (Nat.le_add_right ..), Nat.add_sub_cancel_left] at mem ⊢
    cases k with
    | zero =>
      obtain rfl : used = e := by simpa using mem
      refine ⟨_, rfl, rfl, ?_, ?_, fun _ => not_usable busy⟩
      · rw [if_pos (Nat.add_zero _).symm]
        simp only [MemmapEntry.fin]
        omega
      · rw [if_neg (by omega)]
        rfl
    | succ k =>
      cases k with
      | zero =>
        obtain rfl : free = e := by simpa using mem
        refine ⟨_, rfl, rfl, ?_, ?_, fun same => by omega⟩
        · rw [if_neg (by omega)]
          simp only [MemmapEntry.fin]
          omega
        · rw [if_pos rfl]
      | succ k =>
        rw [if_neg (by omega), if_neg (by omega)]
        exact ⟨e, by simpa using mem, rfl, rfl, rfl, fun same => by omega⟩

/-- The area is gone from usable memory, and nothing else. -/
theorem moved_covers (ordered : Ordered es) (found : findPair n es = some i)
    (taken : es[i + 1]? = some d) :
    (∃ e ∈ movePages n i es, e.type = memmapUsable ∧ e.Covers p) ↔
      (∃ e ∈ es, e.type = memmapUsable ∧ e.Covers p) ∧
        ¬ (d.base ≤ p * pageSize ∧ p * pageSize < d.base + n * pageSize) := by
  obtain ⟨l₁, used, free, l₂, rfl, rfl, usable, busy, size, -, moved⟩ := moved_eq ordered found
  obtain rfl : free = d := by simpa using taken
  have notUsable := not_usable busy
  obtain ⟨-, rest, cross⟩ := List.pairwise_append.mp ordered.apart
  obtain ⟨-, rest⟩ := List.pairwise_cons.mp rest
  obtain ⟨behind, -⟩ := List.pairwise_cons.mp rest
  rw [moved]
  constructor
  · rintro ⟨e, mem, type, lo, hi⟩
    rcases List.mem_append.mp mem with mem | mem
    · have := cross e mem free (by simp)
      exact ⟨⟨e, by simp [mem], type, lo, hi⟩, by omega⟩
    · rcases List.mem_cons.mp mem with rfl | mem
      · exact absurd type notUsable
      · rcases List.mem_cons.mp mem with rfl | mem
        · simp only [MemmapEntry.fin] at lo hi
          exact ⟨⟨free, by simp, usable, by omega, by simp only [MemmapEntry.fin]; omega⟩, by omega⟩
        · have := behind e mem
          simp only [MemmapEntry.fin] at this
          exact ⟨⟨e, by simp [mem], type, lo, hi⟩, by omega⟩
  · rintro ⟨⟨e, mem, type, lo, hi⟩, outside⟩
    rcases List.mem_append.mp mem with mem | mem
    · exact ⟨e, by simp [mem], type, lo, hi⟩
    · rcases List.mem_cons.mp mem with rfl | mem
      · exact absurd type notUsable
      · rcases List.mem_cons.mp mem with rfl | mem
        · refine ⟨{ e with base := e.base + n * pageSize, length := e.length - n * pageSize },
            by simp, usable, ?_, ?_⟩
          · show e.base + n * pageSize ≤ p * pageSize
            omega
          · simp only [MemmapEntry.fin] at hi ⊢
            omega
        · exact ⟨e, by simp [mem], type, lo, hi⟩

/-! ### The first megabyte -/

/-- An entry without what it has of the first megabyte. -/
def cutEntry (e : MemmapEntry) : MemoryMapEntry :=
  if e.base < megabyte then
    if e.fin < megabyte then ⟨e.base, 0, memoryMapNouse⟩
    else ⟨megabyte, e.fin - megabyte, limineMmapTypeConvert e.type⟩
  else copyEntry e

/-- The loop stops behind the first megabyte, where nothing is left to cut. -/
theorem cutEntries_copy (ordered : Ordered es) :
    cutEntries (es.map copyEntry) = es.map cutEntry := by
  induction es with
  | nil => rfl
  | cons e es ih =>
    obtain ⟨before, apart⟩ := List.pairwise_cons.mp ordered.apart
    have rest : Ordered es := ⟨apart, fun e mem => ordered.aligned e (by simp [mem]),
      fun e mem => ordered.nonempty e (by simp [mem]), fun e mem => ordered.words e (by simp [mem])⟩
    have word := ordered.words e (by simp)
    have fin : Word.add (copyEntry e).base (copyEntry e).length = e.fin := Word.add_eq word
    rw [List.map_cons, List.map_cons, cutEntries, fin]
    by_cases low : e.base < megabyte
    · rw [if_pos (show (copyEntry e).base < megabyte from low), ih rest]
      refine congrArg (· :: es.map cutEntry) ?_
      rw [cutEntry, if_pos low]
      by_cases inside : e.fin < megabyte
      · rw [if_pos inside, if_pos inside]
        rfl
      · rw [if_neg inside, if_neg inside]
        simp only [copyEntry, MemmapEntry.fin] at *
        have rest : e.length - (megabyte - e.base) = e.base + e.length - megabyte := by omega
        rw [Word.sub_eq (by omega) (by omega), rest]
    · rw [if_neg (show ¬ (copyEntry e).base < megabyte from low), cutEntry, if_neg low]
      refine congrArg (copyEntry e :: ·) ?_
      apply List.map_congr_left
      intro d mem
      have := before d mem
      rw [cutEntry, if_neg (by simp only [MemmapEntry.fin] at this; omega)]

/-- What is cut off is below the first megabyte, and what is not usable stays so. -/
theorem cutEntry_free (aligned : pageSize ∣ e.base ∧ pageSize ∣ e.length)
    (high : megabyte ≤ p * pageSize) :
    FreeOf (cutEntry e) p ↔ e.type = memmapUsable ∧ e.Covers p := by
  obtain ⟨⟨b, base⟩, ⟨k, length⟩⟩ := aligned
  have mega : megabyte = 256 * pageSize := by decide
  have fin : e.fin = (b + k) * pageSize := by
    rw [MemmapEntry.fin, base, length, Nat.add_mul, Nat.mul_comm b, Nat.mul_comm k]
  rw [cutEntry]
  split_ifs with low inside
  · simp only [FreeOf, MemmapEntry.Covers, memoryMapNouse, memoryMapFree]
    omega
  · have pages : pagesFor (e.fin - megabyte) * pageSize = e.fin - megabyte := by
      rw [fin, mega, ← Nat.sub_mul, pagesFor_mul]
    simp only [FreeOf, typeConvert_free, Section.Holds, entrySection, MemmapEntry.Covers, pages]
    omega
  · have pages : pagesFor e.length * pageSize = e.length := by
      rw [length, Nat.mul_comm pageSize, pagesFor_mul]
    simp only [FreeOf, copyEntry, typeConvert_free, Section.Holds, entrySection,
      MemmapEntry.Covers, MemmapEntry.fin, pages]

/-- An entry that is cut begins no earlier, and ends no later. -/
theorem cutEntry_bounds : e.base ≤ (cutEntry e).base ∧
    (cutEntry e).base + (cutEntry e).length ≤ e.fin := by
  rw [cutEntry]
  split_ifs with low inside
  · exact ⟨Nat.le_refl _, by simp [MemmapEntry.fin]⟩
  · exact ⟨Nat.le_of_lt low, by simp only; omega⟩
  · exact ⟨Nat.le_refl _, Nat.le_refl _⟩

/-- An entry that is cut is of whole pages. -/
theorem cutEntry_aligned (aligned : pageSize ∣ e.base ∧ pageSize ∣ e.length) :
    pageSize ∣ (cutEntry e).length := by
  rw [cutEntry]
  split_ifs with low inside
  · exact Nat.dvd_zero _
  · exact Nat.dvd_sub (Nat.dvd_add aligned.1 aligned.2) (by decide)
  · exact aligned.2

/-- Where it begins. -/
theorem cutEntry_base : (cutEntry e).base =
    if e.base < megabyte then if e.fin < megabyte then e.base else megabyte else e.base := by
  rw [cutEntry]
  split_ifs <;> rfl

/-- Two entries begin at one place only when the first is cut down to nothing. -/
theorem cutEntry_same (nonempty : 0 < d.length) (apart : d.fin ≤ e.base) :
    (cutEntry d).base = (cutEntry e).base ↔ d.fin = megabyte ∧ e.base = megabyte := by
  have begins : (cutEntry e).base = e.base ∨
      ((cutEntry e).base = megabyte ∧ e.base < megabyte) := by
    rw [cutEntry_base]
    split_ifs with low inside
    · exact Or.inl rfl
    · exact Or.inr ⟨rfl, low⟩
    · exact Or.inl rfl
  have fin : d.fin = d.base + d.length := rfl
  rw [@cutEntry_base d]
  split_ifs <;> omega

end

end Skylight.Limine
