import Skylight.Laws.Boot.Entries

/-!
# What Limine's memory becomes

`limine_reinterpret` takes pages from a free entry, cuts off the first megabyte and leaves the rest
of the map as it is; `pmm_start` makes sections of it. Memory is lost on the way in two places: an
entry cut down to nothing at the end of the first megabyte hides the one that begins there, and the
table of the modules can reach into the last entry of the copied map.
-/

namespace Skylight.Limine

open Skylight.Pmm

/-- The pages from the first megabyte on that the manager lists as free are those of usable
memory, without the area taken for the copied map and the modules. -/
def HandedOver (limineMap : List MemmapEntry) (h : Handover) (s : State) : Prop :=
  ∀ p, megabyte ≤ p * pageSize → (ListedFree s p ↔
    (∃ e ∈ limineMap, e.Usable ∧ e.Covers p) ∧
      ¬ (h.memoryMap ≤ p * pageSize ∧
        p * pageSize < h.memoryMap + mapPages limineMap.length * pageSize))

/-- What goes from an entry to the one before it, the `i`-th. -/
def shift (limineMap : List MemmapEntry) (i : Nat) : Nat :=
  if findPair (mapPages limineMap.length) (limineMap.map ignoreIommu) = some i then
    mapPages limineMap.length * pageSize
  else 0

/-- An entry behind the first ends at the first megabyte, and usable memory begins there. -/
def MeetAtMegabyte (limineMap : List MemmapEntry) : Prop :=
  ∃ i d e, 1 ≤ i ∧ limineMap[i]? = some d ∧ limineMap[i + 1]? = some e ∧ e.Usable ∧
    d.fin + shift limineMap i = megabyte ∧ e.base + shift limineMap i = megabyte

/-- The table of the modules leaves the free memory of the last entry as it is: it does not reach
it, or that is not free before nor after, or by chance it is the same. -/
def TableSpares (limineMap : List MemmapEntry) (modules : List File) : Prop :=
  ∀ m ∈ (modules.map bootModule).head?, ∀ e ∈ limineMap.getLast?,
    (entrySize * limineMap.length % pageSize = 4088 → (m.virt = memoryMapFree ↔ e.Usable)) ∧
    (entrySize * limineMap.length % pageSize = 0 →
      (e.Usable → m.phys = memoryMapFree ∧
        m.virt + shift limineMap (limineMap.length - 2) = e.length) ∧
      (¬ e.Usable → m.phys = memoryMapFree → m.virt = 0))

/-- The map that `pmm_start` is given, from what `limine_reinterpret` is given: the pages moved, the
first megabyte cut off, and what the table of the modules writes over the last entry. -/
def handedMap (limineMap : List MemmapEntry) (modules : List File) : List MemoryMapEntry :=
  let pages := mapPages limineMap.length
  let parsed := limineMap.map ignoreIommu
  let moved := (findPair pages parsed).elim parsed fun i => movePages pages i parsed
  (reserveMegabyte (moved.map copyEntry)).modify (limineMap.length - 1)
    (overwritten limineMap.length (modules.map bootModule))

/-! ### What is handed over -/

/-- The map that is handed over: `es` is what follows the first entry before the first megabyte is
cut off, with the pages moved. -/
structure Reinterpreted (limineMap : List MemmapEntry) (modules : List File) (h : Handover)
    (es : List MemmapEntry) : Prop where
  handed : h.map = handedMap limineMap modules
  map : h.map = ⟨0, megabyte, memoryMapNouse⟩ :: (es.map cutEntry).modify (es.length - 1)
    (overwritten limineMap.length (modules.map bootModule))
  length : limineMap.length = es.length + 1
  nonempty : 0 < es.length
  ordered : Ordered es
  entry : ∀ j e, limineMap[j + 1]? = some e → ∃ e', es[j]? = some e' ∧
    (e'.type = memmapUsable ↔ e.Usable) ∧ e'.fin = e.fin + shift limineMap (j + 1) ∧
    e'.base = e.base + shift limineMap j
  covers : ∀ p, megabyte ≤ p * pageSize → ((∃ e ∈ es, e.type = memmapUsable ∧ e.Covers p) ↔
    (∃ e ∈ limineMap, e.Usable ∧ e.Covers p) ∧
      ¬ (h.memoryMap ≤ p * pageSize ∧
        p * pageSize < h.memoryMap + mapPages limineMap.length * pageSize))
  /-- nothing goes to the last entry -/
  last : shift limineMap (limineMap.length - 1) = 0

section
variable {limineMap es : List MemmapEntry} {modules : List File} {h : Handover} {words : Words}
  {d e : MemmapEntry} {i j p : Nat}

/-- The rest of a map in order. -/
theorem Ordered.tail {e : MemmapEntry} (ordered : Ordered (e :: es)) : Ordered es :=
  ⟨(List.pairwise_cons.mp ordered.apart).2, fun d mem => ordered.aligned d (by simp [mem]),
    fun d mem => ordered.nonempty d (by simp [mem]), fun d mem => ordered.words d (by simp [mem])⟩

/-- `limine_reinterpret`, where it finds a pair. -/
theorem reinterpreted (wf : WellFormed limineMap)
    (found : limineReinterpret words limineMap modules = some h) :
    ∃ es, Reinterpreted limineMap modules h es := by
  obtain ⟨i, pair, found⟩ := Option.bind_eq_some_iff.mp found
  obtain ⟨free, taken, found⟩ := Option.bind_eq_some_iff.mp found
  have ordered := wf.ordered.ignore
  have moved := ordered.moved pair
  have lt := (List.getElem?_eq_some_iff.mp taken).1
  rw [List.length_map] at lt
  obtain ⟨e₀, first, zero, low⟩ := wf.first
  rw [List.head?_eq_getElem?] at first
  have length : (movePages (mapPages limineMap.length) i (limineMap.map ignoreIommu)).length =
      limineMap.length := by rw [movePages_length, List.length_map]
  have entry : ∀ j e, limineMap[j]? = some e → ∃ e',
      (movePages (mapPages limineMap.length) i (limineMap.map ignoreIommu))[j]? = some e' ∧
      (e'.type = memmapUsable ↔ e.Usable) ∧ e'.fin = e.fin + shift limineMap j ∧
      (1 ≤ j → e'.base = e.base + shift limineMap (j - 1)) ∧
      (i = j → e'.type ≠ memmapUsable) := by
    intro j e mem
    obtain ⟨e', mem', type, fin, base, used⟩ := @moved_getElem? _ (ignoreIommu e) _ _ j ordered pair
      (by rw [List.getElem?_map, mem]; rfl)
    refine ⟨e', mem', ?_, ?_, ?_, used⟩
    · rw [type, ignoreIommu_usable]
    · rw [fin, ignoreIommu_fin, shift, pair]
      simp only [Option.some.injEq]
    · intro pos
      obtain ⟨k, rfl⟩ := Nat.exists_eq_add_of_le' pos
      rw [base, ignoreIommu_base, shift, pair]
      simp only [Option.some.injEq, Nat.add_right_cancel_iff, Nat.add_sub_cancel]
  have covers := fun p => @moved_covers _ free _ i p ordered pair taken
  have last : shift limineMap (limineMap.length - 1) = 0 := by
    rw [shift, pair, if_neg]
    intro same
    have := Option.some.inj same
    omega
  generalize hm : movePages (mapPages limineMap.length) i (limineMap.map ignoreIommu) = m at *
  cases m with
  | nil =>
    rw [List.length_nil] at length
    omega
  | cons x es =>
    have copied : reserveMegabyte ((x :: es).map copyEntry) =
        ⟨0, megabyte, memoryMapNouse⟩ :: es.map cutEntry := by
      rw [List.map_cons, reserveMegabyte, cutEntries_copy moved.tail]
    have pages := wf.ordered.small
    rw [List.length_cons] at length
    have written : h.map = (⟨0, megabyte, memoryMapNouse⟩ :: es.map cutEntry).modify
        (limineMap.length - 1) (overwritten limineMap.length (modules.map bootModule)) := by
      obtain rfl : _ = h := Option.some.inj found
      have len : (⟨0, megabyte, memoryMapNouse⟩ :: es.map cutEntry).length = limineMap.length := by
        rw [List.length_cons, List.length_map, length]
      have read := @read_written (⟨0, megabyte, memoryMapNouse⟩ :: es.map cutEntry)
        (modules.map bootModule)
        ((words.set (free.base + 8) (free.base + headerSize)).set free.base
          (limineMap.map ignoreIommu).length) free.base
      rw [len] at read
      simp only [copied]
      rw [read pages (by omega) (by simp [Words.set]) (by simp [Words.set])]
    refine ⟨es, ?_, ?_, length.symm, by omega, moved.tail, ?_, ?_, last⟩
    · simp only [handedMap]
      rw [pair, Option.elim_some, hm, copied, written]
    · have back : es.length = es.length - 1 + 1 := by omega
      rw [written, ← length, Nat.add_sub_cancel, back, List.modify_succ_cons, ← back]
    · intro j e mem
      obtain ⟨e', mem', usable, fin, base, -⟩ := entry (j + 1) e mem
      exact ⟨e', mem', usable, fin, base (by omega)⟩
    · intro p high
      obtain rfl : _ = h := Option.some.inj found
      obtain ⟨x', mem, -, fin, -, used⟩ := entry 0 e₀ first
      obtain rfl : x = x' := by simpa using mem
      have outside : ¬ (x.type = memmapUsable ∧ x.Covers p) := by
        rintro ⟨usable, -, hi⟩
        by_cases same : i = 0
        · exact used same usable
        · rw [fin, shift, pair, if_neg (by simpa using same)] at hi
          omega
      have tail : (∃ e ∈ x :: es, e.type = memmapUsable ∧ e.Covers p) ↔
          ∃ e ∈ es, e.type = memmapUsable ∧ e.Covers p := by
        rw [List.exists_mem_cons_iff]
        exact or_iff_right outside
      rw [← tail, covers p]
      apply and_congr_left'
      simp only [List.mem_map, exists_exists_and_eq_and, ignoreIommu_usable, MemmapEntry.Covers,
        ignoreIommu_base, ignoreIommu_fin]

/-- Of two entries one that ends behind a page is not before one that begins up to it. -/
theorem Ordered.le_of_covers (ordered : Ordered es) (mem : es[i]? = some d)
    (mem' : es[j]? = some e) (ends : p * pageSize < d.fin) (begins : e.base ≤ p * pageSize) :
    j ≤ i := by
  by_contra lt
  obtain ⟨hi, rfl⟩ := List.getElem?_eq_some_iff.mp mem
  obtain ⟨hj, rfl⟩ := List.getElem?_eq_some_iff.mp mem'
  have := List.pairwise_iff_getElem.mp ordered.apart i j hi hj (by omega)
  omega

/-- An entry of the map that is handed over, from the entry of Limine. -/
theorem Reinterpreted.of_entry (r : Reinterpreted limineMap modules h es)
    (mem : es[j]? = some e) : ∃ d, limineMap[j + 1]? = some d ∧ (e.type = memmapUsable ↔ d.Usable) ∧
      e.fin = d.fin + shift limineMap (j + 1) ∧ e.base = d.base + shift limineMap j := by
  have lt := (List.getElem?_eq_some_iff.mp mem).1
  have lt' : j + 1 < limineMap.length := by
    rw [r.length]
    omega
  obtain ⟨e', mem', rest⟩ := r.entry j _ (List.getElem?_eq_getElem lt')
  obtain rfl := Option.some.inj (mem.symm.trans mem')
  exact ⟨_, List.getElem?_eq_getElem lt', rest⟩

/-- The entries stand at least a page apart. -/
theorem Reinterpreted.index_le (r : Reinterpreted limineMap modules h es)
    (wf : WellFormed limineMap) (mem : es[j]? = some e) : (j + 1) * pageSize ≤ e.base := by
  obtain ⟨d, mem', -, -, base⟩ := r.of_entry mem
  have := wf.ordered.index_le mem'
  omega

/-- An entry that begins where the one before it was cut down to nothing. -/
def Hidden (es : List MemmapEntry) (j : Nat) : Prop :=
  ∃ i d e, j = i + 1 ∧ es[i]? = some d ∧ es[j]? = some e ∧ d.fin = megabyte ∧ e.base = megabyte

/-- An entry is hidden where usable memory begins at the first megabyte, behind another. -/
theorem Reinterpreted.meet_iff (r : Reinterpreted limineMap modules h es) :
    MeetAtMegabyte limineMap ↔ ∃ j e, es[j]? = some e ∧ e.type = memmapUsable ∧ Hidden es j := by
  constructor
  · rintro ⟨i, d, e, pos, hd, he, usable, fin, base⟩
    obtain ⟨k, rfl⟩ := Nat.exists_eq_add_of_le' pos
    obtain ⟨d', hd', -, fin', -⟩ := r.entry k d hd
    obtain ⟨e', he', usable', -, base'⟩ := r.entry (k + 1) e he
    exact ⟨k + 1, e', he', usable'.mpr usable, k, d', e', rfl, hd', he', by rw [fin', fin],
      by rw [base', base]⟩
  · rintro ⟨j, e, he, usable, i, d, e', rfl, hd, he', fin, base⟩
    obtain rfl := Option.some.inj (he.symm.trans he')
    obtain ⟨d', hd', -, fin', -⟩ := r.of_entry hd
    obtain ⟨e', he', usable', -, base'⟩ := r.of_entry he
    exact ⟨i + 1, d', e', by omega, hd', he', usable'.mp usable, by rw [← fin', fin],
      by rw [← base', base]⟩

/-- An entry as it is read back. -/
theorem handed_getElem? {f : MemoryMapEntry → MemoryMapEntry} {k : Nat} :
    ((es.map cutEntry).modify k f)[j]? =
      es[j]?.map fun e => if k = j then f (cutEntry e) else cutEntry e := by
  rw [List.getElem?_modify, List.getElem?_map, Option.map_eq_map, Option.map_map]
  rfl

/-- What is listed as free, of the map that is handed over. -/
theorem Reinterpreted.kept_free (r : Reinterpreted limineMap modules h es)
    (wf : WellFormed limineMap) {f : MemoryMapEntry → MemoryMapEntry}
    (keeps : ∀ e, (f e).base = e.base) {k : Nat} :
    (∃ x ∈ kept 0 ((es.map cutEntry).modify k f), FreeOf x p) ↔
      ∃ j e, es[j]? = some e ∧ ¬ Hidden es j ∧
        FreeOf (if k = j then f (cutEntry e) else cutEntry e) p := by
  have base : ∀ j e, (if k = j then f (cutEntry e) else cutEntry e).base = (cutEntry e).base := by
    intro j e
    split_ifs
    · exact keeps _
    · rfl
  have bases : ((es.map cutEntry).modify k f).map (·.base) = es.map fun e => (cutEntry e).base := by
    apply List.ext_getElem?
    intro j
    rw [List.getElem?_map, handed_getElem?, Option.map_map, List.getElem?_map]
    congr 1
    funext e
    exact base j e
  have hidden : ∀ j e, es[j]? = some e →
      ((0 :: es.map fun e => (cutEntry e).base)[j]? = some (cutEntry e).base ↔ Hidden es j) := by
    intro j e mem
    cases j with
    | zero =>
      have pos := r.index_le wf mem
      have le := (@cutEntry_bounds e).1
      simp only [pageSize] at pos
      constructor
      · intro same
        have := Option.some.inj same
        omega
      · rintro ⟨i, -, -, same, -⟩
        omega
    | succ i =>
      have lt := (List.getElem?_eq_some_iff.mp mem).1
      have before : es[i]? = some es[i] := List.getElem?_eq_getElem (by omega)
      have apart := List.pairwise_iff_getElem.mp r.ordered.apart i (i + 1) (by omega) lt (by omega)
      have here := (List.getElem?_eq_some_iff.mp mem).2
      rw [here] at apart
      have same := cutEntry_same (r.ordered.nonempty es[i] (List.getElem_mem _)) apart
      rw [List.getElem?_cons_succ, List.getElem?_map, before, Option.map_some, Option.some.injEq,
        same]
      constructor
      · rintro ⟨fin, begin_⟩
        exact ⟨i, _, e, rfl, before, mem, fin, begin_⟩
      · rintro ⟨i', d, e', same, hd, he, fin, begin_⟩
        obtain rfl : i = i' := by omega
        obtain rfl := Option.some.inj (before.symm.trans hd)
        obtain rfl := Option.some.inj (mem.symm.trans he)
        exact ⟨fin, begin_⟩
  constructor
  · rintro ⟨x, mem, free⟩
    obtain ⟨j, at_, ne⟩ := mem_kept.mp mem
    rw [handed_getElem?] at at_
    obtain ⟨e, he, rfl⟩ := Option.map_eq_some_iff.mp at_
    rw [bases, base] at ne
    exact ⟨j, e, he, fun hid => ne ((hidden j e he).mpr hid), free⟩
  · rintro ⟨j, e, he, shown, free⟩
    refine ⟨_, mem_kept.mpr ⟨j, ?_, ?_⟩, free⟩
    · rw [handed_getElem?, he]
      rfl
    · rw [bases, base]
      exact fun same => shown ((hidden j e he).mp same)

/-- What is free of an entry behind the first megabyte. -/
theorem Reinterpreted.cut_free (r : Reinterpreted limineMap modules h es) (mem : es[j]? = some e)
    (high : megabyte ≤ p * pageSize) :
    FreeOf (cutEntry e) p ↔ e.type = memmapUsable ∧ e.Covers p :=
  cutEntry_free (r.ordered.aligned e (List.mem_of_getElem? mem)) high

/-- The free memory that is listed, with the last entry changed by `f`, is that of the usable
entries. -/
def ShowsUsable (es : List MemmapEntry) (f : MemoryMapEntry → MemoryMapEntry) : Prop :=
  ∀ p, megabyte ≤ p * pageSize →
    ((∃ x ∈ kept 0 ((es.map cutEntry).modify (es.length - 1) f), FreeOf x p) ↔
      ∃ e ∈ es, e.type = memmapUsable ∧ e.Covers p)

/-- A change of the last entry leaves its free memory as it is. -/
def SparesLast (es : List MemmapEntry) (f : MemoryMapEntry → MemoryMapEntry) : Prop :=
  ∀ e, es[es.length - 1]? = some e → ∀ p, megabyte ≤ p * pageSize →
    (FreeOf (f (cutEntry e)) p ↔ FreeOf (cutEntry e) p)

/-- Usable memory, by the place of its entry. -/
theorem usable_at : (∃ e ∈ es, e.type = memmapUsable ∧ e.Covers p) ↔
    ∃ (j : Nat) (e : MemmapEntry), es[j]? = some e ∧ e.type = memmapUsable ∧ e.Covers p := by
  constructor
  · rintro ⟨e, mem, free⟩
    obtain ⟨j, at_⟩ := List.getElem?_of_mem mem
    exact ⟨j, e, at_, free⟩
  · rintro ⟨j, e, at_, free⟩
    exact ⟨e, List.mem_of_getElem? at_, free⟩

section
variable {f : MemoryMapEntry → MemoryMapEntry} (keeps : ∀ e, (f e).base = e.base)
include keeps

/-- A page of an entry as it is read back is behind where the entry began. -/
theorem free_behind (free : FreeOf (if es.length - 1 = j then f (cutEntry e) else cutEntry e) p) :
    e.base ≤ p * pageSize := by
  obtain ⟨-, lo, -⟩ := free
  have le := (@cutEntry_bounds e).1
  simp only [entrySection] at lo
  split_ifs at lo with last
  · rw [keeps] at lo
    omega
  · omega

/-- A usable entry that is hidden is missed: its first page is in no entry that is listed. -/
theorem Reinterpreted.shown_of_showsUsable (r : Reinterpreted limineMap modules h es)
    (wf : WellFormed limineMap)
    (far : (∀ e, f e = e) ∨ ∀ e, es[es.length - 1]? = some e → megabyte < e.base)
    (all : ShowsUsable es f) :
    ¬ ∃ (j : Nat) (e : MemmapEntry), es[j]? = some e ∧ e.type = memmapUsable ∧ Hidden es j := by
  rintro ⟨j, e, mem, usable, hid⟩
  obtain ⟨i, d, e', same, hd, he, fin, base⟩ := id hid
  obtain rfl := Option.some.inj (mem.symm.trans he)
  have some := r.ordered.nonempty e (List.mem_of_getElem? mem)
  have mega : megabyte = 256 * pageSize := by decide
  have covers : e.Covers 256 := by
    rw [MemmapEntry.Covers, MemmapEntry.fin, ← mega]
    omega
  obtain ⟨j', e', mem', shown, free⟩ := (r.kept_free wf keeps).mp
    ((all 256 (Nat.le_of_eq mega)).mpr (usable_at.mpr ⟨j, e, mem, usable, covers⟩))
  have le : j' ≤ j := r.ordered.le_of_covers mem mem' covers.2 (free_behind keeps free)
  have unchanged : FreeOf (cutEntry e') 256 := by
    split_ifs at free with last
    · rcases far with id | high
      · rwa [id] at free
      · have := @free_behind es e' j' 256 f keeps (by rwa [if_pos last])
        have := high e' (last ▸ mem')
        omega
    · exact free
  have free' := (r.cut_free mem' (Nat.le_of_eq mega)).mp unchanged
  have ge : j ≤ j' := r.ordered.le_of_covers mem' mem free'.2.2 covers.1
  obtain rfl : j' = j := Nat.le_antisymm le ge
  exact shown hid

/-- What is listed of the last entry is its own memory: the pages of the others lie before it. -/
theorem Reinterpreted.sparesLast_of_showsUsable (r : Reinterpreted limineMap modules h es)
    (wf : WellFormed limineMap)
    (far : (∀ e, f e = e) ∨ ∀ e, es[es.length - 1]? = some e → megabyte < e.base)
    (all : ShowsUsable es f) : SparesLast es f := by
  intro e mem p high
  rcases far with id | far
  · rw [id]
  have shown : ¬ Hidden es (es.length - 1) := by
    rintro ⟨i, d, e', -, -, he, -, base⟩
    have := far e' he
    omega
  rw [r.cut_free mem high]
  constructor
  · intro free
    have here : FreeOf
        (if es.length - 1 = es.length - 1 then f (cutEntry e) else cutEntry e) p := by
      rwa [if_pos rfl]
    obtain ⟨j, d, mem', usable, covers⟩ := usable_at.mp
      ((all p high).mp ((r.kept_free wf keeps).mpr ⟨_, e, mem, shown, here⟩))
    have ge := r.ordered.le_of_covers mem' mem covers.2 (free_behind keeps here)
    have lt := (List.getElem?_eq_some_iff.mp mem').1
    obtain rfl : j = es.length - 1 := by omega
    obtain rfl := Option.some.inj (mem.symm.trans mem')
    exact ⟨usable, covers⟩
  · rintro ⟨usable, covers⟩
    obtain ⟨j, d, mem', shown', free⟩ := (r.kept_free wf keeps).mp
      ((all p high).mpr (usable_at.mpr ⟨_, e, mem, usable, covers⟩))
    by_cases last : es.length - 1 = j
    · obtain rfl := last
      obtain rfl := Option.some.inj (mem.symm.trans mem')
      rwa [if_pos rfl] at free
    · rw [if_neg last] at free
      have ends := ((r.cut_free mem' high).mp free).2.2
      have ge := r.ordered.le_of_covers mem' mem ends covers.1
      have lt := (List.getElem?_eq_some_iff.mp mem').1
      omega

/-- Without hidden entries, and with the last one spared, what is listed is what is usable. -/
theorem Reinterpreted.showsUsable (r : Reinterpreted limineMap modules h es)
    (wf : WellFormed limineMap)
    (shown : ¬ ∃ (j : Nat) (e : MemmapEntry), es[j]? = some e ∧ e.type = memmapUsable ∧ Hidden es j)
    (last : SparesLast es f) : ShowsUsable es f := by
  intro p high
  rw [r.kept_free wf keeps, usable_at]
  have same : ∀ j e, es[j]? = some e →
      (FreeOf (if es.length - 1 = j then f (cutEntry e) else cutEntry e) p ↔
        e.type = memmapUsable ∧ e.Covers p) := by
    intro j e mem
    rw [← r.cut_free mem high]
    split_ifs with here
    · exact last e (here ▸ mem) p high
    · rfl
  constructor
  · rintro ⟨j, e, mem, -, free⟩
    exact ⟨j, e, mem, (same j e mem).mp free⟩
  · rintro ⟨j, e, mem, usable, covers⟩
    exact ⟨j, e, mem, fun hid => shown ⟨j, e, mem, usable, hid⟩,
      (same j e mem).mpr ⟨usable, covers⟩⟩

/-- The free memory that is listed is that of the usable entries when none of them is hidden and the
last keeps its own. An entry that is changed by `f` begins behind the first megabyte. -/
theorem Reinterpreted.showsUsable_iff (r : Reinterpreted limineMap modules h es)
    (wf : WellFormed limineMap)
    (far : (∀ e, f e = e) ∨ ∀ e, es[es.length - 1]? = some e → megabyte < e.base) :
    ShowsUsable es f ↔
      (¬ ∃ (j : Nat) (e : MemmapEntry), es[j]? = some e ∧ e.type = memmapUsable ∧ Hidden es j) ∧
        SparesLast es f :=
  ⟨fun all => ⟨r.shown_of_showsUsable keeps wf far all,
    r.sparesLast_of_showsUsable keeps wf far all⟩,
    fun ⟨shown, last⟩ => r.showsUsable keeps wf shown last⟩

end

/-! ### The table of the modules -/

/-- Two runs of pages from one page on are the same pages. -/
theorem runs_same {A B : Prop} {c u v : Nat} (high : 256 ≤ c) :
    (∀ p, megabyte ≤ p * pageSize → ((A ∧ c ≤ p ∧ p < c + u) ↔ (B ∧ c ≤ p ∧ p < c + v))) ↔
      ((A ∧ 0 < u) ↔ (B ∧ 0 < v)) ∧ (A → B → u = v) := by
  have far : ∀ k, megabyte ≤ (c + k) * pageSize := by
    intro k
    simp only [megabyte, pageSize]
    omega
  constructor
  · intro all
    constructor
    · have first := all c (far 0)
      simp only [Nat.le_refl, true_and, Nat.lt_add_right_iff_pos] at first
      exact first
    · intro a b
      rcases Nat.lt_trichotomy u v with lt | same | lt
      · have := (all (c + u) (far u)).mpr ⟨b, by omega, by omega⟩
        omega
      · exact same
      · have := (all (c + v) (far v)).mp ⟨a, by omega, by omega⟩
        omega
  · rintro ⟨some, same⟩ p -
    constructor
    · rintro ⟨a, lo, hi⟩
      have b := (some.mp ⟨a, by omega⟩).1
      exact ⟨b, lo, same a b ▸ hi⟩
    · rintro ⟨b, lo, hi⟩
      have a := (some.mpr ⟨b, by omega⟩).1
      exact ⟨a, lo, (same a b).symm ▸ hi⟩

/-- The pages of an entry that begins at a page. -/
theorem freeOf_pages {c : Nat} {e : MemoryMapEntry} (base : e.base = pageSize * c) :
    FreeOf e p ↔ e.signal = memoryMapFree ∧ c ≤ p ∧ p < c + pagesFor e.length := by
  simp only [FreeOf, Section.Holds, entrySection, base, pageSize]
  omega

/-- Where the table reaches the last entry, that begins behind the first megabyte. -/
theorem Reinterpreted.far (r : Reinterpreted limineMap modules h es) (wf : WellFormed limineMap)
    (reached : entrySize * limineMap.length % pageSize = 0 ∨
      entrySize * limineMap.length % pageSize = 4088)
    (mem : es[es.length - 1]? = some e) : megabyte < e.base := by
  have le := r.index_le wf mem
  have length := r.length
  have some := r.nonempty
  simp only [entrySize, pageSize, megabyte] at *
  omega

/-- The last entry is left as it is, or begins behind the first megabyte. -/
theorem Reinterpreted.unchanged_or_far (r : Reinterpreted limineMap modules h es)
    (wf : WellFormed limineMap) :
    (∀ e, overwritten limineMap.length (modules.map bootModule) e = e) ∨
      ∀ e, es[es.length - 1]? = some e → megabyte < e.base := by
  by_cases reached : entrySize * limineMap.length % pageSize = 0 ∨
      entrySize * limineMap.length % pageSize = 4088
  · exact Or.inr fun e mem => r.far wf reached mem
  · left
    intro e
    cases modules with
    | nil => rfl
    | cons m modules =>
      rw [List.map_cons, overwritten, if_neg fun zero => reached (Or.inl zero),
        if_neg fun rest => reached (Or.inr rest)]

/-- The last entry keeps its free pages when the table spares them. -/
theorem Reinterpreted.spares_iff (r : Reinterpreted limineMap modules h es)
    (wf : WellFormed limineMap) :
    SparesLast es (overwritten limineMap.length (modules.map bootModule)) ↔
      TableSpares limineMap modules := by
  rw [SparesLast]
  have pos := r.nonempty
  have length := r.length
  have mem : es[es.length - 1]? = some es[es.length - 1] := List.getElem?_eq_getElem (by omega)
  generalize es[es.length - 1] = e at mem
  obtain ⟨a, atEnd, usable, fin, base⟩ := r.of_entry mem
  have back : es.length - 1 + 1 = limineMap.length - 1 := by omega
  have same : limineMap.length - 2 = es.length - 1 := by omega
  rw [back] at atEnd fin
  rw [r.last, Nat.add_zero] at fin
  rw [← List.getLast?_eq_getElem?] at atEnd
  obtain ⟨⟨c, hc⟩, ⟨v, hv⟩⟩ := r.ordered.aligned e (List.mem_of_getElem? mem)
  have nonempty := r.ordered.nonempty e (List.mem_of_getElem? mem)
  have vpos : 0 < v := Nat.pos_of_ne_zero fun zero => by
    rw [zero, Nat.mul_zero] at hv
    omega
  simp only [mem, Option.some.injEq, forall_eq', TableSpares, atEnd, Option.mem_def, same]
  cases modules with
  | nil => simp [overwritten]
  | cons file modules =>
    simp only [List.map_cons, List.head?_cons, Option.some.injEq, forall_eq', overwritten]
    generalize hm : bootModule file = m
    have phys : m.phys = m.virt % 2 ^ 32 := by
      rw [← hm]
      rfl
    by_cases all : entrySize * limineMap.length % pageSize = 0
    · have high := r.far wf (Or.inl all) mem
      have whole : cutEntry e = copyEntry e := by rw [cutEntry, if_neg (by omega)]
      rw [whole]
      have two : ∀ p, (FreeOf ⟨(copyEntry e).base, m.virt, m.phys⟩ p ↔ FreeOf (copyEntry e) p) ↔
          ((m.phys = memoryMapFree ∧ c ≤ p ∧ p < c + pagesFor m.virt) ↔
            (e.type = memmapUsable ∧ c ≤ p ∧ p < c + v)) := by
        intro p
        rw [freeOf_pages hc, freeOf_pages hc]
        simp only [copyEntry, typeConvert_free, hv, Nat.mul_comm pageSize, pagesFor_mul]
      simp only [all, ↓reduceIte, two, true_implies]
      rw [runs_same (by simp only [megabyte, pageSize] at *; omega)]
      have words : e.base + e.length = a.base + a.length := fin
      have pages : m.phys = memoryMapFree → pagesFor m.virt * pageSize = m.virt := by
        intro zero
        have multiple : m.virt % pageSize = 0 := by
          rw [zero] at phys
          simp only [memoryMapFree, pageSize] at *
          omega
        rw [pagesFor, if_neg (not_not.mpr multiple), Nat.add_zero,
          Nat.div_mul_cancel (Nat.dvd_of_mod_eq_zero multiple)]
      simp only [usable, vpos, and_true]
      by_cases isUsable : a.Usable
      · by_cases isFree : m.phys = memoryMapFree
        · have whole := pages isFree
          simp only [isUsable, isFree, true_and, true_implies, not_true_eq_false, false_implies,
            and_true, iff_true]
          simp only [pageSize] at *
          omega
        · simp [isUsable, isFree]
      · by_cases isFree : m.phys = memoryMapFree
        · have whole := pages isFree
          simp only [isUsable, isFree, true_and, true_implies, not_false_eq_true, false_implies,
            implies_true, and_true, iff_false]
          simp only [pageSize] at *
          omega
        · simp [isUsable, isFree]
    · by_cases one : entrySize * limineMap.length % pageSize = 4088
      · have high := r.far wf (Or.inr one) mem
        have whole : cutEntry e = copyEntry e := by rw [cutEntry, if_neg (by omega)]
        rw [whole]
        have two : ∀ p, (FreeOf ⟨(copyEntry e).base, (copyEntry e).length, m.virt⟩ p ↔
            FreeOf (copyEntry e) p) ↔
            ((m.virt = memoryMapFree ∧ c ≤ p ∧ p < c + v) ↔
              (e.type = memmapUsable ∧ c ≤ p ∧ p < c + v)) := by
          intro p
          rw [freeOf_pages hc, freeOf_pages hc]
          simp only [copyEntry, typeConvert_free, hv, Nat.mul_comm pageSize, pagesFor_mul]
        have ne : ¬ (4088 : Nat) = 0 := by decide
        simp only [one, ne, ↓reduceIte, two]
        rw [runs_same (by simp only [megabyte, pageSize] at *; omega)]
        simp [vpos, usable]
      · simp [all, one]

/-! ### The hand-over -/

/-- A length that is changed is still a word. -/
theorem overwritten_length_lt {x : MemoryMapEntry} (lt : x.length < 2 ^ 64) :
    (overwritten limineMap.length (modules.map bootModule) x).length < 2 ^ 64 := by
  cases modules with
  | nil => exact lt
  | cons file modules =>
    rw [List.map_cons, overwritten]
    split_ifs
    · exact file.address.isLt
    · exact lt
    · exact lt

/-- An entry that is handed over, from the entry it was made of. -/
theorem Reinterpreted.of_handed (r : Reinterpreted limineMap modules h es)
    {x : MemoryMapEntry} (mem : x ∈ (es.map cutEntry).modify (es.length - 1)
      (overwritten limineMap.length (modules.map bootModule))) :
    ∃ e ∈ es, x.base = (cutEntry e).base ∧ x.length < 2 ^ 64 := by
  obtain ⟨j, at_⟩ := List.getElem?_of_mem mem
  rw [handed_getElem?] at at_
  obtain ⟨e, he, rfl⟩ := Option.map_eq_some_iff.mp at_
  have mem := List.mem_of_getElem? he
  have word := r.ordered.words e mem
  have bounds := @cutEntry_bounds e
  refine ⟨e, mem, ?_, ?_⟩
  · split_ifs
    · exact overwritten_base
    · rfl
  · split_ifs
    · exact overwritten_length_lt (by omega)
    · omega

/-- The entries that are handed over stand one behind the other. -/
theorem Reinterpreted.handed_apart (r : Reinterpreted limineMap modules h es) :
    ((es.map cutEntry).modify (es.length - 1)
      (overwritten limineMap.length (modules.map bootModule))).Pairwise fun d e =>
        d.signal = memoryMapFree → d.base + pagesFor d.length * pageSize ≤ e.base := by
  apply List.pairwise_iff_getElem.mpr
  intro i j hi hj lt _
  have len : j < es.length := by simpa using hj
  obtain ⟨d, hd⟩ : ∃ d, es[i]? = some d := ⟨_, List.getElem?_eq_getElem (by omega)⟩
  obtain ⟨e, he⟩ : ∃ e, es[j]? = some e := ⟨_, List.getElem?_eq_getElem len⟩
  have first := List.getElem?_eq_getElem hi
  rw [handed_getElem?, hd, Option.map_some, if_neg (by omega)] at first
  have second := List.getElem?_eq_getElem hj
  rw [handed_getElem?, he, Option.map_some] at second
  rw [← Option.some.inj first, ← Option.some.inj second]
  obtain ⟨k, hk⟩ := cutEntry_aligned (r.ordered.aligned d (List.mem_of_getElem? hd))
  have pages : pagesFor (cutEntry d).length * pageSize = (cutEntry d).length := by
    rw [hk, Nat.mul_comm pageSize, pagesFor_mul]
  have apart := List.pairwise_iff_getElem.mp r.ordered.apart i j (by omega) len lt
  rw [(List.getElem?_eq_some_iff.mp hd).2, (List.getElem?_eq_some_iff.mp he).2] at apart
  have ends := (@cutEntry_bounds d).2
  have begins := (@cutEntry_bounds e).1
  rw [pages]
  split_ifs
  · rw [overwritten_base]
    omega
  · omega

/-- Where the first free entry that holds the descriptors begins, if there is one: not at zero. -/
theorem Reinterpreted.bases (r : Reinterpreted limineMap modules h es) (wf : WellFormed limineMap) :
    ∀ x ∈ (es.map cutEntry).modify (es.length - 1)
      (overwritten limineMap.length (modules.map bootModule)), x.base ≠ 0 := by
  intro x mem
  obtain ⟨d, mem', base, -⟩ := r.of_handed mem
  obtain ⟨j, at_⟩ := List.getElem?_of_mem mem'
  have pos := r.index_le wf at_
  have le := (@cutEntry_bounds d).1
  simp only [pageSize] at pos
  omega

/-- What `pmm_start` lists, where it answers. -/
theorem Reinterpreted.handedOver_iff (r : Reinterpreted limineMap modules h es)
    (wf : WellFormed limineMap) {memory : Nat → Descriptor} {s : State}
    (answer : pmmBuild memory h.map = .ok s) :
    HandedOver limineMap h s ↔ ¬ MeetAtMegabyte limineMap ∧ TableSpares limineMap modules := by
  have bases := r.bases wf
  obtain ⟨e, place⟩ : ∃ e, metadataEntry h.map = some e := by
    rw [← Option.ne_none_iff_exists']
    intro none
    rw [pmmBuild_none none] at answer
    cases answer
  have started := metadataEntry_started r.map rfl bases place
  have words : ∀ x ∈ (es.map cutEntry).modify (es.length - 1)
      (overwritten limineMap.length (modules.map bootModule)),
      x.base < 2 ^ 64 ∧ x.length < 2 ^ 64 := by
    intro x mem
    obtain ⟨d, mem', base, length⟩ := r.of_handed mem
    have word := r.ordered.words d mem'
    have ends := (@cutEntry_bounds d).2
    exact ⟨by omega, length⟩
  have listed := (@pmmBuild_free memory h.map _ _ e r.map rfl place started words bases
    r.handed_apart).of_ok answer
  rw [r.meet_iff, ← r.spares_iff wf,
    ← r.showsUsable_iff (fun _ => overwritten_base) wf (r.unchanged_or_far wf)]
  apply forall_congr'
  intro p
  apply imp_congr_right
  intro high
  rw [listed p, r.covers p high]

/-- What is free after `limine_reinterpret` and `pmm_start` is what Limine calls usable, exactly
when the map handed over has room for the descriptors, no usable entry is hidden at the first
megabyte and the modules spare the last entry. -/
theorem handed_over_iff (wf : WellFormed limineMap)
    (found : limineReinterpret words limineMap modules = some h) (memory : Nat → Descriptor) :
    (∃ s, pmmBuild memory h.map = .ok s ∧ HandedOver limineMap h s) ↔
      ArrayFits memory (handedMap limineMap modules) ∧ ¬ MeetAtMegabyte limineMap ∧
        TableSpares limineMap modules := by
  obtain ⟨es, r⟩ := reinterpreted wf found
  rw [← r.handed, ← pmmBuild_ok_iff r.map rfl rfl (r.bases wf)]
  constructor
  · rintro ⟨s, answer, handed⟩
    exact ⟨⟨s, answer⟩, (r.handedOver_iff wf answer).mp handed⟩
  · rintro ⟨⟨s, answer⟩, spared⟩
    exact ⟨s, answer, (r.handedOver_iff wf answer).mpr spared⟩

end

/-- Reserved memory up to the first megabyte, and usable memory from there on. -/
def biosMap : List MemmapEntry :=
  [⟨0, 0x10000, memmapReserved⟩, ⟨0x10000, 0x70000, memmapUsable⟩,
    ⟨0x80000, 0x80000, memmapReserved⟩, ⟨0x100000, 0x4000000, memmapUsable⟩]

/-- What is handed over of it: two entries begin at the first megabyte. -/
def biosHanded : List MemoryMapEntry :=
  [⟨0, 0x100000, memoryMapNouse⟩, ⟨0x13000, 0, memoryMapNouse⟩, ⟨0x100000, 0, memoryMapBusy⟩,
    ⟨0x100000, 0x4000000, memoryMapFree⟩]

/-- What is handed over. -/
theorem biosMap_reinterpreted : ∃ h, limineReinterpret (fun _ => 0) biosMap [] = some h ∧
    h.map = biosHanded ∧ h.memoryMap = 0x10000 := by
  refine ⟨_, rfl, ?_, rfl⟩
  decide

/-- The memory behind the first megabyte is lost. -/
theorem bios_not_handed_over : ∃ h s, limineReinterpret (fun _ => 0) biosMap [] = some h ∧
    pmmBuild (fun _ => ⟨none, none, .zero⟩) h.map = .ok s ∧ ¬ HandedOver biosMap h s := by
  obtain ⟨h, run, map, area⟩ := biosMap_reinterpreted
  -- the map stays a name, so that nothing runs on it by itself
  have cons : h.map = ⟨0, 0x100000, memoryMapNouse⟩ :: biosHanded.tail := map
  have place : metadataEntry h.map = some ⟨0x100000, 0x4000000, memoryMapFree⟩ := by
    rw [map]
    decide
  have data : dataSizeFor (exploreMap h.map) = 0x100000 := by
    rw [map]
    decide
  have size : dataSizeFor (exploreMap h.map) ≠ 0 := by
    rw [data]
    decide
  have room : 1 + (built firstSection biosHanded.tail).length ≤
      slotsOf (fun _ => ⟨none, none, .zero⟩) h.map := by
    have len : (built firstSection biosHanded.tail).length = 4 := by decide
    have slots := @slotsOf_megabyte (fun _ => ⟨none, none, .zero⟩) h.map data
    omega
  obtain ⟨s, build⟩ := pmmBuild_answers cons rfl place (by decide) size room
  have words : ∀ e ∈ biosHanded.tail, e.base < 2 ^ 64 ∧ e.length < 2 ^ 64 := by decide
  have bases : ∀ e ∈ biosHanded.tail, e.base ≠ 0 := by decide
  have apart : biosHanded.tail.Pairwise fun d e => d.signal = memoryMapFree →
      d.base + pagesFor d.length * pageSize ≤ e.base := by decide
  have free := (pmmBuild_free cons rfl place (by decide) words bases apart).of_ok build
  refine ⟨h, s, run, build, ?_⟩
  intro handed
  have listed : ListedFree s 256 := by
    apply (handed 256 (by decide)).mpr
    refine ⟨⟨⟨0x100000, 0x4000000, memmapUsable⟩, by simp [biosMap], ⟨rfl, by decide⟩, ?_⟩, ?_⟩
    · exact ⟨by decide, by decide⟩
    · rw [area]
      decide
  have none : kept 0 biosHanded.tail =
      [⟨0x13000, 0, memoryMapNouse⟩, ⟨0x100000, 0, memoryMapBusy⟩] := by decide
  obtain ⟨e, mem, signal, -⟩ := (free 256).mp listed
  rw [none] at mem
  rcases List.mem_cons.mp mem with rfl | mem
  · cases signal
  · obtain rfl := List.mem_singleton.mp mem
    cases signal

/-- The reserved memory ends earlier. -/
def shortMap : List MemmapEntry :=
  [⟨0, 0x10000, memmapReserved⟩, ⟨0x10000, 0x70000, memmapUsable⟩,
    ⟨0x80000, 0x70000, memmapReserved⟩, ⟨0x100000, 0x4000000, memmapUsable⟩]

/-- It is a map of Limine. -/
theorem shortMap_wellFormed : WellFormed shortMap where
  first := ⟨_, rfl, by decide⟩
  sorted := by decide
  disjoint := by decide
  aligned := by decide
  nonempty := by decide
  words := by decide

/-- What is handed over of it. -/
def shortHanded : List MemoryMapEntry :=
  [⟨0, 0x100000, memoryMapNouse⟩, ⟨0x13000, 0, memoryMapNouse⟩, ⟨0x80000, 0, memoryMapNouse⟩,
    ⟨0x100000, 0x4000000, memoryMapFree⟩]

/-- It has room for the descriptors. -/
theorem shortHanded_fits : ArrayFits (fun _ => ⟨none, none, .zero⟩) shortHanded where
  place := ⟨⟨0x100000, 0x4000000, memoryMapFree⟩, by decide, rfl, by decide⟩
  slots := by
    have room := @slotsOf_megabyte (fun _ => ⟨none, none, .zero⟩) shortHanded (by decide)
    have few : (built firstSection shortHanded.tail).length ≤ 6 := by decide
    omega

/-- No entries meet at the first megabyte. -/
theorem shortMap_apart : ¬ MeetAtMegabyte shortMap := by
  rintro ⟨i, d, e, pos, hd, he, usable, fin, -⟩
  have lt : i + 1 < 4 := (List.getElem?_eq_some_iff.mp he).1
  obtain rfl | rfl : i = 1 ∨ i = 2 := by omega
  · cases he
    exact absurd usable.1 (by decide)
  · cases hd
    exact absurd fin (by decide)

/-- So nothing is lost. -/
theorem handed_over_shortMap : ∃ h, limineReinterpret (fun _ => 0) shortMap [] = some h ∧
    ∃ s, pmmBuild (fun _ => ⟨none, none, .zero⟩) h.map = .ok s ∧ HandedOver shortMap h s :=
  ⟨_, rfl, (handed_over_iff shortMap_wellFormed rfl _).mpr
    ⟨shortHanded_fits, shortMap_apart, by rintro m ⟨⟩⟩⟩

end Skylight.Limine
