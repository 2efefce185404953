import Skylight.Laws.Pmm.Client
import Skylight.Laws.Pmm.Room

/-!
# A machine to run on

Machines with free memory behind a page in use, and their manager followed through `pmm_start` and
through allocations: the used section before the free one takes page after page, so the list keeps
its sections and no slot is ever asked for. The runs that show what the manager does on a real input
start here, most of them on the machine with 64 megabytes and a bad page behind them.
-/

namespace Skylight.Pmm

open Chain RunLength

/-! ## Machines of any size -/

/-- The sections of a machine with `n` pages behind its first megabyte, `i` of them used. -/
def growing (n i : Nat) : List Section :=
  [firstSection, ⟨0x100000, i, .used⟩, ⟨(256 + i) * pageSize, n - i, .free⟩]

/-- The machine with `i` used pages and `tail` behind the free ones. -/
def GrownTo (tail : List Section) (n i : Nat) (s : State) : Prop :=
  s.allowing = true ∧ ∃ l, Represents s l ∧ data l = growing n i ++ tail

/-- A list in which neighbours have different kinds stays as it is. -/
theorem joinStable_alternate {l : List Section} (alt : KindsAlternate l) : JoinStable (· = l) := by
  intro m u v n eq whole
  have alt' : KindsAlternate (m ++ u :: v :: n) := whole ▸ alt
  simp only [KindsAlternate, List.map_append, List.map_cons, List.isChain_append_cons_cons] at alt'
  exact absurd eq alt'.2.1

section
variable {memory : Nat → Descriptor} {map : List MemoryMapEntry}

/-- `pmm_start` up to the locking, on a map whose neighbours have different kinds. -/
theorem pmmBuild_alternate {d e : MemoryMapEntry} {es : List MemoryMapEntry} (hmap : map = d :: es)
    (first : d.base = 0) (place : metadataEntry map = some e) (started : e.base ≠ 0)
    (size : dataSizeFor (exploreMap map) = 0x100000)
    (short : (built firstSection es).length < 26214)
    (alt : KindsAlternate (firstSection :: built firstSection es)) :
    ∃ s l, pmmBuild memory map = .ok s ∧ Represents s l ∧
      data l = firstSection :: built firstSection es ∧ s.allowing = true ∧ s.pmmSections = e.base ∧
      s.dataSize = 0x100000 ∧ s.freeMemory = freeWords (data l) 0 := by
  have some : dataSizeFor (exploreMap map) ≠ 0 := by
    rw [size]
    decide
  have slots := @slotsOf_megabyte memory map size
  obtain ⟨s₁, l₁, run, same, h₁, hl⟩ := (@firstLoop_room memory map e.base started some es).1
    (by omega)
  obtain ⟨s, l, run', hr, shows, -, hopen, hplace, hsize, -, hcount⟩ :=
    afterLoop (joinStable_alternate alt) same h₁ (by rw [data_cons, hl])
  refine ⟨s, l, ?_, hr, shows, hopen, hplace, hsize.trans size, hcount⟩
  rw [@pmmBuild_eq memory map _ _ es hmap place started first, run]
  exact run'

end

section
variable {n i : Nat} {s : State} {e tail : List Section}

/-- The list of such a machine is a layout. -/
theorem growing_layout (pos : 0 < i) (lt : i < n) (small : n < 2 ^ 20) :
    Layout (growing n i ++ [⟨(256 + n) * pageSize, 1, .bad⟩]) := by
  refine ⟨⟨rfl, ?_, ?_, ?_, trivial⟩, ?_, ?_, ⟨firstSection, _, rfl, rfl⟩,
    ⟨⟨(256 + n) * pageSize, 1, .bad⟩, growing n i, rfl, rfl⟩, ?_⟩
  · simp [firstSection, megabyte, pageSize]
  · simp only [firstSection, megabyte, pageSize]
    omega
  · simp only [firstSection, megabyte, pageSize]
    omega
  · simp only [growing, firstSection, pageSize, List.cons_append, List.nil_append, List.mem_cons,
      List.not_mem_nil, or_false, forall_eq_or_imp, forall_eq]
    omega
  · simp only [growing, firstSection, megabyte, pageSize, List.cons_append, List.nil_append,
      pagesOf_cons, pagesOf_nil]
    omega
  · simp only [growing, firstSection, megabyte, pageSize, List.cons_append, List.nil_append,
      List.mem_cons, List.not_mem_nil, or_false, forall_eq_or_imp, forall_eq]
    omega

/-- Its free sections stand apart. -/
theorem growing_apart : FreeApart (growing n i ++ [⟨(256 + n) * pageSize, 1, .bad⟩]) := by
  simp [FreeApart, growing, firstSection]

/-- The slots of a list shaped like the machine's. -/
theorem data_growing {l : List (Nat × Section)} (h : data l = growing n i ++ tail) :
    ∃ a b c m, l = (a, firstSection) :: (b, ⟨0x100000, i, .used⟩) ::
      (c, ⟨(256 + i) * pageSize, n - i, .free⟩) :: m ∧ data m = tail := by
  obtain ⟨⟨a, _⟩, l₁, rfl, rfl, h₁⟩ := List.map_eq_cons_iff.mp h
  obtain ⟨⟨b, _⟩, l₂, rfl, rfl, h₂⟩ := List.map_eq_cons_iff.mp h₁
  obtain ⟨⟨c, _⟩, m, rfl, rfl, h₃⟩ := List.map_eq_cons_iff.mp h₂
  exact ⟨a, b, c, m, rfl, h₃⟩

/-- The edit by which the used section takes a page. -/
def growBy (s : State) (n i b c : Nat) : State :=
  (s.setVal b ⟨0x100000, Word.add i 1, .used⟩).setVal c
    ⟨Word.add ((256 + i) * pageSize) pageSize, Word.sub (n - i) 1, .free⟩

/-- The used section takes the first free page. -/
theorem grown_next {a b c : Nat} {m : List (Nat × Section)} (lt : i < n) (small : n < 2 ^ 20)
    (h : Represents s ((a, firstSection) :: (b, ⟨0x100000, i, .used⟩) ::
      (c, ⟨(256 + i) * pageSize, n - i, .free⟩) :: m)) :
    ∃ l, Represents (growBy s n i b c) l ∧ data l = growing n (i + 1) ++ data m := by
  have hi : Word.add i 1 = i + 1 := Word.add_eq (by omega)
  have hj : Word.sub (n - i) 1 = n - (i + 1) := by
    rw [Word.sub_eq (by omega) (by omega)]
    omega
  have hs : Word.add ((256 + i) * pageSize) pageSize = (256 + (i + 1)) * pageSize := by
    rw [Word.add_eq (by simp only [pageSize]; omega)]
    simp only [pageSize]
    omega
  rw [growBy, hi, hj, hs]
  refine ⟨_, @Represents.setVal₂ s [(a, firstSection)] m b c _ _ (by simpa using h) _ _, ?_⟩
  simp [growing]

/-- Locking the first free page. -/
theorem GrownTo.lock (h : GrownTo tail n i s) (end_ : tail ++ e = [⟨(256 + n) * pageSize, 1, .bad⟩])
    (pos : 0 < i) (lt : i + 1 < n) (small : n < 2 ^ 20) :
    ∃ s', pmmLockPage s ((256 + i) * pageSize) = .ok s' ∧ GrownTo tail n (i + 1) s' ∧
      SameGlobals s s' := by
  obtain ⟨open_, l, hr, hl⟩ := h
  obtain ⟨a, b, c, m, rfl, hm⟩ := data_growing hl
  have len := hr.length_le
  simp only [List.length_cons] at len
  have shape : data [(a, firstSection), (b, ⟨0x100000, i, .used⟩)] ++
      ⟨(256 + i) * pageSize, n - i, .free⟩ :: (data m ++ e) =
        growing n i ++ [⟨(256 + n) * pageSize, 1, .bad⟩] := by
    rw [hm, end_]
    rfl
  have lay : Layout (data [(a, firstSection), (b, ⟨0x100000, i, .used⟩)] ++
      ⟨(256 + i) * pageSize, n - i, .free⟩ :: (data m ++ e)) :=
    shape ▸ growing_layout pos (by omega) small
  have hr₂ : Represents s ([(a, firstSection), (b, ⟨0x100000, i, .used⟩)] ++
      (c, ⟨(256 + i) * pageSize, n - i, .free⟩) :: m) := hr
  have lo : pagesOf (data [(a, firstSection), (b, ⟨0x100000, i, .used⟩)]) ≤ 256 + i := by
    simp [firstSection, megabyte, pageSize]
  have clear := clear_of_freeApart lay (shape ▸ growing_apart) rfl lo
  have reach := PassesIdle.reach (lockPageLoop_passesIdle ((256 + i) * pageSize)) hr₂
    (lay.idle_stretch lo clear) (show 2 ≤ s.fuel by simp only [State.fuel]; omega)
  obtain ⟨f, hf⟩ : ∃ f, s.fuel - 2 = f + 1 := ⟨s.capacity - 1, by simp only [State.fuel]; omega⟩
  have grow := @lockPageLoop_grow s [(a, firstSection)] b c ⟨0x100000, i, .used⟩
    ⟨(256 + i) * pageSize, n - i, .free⟩ m f hr rfl rfl (by simp only; omega)
  obtain ⟨l', hr', hl'⟩ := grown_next (by omega) small hr
  refine ⟨growBy s n i b c, ?_, ⟨open_, l', hr', hm ▸ hl'⟩, ⟨rfl, rfl, rfl, rfl, rfl⟩⟩
  rw [pmmLockPage, if_neg (by simp [open_]), hr.first_eq]
  exact reach.trans (by rw [List.length_cons, List.length_cons, List.length_nil, hf]; exact grow)

/-- Allocating a page. -/
theorem GrownTo.alloc (h : GrownTo tail n i s) (pos : 0 < i) (lt : i < n) (small : n < 2 ^ 20) :
    ∃ s', pmmAllocPage s = .ok ((256 + i) * pageSize, s') ∧ GrownTo tail n (i + 1) s' ∧
      s'.pools = s.pools := by
  obtain ⟨open_, l, hr, hl⟩ := h
  obtain ⟨a, b, c, m, rfl, hm⟩ := data_growing hl
  have len := hr.length_le
  simp only [List.length_cons] at len
  obtain ⟨f, hf⟩ : ∃ f, s.fuel = f + 3 := ⟨s.capacity - 1, by simp only [State.fuel]; omega⟩
  have ha : s.sec a = firstSection := @Represents.sec_eq s [] _ a _ hr
  have hb : s.sec b = ⟨0x100000, i, .used⟩ := @Represents.sec_eq s [(a, _)] _ b _ hr
  have hc : s.sec c = ⟨(256 + i) * pageSize, n - i, .free⟩ :=
    @Represents.sec_eq s [(a, _), (b, _)] _ c _ hr
  have hab : (s.sections a).next = some b := @Represents.next_eq s [] _ a _ hr
  have hbc : (s.sections b).next = some c := @Represents.next_eq s [(a, _)] _ b _ hr
  have hcb : (s.sections c).prev = some b := @Represents.prev_eq s [(a, _), (b, _)] _ c _ hr
  have ne : (256 + i) * pageSize ≠ 0 := by simp only [pageSize]; omega
  have some_pages : n - i ≠ 0 := by omega
  have walk : allocPageLoop (f + 3) s (some a) = .ok ((256 + i) * pageSize, growBy s n i b c) := by
    rw [allocPageLoop, ha, if_neg (by simp [firstSection, megabyte, pageSize]),
      if_neg (by simp [firstSection]), hab, allocPageLoop, hb, if_neg (by simp only; omega),
      if_neg (by simp), hbc, allocPageLoop, hc, if_neg some_pages, if_pos rfl, hcb]
    simp only [deref_some, ok_bind, hb, ↓reduceIte, pure_eq_ok, growBy]
  obtain ⟨l', hr', hl'⟩ := grown_next lt small hr
  refine ⟨{ growBy s n i b c with freeMemory := Word.sub s.freeMemory pageSize }, ?_,
    ⟨open_, l', hr'.congr rfl rfl rfl, hm ▸ hl'⟩, rfl⟩
  unfold pmmAllocPage
  simp only [open_, not_true_eq_false, ↓reduceIte, hr.first_eq, headOr_cons, hf, walk, ok_bind,
    ne, ne_eq, not_false_eq_true, pure_eq_ok]
  rfl

/-- Locking the first `k` free pages, the first `j` of them done. -/
theorem GrownTo.lockPages {k : Nat} (end_ : tail ++ e = [⟨(256 + n) * pageSize, 1, .bad⟩])
    (small : n < 2 ^ 20) : ∀ {j : Nat} {s : State}, GrownTo tail n (1 + j) s → 1 + j + k < n →
      ∃ s', eachPage pmmLockPage (257 * pageSize) k j s = .ok s' ∧
        GrownTo tail n (1 + j + k) s' ∧ SameGlobals s s' := by
  induction k with
  | zero => exact fun {j s} h _ => ⟨s, rfl, h, .refl s⟩
  | succ k ih =>
    intro j s h lt
    obtain ⟨s₁, run₁, h₁, same₁⟩ := h.lock end_ (by omega) (by omega) small
    obtain ⟨s₂, run₂, h₂, same₂⟩ := @ih (j + 1) s₁ (by rwa [← Nat.add_assoc]) (by omega)
    refine ⟨s₂, ?_, ?_, same₁.trans same₂⟩
    · have hmul : j * pageSize < 2 ^ 64 := by simp only [pageSize]; omega
      have hadd : 257 * pageSize + j * pageSize < 2 ^ 64 := by simp only [pageSize]; omega
      have page : 257 * pageSize + j * pageSize = (256 + (1 + j)) * pageSize := by
        simp only [pageSize]; omega
      rw [eachPage, Word.mul_eq hmul, Word.add_eq hadd, page, run₁, ok_bind, run₂]
    · rwa [show 1 + j + (k + 1) = 1 + (j + 1) + k by omega]

/-- The end of `pmm_start`: its own 256 pages become used. -/
theorem GrownTo.start {memory : Nat → Descriptor} {map : List MemoryMapEntry}
    (h : GrownTo tail n 1 s) (build : pmmBuild memory map = .ok s)
    (end_ : tail ++ e = [⟨(256 + n) * pageSize, 1, .bad⟩]) (room : 257 < n) (small : n < 2 ^ 20)
    (place : s.pmmSections = 257 * pageSize) (size : s.dataSize = 0x100000) :
    ∃ s', pmmStart memory map = .ok s' ∧ GrownTo tail n 257 s' ∧ SameGlobals s s' := by
  obtain ⟨s', run, h', same⟩ := @GrownTo.lockPages n e tail 256 end_ small 0 s h (by omega)
  refine ⟨s', ?_, h', same⟩
  have count : pagesFor s.dataSize = 256 := by
    rw [size]
    decide
  rw [pmmStart, build, ok_bind, place, count, pmmLockPages, if_neg (by simp [h.1])]
  exact run

end

/-! ## The machine with 64 megabytes -/

/-- The memory map of the machine. -/
def machineMap : List MemoryMapEntry :=
  [⟨0, 0x100000, memoryMapNouse⟩, ⟨0x100000, 0x1000, memoryMapBusy⟩,
    ⟨0x101000, 0x4000000, memoryMapFree⟩, ⟨0x4101000, 0x1000, memoryMapNouse⟩]

/-- The contents of the memory the descriptors are placed in. -/
def machineMemory : Nat → Descriptor := fun _ => ⟨none, none, .zero⟩

/-- The sections of the machine when the used one has `i` pages. -/
def machineList (i : Nat) : List Section :=
  [firstSection, ⟨0x100000, i, .used⟩, ⟨(256 + i) * pageSize, 16385 - i, .free⟩,
    ⟨0x4101000, 1, .bad⟩]

/-- The machine with `i` used pages. -/
def MachineAt (i : Nat) (s : State) : Prop :=
  s.allowing = true ∧ ∃ l, Represents s l ∧ data l = machineList i

/-- The map is one that `pmm_start` is written for. -/
theorem machineMap_valid : ValidMap machineMap where
  words := by decide
  first := rfl
  bases := by decide
  lengths := by decide
  sorted := by decide
  disjoint := by decide
  last := ⟨_, rfl, Or.inr rfl⟩

/-- The descriptors are put behind the first megabyte. -/
theorem machineMap_metadata :
    metadataEntry machineMap = some ⟨0x101000, 0x4000000, memoryMapFree⟩ := by decide

/-- They take a megabyte. -/
theorem machineMap_size : dataSizeFor (exploreMap machineMap) = 0x100000 := by decide

/-- The sections that are built of it. -/
theorem machineMap_built : firstSection :: built firstSection machineMap.tail = machineList 1 := by
  decide

/-- `pmm_start` on the machine, before it locks its pages. -/
theorem machine_build : ∃ s, pmmBuild machineMemory machineMap = .ok s ∧ MachineAt 1 s ∧
    s.pmmSections = 0x101000 ∧ s.dataSize = 0x100000 ∧ s.freeMemory = 0x4000000 := by
  obtain ⟨s, l, run, hr, shows, hopen, hplace, hsize, hcount⟩ :=
    @pmmBuild_alternate machineMemory machineMap _ _ machineMap.tail rfl rfl machineMap_metadata
      (by decide) machineMap_size (by decide)
      (by rw [machineMap_built]; simp [KindsAlternate, machineList, firstSection])
  refine ⟨s, run, ⟨hopen, l, hr, shows.trans machineMap_built⟩, hplace, hsize, ?_⟩
  rw [hcount, shows]
  decide

/-- The slots of a list shaped like the machine's. -/
theorem data_four {l : List (Nat × Section)} {x u v y : Section} (h : data l = [x, u, v, y]) :
    ∃ a b c d, l = [(a, x), (b, u), (c, v), (d, y)] := by
  obtain ⟨⟨a, _⟩, l₁, rfl, rfl, h₁⟩ := List.map_eq_cons_iff.mp h
  obtain ⟨⟨b, _⟩, l₂, rfl, rfl, h₂⟩ := List.map_eq_cons_iff.mp h₁
  obtain ⟨⟨c, _⟩, l₃, rfl, rfl, h₃⟩ := List.map_eq_cons_iff.mp h₂
  obtain ⟨⟨d, _⟩, l₄, rfl, rfl, h₄⟩ := List.map_eq_cons_iff.mp h₃
  obtain rfl := List.map_eq_nil_iff.mp h₄
  exact ⟨a, b, c, d, rfl⟩

section
variable {i : Nat} {s : State}

/-- The list of the machine is a layout. -/
theorem machine_layout (pos : 0 < i) (lt : i < 16385) : Layout (machineList i) :=
  growing_layout pos lt (by norm_num)

/-- Allocating a page. -/
theorem machine_alloc (h : MachineAt i s) (pos : 0 < i) (lt : i < 16385) :
    ∃ s', pmmAllocPage s = .ok ((256 + i) * pageSize, s') ∧ MachineAt (i + 1) s' ∧
      s'.pools = s.pools :=
  GrownTo.alloc h pos lt (by norm_num)

/-- Locking the first free page. -/
theorem machine_lock (h : MachineAt i s) (pos : 0 < i) (lt : i < 16384) :
    ∃ s', pmmLockPage s ((256 + i) * pageSize) = .ok s' ∧ MachineAt (i + 1) s' ∧
      SameGlobals s s' :=
  @GrownTo.lock _ _ _ [] _ h rfl pos (by omega) (by norm_num)

end

/-- `pmm_start` on the machine: it answers, and its own 256 pages are used. -/
theorem machine_start : ∃ s, pmmStart machineMemory machineMap = .ok s ∧ MachineAt 257 s ∧
    s.pmmSections = 0x101000 ∧ s.dataSize = 0x100000 ∧ s.freeMemory = 0x4000000 := by
  obtain ⟨s₁, run₁, h₁, hplace, hsize, hcount⟩ := machine_build
  obtain ⟨s₂, run₂, h₂, same⟩ := @GrownTo.start 16385 s₁ [] _ _ _ h₁ run₁ rfl (by norm_num)
    (by norm_num) hplace hsize
  exact ⟨s₂, run₂, h₂, same.pmmSections.trans hplace, same.dataSize.trans hsize,
    same.freeMemory.trans hcount⟩

end Skylight.Pmm
