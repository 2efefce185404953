import Skylight.Laws.Pmm.Client
import Skylight.Laws.Pmm.Machine

/-!
# The null links

The link of the first section before it is null, and so is that of the last section behind it. The
first section is bad and never chosen. The last one may be free or used, and then three calls can
follow its link: an allocation that comes to it when it is empty, a pool that takes all of it, and
the freeing of a page behind its first, or of its only one.

`no_null_neighbour` is about runs: a client that keeps to live pages, on a map whose last entry
may be of any kind, follows no null link as long as each of its calls is `Clear`. The condition
is asked of the state before a call. `lastFree_null` is the run that goes wrong. The last entry
is taken to end at an address: physical addresses of the machine have fewer bits than a word.
-/

namespace Skylight.Pmm

open Chain RunLength

/-- A call on live pages: the page that is freed is in use. -/
def Client.Live (c : Client) : Op → Prop
  | .freePage p => ∃ k l, p = k * pageSize ∧ Represents c.mem l ∧ typeAt (data l) k = some .used
  | _ => True

/-- No part of a call comes to the link of the last section. -/
def Clear (s : State) : Op → Prop
  | .allocPage => ∀ l, Represents s l → Spares (data l)
  | .allocPool n m => SparesAll m.pages s ∧
      (0 < n → ∀ ps s' l, mallocPages m.pages s = .ok (ps, s') → Represents s' l →
        FitsAhead n (data l))
  | .freePage p => ∀ l, Represents s l → looksBehind (data l) (p / pageSize) = false

/-- A call on live pages that does not. -/
def Client.ClearStep (c c' : Client) : Prop :=
  ∃ op, c.Live op ∧ Clear c.mem op ∧ c.step op = .ok c'

/-- The descriptors have something ahead: a page that is not free, or, if they begin where the free
pages do, any page. -/
def StartsClear (map : List MemoryMapEntry) : Prop :=
  ∃ e, metadataEntry map = some e ∧ Ahead (endPage 0 map) (fun p => some (kindIn map p))
    (e.base / pageSize) (pagesFor (dataSizeFor (exploreMap map)))

/-- Different pages, all of them used. -/
def Held (f : PageMap) (pages : List Nat) : Prop :=
  pages.Nodup ∧ ∀ p ∈ pages, ∃ k, p = k * pageSize ∧ f k = some .used

/-- The manager is in order before `e`, and what the client has is used. -/
def Client.Holds (e : List Section) (total : Nat) (c : Client) : Prop :=
  ∃ f, Governs e total c.mem f ∧ Held f c.pages

section
variable {e : List Section} {total k n : Nat} {f g : PageMap} {pages : List Nat} {c c' : Client}
  {op : Op}

/-! ### What is held -/

/-- Pages that were used stay so. -/
theorem Takes.held (takes : Takes f k n g) (held : Held f pages) : Held g pages := by
  refine ⟨held.1, fun p mem => ?_⟩
  obtain ⟨j, same, used⟩ := held.2 p mem
  obtain ⟨-, free, rfl⟩ := takes
  refine ⟨j, same, ?_⟩
  by_cases inside : k ≤ j ∧ j < k + n
  · exact fill_inside inside.1 inside.2
  · rwa [fill_outside inside]

/-- A page that is taken is held with the others. -/
theorem Takes.held_cons (takes : Takes f k 1 g) (held : Held f pages) :
    Held g (k * pageSize :: pages) := by
  obtain ⟨nodup, used⟩ := takes.held held
  have fresh : k * pageSize ∉ pages := by
    intro mem
    obtain ⟨j, same, before⟩ := held.2 _ mem
    have here := takes.2.1 0 Nat.one_pos
    rw [Nat.add_zero, Nat.eq_of_mul_eq_mul_right (by simp [pageSize]) same, before] at here
    cases here
  refine ⟨List.nodup_cons.mpr ⟨fresh, nodup⟩, List.forall_mem_cons.mpr ⟨⟨k, rfl, ?_⟩, used⟩⟩
  obtain ⟨-, -, rfl⟩ := takes
  exact fill_inside (Nat.le_refl k) (Nat.lt_succ_self k)

/-- Pages taken one after another are held with the others. -/
theorem TakesEach.held {ps : List Nat} : ∀ {f g : PageMap} {pages : List Nat},
    TakesEach f ps g → Held f pages → Held g (ps.filter (· ≠ 0) ++ pages) := by
  induction ps with
  | nil =>
    rintro f g pages rfl held
    exact held
  | cons p ps ih =>
    intro f g pages each held
    unfold TakesEach at each
    by_cases zero : p = 0
    · rw [if_pos zero] at each
      rw [zero]
      exact ih each held
    · rw [if_neg zero] at each
      obtain ⟨k, f', rfl, takes, rest⟩ := each
      have all := ih rest (takes.held_cons held)
      have perm : (ps.filter (· ≠ 0) ++ k * pageSize :: pages).Perm
          ((k * pageSize :: ps).filter (· ≠ 0) ++ pages) := by
        rw [List.filter_cons_of_pos (by simpa using zero)]
        exact List.perm_middle
      exact ⟨perm.nodup_iff.mp all.1, fun q mem => all.2 q (perm.mem_iff.mpr mem)⟩

/-- A page that is given back is held no more, and the others stay used. -/
theorem Held.erase (held : Held f pages) (p : Nat) : Held f (pages.erase p) :=
  ⟨held.1.erase p, fun q mem => held.2 q (List.mem_of_mem_erase mem)⟩

/-- A page that becomes free is taken from the record. -/
theorem Held.give (held : Held f pages) :
    Held (Function.update f k (some .free)) (pages.erase (k * pageSize)) := by
  refine ⟨held.1.erase _, fun q mem => ?_⟩
  rw [held.1.mem_erase_iff] at mem
  obtain ⟨j, same, used⟩ := held.2 q mem.2
  refine ⟨j, same, ?_⟩
  rwa [Function.update_of_ne]
  rintro rfl
  exact mem.1 same

/-! ### Calls and runs -/

/-- A page of a kind that lies nowhere beyond the list is a page of the list. -/
theorem page_within {l : List (Nat × Section)} {j : Nat} {t : SectionType}
    (other : ∀ w ∈ e, w.free ≠ t) (here : typeAt (data l ++ e) j = some t) :
    j < pagesOf (data l) := by
  obtain ⟨l₁, a, v, l₂, rfl, -, -, hi⟩ := exists_section_within other here
  rw [data_append, data_cons, pagesOf_append, pagesOf_cons]
  exact Nat.lt_of_lt_of_le hi (Nat.add_le_add_left (Nat.le_add_right _ _) _)

/-- The list shows the pages in use. -/
theorem Governs.used {s : State} {j : Nat} (h : Governs e total s f) {l : List (Nat × Section)}
    (hr : Represents s l) (used : typeAt (data l) j = some .used) : f j = some .used := by
  obtain ⟨l', hr', -, -, -, rfl⟩ := h.list
  obtain rfl := hr.unique hr'
  have inside := @page_within [] l j .used (by simp) (by simpa using used)
  rwa [typeAt_append inside]

/-- What the client holds is in use. -/
theorem Client.Holds.live (h : c.Holds e total) (bad : ∀ w ∈ e, w.free = .bad) :
    ∀ p ∈ c.pages, c.Live (.freePage p) := by
  intro p mem
  obtain ⟨f, governs, held⟩ := h
  obtain ⟨j, same, used⟩ := held.2 p mem
  obtain ⟨l, hr, -, -, -, rfl⟩ := governs.list
  have inside := page_within (fun w mem => by simp [bad w mem]) used
  exact ⟨j, l, same, hr, typeAt_append inside ▸ used⟩

/-- A call on live pages that stays clear of the last link follows no null link. -/
theorem Client.Holds.step (h : c.Holds e total) (bad : ∀ w ∈ e, w.free = .bad)
    (live : c.Live op) (clear : Clear c.mem op) :
    Yields OutOfSections (fun c' => c'.Holds e total) (c.step op) := by
  have notFree : ∀ w ∈ e, w.free ≠ .free := fun w mem => by
    rw [bad w mem]
    simp
  have notUsed : ∀ w ∈ e, w.free ≠ .used := fun w mem => by
    rw [bad w mem]
    simp
  obtain ⟨f, governs, held⟩ := h
  cases op with
  | allocPage =>
    have page := (governs.allocPage notFree clear).weaken fun _ out => out.1
    apply page.bind
    rintro ⟨p, s⟩ ans
    rcases ans with ⟨none, after, -⟩ | ⟨k, g, rfl, takes, after⟩
    · refine ⟨f, after, ?_⟩
      dsimp only at none ⊢
      rwa [if_pos none]
    · have some : k * pageSize ≠ 0 := Nat.mul_ne_zero (Nat.ne_of_gt takes.1) (by simp [pageSize])
      refine ⟨g, after, ?_⟩
      dsimp only
      rw [if_neg some]
      exact takes.held_cons held
  | allocPool n m =>
    apply (governs.scanPool notFree n m clear.1 clear.2).bind
    rintro ⟨base, taken, s⟩ ⟨f', each, ⟨-, after, -⟩ | ⟨k, g, -, takes, after⟩⟩
    · exact ⟨f', after, each.held held⟩
    · exact ⟨g, after, takes.held (each.held held)⟩
  | freePage p =>
    obtain ⟨k, l₀, rfl, hr₀, used⟩ := live
    have here := governs.used hr₀ used
    have before : ∀ l, Represents c.mem l → looksBehind (data l) k = false := by
      intro l hr
      have no := clear l hr
      rwa [Nat.mul_div_cancel _ (by simp [pageSize])] at no
    refine (governs.freePage notUsed here before).bind fun s ans => ?_
    rcases ans with after | after
    · exact ⟨f, after, held.erase _⟩
    · exact ⟨_, after, held.give⟩

/-- Nor does a run of such calls. -/
theorem Client.Holds.run (h : c.Holds e total) (bad : ∀ w ∈ e, w.free = .bad)
    (run : Relation.ReflTransGen Client.ClearStep c c') : c'.Holds e total := by
  induction run with
  | refl => exact h
  | tail _ step ih =>
    obtain ⟨op, live, clear, call⟩ := step
    exact (ih.step bad live clear).of_ok call

end

/-! ### From `pmm_start` on -/

section
variable {memory : Nat → Descriptor} {map : List MemoryMapEntry} {s₀ : State}

/-- `pmm_start` leaves a manager in order. -/
theorem pmmStart_governs (valid : FirmwareMap map) (clear : StartsClear map) :
    Yields OutOfSections (fun s => ∃ f, Governs (beyond map) (endPage 0 map) s f)
      (pmmStart memory map) := by
  obtain ⟨e, place, ahead⟩ := clear
  unfold pmmStart
  refine (pmmBuild_within valid place).bind fun s ⟨l, h⟩ => ?_
  rw [← h.size] at ahead
  refine (h.locks valid place ahead).imp fun s' ⟨same, l', hr, lay, apart, types⟩ => ?_
  have size : pagesOf (data l') = endPage 0 map := by
    have inside := metadataEntry_free valid place
    rw [← h.size] at inside
    have free : ∀ j < pagesFor s.dataSize,
        typeAt (data l ++ beyond map) (e.base / pageSize + j) = some .free := fun j lt => by
      rw [h.kinds _ (inside j lt).1, (inside j lt).2]
    have whole := pagesOf_of_fill free types
    rw [pagesOf_append, pagesOf_append] at whole
    exact (Nat.add_right_cancel whole).trans h.pages
  exact ⟨_, same.allowing.trans h.open_, l', hr, lay, apart, size, rfl⟩

/-- The client that begins there holds nothing. -/
theorem Client.start_holds (valid : FirmwareMap map) (clear : StartsClear map)
    (start : pmmStart memory map = .ok s₀) :
    (Client.start s₀).Holds (beyond map) (endPage 0 map) := by
  obtain ⟨f, governs⟩ := (pmmStart_governs valid clear).of_ok start
  exact ⟨f, governs, List.nodup_nil, fun p mem => absurd mem (List.not_mem_nil)⟩

/-- With no free page left `pmm_alloc_page` answers `NULL`. -/
theorem Client.Holds.none_left {e : List Section} {total : Nat} {c : Client}
    (h : c.Holds e total) (bad : ∀ w ∈ e, w.free = .bad) (clear : Clear c.mem .allocPage)
    (none : ∀ l, Represents c.mem l → ∀ k, typeAt (data l) k ≠ some .free) :
    ∃ s, pmmAllocPage c.mem = .ok (0, s) := by
  have notFree : ∀ w ∈ e, w.free ≠ .free := fun w mem => by
    rw [bad w mem]
    simp
  obtain ⟨f, governs, -⟩ := h
  have noFree : ∀ k, f k ≠ some .free := by
    obtain ⟨l, hr, -, -, -, rfl⟩ := governs.list
    intro k free
    have inside := page_within notFree free
    exact none l hr k (typeAt_append inside ▸ free)
  have page := governs.allocPage notFree clear
  cases run : pmmAllocPage c.mem with
  | error fault =>
    rw [run] at page
    obtain ⟨-, k, free⟩ := page
    exact absurd free (noFree k)
  | ok r =>
    obtain ⟨p, s⟩ := r
    rcases page.of_ok run with ⟨zero, -⟩ | ⟨k, g, -, takes, -⟩
    · exact ⟨s, by rw [← zero]⟩
    · exact absurd (takes.2.1 0 Nat.one_pos) (noFree _)

/-- On a map whose last entry may be of any kind no call follows a null link, in any run of calls on
live pages that stay clear of the last one, and an allocation with no free page left answers
`NULL`. -/
theorem no_null_neighbour (valid : FirmwareMap map) (clear : StartsClear map) :
    pmmStart memory map ≠ .error .nullDeref ∧ ∀ s₀ c, pmmStart memory map = .ok s₀ →
      Relation.ReflTransGen Client.ClearStep (Client.start s₀) c →
      (∀ op, c.Live op → Clear c.mem op → c.step op ≠ .error .nullDeref) ∧
      (∀ p ∈ c.pages, c.Live (.freePage p)) ∧
      (Clear c.mem .allocPage →
        (∀ l, Represents c.mem l → ∀ k, typeAt (data l) k ≠ some .free) →
          ∃ s, pmmAllocPage c.mem = .ok (0, s)) := by
  have noNull : ¬ OutOfSections .nullDeref := by
    intro out
    cases out
  constructor
  · intro fails
    have answers := @pmmStart_governs memory map valid clear
    rw [fails] at answers
    exact noNull answers
  · intro s₀ c start run
    have holds := (Client.start_holds valid clear start).run beyond_bad run
    refine ⟨fun op live clear fails => ?_, holds.live beyond_bad, holds.none_left beyond_bad⟩
    have answers := holds.step beyond_bad live clear
    rw [fails] at answers
    exact noNull answers

end

/-! ### A map that ends with free memory -/

/-- One page of firmware in use, and 257 free pages to the end of memory. -/
def lastFreeMap : List MemoryMapEntry :=
  [⟨0, 0x100000, memoryMapNouse⟩, ⟨0x100000, 0x1000, memoryMapBusy⟩,
    ⟨0x101000, 0x101000, memoryMapFree⟩]

/-- The map is one of the firmware's. -/
theorem lastFreeMap_firmware : FirmwareMap lastFreeMap where
  words := by decide
  first := rfl
  bases := by decide
  lengths := by decide
  sorted := by decide
  disjoint := by decide
  ends e last _ := by
    obtain rfl := Option.some.inj last
    decide

/-- The descriptors take a megabyte. -/
theorem lastFreeMap_size : dataSizeFor (exploreMap lastFreeMap) = 0x100000 := by decide

/-- They are put at the start of the free pages. -/
theorem lastFreeMap_metadata :
    metadataEntry lastFreeMap = some ⟨0x101000, 0x101000, memoryMapFree⟩ := by decide

/-- The sections that are built of it. -/
theorem lastFreeMap_built :
    firstSection :: built firstSection lastFreeMap.tail = growing 258 1 ++ [] := by decide

/-- The descriptors stand behind the page of firmware and leave one page. -/
theorem lastFreeMap_clear : StartsClear lastFreeMap := by
  refine ⟨_, lastFreeMap_metadata, Or.inr ?_⟩
  rw [lastFreeMap_size]
  decide

/-- `pmm_start` answers, with one page left. -/
theorem lastFree_start :
    ∃ s, pmmStart machineMemory lastFreeMap = .ok s ∧ GrownTo [] 258 257 s := by
  obtain ⟨s, l, build, hr, shows, hopen, hplace, hsize, -⟩ :=
    @pmmBuild_alternate machineMemory lastFreeMap _ _ lastFreeMap.tail rfl rfl lastFreeMap_metadata
      (by decide) lastFreeMap_size (by decide)
      (by rw [lastFreeMap_built]; simp [KindsAlternate, growing, firstSection])
  have grown : GrownTo [] 258 1 s := ⟨hopen, l, hr, shows.trans lastFreeMap_built⟩
  obtain ⟨s', run, grown', -⟩ := @GrownTo.start 258 s [⟨(256 + 258) * pageSize, 1, .bad⟩] [] _ _
    grown build rfl (by norm_num) (by norm_num) hplace hsize
  exact ⟨s', run, grown'⟩

/-- When the free memory at the end is used up the walk follows the last section's null link. -/
theorem GrownTo.alloc_null {n : Nat} {s : State} (h : GrownTo [] n n s) (pos : n ≠ 0) :
    pmmAllocPage s = .error .nullDeref := by
  obtain ⟨open_, l, hr, hl⟩ := h
  obtain ⟨a, b, c, m, rfl, hm⟩ := data_growing hl
  obtain rfl := List.map_eq_nil_iff.mp hm
  have len := hr.length_le
  simp only [List.length_cons, List.length_nil] at len
  obtain ⟨f, hf⟩ : ∃ f, s.fuel = f + 3 := ⟨s.capacity - 1, by simp only [State.fuel]; omega⟩
  have ha : s.sec a = firstSection := @Represents.sec_eq s [] _ a _ hr
  have hb : s.sec b = ⟨0x100000, n, .used⟩ := @Represents.sec_eq s [(a, _)] _ b _ hr
  have hc : s.sec c = ⟨(256 + n) * pageSize, n - n, .free⟩ :=
    @Represents.sec_eq s [(a, _), (b, _)] _ c _ hr
  have hab : (s.sections a).next = some b := @Represents.next_eq s [] _ a _ hr
  have hbc : (s.sections b).next = some c := @Represents.next_eq s [(a, _)] _ b _ hr
  have last : (s.sections c).next = none := @Represents.next_eq s [(a, _), (b, _)] _ c _ hr
  have walk : allocPageLoop (f + 3) s (some a) = .error .nullDeref := by
    rw [allocPageLoop, ha, if_neg (by simp [firstSection, megabyte, pageSize]),
      if_neg (by simp [firstSection]), hab, allocPageLoop, hb, if_neg pos, if_neg (by simp), hbc,
      allocPageLoop, hc, if_pos (Nat.sub_self n), last]
    rfl
  unfold pmmAllocPage
  simp only [open_, not_true_eq_false, ↓reduceIte, hr.first_eq, headOr_cons, hf, walk]
  rfl

/-- No page is free then. -/
theorem GrownTo.none_free {n : Nat} {s : State} (h : GrownTo [] n n s) {l : List (Nat × Section)}
    (hr : Represents s l) (k : Nat) : typeAt (data l) k ≠ some .free := by
  obtain ⟨-, l', hr', hl⟩ := h
  rw [hr.unique hr', hl, List.append_nil, typeAt, growing]
  simp only [runs_cons, valueAt_cons, firstSection, Nat.sub_self, Nat.not_lt_zero, ↓reduceIte]
  split_ifs <;> simp [valueAt]

/-- On that map the last free page is handed out, and the next call follows a null link where it
should answer `NULL`. -/
theorem lastFree_null : ∃ s₀ c, FirmwareMap lastFreeMap ∧
    pmmStart machineMemory lastFreeMap = .ok s₀ ∧
    (Client.start s₀).Live .allocPage ∧ (Client.start s₀).step .allocPage = .ok c ∧
    c.Live .allocPage ∧ (∀ l, Represents c.mem l → ∀ k, typeAt (data l) k ≠ some .free) ∧
    c.step .allocPage = .error .nullDeref := by
  obtain ⟨s₀, start, grown⟩ := lastFree_start
  obtain ⟨s₁, page, grown₁, -⟩ := grown.alloc (by norm_num) (by norm_num) (by norm_num)
  refine ⟨s₀, ⟨s₁, [(256 + 257) * pageSize], []⟩, lastFreeMap_firmware, start, trivial, ?_, trivial,
    fun l hr => grown₁.none_free hr, ?_⟩
  · simp only [Client.step, Client.start, page, ok_bind]
    rfl
  · simp only [Client.step, grown₁.alloc_null (by norm_num)]
    rfl

/-- The call before it is clear. -/
theorem lastFree_page : ∃ s₀, pmmStart machineMemory lastFreeMap = .ok s₀ ∧
    (Client.start s₀).step .allocPage ≠ .error .nullDeref := by
  obtain ⟨s₀, start, grown⟩ := lastFree_start
  refine ⟨s₀, start, ((@no_null_neighbour machineMemory lastFreeMap lastFreeMap_firmware
    lastFreeMap_clear).2 s₀ _ start .refl).1 .allocPage trivial fun l hr => ?_⟩
  obtain ⟨-, l', hr', hl⟩ := grown
  rw [hr.unique hr', hl]
  exact Or.inl ⟨⟨(256 + 257) * pageSize, 1, .free⟩, by simp [growing], rfl, Nat.one_ne_zero⟩

end Skylight.Pmm
