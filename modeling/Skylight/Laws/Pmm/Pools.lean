import Skylight.Laws.Pmm.Machine

/-!
# Giving pools back

`pmm_free_pool` looks its argument up by address, in a list that no record ever leaves, and takes
the end of a pool for a part of it. It frees the pool it was asked for just when no earlier record
reaches the address.

`pools_exact_iff` speaks of whole runs, from the state `pmm_start` builds of any valid map:
every pool that is given back gives back its own pages and no others just when no record before
its own reaches its address, in each step. Two pools side by side are enough to go wrong
(`pools_not_always_exact`). Which of the pages then become free is a question of `freesPage`,
page by page.
-/

namespace Skylight.Pmm

open Chain RunLength

/-- A record that `pmm_free_pool` takes for the pool at an address. -/
def Pool.Reaches (p : Pool) (pool : Nat) : Prop :=
  p.base ≤ pool ∧ Word.add p.base (Word.mul p.pages pageSize) ≥ pool

instance (p : Pool) (pool : Nat) : Decidable (p.Reaches pool) :=
  inferInstanceAs (Decidable (_ ∧ _))

/-- The pages of a record, as the loop of `pmm_unlock_pages` computes them. -/
def Pool.addresses (p : Pool) : List Nat :=
  (List.range p.pages).map fun i => Word.add p.base (Word.mul i pageSize)

/-- The pages that `pmm_free_pool` gives to `pmm_free_page`. -/
def handed (s : State) (pool : Nat) : List Nat :=
  match s.pools.find? (·.Reaches pool) with
  | some p => p.addresses
  | none => []

/-- A call of a client that takes pools and gives them back, with the size of the pool. -/
inductive PoolOp
  | alloc (count : Nat) (m : Malloc)
  | free (base count : Nat)

/-- A call that succeeds: a pool is answered, or a live pool given back. -/
inductive PoolStep : Client → PoolOp → Client → Prop
  | alloc {c : Client} {n base : Nat} {m : Malloc} {taken : List Nat} {s : State} (pos : 1 ≤ n)
      (run : pmmAllocPool c.mem n m = .ok (base, taken, s)) (some : base ≠ 0) :
      PoolStep c (.alloc n m)
        { mem := s, pages := taken.filter (· ≠ 0) ++ c.pages, pools := (base, n) :: c.pools }
  | free {c : Client} {base n : Nat} {s : State} (live : (base, n) ∈ c.pools)
      (run : pmmFreePool c.mem base = .ok s) :
      PoolStep c (.free base n) { c with mem := s, pools := c.pools.erase (base, n) }

/-- The calls of a run, each with the state before it. -/
inductive PoolRun : Client → List (Client × PoolOp) → Prop
  | nil (c : Client) : PoolRun c []
  | cons {c c' : Client} {op : PoolOp} {l : List (Client × PoolOp)} (step : PoolStep c op c')
      (rest : PoolRun c' l) : PoolRun c ((c, op) :: l)

/-- The pages given back are those of the pool, and none is of another live pool. -/
def Exact (c : Client) : PoolOp → Prop
  | .alloc _ _ => True
  | .free base n => handed c.mem base = (List.range n).map (fun i => base + i * pageSize) ∧
      ∀ p ∈ handed c.mem base, ∀ q ∈ c.pools.erase (base, n), Disjoint (bytes (p, 1)) (bytes q)

/-- No record before the pool's own reaches its address. -/
def Unreached (c : Client) : PoolOp → Prop
  | .alloc _ _ => True
  | .free base n => ∃ before after, c.mem.pools = before ++ ⟨n, base⟩ :: after ∧
      ∀ p ∈ before, ¬ p.Reaches base

section
variable {f₀ f : PageMap} {c c' : Client} {s : State} {k n base : Nat} {p : Pool}

/-- A call for each page, as a fold over the pages. -/
theorem eachPage_eq (call : State → Nat → Except Fault State) (page : Nat) :
    ∀ (n i : Nat) (s : State), eachPage call page n i s =
      ((List.range' i n).map fun i => Word.add page (Word.mul i pageSize)).foldlM call s := by
  intro n
  induction n with
  | zero => exact fun _ _ => rfl
  | succ n ih =>
    intro i s
    rw [eachPage, List.range'_succ, List.map_cons, List.foldlM_cons]
    congr 1
    funext s
    exact ih (i + 1) s

/-- `pmm_free_pool` frees the pages it hands over, one after the other. -/
theorem pmmFreePool_eq (open_ : s.allowing = true) (nonzero : base ≠ 0)
    (found : s.pools.find? (·.Reaches base) = some p) :
    pmmFreePool s base = (handed s base).foldlM pmmFreePage s := by
  have pools : s.pools ≠ [] := by
    intro none
    rw [none] at found
    cases found
  rw [handed, found]
  show _ = p.addresses.foldlM pmmFreePage s
  rw [Pool.addresses, List.range_eq_range', ← eachPage_eq]
  unfold pmmFreePool
  rw [if_neg (not_not.mpr open_), if_neg pools, if_neg nonzero]
  have found' : s.pools.find? (fun p => p.base ≤ base ∧
      Word.add p.base (Word.mul p.pages pageSize) ≥ base) = some p := found
  rw [found']
  show pmmUnlockPages s p.base p.pages = _
  rw [pmmUnlockPages, if_neg (not_not.mpr open_)]

/-- The pages of a run that lies in the address space. -/
theorem addresses_eq (fits : base + n * pageSize < 2 ^ 64) :
    Pool.addresses ⟨n, base⟩ = (List.range n).map (fun i => base + i * pageSize) := by
  apply List.map_congr_left
  intro i mem
  have lt : i < n := List.mem_range.mp mem
  have le : i * pageSize ≤ n * pageSize := Nat.mul_le_mul_right _ lt.le
  show Word.add base (Word.mul i pageSize) = _
  rw [Word.mul_eq (by omega), Word.add_eq (by omega)]

/-- The right pages are handed over just when the right record is found. -/
theorem handed_iff (pos : 1 ≤ n) (fits : base + n * pageSize < 2 ^ 64) :
    handed s base = (List.range n).map (fun i => base + i * pageSize) ↔
      s.pools.find? (·.Reaches base) = some ⟨n, base⟩ := by
  constructor
  · intro same
    rw [handed] at same
    split at same
    · next p found =>
      have pages : p.pages = n := by
        have length := congrArg List.length same
        rwa [Pool.addresses, List.length_map, List.length_map, List.length_range,
          List.length_range] at length
      have reaches : p.Reaches base := by simpa using List.find?_some found
      have head := congrArg (·[0]?) same
      rw [Pool.addresses, pages] at head
      simp only [List.getElem?_map, List.getElem?_range (show 0 < n from pos), Option.map_some,
        Option.some.injEq, Nat.zero_mul, Nat.add_zero] at head
      rw [Word.mul_eq (by omega), Nat.zero_mul, Word.add_eq (by have := reaches.1; omega)] at head
      rw [found, ← pages, ← head]
      rfl
    · have length := congrArg List.length same
      rw [List.length_map, List.length_range] at length
      exact absurd length (by simp only [List.length_nil]; omega)
  · intro found
    rw [handed, found]
    exact addresses_eq fits

/-- The pool's own record is found just when none before it reaches the address. -/
theorem find_iff (fits : base + n * pageSize < 2 ^ 64) :
    s.pools.find? (·.Reaches base) = some ⟨n, base⟩ ↔
      ∃ before after, s.pools = before ++ ⟨n, base⟩ :: after ∧ ∀ p ∈ before, ¬ p.Reaches base := by
  have own : Pool.Reaches ⟨n, base⟩ base := by
    refine ⟨le_rfl, ?_⟩
    show Word.add base (Word.mul n pageSize) ≥ base
    rw [Word.mul_eq (by omega), Word.add_eq fits]
    exact Nat.le_add_right _ _
  rw [List.find?_eq_some_iff_append]
  constructor
  · rintro ⟨-, before, after, split, none⟩
    exact ⟨before, after, split, fun p mem => by simpa using none p mem⟩
  · rintro ⟨before, after, split, none⟩
    exact ⟨decide_eq_true own, before, after, split, fun p mem => by simpa using none p mem⟩

/-! ### What is live -/

/-- A run of pages of one kind lies in the address space. -/
theorem Manages.fits {t : SectionType} (h : Manages s f) (pos : 1 ≤ n)
    (run : ∀ j < n, f (k + j) = some t) (kind : t ≠ .bad) :
    k * pageSize + n * pageSize < 2 ^ 64 := by
  obtain ⟨l, -, lay, -, rfl⟩ := h.list
  have last := lay.page_lt (run (n - 1) (by omega)) kind
  rw [← Nat.add_mul]
  rwa [show k + (n - 1) + 1 = k + n by omega] at last

/-- The first page of memory is bad. -/
theorem Manages.zero (h : Manages s f) : f 0 = some .bad := by
  obtain ⟨l, -, lay, -, rfl⟩ := h.list
  obtain ⟨v, l', hl, bad⟩ := lay.first
  have some : v.pages ≠ 0 := fun none => by
    have free := lay.empty v (by simp [hl]) none
    rw [bad] at free
    cases free
  rw [hl, ← bad]
  exact @typeAt_first v [] l' some

/-- A live pool is a run of used pages. -/
theorem Sound.pool (h : Sound f₀ c f) (live : (base, n) ∈ c.pools) :
    ∃ k, base = k * pageSize ∧ 1 ≤ n ∧ (∀ j < n, f (k + j) = some .used) ∧
      base + n * pageSize < 2 ^ 64 := by
  have held : (base, n) ∈ c.held := List.mem_append_right _ live
  obtain ⟨k, hk, pos⟩ := h.aligned _ held
  simp only at hk pos
  have used : ∀ j < n, f (k + j) = some .used := by
    intro j lt
    have le : j * pageSize < n * pageSize := Nat.mul_lt_mul_of_pos_right lt (by simp [pageSize])
    apply h.page_used held
    · rw [hk, Nat.add_mul]
      exact Nat.le_add_right _ _
    · rw [hk, Nat.add_mul]
      exact Nat.add_lt_add_left le _
  refine ⟨k, hk, pos, used, ?_⟩
  rw [hk]
  exact h.manages.fits pos used (by simp)

/-- Freeing the pages of a run that is in use changes no page outside of it. -/
theorem Manages.freePages : ∀ {n k : Nat} {s : State} {f : PageMap}, Manages s f →
    (∀ j < n, f (k + j) = some .used) →
    Yields OutOfSections (fun s' => ∃ g, Manages s' g ∧
        ∀ j, g j = f j ∨ (k ≤ j ∧ j < k + n) ∧ g j = some .free)
      (((List.range n).map fun i => k * pageSize + i * pageSize).foldlM pmmFreePage s) := by
  intro n
  -- Page by page; one that is not freed stays used, and neither is asked about again.
  induction n with
  | zero =>
    intro k s f h _
    rw [List.range_zero, List.map_nil, List.foldlM_nil, pure_eq_ok, yields_ok]
    exact ⟨f, h, fun _ => Or.inl rfl⟩
  | succ n ih =>
    intro k s f h used
    have next : (List.range (n + 1)).map (fun i => k * pageSize + i * pageSize) =
        k * pageSize :: (List.range n).map (fun i => (k + 1) * pageSize + i * pageSize) := by
      rw [List.range_succ_eq_map, List.map_cons, List.map_map, Nat.zero_mul, Nat.add_zero,
        List.cons.injEq]
      constructor
      · rfl
      · apply List.map_congr_left
        intro i _
        show k * pageSize + (i + 1) * pageSize = _
        rw [Nat.add_mul, Nat.add_mul, Nat.one_mul, Nat.add_comm (i * pageSize), Nat.add_assoc]
    have first := h.freePage (used 0 (Nat.succ_pos n))
    rw [Nat.add_zero] at first
    rw [next, List.foldlM_cons]
    refine first.bind fun s₁ hm => ?_
    obtain ⟨f₁, h₁, same⟩ : ∃ f₁, Manages s₁ f₁ ∧
        ∀ j, f₁ j = f j ∨ j = k ∧ f₁ j = some .free := by
      rcases hm with hm | hm
      · exact ⟨f, hm, fun _ => Or.inl rfl⟩
      · refine ⟨_, hm, fun j => ?_⟩
        rw [Function.update_apply]
        split
        · next here => exact Or.inr ⟨here, rfl⟩
        · exact Or.inl rfl
    have used₁ : ∀ j < n, f₁ (k + 1 + j) = some .used := by
      intro j lt
      rw [(same (k + 1 + j)).resolve_right (by omega), Nat.add_right_comm, Nat.add_assoc]
      exact used (j + 1) (Nat.succ_lt_succ lt)
    refine (ih h₁ used₁).imp fun s' ⟨g, hg, far⟩ => ⟨g, hg, fun j => ?_⟩
    rcases far j with eq | ⟨inside, free⟩
    · rcases same j with eq' | ⟨here, free⟩
      · exact Or.inl (eq.trans eq')
      · exact Or.inr ⟨by omega, eq.trans free⟩
    · exact Or.inr ⟨by omega, free⟩

/-- A pool whose pages alone may be free afterwards is given back. -/
theorem Sound.give (h : Sound f₀ c f) (live : (k * pageSize, n) ∈ c.pools) {g : PageMap}
    (manages : Manages s g)
    (same : ∀ j, g j = f j ∨ (k ≤ j ∧ j < k + n) ∧ g j = some .free) :
    Sound f₀ { c with mem := s, pools := c.pools.erase (k * pageSize, n) } g := by
  have perm : c.held.Perm ((k * pageSize, n) ::
      (c.pages.map (·, 1) ++ c.pools.erase (k * pageSize, n))) :=
    ((List.perm_cons_erase live).append_left _).trans List.perm_middle
  refine ⟨manages, fun j free => ?_, fun b mem => ?_, ?_⟩
  · rcases same j with eq | ⟨-, eq⟩
    · rw [eq]
      exact h.open_ j free
    · exact Or.inl eq
  · exact h.aligned b (perm.mem_iff.mpr (List.mem_cons_of_mem _ mem))
  · apply (h.ledger.perm (perm.map bytes).symm).give
    intro x hx
    have free : g (x / pageSize) = some .free := hx
    rcases same (x / pageSize) with eq | ⟨inside, -⟩
    · exact Or.inl (eq.symm.trans free)
    · exact Or.inr (mem_bytes.mpr inside)

/-- No page in use is the first page of memory. -/
theorem Manages.base_ne_zero (h : Manages s f) (used : f k = some .used) :
    k * pageSize ≠ 0 := by
  intro zero
  have page : k = 0 := (Nat.mul_eq_zero.mp zero).resolve_right (by simp [pageSize])
  rw [page, h.zero] at used
  cases used

/-- A pool given back page by page leaves the other holdings alone. -/
theorem Sound.freePool (h : Sound f₀ c f) (live : (base, n) ∈ c.pools)
    (found : c.mem.pools.find? (·.Reaches base) = some ⟨n, base⟩)
    (run : pmmFreePool c.mem base = .ok s) :
    ∃ g, Sound f₀ { c with mem := s, pools := c.pools.erase (base, n) } g := by
  obtain ⟨k, rfl, pos, used, fits⟩ := h.pool live
  have nonzero : k * pageSize ≠ 0 := h.manages.base_ne_zero (used 0 pos)
  rw [pmmFreePool_eq h.manages.open_ nonzero found, (handed_iff pos fits).mpr found] at run
  obtain ⟨g, manages, same⟩ := (h.manages.freePages used).of_ok run
  exact ⟨g, h.give live manages same⟩

/-- The pages of a live pool are of no other. -/
theorem Sound.others (h : Sound f₀ c f) (live : (base, n) ∈ c.pools) {i : Nat} (lt : i < n)
    {q : Nat × Nat} (other : q ∈ c.pools.erase (base, n)) :
    Disjoint (bytes (base + i * pageSize, 1)) (bytes q) := by
  have perm : c.held.Perm ((base, n) :: (c.pages.map (·, 1) ++ c.pools.erase (base, n))) :=
    ((List.perm_cons_erase live).append_left _).trans List.perm_middle
  have apart := (h.ledger.perm (perm.map bytes).symm).disjoint
  rw [List.map_cons, List.pairwise_cons] at apart
  have whole := apart.1 (bytes q) (List.mem_map_of_mem (List.mem_append_right _ other))
  apply whole.mono_left
  intro x hx
  obtain ⟨lo, hi⟩ := hx
  have le : (i + 1) * pageSize ≤ n * pageSize := Nat.mul_le_mul_right _ lt
  rw [Nat.add_mul] at le
  dsimp only at lo hi
  exact ⟨by dsimp only; omega, by dsimp only; omega⟩

/-- What a call gives back is right just when the first record that reaches it is its own. -/
theorem Sound.exact_iff (h : Sound f₀ c f) {op : PoolOp} (step : PoolStep c op c') :
    Exact c op ↔ Unreached c op := by
  cases step with
  | alloc pos run some => exact Iff.rfl
  | @free base n s live run =>
    obtain ⟨k, -, pos, -, fits⟩ := h.pool live
    rw [Unreached, ← find_iff fits, ← handed_iff pos fits, Exact]
    refine and_iff_left_of_imp fun right p mem q other => ?_
    rw [right] at mem
    obtain ⟨i, lt, rfl⟩ := List.mem_map.mp mem
    exact h.others live (List.mem_range.mp lt) other

/-- A step that gives back what it should keeps the record sound. -/
theorem Sound.poolStep (h : Sound f₀ c f) {op : PoolOp} (step : PoolStep c op c')
    (unreached : Unreached c op) : ∃ g, Sound f₀ c' g := by
  cases step with
  | @alloc n base m taken s pos run some =>
    have legal : c.Legal (.allocPool n m) := pos
    apply (h.step legal).of_ok
    rw [Client.step, run]
    simp only [ok_bind, if_neg some, pure_eq_ok]
  | free live run =>
    obtain ⟨k, -, -, -, fits⟩ := h.pool live
    exact h.freePool live ((find_iff fits).mpr unreached) run

/-- Along a run, step by step. -/
theorem Sound.exact_run_iff {l : List (Client × PoolOp)} (h : Sound f₀ c f)
    (run : PoolRun c l) : (∀ e ∈ l, Exact e.1 e.2) ↔ ∀ e ∈ l, Unreached e.1 e.2 := by
  induction run generalizing f with
  | nil c => simp
  | @cons c c' op l step rest ih =>
    rw [List.forall_mem_cons, List.forall_mem_cons]
    rw [h.exact_iff step]
    apply and_congr_right
    intro unreached
    obtain ⟨g, later⟩ := h.poolStep step unreached
    exact ih later

/-- Along every run of pools taken and given back, from the state `pmm_start` builds of a valid
map: the right pages are given back every time just when no record reaches a pool given back
before its own does. -/
theorem pools_exact_iff {memory : Nat → Descriptor} {map : List MemoryMapEntry} {s₀ : State}
    {l : List (Client × PoolOp)} (valid : ValidMap map) (start : pmmStart memory map = .ok s₀)
    (run : PoolRun (Client.start s₀) l) :
    (∀ e ∈ l, Exact e.1 e.2) ↔ ∀ e ∈ l, Unreached e.1 e.2 := by
  obtain ⟨l₀, h₀⟩ := pmmStart_ok valid start
  exact (sound_start h₀).exact_run_iff run

end

/-! ### On the machine -/

section
variable {i j : Nat} {s : State} {c : Client}

/-- The free section is the one that is found. -/
theorem machine_poolSection {n : Nat} (h : MachineAt i s) (fits : n + i ≤ 16385) :
    ∃ c, poolSection n s.fuel s s.first = .ok (some c) ∧
      (s.sec c).start = (256 + i) * pageSize := by
  obtain ⟨-, l, hr, hl⟩ := h
  obtain ⟨a, b, c, d, rfl⟩ := data_four hl
  obtain ⟨f, hf⟩ : ∃ f, s.fuel = f + 3 := by
    have len := hr.length_le
    simp only [List.length_cons, List.length_nil] at len
    exact ⟨s.capacity - 1, by simp only [State.fuel]; omega⟩
  have ha : s.sec a = firstSection := @Represents.sec_eq s [] _ a _ hr
  have hb : s.sec b = ⟨0x100000, i, .used⟩ := @Represents.sec_eq s [(a, _)] _ b _ hr
  have hc : s.sec c = ⟨(256 + i) * pageSize, 16385 - i, .free⟩ :=
    @Represents.sec_eq s [(a, _), (b, _)] _ c _ hr
  have hab : (s.sections a).next = some b := @Represents.next_eq s [] _ a _ hr
  have hbc : (s.sections b).next = some c := @Represents.next_eq s [(a, _)] _ b _ hr
  refine ⟨c, ?_, by rw [hc]⟩
  rw [hr.first_eq, headOr_cons, hf, poolSection, ha, if_neg (by simp [firstSection]), hab,
    poolSection, hb, if_neg (by simp), hbc, poolSection, hc,
    if_pos ⟨by show 16385 - i ≥ n; omega, rfl⟩]

/-- Its first page is locked. -/
theorem machine_lockPool (h : MachineAt i s) (pos : 0 < i) (lt : i < 16384) :
    ∃ s', pmmLockPages s ((256 + i) * pageSize) 1 = .ok s' ∧ MachineAt (i + 1) s' ∧
      SameGlobals s s' := by
  obtain ⟨s', lock, h', same⟩ := machine_lock h pos lt
  refine ⟨s', ?_, h', same⟩
  rw [pmmLockPages, if_neg (not_not.mpr h.1), eachPage, Word.mul_eq (by simp), Nat.zero_mul,
    Word.add_eq (by simp only [pageSize]; omega), Nat.add_zero, lock]
  rfl

/-- A pool of one page. -/
theorem machine_allocPool (h : MachineAt i s) (pos : 0 < i) (lt : i < 16384) :
    ∃ s', pmmAllocPool s 1 ⟨0, 0⟩ = .ok ((256 + i) * pageSize, [], s') ∧ MachineAt (i + 1) s' ∧
      s'.pools = s.pools ++ [⟨1, (256 + i) * pageSize⟩] := by
  obtain ⟨c, found, start⟩ := @machine_poolSection _ _ 1 h (by omega)
  have recorded : MachineAt i { s with pools := s.pools ++ [⟨1, (256 + i) * pageSize⟩] } := by
    obtain ⟨open_, l, hr, hl⟩ := h
    exact ⟨open_, l, hr.congr rfl rfl rfl, hl⟩
  obtain ⟨s', lock, h', same⟩ := machine_lockPool recorded pos lt
  refine ⟨s', ?_, h', same.pools⟩
  simp only [h.1] at lock
  unfold pmmAllocPool
  simp only [h.1, not_true_eq_false, ↓reduceIte, mallocPages, ok_bind, found, start, lock]
  rfl

/-- A page in use is given back where it needs no section of its own. -/
theorem machine_freePage (h : MachineAt i s) (pos : 0 < i) (lt : i < 16385) {k : Nat}
    (used : typeAt (machineList i) k = some .used) (whole : splitsPage (machineList i) k = false) :
    ∃ s', pmmFreePage s (k * pageSize) = .ok s' := by
  obtain ⟨open_, l, hr, hl⟩ := h
  obtain ⟨s', run, -⟩ := (pmmFreePage_yields hr (hl ▸ machine_layout pos lt) open_
    (by rw [hl]; exact used)).exists_ok fun e _ lacks => by
      have need := lacks.2.1
      rw [hl, whole] at need
      cases need
  exact ⟨s', run⟩

/-- A pool of one page given back, where its page needs no section of its own. -/
theorem machine_freePool (h : MachineAt i s) (pos : 0 < i) (lt : i < 16385) {pool k : Nat}
    (nonzero : pool ≠ 0) (found : s.pools.find? (·.Reaches pool) = some ⟨1, k * pageSize⟩)
    (fits : k * pageSize + 1 * pageSize < 2 ^ 64)
    (used : typeAt (machineList i) k = some .used) (whole : splitsPage (machineList i) k = false) :
    handed s pool = [k * pageSize] ∧ ∃ s', pmmFreePool s pool = .ok s' := by
  have pages : handed s pool = [k * pageSize] := by
    rw [handed, found]
    apply (addresses_eq fits).trans
    rw [List.range_one, List.map_singleton, Nat.zero_mul, Nat.add_zero]
  refine ⟨pages, ?_⟩
  obtain ⟨s', run⟩ := machine_freePage h pos lt used whole
  rw [pmmFreePool_eq h.1 nonzero found, pages, List.foldlM_cons, run]
  exact ⟨s', rfl⟩

/-- Locking the free pages from the first one on, `j` of them done. -/
theorem machine_lockFrom {k : Nat} (pos : 0 < i) : ∀ {j : Nat} {s : State}, MachineAt (i + j) s →
    i + j + k < 16385 → ∃ s', eachPage pmmLockPage ((256 + i) * pageSize) k j s = .ok s' ∧
      MachineAt (i + j + k) s' := by
  induction k with
  | zero => exact fun {j s} h _ => ⟨s, rfl, h⟩
  | succ k ih =>
    intro j s h lt
    obtain ⟨s₁, run₁, h₁, -⟩ := machine_lock h (by omega) (by omega)
    obtain ⟨s₂, run₂, h₂⟩ := @ih (j + 1) s₁ h₁ (by omega)
    refine ⟨s₂, ?_, by rwa [show i + j + (k + 1) = i + (j + 1) + k by omega]⟩
    have times : j * pageSize < 2 ^ 64 := by simp only [pageSize]; omega
    have sum : (256 + i) * pageSize + j * pageSize < 2 ^ 64 := by simp only [pageSize]; omega
    have page : (256 + i) * pageSize + j * pageSize = (256 + (i + j)) * pageSize := by
      simp only [pageSize]; omega
    rw [eachPage, Word.mul_eq times, Word.add_eq sum, page, run₁, ok_bind, run₂]

/-- The client takes a pool. -/
theorem machine_takePool (h : MachineAt i c.mem) (pos : 0 < i) (some_pages : 1 ≤ j)
    (lt : i + j < 16385) : ∃ c', Client.Step c c' ∧ MachineAt (i + j) c'.mem ∧
      c'.pages = c.pages ∧ c'.pools = ((256 + i) * pageSize, j) :: c.pools := by
  obtain ⟨a, found, base⟩ := @machine_poolSection _ _ j h (by omega)
  have recorded : MachineAt (i + 0)
      { c.mem with pools := c.mem.pools ++ [⟨j, (256 + i) * pageSize⟩] } := by
    obtain ⟨open_, l, hr, hl⟩ := h
    exact ⟨open_, l, hr.congr rfl rfl rfl, hl⟩
  obtain ⟨s', lock, h'⟩ := machine_lockFrom pos recorded lt
  simp only [h.1] at lock
  have answer : pmmAllocPool c.mem j ⟨0, 0⟩ = .ok ((256 + i) * pageSize, [], s') := by
    unfold pmmAllocPool
    simp only [h.1, not_true_eq_false, ↓reduceIte, mallocPages, ok_bind, found, base, pmmLockPages,
      lock]
    rfl
  have ne : (256 + i) * pageSize ≠ 0 := by simp only [pageSize]; omega
  refine ⟨⟨s', c.pages, ((256 + i) * pageSize, j) :: c.pools⟩,
    ⟨.allocPool j ⟨0, 0⟩, some_pages, ?_⟩, h', rfl, rfl⟩
  simp only [Client.step, answer, ok_bind, ne, ↓reduceIte]
  rfl

/-- The client takes pages one after the other. -/
theorem machine_takePages : ∀ {k i : Nat} {c : Client}, MachineAt i c.mem → 0 < i →
    i + k < 16385 → ∃ c', Relation.ReflTransGen Client.Step c c' ∧ MachineAt (i + k) c'.mem ∧
      c'.pages = (List.range' i k).reverse.map (fun p => (256 + p) * pageSize) ++ c.pages ∧
      c'.pools = c.pools := by
  intro k
  induction k with
  | zero => exact fun {i c} h _ _ => ⟨c, .refl, h, rfl, rfl⟩
  | succ k ih =>
    intro i c h pos lt
    obtain ⟨s₁, alloc, h₁, -⟩ := machine_alloc h pos (by omega)
    have ne : (256 + i) * pageSize ≠ 0 := by simp only [pageSize]; omega
    have step : Client.Step c ⟨s₁, (256 + i) * pageSize :: c.pages, c.pools⟩ := by
      refine ⟨.allocPage, trivial, ?_⟩
      simp only [Client.step, alloc, ok_bind, ne, ↓reduceIte]
      rfl
    obtain ⟨c', run, h', pages, pools⟩ := ih (c := ⟨s₁, _, c.pools⟩) h₁ (by omega) (by omega)
    refine ⟨c', .head step run, by rwa [show i + (k + 1) = i + 1 + k by omega], ?_, pools⟩
    rw [pages, List.range'_succ, List.reverse_cons, List.map_append, List.append_assoc]
    rfl

/-- The client takes two pages and a pool of three. -/
theorem machine_busy : ∃ s₀ c, pmmStart machineMemory machineMap = .ok s₀ ∧
    Relation.ReflTransGen Client.Step (Client.start s₀) c ∧
    c.held = [(514 * pageSize, 1), (513 * pageSize, 1), (515 * pageSize, 3)] := by
  obtain ⟨s₀, start, h₀, -⟩ := machine_start
  have first : MachineAt 257 (Client.start s₀).mem := h₀
  obtain ⟨c, run, h, pages, pools⟩ := @machine_takePages 2 257 _ first (by decide) (by decide)
  obtain ⟨c', step, -, pages', pools'⟩ := @machine_takePool 259 3 c h (by decide) (by decide)
    (by decide)
  refine ⟨s₀, c', start, run.tail step, ?_⟩
  rw [Client.held, pages', pages, pools', pools]
  rfl

end

/-- A pool is taken and given back. -/
theorem pools_exact_one : ∃ s₀ l, pmmStart machineMemory machineMap = .ok s₀ ∧
    PoolRun (Client.start s₀) l ∧ (l.map Prod.snd = [.alloc 1 ⟨0, 0⟩, .free (513 * pageSize) 1]) ∧
    ∀ e ∈ l, Exact e.1 e.2 := by
  obtain ⟨s₀, start, h₀, -⟩ := machine_start
  obtain ⟨l₀, started⟩ := pmmStart_ok machineMap_valid start
  obtain ⟨s₁, alloc, h₁, pools⟩ := machine_allocPool h₀ (by omega) (by omega)
  rw [started.pools] at pools
  have found : s₁.pools.find? (·.Reaches (513 * pageSize)) = some ⟨1, 513 * pageSize⟩ := by
    rw [pools]
    decide
  obtain ⟨-, s₂, free⟩ := machine_freePool h₁ (by omega) (by omega) (by decide) found (by decide)
    (by decide) (by decide)
  have run : PoolRun (Client.start s₀) _ :=
    .cons (.alloc le_rfl alloc (by decide)) (.cons (.free List.mem_cons_self free) (.nil _))
  refine ⟨s₀, _, start, run, rfl, (pools_exact_iff machineMap_valid start run).mpr ?_⟩
  intro e mem
  rcases List.mem_cons.mp mem with rfl | mem
  · trivial
  · rw [List.mem_singleton.mp mem]
    exact ⟨[], [], pools, by simp⟩

/-- Of two pools side by side the second is given back: its address is the end of the first, which
the search takes for inside of it, and the pages of the first are freed. -/
theorem pools_not_always_exact : ¬ ∀ (memory : Nat → Descriptor) (map : List MemoryMapEntry)
    (s₀ : State) (l : List (Client × PoolOp)), ValidMap map → pmmStart memory map = .ok s₀ →
    PoolRun (Client.start s₀) l → ∀ e ∈ l, Exact e.1 e.2 := by
  intro all
  obtain ⟨s₀, start, h₀, -⟩ := machine_start
  obtain ⟨l₀, started⟩ := pmmStart_ok machineMap_valid start
  obtain ⟨s₁, alloc₁, h₁, pools₁⟩ := machine_allocPool h₀ (by omega) (by omega)
  obtain ⟨s₂, alloc₂, h₂, pools₂⟩ := machine_allocPool h₁ (by omega) (by omega)
  rw [pools₁, started.pools] at pools₂
  have found : s₂.pools.find? (·.Reaches (514 * pageSize)) = some ⟨1, 513 * pageSize⟩ := by
    rw [pools₂]
    decide
  obtain ⟨pages, s₃, free⟩ := machine_freePool h₂ (by omega) (by omega) (by decide) found
    (by decide) (by decide) (by decide)
  have run : PoolRun (Client.start s₀) _ := .cons (.alloc le_rfl alloc₁ (by decide))
    (.cons (.alloc le_rfl alloc₂ (by decide)) (.cons (.free List.mem_cons_self free) (.nil _)))
  have exact_ := all _ _ _ _ machineMap_valid start run _
    (List.mem_cons_of_mem _ (List.mem_cons_of_mem _ (List.mem_singleton_self _)))
  have same := pages.symm.trans exact_.1
  exact absurd same (by decide)

end Skylight.Pmm
