import Mathlib.Order.Lattice.Nat
import Mathlib.Logic.Relation
import Mathlib.Order.Interval.Set.Basic
import Skylight.Lib.Ledger
import Skylight.Laws.Pmm.Manager

/-!
# Clients of the page frame allocator

A client takes pages and pools and gives pages back. What it holds is recorded beside the
manager; `Sound` says that the manager and the record agree, and every call keeps it. From
the state `pmm_start` leaves, no run hands out a byte twice, outside the free entries of
the map, or inside the descriptors of the manager itself.

The ledger is `Lib.Ledger`, at addresses and runs of pages; `Sound.step` is the step law, and
`Sound.run` the run law by its rule. A page is in the record once however often `pmm_alloc_page`
takes and gives it back. A client that frees what it does not hold is excluded by `Legal`: the
source does not check it, and `Laws.Pmm.Pools` shows what comes of a wrong pool. Calls that run
out of descriptors have no step.
-/

namespace Skylight.Pmm

open Chain RunLength

/-- A call of a client. -/
inductive Op
  | allocPage
  | allocPool (count : Nat) (m : Malloc)
  | freePage (page : Nat)

/-- The manager, and what a client holds: addresses of pages, addresses and sizes of pools. -/
structure Client where
  mem : State
  pages : List Nat
  pools : List (Nat × Nat)

namespace Client

/-- Everything held, as runs of pages. -/
def held (c : Client) : List (Nat × Nat) := c.pages.map (·, 1) ++ c.pools

/-- A call, and the record of its answer. The pages `malloc` takes are pages like any other. -/
def step (c : Client) : Op → Except Fault Client
  | .allocPage => do
    let (p, s) ← pmmAllocPage c.mem
    return { c with mem := s, pages := if p = 0 then c.pages else p :: c.pages }
  | .allocPool n m => do
    let (base, taken, s) ← pmmAllocPool c.mem n m
    return { mem := s
             pages := taken.filter (· ≠ 0) ++ c.pages
             pools := if base = 0 then c.pools else (base, n) :: c.pools }
  | .freePage p => do
    let s ← pmmFreePage c.mem p
    return { c with mem := s, pages := c.pages.erase p }

/-- The calls a client may make: pools are not empty, and only a page held is freed. -/
def Legal (c : Client) : Op → Prop
  | .allocPage => True
  | .allocPool n _ => 1 ≤ n
  | .freePage p => p ∈ c.pages

/-- One legal call that answers. -/
def Step (c c' : Client) : Prop := ∃ op, c.Legal op ∧ c.step op = .ok c'

/-- The client that holds nothing. -/
def start (s : State) : Client := ⟨s, [], []⟩

end Client

/-- The bytes of a run of pages. -/
def bytes (b : Nat × Nat) : Set Nat := Set.Ico b.1 (b.1 + b.2 * pageSize)

/-- The bytes of the free pages. -/
def freeBytes (f : PageMap) : Set Nat := {x | f (x / pageSize) = some .free}

/-- The bytes of a run are those of its pages. -/
theorem mem_bytes {k n x : Nat} :
    x ∈ bytes (k * pageSize, n) ↔ k ≤ x / pageSize ∧ x / pageSize < k + n := by
  have pos : 0 < pageSize := by simp [pageSize]
  rw [bytes, Set.mem_Ico, ← Nat.add_mul, Nat.le_div_iff_mul_le pos, Nat.div_lt_iff_lt_mul pos]

/-- The record of the client agrees with the manager, the pages free in `f₀` being its own. -/
structure Sound (f₀ : PageMap) (c : Client) (f : PageMap) : Prop where
  manages : Manages c.mem f
  open_ : ∀ k, f₀ k = some .free → f k = some .free ∨ f k = some .used
  aligned : ∀ b ∈ c.held, ∃ k, b.1 = k * pageSize ∧ 0 < b.2
  ledger : Ledger (freeBytes f₀) (freeBytes f) (c.held.map bytes)

section
variable {f₀ f f' g : PageMap} {c c' : Client} {k n : Nat} {H : List (Set Nat)}

/-- Pages taken go to the ledger. -/
theorem Takes.ledger (h : Takes f k n g) (l : Ledger (freeBytes f₀) (freeBytes f) H) :
    Ledger (freeBytes f₀) (freeBytes g) (bytes (k * pageSize, n) :: H) := by
  obtain ⟨-, free, rfl⟩ := h
  refine l.take (fun x hx => ?_) (fun x hx => ?_)
  · rw [mem_bytes] at hx
    have := free (x / pageSize - k) (by omega)
    rwa [Nat.add_sub_cancel' hx.1] at this
  · by_cases inside : k ≤ x / pageSize ∧ x / pageSize < k + n
    · have : fill f k n .used (x / pageSize) = some .free := hx
      rw [fill_inside inside.1 inside.2] at this
      cases this
    · have : fill f k n .used (x / pageSize) = some .free := hx
      rw [fill_outside inside] at this
      exact ⟨this, fun mem => inside (mem_bytes.mp mem)⟩

/-- A page that was free when the run began is free or used after. -/
theorem Takes.open_ (h : Takes f k n g)
    (o : ∀ j, f₀ j = some .free → f j = some .free ∨ f j = some .used) :
    ∀ j, f₀ j = some .free → g j = some .free ∨ g j = some .used := by
  obtain ⟨-, -, rfl⟩ := h
  intro j hj
  by_cases inside : k ≤ j ∧ j < k + n
  · exact Or.inr (fill_inside inside.1 inside.2)
  · rw [fill_outside inside]
    exact o j hj

/-- Pages taken one after another go to the ledger one after another. -/
theorem TakesEach.ledger {ps : List Nat} : ∀ {f g : PageMap} {H : List (Set Nat)},
    TakesEach f ps g → Ledger (freeBytes f₀) (freeBytes f) H →
    (∀ j, f₀ j = some .free → f j = some .free ∨ f j = some .used) →
    Ledger (freeBytes f₀) (freeBytes g) (((ps.filter (· ≠ 0)).map fun p => bytes (p, 1)) ++ H) ∧
      (∀ j, f₀ j = some .free → g j = some .free ∨ g j = some .used) ∧
      ∀ p ∈ ps, p ≠ 0 → ∃ k, p = k * pageSize := by
  -- A call that was answered `NULL` took no page, and is left out of the ledger.
  induction ps with
  | nil =>
    rintro f g H rfl l o
    exact ⟨l, o, by simp⟩
  | cons p ps ih =>
    intro f g H h l o
    rw [TakesEach] at h
    split at h
    next h0 =>
      obtain ⟨l', o', a⟩ := ih h l o
      refine ⟨by simpa [h0] using l', o', fun q hq => ?_⟩
      rcases List.mem_cons.mp hq with rfl | hq
      · exact fun ne => absurd h0 ne
      · exact a q hq
    next h0 =>
      obtain ⟨k, f', hk, takes, each⟩ := h
      obtain ⟨l', o', a⟩ := ih each (takes.ledger l) (takes.open_ o)
      refine ⟨l'.perm ?_, o', fun q hq => ?_⟩
      · have : (p :: ps).filter (· ≠ 0) = p :: ps.filter (· ≠ 0) := by simp [h0]
        rw [this, List.map_cons, List.cons_append, ← hk]
        exact List.perm_middle.symm
      · rcases List.mem_cons.mp hq with rfl | hq
        · exact fun _ => ⟨k, hk⟩
        · exact a q hq

/-- A page held is used, and was free when the run began. -/
theorem Sound.page_used (h : Sound f₀ c f) {b : Nat × Nat} (hb : b ∈ c.held) {k : Nat}
    (hk : b.1 ≤ k * pageSize) (lt : k * pageSize < b.1 + b.2 * pageSize) :
    f k = some .used := by
  have mem : k * pageSize ∈ bytes b := ⟨hk, lt⟩
  have := h.ledger.held_sub _ (List.mem_map_of_mem hb) mem
  simp only [freeBytes, Set.mem_sdiff, Set.mem_ofPred_eq,
    Nat.mul_div_cancel _ (show 0 < pageSize by simp [pageSize])] at this
  exact (h.open_ k this.1).resolve_left this.2

/-- Every legal call keeps the record sound; none follows a null link or runs for ever. The one
fault left is a descriptor array without a free slot. -/
theorem Sound.step (h : Sound f₀ c f) {op : Op} (legal : c.Legal op) :
    Yields OutOfSections (fun c' => ∃ g, Sound f₀ c' g) (c.step op) := by
  cases op with
  | allocPage =>
    refine h.manages.allocPage.bind fun ⟨p, s⟩ ans => ?_
    rcases ans with ⟨h0, hm, -⟩ | ⟨k, g, hk, takes, hm⟩
    · simp only at h0 hm
      simp only [h0, ↓reduceIte, pure_eq_ok, yields_ok]
      exact ⟨f, hm, h.open_, h.aligned, h.ledger⟩
    · simp only at hk hm
      have ne : p ≠ 0 := by
        have := takes.1
        simp only [hk, pageSize]
        omega
      simp only [ne, ↓reduceIte, pure_eq_ok, yields_ok]
      refine ⟨g, hm, takes.open_ h.open_, ?_, ?_⟩
      · intro b hb
        simp only [Client.held, List.map_cons, List.cons_append, List.mem_cons] at hb
        rcases hb with rfl | hb
        · exact ⟨k, hk, Nat.one_pos⟩
        · exact h.aligned b hb
      · have := takes.ledger h.ledger
        rwa [← hk] at this
  | allocPool n m =>
    refine (h.manages.allocPool n m).bind fun ⟨base, taken, s⟩ ⟨f', each, ans⟩ => ?_
    simp only at each ans ⊢
    obtain ⟨l', o', a'⟩ := each.ledger h.ledger h.open_
    have pages_aligned : ∀ b ∈ (taken.filter (· ≠ 0) ++ c.pages).map (·, 1) ++ c.pools,
        ∃ k, b.1 = k * pageSize ∧ 0 < b.2 := by
      intro b hb
      simp only [List.map_append, List.append_assoc, List.mem_append] at hb
      rcases hb with hb | hb
      · obtain ⟨p, hp, rfl⟩ := List.mem_map.mp hb
        simp only [List.mem_filter, decide_eq_true_eq] at hp
        obtain ⟨k, hk⟩ := a' p hp.1 hp.2
        exact ⟨k, hk, Nat.one_pos⟩
      · exact h.aligned b (List.mem_append.mpr hb)
    have pages_ledger : Ledger (freeBytes f₀) (freeBytes f')
        (((taken.filter (· ≠ 0) ++ c.pages).map (·, 1) ++ c.pools).map bytes) := by
      simpa [Client.held, Function.comp_def] using l'
    rcases ans with ⟨h0, hm⟩ | ⟨k, g, hk, takes, hm⟩
    · simp only [h0, ↓reduceIte, pure_eq_ok, yields_ok]
      exact ⟨f', hm, o', pages_aligned, pages_ledger⟩
    · have ne : base ≠ 0 := by
        have := takes.1
        simp only [hk, pageSize]
        omega
      simp only [ne, ↓reduceIte, pure_eq_ok, yields_ok]
      have perm : ((taken.filter (· ≠ 0) ++ c.pages).map (·, 1) ++ (base, n) :: c.pools).Perm
          ((base, n) :: ((taken.filter (· ≠ 0) ++ c.pages).map (·, 1) ++ c.pools)) :=
        List.perm_middle
      refine ⟨g, hm, takes.open_ o', ?_, ?_⟩
      · intro b hb
        rcases List.mem_cons.mp (perm.mem_iff.mp hb) with rfl | hb
        · exact ⟨k, hk, legal⟩
        · exact pages_aligned b hb
      · have := takes.ledger pages_ledger
        rw [← hk] at this
        exact this.perm (perm.map bytes)
  | freePage p =>
    have mem : (p, 1) ∈ c.held := List.mem_append_left _ (List.mem_map_of_mem legal)
    have perm : c.held.Perm ((p, 1) :: ((c.pages.erase p).map (·, 1) ++ c.pools)) :=
      ((List.perm_cons_erase legal).map _).append_right _
    obtain ⟨k, hk, -⟩ := h.aligned _ mem
    simp only at hk
    subst hk
    have used := h.page_used mem le_rfl (by simp only [pageSize]; omega)
    have ledger := h.ledger.perm (perm.map bytes).symm
    have aligned : ∀ b ∈ (c.pages.erase (k * pageSize)).map (·, 1) ++ c.pools,
        ∃ k, b.1 = k * pageSize ∧ 0 < b.2 := fun b hb =>
      h.aligned b (perm.mem_iff.mpr (List.mem_cons_of_mem _ hb))
    refine (h.manages.freePage used).bind fun s hm => ?_
    rcases hm with hm | hm
    · exact ⟨f, hm, h.open_, aligned, ledger.give Set.subset_union_left⟩
    · refine ⟨_, hm, fun j hj => ?_, aligned, ledger.give fun x hx => ?_⟩
      · rw [Function.update_apply]
        split
        · exact Or.inl rfl
        · exact h.open_ j hj
      · have hx : Function.update f k (some .free) (x / pageSize) = some .free := hx
        rw [Function.update_apply] at hx
        split at hx
        next e => exact Or.inr (mem_bytes.mpr ⟨e.ge, by omega⟩)
        next => exact Or.inl hx

/-- The run rule: what a sound client reaches by legal calls is sound. It is the induction that the
theorems about runs of the allocator share. -/
theorem Sound.run (h : ∃ f, Sound f₀ c f) (run : Relation.ReflTransGen Client.Step c c') :
    ∃ g, Sound f₀ c' g := by
  induction run with
  | refl => exact h
  | tail _ step ih =>
    obtain ⟨op, legal, ok⟩ := step
    obtain ⟨g, hg⟩ := ih
    exact (hg.step legal).of_ok ok

end

/-! ## Runs from `pmm_start` -/

section
variable {memory : Nat → Descriptor} {map : List MemoryMapEntry} {s₀ : State}

/-- The pages free after `pmm_start`: those of the free entries, without the descriptors. -/
theorem Started.free_iff {l : List (Nat × Section)} (h : Started map s₀ l) {p : Nat}
    (hp : typeAt (data l) p = some .free) : kindIn map p = .free ∧ ¬ Metadata s₀ p := by
  have meta_no : ¬ Metadata s₀ p := fun hm => by
    rw [(h.inside p hm).1] at hp
    cases hp
  have lt : p < endPage 0 map := by
    rw [← h.pages]
    by_contra ge
    rw [pagesOf_le_iff.mp (Nat.le_of_not_lt ge)] at hp
    cases hp
  rw [h.outside p lt meta_no] at hp
  exact ⟨by simpa using hp, meta_no⟩

/-- The client that holds nothing is sound. -/
theorem sound_start {l : List (Nat × Section)} (h : Started map s₀ l) :
    Sound (typeAt (data l)) (Client.start s₀) (typeAt (data l)) :=
  ⟨⟨h.open_, l, h.list, h.layout, h.apart, rfl⟩, fun _ hj => Or.inl hj, by simp [Client.held,
    Client.start], Ledger.empty subset_rfl⟩

end

end Skylight.Pmm
