import Mathlib.Data.BitVec
import Skylight.Mem.Pmm.Realloc
import Skylight.Laws.Pmm.Pools
import Skylight.Laws.Pmm.Traces

/-!
# Giving a pool another size

`pmm_realloc_pool` counts in three numbers of pages: those of the record, which it copies, clears
and frees; those that were asked for, which it locks; and those of the section it finds, which it
records. The new pool is right just when the three agree as far as they have to.

`realloc_pool_iff` is exact, in every state that calls which did what they should lead to: the
pool is moved as its caller asked (`Resized`) just when the record found is its own, the first
section that can hold the new size has just that many pages, and the old size is not above the
new one, unless the new pool ends where the old one begins (`Fits`). The contents are followed
byte by byte.
-/

namespace Skylight.Pmm

open Chain RunLength Bytes

/-- The pages that `pmm_realloc_pool` gives to `pmm_free_page`. -/
def released (s : State) (pool : Nat) : List Nat :=
  match s.pools.find? (·.base = pool) with
  | some p => p.addresses
  | none => []

/-- A free section has `n` pages. -/
def HasSection (s : State) (n : Nat) : Prop :=
  ∃ l, Represents s l ∧ ∃ v ∈ data l, v.HasRoom n

/-- What a call makes of the pool of `m` pages at `base`, which is to have `n`: the pages that it
answers were free and are used, no page outside of them and of the old ones changes or is written,
the contents go along as far as both pools reach, the record is of the new pool, and the old
pages are given to `pmm_free_page`. -/
structure Resized (s : State) (f : PageMap) (base m n : Nat) (content : Memory)
    (r : Nat × Contents × State) : Prop where
  pages : ∃ k g, r.1 = k * pageSize ∧ (∀ j < n, f (k + j) = some .free) ∧ Shows r.2.2 g ∧
    (∀ j < n, g (k + j) = some .used) ∧
    ∀ j, j * pageSize ∉ Pmm.bytes (base, m) → j * pageSize ∉ Pmm.bytes (r.1, n) → g j = f j
  recorded : ∃ before after, s.pools = before ++ ⟨m, base⟩ :: after ∧
    r.2.2.pools = before ++ ⟨n, r.1⟩ :: after
  preserved : ∀ i < min m n * pageSize,
    r.2.1.bytes (BitVec.ofNat 64 (r.1 + i)) = content (BitVec.ofNat 64 (base + i))
  released : released s base = (List.range m).map fun i => base + i * pageSize
  confined : ∀ w ∈ r.2.1.written, ∀ x, InRange w.1 w.2 x →
    x.toNat ∈ Pmm.bytes (base, m) ∪ Pmm.bytes (r.1, n)

/-- The first record at the address is of `m` pages, the first free section that can hold `n` has
no more, and `m` pages copied to it end in it or in the old pool. -/
structure Fits (s : State) (base m n : Nat) : Prop where
  own : s.pools.find? (·.base = base) = some ⟨m, base⟩
  whole : ∃ l v, Represents s l ∧ (data l).find? (·.HasRoom n) = some v ∧ v.pages = n ∧
    (m ≤ n ∨ v.start + n * pageSize = base)

/-- A call of a client of pools: one of a client of pages, a pool given back whose own record is the
first that reaches it, a pool of another size where the counts agree, and a request for one when
no section is long enough. -/
inductive ResizeStep : Client → Client → Prop
  | call {c c' : Client} (step : Client.Step c c') : ResizeStep c c'
  | free {c : Client} {base n : Nat} {s : State} (live : (base, n) ∈ c.pools)
      (own : c.mem.pools.find? (·.Reaches base) = some ⟨n, base⟩)
      (run : pmmFreePool c.mem base = .ok s) :
      ResizeStep c { c with mem := s, pools := c.pools.erase (base, n) }
  | realloc {c : Client} {base m n : Nat} {content : Memory} {r : Nat × Contents × State}
      (live : (base, m) ∈ c.pools) (pos : 1 ≤ n) (fits : Fits c.mem base m n)
      (run : pmmReallocPool c.mem ⟨content, []⟩ base n = .ok r) :
      ResizeStep c { c with mem := r.2.2, pools := (r.1, n) :: c.pools.erase (base, m) }
  | refuse {c : Client} {base m n : Nat} {content : Memory} {r : Nat × Contents × State}
      (live : (base, m) ∈ c.pools) (none : NoSection c.mem n)
      (run : pmmReallocPool c.mem ⟨content, []⟩ base n = .ok r) :
      ResizeStep c { c with mem := r.2.2 }

section
variable {s s' : State} {f : PageMap} {c : Contents} {pool n a : Nat} {p : Pool}
  {passed before after rest : List Pool} {r : Nat × Contents × State}

/-! ### What the call computes -/

/-- Records of other addresses are passed. -/
theorem reallocLoop_pass (others : ∀ q ∈ before, q.base ≠ pool) : ∀ {passed : List Pool},
    reallocLoop pool n s c passed (before ++ rest)
      = reallocLoop pool n s c (passed ++ before) rest := by
  induction before with
  | nil =>
    intro passed
    rw [List.nil_append, List.append_nil]
  | cons q before ih =>
    intro passed
    rw [List.forall_mem_cons] at others
    rw [List.cons_append, reallocLoop, if_neg others.1, ih others.2, List.append_assoc]
    rfl

/-- Without a section every record is passed. -/
theorem reallocLoop_none (none : poolSection n s.fuel s s.first = .ok none) :
    ∀ {passed : List Pool}, reallocLoop pool n s c passed rest = .ok Option.none := by
  induction rest with
  | nil =>
    intro passed
    rfl
  | cons q rest ih =>
    intro passed
    rw [reallocLoop]
    split
    · rw [none]
      exact ih
    · exact ih

/-- Without a section for it the old pool is answered, and neighbours are joined. -/
theorem pmmReallocPool_none (open_ : s.allowing = true) (some : s.pools ≠ [])
    (nonzero : pool ≠ 0) (none : poolSection n s.fuel s s.first = .ok none) :
    pmmReallocPool s c pool n = do
      let s ← pmmRecombine s
      return (pool, c, s) := by
  unfold pmmReallocPool
  rw [if_neg (not_not.mpr open_), if_neg some, if_neg nonzero, reallocLoop_none none]
  rfl

/-- What memory holds after the copy and the clearing. -/
def Contents.moved (c : Contents) (to' : Nat) (p : Pool) : Contents :=
  (c.memcpy to' p.base (Word.mul p.pages pageSize)).memset p.base (Word.mul p.pages pageSize)

/-- With one, the calls in the order of the source. -/
theorem pmmReallocPool_found (open_ : s.allowing = true) (nonzero : pool ≠ 0)
    (split : s.pools = before ++ p :: after) (others : ∀ q ∈ before, q.base ≠ pool)
    (here : p.base = pool) (found : poolSection n s.fuel s s.first = .ok (some a)) :
    pmmReallocPool s c pool n = do
      let s' ← pmmLockPages s (s.sec a).start n
      let s' ← pmmUnlockPages s' p.base p.pages
      return ((s.sec a).start, c.moved (s.sec a).start p,
        { s' with pools := before ++ ⟨(s.sec a).pages, (s.sec a).start⟩ :: after }) := by
  have some : s.pools ≠ [] := by
    rw [split]
    exact List.append_ne_nil_of_right_ne_nil _ (List.cons_ne_nil _ _)
  unfold pmmReallocPool
  rw [if_neg (not_not.mpr open_), if_neg some, if_neg nonzero, split, reallocLoop_pass others,
    List.nil_append, reallocLoop, if_pos here, found]
  show ((pmmLockPages s (s.sec a).start n >>= _) >>= _) = _
  cases lock : pmmLockPages s (s.sec a).start n with
  | error e => rfl
  | ok s₁ =>
    show ((pmmUnlockPages s₁ p.base p.pages >>= _) >>= _) = (pmmUnlockPages s₁ _ _ >>= _)
    cases pmmUnlockPages s₁ p.base p.pages with
    | error e => rfl
    | ok s₂ => rfl

/-! ### What memory holds -/

variable {k k' m base i : Nat} {content : Memory} {x : Addr}

/-- A page of a run. -/
theorem page_mem_bytes {j : Nat} : j * pageSize ∈ Pmm.bytes (k * pageSize, n) ↔
    k ≤ j ∧ j < k + n := by
  rw [mem_bytes, Nat.mul_div_cancel _ (by simp [pageSize])]

/-- A range that ends in the address space. -/
theorem inRange_ofNat (pos : 0 < n) (small : base + n ≤ 2 ^ 64) :
    InRange (BitVec.ofNat 64 base) n x ↔ base ≤ x.toNat ∧ x.toNat < base + n := by
  have value : (BitVec.ofNat 64 base).toNat = base := by
    rw [BitVec.toNat_ofNat]
    exact Nat.mod_eq_of_lt (by omega)
  rw [inRange_iff (by rw [value]; exact small), value]

/-- The copy and the clearing, in numbers that do not wrap. -/
theorem moved_eq (small : base + m * pageSize < 2 ^ 64) : c.moved k ⟨m, base⟩ =
    (c.memcpy k base (m * pageSize)).memset base (m * pageSize) := by
  have pages : Word.mul m pageSize = m * pageSize := Word.mul_eq (by omega)
  show (c.memcpy k base (Word.mul m pageSize)).memset base (Word.mul m pageSize) = _
  rw [pages]

/-- A byte of the new pool is that of the old one. -/
theorem moved_bytes (small : base + m * pageSize < 2 ^ 64) (lt : i < m * pageSize)
    (room : k + i < 2 ^ 64) (apart : k + i ∉ Pmm.bytes (base, m))
    (behind : ∀ j < i, k + j ≠ base + i) :
    (c.moved k ⟨m, base⟩).bytes (BitVec.ofNat 64 (k + i))
      = c.bytes (BitVec.ofNat 64 (base + i)) := by
  have value : (BitVec.ofNat 64 (k + i)).toNat = k + i := by
    rw [BitVec.toNat_ofNat]
    exact Nat.mod_eq_of_lt room
  have outside : ¬ InRange (BitVec.ofNat 64 base) (m * pageSize) (BitVec.ofNat 64 (k + i)) := by
    rw [inRange_ofNat (by omega) small.le, value]
    exact apart
  rw [moved_eq small]
  apply (memset_of_not outside).trans
  show Bytes.memcpy _ _ _ _ _ = _
  rw [BitVec.ofNat_add, BitVec.ofNat_add, memcpy_at (by omega) lt]
  intro j less same
  apply behind j less
  rw [← BitVec.ofNat_add, ← BitVec.ofNat_add] at same
  have value := congrArg BitVec.toNat same
  rw [BitVec.toNat_ofNat, BitVec.toNat_ofNat, Nat.mod_eq_of_lt (by omega),
    Nat.mod_eq_of_lt (by omega)] at value
  exact value.symm

/-- What is written: the new pool, and the old one. -/
theorem moved_written (small : base + m * pageSize < 2 ^ 64) :
    (Contents.moved ⟨content, []⟩ k ⟨m, base⟩).written =
      [(BitVec.ofNat 64 k, m * pageSize), (BitVec.ofNat 64 base, m * pageSize)] := by
  rw [moved_eq small]
  rfl

end

/-! ### The pool of another size -/

section
variable {f₀ f g : PageMap} {c c' : Client} {s s' : State} {base m n k k' : Nat} {v : Section}
  {content : Memory} {l : List (Nat × Section)} {before after : List Pool}

/-- The section that is found. -/
theorem Manages.found (h : Manages s f) (hr : Represents s l)
    (first : (data l).find? (·.HasRoom n) = some v) : ∃ a k, v.start = k * pageSize ∧ 0 < k ∧
      poolSection n s.fuel s s.first = .ok (some a) ∧ s.sec a = v ∧ v.HasRoom n ∧
      ∀ j < n, f (k + j) = some .free := by
  obtain ⟨l', hr', lay, -, rfl⟩ := h.list
  obtain rfl := hr.unique hr'
  rw [data, List.find?_map, Option.map_eq_some_iff] at first
  obtain ⟨⟨a, w⟩, found, rfl⟩ := first
  have room : w.HasRoom n := by simpa using List.find?_some found
  have walk := @poolSection_found s n l hr
  have found' : l.find? (fun x => x.2.HasRoom n) = some (a, w) := found
  rw [found'] at walk
  obtain ⟨-, l₁, l₂, rfl, -⟩ := List.find?_eq_some_iff_append.mp found
  have lay' : Layout (data l₁ ++ w :: data l₂) := by simpa using lay
  have kind : w.free ≠ .bad := by rw [room.2]; simp
  refine ⟨a, pagesOf (data l₁), lay'.start_eq, lay'.pagesOf_pos (lay'.ne_nil kind).1, walk,
    hr.sec_eq, room, fun j lt => ?_⟩
  rw [data_append, data_cons, ← room.2, typeAt, runs_append, runs_cons]
  exact valueAt_run (Nat.le_add_right ..)
    (Nat.add_lt_add_left (Nat.lt_of_lt_of_le lt room.1) _)

/-- There is a first section that can hold the pool. -/
theorem HasSection.first (h : HasSection s n) (hr : Represents s l) :
    ∃ v, (data l).find? (·.HasRoom n) = some v := by
  obtain ⟨l', hr', v, mem, room⟩ := h
  obtain rfl := hr.unique hr'
  exact Option.isSome_iff_exists.mp (List.find?_isSome.mpr ⟨v, mem, decide_eq_true room⟩)

/-- The pages of a pool go to `pmm_free_page` one after the other. -/
theorem pmmUnlockPages_eq (open_ : s.allowing = true) (fits : base + m * pageSize < 2 ^ 64) :
    pmmUnlockPages s base m
      = ((List.range m).map fun i => base + i * pageSize).foldlM pmmFreePage s := by
  rw [← addresses_eq fits, Pool.addresses, List.range_eq_range', ← eachPage_eq, pmmUnlockPages,
    if_neg (not_not.mpr open_)]

/-- The pages freed are those of the first record at the address. -/
theorem released_of_split (split : s.pools = before ++ ⟨m, base⟩ :: after)
    (others : ∀ q ∈ before, q.base ≠ base) (fits : base + m * pageSize < 2 ^ 64) :
    released s base = (List.range m).map fun i => base + i * pageSize := by
  have found : s.pools.find? (·.base = base) = some ⟨m, base⟩ := by
    rw [List.find?_eq_some_iff_append]
    refine ⟨decide_eq_true rfl, before, after, split, fun q mem => ?_⟩
    simpa using others q mem
  rw [released, found]
  exact addresses_eq fits

/-- The free run and the used one have no page in common. -/
theorem runs_apart (free : ∀ j < n, f (k' + j) = some .free)
    (used : ∀ j < m, f (k + j) = some .used) {j : Nat} (new : k' ≤ j ∧ j < k' + n) :
    ¬ (k ≤ j ∧ j < k + m) := by
  intro old
  have one := free (j - k') (by omega)
  have other := used (j - k) (by omega)
  rw [Nat.add_sub_cancel' new.1] at one
  rw [Nat.add_sub_cancel' old.1, one] at other
  cases other

/-- The moved pool is what was asked for. -/
theorem Manages.resized (h : Manages s f) (mpos : 1 ≤ m) (npos : 1 ≤ n)
    (used : ∀ j < m, f (k + j) = some .used) (free : ∀ j < n, f (k' + j) = some .free)
    (shows : Shows s' g) (same : ∀ j, g j = fill f k' n .used j ∨
      (k ≤ j ∧ j < k + m) ∧ g j = some .free)
    (stays : m ≤ n ∨ k' * pageSize + n * pageSize = k * pageSize)
    (split : s.pools = before ++ ⟨m, k * pageSize⟩ :: after)
    (others : ∀ q ∈ before, q.base ≠ k * pageSize)
    (pools : s'.pools = before ++ ⟨n, k' * pageSize⟩ :: after) :
    Resized s f (k * pageSize) m n content
      (k' * pageSize, Contents.moved ⟨content, []⟩ (k' * pageSize) ⟨m, k * pageSize⟩, s') := by
  have old : k * pageSize + m * pageSize < 2 ^ 64 := h.fits mpos used (by simp)
  have new : k' * pageSize + n * pageSize < 2 ^ 64 := h.fits npos free (by simp)
  refine ⟨⟨k', g, rfl, free, shows, fun j lt => ?_, fun j offOld offNew => ?_⟩,
    ⟨before, after, split, pools⟩, fun i lt => ?_, released_of_split split others old, ?_⟩
  · have inside : k' ≤ k' + j ∧ k' + j < k' + n := by omega
    rcases same (k' + j) with eq | ⟨here, -⟩
    · rw [eq, fill_inside inside.1 inside.2]
    · exact absurd here (runs_apart free used inside)
  · rw [page_mem_bytes] at offOld
    have offNew' : ¬ (k' ≤ j ∧ j < k' + n) := fun inside => offNew (page_mem_bytes.mpr inside)
    rcases same j with eq | ⟨here, -⟩
    · rw [eq, fill_outside offNew']
    · exact absurd here offOld
  · have le : i < m * pageSize ∧ i < n * pageSize := by
      constructor
      · exact Nat.lt_of_lt_of_le lt (Nat.mul_le_mul_right _ (Nat.min_le_left ..))
      · exact Nat.lt_of_lt_of_le lt (Nat.mul_le_mul_right _ (Nat.min_le_right ..))
    have here {j : Nat} (less : j < n * pageSize) :
        k' * pageSize + j ∈ Pmm.bytes (k' * pageSize, n) :=
      ⟨Nat.le_add_right _ _, Nat.add_lt_add_left less _⟩
    have apart {x : Nat} (new : x ∈ Pmm.bytes (k' * pageSize, n)) :
        x ∉ Pmm.bytes (k * pageSize, m) := fun inside =>
      runs_apart free used (mem_bytes.mp new) (mem_bytes.mp inside)
    apply moved_bytes old le.1 (by omega) (apart (here le.2))
    intro j less same
    apply apart (here (less.trans le.2))
    rw [same]
    exact ⟨Nat.le_add_right _ _, Nat.add_lt_add_left le.1 _⟩
  · have some : 0 < m * pageSize := Nat.mul_pos mpos (by simp [pageSize])
    have whole : m * pageSize ≤ n * pageSize ∨ k' * pageSize + n * pageSize = k * pageSize :=
      stays.imp_left (Nat.mul_le_mul_right _)
    rw [moved_written old]
    intro w mem x inside
    rw [List.mem_cons, List.mem_singleton] at mem
    rcases mem with rfl | rfl
    · rw [inRange_ofNat some (by omega)] at inside
      show (_ ≤ _ ∧ _ < _) ∨ (_ ≤ _ ∧ _ < _)
      dsimp only
      omega
    · rw [inRange_ofNat some (by omega)] at inside
      exact Or.inl inside

/-- A pool taken is held. -/
theorem Sound.take (h : Sound f₀ c f) (npos : 1 ≤ n) (takes : Takes f k n g)
    (manages : Manages s g) :
    Sound f₀ { c with mem := s, pools := (k * pageSize, n) :: c.pools } g := by
  have perm : (c.pages.map (·, 1) ++ (k * pageSize, n) :: c.pools).Perm
      ((k * pageSize, n) :: c.held) := List.perm_middle
  refine ⟨manages, takes.open_ h.open_, fun b mem => ?_, ?_⟩
  · rcases List.mem_cons.mp (perm.mem_iff.mp mem) with rfl | mem
    · exact ⟨k, rfl, npos⟩
    · exact h.aligned b mem
  · exact (takes.ledger h.ledger).perm (perm.map Pmm.bytes)

/-- Where the counts agree the call moves the pool. -/
theorem Sound.realloc (h : Sound f₀ c f) (live : (base, m) ∈ c.pools) (npos : 1 ≤ n)
    (fits : Fits c.mem base m n) : Yields OutOfSections
      (fun r => Resized c.mem f base m n content r ∧ ∃ g, Sound f₀
        { c with mem := r.2.2, pools := (r.1, n) :: c.pools.erase (base, m) } g)
      (pmmReallocPool c.mem ⟨content, []⟩ base n) := by
  obtain ⟨k, rfl, mpos, used, old⟩ := h.pool live
  have nonzero : k * pageSize ≠ 0 := h.manages.base_ne_zero (used 0 mpos)
  obtain ⟨-, before, after, split, others⟩ := List.find?_eq_some_iff_append.mp fits.own
  have others : ∀ q ∈ before, q.base ≠ k * pageSize := fun q mem => by simpa using others q mem
  obtain ⟨l, v, hr, first, count, stays⟩ := fits.whole
  obtain ⟨a, k', start, pos, found, sec, -, free⟩ := h.manages.found hr first
  rw [pmmReallocPool_found h.manages.open_ nonzero split others rfl found, sec, count, start]
  rw [start] at stays
  have takes : Takes f k' n (fill f k' n .used) := ⟨pos, free, rfl⟩
  apply (h.manages.lockPages free).bind
  intro s₁ h₁
  have held := h.take npos takes h₁
  have used₁ : ∀ j < m, fill f k' n .used (k + j) = some .used := by
    intro j lt
    rw [fill_outside fun new => runs_apart free used new (by omega)]
    exact used j lt
  rw [pmmUnlockPages_eq h₁.open_ old]
  apply (h₁.freePages used₁).bind
  intro s₂ ⟨g, h₂, same⟩
  have kept := h₂.withPools (before ++ ⟨n, k' * pageSize⟩ :: after)
  refine ⟨h.manages.resized mpos npos used free kept.shows same stays split others rfl, g, ?_⟩
  have other : ¬ ((k' * pageSize, n) == (k * pageSize, m)) = true := by
    intro eq
    have page := (Prod.mk.inj (eq_of_beq eq)).1
    have here : k' = k := Nat.eq_of_mul_eq_mul_right (by simp [pageSize]) page
    exact runs_apart free used (j := k') (by omega) (by omega)
  have rest := held.give (List.mem_cons_of_mem _ live) kept same
  rwa [List.erase_cons_tail other] at rest

/-- Two lists that differ from one at a single place each differ at the same one. -/
theorem replaced_eq {α : Type} {before after before' after' : List α} {p q q' : α}
    (one : before ++ p :: after = before' ++ p :: after')
    (other : before ++ q :: after = before' ++ q' :: after') (ne : p ≠ q') : q = q' := by
  have set : before ++ q :: after = (before' ++ p :: after').set before.length q := by
    rw [← one, List.set_append_right _ _ le_rfl, Nat.sub_self, List.set_cons_zero]
  have here := congrArg (·[before'.length]?) (set.symm.trans other)
  simp only [List.getElem?_set, List.getElem?_append_right le_rfl, Nat.sub_self,
    List.getElem?_cons_zero] at here
  split at here
  · exact (by simpa using here : _ ∧ q = q').2
  · exact absurd (Option.some.inj here) ne

/-- The record that is found, where the old pages are those of the pool. -/
theorem released_own (mpos : 1 ≤ m)
    (right : released s base = (List.range m).map fun i => base + i * pageSize) :
    s.pools.find? (·.base = base) = some ⟨m, base⟩ := by
  rw [released] at right
  split at right
  next p found =>
    have here : p.base = base := by simpa using List.find?_some found
    have pages : p.pages = m := by
      have length := congrArg List.length right
      rwa [Pool.addresses, List.length_map, List.length_map, List.length_range,
        List.length_range] at length
    rw [found, ← here, ← pages]
  next =>
    have length := congrArg List.length right
    rw [List.length_map, List.length_range, List.length_nil] at length
    omega

/-- And only where they agree. -/
theorem Sound.fits (h : Sound f₀ c f) (live : (base, m) ∈ c.pools) (npos : 1 ≤ n)
    (room : HasSection c.mem n) {r : Nat × Contents × State}
    (run : pmmReallocPool c.mem ⟨content, []⟩ base n = .ok r)
    (resized : Resized c.mem f base m n content r) : Fits c.mem base m n := by
  obtain ⟨k, rfl, mpos, used, old⟩ := h.pool live
  have nonzero : k * pageSize ≠ 0 := h.manages.base_ne_zero (used 0 mpos)
  have own := released_own mpos resized.released
  obtain ⟨-, before, after, split, others⟩ := List.find?_eq_some_iff_append.mp own
  have others : ∀ q ∈ before, q.base ≠ k * pageSize := fun q mem => by simpa using others q mem
  obtain ⟨l, hr, -⟩ := h.manages.list
  obtain ⟨v, first⟩ := room.first hr
  obtain ⟨a, k', start, pos, found, sec, -, free⟩ := h.manages.found hr first
  have new : k' * pageSize + n * pageSize < 2 ^ 64 := h.manages.fits npos free (by simp)
  rw [pmmReallocPool_found h.manages.open_ nonzero split others rfl found, sec, start] at run
  obtain ⟨s₁, -, run⟩ := ok_of_bind run
  obtain ⟨s₂, -, run⟩ := ok_of_bind run
  obtain rfl := Except.ok.inj run
  refine ⟨own, l, v, hr, first, ?_, ?_⟩
  · obtain ⟨before', after', split', pools⟩ := resized.recorded
    have ne : (⟨m, k * pageSize⟩ : Pool) ≠ ⟨n, k' * pageSize⟩ := by
      intro eq
      have here : k = k' := Nat.eq_of_mul_eq_mul_right (by simp [pageSize]) (Pool.mk.inj eq).2
      exact runs_apart free used (j := k') (by omega) (by omega)
    exact (Pool.mk.inj (replaced_eq (split.symm.trans split') pools ne)).1
  · rw [start]
    by_contra wide
    rw [not_or, Nat.not_le] at wide
    -- the first page that is copied behind the new pool
    have lt : n * pageSize < m * pageSize := Nat.mul_lt_mul_of_pos_right wide.1 (by simp [pageSize])
    have mem : (BitVec.ofNat 64 (k' * pageSize), m * pageSize) ∈
        (Contents.moved ⟨content, []⟩ (k' * pageSize) ⟨m, k * pageSize⟩).written := by
      rw [moved_written old]
      exact List.mem_cons_self
    have inside := resized.confined _ mem _ (inRange_add lt)
    rw [← BitVec.ofNat_add, BitVec.toNat_ofNat, Nat.mod_eq_of_lt new, ← Nat.add_mul] at inside
    rcases inside with inside | inside
    · rw [page_mem_bytes] at inside
      have page : k' + n ≠ k := by
        intro eq
        apply wide.2
        rw [← Nat.add_mul, eq]
      exact runs_apart free used (j := k' + n - 1) (by omega) (by omega)
    · rw [page_mem_bytes] at inside
      omega

/-! ### Along a run -/

/-- A request that finds no section joins equal neighbours and changes no page. -/
theorem Sound.refuse (h : Sound f₀ c f) (live : (base, m) ∈ c.pools) (none : NoSection c.mem n)
    {r : Nat × Contents × State} (run : pmmReallocPool c.mem ⟨content, []⟩ base n = .ok r) :
    Sound f₀ { c with mem := r.2.2 } f := by
  obtain ⟨k, rfl, mpos, used, -⟩ := h.pool live
  have nonzero : k * pageSize ≠ 0 := h.manages.base_ne_zero (used 0 mpos)
  obtain ⟨l, hr, short⟩ := none
  have walk : poolSection n c.mem.fuel c.mem c.mem.first = .ok Option.none := by
    rcases @poolSection_ends c.mem n l hr with ⟨walk, -⟩ | ⟨k, a, v, q, rfl, long, free, -⟩
    · exact walk
    · exact absurd (short v (by simp) free) (Nat.not_lt.mpr long)
  by_cases some : c.mem.pools = []
  · unfold pmmReallocPool at run
    rw [if_neg (not_not.mpr h.manages.open_), if_pos some] at run
    obtain rfl := Except.ok.inj run
    exact h
  · obtain ⟨s', joined, manages⟩ := h.manages.recombine
    rw [pmmReallocPool_none h.manages.open_ some nonzero walk, joined] at run
    obtain rfl := Except.ok.inj run
    exact ⟨manages, h.open_, h.aligned, h.ledger⟩

/-- A step that does what it should keeps the record sound. -/
theorem Sound.resizeStep (h : Sound f₀ c f) (step : ResizeStep c c') : ∃ g, Sound f₀ c' g := by
  cases step with
  | call step =>
    obtain ⟨op, legal, ok⟩ := step
    exact (h.step legal).of_ok ok
  | free live own run => exact h.freePool live own run
  | realloc live pos fits run => exact ((h.realloc live pos fits).of_ok run).2
  | refuse live none run => exact ⟨f, h.refuse live none run⟩

/-- And so does a run. -/
theorem Sound.resizeRun (h : Sound f₀ c f) (run : Relation.ReflTransGen ResizeStep c c') :
    ∃ g, Sound f₀ c' g := by
  induction run with
  | refl => exact ⟨f, h⟩
  | tail _ step ih =>
    obtain ⟨g, h⟩ := ih
    exact h.resizeStep step

end

/-- In every state that calls which do what they should lead to from the state `pmm_start` builds
of a valid map: where the counts agree `pmm_realloc_pool` makes the pool that was asked for, and
where it makes that pool they agree. -/
theorem realloc_pool_iff {memory : Nat → Descriptor} {map : List MemoryMapEntry} {s₀ : State}
    {c : Client} (valid : ValidMap map) (start : pmmStart memory map = .ok s₀)
    (run : Relation.ReflTransGen ResizeStep (Client.start s₀) c) :
    ∃ f, Shows c.mem f ∧ ∀ base m n content, (base, m) ∈ c.pools → 1 ≤ n → HasSection c.mem n →
      (Fits c.mem base m n → Yields OutOfSections (Resized c.mem f base m n content)
        (pmmReallocPool c.mem ⟨content, []⟩ base n)) ∧
      ∀ r, pmmReallocPool c.mem ⟨content, []⟩ base n = .ok r →
        Resized c.mem f base m n content r → Fits c.mem base m n := by
  obtain ⟨l₀, h₀⟩ := pmmStart_ok valid start
  obtain ⟨f, sound⟩ := (sound_start h₀).resizeRun run
  refine ⟨f, sound.manages.shows, fun base m n content live pos room => ⟨fun fits => ?_, ?_⟩⟩
  · exact (sound.realloc live pos fits).imp fun _ both => both.1
  · exact fun r run resized => sound.fits live pos room run resized

/-! ### On the machine -/

/-- The machine with a pool of one page. -/
theorem machine_pool : ∃ (s₀ : State) (c : Client), pmmStart machineMemory machineMap = .ok s₀ ∧
    Relation.ReflTransGen ResizeStep (Client.start s₀) c ∧ MachineAt 258 c.mem ∧
    c.pools = [(513 * pageSize, 1)] ∧ c.mem.pools = [⟨1, 513 * pageSize⟩] := by
  obtain ⟨s₀, start, h₀, -⟩ := machine_start
  obtain ⟨l₀, started⟩ := pmmStart_ok machineMap_valid start
  obtain ⟨s₁, alloc, h₁, pools⟩ := machine_allocPool h₀ (by omega) (by omega)
  rw [started.pools] at pools
  have step : Client.Step (Client.start s₀) ⟨s₁, [], [(513 * pageSize, 1)]⟩ := by
    refine ⟨.allocPool 1 ⟨0, 0⟩, le_rfl, ?_⟩
    simp only [Client.step, Client.start, alloc, ok_bind]
    rfl
  exact ⟨s₀, _, start, .single (.call step), h₁, rfl, pools⟩

/-- What is free on the machine is the first section that can hold a pool. -/
theorem machine_first {i n : Nat} (le : n + i ≤ 16385) :
    (machineList i).find? (·.HasRoom n) = some ⟨(256 + i) * pageSize, 16385 - i, .free⟩ := by
  have first : ¬ firstSection.HasRoom n := fun room => by cases room.2
  have second : ¬ Section.HasRoom n ⟨0x100000, i, .used⟩ := fun room => by cases room.2
  have third : Section.HasRoom n ⟨(256 + i) * pageSize, 16385 - i, .free⟩ :=
    ⟨show 16385 - i ≥ n by omega, rfl⟩
  rw [machineList, List.find?_cons, decide_eq_false first, List.find?_cons,
    decide_eq_false second, List.find?_cons, decide_eq_true third]

/-- The machine has a section for every pool up to its free pages. -/
theorem machine_hasSection {i n : Nat} {s : State} (h : MachineAt i s) (le : n + i ≤ 16385) :
    HasSection s n := by
  obtain ⟨-, l, hr, hl⟩ := h
  have first := machine_first le
  rw [← hl] at first
  exact ⟨l, hr, _, List.mem_of_find?_eq_some first, by simpa using List.find?_some first⟩

/-- The pool of one page gets all that is free. -/
theorem realloc_pool_iff_machine : ∃ (s₀ : State) (c : Client) (f : PageMap),
    pmmStart machineMemory machineMap = .ok s₀ ∧ Shows c.mem f ∧
    (513 * pageSize, 1) ∈ c.pools ∧ Fits c.mem (513 * pageSize) 1 16127 ∧
    Yields OutOfSections (Resized c.mem f (513 * pageSize) 1 16127 0)
      (pmmReallocPool c.mem ⟨0, []⟩ (513 * pageSize) 16127) := by
  obtain ⟨s₀, c, start, run, h, held, pools⟩ := machine_pool
  obtain ⟨f, shows, all⟩ := realloc_pool_iff machineMap_valid start run
  have live : (513 * pageSize, 1) ∈ c.pools := by
    rw [held]
    exact List.mem_singleton_self _
  have fits : Fits c.mem (513 * pageSize) 1 16127 := by
    constructor
    · rw [pools]
      rfl
    · obtain ⟨-, l, hr, hl⟩ := h
      exact ⟨l, _, hr, by rw [hl]; exact machine_first (by omega), rfl, Or.inl (by omega)⟩
  exact ⟨s₀, c, f, start, shows, live, fits,
    (all _ _ _ 0 live (by omega) (machine_hasSection h (by omega))).1 fits⟩

/-- A pool of one page that is to have one page is recorded with all that is free. -/
theorem realloc_pool_not_always : ¬ ∀ (memory : Nat → Descriptor) (map : List MemoryMapEntry)
    (s₀ : State) (c : Client) (f : PageMap) (base m n : Nat) (content : Memory), ValidMap map →
    pmmStart memory map = .ok s₀ → Relation.ReflTransGen ResizeStep (Client.start s₀) c →
    Shows c.mem f → (base, m) ∈ c.pools → 1 ≤ n → HasSection c.mem n →
    Yields OutOfSections (Resized c.mem f base m n content)
      (pmmReallocPool c.mem ⟨content, []⟩ base n) := by
  intro all
  obtain ⟨s₀, c, start, run, h, held, pools⟩ := machine_pool
  obtain ⟨l₀, started⟩ := pmmStart_ok machineMap_valid start
  obtain ⟨f, sound⟩ := (sound_start started).resizeRun run
  have live : (513 * pageSize, 1) ∈ c.pools := by
    rw [held]
    exact List.mem_singleton_self _
  have room : HasSection c.mem 1 := machine_hasSection h (by omega)
  -- the page behind the pool is locked, and its own page, inside its section, stays used
  obtain ⟨a, found, sec⟩ := @machine_poolSection _ _ 1 h (by omega)
  obtain ⟨s₁, lock, h₁, -⟩ := machine_lockPool h (by omega) (by omega)
  obtain ⟨s₂, free⟩ := machine_freePage h₁ (k := 513) (by omega) (by omega) (by decide)
    (by decide)
  have unlock : pmmUnlockPages s₁ (513 * pageSize) 1 = .ok s₂ := by
    rw [pmmUnlockPages_eq h₁.1 (by decide), List.range_one, List.map_singleton, Nat.zero_mul,
      Nat.add_zero, List.foldlM_cons, free]
    rfl
  have split : c.mem.pools = [] ++ ⟨1, 513 * pageSize⟩ :: [] := pools
  have call := @pmmReallocPool_found _ ⟨0, []⟩ _ 1 a _ _ _ h.1 (by decide) split (by simp) rfl found
  rw [sec, lock, ok_bind, unlock] at call
  have resized := (all _ _ _ _ f _ _ 1 0 machineMap_valid start run sound.manages.shows live le_rfl
    room).of_ok call
  obtain ⟨l, v, hr, first, count, -⟩ := (sound.fits live le_rfl room call resized).whole
  obtain ⟨-, l', hr', hl⟩ := h
  obtain rfl := hr.unique hr'
  rw [hl, machine_first (by omega)] at first
  rw [← Option.some.inj first] at count
  cases count

end Skylight.Pmm
