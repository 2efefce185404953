import Skylight.Lib.Bytes
import Skylight.Laws.Pmm.Contracts
import Skylight.Laws.Pmm.Pools

/-!
# What a client of the allocator holds

The runs of pages that the page frame allocator has given out, as the code that asked for them sees
them: whole pages of memory, not the first one, which end where memory does, and of which no two
have a byte in common.
-/

namespace Skylight.Pmm

/-- Runs of pages that lie apart, below a limit and not at zero. -/
structure Holdings (limit : Nat) (runs : List (Nat × Nat)) : Prop where
  apart : runs.Pairwise fun a b => Disjoint (bytes a) (bytes b)
  whole : ∀ b ∈ runs, ∃ k, 0 < k ∧ b.1 = k * pageSize ∧ 0 < b.2
  below : ∀ b ∈ runs, b.1 + b.2 * pageSize ≤ limit

section
variable {memory : Nat → Descriptor} {map : List MemoryMapEntry} {s₀ : State} {c : Client}
  {limit : Nat} {runs : List (Nat × Nat)} {a b : Nat × Nat} {i j : Nat}

/-- A valid map has no free memory at zero. -/
theorem ValidMap.free_pos (valid : ValidMap map) {e : MemoryMapEntry} (mem : e ∈ map)
    (free : e.signal = memoryMapFree) : 0 < e.base := by
  obtain ⟨rest, rfl⟩ : ∃ rest, map = ⟨0, megabyte, memoryMapNouse⟩ :: rest := by
    have first := valid.first
    cases map with
    | nil => cases first
    | cons d rest =>
      cases first
      exact ⟨rest, rfl⟩
  rcases List.mem_cons.mp mem with rfl | later
  · cases free
  · exact Nat.lt_of_lt_of_le (by simp [megabyte]) (valid.bases e later).1

/-- What a client holds is in free memory of the map. -/
theorem held_free (valid : ValidMap map) (start : pmmStart memory map = .ok s₀)
    (run : Relation.ReflTransGen Client.Step (Client.start s₀) c) (hb : b ∈ c.held) {x : Nat}
    (hx : x ∈ bytes b) : ∃ e ∈ map, e.signal = memoryMapFree ∧ e.base ≤ x ∧ x < e.fin := by
  obtain ⟨l₀, h₀⟩ := pmmStart_ok valid start
  obtain ⟨f, sound⟩ := Sound.run ⟨_, sound_start h₀⟩ run
  have order := valid.inOrder_all
  have pos : 0 < pageSize := by simp [pageSize]
  have avail := (sound.ledger.held_sub _ (List.mem_map_of_mem hb) hx).1
  obtain ⟨e, mem, free, covers⟩ := order.kindIn_free.mp (h₀.free_iff avail).1
  obtain ⟨k, n, hk, hn⟩ := order.aligned e mem
  have near := (covers_iff hk hn).mp covers
  refine ⟨e, mem, free, ?_, ?_⟩
  · rw [hk]
    exact (Nat.le_div_iff_mul_le pos).mp near.1
  · rw [(fin_div hk hn).1]
    exact (Nat.div_lt_iff_lt_mul pos).mp near.2

/-- What a client holds, or some of it, in every run from the state `pmm_start` builds. -/
theorem holdings_of_run (valid : ValidMap map) (start : pmmStart memory map = .ok s₀)
    (run : Relation.ReflTransGen Client.Step (Client.start s₀) c) (sub : runs.Subperm c.held)
    (ends : ∀ e ∈ map, e.fin ≤ limit) : Holdings limit runs := by
  obtain ⟨l₀, h₀⟩ := pmmStart_ok valid start
  obtain ⟨f, sound⟩ := Sound.run ⟨_, sound_start h₀⟩ run
  have pos : 0 < pageSize := by simp [pageSize]
  refine ⟨?_, fun b hb => ?_, fun b hb => ?_⟩
  · obtain ⟨l, perm, sublist⟩ := sub
    have apart := (List.pairwise_map.mp sound.ledger.disjoint).sublist sublist
    exact (perm.pairwise_iff fun h => h.symm).mp apart
  · obtain ⟨k, hk, some_pages⟩ := sound.aligned b (sub.subset hb)
    refine ⟨k, ?_, hk, some_pages⟩
    have first : b.1 ∈ bytes b := ⟨le_rfl, Nat.lt_add_of_pos_right (Nat.mul_pos some_pages pos)⟩
    obtain ⟨e, mem, free, le, -⟩ := held_free valid start run (sub.subset hb) first
    have base := valid.free_pos mem free
    rw [hk] at le
    exact Nat.pos_of_mul_pos_right (Nat.lt_of_lt_of_le base le)
  · obtain ⟨k, hk, some_pages⟩ := sound.aligned b (sub.subset hb)
    have size := Nat.mul_pos some_pages pos
    have last : b.1 + b.2 * pageSize - 1 ∈ bytes b := ⟨by omega, by omega⟩
    obtain ⟨e, mem, -, -, lt⟩ := held_free valid start run (sub.subset hb) last
    have := ends e mem
    omega

/-- Some of the runs are held as well. -/
theorem Holdings.sublist {runs' : List (Nat × Nat)} (h : Holdings limit runs)
    (sub : runs'.Sublist runs) : Holdings limit runs' :=
  ⟨h.apart.sublist sub, fun b hb => h.whole b (sub.subset hb),
    fun b hb => h.below b (sub.subset hb)⟩

/-- Runs at different places of the list have no byte in common. -/
theorem Holdings.disjoint (h : Holdings limit runs) (first : runs[i]? = some a)
    (second : runs[j]? = some b) (ne : i ≠ j) : Disjoint (bytes a) (bytes b) := by
  obtain ⟨hi, rfl⟩ := List.getElem?_eq_some_iff.mp first
  obtain ⟨hj, rfl⟩ := List.getElem?_eq_some_iff.mp second
  have apart := List.pairwise_iff_getElem.mp h.apart
  rcases Nat.lt_or_gt_of_ne ne with lt | gt
  · exact apart i j hi hj lt
  · exact (apart j i hj hi gt).symm

/-- Runs of two parts of the list have no byte in common. -/
theorem Holdings.disjoint_append {front rest : List (Nat × Nat)}
    (h : Holdings limit (front ++ rest))
    (first : a ∈ front) (second : b ∈ rest) : Disjoint (bytes a) (bytes b) :=
  (List.pairwise_append.mp h.apart).2.2 a first b second

/-- A run, seen from the code: a range of addresses that does not go round. -/
theorem inRange_iff_bytes {p x : Bytes.Addr} {n : Nat} (fits : p.toNat + n * pageSize ≤ 2 ^ 64) :
    Bytes.InRange p (0x1000 * n) x ↔ x.toNat ∈ bytes (p.toNat, n) := by
  rw [Nat.mul_comm, show n * 0x1000 = n * pageSize from rfl, Bytes.inRange_iff fits]
  rfl

end

end Skylight.Pmm
