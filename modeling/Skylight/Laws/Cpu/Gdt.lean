import Mathlib.Algebra.GroupWithZero.Nat
import Mathlib.Data.List.GetD
import Skylight.Cpu.Gdt
import Skylight.Lib.Steps

/-!
# Room in the global descriptor table

A descriptor takes one slot and that of a TSS takes two, but both functions ask for one. The
table is left just when a TSS comes with one slot to go.

`safe_iff` is about every list of calls from any index on: nothing is written outside of the
table, and every selector that was answered is that of a descriptor which is still whole at the
end, if and only if no TSS comes when one slot is left (`Roomy`). `indexAfter` counts the slots
without the table; what lies below the index is never written again (`runs_keeps`). `not_safe`
fills the table and adds a TSS.
-/

namespace Skylight.Gdt

/-- The bytes of the table. -/
def tableSize : Nat := maxDescriptors * descriptorSize

/-- A call. -/
inductive Op
  | add (base : BitVec 64) (limit : BitVec 16) (access granularity : BitVec 8)
  | install (tss : BitVec 64)

/-- What a run of calls makes of the table, with the selectors that the TSSs got. -/
def runs (s : State) : List Op → List (BitVec 64 × BitVec 16) × State
  | [] => ([], s)
  | .add base limit access granularity :: ops =>
    runs (gdtAddDescriptor base limit access granularity s) ops
  | .install tss :: ops =>
    let (selector, s) := gdtInstallTss tss s
    let (selectors, s) := runs s ops
    ((tss, selector) :: selectors, s)

/-- The descriptor of a TSS at a place. -/
def Complete (s : State) (tss : BitVec 64) (place : Nat) : Prop :=
  place % descriptorSize = 0 ∧ place + 16 ≤ tableSize ∧
    ∀ i < 16, s.gdt (place + i) = (tssDescriptor tss).bytes.getD i 0

/-- The table was not left, and every selector is that of a descriptor in it. -/
structure Safe (r : List (BitVec 64 × BitVec 16) × State) : Prop where
  written : ∀ place ∈ r.2.written, place < tableSize
  index : r.2.gindex.toNat ≤ maxDescriptors
  selectors : ∀ tss selector, (tss, selector) ∈ r.1 → selector ≠ 0 →
    Complete r.2 tss selector.toNat

/-- The slots that a call asks for. -/
def Op.slots : Op → Nat
  | .add .. => 1
  | .install _ => 2

/-- With one slot left, the next call is for one. -/
def Roomy (ops : List Op) : Prop := ∀ before op after, ops = before ++ op :: after →
  (before.map Op.slots).sum + 1 = maxDescriptors → op.slots = 1

section
variable {s s' : State} {op : Op} {ops : List Op} {n place : Nat} {bytes : List (BitVec 8)}
  {base tss : BitVec 64} {limit : BitVec 16} {access granularity : BitVec 8}

/-! ### Calls -/

/-- A descriptor has eight bytes. -/
theorem length_bytes (d : Descriptor) : d.bytes.length = 8 := rfl

/-- And that of a TSS sixteen. -/
theorem length_tssBytes (d : TssDescriptor) : d.bytes.length = 16 := rfl

/-- Nothing below the place is written. -/
theorem store_below {k : Nat} (below : k < place) : (s.store place bytes).gdt k = s.gdt k :=
  if_neg (Nat.not_le.mpr below)

/-- At the place the bytes are written. -/
theorem store_at {i : Nat} (lt : i < bytes.length) :
    (s.store place bytes).gdt (place + i) = bytes.getD i 0 := by
  rw [State.store]
  dsimp only
  rw [if_pos (Nat.le_add_right place i), Nat.add_sub_cancel_left, List.getD_eq_getElem _ _ lt,
    List.getD_eq_getElem _ _ lt]

/-- With no slot left nothing happens. -/
theorem gdtAddDescriptor_full (full : maxDescriptors ≤ s.gindex.toNat) :
    gdtAddDescriptor base limit access granularity s = s := if_pos full

/-- With no slot left nothing happens. -/
theorem gdtInstallTss_full (full : maxDescriptors ≤ s.gindex.toNat) :
    gdtInstallTss tss s = (0, s) := if_pos full

/-- The next index. -/
theorem gdtAddDescriptor_index (room : s.gindex.toNat < maxDescriptors) :
    (gdtAddDescriptor base limit access granularity s).gindex.toNat = s.gindex.toNat + 1 := by
  have max : maxDescriptors = 0x2000 := rfl
  rw [gdtAddDescriptor, if_neg (Nat.not_le.mpr room)]
  show (s.gindex + 1).toNat = _
  rw [BitVec.toNat_add, show (1 : BitVec 16).toNat = 1 from rfl]
  omega

/-- The next index, two slots on. -/
theorem gdtInstallTss_index (room : s.gindex.toNat < maxDescriptors) :
    (gdtInstallTss tss s).2.gindex.toNat = s.gindex.toNat + 2 := by
  have max : maxDescriptors = 0x2000 := rfl
  rw [gdtInstallTss, if_neg (Nat.not_le.mpr room)]
  show (s.gindex + 2).toNat = _
  rw [BitVec.toNat_add, show (2 : BitVec 16).toNat = 2 from rfl]
  omega

/-- The selector is that of the first of the two. -/
theorem gdtInstallTss_selector (room : s.gindex.toNat < maxDescriptors) :
    (gdtInstallTss tss s).1.toNat = s.gindex.toNat * descriptorSize := by
  have max : maxDescriptors = 0x2000 := rfl
  have size : descriptorSize = 8 := rfl
  have next := @gdtInstallTss_index s tss room
  rw [gdtInstallTss, if_neg (Nat.not_le.mpr room)] at next ⊢
  dsimp only at next ⊢
  rw [next, Nat.add_sub_cancel, BitVec.toNat_ofNat, size]
  omega

/-! ### The index -/

/-- The index after calls from `n` on. -/
def indexAfter (n : Nat) : List Op → Nat
  | [] => n
  | op :: ops => indexAfter (if n ≥ maxDescriptors then n else n + op.slots) ops

/-- The index after a run is counted. -/
theorem runs_index : (runs s ops).2.gindex.toNat = indexAfter s.gindex.toNat ops := by
  induction ops generalizing s with
  | nil => rfl
  | cons op ops ih =>
    by_cases full : s.gindex.toNat ≥ maxDescriptors
    · rw [indexAfter, if_pos full]
      cases op with
      | add base limit access granularity =>
        rw [runs, gdtAddDescriptor_full full]
        exact ih
      | install tss =>
        rw [runs, gdtInstallTss_full full]
        exact ih
    · rw [indexAfter, if_neg full]
      cases op with
      | add base limit access granularity =>
        rw [runs, ih, gdtAddDescriptor_index (Nat.lt_of_not_le full)]
        rfl
      | install tss =>
        rw [runs]
        dsimp only
        rw [ih, gdtInstallTss_index (Nat.lt_of_not_le full)]
        rfl

/-- In a full table it stays. -/
theorem indexAfter_full (full : n ≥ maxDescriptors) : indexAfter n ops = n := by
  induction ops with
  | nil => rfl
  | cons op ops ih => rw [indexAfter, if_pos full, ih]

/-- It never goes down. -/
theorem le_indexAfter : n ≤ indexAfter n ops := by
  induction ops generalizing n with
  | nil => exact Nat.le_refl n
  | cons op ops ih =>
    rw [indexAfter]
    refine Nat.le_trans ?_ ih
    split
    · exact Nat.le_refl n
    · exact Nat.le_add_right n _

/-- A call asks for one slot or for two. -/
theorem slots_range (op : Op) : op.slots = 1 ∨ op.slots = 2 := by
  cases op with
  | add => exact Or.inl rfl
  | install => exact Or.inr rfl

/-- The index stays in the table just when no descriptor goes half behind it. -/
theorem indexAfter_le_iff (le : n ≤ maxDescriptors) : indexAfter n ops ≤ maxDescriptors ↔
    ∀ before op after, ops = before ++ op :: after →
      n + (before.map Op.slots).sum + 1 = maxDescriptors → op.slots = 1 := by
  induction ops generalizing n with
  | nil => exact iff_of_true le forall_split_nil
  | cons op ops ih =>
    rw [forall_split_cons (R := fun before op =>
      n + (before.map Op.slots).sum + 1 = maxDescriptors → op.slots = 1), indexAfter]
    simp only [List.map_cons, List.map_nil, List.sum_cons, List.sum_nil, Nat.add_zero]
    by_cases full : n ≥ maxDescriptors
    · rw [if_pos full, indexAfter_full full]
      refine iff_of_true le ⟨fun one => by omega, fun before op' after _ one => ?_⟩
      rcases slots_range op with slots | slots <;> omega
    · rw [if_neg full]
      by_cases fits : n + op.slots ≤ maxDescriptors
      · rw [ih fits]
        simp only [Nat.add_assoc]
        refine (and_iff_right fun one => ?_).symm
        rcases slots_range op with slots | slots
        · exact slots
        · omega
      · refine iff_of_false (fun small => ?_) fun both => ?_
        · exact fits (Nat.le_trans le_indexAfter small)
        · have one := both.1
          rcases slots_range op with slots | slots <;> omega

/-! ### Places -/

/-- What was written lies below the index. -/
def Below (s : State) : Prop := ∀ k ∈ s.written, k < 8 * s.gindex.toNat

/-- What is written is what was written, and the bytes at the place. -/
theorem store_written {k : Nat} (mem : k ∈ (s.store place bytes).written) :
    k ∈ s.written ∨ place ≤ k ∧ k < place + bytes.length := by
  rcases List.mem_append.mp mem with mem | mem
  · exact Or.inl mem
  · obtain ⟨i, lt, rfl⟩ := List.mem_range'.mp mem
    exact Or.inr (by omega)

/-- A descriptor is below the next index. -/
theorem gdtAddDescriptor_below (h : Below s) :
    Below (gdtAddDescriptor base limit access granularity s) := by
  have place : s.gindex.toNat * descriptorSize = 8 * s.gindex.toNat := Nat.mul_comm _ _
  by_cases full : s.gindex.toNat ≥ maxDescriptors
  · rwa [gdtAddDescriptor_full full]
  · intro k mem
    rw [gdtAddDescriptor_index (Nat.lt_of_not_le full)]
    rw [gdtAddDescriptor, if_neg full] at mem
    rcases store_written mem with mem | ⟨-, lt⟩
    · have lt := h k mem
      omega
    · rw [length_bytes] at lt
      omega

/-- And so is that of a TSS. -/
theorem gdtInstallTss_below (h : Below s) : Below (gdtInstallTss tss s).2 := by
  have place : s.gindex.toNat * descriptorSize = 8 * s.gindex.toNat := Nat.mul_comm _ _
  by_cases full : s.gindex.toNat ≥ maxDescriptors
  · rwa [gdtInstallTss_full full]
  · intro k mem
    rw [gdtInstallTss_index (Nat.lt_of_not_le full)]
    rw [gdtInstallTss, if_neg full] at mem
    rcases store_written mem with mem | ⟨-, lt⟩
    · have lt := h k mem
      omega
    · rw [length_tssBytes] at lt
      omega

/-- A run writes below its index. -/
theorem runs_below (h : Below s) : Below (runs s ops).2 := by
  induction ops generalizing s with
  | nil => exact h
  | cons op ops ih =>
    cases op with
    | add base limit access granularity => exact ih (gdtAddDescriptor_below h)
    | install tss => exact ih (gdtInstallTss_below h)

/-- What lies below the index stays, whatever is added later. So a selector that a call has answered
goes on meaning the descriptor it was answered for. -/
theorem runs_keeps {k : Nat} (lt : k < 8 * s.gindex.toNat) :
    (runs s ops).2.gdt k = s.gdt k := by
  induction ops generalizing s with
  | nil => rfl
  | cons op ops ih =>
    by_cases full : s.gindex.toNat ≥ maxDescriptors
    · cases op with
      | add base limit access granularity =>
        rw [runs, gdtAddDescriptor_full full]
        exact ih lt
      | install tss =>
        rw [runs, gdtInstallTss_full full]
        exact ih lt
    · have room := Nat.lt_of_not_le full
      have place : s.gindex.toNat * descriptorSize = 8 * s.gindex.toNat := Nat.mul_comm _ _
      cases op with
      | add base limit access granularity =>
        rw [runs, ih (by rw [gdtAddDescriptor_index room]; omega), gdtAddDescriptor, if_neg full]
        exact store_below (by omega)
      | install tss =>
        rw [runs]
        dsimp only
        rw [ih (by rw [gdtInstallTss_index room]; omega), gdtInstallTss, if_neg full]
        exact store_below (by omega)

/-- A selector in a table that was not left. -/
theorem runs_selectors (le : (runs s ops).2.gindex.toNat ≤ maxDescriptors)
    {selector : BitVec 16} (mem : (tss, selector) ∈ (runs s ops).1) (some' : selector ≠ 0) :
    Complete (runs s ops).2 tss selector.toNat := by
  have max : maxDescriptors = 0x2000 := rfl
  induction ops generalizing s with
  | nil => cases mem
  | cons op ops ih =>
    cases op with
    | add base limit access granularity => exact ih le mem
    | install tss' =>
      rw [runs] at le mem ⊢
      dsimp only at le mem ⊢
      rcases List.mem_cons.mp mem with here | mem
      · obtain ⟨rfl, rfl⟩ := Prod.mk.inj here
        by_cases full : s.gindex.toNat ≥ maxDescriptors
        · rw [gdtInstallTss_full full] at some'
          exact absurd rfl some'
        · have room := Nat.lt_of_not_le full
          have index := @gdtInstallTss_index s tss room
          rw [runs_index, index] at le
          have fits := Nat.le_trans le_indexAfter le
          have place : s.gindex.toNat * descriptorSize = 8 * s.gindex.toNat := Nat.mul_comm _ _
          have size : tableSize = 8 * maxDescriptors := rfl
          rw [gdtInstallTss_selector room]
          refine ⟨Nat.mul_mod_left _ _, by omega, fun i lt => ?_⟩
          rw [runs_keeps (by rw [index]; omega), gdtInstallTss, if_neg full]
          exact store_at (by rw [length_tssBytes]; exact lt)
      · exact ih le mem

/-- The table is not left if and only if no TSS comes when one slot is left. A TSS takes two slots
and the bound is looked at for one, so this is the only way out. -/
theorem safe_iff (behind : Nat → BitVec 8) (ops : List Op) :
    Safe (runs (.boot behind) ops) ↔ Roomy ops := by
  have size : tableSize = 8 * maxDescriptors := rfl
  have roomy : (runs (.boot behind) ops).2.gindex.toNat ≤ maxDescriptors ↔ Roomy ops := by
    rw [runs_index, show (State.boot behind).gindex.toNat = 0 from rfl,
      indexAfter_le_iff (Nat.zero_le _)]
    simp only [Nat.zero_add]
    rfl
  constructor
  · exact fun safe => roomy.mp safe.index
  · intro h
    have index := roomy.mpr h
    refine ⟨fun k mem => ?_, index, fun tss selector mem some' => runs_selectors index mem some'⟩
    have lt := runs_below (s := .boot behind) (fun k no => absurd no List.not_mem_nil) k mem
    omega

end

/-! ### The end of the table -/

/-- The calls of `gdt_assemble`. -/
theorem gdtAssemble_runs (s : State) : ∃ ops, ops.map Op.slots = List.replicate 6 1 ∧
    runs s ops = ([], gdtAssemble s) :=
  ⟨[.add 0 0 0 0, .add 0 0xFFFF (basicDescriptor ||| descriptorExecutable) basicGranularity,
    .add 0 0xFFFF basicDescriptor basicGranularity,
    .add 0 0xFFFF (basicDescriptor ||| descriptorDpl) basicGranularity,
    .add 0 0xFFFF (basicDescriptor ||| descriptorDpl ||| descriptorExecutable) basicGranularity,
    .add 0 0 0 0], rfl, rfl⟩

/-- A TSS in the last slot: 8191 descriptors fill all the others, and the second half of the TSS is
written behind the table. -/
theorem not_safe : ¬ Safe (runs (.boot fun _ => 0)
    (List.replicate 8191 (.add 0 0 0 0) ++ [.install 0x1000])) := by
  intro safe
  have index := safe.index
  rw [runs_index, show (State.boot fun _ => 0).gindex.toNat = 0 from rfl,
    indexAfter_le_iff (Nat.zero_le _)] at index
  have one := index (List.replicate 8191 (.add 0 0 0 0)) (.install 0x1000) [] rfl (by
    rw [List.map_replicate, List.sum_replicate_nat]
    rfl)
  cases one

end Skylight.Gdt
