import Mathlib.Algebra.Group.Nat.Defs
import Mathlib.Data.List.Nodup

/-!
# Loops that count in a machine word

`forLoop body stop fuel i s` is `for (; i < stop; i++) body` with a counter of `w` bits and a bound
of any size. Below `2 ^ w` the counter meets the bound, and a body that only collects has collected
in order what every round adds. A bound of `2 ^ w` or more is never met.

`forLoop_collects` is the rule for the first case and `forLoop_endless` that for the second;
`forLoop_mono` lets the fuel of a loop grow with that of its rounds. The rule asks that no round
fails and says nothing of loops that leave early.
-/

namespace Skylight.Count

variable {w : Nat} {S E : Type*}

/-- The loop; `fuel` bounds the rounds. -/
def forLoop (body : BitVec w → S → Option S) (stop : Nat) : Nat → BitVec w → S → Option S
  | 0, _, _ => none
  | fuel + 1, i, s =>
    if i.toNat < stop then (body i s).bind (forLoop body stop fuel (i + 1)) else some s

/-- The counters from `start` up to `stop`. -/
def counters (w start stop : Nat) : List (BitVec w) :=
  (List.range' start (stop - start)).map (BitVec.ofNat w)

/-- The values of the counter are those from the start to below the bound, each of them. -/
theorem mem_counters {start stop : Nat} (fits : stop ≤ 2 ^ w) (i : BitVec w) :
    i ∈ counters w start stop ↔ start ≤ i.toNat ∧ i.toNat < stop := by
  unfold counters
  rw [List.mem_map]
  constructor
  · rintro ⟨n, mem, rfl⟩
    have range := List.mem_range'_1.mp mem
    rw [BitVec.toNat_ofNat, Nat.mod_eq_of_lt (by omega)]
    omega
  · intro range
    refine ⟨i.toNat, List.mem_range'_1.mpr (by omega), ?_⟩
    rw [BitVec.ofNat_toNat, BitVec.setWidth_eq]

/-- The counter takes no value twice before it goes round. -/
theorem counters_nodup {start stop : Nat} (fits : stop ≤ 2 ^ w) :
    (counters w start stop).Nodup := by
  apply List.Nodup.map_on
  · intro m hm n hn same
    have lm := List.mem_range'_1.mp hm
    have ln := List.mem_range'_1.mp hn
    have value := congrArg BitVec.toNat same
    rwa [BitVec.toNat_ofNat, BitVec.toNat_ofNat, Nat.mod_eq_of_lt (by omega),
      Nat.mod_eq_of_lt (by omega)] at value
  · exact List.nodup_range'

/-- A loop that goes on has its start first, then the values of the rest. -/
theorem counters_cons {start stop : Nat} (lt : start < stop) :
    counters w start stop = BitVec.ofNat w start :: counters w (start + 1) stop := by
  unfold counters
  rw [show stop - start = (stop - (start + 1)) + 1 by omega, List.range'_succ, List.map_cons]

/-- A loop that does not begin has none. -/
theorem counters_nil {start stop : Nat} (le : stop ≤ start) : counters w start stop = [] := by
  unfold counters
  rw [Nat.sub_eq_zero_of_le le]
  rfl

/-- What is collected has no duplicates where each item tells the round it is from. -/
theorem nodup_flatMap_of_key {A : Type*} {l : List A} {f : A → List E} (key : E → A)
    (distinct : l.Nodup) (each : ∀ a, (f a).Nodup) (tells : ∀ a, ∀ e ∈ f a, key e = a) :
    (l.flatMap f).Nodup := by
  apply List.nodup_flatMap.mpr
  refine ⟨fun a _ => each a, distinct.imp ?_⟩
  intro a b ne e ha hb
  exact ne ((tells a e ha).symm.trans (tells b e hb))

variable {body : BitVec w → S → Option S} {stop : Nat}

/-- A bound that the counter cannot reach is not met. -/
theorem forLoop_endless (wide : 2 ^ w ≤ stop) (fuel : Nat) (i : BitVec w) (s : S) :
    forLoop body stop fuel i s = none := by
  induction fuel generalizing i s with
  | zero => rfl
  | succ fuel ih =>
    rw [forLoop, if_pos (Nat.lt_of_lt_of_le i.isLt wide), Option.bind_eq_none_iff]
    exact fun s _ => ih (i + 1) s

/-- An answer does not depend on the fuel, neither on that of the rounds. -/
theorem forLoop_mono {body' : BitVec w → S → Option S} {fuel fuel' : Nat} (le : fuel ≤ fuel')
    (step : ∀ i s s', body i s = some s' → body' i s = some s') {i : BitVec w} {s s' : S}
    (run : forLoop body stop fuel i s = some s') : forLoop body' stop fuel' i s = some s' := by
  induction fuel generalizing fuel' i s with
  | zero => cases run
  | succ fuel ih =>
    obtain ⟨fuel', rfl⟩ := Nat.exists_eq_add_of_le' (Nat.le_trans (Nat.le_add_left 1 fuel) le)
    unfold forLoop at run ⊢
    by_cases lt : i.toNat < stop
    · rw [if_pos lt] at run ⊢
      obtain ⟨s₁, round, rest⟩ := Option.bind_eq_some_iff.mp run
      rw [step i s s₁ round]
      exact ih (Nat.le_of_succ_le_succ le) rest
    · rw [if_neg lt] at run ⊢
      exact run

/-- What the rounds collect, in order. -/
theorem forLoop_collects {view : S → List E} {found : BitVec w → List E} (fits : stop < 2 ^ w)
    (step : ∀ i s, ∃ s', body i s = some s' ∧ view s' = view s ++ found i) (fuel : Nat)
    (i : BitVec w) (s : S) (enough : stop - i.toNat < fuel) :
    ∃ s', forLoop body stop fuel i s = some s' ∧
      view s' = view s ++ (counters w i.toNat stop).flatMap found := by
  induction fuel generalizing i s with
  | zero => exact absurd enough (Nat.not_lt_zero _)
  | succ fuel ih =>
    unfold forLoop
    by_cases lt : i.toNat < stop
    · have next : (i + 1).toNat = i.toNat + 1 := by
        have one : (1 : BitVec w).toNat = 1 := by
          cases w with
          | zero => omega
          | succ w => simp
        rw [BitVec.toNat_add, one, Nat.mod_eq_of_lt (by omega)]
      obtain ⟨s₁, run, collected⟩ := step i s
      obtain ⟨s', rest, more⟩ := ih (i + 1) s₁ (by omega)
      refine ⟨s', ?_, ?_⟩
      · rw [if_pos lt, run]
        exact rest
      · rw [more, collected, next, counters_cons lt, List.flatMap_cons, List.append_assoc,
          BitVec.ofNat_toNat, BitVec.setWidth_eq]
    · refine ⟨s, if_neg lt, ?_⟩
      rw [counters_nil (Nat.le_of_not_lt lt), List.flatMap_nil, List.append_nil]

end Skylight.Count
