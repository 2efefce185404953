import Mathlib.Data.List.Basic
import Skylight.Apps.Kbd
import Skylight.Lib.Steps

/-!
# The listeners that are registered

`kbd_remove_listener` takes the index 0 for the answer that the listener is absent, and in a full
table it moves a slot that is not there. In all other cases the registered listeners are a list.

`registry_lists_iff` is about all sequences of calls from a started keyboard. Adding is right
always: a listener twice, or one too many, is refused. A removal is right just when it fits
(`Call.Fits`). A read behind the table ends the run here; what is behind it in memory is not
modelled.
-/

namespace Skylight.Prism

/-- A call for the registry. -/
inductive Call
  | add (listener : BitVec 64)
  | remove (listener : BitVec 64)

/-- The call, with the answer of `kbd_add_listener`. -/
def Kbd.call (k : Kbd) : Call → Option (Option Bool × Kbd)
  | .add listener => (kbdAddListener listener k).map fun (answer, k) => (some answer, k)
  | .remove listener => (kbdRemoveListener listener k).map fun k => (none, k)

/-- What the call is for. -/
def Call.reference (l : List (BitVec 64)) : Call → Option Bool × List (BitVec 64)
  | .add listener =>
    if l.length < listenersMax then (some true, l ++ [listener]) else (some false, l)
  | .remove listener => (none, l.erase listener)

/-- `listeners[0..listeners_count-1]` -/
def Kbd.registered (k : Kbd) : List (BitVec 64) := (List.range k.listenersCount).map k.slots

/-- The registry is the list from here on: every call has the answer of the list and leaves what it
leaves; where the list stays, nothing changes. -/
def Kbd.Lists : Kbd → List (BitVec 64) → List Call → Prop
  | k, l, [] => k.registered = l
  | k, l, call :: calls => k.registered = l ∧ ∃ k', k.call call = some ((call.reference l).1, k') ∧
    ((call.reference l).2 = l → k' = k) ∧ k'.Lists (call.reference l).2 calls

/-- The first place of a listener that is removed is not the first of all, and the table is not full
if it has one. -/
def Call.Fits (l : List (BitVec 64)) : Call → Prop
  | .add _ => True
  | .remove listener => l.head? ≠ some listener ∧ (listener ∈ l → l.length < listenersMax)

/-- A started keyboard with no more listeners than there is room for. -/
structure Kbd.Ready (k : Kbd) (l : List (BitVec 64)) : Prop where
  started : k.started = true
  count : k.listenersCount ≤ listenersMax
  registered : k.registered = l

section
variable {k : Kbd} {l : List (BitVec 64)} {x : BitVec 64} {i n : Nat} {call : Call}
  {calls : List Call}

/-- The count is that of the list. -/
theorem Kbd.Ready.length (h : k.Ready l) : l.length = k.listenersCount := by
  rw [← h.registered, Kbd.registered, List.length_map, List.length_range]

/-- A slot of the table is read. -/
theorem listener_of_lt (lt : i < listenersMax) : k.listener i = some (k.slots i) := if_pos lt

/-- And written. -/
theorem setListener_of_lt (lt : i < listenersMax) :
    k.setListener i x = some { k with slots := Function.update k.slots i x } := if_pos lt

/-! ### Adding -/

/-- The keyboard with one listener more. -/
def Kbd.added (k : Kbd) (x : BitVec 64) : Kbd :=
  { k with
    slots := Function.update k.slots k.listenersCount x
    listenersCount := k.listenersCount + 1 }

/-- The list has one more at its end. -/
theorem registered_added (k : Kbd) (x : BitVec 64) :
    (k.added x).registered = k.registered ++ [x] := by
  rw [Kbd.registered, Kbd.added, List.range_succ, List.map_append, List.map_singleton]
  dsimp only
  rw [Function.update_self]
  congr 1
  refine List.map_congr_left fun j mem => Function.update_of_ne ?_ ..
  exact Nat.ne_of_lt (List.mem_range.mp mem)

/-- Adding a listener, which is in vain if it is there already or there is no room. -/
theorem call_add (h : k.Ready l) (x : BitVec 64) : ∃ k',
    k.call (.add x) = some (((Call.add x).reference l).1, k') ∧
      (((Call.add x).reference l).2 = l → k' = k) ∧ k'.Ready ((Call.add x).reference l).2 := by
  have length := h.length
  by_cases room : l.length < listenersMax
  · rw [Call.reference, if_pos room]
    rw [length] at room
    refine ⟨k.added x, ?_, fun same => absurd same (by simp), ?_⟩
    · rw [Kbd.call, kbdAddListener, h.started, if_neg (by decide), if_neg (by omega),
        setListener_of_lt room]
      rfl
    · refine ⟨h.started, room, ?_⟩
      rw [← h.registered]
      exact registered_added k x
  · rw [Call.reference, if_neg room]
    rw [length] at room
    refine ⟨k, ?_, fun _ => rfl, h⟩
    rw [Kbd.call, kbdAddListener, h.started, if_neg (by decide), if_pos (by omega)]
    rfl

/-! ### Removing -/

/-- The search ends at the first place, or at 0. -/
theorem targetLoop_eq (room : i + n ≤ listenersMax) : targetLoop k x n i =
    some (if x ∈ (List.range' i n).map k.slots then
      i + ((List.range' i n).map k.slots).idxOf x else 0) := by
  induction n generalizing i with
  | zero => rfl
  | succ n ih =>
    rw [targetLoop, listener_of_lt (by omega), Option.bind_eq_bind, Option.bind_some,
      List.range'_succ, List.map_cons]
    by_cases here : k.slots i = x
    · subst here
      rw [if_pos rfl, if_pos List.mem_cons_self, List.idxOf_cons_self]
      rfl
    · rw [if_neg here, ih (by omega), List.idxOf_cons_ne _ here]
      simp only [List.mem_cons, Ne.symm here, false_or]
      congr 2
      omega

/-- Every slot takes what the next one holds. -/
theorem moveLoop_eq (room : i + n < listenersMax) : moveLoop n i k =
    some { k with slots := fun j => if i ≤ j ∧ j < i + n then k.slots (j + 1) else k.slots j } := by
  induction n generalizing i k with
  | zero =>
    have same : (fun j => if i ≤ j ∧ j < i + 0 then k.slots (j + 1) else k.slots j) = k.slots := by
      funext j
      exact if_neg (by omega)
    rw [same]
    rfl
  | succ n ih =>
    rw [moveLoop, listener_of_lt (by omega), Option.bind_eq_bind, Option.bind_some,
      setListener_of_lt (by omega), Option.bind_eq_bind, Option.bind_some, ih (by omega)]
    congr 2
    funext j
    dsimp only
    by_cases later : i + 1 ≤ j ∧ j < i + 1 + n
    · rw [if_pos later, if_pos (by omega), Function.update_of_ne (by omega)]
    · rw [if_neg later]
      by_cases here : j = i
      · subst here
        rw [Function.update_self, if_pos (by omega)]
      · rw [Function.update_of_ne here, if_neg (by omega)]

/-- In a full table the last slot has no next one. -/
theorem moveLoop_full (le : i ≤ listenersMax) (full : listenersMax ≤ i + n) (some' : 0 < n) :
    moveLoop n i k = none := by
  induction n generalizing i k with
  | zero => exact absurd some' (Nat.lt_irrefl 0)
  | succ n ih =>
    rw [moveLoop]
    by_cases last : i + 1 < listenersMax
    · rw [listener_of_lt last, Option.bind_eq_bind, Option.bind_some, setListener_of_lt (by omega),
        Option.bind_eq_bind, Option.bind_some]
      exact ih (by omega) (by omega) (by omega)
    · rw [Kbd.listener, if_neg last]
      rfl

/-- The keyboard without the listener at a place. -/
def Kbd.removed (k : Kbd) (t : Nat) : Kbd :=
  { k with
    slots := Function.update (fun j =>
      if t ≤ j ∧ j < k.listenersCount then k.slots (j + 1)
      else Function.update k.slots t 0 j) k.listenersCount 0
    listenersCount := k.listenersCount - 1 }

/-- The list has one less. -/
theorem registered_removed (k : Kbd) {t : Nat} (lt : t < k.listenersCount) :
    (k.removed t).registered = k.registered.eraseIdx t := by
  apply List.ext_getElem?
  intro j
  rw [List.getElem?_eraseIdx]
  simp only [Kbd.registered, Kbd.removed, List.getElem?_map]
  by_cases in' : j < k.listenersCount - 1
  · rw [List.getElem?_range in', Option.map_some, Function.update_of_ne (by omega)]
    by_cases before : j < t
    · rw [if_neg (by omega), Function.update_of_ne (by omega), if_pos before,
        List.getElem?_range (by omega)]
      rfl
    · rw [if_pos (by omega), if_neg before, List.getElem?_range (by omega)]
      rfl
  · rw [List.getElem?_eq_none (by rw [List.length_range]; omega)]
    rw [if_neg (by omega), List.getElem?_eq_none (by rw [List.length_range]; omega)]
    rfl

/-- The search answers the first place, or 0 for none. -/
theorem targetIndex_eq (h : k.Ready l) : targetLoop k x k.listenersCount 0 =
    some (if x ∈ l then l.idxOf x else 0) := by
  rw [targetLoop_eq (by rw [Nat.zero_add]; exact h.count), ← List.range_eq_range',
    show (List.range k.listenersCount).map k.slots = l from h.registered, Nat.zero_add]

/-- With the index 0 nothing is done. -/
theorem remove_zero (h : k.Ready l) (zero : (if x ∈ l then l.idxOf x else 0) = 0) :
    kbdRemoveListener x k = some k := by
  rw [kbdRemoveListener, h.started, if_neg (by decide), targetIndex_eq h, zero]
  rfl

/-- A listener that is not the first is removed. -/
theorem remove_found (h : k.Ready l) (mem : x ∈ l) (pos : l.idxOf x ≠ 0)
    (room : l.length < listenersMax) : kbdRemoveListener x k = some (k.removed (l.idxOf x)) := by
  have lt := List.idxOf_lt_length_iff.mpr mem
  have count := h.count
  rw [h.length] at lt room
  rw [kbdRemoveListener, h.started, if_neg (by decide), targetIndex_eq h, if_pos mem,
    Option.bind_eq_bind, Option.bind_some, if_neg pos, setListener_of_lt (by omega)]
  simp only [Option.bind_eq_bind, Option.bind_some]
  rw [moveLoop_eq (by omega)]
  simp only [Option.bind_some]
  rw [setListener_of_lt room]
  simp only [Option.bind_some, Kbd.removed]
  rw [Nat.add_sub_cancel' (Nat.le_of_lt lt)]
  congr 3
  funext j
  by_cases moved : l.idxOf x ≤ j ∧ j < k.listenersCount
  · rw [if_pos moved, if_pos moved, Function.update_of_ne (by omega)]
  · rw [if_neg moved, if_neg moved]

/-- In a full table the last slot is read past. -/
theorem remove_full (h : k.Ready l) (mem : x ∈ l) (pos : l.idxOf x ≠ 0)
    (full : listenersMax ≤ l.length) : kbdRemoveListener x k = none := by
  have lt := List.idxOf_lt_length_iff.mpr mem
  have count := h.count
  rw [h.length] at lt full
  rw [kbdRemoveListener, h.started, if_neg (by decide), targetIndex_eq h, if_pos mem,
    Option.bind_eq_bind, Option.bind_some, if_neg pos, setListener_of_lt (by omega)]
  simp only [Option.bind_eq_bind, Option.bind_some]
  rw [moveLoop_full (by omega) (by omega) (by omega)]
  rfl

/-! ### The calls of a run -/

/-- A call that fits does what it is for. -/
theorem call_fits (h : k.Ready l) (fits : call.Fits l) : ∃ k',
    k.call call = some ((call.reference l).1, k') ∧ ((call.reference l).2 = l → k' = k) ∧
      k'.Ready (call.reference l).2 := by
  cases call with
  | add x => exact call_add h x
  | remove x =>
    by_cases mem : x ∈ l
    · have pos : l.idxOf x ≠ 0 := by
        intro zero
        have at0 := List.getElem?_idxOf mem
        rw [zero, ← List.head?_eq_getElem?] at at0
        exact fits.1 at0
      have lt := List.idxOf_lt_length_iff.mpr mem
      have erase : l.erase x = l.eraseIdx (l.idxOf x) := List.erase_eq_eraseIdx_of_idxOf rfl
      refine ⟨k.removed (l.idxOf x), ?_, fun same => ?_, ?_⟩
      · rw [Kbd.call, remove_found h mem pos (fits.2 mem)]
        rfl
      · rw [Call.reference, erase, List.eraseIdx_eq_self] at same
        omega
      · rw [h.length] at lt
        refine ⟨h.started, Nat.le_trans (Nat.sub_le ..) h.count, ?_⟩
        rw [registered_removed k lt, h.registered]
        exact erase.symm
    · refine ⟨k, ?_, fun _ => rfl, ?_⟩
      · rw [Kbd.call, remove_zero h (if_neg mem)]
        rfl
      · rw [Call.reference, List.erase_of_not_mem mem]
        exact h

/-- One that does not leaves another list. -/
theorem call_misfit (h : k.Ready l) (misfit : ¬ call.Fits l) {k' : Kbd}
    (run : k.call call = some ((call.reference l).1, k')) :
    k'.registered ≠ (call.reference l).2 := by
  cases call with
  | add x => exact absurd trivial misfit
  | remove x =>
    have mem : x ∈ l := by
      by_contra absent
      exact misfit ⟨fun first => absent (List.mem_of_head? first), fun mem => absurd mem absent⟩
    by_cases first : l.idxOf x = 0
    · rw [Kbd.call, remove_zero h (by rw [if_pos mem, first])] at run
      cases run
      rw [h.registered]
      intro same
      have shorter := congrArg List.length same
      rw [Call.reference, List.length_erase_of_mem mem] at shorter
      have some' := List.length_pos_of_mem mem
      omega
    · have full : listenersMax ≤ l.length := by
        by_contra room
        refine misfit ⟨fun head => first ?_, fun _ => by omega⟩
        cases l with
        | nil => cases head
        | cons a l =>
          cases head
          exact List.idxOf_cons_self
      rw [Kbd.call, remove_full h mem first full] at run
      cases run

/-- The list of the reference before a call. -/
def referenceRun (l : List (BitVec 64)) (calls : List Call) : List (BitVec 64) :=
  calls.foldl (fun l call => (call.reference l).2) l

/-- The registry is the list at the beginning, too. -/
theorem Kbd.Lists.registered (h : k.Lists l calls) : k.registered = l := by
  cases calls with
  | nil => exact h
  | cons call calls => exact h.1

/-- The registry answers as a list does, and holds what the list holds, in all runs whose
removals fit, and in no others: the first listener cannot be removed, and none from a full
table. -/
theorem registry_lists_iff (h : k.Ready l) (calls : List Call) : k.Lists l calls ↔
    ∀ before call after, calls = before ++ call :: after → call.Fits (referenceRun l before) := by
  induction calls generalizing k l with
  | nil => exact iff_of_true h.registered forall_split_nil
  | cons call calls ih =>
    rw [Kbd.Lists, and_iff_right h.registered, forall_split_cons]
    constructor
    · rintro ⟨k', run, same, lists⟩
      have fits : call.Fits l := by
        by_contra misfit
        exact call_misfit h misfit run lists.registered
      refine ⟨fits, ?_⟩
      obtain ⟨k'', run', -, ready⟩ := call_fits h fits
      obtain rfl := congrArg Prod.snd (Option.some.inj (run.symm.trans run'))
      exact (ih ready).mp lists
    · rintro ⟨fits, rest⟩
      obtain ⟨k', run, same, ready⟩ := call_fits h fits
      exact ⟨k', run, same, (ih ready).mpr rest⟩

end

/-- As `kbd_init` leaves it. -/
def emptyRegistry : Kbd := ⟨true, 0x5000, 0x5ffe, 0x6000, 0, fun _ => 0⟩

/-- It is started and empty. -/
theorem emptyRegistry_ready : emptyRegistry.Ready [] := ⟨rfl, Nat.zero_le _, rfl⟩

/-- Two listeners, of which the second is removed. -/
theorem registry_lists_three : emptyRegistry.Lists [] [.add 1, .add 2, .add 1, .remove 2] := by
  apply (registry_lists_iff emptyRegistry_ready _).mpr
  rw [forall_split_cons, forall_split_cons, forall_split_cons, forall_split_cons]
  exact ⟨trivial, trivial, trivial, ⟨by decide, by decide⟩, forall_split_nil⟩

/-- The first listener cannot be removed. -/
theorem registry_not_list : ∃ k, emptyRegistry.call (.add 1) = some (some true, k) ∧
    k.registered = [1] ∧ k.call (.remove 1) = some (none, k) ∧ [1].erase (1 : BitVec 64) = [] :=
  ⟨emptyRegistry.added 1, rfl, rfl, rfl, rfl⟩

end Skylight.Prism
