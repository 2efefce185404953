import Mathlib.Algebra.Group.Nat.Defs
import Mathlib.Data.List.Perm.Basic
import Skylight.Laws.Proc.Scheduler

/-!
# Which task comes next

`task_select_next` is meant to go round the list. It looks for the current task and, at the
end of the list, starts over; anywhere else it stays where it is. So the successor of the
current task is selected exactly at the end of the list, and a round of calls goes round
exactly a list of one task.

`round_robin_iff` is about every list that `task_create_new` has numbered, of any length: one
call goes on with the successor just from the end of the list, and a round of as many calls as
there are tasks visits each once just when there is one. Ids that have wrapped round are outside
of `Listed`.
-/

namespace Skylight.Proc

open X86 Scheduler

/-- Calls of `task_select_next` one after the other, each with what the processor holds then:
the ids they return, and what they leave of the list. -/
def taskSelectNexts (rsp0 : Word) : List Cpu → Scheduler → List Word × Scheduler
  | [], k => ([], k)
  | u :: us, k =>
    let (id, k, _) := taskSelectNext rsp0 k u
    let (ids, k) := taskSelectNexts rsp0 us k
    (id :: ids, k)

/-- The current task is the `i`-th of a list that `task_create_new` has numbered. -/
structure Listed (k : Scheduler) (i : Nat) : Prop where
  distinct : (k.tasks.map Task.id).Nodup
  current : (k.tasks.map Task.id)[i]? = some k.currentTaskId

/-- The id of the cyclic successor of the `i`-th task. -/
def successor (k : Scheduler) (i : Nat) : Word := (k.task ((i + 1) % k.tasks.length)).id

/-- A round of calls selects every task once and comes back to the first one. -/
def Rounds (rsp0 : Word) (k : Scheduler) (us : List Cpu) : Prop :=
  (taskSelectNexts rsp0 us k).1.Perm (k.tasks.map Task.id) ∧
  (taskSelectNexts rsp0 us k).2.currentTaskId = k.currentTaskId

section
variable {k k' : Scheduler} {i j : Nat} {rsp0 : Word} {u : Cpu}

/-- The current task is one of the list. -/
theorem Listed.lt (h : Listed k i) : i < k.tasks.length := by
  obtain ⟨lt, -⟩ := List.getElem?_eq_some_iff.mp h.current
  rwa [List.length_map] at lt

/-- And it has the current id. -/
theorem Listed.id (h : Listed k i) : (k.task i).id = k.currentTaskId := by
  have here := h.current
  rw [List.getElem?_map, get_of_lt h.lt] at here
  exact Option.some.inj here

/-- No two tasks have one id. -/
theorem Listed.inj {l m : Nat} (h : Listed k i) (hl : l < k.tasks.length)
    (hm : m < k.tasks.length) (same : (k.task l).id = (k.task m).id) : l = m := by
  have get {l : Nat} (hl : l < k.tasks.length) :
      (k.tasks.map Task.id)[l]? = some (k.task l).id := by
    rw [List.getElem?_map, get_of_lt hl, Option.map_some]
  apply (List.getElem?_inj _ h.distinct).mp
  · rw [get hl, get hm, same]
  · rwa [List.length_map]

/-- The search of `task_select_next` finds the current task. -/
theorem Listed.find (h : Listed k i) : k.find k.currentTaskId = some i := by
  refine find_eq_some.mpr ⟨_, get_of_lt h.lt, h.id, fun j t less get same => ?_⟩
  have lt := Nat.lt_trans less h.lt
  have eq := h.inj lt h.lt (by rw [task_of_get get, same, h.id])
  exact Nat.ne_of_lt less eq

/-- After a call, the task it went on with is the current one. -/
theorem Listed.next (h : Listed k i) : Listed (taskSelectNext rsp0 k u).2.1 (k.after i) where
  distinct := by
    rw [taskSelectNext_ids]
    exact h.distinct
  current := by
    rw [taskSelectNext_ids, (taskSelectNext_current h.find).2, List.getElem?_map,
      get_of_lt (after_lt h.lt), Option.map_some]

/-- The task that a call goes on with is gone on with by the next call as well. -/
theorem after_next :
    (taskSelectNext rsp0 k u).2.1.after (k.after i) = k.after i := by
  rw [after, taskSelectNext_length]
  exact after_after

/-- A call goes on with the successor exactly from the end of the list. -/
theorem taskSelectNext_successor_iff (h : Listed k i) :
    (taskSelectNext rsp0 k u).2.1.currentTaskId = successor k i ↔ i + 1 = k.tasks.length := by
  have lt := h.lt
  have positive : 0 < k.tasks.length := Nat.lt_of_le_of_lt (Nat.zero_le i) lt
  rw [(taskSelectNext_current h.find).2, successor]
  by_cases last : i + 1 = k.tasks.length
  · refine iff_of_true ?_ last
    rw [after, if_pos last, last, Nat.mod_self]
  · refine iff_of_false (fun same => ?_) last
    have next : i + 1 < k.tasks.length := Nat.lt_of_le_of_ne lt last
    rw [after, if_neg last, Nat.mod_eq_of_lt next] at same
    exact Nat.succ_ne_self i (h.inj lt next same).symm

/-- One call, and the others. -/
theorem taskSelectNexts_cons (us : List Cpu) : taskSelectNexts rsp0 (u :: us) k =
    ((taskSelectNext rsp0 k u).1 :: (taskSelectNexts rsp0 us (taskSelectNext rsp0 k u).2.1).1,
      (taskSelectNexts rsp0 us (taskSelectNext rsp0 k u).2.1).2) := rfl

/-- Calls one after the other all go on with the task the first one goes on with. -/
theorem taskSelectNexts_stays (h : Listed k i) (us : List Cpu) :
    (taskSelectNexts rsp0 us k).1 = List.replicate us.length (k.task (k.after i)).id ∧
    (us ≠ [] → (taskSelectNexts rsp0 us k).2.currentTaskId = (k.task (k.after i)).id) := by
  induction us generalizing k i with
  | nil => exact ⟨rfl, fun none => absurd rfl none⟩
  | cons u us ih =>
    obtain ⟨ids, current⟩ := ih (@Listed.next _ _ rsp0 u h)
    obtain ⟨first, now⟩ := @taskSelectNext_current _ _ rsp0 u h.find
    have stays : ((taskSelectNext rsp0 k u).2.1.task
        ((taskSelectNext rsp0 k u).2.1.after (k.after i))).id = (k.task (k.after i)).id := by
      rw [after_next]
      exact task_id taskSelectNext_ids
    rw [stays] at ids current
    rw [taskSelectNexts_cons]
    constructor
    · rw [first, ids]
      rfl
    · intro _
      cases us with
      | nil => exact now
      | cons v vs => exact current (List.cons_ne_nil v vs)

/-- A round of calls goes round a list of one task, and no other. -/
theorem taskSelectNexts_rounds_iff (h : Listed k i) (us : List Cpu)
    (round : us.length = k.tasks.length) : Rounds rsp0 k us ↔ k.tasks.length = 1 := by
  have lt := h.lt
  have some : us ≠ [] := fun none => by
    rw [none, List.length_nil] at round
    exact Nat.not_lt_zero i (round ▸ lt)
  obtain ⟨ids, current⟩ := @taskSelectNexts_stays _ _ rsp0 h us
  constructor
  · rintro ⟨perm, -⟩
    have distinct := perm.nodup_iff.mpr h.distinct
    rw [ids, List.nodup_replicate, round] at distinct
    exact Nat.le_antisymm distinct (Nat.lt_of_le_of_lt (Nat.zero_le i) lt)
  · intro one
    have here : i = 0 := Nat.lt_one_iff.mp (one ▸ lt)
    have next : k.after i = i := by rw [after, here, if_pos (by rw [one])]
    obtain ⟨t, list⟩ := List.length_eq_one_iff.mp one
    constructor
    · rw [ids, next, h.id, round, one, ← h.id, here, Scheduler.task, list]
      exact List.Perm.refl _
    · rw [current some, next, h.id]

/-- A call of `task_select_next` goes on with the successor exactly from the end of the list,
and a round of calls, one for each task, selects every task once and comes back exactly when
there is one task only. -/
theorem round_robin_iff (h : Listed k i) :
    ((∀ u, (taskSelectNext rsp0 k u).2.1.currentTaskId = successor k i) ↔
      i + 1 = k.tasks.length) ∧
    ((∀ us : List Cpu, us.length = k.tasks.length → Rounds rsp0 k us) ↔ k.tasks.length = 1) := by
  have idle : Cpu := ⟨fun _ => 0, fun _ => 0, fun _ => 0, 0, 0, 0, 0, fun _ => 0, false, false⟩
  constructor
  · exact ⟨fun all => (taskSelectNext_successor_iff h).mp (all idle),
      fun last u => (taskSelectNext_successor_iff h).mpr last⟩
  · constructor
    · intro all
      have round := List.length_replicate (n := k.tasks.length) (a := idle)
      exact (taskSelectNexts_rounds_iff h _ round).mp (all _ round)
    · exact fun one us round => (taskSelectNexts_rounds_iff h us round).mpr one

end

/-- Two tasks, of which the first is the current one. -/
def twoTasks : Scheduler where
  tasks := [⟨0, .execution, 0, 0x3000000, 0x4000000⟩, ⟨1, .waiting, 0, 0x3001000, 0x4001000⟩]
  taskCount := 2
  currentTaskId := 0

/-- Both are numbered, and the first is current. -/
theorem twoTasks_listed : Listed twoTasks 0 := ⟨by decide, rfl⟩

/-- The only task there is. -/
def onlyTask : Scheduler where
  tasks := [⟨0, .execution, 0, 0x3000000, 0x4000000⟩]
  taskCount := 1
  currentTaskId := 0

/-- It is numbered and current. -/
theorem onlyTask_listed : Listed onlyTask 0 := ⟨by decide, rfl⟩

/-- Both halves hold of one task, and neither of two. -/
theorem round_robin_one_two :
    ((∀ u, (taskSelectNext 0 onlyTask u).2.1.currentTaskId = successor onlyTask 0) ∧
      ∀ us : List Cpu, us.length = 1 → Rounds 0 onlyTask us) ∧
    (¬ ∀ u, (taskSelectNext 0 twoTasks u).2.1.currentTaskId = successor twoTasks 0) ∧
      ¬ ∀ us : List Cpu, us.length = 2 → Rounds 0 twoTasks us := by
  obtain ⟨next, rounds⟩ := @round_robin_iff _ _ 0 onlyTask_listed
  obtain ⟨next', rounds'⟩ := @round_robin_iff _ _ 0 twoTasks_listed
  exact ⟨⟨next.mpr rfl, rounds.mpr rfl⟩, fun all => absurd (next'.mp all) (by decide),
    fun all => absurd (rounds'.mp all) (by decide)⟩

/-- The scheduler does not go round every list. -/
theorem round_robin_not_all : ¬ ∀ (rsp0 : Word) (k : Scheduler) (i : Nat), Listed k i →
    (∀ u, (taskSelectNext rsp0 k u).2.1.currentTaskId = successor k i) ∧
    ∀ us : List Cpu, us.length = k.tasks.length → Rounds rsp0 k us := by
  intro all
  have next := (all 0 twoTasks 0 twoTasks_listed).1
    ⟨fun _ => 0, fun _ => 0, fun _ => 0, 0, 0, 0, 0, fun _ => 0, false, false⟩
  exact absurd next (by decide)

end Skylight.Proc
