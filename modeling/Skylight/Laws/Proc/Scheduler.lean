import Mathlib.Data.List.Nodup
import Skylight.Proc.Task

/-!
# What the scheduler does to a task

One lemma for each operation of `task.c`: which task of the list it writes, and what it writes
there.

The list of the source is linked by pointers and only ever grows at its end, so it is a list
here, with positions for pointers. `find` is the search by id that every operation begins with,
and `after` is where `task_select_next` goes from a position. The laws give the list after each
operation, position by position (`setState_get`, `taskSelectNext_get`); what a run of operations
comes to is proved from them in `Laws.Proc.RoundRobin` and `Laws.Proc.States`, and what the
processor does in `Laws.Proc.Switch`.
-/

namespace Skylight.Proc

open X86

section
variable {k : Scheduler} {i j : Nat} {id rsp0 entry : Word} {u : Cpu} {t : Task} {f : Task → Task}
  {state : TaskState} {new : Allocated}

namespace Scheduler

@[simp] theorem modify_currentTaskId : (k.modify i f).currentTaskId = k.currentTaskId := rfl

@[simp] theorem modify_taskCount : (k.modify i f).taskCount = k.taskCount := rfl

@[simp] theorem modify_length : (k.modify i f).tasks.length = k.tasks.length :=
  List.length_modify _ _ _

/-- One position is changed. -/
theorem modify_get : (k.modify i f).tasks[j]? = k.tasks[j]?.map fun t =>
    if i = j then f t else t := by
  rw [modify, List.getElem?_modify]
  rfl

/-- The task at a position of the list. -/
theorem task_of_get (h : k.tasks[i]? = some t) : k.task i = t := by
  rw [task, List.getD_eq_getElem?_getD, h, Option.getD_some]

/-- There is a task at each position of the list. -/
theorem get_of_lt (h : i < k.tasks.length) : k.tasks[i]? = some (k.task i) := by
  rw [task, List.getD_eq_getElem?_getD, List.getElem?_eq_getElem h, Option.getD_some]

/-- A search finds the first task with the id. -/
theorem find_eq_some : k.find id = some i ↔
    ∃ t, k.tasks[i]? = some t ∧ t.id = id ∧ ∀ j t, j < i → k.tasks[j]? = some t → t.id ≠ id := by
  rw [find, List.findIdx?_eq_some_iff_getElem]
  constructor
  · rintro ⟨lt, here, before⟩
    refine ⟨k.tasks[i], List.getElem?_eq_getElem lt, of_decide_eq_true here, fun j t less get => ?_⟩
    obtain ⟨bound, rfl⟩ := List.getElem?_eq_some_iff.mp get
    exact fun same => before j less (decide_eq_true same)
  · rintro ⟨t, get, here, before⟩
    obtain ⟨lt, rfl⟩ := List.getElem?_eq_some_iff.mp get
    exact ⟨lt, decide_eq_true here, fun j less same =>
      before j _ less (List.getElem?_eq_getElem _) (of_decide_eq_true same)⟩

/-- What is found is in the list. -/
theorem find_lt (h : k.find id = some i) : i < k.tasks.length := by
  obtain ⟨t, get, -, -⟩ := find_eq_some.mp h
  exact (List.getElem?_eq_some_iff.mp get).1

/-- It has the id that was looked for. -/
theorem find_id (h : k.find id = some i) : (k.task i).id = id := by
  obtain ⟨t, get, same, -⟩ := find_eq_some.mp h
  rw [task_of_get get, same]

/-- A search goes by the ids alone. -/
theorem find_congr {k' : Scheduler} (h : k'.tasks.map Task.id = k.tasks.map Task.id) :
    k'.find id = k.find id := by
  have via (k : Scheduler) : k.find id = (k.tasks.map Task.id).findIdx? fun x => x = id := by
    rw [find, List.findIdx?_map]
    rfl
  rw [via, via, h]

/-- A change that keeps the id keeps all ids. -/
theorem modify_ids (keep : ∀ t, (f t).id = t.id) :
    (k.modify i f).tasks.map Task.id = k.tasks.map Task.id := by
  apply List.ext_getElem?
  intro j
  rw [List.getElem?_map, List.getElem?_map, modify_get, Option.map_map]
  congr 1
  ext t
  by_cases eq : i = j <;> simp [eq, keep]

/-- Ids are read position by position. -/
theorem task_id {k' : Scheduler} (h : k'.tasks.map Task.id = k.tasks.map Task.id) :
    (k'.task j).id = (k.task j).id := by
  have via (k : Scheduler) : (k.task j).id = ((k.tasks.map Task.id)[j]?).getD default := by
    rw [task, List.getD_eq_getElem?_getD, List.getElem?_map]
    cases k.tasks[j]? <;> rfl
  rw [via, via, h]

/-- `task_schedule`, `task_sleep` and `task_kill` write the state of the first task with the id, and
of no other; with an unknown id nothing changes. -/
theorem setState_get : (k.setState id state).tasks[j]? = k.tasks[j]?.map fun t =>
    if k.find id = some j then { t with state := state } else t := by
  rw [setState]
  cases found : k.find id with
  | none => simp
  | some i => simp [modify_get]

@[simp] theorem setState_currentTaskId : (k.setState id state).currentTaskId = k.currentTaskId := by
  rw [setState]
  split <;> rfl

/-- The states are not the ids. -/
theorem setState_ids : (k.setState id state).tasks.map Task.id = k.tasks.map Task.id := by
  rw [setState]
  split
  · rfl
  · exact modify_ids fun _ => rfl

/-- Where `task_select_next` goes from the `i`-th task: the test for the end of the list is
all there is. -/
def after (k : Scheduler) (i : Nat) : Nat := if i + 1 = k.tasks.length then 0 else i

/-- It stays in the list. -/
theorem after_lt (h : i < k.tasks.length) : k.after i < k.tasks.length := by
  rw [after]
  split
  · exact Nat.lt_of_le_of_lt (Nat.zero_le i) h
  · exact h

/-- So it stays where it has gone. -/
theorem after_after : k.after (k.after i) = k.after i := by
  by_cases last : i + 1 = k.tasks.length
  · have first : k.after i = 0 := if_pos last
    rw [first, after, ite_self]
  · have stays : k.after i = i := if_neg last
    rw [stays, stays]

end Scheduler

open Scheduler

/-- Without a current task nothing happens. -/
theorem taskSelectNext_none (h : k.find k.currentTaskId = none) :
    taskSelectNext rsp0 k u = (-1, k, u) := by
  rw [taskSelectNext, h]

/-- With one, the state of two tasks and the processor. -/
theorem taskSelectNext_some (h : k.find k.currentTaskId = some i) :
    taskSelectNext rsp0 k u =
      let k' := (k.modify i fun t => { t with state := .waiting, gsBase := u.gsBase }).modify
        (k.after i) fun t => { t with state := .execution }
      ((k'.task (k.after i)).id, { k' with currentTaskId := (k'.task (k.after i)).id },
        loadGsBase rsp0 (k'.task (k.after i)) u) := by
  simp only [taskSelectNext, h, modify_length]
  rfl

/-- What `task_select_next` leaves of the list: the task chosen is executing, the one before it is
waiting, unless it is chosen again, and that one's `gs_base` is stored. -/
theorem taskSelectNext_get (h : k.find k.currentTaskId = some i) :
    (taskSelectNext rsp0 k u).2.1.tasks[j]? = k.tasks[j]?.map fun t =>
      { t with
        state := if k.after i = j then .execution else if i = j then .waiting else t.state
        gsBase := if i = j then u.gsBase else t.gsBase } := by
  rw [taskSelectNext_some h]
  simp only [modify_get, Option.map_map]
  congr 1
  ext t
  rw [Function.comp_apply]
  by_cases next : k.after i = j
  · rw [if_pos next, if_pos next]
    by_cases here : i = j
    · rw [if_pos here, if_pos here]
    · rw [if_neg here, if_neg here]
  · rw [if_neg next, if_neg next]
    by_cases here : i = j
    · rw [if_pos here, if_pos here, if_pos here]
    · rw [if_neg here, if_neg here, if_neg here]

/-- The ids stay. -/
theorem taskSelectNext_ids :
    (taskSelectNext rsp0 k u).2.1.tasks.map Task.id = k.tasks.map Task.id := by
  cases h : k.find k.currentTaskId with
  | none => rw [taskSelectNext_none h]
  | some i =>
    apply List.ext_getElem?
    intro j
    rw [List.getElem?_map, List.getElem?_map, taskSelectNext_get h, Option.map_map]
    rfl

/-- No task is added or lost. -/
theorem taskSelectNext_length :
    (taskSelectNext rsp0 k u).2.1.tasks.length = k.tasks.length := by
  have same := congrArg List.length (@taskSelectNext_ids k rsp0 u)
  rwa [List.length_map, List.length_map] at same

/-- The task `task_select_next` goes on with, as it leaves it. -/
theorem taskSelectNext_task (h : k.find k.currentTaskId = some i) :
    (taskSelectNext rsp0 k u).2.1.task (k.after i) =
      { k.task (k.after i) with
        state := .execution
        gsBase := if i = k.after i then u.gsBase else (k.task (k.after i)).gsBase } := by
  apply task_of_get
  rw [taskSelectNext_get h, get_of_lt (after_lt (find_lt h)), Option.map_some, if_pos rfl]

/-- It returns and records the id of the task it goes on with. -/
theorem taskSelectNext_current (h : k.find k.currentTaskId = some i) :
    (taskSelectNext rsp0 k u).1 = (k.task (k.after i)).id ∧
    (taskSelectNext rsp0 k u).2.1.currentTaskId = (k.task (k.after i)).id := by
  rw [taskSelectNext_some h]
  have same := task_id (j := k.after i)
    ((modify_ids (i := k.after i) (f := fun t => { t with state := .execution })
      fun _ => rfl).trans (modify_ids (k := k) (i := i)
      (f := fun t => { t with state := .waiting, gsBase := u.gsBase }) fun _ => rfl))
  exact ⟨same, same⟩

end

end Skylight.Proc
