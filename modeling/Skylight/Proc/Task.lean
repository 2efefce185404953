import Mathlib.Data.List.Basic
import Skylight.Lib.X86.Machine

/-!
# Tasks and the scheduler

`proc/task/task.c`. The linked list of tasks is a list, and a pointer to a link the position
of the task in it. The context and the gs page of a task are in the memory of the processor.
-/

namespace Skylight.Proc

open X86

/-- The states of a task. -/
inductive TaskState
  | execution
  | waiting
  | sleeping
  | dead
  deriving DecidableEq, Inhabited, Repr

/-- `task_t` -/
structure Task where
  id : Word
  state : TaskState
  /-- currently irrelevant -/
  priority : Word
  ctx : Word
  gsBase : Word
  deriving DecidableEq, Inhabited

/-- `tasks`, `task_count` and `current_task_id` -/
structure Scheduler where
  tasks : List Task
  taskCount : Word
  currentTaskId : Word
  deriving DecidableEq

/-- The globals after `scheduler_preconfigure`. -/
def schedulerPreconfigure : Scheduler := ⟨[], 0, 0⟩

namespace Scheduler

/-- The loop that looks for a task by its id. -/
def find (k : Scheduler) (id : Word) : Option Nat := k.tasks.findIdx? fun t => t.id = id

/-- The task at a position, written to. -/
def modify (k : Scheduler) (i : Nat) (f : Task → Task) : Scheduler :=
  { k with tasks := k.tasks.modify i f }

/-- The task at a position of the list. -/
def task (k : Scheduler) (i : Nat) : Task := k.tasks.getD i default

/-- The state of the first task with an id, written. -/
def setState (k : Scheduler) (id : Word) (state : TaskState) : Scheduler :=
  match k.find id with
  | none => k
  | some i => k.modify i fun t => { t with state := state }

end Scheduler

/-- `task_schedule` -/
def taskSchedule (id : Word) (k : Scheduler) : Scheduler := k.setState id .waiting

/-- `task_sleep` -/
def taskSleep (id : Word) (k : Scheduler) : Scheduler := k.setState id .sleeping

/-- `task_kill` -/
def taskKill (id : Word) (k : Scheduler) : Scheduler := k.setState id .dead

/-- The memory a new task gets: its context, its gs page, the lower end of its stack, and the
page tables `task_new_page_table` returns. -/
structure Allocated where
  ctx : Word
  gsBase : Word
  stack : Word
  table : Word

/-- Zeros in the quadwords of a page. -/
def zeroPage (g : Word) (u : Cpu) : Cpu :=
  (List.range 512).foldl (fun u i => u.write (g + BitVec.ofNat 64 (8 * i)) 0) u

/-- The fields of `registers` in `task_context_t`. -/
def registerOffsets : List Word :=
  [0x20, 0x28, 0x18, 0x10, 0x08, 0x00, 0x30, 0x38, 0x40, 0x48, 0x50, 0x58, 0x60, 0x68]

/-- `task_create_new`. `rsp0` is the kernel stack in the TSS, `entry` comes from the load info. -/
def taskCreateNew (rsp0 entry : Word) (new : Allocated) (k : Scheduler) (u : Cpu) :
    Word × Scheduler × Cpu :=
  let id := k.taskCount
  let rsp := new.stack + 0x100000
  let u := registerOffsets.foldl (fun u field => u.write (new.ctx + field) 0) u
  let u := zeroPage new.gsBase u
  let u := (u.write (new.gsBase + 0x00) 0).write (new.gsBase + 0x08) id
  let u := (u.write (new.gsBase + 0x10) rsp0).write (new.gsBase + 0x18) entry
  let u := u.write (new.gsBase + 0x20) new.ctx
  let u := (u.write (new.ctx + 0x70) rsp).write (new.ctx + 0x78) rsp
  let u := (u.write (new.ctx + 0x80) entry).write (new.ctx + 0x88) new.table
  let task : Task := ⟨id, .sleeping, 0, new.ctx, new.gsBase⟩
  (id, { k with tasks := k.tasks ++ [task], taskCount := k.taskCount + 1 }, u)

/-- `task_select`, up to `_finalize_task_switch`. Without a task of that id it goes through a
null pointer. -/
def taskSelect (id : Word) (k : Scheduler) (u : Cpu) : Option (Scheduler × Cpu) :=
  let k := { k with currentTaskId := id }
  (k.find id).map fun i => (k, { u with kernelGsBase := (k.task i).gsBase, gsBase := 0 })

/-- The GS bases and the gs page of a task, written for it to go on. -/
def loadGsBase (rsp0 : Word) (t : Task) (u : Cpu) : Cpu :=
  let u := { u with gsBase := t.gsBase, kernelGsBase := 0 }
  let u := (u.write (t.gsBase + 0x00) 0).write (t.gsBase + 0x20) t.ctx
  let u := (u.write (t.gsBase + 0x08) t.id).write (t.gsBase + 0x10) rsp0
  u.write (t.gsBase + 0x18) (u.mem (t.ctx + 0x80))

/-- `task_select_next` -/
def taskSelectNext (rsp0 : Word) (k : Scheduler) (u : Cpu) : Word × Scheduler × Cpu :=
  match k.find k.currentTaskId with
  | none => (-1, k, u)
  | some thread =>
    let k := k.modify thread fun t => { t with state := .waiting, gsBase := u.gsBase }
    -- the test has no `else`: the next link is never gone to
    let thread := if thread + 1 = k.tasks.length then 0 else thread
    let k := k.modify thread fun t => { t with state := .execution }
    let t := k.task thread
    (t.id, { k with currentTaskId := t.id }, loadGsBase rsp0 t u)

/-- `__local_timer_builtin_handler`, past the end-of-interrupt write. -/
def localTimerBuiltinHandler (rsp0 : Word) (k : Scheduler) (u : Cpu) : Scheduler × Cpu :=
  if u.gsBase ≠ 0 ∧ u.kernelGsBase = 0 then (taskSelectNext rsp0 k u).2 else (k, u)

end Skylight.Proc
