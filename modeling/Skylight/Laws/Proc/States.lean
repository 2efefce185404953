import Skylight.Laws.Proc.RoundRobin

/-!
# Dead and sleeping tasks

The calls that write the state of a task do not look at the state it has. Over a run of
them at most one task is executing at a time; that a dead task stays dead and that no dead
or sleeping task is put into execution holds of the runs whose calls all look first.

`states_respected_iff` has the two halves of it, for every run from the start: one task at most
is executing in any state, always, and the states are respected just when every call is
`Sensible`. The source checks no state, so the condition is on what the calls find.
-/

namespace Skylight.Proc

open X86 Scheduler

/-- The calls that write the state of a task or choose the current one. -/
inductive Call
  | create (entry : Word) (new : Allocated)
  | schedule (id : Word)
  | sleep (id : Word)
  | kill (id : Word)
  | select (id : Word)
  | selectNext

/-- What a call leaves of the list; `task_select` may go through a null pointer. -/
def Call.perform (rsp0 : Word) (u : Cpu) (k : Scheduler) : Call → Option Scheduler
  | .create entry new => some (taskCreateNew rsp0 entry new k u).2.1
  | .schedule id => some (taskSchedule id k)
  | .sleep id => some (taskSleep id k)
  | .kill id => some (taskKill id k)
  | .select id => (taskSelect id k u).map Prod.fst
  | .selectNext => some (taskSelectNext rsp0 k u).2.1

/-- The one `task_select` comes before the first `task_select_next`. -/
def Call.inOrder (started : Bool) : Call → Bool
  | .select _ => !started
  | .selectNext => started
  | _ => true

/-- Whether the scheduler has started, after a call. -/
def Call.starts (started : Bool) : Call → Bool
  | .select _ => true
  | _ => started

/-- A call, the list it was made on, and the list it left. -/
structure Taken where
  call : Call
  before : Scheduler
  after : Scheduler

/-- Calls from the start, each with what the processor holds then: the calls taken, whether
the scheduler has started, and the list they leave. -/
inductive Run (rsp0 : Word) : List Taken → Bool → Scheduler → Prop
  | start : Run rsp0 [] false schedulerPreconfigure
  | step {past : List Taken} {started : Bool} {k k' : Scheduler} {c : Call} {u : Cpu}
      (run : Run rsp0 past started k) (order : c.inOrder started = true)
      (done : c.perform rsp0 u k = some k') :
      Run rsp0 (⟨c, k, k'⟩ :: past) (c.starts started) k'

/-- The task at a position is in this state. -/
def Scheduler.At (k : Scheduler) (i : Nat) (state : TaskState) : Prop :=
  k.tasks[i]?.map Task.state = some state

/-- A dead task stays dead, and no dead or sleeping task is put into execution. -/
structure Respected (k k' : Scheduler) : Prop where
  dead : ∀ i, k.At i .dead → k'.At i .dead
  starts : ∀ i, k.At i .dead ∨ k.At i .sleeping → ¬ k'.At i .execution

/-- The call looks first: `task_schedule` and `task_sleep` are not for a dead task, and
`task_select_next` comes when the current task is not dead and the one it goes on with
neither dead nor asleep. -/
def Sensible (k : Scheduler) : Call → Prop
  | .schedule id | .sleep id => ∀ i, k.find id = some i → ¬ k.At i .dead
  | .selectNext => ∀ i, k.find k.currentTaskId = some i →
      ¬ k.At i .dead ∧ ¬ k.At (k.after i) .dead ∧ ¬ k.At (k.after i) .sleeping
  | _ => True

/-- Only the current task is executing, and only after the scheduler has started. -/
def OnlyCurrent (started : Bool) (k : Scheduler) : Prop :=
  ∀ i, k.At i .execution → started = true ∧ k.find k.currentTaskId = some i

section
variable {k k' : Scheduler} {i j : Nat} {rsp0 entry id : Word} {u : Cpu} {c : Call}
  {new : Allocated} {state old : TaskState} {past : List Taken} {started : Bool}

namespace Scheduler

/-- A task is in one state. -/
theorem At.unique (h : k.At i state) (h' : k.At i old) : state = old :=
  Option.some.inj (h.symm.trans h')

/-- And in the list. -/
theorem At.lt (h : k.At i state) : i < k.tasks.length := by
  by_contra ge
  rw [At, List.getElem?_eq_none (Nat.le_of_not_lt ge)] at h
  cases h

/-- The states after a call that writes one. -/
theorem setState_at : (k.setState id state).At j old ↔
    if k.find id = some j then state = old else k.At j old := by
  rw [At, setState_get]
  by_cases here : k.find id = some j
  · simp [here, get_of_lt (find_lt here)]
  · simp [here, At]

end Scheduler

/-- A new task leaves the others. -/
theorem taskCreateNew_at (h : k.At i state) :
    (taskCreateNew rsp0 entry new k u).2.1.At i state := by
  rw [At, taskCreateNew, List.getElem?_append_left h.lt]
  exact h

/-- A new task is asleep. -/
theorem at_of_taskCreateNew (h : (taskCreateNew rsp0 entry new k u).2.1.At i state) :
    k.At i state ∨ state = .sleeping := by
  rw [At, taskCreateNew] at h
  by_cases lt : i < k.tasks.length
  · rw [List.getElem?_append_left lt] at h
    exact Or.inl h
  · rw [List.getElem?_append_right (Nat.le_of_not_lt lt), List.getElem?_singleton] at h
    split at h
    · exact Or.inr (Option.some.inj h).symm
    · cases h

/-- And is found behind them. -/
theorem taskCreateNew_find (found : k.find id = some i) :
    (taskCreateNew rsp0 entry new k u).2.1.find id = some i := by
  rw [Scheduler.find] at found ⊢
  rw [taskCreateNew, List.findIdx?_append, found, Option.some_or]

/-- The states after the scheduler went on. -/
theorem taskSelectNext_at (found : k.find k.currentTaskId = some i) :
    (taskSelectNext rsp0 k u).2.1.At j state ↔
      if k.after i = j then .execution = state
      else if i = j then .waiting = state else k.At j state := by
  rw [At, taskSelectNext_get found]
  have lt := find_lt found
  by_cases next : k.after i = j
  · rw [← next, get_of_lt (after_lt lt), Option.map_some, Option.map_some, Option.some_inj,
      if_pos rfl, if_pos rfl]
  · rw [if_neg next]
    by_cases here : i = j
    · subst here
      rw [get_of_lt lt, Option.map_some, Option.map_some, Option.some_inj, if_pos rfl]
      show (if k.after i = i then _ else _) = state ↔ _
      rw [if_neg next, if_pos rfl]
    · rw [if_neg here, Option.map_map, At]
      simp only [Function.comp_def, if_neg next, if_neg here]

/-- The first task with the id that `task_select_next` goes on with is the one it goes on
with. -/
theorem find_after (found : k.find k.currentTaskId = some i) :
    k.find (k.task (k.after i)).id = some (k.after i) := by
  by_cases last : i + 1 = k.tasks.length
  · have first : k.after i = 0 := if_pos last
    rw [first]
    exact find_eq_some.mpr ⟨_, get_of_lt (Nat.lt_of_le_of_lt (Nat.zero_le i) (find_lt found)), rfl,
      fun j _ less => absurd less (Nat.not_lt_zero j)⟩
  · have stays : k.after i = i := if_neg last
    rw [stays, find_id found, found]

/-! ### One call -/

/-- Scheduling or putting to sleep is for tasks that are alive. -/
theorem setState_respected_iff (asleep : state ≠ .execution) (alive : state ≠ .dead) :
    Respected k (k.setState id state) ↔ ∀ i, k.find id = some i → ¬ k.At i .dead := by
  constructor
  · intro h i found dead
    have stays := h.dead i dead
    rw [setState_at, if_pos found] at stays
    exact alive stays
  · intro h
    constructor
    · intro i dead
      rw [setState_at, if_neg fun found => h i found dead]
      exact dead
    · intro i low high
      rw [setState_at] at high
      split at high
      · exact asleep high
      · rcases low with low | low <;> cases low.unique high

/-- A kill is always right. -/
theorem taskKill_respected : Respected k (taskKill id k) where
  dead i dead := by
    rw [taskKill, setState_at]
    split
    · rfl
    · exact dead
  starts i low high := by
    rw [taskKill, setState_at] at high
    split at high
    · cases high
    · rcases low with low | low <;> cases low.unique high

/-- And so is a new task. -/
theorem taskCreateNew_respected : Respected k (taskCreateNew rsp0 entry new k u).2.1 where
  dead _ dead := taskCreateNew_at dead
  starts i low high := by
    rcases at_of_taskCreateNew high with old | asleep
    · rcases low with low | low <;> cases low.unique old
    · cases asleep

/-- Going on is right when neither task is dead and the next is not asleep. -/
theorem taskSelectNext_respected_iff : Respected k (taskSelectNext rsp0 k u).2.1 ↔
    ∀ i, k.find k.currentTaskId = some i →
      ¬ k.At i .dead ∧ ¬ k.At (k.after i) .dead ∧ ¬ k.At (k.after i) .sleeping := by
  constructor
  · intro h i found
    have next : (taskSelectNext rsp0 k u).2.1.At (k.after i) .execution := by
      rw [taskSelectNext_at found, if_pos rfl]
    refine ⟨fun dead => ?_, fun dead => h.starts _ (Or.inl dead) next,
      fun asleep => h.starts _ (Or.inr asleep) next⟩
    have stays := h.dead i dead
    rw [taskSelectNext_at found] at stays
    split at stays
    · cases stays
    · rw [if_pos rfl] at stays
      cases stays
  · intro h
    cases found : k.find k.currentTaskId with
    | none =>
      rw [taskSelectNext_none found]
      exact ⟨fun _ dead => dead, fun i low high => by
        rcases low with low | low <;> cases low.unique high⟩
    | some i =>
      obtain ⟨current, dead, asleep⟩ := h i found
      constructor
      · intro j old
        have off : k.after i ≠ j := by
          rintro rfl
          exact dead old
        have other : i ≠ j := by
          rintro rfl
          exact current old
        rw [taskSelectNext_at found, if_neg off, if_neg other]
        exact old
      · intro j low high
        rw [taskSelectNext_at found] at high
        split at high
        · next eq =>
          subst eq
          exact low.elim dead asleep
        · split at high
          · cases high
          · rcases low with low | low <;> cases low.unique high

/-- A call does as it should exactly if it looks first. -/
theorem respected_iff (done : c.perform rsp0 u k = some k') : Respected k k' ↔ Sensible k c := by
  cases c with
  | create entry new =>
    cases done
    exact iff_of_true taskCreateNew_respected trivial
  | schedule id =>
    cases done
    exact setState_respected_iff (by decide) (by decide)
  | sleep id =>
    cases done
    exact setState_respected_iff (by decide) (by decide)
  | kill id =>
    cases done
    exact iff_of_true taskKill_respected trivial
  | select id =>
    obtain ⟨i, -, rfl⟩ : ∃ i, _ ∧ _ := by
      rw [Call.perform, taskSelect, Option.map_map] at done
      exact Option.map_eq_some_iff.mp done
    refine iff_of_true ⟨fun _ dead => dead, fun i low high => ?_⟩ trivial
    rcases low with low | low <;> cases At.unique low high
  | selectNext =>
    cases done
    exact taskSelectNext_respected_iff

/-- No call but the scheduler's puts a task into execution. -/
theorem setState_onlyCurrent (asleep : state ≠ .execution) (h : OnlyCurrent started k) :
    OnlyCurrent started (k.setState id state) := by
  intro i running
  rw [setState_at] at running
  split at running
  · exact absurd running asleep
  · rw [setState_currentTaskId, find_congr setState_ids]
    exact h i running

/-- The scheduler does, and that task is then the current one. -/
theorem taskSelectNext_onlyCurrent (h : OnlyCurrent true k) :
    OnlyCurrent true (taskSelectNext rsp0 k u).2.1 := by
  cases found : k.find k.currentTaskId with
  | none =>
    rw [taskSelectNext_none found]
    exact h
  | some i =>
    intro j running
    rw [taskSelectNext_at found] at running
    rw [find_congr taskSelectNext_ids, (taskSelectNext_current found).2, find_after found]
    split at running
    · next eq => exact ⟨rfl, congrArg some eq⟩
    · split at running
      · cases running
      · next here =>
        obtain ⟨-, current⟩ := h j running
        exact absurd (Option.some.inj (found.symm.trans current)) here

/-- One call keeps the executing task the current one. -/
theorem OnlyCurrent.step (h : OnlyCurrent started k) (order : c.inOrder started = true)
    (done : c.perform rsp0 u k = some k') : OnlyCurrent (c.starts started) k' := by
  cases c with
  | create entry new =>
    cases done
    intro i running
    rcases at_of_taskCreateNew running with old | asleep
    · exact ⟨(h i old).1, taskCreateNew_find (h i old).2⟩
    · cases asleep
  | schedule id =>
    cases done
    exact setState_onlyCurrent (by decide) h
  | sleep id =>
    cases done
    exact setState_onlyCurrent (by decide) h
  | kill id =>
    cases done
    exact setState_onlyCurrent (by decide) h
  | select id =>
    obtain ⟨i, -, rfl⟩ : ∃ i, _ ∧ _ := by
      rw [Call.perform, taskSelect, Option.map_map] at done
      exact Option.map_eq_some_iff.mp done
    intro j running
    have late := (h j running).1
    rw [late] at order
    cases order
  | selectNext =>
    cases done
    cases started with
    | false => cases order
    | true => exact taskSelectNext_onlyCurrent h

/-! ### Runs -/

/-- In every state reached only the current task is executing. -/
theorem Run.onlyCurrent (run : Run rsp0 past started k) : OnlyCurrent started k := by
  induction run with
  | start => exact fun i running => nomatch running
  | step _ order done ih => exact ih.step order done

/-- The tasks are numbered in the order they were created. -/
structure Numbered (k : Scheduler) : Prop where
  ids : k.tasks.map Task.id = (List.range k.tasks.length).map (BitVec.ofNat 64)
  count : k.taskCount = BitVec.ofNat 64 k.tasks.length

/-- The numbers are in the ids and the count. -/
theorem Numbered.congr (h : Numbered k) (ids : k'.tasks.map Task.id = k.tasks.map Task.id)
    (count : k'.taskCount = k.taskCount) : Numbered k' := by
  have length : k'.tasks.length = k.tasks.length := by
    rw [← List.length_map, ids, List.length_map]
  constructor
  · rw [ids, length, h.ids]
  · rw [count, length, h.count]

/-- Going on creates no task. -/
theorem taskSelectNext_count : (taskSelectNext rsp0 k u).2.1.taskCount = k.taskCount := by
  cases found : k.find k.currentTaskId with
  | none => rw [taskSelectNext_none found]
  | some i => rw [taskSelectNext_some found, modify_taskCount, modify_taskCount]

/-- Nor does a state. -/
theorem setState_count : (k.setState id state).taskCount = k.taskCount := by
  rw [setState]
  split <;> rfl

/-- Each call keeps the numbers. -/
theorem Numbered.step (h : Numbered k) (done : c.perform rsp0 u k = some k') : Numbered k' := by
  cases c with
  | create entry new =>
    cases done
    constructor
    · rw [taskCreateNew, List.map_append, List.length_append, h.ids, List.length_singleton,
        List.range_succ, List.map_append, h.count]
      rfl
    · rw [taskCreateNew, List.length_append, h.count, List.length_singleton, BitVec.ofNat_add]
      rfl
  | schedule id =>
    cases done
    exact h.congr setState_ids setState_count
  | sleep id =>
    cases done
    exact h.congr setState_ids setState_count
  | kill id =>
    cases done
    exact h.congr setState_ids setState_count
  | select id =>
    obtain ⟨i, -, rfl⟩ : ∃ i, _ ∧ _ := by
      rw [Call.perform, taskSelect, Option.map_map] at done
      exact Option.map_eq_some_iff.mp done
    exact h.congr rfl rfl
  | selectNext =>
    cases done
    exact h.congr taskSelectNext_ids taskSelectNext_count

/-- And so does a run. -/
theorem Run.numbered (run : Run rsp0 past started k) : Numbered k := by
  induction run with
  | start => exact ⟨rfl, rfl⟩
  | step _ _ done ih => exact ih.step done

/-- As long as the ids have not wrapped round, the lists that calls leave are the ones the
round is about. -/
theorem Run.listed (run : Run rsp0 past started k) (few : k.tasks.length ≤ 2 ^ 64)
    (found : k.find k.currentTaskId = some i) : Listed k i where
  distinct := by
    rw [run.numbered.ids]
    refine List.Nodup.map_on (fun a ha b hb same => ?_) List.nodup_range
    rw [List.mem_range] at ha hb
    have value := congrArg BitVec.toNat same
    rwa [BitVec.toNat_ofNat, BitVec.toNat_ofNat, Nat.mod_eq_of_lt (Nat.lt_of_lt_of_le ha few),
      Nat.mod_eq_of_lt (Nat.lt_of_lt_of_le hb few)] at value
  current := by
    rw [List.getElem?_map, get_of_lt (find_lt found), Option.map_some, find_id found]

/-- At most one task is executing in any state reached. -/
theorem Run.atMostOne (run : Run rsp0 past started k) (hi : k.At i .execution)
    (hj : k.At j .execution) : i = j :=
  Option.some.inj ((run.onlyCurrent i hi).2.symm.trans (run.onlyCurrent j hj).2)

/-- The calls of a run all do as they should exactly if they all look first. -/
theorem Run.respected_iff (run : Run rsp0 past started k) :
    (∀ t ∈ past, Respected t.before t.after) ↔ ∀ t ∈ past, Sensible t.before t.call := by
  induction run with
  | start => simp
  | step _ _ done ih =>
    rw [List.forall_mem_cons, List.forall_mem_cons, ih, Proc.respected_iff done]

/-- The states of tasks over a run. One task at most is executing in any state that a run
reaches, and a dead task stays dead and no dead or sleeping task is put into execution exactly
if every call of the run looks first. -/
theorem states_respected_iff (run : Run rsp0 past started k) :
    ((∀ t ∈ past, Respected t.before t.after) ∧
      ∀ i j, k.At i .execution → k.At j .execution → i = j) ↔
    ∀ t ∈ past, Sensible t.before t.call :=
  ⟨fun h => run.respected_iff.mp h.1,
    fun h => ⟨run.respected_iff.mpr h, fun _ _ => run.atMostOne⟩⟩

end

/-- The list of one task that `task_select` has chosen. -/
def oneTask (state : TaskState) : Scheduler where
  tasks := [⟨0, state, 0, 0x3000000, 0x4000000⟩]
  taskCount := 1
  currentTaskId := 0

/-- A processor that runs on the gs page of that task. -/
def tickCpu : Cpu where
  reg _ := 0
  cr _ := 0
  seg _ := 0x10
  rflags := 2
  rip := 0
  gsBase := 0x4000000
  kernelGsBase := 0
  mem _ := 0
  zero := false
  less := false

/-- A task is created, selected and killed, and the timer ticks. -/
def killed : List Taken := [
  ⟨.selectNext, oneTask .dead, oneTask .execution⟩,
  ⟨.kill 0, oneTask .sleeping, oneTask .dead⟩,
  ⟨.select 0, oneTask .sleeping, oneTask .sleeping⟩,
  ⟨.create 0x401000 ⟨0x3000000, 0x4000000, 0x5000000, 0x9000⟩, schedulerPreconfigure,
    oneTask .sleeping⟩]

/-- The calls are a run. -/
theorem killed_run : Run 0 killed true (oneTask .execution) := by
  have created := (@Run.start 0).step (u := tickCpu)
    (c := .create 0x401000 ⟨0x3000000, 0x4000000, 0x5000000, 0x9000⟩) rfl rfl
  have selected := created.step (u := tickCpu) (c := .select 0) rfl rfl
  have dead := selected.step (u := tickCpu) (c := .kill 0) rfl rfl
  exact dead.step (u := tickCpu) (c := .selectNext) rfl rfl

/-- The task is scheduled before it is selected, goes on once and is killed. -/
def scheduled : List Taken := [
  ⟨.kill 0, oneTask .execution, oneTask .dead⟩,
  ⟨.selectNext, oneTask .waiting, oneTask .execution⟩,
  ⟨.select 0, oneTask .waiting, oneTask .waiting⟩,
  ⟨.schedule 0, oneTask .sleeping, oneTask .waiting⟩,
  ⟨.create 0x401000 ⟨0x3000000, 0x4000000, 0x5000000, 0x9000⟩, schedulerPreconfigure,
    oneTask .sleeping⟩]

/-- The calls are a run. -/
theorem scheduled_run : Run 0 scheduled true (oneTask .dead) := by
  have created := (@Run.start 0).step (u := tickCpu)
    (c := .create 0x401000 ⟨0x3000000, 0x4000000, 0x5000000, 0x9000⟩) rfl rfl
  have waiting := created.step (u := tickCpu) (c := .schedule 0) rfl rfl
  have selected := waiting.step (u := tickCpu) (c := .select 0) rfl rfl
  have goes_on := selected.step (u := tickCpu) (c := .selectNext) rfl rfl
  exact goes_on.step (u := tickCpu) (c := .kill 0) rfl rfl

/-- The state of the only task. -/
theorem oneTask_at {old state : TaskState} (at_ : (oneTask old).At 0 state) : old = state :=
  Option.some.inj at_

/-- Its calls all look first. -/
theorem scheduled_sensible : ∀ t ∈ scheduled, Sensible t.before t.call := by
  have first {old : TaskState} {i : Nat} (found : (oneTask old).find 0 = some i) : i = 0 :=
    (Option.some.inj found).symm
  simp only [scheduled, List.forall_mem_cons]
  refine ⟨trivial, ?_, trivial, ?_, trivial, by simp⟩
  · rintro i found
    obtain rfl := first found
    refine ⟨fun at_ => ?_, fun at_ => ?_, fun at_ => ?_⟩
    all_goals cases oneTask_at at_
  · rintro i found at_
    obtain rfl := first found
    cases oneTask_at at_

/-- The states of tasks are respected by the run whose calls all look first, and not by the one in
which a dead task goes on. -/
theorem states_respected_scheduled :
    ((∀ t ∈ scheduled, Respected t.before t.after) ∧
      ∀ i j, (oneTask .dead).At i .execution → (oneTask .dead).At j .execution → i = j) ∧
    ¬ ((∀ t ∈ killed, Respected t.before t.after) ∧
      ∀ i j, (oneTask .execution).At i .execution → (oneTask .execution).At j .execution →
        i = j) := by
  refine ⟨(states_respected_iff scheduled_run).mpr scheduled_sensible, fun respected => ?_⟩
  have sensible := (states_respected_iff killed_run).mp respected _ List.mem_cons_self
  exact (sensible 0 rfl).1 rfl

/-- The states of tasks are not respected by every run. -/
theorem states_respected_not_all : ¬ ∀ (rsp0 : Word) (past : List Taken) (started : Bool)
    (k : Scheduler), Run rsp0 past started k →
    (∀ t ∈ past, Respected t.before t.after) ∧
      ∀ i j, k.At i .execution → k.At j .execution → i = j := by
  intro all
  have tick := (all _ _ _ _ killed_run).1 _ List.mem_cons_self
  exact tick.starts 0 (Or.inl rfl) rfl

end Skylight.Proc
