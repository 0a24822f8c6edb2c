import Hydrangea.Lib.Linked
import Mathlib.Logic.Function.Basic
import Mathlib.Tactic

/-! The tasks of `kernel/multitasking/scheduler.c` and the parts of `task.c` that its lists
depend on. A pointer to a task is its address and NULL is `none`. A function with a loop or a
recursion takes its fuel as an argument and has no result when that runs out: a call returns
if some fuel gives it a result.
-/

namespace Hydrangea

/-- `TS_SUS`, `TS_RDY`, `TS_RUN` and `TS_FIN`. -/
inductive TaskState where
  | sus
  | rdy
  | run
  | fin
  deriving DecidableEq

/-- The fields of `task_t` that scheduling reads. -/
structure Task where
  pid : Nat
  ppid : Nat
  timeSlice : Nat
  timeRemaining : Nat
  next : Option Nat
  prev : Option Nat
  state : TaskState

/-- The task structures and the globals of `scheduler.c`, with the counter of `gen_pid`. -/
structure Sched where
  task : Nat → Task
  mtEnabled : Bool
  tasks : Option Nat
  tasksCount : Nat
  curTask : Option Nat
  fgTask : Option Nat
  terminatedTasks : Option Nat
  pidCounter : Nat

namespace Sched

def maxPid : Nat := 0xFFFF

def defaultTimeSlice : Nat := 1

/-- A store into fields of the task at `p`. -/
def setTask (s : Sched) (p : Nat) (f : Task → Task) : Sched :=
  { s with task := Function.update s.task p (f (s.task p)) }

/-- A store into fields of the task at a pointer, if it is not NULL. -/
def setIfTask (s : Sched) (p : Option Nat) (f : Task → Task) : Sched :=
  match p with
  | none => s
  | some p => s.setTask p f

abbrev next (s : Sched) (p : Nat) : Option Nat :=
  (s.task p).next

abbrev prev (s : Sched) (p : Nat) : Option Nat :=
  (s.task p).prev

/-- `mt_push_task`. For a NULL task the store into `prev` goes to page zero, where no task
lies.
-/
def mtPushTask (fuel : Nat) (s : Sched) (newTask : Option Nat) : Option Sched :=
  match s.tasks with
  | none => some { s with tasks := newTask }
  | some first => do
      let last ← Linked.last s.next fuel first
      let s := s.setTask last (fun t => { t with next := newTask })
      return s.setIfTask newTask (fun t => { t with prev := some last })

/-- `mt_get_task_by_pid`; the inner `none` is the NULL result. -/
def mtGetTaskByPid (fuel : Nat) (s : Sched) (pid : Nat) : Option (Option Nat) :=
  Linked.find s.next (fun p => (s.task p).pid = pid) fuel s.tasks

/-- The loop of `gen_pid`, from `pid` on. The counter does not wrap: it only passes the pids
of live tasks.
-/
def unusedPid (s : Sched) (walk : Nat) : (fuel pid : Nat) → Option Nat
  | 0, _ => none
  | fuel + 1, pid =>
      match s.mtGetTaskByPid walk pid with
      | none => none
      | some none => some pid
      | some (some _) => unusedPid s walk fuel (pid + 1)

def genPid (fuel : Nat) (s : Sched) : Option (Nat × Sched) := do
  let pid ← if maxPid < s.pidCounter then s.unusedPid fuel fuel 0 else some s.pidCounter
  return (pid, { s with pidCounter := pid + 1 })

/-- `ktask_create`; `task` is the block `kmalloc` returns, whose `prev` is not set here. -/
def ktaskCreate (fuel : Nat) (s : Sched) (task ppid : Nat)
    : Option (Option Nat × Sched) := do
  let (pid, s) ← s.genPid fuel
  let parentTask ← s.mtGetTaskByPid fuel ppid
  if pid ≠ 0 ∧ parentTask = none then
    return (none, s)
  let s := s.setTask task (fun t =>
    { t with
      pid, ppid, state := .rdy, next := none
      timeSlice := defaultTimeSlice, timeRemaining := defaultTimeSlice })
  return (some task, s)

/-- `mt_spawn_ktask`, without the pid it returns. -/
def mtSpawnKtask (fuel : Nat) (s : Sched) (task ppid : Nat) : Option Sched := do
  let (t, s) ← s.ktaskCreate fuel task ppid
  s.mtPushTask fuel t

/-- `mt_spawn_utask`, without the pid it returns; `found` says that the path leads to a file
that is no directory.
-/
def mtSpawnUtask (fuel : Nat) (s : Sched) (found : Bool) (task ppid : Nat)
    : Option Sched := do
  if !found then
    return s
  let (t, s) ← s.ktaskCreate fuel task ppid
  match t with
  | none => return s
  | some p => s.mtPushTask fuel (some p)

/-- `mt_init`, with the addresses of its three tasks. -/
def mtInit (fuel : Nat) (s : Sched) (kernelIdle test cleaner : Nat) : Option Sched := do
  let s ← s.mtSpawnKtask fuel kernelIdle 0
  let s ← s.mtSpawnKtask fuel test 0
  let s ← s.mtSpawnKtask fuel cleaner 0
  return { s with curTask := s.tasks, fgTask := none, mtEnabled := true }

/-- `mt_pick_next_task`, given `cur_task`. -/
def mtPickNextTask (fuel : Nat) (s : Sched) (curTask : Nat) : Option (Option Nat) :=
  match (s.task curTask).next with
  | none => some s.tasks
  | some nextTask =>
      if (s.task nextTask).state ≠ .fin then
        some (some nextTask)
      else do
        match ← Linked.find s.next (fun p => (s.task p).state ≠ .fin) fuel (s.next nextTask) with
        | none => return s.tasks
        | some p => return some p

/-- `mt_switch_task`, without the registers. -/
def mtSwitchTask (s : Sched) (task : Nat) : Sched :=
  { s with curTask := some task }

/-- `mt_schedule`, with the task it switches to, if it does. -/
def mtSchedule (fuel : Nat) (s : Sched) : Option (Option Nat × Sched) := do
  if !s.mtEnabled || s.tasksCount = 1 then
    return (none, s)
  let curTask ← s.curTask
  let s := s.setTask curTask (fun t =>
    { t with timeRemaining := (t.timeRemaining + (2 ^ 32 - 1)) % 2 ^ 32 })
  if (s.task curTask).state = .run ∧ 0 < (s.task curTask).timeRemaining then
    return (none, s)
  let s := s.setTask curTask (fun t => { t with timeRemaining := t.timeSlice })
  let nextTask ← (← s.mtPickNextTask fuel curTask)
  let s := s.setTask nextTask (fun t => { t with state := .run })
  let s :=
    if (s.task curTask).state ≠ .fin then
      s.setTask curTask (fun t => { t with state := .sus })
    else
      s
  return (some nextTask, s.mtSwitchTask nextTask)

/-- The start of `mt_task_terminate`: the neighbours of the task are linked to each other. -/
def unlinkTask (s : Sched) (t : Nat) : Sched :=
  let s := s.setIfTask (s.task t).prev (fun b => { b with next := (s.task t).next })
  s.setIfTask (s.task t).next (fun a => { a with prev := (s.task t).prev })

/-- The middle of `mt_task_terminate`: the task becomes the first one of `terminated_tasks`.
-/
def pushTerminated (s : Sched) (t : Nat) : Sched :=
  match s.terminatedTasks with
  | none =>
      { s.setTask t (fun t => { t with next := none, prev := none }) with
        terminatedTasks := some t }
  | some first =>
      let s := s.setTask t (fun t => { t with next := some first })
      { s.setTask first (fun f => { f with prev := some t }) with terminatedTasks := some t }

/-- What `mt_task_terminate` does before it turns to the children. -/
def moveToTerminated (s : Sched) (t : Nat) : Sched :=
  (s.unlinkTask t).pushTerminated t

mutual

def mtTaskTerminate (fuel : Nat) (s : Sched) (t : Nat) : Option Sched :=
  match fuel with
  | 0 => none
  | fuel + 1 =>
      if (s.task t).pid = 0 then
        some s
      else
        let s := s.moveToTerminated t
        terminateChildren fuel s t s.tasks

/-- The loop of `mt_task_terminate` over the children of `t`, from task `i` on. -/
def terminateChildren (fuel : Nat) (s : Sched) (t : Nat) (i : Option Nat) : Option Sched :=
  match i, fuel with
  | none, _ => some s
  | some _, 0 => none
  | some i, fuel + 1 => do
      let s ← if (s.task i).ppid = (s.task t).pid then mtTaskTerminate fuel s i else some s
      terminateChildren fuel s t (s.task i).next

end

def mtTaskTerminatePid (fuel : Nat) (s : Sched) (pid : Nat) : Option Sched := do
  match ← s.mtGetTaskByPid fuel pid with
  | none => return s
  | some t => s.mtTaskTerminate fuel t

/-- The inner loop of `cleaner`. `task_destroy` frees the structure, which then may hold
anything: `junk` is what.
-/
def destroyTasks (junk : Nat → Task) : (fuel : Nat) → Sched → Option Nat → Option Sched
  | _, s, none => some s
  | 0, _, some _ => none
  | fuel + 1, s, some t =>
      let next := (s.task t).next
      destroyTasks junk fuel (s.setTask t (fun _ => junk t)) next

def cleanerPass (fuel : Nat) (junk : Nat → Task) (s : Sched) : Option Sched := do
  let s ← destroyTasks junk fuel s s.terminatedTasks
  return { s with terminatedTasks := none }

end Sched

end Hydrangea
