import Hydrangea.Lib.Transition
import Hydrangea.Multitasking.Termination

/-! Runs of the scheduler: spawns, ticks, terminations, changes of the foreground task and
cleaner passes, in any order.
-/

namespace Hydrangea.Sched

def OnTasks (s : Sched) (p : Nat) : Prop :=
  ∃ live, Linked.Chain s.next s.tasks live ∧ p ∈ live

/-- The task is on `terminated_tasks`. -/
def OnTerminated (s : Sched) (p : Nat) : Prop :=
  ∃ dead, Linked.Chain s.next s.terminatedTasks dead ∧ p ∈ dead

/-- What can happen next. A spawn names the block its `task_t` gets, and a cleaner pass what
the freed blocks hold afterwards.
-/
inductive Event where
  | spawnKtask (task ppid : Nat)
  | spawnUtask (found : Bool) (task ppid : Nat)
  | schedule
  | terminate (t : Nat)
  | setFgTask (pid : Nat)
  | setFgCurrent
  | clean (junk : Nat → Task)

/-- One event, if its calls return. A spawned task gets a block that no listed task has; a
task is terminated while it is listed or runs.
-/
def Step (s : Sched) : Event → Sched → Prop
  | .spawnKtask task ppid, s' =>
      ¬ s.OnTasks task ∧ ¬ s.OnTerminated task
        ∧ ∃ fuel, s.mtSpawnKtask fuel task ppid = some s'
  | .spawnUtask found task ppid, s' =>
      ¬ s.OnTasks task ∧ ¬ s.OnTerminated task
        ∧ ∃ fuel, s.mtSpawnUtask fuel found task ppid = some s'
  | .schedule, s' => ∃ fuel next, s.mtSchedule fuel = some (next, s')
  | .terminate t, s' =>
      (s.OnTasks t ∨ s.curTask = some t) ∧ ∃ fuel, s.mtTaskTerminate fuel t = some s'
  | .setFgTask pid, s' =>
      ∃ fuel t, s.mtGetTaskByPid fuel pid = some t ∧ s' = { s with fgTask := t }
  | .setFgCurrent, s' => s' = { s with fgTask := s.curTask }
  | .clean junk, s' => ∃ fuel, s.cleanerPass fuel junk = some s'

/-- Scheduling, from `mt_init` on. -/
def mtSystem : TransitionSystem Sched Event where
  init s := ∃ (s₀ : Sched) (fuel kernelIdle test cleaner : Nat), s₀.tasks = none ∧ s₀.terminatedTasks = none
    ∧ s₀.pidCounter = 0 ∧ [kernelIdle, test, cleaner].Nodup
    ∧ s₀.mtInit fuel kernelIdle test cleaner = some s
  step := Step

/-- Terminating `t` takes `p` along: it is `t` or on its line of first children. -/
def Takes (s : Sched) (t p : Nat) : Prop :=
  s.pid t ≠ 0 ∧ ∃ live dead line rest, s.View live dead
    ∧ Descent s.pid s.ppid (live.erase t) (t :: dead) t line rest ∧ p ∈ t :: line

/-- The state before an event keeps the scheduler on listed tasks: a tick finds the running
task listed or at the end of its list, a termination is of a listed task and spares the
foreground task, a task that puts itself in the foreground is listed, and a cleaner pass
spares the running task.
-/
def Orderly (s : Sched) : Event → Prop
  | .schedule => ∀ c ∈ s.curTask, s.OnTasks c ∨ s.next c = none
  | .terminate t => s.OnTasks t ∧ ∀ p ∈ s.fgTask, ¬ s.Takes t p
  | .setFgCurrent => ∀ c ∈ s.curTask, s.OnTasks c
  | .clean _ => ∀ c ∈ s.curTask, ¬ s.OnTerminated c
  | _ => True

/-- The foreground task is NULL or on `tasks`. -/
def FgListed (s : Sched) : Prop :=
  ∀ p ∈ s.fgTask, s.OnTasks p

/-- A tick switches to a task on `tasks` or not at all. -/
def SwitchesToListed (s : Sched) : Event → Prop
  | .schedule => ∀ fuel n s', s.mtSchedule fuel = some (some n, s') → s.OnTasks n
  | _ => True

-----------------------------------------------------------------------------------------
-- What each event does to the lists
-----------------------------------------------------------------------------------------

theorem View.onTasks {s : Sched} {live dead : List Nat} (h : s.View live dead) {p : Nat}
    : s.OnTasks p ↔ p ∈ live := by
  constructor
  · rintro ⟨live', chain, member⟩
    rwa [h.tasks.chain.unique chain]
  · exact fun member => ⟨live, h.tasks.chain, member⟩

theorem View.onTerminated {s : Sched} {live dead : List Nat} (h : s.View live dead) {p : Nat}
    : s.OnTerminated p ↔ p ∈ dead := by
  constructor
  · rintro ⟨dead', chain, member⟩
    rwa [h.terminatedTasks.chain.unique chain]
  · exact fun member => ⟨dead, h.terminatedTasks.chain, member⟩

/-- A view depends on the two list heads and on the listed tasks only. -/
theorem View.congr {s s' : Sched} {live dead : List Nat} (h : s.View live dead)
    (tasks : s'.tasks = s.tasks) (terminated : s'.terminatedTasks = s.terminatedTasks)
    (same : ∀ p, p ∈ live ∨ p ∈ dead → s'.next p = s.next p ∧ s'.prev p = s.prev p
      ∧ s'.pid p = s.pid p ∧ s'.ppid p = s.ppid p)
    : s'.View live dead := by
  refine ⟨?_, ?_, h.apart, ?_, ?_⟩
  · rw [tasks]
    exact h.tasks.congr (fun p member => (same p (Or.inl member)).1)
      (fun p member => (same p (Or.inl member)).2.1)
  · rw [terminated]
    exact h.terminatedTasks.congr (fun p member => (same p (Or.inr member)).1)
      (fun p member => (same p (Or.inr member)).2.1)
  · obtain ⟨p, first, pid, ppid⟩ := h.idle
    obtain ⟨-, -, pid', ppid'⟩ := same p (Or.inl (List.mem_of_mem_head? first))
    exact ⟨p, first, pid'.trans pid, ppid'.trans ppid⟩
  · intro p member
    have listed : p ∈ live ∨ p ∈ dead := member.imp_left List.mem_of_mem_tail
    rw [show (s'.task p).pid = (s.task p).pid from (same p listed).2.2.1]
    exact h.others p member

/-- The search of `gen_pid` ends at a pid that no task of `tasks` has, by induction on its
rounds.
-/
theorem unusedPid_eq_some {s : Sched} {walk fuel pid r : Nat}
    (found : s.unusedPid walk fuel pid = some r)
    : s.mtGetTaskByPid walk r = some none := by
  induction fuel generalizing pid with
  | zero => cases found
  | succ fuel ih =>
      rw [unusedPid] at found
      split at found
      · cases found
      · rename_i free
        obtain rfl := Option.some.inj found
        exact free
      · exact ih found

/-- `gen_pid` moves its counter behind the pid that it gives out. -/
theorem genPid_state {s s' : Sched} {fuel pid : Nat} (generated : s.genPid fuel = some (pid, s'))
    : s' = { s with pidCounter := pid + 1 } := by
  rw [Sched.genPid] at generated
  split at generated
  · obtain ⟨r, -, result⟩ := Option.bind_eq_some_iff.mp generated
    obtain ⟨rfl, rfl⟩ := Prod.mk.inj (Option.some.inj result)
    rfl
  · obtain ⟨r, -, result⟩ := Option.bind_eq_some_iff.mp generated
    obtain ⟨rfl, rfl⟩ := Prod.mk.inj (Option.some.inj result)
    rfl

/-- `gen_pid` never gives out pid 0 again: `kernel_idle` has it. -/
theorem View.genPid {s s' : Sched} {live dead : List Nat} (h : s.View live dead)
    (counter : 0 < s.pidCounter) {fuel pid : Nat} (generated : s.genPid fuel = some (pid, s'))
    : pid ≠ 0 ∧ s' = { s with pidCounter := pid + 1 } := by
  refine ⟨?_, genPid_state generated⟩
  rw [Sched.genPid] at generated
  split at generated
  · obtain ⟨r, chosen, result⟩ := Option.bind_eq_some_iff.mp generated
    obtain ⟨rfl, -⟩ := Prod.mk.inj (Option.some.inj result)
    rintro rfl
    have free := unusedPid_eq_some chosen
    obtain ⟨p, first, zero, -⟩ := h.idle
    have none := (Linked.find_eq_some h.tasks.chain free).2 rfl p (List.mem_of_mem_head? first)
    simp [zero] at none
  · obtain ⟨r, chosen, result⟩ := Option.bind_eq_some_iff.mp generated
    obtain rfl := Option.some.inj chosen
    obtain ⟨rfl, -⟩ := Prod.mk.inj (Option.some.inj result)
    exact Nat.ne_of_gt counter

/-- `mt_push_task` stores into the links of tasks only, and into the list head. -/
theorem mtPushTask_links {s s' : Sched} {fuel : Nat} {new : Option Nat}
    (pushed : s.mtPushTask fuel new = some s')
    : s' = { s with task := s'.task, tasks := s'.tasks }
        ∧ ∀ p, ∃ next prev, s'.task p = { s.task p with next, prev } := by
  rw [Sched.mtPushTask] at pushed
  split at pushed
  · obtain rfl := Option.some.inj pushed
    exact ⟨rfl, fun p => ⟨_, _, rfl⟩⟩
  · obtain ⟨last, -, result⟩ := Option.bind_eq_some_iff.mp pushed
    obtain rfl := Option.some.inj result
    constructor
    · cases new <;> rfl
    · intro p
      rw [setIfTask_task, setTask_task]
      rcases eq_or_ne p last with rfl | other
      · rw [if_pos rfl]
        split <;> exact ⟨_, _, rfl⟩
      · rw [if_neg other]
        split <;> exact ⟨_, _, rfl⟩

/-- Nobody's pid changes. -/
theorem mtPushTask_pids {s s' : Sched} {fuel : Nat} {new : Option Nat}
    (pushed : s.mtPushTask fuel new = some s') (p : Nat)
    : s'.pid p = s.pid p ∧ s'.ppid p = s.ppid p := by
  obtain ⟨_, _, same⟩ := (mtPushTask_links pushed).2 p
  rw [pid, ppid, same]
  exact ⟨rfl, rfl⟩

/-- `mt_push_task` appends a new task to `tasks`, and does nothing for NULL. With an empty list the
task becomes its head, and otherwise it is linked behind the last one.
-/
theorem View.mtPushTask {s s' : Sched} {live dead : List Nat} (h : s.View live dead)
    {fuel : Nat} {new : Option Nat}
    (fresh : ∀ p ∈ new, p ∉ live ∧ p ∉ dead ∧ s.next p = none ∧ s.pid p ≠ 0)
    (pushed : s.mtPushTask fuel new = some s')
    : s'.View (live ++ new.toList) dead ∧ s'.pidCounter = s.pidCounter
        ∧ s'.curTask = s.curTask ∧ s'.fgTask = s.fgTask := by
  have kept := mtPushTask_pids pushed
  obtain ⟨first, start, -⟩ := h.idle
  have tasks : s.tasks = some first := h.tasks.chain.head.trans start
  simp only [Sched.mtPushTask, tasks, Option.bind_eq_bind, Option.bind_eq_some_iff,
    Option.pure_def, Option.some.injEq] at pushed
  obtain ⟨last, found, rfl⟩ := pushed
  have chain : Linked.Chain s.next (some first) live := tasks ▸ h.tasks.chain
  obtain ⟨front, rfl⟩ := Linked.last_eq_some chain found
  have ended : s.next last = none := h.tasks.chain.next_eq
  cases new with
  | none =>
      refine ⟨?_, rfl, rfl, rfl⟩
      rw [Option.toList_none, List.append_nil]
      refine h.congr rfl rfl (fun p _ => ?_)
      rcases eq_or_ne p last with rfl | other
      · simp [setIfTask, next, prev, pid, ppid, ended]
      · simp [setIfTask, next, prev, pid, ppid, other]
  | some new =>
      obtain ⟨notLive, notDead, newNext, newPid⟩ := fresh new rfl
      have notLast : last ≠ new := by
        rintro rfl
        exact notLive (by simp)
      have unlisted {p : Nat} (member : p ∈ dead) : p ≠ last ∧ p ≠ new := by
        constructor
        · rintro rfl
          exact h.apart (by simp) member
        · rintro rfl
          exact notDead member
      refine ⟨⟨?_, ?_, ?_, ?_, ?_⟩, rfl, rfl, rfl⟩
      · rw [Option.toList_some, List.append_assoc]
        refine h.tasks.push_last ?_ ?_ ?_ ?_ ?_
        · simp [setIfTask, next, notLast]
        · simp [setIfTask, next, notLast.symm, newNext]
        · simp [setIfTask, prev]
        · intro p member
          have notNew : p ≠ new := by
            rintro rfl
            exact notLive (by simp [member])
          have other : p ≠ last := by
            rintro rfl
            exact (List.nodup_append.mp h.tasks.chain.nodup).2.2 p member p (by simp) rfl
          simp [setIfTask, next, notNew, other]
        · intro p member
          have notNew : p ≠ new := fun same => notLive (same ▸ member)
          rcases eq_or_ne p last with rfl | other
          · simp [setIfTask, prev, notLast]
          · simp [setIfTask, prev, notNew, other]
      · refine h.terminatedTasks.congr (fun p member => ?_) (fun p member => ?_)
        · simp [setIfTask, next, unlisted member]
        · simp [setIfTask, prev, unlisted member]
      · intro p member listed
        rcases List.mem_append.mp member with old | added
        · exact h.apart old listed
        · obtain rfl : p = new := by simpa using added
          exact notDead listed
      · obtain ⟨q, head, zero, parent⟩ := h.idle
        refine ⟨q, ?_, (kept q).1.trans zero, (kept q).2.trans parent⟩
        cases front <;> simpa using head
      · intro p member
        refine (kept p).1.trans_ne ?_
        rcases member with later | listed
        · have tail : p ∈ (front ++ [last]).tail ∨ p = new := by
            cases front with
            | nil => exact Or.inr (by simpa using later)
            | cons r front => simpa [or_assoc] using later
          rcases tail with old | rfl
          · exact h.others p (Or.inl old)
          · exact newPid
        · exact h.others p (Or.inr listed)

theorem ktaskCreate_cases {s s' : Sched} {fuel task ppid : Nat} {new : Option Nat}
    (created : s.ktaskCreate fuel task ppid = some (new, s'))
    : ∃ pid parentTask, s.genPid fuel = some (pid, { s with pidCounter := pid + 1 })
        ∧ s.mtGetTaskByPid fuel ppid = some parentTask
        ∧ ((pid ≠ 0 ∧ parentTask = none) ∧ new = none ∧ s' = { s with pidCounter := pid + 1 }
          ∨ ¬ (pid ≠ 0 ∧ parentTask = none) ∧ new = some task
            ∧ s' = setTask { s with pidCounter := pid + 1 } task (fun t =>
              { t with
                pid, ppid, state := .rdy, next := none
                timeSlice := defaultTimeSlice, timeRemaining := defaultTimeSlice })) := by
  obtain ⟨⟨pid, s₁⟩, generated, created⟩ := Option.bind_eq_some_iff.mp created
  obtain ⟨parentTask, searched, created⟩ := Option.bind_eq_some_iff.mp created
  obtain rfl := genPid_state generated
  refine ⟨pid, parentTask, generated, searched, ?_⟩
  dsimp only at created
  split at created
  · next missing =>
      obtain ⟨rfl, rfl⟩ := Prod.mk.inj (Option.some.inj created)
      exact .inl ⟨missing, rfl, rfl⟩
  · next known =>
      obtain ⟨rfl, rfl⟩ := Prod.mk.inj (Option.some.inj created)
      exact .inr ⟨known, rfl, rfl⟩

theorem ktaskCreate_tasks {s s' : Sched} {fuel task ppid : Nat} {new : Option Nat}
    (created : s.ktaskCreate fuel task ppid = some (new, s'))
    : s'.tasks = s.tasks ∧ ∀ p ∈ new, p = task := by
  obtain ⟨pid, parentTask, -, -, ⟨-, rfl, rfl⟩ | ⟨-, rfl, rfl⟩⟩ := ktaskCreate_cases created
  · exact ⟨rfl, fun _ none => (Option.not_mem_none _ none).elim⟩
  · exact ⟨rfl, fun p member => (Option.some.inj member).symm⟩

/-- `ktask_create` leaves the lists as they are; the task it makes, if any, is unlinked and
has a pid that is not 0.
-/
theorem View.ktaskCreate {s s' : Sched} {live dead : List Nat} (h : s.View live dead)
    (counter : 0 < s.pidCounter) {fuel task ppid : Nat} (notLive : task ∉ live)
    (notDead : task ∉ dead) {new : Option Nat}
    (created : s.ktaskCreate fuel task ppid = some (new, s'))
    : s'.View live dead ∧ 0 < s'.pidCounter ∧ s'.curTask = s.curTask ∧ s'.fgTask = s.fgTask
        ∧ ∀ p ∈ new, p = task ∧ s'.next p = none ∧ s'.pid p ≠ 0 := by
  obtain ⟨pid, parentTask, generated, -, made⟩ := ktaskCreate_cases created
  obtain ⟨nonzero, -⟩ := h.genPid counter generated
  have view : Sched.View { s with pidCounter := pid + 1 } live dead :=
    h.congr rfl rfl (fun p _ => ⟨rfl, rfl, rfl, rfl⟩)
  obtain ⟨-, rfl, rfl⟩ | ⟨-, rfl, rfl⟩ := made
  · exact ⟨view, Nat.succ_pos _, rfl, rfl, by simp⟩
  · refine ⟨view.congr rfl rfl (fun p member => ?_), Nat.succ_pos _, rfl, rfl, ?_⟩
    · have other : p ≠ task := by
        rintro rfl
        exact member.elim notLive notDead
      simp [next, prev, Sched.pid, Sched.ppid, other]
    · rintro p ⟨⟩
      exact ⟨rfl, by simp [next], by simpa [Sched.pid] using nonzero⟩

/-- A spawn appends at most one task to `tasks`. -/
theorem View.mtSpawnKtask {s s' : Sched} {live dead : List Nat} (h : s.View live dead)
    (counter : 0 < s.pidCounter) {fuel task ppid : Nat} (notLive : task ∉ live)
    (notDead : task ∉ dead) (spawned : s.mtSpawnKtask fuel task ppid = some s')
    : ∃ added, s'.View (live ++ added) dead ∧ (∀ p ∈ added, p = task) ∧ 0 < s'.pidCounter
        ∧ s'.curTask = s.curTask ∧ s'.fgTask = s.fgTask := by
  obtain ⟨⟨new, s₁⟩, created, pushed⟩ := Option.bind_eq_some_iff.mp spawned
  obtain ⟨view, counter', cur, fg, fresh⟩ := h.ktaskCreate counter notLive notDead created
  have unlisted : ∀ p ∈ new, p ∉ live ∧ p ∉ dead ∧ s₁.next p = none ∧ s₁.pid p ≠ 0 := by
    intro p member
    obtain ⟨rfl, unlinked, pid⟩ := fresh p member
    exact ⟨notLive, notDead, unlinked, pid⟩
  obtain ⟨view', same, cur', fg'⟩ := view.mtPushTask unlisted pushed
  refine ⟨_, view', fun p member => ?_, by rw [same]; exact counter', cur'.trans cur,
    fg'.trans fg⟩
  exact (fresh p (by simpa using member)).1

theorem View.mtSpawnUtask {s s' : Sched} {live dead : List Nat} (h : s.View live dead)
    (counter : 0 < s.pidCounter) {fuel task ppid : Nat} {exists' : Bool} (notLive : task ∉ live)
    (notDead : task ∉ dead) (spawned : s.mtSpawnUtask fuel exists' task ppid = some s')
    : ∃ added, s'.View (live ++ added) dead ∧ (∀ p ∈ added, p = task) ∧ 0 < s'.pidCounter
        ∧ s'.curTask = s.curTask ∧ s'.fgTask = s.fgTask := by
  rw [Sched.mtSpawnUtask] at spawned
  split at spawned
  · obtain rfl := Option.some.inj spawned
    exact ⟨[], by rwa [List.append_nil], by simp, counter, rfl, rfl⟩
  · obtain ⟨⟨new, s₁⟩, created, pushed⟩ := Option.bind_eq_some_iff.mp spawned
    cases new with
    | none =>
        obtain rfl := Option.some.inj pushed
        obtain ⟨view, counter', cur, fg, -⟩ := h.ktaskCreate counter notLive notDead created
        exact ⟨[], by rwa [List.append_nil], by simp, counter', cur, fg⟩
    | some p =>
        have spawned' : s.mtSpawnKtask fuel task ppid = some s' := by
          rw [Sched.mtSpawnKtask, created]
          exact pushed
        exact h.mtSpawnKtask counter notLive notDead spawned'

/-- `mt_pick_next_task` picks a listed task when the running one is listed or has no
successor.
-/
theorem View.mtPickNextTask {s : Sched} {live dead : List Nat} (h : s.View live dead)
    {fuel c n : Nat} (orderly : c ∈ live ∨ s.next c = none)
    (picked : s.mtPickNextTask fuel c = some (some n))
    : n ∈ live := by
  have first (same : s.tasks = some n) : n ∈ live :=
    List.mem_of_mem_head? (h.tasks.chain.head.symm.trans same)
  rw [Sched.mtPickNextTask] at picked
  cases following : (s.task c).next with
  | none =>
      rw [following] at picked
      exact first (Option.some.inj picked)
  | some q =>
      have listed : c ∈ live := by
        rcases orderly with listed | ended
        · exact listed
        · rw [show s.next c = some q from following] at ended
          cases ended
      have later : q ∈ live := h.tasks.chain.next_mem listed following
      rw [following] at picked
      simp only at picked
      split at picked
      · obtain rfl := Option.some.inj (Option.some.inj picked)
        exact later
      · obtain ⟨r, found, picked⟩ := Option.bind_eq_some_iff.mp picked
        cases r with
        | none => exact first (Option.some.inj picked)
        | some p =>
            obtain rfl := Option.some.inj (Option.some.inj picked)
            obtain ⟨rest, part, chain⟩ := h.tasks.chain.after later
            exact part ((Linked.find_eq_some chain found).1 p rfl).1

/-- Both states have the same lists of the same tasks. -/
structure SameLists (s s' : Sched) : Prop where
  task : ∀ p, s'.next p = s.next p ∧ s'.prev p = s.prev p ∧ s'.pid p = s.pid p
    ∧ s'.ppid p = s.ppid p
  tasks : s'.tasks = s.tasks
  terminatedTasks : s'.terminatedTasks = s.terminatedTasks
  curTask : s'.curTask = s.curTask
  fgTask : s'.fgTask = s.fgTask
  pidCounter : s'.pidCounter = s.pidCounter

theorem SameLists.trans {s s' s'' : Sched} (h : s.SameLists s') (h' : s'.SameLists s'')
    : s.SameLists s'' := by
  refine ⟨fun p => ?_, h'.tasks.trans h.tasks, h'.terminatedTasks.trans h.terminatedTasks,
    h'.curTask.trans h.curTask, h'.fgTask.trans h.fgTask, h'.pidCounter.trans h.pidCounter⟩
  obtain ⟨next, prev, pid, ppid⟩ := h.task p
  obtain ⟨next', prev', pid', ppid'⟩ := h'.task p
  exact ⟨next'.trans next, prev'.trans prev, pid'.trans pid, ppid'.trans ppid⟩

/-- A store into other fields than links and pids keeps the lists. -/
theorem SameLists.setTask (s : Sched) (p : Nat) {f : Task → Task}
    (kept : ∀ t, (f t).next = t.next ∧ (f t).prev = t.prev ∧ (f t).pid = t.pid
      ∧ (f t).ppid = t.ppid)
    : s.SameLists (s.setTask p f) := by
  refine ⟨fun q => ?_, rfl, rfl, rfl, rfl, rfl⟩
  rcases eq_or_ne q p with rfl | other
  · simp [next, prev, pid, ppid, kept]
  · simp [next, prev, pid, ppid, other]

/-- A view goes over to a state with the same lists. -/
theorem SameLists.view {s s' : Sched} (h : s.SameLists s') {live dead : List Nat}
    (view : s.View live dead)
    : s'.View live dead :=
  view.congr h.tasks h.terminatedTasks (fun p _ => h.task p)

/-- What a tick has done: it picks the next task where the running one has its time again, and then
whether that one is suspended or finished does not matter to the lists.
-/
theorem mtSchedule_cases {s s' : Sched} {fuel : Nat} {switched : Option Nat}
    (returned : s.mtSchedule fuel = some (switched, s'))
    : switched = none ∧ s.SameLists s'
      ∨ ∃ c n reset left, s.curTask = some c ∧ switched = some n ∧ s.SameLists reset
        ∧ reset.mtPickNextTask fuel c = some (some n) ∧ s.SameLists left
        ∧ s' = left.mtSwitchTask n := by
  have stays {t : Sched} (same : s.SameLists t) (result : some (none, t) = some (switched, s'))
      : switched = none ∧ s.SameLists s' := by
    obtain ⟨rfl, rfl⟩ := Prod.mk.inj (Option.some.inj result)
    exact ⟨rfl, same⟩
  rw [Sched.mtSchedule] at returned
  split at returned
  · exact .inl (stays ⟨fun _ => ⟨rfl, rfl, rfl, rfl⟩, rfl, rfl, rfl, rfl, rfl⟩ returned)
  · obtain ⟨c, running, returned⟩ := Option.bind_eq_some_iff.mp returned
    have ticked := SameLists.setTask s c (f := fun t =>
      { t with timeRemaining := (t.timeRemaining + (2 ^ 32 - 1)) % 2 ^ 32 }) (by simp)
    simp only at returned
    split at returned
    · exact .inl (stays ticked returned)
    · have reset := ticked.trans (SameLists.setTask _ c (f := fun t =>
        { t with timeRemaining := t.timeSlice }) (by simp))
      obtain ⟨r, picked, returned⟩ := Option.bind_eq_some_iff.mp returned
      obtain ⟨n, rfl, returned⟩ := Option.bind_eq_some_iff.mp returned
      have resumed := reset.trans (SameLists.setTask _ n (f := fun t =>
        { t with state := .run }) (by simp))
      obtain ⟨rfl, rfl⟩ := Prod.mk.inj (Option.some.inj returned)
      refine .inr ⟨c, n, _, _, running, rfl, reset, picked, ?_, rfl⟩
      split
      · exact resumed.trans (SameLists.setTask _ c (by simp))
      · exact resumed

/-- A tick changes no list; it switches to a listed task when the running one is listed or has
no successor.
-/
theorem View.mtSchedule {s s' : Sched} {live dead : List Nat} (h : s.View live dead)
    {fuel : Nat} {switched : Option Nat} (returned : s.mtSchedule fuel = some (switched, s'))
    : s'.View live dead ∧ s'.pidCounter = s.pidCounter ∧ s'.fgTask = s.fgTask
        ∧ (switched = none → s'.curTask = s.curTask)
        ∧ ∀ n ∈ switched, s'.curTask = some n
          ∧ ((∀ c ∈ s.curTask, c ∈ live ∨ s.next c = none) → n ∈ live) := by
  obtain ⟨rfl, same⟩ | ⟨c, n, reset, left, running, rfl, same, picked, same', rfl⟩ :=
    mtSchedule_cases returned
  · exact ⟨same.view h, same.pidCounter, same.fgTask, fun _ => same.curTask, by simp⟩
  · refine ⟨?_, same'.pidCounter, same'.fgTask, by simp, ?_⟩
    · exact (same'.view h).congr rfl rfl (fun p _ => ⟨rfl, rfl, rfl, rfl⟩)
    · rintro _ ⟨⟩
      refine ⟨rfl, fun orderly => ?_⟩
      refine (same.view h).mtPickNextTask ?_ picked
      rcases orderly c running with listed | ended
      · exact Or.inl listed
      · exact Or.inr ((same.task c).1.trans ended)

/-- The destroyed tasks hold anything afterwards; nothing else changes, by induction on them.
-/
theorem destroyTasks_eq_some {junk : Nat → Task} {s s' : Sched} {dead : List Nat}
    {p : Option Nat} {fuel : Nat} (chain : Linked.Chain s.next p dead)
    (destroyed : destroyTasks junk fuel s p = some s')
    : (∀ q, q ∉ dead → s'.task q = s.task q) ∧ s'.tasks = s.tasks
        ∧ s'.pidCounter = s.pidCounter ∧ s'.curTask = s.curTask ∧ s'.fgTask = s.fgTask := by
  induction dead generalizing s p fuel with
  | nil =>
      obtain rfl : p = none := chain
      rw [destroyTasks] at destroyed
      obtain rfl := Option.some.inj destroyed
      exact ⟨fun _ _ => rfl, rfl, rfl, rfl, rfl⟩
  | cons t dead ih =>
      have nodup := chain.nodup
      obtain ⟨rfl, rest⟩ := chain
      cases fuel with
      | zero => simp [destroyTasks] at destroyed
      | succ fuel =>
          rw [destroyTasks] at destroyed
          have distinct {q : Nat} (member : q ∈ dead) : q ≠ t := by
            rintro rfl
            exact (List.nodup_cons.mp nodup).1 member
          have rest' : Linked.Chain (s.setTask t (fun _ => junk t)).next (s.task t).next dead :=
            rest.congr (fun q member => by simp [next, distinct member])
          obtain ⟨others, tasks, counter, cur, fg⟩ := ih rest' destroyed
          refine ⟨fun q unlisted => ?_, tasks, counter, cur, fg⟩
          obtain ⟨notFirst, notRest⟩ := List.ne_and_not_mem_of_not_mem_cons unlisted
          rw [others q notRest, setTask_task, if_neg notFirst]

/-- A cleaner pass empties `terminated_tasks` and leaves the listed tasks alone. -/
theorem View.cleanerPass {s s' : Sched} {live dead : List Nat} (h : s.View live dead)
    {fuel : Nat} {junk : Nat → Task} (passed : s.cleanerPass fuel junk = some s')
    : s'.View live [] ∧ s'.pidCounter = s.pidCounter ∧ s'.curTask = s.curTask
        ∧ s'.fgTask = s.fgTask := by
  obtain ⟨t, destroyed, result⟩ := Option.bind_eq_some_iff.mp passed
  obtain rfl := Option.some.inj result
  obtain ⟨others, tasks, counter, cur, fg⟩ :=
    destroyTasks_eq_some h.terminatedTasks.chain destroyed
  have kept {p : Nat} (member : p ∈ live) : t.task p = s.task p :=
    others p (fun gone => h.apart member gone)
  refine ⟨⟨?_, .nil, by simp, ?_, ?_⟩, counter, cur, fg⟩
  · rw [show ({ t with terminatedTasks := none } : Sched).tasks = s.tasks from tasks]
    exact h.tasks.congr (fun p member => by simp [next, kept member])
      (fun p member => by simp [prev, kept member])
  · obtain ⟨p, first, idle⟩ := h.idle
    exact ⟨p, first, by simpa [kept (List.mem_of_mem_head? first)] using idle⟩
  · intro p member
    have later : p ∈ live.tail := by simpa using member
    simpa [kept (List.mem_of_mem_tail later)] using h.others p (Or.inl later)

/-- Terminating a listed task moves the tasks that it takes along. -/
theorem View.mtTaskTerminate {s s' : Sched} {live dead : List Nat} (h : s.View live dead)
    {fuel t : Nat} (listed : t ∈ live) (returned : s.mtTaskTerminate fuel t = some s')
    : ∃ moved rest, s'.View rest (moved ++ dead) ∧ live.Perm (moved ++ rest)
        ∧ (∀ p ∈ moved, s.Takes t p) ∧ s'.pidCounter = s.pidCounter
        ∧ s'.curTask = s.curTask ∧ s'.fgTask = s.fgTask := by
  rcases eq_or_ne (s.pid t) 0 with zero | pid
  · have unchanged : s' = s := by
      cases fuel with
      | zero => simp [Sched.mtTaskTerminate] at returned
      | succ fuel =>
          rw [Sched.mtTaskTerminate, if_pos zero] at returned
          exact (Option.some.inj returned).symm
    subst unchanged
    exact ⟨[], live, h, .refl _, by simp, rfl, rfl, rfl⟩
  · obtain ⟨front, w, back, rfl⟩ := h.split listed pid
    obtain ⟨line, rest, descent, view, same⟩ :=
      mtTaskTerminate_line (fun n _ => movesLine n) h.move_live pid returned
    refine ⟨line.reverse ++ [t], rest, by simpa using view, ?_, ?_, same.pidCounter,
      same.curTask, same.fgTask⟩
    · have out : (front ++ w :: t :: back).Perm (t :: (front ++ w :: back)) := by
        refine List.Perm.trans ?_ List.perm_middle
        exact List.Perm.append_left front (List.Perm.swap t w back)
      refine out.trans ((List.Perm.cons t descent.perm).trans ?_)
      refine List.Perm.trans ?_ (List.Perm.append_right rest
        ((List.reverse_perm line).symm.append_right [t]))
      rw [List.append_assoc]
      exact List.perm_middle.symm
    · intro p member
      refine ⟨pid, _, dead, line, rest, h, ?_, ?_⟩
      · rw [h.erase]
        exact descent
      · simpa [or_comm] using member

-----------------------------------------------------------------------------------------
-- Whole runs
-----------------------------------------------------------------------------------------

/-- The first spawn makes `kernel_idle`, with pid 0 and itself as its parent. -/
theorem mtSpawnKtask_first {s₀ s : Sched} {fuel kernelIdle : Nat} (tasks : s₀.tasks = none)
    (terminated : s₀.terminatedTasks = none) (counter : s₀.pidCounter = 0)
    (spawned : s₀.mtSpawnKtask fuel kernelIdle 0 = some s)
    : s.View [kernelIdle] [] ∧ s.pidCounter = 1 := by
  have generated : s₀.genPid fuel = some (0, { s₀ with pidCounter := 1 }) := by
    have small : ¬ maxPid < s₀.pidCounter := by
      rw [counter]
      exact Nat.not_lt_zero _
    rw [genPid, if_neg small, counter]
    rfl
  have created : s₀.ktaskCreate fuel kernelIdle 0
      = some (some kernelIdle, ({ s₀ with pidCounter := 1 } : Sched).setTask kernelIdle (fun t =>
          { t with
            pid := 0, ppid := 0, state := .rdy, next := none
            timeSlice := defaultTimeSlice, timeRemaining := defaultTimeSlice })) := by
    simp [ktaskCreate, generated, mtGetTaskByPid, tasks, Linked.find]
  rw [mtSpawnKtask, created] at spawned
  simp only [Option.bind_eq_bind, Option.bind_some, mtPushTask, setTask_tasks, tasks] at spawned
  obtain rfl := Option.some.inj spawned
  refine ⟨⟨?_, ⟨terminated, .nil⟩, by simp, ⟨kernelIdle, rfl, ?_, ?_⟩, by simp⟩, rfl⟩
  · exact Linked.Doubly.singleton (by simp [next])
  · simp
  · simp

/-- `mt_init` makes the lists of its tasks, runs the first one and has no foreground task. -/
theorem mtInit_view {s₀ s : Sched} {fuel kernelIdle test cleaner : Nat}
    (tasks : s₀.tasks = none) (terminated : s₀.terminatedTasks = none)
    (counter : s₀.pidCounter = 0) (nodup : [kernelIdle, test, cleaner].Nodup)
    (init : s₀.mtInit fuel kernelIdle test cleaner = some s)
    : ∃ live, s.View live [] ∧ 0 < s.pidCounter ∧ s.fgTask = none
        ∧ ∃ c ∈ live, s.curTask = some c := by
  obtain ⟨s₁, first, init⟩ := Option.bind_eq_some_iff.mp init
  obtain ⟨s₂, second, init⟩ := Option.bind_eq_some_iff.mp init
  obtain ⟨s₃, third, result⟩ := Option.bind_eq_some_iff.mp init
  obtain rfl := Option.some.inj result
  simp only [List.nodup_cons, List.mem_cons, List.not_mem_nil, or_false, not_or] at nodup
  obtain ⟨⟨testNew, cleanerNew⟩, distinct, -⟩ := nodup
  obtain ⟨view₁, counter₁⟩ := mtSpawnKtask_first tasks terminated counter first
  obtain ⟨more, view₂, isTest, counter₂, -, -⟩ :=
    view₁.mtSpawnKtask (Nat.lt_of_sub_eq_succ counter₁) (by simpa using Ne.symm testNew) (by simp) second
  have notListed : cleaner ∉ [kernelIdle] ++ more := by
    intro member
    rcases List.mem_append.mp member with idle | added
    · exact cleanerNew (List.mem_singleton.mp idle).symm
    · exact distinct (isTest cleaner added).symm
  obtain ⟨last, view₃, -, counter₃, -, -⟩ :=
    view₂.mtSpawnKtask counter₂ notListed (by simp) third
  refine ⟨_, view₃.congr rfl rfl (fun p _ => ⟨rfl, rfl, rfl, rfl⟩), counter₃, rfl,
    kernelIdle, by simp, ?_⟩
  rw [view₃.tasks.chain.head]
  simp

/-- What every state of a run satisfies that terminates listed tasks only: the lists are well
formed and pid 0 is not given out again.
-/
structure Listed (s : Sched) : Prop where
  lists : ∃ live dead, s.View live dead
  counter : 0 < s.pidCounter

/-- What one event does to the lists and to the two task pointers. -/
structure Evolves (s s' : Sched) (event : Event) (live dead live' dead' : List Nat)
    : Prop where
  view : s'.View live' dead'
  counter : 0 < s'.pidCounter
  moves : ∀ p ∈ live, p ∈ live' ∨ p ∈ dead' ∧ ∃ t, event = .terminate t ∧ s.Takes t p
  destroys : ∀ p ∈ dead, p ∈ dead' ∨ ∃ junk, event = .clean junk
  fg : s'.fgTask = s.fgTask ∨ (∀ p ∈ s'.fgTask, p ∈ live')
    ∨ event = .setFgCurrent ∧ s'.fgTask = s.curTask
  cur : s'.curTask = s.curTask ∨ event = .schedule
    ∧ ∃ n, s'.curTask = some n ∧ ((∀ c ∈ s.curTask, c ∈ live ∨ s.next c = none) → n ∈ live)

/-- Every event that terminates at most a listed task evolves the lists, by cases on it. -/
theorem View.evolves {s s' : Sched} {event : Event} {live dead : List Nat}
    (view : s.View live dead) (counter : 0 < s.pidCounter)
    (listed : ∀ t, event = .terminate t → t ∈ live) (taken : s.Step event s')
    : ∃ live' dead', Evolves s s' event live dead live' dead' := by
  cases event with
  | spawnKtask task ppid =>
      obtain ⟨notLive, notDead, fuel, spawned⟩ := taken
      rw [view.onTasks] at notLive
      rw [view.onTerminated] at notDead
      obtain ⟨added, view', -, counter', cur, fg⟩ :=
        view.mtSpawnKtask counter notLive notDead spawned
      exact ⟨_, _, view', counter', fun p member => Or.inl (List.mem_append_left _ member),
        fun p member => Or.inl member, Or.inl fg, Or.inl cur⟩
  | spawnUtask found task ppid =>
      obtain ⟨notLive, notDead, fuel, spawned⟩ := taken
      rw [view.onTasks] at notLive
      rw [view.onTerminated] at notDead
      obtain ⟨added, view', -, counter', cur, fg⟩ :=
        view.mtSpawnUtask counter notLive notDead spawned
      exact ⟨_, _, view', counter', fun p member => Or.inl (List.mem_append_left _ member),
        fun p member => Or.inl member, Or.inl fg, Or.inl cur⟩
  | schedule =>
      obtain ⟨fuel, switched, returned⟩ := taken
      obtain ⟨view', counter', fg, stays, switches⟩ := view.mtSchedule returned
      refine ⟨_, _, view', counter' ▸ counter, fun p member => Or.inl member,
        fun p member => Or.inl member, Or.inl fg, ?_⟩
      cases switched with
      | none => exact Or.inl (stays rfl)
      | some n => exact Or.inr ⟨rfl, n, switches n rfl⟩
  | terminate t =>
      obtain ⟨-, fuel, returned⟩ := taken
      obtain ⟨moved, rest, view', perm, takes, counter', cur, fg⟩ :=
        view.mtTaskTerminate (listed t rfl) returned
      refine ⟨_, _, view', counter' ▸ counter, fun p member => ?_,
        fun p member => Or.inl (List.mem_append_right _ member), Or.inl fg, Or.inl cur⟩
      rcases List.mem_append.mp (perm.mem_iff.mp member) with gone | stays
      · exact Or.inr ⟨List.mem_append_left _ gone, t, rfl, takes p gone⟩
      · exact Or.inl stays
  | setFgTask pid =>
      obtain ⟨fuel, t, found, rfl⟩ := taken
      refine ⟨_, _, view.congr rfl rfl (fun p _ => ⟨rfl, rfl, rfl, rfl⟩), counter,
        fun p member => Or.inl member, fun p member => Or.inl member, Or.inr (Or.inl ?_),
        Or.inl rfl⟩
      intro p member
      exact ((Linked.find_eq_some view.tasks.chain found).1 p member).1
  | setFgCurrent =>
      obtain rfl := taken
      exact ⟨_, _, view.congr rfl rfl (fun p _ => ⟨rfl, rfl, rfl, rfl⟩), counter,
        fun p member => Or.inl member, fun p member => Or.inl member,
        Or.inr (Or.inr ⟨rfl, rfl⟩), Or.inl rfl⟩
  | clean junk =>
      obtain ⟨fuel, passed⟩ := taken
      obtain ⟨view', counter', cur, fg⟩ := view.cleanerPass passed
      exact ⟨_, _, view', counter' ▸ counter, fun p member => Or.inl member,
        fun p member => Or.inr ⟨junk, rfl⟩, Or.inl fg, Or.inl cur⟩

/-- In every run that terminates listed tasks only, the lists stay well formed, by induction
on the run.
-/
theorem Listed.reachable {s : Sched}
    (reached : (mtSystem.restrict (fun s event =>
      ∀ t, event = .terminate t → s.OnTasks t)).Reachable s)
    : s.Listed := by
  refine reached.invariant ?_ ?_
  · rintro s ⟨s₀, fuel, kernelIdle, test, cleaner, tasks, terminated, counter, nodup, init⟩
    obtain ⟨live, view, counter', -⟩ := mtInit_view tasks terminated counter nodup init
    exact ⟨⟨_, _, view⟩, counter'⟩
  · rintro s event s' ⟨⟨live, dead, view⟩, counter⟩ ⟨only, taken⟩
    obtain ⟨live', dead', evolves⟩ :=
      view.evolves counter (fun t same => view.onTasks.mp (only t same)) taken
    exact ⟨⟨_, _, evolves.view⟩, evolves.counter⟩

/-- What every state of an orderly run satisfies beyond its lists: the foreground task is
listed and the running task is not destroyed.
-/
structure Settled (s : Sched) : Prop where
  lists : ∃ live dead, s.View live dead ∧ (∀ p ∈ s.fgTask, p ∈ live)
    ∧ ∃ c, s.curTask = some c ∧ (c ∈ live ∨ c ∈ dead)
  counter : 0 < s.pidCounter

/-- An orderly event keeps a settled state: a termination spares the foreground task, and a
cleaner pass the running one.
-/
theorem Settled.step {s s' : Sched} {event : Event} (h : s.Settled) (orderly : s.Orderly event)
    (taken : s.Step event s')
    : s'.Settled := by
  obtain ⟨⟨live, dead, view, fg, c, cur, running⟩, counter⟩ := h
  have only : ∀ t, event = .terminate t → t ∈ live := by
    rintro t rfl
    exact view.onTasks.mp orderly.1
  obtain ⟨live', dead', evolves⟩ := view.evolves counter only taken
  refine ⟨⟨live', dead', evolves.view, fun p member => ?_, ?_⟩, evolves.counter⟩
  · rcases evolves.fg with same | listed | ⟨rfl, current⟩
    · rw [same] at member
      rcases evolves.moves p (fg p member) with stays | ⟨-, t, rfl, takes⟩
      · exact stays
      · exact absurd takes (orderly.2 p member)
    · exact listed p member
    · rw [current] at member
      rcases evolves.moves p (view.onTasks.mp (orderly p member)) with stays | ⟨-, t, impossible, -⟩
      · exact stays
      · cases impossible
  · rcases evolves.cur with same | ⟨rfl, n, next, picked⟩
    · refine ⟨c, same.trans cur, ?_⟩
      rcases running with alive | gone
      · exact (evolves.moves c alive).imp_right And.left
      · rcases evolves.destroys c gone with stays | ⟨junk, rfl⟩
        · exact Or.inr stays
        · exact absurd (view.onTerminated.mpr gone) (orderly c cur)
    · have alive : n ∈ live := picked (fun c member =>
        (orderly c member).imp_left view.onTasks.mp)
      exact ⟨n, next, (evolves.moves n alive).imp_right And.left⟩

/-- Every state of an orderly run is settled, by induction on the run. -/
theorem Settled.reachable {s : Sched} (reached : (mtSystem.restrict Orderly).Reachable s)
    : s.Settled := by
  refine reached.invariant ?_ ?_
  · rintro s ⟨s₀, fuel, kernelIdle, test, cleaner, tasks, terminated, counter, nodup, init⟩
    obtain ⟨live, view, counter', fg, c, member, cur⟩ :=
      mtInit_view tasks terminated counter nodup init
    exact ⟨⟨live, [], view, by simp [fg], c, cur, Or.inl member⟩, counter'⟩
  · exact fun s event s' settled ⟨orderly, taken⟩ => settled.step orderly taken

/-- The foreground task of a settled state is on `tasks`. -/
theorem Settled.fgListed {s : Sched} (h : s.Settled) : s.FgListed := by
  obtain ⟨⟨live, dead, view, fg, -⟩, -⟩ := h
  exact fun p member => view.onTasks.mpr (fg p member)

/-- An orderly tick of a settled state switches to listed tasks. -/
theorem Settled.switches {s : Sched} {event : Event} (h : s.Settled)
    (orderly : s.Orderly event)
    : s.SwitchesToListed event := by
  obtain ⟨⟨live, dead, view, -⟩, -⟩ := h
  cases event with
  | schedule =>
      intro fuel n s' returned
      obtain ⟨-, -, -, -, switches⟩ := view.mtSchedule returned
      refine view.onTasks.mpr ((switches n rfl).2 (fun c member => ?_))
      exact (orderly c member).imp_left view.onTasks.mp
  | _ => trivial

/-- In every run whose events are orderly, the foreground task is always NULL or on `tasks`, and
ticks switch to tasks on `tasks` only. The invariant `Settled` has the foreground task on the list
and the running one not destroyed, and each orderly event keeps both.
-/
theorem run_orderly {s : Sched} {steps : List (Sched × Event)} (run : mtSystem.Run s steps)
    (orderly : ∀ taken ∈ steps, taken.1.Orderly taken.2)
    : s.FgListed ∧ ∀ taken ∈ steps, taken.1.FgListed ∧ taken.1.SwitchesToListed taken.2 := by
  refine ⟨(Settled.reachable (run.restrict orderly)).fgListed, fun taken member => ?_⟩
  obtain ⟨earlier, before, part⟩ := run.before member
  have settled := Settled.reachable
    (before.restrict (fun step old => orderly step (part old)))
  exact ⟨settled.fgListed, settled.switches (orderly taken member)⟩

/-- The task "test" comes to the foreground and the first tick switches to it. -/
theorem run_orderly_tick
    : ∃ s steps, mtSystem.Run s steps ∧ steps.length = 2 ∧ s.fgTask = some 0x2000
        ∧ s.curTask = some 0x2000
        ∧ s.FgListed ∧ ∀ taken ∈ steps, taken.1.FgListed ∧ taken.1.SwitchesToListed taken.2 := by
  have returns : (boot.mtInit 8 0x1000 0x2000 0x3000).isSome = true := by decide +kernel
  obtain ⟨s₁, init⟩ := Option.isSome_iff_exists.mp returns
  have start : mtSystem.init s₁ :=
    ⟨boot, 8, 0x1000, 0x2000, 0x3000, rfl, rfl, rfl, by decide, init⟩
  have lists : ∀ s ∈ boot.mtInit 8 0x1000 0x2000 0x3000,
      Linked.Chain s.next s.tasks [0x1000, 0x2000, 0x3000] ∧ s.curTask = some 0x1000
        ∧ s.mtGetTaskByPid 8 1 = some (some 0x2000)
        ∧ (({ s with fgTask := some 0x2000 } : Sched).mtSchedule 8).map
            (fun r => (r.2.fgTask, r.2.curTask)) = some (some 0x2000, some 0x2000) := by
    decide +kernel
  obtain ⟨chain, cur, found, tick⟩ := lists s₁ init
  obtain ⟨⟨next, s₃⟩, ticked, result⟩ := Option.map_eq_some_iff.mp tick
  obtain ⟨fg, cur'⟩ := Prod.mk.inj result
  have run : mtSystem.Run s₃
      [({ s₁ with fgTask := some 0x2000 }, .schedule), (s₁, .setFgTask 1)] :=
    .next (.next (.start start) ⟨8, some 0x2000, found, rfl⟩) ⟨8, next, ticked⟩
  refine ⟨s₃, _, run, rfl, fg, cur', run_orderly run ?_⟩
  intro taken member
  rcases List.mem_cons.mp member with rfl | member
  · intro c running
    refine Or.inl ⟨[0x1000, 0x2000, 0x3000], chain, ?_⟩
    obtain rfl : (0x1000 : Nat) = c := Option.some.inj (cur.symm.trans running)
    decide
  · obtain rfl := List.mem_singleton.mp member
    trivial

-----------------------------------------------------------------------------------------
-- Runs that go wrong
-----------------------------------------------------------------------------------------

/-- One event with calls that return in a few rounds, among tasks that are found in as few. -/
def perform (s : Sched) : Event → Option Sched
  | .spawnKtask task ppid =>
      if Linked.find s.next (· = task) 16 s.tasks = some none
          ∧ Linked.find s.next (· = task) 16 s.terminatedTasks = some none then
        s.mtSpawnKtask 16 task ppid
      else
        none
  | .schedule => (s.mtSchedule 16).map Prod.snd
  | .terminate t =>
      if Linked.find s.next (· = t) 16 s.tasks = some (some t) then s.mtTaskTerminate 16 t
      else none
  | .setFgTask pid => (s.mtGetTaskByPid 16 pid).map (fun t => { s with fgTask := t })
  | _ => none

/-- Performing an event on well-formed lists is a step. -/
theorem Listed.perform {s s' : Sched} {event : Event} (h : s.Listed)
    (performed : s.perform event = some s')
    : mtSystem.step s event s' ∧ s'.Listed := by
  obtain ⟨⟨live, dead, view⟩, counter⟩ := h
  have taken : s.Step event s' ∧ ∀ t, event = .terminate t → t ∈ live := by
    cases event with
    | spawnKtask task ppid =>
        obtain ⟨⟨free, clean⟩, spawned⟩ := Option.ite_none_right_eq_some.mp performed
        refine ⟨⟨fun listed => ?_, fun listed => ?_, 16, spawned⟩, nofun⟩
        · have none := (Linked.find_eq_some view.tasks.chain free).2 rfl task
            (view.onTasks.mp listed)
          simp at none
        · have none := (Linked.find_eq_some view.terminatedTasks.chain clean).2 rfl task
            (view.onTerminated.mp listed)
          simp at none
    | schedule =>
        obtain ⟨r, returned, rfl⟩ := Option.map_eq_some_iff.mp performed
        exact ⟨⟨16, r.1, returned⟩, nofun⟩
    | terminate t =>
        obtain ⟨found, returned⟩ := Option.ite_none_right_eq_some.mp performed
        have member : t ∈ live := ((Linked.find_eq_some view.tasks.chain found).1 t rfl).1
        refine ⟨⟨Or.inl (view.onTasks.mpr member), 16, returned⟩, ?_⟩
        rintro _ ⟨⟩
        exact member
    | setFgTask pid =>
        obtain ⟨t, found, rfl⟩ := Option.map_eq_some_iff.mp performed
        exact ⟨⟨16, t, found, rfl⟩, nofun⟩
    | _ => cases performed
  obtain ⟨live', dead', evolves⟩ := view.evolves counter taken.2 taken.1
  exact ⟨taken.1, ⟨_, _, evolves.view⟩, evolves.counter⟩

/-- `mt_init` and then the given events, latest first. -/
def scene (events : List Event) : Option (Sched × List (Sched × Event)) :=
  (boot.mtInit 16 0x1000 0x2000 0x3000).bind (fun s => TransitionSystem.play perform s events)

/-- A scene is a run and leaves well-formed lists. -/
theorem scene_run {events : List Event} {r : Sched × List (Sched × Event)}
    (played : scene events = some r)
    : mtSystem.Run r.1 r.2 ∧ r.1.Listed := by
  obtain ⟨s, init, played⟩ := Option.bind_eq_some_iff.mp played
  obtain ⟨live, view, counter, -⟩ := mtInit_view rfl rfl rfl (by decide) init
  have start : mtSystem.init s :=
    ⟨boot, 16, 0x1000, 0x2000, 0x3000, rfl, rfl, rfl, by decide, init⟩
  exact TransitionSystem.Run.of_play (fun _ _ _ => Listed.perform) start ⟨⟨_, _, view⟩, counter⟩
    played

theorem Listed.not_onTasks {s : Sched} (h : s.Listed) {p : Nat}
    (missed : Linked.find s.next (· = p) 16 s.tasks = some none)
    : ¬ s.OnTasks p := by
  obtain ⟨⟨live, dead, view⟩, -⟩ := h
  intro listed
  have none := (Linked.find_eq_some view.tasks.chain missed).2 rfl p (view.onTasks.mp listed)
  simp at none

/-- A running task is terminated after another one, and the next tick switches to that other
one. A task is terminated while it has the foreground, and keeps it.
-/
theorem run_not_orderly
    : (¬ ∀ s steps, mtSystem.Run s steps → ∀ taken ∈ steps, taken.1.SwitchesToListed taken.2)
      ∧ ¬ ∀ s steps, mtSystem.Run s steps → s.FgListed := by
  constructor
  · intro sound
    have returns : (scene [.terminate 0x4000, .terminate 0x5000, .schedule, .schedule, .schedule,
        .spawnKtask 0x5000 0, .spawnKtask 0x4000 0]).isSome = true := by
      decide +kernel
    obtain ⟨⟨s, steps⟩, played⟩ := Option.isSome_iff_exists.mp returns
    have facts : ∀ r ∈ scene [.terminate 0x4000, .terminate 0x5000, .schedule, .schedule,
        .schedule, .spawnKtask 0x5000 0, .spawnKtask 0x4000 0],
        (r.1.mtSchedule 16).map Prod.fst = some (some 0x5000)
          ∧ Linked.find r.1.next (· = 0x5000) 16 r.1.tasks = some none := by
      decide +kernel
    obtain ⟨ticks, missed⟩ := facts _ played
    obtain ⟨⟨n, s'⟩, ticked, switched⟩ := Option.map_eq_some_iff.mp ticks
    obtain rfl : n = some 0x5000 := switched
    obtain ⟨run, listed⟩ := scene_run played
    have ticking : mtSystem.Run s' ((s, .schedule) :: steps) := .next run ⟨16, _, ticked⟩
    have safe := sound s' _ ticking (s, .schedule) (List.mem_cons_self ..)
    exact listed.not_onTasks missed (safe 16 0x5000 s' ticked)
  · intro sound
    have returns : (scene [.terminate 0x4000, .setFgTask 3,
        .spawnKtask 0x4000 0]).isSome = true := by
      decide +kernel
    obtain ⟨⟨s, steps⟩, played⟩ := Option.isSome_iff_exists.mp returns
    have facts : ∀ r ∈ scene [.terminate 0x4000, .setFgTask 3, .spawnKtask 0x4000 0],
        r.1.fgTask = some 0x4000
          ∧ Linked.find r.1.next (· = 0x4000) 16 r.1.tasks = some none := by
      decide +kernel
    obtain ⟨fg, missed⟩ := facts _ played
    obtain ⟨run, listed⟩ := scene_run played
    exact listed.not_onTasks missed (sound s steps run 0x4000 fg)

end Hydrangea.Sched
