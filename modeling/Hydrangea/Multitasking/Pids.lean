import Hydrangea.Multitasking.Scheduling

/-! When the pids that `gen_pid` gives out are the only ones of their kind on `tasks`. -/

namespace Hydrangea.Sched

/-- No two tasks on `tasks` have the same pid. -/
def DistinctPids (s : Sched) : Prop :=
  ∀ p q, s.OnTasks p → s.OnTasks q → s.pid p = s.pid q → p = q

/-- A task on `tasks` has the pid. -/
def InUse (s : Sched) (pid : Nat) : Prop :=
  ∃ p, s.OnTasks p ∧ s.pid p = pid

/-- If the event creates a task, the counter of `gen_pid` is about to start again, which is
when it looks for a free pid, or its value is free. A task is created if its parent exists.
-/
def GetsFreePid (s : Sched) : Event → Prop
  | .spawnKtask _ ppid => s.InUse ppid → maxPid < s.pidCounter ∨ ¬ s.InUse s.pidCounter
  | .spawnUtask found _ ppid =>
      found = true → s.InUse ppid → maxPid < s.pidCounter ∨ ¬ s.InUse s.pidCounter
  | _ => True

-----------------------------------------------------------------------------------------
-- What a spawn does to the pids
-----------------------------------------------------------------------------------------

/-- Pids in use, by the list of live tasks. -/
theorem View.inUse {s : Sched} {live dead : List Nat} (h : s.View live dead) {pid : Nat}
    : s.InUse pid ↔ ∃ p ∈ live, s.pid p = pid := by
  simp only [InUse, h.onTasks]

/-- A search of `tasks` for a pid that returns NULL has found no task with it. -/
theorem View.mtGetTaskByPid_none {s : Sched} {live dead : List Nat} (h : s.View live dead)
    {fuel pid : Nat}
    : s.mtGetTaskByPid fuel pid = some none → ¬ s.InUse pid := by
  intro missed inUse
  obtain ⟨p, member, same⟩ := h.inUse.mp inUse
  have other := (Linked.find_eq_some h.tasks.chain missed).2 rfl p member
  exact absurd same (of_decide_eq_false other)

/-- A search of `tasks` for a pid that returns a task has found one with it. -/
theorem View.mtGetTaskByPid_some {s : Sched} {live dead : List Nat} (h : s.View live dead)
    {fuel pid p : Nat}
    : s.mtGetTaskByPid fuel pid = some (some p) → s.InUse pid := by
  intro found
  obtain ⟨member, same⟩ := (Linked.find_eq_some h.tasks.chain found).1 p rfl
  exact h.inUse.mpr ⟨p, member, of_decide_eq_true same⟩

/-- The pid that `gen_pid` gives out: the counter, unchecked, or one that is free. -/
def Given (s : Sched) (pid : Nat) : Prop :=
  s.pidCounter ≤ maxPid ∧ pid = s.pidCounter ∨ maxPid < s.pidCounter ∧ ¬ s.InUse pid

/-- `gen_pid` moves its counter and does nothing else. -/
theorem View.genPid_given {s s' : Sched} {live dead : List Nat} (h : s.View live dead)
    {fuel pid : Nat} (generated : s.genPid fuel = some (pid, s'))
    : s.Given pid ∧ s' = { s with pidCounter := pid + 1 } := by
  rw [Sched.genPid] at generated
  split at generated
  · next wraps =>
      obtain ⟨r, chosen, result⟩ := Option.bind_eq_some_iff.mp generated
      obtain ⟨rfl, rfl⟩ := Prod.mk.inj (Option.some.inj result)
      exact ⟨.inr ⟨wraps, h.mtGetTaskByPid_none (unusedPid_eq_some chosen)⟩, rfl⟩
  · next below =>
      obtain ⟨r, chosen, result⟩ := Option.bind_eq_some_iff.mp generated
      obtain rfl := Option.some.inj chosen
      obtain ⟨rfl, rfl⟩ := Prod.mk.inj (Option.some.inj result)
      exact ⟨.inl ⟨Nat.le_of_not_lt below, rfl⟩, rfl⟩

/-- A spawn that creates a task appends it with the pid given out. -/
structure Created (s s' : Sched) (live dead : List Nat) (task pid : Nat) : Prop where
  view : s'.View (live ++ [task]) dead
  given : s.Given pid
  pids : ∀ p, s'.pid p = if p = task then pid else s.pid p
  ppids : ∀ p, p ≠ task → s'.ppid p = s.ppid p
  counter : s'.pidCounter = pid + 1

/-- A spawn creates a task if its parent exists, and otherwise leaves the lists as they are. -/
theorem View.mtSpawnKtask_created {s s' : Sched} {live dead : List Nat} (h : s.View live dead)
    (counter : 0 < s.pidCounter) {fuel task ppid : Nat} (notLive : task ∉ live)
    (notDead : task ∉ dead) (spawned : s.mtSpawnKtask fuel task ppid = some s')
    : (¬ s.InUse ppid ∧ s'.View live dead ∧ ∀ p, s'.pid p = s.pid p)
      ∨ s.InUse ppid ∧ ∃ pid s₁, s.genPid fuel = some (pid, s₁)
        ∧ Created s s' live dead task pid := by
  obtain ⟨⟨new, s₁⟩, created, pushed⟩ := Option.bind_eq_some_iff.mp spawned
  obtain ⟨view, -, -, -, fresh⟩ := h.ktaskCreate counter notLive notDead created
  have unlisted : ∀ p ∈ new, p ∉ live ∧ p ∉ dead ∧ s₁.next p = none ∧ s₁.pid p ≠ 0 := by
    intro p member
    obtain ⟨rfl, unlinked, pid⟩ := fresh p member
    exact ⟨notLive, notDead, unlinked, pid⟩
  obtain ⟨view', counter', -⟩ := view.mtPushTask unlisted pushed
  have pushedPid (p : Nat) := (mtPushTask_pids pushed p).1
  simp only [Sched.ktaskCreate, Option.bind_eq_bind, Option.bind_eq_some_iff, Option.pure_def]
    at created
  obtain ⟨⟨pid, s₂⟩, generated, parent, searched, created⟩ := created
  obtain ⟨given, rfl⟩ := h.genPid_given generated
  obtain ⟨nonzero, -⟩ := h.genPid counter generated
  split at created
  · next orphan =>
      obtain ⟨rfl, rfl⟩ := Prod.mk.inj (Option.some.inj created)
      rw [orphan.2] at searched
      refine .inl ⟨h.mtGetTaskByPid_none searched, ?_, pushedPid⟩
      rwa [Option.toList_none, List.append_nil] at view'
  · next parented =>
      obtain ⟨rfl, rfl⟩ := Prod.mk.inj (Option.some.inj created)
      obtain ⟨p, rfl⟩ : ∃ p, parent = some p := by
        rw [not_and] at parented
        exact Option.ne_none_iff_exists'.mp (parented nonzero)
      refine .inr ⟨h.mtGetTaskByPid_some searched, pid, _, generated, view', given,
        fun q => ?_, fun q other => ?_, counter'⟩
      · rw [pushedPid q]
        rcases eq_or_ne q task with rfl | other
        · simp [Sched.pid]
        · simp [Sched.pid, other]
      · rw [(mtPushTask_pids pushed q).2]
        simp [Sched.ppid, other]

theorem View.mtSpawnUtask_created {s s' : Sched} {live dead : List Nat} (h : s.View live dead)
    (counter : 0 < s.pidCounter) {fuel task ppid : Nat} {found : Bool} (notLive : task ∉ live)
    (notDead : task ∉ dead) (spawned : s.mtSpawnUtask fuel found task ppid = some s')
    : ((found = true → ¬ s.InUse ppid) ∧ s'.View live dead ∧ ∀ p, s'.pid p = s.pid p)
      ∨ found = true ∧ s.InUse ppid ∧ ∃ pid, Created s s' live dead task pid := by
  rw [Sched.mtSpawnUtask] at spawned
  cases found with
  | false =>
      obtain rfl := Option.some.inj spawned
      exact .inl ⟨by simp, h, fun _ => rfl⟩
  | true =>
      obtain ⟨⟨new, s₁⟩, created, pushed⟩ := Option.bind_eq_some_iff.mp spawned
      cases new with
      | none =>
          obtain rfl := Option.some.inj pushed
          obtain ⟨view, -⟩ := h.ktaskCreate counter notLive notDead created
          simp only [Sched.ktaskCreate, Option.bind_eq_bind, Option.bind_eq_some_iff,
            Option.pure_def] at created
          obtain ⟨⟨pid, s₂⟩, generated, parent, searched, created⟩ := created
          obtain ⟨-, rfl⟩ := h.genPid_given generated
          split at created
          · next orphan =>
              obtain ⟨-, rfl⟩ := Prod.mk.inj (Option.some.inj created)
              rw [orphan.2] at searched
              exact .inl ⟨fun _ => h.mtGetTaskByPid_none searched, view, fun _ => rfl⟩
          · cases created
      | some p =>
          have spawned' : s.mtSpawnKtask fuel task ppid = some s' := by
            rw [Sched.mtSpawnKtask, created]
            exact pushed
          rcases h.mtSpawnKtask_created counter notLive notDead spawned' with
            ⟨orphan, lists⟩ | ⟨child, pid, s₂, -, created'⟩
          · exact .inl ⟨fun _ => orphan, lists⟩
          · exact .inr ⟨rfl, child, pid, created'⟩

-----------------------------------------------------------------------------------------
-- What every event does to the pids
-----------------------------------------------------------------------------------------

theorem mtSchedule_pid {s s' : Sched} {fuel : Nat} {switched : Option Nat}
    (returned : s.mtSchedule fuel = some (switched, s')) (p : Nat)
    : s'.pid p = s.pid p := by
  rw [Sched.mtSchedule] at returned
  split at returned
  · obtain ⟨-, rfl⟩ := Prod.mk.inj (Option.some.inj returned)
    rfl
  · obtain ⟨c, -, returned⟩ := Option.bind_eq_some_iff.mp returned
    have ticked := SameLists.setTask s c (f := fun t =>
      { t with timeRemaining := (t.timeRemaining + (2 ^ 32 - 1)) % 2 ^ 32 }) (by simp)
    simp only at returned
    split at returned
    · obtain ⟨-, rfl⟩ := Prod.mk.inj (Option.some.inj returned)
      exact (ticked.task p).2.2.1
    · have reset := ticked.trans (SameLists.setTask _ c (f := fun t =>
        { t with timeRemaining := t.timeSlice }) (by simp))
      obtain ⟨r, -, returned⟩ := Option.bind_eq_some_iff.mp returned
      obtain ⟨n, -, returned⟩ := Option.bind_eq_some_iff.mp returned
      have resumed := reset.trans (SameLists.setTask _ n (f := fun t =>
        { t with state := .run }) (by simp))
      obtain ⟨-, rfl⟩ := Prod.mk.inj (Option.some.inj returned)
      simp only [mtSwitchTask]
      split
      · have left := resumed.trans (SameLists.setTask _ c (f := fun t =>
          { t with state := .sus }) (by simp))
        exact (left.task p).2.2.1
      · exact (resumed.task p).2.2.1

theorem View.mtTaskTerminate_pid {s s' : Sched} {live dead : List Nat} (h : s.View live dead)
    {fuel t : Nat} (listed : t ∈ live) (returned : s.mtTaskTerminate fuel t = some s') (p : Nat)
    : s'.pid p = s.pid p := by
  rcases eq_or_ne (s.pid t) 0 with zero | pid
  · cases fuel with
    | zero => simp [Sched.mtTaskTerminate] at returned
    | succ fuel =>
        rw [Sched.mtTaskTerminate, if_pos zero] at returned
        obtain rfl := Option.some.inj returned
        rfl
  · obtain ⟨front, w, back, rfl⟩ := h.split listed pid
    obtain ⟨line, rest, -, -, same⟩ :=
      mtTaskTerminate_line (fun n _ => movesLine n) h.move_live pid returned
    exact same.pid p

/-- A cleaner pass leaves the pids of the live tasks as they are. -/
theorem View.cleanerPass_pid {s s' : Sched} {live dead : List Nat} (h : s.View live dead)
    {fuel : Nat} {junk : Nat → Task} (passed : s.cleanerPass fuel junk = some s') {p : Nat}
    (member : p ∈ live)
    : s'.pid p = s.pid p := by
  obtain ⟨t, destroyed, result⟩ := Option.bind_eq_some_iff.mp passed
  obtain rfl := Option.some.inj result
  obtain ⟨others, -⟩ := destroyTasks_eq_some h.terminatedTasks.chain destroyed
  exact congrArg Task.pid (others p (fun gone => h.apart member gone))

/-- An event that creates no task leaves some of the live tasks, with their pids. -/
structure Leaves (s s' : Sched) (live live' dead' : List Nat) : Prop where
  view : s'.View live' dead'
  part : live' ⊆ live
  pids : ∀ p ∈ live', s'.pid p = s.pid p

section

variable {s s' : Sched} {live dead : List Nat}

/-- Distinct pids, by the list of live tasks. -/
theorem View.distinctPids (h : s.View live dead)
    : s.DistinctPids ↔ ∀ p ∈ live, ∀ q ∈ live, s.pid p = s.pid q → p = q := by
  simp only [DistinctPids, h.onTasks]
  exact ⟨fun apart p hp q hq => apart p q hp hq, fun apart p q hp hq => apart p hp q hq⟩

/-- Fewer tasks have distinct pids if more have. -/
theorem Leaves.distinctPids {live' dead' : List Nat} (leaves : Leaves s s' live live' dead')
    (h : s.View live dead) (distinct : s.DistinctPids)
    : s'.DistinctPids := by
  rw [h.distinctPids] at distinct
  rw [leaves.view.distinctPids]
  intro p hp q hq same
  rw [leaves.pids p hp, leaves.pids q hq] at same
  exact distinct p (leaves.part hp) q (leaves.part hq) same

/-- A new task leaves the pids distinct exactly if its pid was free. -/
theorem Created.distinctPids_iff {task pid : Nat} (created : Created s s' live dead task pid)
    (h : s.View live dead) (notLive : task ∉ live) (distinct : s.DistinctPids)
    : s'.DistinctPids ↔ maxPid < s.pidCounter ∨ ¬ s.InUse s.pidCounter := by
  have old {p : Nat} (member : p ∈ live) : s'.pid p = s.pid p := by
    have other : p ≠ task := fun same => notLive (same ▸ member)
    rw [created.pids, if_neg other]
  have new : s'.pid task = pid := by
    rw [created.pids, if_pos rfl]
  have free : s'.DistinctPids ↔ ¬ s.InUse pid := by
    rw [created.view.distinctPids, h.inUse]
    rw [h.distinctPids] at distinct
    constructor
    · intro apart inUse
      obtain ⟨p, member, same⟩ := inUse
      have clash := apart p (by simp [member]) task (by simp) (by rw [old member, new, same])
      exact notLive (clash ▸ member)
    · intro unused p hp q hq same
      have cases' {r : Nat} (hr : r ∈ live ++ [task]) : r ∈ live ∨ r = task := by
        simpa using hr
      rcases cases' hp with liveP | rfl
      · rcases cases' hq with liveQ | rfl
        · rw [old liveP, old liveQ] at same
          exact distinct p liveP q liveQ same
        · rw [old liveP, new] at same
          exact absurd ⟨p, liveP, same⟩ unused
      · rcases cases' hq with liveQ | rfl
        · rw [old liveQ, new] at same
          exact absurd ⟨q, liveQ, same.symm⟩ unused
        · rfl
  rw [free]
  rcases created.given with ⟨below, rfl⟩ | ⟨wraps, unused⟩
  · exact ⟨.inr, fun either => either.resolve_left (Nat.not_lt.mpr below)⟩
  · exact iff_of_true unused (.inl wraps)

/-- One event keeps the pids distinct exactly if a task that it creates gets a free pid. By cases
on the event: only those that create a task add one to the list.
-/
theorem View.step_distinctPids_iff {event : Event} (h : s.View live dead)
    (counter : 0 < s.pidCounter) (listed : ∀ t, event = .terminate t → t ∈ live)
    (distinct : s.DistinctPids) (taken : s.Step event s')
    : s'.DistinctPids ↔ s.GetsFreePid event := by
  cases event with
  | spawnKtask task ppid =>
      obtain ⟨notLive, notDead, fuel, spawned⟩ := taken
      rw [h.onTasks] at notLive
      rw [h.onTerminated] at notDead
      rcases h.mtSpawnKtask_created counter notLive notDead spawned with
        ⟨orphan, view, pids⟩ | ⟨child, pid, s₁, -, created⟩
      · have leaves : Leaves s s' live live dead := ⟨view, fun _ member => member, fun p _ => pids p⟩
        exact iff_of_true (leaves.distinctPids h distinct) (fun child => absurd child orphan)
      · rw [created.distinctPids_iff h notLive distinct]
        exact ⟨fun free _ => free, fun free => free child⟩
  | spawnUtask found task ppid =>
      obtain ⟨notLive, notDead, fuel, spawned⟩ := taken
      rw [h.onTasks] at notLive
      rw [h.onTerminated] at notDead
      rcases h.mtSpawnUtask_created counter notLive notDead spawned with
        ⟨orphan, view, pids⟩ | ⟨isFound, child, pid, created⟩
      · have leaves : Leaves s s' live live dead := ⟨view, fun _ member => member, fun p _ => pids p⟩
        exact iff_of_true (leaves.distinctPids h distinct)
          (fun isFound child => absurd child (orphan isFound))
      · rw [created.distinctPids_iff h notLive distinct]
        exact ⟨fun free _ _ => free, fun free => free isFound child⟩
  | schedule =>
      obtain ⟨fuel, switched, returned⟩ := taken
      obtain ⟨view, -⟩ := h.mtSchedule returned
      have leaves : Leaves s s' live live dead :=
        ⟨view, fun _ member => member, fun p _ => mtSchedule_pid returned p⟩
      exact iff_of_true (leaves.distinctPids h distinct) trivial
  | terminate t =>
      obtain ⟨-, fuel, returned⟩ := taken
      obtain ⟨moved, rest, view, perm, -⟩ := h.mtTaskTerminate (listed t rfl) returned
      have leaves : Leaves s s' live rest (moved ++ dead) :=
        ⟨view, fun _ member => perm.mem_iff.mpr (List.mem_append_right _ member),
          fun p _ => h.mtTaskTerminate_pid (listed t rfl) returned p⟩
      exact iff_of_true (leaves.distinctPids h distinct) trivial
  | setFgTask pid =>
      obtain ⟨fuel, t, -, rfl⟩ := taken
      exact iff_of_true distinct trivial
  | setFgCurrent =>
      obtain rfl := taken
      exact iff_of_true distinct trivial
  | clean junk =>
      obtain ⟨fuel, passed⟩ := taken
      obtain ⟨view, -⟩ := h.cleanerPass passed
      have leaves : Leaves s s' live live [] :=
        ⟨view, fun _ member => member, fun p member => h.cleanerPass_pid passed member⟩
      exact iff_of_true (leaves.distinctPids h distinct) trivial

-----------------------------------------------------------------------------------------
-- Whole runs
-----------------------------------------------------------------------------------------

/-- While the counter has not passed `MAX_PID` and is above all pids, a new task gets a new pid. -/
theorem Created.below {task pid : Nat} (created : Created s s' live dead task pid)
    (h : s.View live dead) (notLive : task ∉ live) (distinct : s.DistinctPids)
    (small : s.pidCounter ≤ maxPid) (below : ∀ p ∈ live, s.pid p < s.pidCounter)
    : s'.DistinctPids ∧ s'.pidCounter = s.pidCounter + 1
      ∧ ∀ p ∈ live ++ [task], s'.pid p < s'.pidCounter := by
  have given : pid = s.pidCounter := by
    rcases created.given with ⟨-, same⟩ | ⟨wraps, -⟩
    · exact same
    · exact absurd small (Nat.not_le.mpr wraps)
  have counter : s'.pidCounter = s.pidCounter + 1 := by
    rw [created.counter, given]
  refine ⟨(created.distinctPids_iff h notLive distinct).mpr (.inr ?_), counter, ?_⟩
  · rw [h.inUse]
    intro inUse
    obtain ⟨p, member, same⟩ := inUse
    exact absurd (below p member) (by omega)
  · intro p member
    rw [created.pids, counter]
    split
    · omega
    · next other =>
        have old : p ∈ live := by simpa [other] using member
        have smaller := below p old
        omega

theorem mtInit_distinctPids {s₀ : Sched} {fuel kernelIdle test cleaner : Nat}
    (tasks : s₀.tasks = none) (terminated : s₀.terminatedTasks = none)
    (counter : s₀.pidCounter = 0) (nodup : [kernelIdle, test, cleaner].Nodup)
    (init : s₀.mtInit fuel kernelIdle test cleaner = some s)
    : s.DistinctPids := by
  obtain ⟨s₁, first, init⟩ := Option.bind_eq_some_iff.mp init
  obtain ⟨s₂, second, init⟩ := Option.bind_eq_some_iff.mp init
  obtain ⟨s₃, third, result⟩ := Option.bind_eq_some_iff.mp init
  obtain rfl := Option.some.inj result
  simp only [List.nodup_cons, List.mem_cons, List.not_mem_nil, or_false, not_or] at nodup
  obtain ⟨⟨testNew, cleanerNew⟩, distinct, -⟩ := nodup
  obtain ⟨view₁, counter₁⟩ := mtSpawnKtask_first tasks terminated counter first
  have idle₁ : s₁.pid kernelIdle = 0 := by
    obtain ⟨p, head, zero, -⟩ := view₁.idle
    obtain rfl : kernelIdle = p := by simpa using head
    exact zero
  have parent₁ : s₁.InUse 0 := view₁.inUse.mpr ⟨kernelIdle, by simp, idle₁⟩
  have distinct₁ : s₁.DistinctPids := by
    rw [view₁.distinctPids]
    intro p hp q hq _
    rw [List.mem_singleton.mp hp, List.mem_singleton.mp hq]
  have small₁ : s₁.pidCounter ≤ maxPid := by
    rw [counter₁]
    decide
  have testFree : test ∉ [kernelIdle] := by simpa using Ne.symm testNew
  rcases view₁.mtSpawnKtask_created (by omega) testFree (by simp) second with
    ⟨orphan, -⟩ | ⟨-, pid₂, -, -, created₂⟩
  · exact absurd parent₁ orphan
  obtain ⟨distinct₂, counter₂, below₂⟩ := created₂.below view₁ testFree distinct₁ small₁ (by
    intro p hp
    rw [List.mem_singleton.mp hp, idle₁, counter₁]
    exact Nat.one_pos)
  have idle₂ : s₂.pid kernelIdle = 0 := by
    rw [created₂.pids, if_neg testNew, idle₁]
  have parent₂ : s₂.InUse 0 := created₂.view.inUse.mpr ⟨kernelIdle, by simp, idle₂⟩
  have small₂ : s₂.pidCounter ≤ maxPid := by
    rw [counter₂, counter₁]
    decide
  have cleanerFree : cleaner ∉ [kernelIdle] ++ [test] := by
    simpa using ⟨Ne.symm cleanerNew, Ne.symm distinct⟩
  rcases created₂.view.mtSpawnKtask_created (by omega) cleanerFree (by simp) third with
    ⟨orphan, -⟩ | ⟨-, pid₃, -, -, created₃⟩
  · exact absurd parent₂ orphan
  exact (created₃.below created₂.view cleanerFree distinct₂ small₂ below₂).1

end

/-- In every run whose terminations are of tasks on `tasks`, the pids on `tasks` are distinct in
every state exactly if every event that creates a task finds the counter above `MAX_PID` or its
value free. By induction on the run. A step adds at most one task, with the pid that the counter
gives, and all others keep theirs.
-/
theorem run_distinctPids_iff {s : Sched} {steps : List (Sched × Event)}
    (run : mtSystem.Run s steps)
    (listed : ∀ taken ∈ steps, ∀ t, taken.2 = .terminate t → taken.1.OnTasks t)
    : (s.DistinctPids ∧ ∀ taken ∈ steps, taken.1.DistinctPids)
      ↔ ∀ taken ∈ steps, taken.1.GetsFreePid taken.2 := by
  induction run with
  | start initial =>
      obtain ⟨s₀, fuel, kernelIdle, test, cleaner, tasks, terminated, counter, nodup, init⟩ :=
        initial
      have distinct := mtInit_distinctPids tasks terminated counter nodup init
      simp [distinct]
  | @next s event s' steps earlier taken ih =>
      have before : ∀ taken ∈ steps, ∀ t, taken.2 = .terminate t → taken.1.OnTasks t :=
        fun taken member => listed taken (List.mem_cons_of_mem _ member)
      obtain ⟨⟨live, dead, view⟩, counter⟩ := Listed.reachable (earlier.restrict before)
      have only (t : Nat) (same : event = .terminate t) : t ∈ live :=
        view.onTasks.mp (listed (s, event) (List.mem_cons_self ..) t same)
      have step := fun distinct => view.step_distinctPids_iff counter only distinct taken
      simp only [List.forall_mem_cons]
      constructor
      · intro all
        obtain ⟨now, source, past⟩ := all
        exact ⟨(step source).mp now, (ih before).mp ⟨source, past⟩⟩
      · intro all
        obtain ⟨free, past⟩ := all
        obtain ⟨source, distinct⟩ := (ih before).mpr past
        exact ⟨(step source).mpr free, source, distinct⟩

/-- The first task behind `mt_init`'s gets a pid of its own. -/
theorem run_distinctPids_spawn
    : ∃ s steps, mtSystem.Run s steps ∧ steps.map Prod.snd = [.spawnKtask 0x4000 0]
        ∧ s.DistinctPids := by
  have returns : (scene [.spawnKtask 0x4000 0]).isSome = true := by decide +kernel
  obtain ⟨⟨s, steps⟩, played⟩ := Option.isSome_iff_exists.mp returns
  obtain ⟨run, -⟩ := scene_run played
  obtain ⟨s₀, init, played⟩ := Option.bind_eq_some_iff.mp played
  obtain ⟨⟨s', steps'⟩, none, played⟩ := Option.bind_eq_some_iff.mp played
  obtain ⟨rfl, rfl⟩ := Prod.mk.inj (Option.some.inj none)
  obtain ⟨s₁, -, result⟩ := Option.map_eq_some_iff.mp played
  obtain ⟨rfl, rfl⟩ := Prod.mk.inj result
  have facts : ∀ s ∈ boot.mtInit 16 0x1000 0x2000 0x3000,
      Linked.Chain s.next s.tasks [0x1000, 0x2000, 0x3000]
        ∧ (∀ p ∈ [0x1000, 0x2000, 0x3000], s.pid p ≠ s.pidCounter) := by
    decide +kernel
  obtain ⟨chain, unused⟩ := facts s₀ init
  have free : ¬ s₀.InUse s₀.pidCounter := by
    intro inUse
    obtain ⟨p, ⟨live, chain', member⟩, same⟩ := inUse
    obtain rfl := chain.unique chain'
    exact unused p member same
  refine ⟨s₁, _, run, rfl, ((run_distinctPids_iff run ?_).mpr ?_).1⟩
  · intro taken member t terminated
    obtain rfl := List.mem_singleton.mp member
    cases terminated
  · intro taken member
    obtain rfl := List.mem_singleton.mp member
    exact fun _ => .inr free

-----------------------------------------------------------------------------------------
-- A run that comes back to a pid in use
-----------------------------------------------------------------------------------------

/-- A spawn under an existing parent returns. -/
theorem View.mtSpawnKtask_returns {s s₁ : Sched} {live dead : List Nat} (h : s.View live dead)
    {fuel task ppid pid : Nat} (counter : 0 < s.pidCounter) (notLive : task ∉ live)
    (notDead : task ∉ dead) (parent : s.InUse ppid) (enough : live.length ≤ fuel)
    (generated : s.genPid fuel = some (pid, s₁))
    : ∃ s', s.mtSpawnKtask fuel task ppid = some s' := by
  obtain ⟨-, rfl⟩ := h.genPid_given generated
  have view : Sched.View { s with pidCounter := pid + 1 } live dead :=
    h.congr rfl rfl (fun p _ => ⟨rfl, rfl, rfl, rfl⟩)
  obtain ⟨r, searched⟩
      : ∃ r, mtGetTaskByPid fuel { s with pidCounter := pid + 1 } ppid = some r :=
    Linked.find_returns view.tasks.chain enough
  have found : r ≠ none := by
    rintro rfl
    exact view.mtGetTaskByPid_none searched parent
  obtain ⟨s₂, created⟩ : ∃ s₂, s.ktaskCreate fuel task ppid = some (some task, s₂) := by
    rw [Sched.ktaskCreate, generated]
    simp only [Option.bind_eq_bind, Option.bind_some, searched, found, and_false, if_false]
    exact ⟨_, rfl⟩
  obtain ⟨view₂, -⟩ := h.ktaskCreate counter notLive notDead created
  obtain ⟨first, start, -⟩ := view₂.idle
  obtain ⟨front, last, rfl⟩ : ∃ front last, live = front ++ [last] := by
    rcases List.eq_nil_or_concat' live with rfl | split
    · cases start
    · exact split
  have tasks : s₂.tasks = some first := view₂.tasks.chain.head.trans start
  have walked : Linked.last s₂.next fuel first = some last := by
    refine Linked.last_eq (tasks ▸ view₂.tasks.chain) ?_
    simpa using enough
  simp only [Sched.mtSpawnKtask, created, Option.bind_eq_bind, Option.bind_some,
    Sched.mtPushTask, tasks, walked]
  exact ⟨_, rfl⟩

/-- Up to `MAX_PID` the counter is given out. -/
theorem genPid_below {s : Sched} (fuel : Nat) (small : s.pidCounter ≤ maxPid)
    : s.genPid fuel = some (s.pidCounter, { s with pidCounter := s.pidCounter + 1 }) := by
  rw [genPid, if_neg (Nat.not_lt.mpr small)]
  rfl

/-- A spawn under an existing parent creates a task with the pid that `gen_pid` gives out. -/
theorem View.created_of_genPid {s s' s₁ : Sched} {live dead : List Nat} (h : s.View live dead)
    {fuel task ppid pid : Nat} (counter : 0 < s.pidCounter) (notLive : task ∉ live)
    (notDead : task ∉ dead) (parent : s.InUse ppid) (generated : s.genPid fuel = some (pid, s₁))
    (spawned : s.mtSpawnKtask fuel task ppid = some s')
    : Created s s' live dead task pid := by
  rcases h.mtSpawnKtask_created counter notLive notDead spawned with
    ⟨orphan, -⟩ | ⟨-, pid', s₂, generated', created⟩
  · exact absurd parent orphan
  · rw [generated] at generated'
    obtain ⟨rfl, -⟩ := Prod.mk.inj (Option.some.inj generated')
    exact created

/-- `mt_init`'s tasks and one behind them. -/
def fourTasks : List Nat :=
  [0x1000, 0x2000, 0x3000, 0x5000]

/-- The block of the `n`-th task that comes and goes. -/
def passing (n : Nat) : Nat :=
  0x6000 + 0x100 * n

/-- The four tasks have the pids 0, 1, 2 and 4, and the counter has come to `5 + n`. -/
structure Cycled (s : Sched) (dead : List Nat) (n : Nat) : Prop where
  view : s.View fourTasks dead
  pids : fourTasks.map s.pid = [0, 1, 2, 4]
  ppids : fourTasks.map s.ppid = [0, 0, 0, 0]
  counter : s.pidCounter = 5 + n
  past : ∀ p ∈ dead, p < passing n

section

variable {s : Sched} {dead : List Nat} {n : Nat}

theorem Cycled.inUse (h : s.Cycled dead n) {pid : Nat} : s.InUse pid ↔ pid ∈ [0, 1, 2, 4] := by
  rw [h.view.inUse, ← h.pids, List.mem_map]

theorem Cycled.counter_pos (h : s.Cycled dead n) : 0 < s.pidCounter := by
  rw [h.counter]
  omega

/-- The next block is not the one of a task that stays. -/
theorem passing_not_mem_fourTasks (n : Nat) : passing n ∉ fourTasks := by
  simp only [fourTasks, passing, List.mem_cons, List.not_mem_nil, or_false, not_or]
  omega

/-- The next block is not the one of a task that has gone. -/
theorem Cycled.passing_not_mem (h : s.Cycled dead n) : passing n ∉ dead :=
  fun member => Nat.lt_irrefl _ (h.past _ member)

/-- A task with the next pid comes and goes. -/
theorem Cycled.step (h : s.Cycled dead n) (small : 5 + n ≤ maxPid)
    : ∃ s₁ s₂ dead', mtSystem.step s (.spawnKtask (passing n) 0) s₁
        ∧ mtSystem.step s₁ (.terminate (passing n)) s₂ ∧ s₂.Cycled dead' (n + 1) := by
  have counter := h.counter_pos
  have notLive := passing_not_mem_fourTasks n
  have notDead := h.passing_not_mem
  have generated := genPid_below 4 (h.counter ▸ small)
  have parent : s.InUse 0 := h.inUse.mpr (by decide)
  obtain ⟨s₁, spawned⟩ := h.view.mtSpawnKtask_returns counter notLive notDead parent
    (Nat.le_refl 4) generated
  have created := h.view.created_of_genPid counter notLive notDead parent generated spawned
  have isPid : s.pidCounter = 5 + n := h.counter
  have kept {p : Nat} (member : p ∈ fourTasks) : p ≠ passing n :=
    fun same => notLive (same ▸ member)
  have pids₁ : fourTasks.map s₁.pid = [0, 1, 2, 4] := by
    rw [← h.pids]
    refine List.map_congr_left (fun p member => ?_)
    rw [created.pids, if_neg (kept member)]
  have ppids₁ : fourTasks.map s₁.ppid = [0, 0, 0, 0] := by
    rw [← h.ppids]
    exact List.map_congr_left (fun p member => created.ppids p (kept member))
  have pid₁ : s₁.pid (passing n) = 5 + n := by
    rw [created.pids, if_pos rfl, isPid]
  have nonzero : s₁.pid (passing n) ≠ 0 := by
    rw [pid₁]
    omega
  have moved : (s₁.moveToTerminated (passing n)).View fourTasks (passing n :: dead) :=
    (show s₁.View ([0x1000, 0x2000, 0x3000] ++ 0x5000 :: passing n :: []) dead from
      created.view).move_live
  have same := moveToTerminated_same s₁ (passing n)
  -- its parent is `kernel_idle`, and no task is its child
  have childless : ∀ c ∈ fourTasks, s₁.ppid c ≠ s₁.pid (passing n) := by
    intro c member clash
    have idle : s₁.ppid c ∈ [0, 0, 0, 0] := ppids₁ ▸ List.mem_map_of_mem member
    rw [clash] at idle
    exact nonzero (by simpa using idle)
  obtain ⟨s₂, looped, view₂, same₂⟩ := (Descent.last childless).returns moved same.pid_eq
    same.ppid_eq nonzero (Nat.le_refl _)
  obtain ⟨fuel, looped⟩ : ∃ fuel, (s₁.moveToTerminated (passing n)).terminateChildren fuel
      (passing n) (s₁.moveToTerminated (passing n)).tasks = some s₂ :=
    ⟨_, looped⟩
  have terminated : s₁.mtTaskTerminate (fuel + 1) (passing n) = some s₂ := by
    rw [mtTaskTerminate, if_neg nonzero]
    exact looped
  have all := same.trans same₂
  refine ⟨s₁, s₂, _, ⟨?_, ?_, 4, spawned⟩, ⟨.inl ?_, fuel + 1, terminated⟩, view₂, ?_, ?_, ?_, ?_⟩
  · rwa [h.view.onTasks]
  · rwa [h.view.onTerminated]
  · rw [created.view.onTasks]
    simp
  · rw [all.pid_eq, pids₁]
  · rw [all.ppid_eq, ppids₁]
  · rw [all.pidCounter, created.counter, isPid, Nat.add_assoc]
  · intro p member
    have below : passing n < passing (n + 1) := by
      rw [passing, passing]
      omega
    rcases List.mem_cons.mp member with rfl | old
    · exact below
    · exact Nat.lt_trans (h.past p old) below

/-- A search for a pid in use finds a task. -/
theorem Cycled.mtGetTaskByPid_eq (h : s.Cycled dead n) (pid : Nat)
    : ∃ r, s.mtGetTaskByPid 4 pid = some r ∧ (r = none ↔ pid ∉ [0, 1, 2, 4]) := by
  obtain ⟨r, searched⟩ : ∃ r, s.mtGetTaskByPid 4 pid = some r :=
    Linked.find_returns h.view.tasks.chain (Nat.le_refl 4)
  refine ⟨r, searched, ?_⟩
  rw [← h.inUse]
  cases r with
  | none => exact iff_of_true rfl (h.view.mtGetTaskByPid_none searched)
  | some p => exact iff_of_false (by simp) (not_not_intro (h.view.mtGetTaskByPid_some searched))

/-- When the counter starts again, pid 3 is the first one that is free. -/
theorem Cycled.unusedPid_eq (h : s.Cycled dead n) : s.unusedPid 4 4 0 = some 3 := by
  have pass (fuel pid : Nat) (inUse : pid ∈ [0, 1, 2, 4])
      : s.unusedPid 4 (fuel + 1) pid = s.unusedPid 4 fuel (pid + 1) := by
    obtain ⟨r, searched, found⟩ := h.mtGetTaskByPid_eq pid
    cases r with
    | none => exact absurd inUse (found.mp rfl)
    | some p => simp only [unusedPid, searched]
  have stop (fuel pid : Nat) (free : pid ∉ [0, 1, 2, 4])
      : s.unusedPid 4 (fuel + 1) pid = some pid := by
    obtain ⟨r, searched, found⟩ := h.mtGetTaskByPid_eq pid
    obtain rfl := found.mpr free
    simp only [unusedPid, searched]
  rw [pass 3 0 (by decide), pass 2 1 (by decide), pass 1 2 (by decide), stop 0 3 (by decide)]

end

def SpawnsOrTerminates : Event → Prop
  | .spawnKtask _ _ => True
  | .spawnUtask _ _ _ => True
  | .terminate _ => True
  | _ => False

/-- Any number of tasks up to the last pid come and go, by induction on their number. -/
theorem cycled_run {s : Sched} {dead : List Nat} {steps : List (Sched × Event)}
    (run : mtSystem.Run s steps) (only : ∀ taken ∈ steps, SpawnsOrTerminates taken.2)
    (start : s.Cycled dead 0) (n : Nat) (small : n ≤ 0xFFFB)
    : ∃ s' dead' steps', mtSystem.Run s' steps'
        ∧ (∀ taken ∈ steps', SpawnsOrTerminates taken.2) ∧ s'.Cycled dead' n := by
  induction n with
  | zero => exact ⟨s, dead, steps, run, only, start⟩
  | succ n ih =>
      obtain ⟨s', dead', steps', run', only', cycled⟩ := ih (Nat.le_of_succ_le small)
      have below : 5 + n ≤ maxPid := by
        rw [maxPid]
        omega
      obtain ⟨s₁, s₂, dead'', spawned, terminated, cycled'⟩ := cycled.step below
      refine ⟨s₂, dead'', _, (run'.next spawned).next terminated, ?_, cycled'⟩
      simpa only [List.forall_mem_cons, SpawnsOrTerminates, true_and] using only'

/-- Two tasks, the first of which is terminated, latest first. -/
def gap : List Event :=
  [.terminate 0x4000, .spawnKtask 0x5000 0, .spawnKtask 0x4000 0]

/-- After `mt_init` and these events no task has pid 3. -/
theorem cycled_start
    : ∃ s dead steps, mtSystem.Run s steps ∧ (∀ taken ∈ steps, SpawnsOrTerminates taken.2)
        ∧ s.Cycled dead 0 := by
  have returns : (scene gap).isSome = true := by decide +kernel
  obtain ⟨⟨s, steps⟩, played⟩ := Option.isSome_iff_exists.mp returns
  have facts : ∀ r ∈ scene gap, Linked.Chain r.1.next r.1.tasks fourTasks
      ∧ Linked.Chain r.1.next r.1.terminatedTasks [0x4000]
      ∧ fourTasks.map r.1.pid = [0, 1, 2, 4] ∧ fourTasks.map r.1.ppid = [0, 0, 0, 0]
      ∧ r.1.pidCounter = 5 := by
    decide +kernel
  obtain ⟨live, gone, pids, ppids, counter⟩ := facts _ played
  obtain ⟨run, ⟨live', dead', view⟩, -⟩ := scene_run played
  obtain rfl := view.tasks.chain.unique live
  obtain rfl := view.terminatedTasks.chain.unique gone
  refine ⟨s, _, steps, run, ?_, view, pids, ppids, counter, ?_⟩
  · obtain ⟨s₀, -, played⟩ := Option.bind_eq_some_iff.mp played
    have labels : ∀ event ∈ steps.map Prod.snd, SpawnsOrTerminates event := by
      rw [TransitionSystem.play_labels played]
      simp [gap, SpawnsOrTerminates]
    exact fun taken member => labels _ (List.mem_map_of_mem member)
  · intro p member
    rw [List.mem_singleton.mp member]
    decide

/-- Two tasks get pid 4: after the counter has started again at the free pid 3, it gives out 4
without a check.
-/
theorem run_same_pid
    : ¬ ∀ s steps, mtSystem.Run s steps → (∀ taken ∈ steps, SpawnsOrTerminates taken.2)
        → s.DistinctPids := by
  intro distinct
  obtain ⟨s₀, dead₀, steps₀, run₀, only₀, start⟩ := cycled_start
  obtain ⟨s, dead, steps, run, only, cycled⟩ :=
    cycled_run run₀ only₀ start 0xFFFB (Nat.le_refl _)
  have wraps : maxPid < s.pidCounter := by
    rw [cycled.counter]
    decide
  have parent : s.InUse 0 := cycled.inUse.mpr (by decide)
  have again : s.genPid 4 = some (3, { s with pidCounter := 4 }) := by
    rw [genPid, if_pos wraps, cycled.unusedPid_eq]
    rfl
  have free := passing_not_mem_fourTasks 0xFFFB
  obtain ⟨s₁, spawned⟩ := cycled.view.mtSpawnKtask_returns cycled.counter_pos free
    cycled.passing_not_mem parent (Nat.le_refl 4) again
  have created := cycled.view.created_of_genPid cycled.counter_pos free cycled.passing_not_mem
    parent again spawned
  have step : mtSystem.step s (.spawnKtask (passing 0xFFFB) 0) s₁ :=
    ⟨by rwa [cycled.view.onTasks],
      by rw [cycled.view.onTerminated]; exact cycled.passing_not_mem, 4, spawned⟩
  -- the task behind `mt_init`'s still has pid 4, which is next
  have old : s.pid 0x5000 = 4 := by
    have pids := cycled.pids
    simp only [fourTasks, List.map_cons, List.map_nil, List.cons.injEq] at pids
    exact pids.2.2.2.1
  have kept {p : Nat} (member : p ∈ fourTasks) : s₁.pid p = s.pid p := by
    have other : p ≠ passing 0xFFFB := fun same => free (same ▸ member)
    rw [created.pids, if_neg other]
  have counter₁ : s₁.pidCounter = 4 := created.counter
  have parent₁ : s₁.InUse 0 := by
    obtain ⟨p, member, zero⟩ := cycled.view.inUse.mp parent
    exact created.view.inUse.mpr ⟨p, by simp [member], (kept member).trans zero⟩
  have new : passing 0xFFFC ∉ fourTasks ++ [passing 0xFFFB] := by
    simp only [fourTasks, passing]
    decide
  have notDead : passing 0xFFFC ∉ dead := fun member =>
    absurd (cycled.past _ member) (by decide)
  have generated := genPid_below 5 (show s₁.pidCounter ≤ maxPid by rw [counter₁]; decide)
  obtain ⟨s₂, spawned₂⟩ := created.view.mtSpawnKtask_returns (by omega) new notDead parent₁
    (Nat.le_refl 5) generated
  have created₂ := created.view.created_of_genPid (by omega) new notDead parent₁ generated
    spawned₂
  have step₂ : mtSystem.step s₁ (.spawnKtask (passing 0xFFFC) 0) s₂ :=
    ⟨by rwa [created.view.onTasks], by rwa [created.view.onTerminated], 5, spawned₂⟩
  have apart := distinct s₂ _ ((run.next step).next step₂)
    (by simpa only [List.forall_mem_cons, SpawnsOrTerminates, true_and] using only)
  rw [created₂.view.distinctPids] at apart
  refine absurd (apart 0x5000 (by simp [fourTasks]) (passing 0xFFFC) (by simp) ?_) (by decide)
  rw [created₂.pids, created₂.pids, if_neg (by decide), if_pos rfl, kept (by decide), old,
    counter₁]

end Hydrangea.Sched
