import Hydrangea.Multitasking.Scheduling

/-! The tasks that `kernel/multitasking/scheduler.c` can come to, whether they are on a list or
not. A task that terminates runs until the next switch, and from it the scheduler may go on to
other terminated tasks. While no task structure is freed, it comes to tasks that have been created
only.
-/

namespace Hydrangea.Sched

/-- The globals and the created tasks point to created tasks. `ktask_create` does not set `prev`,
and nobody follows that of a task with pid 0.
-/
structure Closed (s : Sched) (created : List Nat) : Prop where
  tasks : ∀ p ∈ s.tasks, p ∈ created
  terminatedTasks : ∀ p ∈ s.terminatedTasks, p ∈ created
  curTask : ∀ p ∈ s.curTask, p ∈ created
  next : ∀ t ∈ created, ∀ p ∈ s.next t, p ∈ created
  prev : ∀ t ∈ created, s.pid t ≠ 0 → ∀ p ∈ s.prev t, p ∈ created

variable {s s' : Sched} {created : List Nat}

theorem SameLists.closed (h : s.SameLists s') (closed : s.Closed created) : s'.Closed created where
  tasks p member := closed.tasks p (h.tasks ▸ member)
  terminatedTasks p member := closed.terminatedTasks p (h.terminatedTasks ▸ member)
  curTask p member := closed.curTask p (h.curTask ▸ member)
  next t alive p member := closed.next t alive p ((h.task t).1 ▸ member)
  prev t alive pid p member :=
    closed.prev t alive ((h.task t).2.2.1 ▸ pid) p ((h.task t).2.1 ▸ member)

/-- Lists of tasks, of which none has terminated, point to themselves. -/
theorem View.closed {live : List Nat} (view : s.View live []) (running : ∀ c ∈ s.curTask, c ∈ live)
    : s.Closed live where
  tasks p member := List.mem_of_mem_head? (view.tasks.chain.head.symm.trans member)
  terminatedTasks p member := by
    rw [Linked.chain_nil.mp view.terminatedTasks.chain] at member
    cases member
  curTask := running
  next t alive p member := view.tasks.chain.next_mem alive member
  prev t alive pid p member := by
    obtain ⟨front, w, back, rfl⟩ := view.split alive pid
    obtain rfl := Option.some.inj (view.tasks.prev_eq.symm.trans member)
    simp

/-- A store whose links lead to created tasks. -/
theorem Closed.setTask (h : s.Closed created) (p : Nat) {f : Task → Task}
    (next : p ∈ created → ∀ q ∈ (f (s.task p)).next, q ∈ created)
    (prev : p ∈ created → (f (s.task p)).pid ≠ 0 → ∀ q ∈ (f (s.task p)).prev, q ∈ created)
    : (s.setTask p f).Closed created := by
  refine ⟨h.tasks, h.terminatedTasks, h.curTask, fun t alive q => ?_, fun t alive pid q => ?_⟩
  · rw [Sched.next, setTask_task]
    split
    · next same => exact next (same ▸ alive) q
    · exact h.next t alive q
  · rw [Sched.pid, setTask_task] at pid
    rw [Sched.prev, setTask_task]
    split at pid
    · next same =>
        rw [if_pos same]
        exact prev (same ▸ alive) pid q
    · next other =>
        rw [if_neg other]
        exact h.prev t alive pid q

/-- A store through a pointer, if it is not NULL. -/
theorem Closed.setIfTask (h : s.Closed created) (p : Option Nat) {f : Task → Task}
    (next : ∀ t ∈ p, t ∈ created → ∀ q ∈ (f (s.task t)).next, q ∈ created)
    (prev : ∀ t ∈ p, t ∈ created → (f (s.task t)).pid ≠ 0 → ∀ q ∈ (f (s.task t)).prev, q ∈ created)
    : (s.setIfTask p f).Closed created := by
  cases p with
  | none => exact h
  | some t => exact h.setTask t (next t rfl) (prev t rfl)

/-- A search for a pid finds a created task. -/
theorem Closed.mtGetTaskByPid (h : s.Closed created) {fuel pid p : Nat}
    (found : s.mtGetTaskByPid fuel pid = some (some p))
    : p ∈ created :=
  Linked.find_mem h.next h.tasks found

theorem Closed.mtPickNextTask (h : s.Closed created) {fuel c n : Nat} (running : c ∈ created)
    (picked : s.mtPickNextTask fuel c = some (some n))
    : n ∈ created := by
  rw [Sched.mtPickNextTask] at picked
  cases following : (s.task c).next with
  | none =>
      rw [following] at picked
      exact h.tasks n (Option.some.inj picked)
  | some q =>
      have later : q ∈ created := h.next c running q following
      rw [following] at picked
      simp only at picked
      split at picked
      · obtain rfl := Option.some.inj (Option.some.inj picked)
        exact later
      · obtain ⟨r, found, picked⟩ := Option.bind_eq_some_iff.mp picked
        cases r with
        | none => exact h.tasks n (Option.some.inj picked)
        | some p =>
            obtain rfl := Option.some.inj (Option.some.inj picked)
            exact Linked.find_mem h.next (h.next q later) found

/-- A tick leads to a created task. -/
theorem Closed.mtSchedule (h : s.Closed created) {fuel : Nat} {switched : Option Nat}
    (returned : s.mtSchedule fuel = some (switched, s'))
    : s'.Closed created ∧ s'.tasks = s.tasks := by
  obtain ⟨-, same⟩ | ⟨c, n, reset, left, running, -, same, picked, same', rfl⟩ :=
    mtSchedule_cases returned
  · exact ⟨same.closed h, same.tasks⟩
  · have closed := same'.closed h
    refine ⟨⟨closed.tasks, closed.terminatedTasks, ?_, closed.next, closed.prev⟩, same'.tasks⟩
    rintro p ⟨⟩
    exact (same.closed h).mtPickNextTask (h.curTask c running) picked

/-- A task that leaves its list, other than one with pid 0. -/
theorem Closed.moveToTerminated (h : s.Closed created) {t : Nat} (alive : t ∈ created)
    (pid : s.pid t ≠ 0)
    : (s.moveToTerminated t).Closed created := by
  have behind := h.next t alive
  have before := h.prev t alive pid
  have unlinked : (s.unlinkTask t).Closed created := by
    have first : Closed (s.setIfTask (s.task t).prev (fun b => { b with next := (s.task t).next }))
        created :=
      h.setIfTask _ (fun _ _ _ => behind) (fun b _ inside pid => h.prev b inside pid)
    refine first.setIfTask _ (fun a _ inside => first.next a inside) (fun _ _ _ _ q member => ?_)
    dsimp only at member
    rw [setIfTask_task] at member
    split at member
    · exact before q member
    · exact before q member
  rw [Sched.moveToTerminated, pushTerminated]
  split
  · have stored := unlinked.setTask t (f := fun t => { t with next := none, prev := none })
      (fun _ q member => (Option.not_mem_none q member).elim)
      (fun _ _ q member => (Option.not_mem_none q member).elim)
    refine ⟨stored.tasks, ?_, stored.curTask, stored.next, stored.prev⟩
    rintro p ⟨⟩
    exact alive
  · next first there =>
      have known : first ∈ created := unlinked.terminatedTasks first there
      have stored : Closed ((s.unlinkTask t).setTask t (fun t => { t with next := some first }))
          created := by
        refine unlinked.setTask t ?_ (fun inside pid => unlinked.prev t inside pid)
        rintro - q ⟨⟩
        exact known
      have linked := stored.setTask first (f := fun f => { f with prev := some t })
        (fun inside => stored.next first inside) (by rintro - - q ⟨⟩; exact alive)
      refine ⟨linked.tasks, ?_, linked.curTask, linked.next, linked.prev⟩
      rintro p ⟨⟩
      exact alive

/-- Terminating a created task and its children, by induction on the fuel of both loops. Each store
is of a pointer to a task that was created, or of NULL.
-/
theorem Closed.terminate (fuel : Nat)
    : (∀ s s' : Sched, s.Closed created → ∀ t ∈ created, s.mtTaskTerminate fuel t = some s'
        → s'.Closed created ∧ s'.tasks = s.tasks)
      ∧ ∀ s s' : Sched, s.Closed created → ∀ t i, (∀ p ∈ i, p ∈ created)
        → s.terminateChildren fuel t i = some s' → s'.Closed created ∧ s'.tasks = s.tasks := by
  induction fuel with
  | zero =>
      refine ⟨fun s s' h t alive returned => ?_, fun s s' h t i inside returned => ?_⟩
      · rw [mtTaskTerminate] at returned
        cases returned
      · cases i with
        | none =>
            rw [terminateChildren] at returned
            obtain rfl := Option.some.inj returned
            exact ⟨h, rfl⟩
        | some i =>
            rw [terminateChildren] at returned
            cases returned
  | succ fuel ih =>
      obtain ⟨terminates, passes⟩ := ih
      refine ⟨fun s s' h t alive returned => ?_, fun s s' h t i inside returned => ?_⟩
      · rw [mtTaskTerminate] at returned
        split at returned
        · obtain rfl := Option.some.inj returned
          exact ⟨h, rfl⟩
        · next pid =>
            have moved := h.moveToTerminated alive pid
            have tasks : (s.moveToTerminated t).tasks = s.tasks := by
              rw [Sched.moveToTerminated, pushTerminated_tasks, unlinkTask_tasks]
            obtain ⟨closed, same⟩ := passes _ s' moved t _ moved.tasks returned
            exact ⟨closed, same.trans tasks⟩
      · cases i with
        | none =>
            rw [terminateChildren] at returned
            obtain rfl := Option.some.inj returned
            exact ⟨h, rfl⟩
        | some i =>
            have alive : i ∈ created := inside i rfl
            rw [terminateChildren] at returned
            have rest {s₁ : Sched} (known : s₁.Closed created ∧ s₁.tasks = s.tasks)
                (passed : s₁.terminateChildren fuel t (s₁.task i).next = some s')
                : s'.Closed created ∧ s'.tasks = s.tasks := by
              obtain ⟨closed, same⟩ := passes s₁ s' known.1 t _ (known.1.next i alive) passed
              exact ⟨closed, same.trans known.2⟩
            split at returned
            · obtain ⟨s₁, ended, passed⟩ := Option.bind_eq_some_iff.mp returned
              exact rest (terminates s s₁ h i alive ended) passed
            · exact rest ⟨h, rfl⟩ returned

theorem Closed.mtTaskTerminate (h : s.Closed created) {fuel t : Nat} (alive : t ∈ created)
    (returned : s.mtTaskTerminate fuel t = some s')
    : s'.Closed created ∧ s'.tasks = s.tasks :=
  (Closed.terminate fuel).1 s s' h t alive returned

theorem Closed.ktaskCreate_none (h : s.Closed created) {fuel task ppid : Nat}
    (made : s.ktaskCreate fuel task ppid = some (none, s'))
    : s'.Closed created := by
  obtain ⟨pid, parentTask, -, -, ⟨-, -, rfl⟩ | ⟨-, new, -⟩⟩ := ktaskCreate_cases made
  · exact ⟨h.tasks, h.terminatedTasks, h.curTask, h.next, h.prev⟩
  · cases new

/-- One task more, whose links lead to created tasks. -/
theorem Closed.add (h : s.Closed created) {p : Nat} {t : Task} (unlinked : t.next = none)
    (behind : ∀ q ∈ t.prev, q ∈ created)
    : (s.setTask p (fun _ => t)).Closed (created ++ [p]) := by
  have more {q : Nat} (member : q ∈ created) : q ∈ created ++ [p] := List.mem_append_left _ member
  have old {q : Nat} (member : q ∈ created ++ [p]) (other : q ≠ p) : q ∈ created :=
    (List.mem_append.mp member).resolve_right (by simpa using other)
  refine ⟨fun q member => more (h.tasks q member),
    fun q member => more (h.terminatedTasks q member),
    fun q member => more (h.curTask q member), fun q alive r member => ?_,
    fun q alive pid r member => ?_⟩
  · rw [Sched.next, setTask_task] at member
    split at member
    · rw [unlinked] at member
      cases member
    · next other => exact more (h.next q (old alive other) r member)
  · rw [Sched.pid, setTask_task] at pid
    rw [Sched.prev, setTask_task] at member
    split at member
    · exact more (behind r member)
    · next other =>
        rw [if_neg other] at pid
        exact more (h.prev q (old alive other) pid r member)

theorem Closed.push (h : s.Closed created) (others : s.tasks ≠ none) {p fuel : Nat}
    (new : p ∉ created) {t : Task} (unlinked : t.next = none)
    (pushed : (s.setTask p (fun _ => t)).mtPushTask fuel (some p) = some s')
    : s'.Closed (created ++ [p]) ∧ s'.tasks = s.tasks := by
  obtain ⟨first, start⟩ := Option.ne_none_iff_exists'.mp others
  rw [Sched.mtPushTask, setTask_tasks, start] at pushed
  obtain ⟨last, found, result⟩ := Option.bind_eq_some_iff.mp pushed
  obtain rfl := Option.some.inj result
  -- the created tasks are as before
  have other {q : Nat} (alive : q ∈ created) : q ≠ p := fun equal => new (equal ▸ alive)
  have closed : ∀ q ∈ created, ∀ r ∈ (s.setTask p (fun _ => t)).next q, r ∈ created := by
    intro q alive r member
    rw [Sched.next, setTask_task, if_neg (other alive)] at member
    exact h.next q alive r member
  obtain ⟨inside, -⟩ := Linked.last_mem closed (h.tasks first start) found
  have added := h.add (p := p) (t := { t with prev := some last }) unlinked
    (by rintro q ⟨⟩; exact inside)
  have linked := added.setTask last (f := fun t => { t with next := some p })
    (by rintro - q ⟨⟩; exact List.mem_append_right _ (List.mem_singleton_self p))
    (fun alive => added.prev last alive)
  -- the two stores are to different tasks
  have swapped : ((s.setTask p (fun _ => t)).setTask last
        (fun t => { t with next := some p })).setIfTask (some p)
        (fun t => { t with prev := some last })
      = (s.setTask p (fun _ => { t with prev := some last })).setTask last
        (fun t => { t with next := some p }) := by
    simp only [Sched.setIfTask, Sched.setTask, Function.update_self,
      Function.update_of_ne (other inside), Function.update_of_ne (other inside).symm,
      Function.update_comm (other inside), Function.update_idem]
  exact ⟨swapped ▸ linked, rfl⟩

theorem Closed.push_none (h : s.Closed created) {fuel : Nat}
    (pushed : s.mtPushTask fuel none = some s')
    : s'.Closed created ∧ s'.tasks = s.tasks := by
  rw [Sched.mtPushTask] at pushed
  split at pushed
  · next empty =>
      obtain rfl := Option.some.inj pushed
      exact ⟨⟨fun q member => (Option.not_mem_none q member).elim, h.terminatedTasks, h.curTask,
        h.next, h.prev⟩, empty.symm⟩
  · next first start =>
      obtain ⟨last, found, result⟩ := Option.bind_eq_some_iff.mp pushed
      obtain rfl := Option.some.inj result
      have stored := h.setTask last (f := fun t => { t with next := none })
        (fun _ q member => (Option.not_mem_none q member).elim) (fun inside => h.prev last inside)
      exact ⟨stored, rfl⟩

/-- A task that is created and pushed behind others, or none. -/
theorem Closed.spawned (h : s.Closed created) (others : s.tasks ≠ none) {fuel task ppid : Nat}
    (new : task ∉ created) {t : Option Nat} {s₁ : Sched}
    (made : s.ktaskCreate fuel task ppid = some (t, s₁)) (pushed : s₁.mtPushTask fuel t = some s')
    : s'.Closed (created ++ t.toList) ∧ s'.tasks = s.tasks := by
  obtain ⟨pid, parentTask, -, -, how⟩ := ktaskCreate_cases made
  have counted : Closed { s with pidCounter := pid + 1 } created :=
    ⟨h.tasks, h.terminatedTasks, h.curTask, h.next, h.prev⟩
  obtain ⟨-, rfl, rfl⟩ | ⟨-, rfl, rfl⟩ := how
  · rw [Option.toList_none, List.append_nil]
    exact counted.push_none pushed
  · exact counted.push others new rfl pushed

end Hydrangea.Sched
