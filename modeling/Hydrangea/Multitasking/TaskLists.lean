import Hydrangea.Lib.Linked
import Hydrangea.Multitasking.Scheduler
import Mathlib.Data.List.Perm.Basic

/-! The two task lists as lists of addresses, and what moving a task does to them. -/

namespace Hydrangea.Sched

-----------------------------------------------------------------------------------------
-- Field access through stores
-----------------------------------------------------------------------------------------

@[simp]
theorem setTask_task (s : Sched) (p q : Nat) (f : Task → Task)
    : (s.setTask p f).task q = if q = p then f (s.task p) else s.task q := by
  simp only [setTask, Function.update_apply]

@[simp]
theorem setTask_tasks (s : Sched) (p : Nat) (f : Task → Task)
    : (s.setTask p f).tasks = s.tasks :=
  rfl

@[simp]
theorem setTask_terminatedTasks (s : Sched) (p : Nat) (f : Task → Task)
    : (s.setTask p f).terminatedTasks = s.terminatedTasks :=
  rfl

@[simp]
theorem setIfTask_task (s : Sched) (p : Option Nat) (q : Nat) (f : Task → Task)
    : (s.setIfTask p f).task q = if p = some q then f (s.task q) else s.task q := by
  cases p with
  | none => simp [setIfTask]
  | some p =>
      rcases eq_or_ne q p with rfl | other
      · simp [setIfTask]
      · simp [setIfTask, other, other.symm]

@[simp]
theorem setIfTask_tasks (s : Sched) (p : Option Nat) (f : Task → Task)
    : (s.setIfTask p f).tasks = s.tasks := by
  cases p <;> rfl

@[simp]
theorem setIfTask_terminatedTasks (s : Sched) (p : Option Nat) (f : Task → Task)
    : (s.setIfTask p f).terminatedTasks = s.terminatedTasks := by
  cases p <;> rfl

abbrev pid (s : Sched) (p : Nat) : Nat :=
  (s.task p).pid

abbrev ppid (s : Sched) (p : Nat) : Nat :=
  (s.task p).ppid

/-- Both states hold the same tasks, apart from their links, and the same globals, apart from
`terminated_tasks`.
-/
structure SameTasks (s s' : Sched) : Prop where
  pid : ∀ p, (s'.task p).pid = (s.task p).pid
  ppid : ∀ p, (s'.task p).ppid = (s.task p).ppid
  state : ∀ p, (s'.task p).state = (s.task p).state
  tasks : s'.tasks = s.tasks
  curTask : s'.curTask = s.curTask
  fgTask : s'.fgTask = s.fgTask
  mtEnabled : s'.mtEnabled = s.mtEnabled
  pidCounter : s'.pidCounter = s.pidCounter

/-- Every state holds the same tasks as itself. -/
theorem SameTasks.refl (s : Sched) : s.SameTasks s := by
  constructor <;> intros <;> rfl

theorem SameTasks.trans {s s' s'' : Sched} (h : s.SameTasks s') (h' : s'.SameTasks s'')
    : s.SameTasks s'' where
  pid p := (h'.pid p).trans (h.pid p)
  ppid p := (h'.ppid p).trans (h.ppid p)
  state p := (h'.state p).trans (h.state p)
  tasks := h'.tasks.trans h.tasks
  curTask := h'.curTask.trans h.curTask
  fgTask := h'.fgTask.trans h.fgTask
  mtEnabled := h'.mtEnabled.trans h.mtEnabled
  pidCounter := h'.pidCounter.trans h.pidCounter

-----------------------------------------------------------------------------------------
-- The lists
-----------------------------------------------------------------------------------------

/-- `tasks` runs through the tasks `live` and `terminated_tasks` through the tasks `dead`,
both doubly linked and without a task in common. The first live task, `kernel_idle`, is its
own parent and has pid 0, which no other task has.
-/
structure View (s : Sched) (live dead : List Nat) : Prop where
  tasks : Linked.Doubly s.next s.prev s.tasks live
  terminatedTasks : Linked.Doubly s.next s.prev s.terminatedTasks dead
  apart : List.Disjoint live dead
  idle : ∃ p ∈ live.head?, (s.task p).pid = 0 ∧ (s.task p).ppid = 0
  others : ∀ p, p ∈ live.tail ∨ p ∈ dead → (s.task p).pid ≠ 0

/-- A live task other than the first one has a pid that is not 0. -/
theorem View.pid_ne_zero {s : Sched} {front back dead : List Nat} {w p : Nat}
    (h : s.View (front ++ w :: p :: back) dead)
    : (s.task p).pid ≠ 0 := by
  refine h.others p (Or.inl ?_)
  cases front <;> simp

/-- A live task whose pid is not 0 has a task before it. -/
theorem View.split {s : Sched} {live dead : List Nat} (h : s.View live dead) {p : Nat}
    (member : p ∈ live) (pid : (s.task p).pid ≠ 0)
    : ∃ front w back, live = front ++ w :: p :: back := by
  obtain ⟨pre, back, rfl⟩ := List.append_of_mem member
  rcases List.eq_nil_or_concat' pre with rfl | ⟨front, w, rfl⟩
  · obtain ⟨q, first, zero, -⟩ := h.idle
    obtain rfl : p = q := by simpa using first
    exact absurd zero pid
  · exact ⟨front, w, back, by simp⟩

/-- A live task whose parent's pid is not 0 has a pid that is not 0. -/
theorem View.pid_of_ppid {s : Sched} {live dead : List Nat} (h : s.View live dead) {p : Nat}
    (member : p ∈ live) (ppid : (s.task p).ppid ≠ 0)
    : (s.task p).pid ≠ 0 := by
  obtain ⟨q, first, -, zero⟩ := h.idle
  cases live with
  | nil => cases member
  | cons r live =>
      obtain rfl : r = q := by simpa using first
      rcases List.mem_cons.mp member with rfl | later
      · exact absurd zero ppid
      · exact h.others p (Or.inl later)

/-- The lists are determined by the state. -/
theorem View.unique {s : Sched} {live dead live' dead' : List Nat} (h : s.View live dead)
    (h' : s.View live' dead')
    : live' = live ∧ dead' = dead :=
  ⟨h'.tasks.chain.unique h.tasks.chain, h'.terminatedTasks.chain.unique h.terminatedTasks.chain⟩

-----------------------------------------------------------------------------------------
-- Moving a task
-----------------------------------------------------------------------------------------

/-- The store into the predecessor leaves the links of the task itself as they are. -/
theorem unlinkTask_eq (s : Sched) (t : Nat)
    : s.unlinkTask t
      = (s.setIfTask (s.prev t) (fun b => { b with next := s.next t })).setIfTask (s.next t)
          (fun a => { a with prev := s.prev t }) := by
  have kept : (s.setIfTask (s.task t).prev (fun b => { b with next := (s.task t).next })).task t
      = s.task t := by
    rw [setIfTask_task]
    split <;> rfl
  simp only [unlinkTask, kept]

/-- Unlinking a task hands its successor to its predecessor. -/
theorem unlinkTask_next (s : Sched) (t q : Nat)
    : (s.unlinkTask t).next q = if s.prev t = some q then s.next t else s.next q := by
  simp only [unlinkTask_eq, next, setIfTask_task]
  split <;> split <;> rfl

/-- Unlinking a task hands its predecessor to its successor. -/
theorem unlinkTask_prev (s : Sched) (t q : Nat)
    : (s.unlinkTask t).prev q = if s.next t = some q then s.prev t else s.prev q := by
  simp only [unlinkTask_eq, prev, setIfTask_task]
  split <;> split <;> rfl

/-- A task pushed onto `terminated_tasks` points at the old first task. -/
theorem pushTerminated_next (s : Sched) (t q : Nat)
    : (s.pushTerminated t).next q = if q = t then s.terminatedTasks else s.next q := by
  unfold pushTerminated
  cases first : s.terminatedTasks with
  | none =>
      simp only [next, setTask_task]
      split <;> rfl
  | some f =>
      simp only [next, setTask_task]
      split <;> split <;> simp_all

/-- The old first task points back at the task pushed; the tasks behind it keep their
`prev`.
-/
theorem pushTerminated_prev (s : Sched) (t q : Nat)
    : (s.pushTerminated t).prev q
      = if s.terminatedTasks = some q then some t
        else if s.terminatedTasks = none ∧ q = t then none else s.prev q := by
  unfold pushTerminated
  cases first : s.terminatedTasks with
  | none =>
      simp only [prev, setTask_task]
      split <;> simp_all
  | some f =>
      rcases eq_or_ne q f with rfl | other
      · simp [prev]
      · simp only [prev, setTask_task, if_neg other]
        split <;> simp_all [eq_comm]

/-- A store into a link leaves the same tasks. -/
theorem SameTasks.setTask (s : Sched) (p : Nat) {f : Task → Task}
    (links : ∀ t, (f t).pid = t.pid ∧ (f t).ppid = t.ppid ∧ (f t).state = t.state)
    : s.SameTasks (s.setTask p f) := by
  constructor
  all_goals try intro q
  case pid | ppid | state =>
    rw [setTask_task]
    rcases eq_or_ne q p with rfl | other
    · simp [links]
    · simp [other]
  all_goals rfl

/-- Moving a task changes links only. -/
theorem moveToTerminated_same (s : Sched) (t : Nat) : s.SameTasks (s.moveToTerminated t) := by
  have optional (s : Sched) (p : Option Nat) (f : Task → Task)
      (links : ∀ t, (f t).pid = t.pid ∧ (f t).ppid = t.ppid ∧ (f t).state = t.state)
      : s.SameTasks (s.setIfTask p f) := by
    cases p with
    | none => exact .refl s
    | some p => exact .setTask s p links
  have unlinked : s.SameTasks (s.unlinkTask t) :=
    (optional s _ _ (by simp)).trans (optional _ _ _ (by simp))
  refine unlinked.trans ?_
  rw [moveToTerminated, pushTerminated]
  cases (s.unlinkTask t).terminatedTasks with
  | none =>
      have h : (s.unlinkTask t).SameTasks ((s.unlinkTask t).setTask t
          (fun t => { t with next := none, prev := none })) :=
        .setTask _ t (by simp)
      exact ⟨h.pid, h.ppid, h.state, h.tasks, h.curTask, h.fgTask, h.mtEnabled, h.pidCounter⟩
  | some first =>
      have h : (s.unlinkTask t).SameTasks (((s.unlinkTask t).setTask t
          (fun t => { t with next := some first })).setTask first
            (fun f => { f with prev := some t })) :=
        (SameTasks.setTask _ t (by simp)).trans (.setTask _ first (by simp))
      exact ⟨h.pid, h.ppid, h.state, h.tasks, h.curTask, h.fgTask, h.mtEnabled, h.pidCounter⟩

@[simp]
theorem unlinkTask_tasks (s : Sched) (t : Nat) : (s.unlinkTask t).tasks = s.tasks := by
  simp [unlinkTask]

@[simp]
theorem unlinkTask_terminatedTasks (s : Sched) (t : Nat)
    : (s.unlinkTask t).terminatedTasks = s.terminatedTasks := by
  simp [unlinkTask]

@[simp]
theorem pushTerminated_tasks (s : Sched) (t : Nat) : (s.pushTerminated t).tasks = s.tasks := by
  unfold pushTerminated
  cases s.terminatedTasks <;> rfl

@[simp]
theorem pushTerminated_terminatedTasks (s : Sched) (t : Nat)
    : (s.pushTerminated t).terminatedTasks = some t := by
  unfold pushTerminated
  cases s.terminatedTasks <;> rfl

theorem unlinkTask_list {s : Sched} {start : Option Nat} {front back : List Nat} {w t : Nat}
    (h : Linked.Doubly s.next s.prev start (front ++ w :: t :: back))
    : Linked.Doubly (s.unlinkTask t).next (s.unlinkTask t).prev start (front ++ w :: back) := by
  have before : s.prev t = some w := h.prev_eq
  have cells : Linked.Chain s.next start ((front ++ [w]) ++ t :: back) := by
    simpa using h.chain
  have after : s.next t = back.head? := cells.next_eq
  have nodup := h.chain.nodup
  obtain ⟨frontNodup, restNodup, frontApart⟩ := List.nodup_append.mp nodup
  obtain ⟨wRest, restNodup⟩ := List.nodup_cons.mp restNodup
  obtain ⟨tBack, backNodup⟩ := List.nodup_cons.mp restNodup
  refine h.unlink ?_ ?_ ?_ ?_
  · rw [unlinkTask_next, if_pos before]
  · intro y member
    have notW : w ≠ y := by
      rintro rfl
      rcases member with inFront | inBack
      · exact frontApart w inFront w (by simp) rfl
      · exact wRest (by simp [inBack])
    rw [unlinkTask_next, before, if_neg (by simpa using notW)]
  · intro y first
    rw [unlinkTask_prev, after, if_pos (Option.mem_def.mp first), before]
  · intro y member
    have notFirst : back.head? ≠ some y := by
      intro first
      have inBack : y ∈ back := List.mem_of_mem_head? first
      rcases member with inFront | rfl | inTail
      · exact frontApart y inFront y (by simp [inBack]) rfl
      · exact wRest (by simp [inBack])
      · cases back with
        | nil => cases inTail
        | cons r back =>
            obtain rfl : r = y := by simpa using first
            exact (List.nodup_cons.mp backNodup).1 inTail
    rw [unlinkTask_prev, after, if_neg notFirst]

/-- Unlinking a task from one list leaves the other list as it is. -/
theorem unlinkTask_other {s : Sched} {start start' : Option Nat} {front back xs : List Nat}
    {w t : Nat} (h : Linked.Doubly s.next s.prev start (front ++ w :: t :: back))
    (other : Linked.Doubly s.next s.prev start' xs)
    (apart : List.Disjoint (front ++ w :: t :: back) xs)
    : Linked.Doubly (s.unlinkTask t).next (s.unlinkTask t).prev start' xs := by
  have before : s.prev t = some w := h.prev_eq
  have cells : Linked.Chain s.next start ((front ++ [w]) ++ t :: back) := by
    simpa using h.chain
  have after : s.next t = back.head? := cells.next_eq
  refine other.congr (fun y member => ?_) (fun y member => ?_)
  · have notW : w ≠ y := by
      rintro rfl
      exact apart (by simp) member
    rw [unlinkTask_next, before, if_neg (by simpa using notW)]
  · have notFirst : back.head? ≠ some y := by
      intro first
      have inBack : y ∈ back := List.mem_of_mem_head? first
      exact apart (by simp [inBack]) member
    rw [unlinkTask_prev, after, if_neg notFirst]

/-- Pushing a task onto `terminated_tasks` gives the list with that task in front. -/
theorem pushTerminated_list {s : Sched} {dead : List Nat} {t : Nat}
    (h : Linked.Doubly s.next s.prev s.terminatedTasks dead) (new : t ∉ dead)
    : Linked.Doubly (s.pushTerminated t).next (s.pushTerminated t).prev
        (s.pushTerminated t).terminatedTasks (t :: dead) := by
  have start : s.terminatedTasks = dead.head? := h.chain.head
  rw [pushTerminated_terminatedTasks]
  refine h.push_front ?_ ?_ ?_ ?_
  · rw [pushTerminated_next, if_pos rfl]
  · intro y first
    rw [pushTerminated_prev, start, if_pos (Option.mem_def.mp first)]
  · intro y member
    have other : y ≠ t := fun same => new (same ▸ member)
    rw [pushTerminated_next, if_neg other]
  · intro y member
    have other : y ≠ t := fun same => new (same ▸ List.mem_of_mem_tail member)
    have notFirst : s.terminatedTasks ≠ some y := by
      intro first
      cases dead with
      | nil => cases member
      | cons r dead =>
          obtain rfl : r = y := by simpa [start] using first
          exact (List.nodup_cons.mp h.chain.nodup).1 member
    rw [pushTerminated_prev, if_neg notFirst, if_neg (fun both => other both.2)]

/-- Pushing a task onto `terminated_tasks` leaves a list without it and without the old first
task as it is.
-/
theorem pushTerminated_other {s : Sched} {start : Option Nat} {xs : List Nat} {t : Nat}
    (h : Linked.Doubly s.next s.prev start xs) (new : t ∉ xs)
    (apart : ∀ y ∈ xs, s.terminatedTasks ≠ some y)
    : Linked.Doubly (s.pushTerminated t).next (s.pushTerminated t).prev start xs := by
  refine h.congr (fun y member => ?_) (fun y member => ?_)
  · have other : y ≠ t := fun same => new (same ▸ member)
    rw [pushTerminated_next, if_neg other]
  · have other : y ≠ t := fun same => new (same ▸ member)
    rw [pushTerminated_prev, if_neg (apart y member), if_neg (fun both => other both.2)]

/-- Moving a live task takes it off `tasks` and puts it in front of the terminated ones. -/
theorem View.move_live {s : Sched} {front back dead : List Nat} {w t : Nat}
    (h : s.View (front ++ w :: t :: back) dead)
    : (s.moveToTerminated t).View (front ++ w :: back) (t :: dead) := by
  have same := moveToTerminated_same s t
  have nodup := h.tasks.chain.nodup
  have gone : t ∉ front ++ w :: back := by
    have perm : (front ++ w :: t :: back).Perm (t :: (front ++ w :: back)) := by
      refine List.Perm.trans ?_ List.perm_middle
      exact List.Perm.append_left front (List.Perm.swap t w back)
    exact (List.nodup_cons.mp (perm.nodup_iff.mp nodup)).1
  have fresh : t ∉ dead := h.apart (by simp)
  have part : front ++ w :: back ⊆ front ++ w :: t :: back := by
    intro p member
    simp only [List.mem_append, List.mem_cons] at member ⊢
    tauto
  refine ⟨?_, ?_, ?_, ?_, ?_⟩
  · rw [moveToTerminated, pushTerminated_tasks, unlinkTask_tasks]
    refine pushTerminated_other (unlinkTask_list h.tasks) gone ?_
    intro y member first
    rw [unlinkTask_terminatedTasks, h.terminatedTasks.chain.head] at first
    exact h.apart (part member) (List.mem_of_mem_head? first)
  · refine pushTerminated_list ?_ fresh
    rw [unlinkTask_terminatedTasks]
    exact unlinkTask_other h.tasks h.terminatedTasks h.apart
  · intro p live moved
    rcases List.mem_cons.mp moved with rfl | old
    · exact gone live
    · exact h.apart (part live) old
  · obtain ⟨p, first, pid, ppid⟩ := h.idle
    refine ⟨p, ?_, (same.pid p).trans pid, (same.ppid p).trans ppid⟩
    cases front <;> simpa using first
  · intro p member
    rw [same.pid]
    rcases member with live | moved
    · refine h.others p (Or.inl ?_)
      cases front with
      | nil => simpa using Or.inr live
      | cons r front =>
          simp only [List.cons_append, List.tail_cons, List.mem_append, List.mem_cons] at live ⊢
          tauto
    · rcases List.mem_cons.mp moved with rfl | old
      · exact h.pid_ne_zero
      · exact h.others p (Or.inr old)

/-- Moving a terminated task other than the first one puts it in front. -/
theorem View.move_dead {s : Sched} {live front back : List Nat} {w t : Nat}
    (h : s.View live (front ++ w :: t :: back))
    : (s.moveToTerminated t).View live (t :: (front ++ w :: back)) := by
  have same := moveToTerminated_same s t
  have nodup := h.terminatedTasks.chain.nodup
  have perm : (front ++ w :: t :: back).Perm (t :: (front ++ w :: back)) := by
    refine List.Perm.trans ?_ List.perm_middle
    exact List.Perm.append_left front (List.Perm.swap t w back)
  have fresh : t ∉ front ++ w :: back :=
    (List.nodup_cons.mp (perm.nodup_iff.mp nodup)).1
  refine ⟨?_, ?_, ?_, ?_, ?_⟩
  · rw [moveToTerminated, pushTerminated_tasks, unlinkTask_tasks]
    refine pushTerminated_other
      (unlinkTask_other h.terminatedTasks h.tasks (fun p dead live => h.apart live dead)) ?_ ?_
    · exact fun member => h.apart member (by simp)
    · intro y member first
      rw [unlinkTask_terminatedTasks, h.terminatedTasks.chain.head] at first
      exact h.apart member (List.mem_of_mem_head? first)
  · refine pushTerminated_list ?_ fresh
    rw [unlinkTask_terminatedTasks]
    exact unlinkTask_list h.terminatedTasks
  · intro p member moved
    exact h.apart member (perm.mem_iff.mpr moved)
  · obtain ⟨p, first, pid, ppid⟩ := h.idle
    exact ⟨p, first, (same.pid p).trans pid, (same.ppid p).trans ppid⟩
  · intro p member
    rw [same.pid]
    rcases member with live | moved
    · exact h.others p (Or.inl live)
    · exact h.others p (Or.inr (perm.mem_iff.mpr moved))

end Hydrangea.Sched
