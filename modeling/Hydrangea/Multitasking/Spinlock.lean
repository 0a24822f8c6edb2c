import Hydrangea.Lib.Transition
import Mathlib.Logic.Function.Basic
import Mathlib.Tactic

/-! The spinlock of `kernel/multitasking/spinlock.s`, one machine instruction a step.
Tasks run on one processor: an interrupt can switch to another task whenever the running one
has interrupts enabled.
-/

namespace Hydrangea.Spinlock

/-- The next instruction of a task: outside the routines, in `spinlock_acquire` from its
`cli` to its `ret`, in the critical section, or in `spinlock_release`. Several instructions
of one kind are told apart by the label they stand under.
-/
inductive Pc where
  | outside
  | acquireCli
  | acquirePush
  | acquireMov
  | acquireBts
  | acquireJnc
  | spinSti
  | spinPause
  | spinBt
  | spinJc
  | spinCli
  | spinBts
  | spinJnc
  | donePop
  | doneSti
  | doneRet
  | critical
  | releaseCli
  | releaseMov
  | releaseStore
  | releaseSti
  | releaseRet
  deriving DecidableEq

/-- What a task keeps across a switch: its program counter and the two flags that matter. -/
structure Task where
  pc : Pc
  carry : Bool
  interrupts : Bool

def Task.exec (t : Task) (lock : Bool) : Task × Bool :=
  match t.pc with
  | .outside => ({ t with pc := .acquireCli }, lock)
  | .acquireCli => ({ t with pc := .acquirePush, interrupts := false }, lock)
  | .acquirePush => ({ t with pc := .acquireMov }, lock)
  | .acquireMov => ({ t with pc := .acquireBts }, lock)
  | .acquireBts => ({ t with pc := .acquireJnc, carry := lock }, true)
  | .acquireJnc => ({ t with pc := if t.carry then .spinSti else .donePop }, lock)
  | .spinSti => ({ t with pc := .spinPause, interrupts := true }, lock)
  | .spinPause => ({ t with pc := .spinBt }, lock)
  | .spinBt => ({ t with pc := .spinJc, carry := lock }, lock)
  | .spinJc => ({ t with pc := if t.carry then .spinSti else .spinCli }, lock)
  | .spinCli => ({ t with pc := .spinBts, interrupts := false }, lock)
  | .spinBts => ({ t with pc := .spinJnc, carry := lock }, true)
  | .spinJnc => ({ t with pc := if t.carry then .donePop else .spinSti }, lock)
  | .donePop => ({ t with pc := .doneSti }, lock)
  | .doneSti => ({ t with pc := .doneRet, interrupts := true }, lock)
  | .doneRet => ({ t with pc := .critical }, lock)
  | .critical => ({ t with pc := .releaseCli }, lock)
  | .releaseCli => ({ t with pc := .releaseMov, interrupts := false }, lock)
  | .releaseMov => ({ t with pc := .releaseStore }, lock)
  | .releaseStore => ({ t with pc := .releaseSti }, false)
  | .releaseSti => ({ t with pc := .releaseRet, interrupts := true }, lock)
  | .releaseRet => ({ t with pc := .outside }, lock)

/-- The tasks, bit 0 of the lock, and the task that runs. -/
structure State (ι : Type*) where
  task : ι → Task
  lock : Bool
  current : ι

variable {ι : Type*} [DecidableEq ι]

def State.exec (s : State ι) : State ι :=
  let (t, lock) := (s.task s.current).exec s.lock
  { s with task := Function.update s.task s.current t, lock }

/-- What happens next: an instruction of the running task, or a switch away from it. -/
inductive Label (ι : Type*) where
  | instruction
  | preempt (next : ι)

/-- One step; a switch needs the running task's interrupts enabled. -/
def State.step (s : State ι) : Label ι → Option (State ι)
  | .instruction => some s.exec
  | .preempt next =>
      if (s.task s.current).interrupts then some { s with current := next } else none

/-- Any number of tasks around one lock, which is free at first. -/
def system (ι : Type*) [DecidableEq ι] : TransitionSystem (State ι) (Label ι) where
  init s := s.lock = false ∧ ∀ i, (s.task i).pc = .outside ∧ (s.task i).interrupts = true
  step s label s' := s.step label = some s'

/-- The task has returned from its acquire and not started its release. -/
def Task.Inside (t : Task) : Prop :=
  t.pc = .critical ∨ t.pc = .releaseCli

def State.Exclusive (s : State ι) : Prop :=
  ∀ i j, (s.task i).Inside → (s.task j).Inside → i = j

/-- The running task is at the `lock bts` that ends its acquire: the jump behind it leads to
`done`.
-/
def State.EndsAcquire (s : State ι) : Prop :=
  ((s.task s.current).pc = .acquireBts ∨ (s.task s.current).pc = .spinBts)
    ∧ (s.exec.exec.task s.current).pc = .donePop

/-- An instruction that ends an acquire changes the lock from free to taken. -/
def State.Wins (s : State ι) : Label ι → Prop
  | .instruction => s.EndsAcquire → s.lock = false ∧ s.exec.lock = true
  | .preempt _ => True

/-- The `lock bts` of the spin path is executed on a free lock only. -/
def State.SpinsOnFree (s : State ι) : Label ι → Prop
  | .instruction => (s.task s.current).pc = .spinBts → s.lock = false
  | .preempt _ => True

-----------------------------------------------------------------------------------------
-- One instruction
-----------------------------------------------------------------------------------------

/-- The task owns the lock: its acquire has won it, or will return without trying again. -/
def Task.holds (t : Task) : Bool :=
  match t.pc with
  | .acquireJnc => !t.carry
  | .spinJnc => t.carry
  | .donePop | .doneSti | .doneRet | .critical | .releaseCli | .releaseMov
  | .releaseStore => true
  | _ => false

theorem Task.Inside.holds {t : Task} (h : t.Inside) : t.holds = true := by
  rcases h with inside | inside <;> simp [Task.holds, inside]

/-- An instruction makes its task an owner only by taking a free lock, unless it is the
`lock bts` of the spin path on a taken lock.
-/
theorem Task.holds_exec {t : Task} {lock : Bool} (free : t.pc = .spinBts → lock = false)
    (after : (t.exec lock).1.holds = true)
    : t.holds = true ∨ lock = false ∧ (t.exec lock).2 = true := by
  obtain ⟨pc, carry, interrupts⟩ := t
  cases pc <;> cases carry <;> cases lock <;> simp_all [Task.exec, Task.holds]

/-- The lock of an owner stays taken as long as the owner keeps it. -/
theorem Task.lock_exec {t : Task} {lock : Bool} (before : t.holds = true)
    (after : (t.exec lock).1.holds = true)
    : (t.exec lock).2 = lock := by
  obtain ⟨pc, carry, interrupts⟩ := t
  cases pc <;> simp_all [Task.exec, Task.holds]

/-- Only an owner frees the lock. -/
theorem Task.free_exec {t : Task} {lock : Bool} (other : t.holds = false) (taken : lock = true)
    : (t.exec lock).2 = true := by
  obtain ⟨pc, carry, interrupts⟩ := t
  cases pc <;> simp_all [Task.exec, Task.holds]

@[simp]
theorem State.exec_current (s : State ι) : s.exec.current = s.current :=
  rfl

@[simp]
theorem State.exec_lock (s : State ι)
    : s.exec.lock = ((s.task s.current).exec s.lock).2 :=
  rfl

@[simp]
theorem State.exec_task (s : State ι) (i : ι)
    : s.exec.task i
      = if i = s.current then ((s.task s.current).exec s.lock).1 else s.task i := by
  simp only [exec, Function.update_apply]

-----------------------------------------------------------------------------------------
-- Whole runs
-----------------------------------------------------------------------------------------

instance (s : State ι) (label : Label ι) : Decidable (s.SpinsOnFree label) :=
  match label with
  | .instruction => inferInstanceAs (Decidable (_ → _))
  | .preempt _ => inferInstanceAs (Decidable True)

/-- A task that owns the lock is the only one, and the lock is taken. -/
structure State.Owned (s : State ι) : Prop where
  taken : ∀ i, (s.task i).holds = true → s.lock = true
  unique : ∀ i j, (s.task i).holds = true → (s.task j).holds = true → i = j

omit [DecidableEq ι] in
theorem State.Owned.exclusive {s : State ι} (h : s.Owned) : s.Exclusive :=
  fun i j first second => h.unique i j first.holds second.holds

/-- An instruction keeps ownership, by cases on whose ownership it may have changed. -/
theorem State.Owned.exec {s : State ι} (h : s.Owned)
    (free : (s.task s.current).pc = .spinBts → s.lock = false)
    : s.exec.Owned := by
  -- what the running task owns afterwards it owned before, or the lock was free
  have became (after : ((s.task s.current).exec s.lock).1.holds = true)
      : (s.task s.current).holds = true
        ∨ s.lock = false ∧ ((s.task s.current).exec s.lock).2 = true :=
    Task.holds_exec free after
  have alone {j : ι} (other : j ≠ s.current) (holds : (s.task j).holds = true)
      : (s.task s.current).holds = false := by
    cases current : (s.task s.current).holds with
    | false => rfl
    | true => exact absurd (h.unique j s.current holds current) other
  have excluded {j : ι} (other : j ≠ s.current) (holds : (s.task j).holds = true)
      : ((s.task s.current).exec s.lock).1.holds = false := by
    cases after : ((s.task s.current).exec s.lock).1.holds with
    | false => rfl
    | true =>
        rcases became after with before | ⟨lock, -⟩
        · simp [alone other holds] at before
        · simp [h.taken j holds] at lock
  constructor
  · intro i holds
    rw [exec_task] at holds
    rw [exec_lock]
    split at holds
    · rcases became holds with before | ⟨-, lock⟩
      · rw [Task.lock_exec before holds]
        exact h.taken s.current before
      · exact lock
    · rename_i other
      exact Task.free_exec (alone other holds) (h.taken i holds)
  · intro i j first second
    rw [exec_task] at first second
    split at first <;> split at second
    · simp_all
    · rename_i other
      simp [excluded other second] at first
    · rename_i other _
      simp [excluded other first] at second
    · exact h.unique i j first second

/-- Ownership holds throughout the runs that meet the condition, by induction on the run. -/
theorem State.Owned.reachable {s : State ι}
    (reached : ((system ι).restrict State.SpinsOnFree).Reachable s)
    : s.Owned := by
  refine reached.invariant ?_ ?_
  · intro s ⟨_, start⟩
    constructor
    · intro i holds
      simp [Task.holds, (start i).1] at holds
    · intro i j holds
      simp [Task.holds, (start i).1] at holds
  · intro s label s' owned ⟨free, taken⟩
    cases label with
    | instruction =>
        obtain rfl : s.exec = s' := Option.some.inj taken
        exact owned.exec free
    | preempt next =>
        simp only [system, State.step] at taken
        split at taken
        · obtain rfl := Option.some.inj taken
          exact ⟨owned.taken, owned.unique⟩
        · cases taken

/-- The fast path ends an acquire on a free lock only, the spin path on a taken one only. -/
theorem State.endsAcquire_iff {s : State ι}
    : s.EndsAcquire
      ↔ (s.task s.current).pc = .acquireBts ∧ s.lock = false
        ∨ (s.task s.current).pc = .spinBts ∧ s.lock = true := by
  obtain ⟨task, lock, current⟩ := s
  simp only [EndsAcquire, exec_task, exec_current, exec_lock, if_true]
  generalize task current = t
  obtain ⟨pc, carry, interrupts⟩ := t
  cases pc <;> cases lock <;> simp [Task.exec]

/-- An instruction wins the lock whenever it ends an acquire, exactly if it is not the
`lock bts` of the spin path on a taken lock.
-/
theorem State.wins_iff {s : State ι} {label : Label ι} : s.Wins label ↔ s.SpinsOnFree label := by
  cases label with
  | preempt next => rfl
  | instruction =>
      simp only [Wins, SpinsOnFree, endsAcquire_iff, exec_lock]
      generalize s.task s.current = t
      obtain ⟨pc, carry, interrupts⟩ := t
      cases pc <;> cases s.lock <;> simp [Task.exec]

/-- A run excludes tasks from each other throughout and ends every acquire by winning the lock,
exactly if each `lock bts` of the spin path in it finds the lock free. The jump behind that `lock
bts` is the wrong way round: a task that finds the lock taken there goes on as if it had won.
Without such a step the owner of the lock is the only task inside, which is the invariant.
-/
theorem run_excludes_iff {s : State ι} {steps : List (State ι × Label ι)}
    (run : (system ι).Run s steps)
    : (s.Exclusive ∧ ∀ taken ∈ steps, taken.1.Exclusive ∧ taken.1.Wins taken.2)
      ↔ ∀ taken ∈ steps, taken.1.SpinsOnFree taken.2 := by
  constructor
  · intro ⟨_, sound⟩ taken member
    exact State.wins_iff.mp (sound taken member).2
  · intro meets
    refine ⟨(State.Owned.reachable (run.restrict meets)).exclusive, ?_⟩
    intro taken member
    obtain ⟨earlier, before, part⟩ := run.before member
    have owned := State.Owned.reachable (before.restrict (fun step old => meets step (part old)))
    exact ⟨owned.exclusive, State.wins_iff.mpr (meets taken member)⟩

/-- Two tasks outside the routines, the first one running. -/
def twoTasks : State (Fin 2) where
  task _ := ⟨.outside, false, true⟩
  lock := false
  current := 0

theorem played_run {labels : List (Label (Fin 2))}
    {r : State (Fin 2) × List (State (Fin 2) × Label (Fin 2))}
    (played : TransitionSystem.play State.step twoTasks labels = some r)
    : (system (Fin 2)).Run r.1 r.2 := by
  have sound (s : State (Fin 2)) (label : Label (Fin 2)) (s' : State (Fin 2)) (_ : True)
      (taken : s.step label = some s')
      : (system (Fin 2)).step s label s' ∧ True :=
    ⟨taken, trivial⟩
  exact (TransitionSystem.Run.of_play sound ⟨rfl, fun _ => ⟨rfl, rfl⟩⟩ trivial played).1

/-- The first task takes the lock, the second one spins, the first one releases the lock and
the second one sees it free, latest step first.
-/
def seenFree : List (Label (Fin 2)) :=
  List.replicate 2 .instruction ++ [.preempt 1]
    ++ List.replicate 6 .instruction ++ [.preempt 0]
    ++ List.replicate 8 .instruction ++ [.preempt 1]
    ++ List.replicate 9 .instruction

/-- When the lock is still free at its `lock bts`, the second task returns to the spin. -/
theorem run_excludes_spinning
    : ∃ s steps,
        TransitionSystem.play State.step twoTasks (List.replicate 3 .instruction ++ seenFree)
          = some (s, steps)
        ∧ (s.task 1).pc = .spinSti
        ∧ s.Exclusive ∧ ∀ taken ∈ steps, taken.1.Exclusive ∧ taken.1.Wins taken.2 := by
  have returns : (TransitionSystem.play State.step twoTasks
      (List.replicate 3 .instruction ++ seenFree)).isSome = true := by
    decide +kernel
  obtain ⟨⟨s, steps⟩, played⟩ := Option.isSome_iff_exists.mp returns
  have spins : ∀ r ∈ TransitionSystem.play State.step twoTasks
      (List.replicate 3 .instruction ++ seenFree),
      (r.1.task 1).pc = .spinSti ∧ ∀ taken ∈ r.2, taken.1.SpinsOnFree taken.2 := by
    decide +kernel
  have run := played_run played
  obtain ⟨spinning, free⟩ := spins (s, steps) (Option.mem_def.mpr played)
  exact ⟨s, steps, played, spinning, (run_excludes_iff run).mpr free⟩

/-- Behind this the first task takes the lock again, and the second one goes on, latest step
first.
-/
def takenAgain : List (Label (Fin 2)) :=
  List.replicate 6 Label.instruction ++ [Label.preempt 1]
    ++ List.replicate 9 Label.instruction ++ [Label.preempt 0] ++ seenFree

/-- When the first task takes the lock again just before, both end up inside. -/
theorem run_not_exclusive
    : ¬ ∀ s steps, (system (Fin 2)).Run s steps →
        s.Exclusive ∧ ∀ taken ∈ steps, taken.1.Exclusive ∧ taken.1.Wins taken.2 := by
  intro sound
  have returns : (TransitionSystem.play State.step twoTasks takenAgain).isSome = true := by
    decide +kernel
  obtain ⟨⟨s, steps⟩, played⟩ := Option.isSome_iff_exists.mp returns
  have both : ∀ r ∈ TransitionSystem.play State.step twoTasks takenAgain,
      (r.1.task 0).pc = .critical ∧ (r.1.task 1).pc = .critical := by
    decide +kernel
  have run := played_run played
  have inside := both (s, steps) (Option.mem_def.mpr played)
  have same := (sound s steps run).1 0 1 (Or.inl inside.1) (Or.inl inside.2)
  cases same

end Hydrangea.Spinlock
