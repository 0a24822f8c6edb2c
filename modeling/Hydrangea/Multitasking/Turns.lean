import Hydrangea.Lib.RoundRobin
import Hydrangea.Multitasking.Pids

/-! Turns on the CPU, from `mt_init` on, while no task terminates: the ticks of `mt_schedule`,
and tasks that `mt_push_task` appends between them.
-/

namespace Hydrangea.Sched

/-- A tick, with the task it switches to, if it does, or a task that is appended. -/
inductive RoundEvent where
  | tick (next : Option Nat)
  | push (p : Nat) (t : Task)

def RoundEvent.turn : RoundEvent → Option Nat
  | .tick next => next
  | .push _ _ => none

def RoundEvent.isTick : RoundEvent → Bool
  | .tick _ => true
  | .push _ _ => false

/-- A value of `time_slice` that lasts at least one tick. -/
def IsSlice (n : Nat) : Prop :=
  1 ≤ n ∧ n < 2 ^ 32

/-- The same tasks, with other time slices, none of which has begun. -/
def withSlices (s : Sched) (slice : Nat → Nat) : Sched :=
  { s with task := fun p => { s.task p with timeSlice := slice p, timeRemaining := slice p } }

/-- One event. A task that is appended is not listed and is as `ktask_create` leaves it, but
for its time slice.
-/
def RoundStep (s : Sched) : RoundEvent → Sched → Prop
  | .tick next, s' => ∃ fuel, s.mtSchedule fuel = some (next, s')
  | .push p t, s' =>
      ¬ s.OnTasks p ∧ t.state = .rdy ∧ t.next = none ∧ IsSlice t.timeSlice
        ∧ t.timeRemaining = t.timeSlice
        ∧ ∃ fuel, (s.setTask p (fun _ => t)).mtPushTask fuel (some p) = some s'

/-- Ticks and new tasks, from `mt_init` on; its tasks may get any time slices. -/
def roundSystem : TransitionSystem Sched RoundEvent where
  init s := ∃ (s₀ s₁ : Sched) (fuel kernelIdle test cleaner : Nat) (slice : Nat → Nat),
    s₀.tasks = none ∧ s₀.terminatedTasks = none ∧ s₀.pidCounter = 0 ∧ s₀.tasksCount = 0
      ∧ [kernelIdle, test, cleaner].Nodup ∧ s₀.mtInit fuel kernelIdle test cleaner = some s₁
      ∧ (∀ p, IsSlice (slice p)) ∧ s = s₁.withSlices slice
  step := RoundStep

/-- The tasks that got the CPU, latest first. -/
def turns (steps : List (Sched × RoundEvent)) : List Nat :=
  steps.filterMap (fun taken => taken.2.turn)

def ticks (steps : List (Sched × RoundEvent)) : Nat :=
  steps.countP (fun taken => taken.2.isTick)

/-- In the steps so far, tasks have taken turns. -/
structure InTurn (steps : List (Sched × RoundEvent)) : Prop where
  /-- The tick that switches away from a task is the last one of its slice. -/
  leaves : ∀ s₂ n mid s₁ c,
    (s₂, .tick (some n)) :: mid ++ [(s₁, .tick (some c))] <:+: steps → turns mid = []
    → ticks mid + 1 = (s₁.task c).timeSlice
  /-- The CPU passes in the order of the list, and from the last task to the first. -/
  order : ∀ s₂ n, (s₂, .tick (some n)) ∈ steps → ∃ live c, Linked.Chain s₂.next s₂.tasks live
    ∧ s₂.curTask = some c ∧ RoundRobin.Follows live c n
  /-- Between two turns of a task, every other task listed at the first one gets one turn. -/
  fair : ∀ s₂ mid s₁ t,
    (s₂, .tick (some t)) :: mid ++ [(s₁, .tick (some t))] <:+: steps → t ∉ turns mid
    → ∀ u, s₁.OnTasks u → u ≠ t → (turns mid).count u = 1

/-- The steps so far, into `s`, and the next tick let tasks take turns. -/
structure TakesTurns (s : Sched) (steps : List (Sched × RoundEvent)) : Prop
    extends InTurn steps where
  /-- From the first switch on, the running task and no other one is in `TS_RUN`. -/
  running : turns steps ≠ [] → ∃ c, s.curTask = some c ∧ s.OnTasks c
    ∧ ∀ p, s.OnTasks p → ((s.task p).state = .run ↔ p = c)
  /-- No time slice has run out. -/
  remaining : ∀ p, s.OnTasks p
    → 1 ≤ (s.task p).timeRemaining ∧ (s.task p).timeRemaining ≤ (s.task p).timeSlice
  /-- Until it is switched away from, a task has had the CPU for less than its slice. -/
  keeps : ∀ mid s₁ c, mid ++ [(s₁, .tick (some c))] <+: steps → turns mid = []
    → s.curTask = some c ∧ ticks mid < (s₁.task c).timeSlice
  /-- The next tick returns. -/
  returns : ∀ fuel, ∃ next s', s.mtSchedule fuel = some (next, s')

-----------------------------------------------------------------------------------------
-- One tick
-----------------------------------------------------------------------------------------

/-- The tasks `live` are listed and `c` of them is running; none of them has finished. -/
structure Rounds (s : Sched) (live : List Nat) (c : Nat) : Prop where
  chain : Linked.Chain s.next s.tasks live
  current : s.curTask = some c
  listed : c ∈ live
  two : 2 ≤ live.length
  enabled : s.mtEnabled = true
  count : s.tasksCount = 0
  slice : ∀ p ∈ live, IsSlice (s.task p).timeSlice
  fresh : ∀ p ∈ live, p ≠ c → (s.task p).timeRemaining = (s.task p).timeSlice
  left : 1 ≤ (s.task c).timeRemaining ∧ (s.task c).timeRemaining ≤ (s.task c).timeSlice
  waiting : ∀ p ∈ live, p ≠ c → (s.task p).state = .rdy ∨ (s.task p).state = .sus
  own : (s.task c).state = .rdy ∨ (s.task c).state = .run

section

variable {s s' : Sched} {live : List Nat} {c : Nat}

theorem Rounds.onTasks (h : s.Rounds live c) {p : Nat} : s.OnTasks p ↔ p ∈ live := by
  constructor
  · intro listed
    obtain ⟨live', chain, member⟩ := listed
    rwa [h.chain.unique chain]
  · exact fun member => ⟨live, h.chain, member⟩

/-- No listed task has finished. -/
theorem Rounds.unfinished (h : s.Rounds live c) {p : Nat} (member : p ∈ live)
    : (s.task p).state ≠ .fin := by
  rcases eq_or_ne p c with rfl | other
  · rcases h.own with own | own <;> simp [own]
  · rcases h.waiting p member other with state | state <;> simp [state]

def ticked (s : Sched) (c : Nat) : Sched :=
  s.setTask c (fun t => { t with timeRemaining := t.timeRemaining - 1 })

def renewed (s : Sched) (c : Nat) : Sched :=
  s.setTask c (fun t => { t with timeRemaining := t.timeSlice })

/-- The running task `c` is suspended with a new slice, and `n` runs. -/
def switched (s : Sched) (c n : Nat) : Sched :=
  (((s.renewed c).setTask n (fun t => { t with state := .run })).setTask c
    (fun t => { t with state := .sus })).mtSwitchTask n

/-- Before a slice ends, its task stays. -/
theorem Rounds.mtSchedule_stays (h : s.Rounds live c) (run : (s.task c).state = .run)
    (more : 1 < (s.task c).timeRemaining) (fuel : Nat)
    : s.mtSchedule fuel = some (none, s.ticked c) := by
  have below : (s.task c).timeRemaining < 2 ^ 32 :=
    Nat.lt_of_le_of_lt h.left.2 (h.slice c h.listed).2
  have less : ((s.task c).timeRemaining + (2 ^ 32 - 1)) % 2 ^ 32
      = (s.task c).timeRemaining - 1 := by
    omega
  have store : s.setTask c (fun t =>
      { t with timeRemaining := (t.timeRemaining + (2 ^ 32 - 1)) % 2 ^ 32 }) = s.ticked c := by
    simp only [ticked, setTask, less]
  have busy : ((s.ticked c).task c).state = .run ∧ 0 < ((s.ticked c).task c).timeRemaining := by
    simp [ticked, run, more]
  rw [Sched.mtSchedule, h.enabled, h.count, if_neg (by decide), h.current, Option.bind_eq_bind,
    Option.bind_some]
  dsimp only
  rw [store, if_pos busy]
  rfl

/-- With no finished task listed, the one after the running one is picked. -/
theorem mtPickNextTask_follows (chain : Linked.Chain s.next s.tasks live) (listed : c ∈ live)
    (unfinished : ∀ p ∈ live, (s.task p).state ≠ .fin) (fuel : Nat)
    : ∃ n, RoundRobin.Follows live c n ∧ s.mtPickNextTask fuel c = some (some n) := by
  obtain ⟨pre, post, rfl⟩ := List.append_of_mem listed
  have next : (s.task c).next = post.head? := chain.next_eq
  have first : s.tasks = (pre ++ c :: post).head? := chain.head
  cases post with
  | nil =>
      obtain ⟨n, head⟩ : ∃ n, (pre ++ [c]).head? = some n := by
        cases pre <;> simp
      refine ⟨n, ⟨pre, [], rfl, head⟩, ?_⟩
      simp only [mtPickNextTask, next, List.head?_nil, first, head]
  | cons n post =>
      refine ⟨n, ⟨pre, n :: post, rfl, rfl⟩, ?_⟩
      simp [mtPickNextTask, next, unfinished n (by simp)]

/-- At the end of a slice, and at the first tick, the next task gets the CPU. -/
theorem Rounds.mtSchedule_switches (h : s.Rounds live c)
    (ended : (s.task c).state = .run → (s.task c).timeRemaining = 1) (fuel : Nat)
    : ∃ n, RoundRobin.Follows live c n ∧ s.mtSchedule fuel = some (some n, s.switched c n) := by
  have reset : (s.setTask c (fun t =>
        { t with timeRemaining := (t.timeRemaining + (2 ^ 32 - 1)) % 2 ^ 32 })).setTask c
        (fun t => { t with timeRemaining := t.timeSlice })
      = s.renewed c := by
    simp only [renewed, setTask, Function.update_self, Function.update_idem]
  have kept (p : Nat)
      : (s.renewed c).next p = s.next p ∧ ((s.renewed c).task p).state = (s.task p).state := by
    rcases eq_or_ne p c with rfl | other
    · simp [renewed, next]
    · simp [renewed, next, other]
  have chain : Linked.Chain (s.renewed c).next (s.renewed c).tasks live :=
    h.chain.congr (fun p _ => (kept p).1)
  have unfinished : ∀ p ∈ live, ((s.renewed c).task p).state ≠ .fin := by
    intro p member
    rw [(kept p).2]
    exact h.unfinished member
  obtain ⟨n, follows, picked⟩ := mtPickNextTask_follows chain h.listed unfinished fuel
  have other : n ≠ c := follows.ne h.chain.nodup h.two
  refine ⟨n, follows, ?_⟩
  rw [Sched.mtSchedule, h.enabled, h.count, if_neg (by decide), h.current, Option.bind_eq_bind,
    Option.bind_some]
  dsimp only
  rw [if_neg ?_, reset, picked]
  · have alive : (((s.renewed c).setTask n (fun t => { t with state := .run })).task c).state
        ≠ .fin := by
      rw [setTask_task, if_neg other.symm]
      exact unfinished c h.listed
    simp only [Option.bind_eq_bind, Option.bind_some, if_pos alive]
    rfl
  · intro busy
    obtain ⟨run, more⟩ := busy
    simp only [setTask_task, if_true] at run more
    rw [ended run] at more
    exact absurd more (by decide)

/-- Every tick stays or switches. -/
theorem Rounds.mtSchedule_cases (h : s.Rounds live c) (fuel : Nat)
    : (s.task c).state = .run ∧ 1 < (s.task c).timeRemaining
        ∧ s.mtSchedule fuel = some (none, s.ticked c)
      ∨ ∃ n, RoundRobin.Follows live c n
        ∧ ((s.task c).state = .run → (s.task c).timeRemaining = 1)
        ∧ s.mtSchedule fuel = some (some n, s.switched c n) := by
  by_cases busy : (s.task c).state = .run ∧ 1 < (s.task c).timeRemaining
  · exact .inl ⟨busy.1, busy.2, h.mtSchedule_stays busy.1 busy.2 fuel⟩
  · have ended : (s.task c).state = .run → (s.task c).timeRemaining = 1 := by
      intro run
      apply Nat.le_antisymm ?_ h.left.1
      exact Nat.le_of_not_lt (fun more => busy ⟨run, more⟩)
    obtain ⟨n, follows, switches⟩ := h.mtSchedule_switches ended fuel
    exact .inr ⟨n, follows, ended, switches⟩

theorem ticked_task (s : Sched) (c p : Nat)
    : (s.ticked c).task p = if p = c
        then { s.task c with timeRemaining := (s.task c).timeRemaining - 1 } else s.task p := by
  rw [ticked, setTask_task]

theorem switched_task (s : Sched) {c n : Nat} (other : n ≠ c) (p : Nat)
    : (s.switched c n).task p = if p = c
        then { s.task c with timeRemaining := (s.task c).timeSlice, state := .sus }
        else if p = n then { s.task n with state := .run } else s.task p := by
  rw [switched, mtSwitchTask]
  rcases eq_or_ne p c with rfl | notLeft
  · simp [renewed, other.symm]
  · rcases eq_or_ne p n with rfl | notNext
    · simp [renewed, notLeft]
    · simp [renewed, notLeft, notNext]

theorem Rounds.ticked (h : s.Rounds live c) (more : 1 < (s.task c).timeRemaining)
    : (s.ticked c).Rounds live c where
  chain := by
    refine h.chain.congr (fun p _ => ?_)
    rcases eq_or_ne p c with rfl | other
    · simp [next, ticked_task]
    · simp [next, ticked_task, other]
  current := h.current
  listed := h.listed
  two := h.two
  enabled := h.enabled
  count := h.count
  slice p member := by
    rcases eq_or_ne p c with rfl | other
    · simpa [ticked_task] using h.slice p member
    · simpa [ticked_task, other] using h.slice p member
  fresh p member other := by
    simpa [ticked_task, other] using h.fresh p member other
  left := by
    simp only [ticked_task, if_true]
    exact ⟨Nat.le_sub_one_of_lt more, Nat.le_trans (Nat.sub_le _ _) h.left.2⟩
  waiting p member other := by
    simpa [ticked_task, other] using h.waiting p member other
  own := by
    simpa [ticked_task] using h.own

/-- A switch keeps the round, which goes on with the next task. -/
theorem Rounds.switched (h : s.Rounds live c) {n : Nat} (follows : RoundRobin.Follows live c n)
    : (s.switched c n).Rounds live n := by
  have notLeft : n ≠ c := follows.ne h.chain.nodup h.two
  have same (p : Nat) : (s.switched c n).next p = s.next p
      ∧ ((s.switched c n).task p).timeSlice = (s.task p).timeSlice := by
    rw [Sched.next, switched_task s notLeft]
    split
    · next left => simp [left]
    · split
      · next right => simp [right]
      · exact ⟨rfl, rfl⟩
  refine ⟨h.chain.congr (fun p _ => (same p).1), rfl, follows.mem, h.two, h.enabled, h.count,
    ?_, ?_, ?_, ?_, ?_⟩
  · intro p member
    rw [(same p).2]
    exact h.slice p member
  · intro p member other
    rw [(same p).2, switched_task s notLeft]
    split
    · next left => rw [left]
    · next notCurrent => exact h.fresh p member notCurrent
  · rw [(same n).2, switched_task s notLeft, if_neg notLeft, if_pos rfl]
    exact ⟨(h.fresh n follows.mem notLeft).symm ▸ (h.slice n follows.mem).1,
      (h.fresh n follows.mem notLeft).le⟩
  · intro p member other
    rw [switched_task s notLeft]
    split
    · exact .inr rfl
    · next notCurrent => exact h.waiting p member notCurrent
  · rw [switched_task s notLeft, if_neg notLeft, if_pos rfl]
    exact .inr rfl

theorem mtPushTask_fields {fuel : Nat} {new : Option Nat}
    (pushed : s.mtPushTask fuel new = some s') (p : Nat)
    : (s'.task p).timeSlice = (s.task p).timeSlice
        ∧ (s'.task p).timeRemaining = (s.task p).timeRemaining
        ∧ (s'.task p).state = (s.task p).state := by
  obtain ⟨_, _, same⟩ := (mtPushTask_links pushed).2 p
  rw [same]
  exact ⟨rfl, rfl, rfl⟩

/-- A task that is appended waits for its first turn. The list grows at its end, and nothing
changes for the tasks on it.
-/
theorem Rounds.push (h : s.Rounds live c) {p : Nat} {t : Task} {fuel : Nat} (free : p ∉ live)
    (ready : t.state = .rdy) (unlinked : t.next = none) (slice : IsSlice t.timeSlice)
    (fresh : t.timeRemaining = t.timeSlice)
    (pushed : (s.setTask p (fun _ => t)).mtPushTask fuel (some p) = some s')
    : s'.Rounds (live ++ [p]) c
        ∧ (s'.task c).timeSlice = (s.task c).timeSlice
        ∧ (s'.task c).timeRemaining = (s.task c).timeRemaining
        ∧ (s'.task c).state = (s.task c).state := by
  have distinct {q : Nat} (member : q ∈ live) : q ≠ p := fun same => free (same ▸ member)
  have fields (q : Nat) := mtPushTask_fields pushed q
  have listed {q : Nat} (member : q ∈ live)
      : (s'.task q).timeSlice = (s.task q).timeSlice
        ∧ (s'.task q).timeRemaining = (s.task q).timeRemaining
        ∧ (s'.task q).state = (s.task q).state := by
    simpa [distinct member] using fields q
  have new : (s'.task p).timeSlice = t.timeSlice ∧ (s'.task p).timeRemaining = t.timeRemaining
      ∧ (s'.task p).state = t.state := by
    simpa using fields p
  -- the old last task now leads to the new one
  obtain ⟨chain, globals⟩ : Linked.Chain s'.next s'.tasks (live ++ [p])
      ∧ s'.curTask = s.curTask ∧ s'.mtEnabled = s.mtEnabled ∧ s'.tasksCount = s.tasksCount := by
    obtain ⟨first, rest, rfl⟩ := List.exists_cons_of_ne_nil (List.ne_nil_of_mem h.listed)
    have tasks : s.tasks = some first := h.chain.head
    rw [mtPushTask, setTask_tasks, tasks] at pushed
    obtain ⟨last, found, result⟩ := Option.bind_eq_some_iff.mp pushed
    obtain rfl := Option.some.inj result
    have before : Linked.Chain (s.setTask p (fun _ => t)).next (some first) (first :: rest) :=
      (tasks ▸ h.chain).congr (fun q member => by simp [next, distinct member])
    obtain ⟨front, split⟩ := Linked.last_eq_some before found
    rw [split] at distinct before
    have notLast : last ≠ p := distinct (by simp)
    refine ⟨?_, rfl, rfl, rfl⟩
    rw [split, List.append_assoc, setIfTask_tasks, setTask_tasks, setTask_tasks, tasks]
    apply before.push_last
    · simp [next, notLast.symm]
    · simp [next, notLast.symm, unlinked]
    · intro q member
      have notNew : q ≠ p := distinct (by simp [member])
      have notEnd : q ≠ last := by
        rintro rfl
        exact (List.nodup_append.mp before.nodup).2.2 q member q (by simp) rfl
      simp [next, notNew, notNew.symm, notEnd]
  refine ⟨⟨chain, globals.1.trans h.current, List.mem_append_left _ h.listed, ?_,
    globals.2.1.trans h.enabled, globals.2.2.trans h.count, ?_, ?_, ?_, ?_, ?_⟩,
    listed h.listed⟩
  · rw [List.length_append]
    exact Nat.le_add_right_of_le h.two
  · intro q member
    rcases List.mem_append.mp member with old | added
    · rw [(listed old).1]
      exact h.slice q old
    · rw [List.mem_singleton.mp added, new.1]
      exact slice
  · intro q member other
    rcases List.mem_append.mp member with old | added
    · rw [(listed old).1, (listed old).2.1]
      exact h.fresh q old other
    · rw [List.mem_singleton.mp added, new.1, new.2.1, fresh]
  · rw [(listed h.listed).1, (listed h.listed).2.1]
    exact h.left
  · intro q member other
    rcases List.mem_append.mp member with old | added
    · rw [(listed old).2.2]
      exact h.waiting q old other
    · rw [List.mem_singleton.mp added, new.2.2]
      exact .inl ready
  · rw [(listed h.listed).2.2]
    exact h.own

-----------------------------------------------------------------------------------------
-- The first tasks
-----------------------------------------------------------------------------------------

theorem genPid_first {fuel pid : Nat} (generated : s.genPid fuel = some (pid, s'))
    : (s.pidCounter = 0 → pid = 0) ∧ s' = { s with pidCounter := pid + 1 } := by
  refine ⟨fun zero => ?_, genPid_state generated⟩
  rw [genPid, if_neg (by rw [zero]; exact Nat.not_lt_zero _)] at generated
  obtain ⟨r, chosen, result⟩ := Option.bind_eq_some_iff.mp generated
  obtain rfl := Option.some.inj chosen
  exact (Prod.mk.inj (Option.some.inj result)).1.symm.trans zero

/-- A spawn whose parent exists, and the first one, adds a task that is ready. -/
theorem mtSpawnKtask_ready {fuel task ppid : Nat}
    (parent : s.pidCounter = 0 ∨ s.mtGetTaskByPid fuel ppid ≠ some none)
    (spawned : s.mtSpawnKtask fuel task ppid = some s')
    : s'.tasksCount = s.tasksCount
        ∧ ∀ p, (s'.task p).state = if p = task then .rdy else (s.task p).state := by
  obtain ⟨⟨new, s₂⟩, created, pushed⟩ := Option.bind_eq_some_iff.mp spawned
  obtain ⟨pid, found, generated, searched, made⟩ := ktaskCreate_cases created
  have exists' : ¬ (pid ≠ 0 ∧ found = none) := by
    rintro ⟨nonzero, rfl⟩
    rcases parent with zero | known
    · exact nonzero ((genPid_first generated).1 zero)
    · exact known searched
  obtain ⟨-, rfl, rfl⟩ := made.resolve_left (fun missing => exists' missing.1)
  constructor
  · rw [(mtPushTask_links pushed).1]
    rfl
  · intro p
    rw [(mtPushTask_fields pushed p).2.2, setTask_task]
    split <;> rfl

/-- `mt_init` lists three tasks that are ready, and runs the first of them. -/
theorem mtInit_rounds {s₀ : Sched} {fuel kernelIdle test cleaner : Nat} {slice : Nat → Nat}
    (tasks : s₀.tasks = none) (terminated : s₀.terminatedTasks = none)
    (counter : s₀.pidCounter = 0) (count : s₀.tasksCount = 0)
    (nodup : [kernelIdle, test, cleaner].Nodup)
    (init : s₀.mtInit fuel kernelIdle test cleaner = some s) (slices : ∀ p, IsSlice (slice p))
    : (s.withSlices slice).Rounds [kernelIdle, test, cleaner] kernelIdle
        ∧ ((s.withSlices slice).task kernelIdle).state = .rdy := by
  obtain ⟨s₁, first, init⟩ := Option.bind_eq_some_iff.mp init
  obtain ⟨s₂, second, init⟩ := Option.bind_eq_some_iff.mp init
  obtain ⟨s₃, third, result⟩ := Option.bind_eq_some_iff.mp init
  obtain rfl := Option.some.inj result
  simp only [List.nodup_cons, List.mem_cons, List.not_mem_nil, or_false, not_or] at nodup
  obtain ⟨⟨testNew, cleanerNew⟩, distinct, -⟩ := nodup
  obtain ⟨view₁, counter₁⟩ := mtSpawnKtask_first tasks terminated counter first
  obtain ⟨count₁, state₁⟩ := mtSpawnKtask_ready (.inl counter) first
  have idle₁ : s₁.pid kernelIdle = 0 := by
    obtain ⟨p, head, zero, -⟩ := view₁.idle
    obtain rfl : kernelIdle = p := by simpa using head
    exact zero
  have parent₁ : s₁.InUse 0 := view₁.inUse.mpr ⟨kernelIdle, by simp, idle₁⟩
  have testFree : test ∉ [kernelIdle] := by simpa using Ne.symm testNew
  obtain ⟨count₂, state₂⟩ :=
    mtSpawnKtask_ready (.inr (fun missed => view₁.mtGetTaskByPid_none missed parent₁)) second
  rcases view₁.mtSpawnKtask_created (by omega) testFree (by simp) second with
    ⟨orphan, -⟩ | ⟨-, pid₂, -, -, created₂⟩
  · exact absurd parent₁ orphan
  have idle₂ : s₂.pid kernelIdle = 0 := by
    rw [created₂.pids, if_neg testNew, idle₁]
  have parent₂ : s₂.InUse 0 := created₂.view.inUse.mpr ⟨kernelIdle, by simp, idle₂⟩
  have cleanerFree : cleaner ∉ [kernelIdle] ++ [test] := by
    simpa using ⟨Ne.symm cleanerNew, Ne.symm distinct⟩
  obtain ⟨count₃, state₃⟩ :=
    mtSpawnKtask_ready
      (.inr (fun missed => created₂.view.mtGetTaskByPid_none missed parent₂)) third
  rcases created₂.view.mtSpawnKtask_created (by rw [created₂.counter]; omega) cleanerFree
    (by simp) third with ⟨orphan, -⟩ | ⟨-, pid₃, -, -, created₃⟩
  · exact absurd parent₂ orphan
  have ready : ∀ p ∈ [kernelIdle, test, cleaner], (s₃.task p).state = .rdy := by
    intro p member
    rw [state₃, state₂, state₁]
    simp only [List.mem_cons, List.not_mem_nil, or_false] at member
    rcases member with rfl | rfl | rfl <;> simp
  have chain : Linked.Chain s₃.next s₃.tasks [kernelIdle, test, cleaner] :=
    created₃.view.tasks.chain
  have head : s₃.tasks = some kernelIdle := chain.head
  refine ⟨⟨chain, head, by simp, by simp, rfl, ?_, fun p _ => slices p,
    fun _ _ _ => rfl, ⟨(slices kernelIdle).1, Nat.le_refl _⟩,
    fun p member _ => .inl (ready p member), .inl (ready kernelIdle (by simp))⟩,
    ready kernelIdle (by simp)⟩
  exact (count₃.trans count₂).trans (count₁.trans count)

-----------------------------------------------------------------------------------------
-- Whole runs
-----------------------------------------------------------------------------------------

/-- What a run into `s` leads to: the tasks `live` are listed, `c` is running, and the turns so
far went round.
-/
structure Turning (s : Sched) (steps : List (Sched × RoundEvent)) (live : List Nat) (c : Nat)
    : Prop where
  rounds : s.Rounds live c
  state : turns steps ≠ [] ↔ (s.task c).state = .run
  spent : ∀ mid s₁ n, mid ++ [(s₁, .tick (some n))] <+: steps → turns mid = []
    → n = c ∧ (s₁.task c).timeSlice = (s.task c).timeSlice
      ∧ (s.task c).timeRemaining + ticks mid = (s.task c).timeSlice
  since : ∀ mid s₁ t old, mid ++ [(s₁, .tick (some t))] <+: steps → t ∉ turns mid
    → Linked.Chain s₁.next s₁.tasks old → RoundRobin.Since old t live (turns mid).reverse c
  past : InTurn steps

/-- A stretch of the latest steps is empty or has the last one. -/
theorem prefix_last {x y : Sched × RoundEvent} {mid steps : List (Sched × RoundEvent)}
    (h : mid ++ [x] <+: y :: steps)
    : mid = [] ∧ x = y ∨ ∃ mid', mid = y :: mid' ∧ mid' ++ [x] <+: steps := by
  cases mid with
  | nil => exact .inl ⟨rfl, (List.cons_prefix_cons.mp h).1⟩
  | cons z mid =>
      obtain ⟨rfl, rest⟩ := List.cons_prefix_cons.mp h
      exact .inr ⟨mid, rfl, rest⟩

variable {steps : List (Sched × RoundEvent)}

theorem turns_ne_nil {mid : List (Sched × RoundEvent)} {s₁ : Sched} {n : Nat}
    (stretch : mid ++ [(s₁, .tick (some n))] <+: steps)
    : turns steps ≠ [] := by
  obtain ⟨rest, rfl⟩ := stretch
  simp [turns, RoundEvent.turn]

/-- A step that gives nobody the CPU is in turn. -/
theorem InTurn.quiet (h : InTurn steps) {event : RoundEvent} (stays : event.turn = none)
    : InTurn ((s, event) :: steps) := by
  have quiet {s₁ : Sched} {n : Nat} : (s₁, .tick (some n)) ≠ (s, event) := by
    intro clash
    rw [← (Prod.mk.inj clash).2] at stays
    cases stays
  constructor
  · intro s₂ n mid s₁ c stretch none
    rcases List.infix_cons_iff.mp stretch with last | earlier
    · exact absurd (List.cons_prefix_cons.mp last).1 quiet
    · exact h.leaves s₂ n mid s₁ c earlier none
  · intro s₂ n member
    rcases List.mem_cons.mp member with last | earlier
    · exact absurd last quiet
    · exact h.order s₂ n earlier
  · intro s₂ mid s₁ t stretch absent
    rcases List.infix_cons_iff.mp stretch with last | earlier
    · exact absurd (List.cons_prefix_cons.mp last).1 quiet
    · exact h.fair s₂ mid s₁ t earlier absent

/-- A step that gives nobody the CPU leaves the turns as they are; a tick is taken off the slice
of the running task.
-/
theorem Turning.quiet (h : Turning s steps live c) {event : RoundEvent}
    (stays : event.turn = none) {added : List Nat} (rounds : s'.Rounds (live ++ added) c)
    (grown : ∀ old t seen, RoundRobin.Since old t live seen c
      → RoundRobin.Since old t (live ++ added) seen c)
    (state : (s'.task c).state = (s.task c).state)
    (slice : (s'.task c).timeSlice = (s.task c).timeSlice)
    (remaining : (s'.task c).timeRemaining + event.isTick.toNat = (s.task c).timeRemaining)
    : Turning s' ((s, event) :: steps) (live ++ added) c := by
  have same (steps : List (Sched × RoundEvent)) : turns ((s, event) :: steps) = turns steps :=
    List.filterMap_cons_none stays
  refine ⟨rounds, ?_, ?_, ?_, h.past.quiet stays⟩
  · rw [same, state]
    exact h.state
  · intro mid s₁ n stretch none
    rcases prefix_last stretch with ⟨-, clash⟩ | ⟨mid, rfl, rest⟩
    · obtain ⟨rfl, rfl⟩ := Prod.mk.inj clash
      cases stays
    · rw [same] at none
      obtain ⟨last, kept, sum⟩ := h.spent mid s₁ n rest none
      have one : ticks ((s, event) :: mid) = ticks mid + event.isTick.toNat := by
        cases event <;> simp [ticks, RoundEvent.isTick]
      refine ⟨last, kept.trans slice.symm, ?_⟩
      rw [slice, ← sum, ← remaining, one]
      omega
  · intro mid s₁ t old stretch absent chain
    rcases prefix_last stretch with ⟨-, clash⟩ | ⟨mid, rfl, rest⟩
    · obtain ⟨rfl, rfl⟩ := Prod.mk.inj clash
      cases stays
    · rw [same] at absent ⊢
      exact grown _ _ _ (h.since mid s₁ t old rest absent chain)

/-- A switch to the next task at the end of a slice is in turn. -/
theorem Turning.past_switched (h : Turning s steps live c) {n : Nat}
    (follows : RoundRobin.Follows live c n)
    (ended : (s.task c).state = .run → (s.task c).timeRemaining = 1)
    : InTurn ((s, .tick (some n)) :: steps) := by
  constructor
  · intro s₂ m mid s₁ d stretch none
    rcases List.infix_cons_iff.mp stretch with last | earlier
    · obtain ⟨-, rest⟩ := List.cons_prefix_cons.mp last
      obtain ⟨rfl, slice, sum⟩ := h.spent mid s₁ d rest none
      rw [ended (h.state.mp (turns_ne_nil rest))] at sum
      rw [slice, ← sum, Nat.add_comm]
    · exact h.past.leaves s₂ m mid s₁ d earlier none
  · intro s₂ m member
    rcases List.mem_cons.mp member with last | earlier
    · obtain ⟨rfl, rfl⟩ : s₂ = s ∧ m = n := by simpa using last
      exact ⟨live, c, h.rounds.chain, h.rounds.current, follows⟩
    · exact h.past.order s₂ m earlier
  · intro s₂ mid s₁ t stretch absent u listed distinct
    rcases List.infix_cons_iff.mp stretch with last | earlier
    · obtain ⟨same, rest⟩ := List.cons_prefix_cons.mp last
      obtain ⟨rfl, rfl⟩ : s₂ = s ∧ t = n := by simpa using same
      obtain ⟨old, chain, member⟩ := listed
      have count := (h.since mid s₁ t old rest absent chain).count_eq_one
        h.rounds.chain.nodup follows member distinct
      rwa [List.count_reverse] at count
    · exact h.past.fair s₂ mid s₁ t earlier absent u listed distinct

/-- A switch starts a turn of the next task. -/
theorem Turning.switched (h : Turning s steps live c) {n : Nat}
    (follows : RoundRobin.Follows live c n)
    (ended : (s.task c).state = .run → (s.task c).timeRemaining = 1)
    : Turning (s.switched c n) ((s, .tick (some n)) :: steps) live n := by
  have other : n ≠ c := follows.ne h.rounds.chain.nodup h.rounds.two
  have next : (s.switched c n).task n = { s.task n with state := .run } := by
    rw [switched_task s other, if_neg other, if_pos rfl]
  have turn (mid : List (Sched × RoundEvent))
      : turns ((s, .tick (some n)) :: mid) = n :: turns mid :=
    rfl
  refine ⟨h.rounds.switched follows, ?_, ?_, ?_, h.past_switched follows ended⟩
  · simp [turn, next]
  · intro mid s₁ m stretch none
    rcases prefix_last stretch with ⟨rfl, last⟩ | ⟨mid, rfl, -⟩
    · obtain ⟨rfl, rfl⟩ : s₁ = s ∧ m = n := by simpa using last
      refine ⟨rfl, by rw [next], ?_⟩
      rw [next]
      exact h.rounds.fresh m follows.mem other
    · cases none
  · intro mid s₁ t old stretch absent chain
    rcases prefix_last stretch with ⟨rfl, last⟩ | ⟨mid, rfl, rest⟩
    · obtain ⟨rfl, rfl⟩ : s₁ = s ∧ t = n := by simpa using last
      obtain rfl := h.rounds.chain.unique chain
      exact .start follows.mem
    · rw [turn, List.mem_cons, not_or] at absent
      rw [turn, List.reverse_cons]
      exact (h.since mid s₁ t old rest absent.2 chain).visit h.rounds.chain.nodup follows
        (Ne.symm absent.1)

theorem Turning.step (h : Turning s steps live c) {event : RoundEvent}
    (taken : s.RoundStep event s')
    : ∃ live' c', Turning s' ((s, event) :: steps) live' c' := by
  cases event with
  | tick next =>
      obtain ⟨fuel, returned⟩ := taken
      rcases h.rounds.mtSchedule_cases fuel with
        ⟨run, more, stays⟩ | ⟨n, follows, ended, switches⟩
      · rw [stays] at returned
        obtain ⟨rfl, rfl⟩ := Prod.mk.inj (Option.some.inj returned)
        refine ⟨live ++ [], c, h.quiet rfl (by simpa using h.rounds.ticked more) (by simp)
          (by simp [ticked_task]) (by simp [ticked_task]) ?_⟩
        simp only [ticked_task, if_true, RoundEvent.isTick, Bool.toNat_true]
        exact Nat.sub_add_cancel h.rounds.left.1
      · rw [switches] at returned
        obtain ⟨rfl, rfl⟩ := Prod.mk.inj (Option.some.inj returned)
        exact ⟨live, n, h.switched follows ended⟩
  | push p t =>
      obtain ⟨unlisted, ready, unlinked, slice, fresh, fuel, pushed⟩ := taken
      rw [h.rounds.onTasks] at unlisted
      obtain ⟨rounds, sameSlice, sameRemaining, sameState⟩ :=
        h.rounds.push unlisted ready unlinked slice fresh pushed
      exact ⟨live ++ [p], c, h.quiet rfl rounds (fun _ _ _ since => since.grow p) sameState
        sameSlice sameRemaining⟩

/-- Every run goes round, by induction on it. -/
theorem run_turning (run : roundSystem.Run s steps) : ∃ live c, Turning s steps live c := by
  induction run with
  | start initial =>
      obtain ⟨s₀, s₁, fuel, kernelIdle, test, cleaner, slice, tasks, terminated, counter, count,
        nodup, init, slices, rfl⟩ := initial
      obtain ⟨rounds, ready⟩ := mtInit_rounds tasks terminated counter count nodup init slices
      refine ⟨_, _, rounds, by simp [turns, ready], by simp, by simp, ?_⟩
      constructor <;> simp
  | next earlier taken ih =>
      obtain ⟨live, c, turning⟩ := ih
      exact turning.step taken

/-- What has been established of a run, in the words of its states. -/
theorem Turning.takesTurns (h : Turning s steps live c) : s.TakesTurns steps where
  toInTurn := h.past
  running started := by
    refine ⟨c, h.rounds.current, h.rounds.onTasks.mpr h.rounds.listed, fun p listed => ?_⟩
    constructor
    · intro run
      by_contra other
      rcases h.rounds.waiting p (h.rounds.onTasks.mp listed) other with state | state
      · rw [state] at run
        cases run
      · rw [state] at run
        cases run
    · rintro rfl
      exact h.state.mp started
  remaining p listed := by
    have member := h.rounds.onTasks.mp listed
    rcases eq_or_ne p c with rfl | other
    · exact h.rounds.left
    · rw [h.rounds.fresh p member other]
      exact ⟨(h.rounds.slice p member).1, Nat.le_refl _⟩
  keeps mid s₁ n stretch none := by
    obtain ⟨rfl, slice, sum⟩ := h.spent mid s₁ n stretch none
    refine ⟨h.rounds.current, ?_⟩
    rw [slice, ← sum, Nat.add_comm]
    exact Nat.lt_add_of_pos_right h.rounds.left.1
  returns fuel := by
    rcases h.rounds.mtSchedule_cases fuel with ⟨-, -, stays⟩ | ⟨n, -, -, switches⟩
    · exact ⟨_, _, stays⟩
    · exact ⟨_, _, switches⟩

/-- In every run from `mt_init` on without terminations, tasks take turns. The invariant `Turning`
places the running task in the order of the list, with the ticks it has left; a step either counts
a tick or starts the turn of the next one.
-/
theorem run_takesTurns (run : roundSystem.Run s steps) : s.TakesTurns steps := by
  obtain ⟨live, c, turning⟩ := run_turning run
  exact turning.takesTurns

/-- The time slices of `mt_init`'s tasks: the second one has two ticks. -/
def slices (p : Nat) : Nat :=
  if p = 0x2000 then 2 else 1

/-- A tick that ends as its label says, or a new task behind `mt_init`'s. -/
def performRound (s : Sched) : RoundEvent → Option Sched
  | .tick next =>
      (s.mtSchedule 8).bind (fun r => if r.1 = next then some r.2 else none)
  | .push p t =>
      if Linked.Chain s.next s.tasks [0x1000, 0x2000, 0x3000] ∧ p ∉ [0x1000, 0x2000, 0x3000]
          ∧ t.state = .rdy ∧ t.next = none ∧ t.timeSlice = 1 ∧ t.timeRemaining = 1 then
        (s.setTask p (fun _ => t)).mtPushTask 8 (some p)
      else
        none

/-- A task is appended in the first turn of the second task, and then everyone has a turn
before the second task has its next one, latest first.
-/
def oneRound : List RoundEvent :=
  [.tick (some 0x2000), .tick (some 0x1000), .tick (some 0x4000), .tick (some 0x3000), .tick none,
    .push 0x4000 ⟨3, 0, 1, 1, none, none, .rdy⟩, .tick (some 0x2000)]

theorem performRound_step {event : RoundEvent} (performed : s.performRound event = some s')
    : roundSystem.step s event s' := by
  cases event with
  | tick next =>
      obtain ⟨r, returned, result⟩ := Option.bind_eq_some_iff.mp performed
      obtain ⟨rfl, same⟩ := Option.ite_none_right_eq_some.mp result
      obtain rfl := Option.some.inj same
      exact ⟨8, returned⟩
  | push p t =>
      obtain ⟨⟨chain, free, ready, unlinked, slice, fresh⟩, pushed⟩ :=
        Option.ite_none_right_eq_some.mp performed
      refine ⟨?_, ready, unlinked, ?_, fresh.trans slice.symm, 8, pushed⟩
      · intro listed
        obtain ⟨live, chain', member⟩ := listed
        obtain rfl := chain'.unique chain
        exact free member
      · rw [slice]
        exact ⟨Nat.le_refl 1, by decide⟩

/-- In this round tasks take turns. -/
theorem run_takesTurns_oneRound
    : ∃ s steps, roundSystem.Run s steps ∧ steps.map Prod.snd = oneRound
        ∧ s.TakesTurns steps := by
  have returns : ((boot.mtInit 8 0x1000 0x2000 0x3000).bind (fun s =>
      TransitionSystem.play performRound (s.withSlices slices) oneRound)).isSome = true := by
    decide +kernel
  obtain ⟨r, played⟩ := Option.isSome_iff_exists.mp returns
  obtain ⟨s, init, played⟩ := Option.bind_eq_some_iff.mp played
  have start : roundSystem.init (s.withSlices slices) := by
    refine ⟨boot, s, 8, 0x1000, 0x2000, 0x3000, slices, rfl, rfl, rfl, rfl, by decide, init,
      fun p => ?_, rfl⟩
    rw [slices]
    split
    · exact ⟨by decide, by decide⟩
    · exact ⟨by decide, by decide⟩
  have sound (s : Sched) (event : RoundEvent) (s' : Sched) (_ : True)
      (performed : s.performRound event = some s') : roundSystem.step s event s' ∧ True :=
    ⟨performRound_step performed, trivial⟩
  obtain ⟨run, -⟩ := TransitionSystem.Run.of_play sound start trivial played
  exact ⟨r.1, r.2, run, TransitionSystem.play_labels played, run_takesTurns run⟩

end

end Hydrangea.Sched
