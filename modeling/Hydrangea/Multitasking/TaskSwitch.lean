import Hydrangea.Lib.Transition
import Hydrangea.Lib.X86

/-! `mt_switch_task` of `kernel/multitasking/task_switch.s`, the stack that `ktask_create` makes
for it, and the end of the interrupt handlers in `kernel/cpu/irq_as.s` that a new task comes
through. Tasks run one after the other, each on its own stack.
-/

namespace Hydrangea

open X86 Memory

/-- `mt_switch_task`, where `cur_task` is at an address. The field `esp` of a task is its first
one.
-/
def mtSwitchTask (curTask : BitVec 32) : List Instr :=
  [.push .ebp, .mov .esp .ebp, .push .eax, .push .ebx, .push .ecx, .push .edx, .push .esi,
    .push .edi, .pushf,
    .movFrom curTask none .esi, .movTo .esp 0 (some .esi),
    .movFrom 8 (some .ebp) .esi, .movTo .esi curTask none,
    .movFrom 0 (some .esi) .esp,
    .popf, .pop .edi, .pop .esi, .pop .edx, .pop .ecx, .pop .ebx, .pop .eax, .pop .ebp, .ret]

def irqCommonHandlerPopAndIret : List Instr :=
  [.popSeg .gs, .popSeg .fs, .popSeg .es, .popSeg .ds,
    .pop .eax, .pop .ecx, .pop .edx, .pop .ebx, .pop .ebp, .pop .esi, .pop .edi,
    .add 8 .esp, .iret]

def defaultStackSize : Nat := 0x4000

/-- The words that `ktask_create` pushes first, for the `iret` and the task itself: `args`, the
return address, `eflags`, `cs` and `entry`.
-/
def entryWords (entry args : BitVec 32) : List (BitVec 32) :=
  [args, 0x0, 0x200, 0x8, entry]

/-- The words that `ktask_create` pushes below nine it leaves out: the segment registers, where
`mt_switch_task` returns to, and the registers it pops.
-/
def switchWords (popAndIret : BitVec 32) : List (BitVec 32) :=
  [0x10, 0x10, 0x10, 0x10, popAndIret, 0, 0, 0, 0, 0, 0, 0, 0x200]

/-- The stack that `ktask_create` makes below an address: memory, and the `esp` of the task. -/
def ktaskStack (popAndIret : BitVec 32) (m : Memory) (stack entry args : BitVec 32)
    : Memory × BitVec 32 :=
  let m := m.pushWords stack (entryWords entry args)
  let stack := stack - 20
  let stack := stack - 4 * 2
  let stack := stack - 4 * 7
  (m.pushWords stack (switchWords popAndIret), stack - 52)

/-- Tasks in memory: the address of each `task_t`, its stack, and the symbols that the code
refers to. None of them overlap.
-/
structure TaskLayout (Task : Type*) where
  curTask : BitVec 32
  popAndIret : BitVec 32
  address : Task → BitVec 32
  stack : Task → Region
  curTask_fits : Fits curTask
  address_fits : ∀ t, Fits (address t)
  stack_inside : ∀ t, (stack t).stop < 2 ^ 32
  stacks_apart : ∀ t t', t ≠ t' → (stack t).Apart (stack t')
  fields_apart : ∀ t t', t ≠ t' → (wordAt (address t)).Apart (wordAt (address t'))
  stack_field : ∀ t t', (stack t).Apart (wordAt (address t'))
  stack_curTask : ∀ t, (stack t).Apart (wordAt curTask)
  field_curTask : ∀ t, (wordAt (address t)).Apart (wordAt curTask)

namespace TaskLayout

variable {Task : Type*} (tasks : TaskLayout Task)

/-- `cur_task` designates a task. -/
def Current (m : Machine) (t : Task) : Prop :=
  m.mem.load tasks.curTask = tasks.address t

instance (m : Machine) (t : Task) : Decidable (tasks.Current m t) :=
  inferInstanceAs (Decidable (_ = _))

/-- `ktask_create` for a task: the words on its new stack and its field `esp`. -/
def ktaskCreate (m : Machine) (t : Task) (entry args : BitVec 32) : Machine :=
  let stack := BitVec.ofNat 32 ((tasks.stack t).start + defaultStackSize)
  let (mem, esp) := ktaskStack tasks.popAndIret m.mem stack entry args
  { m with mem := mem.store (tasks.address t) esp }

/-- What the machine does next: the current task works, it builds a task, or it calls
`mt_switch_task`.
-/
inductive Event (Task : Type*) where
  | work
  | create (t : Task) (entry args : BitVec 32)
  | switch (t : Task)

/-- The current task does anything to the registers and to memory but to the stacks and the
fields `esp` of other tasks and to `cur_task`.
-/
structure Works (cur : Task) (m m' : Machine) : Prop where
  others : ∀ t, t ≠ cur → AgreeOn (tasks.stack t) m.mem m'.mem
  fields : ∀ t, t ≠ cur → AgreeOn (wordAt (tasks.address t)) m.mem m'.mem
  curTask : AgreeOn (wordAt tasks.curTask) m.mem m'.mem

/-- A call has its argument on top of the stack of the current task, and room below. -/
structure Calls (cur : Task) (m : Machine) (t : Task) : Prop where
  argument : m.top = tasks.address t
  room : (tasks.stack cur).start + 36 ≤ (m.gpr .esp).toNat
  inside : (m.gpr .esp).toNat + 4 ≤ (tasks.stack cur).stop

def step (m : Machine) (event : Event Task) (m' : Machine) : Prop :=
  ∃ cur, tasks.Current m cur ∧
    match event with
    | .work => tasks.Works cur m m'
    | .create t entry args =>
        t ≠ cur
          ∧ (tasks.stack t).stop = (tasks.stack t).start + defaultStackSize
          ∧ m' = tasks.ktaskCreate m t entry args
    | .switch t => tasks.Calls cur m t ∧ m' = call m (mtSwitchTask tasks.curTask)

def system : TransitionSystem Machine (Event Task) where
  init m := ∃ cur, tasks.Current m cur
  step := tasks.step

/-- What a task waits with for its next switch: the call by which it was switched out, or what
it was built with.
-/
inductive Origin where
  | called (m : Machine)
  | created (entry args : BitVec 32)

/-- What a task waits with after the steps of a run, latest first: the last step that switched
it out or built it.
-/
def origin [DecidableEq Task] (t : Task) : List (Machine × Event Task) → Option Origin
  | [] => none
  | (_, .work) :: steps => origin t steps
  | (_, .create t' entry args) :: steps =>
      if t' = t then some (.created entry args) else origin t steps
  | (m, .switch _) :: steps => if tasks.Current m t then some (.called m) else origin t steps

end TaskLayout

-----------------------------------------------------------------------------------------
-- Running the code
-----------------------------------------------------------------------------------------

/-- The part of `mt_switch_task` that saves the registers. -/
def saveContext : List Instr :=
  [.push .ebp, .mov .esp .ebp, .push .eax, .push .ebx, .push .ecx, .push .edx, .push .esi,
    .push .edi, .pushf]

def switchStacks (curTask : BitVec 32) : List Instr :=
  [.movFrom curTask none .esi, .movTo .esp 0 (some .esi),
    .movFrom 8 (some .ebp) .esi, .movTo .esi curTask none,
    .movFrom 0 (some .esi) .esp]

def restoreContext : List Instr :=
  [.popf, .pop .edi, .pop .esi, .pop .edx, .pop .ecx, .pop .ebx, .pop .eax, .pop .ebp, .ret]

theorem mtSwitchTask_eq (curTask : BitVec 32)
    : mtSwitchTask curTask = saveContext ++ switchStacks curTask ++ restoreContext :=
  rfl

/-- The words that a call of `mt_switch_task` pushes, the return address first. -/
def context (m : Machine) : List (BitVec 32) :=
  [m.eip, m.gpr .ebp, m.gpr .eax, m.gpr .ebx, m.gpr .ecx, m.gpr .edx, m.gpr .esi, m.gpr .edi,
    m.eflags.val]

theorem run_saveContext (m : Machine)
    : (run (m.push m.eip) saveContext).mem = m.mem.pushWords (m.gpr .esp) (context m)
      ∧ (run (m.push m.eip) saveContext).gpr .esp = m.gpr .esp - 36
      ∧ (run (m.push m.eip) saveContext).gpr .ebp = m.gpr .esp - 8 := by
  refine ⟨rfl, ?_, ?_⟩
  · change m.gpr .esp - 4 - 4 - 4 - 4 - 4 - 4 - 4 - 4 - 4 = _
    bv_omega
  · change m.gpr .esp - 4 - 4 = _
    bv_omega

/-- Switching stores the stack pointer into the task that `cur_task` designates, makes the
argument the current task, and takes its stack pointer.
-/
theorem run_switchStacks {m : Machine} {curTask cur task : BitVec 32}
    (current : m.mem.load curTask = cur)
    (argument : (m.mem.store cur (m.gpr .esp)).load (m.gpr .ebp + 8) = task)
    : (run m (switchStacks curTask)).mem
        = (m.mem.store cur (m.gpr .esp)).store curTask task
      ∧ (run m (switchStacks curTask)).gpr .esp
        = ((m.mem.store cur (m.gpr .esp)).store curTask task).load task := by
  subst argument current
  simp [switchStacks, exec, Machine.set, Machine.operand, Function.update_apply]

theorem run_restoreContext (m : Machine)
    : (run m restoreContext).mem = m.mem
      ∧ (run m restoreContext).eflags = Eflags.ofWord (m.mem.load (m.gpr .esp))
      ∧ (run m restoreContext).gpr .edi = m.mem.load (m.gpr .esp + 4)
      ∧ (run m restoreContext).gpr .esi = m.mem.load (m.gpr .esp + 8)
      ∧ (run m restoreContext).gpr .edx = m.mem.load (m.gpr .esp + 12)
      ∧ (run m restoreContext).gpr .ecx = m.mem.load (m.gpr .esp + 16)
      ∧ (run m restoreContext).gpr .ebx = m.mem.load (m.gpr .esp + 20)
      ∧ (run m restoreContext).gpr .eax = m.mem.load (m.gpr .esp + 24)
      ∧ (run m restoreContext).gpr .ebp = m.mem.load (m.gpr .esp + 28)
      ∧ (run m restoreContext).eip = m.mem.load (m.gpr .esp + 32)
      ∧ (run m restoreContext).gpr .esp = m.gpr .esp + 36 := by
  simp [restoreContext, exec, Machine.set, Machine.drop, Machine.top, BitVec.add_assoc]

/-- The end of the interrupt handlers pops the segment registers, drops the general-purpose
registers it pops with the two words behind them, and returns from the interrupt.
-/
theorem run_irqCommonHandlerPopAndIret (m : Machine)
    : (run m irqCommonHandlerPopAndIret).mem = m.mem
      ∧ (run m irqCommonHandlerPopAndIret).seg .gs = (m.mem.load (m.gpr .esp)).setWidth 16
      ∧ (run m irqCommonHandlerPopAndIret).seg .fs = (m.mem.load (m.gpr .esp + 4)).setWidth 16
      ∧ (run m irqCommonHandlerPopAndIret).seg .es = (m.mem.load (m.gpr .esp + 8)).setWidth 16
      ∧ (run m irqCommonHandlerPopAndIret).seg .ds = (m.mem.load (m.gpr .esp + 12)).setWidth 16
      ∧ (run m irqCommonHandlerPopAndIret).eip = m.mem.load (m.gpr .esp + 52)
      ∧ (run m irqCommonHandlerPopAndIret).cs = (m.mem.load (m.gpr .esp + 56)).setWidth 16
      ∧ (run m irqCommonHandlerPopAndIret).eflags
        = Eflags.ofWord (m.mem.load (m.gpr .esp + 60))
      ∧ (run m irqCommonHandlerPopAndIret).gpr .esp = m.gpr .esp + 64 := by
  simp [irqCommonHandlerPopAndIret, exec, Machine.set, Machine.drop, Machine.top,
    BitVec.add_assoc]

/-- Restoring pops the words of a context below an address. -/
theorem restores_of_holds {m : Machine} {sp ret ebp eax ebx ecx edx esi edi flags : BitVec 32}
    (holds : m.mem.Holds sp [ret, ebp, eax, ebx, ecx, edx, esi, edi, flags])
    (esp : m.gpr .esp = sp - 36)
    : (run m restoreContext).eip = ret
      ∧ (run m restoreContext).eflags = Eflags.ofWord flags
      ∧ (run m restoreContext).gpr .ebp = ebp
      ∧ (run m restoreContext).gpr .eax = eax
      ∧ (run m restoreContext).gpr .ebx = ebx
      ∧ (run m restoreContext).gpr .ecx = ecx
      ∧ (run m restoreContext).gpr .edx = edx
      ∧ (run m restoreContext).gpr .esi = esi
      ∧ (run m restoreContext).gpr .edi = edi
      ∧ (run m restoreContext).gpr .esp = sp := by
  obtain ⟨-, eflags', edi', esi', edx', ecx', ebx', eax', ebp', eip', esp'⟩ :=
    run_restoreContext m
  have place (k : BitVec 32) (i : Nat) (inside : i < 9)
      (same : sp - 36 + k = sp - BitVec.ofNat 32 (4 * (i + 1)))
      : m.mem.load (m.gpr .esp + k)
        = [ret, ebp, eax, ebx, ecx, edx, esi, edi, flags].get ⟨i, inside⟩ := by
    rw [esp, same]
    exact holds i inside
  have zero : m.gpr .esp + 0 = m.gpr .esp := BitVec.add_zero _
  have top := place 0 8 (by decide) (by bv_omega)
  rw [zero] at top
  refine ⟨?_, ?_, ?_, ?_, ?_, ?_, ?_, ?_, ?_, ?_⟩
  · rw [eip']
    exact place 32 0 (by decide) (by bv_omega)
  · rw [eflags', top]
    rfl
  · rw [ebp']
    exact place 28 1 (by decide) (by bv_omega)
  · rw [eax']
    exact place 24 2 (by decide) (by bv_omega)
  · rw [ebx']
    exact place 20 3 (by decide) (by bv_omega)
  · rw [ecx']
    exact place 16 4 (by decide) (by bv_omega)
  · rw [edx']
    exact place 12 5 (by decide) (by bv_omega)
  · rw [esi']
    exact place 8 6 (by decide) (by bv_omega)
  · rw [edi']
    exact place 4 7 (by decide) (by bv_omega)
  · rw [esp', esp]
    bv_omega

namespace TaskLayout

variable {Task : Type*} {tasks : TaskLayout Task}

theorem Current.unique {m : Machine} {t t' : Task} (first : tasks.Current m t)
    (second : tasks.Current m t')
    : t = t' := by
  by_contra ne
  have same : tasks.address t = tasks.address t' := first.symm.trans second
  have apart := tasks.fields_apart t t' ne
  simp only [Region.Apart, wordAt, same] at apart
  omega

/-- Memory after the save and the switch of a call from `cur` to `t`. -/
def switched (tasks : TaskLayout Task) (m : Machine) (cur t : Task) : Memory :=
  ((m.mem.pushWords (m.gpr .esp) (context m)).store (tasks.address cur)
    (m.gpr .esp - 36)).store tasks.curTask (tasks.address t)

/-- The save leaves everything outside the stack of the current task alone. -/
theorem agreeOn_saved {m : Machine} {cur t : Task} (calls : tasks.Calls cur m t) {r : Region}
    (apart : (tasks.stack cur).Apart r)
    : AgreeOn r m.mem (m.mem.pushWords (m.gpr .esp) (context m)) := by
  have room := calls.room
  have inside := calls.inside
  have length : 4 * (context m).length = 36 := rfl
  refine agreeOn_pushWords (by omega) (apart.within ⟨?_, ?_⟩)
  · simp only [length]
    omega
  · simp only
    omega

/-- A call from `cur` to `t` leaves everything apart from the stack of `cur`, its field and
`cur_task` alone.
-/
theorem agreeOn_switched {m : Machine} {cur t : Task} (calls : tasks.Calls cur m t) {r : Region}
    (stack : (tasks.stack cur).Apart r) (field : (wordAt (tasks.address cur)).Apart r)
    (symbol : (wordAt tasks.curTask).Apart r)
    : AgreeOn r m.mem (tasks.switched m cur t) :=
  ((agreeOn_saved calls stack).trans (agreeOn_store _ _ (tasks.address_fits cur) field)).trans
    (agreeOn_store _ _ tasks.curTask_fits symbol)

theorem call_mtSwitchTask {m : Machine} {cur t : Task} (current : tasks.Current m cur)
    (calls : tasks.Calls cur m t)
    : ∃ m', call m (mtSwitchTask tasks.curTask) = run m' restoreContext
        ∧ m'.mem = tasks.switched m cur t
        ∧ m'.gpr .esp = (tasks.switched m cur t).load (tasks.address t) := by
  obtain ⟨mem, esp, ebp⟩ := run_saveContext m
  have inWord := tasks.stack_inside cur
  have argFits : Fits (m.gpr .esp) := by
    have inside := calls.inside
    rw [Fits]
    omega
  have argWithin : (wordAt (m.gpr .esp)).Within (tasks.stack cur) :=
    ⟨by
      have room := calls.room
      simp only [wordAt]
      omega, calls.inside⟩
  have curTask : (run (m.push m.eip) saveContext).mem.load tasks.curTask = tasks.address cur := by
    rw [mem, (agreeOn_saved calls (tasks.stack_curTask cur)).load tasks.curTask_fits]
    exact current
  have argument : ((run (m.push m.eip) saveContext).mem.store (tasks.address cur)
      ((run (m.push m.eip) saveContext).gpr .esp)).load
        ((run (m.push m.eip) saveContext).gpr .ebp + 8) = tasks.address t := by
    have back : m.gpr .esp - 8 + 8 = m.gpr .esp := by bv_omega
    have stored : AgreeOn (wordAt (m.gpr .esp)) m.mem
        (m.mem.pushWords (m.gpr .esp) (context m)) := by
      have room := calls.room
      have length : 4 * (context m).length = 36 := rfl
      exact agreeOn_pushWords (by omega) (.inl (Nat.le_refl _))
    rw [ebp, back, load_store_of_apart _ _ (tasks.address_fits cur) argFits
      ((tasks.stack_field cur cur).within argWithin).symm, mem, stored.load argFits]
    exact calls.argument
  obtain ⟨mem', esp'⟩ := run_switchStacks curTask argument
  rw [mem, esp] at mem' esp'
  refine ⟨run (run (m.push m.eip) saveContext) (switchStacks tasks.curTask), ?_, mem', esp'⟩
  rw [call, mtSwitchTask_eq, run_append, run_append]

-----------------------------------------------------------------------------------------
-- Tasks that wait
-----------------------------------------------------------------------------------------

def stackTop (tasks : TaskLayout Task) (t : Task) : BitVec 32 :=
  BitVec.ofNat 32 ((tasks.stack t).start + defaultStackSize)

def Waits (tasks : TaskLayout Task) (mem : Memory) (t : Task) : Origin → Prop
  | .called m =>
      (tasks.stack t).start + 36 ≤ (m.gpr .esp).toNat
        ∧ (m.gpr .esp).toNat ≤ (tasks.stack t).stop
        ∧ mem.Holds (m.gpr .esp) (context m)
        ∧ mem.load (tasks.address t) = m.gpr .esp - 36
  | .created entry args =>
      (tasks.stack t).stop = (tasks.stack t).start + defaultStackSize
        ∧ mem.Holds (tasks.stackTop t) (entryWords entry args)
        ∧ mem.Holds (tasks.stackTop t - 56) (switchWords tasks.popAndIret)
        ∧ mem.load (tasks.address t) = tasks.stackTop t - 108

theorem stackTop_toNat {t : Task}
    (size : (tasks.stack t).stop = (tasks.stack t).start + defaultStackSize)
    : (tasks.stackTop t).toNat = (tasks.stack t).stop := by
  have inWord := tasks.stack_inside t
  rw [stackTop, ← size, BitVec.toNat_ofNat, Nat.mod_eq_of_lt inWord]

/-- A task still waits in a memory that agrees on its stack and its field. -/
theorem Waits.agree {mem mem' : Memory} {t : Task} {o : Origin} (waits : tasks.Waits mem t o)
    (stack : AgreeOn (tasks.stack t) mem mem')
    (field : AgreeOn (wordAt (tasks.address t)) mem mem')
    : tasks.Waits mem' t o := by
  have same := field.load (tasks.address_fits t)
  cases o with
  | called m =>
      obtain ⟨low, high, holds, esp⟩ := waits
      exact ⟨low, high, holds.agree stack low high, same.trans esp⟩
  | created entry args =>
      obtain ⟨size, first, second, esp⟩ := waits
      have top := stackTop_toNat size
      rw [defaultStackSize] at size
      have below : (tasks.stackTop t - 56).toNat = (tasks.stack t).stop - 56 := by
        bv_omega
      have length : 4 * (entryWords entry args).length = 20 := rfl
      have length' : 4 * (switchWords tasks.popAndIret).length = 52 := rfl
      refine ⟨size, first.agree stack ?_ ?_, second.agree stack ?_ ?_, same.trans esp⟩
      · omega
      · omega
      · omega
      · omega

section

variable {m : Machine} {t : Task} {entry args : BitVec 32}

theorem ktaskCreate_mem (m : Machine) (t : Task) (entry args : BitVec 32)
    : (tasks.ktaskCreate m t entry args).mem
      = ((m.mem.pushWords (tasks.stackTop t) (entryWords entry args)).pushWords
          (tasks.stackTop t - 56) (switchWords tasks.popAndIret)).store (tasks.address t)
            (tasks.stackTop t - 108) := by
  have place : tasks.stackTop t - 20 - 4 * 2 - 4 * 7 = tasks.stackTop t - 56 := by bv_omega
  have esp : tasks.stackTop t - 56 - 52 = tasks.stackTop t - 108 := by bv_omega
  rw [← esp, ← place]
  rfl

/-- The words of a new stack, as far as they lie in it. -/
theorem stackTop_sub_toNat
    (size : (tasks.stack t).stop = (tasks.stack t).start + defaultStackSize)
    : (tasks.stackTop t - 56).toNat = (tasks.stack t).stop - 56 := by
  have top := stackTop_toNat size
  rw [defaultStackSize] at size
  bv_omega

/-- `ktask_create` leaves everything outside the new stack and the new field alone. -/
theorem agreeOn_ktaskCreate {r : Region}
    (size : (tasks.stack t).stop = (tasks.stack t).start + defaultStackSize)
    (stack : (tasks.stack t).Apart r) (field : (wordAt (tasks.address t)).Apart r)
    : AgreeOn r m.mem (tasks.ktaskCreate m t entry args).mem := by
  have top := stackTop_toNat size
  have below := stackTop_sub_toNat size
  rw [defaultStackSize] at size
  have length : 4 * (entryWords entry args).length = 20 := rfl
  have length' : 4 * (switchWords tasks.popAndIret).length = 52 := rfl
  rw [ktaskCreate_mem]
  refine AgreeOn.trans ?_ (agreeOn_store _ _ (tasks.address_fits t) field)
  refine AgreeOn.trans (agreeOn_pushWords ?_ (stack.within ⟨?_, ?_⟩))
    (agreeOn_pushWords ?_ (stack.within ⟨?_, ?_⟩))
  · omega
  · simp only [length, top]
    omega
  · simp only [top]
    exact Nat.le_refl _
  · omega
  · simp only [length', below]
    omega
  · simp only [below]
    omega

/-- A task that `ktask_create` has built waits with its entry. -/
theorem waits_ktaskCreate
    (size : (tasks.stack t).stop = (tasks.stack t).start + defaultStackSize)
    : tasks.Waits (tasks.ktaskCreate m t entry args).mem t (.created entry args) := by
  have top := stackTop_toNat size
  have below := stackTop_sub_toNat size
  have room := size
  rw [defaultStackSize] at room
  have length : 4 * (entryWords entry args).length = 20 := rfl
  have length' : 4 * (switchWords tasks.popAndIret).length = 52 := rfl
  have first : (m.mem.pushWords (tasks.stackTop t) (entryWords entry args)).Holds
      (tasks.stackTop t) (entryWords entry args) :=
    holds_pushWords (by omega)
  have lower : AgreeOn ⟨(tasks.stack t).stop - 20, (tasks.stack t).stop⟩
      (m.mem.pushWords (tasks.stackTop t) (entryWords entry args))
      ((m.mem.pushWords (tasks.stackTop t) (entryWords entry args)).pushWords
        (tasks.stackTop t - 56) (switchWords tasks.popAndIret)) := by
    refine agreeOn_pushWords (by omega) (.inl ?_)
    simp only [below]
    omega
  have stored : AgreeOn (tasks.stack t)
      ((m.mem.pushWords (tasks.stackTop t) (entryWords entry args)).pushWords
        (tasks.stackTop t - 56) (switchWords tasks.popAndIret))
      (tasks.ktaskCreate m t entry args).mem := by
    rw [ktaskCreate_mem]
    exact agreeOn_store _ _ (tasks.address_fits t) (tasks.stack_field t t).symm
  refine ⟨size, ?_, ?_, ?_⟩
  · have kept := first.agree lower (by simp only [length, top]; omega) (by simp only [top]; omega)
    exact kept.agree stored (by omega) (by omega)
  · exact (holds_pushWords (by omega)).agree stored (by omega) (by omega)
  · rw [ktaskCreate_mem, load_store]

end

/-- A task that has called `mt_switch_task` waits with its registers. -/
theorem waits_called {m : Machine} {cur t : Task} (calls : tasks.Calls cur m t)
    : tasks.Waits (tasks.switched m cur t) cur (.called m) := by
  have room := calls.room
  have inside := calls.inside
  have length : 4 * (context m).length = 36 := rfl
  have pushed : (m.mem.pushWords (m.gpr .esp) (context m)).Holds (m.gpr .esp) (context m) :=
    holds_pushWords (by omega)
  have stack : AgreeOn (tasks.stack cur) (m.mem.pushWords (m.gpr .esp) (context m))
      (tasks.switched m cur t) :=
    (agreeOn_store _ _ (tasks.address_fits cur) (tasks.stack_field cur cur).symm).trans
      (agreeOn_store _ _ tasks.curTask_fits (tasks.stack_curTask cur).symm)
  refine ⟨room, by omega, pushed.agree stack (by omega) (by omega), ?_⟩
  rw [switched, load_store_of_apart _ _ tasks.curTask_fits (tasks.address_fits cur)
    (tasks.field_curTask cur).symm, load_store]

/-- After a call the argument is the current task. -/
theorem current_switched {m : Machine} {cur t : Task} (current : tasks.Current m cur)
    (calls : tasks.Calls cur m t)
    : tasks.Current (call m (mtSwitchTask tasks.curTask)) t
      ∧ (call m (mtSwitchTask tasks.curTask)).mem = tasks.switched m cur t := by
  obtain ⟨m', called, mem, -⟩ := call_mtSwitchTask current calls
  obtain ⟨mem', -⟩ := run_restoreContext m'
  rw [Current, called, mem', mem]
  exact ⟨load_store _ _ _, rfl⟩

section

variable [DecidableEq Task]

/-- Every task but the current one waits with what the run says it waits with. -/
def Kept (tasks : TaskLayout Task) (m : Machine) (steps : List (Machine × Event Task)) : Prop :=
  ∀ t o, ¬ tasks.Current m t → tasks.origin t steps = some o → tasks.Waits m.mem t o

/-- The last call has left every task waiting, also the one it goes on with. -/
theorem Kept.switched {m : Machine} {steps : List (Machine × Event Task)} {cur t u : Task}
    {o : Origin} (kept : tasks.Kept m steps) (current : tasks.Current m cur)
    (calls : tasks.Calls cur m t)
    (origin : tasks.origin u ((m, .switch t) :: steps) = some o)
    : tasks.Waits (tasks.switched m cur t) u o := by
  rw [TaskLayout.origin] at origin
  split at origin
  · next here =>
      obtain rfl := current.unique here
      obtain rfl := Option.some.inj origin
      exact waits_called calls
  · next other =>
      have ne : cur ≠ u := by
        rintro rfl
        exact other current
      have waits := kept u o other origin
      exact waits.agree
        (agreeOn_switched calls (tasks.stacks_apart cur u ne) (tasks.stack_field u cur).symm
          (tasks.stack_curTask u).symm)
        (agreeOn_switched calls (tasks.stack_field cur u) (tasks.fields_apart cur u ne)
          (tasks.field_curTask u).symm)

/-- One step keeps what the tasks wait with. -/
theorem Kept.step {m m' : Machine} {steps : List (Machine × Event Task)} {event : Event Task}
    (kept : tasks.Kept m steps) (taken : tasks.step m event m')
    : tasks.Kept m' ((m, event) :: steps) := by
  obtain ⟨cur, current, taken⟩ := taken
  intro t o notCurrent origin
  cases event with
  | work =>
      have same := taken.curTask.load tasks.curTask_fits
      rw [Current, same] at notCurrent
      have ne : t ≠ cur := by
        rintro rfl
        exact notCurrent current
      exact (kept t o notCurrent origin).agree (taken.others t ne) (taken.fields t ne)
  | create u entry args =>
      obtain ⟨ne, size, rfl⟩ := taken
      have same : AgreeOn (wordAt tasks.curTask) m.mem (tasks.ktaskCreate m u entry args).mem :=
        agreeOn_ktaskCreate size (tasks.stack_curTask u) (tasks.field_curTask u)
      rw [Current, same.load tasks.curTask_fits] at notCurrent
      rw [TaskLayout.origin] at origin
      split at origin
      · next here =>
          obtain rfl := here
          obtain rfl := Option.some.inj origin
          exact waits_ktaskCreate size
      · next other =>
          exact (kept t o notCurrent origin).agree
            (agreeOn_ktaskCreate size (tasks.stacks_apart u t other)
              (tasks.stack_field t u).symm)
            (agreeOn_ktaskCreate size (tasks.stack_field u t) (tasks.fields_apart u t other))
  | switch u =>
      obtain ⟨calls, rfl⟩ := taken
      obtain ⟨-, mem⟩ := current_switched current calls
      rw [mem]
      exact kept.switched current calls origin

/-- In every run the tasks wait with what the run says, by induction on the run. -/
theorem Kept.run {m : Machine} {steps : List (Machine × Event Task)}
    (run : tasks.system.Run m steps)
    : tasks.Kept m steps := by
  induction run with
  | start => exact fun t o _ origin => absurd origin (by simp [TaskLayout.origin])
  | next _ taken ih => exact ih.step taken

end

-----------------------------------------------------------------------------------------
-- Tasks that go on
-----------------------------------------------------------------------------------------

/-- A task goes on behind its call as it made it. -/
structure Resumes (m m' : Machine) : Prop where
  eip : m'.eip = m.eip
  eflags : m'.eflags = m.eflags
  gpr : ∀ r, m'.gpr r = m.gpr r

/-- A task comes to its entry, in a machine that has run some code. -/
structure Enters (m : Machine) (entry args : BitVec 32) : Prop where
  eip : m.eip = entry
  cs : m.cs = 0x8
  interrupts : m.eflags.interrupts = true
  seg : ∀ s, m.seg s = 0x10
  returnAddress : m.top = 0
  argument : m.mem.load (m.gpr .esp + 4) = args

/-- A task that was switched out goes on behind its call. -/
theorem resumes_of_waits {m m' : Machine} {t : Task}
    (waits : tasks.Waits m'.mem t (.called m))
    (esp : m'.gpr .esp = m'.mem.load (tasks.address t))
    : Resumes m (run m' restoreContext) := by
  obtain ⟨-, -, holds, field⟩ := waits
  obtain ⟨eip', eflags', ebp', eax', ebx', ecx', edx', esi', edi', esp'⟩ :=
    restores_of_holds holds (esp.trans field)
  refine ⟨eip', ?_, ?_⟩
  · rw [eflags', Eflags.ofWord_val]
  · intro r
    cases r with
    | eax => exact eax'
    | ecx => exact ecx'
    | edx => exact edx'
    | ebx => exact ebx'
    | esp => exact esp'
    | ebp => exact ebp'
    | esi => exact esi'
    | edi => exact edi'

/-- A task that was built comes to its entry through the end of the interrupt handlers. The words
on its stack are those that `ktask_create` stored; the two pieces of code pop them in this order.
-/
theorem enters_of_waits {m' : Machine} {t : Task} {entry args : BitVec 32}
    (waits : tasks.Waits m'.mem t (.created entry args))
    (esp : m'.gpr .esp = m'.mem.load (tasks.address t))
    : (run m' restoreContext).eip = tasks.popAndIret
      ∧ Enters (run (run m' restoreContext) irqCommonHandlerPopAndIret) entry args := by
  obtain ⟨size, first, second, field⟩ := waits
  have below : tasks.stackTop t - 56 - BitVec.ofNat 32 (4 * 4) = tasks.stackTop t - 72 := by
    bv_omega
  have frame := second.drop 4
  rw [below] at frame
  have esp₁ : m'.gpr .esp = tasks.stackTop t - 72 - 36 := by
    rw [esp, field]
    bv_omega
  obtain ⟨eip₁, -, -, -, -, -, -, -, -, esp₂⟩ := restores_of_holds frame esp₁
  obtain ⟨mem₁, -⟩ := run_restoreContext m'
  obtain ⟨mem₂, gs, fs, es, ds, eip₂, cs, eflags, esp₃⟩ :=
    run_irqCommonHandlerPopAndIret (run m' restoreContext)
  rw [mem₁, esp₂] at gs fs es ds eip₂ cs eflags
  rw [esp₂] at esp₃
  have segments (k : BitVec 32) (i : Nat) (inside : i < 4)
      (place : tasks.stackTop t - 72 + k
        = tasks.stackTop t - 56 - BitVec.ofNat 32 (4 * (i + 1)))
      : m'.mem.load (tasks.stackTop t - 72 + k) = 0x10 := by
    have length : (switchWords tasks.popAndIret).length = 13 := rfl
    rw [place, second i (by omega)]
    interval_cases i <;> rfl
  have words (k : BitVec 32) (i : Nat) (inside : i < 5)
      (place : tasks.stackTop t - 72 + k = tasks.stackTop t - BitVec.ofNat 32 (4 * (i + 1)))
      : m'.mem.load (tasks.stackTop t - 72 + k) = (entryWords entry args).get ⟨i, inside⟩ := by
    rw [place]
    exact first i inside
  have top := segments 0 3 (by decide) (by bv_omega)
  have zero : tasks.stackTop t - 72 + 0 = tasks.stackTop t - 72 := BitVec.add_zero _
  rw [zero] at top
  refine ⟨eip₁, ?_, ?_, ?_, ?_, ?_, ?_⟩
  · rw [eip₂]
    exact words 52 4 (by decide) (by bv_omega)
  · rw [cs, words 56 3 (by decide) (by bv_omega)]
    rfl
  · have enabled : (Eflags.ofWord 0x200).interrupts = true := by decide
    rw [eflags, words 60 2 (by decide) (by bv_omega)]
    exact enabled
  · intro s
    cases s with
    | ds =>
        rw [ds, segments 12 0 (by decide) (by bv_omega)]
        rfl
    | es =>
        rw [es, segments 8 1 (by decide) (by bv_omega)]
        rfl
    | fs =>
        rw [fs, segments 4 2 (by decide) (by bv_omega)]
        rfl
    | gs =>
        rw [gs, top]
        rfl
  · rw [Machine.top, mem₂, mem₁, esp₃]
    exact words 64 1 (by decide) (by bv_omega)
  · have last : tasks.stackTop t - 72 + 64 + 4 = tasks.stackTop t - 72 + 68 := by bv_omega
    rw [mem₂, mem₁, esp₃, last]
    exact words 68 0 (by decide) (by bv_omega)

/-- In every run of tasks on stacks of their own, a call of `mt_switch_task` makes its argument the
current task. If that task was switched out before, it goes on behind its own last call with the
registers it had there; if it was built and has not been switched out since, it comes to its entry.
A task that does not run waits with its context on its own stack, which no other task changes; this
is kept along the run, and the code of `mt_switch_task` is run instruction by instruction on it.
-/
theorem run_switches [DecidableEq Task] {m m' : Machine} {steps : List (Machine × Event Task)}
    {t : Task} (run : tasks.system.Run m' ((m, .switch t) :: steps))
    : tasks.Current m' t
      ∧ (∀ σ, tasks.origin t ((m, .switch t) :: steps) = some (.called σ) → Resumes σ m')
      ∧ ∀ entry args, tasks.origin t ((m, .switch t) :: steps) = some (.created entry args)
        → m'.eip = tasks.popAndIret
          ∧ Enters (X86.run m' irqCommonHandlerPopAndIret) entry args := by
  cases run with
  | next earlier taken =>
      have kept := Kept.run earlier
      obtain ⟨cur, current, calls, rfl⟩ := taken
      obtain ⟨m₁, called, mem, esp⟩ := call_mtSwitchTask current calls
      rw [← mem] at esp
      have waits (o : Origin) (origin : tasks.origin t ((m, .switch t) :: steps) = some o)
          : tasks.Waits m₁.mem t o := by
        rw [mem]
        exact kept.switched current calls origin
      refine ⟨(current_switched current calls).1, ?_, ?_⟩
      · intro σ origin
        rw [called]
        exact resumes_of_waits (waits _ origin) esp
      · intro entry args origin
        rw [called]
        exact enters_of_waits (waits _ origin) esp

/-- Two tasks with stacks of `DEFAULT_STACK_SIZE` bytes. -/
def twoTasks : TaskLayout Bool where
  curTask := 0x1000
  popAndIret := 0x9000
  address t := if t then 0x2000 else 0x3000
  stack t := if t then ⟨0x10000, 0x14000⟩ else ⟨0x20000, 0x24000⟩
  curTask_fits := by decide
  address_fits := by decide
  stack_inside := by decide
  stacks_apart := by decide
  fields_apart := by decide
  stack_field := by decide
  stack_curTask := by decide
  field_curTask := by decide

def firstTask : Machine where
  gpr r := if r = .esp then 0x13000 else 0x55
  seg _ := 0x10
  cs := 0x8
  eip := 0xC000
  eflags := Eflags.ofWord 0x200
  mem := (Memory.store (fun _ => 0) 0x1000 0x2000).store 0x13000 0x3000

def callBack (m : Machine) : Machine :=
  { m.set .esp 0x23000 with mem := m.mem.store 0x23000 0x2000 }

/-- The first task builds the other one and switches to it, and it switches back: the other one
comes to its entry, and the first one goes on behind its call.
-/
theorem run_switches_twoTasks
    : ∃ m₁ m₂ m₃ m₄ steps, twoTasks.system.Run m₂ [(m₁, .switch false), steps]
        ∧ Enters (X86.run m₂ irqCommonHandlerPopAndIret) 0xE000 7
        ∧ twoTasks.system.Run m₄
          [(m₃, .switch true), (m₂, .work), (m₁, .switch false), steps]
        ∧ Resumes m₁ m₄ := by
  have built : twoTasks.system.Run (twoTasks.ktaskCreate firstTask false 0xE000 7)
      [(firstTask, .create false 0xE000 7)] :=
    .next (.start ⟨true, by decide⟩) ⟨true, by decide, by decide, by decide, rfl⟩
  generalize made : twoTasks.ktaskCreate firstTask false 0xE000 7 = m₁ at built
  have current₁ : twoTasks.Current m₁ true := by
    rw [← made]
    decide +kernel
  have calls₁ : twoTasks.Calls true m₁ false := by
    rw [← made]
    exact ⟨by decide +kernel, by decide +kernel, by decide +kernel⟩
  have switched : twoTasks.system.Run (call m₁ (mtSwitchTask twoTasks.curTask))
      [(m₁, .switch false), (firstTask, .create false 0xE000 7)] :=
    .next built ⟨true, current₁, calls₁, rfl⟩
  have current₂ := (current_switched current₁ calls₁).1
  generalize call m₁ (mtSwitchTask twoTasks.curTask) = m₂ at switched current₂
  have works : twoTasks.Works false m₂ (callBack m₂) :=
    ⟨fun t ne => agreeOn_store _ _ (by decide) (by revert t; decide),
      fun t ne => agreeOn_store _ _ (by decide) (by revert t; decide),
      agreeOn_store _ _ (by decide) (by decide)⟩
  have worked : twoTasks.system.Run (callBack m₂)
      [(m₂, .work), (m₁, .switch false), (firstTask, .create false 0xE000 7)] :=
    switched.next ⟨false, current₂, works⟩
  have current₃ : twoTasks.Current (callBack m₂) false := by
    rw [Current, works.curTask.load twoTasks.curTask_fits]
    exact current₂
  have esp : (callBack m₂).gpr .esp = 0x23000 := rfl
  have calls₃ : twoTasks.Calls false (callBack m₂) true := by
    refine ⟨load_store _ _ _, ?_, ?_⟩
    · rw [esp]
      decide
    · rw [esp]
      decide
  have back : twoTasks.system.Run (call (callBack m₂) (mtSwitchTask twoTasks.curTask))
      [(callBack m₂, .switch true), (m₂, .work), (m₁, .switch false),
        (firstTask, .create false 0xE000 7)] :=
    worked.next ⟨false, current₃, calls₃, rfl⟩
  obtain ⟨-, -, enters⟩ := run_switches switched
  obtain ⟨-, resumes, -⟩ := run_switches back
  refine ⟨m₁, m₂, _, _, _, switched, (enters 0xE000 7 ?_).2, back, resumes m₁ ?_⟩
  · rw [origin, if_neg (fun here => absurd (current₁.unique here) (by decide))]
    rfl
  · rw [origin, if_neg (fun here => absurd (current₃.unique here) (by decide)), origin, origin,
      if_pos current₁]

end TaskLayout

end Hydrangea
