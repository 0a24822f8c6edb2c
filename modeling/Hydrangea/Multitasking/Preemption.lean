import Hydrangea.Cpu.InterruptFrames
import Hydrangea.Multitasking.TaskSwitch

/-! Tasks that interrupts stop, in a user program or in the kernel, while `mt_schedule` of
`kernel/multitasking/scheduler.c` lets other ones run. What an interrupt has found of a task waits
in frames on the stack of the task in the kernel, until the wrappers return through them.
-/

namespace Hydrangea

open X86 Memory TransitionSystem

/-- Tasks in memory with what interrupts need: the stubs, `tss`, the memory that `gdt_init` has
found, and the stack in each `task_t`. The first task is the one that `kmain` goes on as, on its
own stack instead.
-/
structure InterruptLayout (Task : Type*) extends TaskLayout Task where
  stub : Stub → BitVec 32
  tss : BitVec 32
  found : Memory
  allocatedStack : Task → BitVec 32
  first : Task
  tss_fits : tss.toNat + 104 ≤ 2 ^ 32
  tss_limit : 9 ≤ (tss.toNat + 104) % 2 ^ 20
  stack_tss : ∀ t, (stack t).Apart ⟨tss.toNat, tss.toNat + 104⟩
  field_tss : ∀ t, (wordAt (address t)).Apart ⟨tss.toNat, tss.toNat + 104⟩
  curTask_tss : (wordAt curTask).Apart ⟨tss.toNat, tss.toNat + 104⟩
  stack_allocated : ∀ t, t ≠ first →
    stack t = ⟨(allocatedStack t).toNat, (allocatedStack t).toNat + defaultStackSize⟩

/-- The processor, the tasks there are, and what interrupts have found of each task, the latest
one first.
-/
structure Interrupted (Task : Type*) where
  cpu : Cpu
  made : Set Task
  found : Task → List Cpu

/-- What happens next: a user program or the kernel works, an interrupt comes, its handler changes
the registers it has saved, or the wrapper returns from it, `mt_schedule` switches to a task,
`ktask_create` builds one or `task_destroy` frees it, or `utask_exec` calls `go_usermode`.
-/
inductive InterruptedEvent (Task : Type*) where
  | user
  | work
  | interrupt (vector : BitVec 8) (software : Bool) (error : Option (BitVec 32))
  | results (g : Reg → BitVec 32)
  | resume
  | schedule (t : Task)
  | create (t : Task) (entry args : BitVec 32)
  | destroy (t : Task)
  | goUsermode

namespace InterruptLayout

variable {Task : Type*} (k : InterruptLayout Task)

def tables : Tables :=
  kernelTables k.stub k.tss k.found

/-- The fields `esp0` and `ss0` of `tss`. -/
def ring0 : Region :=
  ⟨k.tss.toNat + 4, k.tss.toNat + 12⟩

def frame (c : Cpu) : Region :=
  ⟨(frameAt k.tss c).toNat, (frameTop k.tss c).toNat⟩

/-- Where the part of a stack ends that is free below the frames on it. -/
def bound (t : Task) : List Cpu → Nat
  | [] => (k.stack t).stop
  | c :: _ => (frameAt k.tss c).toNat

/-- Memory changes nowhere but where the current task may change it in the kernel: not in
`cur_task`, in `tss`, in other tasks, or in frames.
-/
structure Keeps (s : Interrupted Task) (cur : Task) (mem mem' : Memory) : Prop where
  curTask : AgreeOn (wordAt k.curTask) mem mem'
  tss : AgreeOn k.ring0 mem mem'
  others : ∀ t ∈ s.made, t ≠ cur → AgreeOn (k.stack t) mem mem'
  fields : ∀ t ∈ s.made, t ≠ cur → AgreeOn (wordAt (k.address t)) mem mem'
  frames : ∀ c ∈ s.found cur, AgreeOn (k.frame c) mem mem'

/-- The current task works in the kernel, on its own stack below the frames. -/
structure Works (s : Interrupted Task) (cur : Task) (c c' : Cpu) : Prop where
  before : c.cpl = 0
  behind : c'.cpl = 0
  ss : c'.ss = c.ss
  runs : k.tables.Runs c'
  low : (k.stack cur).start ≤ (c'.gpr .esp).toNat
  high : (c'.gpr .esp).toNat ≤ k.bound cur (s.found cur)
  keeps : k.Keeps s cur c.mem c'.mem

/-- The part of `mt_schedule` behind its choice of a task, with interrupts off: it sets the stack
of the task in `tss`, changes fields of both tasks and the page directory, and calls
`mt_switch_task`.
-/
def schedule (s : Interrupted Task) (cur t : Task) (c' : Cpu) : Prop :=
  let esp0 := k.allocatedStack t + BitVec.ofNat 32 defaultStackSize
  let c := { s.cpu with mem := tssSetEsp0 k.tss s.cpu.mem esp0 }
  ∃ c₁, k.Works s cur c c₁ ∧ k.Calls cur c₁.toMachine t
    ∧ c' = { c₁ with toMachine := call c₁.toMachine (mtSwitchTask k.curTask) }

def step [DecidableEq Task] (s : Interrupted Task) (event : InterruptedEvent Task)
    (s' : Interrupted Task)
    : Prop :=
  ∃ cur, k.Current s.cpu.toMachine cur ∧
    match event with
    | .user =>
        ∃ c', s.cpu.cpl ≠ 0 ∧ c'.cpl ≠ 0 ∧ k.tables.Runs c'
          ∧ k.Keeps s cur s.cpu.mem c'.mem ∧ s' = { s with cpu := c' }
    | .work => ∃ c', k.Works s cur s.cpu c' ∧ s' = { s with cpu := c' }
    | .interrupt vector software error =>
        ∃ stub c', stubOf vector.toNat = some stub
          ∧ (software = true → s.cpu.cpl = 0 ∨ vector = 128)
          ∧ error.isSome = stub.leavesCode
          ∧ (s.cpu.cpl = 0 → (k.stack cur).start + 76 ≤ (s.cpu.gpr .esp).toNat)
          ∧ k.tables.interrupt s.cpu vector software error = .ok c'
          ∧ s' = { s with
              cpu := c'.run stub.entry
              found := Function.update s.found cur (s.cpu :: s.found cur) }
    | .results g =>
        ∃ c mem rest, s.found cur = c :: rest ∧ s.cpu.cpl = 0
          ∧ Registers.load mem (frameAt k.tss c)
            = (Registers.load s.cpu.mem (frameAt k.tss c)).withGpr g
          ∧ k.Keeps { s with found := Function.update s.found cur rest } cur s.cpu.mem mem
          ∧ s' = { s with
              cpu := { s.cpu with mem }
              found := Function.update s.found cur (withResults c g :: rest) }
    | .resume =>
        ∃ c rest c', s.found cur = c :: rest ∧ s.cpu.cpl = 0
          ∧ s.cpu.gpr .esp = frameAt k.tss c - 4
          ∧ k.tables.iret (s.cpu.run handlerRestore) = .ok c'
          ∧ s' = { s with cpu := c', found := Function.update s.found cur rest }
    | .schedule t => ∃ c', t ∈ s.made ∧ k.schedule s cur t c' ∧ s' = { s with cpu := c' }
    | .create t entry args =>
        t ∉ s.made ∧ t ≠ k.first ∧ s.cpu.cpl = 0
          ∧ s' = {
              cpu := { s.cpu with toMachine := k.ktaskCreate s.cpu.toMachine t entry args }
              made := insert t s.made
              found := Function.update s.found t [] }
    | .destroy t =>
        t ≠ cur ∧ s.cpu.cpl = 0 ∧ s' = { s with made := s.made \ {t} }
    | .goUsermode =>
        ∃ c', s.cpu.cpl = 0 ∧ cur ≠ k.first ∧ s.found cur = []
          ∧ (k.stack cur).start + 20 ≤ (s.cpu.gpr .esp).toNat
          ∧ (s.cpu.gpr .esp).toNat + 8 ≤ (k.stack cur).stop
          ∧ k.tables.iret (s.cpu.run Hydrangea.goUsermode) = .ok c'
          ∧ s' = { s with cpu := c' }

/-- `kmain` starts to be interrupted as the first task, the only one, on a stack of the kernel. -/
structure Starts (s : Interrupted Task) : Prop where
  current : k.Current s.cpu.toMachine k.first
  made : s.made = {k.first}
  found : s.found k.first = []
  ring : s.cpu.cpl = 0
  ss : s.cpu.ss = 0x10
  runs : k.tables.Runs s.cpu
  low : (k.stack k.first).start ≤ (s.cpu.gpr .esp).toNat
  high : (s.cpu.gpr .esp).toNat ≤ (k.stack k.first).stop
  ss0 : (s.cpu.mem.load (k.tss + 8)).setWidth 16 = 0x10#16

def interruptions [DecidableEq Task] : TransitionSystem (Interrupted Task) (InterruptedEvent Task)
    where
  init := k.Starts
  step := k.step

/-- The user program of a task after the steps of a run, latest first, while it does not run: as the
last interrupt of it has found it, with the results of its handler.
-/
def program [DecidableEq Task] (t : Task)
    : List (Interrupted Task × InterruptedEvent Task) → Option Cpu
  | [] => none
  | (s, .interrupt ..) :: steps =>
      if k.Current s.cpu.toMachine t ∧ s.cpu.cpl ≠ 0 then some s.cpu else program t steps
  | (s, .results g) :: steps =>
      if k.Current s.cpu.toMachine t ∧ (s.found t).length = 1 then
        (program t steps).map (withResults · g)
      else program t steps
  | (_, .user) :: steps | (_, .work) :: steps | (_, .resume) :: steps
  | (_, .schedule _) :: steps | (_, .create ..) :: steps | (_, .destroy _) :: steps
  | (_, .goUsermode) :: steps => program t steps

-----------------------------------------------------------------------------------------
-- Frames
-----------------------------------------------------------------------------------------

/-- A frame in memory: the words of it, below those of the earlier interrupts of the task. A user
program is interrupted before all of them, and no program is the first task.
-/
structure Framed (mem : Memory) (t : Task) (rest : List Cpu) (c : Cpu) : Prop where
  holds : ∃ intNum errCode, mem.Holds (frameTop k.tss c) (frameWords c intNum errCode)
  runs : k.tables.Runs c
  room : (k.stack t).start + 76 ≤ (frameTop k.tss c).toNat
  below : (frameTop k.tss c).toNat ≤ k.bound t rest
  user : c.cpl ≠ 0 → rest = [] ∧ t ≠ k.first
  kernel : c.cpl = 0 → c.ss = 0x10

def Frames (mem : Memory) (t : Task) : List Cpu → Prop
  | [] => True
  | c :: rest => k.Framed mem t rest c ∧ Frames mem t rest

/-- How a task waits to be switched to: in its call of `mt_switch_task` below its frames, or as it
was built.
-/
def Paused (mem : Memory) (t : Task) (found : List Cpu) : Prop :=
  (∃ m, k.Waits mem t (.called m) ∧ (m.gpr .esp).toNat ≤ k.bound t found)
    ∨ ∃ entry args, k.Waits mem t (.created entry args) ∧ found = []

variable {k} {mem mem' : Memory} {t : Task} {c : Cpu} {found rest : List Cpu}

theorem frame_size (room : 76 ≤ (frameTop k.tss c).toNat)
    : (frameAt k.tss c).toNat + (if c.cpl = 0 then 64 else 72) = (frameTop k.tss c).toNat := by
  rw [frameAt]
  split <;> bv_omega

theorem Framed.size (framed : k.Framed mem t rest c)
    : (frameAt k.tss c).toNat + (if c.cpl = 0 then 64 else 72) = (frameTop k.tss c).toNat :=
  frame_size (Nat.le_trans (Nat.le_add_left ..) framed.room)

/-- A frame lies on the stack of its task, by induction on the frames. -/
theorem Frames.bound_le (frames : k.Frames mem t found) : k.bound t found ≤ (k.stack t).stop := by
  induction found with
  | nil => exact Nat.le_refl _
  | cons c rest ih =>
      have size := frames.1.size
      have below := frames.1.below
      have behind := ih frames.2
      simp only [bound] at *
      omega

theorem Frames.within (frames : k.Frames mem t found) {c : Cpu} (member : c ∈ found)
    : k.bound t found ≤ (k.frame c).start ∧ (k.frame c).Within (k.stack t) := by
  induction found with
  | nil => cases member
  | cons c' rest ih =>
      have size := frames.1.size
      have below := frames.1.below
      have behind := frames.2.bound_le
      have room := frames.1.room
      rcases List.mem_cons.mp member with rfl | later
      · refine ⟨Nat.le_refl _, ?_, ?_⟩
        · simp only [frame]
          split at size <;> omega
        · simp only [frame]
          omega
      · obtain ⟨above, inside⟩ := ih frames.2 later
        refine ⟨?_, inside⟩
        simp only [bound] at *
        omega

/-- Frames stay in memory that agrees on their places, by induction on them. -/
theorem Frames.agree (frames : k.Frames mem t found)
    (same : ∀ c ∈ found, AgreeOn (k.frame c) mem mem')
    : k.Frames mem' t found := by
  induction found with
  | nil => trivial
  | cons c rest ih =>
      obtain ⟨framed, behind⟩ := frames
      obtain ⟨intNum, errCode, holds⟩ := framed.holds
      have size := framed.size
      have length := frameWords_length c intNum errCode
      have holds' : mem'.Holds (frameTop k.tss c) (frameWords c intNum errCode) := by
        apply holds.agree (same c List.mem_cons_self)
        · simp only [frame, length]
          omega
        · exact Nat.le_refl _
      exact ⟨{ framed with holds := ⟨intNum, errCode, holds'⟩ },
        ih behind (fun c' later => same c' (List.mem_cons_of_mem _ later))⟩

theorem Frames.agree_stack (frames : k.Frames mem t found)
    (same : AgreeOn (k.stack t) mem mem')
    : k.Frames mem' t found :=
  frames.agree (fun _ member => same.within (frames.within member).2)

theorem Paused.agree (paused : k.Paused mem t found) (stack : AgreeOn (k.stack t) mem mem')
    (field : AgreeOn (wordAt (k.address t)) mem mem')
    : k.Paused mem' t found := by
  rcases paused with ⟨m, waits, below⟩ | ⟨entry, args, waits, none⟩
  · exact .inl ⟨m, waits.agree stack field, below⟩
  · exact .inr ⟨entry, args, waits.agree stack field, none⟩

-----------------------------------------------------------------------------------------
-- What every step keeps
-----------------------------------------------------------------------------------------

/-- What memory keeps: the current task, the frames of all tasks, and how the others wait. -/
structure Stored (k : InterruptLayout Task) (s : Interrupted Task) (cur : Task) (mem : Memory)
    : Prop where
  current : mem.load k.curTask = k.address cur
  ss0 : (mem.load (k.tss + 8)).setWidth 16 = 0x10#16
  frames : ∀ t ∈ s.made, k.Frames mem t (s.found t)
  paused : ∀ t ∈ s.made, t ≠ cur → k.Paused mem t (s.found t)

/-- The invariant: `tss` has the stack of the current task, which runs below its frames in the
kernel, and as a user program with none.
-/
structure Inv (k : InterruptLayout Task) (s : Interrupted Task) (cur : Task) : Prop where
  stored : k.Stored s cur s.cpu.mem
  esp0 : cur ≠ k.first →
    s.cpu.mem.load (k.tss + 4) = k.allocatedStack cur + BitVec.ofNat 32 defaultStackSize
  made : cur ∈ s.made
  runs : k.tables.Runs s.cpu
  kernel : s.cpu.cpl = 0 → s.cpu.ss = 0x10 ∧ (k.stack cur).start ≤ (s.cpu.gpr .esp).toNat
    ∧ (s.cpu.gpr .esp).toNat ≤ k.bound cur (s.found cur)
  user : s.cpu.cpl ≠ 0 → s.found cur = [] ∧ cur ≠ k.first

variable {s s' : Interrupted Task} {cur : Task}

/-- The words of `tss` that interrupts read. -/
theorem ring0_words (k : InterruptLayout Task)
    : (wordAt (k.tss + 4)).Within k.ring0 ∧ (wordAt (k.tss + 8)).Within k.ring0
      ∧ Fits (k.tss + 4) ∧ Fits (k.tss + 8) := by
  have fits := k.tss_fits
  have low : (k.tss + 4).toNat = k.tss.toNat + 4 := by bv_omega
  have high : (k.tss + 8).toNat = k.tss.toNat + 8 := by bv_omega
  simp only [Region.Within, wordAt, ring0, Fits, low, high]
  omega

/-- What memory keeps does not depend on the registers. -/
theorem Stored.with_cpu (stored : k.Stored s cur mem) : k.Stored { s with cpu := c } cur mem :=
  ⟨stored.current, stored.ss0, stored.frames, stored.paused⟩

/-- Memory that changes only where it may keeps everything. -/
theorem Stored.keeps (stored : k.Stored s cur mem) (made : cur ∈ s.made)
    (keeps : k.Keeps s cur mem mem')
    : k.Stored s cur mem' := by
  obtain ⟨-, high, -, fits⟩ := ring0_words k
  refine ⟨?_, ?_, fun t member => ?_, fun t member other => ?_⟩
  · rw [keeps.curTask.load k.curTask_fits, stored.current]
  · rw [(keeps.tss.within high).load fits, stored.ss0]
  · by_cases same : t = cur
    · subst same
      exact (stored.frames t member).agree keeps.frames
    · exact (stored.frames t member).agree_stack (keeps.others t member same)
  · exact (stored.paused t member other).agree (keeps.others t member other)
      (keeps.fields t member other)

theorem Keeps.refl (k : InterruptLayout Task) (s : Interrupted Task) (cur : Task) (mem : Memory)
    : k.Keeps s cur mem mem where
  curTask := .refl _ mem
  tss := .refl _ mem
  others _ _ _ := .refl _ mem
  fields _ _ _ := .refl _ mem
  frames _ _ := .refl _ mem

theorem Keeps.esp0 (keeps : k.Keeps s cur mem mem')
    : mem'.load (k.tss + 4) = mem.load (k.tss + 4) := by
  obtain ⟨low, -, fits, -⟩ := ring0_words k
  exact (keeps.tss.within low).load fits

/-- A change within the part of a stack that is free keeps everything. -/
theorem Stored.keeps_below (stored : k.Stored s cur mem) (made : cur ∈ s.made) {r : Region}
    (low : (k.stack cur).start ≤ r.start) (high : r.stop ≤ k.bound cur (s.found cur))
    (same : ∀ r', r.Apart r' → AgreeOn r' mem mem')
    : k.Keeps s cur mem mem' := by
  have frames := stored.frames cur made
  have within : r.Within (k.stack cur) := ⟨low, Nat.le_trans high frames.bound_le⟩
  have apart {r' : Region} (away : (k.stack cur).Apart r') : AgreeOn r' mem mem' :=
    same r' (away.within within)
  have tss : k.ring0.Within ⟨k.tss.toNat, k.tss.toNat + 104⟩ := by
    simp only [Region.Within, ring0]
    omega
  refine ⟨apart (k.stack_curTask cur), ?_, fun t _ other => ?_, fun t _ other => ?_,
    fun c member => ?_⟩
  · exact (apart (k.stack_tss cur)).within tss
  · exact apart (k.stacks_apart cur t (Ne.symm other))
  · exact apart (k.stack_field cur t)
  · exact same _ (.inl (Nat.le_trans high (frames.within member).1))

-----------------------------------------------------------------------------------------
-- Interrupts and returns from them
-----------------------------------------------------------------------------------------

theorem allocatedStack_end (other : t ≠ k.first)
    : (k.allocatedStack t + BitVec.ofNat 32 defaultStackSize).toNat = (k.stack t).stop
      ∧ (k.stack t).start + defaultStackSize = (k.stack t).stop := by
  have inside := k.stack_inside t
  rw [k.stack_allocated t other] at inside ⊢
  simp only [defaultStackSize] at *
  exact ⟨by bv_omega, trivial⟩

/-- Frames are on the stack of the current task: below the stack pointer in the kernel, and at the
end of the stack in a user program.
-/
theorem Inv.frameTop_bound (inv : k.Inv s cur)
    (room : s.cpu.cpl = 0 → (k.stack cur).start + 76 ≤ (s.cpu.gpr .esp).toNat)
    : (k.stack cur).start + 76 ≤ (frameTop k.tss s.cpu).toNat
      ∧ (frameTop k.tss s.cpu).toNat ≤ k.bound cur (s.found cur) := by
  by_cases inside : s.cpu.cpl = 0
  · have top : frameTop k.tss s.cpu = s.cpu.gpr .esp := if_pos inside
    rw [top]
    exact ⟨room inside, (inv.kernel inside).2.2⟩
  · obtain ⟨none, other⟩ := inv.user inside
    obtain ⟨stop, size⟩ := allocatedStack_end other
    have top : frameTop k.tss s.cpu
        = k.allocatedStack cur + BitVec.ofNat 32 defaultStackSize :=
      (if_neg inside).trans (inv.esp0 other)
    rw [top, none, stop, ← size, bound, ← size, defaultStackSize]
    omega

/-- The kernel is prepared for interrupts wherever there is room for a frame. -/
theorem Inv.prepared (inv : k.Inv s cur)
    (room : s.cpu.cpl = 0 → (k.stack cur).start + 76 ≤ (s.cpu.gpr .esp).toNat)
    : Prepared k.tss s.cpu where
  ss0 := inv.stored.ss0
  limit _ := k.tss_limit
  room := Nat.le_trans (Nat.le_add_left ..) (inv.frameTop_bound room).1

/-- The frame of a user program is at the end of the stack of its task. -/
theorem Inv.frame_user (inv : k.Inv s cur) (user : s.cpu.cpl ≠ 0)
    : k.frame s.cpu = ⟨(k.stack cur).stop - 72, (k.stack cur).stop⟩ := by
  obtain ⟨-, other⟩ := inv.user user
  have size := frame_size (k := k) (c := s.cpu)
    (Nat.le_trans (Nat.le_add_left ..) (inv.frameTop_bound (absurd · user)).1)
  obtain ⟨stop, -⟩ := allocatedStack_end other
  have top : (frameTop k.tss s.cpu).toNat = (k.stack cur).stop := by
    rw [frameTop, if_neg user, inv.esp0 other, stop]
  rw [if_neg user] at size
  simp only [frame, top, Region.mk.injEq, and_true]
  omega

section

variable [DecidableEq Task] {vector : BitVec 8} {software : Bool} {error : Option (BitVec 32)}
  {stub : Stub}

def handled (k : InterruptLayout Task) (s : Interrupted Task) (cur : Task) (vector : BitVec 8)
    (error : Option (BitVec 32)) (stub : Stub) : Interrupted Task :=
  { s with
    cpu := (entered k.stub k.tss s.cpu vector error).run stub.entry
    found := Function.update s.found cur (s.cpu :: s.found cur) }

/-- An interrupt changes nothing but the free part of the stack of the current task. -/
theorem Inv.handled_keeps (inv : k.Inv s cur)
    (room : s.cpu.cpl = 0 → (k.stack cur).start + 76 ≤ (s.cpu.gpr .esp).toNat)
    (coded : error.isSome = stub.leavesCode)
    : k.Keeps s cur s.cpu.mem (k.handled s cur vector error stub).cpu.mem
      ∧ ∀ r, (k.stack cur).Apart r
        → AgreeOn r s.cpu.mem (k.handled s cur vector error stub).cpu.mem := by
  obtain ⟨mem, -⟩ := @run_entered k.stub k.tss s.cpu vector error stub coded
  obtain ⟨low, high⟩ := inv.frameTop_bound room
  have length : 4 * (frameWords s.cpu stub.intNum (error.getD 0) ++ [frameAt k.tss s.cpu]).length
      ≤ 76 := by
    have words := frameWords_length s.cpu stub.intNum (error.getD 0)
    rw [List.length_append, List.length_singleton, Nat.mul_add, words]
    split <;> decide
  have frames := (inv.stored.frames cur inv.made).bound_le
  have pushed (r : Region)
      (apart : (Region.mk ((frameTop k.tss s.cpu).toNat - 76) (frameTop k.tss s.cpu).toNat).Apart r)
      : AgreeOn r s.cpu.mem (k.handled s cur vector error stub).cpu.mem := by
    simp only [handled, mem]
    apply agreeOn_pushWords
    · omega
    · apply apart.within
      simp only [Region.Within]
      omega
  refine ⟨inv.stored.keeps_below inv.made ?_ high pushed, fun r apart => ?_⟩
  · simp only
    omega
  · apply pushed
    apply apart.within
    simp only [Region.Within]
    omega

/-- An interrupt calls its handler below a new frame. The frame is pushed on the stack of the
current task below all other ones, so nothing that is kept is stored over.
-/
theorem Inv.handled (inv : k.Inv s cur)
    (room : s.cpu.cpl = 0 → (k.stack cur).start + 76 ≤ (s.cpu.gpr .esp).toNat)
    (stubFound : stubOf vector.toNat = some stub) (coded : error.isSome = stub.leavesCode)
    : k.Inv (k.handled s cur vector error stub) cur := by
  have keeps : k.Keeps s cur s.cpu.mem (k.handled s cur vector error stub).cpu.mem :=
    (inv.handled_keeps room coded).1
  have stored := inv.stored.keeps inv.made keeps
  obtain ⟨low, high⟩ := inv.frameTop_bound room
  obtain ⟨mem, esp, -, ring⟩ := @run_entered k.stub k.tss s.cpu vector error stub coded
  have ss (inside : s.cpu.cpl = 0) : s.cpu.ss = 0x10 := (inv.kernel inside).1
  obtain ⟨runs, ss0⟩ := @runs_entered k.stub k.tss k.found s.cpu vector stub error stubFound ss
  have size := frame_size (k := k) (c := s.cpu) (by omega)
  have length := frameWords_length s.cpu stub.intNum (error.getD 0)
  have holds : (k.handled s cur vector error stub).cpu.mem.Holds (frameTop k.tss s.cpu)
      (frameWords s.cpu stub.intNum (error.getD 0)) := by
    have all : (k.handled s cur vector error stub).cpu.mem.Holds (frameTop k.tss s.cpu)
        (frameWords s.cpu stub.intNum (error.getD 0) ++ [frameAt k.tss s.cpu]) := by
      simp only [InterruptLayout.handled, mem]
      apply holds_pushWords
      rw [List.length_append, List.length_singleton, Nat.mul_add, length]
      split <;> omega
    exact all.left
  have framed : k.Framed (k.handled s cur vector error stub).cpu.mem cur (s.found cur) s.cpu :=
    ⟨⟨_, _, holds⟩, inv.runs, low, high, inv.user, ss⟩
  refine ⟨⟨stored.current, stored.ss0, fun t member => ?_, fun t member other => ?_⟩,
    fun other => keeps.esp0.trans (inv.esp0 other), inv.made, runs, fun _ => ⟨ss0, ?_, ?_⟩,
    fun outside => absurd ring outside⟩
  · by_cases same : t = cur
    · subst same
      simp only [InterruptLayout.handled, Function.update_self]
      exact ⟨framed, stored.frames t member⟩
    · simp only [InterruptLayout.handled, Function.update_of_ne same]
      exact stored.frames t member
  · simp only [InterruptLayout.handled, Function.update_of_ne other]
    exact stored.paused t member other
  · have below : (frameAt k.tss s.cpu - 4).toNat = (frameAt k.tss s.cpu).toNat - 4 := by
      apply toNat_sub_four
      split at size <;> omega
    simp only [InterruptLayout.handled, esp, below]
    split at size <;> omega
  · have below : (frameAt k.tss s.cpu - 4).toNat = (frameAt k.tss s.cpu).toNat - 4 := by
      apply toNat_sub_four
      split at size <;> omega
    simp only [InterruptLayout.handled, esp, below, Function.update_self, bound]
    omega

end

section

variable [DecidableEq Task]

/-- Without the latest frame the rest is kept. -/
theorem Stored.without_latest (stored : k.Stored s cur mem) (made : cur ∈ s.made)
    (latest : s.found cur = c :: rest)
    : k.Framed mem cur rest c
      ∧ k.Stored { s with found := Function.update s.found cur rest } cur mem := by
  have frames := stored.frames cur made
  rw [latest] at frames
  refine ⟨frames.1, stored.current, stored.ss0, fun t member => ?_, fun t member other => ?_⟩
  · by_cases same : t = cur
    · subst same
      simp only [Function.update_self]
      exact frames.2
    · simp only [Function.update_of_ne same]
      exact stored.frames t member
  · simp only [Function.update_of_ne other]
    exact stored.paused t member other

/-- A handler that writes registers into the latest frame changes what it has found. -/
theorem Inv.results (inv : k.Inv s cur) (latest : s.found cur = c :: rest)
    (ring : s.cpu.cpl = 0) {g : Reg → BitVec 32}
    (registers : Registers.load mem (frameAt k.tss c)
      = (Registers.load s.cpu.mem (frameAt k.tss c)).withGpr g)
    (keeps : k.Keeps { s with found := Function.update s.found cur rest } cur s.cpu.mem mem)
    : k.Inv
        { s with
          cpu := { s.cpu with mem }
          found := Function.update s.found cur (withResults c g :: rest) } cur := by
  obtain ⟨framed, others⟩ := inv.stored.without_latest inv.made latest
  have stored := others.keeps inv.made keeps
  obtain ⟨intNum, errCode, holds⟩ := framed.holds
  have frame : (Registers.load mem (frameAt k.tss (withResults c g))).above (withResults c g)
      = Registers.of (withResults c g) intNum errCode := by
    have before := congrArg (Registers.withGpr · g) (load_frame k.tss holds)
    exact (congrArg (Registers.above · c) registers).trans before
  have framed' : k.Framed mem cur rest (withResults c g) :=
    { holds := ⟨intNum, errCode, holds_frame frame⟩
      runs := ⟨framed.runs.code, framed.runs.stack, framed.runs.data⟩
      room := framed.room
      below := framed.below
      user := framed.user
      kernel := framed.kernel }
  obtain ⟨ss, low, high⟩ := inv.kernel ring
  rw [latest] at high
  refine ⟨⟨stored.current, stored.ss0, fun t member => ?_, fun t member other => ?_⟩,
    fun other => keeps.esp0.trans (inv.esp0 other), inv.made,
    ⟨inv.runs.code, inv.runs.stack, inv.runs.data⟩, fun _ => ⟨ss, low, ?_⟩,
    fun outside => absurd ring outside⟩
  · have frames := stored.frames t member
    by_cases same : t = cur
    · subst same
      simp only [Function.update_self] at frames ⊢
      exact ⟨framed', frames⟩
    · simp only [Function.update_of_ne same] at frames ⊢
      exact frames
  · have paused := stored.paused t member other
    simp only [Function.update_of_ne other] at paused ⊢
    exact paused
  · simp only [Function.update_self]
    exact high

/-- The return from an interrupt goes on with what the interrupt has found. -/
theorem Inv.returns (inv : k.Inv s cur) (latest : s.found cur = c :: rest)
    (ring : s.cpu.cpl = 0) (esp : s.cpu.gpr .esp = frameAt k.tss c - 4)
    : k.tables.iret (s.cpu.run handlerRestore) = .ok { c with mem := s.cpu.mem } := by
  have framed := (inv.stored.without_latest inv.made latest).1
  obtain ⟨intNum, errCode, holds⟩ := framed.holds
  have frame : (Registers.load s.cpu.mem (frameAt k.tss c)).above c
      = (Registers.of c intNum errCode).withGpr c.gpr :=
    load_frame k.tss holds
  have ss (inside : c.cpl = 0) : s.cpu.ss = c.ss :=
    (inv.kernel ring).1.trans (framed.kernel inside).symm
  have returned := iret_handlerRestore framed.runs frame esp ring ss
  rwa [Function.update_eq_self] at returned

theorem Inv.resume (inv : k.Inv s cur) (latest : s.found cur = c :: rest)
    : k.Inv
        { s with
          cpu := { c with mem := s.cpu.mem }, found := Function.update s.found cur rest }
        cur := by
  obtain ⟨framed, stored⟩ := inv.stored.without_latest inv.made latest
  refine ⟨stored.with_cpu, inv.esp0, inv.made,
    ⟨framed.runs.code, framed.runs.stack, framed.runs.data⟩,
    fun inside => ⟨framed.kernel inside, ?_, ?_⟩, fun outside => ?_⟩
  · have top : frameTop k.tss c = c.gpr .esp := if_pos inside
    have room := framed.room
    rw [top] at room
    exact Nat.le_trans (Nat.le_add_right ..) room
  · have top : frameTop k.tss c = c.gpr .esp := if_pos inside
    have below := framed.below
    rw [top] at below
    simp only [Function.update_self]
    exact below
  · simp only [Function.update_self]
    exact framed.user outside

end

-----------------------------------------------------------------------------------------
-- Switches and new tasks
-----------------------------------------------------------------------------------------

/-- A user program or the kernel that keeps memory. -/
theorem Inv.user_works (inv : k.Inv s cur) (ring : s.cpu.cpl ≠ 0) (ring' : c.cpl ≠ 0)
    (runs : k.tables.Runs c) (keeps : k.Keeps s cur s.cpu.mem c.mem)
    : k.Inv { s with cpu := c } cur :=
  ⟨(inv.stored.keeps inv.made keeps).with_cpu, fun other => keeps.esp0.trans (inv.esp0 other),
    inv.made, runs, fun inside => absurd inside ring', fun _ => inv.user ring⟩

theorem Inv.works (inv : k.Inv s cur) (works : k.Works s cur s.cpu c)
    : k.Inv { s with cpu := c } cur :=
  ⟨(inv.stored.keeps inv.made works.keeps).with_cpu,
    fun other => works.keeps.esp0.trans (inv.esp0 other), inv.made, works.runs,
    fun _ => ⟨works.ss.trans (inv.kernel works.before).1, works.low, works.high⟩,
    fun outside => absurd works.behind outside⟩

/-- Setting the stack in `tss` is seen nowhere else. -/
theorem agreeOn_tssSetEsp0 (esp0 : BitVec 32) {r : Region}
    (apart : (Region.mk k.tss.toNat (k.tss.toNat + 104)).Apart r)
    : AgreeOn r mem (tssSetEsp0 k.tss mem esp0) := by
  have fits := k.tss_fits
  have low : (k.tss + 4).toNat = k.tss.toNat + 4 := by bv_omega
  have high : (k.tss + 56).toNat = k.tss.toNat + 56 := by bv_omega
  have field {a : BitVec 32} (inside : k.tss.toNat ≤ a.toNat ∧ a.toNat ≤ k.tss.toNat + 100)
      (m : Memory) : AgreeOn r m (m.store a esp0) := by
    apply agreeOn_store
    · simp only [Fits]
      omega
    · apply apart.within
      simp only [Region.Within, wordAt]
      omega
  exact (field (by omega) mem).trans (field (by omega) _)

theorem load_tssSetEsp0 (k : InterruptLayout Task) (mem : Memory) (esp0 : BitVec 32)
    : (tssSetEsp0 k.tss mem esp0).load (k.tss + 4) = esp0
      ∧ (tssSetEsp0 k.tss mem esp0).load (k.tss + 8) = mem.load (k.tss + 8) := by
  have inside := k.tss_fits
  have low : (k.tss + 4).toNat = k.tss.toNat + 4 := by bv_omega
  have middle : (k.tss + 8).toNat = k.tss.toNat + 8 := by bv_omega
  have high : (k.tss + 56).toNat = k.tss.toNat + 56 := by bv_omega
  have fits : Fits (k.tss + 4) ∧ Fits (k.tss + 8) ∧ Fits (k.tss + 56) := by
    simp only [Fits, low, middle, high]
    omega
  have first : (wordAt (k.tss + 56)).Apart (wordAt (k.tss + 4)) := by
    simp only [Region.Apart, wordAt, low, high]
    omega
  have second : (wordAt (k.tss + 56)).Apart (wordAt (k.tss + 8)) := by
    simp only [Region.Apart, wordAt, middle, high]
    omega
  have third : (wordAt (k.tss + 4)).Apart (wordAt (k.tss + 8)) := by
    simp only [Region.Apart, wordAt, low, middle]
    omega
  constructor
  · rw [tssSetEsp0, load_store_of_apart _ _ fits.2.2 fits.1 first, load_store]
  · rw [tssSetEsp0, load_store_of_apart _ _ fits.2.2 fits.2.1 second,
      load_store_of_apart _ _ fits.1 fits.2.1 third]

/-- A new stack in `tss` changes nothing that is kept but itself. -/
theorem Stored.tssSetEsp0 (stored : k.Stored s cur mem) (esp0 : BitVec 32)
    : k.Stored s cur (tssSetEsp0 k.tss mem esp0) := by
  have stack (t : Task) : AgreeOn (k.stack t) mem (Hydrangea.tssSetEsp0 k.tss mem esp0) :=
    agreeOn_tssSetEsp0 esp0 (k.stack_tss t).symm
  have field (t : Task)
      : AgreeOn (wordAt (k.address t)) mem (Hydrangea.tssSetEsp0 k.tss mem esp0) :=
    agreeOn_tssSetEsp0 esp0 (k.field_tss t).symm
  refine ⟨?_, ?_, fun t member => ?_, fun t member other => ?_⟩
  · rw [(agreeOn_tssSetEsp0 esp0 k.curTask_tss.symm).load k.curTask_fits, stored.current]
  · rw [(load_tssSetEsp0 k mem esp0).2, stored.ss0]
  · exact (stored.frames t member).agree_stack (stack t)
  · exact (stored.paused t member other).agree (stack t) (field t)

section

variable {m : Machine}

/-- A call of `mt_switch_task` leaves what lies above it on the stack alone. -/
theorem agreeOn_switched_above (calls : k.Calls cur m t) {r : Region}
    (within : r.Within (k.stack cur)) (above : (m.gpr .esp).toNat ≤ r.start)
    : AgreeOn r m.mem (k.switched m cur t) := by
  have room := calls.room
  have length : 4 * (context m).length = 36 := rfl
  have pushed : AgreeOn r m.mem (m.mem.pushWords (m.gpr .esp) (context m)) := by
    apply agreeOn_pushWords
    · omega
    · exact .inl above
  have field := ((k.stack_field cur cur).within within).symm
  have symbol := ((k.stack_curTask cur).within within).symm
  exact (pushed.trans (agreeOn_store _ _ (k.address_fits cur) field)).trans
    (agreeOn_store _ _ k.curTask_fits symbol)

/-- The code of `mt_switch_task` leaves the selectors alone. -/
theorem call_selectors (m : Machine) (curTask : BitVec 32)
    : (call m (mtSwitchTask curTask)).cs = m.cs ∧ (call m (mtSwitchTask curTask)).seg = m.seg :=
  ⟨rfl, rfl⟩

/-- A task that was built comes to the end of the interrupt handlers on its own stack. -/
theorem created_esp {m' : Machine} {entry args : BitVec 32}
    (waits : k.Waits m'.mem t (.created entry args))
    (esp : m'.gpr .esp = m'.mem.load (k.address t))
    : (k.stack t).start ≤ ((run m' restoreContext).gpr .esp).toNat
      ∧ ((run m' restoreContext).gpr .esp).toNat ≤ (k.stack t).stop := by
  obtain ⟨size, -, -, field⟩ := waits
  have top := TaskLayout.stackTop_toNat size
  obtain ⟨-, -, -, -, -, -, -, -, -, -, esp'⟩ := run_restoreContext m'
  have place : (run m' restoreContext).gpr .esp = k.stackTop t - 72 := by
    rw [esp', esp, field]
    bv_omega
  rw [place]
  simp only [defaultStackSize] at size
  constructor <;> bv_omega

/-- After a call of `mt_switch_task` every task waits to be switched to, also the one that has
called and the one that goes on.
-/
theorem Stored.paused_switched (stored : k.Stored s cur m.mem) (calls : k.Calls cur m t)
    (below : (m.gpr .esp).toNat ≤ k.bound cur (s.found cur)) {u : Task} (member : u ∈ s.made)
    : k.Paused (k.switched m cur t) u (s.found u) := by
  by_cases same : u = cur
  · subst same
    exact .inl ⟨m, TaskLayout.waits_called calls, below⟩
  · have apart := Ne.symm same
    apply (stored.paused u member same).agree
    · exact TaskLayout.agreeOn_switched calls (k.stacks_apart cur u apart)
        (k.stack_field u cur).symm (k.stack_curTask u).symm
    · exact TaskLayout.agreeOn_switched calls (k.stack_field cur u) (k.fields_apart cur u apart)
        (k.field_curTask u).symm

/-- A call of `mt_switch_task` keeps all frames, and the tasks wait. -/
theorem Stored.switched (stored : k.Stored s cur m.mem) (made : cur ∈ s.made)
    (calls : k.Calls cur m t) (below : (m.gpr .esp).toNat ≤ k.bound cur (s.found cur))
    : k.Stored s t (k.switched m cur t) := by
  obtain ⟨current, mem⟩ := TaskLayout.current_switched stored.current calls
  have tss : k.ring0.Within ⟨k.tss.toNat, k.tss.toNat + 104⟩ := by
    simp only [Region.Within, ring0]
    omega
  have same : AgreeOn k.ring0 m.mem (k.switched m cur t) :=
    (TaskLayout.agreeOn_switched calls (k.stack_tss cur) (k.field_tss cur) k.curTask_tss).within
      tss
  obtain ⟨-, high, -, fits⟩ := ring0_words k
  refine ⟨?_, ?_, fun u member => ?_, fun u member _ => ?_⟩
  · rw [← mem]
    exact current
  · rw [(same.within high).load fits, stored.ss0]
  · have frames := stored.frames u member
    by_cases own : u = cur
    · subst own
      apply frames.agree
      intro c' inside
      obtain ⟨above, within⟩ := frames.within inside
      exact agreeOn_switched_above calls within (Nat.le_trans below above)
    · apply frames.agree_stack
      exact TaskLayout.agreeOn_switched calls (k.stacks_apart cur u (Ne.symm own))
        (k.stack_field u cur).symm (k.stack_curTask u).symm
  · exact stored.paused_switched calls below member

end

/-- `mt_schedule` makes a task the current one, which goes on below its frames. The task that calls
waits in that call from then on. The one that goes on was waiting, below its frames or as it was
built, and `tss` has its stack.
-/
theorem Inv.schedule (inv : k.Inv s cur) (member : t ∈ s.made) {c' : Cpu}
    (scheduled : k.schedule s cur t c')
    : k.Inv { s with cpu := c' } t := by
  obtain ⟨c₁, works, calls, rfl⟩ := scheduled
  have stored : k.Stored s cur c₁.mem :=
    (inv.stored.tssSetEsp0 _).keeps inv.made works.keeps
  obtain ⟨m', called, mem, esp⟩ := TaskLayout.call_mtSwitchTask stored.current calls
  obtain ⟨-, mem'⟩ := TaskLayout.current_switched stored.current calls
  obtain ⟨cs, seg⟩ := call_selectors c₁.toMachine k.curTask
  obtain ⟨low, high, fits, -⟩ := ring0_words k
  have stored' : k.Stored s t (call c₁.toMachine (mtSwitchTask k.curTask)).mem := by
    rw [mem']
    exact stored.switched inv.made calls works.high
  have esp0 : (call c₁.toMachine (mtSwitchTask k.curTask)).mem.load (k.tss + 4)
      = k.allocatedStack t + BitVec.ofNat 32 defaultStackSize := by
    have within : (wordAt (k.tss + 4)).Within ⟨k.tss.toNat, k.tss.toNat + 104⟩ := by
      have inside := k.tss_fits
      have place : (k.tss + 4).toNat = k.tss.toNat + 4 := by bv_omega
      simp only [Region.Within, wordAt, place]
      omega
    have same := (TaskLayout.agreeOn_switched calls (k.stack_tss cur) (k.field_tss cur)
      k.curTask_tss).within within
    rw [mem', same.load fits, works.keeps.esp0, (load_tssSetEsp0 k _ _).1]
  have bounds : (k.stack t).start ≤ ((call c₁.toMachine (mtSwitchTask k.curTask)).gpr .esp).toNat
      ∧ ((call c₁.toMachine (mtSwitchTask k.curTask)).gpr .esp).toNat
        ≤ k.bound t (s.found t) := by
    have paused := stored.paused_switched calls works.high member
    rw [← mem] at paused esp
    rw [called]
    rcases paused with ⟨m, waits, below⟩ | ⟨entry, args, waits, none⟩
    · rw [(TaskLayout.resumes_of_waits waits esp).gpr .esp]
      exact ⟨Nat.le_trans (Nat.le_add_right ..) waits.1, below⟩
    · rw [none]
      exact created_esp waits esp
  refine ⟨stored'.with_cpu, fun _ => esp0, member, ⟨?_, ?_, ?_⟩, fun _ => ⟨?_, bounds⟩,
    fun outside => ?_⟩
  · exact works.runs.code
  · exact works.runs.stack
  · exact works.runs.data
  · exact works.ss.trans (inv.kernel works.before).1
  · exact absurd works.behind outside

/-- In the kernel the current task may use any place on its stack below its frames. -/
theorem Inv.works_at (inv : k.Inv s cur) (ring : s.cpu.cpl = 0) (esp : BitVec 32)
    (low : (k.stack cur).start ≤ esp.toNat) (high : esp.toNat ≤ k.bound cur (s.found cur))
    : k.Works s cur s.cpu { s.cpu with toMachine := s.cpu.set .esp esp } where
  before := ring
  behind := ring
  ss := rfl
  runs := ⟨inv.runs.code, inv.runs.stack, inv.runs.data⟩
  low := by simpa [Machine.set] using low
  high := by simpa [Machine.set] using high
  keeps := .refl k s cur s.cpu.mem

/-- In the kernel the current task may call `mt_switch_task` for any task, with room for the
argument and the context below its frames.
-/
theorem Inv.schedules (inv : k.Inv s cur) (ring : s.cpu.cpl = 0)
    (room : (k.stack cur).start + 40 ≤ k.bound cur (s.found cur)) (t : Task)
    : ∃ c', k.schedule s cur t c' ∧ c'.cpl = 0 := by
  have stop := k.stack_inside cur
  have behind := (inv.stored.frames cur inv.made).bound_le
  obtain ⟨sp, place⟩ : ∃ sp : BitVec 32, sp.toNat + 4 = k.bound cur (s.found cur) :=
    ⟨BitVec.ofNat 32 (k.bound cur (s.found cur) - 4), by
      rw [BitVec.toNat_ofNat, Nat.mod_eq_of_lt (by omega)]
      omega⟩
  let mem := tssSetEsp0 k.tss s.cpu.mem (k.allocatedStack t + BitVec.ofNat 32 defaultStackSize)
  let c₁ : Cpu :=
    { s.cpu with
      toMachine := { s.cpu.set .esp sp with mem := mem.store sp (k.address t) } }
  have esp : c₁.gpr .esp = sp := by simp [c₁, Machine.set]
  have works : k.Works s cur { s.cpu with mem } c₁ :=
    { before := ring
      behind := ring
      ss := rfl
      runs := ⟨inv.runs.code, inv.runs.stack, inv.runs.data⟩
      low := by
        rw [esp]
        omega
      high := by
        rw [esp]
        omega
      keeps := by
        apply (inv.stored.tssSetEsp0 _).keeps_below inv.made (r := wordAt sp)
        · simp only [wordAt]
          omega
        · exact Nat.le_of_eq place
        · intro r apart
          apply agreeOn_store
          · simp only [Fits]
            omega
          · exact apart }
  have calls : k.Calls cur c₁.toMachine t :=
    { argument := by
        rw [Machine.top, esp]
        exact load_store ..
      room := by
        rw [esp]
        omega
      inside := by
        rw [esp]
        omega }
  exact ⟨_, ⟨c₁, works, calls, rfl⟩, ring⟩

/-- `ktask_create` leaves the stack of a new task ready for its first switch. The stores are on the
new stack and in the field of the new task.
-/
theorem Inv.create [DecidableEq Task] (inv : k.Inv s cur) (new : t ∉ s.made)
    (other : t ≠ k.first) (entry args : BitVec 32)
    : k.Inv
        { cpu := { s.cpu with toMachine := k.ktaskCreate s.cpu.toMachine t entry args }
          made := insert t s.made
          found := Function.update s.found t [] } cur := by
  have apart (u : Task) (member : u ∈ s.made) : t ≠ u := by
    rintro rfl
    exact new member
  have size : (k.stack t).stop = (k.stack t).start + defaultStackSize :=
    (allocatedStack_end other).2.symm
  have same {r : Region} (stack : (k.stack t).Apart r) (field : (wordAt (k.address t)).Apart r)
      : AgreeOn r s.cpu.mem (k.ktaskCreate s.cpu.toMachine t entry args).mem :=
    TaskLayout.agreeOn_ktaskCreate size stack field
  have stack (u : Task) (member : u ∈ s.made)
      : AgreeOn (k.stack u) s.cpu.mem (k.ktaskCreate s.cpu.toMachine t entry args).mem :=
    same (k.stacks_apart t u (apart u member)) (k.stack_field u t).symm
  have tss : k.ring0.Within ⟨k.tss.toNat, k.tss.toNat + 104⟩ := by
    simp only [Region.Within, ring0]
    omega
  have keeps : k.Keeps s cur s.cpu.mem (k.ktaskCreate s.cpu.toMachine t entry args).mem :=
    { curTask := same (k.stack_curTask t) (k.field_curTask t)
      tss := (same (k.stack_tss t) (k.field_tss t)).within tss
      others := fun u member _ => stack u member
      fields := fun u member _ =>
        same (k.stack_field t u) (k.fields_apart t u (apart u member))
      frames := fun c member =>
        (stack cur inv.made).within ((inv.stored.frames cur inv.made).within member).2 }
  have stored := inv.stored.keeps inv.made keeps
  have own : cur ≠ t := Ne.symm (apart cur inv.made)
  refine ⟨⟨stored.current, stored.ss0, fun u member => ?_, fun u member away => ?_⟩,
    fun away => keeps.esp0.trans (inv.esp0 away), Set.mem_insert_of_mem t inv.made,
    ⟨inv.runs.code, inv.runs.stack, inv.runs.data⟩, ?_, ?_⟩
  · rcases Set.mem_insert_iff.mp member with rfl | old
    · simp only [Function.update_self]
      trivial
    · simp only [Function.update_of_ne (Ne.symm (apart u old))]
      exact stored.frames u old
  · rcases Set.mem_insert_iff.mp member with rfl | old
    · simp only [Function.update_self]
      exact .inr ⟨entry, args, TaskLayout.waits_ktaskCreate size, rfl⟩
    · simp only [Function.update_of_ne (Ne.symm (apart u old))]
      exact stored.paused u old away
  · simp only [Function.update_of_ne own]
    exact inv.kernel
  · simp only [Function.update_of_ne own]
    exact inv.user

/-- `task_destroy` leaves the other tasks. -/
theorem Inv.destroy (inv : k.Inv s cur) (other : t ≠ cur)
    : k.Inv { s with made := s.made \ {t} } cur :=
  { stored :=
      { current := inv.stored.current
        ss0 := inv.stored.ss0
        frames := fun u member => inv.stored.frames u member.1
        paused := fun u member => inv.stored.paused u member.1 }
    esp0 := inv.esp0
    made := ⟨inv.made, Ne.symm other⟩
    runs := inv.runs
    kernel := inv.kernel
    user := inv.user }

/-- `go_usermode` starts the program of a task. -/
theorem Inv.goUsermode (inv : k.Inv s cur) {c' : Cpu} (ring : s.cpu.cpl = 0)
    (other : cur ≠ k.first) (none : s.found cur = [])
    (room : (k.stack cur).start + 20 ≤ (s.cpu.gpr .esp).toNat)
    (inside : (s.cpu.gpr .esp).toNat + 8 ≤ (k.stack cur).stop)
    (returns : k.tables.iret (s.cpu.run Hydrangea.goUsermode) = .ok c')
    : k.Inv { s with cpu := c' } cur := by
  have stop := k.stack_inside cur
  obtain ⟨mem, -, cs, seg⟩ := run_goUsermode s.cpu
  obtain ⟨holds, top⟩ := @goUsermode_frame s.cpu (by omega) (by omega)
  obtain ⟨c'', returns', runs, code, -⟩ :=
    iret_userFrame k.stub k.tss k.found ((congrArg rpl cs).trans ring) seg holds top
  obtain rfl : c' = c'' := Except.ok.inj (returns.symm.trans returns')
  have keeps : k.Keeps s cur s.cpu.mem c'.mem := by
    rw [Tables.iret_mem returns, mem]
    apply inv.stored.keeps_below inv.made
      (r := ⟨(s.cpu.gpr .esp).toNat - 20, (s.cpu.gpr .esp).toNat⟩)
    · simp only
      omega
    · rw [none]
      simp only [bound]
      omega
    · intro r apart
      apply agreeOn_pushWords
      · simp only [List.length_cons, List.length_nil]
        omega
      · exact apart
  have ring' : c'.cpl ≠ 0 := by
    rw [Cpu.cpl, code]
    decide
  exact ⟨(inv.stored.keeps inv.made keeps).with_cpu,
    fun away => keeps.esp0.trans (inv.esp0 away), inv.made, runs,
    fun zero => absurd zero ring', fun _ => ⟨none, other⟩⟩

theorem Starts.inv (starts : k.Starts s) : k.Inv s k.first := by
  obtain ⟨current, made, found, ring, ss, runs, low, high, ss0⟩ := starts
  refine ⟨⟨current, ss0, fun t member => ?_, fun t member other => ?_⟩, fun other => ?_, ?_, runs,
    fun _ => ⟨ss, low, ?_⟩, fun outside => absurd ring outside⟩
  · obtain rfl : t = k.first := by simpa [made] using member
    rw [found]
    trivial
  · exact absurd (by simpa [made] using member) other
  · exact absurd rfl other
  · simp [made]
  · rw [found]
    exact high

section

variable [DecidableEq Task]

/-- Every step keeps the invariant, for the task that is current after it. -/
theorem Inv.step {event : InterruptedEvent Task} (inv : k.Inv s cur)
    (taken : k.step s event s')
    : ∃ cur', k.Inv s' cur' := by
  obtain ⟨cur', current, taken⟩ := taken
  obtain rfl : cur' = cur := current.unique inv.stored.current
  cases event with
  | user =>
      obtain ⟨c', ring, ring', runs, keeps, rfl⟩ := taken
      exact ⟨_, inv.user_works ring ring' runs keeps⟩
  | work =>
      obtain ⟨c', works, rfl⟩ := taken
      exact ⟨_, inv.works works⟩
  | interrupt vector software error =>
      obtain ⟨stub, c', stubFound, allowed, coded, room, entered, rfl⟩ := taken
      have enters := @interrupt_prepared k.stub k.tss k.found s.cpu vector stub software error
        (inv.prepared room) stubFound allowed
      obtain rfl := Except.ok.inj (enters.symm.trans entered)
      exact ⟨_, inv.handled room stubFound coded⟩
  | results g =>
      obtain ⟨c, mem, rest, latest, ring, registers, keeps, rfl⟩ := taken
      exact ⟨_, inv.results latest ring registers keeps⟩
  | resume =>
      obtain ⟨c, rest, c', latest, ring, esp, returned, rfl⟩ := taken
      obtain rfl := Except.ok.inj ((inv.returns latest ring esp).symm.trans returned)
      exact ⟨_, inv.resume latest⟩
  | schedule t =>
      obtain ⟨c', member, scheduled, rfl⟩ := taken
      exact ⟨t, inv.schedule member scheduled⟩
  | create t entry args =>
      obtain ⟨new, other, -, rfl⟩ := taken
      exact ⟨_, inv.create new other entry args⟩
  | destroy t =>
      obtain ⟨other, -, rfl⟩ := taken
      exact ⟨_, inv.destroy other⟩
  | goUsermode =>
      obtain ⟨c', ring, other, none, room, inside, returns, rfl⟩ := taken
      exact ⟨_, inv.goUsermode ring other none room inside returns⟩

theorem inv_reachable (reached : k.interruptions.Reachable s) : ∃ cur, k.Inv s cur := by
  induction reached with
  | start starts => exact ⟨_, starts.inv⟩
  | next _ taken ih =>
      obtain ⟨_, inv⟩ := ih
      exact inv.step taken

theorem inv_of_current (reached : k.interruptions.Reachable s)
    (current : k.Current s.cpu.toMachine cur)
    : k.Inv s cur := by
  obtain ⟨cur', inv⟩ := inv_reachable reached
  obtain rfl := current.unique inv.stored.current
  exact inv

/-- What the outermost interrupt has found of each task, if it is a user program, is the program of
the task in the run.
-/
def Recorded (k : InterruptLayout Task) (s : Interrupted Task)
    (steps : List (Interrupted Task × InterruptedEvent Task)) : Prop :=
  ∀ t ∈ s.made, ∀ c, (s.found t).getLast? = some c → c.cpl ≠ 0 → k.program t steps = some c

variable {steps : List (Interrupted Task × InterruptedEvent Task)}

theorem Recorded.interrupt (recorded : k.Recorded s steps) (inv : k.Inv s cur) (cpu : Cpu)
    (vector : BitVec 8) (software : Bool) (error : Option (BitVec 32))
    : k.Recorded { s with cpu, found := Function.update s.found cur (s.cpu :: s.found cur) }
        ((s, .interrupt vector software error) :: steps) := by
  intro t member c last user
  rw [program]
  by_cases same : t = cur
  · subst same
    simp only [Function.update_self] at last
    by_cases inside : s.cpu.cpl = 0
    · rw [if_neg (fun both => both.2 inside)]
      cases found : s.found t with
      | nil =>
          obtain rfl : s.cpu = c := by simpa [found] using last
          exact absurd inside user
      | cons c' rest =>
          rw [found, List.getLast?_cons_cons, ← found] at last
          exact recorded t member c last user
    · obtain rfl : s.cpu = c := by simpa [(inv.user inside).1] using last
      rw [if_pos ⟨inv.stored.current, inside⟩]
  · rw [if_neg (fun both => same (both.1.unique inv.stored.current))]
    simp only [Function.update_of_ne same] at last
    exact recorded t member c last user

/-- The results of a handler are those of the program if it is the outermost one. -/
theorem Recorded.results (recorded : k.Recorded s steps) (inv : k.Inv s cur)
    (latest : s.found cur = c :: rest) (cpu : Cpu) (g : Reg → BitVec 32)
    : k.Recorded
        { s with cpu, found := Function.update s.found cur (withResults c g :: rest) }
        ((s, .results g) :: steps) := by
  intro t member c' last user
  rw [program]
  by_cases same : t = cur
  · subst same
    simp only [Function.update_self] at last
    cases rest with
    | nil =>
        obtain rfl : withResults c g = c' := by simpa using last
        have before : k.program t steps = some c :=
          recorded t member c (by simp [latest]) user
        rw [if_pos ⟨inv.stored.current, by simp [latest]⟩, before, Option.map_some]
    | cons c'' rest =>
        rw [List.getLast?_cons_cons] at last
        rw [if_neg (fun both => by simp [latest] at both)]
        exact recorded t member c' (by rw [latest, List.getLast?_cons_cons, last]) user
  · rw [if_neg (fun both => same (both.1.unique inv.stored.current))]
    simp only [Function.update_of_ne same] at last
    exact recorded t member c' last user

/-- A return from an interrupt leaves the outer ones. -/
theorem Recorded.resume (recorded : k.Recorded s steps) (latest : s.found cur = c :: rest)
    (cpu : Cpu)
    : k.Recorded { s with cpu, found := Function.update s.found cur rest }
        ((s, .resume) :: steps) := by
  intro t member c' last user
  rw [program]
  by_cases same : t = cur
  · subst same
    simp only [Function.update_self] at last
    cases rest with
    | nil => cases last
    | cons c'' rest =>
        exact recorded t member c' (by rw [latest, List.getLast?_cons_cons, last]) user
  · simp only [Function.update_of_ne same] at last
    exact recorded t member c' last user

theorem Recorded.step {event : InterruptedEvent Task} (recorded : k.Recorded s steps)
    (inv : k.Inv s cur) (taken : k.step s event s')
    : k.Recorded s' ((s, event) :: steps) := by
  obtain ⟨cur', current, taken⟩ := taken
  obtain rfl : cur' = cur := current.unique inv.stored.current
  cases event with
  | user =>
      obtain ⟨c', -, -, -, -, rfl⟩ := taken
      exact recorded
  | work =>
      obtain ⟨c', -, rfl⟩ := taken
      exact recorded
  | interrupt vector software error =>
      obtain ⟨stub, c', -, -, -, -, -, rfl⟩ := taken
      exact recorded.interrupt inv _ vector software error
  | results g =>
      obtain ⟨c, mem, rest, latest, -, -, -, rfl⟩ := taken
      exact recorded.results inv latest _ g
  | resume =>
      obtain ⟨c, rest, c', latest, -, -, -, rfl⟩ := taken
      exact recorded.resume latest c'
  | schedule u =>
      obtain ⟨c', -, -, rfl⟩ := taken
      exact recorded
  | create u entry args =>
      obtain ⟨-, -, -, rfl⟩ := taken
      intro t member c last user
      by_cases same : t = u
      · subst same
        simp at last
      · simp only [Function.update_of_ne same] at last
        exact recorded t (Set.mem_of_mem_insert_of_ne member same) c last user
  | destroy u =>
      obtain ⟨-, -, rfl⟩ := taken
      exact fun t member => recorded t member.1
  | goUsermode =>
      obtain ⟨c', -, -, -, -, -, -, rfl⟩ := taken
      exact recorded

/-- Every run records what it has interrupted, by induction on the run. -/
theorem Recorded.run (run : k.interruptions.Run s steps) : k.Recorded s steps := by
  induction run with
  | start starts =>
      intro t member c last
      obtain rfl : t = k.first := by simpa [starts.made] using member
      rw [starts.found] at last
      cases last
  | next earlier taken ih =>
      obtain ⟨cur, inv⟩ := inv_reachable earlier.reachable
      exact ih.step inv taken

/-- An interrupt that may come enters its handler, with room for a frame in the kernel. -/
theorem Inv.interrupts (inv : k.Inv s cur)
    (room : s.cpu.cpl = 0 → (k.stack cur).start + 76 ≤ (s.cpu.gpr .esp).toNat)
    {vector : BitVec 8} {software : Bool} {error : Option (BitVec 32)} {stub : Stub}
    (stubFound : stubOf vector.toNat = some stub)
    (allowed : software = true → s.cpu.cpl = 0 ∨ vector = 128)
    (coded : error.isSome = stub.leavesCode)
    : k.step s (.interrupt vector software error) (k.handled s cur vector error stub) := by
  have enters := @interrupt_prepared k.stub k.tss k.found s.cpu vector stub software error
    (inv.prepared room) stubFound allowed
  exact ⟨cur, inv.stored.current, stub, _, stubFound, allowed, coded, room, enters, rfl⟩

-----------------------------------------------------------------------------------------
-- A task beside kmain
-----------------------------------------------------------------------------------------

/-- `kmain` on a stack of the kernel, and a task on one that it has allocated. -/
def twoThreads : InterruptLayout Bool where
  toTaskLayout := TaskLayout.twoTasks
  stub _ := 0x100000
  tss := 0x8000
  found _ := 0
  allocatedStack _ := 0x20000
  first := true
  tss_fits := by decide
  tss_limit := by decide
  stack_tss := by decide
  field_tss := by decide
  curTask_tss := by decide
  stack_allocated t other := by
    obtain rfl : t = false := by simpa using other
    rfl

/-- `kmain` before it has made the other task. -/
def kmainAlone : Interrupted Bool where
  cpu :=
    { TaskLayout.firstTask with
      mem := TaskLayout.firstTask.mem.store 0x8008 0x10
      ss := 0x10 }
  made := {true}
  found _ := []

theorem starts_kmainAlone : twoThreads.Starts kmainAlone where
  current := by decide +kernel
  made := rfl
  found := rfl
  ring := by decide
  ss := rfl
  runs := runs_kernel _ _ _ rfl rfl (fun _ => rfl)
  low := by decide
  high := by decide
  ss0 := by decide +kernel

/-- `kmain` makes the task and switches to it, and the task starts a user program. -/
theorem exists_program
    : ∃ s steps, twoThreads.interruptions.Run s steps ∧ twoThreads.Inv s false ∧ s.cpu.cpl = 3
        ∧ true ∈ s.made ∧ s.found true = [] := by
  have inv := starts_kmainAlone.inv
  have new : false ∉ kmainAlone.made := by simp [kmainAlone]
  let s₁ : Interrupted Bool :=
    { cpu :=
        { kmainAlone.cpu with
          toMachine := twoThreads.ktaskCreate kmainAlone.cpu.toMachine false 0xE000 7 }
      made := insert false kmainAlone.made
      found := Function.update kmainAlone.found false [] }
  have created : twoThreads.interruptions.step kmainAlone (.create false 0xE000 7) s₁ :=
    ⟨true, inv.stored.current, new, by decide, by decide, rfl⟩
  have inv₁ : twoThreads.Inv s₁ true := inv.create new (by decide) 0xE000 7
  obtain ⟨c₂, scheduled, ring₂⟩ := inv₁.schedules (t := false) (by decide) (by decide)
  have inv₂ : twoThreads.Inv { s₁ with cpu := c₂ } false := inv₁.schedule (by simp [s₁]) scheduled
  have switched : twoThreads.interruptions.step s₁ (.schedule false) { s₁ with cpu := c₂ } :=
    ⟨true, inv₁.stored.current, c₂, by simp [s₁], scheduled, rfl⟩
  have works := inv₂.works_at ring₂ 0x23000 (by decide)
    (show 0x23000 ≤ 0x24000 by decide)
  have inv₃ := inv₂.works works
  have worked : twoThreads.interruptions.step { s₁ with cpu := c₂ } .work
      { s₁ with cpu := { c₂ with toMachine := c₂.set .esp 0x23000 } } :=
    ⟨false, inv₂.stored.current, _, works, rfl⟩
  have esp : (c₂.set .esp 0x23000).gpr .esp = 0x23000 := by simp [Machine.set]
  have low : 0x20000 + 20 ≤ ((c₂.set .esp 0x23000).gpr .esp).toNat := by
    rw [esp]
    decide
  have high : ((c₂.set .esp 0x23000).gpr .esp).toNat + 8 ≤ 0x24000 := by
    rw [esp]
    decide
  obtain ⟨c₄, returns, -, user, -⟩ :=
    @goUsermode_enters twoThreads.stub twoThreads.tss twoThreads.found
      { c₂ with toMachine := c₂.set .esp 0x23000 } ring₂ (Nat.le_trans (by decide) low)
      (Nat.le_trans high (by decide))
  have inv₄ := inv₃.goUsermode ring₂ (by decide) rfl low high returns
  have started : twoThreads.interruptions.step
      { s₁ with cpu := { c₂ with toMachine := c₂.set .esp 0x23000 } } .goUsermode
      { s₁ with cpu := c₄ } :=
    ⟨false, inv₃.stored.current, c₄, ring₂, by decide, rfl, low, high, returns, rfl⟩
  have start : twoThreads.interruptions.Run kmainAlone [] := .start starts_kmainAlone
  have run := (((start.next created).next switched).next worked).next started
  exact ⟨_, _, run, inv₄, user, by simp [s₁, kmainAlone], rfl⟩

-----------------------------------------------------------------------------------------
-- Programs that go on
-----------------------------------------------------------------------------------------

/-- In every run, a wrapper that the handler of its interrupt has come back to goes on with all
registers that the interrupt has found, whatever other tasks have done in between. A user program
goes on as its last interrupt has found it, with the results that its handler has left. The
invariant keeps, for each task, the frames of its interrupts one below the other on its stack, and
the wrapper pops the latest one.
-/
theorem run_resumes (run : k.interruptions.Run s steps)
    (current : k.Current s.cpu.toMachine t) (latest : s.found t = c :: rest)
    (ring : s.cpu.cpl = 0) (esp : s.cpu.gpr .esp = frameAt k.tss c - 4)
    : k.tables.iret (s.cpu.run handlerRestore) = .ok { c with mem := s.cpu.mem }
      ∧ (c.cpl ≠ 0 → rest = [] ∧ k.program t steps = some c) := by
  have inv := inv_of_current run.reachable current
  refine ⟨inv.returns latest ring esp, fun user => ?_⟩
  have framed := (inv.stored.without_latest inv.made latest).1
  obtain ⟨rfl, -⟩ := framed.user user
  exact ⟨rfl, Recorded.run run t inv.made c (by simp [latest]) user⟩

/-- The timer interrupts the program, `mt_schedule` switches to `kmain` and back, and the program
goes on.
-/
theorem run_resumes_switched
    : ∃ s c steps, twoThreads.interruptions.Run s steps ∧ c.cpl = 3
        ∧ (steps.take 4).map Prod.snd
          = [.work, .schedule false, .schedule true, .interrupt 0x20 false none]
        ∧ twoThreads.tables.iret (s.cpu.run handlerRestore) = .ok { c with mem := s.cpu.mem }
        ∧ twoThreads.program false steps = some c := by
  obtain ⟨s, steps, run, inv, ring, made, alone⟩ := exists_program
  have user : s.cpu.cpl ≠ 0 := by simp [ring]
  have room (inside : s.cpu.cpl = 0) : 0x20000 + 76 ≤ (s.cpu.gpr .esp).toNat := absurd inside user
  have found : stubOf (0x20#8).toNat = some (.irq 0) := rfl
  have coded : (none : Option (BitVec 32)).isSome = (Stub.irq 0).leavesCode := rfl
  let s₁ := twoThreads.handled s false 0x20 none (.irq 0)
  have entered : twoThreads.interruptions.step s (.interrupt 0x20 false none) s₁ :=
    inv.interrupts room found (fun software : false = true => by cases software) coded
  have inv₁ : twoThreads.Inv s₁ false := inv.handled room found coded
  have saved : s₁.found false = [s.cpu] := by simp [s₁, handled, (inv.user user).1]
  have place : (frameAt twoThreads.tss s.cpu).toNat = 0x23FB8 :=
    congrArg Region.start (inv.frame_user user)
  have bound : twoThreads.bound false (s₁.found false) = 0x23FB8 := by
    rw [saved]
    exact place
  have ring₁ : s₁.cpu.cpl = 0 := (run_entered twoThreads.stub twoThreads.tss coded).2.2.2
  obtain ⟨c₂, away, ring₂⟩ := inv₁.schedules (t := true) ring₁ (by rw [bound]; decide)
  have inv₂ := inv₁.schedule (t := true) made away
  have switched : twoThreads.interruptions.step s₁ (.schedule true) { s₁ with cpu := c₂ } :=
    ⟨false, inv₁.stored.current, c₂, made, away, rfl⟩
  have none : s₁.found true = [] := by simp [s₁, handled, alone]
  have bound' : twoThreads.bound true (s₁.found true) = 0x14000 := by
    rw [none]
    rfl
  obtain ⟨c₃, back, ring₃⟩ := inv₂.schedules (t := false) ring₂ (by rw [bound']; decide)
  have inv₃ := inv₂.schedule inv.made back
  have switched' : twoThreads.interruptions.step { s₁ with cpu := c₂ } (.schedule false)
      { s₁ with cpu := c₃ } :=
    ⟨true, inv₂.stored.current, c₃, inv.made, back, rfl⟩
  have below : (frameAt twoThreads.tss s.cpu - 4).toNat = 0x23FB4 := by bv_omega
  have works := inv₃.works_at ring₃ (frameAt twoThreads.tss s.cpu - 4)
    (by rw [below]; decide) (by rw [below, bound]; decide)
  have inv₄ := inv₃.works works
  have worked : twoThreads.interruptions.step { s₁ with cpu := c₃ } .work _ :=
    ⟨false, inv₃.stored.current, _, works, rfl⟩
  have run' := (((run.next entered).next switched).next switched').next worked
  obtain ⟨returned, program⟩ :=
    run_resumes run' inv₄.stored.current saved ring₃ (by simp [Machine.set])
  exact ⟨_, s.cpu, _, run', ring, rfl, returned, (program user).2⟩

/-- In every reachable state an interrupt of a user program, if it may come, enters its handler. It
saves the program at the end of the stack of its own task, and changes no other memory. The reason
is `tss_set_esp0` in `mt_schedule`: by the invariant, `tss` always holds the end of the stack of
the running task.
-/
theorem interrupt_ownStack (reached : k.interruptions.Reachable s)
    (current : k.Current s.cpu.toMachine t) (user : s.cpu.cpl ≠ 0) {vector : BitVec 8}
    {software : Bool} {error : Option (BitVec 32)} {stub : Stub}
    (stubFound : stubOf vector.toNat = some stub) (allowed : software = true → vector = 128)
    (coded : error.isSome = stub.leavesCode)
    : ∃ s', k.step s (.interrupt vector software error) s'
        ∧ s'.found t = [s.cpu]
        ∧ k.frame s.cpu = ⟨(k.stack t).stop - 72, (k.stack t).stop⟩
        ∧ ∀ r, (k.stack t).Apart r → AgreeOn r s.cpu.mem s'.cpu.mem := by
  have inv := inv_of_current reached current
  have room (inside : s.cpu.cpl = 0) : (k.stack t).start + 76 ≤ (s.cpu.gpr .esp).toNat :=
    absurd inside user
  refine ⟨k.handled s t vector error stub,
    inv.interrupts room stubFound (fun soft => .inr (allowed soft)) coded, ?_,
    inv.frame_user user, (inv.handled_keeps room coded).2⟩
  simp [handled, (inv.user user).1]

theorem interrupt_ownStack_timer
    : ∃ s s', twoThreads.interruptions.Reachable s ∧ s.cpu.cpl = 3
        ∧ twoThreads.step s (.interrupt 0x20 false none) s' ∧ s'.found false = [s.cpu]
        ∧ twoThreads.frame s.cpu = ⟨0x23FB8, 0x24000⟩ := by
  obtain ⟨s, steps, run, inv, ring, -⟩ := exists_program
  have user : s.cpu.cpl ≠ 0 := by simp [ring]
  have found : stubOf (0x20#8).toNat = some (.irq 0) := rfl
  have coded : (none : Option (BitVec 32)).isSome = (Stub.irq 0).leavesCode := rfl
  obtain ⟨s', entered, saved, frame, -⟩ := interrupt_ownStack run.reachable inv.stored.current user
    found (fun software : false = true => by cases software) coded
  exact ⟨s, s', run.reachable, ring, entered, saved, frame⟩

end

end InterruptLayout

end Hydrangea
