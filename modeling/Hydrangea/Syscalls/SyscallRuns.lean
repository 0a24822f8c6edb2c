import Hydrangea.Syscalls.Syscall

/-! Sequences of system calls, while the kernel creates, terminates and schedules tasks: which of
them go through no NULL pointer. Task structures are not freed, and the tree of nodes stays as it
is.
-/

namespace Hydrangea

open Linked LinkedTree Vfs VfsState

namespace Kernel

variable {δ : Type}

/-- What `kmalloc` may give for a new task, its descriptors and their ring buffer. -/
structure NewTask (s : Kernel δ) (task : Nat) (c : Standard) : Prop where
  new : task ∉ s.created
  avoids : s.users.tasks.Avoids s.created c.blocks
  input : c.input ≠ 0

/-- What a system call may get. -/
structure Supplied (s : Kernel δ) (c : Supplies) : Prop where
  newTask : s.NewTask c.task c.standard
  avoids : s.users.tasks.Avoids s.created [c.fd]

/-- What can happen next. A task whose call waits may go on when no task has the pid. -/
inductive Event where
  | syscall (c : Supplies) (r : SyscallParams)
  | waited (pid : Nat)
  | spawnKtask (task ppid : Nat) (kmalloc : Buffer256) (i : Option Nat) (c : Standard)
  | spawnUtask (path : PathLookup) (task ppid : Nat) (kmalloc : Buffer256) (i : Option Nat)
    (c : Standard)
  | terminate (pid : Nat)
  | schedule

/-- One event, if its calls return. -/
def Step (s : Kernel δ) : Event → Kernel δ → Prop
  | .syscall c r, s' =>
      s.Supplied c ∧ ∃ ended, (syscallHandler c r s).returned = some (ended, s')
  | .waited pid, s' =>
      (∃ fuel, s.sched.mtGetTaskByPid fuel pid = some none) ∧ s' = s.mtSetFgTask s.sched.curTask
  | .spawnKtask task ppid kmalloc i c, s' =>
      s.NewTask task c ∧ ∃ fuel, s.mtSpawnKtask fuel task ppid kmalloc i c = some s'
  | .spawnUtask path task ppid kmalloc i c, s' =>
      s.NewTask task c ∧ ∃ fuel pid, s.mtSpawnUtask fuel path task ppid kmalloc i c = some (pid, s')
  | .terminate pid, s' =>
      ∃ fuel sched, s.sched.mtTaskTerminatePid fuel pid = some sched ∧ s' = s.withSched sched
  | .schedule, s' =>
      ∃ fuel switched sched, s.sched.mtSchedule fuel = some (switched, sched)
        ∧ s' = s.withSched sched

/-- Before `mt_init`: a tree without a node at NULL, in which `/dev/con` leads to a node. -/
structure Boots (s : Kernel δ) : Prop where
  users : s.users.Boots
  notNull : ¬ s.users.vfs.Node 0
  con : ∀ fuel kmalloc i,
    s.users.nodeFromPath fuel s.users.vfs.vfsRoot ⟨kmalloc, i, NodeUsers.devCon⟩ ≠ some none
  curTask : s.sched.curTask = none
  created : s.created = []

/-- The end of `mt_init`. -/
def enable (s : Kernel δ) : Kernel δ :=
  { s with users := s.users.enable }

/-- `mt_init`: three tasks, and the rest. -/
def Inits (s : Kernel δ) : Prop :=
  ∃ (s₀ s₁ s₂ s₃ : Kernel δ) (kernelIdle test cleaner : Nat) (b₁ b₂ b₃ : Buffer256)
      (i₁ i₂ i₃ : Option Nat) (c₁ c₂ c₃ : Standard),
    s₀.Boots
      ∧ s₀.Step (.spawnKtask kernelIdle 0 b₁ i₁ c₁) s₁
      ∧ s₁.Step (.spawnKtask test 0 b₂ i₂ c₂) s₂
      ∧ s₂.Step (.spawnKtask cleaner 0 b₃ i₃ c₃) s₃
      ∧ s = s₃.enable

/-- Tasks that make system calls, from `mt_init` on. -/
def system : TransitionSystem (Kernel δ) Event where
  init := Inits
  step := Step

def SameTable (s s' : Kernel δ) : Prop :=
  ∀ t ∈ s.sched.curTask, s'.fileDescriptors t = s.fileDescriptors t

/-- The call fails: `open`, when its path leads to no node, and `close`, when there is no descriptor
with the number. Calls other than these have to leave the descriptors alone in any case.
-/
structure Fails (s : Kernel δ) (c : Supplies) (r : SyscallParams) : Prop where
  opens : r.eax = 5
    → s.users.nodeFromPath c.fuel s.users.vfs.vfsRoot (c.lookup 0 (c.string r.ebx)) = some none
  closes : r.eax = 6 → ∀ t ∈ s.sched.curTask, (s.fileDescriptors t).listGet r.ebx = 0

/-- The call goes through valid pointers only, and if it fails, the running task has the same
descriptors afterwards.
-/
structure Safe (s : Kernel δ) (c : Supplies) (r : SyscallParams) : Prop where
  accesses : (syscallHandler c r).Always s Access.Valid
  table : s.Fails c r → s.SameTable (syscallHandler c r s).state

/-- The state before a system call keeps it safe: there is a handler for `eax`; the path of `open`
leads to a node, and so does that of `run`; `read` and `write` do not get the number behind the last
descriptor, unless NULL lies there; `close` gets the number of no descriptor or of the one with the
last entry of the global table.
-/
structure KeepsSafe (s : Kernel δ) (c : Supplies) (r : SyscallParams) : Prop where
  handler : r.eax < 15 ∧ r.eax ≠ 2 ∧ r.eax ≠ 11
  opens : r.eax = 5
    → s.users.nodeFromPath c.fuel s.users.vfs.vfsRoot (c.lookup 0 (c.string r.ebx)) ≠ some none
  runs : r.eax = 9 → ∀ t ∈ s.sched.curTask,
    s.users.nodeFromPath c.fuel (s.users.cwdNode t) (c.lookup 0 (c.string r.ebx)) ≠ some none
  transfers : r.eax = 3 ∨ r.eax = 4 → ∀ t ∈ s.sched.curTask,
    r.ebx ≠ (s.fileDescriptors t).used ∨ (s.fileDescriptors t).listGet r.ebx = 0
  closes : r.eax = 6 → ∀ t ∈ s.sched.curTask, (s.fileDescriptors t).listGet r.ebx = 0
    ∨ r.ebx < (s.fileDescriptors t).used
      ∧ (s.users.tasks.files.fd ((s.fileDescriptors t).data r.ebx)).gftIndex + 1
        = s.users.tasks.files.gft.used

def Keeps (s : Kernel δ) : Event → Prop
  | .syscall c r => s.KeepsSafe c r
  | _ => True

end Kernel

-----------------------------------------------------------------------------------------
-- Nodes and descriptors of tasks
-----------------------------------------------------------------------------------------

namespace NodeUsers

variable {δ : Type} {s s' s₁ : NodeUsers δ} {created : List Nat} {kids : Nat → List Nat}

/-- The tasks have directories in the tree, and their descriptors are for nodes. -/
structure Refers (s : NodeUsers δ) (created : List Nat) (kids : Nat → List Nat) : Prop where
  tree : IsTree s.vfs.links s.vfs.vfsRoot kids
  notNull : ¬ s.vfs.Inside kids 0
  con : ∀ fuel kmalloc i, s.nodeFromPath fuel s.vfs.vfsRoot ⟨kmalloc, i, devCon⟩ ≠ some none
  held : s.tasks.Held created
  cwd : ∀ t ∈ created, s.vfs.Inside kids (s.cwdNode t)
  file : ∀ t ∈ created, ∀ d ∈ (s.tasks.fileDescriptors t).elements, s.tasks.files.fdToNode d ≠ 0

/-- Another state of the scheduler does not matter. -/
theorem Refers.sched (h : s.Refers created kids) (sched : Sched)
    : Refers { s with tasks := { s.tasks with sched } } created kids :=
  ⟨h.tree, h.notNull, h.con, ⟨h.held.held⟩, h.cwd, h.file⟩

/-- Nodes in the tree are not NULL. -/
theorem Refers.ne_zero (h : s.Refers created kids) {n : Nat} (inside : s.vfs.Inside kids n)
    : n ≠ 0 := by
  rintro rfl
  exact h.notNull inside

/-- The standard descriptors of a new task, and its directory. -/
theorem Refers.openStandard (h : s.Refers created kids) {task : Nat} {c : Standard}
    (new : task ∉ created) (avoids : s.tasks.Avoids created c.blocks) (input : c.input ≠ 0)
    {out cwdNode : Nat} (inside : s.vfs.Inside kids out) (cwd : s.vfs.Inside kids cwdNode)
    : Refers
        { s.openStandard task (some out) c with cwdNode := Function.update s.cwdNode task cwdNode }
        (created ++ [task]) kids := by
  let call : Standard := { c with output := out }
  refine ⟨h.tree, h.notNull, h.con, h.held.openStandard (c := call) new avoids, fun t member => ?_,
    fun t member d its => ?_⟩
  · dsimp only
    by_cases own : t = task
    · rw [own, Function.update_self]
      exact cwd
    · rw [Function.update_of_ne own]
      exact h.cwd t ((List.mem_append.mp member).resolve_right (by simpa using own))
  · rcases h.held.openStandard_cases (c := call) avoids member its with
      ⟨o, called, rfl, leads⟩ | ⟨old, before, -, kept⟩
    · have there : o.node ≠ 0 := by
        simp only [Standard.opens, call, List.mem_cons, List.not_mem_nil, or_false] at called
        rcases called with rfl | rfl | rfl
        · exact input
        · exact h.ne_zero inside
        · exact h.ne_zero inside
      exact fun null => there (leads.symm.trans null)
    · exact fun null => h.file t old d before (kept.symm.trans null)

/-- `ktask_create` under a created parent, or none. -/
theorem Refers.ktaskCreate (h : s.Refers created kids) {task : Nat} {c : Standard}
    (new : task ∉ created) (avoids : s.tasks.Avoids created c.blocks) (input : c.input ≠ 0)
    {fuel ppid : Nat} {kmalloc : Buffer256} {i t : Option Nat}
    (parent : ∀ p, s.tasks.sched.mtGetTaskByPid fuel ppid = some (some p) → p ∈ created)
    (made : s.ktaskCreate fuel task ppid kmalloc i c = some (t, s₁))
    : s₁.Refers (created ++ t.toList) kids
      ∧ ∀ p ∈ created, s₁.tasks.fileDescriptors p = s.tasks.fileDescriptors p := by
  obtain ⟨sched, -, ⟨rfl, rfl⟩ | ⟨rfl, parentTask, out, searched, found, rfl⟩⟩ :=
    ktaskCreate_cases made
  · rw [Option.toList_none, List.append_nil]
    exact ⟨h.sched sched, fun _ _ => rfl⟩
  · cases out with
    | none => exact absurd found (h.con fuel kmalloc i)
    | some out =>
        have inside : s.vfs.Inside kids out := inside_of_fromPath h.tree .refl found
        have cwd : s.vfs.Inside kids (parentTask.elim s.vfs.vfsRoot s.cwdNode) := by
          cases parentTask with
          | none => exact .refl
          | some p => exact h.cwd p (parent p searched)
        refine ⟨(h.openStandard new avoids input inside cwd).sched sched, fun p member => ?_⟩
        have other : p ≠ task := fun same => new (same ▸ member)
        obtain ⟨list, -, same⟩ :=
          FileTasks.openStandard_eq { s.tasks with sched } task { c with output := out }
        dsimp only [NodeUsers.openStandard, Option.getD_some]
        rw [same]
        exact Function.update_of_ne other ..

theorem Refers.openPath (h : s.Refers created kids) (nodup : created.Nodup) {task fuel flags : Nat}
    {c : PathLookup} {junk : Nat → Nat} {b : FdBlocks} (avoids : s.tasks.Avoids created [b])
    (current : s.tasks.sched.curTask = some task) (member : task ∈ created)
    (leads : s.nodeFromPath fuel s.vfs.vfsRoot c ≠ some none)
    (opened : s.openPath fuel c junk b flags = some s')
    : s'.Refers created kids ∧ s'.tasks.sched = s.tasks.sched := by
  obtain ⟨node, found, opened⟩ := Option.bind_eq_some_iff.mp opened
  obtain ⟨tasks, pushed, result⟩ := Option.bind_eq_some_iff.mp opened
  obtain rfl := Option.some.inj result
  obtain ⟨task', running, pushed⟩ := Option.bind_eq_some_iff.mp pushed
  obtain rfl := Option.some.inj (current.symm.trans running)
  obtain rfl := Option.some.inj pushed
  cases node with
  | none => exact absurd found leads
  | some n =>
      let o : FdOpen := ⟨b, n, flags⟩
      have held := h.held.openNode nodup member junk (o := o) avoids
      refine ⟨⟨h.tree, h.notNull, h.con, held, h.cwd, fun t alive d its => ?_⟩, rfl⟩
      rcases h.held.openNode_cases member junk (o := o) avoids alive its with
        ⟨rfl, same⟩ | ⟨before, -, kept⟩
      · exact fun null => h.ne_zero (inside_of_fromPath h.tree .refl found) (same.symm.trans null)
      · exact fun null => h.file t alive d before (kept.symm.trans null)

/-- `close` of the descriptor with the last entry. -/
theorem Refers.close (h : s.Refers created kids) (nodup : created.Nodup) {task number : Nat}
    (current : s.tasks.sched.curTask = some task) (member : task ∈ created)
    (there : (s.tasks.fileDescriptors task).listGet number ≠ 0)
    (inside : number < (s.tasks.fileDescriptors task).used)
    (last : (s.tasks.files.fd ((s.tasks.fileDescriptors task).data number)).gftIndex + 1
      = s.tasks.files.gft.used)
    (ran : s.close number = some s')
    : s'.Refers created kids ∧ s'.tasks.sched = s.tasks.sched := by
  obtain ⟨tasks, closed, result⟩ := Option.bind_eq_some_iff.mp ran
  obtain rfl := Option.some.inj result
  obtain ⟨task', running, closed⟩ := Option.bind_eq_some_iff.mp closed
  obtain rfl := Option.some.inj (current.symm.trans running)
  dsimp only at closed
  rw [if_neg there, (ListT.listGet_mem inside).1] at closed
  obtain rfl := Option.some.inj closed
  obtain ⟨held, kept⟩ := h.held.close nodup member inside last rfl
  refine ⟨⟨h.tree, h.notNull, h.con, held, h.cwd, fun t alive d its => ?_⟩, rfl⟩
  obtain ⟨before, same⟩ := kept d (List.mem_flatMap.mpr ⟨t, alive, its⟩)
  obtain ⟨t', alive', its'⟩ := List.mem_flatMap.mp before
  rw [same]
  exact h.file t' alive' d its'

theorem Refers.sysSetcwd (h : s.Refers created kids) {task fuel : Nat} {c : PathLookup}
    (current : s.tasks.sched.curTask = some task) (member : task ∈ created)
    (ran : s.sysSetcwd fuel c = some s')
    : s'.Refers created kids ∧ s'.tasks = s.tasks := by
  obtain ⟨task', running, ran⟩ := Option.bind_eq_some_iff.mp ran
  obtain rfl := Option.some.inj (current.symm.trans running)
  obtain ⟨cwdNode, set, result⟩ := Option.bind_eq_some_iff.mp ran
  obtain rfl := Option.some.inj result
  obtain ⟨node, found, set⟩ := Option.bind_eq_some_iff.mp set
  obtain rfl := Option.some.inj set
  refine ⟨⟨h.tree, h.notNull, h.con, h.held, fun t alive => ?_, h.file⟩, rfl⟩
  dsimp only
  by_cases own : t = task
  · rw [own, Function.update_self]
    cases node with
    | none => exact h.cwd task member
    | some n => exact inside_of_fromPath h.tree (h.cwd task member) found
  · rw [Function.update_of_ne own]
    exact h.cwd t alive

end NodeUsers

-----------------------------------------------------------------------------------------
-- What keeps the kernel ready for system calls
-----------------------------------------------------------------------------------------

namespace Kernel

variable {δ : Type} {s s' : Kernel δ}

/-- The scheduler comes to created tasks only, and these refer to nodes. -/
structure Ready (s : Kernel δ) : Prop where
  nodup : s.created.Nodup
  closed : s.sched.Closed s.created
  tasks : s.sched.tasks ≠ none
  refers : ∃ kids, s.users.Refers s.created kids

/-- A step of the scheduler that comes to created tasks only. -/
theorem Ready.withSched (h : s.Ready) {sched : Sched} (closed : sched.Closed s.created)
    (tasks : sched.tasks = s.sched.tasks)
    : (s.withSched sched).Ready := by
  obtain ⟨kids, refers⟩ := h.refers
  exact ⟨h.nodup, closed, tasks ▸ h.tasks, kids, refers.sched sched⟩

theorem Ready.mtSetFgTask (h : s.Ready) (t : Option Nat) : (s.mtSetFgTask t).Ready :=
  h.withSched ⟨h.closed.tasks, h.closed.terminatedTasks, h.closed.curTask, h.closed.next,
    h.closed.prev⟩ rfl

theorem Ready.mtSchedule (h : s.Ready) {fuel : Nat} {switched : Option Nat} {sched : Sched}
    (returned : s.sched.mtSchedule fuel = some (switched, sched))
    : (s.withSched sched).Ready := by
  obtain ⟨closed, tasks⟩ := h.closed.mtSchedule returned
  exact h.withSched closed tasks

theorem Ready.mtTaskTerminate (h : s.Ready) {fuel t : Nat} {sched : Sched} (alive : t ∈ s.created)
    (returned : s.sched.mtTaskTerminate fuel t = some sched)
    : (s.withSched sched).Ready := by
  obtain ⟨closed, tasks⟩ := h.closed.mtTaskTerminate alive returned
  exact h.withSched closed tasks

/-- A new task, or none. -/
theorem Ready.spawned (h : s.Ready) {task : Nat} {c : Standard} (newTask : s.NewTask task c)
    {fuel ppid : Nat} {kmalloc : Buffer256} {i t : Option Nat} {users users' : NodeUsers δ}
    (made : s.users.ktaskCreate fuel task ppid kmalloc i c = some (t, users))
    (pushed : users.mtPushTask fuel t = some users')
    : Ready ⟨users', s.created ++ t.toList⟩
      ∧ ∀ p ∈ s.created, users'.tasks.fileDescriptors p = s.fileDescriptors p := by
  obtain ⟨kids, refers⟩ := h.refers
  obtain ⟨sched₁, inner, how⟩ := NodeUsers.ktaskCreate_cases made
  have same : users.tasks.sched = sched₁ := by
    rcases how with ⟨-, rfl⟩ | ⟨-, parentTask, out, -, -, rfl⟩ <;> rfl
  obtain ⟨sched, pushed', rfl⟩ := NodeUsers.mtPushTask_eq_some pushed
  rw [same] at pushed'
  obtain ⟨closed, tasks⟩ := h.closed.spawned h.tasks newTask.new inner pushed'
  obtain ⟨refers', kept⟩ := refers.ktaskCreate newTask.new newTask.avoids newTask.input
    (fun p found => h.closed.mtGetTaskByPid found) made
  refine ⟨⟨?_, closed, tasks ▸ h.tasks, kids, refers'.sched sched⟩, kept⟩
  refine List.nodup_append.mpr ⟨h.nodup, by cases t <;> simp, fun p old q added => ?_⟩
  rintro rfl
  obtain rfl := (Sched.ktaskCreate_tasks inner).2 p (by simpa using added)
  exact newTask.new old

theorem Ready.mtSpawnKtask (h : s.Ready) {task : Nat} {c : Standard} (newTask : s.NewTask task c)
    {fuel ppid : Nat} {kmalloc : Buffer256} {i : Option Nat}
    (spawned : s.mtSpawnKtask fuel task ppid kmalloc i c = some s')
    : s'.Ready := by
  obtain ⟨⟨t, users⟩, made, spawned⟩ := Option.bind_eq_some_iff.mp spawned
  obtain ⟨users', pushed, result⟩ := Option.bind_eq_some_iff.mp spawned
  obtain rfl := Option.some.inj result
  exact (h.spawned newTask made pushed).1

/-- `mt_spawn_utask` leaves the descriptors of created tasks alone. -/
theorem Ready.mtSpawnUtask (h : s.Ready) {task : Nat} {c : Standard} (newTask : s.NewTask task c)
    {fuel ppid pid : Nat} {path : PathLookup} {kmalloc : Buffer256} {i : Option Nat}
    (spawned : s.mtSpawnUtask fuel path task ppid kmalloc i c = some (pid, s'))
    : s'.Ready ∧ ∀ p ∈ s.created, s'.fileDescriptors p = s.fileDescriptors p := by
  obtain ⟨⟨t, users⟩, made, spawned⟩ := Option.bind_eq_some_iff.mp spawned
  obtain ⟨node, -, made⟩ := Option.bind_eq_some_iff.mp made
  have unchanged (same : some (none, s.users) = some (t, users))
      : s'.Ready ∧ ∀ p ∈ s.created, s'.fileDescriptors p = s.fileDescriptors p := by
    obtain ⟨rfl, rfl⟩ := Prod.mk.inj (Option.some.inj same)
    obtain ⟨-, rfl⟩ := Prod.mk.inj (Option.some.inj spawned)
    exact ⟨h, fun _ _ => rfl⟩
  cases node with
  | none => exact unchanged made
  | some n =>
      dsimp only at made
      split at made
      · exact unchanged made
      · cases t with
        | some p =>
            obtain ⟨users', pushed, result⟩ := Option.bind_eq_some_iff.mp spawned
            obtain ⟨-, rfl⟩ := Prod.mk.inj (Option.some.inj result)
            exact h.spawned newTask made pushed
        | none =>
            obtain ⟨-, rfl⟩ := Prod.mk.inj (Option.some.inj spawned)
            obtain ⟨kids, refers⟩ := h.refers
            obtain ⟨sched, inner, ⟨-, rfl⟩ | ⟨new, -⟩⟩ := NodeUsers.ktaskCreate_cases made
            · refine ⟨h.withSched (h.closed.ktaskCreate_none inner) ?_, fun _ _ => rfl⟩
              exact (Sched.ktaskCreate_tasks inner).1
            · cases new

-----------------------------------------------------------------------------------------
-- What the parts of a system call go through
-----------------------------------------------------------------------------------------

section Parts

variable {α : Type} {kids : Nat → List Nat} {stopped : Kernel δ → Prop}

theorem meets_mtGetCurrentTask {returned : Nat → Kernel δ → Prop} (hs : stopped s)
    (hr : ∀ t, s.sched.curTask = some t → returned t s)
    : (mtGetCurrentTask : KernelM δ Nat).Meets s Access.Valid stopped returned :=
  .bind (Traced.meets_state (Traced.meets_ofOption (fun _ => hs) hr))

theorem meets_followPath (refers : s.users.Refers s.created kids) {root : Nat}
    (inside : s.users.vfs.Inside kids root) {path : List UInt8}
    {returned : List UInt8 → Kernel δ → Prop} (hr : returned path s)
    : (followPath root (some path) : KernelM δ (List UInt8)).Meets s Access.Valid stopped
        returned := by
  refine .bind (Traced.meets_emit rfl (.bind (Traced.meets_ofOption nofun ?_)))
  rintro _ ⟨⟩
  refine .bind (Traced.meets_state (.bind (Traced.meets_emit ?_ (Traced.meets_pure hr))))
  exact refers.ne_zero (startOf_inside inside path)

/-- The way up from a node of the tree, by induction on the fuel. -/
theorem meets_followParents (refers : s.users.Refers s.created kids) {node fuel : Nat}
    (inside : s.users.vfs.Inside kids node) (hs : stopped s) {returned : Unit → Kernel δ → Prop}
    (hr : returned () s)
    : (followParents fuel node : KernelM δ Unit).Meets s Access.Valid stopped returned := by
  induction fuel generalizing node with
  | zero => exact Traced.meets_stop hs
  | succ fuel ih =>
      refine .bind (Traced.meets_emit (refers.ne_zero inside) (.bind (Traced.meets_state ?_)))
      rcases inside.last with rfl | ⟨above, there, member⟩
      · have parent : (s.users.vfs.node s.users.vfs.vfsRoot).parent = some s.users.vfs.vfsRoot :=
          refers.tree.rootParent
        simp only [parent]
        rw [if_neg (not_not.mpr rfl)]
        exact Traced.meets_pure hr
      · obtain ⟨parent, -⟩ := child_parent refers.tree there member
        have parent' : (s.users.vfs.node node).parent = some above := parent
        simp only [parent']
        split
        · exact ih there
        · exact Traced.meets_pure hr

/-- The path of a node of the tree is not NULL. -/
theorem meets_vfsAbsPathTo (refers : s.users.Refers s.created kids) {c : Supplies} {node : Nat}
    (inside : s.users.vfs.Inside kids node) (hs : stopped s)
    {returned : Option (List UInt8) → Kernel δ → Prop} (hr : ∀ path, returned (some path) s)
    : (vfsAbsPathTo c node : KernelM δ (Option (List UInt8))).Meets s Access.Valid stopped
        returned := by
  rw [Kernel.vfsAbsPathTo, if_neg (refers.ne_zero inside)]
  refine .bind (meets_followParents refers inside hs ?_)
  refine .bind (Traced.meets_state (Traced.meets_ofOption (fun _ => hs) (fun r found => ?_)))
  obtain ⟨copied, -, found⟩ := Option.bind_eq_some_iff.mp found
  obtain ⟨path, -, result⟩ := Option.bind_eq_some_iff.mp found
  obtain rfl := Option.some.inj result
  exact hr path

/-- A transfer through a descriptor of the running task, or through none. -/
theorem Ready.meets_transfer (h : s.Ready) {c : Supplies} {allowed : FileDescriptor → Bool}
    {function : FileCalls → Option (Nat → Nat → Nat → Option Nat)} {number buffer size : Nat}
    (keeps : ∀ t ∈ s.sched.curTask, number ≠ (s.fileDescriptors t).used
      ∨ (s.fileDescriptors t).listGet number = 0)
    (hs : stopped s) {returned : Nat → Kernel δ → Prop} (hr : ∀ r, returned r s)
    : (transfer c allowed function number buffer size : KernelM δ Nat).Meets s Access.Valid stopped
        returned := by
  obtain ⟨kids, refers⟩ := h.refers
  refine .bind (meets_mtGetCurrentTask hs (fun t current => .bind (Traced.meets_state ?_)))
  dsimp only
  split
  · exact Traced.meets_pure (hr 0)
  · next there =>
      refine .bind (Traced.meets_emit there ?_)
      split
      · exact Traced.meets_pure (hr 0)
      · have inside : number < (s.fileDescriptors t).used := by
          have other := (keeps t current).resolve_right there
          by_contra behind
          exact there (if_pos (by omega))
        obtain ⟨element, its⟩ := ListT.listGet_mem inside
        have leads := refers.file t (h.closed.curTask t current) _ its
        rw [← element] at leads
        refine .bind (Traced.meets_emit leads ?_)
        exact Traced.meets_ofOption (fun _ => hs) (fun r _ => hr r)

end Parts

-----------------------------------------------------------------------------------------
-- What the handlers go through
-----------------------------------------------------------------------------------------

/-- A handler goes through valid pointers, leaves the kernel ready, and leaves the descriptors of
the running task alone.
-/
abbrev Harmless (s : Kernel δ) (x : KernelM δ Ended) : Prop :=
  x.Meets s Access.Valid s.SameTable (fun _ s' => s'.Ready ∧ s.SameTable s')

/-- Nothing has happened to the descriptors. -/
theorem SameTable.refl (s : Kernel δ) : s.SameTable s :=
  fun _ _ => rfl

/-- A handler that changes nothing. -/
theorem Ready.harmless_pure (h : s.Ready) (ended : Ended) : s.Harmless (pure ended) :=
  Traced.meets_pure ⟨h, .refl s⟩

theorem Ready.sysExit (h : s.Ready) (c : Supplies) (r : SyscallParams)
    : s.Harmless (sysExit c r) := by
  refine .bind (meets_mtGetCurrentTask (.refl s) (fun t current => .bind (Traced.meets_state ?_)))
  refine .bind (Traced.meets_ofOption (fun _ => .refl s) (fun sched terminated => ?_))
  have ended := h.mtTaskTerminate (h.closed.curTask t current) terminated
  refine .bind (Traced.meets_ofOption (fun _ => .refl s) (fun next ticked => ?_))
  have switched : (s.withSched next.2).Ready := ended.mtSchedule ticked
  exact .bind (Traced.meets_enter (Traced.meets_pure ⟨switched, fun _ _ => rfl⟩))

theorem Ready.sysRead (h : s.Ready) (c : Supplies) (r : SyscallParams)
    (keeps : ∀ t ∈ s.sched.curTask,
      r.ebx ≠ (s.fileDescriptors t).used ∨ (s.fileDescriptors t).listGet r.ebx = 0)
    : s.Harmless (sysRead c r) :=
  .bind (h.meets_transfer keeps (.refl s) (fun _ => h.harmless_pure _))

theorem Ready.sysWrite (h : s.Ready) (c : Supplies) (r : SyscallParams)
    (keeps : ∀ t ∈ s.sched.curTask,
      r.ebx ≠ (s.fileDescriptors t).used ∨ (s.fileDescriptors t).listGet r.ebx = 0)
    : s.Harmless (sysWrite c r) :=
  .bind (h.meets_transfer keeps (.refl s) (fun _ => h.harmless_pure _))

theorem Ready.sysOpen (h : s.Ready) {c : Supplies} {r : SyscallParams} (supplied : s.Supplied c)
    (leads : s.users.nodeFromPath c.fuel s.users.vfs.vfsRoot (c.lookup 0 (c.string r.ebx))
      ≠ some none)
    : (sysOpen c r).Meets s Access.Valid (fun _ => True) (fun _ s' => s'.Ready) := by
  obtain ⟨kids, refers⟩ := h.refers
  refine .bind (Traced.meets_state (.bind (meets_followPath refers .refl ?_)))
  refine .bind (Traced.meets_ofOption (fun _ => trivial) (fun users opened => ?_))
  refine .bind (meets_mtGetCurrentTask trivial (fun t current => ?_))
  refine .bind (Traced.meets_enter (Traced.meets_pure ?_))
  obtain ⟨refers', sched⟩ := refers.openPath h.nodup supplied.avoids current
    (h.closed.curTask t current) leads opened
  refine ⟨h.nodup, ?_, ?_, kids, refers'⟩
  · rw [Kernel.sched, sched]
    exact h.closed
  · rw [Kernel.sched, sched]
    exact h.tasks

theorem Ready.sysClose_none (h : s.Ready) (r : SyscallParams)
    (none : ∀ t ∈ s.sched.curTask, (s.fileDescriptors t).listGet r.ebx = 0)
    : s.Harmless (sysClose r) := by
  refine .bind (meets_mtGetCurrentTask (.refl s) (fun t current => .bind (Traced.meets_state ?_)))
  dsimp only
  rw [if_pos (none t current)]
  exact h.harmless_pure _

/-- `sys_close` of the descriptor with the last entry, or of none. -/
theorem Ready.sysClose (h : s.Ready) (r : SyscallParams)
    (last : ∀ t ∈ s.sched.curTask, (s.fileDescriptors t).listGet r.ebx = 0
      ∨ r.ebx < (s.fileDescriptors t).used
        ∧ (s.users.tasks.files.fd ((s.fileDescriptors t).data r.ebx)).gftIndex + 1
          = s.users.tasks.files.gft.used)
    : (sysClose r).Meets s Access.Valid (fun _ => True) (fun _ s' => s'.Ready) := by
  obtain ⟨kids, refers⟩ := h.refers
  refine .bind (meets_mtGetCurrentTask trivial (fun t current => .bind (Traced.meets_state ?_)))
  dsimp only
  split
  · exact Traced.meets_pure h
  · next there =>
      obtain ⟨inside, entry⟩ := (last t current).resolve_left there
      refine .bind (Traced.meets_emit there ?_)
      refine .bind (Traced.meets_ofOption (fun _ => trivial) (fun users closed => ?_))
      refine .bind (Traced.meets_enter (Traced.meets_pure ?_))
      obtain ⟨refers', sched⟩ := refers.close h.nodup current (h.closed.curTask t current) there
        inside entry closed
      refine ⟨h.nodup, ?_, ?_, kids, refers'⟩
      · rw [Kernel.sched, sched]
        exact h.closed
      · rw [Kernel.sched, sched]
        exact h.tasks

theorem Ready.sysGetpid (h : s.Ready) (r : SyscallParams) : s.Harmless (sysGetpid r) :=
  .bind (meets_mtGetCurrentTask (.refl s)
    (fun _ _ => .bind (Traced.meets_state (h.harmless_pure _))))

theorem Ready.sysGetppid (h : s.Ready) (r : SyscallParams) : s.Harmless (sysGetppid r) :=
  .bind (meets_mtGetCurrentTask (.refl s)
    (fun _ _ => .bind (Traced.meets_state (h.harmless_pure _))))

theorem Ready.sysRun (h : s.Ready) {c : Supplies} {r : SyscallParams} (supplied : s.Supplied c)
    (leads : ∀ t ∈ s.sched.curTask,
      s.users.nodeFromPath c.fuel (s.users.cwdNode t) (c.lookup 0 (c.string r.ebx)) ≠ some none)
    : s.Harmless (sysRun c r) := by
  obtain ⟨kids, refers⟩ := h.refers
  refine .bind (meets_mtGetCurrentTask (.refl s) (fun t current => .bind (Traced.meets_state ?_)))
  have cwd := refers.cwd t (h.closed.curTask t current)
  refine .bind (meets_followPath refers cwd ?_)
  refine .bind (Traced.meets_ofOption (fun _ => .refl s) (fun node found => ?_))
  cases node with
  | none => exact absurd found (leads t current)
  | some n =>
      have inside : s.users.vfs.Inside kids n := inside_of_fromPath refers.tree cwd found
      refine .bind (meets_vfsAbsPathTo refers inside (.refl s) (fun path => ?_))
      refine .bind (meets_followPath refers .refl ?_)
      refine .bind (Traced.meets_ofOption (fun _ => .refl s) (fun spawned made => ?_))
      obtain ⟨ready, kept⟩ := h.mtSpawnUtask supplied.newTask made
      refine .bind (Traced.meets_enter (Traced.meets_pure ⟨ready, fun t current => ?_⟩))
      exact kept t (h.closed.curTask t current)

theorem Ready.sysWait (h : s.Ready) (c : Supplies) (r : SyscallParams)
    : s.Harmless (sysWait c r) := by
  refine .bind (Traced.meets_state ?_)
  refine .bind (Traced.meets_ofOption (fun _ => .refl s) (fun t _ => ?_))
  cases t with
  | some t =>
      exact .bind (Traced.meets_enter (Traced.meets_pure ⟨h.mtSetFgTask _, fun _ _ => rfl⟩))
  | none =>
      exact .bind (Traced.meets_enter (Traced.meets_pure ⟨h.mtSetFgTask _, fun _ _ => rfl⟩))

theorem Ready.sysGetcwd (h : s.Ready) (c : Supplies) (r : SyscallParams)
    : s.Harmless (sysGetcwd c r) := by
  obtain ⟨kids, refers⟩ := h.refers
  refine .bind (meets_mtGetCurrentTask (.refl s) (fun t current => .bind (Traced.meets_state ?_)))
  have cwd := refers.cwd t (h.closed.curTask t current)
  refine .bind (meets_vfsAbsPathTo refers cwd (.refl s) (fun path => ?_))
  refine .bind (Traced.meets_emit rfl (.bind (Traced.meets_ofOption (fun _ => .refl s) ?_)))
  rintro _ ⟨⟩
  exact .bind (Traced.meets_ofOption (fun _ => .refl s) (fun _ _ => h.harmless_pure _))

theorem Ready.sysSetcwd (h : s.Ready) (c : Supplies) (r : SyscallParams)
    : s.Harmless (sysSetcwd c r) := by
  obtain ⟨kids, refers⟩ := h.refers
  refine .bind (meets_mtGetCurrentTask (.refl s) (fun t current => .bind (Traced.meets_state ?_)))
  have member := h.closed.curTask t current
  refine .bind (meets_followPath refers (refers.cwd t member) ?_)
  refine .bind (Traced.meets_ofOption (fun _ => .refl s) (fun users set => ?_))
  obtain ⟨refers', same⟩ := refers.sysSetcwd current member set
  refine .bind (Traced.meets_enter (Traced.meets_pure ⟨⟨h.nodup, ?_, ?_, kids, refers'⟩, ?_⟩))
  · rw [Kernel.sched, same]
    exact h.closed
  · rw [Kernel.sched, same]
    exact h.tasks
  · intro t' _
    rw [Kernel.fileDescriptors, same]

-----------------------------------------------------------------------------------------
-- System calls
-----------------------------------------------------------------------------------------

variable {c : Supplies} {r : SyscallParams}

/-- A call with an entry in `syscall_list` is one of the handler there. -/
theorem meets_syscallHandler {handler : SyscallParams → KernelM δ Ended}
    (entry : (syscallList c)[r.eax]?.join = some handler) {stopped : Kernel δ → Prop}
    {returned : Ended → Kernel δ → Prop}
    (meets : (handler r).Meets s Access.Valid stopped returned)
    : (syscallHandler c r).Meets s Access.Valid stopped returned := by
  rw [syscallHandler, entry]
  refine .bind (Traced.meets_emit rfl (.bind (Traced.meets_ofOption nofun ?_)))
  rintro _ ⟨⟩
  exact meets

/-- A system call that is kept safe goes through valid pointers, leaves the kernel ready, and if it
fails, leaves the descriptors of the running task alone; by cases on the number of the call.
-/
theorem Ready.syscallHandler (h : s.Ready) (supplied : s.Supplied c) (keeps : s.KeepsSafe c r)
    : (syscallHandler c r).Meets s Access.Valid (fun s' => s.Fails c r → s.SameTable s')
        (fun _ s' => s'.Ready ∧ (s.Fails c r → s.SameTable s')) := by
  have harmless {handler : SyscallParams → KernelM δ Ended}
      (entry : (syscallList c)[r.eax]?.join = some handler) (meets : s.Harmless (handler r))
      : (Kernel.syscallHandler c r).Meets s Access.Valid (fun s' => s.Fails c r → s.SameTable s')
          (fun _ s' => s'.Ready ∧ (s.Fails c r → s.SameTable s')) :=
    (meets_syscallHandler entry meets).mono (fun _ => id) (fun _ same _ => same)
      (fun _ _ both => ⟨both.1, fun _ => both.2⟩)
  have succeeds {handler : SyscallParams → KernelM δ Ended}
      (entry : (syscallList c)[r.eax]?.join = some handler) (succeeds : ¬ s.Fails c r)
      (meets : (handler r).Meets s Access.Valid (fun _ => True) (fun _ s' => s'.Ready))
      : (Kernel.syscallHandler c r).Meets s Access.Valid (fun s' => s.Fails c r → s.SameTable s')
          (fun _ s' => s'.Ready ∧ (s.Fails c r → s.SameTable s')) :=
    (meets_syscallHandler entry meets).mono (fun _ => id) (fun _ _ fails => absurd fails succeeds)
      (fun _ _ ready => ⟨ready, fun fails => absurd fails succeeds⟩)
  obtain ⟨⟨bound, notTwo, notEleven⟩, opens, runs, transfers, closes⟩ := keeps
  have number : r.eax = 0 ∨ r.eax = 1 ∨ r.eax = 3 ∨ r.eax = 4 ∨ r.eax = 5 ∨ r.eax = 6 ∨ r.eax = 7
      ∨ r.eax = 8 ∨ r.eax = 9 ∨ r.eax = 10 ∨ r.eax = 12 ∨ r.eax = 13 ∨ r.eax = 14 := by
    omega
  rcases number with eax | eax | eax | eax | eax | eax | eax | eax | eax | eax | eax | eax | eax
  · have hello : (syscallList c)[r.eax]?.join
        = some (sysHello : SyscallParams → KernelM δ Ended) := by
      rw [eax]
      rfl
    exact harmless hello (h.harmless_pure _)
  · exact harmless (by rw [eax]; rfl) (h.sysExit c r)
  · exact harmless (by rw [eax]; rfl) (h.sysRead c r (transfers (.inl eax)))
  · exact harmless (by rw [eax]; rfl) (h.sysWrite c r (transfers (.inr eax)))
  · exact succeeds (by rw [eax]; rfl) (fun fails => opens eax (fails.opens eax))
      (h.sysOpen supplied (opens eax))
  · by_cases fails : s.Fails c r
    · exact harmless (by rw [eax]; rfl) (h.sysClose_none r (fails.closes eax))
    · exact succeeds (by rw [eax]; rfl) fails (h.sysClose r (closes eax))
  · exact harmless (by rw [eax]; rfl) (h.sysGetpid r)
  · exact harmless (by rw [eax]; rfl) (h.sysGetppid r)
  · exact harmless (by rw [eax]; rfl) (h.sysRun supplied (runs eax))
  · exact harmless (by rw [eax]; rfl) (h.sysWait c r)
  · exact harmless (by rw [eax]; rfl) (h.sysGetcwd c r)
  · exact harmless (by rw [eax]; rfl) (h.sysSetcwd c r)
  · have getfb : (syscallList c)[r.eax]?.join
        = some (sysGetfb : SyscallParams → KernelM δ Ended) := by
      rw [eax]
      rfl
    exact harmless getfb (h.harmless_pure _)

theorem Ready.safe (h : s.Ready) (supplied : s.Supplied c) (keeps : s.KeepsSafe c r)
    : s.Safe c r := by
  have meets := h.syscallHandler supplied keeps
  refine ⟨meets.events, fun fails => ?_⟩
  have same : (Kernel.syscallHandler c r).Meets s Access.Valid s.SameTable
      (fun _ => s.SameTable) :=
    meets.mono (fun _ => id) (fun _ same => same fails) (fun _ _ both => both.2 fails)
  exact same.ends

-----------------------------------------------------------------------------------------
-- Runs
-----------------------------------------------------------------------------------------

/-- An event that keeps system calls safe leaves the kernel ready, by cases on it. -/
theorem Ready.step (h : s.Ready) {event : Event} (keeps : s.Keeps event) (taken : s.Step event s')
    : s'.Ready := by
  cases event with
  | syscall c r =>
      obtain ⟨supplied, ended, returned⟩ := taken
      obtain ⟨result, rfl⟩ := Traced.returned_eq_some.mp returned
      exact ((h.syscallHandler supplied keeps).returns ended result).1
  | waited pid =>
      obtain ⟨-, rfl⟩ := taken
      exact h.mtSetFgTask _
  | spawnKtask task ppid kmalloc i c =>
      obtain ⟨newTask, fuel, spawned⟩ := taken
      exact h.mtSpawnKtask newTask spawned
  | spawnUtask path task ppid kmalloc i c =>
      obtain ⟨newTask, fuel, pid, spawned⟩ := taken
      exact (h.mtSpawnUtask newTask spawned).1
  | terminate pid =>
      obtain ⟨fuel, sched, terminated, rfl⟩ := taken
      obtain ⟨t, found, terminated⟩ := Option.bind_eq_some_iff.mp terminated
      cases t with
      | none =>
          obtain rfl := Option.some.inj terminated
          exact h
      | some t => exact h.mtTaskTerminate (h.closed.mtGetTaskByPid found) terminated
  | schedule =>
      obtain ⟨fuel, switched, sched, returned, rfl⟩ := taken
      exact h.mtSchedule returned

/-- The first task has pid 0 and is its own parent. -/
theorem Boots.mtSpawnKtask (h : s.Boots) {task : Nat} {c : Standard} (newTask : s.NewTask task c)
    {fuel : Nat} {kmalloc : Buffer256} {i : Option Nat}
    (spawned : s.mtSpawnKtask fuel task 0 kmalloc i c = some s')
    : s'.Ready := by
  obtain ⟨⟨t, users⟩, made, spawned⟩ := Option.bind_eq_some_iff.mp spawned
  obtain ⟨users', pushed, result⟩ := Option.bind_eq_some_iff.mp spawned
  obtain rfl := Option.some.inj result
  obtain ⟨sched₁, inner, how⟩ := NodeUsers.ktaskCreate_cases made
  have same : users.tasks.sched = sched₁ := by
    rcases how with ⟨-, rfl⟩ | ⟨-, parentTask, out, -, -, rfl⟩ <;> rfl
  obtain ⟨sched, pushed', rfl⟩ := NodeUsers.mtPushTask_eq_some pushed
  rw [same] at pushed'
  have spawned' : s.sched.mtSpawnKtask fuel task 0 = some sched := by
    rw [Sched.mtSpawnKtask, inner]
    exact pushed'
  obtain ⟨view, -⟩ := Sched.mtSpawnKtask_first h.users.tasks h.users.terminatedTasks
    h.users.pidCounter spawned'
  -- the list starts with the task that was pushed
  have none : sched₁.tasks = none := (Sched.ktaskCreate_tasks inner).1.trans h.users.tasks
  rw [Sched.mtPushTask, none] at pushed'
  obtain rfl := Option.some.inj pushed'
  obtain rfl : t = some task := view.tasks.chain.head
  have idle : sched₁.curTask = Option.none := by
    obtain ⟨pid, parentTask, -, -, ⟨-, new, -⟩ | ⟨-, -, rfl⟩⟩ := Sched.ktaskCreate_cases inner
    · cases new
    · exact h.curTask
  obtain ⟨kids, kept⟩ := h.users.kept
  have refers : s.users.Refers s.created kids := by
    rw [h.created]
    exact ⟨kept.tree, fun inside => h.notNull (kept.tree.reachable_iff.mpr inside), h.con,
      kept.held, fun t alive => absurd alive List.not_mem_nil,
      fun t alive => absurd alive List.not_mem_nil⟩
  have unlisted (p : Nat) (found : s.sched.mtGetTaskByPid fuel 0 = some (some p))
      : p ∈ s.created := by
    rw [Sched.mtGetTaskByPid, h.users.tasks, Linked.find] at found
    cases found
  obtain ⟨refers', -⟩ := refers.ktaskCreate newTask.new newTask.avoids newTask.input unlisted made
  refine ⟨?_, ?_, Option.some_ne_none task, kids, refers'.sched _⟩
  · rw [h.created]
    exact List.nodup_singleton task
  · rw [h.created]
    refine view.closed (fun c current => ?_)
    rw [idle] at current
    cases current

/-- `mt_init` leaves the kernel ready. -/
theorem Inits.ready (h : s.Inits) : s.Ready := by
  obtain ⟨s₀, s₁, s₂, s₃, kernelIdle, test, cleaner, b₁, b₂, b₃, i₁, i₂, i₃, c₁, c₂, c₃, boots,
    ⟨new₁, fuel₁, first⟩, ⟨new₂, fuel₂, second⟩, ⟨new₃, fuel₃, third⟩, rfl⟩ := h
  have ready := ((boots.mtSpawnKtask new₁ first).mtSpawnKtask new₂ second).mtSpawnKtask new₃ third
  exact ready.withSched ⟨ready.closed.tasks, ready.closed.terminatedTasks, ready.closed.tasks,
    ready.closed.next, ready.closed.prev⟩ rfl

/-- In every run whose system calls are kept safe, every further system call that is kept safe goes
through valid pointers only, and if it fails, the running task has the same descriptors afterwards.
In every reachable state the scheduler and the tables of descriptors hold valid pointers; a call is
then safe by cases on its number.
-/
theorem run_safe {steps : List (Kernel δ × Event)} (run : system.Run s steps)
    (keeps : ∀ taken ∈ steps, taken.1.Keeps taken.2) {c : Supplies} {r : SyscallParams}
    (supplied : s.Supplied c) (next : s.KeepsSafe c r)
    : s.Safe c r := by
  have ready : s.Ready := by
    refine (run.restrict keeps).invariant (fun s (init : Inits s) => init.ready) ?_
    exact fun s event s' ready taken => ready.step taken.1 taken.2
  exact ready.safe supplied next

-----------------------------------------------------------------------------------------
-- Runs from memory filled with zeros
-----------------------------------------------------------------------------------------

section Examples

/-- The directory `/` with the directory `dev`, and the file `con` there. -/
def devTree : VfsState Nat where
  node n :=
    if n = 1 then
      { name := [slash, 0], parent := some 1, childs := some 2, next := none, prev := none,
        file := { type := vfsDir, permissions := 0, inode := 0, size := 0 } }
    else if n = 2 then
      { name := [0x64, 0x65, 0x76, 0], parent := some 1, childs := some 3, next := none
        prev := none
        file := { type := vfsDir, permissions := 0, inode := 0, size := 0 } }
    else
      { name := [0x63, 0x6F, 0x6E, 0], parent := some 2, childs := none, next := none, prev := none,
        file := { type := vfsCdev, permissions := 0, inode := 0, size := 0 } }
  vfsRoot := 1
  tmpfsRoot := none
  devfsRoot := none

def devKids (n : Nat) : List Nat :=
  if n = 1 then [2] else if n = 2 then [3] else []

/-- The nodes of `devTree` are these three. -/
theorem devTree_cases {n : Nat} (inside : devTree.Inside devKids n) : n = 1 ∨ n = 2 ∨ n = 3 := by
  rcases inside.last with rfl | ⟨m, -, member⟩
  · exact .inl rfl
  · rw [devKids] at member
    split at member
    · exact .inr (.inl (List.mem_singleton.mp member))
    · split at member
      · exact .inr (.inr (List.mem_singleton.mp member))
      · exact absurd member List.not_mem_nil

theorem isTree_devTree : IsTree devTree.links devTree.vfsRoot devKids where
  rootParent := rfl
  rootNext := rfl
  chain n inside := by
    rcases devTree_cases inside with rfl | rfl | rfl
    · exact ⟨rfl, rfl⟩
    · exact ⟨rfl, rfl⟩
    · exact rfl
  parent n inside := by
    rcases devTree_cases inside with rfl | rfl | rfl <;> decide
  notRoot n inside := by
    rcases devTree_cases inside with rfl | rfl | rfl <;> decide
  finite := (Set.finite_le_nat 3).subset (fun n inside => by
    rcases devTree_cases inside with rfl | rfl | rfl <;> decide)

theorem named_devTree : Named devTree devKids := by
  intro n inside
  rcases devTree_cases inside with rfl | rfl | rfl <;> decide

/-- A lookup of `/dev/con` there does not return NULL. -/
theorem devTree_con (fuel : Nat) (kmalloc : Buffer256) (i : Option Nat)
    : vfsNodeFromPath devTree.mem devTree.vfsRoot kmalloc fuel i devTree.vfsRoot NodeUsers.devCon
      ≠ some none := by
  intro null
  let path : List UInt8 := [slash, 0x64, 0x65, 0x76, slash, 0x63, 0x6F, 0x6E]
  obtain ⟨enough, leads⟩ := resolves_lookup isTree_devTree named_devTree .refl
    (show path.length ≤ 255 by decide)
  have found := leads (max fuel enough) (le_max_right ..) kmalloc i NodeUsers.devCon (by decide)
  have con : devTree.lookup devKids devTree.vfsRoot path = some 3 := by
    decide +kernel
  rw [vfsNodeFromPath_mono (le_max_left ..) null, con] at found
  cases found

/-- Before `mt_init`, with these nodes. -/
def zeroed : Kernel Unit where
  users := NodeUsers.zeroed devTree
  created := []

/-- A system call gets blocks from an address on, and the string `/dev/con`. -/
def supplies (n : Nat) : Supplies where
  fuel := 16
  string _ := NodeUsers.devCon
  file _ := { read := none, write := some (fun _ size _ => some size) }
  kmalloc _ := zeros
  copy _ := zeros
  i _ := none
  junk _ := 0
  fd := ⟨fun _ => 0, n, n + 0x10⟩
  task := n + 0x100
  standard := standardAt (n + 0x1000)

def registers (eax ebx ecx edx : Nat) : SyscallParams :=
  ⟨eax, ebx, ecx, edx, 0, 0, 0⟩

instance (s : FileTasks) (live : List Nat) (bs : List FdBlocks) : Decidable (s.Avoids live bs) :=
  decidable_of_iff ((bs.map FdBlocks.e).Nodup ∧ (bs.map FdBlocks.fd).Nodup
      ∧ (∀ b ∈ bs, ∀ i < s.files.gft.used, 0 < i → s.files.gft.data i ≠ b.e)
      ∧ (∀ b ∈ bs, 0 < b.fd ∧ b.fd + Files.sizeofFileDescriptor ≤ 2 ^ 32)
      ∧ ∀ b ∈ bs, ∀ t ∈ live, b.fd ∉ (s.fileDescriptors t).elements)
    ⟨fun h => ⟨h.1, h.2.1, h.2.2.1, h.2.2.2.1, h.2.2.2.2⟩,
      fun h => ⟨h.entries, h.fds, h.newEntry, h.address, h.newFd⟩⟩

instance (s : Kernel Unit) (task : Nat) (c : Standard) : Decidable (s.NewTask task c) :=
  decidable_of_iff (task ∉ s.created ∧ s.users.tasks.Avoids s.created c.blocks ∧ c.input ≠ 0)
    ⟨fun h => ⟨h.1, h.2.1, h.2.2⟩, fun h => ⟨h.new, h.avoids, h.input⟩⟩

instance (s : Kernel Unit) (c : Supplies) : Decidable (s.Supplied c) :=
  decidable_of_iff (s.NewTask c.task c.standard ∧ s.users.tasks.Avoids s.created [c.fd])
    ⟨fun h => ⟨h.1, h.2⟩, fun h => ⟨h.newTask, h.avoids⟩⟩

instance (s : Kernel Unit) (c : Supplies) (r : SyscallParams) : Decidable (s.KeepsSafe c r) :=
  decidable_of_iff ((r.eax < 15 ∧ r.eax ≠ 2 ∧ r.eax ≠ 11)
      ∧ (r.eax = 5
        → s.users.nodeFromPath c.fuel s.users.vfs.vfsRoot (c.lookup 0 (c.string r.ebx)) ≠ some none)
      ∧ (r.eax = 9 → ∀ t ∈ s.sched.curTask,
        s.users.nodeFromPath c.fuel (s.users.cwdNode t) (c.lookup 0 (c.string r.ebx)) ≠ some none)
      ∧ (r.eax = 3 ∨ r.eax = 4 → ∀ t ∈ s.sched.curTask,
        r.ebx ≠ (s.fileDescriptors t).used ∨ (s.fileDescriptors t).listGet r.ebx = 0)
      ∧ (r.eax = 6 → ∀ t ∈ s.sched.curTask, (s.fileDescriptors t).listGet r.ebx = 0
        ∨ r.ebx < (s.fileDescriptors t).used
          ∧ (s.users.tasks.files.fd ((s.fileDescriptors t).data r.ebx)).gftIndex + 1
            = s.users.tasks.files.gft.used))
    ⟨fun h => ⟨h.1, h.2.1, h.2.2.1, h.2.2.2.1, h.2.2.2.2⟩,
      fun h => ⟨h.handler, h.opens, h.runs, h.transfers, h.closes⟩⟩

/-- A spawn or a system call, with calls that return in a few rounds. -/
def perform (s : Kernel Unit) : Event → Option (Kernel Unit)
  | .spawnKtask task ppid kmalloc i c =>
      if s.NewTask task c then s.mtSpawnKtask 16 task ppid kmalloc i c else none
  | .syscall c r => if s.Supplied c then (syscallHandler c r s).returned.map Prod.snd else none
  | _ => none

theorem perform_step {s s' : Kernel Unit} {event : Event} (performed : s.perform event = some s')
    : s.Step event s' := by
  cases event with
  | spawnKtask task ppid kmalloc i c =>
      obtain ⟨newTask, spawned⟩ := Option.ite_none_right_eq_some.mp performed
      exact ⟨newTask, 16, spawned⟩
  | syscall c r =>
      obtain ⟨supplied, called⟩ := Option.ite_none_right_eq_some.mp performed
      obtain ⟨⟨ended, s''⟩, returned, rfl⟩ := Option.map_eq_some_iff.mp called
      exact ⟨supplied, ended, returned⟩
  | _ => cases performed

/-- `mt_init` and then the given events, latest first. -/
def scene (events : List Event) : Option (Kernel Unit × List (Kernel Unit × Event)) := do
  let s ← zeroed.perform (.spawnKtask 0x1000 0 zeros none (standardAt 0x10000))
  let s ← s.perform (.spawnKtask 0x2000 0 zeros none (standardAt 0x20000))
  let s ← s.perform (.spawnKtask 0x3000 0 zeros none (standardAt 0x30000))
  TransitionSystem.play perform s.enable events

theorem scene_run {events : List Event} {r : Kernel Unit × List (Kernel Unit × Event)}
    (played : scene events = some r)
    : system.Run r.1 r.2 := by
  rw [scene] at played
  obtain ⟨s₁, first, played⟩ := Option.bind_eq_some_iff.mp played
  obtain ⟨s₂, second, played⟩ := Option.bind_eq_some_iff.mp played
  obtain ⟨s₃, third, played⟩ := Option.bind_eq_some_iff.mp played
  have users : (NodeUsers.zeroed devTree).Boots :=
    ⟨⟨_, isTree_devTree⟩, rfl, fun _ _ => rfl, rfl, rfl, rfl, _, _, rfl⟩
  have notNull : ¬ devTree.Node 0 := by
    intro reached
    have cases := devTree_cases (isTree_devTree.reachable_iff.mp reached)
    omega
  have boots : zeroed.Boots := ⟨users, notNull, devTree_con, rfl, rfl⟩
  have start : system.init s₃.enable :=
    ⟨_, s₁, s₂, s₃, 0x1000, 0x2000, 0x3000, _, _, _, _, _, _, _, _, _, boots,
      perform_step first, perform_step second, perform_step third, rfl⟩
  have sound (s : Kernel Unit) (event : Event) (s' : Kernel Unit) (_ : True)
      (performed : s.perform event = some s')
      : system.step s event s' ∧ True :=
    ⟨perform_step performed, trivial⟩
  exact (TransitionSystem.Run.of_play sound start trivial played).1

instance (s : Kernel Unit) (event : Event) : Decidable (s.Keeps event) :=
  match event with
  | .syscall c r => inferInstanceAs (Decidable (s.KeepsSafe c r))
  | .waited _ | .spawnKtask .. | .spawnUtask .. | .terminate _ | .schedule => isTrue trivial

/-- A task opens `/dev/con` and writes there. -/
theorem run_safe_written
    : ∃ (s : Kernel Unit) (steps : List (Kernel Unit × Event)),
        system.Run s steps ∧ steps.length = 1
          ∧ s.Safe (supplies 0x50000) (registers 4 3 0 5) := by
  let events : List Event := [.syscall (supplies 0x40000) (registers 5 0 Files.oRdwr 0)]
  have returns : (scene events).isSome = true := by
    decide +kernel
  obtain ⟨⟨s, steps⟩, played⟩ := Option.isSome_iff_exists.mp returns
  have facts : ∀ r ∈ scene events, r.2.length = 1 ∧ (∀ taken ∈ r.2, taken.1.Keeps taken.2)
      ∧ r.1.Supplied (supplies 0x50000) ∧ r.1.KeepsSafe (supplies 0x50000) (registers 4 3 0 5) := by
    decide +kernel
  obtain ⟨length, keeps, supplied, next⟩ := facts _ played
  have run := scene_run played
  exact ⟨s, steps, run, length, run_safe run keeps supplied next⟩

/-- The third entry of `syscall_list` is NULL. -/
theorem run_not_safe
    : ¬ ∀ (s : Kernel Unit) (steps : List (Kernel Unit × Event)), system.Run s steps
        → ∀ c r, s.Supplied c → s.Safe c r := by
  intro sound
  have returns : (scene []).isSome = true := by
    decide +kernel
  obtain ⟨⟨s, steps⟩, played⟩ := Option.isSome_iff_exists.mp returns
  have supplied : ∀ r ∈ scene [], r.1.Supplied (supplies 0x40000) := by
    decide +kernel
  have accesses := (sound s steps (scene_run played) (supplies 0x40000) (registers 2 0 0 0)
    (supplied _ played)).accesses
  exact absurd (accesses (.handler false) (List.mem_singleton_self _)) Bool.false_ne_true

end Examples

end Kernel

end Hydrangea
