import Hydrangea.Fs.FileTasks
import Hydrangea.Fs.VfsMountRuns
import Hydrangea.Multitasking.UserTasks
import Hydrangea.Syscalls.Cwd

/-! The nodes that tasks refer to: `cwd_node`, which `ktask_create` and `sys_setcwd` set, and the
nodes of the descriptors that `ktask_create` and `open` open, while `vfs_mount_partition` and
`vfs_umount_partition` change the tree. A node is its address, and 0 is NULL in an entry of the
global file table.
-/

namespace Hydrangea

open Linked LinkedTree Vfs VfsState

/-- A call of `vfs_node_from_path`: the buffer that its `kmalloc` gives, what the static `i` of
`strtok` holds, and the path.
-/
structure PathLookup where
  kmalloc : Buffer256
  i : Option Nat
  path : List UInt8

/-- The mounted partitions, the tasks with their descriptors, and the field `cwd_node` of the task
at each address. `ofNode` says of a descriptor whether it was opened on a node that a path led to;
no step reads it.
-/
structure NodeUsers (δ : Type) where
  drives : VfsDrives δ Nat
  tasks : FileTasks
  cwdNode : Nat → Nat
  ofNode : Nat → Bool

namespace NodeUsers

variable {δ : Type}

abbrev vfs (s : NodeUsers δ) : VfsState Nat :=
  s.drives.vfs

/-- `vfs_node_from_path(root, path)`. -/
def nodeFromPath (fuel : Nat) (s : NodeUsers δ) (root : Nat) (c : PathLookup)
    : Option (Option Nat) :=
  vfsNodeFromPath s.vfs.mem s.vfs.vfsRoot c.kmalloc fuel c.i root c.path

def devCon : List UInt8 :=
  [slash, 0x64, 0x65, 0x76, slash, 0x63, 0x6F, 0x6E, 0]

/-- The standard descriptors of a task are opened: for a ring buffer, and twice for `out`. -/
def openStandard (s : NodeUsers δ) (task : Nat) (out : Option Nat) (c : Standard)
    : NodeUsers δ :=
  let ofNode := Function.update s.ofNode c.stdin.fd false
  let ofNode := Function.update ofNode c.stdout.fd out.isSome
  let ofNode := Function.update ofNode c.stderr.fd out.isSome
  { s with
    tasks := s.tasks.openStandard task { c with output := out.getD 0 }
    ofNode }

/-- `ktask_create`. The first two calls are those at its start, for the directory of the parent. -/
def ktaskCreate (fuel : Nat) (s : NodeUsers δ) (task ppid : Nat) (kmalloc : Buffer256)
    (i : Option Nat) (c : Standard)
    : Option (Option Nat × NodeUsers δ) := do
  let (_, sched) ← s.tasks.sched.genPid fuel
  let parentTask ← sched.mtGetTaskByPid fuel ppid
  let (t, sched) ← s.tasks.sched.ktaskCreate fuel task ppid
  let s := { s with tasks := { s.tasks with sched } }
  match t with
  | none => return (none, s)
  | some t => do
      let out ← s.nodeFromPath fuel s.vfs.vfsRoot ⟨kmalloc, i, devCon⟩
      let s := s.openStandard t out c
      let cwdNode := parentTask.elim s.vfs.vfsRoot s.cwdNode
      return (some t, { s with cwdNode := Function.update s.cwdNode t cwdNode })

def mtPushTask (fuel : Nat) (s : NodeUsers δ) (newTask : Option Nat) : Option (NodeUsers δ) := do
  let tasks ← s.tasks.mtPushTask fuel newTask
  return { s with tasks }

/-- `mt_spawn_ktask`, without the pid it returns. -/
def mtSpawnKtask (fuel : Nat) (s : NodeUsers δ) (task ppid : Nat) (kmalloc : Buffer256)
    (i : Option Nat) (c : Standard)
    : Option (NodeUsers δ) := do
  let (t, s) ← s.ktaskCreate fuel task ppid kmalloc i c
  s.mtPushTask fuel t

def utaskCreate (fuel : Nat) (s : NodeUsers δ) (path : PathLookup) (task ppid : Nat)
    (kmalloc : Buffer256) (i : Option Nat) (c : Standard)
    : Option (Option Nat × NodeUsers δ) := do
  match ← s.nodeFromPath fuel s.vfs.vfsRoot path with
  | none => return (none, s)
  | some node =>
      if (s.vfs.node node).file.permissions &&& vfsDir ≠ 0 then
        return (none, s)
      else
        s.ktaskCreate fuel task ppid kmalloc i c

/-- `mt_spawn_utask`, without the pid it returns. -/
def mtSpawnUtask (fuel : Nat) (s : NodeUsers δ) (path : PathLookup) (task ppid : Nat)
    (kmalloc : Buffer256) (i : Option Nat) (c : Standard)
    : Option (NodeUsers δ) := do
  let (t, s) ← s.utaskCreate fuel path task ppid kmalloc i c
  match t with
  | none => return s
  | some p => s.mtPushTask fuel (some p)

def sysSetcwd (fuel : Nat) (s : NodeUsers δ) (c : PathLookup) : Option (NodeUsers δ) := do
  let task ← s.tasks.sched.curTask
  let cwdNode ← s.vfs.sysSetcwd c.kmalloc fuel c.i (s.cwdNode task) c.path
  return { s with cwdNode := Function.update s.cwdNode task cwdNode }

/-- `open`; `junk` lies behind the list of the task. -/
def openPath (fuel : Nat) (s : NodeUsers δ) (c : PathLookup) (junk : Nat → Nat) (b : FdBlocks)
    (flags : Nat)
    : Option (NodeUsers δ) := do
  let node ← s.nodeFromPath fuel s.vfs.vfsRoot c
  let tasks ← s.tasks.openNode junk ⟨b, node.getD 0, flags⟩
  return { s with tasks, ofNode := Function.update s.ofNode b.fd node.isSome }

def close (s : NodeUsers δ) (number : Nat) : Option (NodeUsers δ) := do
  let tasks ← s.tasks.close number
  return { s with tasks }

/-- What can happen next. -/
inductive Event (δ : Type) where
  | spawnKtask (task ppid : Nat) (kmalloc : Buffer256) (i : Option Nat) (c : Standard)
  | spawnUtask (path : PathLookup) (task ppid : Nat) (kmalloc : Buffer256) (i : Option Nat)
    (c : Standard)
  | setcwd (c : PathLookup)
  | openPath (c : PathLookup) (junk : Nat → Nat) (b : FdBlocks) (flags : Nat)
  | close (number : Nat)
  | partition (event : VfsDrives.MountEvent δ Nat)
  | schedule

/-- A task may be created in the blocks. -/
structure NewTask (s : NodeUsers δ) (task : Nat) (c : Standard) : Prop where
  notLive : ¬ s.tasks.sched.OnTasks task
  notDead : ¬ s.tasks.sched.OnTerminated task
  unused : s.tasks.Unused c.blocks

/-- One event, if its calls return. -/
def Step [DecidableEq δ] (disk : δ → Nat → UInt8) (s : NodeUsers δ)
    : Event δ → NodeUsers δ → Prop
  | .spawnKtask task ppid kmalloc i c, s' =>
      s.NewTask task c ∧ ∃ fuel, s.mtSpawnKtask fuel task ppid kmalloc i c = some s'
  | .spawnUtask path task ppid kmalloc i c, s' =>
      s.NewTask task c ∧ ∃ fuel, s.mtSpawnUtask fuel path task ppid kmalloc i c = some s'
  | .setcwd c, s' => ∃ fuel, s.sysSetcwd fuel c = some s'
  | .openPath c junk b flags, s' =>
      s.tasks.Unused [b] ∧ ∃ fuel, s.openPath fuel c junk b flags = some s'
  | .close number, s' => s.close number = some s'
  | .partition event, s' => ∃ drives, s.drives.MountStep disk event drives ∧ s' = { s with drives }
  | .schedule, s' =>
      ∃ sched, s.tasks.sched.Step .schedule sched
        ∧ s' = { s with tasks := { s.tasks with sched } }

/-- The end of `mt_init`. -/
def enable (s : NodeUsers δ) : NodeUsers δ :=
  { s with tasks := s.tasks.enable }

/-- Before `mt_init`: a tree with a directory at its root, no mounted partition and no task. -/
structure Boots (s : NodeUsers δ) : Prop where
  tree : ∃ kids, IsTree s.vfs.links s.vfs.vfsRoot kids
  isDir : (s.vfs.node s.vfs.vfsRoot).file.type = vfsDir
  unmounted : ∀ drv p, s.drives.mtpts drv p = none
  tasks : s.tasks.sched.tasks = none
  terminatedTasks : s.tasks.sched.terminatedTasks = none
  pidCounter : s.tasks.sched.pidCounter = 0
  files : ∃ (files : Files) (junk : Nat → Nat), s.tasks.files = files.gftInit junk

/-- `mt_init`: three tasks, and the rest. -/
def Inits [DecidableEq δ] (disk : δ → Nat → UInt8) (s : NodeUsers δ) : Prop :=
  ∃ (s₀ s₁ s₂ s₃ : NodeUsers δ) (kernelIdle test cleaner : Nat) (b₁ b₂ b₃ : Buffer256)
      (i₁ i₂ i₃ : Option Nat) (c₁ c₂ c₃ : Standard),
    s₀.Boots
      ∧ s₀.Step disk (.spawnKtask kernelIdle 0 b₁ i₁ c₁) s₁
      ∧ s₁.Step disk (.spawnKtask test 0 b₂ i₂ c₂) s₂
      ∧ s₂.Step disk (.spawnKtask cleaner 0 b₃ i₃ c₃) s₃
      ∧ s = s₃.enable

/-- Tasks that are created, change their directories, open and close descriptors, and mount and
unmount partitions, from `mt_init` on.
-/
def system [DecidableEq δ] (disk : δ → Nat → UInt8)
    : TransitionSystem (NodeUsers δ) (Event δ) where
  init := Inits disk
  step := Step disk

/-- The directory of every task is a directory or a mount point in the tree, and the descriptors
that were opened on nodes lead to nodes in the tree.
-/
structure NodesInTree (s : NodeUsers δ) : Prop where
  cwd : ∀ t, s.tasks.sched.OnTasks t
    → s.vfs.Node (s.cwdNode t) ∧ s.vfs.IsDirectory (s.cwdNode t)
  file : ∀ t, s.tasks.sched.OnTasks t → ∀ d ∈ (s.tasks.fileDescriptors t).elements,
    s.ofNode d = true → s.vfs.Node (s.tasks.files.fdToNode d)

/-- No task refers to the node, and no partition is mounted there. -/
structure NotUsed (s : NodeUsers δ) (n : Nat) : Prop where
  cwd : ∀ t, s.tasks.sched.OnTasks t → s.cwdNode t ≠ n
  file : ∀ t, s.tasks.sched.OnTasks t → ∀ d ∈ (s.tasks.fileDescriptors t).elements,
    s.ofNode d = true → s.tasks.files.fdToNode d ≠ n
  mtpt : ∀ drv p, s.drives.mtpts drv p ≠ some n

/-- The state before an event keeps nodes in the tree: `sys_setcwd` gets no path to a node that is
neither a directory nor a mount point, `close` closes no descriptor but the one with the last entry
of the table, and below a mount point that is unmounted no node is used.
-/
def Keeps (s : NodeUsers δ) : Event δ → Prop
  | .setcwd c =>
      ∀ t ∈ s.tasks.sched.curTask, ∀ fuel n, s.nodeFromPath fuel (s.cwdNode t) c = some (some n)
        → s.vfs.IsDirectory n
  | .close number =>
      ∀ t ∈ s.tasks.sched.curTask, (s.tasks.fileDescriptors t).listGet number = 0
        ∨ number < (s.tasks.fileDescriptors t).used
          ∧ (s.tasks.files.fd ((s.tasks.fileDescriptors t).data number)).gftIndex + 1
            = s.tasks.files.gft.used
  | .partition (.umount drv p _) =>
      ∀ n ∈ s.drives.mtpts drv p, ∀ m, VfsDrives.Under s.vfs n m → m ≠ n → s.NotUsed m
  | _ => True

variable {s s' s₁ : NodeUsers δ} {live : List Nat} {kids : Nat → List Nat}

-----------------------------------------------------------------------------------------
-- What the calls of tasks keep
-----------------------------------------------------------------------------------------

/-- The tasks in `live` have directories in the tree, their descriptors that were opened on nodes
lead to nodes in the tree, and so do the mounted partitions.
-/
structure Kept (s : NodeUsers δ) (live : List Nat) (kids : Nat → List Nat) : Prop where
  tree : IsTree s.vfs.links s.vfs.vfsRoot kids
  isDir : s.vfs.IsDirectory s.vfs.vfsRoot
  mtpt : ∀ drv p n, s.drives.mtpts drv p = some n → s.vfs.Inside kids n
  held : s.tasks.Held live
  cwd : ∀ t ∈ live, s.vfs.Inside kids (s.cwdNode t) ∧ s.vfs.IsDirectory (s.cwdNode t)
  file : ∀ t ∈ live, ∀ d ∈ (s.tasks.fileDescriptors t).elements, s.ofNode d = true
    → s.vfs.Inside kids (s.tasks.files.fdToNode d)

/-- Another state of the scheduler does not matter. -/
theorem Kept.sched (h : s.Kept live kids) (sched : Sched)
    : Kept { s with tasks := { s.tasks with sched } } live kids :=
  ⟨h.tree, h.isDir, h.mtpt, ⟨h.held.held⟩, h.cwd, h.file⟩

/-- A path from a node of the tree leads to one. -/
theorem Kept.inside_of_path (h : s.Kept live kids) {root n fuel : Nat} {c : PathLookup}
    (here : s.vfs.Inside kids root) (found : s.nodeFromPath fuel root c = some (some n))
    : s.vfs.Inside kids n :=
  inside_of_fromPath h.tree here found

theorem openStandard_ofNode (s : NodeUsers δ) (task : Nat) (out : Option Nat) {c : Standard}
    (distinct : (c.blocks.map FdBlocks.fd).Nodup) (d : Nat)
    : (s.openStandard task out c).ofNode d
      = if d = c.stdin.fd then false
        else if d = c.stdout.fd ∨ d = c.stderr.fd then out.isSome
        else s.ofNode d := by
  simp only [Standard.blocks, List.map_cons, List.map_nil, List.nodup_cons, List.mem_cons,
    List.not_mem_nil, or_false, not_or] at distinct
  obtain ⟨⟨inOut, inErr⟩, -, -⟩ := distinct
  simp only [openStandard, Function.update_apply]
  by_cases isIn : d = c.stdin.fd
  · subst isIn
    rw [if_neg inErr, if_neg inOut, if_pos rfl, if_pos rfl]
  · rw [if_neg isIn, if_neg isIn]
    by_cases isErr : d = c.stderr.fd
    · rw [if_pos isErr, if_pos (.inr isErr)]
    · rw [if_neg isErr]
      simp only [isErr, or_false]

/-- The standard descriptors of a new task. -/
theorem Kept.openStandard (h : s.Kept live kids)
    (listed : ∀ t ∈ live, s.tasks.sched.OnTasks t) {task : Nat} {c : Standard}
    (new : task ∉ live) (unused : s.tasks.Unused c.blocks) {out : Option Nat}
    (inside : ∀ n ∈ out, s.vfs.Inside kids n) {cwdNode : Nat}
    (cwd : s.vfs.Inside kids cwdNode ∧ s.vfs.IsDirectory cwdNode)
    : Kept
        { s.openStandard task out c with cwdNode := Function.update s.cwdNode task cwdNode }
        (live ++ [task]) kids := by
  let call : Standard := { c with output := out.getD 0 }
  have avoids : s.tasks.Avoids live call.blocks := unused.avoids listed
  have held := h.held.openStandard (c := call) new avoids
  refine ⟨h.tree, h.isDir, h.mtpt, held, fun t member => ?_, fun t member d its ofNode => ?_⟩
  · dsimp only
    by_cases own : t = task
    · rw [own, Function.update_self]
      exact cwd
    · rw [Function.update_of_ne own]
      exact h.cwd t ((List.mem_append.mp member).resolve_right (by simpa using own))
  · replace ofNode : (s.openStandard task out c).ofNode d = true := ofNode
    rw [openStandard_ofNode s task out unused.fds] at ofNode
    rcases h.held.openStandard_cases (c := call) avoids member its with
      ⟨o, called, rfl, leads⟩ | ⟨old, before, other, kept⟩
    · have notIn : o.fd ≠ c.stdin.fd := by
        intro isIn
        rw [if_pos isIn] at ofNode
        cases ofNode
      -- so it is one of those for the node
      have output : o.node = out.getD 0 ∧ (o.fd = c.stdout.fd ∨ o.fd = c.stderr.fd) := by
        simp only [Standard.opens, call, List.mem_cons, List.not_mem_nil, or_false] at called
        rcases called with rfl | rfl | rfl
        · exact absurd rfl notIn
        · exact ⟨rfl, .inl rfl⟩
        · exact ⟨rfl, .inr rfl⟩
      rw [if_neg notIn, if_pos output.2] at ofNode
      obtain ⟨n, rfl⟩ := Option.isSome_iff_exists.mp ofNode
      replace leads := leads.trans output.1
      dsimp only [NodeUsers.openStandard]
      rw [leads]
      exact inside n rfl
    · simp only [Standard.opens, List.mem_cons, List.not_mem_nil, or_false, forall_eq_or_imp,
        forall_eq, call] at other
      obtain ⟨notIn, notOut, notErr⟩ := other
      rw [if_neg notIn, if_neg (not_or.mpr ⟨notOut, notErr⟩)] at ofNode
      dsimp only [NodeUsers.openStandard]
      rw [kept]
      exact h.file t old d before ofNode

theorem ktaskCreate_cases {fuel task ppid : Nat} {kmalloc : Buffer256} {i : Option Nat}
    {c : Standard} {new : Option Nat}
    (created : s.ktaskCreate fuel task ppid kmalloc i c = some (new, s₁))
    : ∃ sched, s.tasks.sched.ktaskCreate fuel task ppid = some (new, sched)
        ∧ (new = none ∧ s₁ = { s with tasks := { s.tasks with sched } }
          ∨ new = some task ∧ ∃ (parentTask : Option Nat) (out : Option Nat),
            s.tasks.sched.mtGetTaskByPid fuel ppid = some parentTask
            ∧ s.nodeFromPath fuel s.vfs.vfsRoot ⟨kmalloc, i, devCon⟩ = some out
            ∧ s₁ =
              { openStandard { s with tasks := { s.tasks with sched } } task out c with
                cwdNode :=
                  Function.update s.cwdNode task (parentTask.elim s.vfs.vfsRoot s.cwdNode) }) := by
  obtain ⟨⟨pid, sched₀⟩, generated, created⟩ := Option.bind_eq_some_iff.mp created
  obtain ⟨parentTask, searched, created⟩ := Option.bind_eq_some_iff.mp created
  obtain ⟨⟨t, sched⟩, made, rest⟩ := Option.bind_eq_some_iff.mp created
  have own := (Sched.ktaskCreate_tasks made).2
  dsimp only at rest
  cases t with
  | none =>
      obtain ⟨rfl, rfl⟩ := Prod.mk.inj (Option.some.inj rest)
      exact ⟨sched, made, .inl ⟨rfl, rfl⟩⟩
  | some t =>
      obtain rfl := own t rfl
      obtain ⟨out, found, result⟩ := Option.bind_eq_some_iff.mp rest
      obtain ⟨rfl, rfl⟩ := Prod.mk.inj (Option.some.inj result)
      obtain rfl := Sched.genPid_state generated
      exact ⟨sched, made, .inr ⟨rfl, parentTask, out, searched, found, rfl⟩⟩

/-- A created task has a directory in the tree and descriptors for nodes in the tree. -/
theorem Kept.ktaskCreate (h : s.Kept live kids)
    (chain : Chain s.tasks.sched.next s.tasks.sched.tasks live) {task : Nat} {c : Standard}
    (newTask : s.NewTask task c) {fuel ppid : Nat} {kmalloc : Buffer256} {i : Option Nat}
    {new : Option Nat} (created : s.ktaskCreate fuel task ppid kmalloc i c = some (new, s₁))
    : s₁.Kept (live ++ new.toList) kids := by
  have listed : ∀ t ∈ live, s.tasks.sched.OnTasks t := fun t member => ⟨live, chain, member⟩
  obtain ⟨sched, -, ⟨rfl, rfl⟩ | ⟨rfl, parentTask, out, searched, found, rfl⟩⟩ :=
    ktaskCreate_cases created
  · rw [Option.toList_none, List.append_nil]
    exact h.sched sched
  · have inside : ∀ n ∈ out, s.vfs.Inside kids n := by
      rintro n rfl
      exact h.inside_of_path .refl found
    have cwd : s.vfs.Inside kids (parentTask.elim s.vfs.vfsRoot s.cwdNode)
        ∧ s.vfs.IsDirectory (parentTask.elim s.vfs.vfsRoot s.cwdNode) := by
      cases parentTask with
      | none => exact ⟨.refl, h.isDir⟩
      | some p => exact h.cwd p ((find_eq_some chain searched).1 p rfl).1
    have opened := h.openStandard listed (fun member => newTask.notLive (listed task member))
      newTask.unused inside cwd
    exact opened.sched sched

/-- `sys_setcwd` with a path to a directory, or to nothing. -/
theorem Kept.sysSetcwd (h : s.Kept live kids) {task fuel : Nat} {c : PathLookup}
    (current : s.tasks.sched.curTask = some task) (member : task ∈ live)
    (leads : ∀ fuel n, s.nodeFromPath fuel (s.cwdNode task) c = some (some n)
      → s.vfs.IsDirectory n)
    (ran : s.sysSetcwd fuel c = some s')
    : s'.Kept live kids ∧ s'.tasks = s.tasks := by
  obtain ⟨task', running, ran⟩ := Option.bind_eq_some_iff.mp ran
  obtain rfl := Option.some.inj (current.symm.trans running)
  obtain ⟨cwdNode, set, result⟩ := Option.bind_eq_some_iff.mp ran
  obtain rfl := Option.some.inj result
  obtain ⟨node, found, set⟩ := Option.bind_eq_some_iff.mp set
  obtain rfl := Option.some.inj set
  have here := h.cwd task member
  have there : s.vfs.Inside kids (node.getD (s.cwdNode task))
      ∧ s.vfs.IsDirectory (node.getD (s.cwdNode task)) := by
    cases node with
    | none => exact here
    | some n => exact ⟨h.inside_of_path here.1 found, leads fuel n found⟩
  refine ⟨⟨h.tree, h.isDir, h.mtpt, h.held, fun t listed => ?_, h.file⟩, rfl⟩
  dsimp only
  by_cases own : t = task
  · rw [own, Function.update_self]
    exact there
  · rw [Function.update_of_ne own]
    exact h.cwd t listed

/-- `open` opens a descriptor on a node of the tree, or on NULL. -/
theorem Kept.openPath (h : s.Kept live kids) (nodup : live.Nodup)
    (listed : ∀ t ∈ live, s.tasks.sched.OnTasks t) {task fuel flags : Nat} {c : PathLookup}
    {junk : Nat → Nat} {b : FdBlocks} (current : s.tasks.sched.curTask = some task)
    (member : task ∈ live) (unused : s.tasks.Unused [b])
    (ran : s.openPath fuel c junk b flags = some s')
    : s'.Kept live kids ∧ s'.tasks.sched = s.tasks.sched := by
  obtain ⟨node, found, ran⟩ := Option.bind_eq_some_iff.mp ran
  obtain ⟨tasks, opened, result⟩ := Option.bind_eq_some_iff.mp ran
  obtain rfl := Option.some.inj result
  obtain ⟨task', running, opened⟩ := Option.bind_eq_some_iff.mp opened
  obtain rfl := Option.some.inj (current.symm.trans running)
  obtain rfl := Option.some.inj opened
  let o : FdOpen := ⟨b, node.getD 0, flags⟩
  have avoids : s.tasks.Avoids live [o.toFdBlocks] := unused.avoids listed
  have held := h.held.openNode nodup member junk avoids
  refine ⟨⟨h.tree, h.isDir, h.mtpt, held, h.cwd, fun t alive d its ofNode => ?_⟩, rfl⟩
  dsimp only [FileTasks.pushFd] at ofNode ⊢
  rcases h.held.openNode_cases member junk avoids alive its with
    ⟨rfl, leads⟩ | ⟨before, other, kept⟩
  · rw [Function.update_self] at ofNode
    obtain ⟨n, rfl⟩ := Option.isSome_iff_exists.mp ofNode
    rw [leads]
    exact h.inside_of_path .refl found
  · rw [Function.update_of_ne other] at ofNode
    rw [kept]
    exact h.file t alive d before ofNode

/-- `close` of the descriptor with the last entry, or of none. -/
theorem Kept.close (h : s.Kept live kids) (nodup : live.Nodup) {task number : Nat}
    (current : s.tasks.sched.curTask = some task) (member : task ∈ live)
    (last : (s.tasks.fileDescriptors task).listGet number = 0
      ∨ number < (s.tasks.fileDescriptors task).used
        ∧ (s.tasks.files.fd ((s.tasks.fileDescriptors task).data number)).gftIndex + 1
          = s.tasks.files.gft.used)
    (ran : s.close number = some s')
    : s'.Kept live kids ∧ s'.tasks.sched = s.tasks.sched := by
  obtain ⟨tasks, closed, result⟩ := Option.bind_eq_some_iff.mp ran
  obtain rfl := Option.some.inj result
  obtain ⟨task', running, closed⟩ := Option.bind_eq_some_iff.mp closed
  obtain rfl := Option.some.inj (current.symm.trans running)
  dsimp only at closed
  split at closed
  · obtain rfl := Option.some.inj closed
    exact ⟨⟨h.tree, h.isDir, h.mtpt, h.held, h.cwd, h.file⟩, rfl⟩
  · next there =>
      obtain ⟨inside, last⟩ := last.resolve_left there
      rw [(ListT.listGet_mem inside).1] at closed
      obtain rfl := Option.some.inj closed
      obtain ⟨held, kept⟩ := h.held.close nodup member inside last rfl
      refine ⟨⟨h.tree, h.isDir, h.mtpt, held, h.cwd, fun t alive d its ofNode => ?_⟩, rfl⟩
      obtain ⟨before, same⟩ := kept d (List.mem_flatMap.mpr ⟨t, alive, its⟩)
      obtain ⟨t', alive', its'⟩ := List.mem_flatMap.mp before
      rw [same]
      exact h.file t' alive' d its' ofNode

-----------------------------------------------------------------------------------------
-- What mounts and unmounts keep
-----------------------------------------------------------------------------------------

/-- Another tree does not matter that still has the nodes in use, and directories where there have
been some.
-/
theorem Kept.drives (h : s.Kept live kids) (listed : ∀ t ∈ live, s.tasks.sched.OnTasks t)
    {drives : VfsDrives δ Nat} {kids' : Nat → List Nat}
    (tree : IsTree drives.vfs.links drives.vfs.vfsRoot kids')
    (root : drives.vfs.vfsRoot = s.vfs.vfsRoot)
    (inside : ∀ m, s.vfs.Inside kids m → ¬ s.NotUsed m → drives.vfs.Inside kids' m)
    (isDir : ∀ m, s.vfs.Inside kids m → s.vfs.IsDirectory m → drives.vfs.IsDirectory m)
    (mtpt : ∀ drv p n, drives.mtpts drv p = some n → drives.vfs.Inside kids' n)
    : Kept { s with drives } live kids' where
  tree := tree
  isDir := by
    have kept := isDir s.vfs.vfsRoot .refl h.isDir
    rwa [← root] at kept
  mtpt := mtpt
  held := h.held
  cwd t member := by
    obtain ⟨here, dir⟩ := h.cwd t member
    exact ⟨inside _ here (fun not => not.cwd t (listed t member) rfl), isDir _ here dir⟩
  file t member d its ofNode :=
    inside _ (h.file t member d its ofNode)
      (fun not => not.file t (listed t member) d its ofNode rfl)

variable [DecidableEq δ] {disk : δ → Nat → UInt8}

omit [DecidableEq δ] in
/-- A directory or mount point stays one when some node becomes one. -/
theorem isDirectory_setFile {v v' : VfsState Nat} {n m type : Nat}
    (either : type = vfsDir ∨ type = vfsMtpt) (kept : (v'.node m).file = (v.node m).file)
    (dir : v.IsDirectory m)
    : (v'.setFile n (fun file => { file with type })).IsDirectory m := by
  rw [IsDirectory, VfsDrives.setFile_file]
  split
  · exact either
  · rwa [kept]

theorem Kept.mount (h : s.Kept live kids) (listed : ∀ t ∈ live, s.tasks.sched.OnTasks t)
    {drives : VfsDrives δ Nat} {c : MountCall δ Nat} {n : Nat} {populated : VfsState Nat}
    (mounts : VfsDrives.Mounts disk s.drives drives c n populated)
    (rel : s.vfs.Inside kids c.rel) (unused : s.vfs.Unused c.blocks.nodes)
    : ∃ kids', Kept { s with drives } live kids' := by
  obtain ⟨here, -, kids', grows⟩ := mounts.grows h.tree rel unused
  have root : drives.vfs.vfsRoot = s.vfs.vfsRoot := by
    rw [mounts.vfs]
    exact grows.roots.vfsRoot
  have inside {m : Nat} (there : s.vfs.Inside kids m) : drives.vfs.Inside kids' m := by
    rw [mounts.vfs]
    exact grows.inside there
  refine ⟨kids', h.drives listed ?_ root (fun m there _ => inside there) (fun m there dir => ?_)
    (fun drv p m mounted => ?_)⟩
  · rw [mounts.vfs, setFile_links]
    exact grows.tree
  · rw [mounts.vfs]
    exact isDirectory_setFile (.inr rfl) (grows.kept m there).2 dir
  · rw [mounts.mtpts] at mounted
    split at mounted
    · obtain rfl := Option.some.inj mounted
      exact inside here
    · exact inside (h.mtpt drv p m mounted)

/-- An unmount keeps all nodes but those below the mount point. -/
theorem Kept.umount (h : s.Kept live kids) (listed : ∀ t ∈ live, s.tasks.sched.OnTasks t)
    {drives : VfsDrives δ Nat} {drv : δ} {p n : Nat} {freed : VfsState Nat}
    (umounts : VfsDrives.Umounts s.drives drives drv p n freed)
    (free : ∀ m, VfsDrives.Under s.vfs n m → m ≠ n → s.NotUsed m)
    : Kept { s with drives } live (dropKids kids n) := by
  obtain ⟨fuel, made⟩ := umounts.made
  have here := h.mtpt drv p n umounts.here
  have freed' := vfsFreeChildNodes_freed h.tree here made
  have root : drives.vfs.vfsRoot = s.vfs.vfsRoot := by
    rw [umounts.vfs]
    exact freed'.roots.vfsRoot
  -- a node in use does not lie below the mount point
  have inside (m : Nat) (there : s.vfs.Inside kids m) (used : ¬ s.NotUsed m)
      : drives.vfs.Inside (dropKids kids n) m := by
    rw [Inside, root]
    refine h.tree.below_dropKids here there ?_
    by_contra under
    obtain ⟨under, other⟩ := not_or.mp under
    exact used (free m ⟨kids, h.tree, not_not.mp under⟩ other)
  refine h.drives listed ?_ root inside (fun m there dir => ?_) (fun drv' p' m mounted => ?_)
  · rw [umounts.vfs, setFile_links]
    exact freed'.isTree h.tree here
  · obtain ⟨childs, entry⟩ := freed'.entry m
    rw [umounts.vfs]
    exact isDirectory_setFile (.inl rfl) (by rw [entry]) dir
  · rw [umounts.mtpts] at mounted
    split at mounted
    · cases mounted
    · exact inside m (h.mtpt drv' p' m mounted) (fun not => not.mtpt drv' p' mounted)

-----------------------------------------------------------------------------------------
-- Runs
-----------------------------------------------------------------------------------------

/-- The tasks on `tasks` are these, and their nodes are in the tree. -/
structure Inv (s : NodeUsers δ) (live : List Nat) : Prop where
  lists : ∃ dead kids, s.tasks.sched.View live dead ∧ s.Kept live kids
  counter : 0 < s.tasks.sched.pidCounter

def Running (s : NodeUsers δ) (live : List Nat) : Prop :=
  ∀ t ∈ s.tasks.sched.curTask, t ∈ live

omit [DecidableEq δ] in
theorem Inv.nodesInTree (h : s.Inv live) : s.NodesInTree := by
  obtain ⟨⟨dead, kids, view, kept⟩, -⟩ := h
  refine ⟨fun t listed => ?_, fun t listed d its ofNode => ?_⟩
  · obtain ⟨inside, dir⟩ := kept.cwd t (view.onTasks.mp listed)
    exact ⟨kept.tree.reachable_iff.mpr inside, dir⟩
  · exact kept.tree.reachable_iff.mpr (kept.file t (view.onTasks.mp listed) d its ofNode)

omit [DecidableEq δ] in
/-- `ktask_create` leaves the lists of tasks as they are. -/
theorem ktaskCreate_view {dead : List Nat} (view : s.tasks.sched.View live dead)
    (counter : 0 < s.tasks.sched.pidCounter) {task : Nat} {c : Standard}
    (newTask : s.NewTask task c) {fuel ppid : Nat} {kmalloc : Buffer256} {i new : Option Nat}
    (created : s.ktaskCreate fuel task ppid kmalloc i c = some (new, s₁))
    : s₁.tasks.sched.View live dead ∧ s₁.tasks.sched.curTask = s.tasks.sched.curTask
      ∧ 0 < s₁.tasks.sched.pidCounter
      ∧ ∀ p ∈ new, p ∉ live ∧ p ∉ dead ∧ s₁.tasks.sched.next p = none
        ∧ s₁.tasks.sched.pid p ≠ 0 := by
  obtain ⟨sched, made, how⟩ := ktaskCreate_cases created
  have same : s₁.tasks.sched = sched := by
    rcases how with ⟨-, rfl⟩ | ⟨-, parentTask, out, -, -, rfl⟩ <;> rfl
  have notLive := mt view.onTasks.mpr newTask.notLive
  have notDead := mt view.onTerminated.mpr newTask.notDead
  obtain ⟨view', counter', cur, -, fresh⟩ := view.ktaskCreate counter notLive notDead made
  rw [same]
  refine ⟨view', cur, counter', fun p member => ?_⟩
  obtain ⟨rfl, unlinked, pid⟩ := fresh p member
  exact ⟨notLive, notDead, unlinked, pid⟩

omit [DecidableEq δ] in
/-- `mt_push_task` changes the scheduler alone. -/
theorem mtPushTask_eq_some {fuel : Nat} {new : Option Nat}
    (pushed : s.mtPushTask fuel new = some s')
    : ∃ sched, s.tasks.sched.mtPushTask fuel new = some sched
        ∧ s' = { s with tasks := { s.tasks with sched } } := by
  obtain ⟨tasks, inner, result⟩ := Option.bind_eq_some_iff.mp pushed
  obtain ⟨sched, last, made⟩ := Option.bind_eq_some_iff.mp inner
  obtain rfl := Option.some.inj made
  obtain rfl := Option.some.inj result
  exact ⟨sched, last, rfl⟩

omit [DecidableEq δ] in
/-- A spawn adds at most one task. -/
theorem Inv.mtSpawnKtask (h : s.Inv live) {task : Nat} {c : Standard} (newTask : s.NewTask task c)
    {fuel ppid : Nat} {kmalloc : Buffer256} {i : Option Nat}
    (spawned : s.mtSpawnKtask fuel task ppid kmalloc i c = some s')
    : ∃ added, s'.Inv (live ++ added) ∧ s'.tasks.sched.curTask = s.tasks.sched.curTask := by
  obtain ⟨⟨dead, kids, view, kept⟩, counter⟩ := h
  obtain ⟨⟨new, s₁⟩, created, pushed⟩ := Option.bind_eq_some_iff.mp spawned
  obtain ⟨view₁, cur₁, counter₁, fresh⟩ := ktaskCreate_view view counter newTask created
  have kept₁ := kept.ktaskCreate view.tasks.chain newTask created
  obtain ⟨sched, pushed', rfl⟩ := mtPushTask_eq_some pushed
  obtain ⟨view', counter', cur, -⟩ := view₁.mtPushTask fresh pushed'
  exact ⟨_, ⟨⟨dead, kids, view', kept₁.sched sched⟩, counter' ▸ counter₁⟩, cur.trans cur₁⟩

omit [DecidableEq δ] in
theorem Inv.mtSpawnUtask (h : s.Inv live) {task : Nat} {c : Standard} (newTask : s.NewTask task c)
    {fuel ppid : Nat} {path : PathLookup} {kmalloc : Buffer256} {i : Option Nat}
    (spawned : s.mtSpawnUtask fuel path task ppid kmalloc i c = some s')
    : ∃ added, s'.Inv (live ++ added) ∧ s'.tasks.sched.curTask = s.tasks.sched.curTask := by
  obtain ⟨⟨new, s₁⟩, created, pushed⟩ := Option.bind_eq_some_iff.mp spawned
  obtain ⟨node, -, created⟩ := Option.bind_eq_some_iff.mp created
  have unchanged (same : some (none, s) = some (new, s₁))
      : ∃ added, s'.Inv (live ++ added) ∧ s'.tasks.sched.curTask = s.tasks.sched.curTask := by
    obtain ⟨rfl, rfl⟩ := Prod.mk.inj (Option.some.inj same)
    obtain rfl := Option.some.inj pushed
    exact ⟨[], by rwa [List.append_nil], rfl⟩
  cases node with
  | none => exact unchanged created
  | some n =>
      dsimp only at created
      split at created
      · exact unchanged created
      · cases new with
        | some p =>
            have both : s.mtSpawnKtask fuel task ppid kmalloc i c = some s' := by
              rw [NodeUsers.mtSpawnKtask, created]
              exact pushed
            exact h.mtSpawnKtask newTask both
        | none =>
            obtain rfl := Option.some.inj pushed
            obtain ⟨⟨dead, kids, view, kept⟩, counter⟩ := h
            obtain ⟨view₁, cur₁, counter₁, -⟩ := ktaskCreate_view view counter newTask created
            have kept₁ := kept.ktaskCreate view.tasks.chain newTask created
            rw [Option.toList_none, List.append_nil] at kept₁
            exact ⟨[], by rw [List.append_nil]; exact ⟨⟨dead, kids, view₁, kept₁⟩, counter₁⟩, cur₁⟩

omit [DecidableEq δ] in
/-- The running task is still listed when tasks were added. -/
theorem Running.append (h : s.Running live) {added : List Nat}
    (cur : s'.tasks.sched.curTask = s.tasks.sched.curTask)
    : s'.Running (live ++ added) :=
  fun t member => List.mem_append_left _ (h t (cur ▸ member))

/-- An event that keeps nodes in the tree keeps the invariant, by cases on it. -/
theorem Inv.step (h : s.Inv live) (running : s.Running live) {event : Event δ}
    (keeps : s.Keeps event) (taken : s.Step disk event s')
    : ∃ live', s'.Inv live' ∧ s'.Running live' := by
  cases event with
  | spawnKtask task ppid kmalloc i c =>
      obtain ⟨newTask, fuel, spawned⟩ := taken
      obtain ⟨added, inv, cur⟩ := h.mtSpawnKtask newTask spawned
      exact ⟨_, inv, running.append cur⟩
  | spawnUtask path task ppid kmalloc i c =>
      obtain ⟨newTask, fuel, spawned⟩ := taken
      obtain ⟨added, inv, cur⟩ := h.mtSpawnUtask newTask spawned
      exact ⟨_, inv, running.append cur⟩
  | setcwd c =>
      obtain ⟨fuel, ran⟩ := taken
      obtain ⟨⟨dead, kids, view, kept⟩, counter⟩ := h
      obtain ⟨task, current, -⟩ := Option.bind_eq_some_iff.mp ran
      obtain ⟨kept', same⟩ := kept.sysSetcwd current (running task current) (keeps task current) ran
      exact ⟨live, ⟨⟨dead, kids, same ▸ view, kept'⟩, same ▸ counter⟩, fun t => same ▸ running t⟩
  | openPath c junk b flags =>
      obtain ⟨unused, fuel, ran⟩ := taken
      obtain ⟨⟨dead, kids, view, kept⟩, counter⟩ := h
      obtain ⟨node, -, more⟩ := Option.bind_eq_some_iff.mp ran
      obtain ⟨tasks, opened, -⟩ := Option.bind_eq_some_iff.mp more
      obtain ⟨task, current, -⟩ := Option.bind_eq_some_iff.mp opened
      obtain ⟨kept', same⟩ := kept.openPath view.tasks.chain.nodup
        (fun t member => view.onTasks.mpr member) current (running task current) unused ran
      exact ⟨live, ⟨⟨dead, kids, same ▸ view, kept'⟩, same ▸ counter⟩, fun t => same ▸ running t⟩
  | close number =>
      obtain ⟨⟨dead, kids, view, kept⟩, counter⟩ := h
      obtain ⟨tasks, closed, -⟩ := Option.bind_eq_some_iff.mp taken
      obtain ⟨task, current, -⟩ := Option.bind_eq_some_iff.mp closed
      obtain ⟨kept', same⟩ := kept.close view.tasks.chain.nodup current (running task current)
        (keeps task current) taken
      exact ⟨live, ⟨⟨dead, kids, same ▸ view, kept'⟩, same ▸ counter⟩, fun t => same ▸ running t⟩
  | partition event =>
      obtain ⟨drives, taken, rfl⟩ := taken
      obtain ⟨⟨dead, kids, view, kept⟩, counter⟩ := h
      have listed : ∀ t ∈ live, s.tasks.sched.OnTasks t := fun t member => view.onTasks.mpr member
      obtain ⟨kids', kept'⟩ : ∃ kids', Kept { s with drives } live kids' := by
        cases event with
        | mount c result =>
            obtain ⟨-, rel, unused, fuel, ran⟩ := taken
            rcases VfsDrives.vfsMountPartition_cases ran with ⟨-, rfl⟩ | ⟨-, n, populated, mounts⟩
            · exact ⟨kids, kept⟩
            · exact kept.mount listed mounts (kept.tree.reachable_iff.mp rel) unused
        | umount drv p result =>
            obtain ⟨-, fuel, ran⟩ := taken
            rcases VfsDrives.vfsUmountPartition_cases ran with ⟨-, rfl⟩ | ⟨n, freed, umounts⟩
            · exact ⟨kids, kept⟩
            · exact ⟨_, kept.umount listed umounts (keeps n umounts.here)⟩
      exact ⟨live, ⟨⟨dead, kids', view, kept'⟩, counter⟩, running⟩
  | schedule =>
      obtain ⟨sched, ⟨fuel, next, returned⟩, rfl⟩ := taken
      obtain ⟨⟨dead, kids, view, kept⟩, counter⟩ := h
      obtain ⟨view', counter', -, stays, switches⟩ := view.mtSchedule returned
      refine ⟨live, ⟨⟨dead, kids, view', kept.sched sched⟩, counter' ▸ counter⟩, fun t member => ?_⟩
      dsimp only at member
      cases next with
      | none =>
          rw [stays rfl] at member
          exact running t member
      | some n =>
          obtain ⟨cur, listed⟩ := switches n rfl
          obtain rfl := Option.some.inj (cur.symm.trans member)
          exact listed (fun c running' => .inl (running c running'))

omit [DecidableEq δ] in
/-- Before `mt_init` there are no tasks. -/
theorem Boots.kept (h : s.Boots) : ∃ kids, s.Kept [] kids := by
  obtain ⟨kids, tree⟩ := h.tree
  obtain ⟨files, junk, empty⟩ := h.files
  refine ⟨kids, tree, .inl h.isDir, fun drv p n mounted => ?_, ⟨[], ?_, .nil⟩,
    fun t member => absurd member List.not_mem_nil, fun t member => absurd member List.not_mem_nil⟩
  · rw [h.unmounted drv p] at mounted
    cases mounted
  · refine ⟨?_, List.nodup_nil, by simp, trivial⟩
    rw [empty]
    rfl

omit [DecidableEq δ] in
/-- The first task has pid 0 and is its own parent. -/
theorem Boots.mtSpawnKtask (h : s.Boots) {task : Nat} {c : Standard} (newTask : s.NewTask task c)
    {fuel : Nat} {kmalloc : Buffer256} {i : Option Nat}
    (spawned : s.mtSpawnKtask fuel task 0 kmalloc i c = some s')
    : s'.Inv [task] := by
  obtain ⟨kids, kept⟩ := h.kept
  obtain ⟨⟨new, s₁⟩, created, pushed⟩ := Option.bind_eq_some_iff.mp spawned
  have chain : Chain s.tasks.sched.next s.tasks.sched.tasks [] := h.tasks
  obtain ⟨sched, made, how⟩ := ktaskCreate_cases created
  have same : s₁.tasks.sched = sched := by
    rcases how with ⟨-, rfl⟩ | ⟨-, parentTask, out, -, -, rfl⟩ <;> rfl
  have kept₁ := kept.ktaskCreate chain newTask created
  obtain ⟨sched', pushed', rfl⟩ := mtPushTask_eq_some pushed
  have spawned' : s.tasks.sched.mtSpawnKtask fuel task 0 = some sched' := by
    rw [Sched.mtSpawnKtask, made]
    rwa [same] at pushed'
  obtain ⟨view, counter⟩ :=
    Sched.mtSpawnKtask_first h.tasks h.terminatedTasks h.pidCounter spawned'
  -- the list starts with the task that was pushed
  have none : sched.tasks = none := (Sched.ktaskCreate_tasks made).1.trans h.tasks
  have head : new = some task := by
    rw [same, Sched.mtPushTask, none] at pushed'
    obtain rfl := Option.some.inj pushed'
    exact view.tasks.chain.head
  rw [head] at kept₁
  exact ⟨⟨[], kids, view, kept₁.sched sched'⟩, counter ▸ Nat.one_pos⟩

theorem Inits.inv (h : s.Inits disk) : ∃ live, s.Inv live ∧ s.Running live := by
  obtain ⟨s₀, s₁, s₂, s₃, kernelIdle, test, cleaner, b₁, b₂, b₃, i₁, i₂, i₃, c₁, c₂, c₃, boots,
    ⟨new₁, fuel₁, first⟩, ⟨new₂, fuel₂, second⟩, ⟨new₃, fuel₃, third⟩, rfl⟩ := h
  have inv₁ := boots.mtSpawnKtask new₁ first
  obtain ⟨added₂, inv₂, -⟩ := inv₁.mtSpawnKtask new₂ second
  obtain ⟨added₃, ⟨⟨dead, kids, view, kept⟩, counter⟩, -⟩ := inv₂.mtSpawnKtask new₃ third
  refine ⟨_, ⟨⟨dead, kids, ?_, kept.sched _⟩, counter⟩, fun t current => ?_⟩
  · exact view.congr rfl rfl (fun p _ => ⟨rfl, rfl, rfl, rfl⟩)
  · exact List.mem_of_mem_head? (view.tasks.chain.head.symm.trans current)

/-- In every run that keeps nodes in the tree, the directory of every task is a directory or a
mount point in the tree, and the descriptors that were opened on nodes lead to nodes in the tree.
The invariant says of each descriptor and each directory of a task that its node is in the tree.
Mounts and unmounts change the tree, and the condition keeps their nodes in it.
-/
theorem run_nodesInTree {steps : List (NodeUsers δ × Event δ)} (run : (system disk).Run s steps)
    (keeps : ∀ taken ∈ steps, taken.1.Keeps taken.2)
    : s.NodesInTree := by
  obtain ⟨live, inv, -⟩ : ∃ live, s.Inv live ∧ s.Running live := by
    refine (run.restrict keeps).invariant (fun s (init : Inits disk s) => init.inv) ?_
    rintro s event s' ⟨live, inv, running⟩ ⟨keeps, taken⟩
    exact inv.step running keeps taken
  exact inv.nodesInTree

-----------------------------------------------------------------------------------------
-- Runs from memory filled with zeros
-----------------------------------------------------------------------------------------

section Examples

/-- The directory `/` with the file `/y`. -/
def rootWithFile : VfsState Nat where
  node n :=
    if n = 1 then
      { name := [slash, 0], parent := some 1, childs := some 2, next := none, prev := none,
        file := { type := vfsDir, permissions := 0, inode := 0, size := 0 } }
    else
      { name := [0x79, 0], parent := some 1, childs := none, next := none, prev := none,
        file := { type := vfsFile, permissions := 0, inode := 0, size := 0 } }
  vfsRoot := 1
  tmpfsRoot := none
  devfsRoot := none

def rootWithFileKids (n : Nat) : List Nat :=
  if n = 1 then [2] else []

theorem rootWithFile_cases {n : Nat} (inside : rootWithFile.Inside rootWithFileKids n)
    : n = 1 ∨ n = 2 := by
  rcases inside.last with rfl | ⟨m, -, member⟩
  · exact .inl rfl
  · rw [rootWithFileKids] at member
    split at member
    · exact .inr (List.mem_singleton.mp member)
    · exact absurd member List.not_mem_nil

theorem isTree_rootWithFile
    : IsTree rootWithFile.links rootWithFile.vfsRoot rootWithFileKids where
  rootParent := rfl
  rootNext := rfl
  chain n inside := by
    rcases rootWithFile_cases inside with rfl | rfl
    · exact ⟨rfl, rfl⟩
    · exact rfl
  parent n inside := by
    rcases rootWithFile_cases inside with rfl | rfl <;> decide
  notRoot n inside := by
    rcases rootWithFile_cases inside with rfl | rfl <;> decide
  finite := (Set.finite_le_nat 2).subset (fun n inside => by
    rcases rootWithFile_cases inside with rfl | rfl <;> decide)

/-- Before `mt_init`, with the nodes of `rootWithFile`. -/
def zeroed (vfs : VfsState Nat) : NodeUsers Unit where
  drives := { vfs, mtpts := fun _ _ => none }
  tasks := FileTasks.zeroed
  cwdNode _ := 0
  ofNode _ := false

def perform (s : NodeUsers Unit) (event : Event Unit) : Option (NodeUsers Unit) :=
  if s.tasks.Followed then
    match event with
    | .spawnKtask task ppid kmalloc i c =>
        if task ∉ s.tasks.liveTasks ∧ task ∉ s.tasks.deadTasks ∧ s.tasks.Free c.blocks then
          s.mtSpawnKtask 16 task ppid kmalloc i c
        else
          none
    | .setcwd c => s.sysSetcwd 16 c
    | .openPath c junk b flags => if s.tasks.Free [b] then s.openPath 16 c junk b flags else none
    | .close number => s.close number
    | .spawnUtask .. | .partition _ | .schedule => none
  else
    none

theorem perform_step {disk : Unit → Nat → UInt8} {s s' : NodeUsers Unit} {event : Event Unit}
    (performed : s.perform event = some s')
    : s.Step disk event s' := by
  obtain ⟨followed, performed⟩ := Option.ite_none_right_eq_some.mp performed
  cases event with
  | spawnKtask task ppid kmalloc i c =>
      obtain ⟨⟨notLive, notDead, free⟩, spawned⟩ := Option.ite_none_right_eq_some.mp performed
      rw [← followed.onTasks] at notLive
      rw [← followed.onTerminated] at notDead
      exact ⟨⟨notLive, notDead, followed.unused free⟩, 16, spawned⟩
  | setcwd c => exact ⟨16, performed⟩
  | openPath c junk b flags =>
      obtain ⟨free, opened⟩ := Option.ite_none_right_eq_some.mp performed
      exact ⟨followed.unused free, 16, opened⟩
  | close number => exact performed
  | spawnUtask path task ppid kmalloc i c => cases performed
  | partition event => cases performed
  | schedule => cases performed

/-- `mt_init` and then the given events, latest first. -/
def scene (vfs : VfsState Nat) (events : List (Event Unit))
    : Option (NodeUsers Unit × List (NodeUsers Unit × Event Unit)) := do
  let s ← (zeroed vfs).perform (.spawnKtask 0x1000 0 zeros none (standardAt 0x10000))
  let s ← s.perform (.spawnKtask 0x2000 0 zeros none (standardAt 0x20000))
  let s ← s.perform (.spawnKtask 0x3000 0 zeros none (standardAt 0x30000))
  TransitionSystem.play perform s.enable events

theorem scene_run (disk : Unit → Nat → UInt8) {vfs : VfsState Nat}
    (tree : ∃ kids, IsTree vfs.links vfs.vfsRoot kids)
    (isDir : (vfs.node vfs.vfsRoot).file.type = vfsDir) {events : List (Event Unit)}
    {r : NodeUsers Unit × List (NodeUsers Unit × Event Unit)} (played : scene vfs events = some r)
    : (system disk).Run r.1 r.2 := by
  obtain ⟨s₁, first, played⟩ := Option.bind_eq_some_iff.mp played
  obtain ⟨s₂, second, played⟩ := Option.bind_eq_some_iff.mp played
  obtain ⟨s₃, third, played⟩ := Option.bind_eq_some_iff.mp played
  have boots : (zeroed vfs).Boots :=
    ⟨tree, isDir, fun _ _ => rfl, rfl, rfl, rfl, _, _, rfl⟩
  have start : (system disk).init s₃.enable :=
    ⟨_, s₁, s₂, s₃, 0x1000, 0x2000, 0x3000, _, _, _, _, _, _, _, _, _, boots,
      perform_step first, perform_step second, perform_step third, rfl⟩
  have sound (s : NodeUsers Unit) (event : Event Unit) (s' : NodeUsers Unit) (_ : True)
      (performed : s.perform event = some s')
      : (system disk).step s event s' ∧ True :=
    ⟨perform_step performed, trivial⟩
  exact (TransitionSystem.Run.of_play sound start trivial played).1

/-- The events are opens, and closes of the descriptor with the last entry. -/
def OpensAndCloses (s : NodeUsers Unit) : Event Unit → Prop
  | .openPath .. => True
  | .close number =>
      ∀ t ∈ s.tasks.sched.curTask, number < (s.tasks.fileDescriptors t).used
        ∧ (s.tasks.files.fd ((s.tasks.fileDescriptors t).data number)).gftIndex + 1
          = s.tasks.files.gft.used
  | _ => False

instance (s : NodeUsers Unit) (event : Event Unit) : Decidable (s.OpensAndCloses event) :=
  match event with
  | .openPath .. => isTrue trivial
  | .close number =>
      inferInstanceAs (Decidable (∀ t ∈ s.tasks.sched.curTask,
        number < (s.tasks.fileDescriptors t).used
          ∧ (s.tasks.files.fd ((s.tasks.fileDescriptors t).data number)).gftIndex + 1
            = s.tasks.files.gft.used))
  | .spawnKtask .. | .spawnUtask .. | .setcwd _ | .partition _ | .schedule => isFalse id

/-- These keep nodes in the tree. -/
theorem OpensAndCloses.keeps {s : NodeUsers Unit} {event : Event Unit}
    (h : s.OpensAndCloses event)
    : s.Keeps event := by
  cases event with
  | openPath c junk b flags => trivial
  | close number => exact fun t current => .inr (h t current)
  | _ => exact h.elim

def lookup (path : List UInt8) : PathLookup :=
  ⟨zeros, none, path⟩

/-- A task opens `/y` and closes it. -/
theorem run_nodesInTree_opened
    : ∃ s steps, (system (fun (_ : Unit) _ => 0)).Run s steps ∧ steps.length = 3
        ∧ s.ofNode 0x40010 = true ∧ s.tasks.files.fdToNode 0x40010 = 2 ∧ s.NodesInTree := by
  let events : List (Event Unit) :=
    [.openPath (lookup [slash, 0x79, 0]) (fun _ => 0) ⟨fun _ => 0, 0x40000, 0x40010⟩ Files.oRdwr,
      .close 3,
      .openPath (lookup [slash, 0x79, 0]) (fun _ => 0) ⟨fun _ => 0, 0x50000, 0x50010⟩ Files.oRdwr]
  have returns : (scene rootWithFile events).isSome = true := by
    decide +kernel
  obtain ⟨⟨s, steps⟩, played⟩ := Option.isSome_iff_exists.mp returns
  have facts : ∀ r ∈ scene rootWithFile events, r.2.length = 3 ∧ r.1.ofNode 0x40010 = true
      ∧ r.1.tasks.files.fdToNode 0x40010 = 2
      ∧ ∀ taken ∈ r.2, taken.1.OpensAndCloses taken.2 := by
    decide +kernel
  obtain ⟨length, ofNode, leads, kept⟩ := facts _ played
  have run := scene_run (fun _ _ => 0) ⟨_, isTree_rootWithFile⟩ rfl played
  exact ⟨s, steps, run, length, ofNode, leads,
    run_nodesInTree run (fun taken member => (kept taken member).keeps)⟩

/-- `sys_setcwd` of `/y` makes the file the directory of the task. -/
theorem run_not_nodesInTree
    : ¬ ∀ (disk : Unit → Nat → UInt8) (s : NodeUsers Unit)
        (steps : List (NodeUsers Unit × Event Unit)),
        (system disk).Run s steps → s.NodesInTree := by
  intro sound
  let events : List (Event Unit) := [.setcwd (lookup [slash, 0x79, 0])]
  have returns : (scene rootWithFile events).isSome = true := by
    decide +kernel
  obtain ⟨⟨s, steps⟩, played⟩ := Option.isSome_iff_exists.mp returns
  have facts : ∀ r ∈ scene rootWithFile events,
      Chain r.1.tasks.sched.next r.1.tasks.sched.tasks [0x1000, 0x2000, 0x3000]
        ∧ (r.1.vfs.node (r.1.cwdNode 0x1000)).file.type = vfsFile := by
    decide +kernel
  obtain ⟨chain, isFile⟩ := facts _ played
  have run := scene_run (fun _ _ => 0) ⟨_, isTree_rootWithFile⟩ rfl played
  have dir := ((sound _ s steps run).cwd 0x1000 ⟨_, chain, List.mem_cons_self ..⟩).2
  rw [IsDirectory] at dir
  dsimp only at isFile
  rw [isFile] at dir
  revert dir
  decide

end Examples

end NodeUsers

end Hydrangea
