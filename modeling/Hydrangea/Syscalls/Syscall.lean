import Hydrangea.Lib.Traced
import Hydrangea.Multitasking.TaskPointers
import Hydrangea.Syscalls.NodeUsers

/-! The system calls of `kernel/syscalls/syscall.c`, with the pointers to handlers, nodes,
descriptors and paths that they go through. A node is its address, and 0 is NULL. The memory of
tasks is not part of the state: the strings in it are arguments, and what is stored there is left
out.
-/

namespace Hydrangea

open Vfs VfsState

structure SyscallParams where
  eax : Nat
  ebx : Nat
  ecx : Nat
  edx : Nat
  esi : Nat
  edi : Nat
  ebp : Nat

/-- The functions `read` and `write` of a file, with the offset, the size and the buffer that they
get; a call of one of them may not return.
-/
structure FileCalls where
  read : Option (Nat → Nat → Nat → Option Nat)
  write : Option (Nat → Nat → Nat → Option Nat)

/-- What a system call gets from elsewhere: the string at an address, what the files of nodes do,
the buffers of `kmalloc(256)` for paths and for copies of them with what the static `i` of `strtok`
holds then, and the blocks for a descriptor and for a task; `junk` lies behind the list of the
task.
-/
structure Supplies where
  fuel : Nat
  string : Nat → List UInt8
  file : Nat → FileCalls
  kmalloc : Nat → Buffer256
  copy : Nat → Buffer256
  i : Nat → Option Nat
  junk : Nat → Nat
  fd : FdBlocks
  task : Nat
  standard : Standard

/-- The lookup `k` of a path in a call. -/
def Supplies.lookup (c : Supplies) (k : Nat) (path : List UInt8) : PathLookup :=
  ⟨c.copy k, c.i k, path⟩

/-- A pointer that a call goes through: to a handler or a path, if there is one, or to a node or a
descriptor at an address.
-/
inductive Access where
  | handler (there : Bool)
  | path (there : Bool)
  | node (n : Nat)
  | descriptor (d : Nat)

/-- The pointer is not NULL, nor does it come from behind the table of handlers. -/
def Access.Valid : Access → Prop
  | .handler there => there = true
  | .path there => there = true
  | .node n => n ≠ 0
  | .descriptor d => d ≠ 0

/-- How a handler ends: it returns, it waits for a task to terminate, or it halts for good. -/
inductive Ended where
  | returns (params : SyscallParams)
  | waits (pid : Nat)
  | halts

/-- The nodes, tasks and files, and the tasks that `ktask_create` has made; no step reads the
latter.
-/
structure Kernel (δ : Type) where
  users : NodeUsers δ
  created : List Nat

abbrev KernelM (δ α : Type) :=
  Traced Access (Kernel δ) α

namespace Kernel

variable {δ : Type}

abbrev sched (s : Kernel δ) : Sched :=
  s.users.tasks.sched

/-- The list `file_descriptors` of a task. -/
abbrev fileDescriptors (s : Kernel δ) (t : Nat) : ListT :=
  s.users.tasks.fileDescriptors t

def withSched (s : Kernel δ) (sched : Sched) : Kernel δ :=
  { s with users := { s.users with tasks := { s.users.tasks with sched } } }

def mtSetFgTask (s : Kernel δ) (t : Option Nat) : Kernel δ :=
  s.withSched { s.sched with fgTask := t }

/-- `mt_spawn_ktask`, without the pid it returns. -/
def mtSpawnKtask (fuel : Nat) (s : Kernel δ) (task ppid : Nat) (kmalloc : Buffer256)
    (i : Option Nat) (c : Standard)
    : Option (Kernel δ) := do
  let (t, users) ← s.users.ktaskCreate fuel task ppid kmalloc i c
  let users ← users.mtPushTask fuel t
  return { users, created := s.created ++ t.toList }

/-- `mt_spawn_utask`, with the pid it returns. -/
def mtSpawnUtask (fuel : Nat) (s : Kernel δ) (path : PathLookup) (task ppid : Nat)
    (kmalloc : Buffer256) (i : Option Nat) (c : Standard)
    : Option (Nat × Kernel δ) := do
  let (t, users) ← s.users.utaskCreate fuel path task ppid kmalloc i c
  match t with
  | none => return (0, { s with users })
  | some p =>
      let users ← users.mtPushTask fuel (some p)
      return ((users.tasks.sched.task p).pid, { users, created := s.created ++ [p] })

def mtGetCurrentTask : KernelM δ Nat := do
  let s ← Traced.state
  Traced.ofOption s.sched.curTask

/-- The pointers that `vfs_node_from_path` goes through first: to the path, and to the node where it
begins.
-/
def followPath (root : Nat) (path : Option (List UInt8)) : KernelM δ (List UInt8) := do
  Traced.emit (.path path.isSome)
  let path ← Traced.ofOption path
  let s ← Traced.state
  Traced.emit (.node (s.users.vfs.startOf root path))
  return path

/-- The nodes that the loop of `vfs_abs_path_to` goes through. -/
def followParents : (fuel node : Nat) → KernelM δ Unit
  | 0, _ => Traced.stop
  | fuel + 1, node => do
      Traced.emit (.node node)
      let s ← Traced.state
      match (s.users.vfs.node node).parent with
      | none => followParents fuel 0
      | some parent => if parent ≠ node then followParents fuel parent else return ()

def vfsAbsPathTo (c : Supplies) (node : Nat) : KernelM δ (Option (List UInt8)) := do
  if node = 0 then
    return none
  else
    followParents c.fuel node
    let s ← Traced.state
    Traced.ofOption (Vfs.vfsAbsPathTo s.users.vfs.mem c.kmalloc c.fuel (some node))

/-- `vfs_read` and `vfs_write`, with the function of the file. -/
def vfsCall (function : Option (Nat → Nat → Nat → Option Nat)) (offset size buffer : Nat)
    : Option Nat :=
  match function with
  | none => some 0
  | some f => f offset size buffer

/-- `read` and `write`: whether the descriptor is open for this, and the function of the file. -/
def transfer (c : Supplies) (allowed : FileDescriptor → Bool)
    (function : FileCalls → Option (Nat → Nat → Nat → Option Nat)) (number buffer size : Nat)
    : KernelM δ Nat := do
  let task ← mtGetCurrentTask
  let s ← Traced.state
  let d := (s.fileDescriptors task).listGet number
  if d = 0 then
    return 0
  else
    Traced.emit (.descriptor d)
    let fd := s.users.tasks.files.fd d
    if allowed fd = false then
      return 0
    else
      let node := s.users.tasks.files.fdToNode d
      Traced.emit (.node node)
      Traced.ofOption (vfsCall (function (c.file node)) fd.offset size buffer)

def sysHello (params : SyscallParams) : KernelM δ Ended :=
  return .returns params

def sysExit (c : Supplies) (_ : SyscallParams) : KernelM δ Ended := do
  let t ← mtGetCurrentTask
  let s ← Traced.state
  let sched ← Traced.ofOption (s.sched.mtTaskTerminate c.fuel t)
  let (_, sched) ← Traced.ofOption (sched.mtSchedule c.fuel)
  Traced.enter (s.withSched sched)
  return .halts

def sysRead (c : Supplies) (params : SyscallParams) : KernelM δ Ended := do
  let r ← transfer c FileDescriptor.read FileCalls.read params.ebx params.ecx params.edx
  return .returns { params with eax := r }

def sysWrite (c : Supplies) (params : SyscallParams) : KernelM δ Ended := do
  let _ ← transfer c FileDescriptor.write FileCalls.write params.ebx params.ecx params.edx
  return .returns params

/-- `sys_open`, and `open`. -/
def sysOpen (c : Supplies) (params : SyscallParams) : KernelM δ Ended := do
  let s ← Traced.state
  let path ← followPath s.users.vfs.vfsRoot (some (c.string params.ebx))
  let users ← Traced.ofOption (s.users.openPath c.fuel (c.lookup 0 path) c.junk c.fd params.ecx)
  let task ← mtGetCurrentTask
  Traced.enter { s with users }
  return .returns { params with eax := ((s.fileDescriptors task).listPush c.junk c.fd.fd).1 }

/-- `sys_close`, and `close`. -/
def sysClose (params : SyscallParams) : KernelM δ Ended := do
  let task ← mtGetCurrentTask
  let s ← Traced.state
  let d := (s.fileDescriptors task).listGet params.ebx
  if d = 0 then
    return .returns { params with eax := 2 ^ 32 - 1 }
  else
    Traced.emit (.descriptor d)
    let users ← Traced.ofOption (s.users.close params.ebx)
    Traced.enter { s with users }
    return .returns { params with eax := 0 }

def sysGetpid (params : SyscallParams) : KernelM δ Ended := do
  let t ← mtGetCurrentTask
  let s ← Traced.state
  return .returns { params with eax := (s.sched.task t).pid }

def sysGetppid (params : SyscallParams) : KernelM δ Ended := do
  let t ← mtGetCurrentTask
  let s ← Traced.state
  return .returns { params with eax := (s.sched.task t).ppid }

def sysRun (c : Supplies) (params : SyscallParams) : KernelM δ Ended := do
  let t ← mtGetCurrentTask
  let s ← Traced.state
  let path ← followPath (s.users.cwdNode t) (some (c.string params.ebx))
  let node ← Traced.ofOption
    (s.users.nodeFromPath c.fuel (s.users.cwdNode t) (c.lookup 0 path))
  let ppid := (s.sched.task t).pid
  let path ← vfsAbsPathTo c (node.getD 0)
  let path ← followPath s.users.vfs.vfsRoot path
  let (pid, s) ← Traced.ofOption
    (s.mtSpawnUtask c.fuel (c.lookup 1 path) c.task ppid (c.copy 2) (c.i 2) c.standard)
  Traced.enter s
  return .returns { params with eax := pid }

/-- `sys_wait` up to its loop, and behind it if no task has the pid. -/
def sysWait (c : Supplies) (params : SyscallParams) : KernelM δ Ended := do
  let s ← Traced.state
  let t ← Traced.ofOption (s.sched.mtGetTaskByPid c.fuel params.ebx)
  match t with
  | some t =>
      Traced.enter (s.mtSetFgTask (some t))
      return .waits params.ebx
  | none =>
      Traced.enter (s.mtSetFgTask s.sched.curTask)
      return .returns { params with eax := 0 }

def sysGetcwd (c : Supplies) (params : SyscallParams) : KernelM δ Ended := do
  let t ← mtGetCurrentTask
  let s ← Traced.state
  let cwd ← vfsAbsPathTo c (s.users.cwdNode t)
  Traced.emit (.path cwd.isSome)
  let cwd ← Traced.ofOption cwd
  let _ ← Traced.ofOption (strlen cwd)
  return .returns params

def sysSetcwd (c : Supplies) (params : SyscallParams) : KernelM δ Ended := do
  let t ← mtGetCurrentTask
  let s ← Traced.state
  let path ← followPath (s.users.cwdNode t) (some (c.string params.ebx))
  let users ← Traced.ofOption (s.users.sysSetcwd c.fuel (c.lookup 0 path))
  Traced.enter { s with users }
  return .returns params

def sysGetfb (params : SyscallParams) : KernelM δ Ended :=
  return .returns params

def syscallList (c : Supplies) : List (Option (SyscallParams → KernelM δ Ended)) :=
  [some sysHello, some (sysExit c), none, some (sysRead c), some (sysWrite c),
    some (sysOpen c), some sysClose, some sysGetpid, some sysGetppid, some (sysRun c),
    some (sysWait c), none, some (sysGetcwd c), some (sysSetcwd c), some sysGetfb]

def syscallHandler (c : Supplies) (r : SyscallParams) : KernelM δ Ended := do
  let handler := (syscallList c)[r.eax]?.join
  Traced.emit (.handler handler.isSome)
  let handler ← Traced.ofOption handler
  handler r

end Kernel

end Hydrangea
