import Hydrangea.Fs.FileLocks
import Hydrangea.Fs.FileOps
import Hydrangea.Multitasking.Schedlock

/-! The interrupt-enable flag in `kernel/fs/file_ops.c`, `kernel/fs/file_descriptor.c` and
`rb_open` of `kernel/fs/pipe.c`: each function as it saves and restores the flags. Blocks that
`kmalloc` returns and the node that a path leads to are arguments.
-/

namespace Hydrangea

open Flagged X86

/-- What the functions on files work on: the files, the descriptors and the pid of the current
task, and the rest of the kernel.
-/
structure FileKernel (World : Type) where
  files : Files
  fileDescriptors : ListT
  pid : Nat
  world : World

/-- A function on files, as part of the kernel. It may wait for ever. -/
abbrev FileM (World : Type) := StateT (Flagged (FileKernel World)) Option

/-- The pointers `read` and `write` in a `vfs_file_t`. None of the functions that `read` points to
changes the flags; `console_write` masks interrupts.
-/
structure FileFunctions (World : Type) where
  read : Option ((offset size buffer : Nat) → StateT (FileKernel World) Option Nat)
  write : Option ((offset size buffer : Nat) → FileM World Nat)

namespace FileKernel

variable {World : Type}

def changeFiles (f : Files → Files) : FileM World Unit :=
  unflagged (StateT.modifyGet (fun s => ((), { s with files := f s.files })))

def ask {α : Type} (f : FileKernel World → α) : FileM World α :=
  unflagged (StateT.modifyGet (fun s => (f s, s)))

def gftEntryExists (node : Nat) : FileM World Nat :=
  ask (fun s => s.files.gftEntryExists node)

/-- `list_push(gft, e)` with the new entry in its block. -/
def pushEntry (junk : Nat → Nat) (e node : Nat) : FileM World Nat :=
  unflagged (StateT.modifyGet (fun s =>
    let (i, gft) := s.files.gft.listPush junk e
    let entry := Function.update s.files.entry e { node, lockedBy := 0, refCount := 1 }
    (i, { s with files := { s.files with gft, entry } })))

/-- `list_push(mt_get_current_task()->file_descriptors, fd)`. -/
def pushDescriptor (junk : Nat → Nat) (fd : Nat) : FileM World Nat :=
  unflagged (StateT.modifyGet (fun s =>
    let (i, fileDescriptors) := s.fileDescriptors.listPush junk fd
    (i, { s with fileDescriptors })))

/-- `list_delete(file_descriptors, fd)`. -/
def deleteDescriptor (number : Nat) : FileM World Unit :=
  unflagged (StateT.modifyGet (fun s =>
    ((), { s with fileDescriptors := (s.fileDescriptors.listDelete number).2 })))

def setDescriptor (fd : Nat) (f : FileDescriptor → FileDescriptor) : FileM World Unit :=
  changeFiles (fun s => { s with fd := Function.update s.fd fd (f (s.fd fd)) })

/-- `gft_add`; `e` is the block for a new entry. -/
def gftAdd (junk : Nat → Nat) (e node : Nat) : FileM World Nat := do
  let ef ← getEflagsAndCli
  let i ← gftEntryExists node
  if i ≠ 0 then
    -- returns without `set_eflags`
    changeFiles (·.gftIncRefCount i)
    return i
  else
    let i ← pushEntry junk e node
    setEflags ef
    return i

def gftDelete (index : Nat) : FileM World Nat := do
  let ef ← getEflagsAndCli
  changeFiles (·.gftDelete index)
  setEflags ef
  return 0

def gftLock (index : Nat) : FileM World Nat := do
  let ef ← getEflagsAndCli
  let e ← ask (·.files.gft.listGet index)
  let pid ← ask (·.pid)
  changeFiles (·.setLockedBy e pid)
  setEflags ef
  return 0

def gftUnlock (index : Nat) : FileM World Nat := do
  let ef ← getEflagsAndCli
  let e ← ask (·.files.gft.listGet index)
  let lockedBy ← ask (fun s => (s.files.entry e).lockedBy)
  let pid ← ask (·.pid)
  if lockedBy ≠ pid then
    setEflags ef
    return 1
  else
    changeFiles (·.setLockedBy e 0)
    setEflags ef
    return 0

/-- `fd_open`; `e` and `fd` are the blocks for a new entry and the descriptor. -/
def fdOpen (junk : Nat → Nat) (e fd node flags : Nat) : FileM World Nat := do
  let ef ← getEflagsAndCli
  let read := flags &&& Files.oRdwr ≠ 0 ∨ flags &&& Files.oRdonly ≠ 0
  let write := flags &&& Files.oRdwr ≠ 0 ∨ flags &&& Files.oWronly ≠ 0
  let index ← gftAdd junk e node
  setDescriptor fd (fun _ => { gftIndex := index, offset := 0, read, write })
  setEflags ef
  return fd

def fdClose (fd : Nat) : FileM World Nat := do
  let ef ← getEflagsAndCli
  let index ← ask (fun s => (s.files.fd fd).gftIndex)
  changeFiles (·.gftDecRefCount index)
  let refCount ← ask (·.files.gftGetRefCount index)
  if refCount = 0 then
    let _ ← gftDelete index
  setEflags ef
  return 0

def fdSeek (fd offset : Nat) : FileM World Nat := do
  let ef ← getEflagsAndCli
  setDescriptor fd (fun d => { d with offset })
  setEflags ef
  return 0

def fdLock (fd : Nat) : FileM World Nat := do
  let ef ← getEflagsAndCli
  let index ← ask (fun s => (s.files.fd fd).gftIndex)
  let _ ← gftLock index
  setEflags ef
  return 0

def fdUnlock (fd : Nat) : FileM World Nat := do
  let ef ← getEflagsAndCli
  let index ← ask (fun s => (s.files.fd fd).gftIndex)
  let _ ← gftUnlock index
  setEflags ef
  return 0

def fdLockedBy (fd : Nat) : FileM World Nat := do
  let ef ← getEflagsAndCli
  let e ← ask (fun s => s.files.gft.listGet (s.files.fd fd).gftIndex)
  setEflags ef
  ask (fun s => (s.files.entry e).lockedBy)

/-- `open` of the node that the path leads to; `junk'` lies behind the list of the task. -/
def openNode (junk junk' : Nat → Nat) (e fd node flags : Nat) : FileM World Int := do
  let ef ← getEflagsAndCli
  let fd ← fdOpen junk e fd node flags
  let i ← pushDescriptor junk' fd
  setEflags ef
  return i

/-- `rb_open`; `node` is the new node of the ring buffer. -/
def rbOpen (junk junk' : Nat → Nat) (e fd node flags : Nat) : FileM World Int :=
  openNode junk junk' e fd node flags

def close (number : Nat) : FileM World Int := do
  let ef ← getEflagsAndCli
  let d ← ask (·.fileDescriptors.listGet number)
  if d = 0 then
    -- returns without `set_eflags`
    return -1
  else
    let _ ← fdClose d
    deleteDescriptor number
    setEflags ef
    return 0

def vfsRead (f : FileFunctions World) (offset size buffer : Nat) : FileM World Nat :=
  match f.read with
  | some read => unflagged (read offset size buffer)
  | none => return 0

def vfsWrite (f : FileFunctions World) (offset size buffer : Nat) : FileM World Nat :=
  match f.write with
  | some write => write offset size buffer
  | none => return 0

variable (functions : World → (node : Nat) → FileFunctions World)

/-- `read` up to the label `fail`. -/
def readDescriptor (number buffer size : Nat) : FileM World Nat := do
  let d ← ask (·.fileDescriptors.listGet number)
  if d = 0 then
    return 0
  else
    let fd ← ask (·.files.fd d)
    if fd.read = false then
      return 0
    else
      let node ← ask (·.files.fdToNode d)
      let f ← ask (fun s => functions s.world node)
      vfsRead f fd.offset size buffer

/-- `read`, which masks interrupts unless the number is 0; `ef` is not set then. -/
def read (number buffer size : Nat) : FileM World Int :=
  if number ≠ 0 then do
    let ef ← getEflagsAndCli
    let r ← readDescriptor functions number buffer size
    setEflags ef
    return r
  else do
    let r ← readDescriptor functions number buffer size
    return r

/-- `write` up to the label `fail`. -/
def writeDescriptor (number buffer size : Nat) : FileM World Nat := do
  let d ← ask (·.fileDescriptors.listGet number)
  if d = 0 then
    return 0
  else
    let fd ← ask (·.files.fd d)
    if fd.write = false then
      return 0
    else
      let node ← ask (·.files.fdToNode d)
      let f ← ask (fun s => functions s.world node)
      vfsWrite f fd.offset size buffer

def write (number buffer size : Nat) : FileM World Int := do
  let ef ← getEflagsAndCli
  let w ← writeDescriptor functions number buffer size
  setEflags ef
  return w

inductive Call where
  | openNode (junk junk' : Nat → Nat) (e fd node flags : Nat)
  | close (number : Nat)
  | read (number buffer size : Nat)
  | write (number buffer size : Nat)
  | rbOpen (junk junk' : Nat → Nat) (e fd node flags : Nat)
  | gftAdd (junk : Nat → Nat) (e node : Nat)
  | gftDelete (index : Nat)
  | gftLock (index : Nat)
  | gftUnlock (index : Nat)
  | fdOpen (junk : Nat → Nat) (e fd node flags : Nat)
  | fdClose (fd : Nat)
  | fdSeek (fd offset : Nat)
  | fdLock (fd : Nat)
  | fdUnlock (fd : Nat)
  | fdLockedBy (fd : Nat)

/-- Make a call, whatever it returns. -/
def run : Call → FileM World Unit
  | .openNode junk junk' e fd node flags => do let _ ← openNode junk junk' e fd node flags
  | .close number => do let _ ← close number
  | .read number buffer size => do let _ ← read functions number buffer size
  | .write number buffer size => do let _ ← write functions number buffer size
  | .rbOpen junk junk' e fd node flags => do let _ ← rbOpen junk junk' e fd node flags
  | .gftAdd junk e node => do let _ ← gftAdd junk e node
  | .gftDelete index => do let _ ← gftDelete index
  | .gftLock index => do let _ ← gftLock index
  | .gftUnlock index => do let _ ← gftUnlock index
  | .fdOpen junk e fd node flags => do let _ ← fdOpen junk e fd node flags
  | .fdClose fd => do let _ ← fdClose fd
  | .fdSeek fd offset => do let _ ← fdSeek fd offset
  | .fdLock fd => do let _ ← fdLock fd
  | .fdUnlock fd => do let _ ← fdUnlock fd
  | .fdLockedBy fd => do let _ ← fdLockedBy fd

-----------------------------------------------------------------------------------------
-- The flag
-----------------------------------------------------------------------------------------

theorem ask_restores {α : Type} (f : FileKernel World → α) : Restores interrupts (ask f) :=
  restores_unflagged _

theorem gftEntryExists_eq (node : Nat) : (gftEntryExists node : FileM World Nat) = pure 0 :=
  rfl

theorem gftAdd_restores (junk : Nat → Nat) (e node : Nat)
    : Restores interrupts (gftAdd junk e node : FileM World Nat) := by
  refine Restores.masked (fun ef => ?_)
  -- the early return is not taken
  simp only [gftEntryExists_eq, pure_bind]
  exact Leaves.after (fun i => Leaves.restored ef i)

theorem gftDelete_restores (index : Nat)
    : Restores interrupts (gftDelete index : FileM World Nat) :=
  Restores.masked (fun ef => Leaves.after (fun _ => Leaves.restored ef 0))

theorem gftLock_restores (index : Nat)
    : Restores interrupts (gftLock index : FileM World Nat) :=
  Restores.masked (fun ef =>
    Leaves.after (fun _ => Leaves.after (fun _ => Leaves.after (fun _ => Leaves.restored ef 0))))

theorem gftUnlock_restores (index : Nat)
    : Restores interrupts (gftUnlock index : FileM World Nat) := by
  refine Restores.masked (fun ef => ?_)
  refine Leaves.after (fun e => Leaves.after (fun lockedBy => Leaves.after (fun pid => ?_)))
  exact Leaves.ite (fun _ => Leaves.restored ef 1)
    (fun _ => Leaves.after (fun _ => Leaves.restored ef 0))

theorem fdOpen_restores (junk : Nat → Nat) (e fd node flags : Nat)
    : Restores interrupts (fdOpen junk e fd node flags : FileM World Nat) :=
  Restores.masked (fun ef =>
    Leaves.after (fun _ => Leaves.after (fun _ => Leaves.restored ef fd)))

theorem fdClose_restores (fd : Nat)
    : Restores interrupts (fdClose fd : FileM World Nat) := by
  refine Restores.masked (fun ef => ?_)
  refine Leaves.after (fun index => Leaves.after (fun _ => Leaves.after (fun refCount => ?_)))
  exact Leaves.ite
    (fun _ => Leaves.after (fun _ => Leaves.restored ef 0))
    (fun _ => Leaves.restored ef 0)

theorem fdSeek_restores (fd offset : Nat)
    : Restores interrupts (fdSeek fd offset : FileM World Nat) :=
  Restores.masked (fun ef => Leaves.after (fun _ => Leaves.restored ef 0))

theorem fdLock_restores (fd : Nat)
    : Restores interrupts (fdLock fd : FileM World Nat) :=
  Restores.masked (fun ef =>
    Leaves.after (fun _ => Leaves.after (fun _ => Leaves.restored ef 0)))

theorem fdUnlock_restores (fd : Nat)
    : Restores interrupts (fdUnlock fd : FileM World Nat) :=
  Restores.masked (fun ef =>
    Leaves.after (fun _ => Leaves.after (fun _ => Leaves.restored ef 0)))

theorem fdLockedBy_restores (fd : Nat)
    : Restores interrupts (fdLockedBy fd : FileM World Nat) :=
  Restores.masked (fun ef =>
    Leaves.after (fun _ => (leaves_setEflags ef).bind (fun _ => ask_restores _)))

theorem openNode_restores (junk junk' : Nat → Nat) (e fd node flags : Nat)
    : Restores interrupts (openNode junk junk' e fd node flags : FileM World Int) :=
  Restores.masked (fun ef =>
    Leaves.after (fun _ => Leaves.after (fun i => Leaves.restored ef (i : Int))))

theorem vfsRead_restores (f : FileFunctions World) (offset size buffer : Nat)
    : Restores interrupts (vfsRead f offset size buffer) := by
  rw [vfsRead]
  split
  · exact restores_unflagged _
  · exact Restores.pure 0

theorem readDescriptor_restores (number buffer size : Nat)
    : Restores interrupts (readDescriptor functions number buffer size) := by
  refine (ask_restores _).bind (fun d => ?_)
  refine Restores.ite (fun _ => Restores.pure 0) (fun _ => ?_)
  refine (ask_restores _).bind (fun fd => ?_)
  refine Restores.ite (fun _ => Restores.pure 0) (fun _ => ?_)
  refine (ask_restores _).bind (fun node => (ask_restores _).bind (fun f => ?_))
  exact vfsRead_restores f fd.offset size buffer

theorem read_restores (number buffer size : Nat)
    : Restores interrupts (read functions number buffer size) := by
  refine Restores.ite (fun _ => ?masked) (fun _ => ?unmasked)
  case masked =>
    exact Restores.masked (fun ef => Leaves.after (fun r => Leaves.restored ef (r : Int)))
  case unmasked =>
    exact (readDescriptor_restores functions number buffer size).bind
      (fun r => Restores.pure (r : Int))

theorem write_restores (number buffer size : Nat)
    : Restores interrupts (write functions number buffer size) :=
  Restores.masked (fun ef => Leaves.after (fun w => Leaves.restored ef (w : Int)))

variable {s : Flagged (FileKernel World)}

theorem close_apply (number : Nat) (s : Flagged (FileKernel World))
    : close number s
      = (if s.state.fileDescriptors.listGet number = 0 then
          pure (-1)
        else do
          let _ ← fdClose (s.state.fileDescriptors.listGet number)
          deleteDescriptor number
          setEflags s.eflags.val
          return 0 : FileM World Int) { s with eflags := cli s.eflags } :=
  rfl

/-- `close` of a number without a descriptor leaves interrupts masked. -/
theorem close_null {number : Nat} (null : s.state.fileDescriptors.listGet number = 0)
    : close number s = some (-1, { s with eflags := cli s.eflags }) := by
  rw [close_apply, if_pos null]
  rfl

/-- `close` of a number with a descriptor restores the flag. -/
theorem close_restores {number : Nat} (there : s.state.fileDescriptors.listGet number ≠ 0)
    {r : Int} {s' : Flagged (FileKernel World)} (returns : close number s = some (r, s'))
    : s'.interrupts = s.interrupts := by
  rw [close_apply, if_neg there] at returns
  have left : Leaves interrupts (savedInterrupts s.eflags.val)
      (do
        let _ ← fdClose (s.state.fileDescriptors.listGet number)
        deleteDescriptor number
        setEflags s.eflags.val
        return 0 : FileM World Int) :=
    Leaves.after (fun _ => Leaves.after (fun _ => Leaves.restored _ 0))
  rw [left _ _ _ returns]
  exact getEflagsAndCli_saves s _ _ rfl

def LeavesMasked (s : Flagged (FileKernel World)) : Call → Prop
  | .close number => s.interrupts = true ∧ s.state.fileDescriptors.listGet number = 0
  | _ => False

/-- A call whose result is dropped restores what it restores. -/
theorem restores_dropped {α : Type} {x : FileM World α} (restores : Restores interrupts x)
    : Restores interrupts (do let _ ← x) :=
  restores.bind (fun _ => Restores.pure ())

/-- Every call but `close` restores the flag. -/
theorem run_restores {call : Call} (other : ∀ number, call ≠ .close number)
    : Restores interrupts (run functions call) := by
  cases call with
  | close number => exact absurd rfl (other number)
  | openNode junk junk' e fd node flags =>
      exact restores_dropped (openNode_restores junk junk' e fd node flags)
  | read number buffer size =>
      exact restores_dropped (read_restores functions number buffer size)
  | write number buffer size =>
      exact restores_dropped (write_restores functions number buffer size)
  | rbOpen junk junk' e fd node flags =>
      exact restores_dropped (openNode_restores junk junk' e fd node flags)
  | gftAdd junk e node => exact restores_dropped (gftAdd_restores junk e node)
  | gftDelete index => exact restores_dropped (gftDelete_restores index)
  | gftLock index => exact restores_dropped (gftLock_restores index)
  | gftUnlock index => exact restores_dropped (gftUnlock_restores index)
  | fdOpen junk e fd node flags => exact restores_dropped (fdOpen_restores junk e fd node flags)
  | fdClose fd => exact restores_dropped (fdClose_restores fd)
  | fdSeek fd offset => exact restores_dropped (fdSeek_restores fd offset)
  | fdLock fd => exact restores_dropped (fdLock_restores fd)
  | fdUnlock fd => exact restores_dropped (fdUnlock_restores fd)
  | fdLockedBy fd => exact restores_dropped (fdLockedBy_restores fd)

/-- `close` returns with interrupts masked if there is no descriptor. -/
theorem run_close_null {number : Nat} (null : s.state.fileDescriptors.listGet number = 0)
    : run functions (.close number) s = some ((), { s with eflags := cli s.eflags }) := by
  have dropped : run functions (.close number) s
      = (close number s).bind (fun r => some ((), r.2)) :=
    rfl
  rw [dropped, close_null null]
  rfl

/-- Every call restores the interrupt-enable flag, except for a `close` of a number without a
descriptor with interrupts enabled. A call ends in `set_eflags` with the flags saved at its start
on all paths but one: `close` returns early when `list_get` has given NULL.
-/
theorem run_restores_iff (call : Call) (s : Flagged (FileKernel World))
    : (∀ s', run functions call s = some ((), s') → s'.interrupts = s.interrupts)
      ↔ ¬ LeavesMasked s call := by
  by_cases isClose : ∃ number, call = .close number
  · obtain ⟨number, rfl⟩ := isClose
    by_cases null : s.state.fileDescriptors.listGet number = 0
    · constructor
      · rintro restored ⟨enabled, -⟩
        have masked := restored _ (run_close_null functions null)
        rw [enabled] at masked
        exact absurd masked (by simp [interrupts])
      · intro not s' returns
        rw [run_close_null functions null] at returns
        obtain ⟨-, rfl⟩ := Prod.mk.inj (Option.some.inj returns)
        have disabled : s.interrupts = false := by
          by_contra enabled
          exact not ⟨by simpa using enabled, null⟩
        rw [disabled]
        exact interrupts_cli s.eflags
    · refine iff_of_true (fun s' returns => ?_) (fun masked => null masked.2)
      obtain ⟨r, t, closed, last⟩ := StateT.bind_eq_some returns
      obtain ⟨-, rfl⟩ := Prod.mk.inj (Option.some.inj last)
      exact close_restores null closed
  · have other : ∀ number, call ≠ .close number := fun number same => isClose ⟨number, same⟩
    refine iff_of_true (fun s' returns => run_restores functions other s () s' returns) ?_
    cases call with
    | close number => exact absurd rfl (other number)
    | _ => exact not_false

def enabledFlags : Eflags :=
  Eflags.ofWord 0x200

def noDescriptors : Flagged (FileKernel Unit) where
  eflags := enabledFlags
  state :=
    { files :=
        { gft := ⟨fun _ => 0, 1, 1024⟩
          entry := fun _ => ⟨0, 0, 0⟩
          fd := fun _ => ⟨0, 0, false, false⟩ }
      fileDescriptors := ⟨fun _ => 0, 0, 8⟩
      pid := 1
      world := () }

/-- There, `close(5)` returns -1 with interrupts masked. -/
theorem not_restores_close
    : ¬ ∀ s', run (fun _ _ => ⟨none, none⟩) (.close 5) noDescriptors = some ((), s')
        → s'.interrupts = noDescriptors.interrupts := by
  intro restored
  have masked := restored _ (run_close_null _ rfl)
  revert masked
  decide

-----------------------------------------------------------------------------------------
-- What the calls do to the files
-----------------------------------------------------------------------------------------

def withFiles (s : Flagged (FileKernel World)) (files : Files) : Flagged (FileKernel World) :=
  { s with state := { s.state with files } }

/-- Masking and restoring leaves the flags as they were. -/
theorem restored_eq {t : FileKernel World}
    : ({ eflags := Eflags.ofWord s.eflags.val, state := t } : Flagged (FileKernel World))
      = { s with state := t } := by
  rw [Eflags.ofWord_val]

theorem gftLock_eq (index : Nat)
    : gftLock index s
      = some
          ((s.state.files.gftLock s.state.pid index).1,
            withFiles s (s.state.files.gftLock s.state.pid index).2) := by
  rw [withFiles, ← restored_eq]
  rfl

theorem gftUnlock_eq (index : Nat)
    : gftUnlock index s
      = some
          ((s.state.files.gftUnlock s.state.pid index).1,
            withFiles s (s.state.files.gftUnlock s.state.pid index).2) := by
  have asked : gftUnlock index s
      = (if (s.state.files.entryAt index).lockedBy ≠ s.state.pid then do
          setEflags s.eflags.val
          return 1
        else do
          changeFiles (·.setLockedBy (s.state.files.gft.listGet index) 0)
          setEflags s.eflags.val
          return 0 : FileM World Nat) { s with eflags := cli s.eflags } :=
    rfl
  rw [asked, Files.gftUnlock, withFiles, ← restored_eq]
  split <;> rfl

theorem gftDelete_eq (index : Nat)
    : gftDelete index s = some (0, withFiles s (s.state.files.gftDelete index)) := by
  rw [withFiles, ← restored_eq]
  rfl

theorem gftAdd_eq (junk : Nat → Nat) (e node : Nat)
    : gftAdd junk e node s
      = some
          ((s.state.files.gftAdd junk e node).1,
            withFiles s (s.state.files.gftAdd junk e node).2) := by
  rw [withFiles, ← restored_eq]
  rfl

theorem fdOpen_eq (junk : Nat → Nat) (e fd node flags : Nat)
    : fdOpen junk e fd node flags s
      = some (fd, withFiles s (s.state.files.fdOpen junk e fd node flags)) := by
  rw [withFiles, ← restored_eq]
  rfl

theorem fdClose_eq (fd : Nat)
    : fdClose fd s = some (0, withFiles s (s.state.files.fdClose fd)) := by
  let index := (s.state.files.fd fd).gftIndex
  let files := s.state.files.gftDecRefCount index
  have asked : fdClose fd s
      = (if files.gftGetRefCount index = 0 then do
          let _ ← gftDelete index
          setEflags s.eflags.val
          return 0
        else do
          setEflags s.eflags.val
          return 0 : FileM World Nat)
          { eflags := cli s.eflags, state := { s.state with files } } :=
    rfl
  have closed : s.state.files.fdClose fd
      = if files.gftGetRefCount index = 0 then files.gftDelete index else files :=
    rfl
  rw [asked, closed, withFiles, ← restored_eq]
  split <;> rfl

def withTaskFiles (s : Flagged (FileKernel World)) (t : TaskFiles) : Flagged (FileKernel World) :=
  { s with state := { s.state with files := t.files, fileDescriptors := t.fileDescriptors } }

/-- The files and descriptors of the task, with the numbers given out. -/
def taskFiles (s : Flagged (FileKernel World)) (opened : List Numbered) : TaskFiles :=
  { files := s.state.files, fileDescriptors := s.state.fileDescriptors, opened }

theorem openNode_eq (junk : Nat → Nat) (e fd node flags : Nat) (opened : List Numbered)
    : openNode junk junk e fd node flags s
      = some
          ((((taskFiles s opened).openNode junk e fd node flags).1 : Int),
            withTaskFiles s ((taskFiles s opened).openNode junk e fd node flags).2) := by
  rw [withTaskFiles, ← restored_eq]
  rfl

/-- `close` is the one without flags, but for the flags where there is no descriptor. -/
theorem close_eq (number : Nat) (opened : List Numbered)
    : close number s
      = some
          (((taskFiles s opened).close number).1,
            { withTaskFiles s ((taskFiles s opened).close number).2 with
              eflags :=
                if s.state.fileDescriptors.listGet number = 0 then cli s.eflags else s.eflags }) := by
  by_cases null : s.state.fileDescriptors.listGet number = 0
  · have same : (taskFiles s opened).close number = (-1, taskFiles s opened) := if_pos null
    rw [close_null null, same, if_pos null]
    rfl
  · have closed : (taskFiles s opened).close number
        = (0,
            { files := s.state.files.fdClose (s.state.fileDescriptors.listGet number)
              fileDescriptors := (s.state.fileDescriptors.listDelete number).2
              opened := opened.filter (fun d => d.number ≠ number) }) :=
      if_neg null
    rw [close_apply, if_neg null, closed, if_neg null]
    have run : (do
          let _ ← fdClose (s.state.fileDescriptors.listGet number)
          deleteDescriptor number
          setEflags s.eflags.val
          return 0 : FileM World Int) { s with eflags := cli s.eflags }
        = (fdClose (s.state.fileDescriptors.listGet number)
            { s with eflags := cli s.eflags }).bind (fun r =>
              some
                (0,
                  { eflags := Eflags.ofWord s.eflags.val
                    state :=
                      { r.2.state with
                        fileDescriptors :=
                          (r.2.state.fileDescriptors.listDelete number).2 } })) :=
      rfl
    rw [run, fdClose_eq, Option.bind_some, Eflags.ofWord_val]
    rfl

end FileKernel

end Hydrangea
