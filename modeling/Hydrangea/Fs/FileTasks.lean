import Hydrangea.Fs.FileDescriptor
import Hydrangea.Multitasking.Scheduling

/-! The references of the global file table when tasks come and go: `ktask_create` opens three
descriptors, `open` and `rb_open` of `kernel/fs` open more, `close` closes them, and `task_destroy`
closes none.
-/

namespace Hydrangea

def ListT.elements (list : ListT) : List Nat :=
  (List.range list.used).map list.data

/-- The blocks of `kmalloc` for a call of `fd_open`: for an entry and a descriptor, with what lies
behind the table when that moves.
-/
structure FdBlocks where
  junk : Nat → Nat
  e : Nat
  fd : Nat

structure FdOpen extends FdBlocks where
  node : Nat
  flags : Nat

/-- What `ktask_create` gets for the descriptors of a task: the blocks, what the array of
`make_list` holds, the node of a new ring buffer and the node of `/dev/con`.
-/
structure Standard where
  junk : Nat → Nat
  stdin : FdBlocks
  stdout : FdBlocks
  stderr : FdBlocks
  input : Nat
  output : Nat

/-- The calls of `fd_open` in `ktask_create`. -/
def Standard.opens (c : Standard) : List FdOpen :=
  [⟨c.stdin, c.input, Files.oRdwr⟩, ⟨c.stdout, c.output, Files.oWronly⟩,
    ⟨c.stderr, c.output, Files.oWronly⟩]

def Standard.blocks (c : Standard) : List FdBlocks :=
  [c.stdin, c.stdout, c.stderr]

/-- Blocks from an address on, in memory filled with zeros. -/
def standardAt (n : Nat) : Standard where
  junk _ := 0
  stdin := ⟨fun _ => 0, n, n + 0x10⟩
  stdout := ⟨fun _ => 0, n + 0x20, n + 0x30⟩
  stderr := ⟨fun _ => 0, n + 0x40, n + 0x50⟩
  input := n + 0x60
  output := 0xA0

/-- The scheduler, the files, and the list `file_descriptors` of the task at each address. -/
structure FileTasks where
  sched : Sched
  files : Files
  fileDescriptors : Nat → ListT

namespace FileTasks

def fdOpen (files : Files) (o : FdOpen) : Files :=
  files.fdOpen o.junk o.e o.fd o.node o.flags

/-- `list_push(task->file_descriptors, fd)`. -/
def pushFd (s : FileTasks) (task : Nat) (junk : Nat → Nat) (fd : Nat) : FileTasks :=
  let list := ((s.fileDescriptors task).listPush junk fd).2
  { s with fileDescriptors := Function.update s.fileDescriptors task list }

def openStandard (s : FileTasks) (task : Nat) (c : Standard) : FileTasks :=
  let list := ListT.makeList c.junk 8
  let s := { s with fileDescriptors := Function.update s.fileDescriptors task list }
  let s := { s with files := c.opens.foldl fdOpen s.files }
  let s := s.pushFd task c.junk c.stdin.fd
  let s := s.pushFd task c.junk c.stdout.fd
  s.pushFd task c.junk c.stderr.fd

def ktaskCreate (fuel : Nat) (s : FileTasks) (task ppid : Nat) (c : Standard)
    : Option (Option Nat × FileTasks) := do
  let (t, sched) ← s.sched.ktaskCreate fuel task ppid
  match t with
  | none => return (none, { s with sched })
  | some t => return (some t, openStandard { s with sched } t c)

def mtPushTask (fuel : Nat) (s : FileTasks) (newTask : Option Nat) : Option FileTasks := do
  let sched ← s.sched.mtPushTask fuel newTask
  return { s with sched }

/-- `mt_spawn_ktask`, without the pid it returns. -/
def mtSpawnKtask (fuel : Nat) (s : FileTasks) (task ppid : Nat) (c : Standard)
    : Option FileTasks := do
  let (t, s) ← s.ktaskCreate fuel task ppid c
  s.mtPushTask fuel t

/-- `mt_spawn_utask`, without the pid it returns; `found` says that the path leads to a file that is
no directory.
-/
def mtSpawnUtask (fuel : Nat) (s : FileTasks) (found : Bool) (task ppid : Nat) (c : Standard)
    : Option FileTasks := do
  if !found then
    return s
  let (t, s) ← s.ktaskCreate fuel task ppid c
  match t with
  | none => return s
  | some p => s.mtPushTask fuel (some p)

/-- `open` of the node that the path leads to, and `rb_open` of the node of a ring buffer; `junk`
lies behind the list of the task.
-/
def openNode (s : FileTasks) (junk : Nat → Nat) (o : FdOpen) : Option FileTasks := do
  let task ← s.sched.curTask
  return pushFd { s with files := fdOpen s.files o } task junk o.fd

def close (s : FileTasks) (number : Nat) : Option FileTasks := do
  let task ← s.sched.curTask
  let d := (s.fileDescriptors task).listGet number
  if d = 0 then
    return s
  else
    let list := ((s.fileDescriptors task).listDelete number).2
    return {
      s with
      files := s.files.fdClose d
      fileDescriptors := Function.update s.fileDescriptors task list
    }

/-- What can happen next. -/
inductive Event where
  | spawnKtask (task ppid : Nat) (c : Standard)
  | spawnUtask (found : Bool) (task ppid : Nat) (c : Standard)
  | openNode (junk : Nat → Nat) (o : FdOpen)
  | close (number : Nat)
  | schedule
  | terminate (t : Nat)
  | clean (junk : Nat → Task)

/-- Blocks that `kmalloc` may give: no entry of the table and no descriptor of a task on `tasks` has
them.
-/
structure Unused (s : FileTasks) (bs : List FdBlocks) : Prop where
  entries : (bs.map FdBlocks.e).Nodup
  fds : (bs.map FdBlocks.fd).Nodup
  newEntry : ∀ b ∈ bs, ∀ i < s.files.gft.used, 0 < i → s.files.gft.data i ≠ b.e
  address : ∀ b ∈ bs, 0 < b.fd ∧ b.fd + Files.sizeofFileDescriptor ≤ 2 ^ 32
  newFd : ∀ b ∈ bs, ∀ t, s.sched.OnTasks t → b.fd ∉ (s.fileDescriptors t).elements

/-- One event, if its calls return. -/
def Step (s : FileTasks) : Event → FileTasks → Prop
  | .spawnKtask task ppid c, s' =>
      ¬ s.sched.OnTasks task ∧ ¬ s.sched.OnTerminated task ∧ s.Unused c.blocks
        ∧ ∃ fuel, s.mtSpawnKtask fuel task ppid c = some s'
  | .spawnUtask found task ppid c, s' =>
      ¬ s.sched.OnTasks task ∧ ¬ s.sched.OnTerminated task ∧ s.Unused c.blocks
        ∧ ∃ fuel, s.mtSpawnUtask fuel found task ppid c = some s'
  | .openNode junk o, s' => s.Unused [o.toFdBlocks] ∧ s.openNode junk o = some s'
  | .close number, s' => s.close number = some s'
  | .schedule, s' => ∃ sched, s.sched.Step .schedule sched ∧ s' = { s with sched }
  | .terminate t, s' => ∃ sched, s.sched.Step (.terminate t) sched ∧ s' = { s with sched }
  | .clean junk, s' => ∃ sched, s.sched.Step (.clean junk) sched ∧ s' = { s with sched }

/-- The end of `mt_init`. -/
def enable (s : FileTasks) : FileTasks :=
  { s with
    sched := { s.sched with curTask := s.sched.tasks, fgTask := none, mtEnabled := true } }

/-- `mt_init`: `gft_init`, three tasks, and the rest. -/
def Inits (s : FileTasks) : Prop :=
  ∃ (s₀ s₁ s₂ s₃ : FileTasks) (files : Files) (junk : Nat → Nat) (kernelIdle test cleaner : Nat)
      (c₁ c₂ c₃ : Standard),
    s₀.sched.tasks = none ∧ s₀.sched.terminatedTasks = none ∧ s₀.sched.pidCounter = 0
      ∧ s₀.files = files.gftInit junk
      ∧ s₀.Step (.spawnKtask kernelIdle 0 c₁) s₁ ∧ s₁.Step (.spawnKtask test 0 c₂) s₂
      ∧ s₂.Step (.spawnKtask cleaner 0 c₃) s₃ ∧ s = s₃.enable

/-- Tasks that open and close descriptors, from `mt_init` on. -/
def system : TransitionSystem FileTasks Event where
  init := Inits
  step := Step

def descriptors (s : FileTasks) (tasks : List Nat) : List Nat :=
  tasks.flatMap (fun t => (s.fileDescriptors t).elements)

/-- Every entry of the table has as many references as descriptors of the tasks on `tasks` refer to
it, and at least one.
-/
def Counted (s : FileTasks) : Prop :=
  ∀ live, Linked.Chain s.sched.next s.sched.tasks live
    → ∀ i, 0 < i → i < s.files.gft.used
      → 1 ≤ s.files.gftGetRefCount i
        ∧ s.files.gftGetRefCount i
          = (s.descriptors live).countP (fun d => (s.files.fd d).gftIndex = i)

/-- The running task is listed when it opens a descriptor, closes none but the one with the last
entry of the table, and a task that is terminated is listed and has no descriptors, nor have those
that it takes along.
-/
def Returns (s : FileTasks) : Event → Prop
  | .openNode _ _ => ∀ t ∈ s.sched.curTask, s.sched.OnTasks t
  | .close number =>
      ∀ t ∈ s.sched.curTask, (s.fileDescriptors t).listGet number = 0
        ∨ s.sched.OnTasks t ∧ number < (s.fileDescriptors t).used
          ∧ (s.files.fd ((s.fileDescriptors t).data number)).gftIndex + 1 = s.files.gft.used
  | .terminate t =>
      s.sched.OnTasks t ∧ ∀ p, s.sched.Takes t p → (s.fileDescriptors p).used = 0
  | _ => True

-----------------------------------------------------------------------------------------
-- Lists of descriptors
-----------------------------------------------------------------------------------------

end FileTasks

namespace ListT

variable {list : ListT}

/-- There are as many elements as places in use. -/
theorem elements_length (list : ListT) : list.elements.length = list.used := by
  rw [elements, List.length_map, List.length_range]

theorem elements_listPush (junk : Nat → Nat) (element : Nat) (small : list.used + 1 < 2 ^ 32)
    : (list.listPush junk element).2.elements = list.elements ++ [element] := by
  obtain ⟨-, used, last, kept⟩ := listPush_eq junk element small
  rw [elements, used, List.range_succ, List.map_append, List.map_singleton, last, elements]
  congr 1
  exact List.map_congr_left (fun i inside => kept i (List.mem_range.mp inside))

theorem elements_listDelete {index : Nat} (inside : index < list.used) (small : list.used < 2 ^ 32)
    : (list.listDelete index).2.elements = list.elements.eraseIdx index := by
  have count : (list.used + (2 ^ 32 - 1)) % 2 ^ 32 = list.used - 1 := by omega
  have length := list.elements_length
  rw [listDelete, if_neg (by omega)]
  refine List.ext_getElem ?_ (fun i before before' => ?_)
  · rw [elements_length, List.length_eraseIdx_of_lt (by omega), length]
    exact count
  · rw [List.getElem_eraseIdx]
    simp only [elements, List.getElem_map, List.getElem_range, moveDown_apply]
    rw [elements_length] at before
    replace before : i < (list.used + (2 ^ 32 - 1)) % 2 ^ 32 := before
    split <;> split <;> first | rfl | omega

theorem listGet_mem {index : Nat} (inside : index < list.used)
    : list.listGet index = list.data index ∧ list.data index ∈ list.elements := by
  refine ⟨if_neg (Nat.lt_asymm inside), List.mem_map_of_mem (List.mem_range.mpr inside)⟩

theorem elements_perm {index : Nat} (inside : index < list.used)
    : list.elements.Perm (list.data index :: list.elements.eraseIdx index) := by
  have bound : index < list.elements.length := by rwa [elements_length]
  have at_index : list.elements[index] = list.data index := by
    simp only [elements, List.getElem_map, List.getElem_range]
  rw [← at_index]
  exact (List.getElem_cons_eraseIdx_perm bound).symm

end ListT

namespace FileTasks

/-- The values of a function at the members of a list, when one of them is replaced. -/
theorem flatMap_update {live : List Nat} (nodup : live.Nodup) {t : Nat} (member : t ∈ live)
    (f : Nat → List Nat) (xs : List Nat)
    : ∃ rest, (live.flatMap f).Perm (f t ++ rest)
        ∧ (live.flatMap (Function.update f t xs)).Perm (xs ++ rest) := by
  obtain ⟨front, back, rfl⟩ := List.append_of_mem member
  obtain ⟨-, later, apart⟩ := List.nodup_append.mp nodup
  have notFront : ∀ p ∈ front, Function.update f t xs p = f p := fun p inside =>
    Function.update_of_ne (apart p inside t (List.mem_cons_self ..)) ..
  have notBack : ∀ p ∈ back, Function.update f t xs p = f p := by
    intro p inside
    refine Function.update_of_ne ?_ ..
    rintro rfl
    exact (List.nodup_cons.mp later).1 inside
  refine ⟨front.flatMap f ++ back.flatMap f, ?_, ?_⟩
  · rw [List.flatMap_append, List.flatMap_cons]
    exact List.perm_append_comm_assoc ..
  · rw [List.flatMap_append, List.flatMap_cons, Function.update_self,
      List.flatMap_congr notFront, List.flatMap_congr notBack]
    exact List.perm_append_comm_assoc ..

-----------------------------------------------------------------------------------------
-- Descriptors in the order in which they were opened
-----------------------------------------------------------------------------------------

open FileRun

/-- The descriptors of the tasks are open, each with the only reference of an entry. -/
structure Held (s : FileTasks) (live : List Nat) : Prop where
  held : ∃ opened, Stacked ⟨s.files, opened⟩ ∧ (opened.map Opened.fd).Perm (s.descriptors live)

variable {s s' : FileTasks} {live dead : List Nat} {files : Files} {opened : List Opened}

theorem fdOpen_table (h : Stacked ⟨files, opened⟩) (o : FdOpen)
    : (fdOpen files o).gft.used = files.gft.used + 1
      ∧ ∀ i < files.gft.used + 1, (fdOpen files o).gft.data i
        = if i < files.gft.used then files.gft.data i else o.e := by
  have used := h.used
  have few := h.few
  have small : files.gft.used + 1 < 2 ^ 32 := by
    dsimp only at used few
    omega
  obtain ⟨-, used', last, kept⟩ := ListT.listPush_eq o.junk o.e small
  refine ⟨used', fun i inside => ?_⟩
  split
  · next old => exact kept i old
  · next new =>
      obtain rfl : i = files.gft.used := by omega
      exact last

/-- Several calls of `fd_open` with blocks that nobody has, by induction on them. -/
theorem stacked_opens (h : Stacked ⟨files, opened⟩) (calls : List FdOpen)
    (entries : (calls.map (fun o => o.e)).Nodup) (fds : (calls.map (fun o => o.fd)).Nodup)
    (newEntry : ∀ o ∈ calls, ∀ i < files.gft.used, 0 < i → files.gft.data i ≠ o.e)
    (address : ∀ o ∈ calls, 0 < o.fd ∧ o.fd + Files.sizeofFileDescriptor ≤ 2 ^ 32)
    (newFd : ∀ o ∈ calls, o.fd ∉ opened.map Opened.fd)
    : Stacked ⟨calls.foldl fdOpen files, (calls.map (fun o => ⟨o.fd, o.node⟩)).reverse ++ opened⟩ := by
  induction calls generalizing files opened with
  | nil => exact h
  | cons o calls ih =>
      obtain ⟨ownEntry, entries⟩ := List.nodup_cons.mp entries
      obtain ⟨ownFd, fds⟩ := List.nodup_cons.mp fds
      obtain ⟨firstEntry, newEntry⟩ := List.forall_mem_cons.mp newEntry
      obtain ⟨firstAddress, address⟩ := List.forall_mem_cons.mp address
      obtain ⟨firstFd, newFd⟩ := List.forall_mem_cons.mp newFd
      have stacked : Stacked ⟨fdOpen files o, ⟨o.fd, o.node⟩ :: opened⟩ :=
        h.fdOpen o.junk o.flags firstEntry firstAddress firstFd
      obtain ⟨used, table⟩ := fdOpen_table h o
      have all := ih stacked entries fds (fun c member i inside positive => ?_) address
        (fun c member inside => ?_)
      · rwa [List.map_cons, List.reverse_cons, List.append_assoc]
      · rw [used] at inside
        rw [table i inside]
        split
        · next old => exact newEntry c member i old positive
        · exact fun same => ownEntry (List.mem_map.mpr ⟨c, member, same.symm⟩)
      · rcases List.mem_cons.mp inside with same | old
        · exact ownFd (List.mem_map.mpr ⟨c, member, same⟩)
        · exact newFd c member old

/-- The descriptors of a task are fewer than there are addresses. -/
theorem Held.used_lt (h : s.Held live) {t : Nat} (member : t ∈ live)
    : (s.fileDescriptors t).used + 1 < 2 ^ 32 := by
  obtain ⟨opened, stacked, perm⟩ := h.held
  have part : (s.fileDescriptors t).elements.Sublist (s.descriptors live) :=
    List.sublist_flatten_of_mem (List.mem_map_of_mem member)
  have few := stacked.few
  have lengths := perm.length_eq
  have le := part.length_le
  rw [List.length_map] at lengths
  rw [ListT.elements_length] at le
  dsimp only at few
  omega

/-- Blocks that no entry of the table and no descriptor of the given tasks have. -/
structure Avoids (s : FileTasks) (live : List Nat) (bs : List FdBlocks) : Prop where
  entries : (bs.map FdBlocks.e).Nodup
  fds : (bs.map FdBlocks.fd).Nodup
  newEntry : ∀ b ∈ bs, ∀ i < s.files.gft.used, 0 < i → s.files.gft.data i ≠ b.e
  address : ∀ b ∈ bs, 0 < b.fd ∧ b.fd + Files.sizeofFileDescriptor ≤ 2 ^ 32
  newFd : ∀ b ∈ bs, ∀ t ∈ live, b.fd ∉ (s.fileDescriptors t).elements

/-- Unused blocks are none of those of listed tasks. -/
theorem Unused.avoids {bs : List FdBlocks} (unused : s.Unused bs)
    (listed : ∀ t ∈ live, s.sched.OnTasks t)
    : s.Avoids live bs :=
  ⟨unused.entries, unused.fds, unused.newEntry, unused.address,
    fun b member t alive => unused.newFd b member t (listed t alive)⟩

theorem Avoids.newFd_opened {bs : List FdBlocks} (avoids : s.Avoids live bs)
    (perm : (opened.map Opened.fd).Perm (s.descriptors live)) {b : FdBlocks} (member : b ∈ bs)
    : b.fd ∉ opened.map Opened.fd := by
  intro inside
  obtain ⟨t, alive, its⟩ := List.mem_flatMap.mp (perm.mem_iff.mp inside)
  exact avoids.newFd b member t alive its

/-- The list of a new task. -/
theorem openStandard_eq (s : FileTasks) (task : Nat) (c : Standard)
    : ∃ list : ListT, list.elements = c.blocks.map FdBlocks.fd
        ∧ s.openStandard task c
          = { s with
              files := c.opens.foldl fdOpen s.files
              fileDescriptors := Function.update s.fileDescriptors task list } := by
  let list := ListT.makeList c.junk 8
  let list₁ := (list.listPush c.junk c.stdin.fd).2
  let list₂ := (list₁.listPush c.junk c.stdout.fd).2
  let list₃ := (list₂.listPush c.junk c.stderr.fd).2
  have first : list₁.elements = [c.stdin.fd] := ListT.elements_listPush _ _ (Nat.lt_of_sub_eq_succ rfl)
  have used₁ : list₁.used = 1 := (ListT.elements_length list₁).symm.trans (congrArg List.length first)
  have second : list₂.elements = [c.stdin.fd, c.stdout.fd] := by
    rw [ListT.elements_listPush _ _ (by rw [used₁]; decide), first]
    rfl
  have used₂ : list₂.used = 2 := (ListT.elements_length list₂).symm.trans (congrArg List.length second)
  have third : list₃.elements = [c.stdin.fd, c.stdout.fd, c.stderr.fd] := by
    rw [ListT.elements_listPush _ _ (by rw [used₂]; decide), second]
    rfl
  refine ⟨list₃, third, ?_⟩
  simp only [openStandard, pushFd, Function.update_self, Function.update_idem]
  rfl

/-- Several calls of `fd_open` with such blocks. -/
theorem Avoids.stacked (calls : List FdOpen)
    (avoids : s.Avoids live (calls.map FdOpen.toFdBlocks)) (h : Stacked ⟨s.files, opened⟩)
    (perm : (opened.map Opened.fd).Perm (s.descriptors live))
    : Stacked ⟨calls.foldl fdOpen s.files,
        (calls.map (fun o => ⟨o.fd, o.node⟩)).reverse ++ opened⟩ := by
  have block {o : FdOpen} (member : o ∈ calls) : o.toFdBlocks ∈ calls.map FdOpen.toFdBlocks :=
    List.mem_map_of_mem member
  refine stacked_opens h calls ?_ ?_ (fun o member => avoids.newEntry _ (block member))
    (fun o member => avoids.address _ (block member))
    (fun o member => avoids.newFd_opened perm (block member))
  · have entries := avoids.entries
    rwa [List.map_map] at entries
  · have fds := avoids.fds
    rwa [List.map_map] at fds

/-- They give each new descriptor its node and leave the others at theirs. -/
theorem Held.opens (h : s.Held live) (calls : List FdOpen)
    (avoids : s.Avoids live (calls.map FdOpen.toFdBlocks))
    : (∀ o ∈ calls, (calls.foldl fdOpen s.files).fdToNode o.fd = o.node)
      ∧ ∀ t ∈ live, ∀ d ∈ (s.fileDescriptors t).elements, (∀ o ∈ calls, d ≠ o.fd)
        ∧ (calls.foldl fdOpen s.files).fdToNode d = s.files.fdToNode d := by
  obtain ⟨opened, stacked, perm⟩ := h.held
  have stacked' := Avoids.stacked calls avoids stacked perm
  refine ⟨fun o member => ?_, fun t member d its => ⟨?_, ?_⟩⟩
  · refine stacked'.fdToNode (d := ⟨o.fd, o.node⟩) (List.mem_append_left _ ?_)
    exact List.mem_reverse.mpr (List.mem_map.mpr ⟨o, member, rfl⟩)
  · rintro o called rfl
    exact avoids.newFd _ (List.mem_map_of_mem called) t member its
  · obtain ⟨old, there, rfl⟩ :=
      List.mem_map.mp (perm.mem_iff.mpr (List.mem_flatMap.mpr ⟨t, member, its⟩))
    have before : s.files.fdToNode old.fd = old.node := stacked.fdToNode there
    rw [before]
    exact stacked'.fdToNode (List.mem_append_right _ there)

/-- `ktask_create` opens the descriptors of a new task. -/
theorem Held.openStandard (h : s.Held live) {task : Nat} (new : task ∉ live) {c : Standard}
    (avoids : s.Avoids live c.blocks)
    : (s.openStandard task c).Held (live ++ [task]) := by
  obtain ⟨opened, stacked, perm⟩ := h.held
  have opens := Avoids.stacked c.opens avoids stacked perm
  obtain ⟨list, elements, same⟩ := openStandard_eq s task c
  rw [same]
  refine ⟨_, opens, ?_⟩
  have others : ∀ p ∈ live, (Function.update s.fileDescriptors task list p).elements
      = (s.fileDescriptors p).elements := by
    intro p member
    have other : p ≠ task := fun equal => new (equal ▸ member)
    rw [Function.update_of_ne other]
  rw [descriptors]
  dsimp only
  rw [List.flatMap_append, List.flatMap_congr others, List.flatMap_singleton,
    Function.update_self, elements, List.map_append, List.map_reverse, List.map_map]
  exact ((List.reverse_perm _).append perm).trans List.perm_append_comm

theorem Held.openNode (h : s.Held live) (nodup : live.Nodup) {task : Nat} (member : task ∈ live)
    (junk : Nat → Nat) {o : FdOpen} (avoids : s.Avoids live [o.toFdBlocks])
    : (pushFd { s with files := fdOpen s.files o } task junk o.fd).Held live := by
  obtain ⟨opened, stacked, perm⟩ := h.held
  have first : o.toFdBlocks ∈ [o.toFdBlocks] := List.mem_singleton_self _
  have stacked' : Stacked ⟨fdOpen s.files o, ⟨o.fd, o.node⟩ :: opened⟩ :=
    stacked.fdOpen o.junk o.flags (avoids.newEntry _ first) (avoids.address _ first)
      (avoids.newFd_opened perm first)
  refine ⟨_, stacked', ?_⟩
  obtain ⟨rest, before, after⟩ := flatMap_update nodup member
    (fun t => (s.fileDescriptors t).elements) ((s.fileDescriptors task).elements ++ [o.fd])
  have lists : (fun t => (Function.update s.fileDescriptors task
        ((s.fileDescriptors task).listPush junk o.fd).2 t).elements)
      = Function.update (fun t => (s.fileDescriptors t).elements) task
          ((s.fileDescriptors task).elements ++ [o.fd]) := by
    funext t
    by_cases same : t = task
    · subst same
      rw [Function.update_self, Function.update_self, ListT.elements_listPush _ _ (h.used_lt member)]
    · rw [Function.update_of_ne same, Function.update_of_ne same]
  rw [descriptors, pushFd, List.map_cons]
  refine (List.Perm.cons o.fd (perm.trans before)).trans ?_
  dsimp only
  rw [lists]
  refine List.Perm.trans ?_ after.symm
  rw [List.append_assoc]
  exact List.perm_middle.symm

/-- Afterwards a descriptor of a task is a new one, on its node, or it was there before, and then it
is none of the new ones and has kept its node.
-/
theorem Held.openStandard_cases (h : s.Held live) {task : Nat} {c : Standard}
    (avoids : s.Avoids live c.blocks) {t d : Nat} (member : t ∈ live ++ [task])
    (its : d ∈ ((s.openStandard task c).fileDescriptors t).elements)
    : (∃ o ∈ c.opens, d = o.fd ∧ (s.openStandard task c).files.fdToNode d = o.node)
      ∨ t ∈ live ∧ d ∈ (s.fileDescriptors t).elements ∧ (∀ o ∈ c.opens, d ≠ o.fd)
        ∧ (s.openStandard task c).files.fdToNode d = s.files.fdToNode d := by
  obtain ⟨nodes, others⟩ := h.opens c.opens avoids
  obtain ⟨list, elements, same⟩ := openStandard_eq s task c
  rw [same] at its ⊢
  dsimp only at its ⊢
  by_cases own : t = task
  · rw [own, Function.update_self, elements] at its
    obtain ⟨b, block, rfl⟩ := List.mem_map.mp its
    obtain ⟨o, called, rfl⟩ : ∃ o ∈ c.opens, o.toFdBlocks = b := List.mem_map.mp block
    exact .inl ⟨o, called, rfl, nodes o called⟩
  · have old : t ∈ live := (List.mem_append.mp member).resolve_right (by simpa using own)
    rw [Function.update_of_ne own] at its
    obtain ⟨other, kept⟩ := others t old d its
    exact .inr ⟨old, its, other, kept⟩

theorem Held.openNode_cases (h : s.Held live) {task : Nat} (member : task ∈ live) (junk : Nat → Nat)
    {o : FdOpen} (avoids : s.Avoids live [o.toFdBlocks]) {t d : Nat} (alive : t ∈ live)
    (its : d ∈ ((pushFd { s with files := fdOpen s.files o } task junk o.fd).fileDescriptors
      t).elements)
    : (d = o.fd ∧ (fdOpen s.files o).fdToNode d = o.node)
      ∨ d ∈ (s.fileDescriptors t).elements ∧ d ≠ o.fd
        ∧ (fdOpen s.files o).fdToNode d = s.files.fdToNode d := by
  obtain ⟨nodes, others⟩ := h.opens [o] avoids
  have old (before : d ∈ (s.fileDescriptors t).elements)
      : d ∈ (s.fileDescriptors t).elements ∧ d ≠ o.fd
        ∧ (fdOpen s.files o).fdToNode d = s.files.fdToNode d := by
    obtain ⟨other, kept⟩ := others t alive d before
    exact ⟨before, other o (List.mem_singleton_self o), kept⟩
  dsimp only [pushFd] at its
  by_cases own : t = task
  · subst own
    rw [Function.update_self, ListT.elements_listPush _ _ (h.used_lt member), List.mem_append,
      List.mem_singleton] at its
    rcases its with before | rfl
    · exact .inr (old before)
    · exact .inl ⟨rfl, nodes o (List.mem_singleton_self o)⟩
  · rw [Function.update_of_ne own] at its
    exact .inr (old its)

theorem Held.descriptors_close (h : s.Held live) (nodup : live.Nodup) {task number : Nat}
    (member : task ∈ live) (inside : number < (s.fileDescriptors task).used) (files : Files)
    : (s.descriptors live).Perm ((s.fileDescriptors task).data number :: descriptors
        { s with
          files
          fileDescriptors := Function.update s.fileDescriptors task
            ((s.fileDescriptors task).listDelete number).2 }
        live) := by
  have few := h.used_lt member
  obtain ⟨rest, before, after⟩ := flatMap_update nodup member
    (fun t => (s.fileDescriptors t).elements) ((s.fileDescriptors task).elements.eraseIdx number)
  have lists : (fun t => (Function.update s.fileDescriptors task
        ((s.fileDescriptors task).listDelete number).2 t).elements)
      = Function.update (fun t => (s.fileDescriptors t).elements) task
          ((s.fileDescriptors task).elements.eraseIdx number) := by
    funext t
    by_cases same : t = task
    · subst same
      rw [Function.update_self, Function.update_self, ListT.elements_listDelete inside (by omega)]
    · rw [Function.update_of_ne same, Function.update_of_ne same]
  have all := before.trans ((ListT.elements_perm inside).append_right rest)
  rw [List.cons_append] at all
  refine all.trans ?_
  rw [descriptors]
  dsimp only
  rw [lists]
  exact after.symm.cons _

/-- `close` closes the descriptor with the last entry, and leaves the others at their nodes. -/
theorem Held.close (h : s.Held live) (nodup : live.Nodup) {task number : Nat} (member : task ∈ live)
    (inside : number < (s.fileDescriptors task).used)
    (last : (s.files.fd ((s.fileDescriptors task).data number)).gftIndex + 1 = s.files.gft.used)
    {s' : FileTasks}
    (closed : s' =
      { s with
        files := s.files.fdClose ((s.fileDescriptors task).data number)
        fileDescriptors := Function.update s.fileDescriptors task
          ((s.fileDescriptors task).listDelete number).2 })
    : s'.Held live
      ∧ ∀ d ∈ s'.descriptors live, d ∈ s.descriptors live
        ∧ s'.files.fdToNode d = s.files.fdToNode d := by
  obtain ⟨opened, stacked, perm⟩ := h.held
  have isOpen : (s.fileDescriptors task).data number ∈ opened.map Opened.fd :=
    perm.mem_iff.mpr (List.mem_flatMap.mpr ⟨task, member, (ListT.listGet_mem inside).2⟩)
  have all := perm.trans (h.descriptors_close nodup member inside
    (s.files.fdClose ((s.fileDescriptors task).data number)))
  rw [← closed] at all
  have left := List.nodup_cons.mp (all.nodup_iff.mp stacked.distinct)
  have kept := all.filter (fun d => d ≠ (s.fileDescriptors task).data number)
  have others : (s'.descriptors live).filter (fun d => d ≠ (s.fileDescriptors task).data number)
      = s'.descriptors live := by
    refine List.filter_eq_self.mpr (fun d its => ?_)
    rw [decide_eq_true_eq]
    rintro rfl
    exact left.1 its
  rw [List.filter_cons_of_neg (by simp), List.filter_map, others] at kept
  have stacked' := stacked.fdClose isOpen last
  refine ⟨⟨_, by rw [closed]; exact stacked', kept⟩, fun d its => ?_⟩
  obtain ⟨o, there, rfl⟩ := List.mem_map.mp (kept.mem_iff.mpr its)
  have before : s.files.fdToNode o.fd = o.node := stacked.fdToNode (List.mem_filter.mp there).1
  rw [before, closed]
  exact ⟨perm.mem_iff.mp (List.mem_map_of_mem (List.mem_filter.mp there).1),
    stacked'.fdToNode there⟩

/-- Tasks without descriptors may go. -/
theorem Held.drop (h : s.Held live) {moved rest : List Nat} (perm : live.Perm (moved ++ rest))
    (empty : ∀ t ∈ moved, (s.fileDescriptors t).used = 0)
    : s.Held rest := by
  obtain ⟨opened, stacked, held⟩ := h.held
  refine ⟨opened, stacked, held.trans ?_⟩
  have none : moved.flatMap (fun t => (s.fileDescriptors t).elements) = [] := by
    refine List.flatMap_eq_nil_iff.mpr (fun t member => ?_)
    rw [ListT.elements, empty t member]
    rfl
  have all := List.Perm.flatMap_right (fun t => (s.fileDescriptors t).elements) perm
  rwa [List.flatMap_append, none, List.nil_append] at all

-----------------------------------------------------------------------------------------
-- Counting
-----------------------------------------------------------------------------------------

/-- The indices count down from the last entry, by induction on the descriptors. -/
theorem backed_indices (h : Backed files opened)
    : opened.map (fun d => (files.fd d.fd).gftIndex) = (List.range' 1 opened.length).reverse := by
  induction opened with
  | nil => rfl
  | cons d rest ih =>
      obtain ⟨index, -, -, -, below⟩ := h
      rw [List.map_cons, ih below, index, List.length_cons, List.range'_1_concat, List.reverse_append,
        Nat.add_comm]
      rfl

/-- Every entry has one reference, by induction on the descriptors. -/
theorem backed_refCount (h : Backed files opened) {i : Nat} (positive : 0 < i)
    (inside : i ≤ opened.length)
    : (files.entry (files.gft.data i)).refCount = 1 := by
  induction opened with
  | nil => exact absurd positive (Nat.not_lt.mpr inside)
  | cons d rest ih =>
      obtain ⟨-, -, count, -, below⟩ := h
      rcases Nat.lt_or_eq_of_le inside with less | rfl
      · exact ih below (Nat.le_of_lt_succ less)
      · exact count

/-- Held entries have the references of the descriptors. -/
theorem Held.counted (h : s.Held live) {i : Nat} (positive : 0 < i) (inside : i < s.files.gft.used)
    : s.files.gftGetRefCount i = 1
      ∧ (s.descriptors live).countP (fun d => (s.files.fd d).gftIndex = i) = 1 := by
  obtain ⟨opened, stacked, perm⟩ := h.held
  have used : s.files.gft.used = opened.length + 1 := stacked.used
  have bound : i ≤ opened.length := by omega
  have found : s.files.gft.listGet i = s.files.gft.data i := if_neg (Nat.lt_asymm inside)
  refine ⟨?_, ?_⟩
  · rw [Files.gftGetRefCount, found]
    exact backed_refCount stacked.backed positive bound
  · have indices := backed_indices stacked.backed
    have member : i ∈ List.range' 1 opened.length := by
      rw [List.mem_range'_1]
      omega
    have one : (opened.map (fun d => (s.files.fd d.fd).gftIndex)).count i = 1 := by
      rw [indices, List.count_reverse]
      exact List.count_eq_one_of_mem (List.nodup_range') member
    rw [← perm.countP_eq, List.countP_map, ← one, List.count, List.countP_map]
    exact List.countP_congr (fun d _ => by simp)

/-- What every state of a run that gives its references back satisfies. -/
structure Inv (s : FileTasks) : Prop where
  lists : ∃ live dead, s.sched.View live dead ∧ s.Held live
  counter : 0 < s.sched.pidCounter

theorem Inv.counted (h : s.Inv) : s.Counted := by
  obtain ⟨⟨live, dead, view, held⟩, -⟩ := h
  intro live' chain i positive inside
  obtain rfl := view.tasks.chain.unique chain
  obtain ⟨references, count⟩ := held.counted positive inside
  rw [references, count]
  exact ⟨Nat.le_refl 1, rfl⟩

theorem mtSpawnKtask_eq_some {fuel task ppid : Nat} {c : Standard}
    (spawned : s.mtSpawnKtask fuel task ppid c = some s')
    : ∃ new sched₁, s.sched.ktaskCreate fuel task ppid = some (new, sched₁)
        ∧ sched₁.mtPushTask fuel new = some s'.sched
        ∧ s' = match new with
          | none => { s with sched := s'.sched }
          | some t => { s.openStandard t c with sched := s'.sched } := by
  obtain ⟨⟨t, s₁⟩, created, pushed⟩ := Option.bind_eq_some_iff.mp spawned
  obtain ⟨⟨new, sched₁⟩, created', made⟩ := Option.bind_eq_some_iff.mp created
  obtain ⟨sched, pushed', done⟩ := Option.bind_eq_some_iff.mp pushed
  obtain rfl := Option.some.inj done
  refine ⟨new, sched₁, created', ?_⟩
  cases new with
  | none =>
      obtain ⟨rfl, rfl⟩ := Prod.mk.inj (Option.some.inj made)
      exact ⟨pushed', rfl⟩
  | some task =>
      obtain ⟨rfl, rfl⟩ := Prod.mk.inj (Option.some.inj made)
      exact ⟨pushed', rfl⟩

theorem Held.spawned (h : s.Held live) {task : Nat} (notLive : task ∉ live) {c : Standard}
    (avoids : s.Avoids live c.blocks) {new : Option Nat}
    (same : s' = match new with
      | none => { s with sched := s'.sched }
      | some t => { s.openStandard t c with sched := s'.sched })
    (own : ∀ p ∈ new, p = task)
    : s'.Held (live ++ new.toList) := by
  cases new with
  | none =>
      rw [same, Option.toList_none, List.append_nil]
      exact ⟨h.held⟩
  | some t =>
      obtain rfl := own t rfl
      rw [same]
      exact ⟨(h.openStandard notLive avoids).held⟩

theorem Inv.mtSpawnKtask (h : s.Inv) {fuel task ppid : Nat} {c : Standard}
    (notLive : ¬ s.sched.OnTasks task) (notDead : ¬ s.sched.OnTerminated task)
    (unused : s.Unused c.blocks) (spawned : s.mtSpawnKtask fuel task ppid c = some s')
    : s'.Inv := by
  obtain ⟨⟨live, dead, view, held⟩, counter⟩ := h
  rw [view.onTasks] at notLive
  rw [view.onTerminated] at notDead
  obtain ⟨new, sched₁, created, pushed, same⟩ := mtSpawnKtask_eq_some spawned
  obtain ⟨view₁, counter₁, -, -, fresh⟩ := view.ktaskCreate counter notLive notDead created
  have unlisted : ∀ p ∈ new, p ∉ live ∧ p ∉ dead ∧ sched₁.next p = none ∧ sched₁.pid p ≠ 0 := by
    intro p member
    obtain ⟨rfl, unlinked, pid⟩ := fresh p member
    exact ⟨notLive, notDead, unlinked, pid⟩
  obtain ⟨view', counter', -⟩ := view₁.mtPushTask unlisted pushed
  refine ⟨⟨_, dead, view', ?_⟩, counter' ▸ counter₁⟩
  have avoids := unused.avoids (fun t member => view.onTasks.mpr member)
  exact held.spawned notLive avoids same (fun p member => (fresh p member).1)

theorem Inv.mtSpawnUtask (h : s.Inv) {fuel task ppid : Nat} {found : Bool} {c : Standard}
    (notLive : ¬ s.sched.OnTasks task) (notDead : ¬ s.sched.OnTerminated task)
    (unused : s.Unused c.blocks) (spawned : s.mtSpawnUtask fuel found task ppid c = some s')
    : s'.Inv := by
  cases found with
  | false =>
      obtain rfl := Option.some.inj spawned
      exact h
  | true =>
      obtain ⟨⟨t, s₁⟩, created, pushed⟩ := Option.bind_eq_some_iff.mp spawned
      cases t with
      | none =>
          obtain rfl := Option.some.inj pushed
          obtain ⟨⟨live, dead, view, held⟩, counter⟩ := h
          rw [view.onTasks] at notLive
          rw [view.onTerminated] at notDead
          obtain ⟨⟨new, sched₁⟩, created', made⟩ := Option.bind_eq_some_iff.mp created
          cases new with
          | none =>
              obtain ⟨-, rfl⟩ := Prod.mk.inj (Option.some.inj made)
              obtain ⟨view₁, counter₁, -⟩ := view.ktaskCreate counter notLive notDead created'
              exact ⟨⟨live, dead, view₁, ⟨held.held⟩⟩, counter₁⟩
          | some p => cases (Prod.mk.inj (Option.some.inj made)).1
      | some p =>
          have both : s.mtSpawnKtask fuel task ppid c = some s' := by
            rw [FileTasks.mtSpawnKtask, created]
            exact pushed
          exact h.mtSpawnKtask notLive notDead unused both

/-- An event of the scheduler alone keeps the invariant when it takes no descriptors along. -/
theorem Inv.sched (h : s.Inv) {event : Sched.Event} {sched : Sched}
    (taken : s.sched.Step event sched)
    (safe : ∀ t, event = .terminate t
      → s.sched.OnTasks t ∧ ∀ p, s.sched.Takes t p → (s.fileDescriptors p).used = 0)
    (noSpawn : ∃ t junk, event = .schedule ∨ event = .terminate t ∨ event = .clean junk)
    : Inv { s with sched } := by
  obtain ⟨⟨live, dead, view, held⟩, counter⟩ := h
  obtain ⟨t, junk, rfl | rfl | rfl⟩ := noSpawn
  · obtain ⟨fuel, next, returned⟩ := taken
    obtain ⟨view', counter', -⟩ := view.mtSchedule returned
    exact ⟨⟨live, dead, view', ⟨held.held⟩⟩, counter' ▸ counter⟩
  · obtain ⟨listed, empty⟩ := safe t rfl
    obtain ⟨-, fuel, returned⟩ := taken
    obtain ⟨moved, rest, view', perm, takes, counter', -⟩ :=
      view.mtTaskTerminate (view.onTasks.mp listed) returned
    have left := held.drop perm (fun p member => empty p (takes p member))
    exact ⟨⟨rest, _, view', ⟨left.held⟩⟩, counter' ▸ counter⟩
  · obtain ⟨fuel, passed⟩ := taken
    obtain ⟨view', counter', -⟩ := view.cleanerPass passed
    exact ⟨⟨live, [], view', ⟨held.held⟩⟩, counter' ▸ counter⟩

/-- An event that gives its references back keeps the invariant, by cases on it. -/
theorem Inv.step (h : s.Inv) {event : Event} (returns : s.Returns event) (taken : s.Step event s')
    : s'.Inv := by
  cases event with
  | spawnKtask task ppid c =>
      obtain ⟨notLive, notDead, unused, fuel, spawned⟩ := taken
      exact h.mtSpawnKtask notLive notDead unused spawned
  | spawnUtask found task ppid c =>
      obtain ⟨notLive, notDead, unused, fuel, spawned⟩ := taken
      exact h.mtSpawnUtask notLive notDead unused spawned
  | openNode junk o =>
      obtain ⟨unused, opened⟩ := taken
      obtain ⟨task, current, done⟩ := Option.bind_eq_some_iff.mp opened
      obtain rfl := Option.some.inj done
      obtain ⟨⟨live, dead, view, held⟩, counter⟩ := h
      have member := view.onTasks.mp (returns task current)
      refine ⟨⟨live, dead, view, ?_⟩, counter⟩
      exact held.openNode view.tasks.chain.nodup member junk
        (unused.avoids (fun t inside => view.onTasks.mpr inside))
  | close number =>
      obtain ⟨task, current, closed⟩ := Option.bind_eq_some_iff.mp taken
      rcases returns task current with null | ⟨listed, inside, last⟩
      · dsimp only at closed
        rw [if_pos null] at closed
        obtain rfl := Option.some.inj closed
        exact h
      · obtain ⟨⟨live, dead, view, held⟩, counter⟩ := h
        have element := (ListT.listGet_mem inside).1
        dsimp only at closed
        split at closed
        · obtain rfl := Option.some.inj closed
          exact ⟨⟨live, dead, view, held⟩, counter⟩
        · obtain rfl := Option.some.inj closed
          rw [element]
          refine ⟨⟨live, dead, view, ?_⟩, counter⟩
          exact (held.close view.tasks.chain.nodup (view.onTasks.mp listed) inside last rfl).1
  | schedule =>
      obtain ⟨sched, taken, rfl⟩ := taken
      exact h.sched taken nofun ⟨0, fun _ => s.sched.task 0, .inl rfl⟩
  | terminate t =>
      obtain ⟨sched, taken, rfl⟩ := taken
      refine h.sched taken ?_ ⟨t, fun _ => s.sched.task 0, .inr (.inl rfl)⟩
      rintro _ ⟨⟩
      exact returns
  | clean junk =>
      obtain ⟨sched, taken, rfl⟩ := taken
      exact h.sched taken nofun ⟨0, junk, .inr (.inr rfl)⟩

theorem Inits.inv (h : s.Inits) : s.Inv := by
  obtain ⟨s₀, s₁, s₂, s₃, files, junk, kernelIdle, test, cleaner, c₁, c₂, c₃, tasks, terminated, counter,
    empty, first, second, third, rfl⟩ := h
  obtain ⟨-, -, unused, fuel, spawned⟩ := first
  obtain ⟨new, sched₁, created, pushed, same⟩ := mtSpawnKtask_eq_some spawned
  have spawned' : s₀.sched.mtSpawnKtask fuel kernelIdle 0 = some s₁.sched := by
    rw [Sched.mtSpawnKtask, created]
    exact pushed
  obtain ⟨view₁, counter₁⟩ := Sched.mtSpawnKtask_first tasks terminated counter spawned'
  have held₀ : s₀.Held [] := by
    refine ⟨[], ⟨?_, List.nodup_nil, by simp, trivial⟩, .nil⟩
    rw [empty]
    rfl
  obtain ⟨kept, own⟩ := Sched.ktaskCreate_tasks created
  have head : new = some kernelIdle := by
    have first := view₁.tasks.chain.head
    simp only [Sched.mtPushTask, kept, tasks] at pushed
    rw [← Option.some.inj pushed] at first
    exact first
  have inv₁ : s₁.Inv := by
    refine ⟨⟨[kernelIdle], [], view₁, ?_⟩, counter₁ ▸ Nat.one_pos⟩
    have avoids : s₀.Avoids [] c₁.blocks := unused.avoids (fun _ none => (List.not_mem_nil none).elim)
    have held := held₀.spawned List.not_mem_nil avoids same own
    rwa [head] at held
  obtain ⟨notLive₂, notDead₂, unused₂, fuel₂, spawned₂⟩ := second
  obtain ⟨notLive₃, notDead₃, unused₃, fuel₃, spawned₃⟩ := third
  have inv₂ := inv₁.mtSpawnKtask notLive₂ notDead₂ unused₂ spawned₂
  obtain ⟨⟨live, dead, view, held⟩, counter₃⟩ := inv₂.mtSpawnKtask notLive₃ notDead₃ unused₃ spawned₃
  exact ⟨⟨live, dead, view.congr rfl rfl (fun _ _ => ⟨rfl, rfl, rfl, rfl⟩), ⟨held.held⟩⟩, counter₃⟩

/-- In every run that gives its references back, every entry of the table has as many references as
descriptors of the tasks on `tasks` refer to it. The invariant counts for every entry the
descriptors of the tasks with its index; opens and closes change both numbers alike, and a task
that ends without closing is what the condition excludes.
-/
theorem run_counted {steps : List (FileTasks × Event)} (run : system.Run s steps)
    (returns : ∀ taken ∈ steps, taken.1.Returns taken.2)
    : s.Counted := by
  have reached := run.restrict returns
  have inv : s.Inv := by
    refine reached.invariant ?_ ?_
    · exact fun s init => Inits.inv init
    · rintro s event s' inv ⟨gives, taken⟩
      exact inv.step gives taken
  exact inv.counted

-----------------------------------------------------------------------------------------
-- Runs from memory filled with zeros
-----------------------------------------------------------------------------------------

def follow (next : Nat → Option Nat) : (fuel : Nat) → Option Nat → List Nat
  | 0, _ => []
  | _, none => []
  | fuel + 1, some p => p :: follow next fuel (next p)

/-- The tasks on `tasks`, and those on `terminated_tasks`. -/
def liveTasks (s : FileTasks) : List Nat :=
  follow s.sched.next 16 s.sched.tasks

def deadTasks (s : FileTasks) : List Nat :=
  follow s.sched.next 16 s.sched.terminatedTasks

def Followed (s : FileTasks) : Prop :=
  Linked.Chain s.sched.next s.sched.tasks s.liveTasks
    ∧ Linked.Chain s.sched.next s.sched.terminatedTasks s.deadTasks

instance (s : FileTasks) : Decidable s.Followed :=
  inferInstanceAs (Decidable (_ ∧ _))

def Free (s : FileTasks) (bs : List FdBlocks) : Prop :=
  (bs.map FdBlocks.e).Nodup ∧ (bs.map FdBlocks.fd).Nodup
    ∧ (∀ b ∈ bs, ∀ i < s.files.gft.used, 0 < i → s.files.gft.data i ≠ b.e)
    ∧ (∀ b ∈ bs, 0 < b.fd ∧ b.fd + Files.sizeofFileDescriptor ≤ 2 ^ 32)
    ∧ ∀ b ∈ bs, ∀ t ∈ s.liveTasks, b.fd ∉ (s.fileDescriptors t).elements

instance (s : FileTasks) (bs : List FdBlocks) : Decidable (s.Free bs) :=
  inferInstanceAs (Decidable (_ ∧ _ ∧ _ ∧ _ ∧ _))

def perform (s : FileTasks) (event : Event) : Option FileTasks :=
  if s.Followed then
    match event with
    | .spawnKtask task ppid c =>
        if task ∉ s.liveTasks ∧ task ∉ s.deadTasks ∧ s.Free c.blocks then s.mtSpawnKtask 16 task ppid c
        else none
    | .openNode junk o => if s.Free [o.toFdBlocks] then s.openNode junk o else none
    | .close number => s.close number
    | .schedule => (s.sched.mtSchedule 16).map (fun r => { s with sched := r.2 })
    | .terminate t =>
        if t ∈ s.liveTasks then (s.sched.mtTaskTerminate 16 t).map (fun sched => { s with sched })
        else none
    | .clean junk => (s.sched.cleanerPass 16 junk).map (fun sched => { s with sched })
    | .spawnUtask .. => none
  else
    none

theorem Followed.onTasks (h : s.Followed) {t : Nat} : s.sched.OnTasks t ↔ t ∈ s.liveTasks := by
  constructor
  · rintro ⟨live, chain, member⟩
    rwa [h.1.unique chain]
  · exact fun member => ⟨_, h.1, member⟩

theorem Followed.onTerminated (h : s.Followed) {t : Nat}
    : s.sched.OnTerminated t ↔ t ∈ s.deadTasks := by
  constructor
  · rintro ⟨dead, chain, member⟩
    rwa [h.2.unique chain]
  · exact fun member => ⟨_, h.2, member⟩

theorem Followed.unused (h : s.Followed) {bs : List FdBlocks} (free : s.Free bs) : s.Unused bs := by
  obtain ⟨entries, fds, newEntry, address, newFd⟩ := free
  exact ⟨entries, fds, newEntry, address,
    fun b member t listed => newFd b member t (h.onTasks.mp listed)⟩

theorem perform_step {event : Event} (performed : s.perform event = some s') : s.Step event s' := by
  obtain ⟨followed, performed⟩ := Option.ite_none_right_eq_some.mp performed
  cases event with
  | spawnKtask task ppid c =>
      obtain ⟨⟨notLive, notDead, free⟩, spawned⟩ := Option.ite_none_right_eq_some.mp performed
      rw [← followed.onTasks] at notLive
      rw [← followed.onTerminated] at notDead
      exact ⟨notLive, notDead, followed.unused free, 16, spawned⟩
  | spawnUtask found task ppid c => cases performed
  | openNode junk o =>
      obtain ⟨free, opened⟩ := Option.ite_none_right_eq_some.mp performed
      exact ⟨followed.unused free, opened⟩
  | close number => exact performed
  | schedule =>
      obtain ⟨r, returned, rfl⟩ := Option.map_eq_some_iff.mp performed
      exact ⟨r.2, ⟨16, r.1, returned⟩, rfl⟩
  | terminate t =>
      obtain ⟨member, performed⟩ := Option.ite_none_right_eq_some.mp performed
      obtain ⟨sched, returned, rfl⟩ := Option.map_eq_some_iff.mp performed
      exact ⟨sched, ⟨.inl (followed.onTasks.mpr member), 16, returned⟩, rfl⟩
  | clean junk =>
      obtain ⟨sched, passed, rfl⟩ := Option.map_eq_some_iff.mp performed
      exact ⟨sched, ⟨16, passed⟩, rfl⟩

/-- Memory filled with zeros, after `gft_init`. -/
def zeroed : FileTasks where
  sched := Sched.boot
  files := FileRun.zeroed.files
  fileDescriptors _ := ⟨fun _ => 0, 0, 0⟩

/-- `mt_init` and then the given events, latest first. -/
def scene (events : List Event) : Option (FileTasks × List (FileTasks × Event)) := do
  let s ← zeroed.perform (.spawnKtask 0x1000 0 (standardAt 0x10000))
  let s ← s.perform (.spawnKtask 0x2000 0 (standardAt 0x20000))
  let s ← s.perform (.spawnKtask 0x3000 0 (standardAt 0x30000))
  TransitionSystem.play perform s.enable events

theorem scene_run {events : List Event} {r : FileTasks × List (FileTasks × Event)}
    (played : scene events = some r)
    : system.Run r.1 r.2 := by
  rw [scene] at played
  obtain ⟨s₁, first, played⟩ := Option.bind_eq_some_iff.mp played
  obtain ⟨s₂, second, played⟩ := Option.bind_eq_some_iff.mp played
  obtain ⟨s₃, third, played⟩ := Option.bind_eq_some_iff.mp played
  have start : system.init s₃.enable :=
    ⟨_, s₁, s₂, s₃, _, _, 0x1000, 0x2000, 0x3000, _, _, _, rfl, rfl, rfl, rfl, perform_step first,
      perform_step second, perform_step third, rfl⟩
  have sound (s : FileTasks) (event : Event) (s' : FileTasks) (_ : True)
      (performed : s.perform event = some s')
      : system.step s event s' ∧ True :=
    ⟨perform_step performed, trivial⟩
  exact (TransitionSystem.Run.of_play sound start trivial played).1

/-- The condition of `Returns` among tasks that are followed; a terminated task has no children. -/
def Gives (s : FileTasks) : Event → Prop
  | .openNode _ _ => ∀ t ∈ s.sched.curTask, t ∈ s.liveTasks
  | .close number =>
      ∀ t ∈ s.sched.curTask, t ∈ s.liveTasks ∧ number < (s.fileDescriptors t).used
        ∧ (s.files.fd ((s.fileDescriptors t).data number)).gftIndex + 1 = s.files.gft.used
  | .terminate t =>
      t ∈ s.liveTasks ∧ (s.fileDescriptors t).used = 0
        ∧ ∀ c ∈ s.liveTasks.erase t, s.sched.ppid c ≠ s.sched.pid t
  | _ => True

instance (s : FileTasks) (event : Event) : Decidable (s.Gives event) :=
  match event with
  | .spawnKtask .. | .spawnUtask .. | .schedule | .clean _ => inferInstanceAs (Decidable True)
  | .openNode _ _ => inferInstanceAs (Decidable (∀ t ∈ s.sched.curTask, t ∈ s.liveTasks))
  | .close number =>
      inferInstanceAs (Decidable (∀ t ∈ s.sched.curTask, t ∈ s.liveTasks
        ∧ number < (s.fileDescriptors t).used
        ∧ (s.files.fd ((s.fileDescriptors t).data number)).gftIndex + 1 = s.files.gft.used))
  | .terminate t =>
      inferInstanceAs (Decidable (t ∈ s.liveTasks ∧ (s.fileDescriptors t).used = 0
        ∧ ∀ c ∈ s.liveTasks.erase t, s.sched.ppid c ≠ s.sched.pid t))

/-- A line of children is empty or starts with one. -/
theorem descent_line {pid ppid : Nat → Nat} {live dead line rest : List Nat} {t : Nat}
    (h : Sched.Descent pid ppid live dead t line rest)
    : line = [] ∨ ∃ c ∈ live, ppid c = pid t := by
  cases h with
  | last => exact .inl rfl
  | child before first clear down =>
      exact .inr ⟨_, List.mem_append_right _ (List.mem_cons_self ..), first⟩

/-- Events that give their references back among tasks that are followed. -/
theorem Followed.returns (h : s.Followed) {event : Event} (gives : s.Gives event)
    : s.Returns event := by
  cases event with
  | openNode junk o => exact fun t current => h.onTasks.mpr (gives t current)
  | close number =>
      intro t current
      obtain ⟨member, inside, last⟩ := gives t current
      exact .inr ⟨h.onTasks.mpr member, inside, last⟩
  | terminate t =>
      obtain ⟨member, empty, childless⟩ := gives
      refine ⟨h.onTasks.mpr member, ?_⟩
      rintro p ⟨-, live, dead, line, rest, view, descent, taken⟩
      obtain rfl := h.1.unique view.tasks.chain
      have alone : line = [] := by
        rcases descent_line descent with rfl | ⟨c, member, first⟩
        · rfl
        · exact absurd first (childless c member)
      rw [alone] at taken
      exact List.mem_singleton.mp taken ▸ empty
  | _ => trivial

/-- A task opens and closes descriptors, is terminated and destroyed. -/
theorem run_counted_closed
    : ∃ s steps, system.Run s steps ∧ steps.length = 11 ∧ s.files.gft.used = 10 ∧ s.Counted := by
  let events : List Event :=
    [.clean (fun _ => Sched.boot.task 0), .terminate 0x4000, .close 0, .close 1, .close 2, .close 3,
      .openNode (fun _ => 0) ⟨⟨fun _ => 0, 0x50000, 0x50010⟩, 0xB0, Files.oRdwr⟩,
      .schedule, .schedule, .schedule, .spawnKtask 0x4000 0 (standardAt 0x40000)]
  have returns : (scene events).isSome = true := by
    decide +kernel
  obtain ⟨⟨s, steps⟩, played⟩ := Option.isSome_iff_exists.mp returns
  have facts : ∀ r ∈ scene events, r.2.length = 11 ∧ r.1.files.gft.used = 10
      ∧ ∀ taken ∈ r.2, taken.1.Followed ∧ taken.1.Gives taken.2 := by
    decide +kernel
  obtain ⟨count, used, gives⟩ := facts _ played
  refine ⟨s, steps, scene_run played, count, used, run_counted (scene_run played) ?_⟩
  exact fun taken member => (gives taken member).1.returns (gives taken member).2

/-- A task that is terminated and destroyed leaves the entries of its descriptors behind. -/
theorem run_not_counted : ¬ ∀ s steps, system.Run s steps → s.Counted := by
  intro sound
  let events : List Event :=
    [.clean (fun _ => Sched.boot.task 0), .terminate 0x4000,
      .spawnKtask 0x4000 0 (standardAt 0x40000)]
  have returns : (scene events).isSome = true := by
    decide +kernel
  obtain ⟨⟨s, steps⟩, played⟩ := Option.isSome_iff_exists.mp returns
  have facts : ∀ r ∈ scene events, Linked.Chain r.1.sched.next r.1.sched.tasks [0x1000, 0x2000, 0x3000]
      ∧ 12 < r.1.files.gft.used ∧ r.1.files.gftGetRefCount 12 = 1
      ∧ (r.1.descriptors [0x1000, 0x2000, 0x3000]).countP
          (fun d => (r.1.files.fd d).gftIndex = 12) = 0 := by
    decide +kernel
  obtain ⟨chain, inside, references, none⟩ := facts _ played
  have counted := (sound s steps (scene_run played) _ chain 12 (by decide) inside).2
  rw [references, none] at counted
  exact absurd counted (by decide)

end FileTasks

end Hydrangea
