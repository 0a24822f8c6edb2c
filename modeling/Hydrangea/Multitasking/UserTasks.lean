import Hydrangea.Fs.VfsLookups
import Hydrangea.Fs.VfsMount
import Hydrangea.Multitasking.Pids
import Mathlib.Data.Set.Finite.Basic

/-! `utask_create` of `kernel/multitasking/task.c`: which nodes it takes for directories. The page
directory of the new task is left out.
-/

namespace Hydrangea

open CString LinkedTree Vfs

namespace Sched

-----------------------------------------------------------------------------------------
-- Creating a task returns
-----------------------------------------------------------------------------------------

variable {s : Sched} {live : List Nat}

/-- The search of `gen_pid` ends at a free pid at the latest, by induction on its rounds. -/
theorem unusedPid_returns (chain : Linked.Chain s.next s.tasks live) {free : Nat}
    (unused : ∀ p ∈ live, (s.task p).pid ≠ free) {walk fuel pid : Nat}
    (walks : live.length ≤ walk) (before : pid ≤ free) (enough : free - pid < fuel)
    : ∃ r, s.unusedPid walk fuel pid = some r := by
  induction fuel generalizing pid with
  | zero => cases enough
  | succ fuel ih =>
      obtain ⟨r, searched⟩ : ∃ r, s.mtGetTaskByPid walk pid = some r :=
        Linked.find_returns chain walks
      rw [unusedPid, searched]
      cases r with
      | none => exact ⟨pid, rfl⟩
      | some p =>
          obtain ⟨member, same⟩ := (Linked.find_eq_some chain searched).1 p rfl
          have other : pid ≠ free := by
            rintro rfl
            exact unused p member (of_decide_eq_true same)
          exact ih (by omega) (by omega)

/-- `gen_pid` returns: the tasks are finitely many, and so are their pids. -/
theorem genPid_returns (chain : Linked.Chain s.next s.tasks live)
    : ∃ enough, ∀ fuel, enough ≤ fuel → ∃ pid, s.genPid fuel
        = some (pid, { s with pidCounter := pid + 1 }) := by
  obtain ⟨free, unused⟩ := Infinite.exists_notMem_finset (live.map (fun p => (s.task p).pid)).toFinset
  rw [List.mem_toFinset, List.mem_map] at unused
  refine ⟨live.length + free + 1, fun fuel enough => ?_⟩
  by_cases small : s.pidCounter ≤ maxPid
  · exact ⟨_, genPid_below fuel small⟩
  · obtain ⟨pid, chosen⟩ := unusedPid_returns chain
      (fun p member same => unused ⟨p, member, same⟩) (show live.length ≤ fuel by omega)
      (Nat.zero_le free) (show free - 0 < fuel by omega)
    refine ⟨pid, ?_⟩
    rw [genPid, if_pos (Nat.lt_of_not_le small), chosen]
    rfl

/-- `ktask_create` under a live parent returns the new task. -/
theorem ktaskCreate_returns (chain : Linked.Chain s.next s.tasks live) {ppid : Nat}
    (parent : ∃ p ∈ live, (s.task p).pid = ppid) (task : Nat)
    : ∃ enough, ∀ fuel, enough ≤ fuel → ∃ s', s.ktaskCreate fuel task ppid = some (some task, s') := by
  obtain ⟨enough, generates⟩ := genPid_returns chain
  refine ⟨max enough live.length, fun fuel more => ?_⟩
  obtain ⟨pid, generated⟩ := generates fuel (by omega)
  obtain ⟨r, searched⟩
      : ∃ r, mtGetTaskByPid fuel { s with pidCounter := pid + 1 } ppid = some r :=
    Linked.find_returns chain (by omega)
  have found : r ≠ none := by
    rintro rfl
    obtain ⟨p, member, same⟩ := parent
    have missed := (Linked.find_eq_some chain searched).2 rfl p member
    exact absurd same (of_decide_eq_false missed)
  rw [Sched.ktaskCreate, generated]
  simp only [Option.bind_eq_bind, Option.bind_some, searched, found, and_false, if_false]
  exact ⟨_, rfl⟩

/-- What `mt_spawn_utask` does with the task that `utask_create` returns. -/
def pushCreated (fuel : Nat) : Option Nat × Sched → Option Sched
  | (none, s) => some s
  | (some t, s) => s.mtPushTask fuel (some t)

end Sched

-----------------------------------------------------------------------------------------
-- Which nodes are taken for directories
-----------------------------------------------------------------------------------------

namespace VfsState

variable {α : Type}

/-- `utask_create`: the new task, or null. -/
def utaskCreate (fuel : Nat) (fs : VfsState α) (s : Sched) (kmalloc : Buffer256) (i : Option Nat)
    (task ppid : Nat) (path : List UInt8) : Option (Option Nat × Sched) := do
  let node ← vfsNodeFromPath fs.mem fs.vfsRoot kmalloc fuel i fs.vfsRoot path
  match node with
  | none => return (none, s)
  | some node =>
      if (fs.node node).file.permissions &&& vfsDir ≠ 0 then
        return (none, s)
      else
        s.ktaskCreate fuel task ppid

def IsDirectory (fs : VfsState α) (n : α) : Prop :=
  (fs.node n).file.type = vfsDir ∨ (fs.node n).file.type = vfsMtpt

/-- The permissions of a node, which is bit 0 of them, say whether it is a directory or a mount
point.
-/
def TellsDirectory (fs : VfsState α) (n : α) : Prop :=
  (fs.node n).file.permissions % 2 = 1 ↔ fs.IsDirectory n

/-- `utask_create` returns, and creates a task exactly if the path leads to a node that is neither a
directory nor a mount point.
-/
def CreatesTask (fs : VfsState α) (kids : α → List α) (s : Sched) (task ppid : Nat)
    (buffer path : List UInt8) : Prop :=
  ∃ enough, ∀ fuel, enough ≤ fuel → ∀ (kmalloc : Buffer256) (i : Option Nat),
    ∃ created s', fs.utaskCreate fuel s kmalloc i task ppid buffer = some (created, s')
      ∧ (created.isSome
        ↔ ∃ n, fs.lookup kids fs.vfsRoot path = some n ∧ ¬ fs.IsDirectory n)

variable {fs : VfsState α} {kids : α → List α} {s : Sched} {live : List Nat} {task ppid : Nat}
  {buffer path : List UInt8}

/-- The test of the permissions is one of bit 0. -/
theorem land_vfsDir (permissions : Nat) : permissions &&& vfsDir ≠ 0 ↔ permissions % 2 = 1 := by
  rw [vfsDir, Nat.and_one_is_mod]
  omega

/-- A path of more than 255 characters does not fit into its copy. -/
theorem vfsNodeFromPath_long (held : Holds buffer path) (long : 255 < path.length) (fs : VfsState α)
    (kmalloc : Buffer256) (fuel : Nat) (i : Option Nat) (r : α)
    : vfsNodeFromPath fs.mem fs.vfsRoot kmalloc fuel i r buffer = none := by
  rcases copied : strcpy kmalloc.val buffer with _ | ap
  · rw [vfsNodeFromPath, copied]
    rfl
  · have fits := length_lt_of_strcpy copied held
    rw [kmalloc.property] at fits
    omega

/-- `mt_spawn_utask` creates the task with `utask_create` and pushes it. -/
theorem mtSpawnUtask_eq {fuel : Nat} {kmalloc : Buffer256} {i : Option Nat} {node : Option α}
    (resolved : vfsNodeFromPath fs.mem fs.vfsRoot kmalloc fuel i fs.vfsRoot buffer = some node)
    : s.mtSpawnUtask fuel (node.any (fun n => (fs.node n).file.permissions % 2 ≠ 1)) task ppid
      = (fs.utaskCreate fuel s kmalloc i task ppid buffer).bind (Sched.pushCreated fuel) := by
  rw [utaskCreate, resolved, Option.bind_eq_bind, Option.bind_some, Sched.mtSpawnUtask]
  cases node with
  | none => rfl
  | some n =>
      dsimp only
      by_cases marked : (fs.node n).file.permissions % 2 = 1
      · rw [if_pos ((land_vfsDir _).mpr marked)]
        simp [marked, Sched.pushCreated]
      · rw [if_neg (mt (land_vfsDir _).mp marked)]
        simp only [ne_eq, marked, not_false_iff, decide_true, Option.any_some, Bool.not_true,
          Bool.false_eq_true, if_false]
        refine Option.bind_congr (fun r _ => ?_)
        obtain ⟨t, s'⟩ := r
        cases t <;> rfl

/-- `utask_create` for what the path of at most 255 characters leads to. -/
theorem utaskCreate_returns (tree : IsTree fs.links fs.vfsRoot kids) (named : Named fs kids)
    (held : Holds buffer path) (short : path.length ≤ 255)
    (chain : Linked.Chain s.next s.tasks live) {ppid : Nat}
    (parent : ∃ p ∈ live, (s.task p).pid = ppid) (task : Nat)
    : ∃ enough, ∀ fuel, enough ≤ fuel → ∀ (kmalloc : Buffer256) (i : Option Nat),
        ∃ created s', fs.utaskCreate fuel s kmalloc i task ppid buffer = some (created, s')
          ∧ (created.isSome
            ↔ ∃ n, fs.lookup kids fs.vfsRoot path = some n
              ∧ (fs.node n).file.permissions % 2 ≠ 1) := by
  obtain ⟨enough, resolves⟩ :=
    resolves_lookup tree named (show fs.Inside kids fs.vfsRoot from .refl) short
  obtain ⟨enough', creates⟩ := Sched.ktaskCreate_returns chain parent task
  refine ⟨max enough enough', fun fuel more kmalloc i => ?_⟩
  have resolved := resolves fuel (by omega) kmalloc i buffer held
  obtain ⟨s', created⟩ := creates fuel (by omega)
  rw [utaskCreate, resolved, Option.bind_eq_bind, Option.bind_some]
  cases fs.lookup kids fs.vfsRoot path with
  | none => exact ⟨none, s, rfl, by simp⟩
  | some n =>
      dsimp only
      by_cases marked : (fs.node n).file.permissions % 2 = 1
      · rw [if_pos ((land_vfsDir _).mpr marked)]
        exact ⟨none, s, rfl, by simp [marked]⟩
      · rw [if_neg (mt (land_vfsDir _).mp marked)]
        exact ⟨some task, s', created, by simpa using marked⟩

/-- Where `utask_create` does what it should, the path is short and leads to a node with the right
permissions, if to any.
-/
theorem CreatesTask.tells (creates : fs.CreatesTask kids s task ppid buffer path)
    (tree : IsTree fs.links fs.vfsRoot kids) (named : Named fs kids)
    (held : Holds buffer path) (chain : Linked.Chain s.next s.tasks live)
    (parent : ∃ p ∈ live, (s.task p).pid = ppid)
    : path.length ≤ 255 ∧ ∀ n, fs.lookup kids fs.vfsRoot path = some n → fs.TellsDirectory n := by
  obtain ⟨enough, creates⟩ := creates
  have short : path.length ≤ 255 := by
    by_contra long
    obtain ⟨created, s', returned, -⟩ := creates enough le_rfl zeros none
    rw [utaskCreate, vfsNodeFromPath_long held (by omega)] at returned
    cases returned
  refine ⟨short, fun n leads => ?_⟩
  obtain ⟨enough', creates'⟩ := utaskCreate_returns tree named held short chain parent task
  obtain ⟨created, s', returned, wanted⟩ := creates (max enough enough') (by omega) zeros none
  obtain ⟨created', s'', returned', actual⟩ := creates' (max enough enough') (by omega) zeros none
  rw [returned] at returned'
  obtain ⟨rfl, -⟩ := Prod.mk.inj (Option.some.inj returned')
  have both := wanted.symm.trans actual
  simp only [leads, Option.some.injEq, exists_eq_left'] at both
  exact not_iff_not.mp both.symm

/-- `utask_create` does so exactly for a path of at most 255 characters that leads to no node or to
one whose permissions say whether it is a directory or a mount point. The test for a directory
reads the permissions of the file instead of its type, so it is right for the nodes on which both
agree.
-/
theorem createsTask_iff (tree : IsTree fs.links fs.vfsRoot kids) (named : Named fs kids)
    (held : Holds buffer path) (chain : Linked.Chain s.next s.tasks live) (task : Nat) {ppid : Nat}
    (parent : ∃ p ∈ live, (s.task p).pid = ppid)
    : fs.CreatesTask kids s task ppid buffer path
      ↔ path.length ≤ 255
        ∧ ∀ n, fs.lookup kids fs.vfsRoot path = some n → fs.TellsDirectory n := by
  refine ⟨fun creates => creates.tells tree named held chain parent, ?_⟩
  rintro ⟨short, tells⟩
  obtain ⟨enough, creates⟩ := utaskCreate_returns tree named held short chain parent task
  refine ⟨enough, fun fuel more kmalloc i => ?_⟩
  obtain ⟨created, s', returned, actual⟩ := creates fuel more kmalloc i
  refine ⟨created, s', returned, actual.trans ?_⟩
  exact exists_congr (fun n => and_congr_right (fun leads => not_congr (tells n leads)))

/-- The tasks with `kernel_idle` only, which has pid 0. -/
def kernelIdleOnly : Sched where
  task _ :=
    { pid := 0, ppid := 0, timeSlice := 1, timeRemaining := 1, next := none, prev := none,
      state := .run }
  mtEnabled := true
  tasks := some 0x1000
  tasksCount := 1
  curTask := some 0x1000
  fgTask := none
  terminatedTasks := none
  pidCounter := 1

def homeFilePath : List UInt8 :=
  [slash, 0x68, slash, 0x79]

/-- There, for a file without permissions. -/
theorem createsTask_home
    : homeState.CreatesTask homeChilds kernelIdleOnly 0x2000 0 (homeFilePath ++ [0]) homeFilePath
      ↔ homeFilePath.length ≤ 255
        ∧ ∀ n, homeState.lookup homeChilds homeState.vfsRoot homeFilePath = some n
          → homeState.TellsDirectory n :=
  createsTask_iff isTree_homeState named_homeState (by decide)
    (show Linked.Chain kernelIdleOnly.next kernelIdleOnly.tasks [0x1000] from ⟨rfl, rfl⟩) 0x2000
    ⟨0x1000, List.mem_singleton_self _, rfl⟩

/-- The same nodes, with the permissions `rwxr-xr-x` that an executable file has on a disk. -/
def executableState : VfsState (Fin 3) :=
  { homeState with
    node := fun n =>
      { homeState.node n with file := { (homeState.node n).file with permissions := 0x81ED } } }

/-- `utask_create` rejects the executable file. -/
theorem not_createsTask_executable
    : ¬ executableState.CreatesTask homeChilds kernelIdleOnly 0x2000 0 (homeFilePath ++ [0])
        homeFilePath := by
  intro creates
  have tree : IsTree executableState.links executableState.vfsRoot homeChilds := isTree_homeState
  have named : Named executableState homeChilds := named_homeState
  have tells := creates.tells tree named (by decide)
    (show Linked.Chain kernelIdleOnly.next kernelIdleOnly.tasks [0x1000] from ⟨rfl, rfl⟩)
    ⟨0x1000, List.mem_singleton_self _, rfl⟩
  have leads : executableState.lookup homeChilds executableState.vfsRoot homeFilePath
      = some homeFile := by
    decide +kernel
  have directory := (tells.2 homeFile leads).mp rfl
  revert directory
  simp [IsDirectory, executableState, homeState, vfsFile, vfsDir, vfsMtpt]

-----------------------------------------------------------------------------------------
-- The permissions of new nodes
-----------------------------------------------------------------------------------------

/-- The permissions that `vfs_create_node` sets say which nodes are directories, but not which are
mount points.
-/
theorem newPermissions_odd (type : Nat) : newPermissions type % 2 = 1 ↔ type = vfsDir := by
  rw [newPermissions]
  split <;> simp_all

variable [DecidableEq α] {fs' : VfsState α} {p c : α}

/-- A node that `vfs_add_child` adds has the right permissions unless it is a mount point. -/
theorem Adds.tells {block : NodeBlock α} {name : List UInt8} {type : Nat}
    (adds : Adds fs fs' kids p block name type)
    : fs'.TellsDirectory block.addr ↔ type ≠ vfsMtpt := by
  have file := adds.file
  rw [TellsDirectory, IsDirectory, file, newPermissions_odd]
  constructor
  · rintro tells rfl
    exact absurd (tells.mpr (.inr rfl)) (by decide)
  · intro other
    exact ⟨.inl, fun either => either.resolve_right other⟩

/-- No entry of an ext2 directory is a mount point. -/
theorem ext2TypeTranslate_ne (type : Nat) : ext2TypeTranslate type ≠ vfsMtpt := by
  unfold ext2TypeTranslate
  split <;> decide

/-- A node that `vfs_ext2_populate` adds for an entry of a directory has the right permissions
exactly if bit 0 of them on the disk says whether it is a directory.
-/
theorem addEntry_tells (tree : IsTree fs.links fs.vfsRoot kids) (here : fs.Inside kids p)
    {entry : Dirent} {nodes rest : List (NodeBlock α)} (fresh : Fresh fs kids nodes) {fuel : Nat}
    (added : fs.addEntry fuel p entry nodes = some (c, fs', rest))
    : fs'.TellsDirectory c
      ↔ (entry.permissions % 2 = 1 ↔ ext2TypeTranslate entry.type = vfsDir) := by
  obtain ⟨⟨n, fs₁, nodes₁⟩, called, result⟩ := Option.bind_eq_some_iff.mp added
  obtain ⟨rfl, states⟩ := Prod.mk.inj (Option.some.inj result)
  obtain ⟨rfl, rfl⟩ := Prod.mk.inj states
  obtain ⟨block, rfl, rfl, adds⟩ := addNext_adds tree here fresh called
  have file : ((fs₁.setFile block.addr (fun file =>
        { file with
          permissions := entry.permissions
          inode := entry.inodeNumber
          size := entry.size })).node block.addr).file
      = { (fs₁.node block.addr).file with
          permissions := entry.permissions
          inode := entry.inodeNumber
          size := entry.size } := by
    rw [setFile, setNode_node, if_pos rfl]
  rw [TellsDirectory, IsDirectory, file, adds.file]
  simp only [ext2TypeTranslate_ne, or_false]

end VfsState

end Hydrangea
