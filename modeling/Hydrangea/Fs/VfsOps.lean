import Hydrangea.Fs.VfsMount

/-! The functions of `kernel/fs/vfs.c` that call the functions of a file, and what the creators of
nodes make of the function pointers of a file, whose block of `kmalloc` nobody clears.
-/

namespace Hydrangea

open VfsState

-----------------------------------------------------------------------------------------
-- Calling the functions of a file
-----------------------------------------------------------------------------------------

/-- `vfs_file_t`, but for its name and `ptr`. A pointer to a function is an address, NULL is 0. -/
structure FileBlock extends VfsFile where
  uid : Nat
  gid : Nat
  fs : Nat
  read : Nat
  write : Nat
  «open» : Nat
  close : Nat
  readdir : Nat
  finddir : Nat

/-- What `vfs_read` and the others do: they call a function, or return 0. -/
inductive Dispatch where
  | call (function : Nat) (args : List Nat)
  | zero

/-- `if (function) return function(args); return 0;` -/
def dispatch (function : Nat) (args : List Nat) : Dispatch :=
  if function ≠ 0 then .call function args else .zero

namespace FileBlock

/-- `vfs_read` of the file at an address. -/
def vfsRead (f : FileBlock) (file offset size buffer : Nat) : Dispatch :=
  dispatch f.read [file, offset, size, buffer]

def vfsWrite (f : FileBlock) (file offset size buffer : Nat) : Dispatch :=
  dispatch f.write [file, offset, size, buffer]

/-- `vfs_open`, which does not pass on what it is called for. -/
def vfsOpen (f : FileBlock) (file _read _write : Nat) : Dispatch :=
  dispatch f.open [file]

def vfsClose (f : FileBlock) (file : Nat) : Dispatch :=
  dispatch f.close [file]

def vfsReaddir (f : FileBlock) (file index : Nat) : Dispatch :=
  dispatch f.readdir [file, index]

def vfsFinddir (f : FileBlock) (file name : Nat) : Dispatch :=
  dispatch f.finddir [file, name]

end FileBlock

inductive VfsOp where
  | read
  | write
  | open'
  | close
  | readdir
  | finddir

inductive VfsCall where
  | read (offset size buffer : Nat)
  | write (offset size buffer : Nat)
  | open' (forReading forWriting : Nat)
  | close
  | readdir (index : Nat)
  | finddir (name : Nat)

def VfsCall.op : VfsCall → VfsOp
  | .read .. => .read
  | .write .. => .write
  | .open' .. => .open'
  | .close => .close
  | .readdir _ => .readdir
  | .finddir _ => .finddir

def VfsCall.run (f : FileBlock) (file : Nat) : VfsCall → Dispatch
  | .read offset size buffer => f.vfsRead file offset size buffer
  | .write offset size buffer => f.vfsWrite file offset size buffer
  | .open' forReading forWriting => f.vfsOpen file forReading forWriting
  | .close => f.vfsClose file
  | .readdir index => f.vfsReaddir file index
  | .finddir name => f.vfsFinddir file name

-----------------------------------------------------------------------------------------
-- Creating files
-----------------------------------------------------------------------------------------

/-- The functions of the kernel that creators install. -/
inductive KernelFunction where
  | tmpfsVfsRead
  | tmpfsVfsWrite
  | initrdRead
  | ext2VfsRead
  | consoleWrite
  | serialRead
  | serialWrite
  | rbVfsRead
  | rbVfsWrite

/-- Where the functions of the kernel are. None of them is at NULL. -/
abbrev Symbols := KernelFunction → { a : Nat // a ≠ 0 }

/-- `devfs_node_t`, but for its name. -/
structure DevfsNode where
  type : Nat
  «open» : Nat
  read : Nat
  write : Nat
  close : Nat
  deviceSpecific : Nat

namespace FileBlock

/-- The file that `vfs_create_node` makes of what its block held. -/
def vfsCreateNode (junk : FileBlock) (type : Nat) : FileBlock :=
  { junk with toVfsFile := newFile junk.toVfsFile type }

def tmpfsCreate (at' : Symbols) (junk : FileBlock) (type : Nat) : FileBlock :=
  { junk.vfsCreateNode type with
    inode := 0
    read := at' .tmpfsVfsRead
    write := at' .tmpfsVfsWrite }

/-- `tar_parse`, through `vfs_make_node`. -/
def tarParse (at' : Symbols) (junk : FileBlock) (type inode size : Nat) : FileBlock :=
  { junk.vfsCreateNode type with type, inode, read := at' .initrdRead, size }

def vfsExt2Populate (at' : Symbols) (junk : FileBlock) (type permissions fs inode size : Nat)
    : FileBlock :=
  { junk.vfsCreateNode type with permissions, fs, inode, read := at' .ext2VfsRead, size }

def devfsRegisterDev (junk : FileBlock) (dev : DevfsNode) : FileBlock :=
  { junk.vfsCreateNode dev.type with
    «open» := dev.open
    read := dev.read
    write := dev.write
    close := dev.close
    inode := dev.deviceSpecific }

def rbNode (at' : Symbols) (junk : FileBlock) (rb : Nat) : FileBlock :=
  { junk.vfsCreateNode vfsPipe with
    read := at' .rbVfsRead
    write := at' .rbVfsWrite
    inode := rb }

end FileBlock

/-- The device that `console_init` registers, in a block that held `junk`. -/
def consoleDev (at' : Symbols) (junk : DevfsNode) : DevfsNode :=
  { junk with type := vfsCdev, read := 0, write := at' .consoleWrite }

/-- The device that `serial_init` registers for a port. -/
def serialDev (at' : Symbols) (junk : DevfsNode) (p : Nat) : DevfsNode :=
  { junk with
    type := vfsCdev
    read := at' .serialRead
    write := at' .serialWrite
    deviceSpecific := p }

/-- `rb_node`, with the block for the node: the node, which is a child of none. -/
def VfsState.rbNode {α : Type} [DecidableEq α] (s : VfsState α) (rb : Nat) (block : NodeBlock α)
    : Option (α × VfsState α) := do
  let s ← s.vfsCreateNode block [0] vfsPipe
  return (block.addr, s.setFile block.addr (fun file => { file with inode := rb }))

/-- The ways in which a node is created. `dev` is what the block for a device held. -/
inductive Creator where
  | vfsAddChild (type : Nat)
  | tmpfsCreate (type : Nat)
  | tarParse (type inode size : Nat)
  | vfsExt2Populate (type permissions fs inode size : Nat)
  | consoleInit (dev : DevfsNode)
  | serialInit (dev : DevfsNode) (p : Nat)
  | rbNode (rb : Nat)

namespace Creator

def file (at' : Symbols) (junk : FileBlock) : Creator → FileBlock
  | .vfsAddChild type => junk.vfsCreateNode type
  | .tmpfsCreate type => junk.tmpfsCreate at' type
  | .tarParse type inode size => junk.tarParse at' type inode size
  | .vfsExt2Populate type permissions fs inode size =>
      junk.vfsExt2Populate at' type permissions fs inode size
  | .consoleInit dev => junk.devfsRegisterDev (consoleDev at' dev)
  | .serialInit dev p => junk.devfsRegisterDev (serialDev at' dev p)
  | .rbNode rb => junk.rbNode at' rb

-----------------------------------------------------------------------------------------
-- The property
-----------------------------------------------------------------------------------------

def installed : Creator → VfsOp → Option KernelFunction
  | .tmpfsCreate _, .read => some .tmpfsVfsRead
  | .tmpfsCreate _, .write => some .tmpfsVfsWrite
  | .tarParse .., .read => some .initrdRead
  | .vfsExt2Populate .., .read => some .ext2VfsRead
  | .consoleInit _, .write => some .consoleWrite
  | .serialInit .., .read => some .serialRead
  | .serialInit .., .write => some .serialWrite
  | .rbNode _, .read => some .rbVfsRead
  | .rbNode _, .write => some .rbVfsWrite
  | _, _ => none

def Sized : Creator → Prop
  | .tarParse .. | .vfsExt2Populate .. => True
  | _ => False

/-- Every call on the node calls a function that its creator has installed for the operation, or
returns 0, and without a size from the creator it has size 0.
-/
structure Behaves (at' : Symbols) (c : Creator) (junk : FileBlock) : Prop where
  calls : ∀ (call : VfsCall) (file function : Nat) (args : List Nat),
    call.run (c.file at' junk) file = .call function args
      → ∃ f ∈ c.installed call.op, function = at' f
  size : ¬ c.Sized → (c.file at' junk).size = 0

/-- What the creator leaves in the function pointers and, if it gives none, in the size: the words
that the blocks held there.
-/
def left (junk : FileBlock) : Creator → List Nat
  | .vfsAddChild _ =>
      [junk.read, junk.write, junk.open, junk.close, junk.readdir, junk.finddir, junk.size]
  | .tmpfsCreate _ => [junk.open, junk.close, junk.readdir, junk.finddir, junk.size]
  | .tarParse .. => [junk.write, junk.open, junk.close, junk.readdir, junk.finddir]
  | .vfsExt2Populate .. => [junk.write, junk.open, junk.close, junk.readdir, junk.finddir]
  | .consoleInit dev => [dev.open, dev.close, junk.readdir, junk.finddir, junk.size]
  | .serialInit dev _ => [dev.open, dev.close, junk.readdir, junk.finddir, junk.size]
  | .rbNode _ => [junk.open, junk.close, junk.readdir, junk.finddir, junk.size]

end Creator

-----------------------------------------------------------------------------------------
-- Which functions are called
-----------------------------------------------------------------------------------------

def FileBlock.pointer (f : FileBlock) : VfsOp → Nat
  | .read => f.read
  | .write => f.write
  | .open' => f.open
  | .close => f.close
  | .readdir => f.readdir
  | .finddir => f.finddir

/-- All calls of the functions that an operation has, or only one of them, go through its pointer.
-/
theorem VfsCall.run_eq (f : FileBlock) (file : Nat) (call : VfsCall)
    : ∃ args, call.run f file = dispatch (f.pointer call.op) args := by
  cases call with
  | read offset size buffer => exact ⟨[file, offset, size, buffer], rfl⟩
  | write offset size buffer => exact ⟨[file, offset, size, buffer], rfl⟩
  | open' forReading forWriting => exact ⟨[file], rfl⟩
  | close => exact ⟨[file], rfl⟩
  | readdir index => exact ⟨[file, index], rfl⟩
  | finddir name => exact ⟨[file, name], rfl⟩

theorem VfsCall.exists_op (op : VfsOp)
    : ∃ call : VfsCall, call.op = op := by
  cases op with
  | read => exact ⟨.read 0 0 0, rfl⟩
  | write => exact ⟨.write 0 0 0, rfl⟩
  | open' => exact ⟨.open' 0 0, rfl⟩
  | close => exact ⟨.close, rfl⟩
  | readdir => exact ⟨.readdir 0, rfl⟩
  | finddir => exact ⟨.finddir 0, rfl⟩

theorem dispatch_eq_call {function f : Nat} {args args' : List Nat}
    : dispatch function args = .call f args' ↔ function ≠ 0 ∧ f = function ∧ args' = args := by
  rw [dispatch]
  split
  · next some =>
      rw [Dispatch.call.injEq]
      exact ⟨fun same => ⟨some, same.1.symm, same.2.symm⟩, fun same => ⟨same.2.1.symm, same.2.2.symm⟩⟩
  · next none => exact ⟨fun same => (nomatch same), fun same => absurd same.1 none⟩

/-- Only given functions are called exactly if every pointer is NULL or the one that is given. -/
theorem FileBlock.calls_iff (f : FileBlock) (given : VfsOp → Nat → Prop)
    : (∀ (call : VfsCall) (file function : Nat) (args : List Nat),
        call.run f file = .call function args → given call.op function)
      ↔ ∀ op, f.pointer op = 0 ∨ given op (f.pointer op) := by
  constructor
  · intro calls op
    obtain ⟨call, rfl⟩ := VfsCall.exists_op op
    obtain ⟨args, run⟩ := call.run_eq f 0
    by_cases null : f.pointer call.op = 0
    · exact .inl null
    · refine .inr (calls call 0 _ args ?_)
      rw [run]
      exact dispatch_eq_call.mpr ⟨null, rfl, rfl⟩
  · intro pointers call file function args called
    obtain ⟨args', run⟩ := call.run_eq f file
    rw [run] at called
    obtain ⟨notNull, rfl, -⟩ := dispatch_eq_call.mp called
    exact (pointers call.op).resolve_left notNull

/-- A statement about all operations is one about each. -/
theorem VfsOp.forall_iff {p : VfsOp → Prop}
    : (∀ op, p op) ↔ p .read ∧ p .write ∧ p .open' ∧ p .close ∧ p .readdir ∧ p .finddir := by
  constructor
  · exact fun all => ⟨all _, all _, all _, all _, all _, all _⟩
  · rintro ⟨read, write, opens, close, readdir, finddir⟩ op
    cases op with
    | read => exact read
    | write => exact write
    | open' => exact opens
    | close => exact close
    | readdir => exact readdir
    | finddir => exact finddir

/-- A node calls only what its creator has installed, and has no size that its creator has not
given, exactly if everything that the creator leaves as it was is zero. What a creator leaves as it
was is listed for each of them, and a word that is not zero there is a pointer to call or a size.
-/
theorem Creator.behaves_iff (at' : Symbols) (c : Creator) (junk : FileBlock)
    : Behaves at' c junk ↔ ∀ v ∈ c.left junk, v = 0 := by
  have parts : Behaves at' c junk
      ↔ (∀ op, (c.file at' junk).pointer op = 0
          ∨ ∃ f ∈ c.installed op, (c.file at' junk).pointer op = at' f)
        ∧ (¬ c.Sized → (c.file at' junk).size = 0) := by
    rw [← FileBlock.calls_iff _ (fun op function => ∃ f ∈ c.installed op, function = at' f)]
    exact ⟨fun behaves => ⟨behaves.calls, behaves.size⟩, fun both => ⟨both.1, both.2⟩⟩
  rw [parts, VfsOp.forall_iff]
  cases c <;>
    simp [Creator.file, Creator.installed, Creator.left, Creator.Sized, FileBlock.pointer,
      FileBlock.vfsCreateNode, FileBlock.tmpfsCreate, FileBlock.tarParse, FileBlock.vfsExt2Populate,
      FileBlock.devfsRegisterDev, FileBlock.rbNode, consoleDev, serialDev, newFile, and_assoc]

/-- A file block of a node that `vfs_add_child` has just made, in memory that held an old
`readdir`.
-/
def recycled : FileBlock where
  type := 0
  permissions := 0
  inode := 0
  size := 0
  uid := 0
  gid := 0
  fs := 0
  read := 0
  write := 0
  «open» := 0
  close := 0
  readdir := 0xDEADBEEF
  finddir := 0

/-- `vfs_readdir` of the directory calls what the memory held. -/
theorem Creator.not_behaves_recycled
    : ¬ Behaves (fun _ => ⟨0x100000, by decide⟩) (.vfsAddChild vfsDir) recycled := by
  intro behaves
  obtain ⟨f, none, -⟩ := behaves.calls (.readdir 0) 0x2000 0xDEADBEEF [0x2000, 0] rfl
  cases none

-----------------------------------------------------------------------------------------
-- The nodes that the creators make
-----------------------------------------------------------------------------------------

section nodes

variable {α : Type} [DecidableEq α] {s s' : VfsState α} {p : α} {fuel : Nat} {junk : FileBlock}

theorem vfsAddChild_creates (at' : Symbols) {block : NodeBlock α} {name : List UInt8} {type : Nat}
    {r : Option α} (added : s.vfsAddChild fuel (some p) name type block = some (r, s'))
    (held : junk.toVfsFile = block.contents.file)
    : (s'.node block.addr).file = ((Creator.vfsAddChild type).file at' junk).toVfsFile := by
  rw [(vfsAddChild_file added).2, ← held]
  rfl

theorem tmpfsCreate_creates (at' : Symbols) {type : Nat} {i : Option Nat} {kmalloc : Buffer256}
    {before : UInt8} {path : List UInt8} {block : NodeBlock α} {blocks : List (NodeBlock α)}
    (made : s.tmpfsCreate fuel kmalloc i before path type (block :: blocks) = some (0, s', blocks))
    (held : junk.toVfsFile = block.contents.file)
    : (s'.node block.addr).file = ((Creator.tmpfsCreate type).file at' junk).toVfsFile := by
  obtain ⟨block', same, file⟩ := tmpfsCreate_file made
  obtain rfl := List.head_eq_of_cons_eq same
  rw [file, ← held]
  rfl

theorem devfsRegisterDev_creates {name : List UInt8} {dev : DevfsNode} {block : NodeBlock α}
    {blocks : List (NodeBlock α)}
    (made : s.devfsRegisterDev fuel name dev.type dev.deviceSpecific (block :: blocks)
      = some (0, s', blocks))
    (held : junk.toVfsFile = block.contents.file)
    : (s'.node block.addr).file = (junk.devfsRegisterDev dev).toVfsFile := by
  rw [VfsState.devfsRegisterDev] at made
  split at made
  · cases made
  · split at made
    · cases made
    · obtain ⟨block', same, file⟩ := createFile_file made
      obtain rfl := List.head_eq_of_cons_eq same
      rw [file, ← held]
      rfl

/-- The node of an entry in `vfs_ext2_populate`. -/
theorem addEntry_creates (at' : Symbols) {root n : α} {entry : Dirent} (fs : Nat)
    {block : NodeBlock α} {blocks : List (NodeBlock α)}
    (made : s.addEntry fuel root entry (block :: blocks) = some (n, s', blocks))
    (held : junk.toVfsFile = block.contents.file)
    : (s'.node n).file
      = ((Creator.vfsExt2Populate (ext2TypeTranslate entry.type) entry.permissions fs
          entry.inodeNumber entry.size).file at' junk).toVfsFile := by
  obtain ⟨⟨child, s₁, rest⟩, added, made⟩ := Option.bind_eq_some_iff.mp made
  obtain ⟨rfl, same⟩ := Prod.mk.inj (Option.some.inj made)
  obtain ⟨rfl, rfl⟩ := Prod.mk.inj same
  obtain ⟨⟨r, s₂⟩, called, added⟩ := Option.bind_eq_some_iff.mp added
  obtain ⟨c, isChild, ends⟩ := Option.bind_eq_some_iff.mp added
  obtain ⟨rfl, after⟩ := Prod.mk.inj (Option.some.inj ends)
  obtain ⟨rfl, -⟩ := Prod.mk.inj after
  obtain ⟨rfl, file⟩ := vfsAddChild_file called
  obtain rfl := Option.some.inj isChild
  rw [setFile, setNode_node, if_pos rfl, file, ← held]
  rfl

/-- Freeing nodes leaves the files of others as they are, and those of the blocks too, by induction
on the fuel.
-/
theorem freeNodes_files {q : Option α} (freed : s.freeNodes fuel q = some s') (n : α)
    : (s'.node n).file = (s.node n).file := by
  induction fuel generalizing s s' q with
  | zero =>
      cases q with
      | none => rw [← Option.some.inj freed]
      | some q => cases freed
  | succ fuel ih =>
      cases q with
      | none => rw [← Option.some.inj freed]
      | some q =>
          obtain ⟨s₁, childs, next⟩ := Option.bind_eq_some_iff.mp freed
          rw [ih next, setChilds_file, ih childs]

/-- The loop of `vfs_make_node` makes a file of each block that it takes, and changes no other. By
induction on the fuel.
-/
theorem makeTokens_files {type : Nat} {node c : α} {token i : Option Nat} {ap : List UInt8}
    {blocks rest : List (NodeBlock α)} (nodup : (blocks.map NodeBlock.addr).Nodup)
    (looped : s.makeTokens type fuel node token i ap blocks = some (c, s', rest))
    : ∃ used, blocks = used ++ rest
        ∧ (∀ block ∈ used, (s'.node block.addr).file = newFile block.contents.file type)
        ∧ ∀ n, n ∉ used.map NodeBlock.addr → (s'.node n).file = (s.node n).file := by
  induction fuel generalizing s node token i ap blocks with
  | zero => cases looped
  | succ fuel ih =>
      cases token with
      | none =>
          obtain ⟨-, same⟩ := Prod.mk.inj (Option.some.inj looped)
          obtain ⟨rfl, rfl⟩ := Prod.mk.inj same
          exact ⟨[], rfl, by simp, fun _ _ => rfl⟩
      | some token =>
          obtain ⟨found, -, looped⟩ := Option.bind_eq_some_iff.mp looped
          obtain ⟨⟨child, s₁, blocks₁⟩, step, looped⟩ := Option.bind_eq_some_iff.mp looped
          obtain ⟨⟨token', i', ap'⟩, -, looped⟩ := Option.bind_eq_some_iff.mp looped
          cases found with
          | some found =>
              obtain ⟨-, same⟩ := Prod.mk.inj (Option.some.inj step)
              obtain ⟨rfl, rfl⟩ := Prod.mk.inj same
              exact ih nodup looped
          | none =>
              cases blocks with
              | nil => cases step
              | cons block blocks =>
                  obtain ⟨⟨r, s₂⟩, called, ends⟩ := Option.bind_eq_some_iff.mp step
                  obtain ⟨child', -, ends⟩ := Option.bind_eq_some_iff.mp ends
                  obtain ⟨-, after⟩ := Prod.mk.inj (Option.some.inj ends)
                  obtain ⟨rfl, rfl⟩ := Prod.mk.inj after
                  obtain ⟨-, files⟩ := vfsAddChild_files called
                  obtain ⟨here, nodup'⟩ := List.nodup_cons.mp nodup
                  obtain ⟨used, rfl, made, kept⟩ := ih nodup' looped
                  have away : block.addr ∉ used.map NodeBlock.addr := fun member =>
                    here (by rw [List.map_append]; exact List.mem_append_left _ member)
                  refine ⟨block :: used, rfl, ?_, fun n other => ?_⟩
                  · refine List.forall_mem_cons.mpr ⟨?_, made⟩
                    rw [kept _ away, files, if_pos rfl]
                  · rw [List.map_cons, List.mem_cons, not_or] at other
                    rw [kept n other.2, files, if_neg other.1]

/-- The node that `tar_parse` gets for an entry, if `vfs_make_node` has made it, and sets the size
of.
-/
theorem tarParse_creates (at' : Symbols) {type inode : Nat} {n root : α} {i : Option Nat}
    {kmalloc : Buffer256} {path : List UInt8} {blocks rest : List (NodeBlock α)}
    (nodup : (blocks.map NodeBlock.addr).Nodup)
    (made : s.vfsMakeNode fuel kmalloc i root path type inode blocks = some (n, s', rest))
    (size : Nat)
    : ∃ used, blocks = used ++ rest
        ∧ ∀ block ∈ used, block.addr = n → junk.toVfsFile = block.contents.file →
          ((s'.setFile n (fun file => { file with size })).node n).file
            = ((Creator.tarParse type inode size).file at' junk).toVfsFile := by
  obtain ⟨ap, -, made⟩ := Option.bind_eq_some_iff.mp made
  obtain ⟨⟨token, i', ap'⟩, -, made⟩ := Option.bind_eq_some_iff.mp made
  obtain ⟨⟨node, s₁, blocks₁⟩, looped, ends⟩ := Option.bind_eq_some_iff.mp made
  obtain ⟨used, rfl, files, -⟩ := makeTokens_files nodup looped
  have last : node = n ∧ blocks₁ = rest
      ∧ (s'.node n).file = { (s₁.node n).file with type, inode } := by
    have stored (file : VfsFile → VfsFile)
        : ((s₁.setFile node file).node node).file = file (s₁.node node).file := by
      rw [setFile, setNode_node, if_pos rfl]
    dsimp only at ends
    split at ends
    · obtain ⟨s₂, freed, ends⟩ := Option.bind_eq_some_iff.mp ends
      obtain ⟨rfl, after⟩ := Prod.mk.inj (Option.some.inj ends)
      obtain ⟨rfl, rfl⟩ := Prod.mk.inj after
      obtain ⟨s₃, freed, kept⟩ := Option.bind_eq_some_iff.mp freed
      refine ⟨rfl, rfl, ?_⟩
      rw [← Option.some.inj kept, setChilds_file, freeNodes_files freed, stored]
    · obtain ⟨rfl, after⟩ := Prod.mk.inj (Option.some.inj ends)
      obtain ⟨rfl, rfl⟩ := Prod.mk.inj after
      exact ⟨rfl, rfl, stored _⟩
  obtain ⟨rfl, rfl, file⟩ := last
  refine ⟨used, rfl, fun block member same held => ?_⟩
  subst same
  rw [setFile, setNode_node, if_pos rfl, file, files block member, ← held]
  rfl

theorem rbNode_creates (at' : Symbols) {n : α} {rb : Nat} {block : NodeBlock α}
    (made : s.rbNode rb block = some (n, s')) (held : junk.toVfsFile = block.contents.file)
    : (s'.node n).file = ((Creator.rbNode rb).file at' junk).toVfsFile := by
  obtain ⟨s₁, created, ends⟩ := Option.bind_eq_some_iff.mp made
  obtain ⟨stored, -, rfl⟩ := vfsCreateNode_eq created
  obtain ⟨rfl, rfl⟩ := Prod.mk.inj (Option.some.inj ends)
  rw [setFile, setNode_node, if_pos rfl, setNode_node, if_pos rfl, ← held]
  rfl

end nodes

end Hydrangea
