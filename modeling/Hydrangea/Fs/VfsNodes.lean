import Hydrangea.Fs.Vfs
import Hydrangea.Lib.Linked

/-! The functions of `kernel/fs/vfs.c`, `kernel/fs/tmpfs/tmpfs.c` and `kernel/fs/devfs/devfs.c`
that create and free nodes. `none` is a call that does not return. `kmalloc` gives the blocks for
nodes, with whatever they hold, and `kfree` changes nothing.
-/

namespace Hydrangea

/-- The fields of `vfs_file_t`, but for the name, the owner and the functions of the file system. -/
structure VfsFile where
  type : Nat
  permissions : Nat
  inode : Nat
  size : Nat
  deriving DecidableEq

/-- `vfs_node_t`, with the `vfs_file_t` that it points to. -/
structure VfsEntry (α : Type) extends VfsNode α where
  prev : Option α
  file : VfsFile

/-- A block of `kmalloc` for a node, what it and the block for its file hold, and the block for its
name.
-/
structure NodeBlock (α : Type) where
  addr : α
  contents : VfsEntry α
  name : Buffer256

/-- The nodes in memory and the static variables `vfs_root`, `tmpfs_root` and `devfs_root`. -/
structure VfsState (α : Type) where
  node : α → VfsEntry α
  vfsRoot : α
  tmpfsRoot : Option α
  devfsRoot : Option α

namespace VfsState

open Vfs

def vfsFile : Nat := 0

def vfsDir : Nat := 1

def vfsCdev : Nat := 2

def vfsBdev : Nat := 3

def vfsMtpt : Nat := 6

/-- The permissions that `vfs_create_node` sets: `(VFS_DIR << 14)` and `X` for all on a directory,
and `R` for all and `W` for the user.
-/
def newPermissions (type : Nat) : Nat :=
  (if type = vfsDir then 0x4049 else 0) ||| 0x1A4

variable {α : Type} [DecidableEq α]

def mem (s : VfsState α) (n : α) : VfsNode α :=
  (s.node n).toVfsNode

def setNode (s : VfsState α) (n : α) (entry : VfsEntry α) : VfsState α :=
  { s with node := Function.update s.node n entry }

/-- `n->parent = parent`. -/
def setParent (s : VfsState α) (n : α) (parent : Option α) : VfsState α :=
  s.setNode n { s.node n with parent }

/-- `n->childs = childs`. -/
def setChilds (s : VfsState α) (n : α) (childs : Option α) : VfsState α :=
  s.setNode n { s.node n with childs }

def setNext (s : VfsState α) (n : α) (next : Option α) : VfsState α :=
  s.setNode n { s.node n with next }

/-- `n->prev = prev`. -/
def setPrev (s : VfsState α) (n : α) (prev : Option α) : VfsState α :=
  s.setNode n { s.node n with prev }

/-- Assign to fields of `n->file`. -/
def setFile (s : VfsState α) (n : α) (f : VfsFile → VfsFile) : VfsState α :=
  s.setNode n { s.node n with file := f (s.node n).file }

/-- `vfs_create_node`. Its `memset` clears the pointer to the name only. -/
def vfsCreateNode (s : VfsState α) (block : NodeBlock α) (name : List UInt8) (type : Nat)
    : Option (VfsState α) := do
  let name ← strcpy block.name name
  let file := { block.contents.file with type, permissions := newPermissions type }
  return s.setNode block.addr { block.contents with name, childs := none, next := none, file }

/-- `vfs_add_child`: the new node, or null. -/
def vfsAddChild (fuel : Nat) (s : VfsState α) (parent : Option α) (name : List UInt8) (type : Nat)
    (block : NodeBlock α)
    : Option (Option α × VfsState α) :=
  match parent with
  | none => some (none, s)
  | some parent =>
      match (s.node parent).childs with
      | none => do
          let s ← s.vfsCreateNode block name type
          let s := s.setChilds parent (some block.addr)
          return (some block.addr, s.setParent block.addr (some parent))
      | some first => do
          let child ← Linked.last (fun n => (s.node n).next) fuel first
          let s ← s.vfsCreateNode block name type
          let s := s.setNext child (some block.addr)
          let s := s.setParent block.addr (some parent)
          return (some block.addr, s.setPrev block.addr (some child))

/-- The loop of `vfs_free_child_nodes`, which calls itself through `vfs_free_node`. -/
def freeNodes : (fuel : Nat) → VfsState α → (n : Option α) → Option (VfsState α)
  | _, s, none => some s
  | 0, _, some _ => none
  | fuel + 1, s, some n => do
      let s ← freeNodes fuel s (s.node n).childs
      let s := s.setChilds n none
      freeNodes fuel s (s.node n).next

def vfsFreeChildNodes (fuel : Nat) (s : VfsState α) (node : α) : Option (VfsState α) := do
  let s ← s.freeNodes fuel (s.node node).childs
  return s.setChilds node none

/-- `vfs_add_child` with the next of the blocks that `kmalloc` gives. -/
def addNext (fuel : Nat) (s : VfsState α) (parent : α) (name : List UInt8) (type : Nat)
    : List (NodeBlock α) → Option (α × VfsState α × List (NodeBlock α))
  | [] => none
  | block :: blocks => do
      let (child, s) ← s.vfsAddChild fuel (some parent) name type block
      let child ← child
      return (child, s, blocks)

/-- `if (!node) node = vfs_add_child(bkp, token, type)`. -/
def childOrNew (fuel : Nat) (s : VfsState α) (bkp : α) (name : List UInt8) (type : Nat)
    (blocks : List (NodeBlock α))
    : (node : Option α) → Option (α × VfsState α × List (NodeBlock α))
  | some node => some (node, s, blocks)
  | none => s.addNext fuel bkp name type blocks

/-- The loop of `vfs_make_node`. Behind the first slash it goes on at spaces. -/
def makeTokens (type : Nat)
    : (fuel : Nat) → VfsState α → (node : α) → (token i : Option Nat) → (ap : List UInt8)
      → List (NodeBlock α) → Option (α × VfsState α × List (NodeBlock α))
  | 0, _, _, _, _, _, _ => none
  | _ + 1, s, node, none, _, _, blocks => some (node, s, blocks)
  | fuel + 1, s, node, some token, i, ap, blocks => do
      let found ← vfsGetChildByName s.mem fuel node (ap.drop token)
      let (node, s, blocks) ← s.childOrNew fuel node (ap.drop token) type blocks found
      let (token, i, ap) ← strtok ap i none [0x20, 0]
      makeTokens type fuel s node token i ap blocks

/-- `vfs_make_node`, with the buffer for its copy of the path and what the last call of `strtok` has
left in its static `i`.
-/
def vfsMakeNode (fuel : Nat) (s : VfsState α) (kmalloc : Buffer256) (i : Option Nat) (root : α)
    (path : List UInt8) (type inode : Nat) (blocks : List (NodeBlock α))
    : Option (α × VfsState α × List (NodeBlock α)) := do
  let ap ← strcpy kmalloc path
  let (token, i, ap) ← strtok ap i (some 0) [slash, 0]
  let (node, s, blocks) ← s.makeTokens type fuel root token i ap blocks
  let s := s.setFile node (fun file => { file with type, inode })
  if type = vfsFile then do
    let s ← s.vfsFreeChildNodes fuel node
    return (node, s, blocks)
  else
    return (node, s, blocks)

/-- The names of the nodes that `vfs_dummy` creates: `/`, `bin`, `etc`, `mnt`, `home`, `dev`, `tmp`,
`yuun`, `document.txt` and `program.c`.
-/
def dummyNames : List (List UInt8) :=
  [[0x2F, 0], [0x62, 0x69, 0x6E, 0], [0x65, 0x74, 0x63, 0], [0x6D, 0x6E, 0x74, 0],
    [0x68, 0x6F, 0x6D, 0x65, 0], [0x64, 0x65, 0x76, 0], [0x74, 0x6D, 0x70, 0],
    [0x79, 0x75, 0x75, 0x6E, 0],
    [0x64, 0x6F, 0x63, 0x75, 0x6D, 0x65, 0x6E, 0x74, 0x2E, 0x74, 0x78, 0x74, 0],
    [0x70, 0x72, 0x6F, 0x67, 0x72, 0x61, 0x6D, 0x2E, 0x63, 0]]

/-- `vfs_root = vfs_create_node(name, VFS_DIR)` and `vfs_root->parent = vfs_root`. -/
def createRoot (s : VfsState α) (block : NodeBlock α) (name : List UInt8)
    : Option (VfsState α) := do
  let s ← s.vfsCreateNode block name vfsDir
  let s := { s with vfsRoot := block.addr }
  return s.setParent s.vfsRoot (some s.vfsRoot)

def vfsDummy (fuel : Nat) (s : VfsState α) (blocks : List (NodeBlock α))
    : Option (VfsState α × List (NodeBlock α)) :=
  match blocks, dummyNames with
  | block :: blocks, [rootName, bin, etc, mnt, home, dev, tmp, yuun, document, program] => do
      let s ← s.createRoot block rootName
      let (_, s, blocks) ← s.addNext fuel s.vfsRoot bin vfsDir blocks
      let (_, s, blocks) ← s.addNext fuel s.vfsRoot etc vfsDir blocks
      let (_, s, blocks) ← s.addNext fuel s.vfsRoot mnt vfsDir blocks
      let (homeNode, s, blocks) ← s.addNext fuel s.vfsRoot home vfsDir blocks
      let (_, s, blocks) ← s.addNext fuel s.vfsRoot dev vfsDir blocks
      let (_, s, blocks) ← s.addNext fuel s.vfsRoot tmp vfsDir blocks
      let (ys, s, blocks) ← s.addNext fuel homeNode yuun vfsDir blocks
      let (_, s, blocks) ← s.addNext fuel ys document vfsFile blocks
      let (_, s, blocks) ← s.addNext fuel ys program vfsFile blocks
      return (s, blocks)
  | _, _ => none

/-- `tmpfs_init`, with the result of the call. -/
def tmpfsInit (fuel : Nat) (s : VfsState α) (kmalloc : Buffer256) (i : Option Nat)
    (path : List UInt8)
    : Option (Nat × VfsState α) :=
  if s.tmpfsRoot ≠ none then
    some (1, s)
  else do
    let root ← vfsNodeFromPath s.mem s.vfsRoot kmalloc fuel i s.vfsRoot path
    return (0, { s with tmpfsRoot := root })

def devfsInit (fuel : Nat) (s : VfsState α) (kmalloc : Buffer256) (i : Option Nat)
    (path : List UInt8)
    : Option (Nat × VfsState α) :=
  if s.devfsRoot ≠ none then
    some (1, s)
  else do
    let root ← vfsNodeFromPath s.mem s.vfsRoot kmalloc fuel i s.vfsRoot path
    return (0, { s with devfsRoot := root })

/-- `vfs_add_child`, and the assignment to the `inode` of the new node's file. -/
def createFile (fuel : Nat) (s : VfsState α) (parent : α) (name : List UInt8) (type inode : Nat)
    (blocks : List (NodeBlock α))
    : Option (Nat × VfsState α × List (NodeBlock α)) := do
  let (node, s, blocks) ← s.addNext fuel parent name type blocks
  return (0, s.setFile node (fun file => { file with inode }), blocks)

/-- The search for the last slash in `tmpfs_create`, through the first `n` characters. -/
def lastSlashIndex (path : List UInt8) : (n : Nat) → Nat
  | 0 => 0
  | i + 1 => if path[i]? = some slash then i else lastSlashIndex path i

/-- `path[strlen(path) - 1]`, where `before` is the byte in front of the path. -/
def lastByte (before : UInt8) (path : List UInt8) : (n : Nat) → Option UInt8
  | 0 => some before
  | n + 1 => path[n]?

/-- `tmpfs_create`, with its result. -/
def tmpfsCreate (fuel : Nat) (s : VfsState α) (kmalloc : Buffer256) (i : Option Nat)
    (before : UInt8) (path : List UInt8) (type : Nat) (blocks : List (NodeBlock α))
    : Option (Nat × VfsState α × List (NodeBlock α)) :=
  match s.tmpfsRoot with
  | none => some (255, s, blocks)
  | some tmpfsRoot =>
      if type ≠ vfsFile ∧ type ≠ vfsDir then
        some (254, s, blocks)
      else if path[0]? = some slash then
        some (1, s, blocks)
      else do
        let up ← strstr path [dot, dot, 0]
        let n ← strlen path
        let last ← lastByte before path n
        if up ≠ none then
          return (2, s, blocks)
        else if last = slash then
          return (3, s, blocks)
        else if lastSlashIndex path n = 0 then
          s.createFile fuel tmpfsRoot path type 0 blocks
        else
          -- The copy of the name is one byte longer than the name, which its zero ends.
          let index := lastSlashIndex path n
          let parentPath := path.take index ++ [0]
          let filename := (path.drop (index + 1)).take (n - index + 1) ++ [0]
          let parent ← vfsNodeFromPath s.mem s.vfsRoot kmalloc fuel i tmpfsRoot parentPath
          match parent with
          | none => return (4, s, blocks)
          | some parent => s.createFile fuel parent filename type 0 blocks

/-- `devfs_register_dev` of a device with a name, a type and its `device_specific`, with its result.
-/
def devfsRegisterDev (fuel : Nat) (s : VfsState α) (name : List UInt8) (type deviceSpecific : Nat)
    (blocks : List (NodeBlock α))
    : Option (Nat × VfsState α × List (NodeBlock α)) :=
  match s.devfsRoot with
  | none => some (1, s, blocks)
  | some devfsRoot =>
      if type ≠ vfsCdev ∧ type ≠ vfsBdev then
        some (2, s, blocks)
      else
        s.createFile fuel devfsRoot name type deviceSpecific blocks

end VfsState

end Hydrangea
