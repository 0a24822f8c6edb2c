import Hydrangea.Libk.String

/-! The paths of `kernel/fs/vfs.c`. `none` is a call that does not return: an access
through null or behind the end of a buffer, or too little fuel for a loop. Every buffer
from `kmalloc(256)` is one that nothing else uses, and what it holds is arbitrary.
-/

namespace Hydrangea

/-- The fields of `vfs_node_t` that the path functions read. `name` is the buffer that the
name points into, from there to its end.
-/
structure VfsNode (α : Type) where
  name : List UInt8
  parent : Option α
  childs : Option α
  next : Option α

abbrev Buffer256 := { buffer : List UInt8 // buffer.length = 256 }

namespace Vfs

def slash : UInt8 := 0x2F

def dot : UInt8 := 0x2E

variable {α : Type} (mem : α → VfsNode α)

/-- The loop of `vfs_get_child_by_name`: the child it stops at. -/
def findChild (name : List UInt8) : (fuel : Nat) → (child : α) → Option α
  | 0, _ => none
  | fuel + 1, child => do
      let differs ← strcmp (mem child).name name
      if differs ≠ 0 then
        match (mem child).next with
        | some next => findChild name fuel next
        | none => some child
      else
        some child

def vfsGetChildByName (fuel : Nat) (parent : α) (name : List UInt8) : Option (Option α) := do
  let here ← strcmp name [dot, 0]
  if here = 0 then
    return some parent
  else
    let up ← strcmp name [dot, dot, 0]
    if up = 0 then
      return (mem parent).parent
    else
      match (mem parent).childs with
      | none => return none
      | some child =>
          let child ← findChild mem name fuel child
          let differs ← strcmp (mem child).name name
          return if differs ≠ 0 then none else some child

/-- `if (strcmp(path, "/")) strcat(path, "/")`. -/
def addSlash (path : List UInt8) : Option (List UInt8) := do
  let differs ← strcmp path [slash, 0]
  if differs ≠ 0 then strcat path [slash, 0] else some path

/-- The body of the loop of `vfs_abs_path_to`, for the node it has moved to. -/
def prefixName (bak : Buffer256) (path name : List UInt8) : Option (List UInt8) := do
  let bak ← strcpy bak path
  let path ← strcpy path name
  let path ← addSlash path
  strcat path bak

/-- The loop of `vfs_abs_path_to`, from the buffer `k` of `kmalloc` on. -/
def prefixParents [DecidableEq α] (kmalloc : Nat → Buffer256)
    : (fuel k : Nat) → (node : α) → (path : List UInt8) → Option (List UInt8)
  | 0, _, _, _ => none
  | fuel + 1, k, node, path =>
      if (mem node).parent ≠ some node then do
        let node ← (mem node).parent
        let path ← prefixName (kmalloc k) path (mem node).name
        prefixParents kmalloc fuel (k + 1) node path
      else
        some path

/-- `vfs_abs_path_to`: the buffer of the path, or null. -/
def vfsAbsPathTo [DecidableEq α] (kmalloc : Nat → Buffer256) (fuel : Nat)
    : (node : Option α) → Option (Option (List UInt8))
  | none => some none
  | some node => do
      let path ← strcpy (kmalloc 0) (mem node).name
      let path ← prefixParents mem kmalloc fuel 1 node path
      return some path

/-- The loop of `vfs_node_from_path`, with the token, the static `i` of `strtok` and the
copy of the path that it cuts up.
-/
def followTokens : (fuel : Nat) → (node : α) → (token i : Option Nat) → (ap : List UInt8)
    → Option (Option α)
  | 0, _, _, _, _ => none
  | _ + 1, node, none, _, _ => some (some node)
  | fuel + 1, node, some token, i, ap => do
      let child ← vfsGetChildByName mem fuel node (ap.drop token)
      match child with
      | none => some none
      | some node =>
          let (token, i, ap) ← strtok ap i none [slash, 0]
          followTokens fuel node token i ap

/-- `vfs_node_from_path`. `i` is what the last call of `strtok` has left in its static `i`. -/
def vfsNodeFromPath (vfsRoot : α) (kmalloc : Buffer256) (fuel : Nat) (i : Option Nat)
    (root : α) (path : List UInt8)
    : Option (Option α) := do
  let ap ← strcpy kmalloc path
  let (token, i, ap) ← strtok ap i (some 0) [slash, 0]
  let first ← path[0]?
  followTokens mem fuel (if first = slash then vfsRoot else root) token i ap

end Vfs

end Hydrangea
