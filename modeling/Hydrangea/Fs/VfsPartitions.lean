import Hydrangea.Fs.VfsMountEnds

/-! `vfs_mount_partition` and `vfs_umount_partition` of `kernel/fs/vfs.c`. `none` is a call that
does not return.
-/

namespace Hydrangea

/-- The virtual file system and the `mtpts` of the drives. -/
structure VfsDrives (δ α : Type) where
  vfs : VfsState α
  mtpts : δ → Nat → Option α

/-- The arguments of `vfs_mount_partition`; what `ext2_init` finds behind the groups, and what the
buffer of `kmalloc` for the copy of the path and the static `i` of `strtok` hold; and the blocks
that `kmalloc` gives.
-/
structure MountCall (δ α : Type) where
  drv : δ
  partitionNum : Nat
  path : List UInt8
  rel : α
  heap : Nat → Nat
  kmalloc : Buffer256
  i : Option Nat
  blocks : MountBlocks α

namespace VfsDrives

open Linked LinkedTree Vfs VfsState

variable {δ α : Type} [DecidableEq δ] [DecidableEq α]

/-- `drv->mtpts[partition_num] = mtpt`. -/
def setMtpt (s : VfsDrives δ α) (drv : δ) (partitionNum : Nat) (mtpt : Option α)
    : VfsDrives δ α :=
  { s with
    mtpts := Function.update s.mtpts drv (Function.update (s.mtpts drv) partitionNum mtpt) }

/-- `vfs_mount_partition`, with its result, where `disk` is what the drives hold. -/
def vfsMountPartition (disk : δ → Nat → UInt8) (fuel : Nat) (s : VfsDrives δ α)
    (c : MountCall δ α)
    : Option (Nat × VfsDrives δ α) :=
  if s.mtpts c.drv c.partitionNum ≠ none then
    some (255, s)
  else if (partitionAt (mbrParse (disk c.drv)) c.partitionNum).type ≠ mbrPartTypeLinux then
    some (1, s)
  else do
    match ← ext2Init (disk c.drv) c.partitionNum c.heap with
    | none => return (1, s)
    | some fs =>
        match ← vfsNodeFromPath s.vfs.mem s.vfs.vfsRoot c.kmalloc fuel c.i c.rel c.path with
        | none => return (2, s)
        | some mtpt =>
            if (s.vfs.node mtpt).childs ≠ none then
              return (3, s)
            else do
              let (vfs, _) ← s.vfs.vfsMountExt2 fuel fs mtpt c.blocks
              let vfs := vfs.setFile mtpt (fun file => { file with type := vfsMtpt })
              return (0, { s with vfs }.setMtpt c.drv c.partitionNum (some mtpt))

/-- `vfs_umount_partition`, with its result. -/
def vfsUmountPartition (fuel : Nat) (s : VfsDrives δ α) (drv : δ) (partitionNum : Nat)
    : Option (Nat × VfsDrives δ α) :=
  match s.mtpts drv partitionNum with
  | none => some (1, s)
  | some mtpt => do
      let vfs ← s.vfs.vfsFreeChildNodes fuel mtpt
      let vfs := vfs.setFile mtpt (fun file => { file with type := vfsDir })
      return (0, { s with vfs }.setMtpt drv partitionNum none)

-----------------------------------------------------------------------------------------
-- The system
-----------------------------------------------------------------------------------------

/-- A call with its result. -/
inductive MountEvent (δ α : Type) where
  | mount (c : MountCall δ α) (result : Nat)
  | umount (drv : δ) (partitionNum : Nat) (result : Nat)

/-- One call, if it returns. A mount starts at a node of the tree and gets unused blocks. -/
def MountStep (disk : δ → Nat → UInt8) (s : VfsDrives δ α)
    : MountEvent δ α → VfsDrives δ α → Prop
  | .mount c result, s' =>
      c.partitionNum < 4 ∧ s.vfs.Node c.rel ∧ s.vfs.Unused c.blocks.nodes
        ∧ ∃ fuel, s.vfsMountPartition disk fuel c = some (result, s')
  | .umount drv partitionNum result, s' =>
      partitionNum < 4 ∧ ∃ fuel, s.vfsUmountPartition fuel drv partitionNum = some (result, s')

/-- Mounts and unmounts in any order, in a tree of nodes without mounted partitions. -/
def mountSystem (disk : δ → Nat → UInt8)
    : TransitionSystem (VfsDrives δ α) (MountEvent δ α) where
  init s := (∃ kids, IsTree s.vfs.links s.vfs.vfsRoot kids) ∧ ∀ drv p, s.mtpts drv p = none
  step := MountStep disk

-----------------------------------------------------------------------------------------
-- The property
-----------------------------------------------------------------------------------------

/-- Mounted partitions have mount points of their own, which are nodes of the tree. -/
structure MountsValid (s : VfsDrives δ α) : Prop where
  node : ∀ drv p n, s.mtpts drv p = some n → s.vfs.Node n ∧ (s.vfs.node n).file.type = vfsMtpt
  distinct : ∀ drv p drv' p' n, s.mtpts drv p = some n → s.mtpts drv' p' = some n
    → drv' = drv ∧ p' = p

/-- The tree has the same nodes as before, with the same names, files and children. -/
structure SameTree (s s' : VfsState α) : Prop where
  nodes : ∀ n, s'.Node n ↔ s.Node n
  names : ∀ n, s.Node n → (s'.node n).name = (s.node n).name
  files : ∀ n, s.Node n → (s'.node n).file = (s.node n).file
  childs : ∀ n, s.Node n → ∀ xs, Chain (fun m => (s.node m).next) (s.node n).childs xs
    ↔ Chain (fun m => (s'.node m).next) (s'.node n).childs xs

/-- If the last two steps are a successful mount and the unmount of the same partition, the tree is
what it was before them.
-/
def UmountRestores (s : VfsDrives δ α) (steps : List (VfsDrives δ α × MountEvent δ α)) : Prop :=
  ∀ s₁ s₀ c result earlier, steps = (s₁, .umount c.drv c.partitionNum result)
      :: (s₀, .mount c 0) :: earlier
    → SameTree s₀.vfs s.vfs

/-- The checks of `vfs_mount_partition` pass, and the path leads to `n`. -/
structure MountsAt (disk : δ → Nat → UInt8) (s : VfsDrives δ α) (c : MountCall δ α) (n : α)
    : Prop where
  free : s.mtpts c.drv c.partitionNum = none
  linux : (partitionAt (mbrParse (disk c.drv)) c.partitionNum).type = mbrPartTypeLinux
  init : ∃ fs, ext2Init (disk c.drv) c.partitionNum c.heap = some (some fs)
  found : ∃ fuel,
    vfsNodeFromPath s.vfs.mem s.vfs.vfsRoot c.kmalloc fuel c.i c.rel c.path = some (some n)
  empty : (s.vfs.node n).childs = none

/-- `m` lies in the subtree of `n`. -/
def Under (s : VfsState α) (n m : α) : Prop :=
  ∃ kids, IsTree s.links s.vfsRoot kids ∧ Below kids n m

/-- The state before a call keeps mount points apart: a mount is of a directory, and no partition is
mounted below the mount point that a call unmounts.
-/
def MountsApart (disk : δ → Nat → UInt8) (s : VfsDrives δ α) : MountEvent δ α → Prop
  | .mount c _ => ∀ n, s.MountsAt disk c n → (s.vfs.node n).file.type = vfsDir
  | .umount drv p _ => ∀ n drv' p' n', s.mtpts drv p = some n → s.mtpts drv' p' = some n'
      → Under s.vfs n n' → drv' = drv ∧ p' = p

end VfsDrives

end Hydrangea
