import Hydrangea.Fs.Ext2Listings
import Hydrangea.Fs.VfsMount
import Hydrangea.Fs.VfsRuns
import Hydrangea.Lib.Traversal

/-! For which disk images `vfs_mount_ext2` of `kernel/fs/vfs.c` returns. The blocks that it gets for
its directories hold anything, and what they hold chooses the blocks of the disk that are listed.
-/

namespace Hydrangea.VfsState

open CString Linked LinkedTree Vfs Traversal Ext2Fs

variable {α : Type} [DecidableEq α] {fs : Ext2Fs} {s s' : VfsState α} {kids : α → List α} {p : α}
  {inodeNumber k q fuel : Nat} {bytes : List UInt8} {dir : Ext2Dir} {ent : Dirent} {e : DirEntry}
  {es : List DirEntry} {gs : List DirBlock} {blocks rest : MountBlocks α}

/-- The entries of a directory can be read whatever the block for its `DIR` holds: its inode says
that it is a directory, its first block can be walked, and behind the end of that every block can.
-/
structure DirReadable (fs : Ext2Fs) (inodeNumber : Nat) : Prop where
  isDir : (fs.getInode inodeNumber).typePermissions &&& ext2InodeTypeDir ≠ 0
  first : ∃ es unused, Walk (fs.firstBlock inodeNumber) 0 es unused
  others : (∃ es, Walk (fs.firstBlock inodeNumber) 0 es false) → ∀ k < 2 ^ 32,
    fs.getBlockOffset inodeNumber k ≠ 0 → ∃ es unused, Walk (fs.blockAt inodeNumber k) 0 es unused

/-- The blocks of a directory that can be read are listed, by induction on the indices up to the
last one, which has no block.
-/
theorem DirReadable.exists_blocks (readable : DirReadable fs inodeNumber)
    (small : fs.ext2.blockSize < 2 ^ 32) (first : ∃ es, Walk (fs.firstBlock inodeNumber) 0 es false)
    {left : Nat} (index : k + left = 2 ^ 32 - 1)
    : ∃ es, fs.Blocks inodeNumber k es := by
  induction left generalizing k with
  | zero =>
      obtain rfl : k = 2 ^ 32 - 1 := index
      exact ⟨[], .missing (getBlockOffset_max small)⟩
  | succ left ih =>
      by_cases missing : fs.getBlockOffset inodeNumber k = 0
      · exact ⟨[], .missing missing⟩
      obtain ⟨es, unused, walk⟩ := readable.others first k (by omega) missing
      cases unused with
      | true => exact ⟨es, .unused missing walk⟩
      | false =>
          have next : (k + 1) % 2 ^ 32 = k + 1 := Nat.mod_eq_of_lt (by omega)
          obtain ⟨es', rest⟩ := ih (k := k + 1) (by omega)
          refine ⟨es ++ es', .finish missing walk ?_⟩
          rwa [next]

section Examples

/-- A disk with a partition at 1 MiB. Its inode 2 is a directory with the first bytes in block 5,
and inode 3 is one with the second bytes in block 6.
-/
def diskImage (root sub : List UInt8) (a : Nat) : UInt8 :=
  if a = 450 then 0x83
  else if a = 455 then 8
  else if a = 0x100400 then 8
  else if a = 0x100404 then 16
  else if a = 0x100421 then 0x20
  else if a = 0x100428 then 8
  else if a = 0x100438 then 0x53
  else if a = 0x100439 then 0xEF
  else if a = 0x100458 then 128
  else if a = 0x100808 then 4
  else if a = 0x101081 ∨ a = 0x101101 then 0x41
  else if a = 0x101085 ∨ a = 0x101105 then 4
  else if a = 0x1010A8 then 5
  else if a = 0x101128 then 6
  else if 0x101400 ≤ a ∧ a < 0x101800 then (root[a - 0x101400]?).getD 0
  else if 0x101800 ≤ a ∧ a < 0x101C00 then (sub[a - 0x101800]?).getD 0
  else 0

/-- The directory `.` with the directory `d`, which is empty. -/
def twoDirs : Nat → UInt8 :=
  diskImage [2, 0, 0, 0, 12, 0, 1, 2, 0x2E, 0, 0, 0, 3, 0, 0, 0, 12, 0, 1, 2, 0x64, 0, 0, 0]
    [3, 0, 0, 0, 12, 0, 1, 2, 0x2E, 0, 0, 0]

def rootState : VfsState Nat :=
  zeroState.setParent 0 (some 0)

theorem isTree_rootState : IsTree rootState.links rootState.vfsRoot (fun _ => []) :=
  isTree_alone rfl rfl rfl

end Examples

end Hydrangea.VfsState
