import Hydrangea.Fs.Ext2Dirs

/-! The partitions of a drive, as `kernel/misc/mbr.c` reads them, and `ext2_init` of
`kernel/fs/ext2fs/ext2.c`. `none` is a call that does not return: a panic or a division by zero.
-/

namespace Hydrangea

/-- The fields of `partition_t` that mounting needs. -/
structure Partition where
  type : Nat
  lbaStart : Nat

def mbrPartTypeLinux : Nat := 0x83

/-- `mbr_parse`: the bytes of the `mbr_t`. -/
def mbrParse (drv : Nat → UInt8) : List UInt8 :=
  ataRead drv 0 1

/-- An element of `partitions` of an `mbr_t`. -/
def partitionAt (mbr : List UInt8) (partitionNumber : Nat) : Partition where
  type := field mbr (446 + 16 * partitionNumber + 4) 1
  lbaStart := field mbr (446 + 16 * partitionNumber + 8) 4

def ext2Signature : Nat := 0xEF53

def ext2FsStateError : Nat := 2

def ext2ErrPanic : Nat := 3

/-- `sizeof(ext2_superblock_t)`. -/
def sizeofSuperblock : Nat := 236

/-- `sizeof(ext2_block_group_dt_t)`. -/
def sizeofGroup : Nat := 32

/-- The quotient of two numbers, rounded up as in `ext2_init`. -/
def divideUp (a b : Nat) : Nat :=
  a / b + if a % b ≠ 0 then 1 else 0

/-- `ext2_init`: the file system, or null. A shift by 32 bits or more shifts by the remainder, as on
an x86. `heap` is what is found in the memory behind the table of the groups in place of the
`inode_table_starting_block_addr` of a group.
-/
def ext2Init (drv : Nat → UInt8) (partitionNumber : Nat) (heap : Nat → Nat)
    : Option (Option Ext2Fs) :=
  let offset := (partitionAt (mbrParse drv) partitionNumber).lbaStart * 512 % 2 ^ 32
  let superblock := ataReadB drv (offset + 1024) sizeofSuperblock
  let inodesCount := field superblock 0 4
  let blocksCount := field superblock 4 4
  let log2BlockSizeMinus10 := field superblock 24 4
  let blocksPerGroup := field superblock 32 4
  let inodesPerGroup := field superblock 40 4
  if field superblock 56 2 ≠ ext2Signature then
    some none
  else if field superblock 58 2 = ext2FsStateError ∧ field superblock 60 2 = ext2ErrPanic then
    none
  else if blocksPerGroup = 0 ∨ inodesPerGroup = 0 then
    none
  else
    let blockSize := 1024 * 2 ^ (log2BlockSizeMinus10 % 32) % 2 ^ 32
    let a := divideUp blocksCount blocksPerGroup
    let b := divideUp inodesCount inodesPerGroup
    let groupsCount := if a > b then a else b
    let gdOffset := if blockSize = 1024 then 2048 else blockSize
    let gd := ataReadB drv (offset + gdOffset) (groupsCount * sizeofGroup % 2 ^ 32)
    some (some {
      drv
      pOffset := offset
      ext2 := {
        inodeSize := field superblock 88 2
        inodesPerGroup
        inodeTable := fun group => (fieldAt gd (sizeofGroup * group + 8) 4).getD (heap group)
        blockSize
      }
    })

end Hydrangea
