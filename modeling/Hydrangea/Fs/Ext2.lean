import Hydrangea.Drivers.Ata

/-! The ext2 file system of `kernel/fs/ext2fs/ext2.c`: inodes, block offsets and reading
files. A product or sum of `uint32_t` values is taken modulo `2 ^ 32`. Sums with the 64-bit
`p_offset` are not reduced, since no drive has `2 ^ 64` bytes.
-/

namespace Hydrangea

/-- The fields of `ext2_t` and its superblock that reading needs. `inodeTable` is the
`inode_table_starting_block_addr` of each group.
-/
structure Ext2 where
  inodeSize : Nat
  inodesPerGroup : Nat
  inodeTable : Nat → Nat
  blockSize : Nat

/-- The fields of `fs_t` that reading needs. -/
structure Ext2Fs where
  drv : Nat → UInt8
  pOffset : Nat
  ext2 : Ext2

/-- The fields of `ext2_inode_t` that reading needs. -/
structure Ext2Inode where
  typePermissions : Nat
  size : Nat
  directBlockPointer : Nat → Nat
  singlyIndirectBlockPointer : Nat
  doublyIndirectBlockPointer : Nat
  triplyIndirectBlockPointer : Nat

def ext2InodeTypeFile : Nat := 0x8000

def field (bytes : List UInt8) (offset size : Nat) : Nat :=
  littleEndian ((bytes.drop offset).take size)

def Ext2Inode.ofBytes (bytes : List UInt8) : Ext2Inode where
  typePermissions := field bytes 0 2
  size := field bytes 4 4
  directBlockPointer k := field bytes (40 + 4 * k) 4
  singlyIndirectBlockPointer := field bytes 88 4
  doublyIndirectBlockPointer := field bytes 92 4
  triplyIndirectBlockPointer := field bytes 96 4

namespace Ext2

def group (e : Ext2) (inodeNumber : Nat) : Nat :=
  (inodeNumber + 2 ^ 32 - 1) % 2 ^ 32 / e.inodesPerGroup

def index (e : Ext2) (inodeNumber : Nat) : Nat :=
  (inodeNumber + 2 ^ 32 - 1) % 2 ^ 32 % e.inodesPerGroup

/-- `ext2_get_inode_offset`. -/
def getInodeOffset (e : Ext2) (inodeNumber : Nat) : Nat :=
  e.inodeTable (e.group inodeNumber) * e.blockSize % 2 ^ 32 + e.index inodeNumber * e.inodeSize

end Ext2

namespace Ext2Fs

/-- `ext2_get_inode`. -/
def getInode (fs : Ext2Fs) (inodeNumber : Nat) : Ext2Inode :=
  let offset := fs.ext2.getInodeOffset inodeNumber
  Ext2Inode.ofBytes (ataReadB fs.drv (fs.pOffset + offset) fs.ext2.inodeSize)

/-- `ext2_get_sbptr_offset`. -/
def getSbptrOffset (fs : Ext2Fs) (inodeNumber index : Nat) : Nat :=
  let inode := fs.getInode inodeNumber
  let offset := fs.pOffset
    + (inode.singlyIndirectBlockPointer * fs.ext2.blockSize + index) % 2 ^ 32
  let blockPtr := readWord fs.drv offset
  fs.pOffset + blockPtr * fs.ext2.blockSize % 2 ^ 32

/-- `ext2_get_dbptr_offset`. -/
def getDbptrOffset (fs : Ext2Fs) (inodeNumber index1 index2 : Nat) : Nat :=
  let offset := fs.getSbptrOffset inodeNumber index1
  let blockPtr1 := readWord fs.drv offset
  let offset := (blockPtr1 * fs.ext2.blockSize + index2) % 2 ^ 32
  let blockPtr2 := readWord fs.drv offset
  fs.pOffset + blockPtr2 * fs.ext2.blockSize % 2 ^ 32

/-- `ext2_get_tbptr_offset`. -/
def getTbptrOffset (fs : Ext2Fs) (inodeNumber index1 index2 index3 : Nat) : Nat :=
  let offset := fs.getDbptrOffset inodeNumber index1 index2
  let blockPtr1 := readWord fs.drv offset
  let offset := (blockPtr1 * fs.ext2.blockSize + index3) % 2 ^ 32
  let blockPtr2 := readWord fs.drv offset
  fs.pOffset + blockPtr2 * fs.ext2.blockSize % 2 ^ 32

/-- `ext2_get_block_offset`. Its local `offset` is a `uint32_t`, as are the sums of powers of
`ppb`. The products in a branch do not wrap when it is taken, because a block size is a power of
two.
-/
def getBlockOffset (fs : Ext2Fs) (inodeNumber blockNbr : Nat) : Nat :=
  let ppb := fs.ext2.blockSize / 4
  let inode := fs.getInode inodeNumber
  if blockNbr < 12 then
    inode.directBlockPointer blockNbr * fs.ext2.blockSize % 2 ^ 32
  else if blockNbr < 12 + ppb then
    let index := (blockNbr - 12) * 4
    fs.getSbptrOffset inodeNumber index % 2 ^ 32
  else if blockNbr < (12 + ppb + ppb * ppb) % 2 ^ 32 then
    let index := blockNbr - 12 - ppb
    let index1 := index / ppb
    let index2 := index % ppb
    fs.getDbptrOffset inodeNumber index1 index2 % 2 ^ 32
  else if blockNbr < (12 + ppb + ppb * ppb + ppb * ppb * ppb) % 2 ^ 32 then
    let index := blockNbr - 12 - ppb - ppb * ppb
    let index1 := index / (ppb * ppb)
    let tmp := index % (ppb * ppb)
    let index2 := tmp / ppb
    let index3 := tmp % ppb
    fs.getTbptrOffset inodeNumber index1 index2 index3 % 2 ^ 32
  else
    0

/-- Bytes written to a buffer from a position on; `none` is a byte that was not written. -/
def write (buffer : Nat → Option UInt8) (position : Nat) (bytes : List UInt8)
    : Nat → Option UInt8 :=
  fun i => if i < position then buffer i else (bytes[i - position]?).or (buffer i)

/-- The loop of `ext2_readfile`, from block `blk` on, for the blocks that remain. `false` is
its `return 0`. The branch for `block_end` is never taken, as the loop stops before it.
-/
def readBlocks (fs : Ext2Fs) (inodeNumber blockStart blockEnd startOffset endOffset : Nat)
    : (remain blk : Nat) → (buffer : Nat → Option UInt8) → Bool × (Nat → Option UInt8)
  | 0, _, buffer => (true, buffer)
  | remain + 1, blk, buffer =>
      let bOffset := fs.getBlockOffset inodeNumber blk
      if bOffset = 0 then
        (false, buffer)
      else
        let bSize := fs.ext2.blockSize
        let buffer :=
          if blk = blockStart then
            write buffer 0
              (ataReadB fs.drv (fs.pOffset + bOffset + startOffset) (bSize - startOffset))
          else if blk = blockEnd then
            write buffer 0 (ataReadB fs.drv (fs.pOffset + bOffset + endOffset) endOffset)
          else
            buffer
        readBlocks fs inodeNumber blockStart blockEnd startOffset endOffset remain (blk + 1)
          buffer

/-- `ext2_readfile`: what it returns, and the buffer afterwards. -/
def readfile (fs : Ext2Fs) (inodeNumber offset size : Nat) (buffer : Nat → Option UInt8)
    : Nat × (Nat → Option UInt8) :=
  if size = 0 then
    (0, buffer)
  else
    let inode := fs.getInode inodeNumber
    if inode.typePermissions &&& ext2InodeTypeFile = 0 then
      (0, buffer)
    else if inode.size = 0 ∨ size > inode.size then
      (0, buffer)
    else
      let last := if offset + size > inode.size then inode.size else offset + size
      let blockStart := offset / fs.ext2.blockSize
      let blockEnd := last / fs.ext2.blockSize
      let startOffset := offset % fs.ext2.blockSize
      let endOffset := last % fs.ext2.blockSize
      if blockStart = blockEnd then
        let bOffset := fs.getBlockOffset inodeNumber blockStart
        (size,
          write buffer 0 (ataReadB fs.drv (fs.pOffset + bOffset + startOffset) size))
      else
        match readBlocks fs inodeNumber blockStart blockEnd startOffset endOffset
            (blockEnd - blockStart) blockStart buffer with
        | (false, buffer) => (0, buffer)
        | (true, buffer) => (size, write buffer inode.size [0])

/-- `ext2_vfs_read`. -/
def vfsRead (fs : Ext2Fs) (inode offset size : Nat) (buffer : Nat → Option UInt8)
    : Nat × (Nat → Option UInt8) :=
  fs.readfile inode offset size buffer

end Ext2Fs

end Hydrangea
