import Hydrangea.Fs.Ext2Init
import Hydrangea.Fs.Ext2Blocks

/-! The superblocks from which `ext2_init` makes a file system that can be read without dividing by
zero, and the partitions whose inodes it finds where the ext2 format has them.
-/

namespace Hydrangea

/-- The fields of `ext2_superblock_t` that `ext2_init` and the functions on inodes read. -/
structure Ext2Superblock where
  inodesCount : Nat
  blocksCount : Nat
  log2BlockSizeMinus10 : Nat
  blocksPerGroup : Nat
  inodesPerGroup : Nat
  ext2Signature : Nat
  fsState : Nat
  errorHandlingMethod : Nat
  inodeSize : Nat

def superblockAt (drv : Nat → UInt8) (offset : Nat) : Ext2Superblock :=
  let superblock := ataReadB drv (offset + 1024) sizeofSuperblock
  { inodesCount := field superblock 0 4
    blocksCount := field superblock 4 4
    log2BlockSizeMinus10 := field superblock 24 4
    blocksPerGroup := field superblock 32 4
    inodesPerGroup := field superblock 40 4
    ext2Signature := field superblock 56 2
    fsState := field superblock 58 2
    errorHandlingMethod := field superblock 60 2
    inodeSize := field superblock 88 2 }

def lbaStart (drv : Nat → UInt8) (partitionNumber : Nat) : Nat :=
  (partitionAt (mbrParse drv) partitionNumber).lbaStart

/-- The offset of a partition, as `ext2_init` computes it. -/
def initOffset (drv : Nat → UInt8) (partitionNumber : Nat) : Nat :=
  lbaStart drv partitionNumber * 512 % 2 ^ 32

/-- The superblock that `ext2_init` reads. -/
def initSuperblock (drv : Nat → UInt8) (partitionNumber : Nat) : Ext2Superblock :=
  superblockAt drv (initOffset drv partitionNumber)

/-- `sizeof(ext2_inode_t)`. -/
def sizeofInode : Nat := 128

namespace Ext2Superblock

/-- `block_size`, as `ext2_init` computes it. -/
def blockSize (sb : Ext2Superblock) : Nat :=
  1024 * 2 ^ (sb.log2BlockSizeMinus10 % 32) % 2 ^ 32

def greater (a b : Nat) : Nat :=
  if a > b then a else b

def groupsCount (sb : Ext2Superblock) : Nat :=
  greater (divideUp sb.blocksCount sb.blocksPerGroup) (divideUp sb.inodesCount sb.inodesPerGroup)

/-- `gd_offset`, by the block size. -/
def gdOffset (blockSize : Nat) : Nat :=
  if blockSize = 1024 then 2048 else blockSize

/-- A file system for which `ext2_init` panics. -/
abbrev Panics (sb : Ext2Superblock) : Prop :=
  sb.fsState = ext2FsStateError ∧ sb.errorHandlingMethod = ext2ErrPanic

/-- A superblock with the signature, of a file system to go on with, whose counts can be divided,
whose blocks have less than 4 GiB, whose groups have descriptors that fit in 4 GiB, and whose inodes
have all fields.
-/
structure WellFormed (sb : Ext2Superblock) : Prop where
  signature : sb.ext2Signature = Hydrangea.ext2Signature
  goesOn : ¬ sb.Panics
  blocksPerGroup : sb.blocksPerGroup ≠ 0
  inodesPerGroup : sb.inodesPerGroup ≠ 0
  log2BlockSize : sb.log2BlockSizeMinus10 ≤ 21
  blockGroups : sb.blocksCount ≤ (2 ^ 27 - 1) * sb.blocksPerGroup
  inodeGroups : sb.inodesCount ≤ (2 ^ 27 - 1) * sb.inodesPerGroup
  inodeSize : sizeofInode ≤ sb.inodeSize

/-- The file system that `ext2_init` returns for a superblock. -/
def fs (sb : Ext2Superblock) (drv : Nat → UInt8) (pOffset : Nat) (heap : Nat → Nat) : Ext2Fs :=
  let gd := ataReadB drv (pOffset + gdOffset sb.blockSize) (sb.groupsCount * sizeofGroup % 2 ^ 32)
  { drv
    pOffset
    ext2 := {
      inodeSize := sb.inodeSize
      inodesPerGroup := sb.inodesPerGroup
      inodeTable := fun group => (fieldAt gd (sizeofGroup * group + 8) 4).getD (heap group)
      blockSize := sb.blockSize
    } }

end Ext2Superblock

/-- The divisors by which `ext2_get_block_offset` divides for a block. -/
def Ext2.blockDivisors (e : Ext2) (blockNbr : Nat) : List Nat :=
  let ppb := e.blockSize / 4
  if blockNbr < 12 then
    []
  else if blockNbr < 12 + ppb then
    []
  else if blockNbr < (12 + ppb + ppb * ppb) % 2 ^ 32 then
    [ppb]
  else if blockNbr < (12 + ppb + ppb * ppb + ppb * ppb * ppb) % 2 ^ 32 then
    [ppb * ppb % 2 ^ 32, ppb]
  else
    []

/-- What is read from a file system can be: none of the divisors of `ext2_init`,
`ext2_get_inode_offset`, `ext2_get_block_offset` and `ext2_readfile` is zero, the block size is the
one of the superblock, the descriptors have a size that does not wrap, and an inode that is read has
all fields.
-/
structure Ext2Superblock.Sound (sb : Ext2Superblock) (fs : Ext2Fs) : Prop where
  blocksPerGroup : sb.blocksPerGroup ≠ 0
  inodesPerGroup : fs.ext2.inodesPerGroup ≠ 0
  blockSize : fs.ext2.blockSize ≠ 0
  exact : fs.ext2.blockSize = 1024 * 2 ^ sb.log2BlockSizeMinus10
  descriptors : sb.groupsCount * sizeofGroup < 2 ^ 32
  inodeSize : sizeofInode ≤ fs.ext2.inodeSize
  divisors : ∀ blockNbr, ∀ d ∈ fs.ext2.blockDivisors blockNbr, d ≠ 0

variable {drv : Nat → UInt8} {partitionNumber : Nat} {heap : Nat → Nat} {sb : Ext2Superblock}

-----------------------------------------------------------------------------------------
-- What ext2_init does with a superblock
-----------------------------------------------------------------------------------------

/-- `ext2_init` returns null exactly without the signature. -/
theorem ext2Init_null_iff
    : ext2Init drv partitionNumber heap = some none
      ↔ (initSuperblock drv partitionNumber).ext2Signature ≠ ext2Signature := by
  have folded : (partitionAt (mbrParse drv) partitionNumber).lbaStart * 512 % 2 ^ 32
      = initOffset drv partitionNumber := rfl
  rw [ext2Init]
  dsimp only
  simp only [folded, initSuperblock, superblockAt]
  split
  · next other => exact ⟨fun _ => other, fun _ => rfl⟩
  next signature =>
  refine ⟨fun made => ?_, fun other => absurd other signature⟩
  split at made
  · cases made
  split at made
  · cases made
  · cases Option.some.inj made

/-- `ext2_init` returns a file system exactly when it has the signature, does not panic and does not
divide by zero.
-/
theorem ext2Init_some_iff {fs : Ext2Fs}
    : ext2Init drv partitionNumber heap = some (some fs)
      ↔ (initSuperblock drv partitionNumber).ext2Signature = ext2Signature
        ∧ ¬ (initSuperblock drv partitionNumber).Panics
        ∧ (initSuperblock drv partitionNumber).blocksPerGroup ≠ 0
        ∧ (initSuperblock drv partitionNumber).inodesPerGroup ≠ 0
        ∧ (initSuperblock drv partitionNumber).fs drv
            (initOffset drv partitionNumber) heap = fs := by
  have folded : (partitionAt (mbrParse drv) partitionNumber).lbaStart * 512 % 2 ^ 32
      = initOffset drv partitionNumber := rfl
  rw [ext2Init]
  dsimp only
  simp only [folded, initSuperblock, superblockAt, Ext2Superblock.Panics, Ext2Superblock.fs,
    Ext2Superblock.groupsCount, Ext2Superblock.blockSize]
  simp only [Ext2Superblock.greater, Ext2Superblock.gdOffset]
  split
  · next other => exact ⟨fun made => absurd made (by simp), fun holds => absurd holds.1 other⟩
  next signature =>
  split
  · next panics => exact ⟨fun made => absurd made (by simp), fun holds => absurd panics holds.2.1⟩
  next goesOn =>
  split
  · next zero =>
    exact ⟨fun made => absurd made (by simp),
      fun holds => absurd zero (not_or.mpr ⟨holds.2.2.1, holds.2.2.2.1⟩)⟩
  · next counts =>
    obtain ⟨blocks, inodes⟩ := not_or.mp counts
    rw [Option.some.injEq, Option.some.injEq]
    exact ⟨fun made => ⟨not_not.mp signature, goesOn, blocks, inodes, made⟩,
      fun holds => holds.2.2.2.2⟩

/-- A quotient that is rounded up stays below a bound exactly when the bound's multiple covers the
dividend.
-/
theorem divideUp_le_iff {a b n : Nat} (positive : b ≠ 0) : divideUp a b ≤ n ↔ a ≤ n * b := by
  have whole := Nat.div_add_mod a b
  have below := Nat.mod_lt a (Nat.pos_of_ne_zero positive)
  rw [divideUp]
  constructor
  · intro bound
    split at bound
    · calc a = b * (a / b) + a % b := whole.symm
        _ ≤ b * (a / b) + b := by omega
        _ = (a / b + 1) * b := by rw [Nat.add_one_mul, Nat.mul_comm]
        _ ≤ n * b := Nat.mul_le_mul_right b bound
    · next exact' =>
        calc a = a / b * b := by rw [Nat.mul_comm]; omega
          _ ≤ n * b := Nat.mul_le_mul_right b bound
  · intro covers
    have bound : a / b ≤ n := Nat.div_le_of_le_mul (by rwa [Nat.mul_comm])
    split
    · next rest =>
        rcases Nat.lt_or_eq_of_le bound with less | same
        · exact less
        · rw [same, Nat.mul_comm] at whole
          omega
    · exact bound

/-- The number of groups is below a bound exactly when both counts are covered. -/
theorem Ext2Superblock.groupsCount_le_iff {n : Nat} (blocks : sb.blocksPerGroup ≠ 0)
    (inodes : sb.inodesPerGroup ≠ 0)
    : sb.groupsCount ≤ n
      ↔ sb.blocksCount ≤ n * sb.blocksPerGroup ∧ sb.inodesCount ≤ n * sb.inodesPerGroup := by
  rw [← divideUp_le_iff blocks, ← divideUp_le_iff inodes, groupsCount, greater]
  grind

/-- The block size is the one of the superblock exactly when it has less than 4 GiB. -/
theorem Ext2Superblock.blockSize_iff
    : sb.blockSize = 1024 * 2 ^ sb.log2BlockSizeMinus10 ↔ sb.log2BlockSizeMinus10 ≤ 21 := by
  rw [blockSize]
  generalize sb.log2BlockSizeMinus10 = log2
  constructor
  · intro same
    by_contra large
    have many : 2 ^ 22 ≤ 2 ^ log2 := Nat.pow_le_pow_right (by decide) (by omega)
    have small := Nat.mod_lt (1024 * 2 ^ (log2 % 32)) (Nat.two_pow_pos 32)
    omega
  · intro small
    have few : 2 ^ log2 ≤ 2 ^ 21 := Nat.pow_le_pow_right (by decide) small
    rw [Nat.mod_eq_of_lt (show log2 < 32 by omega), Nat.mod_eq_of_lt (by omega)]

theorem Ext2Superblock.WellFormed.blockSize_eq (h : sb.WellFormed)
    : sb.blockSize = 1024 * 2 ^ sb.log2BlockSizeMinus10 :=
  blockSize_iff.mpr h.log2BlockSize

/-- With blocks of less than 4 GiB, no divisor of `ext2_get_block_offset` is zero: when the square
of the number of pointers in a block wraps, it wraps to 0, and the branches that divide by it are
not taken.
-/
theorem Ext2.blockDivisors_ne_zero {e : Ext2} {log2 : Nat} (size : e.blockSize = 1024 * 2 ^ log2)
    (small : log2 ≤ 21) (blockNbr : Nat)
    : ∀ d ∈ e.blockDivisors blockNbr, d ≠ 0 := by
  have positive := Nat.two_pow_pos log2
  have few : 2 ^ log2 ≤ 2 ^ 21 := Nat.pow_le_pow_right (by decide) small
  have pointers : e.blockSize / 4 = 256 * 2 ^ log2 := by omega
  rw [blockDivisors, pointers]
  intro d member
  split at member
  · cases member
  split at member
  · cases member
  next direct single =>
  split at member
  · obtain rfl := List.mem_singleton.mp member
    omega
  split at member
  · next double triple =>
    rcases Nat.lt_or_ge log2 8 with fits | wraps
    · have pages : 2 ^ log2 ≤ 2 ^ 7 := Nat.pow_le_pow_right (by decide) (by omega)
      have square : 256 * 2 ^ log2 * (256 * 2 ^ log2) ≤ 2 ^ 15 * 2 ^ 15 :=
        Nat.mul_le_mul (by omega) (by omega)
      have positive' : 0 < 256 * 2 ^ log2 * (256 * 2 ^ log2) := by positivity
      rcases List.mem_pair.mp member with rfl | rfl <;> omega
    · obtain ⟨k, rfl⟩ := Nat.exists_eq_add_of_le wraps
      have square : 256 * 2 ^ (8 + k) * (256 * 2 ^ (8 + k)) = 2 ^ 32 * (2 ^ k * 2 ^ k) := by ring
      have cube : 256 * 2 ^ (8 + k) * (256 * 2 ^ (8 + k)) * (256 * 2 ^ (8 + k))
          = 2 ^ 32 * (2 ^ k * 2 ^ k * (256 * 2 ^ (8 + k))) := by
        rw [square]
        ring
      rw [cube, square] at triple
      omega
  · cases member

/-- A file system made from a superblock that is well formed can be read. -/
theorem Ext2Superblock.WellFormed.sound (h : sb.WellFormed) (drv : Nat → UInt8) (pOffset : Nat)
    (heap : Nat → Nat)
    : sb.Sound (sb.fs drv pOffset heap) := by
  have size : (sb.fs drv pOffset heap).ext2.blockSize = 1024 * 2 ^ sb.log2BlockSizeMinus10 :=
    h.blockSize_eq
  have groups : sb.groupsCount ≤ 2 ^ 27 - 1 :=
    (groupsCount_le_iff h.blocksPerGroup h.inodesPerGroup).mpr ⟨h.blockGroups, h.inodeGroups⟩
  refine ⟨h.blocksPerGroup, h.inodesPerGroup, ?_, size, ?_, h.inodeSize, ?_⟩
  · rw [size]
    positivity
  · rw [sizeofGroup]
    omega
  · exact Ext2.blockDivisors_ne_zero size h.log2BlockSize

/-- The other way round, a file system can be read only when its superblock is well formed. -/
theorem Ext2Superblock.Sound.wellFormed {pOffset : Nat} (h : sb.Sound (sb.fs drv pOffset heap))
    (signature : sb.ext2Signature = Hydrangea.ext2Signature) (goesOn : ¬ sb.Panics)
    : sb.WellFormed := by
  have groups : sb.groupsCount ≤ 2 ^ 27 - 1 := by
    have descriptors := h.descriptors
    rw [sizeofGroup] at descriptors
    omega
  obtain ⟨blocks, inodes⟩ := (groupsCount_le_iff h.blocksPerGroup h.inodesPerGroup).mp groups
  exact ⟨signature, goesOn, h.blocksPerGroup, h.inodesPerGroup, blockSize_iff.mp h.exact, blocks,
    inodes, h.inodeSize⟩

/-- `ext2_init` returns null or a file system that can be read if and only if the superblock has
not the signature or is well formed. What `ext2_init` checks is the signature; a divisor that is 0
keeps it from going on. All that a reader relies on beyond that must therefore be in the
superblock.
-/
theorem ext2Init_sound_iff (drv : Nat → UInt8) (partitionNumber : Nat) (heap : Nat → Nat)
    : (ext2Init drv partitionNumber heap = some none
        ∨ ∃ fs, ext2Init drv partitionNumber heap = some (some fs)
          ∧ (initSuperblock drv partitionNumber).Sound fs)
      ↔ (initSuperblock drv partitionNumber).ext2Signature ≠ ext2Signature
        ∨ (initSuperblock drv partitionNumber).WellFormed := by
  constructor
  · rintro (null | ⟨fs, made, sound⟩)
    · exact .inl (ext2Init_null_iff.mp null)
    · obtain ⟨signature, goesOn, -, -, rfl⟩ := ext2Init_some_iff.mp made
      exact .inr (sound.wellFormed signature goesOn)
  · rintro (other | wellFormed)
    · exact .inl (ext2Init_null_iff.mpr other)
    · refine .inr ⟨_, ext2Init_some_iff.mpr ⟨wellFormed.signature, wellFormed.goesOn,
        wellFormed.blocksPerGroup, wellFormed.inodesPerGroup, rfl⟩, wellFormed.sound ..⟩

/-- A disk whose first partition starts at 0 and has the signature in a superblock of zeros. -/
def zeroSuperblock (a : Nat) : UInt8 :=
  if a = 0x438 then 0x53 else if a = 0x439 then 0xEF else 0

/-- `ext2_init` divides by zero there. -/
theorem not_ext2Init_sound_zeroSuperblock
    : ext2Init zeroSuperblock 0 (fun _ => 0) = none
      ∧ ¬ (ext2Init zeroSuperblock 0 (fun _ => 0) = some none
        ∨ ∃ fs, ext2Init zeroSuperblock 0 (fun _ => 0) = some (some fs)
          ∧ (initSuperblock zeroSuperblock 0).Sound fs) := by
  have stops : ext2Init zeroSuperblock 0 (fun _ => 0) = none :=
    Option.isNone_iff_eq_none.mp (by decide +kernel)
  refine ⟨stops, ?_⟩
  rw [stops]
  rintro (null | ⟨fs, made, -⟩)
  · cases null
  · cases made

-----------------------------------------------------------------------------------------
-- Where the inodes of a partition are
-----------------------------------------------------------------------------------------

def partitionSuperblock (drv : Nat → UInt8) (partitionNumber : Nat) : Ext2Superblock :=
  superblockAt drv (lbaStart drv partitionNumber * 512)

/-- The `inode_table_starting_block_addr` of a group, where the format has its descriptor. -/
def inodeTableBlock (drv : Nat → UInt8) (partitionNumber group : Nat) : Nat :=
  readWord drv (lbaStart drv partitionNumber * 512
    + Ext2Superblock.gdOffset (partitionSuperblock drv partitionNumber).blockSize
    + sizeofGroup * group + 8)

/-- `ext2_init` computes the offset of the partition, and `ext2_get_inode_offset` the offset of each
of its inodes.
-/
def FindsInodes (drv : Nat → UInt8) (partitionNumber : Nat) (heap : Nat → Nat) : Prop :=
  let sb := partitionSuperblock drv partitionNumber
  ∃ fs, ext2Init drv partitionNumber heap = some (some fs)
    ∧ fs.pOffset = lbaStart drv partitionNumber * 512
    ∧ ∀ i, 1 ≤ i → i ≤ sb.inodesCount
      → fs.ext2.group i < sb.groupsCount
        ∧ fs.ext2.getInodeOffset i
          = inodeTableBlock drv partitionNumber ((i - 1) / sb.inodesPerGroup) * sb.blockSize
            + (i - 1) % sb.inodesPerGroup * sb.inodeSize

/-- A number of so many bytes. -/
theorem field_lt (bytes : List UInt8) (offset size : Nat) : field bytes offset size < 256 ^ size := by
  have digits : ∀ d ∈ ((bytes.drop offset).take size).map UInt8.toNat, d < 256 := by
    intro d member
    obtain ⟨b, -, rfl⟩ := List.mem_map.mp member
    exact b.toNat_lt
  have bound := Nat.ofDigits_lt_base_pow_length (by decide) digits
  rw [List.length_map] at bound
  refine Nat.lt_of_lt_of_le bound (Nat.pow_le_pow_right (by decide) ?_)
  exact List.length_take_le _ _

theorem superblockAt_inodesCount (drv : Nat → UInt8) (offset : Nat)
    : (superblockAt drv offset).inodesCount < 2 ^ 32 := by
  simp only [superblockAt]
  exact Nat.lt_of_lt_of_eq (field_lt _ 0 4) (by decide)

/-- A descriptor that was read is the one on the drive. -/
theorem Ext2Superblock.WellFormed.inodeTable_eq (h : sb.WellFormed) (drv : Nat → UInt8)
    (pOffset : Nat) (heap : Nat → Nat) {group : Nat} (inside : group < sb.groupsCount)
    : (sb.fs drv pOffset heap).ext2.inodeTable group
      = readWord drv (pOffset + gdOffset sb.blockSize + sizeofGroup * group + 8) := by
  have descriptors := (h.sound drv pOffset heap).descriptors
  simp only [fs, fieldAt, length_ataReadB, Nat.mod_eq_of_lt descriptors]
  rw [if_pos (by rw [sizeofGroup]; omega), Option.getD_some, ataReadB_eq,
    field_range (by rw [sizeofGroup]; omega), Nat.add_assoc _ _ 8]

theorem Ext2.group_eq {e : Ext2} {i : Nat} (positive : 1 ≤ i) (small : i < 2 ^ 32)
    : e.group i = (i - 1) / e.inodesPerGroup ∧ e.index i = (i - 1) % e.inodesPerGroup := by
  have number : (i + 2 ^ 32 - 1) % 2 ^ 32 = i - 1 := by omega
  exact ⟨by rw [group, number], by rw [index, number]⟩

theorem Ext2Superblock.WellFormed.group_lt (h : sb.WellFormed) {i : Nat} (positive : 1 ≤ i)
    (inside : i ≤ sb.inodesCount)
    : (i - 1) / sb.inodesPerGroup < sb.groupsCount := by
  have covered := (groupsCount_le_iff h.blocksPerGroup h.inodesPerGroup).mp (Nat.le_refl _)
  rw [Nat.div_lt_iff_lt_mul (Nat.pos_of_ne_zero h.inodesPerGroup)]
  omega

/-- The offset of a partition below 4 GiB. -/
theorem initOffset_eq_iff
    : initOffset drv partitionNumber = lbaStart drv partitionNumber * 512
      ↔ lbaStart drv partitionNumber < 2 ^ 23 := by
  rw [initOffset]
  omega

/-- The offset of an inode in a partition below 4 GiB, by the descriptor of its group on the drive.
-/
theorem Ext2Superblock.WellFormed.getInodeOffset_eq (h : sb.WellFormed) (heap : Nat → Nat)
    {pOffset i : Nat} (positive : 1 ≤ i) (inside : i ≤ sb.inodesCount) (small : sb.inodesCount < 2 ^ 32)
    : (sb.fs drv pOffset heap).ext2.group i < sb.groupsCount
      ∧ (sb.fs drv pOffset heap).ext2.getInodeOffset i
        = readWord drv
            (pOffset + gdOffset sb.blockSize + sizeofGroup * ((i - 1) / sb.inodesPerGroup) + 8)
          * sb.blockSize % 2 ^ 32 + (i - 1) % sb.inodesPerGroup * sb.inodeSize := by
  obtain ⟨group, index⟩ :=
    Ext2.group_eq (e := (sb.fs drv pOffset heap).ext2) positive (by omega)
  have below := h.group_lt positive inside
  rw [Ext2.getInodeOffset, group, index]
  refine ⟨below, ?_⟩
  rw [← h.inodeTable_eq drv pOffset heap below]
  rfl

/-- What `ext2_init` reads of a partition in the first 4 GiB of the drive. -/
theorem initSuperblock_eq (near : lbaStart drv partitionNumber < 2 ^ 23)
    : initSuperblock drv partitionNumber = partitionSuperblock drv partitionNumber := by
  rw [initSuperblock, initOffset_eq_iff.mpr near, partitionSuperblock]

/-- In a partition with a superblock that is well formed, the offsets are those of the format if
and only if the partition starts in the first 4 GiB of the drive and its inode tables in its own
first 4 GiB. Both products are computed in 32 bits, and they are right exactly if they fit.
-/
theorem findsInodes_iff (heap : Nat → Nat)
    (h : (partitionSuperblock drv partitionNumber).WellFormed)
    : FindsInodes drv partitionNumber heap
      ↔ lbaStart drv partitionNumber < 2 ^ 23
        ∧ ∀ i, 1 ≤ i → i ≤ (partitionSuperblock drv partitionNumber).inodesCount
          → inodeTableBlock drv partitionNumber
                ((i - 1) / (partitionSuperblock drv partitionNumber).inodesPerGroup)
              * (partitionSuperblock drv partitionNumber).blockSize
            < 2 ^ 32 := by
  have small := superblockAt_inodesCount drv (lbaStart drv partitionNumber * 512)
  rw [← partitionSuperblock] at small
  constructor
  · rintro ⟨fs, made, offset, finds⟩
    obtain ⟨-, -, -, -, rfl⟩ := ext2Init_some_iff.mp made
    have near := initOffset_eq_iff.mp offset
    refine ⟨near, fun i positive inside => ?_⟩
    have here := (finds i positive inside).2
    rw [initSuperblock_eq near, initOffset_eq_iff.mpr near,
      (h.getInodeOffset_eq heap positive inside small).2, ← inodeTableBlock] at here
    rw [← Nat.add_right_cancel here]
    exact Nat.mod_lt _ (Nat.two_pow_pos 32)
  · rintro ⟨near, tables⟩
    have read := initSuperblock_eq near
    have offset := initOffset_eq_iff.mpr near
    refine ⟨(partitionSuperblock drv partitionNumber).fs drv
      (lbaStart drv partitionNumber * 512) heap, ?_, rfl, fun i positive inside => ?_⟩
    · refine ext2Init_some_iff.mpr ?_
      rw [read, offset]
      exact ⟨h.signature, h.goesOn, h.blocksPerGroup, h.inodesPerGroup, rfl⟩
    · obtain ⟨group, here⟩ := h.getInodeOffset_eq heap positive inside small
      refine ⟨group, here.trans ?_⟩
      rw [← inodeTableBlock, Nat.mod_eq_of_lt (tables i positive inside)]

/-- A disk whose first partition starts at a block, with a superblock for 16 blocks and 8 inodes
and an inode table in block 4.
-/
def partitionImage (lba : Nat) (a : Nat) : UInt8 :=
  let b := lba * 512
  if 454 ≤ a ∧ a < 458 then UInt8.ofNat (lba / 256 ^ (a - 454))
  else if a = b + 0x400 then 8
  else if a = b + 0x404 then 16
  else if a = b + 0x421 then 0x20
  else if a = b + 0x428 then 8
  else if a = b + 0x438 then 0x53
  else if a = b + 0x439 then 0xEF
  else if a = b + 0x458 then 128
  else if a = b + 0x808 then 4
  else 0

theorem partitionImage_near : (partitionSuperblock (partitionImage 2048) 0).WellFormed := by
  constructor <;> decide +kernel

theorem partitionImage_far : (partitionSuperblock (partitionImage (2 ^ 23)) 0).WellFormed := by
  constructor <;> decide +kernel

/-- The inodes of a partition at 1 MiB are found. -/
theorem findsInodes_near : FindsInodes (partitionImage 2048) 0 (fun _ => 0) := by
  refine (findsInodes_iff _ partitionImage_near).mpr ⟨by decide +kernel, fun i positive inside => ?_⟩
  have perGroup : (partitionSuperblock (partitionImage 2048) 0).inodesPerGroup = 8 := by
    decide +kernel
  have inodes : (partitionSuperblock (partitionImage 2048) 0).inodesCount = 8 := by decide +kernel
  rw [inodes] at inside
  have group : (i - 1) / 8 = 0 := by omega
  rw [perGroup, group]
  decide +kernel

/-- The offset of a partition at 4 GiB is taken for 0. -/
theorem not_findsInodes_far
    : (partitionSuperblock (partitionImage (2 ^ 23)) 0).WellFormed
      ∧ ¬ FindsInodes (partitionImage (2 ^ 23)) 0 (fun _ => 0) := by
  refine ⟨partitionImage_far, ?_⟩
  rintro ⟨fs, made, offset, -⟩
  obtain ⟨-, -, -, -, rfl⟩ := ext2Init_some_iff.mp made
  have near := initOffset_eq_iff.mp offset
  revert near
  decide +kernel

end Hydrangea
