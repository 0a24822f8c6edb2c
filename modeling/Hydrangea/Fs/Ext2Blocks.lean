import Hydrangea.Fs.Ext2

/-! Where the blocks of an inode lie according to the ext2 format, and for which blocks
`ext2_get_block_offset` finds them.
-/

namespace Hydrangea

/-- A field of a packed structure is a word of the drive it was read from. -/
theorem field_range {drv : Nat → UInt8} {a k n : Nat} (inside : k + 4 ≤ n)
    : field ((List.range n).map (fun i => drv (a + i))) k 4 = readWord drv (a + k) := by
  rw [field, readWord, ataReadB_eq]
  congr 1
  refine List.ext_getElem (by simp; omega) (fun i h h' => ?_)
  simp [Nat.add_assoc]

namespace Ext2Fs

/-- An ext2 file system of the three block sizes. -/
structure WellFormed (fs : Ext2Fs) : Prop where
  blockSize : fs.ext2.blockSize = 1024 ∨ fs.ext2.blockSize = 2048 ∨ fs.ext2.blockSize = 4096
  inodeSize : 128 ≤ fs.ext2.inodeSize
  inodesPerGroup : 0 < fs.ext2.inodesPerGroup

def storedInode (fs : Ext2Fs) (inodeNumber : Nat) : Ext2Inode :=
  let table := fs.pOffset + fs.ext2.inodeTable (fs.ext2.group inodeNumber) * fs.ext2.blockSize
  let position := table + fs.ext2.index inodeNumber * fs.ext2.inodeSize
  Ext2Inode.ofBytes ((List.range fs.ext2.inodeSize).map (fun i => fs.drv (position + i)))

/-- The entry of an indirect block. Without an indirect block all its entries are 0. -/
def entry (fs : Ext2Fs) (pointer k : Nat) : Nat :=
  if pointer = 0 then
    0
  else
    readWord fs.drv (fs.pOffset + pointer * fs.ext2.blockSize + 4 * k)

def pointers (fs : Ext2Fs) : Nat :=
  fs.ext2.blockSize / 4

/-- The number of the physical block that the format assigns to a block of an inode, 0 for a
hole.
-/
def physicalBlock (fs : Ext2Fs) (inode : Ext2Inode) (b : Nat) : Nat :=
  let p := fs.pointers
  if b < 12 then
    inode.directBlockPointer b
  else if b < 12 + p then
    fs.entry inode.singlyIndirectBlockPointer (b - 12)
  else if b < 12 + p + p ^ 2 then
    let i := b - 12 - p
    fs.entry (fs.entry inode.doublyIndirectBlockPointer (i / p)) (i % p)
  else
    let i := b - 12 - p - p ^ 2
    fs.entry
      (fs.entry (fs.entry inode.triplyIndirectBlockPointer (i / p ^ 2)) (i % p ^ 2 / p))
      (i % p)

/-- `ext2_get_block_offset` finds the block where the format has it. -/
def FindsBlock (fs : Ext2Fs) (inodeNumber b : Nat) : Prop :=
  fs.getBlockOffset inodeNumber b
    = fs.ext2.blockSize * fs.physicalBlock (fs.storedInode inodeNumber) b

/-- The inode table of the inode lies in the first 4 GiB of the partition. -/
def TableBelow (fs : Ext2Fs) (inodeNumber : Nat) : Prop :=
  fs.ext2.inodeTable (fs.ext2.group inodeNumber) * fs.ext2.blockSize < 2 ^ 32

/-- What `ext2_get_block_offset` reads for the block lies in the first 4 GiB of the partition,
and the block is a direct one or one behind the singly indirect pointer.
-/
def ReadsBelow (fs : Ext2Fs) (inodeNumber b : Nat) : Prop :=
  fs.TableBelow inodeNumber
    ∧ (b < 12
      ∨ b < 12 + fs.pointers
        ∧ (fs.storedInode inodeNumber).singlyIndirectBlockPointer * fs.ext2.blockSize
          + 4 * (b - 12) < 2 ^ 32)

/-- A direct block is found in the first 4 GiB. A block behind the singly indirect pointer is
found there too if the partition offset is a multiple of 4 GiB. If that pointer is 0, the
entry is taken from block 0 of the partition, and has to cancel out.
-/
def Resolves (fs : Ext2Fs) (inodeNumber b : Nat) : Prop :=
  let inode := fs.storedInode inodeNumber
  fs.ReadsBelow inodeNumber b
    ∧ (if b < 12 then
        inode.directBlockPointer b * fs.ext2.blockSize < 2 ^ 32
      else if inode.singlyIndirectBlockPointer = 0 then
        (fs.pOffset + readWord fs.drv (fs.pOffset + 4 * (b - 12)) * fs.ext2.blockSize) % 2 ^ 32
          = 0
      else
        fs.pOffset % 2 ^ 32 = 0
          ∧ fs.entry inode.singlyIndirectBlockPointer (b - 12) * fs.ext2.blockSize < 2 ^ 32)

instance (fs : Ext2Fs) (inodeNumber b : Nat) : Decidable (fs.FindsBlock inodeNumber b) :=
  inferInstanceAs (Decidable (_ = _))

instance (fs : Ext2Fs) (inodeNumber : Nat) : Decidable (fs.TableBelow inodeNumber) :=
  inferInstanceAs (Decidable (_ < _))

instance (fs : Ext2Fs) (inodeNumber b : Nat) : Decidable (fs.ReadsBelow inodeNumber b) :=
  inferInstanceAs (Decidable (_ ∧ _))

instance (fs : Ext2Fs) (inodeNumber b : Nat) : Decidable (fs.Resolves inodeNumber b) :=
  inferInstanceAs (Decidable (_ ∧ _))

variable {fs : Ext2Fs} {inodeNumber b : Nat}

/-- `ext2_get_inode` reads the inode, if its table lies in the first 4 GiB. -/
theorem TableBelow.getInode_eq (below : fs.TableBelow inodeNumber)
    : fs.getInode inodeNumber = fs.storedInode inodeNumber := by
  have position : fs.ext2.getInodeOffset inodeNumber
      = fs.ext2.inodeTable (fs.ext2.group inodeNumber) * fs.ext2.blockSize
        + fs.ext2.index inodeNumber * fs.ext2.inodeSize := by
    rw [Ext2.getInodeOffset, Nat.mod_eq_of_lt below]
  simp only [getInode, storedInode, position, ataReadB_eq, Nat.add_assoc]

/-- A block offset that the code computes is right exactly when the block lies in the first
4 GiB.
-/
theorem mod_eq_mul_iff {block size : Nat}
    : block * size % 2 ^ 32 = size * block ↔ block * size < 2 ^ 32 := by
  rw [Nat.mul_comm size block]
  constructor
  · intro same
    rw [← same]
    exact Nat.mod_lt _ (Nat.two_pow_pos 32)
  · exact Nat.mod_eq_of_lt

/-- With the partition offset added, it is right exactly when that is a multiple of 4 GiB as
well.
-/
theorem add_mod_eq_mul_iff {offset block size : Nat}
    : (offset + block * size % 2 ^ 32) % 2 ^ 32 = size * block
      ↔ offset % 2 ^ 32 = 0 ∧ block * size < 2 ^ 32 := by
  rw [Nat.mul_comm size block]
  generalize block * size = position
  omega

theorem findsBlock_direct (below : fs.TableBelow inodeNumber) (direct : b < 12)
    : fs.FindsBlock inodeNumber b
      ↔ (fs.storedInode inodeNumber).directBlockPointer b * fs.ext2.blockSize < 2 ^ 32 := by
  simp only [FindsBlock, getBlockOffset, physicalBlock, direct, if_true, below.getInode_eq]
  exact mod_eq_mul_iff

/-- The offset of a block behind the singly indirect pointer, as the code computes it. -/
theorem getBlockOffset_singly (reads : fs.ReadsBelow inodeNumber b) (behind : ¬ b < 12)
    : fs.getBlockOffset inodeNumber b
      = (fs.pOffset + readWord fs.drv (fs.pOffset
          + ((fs.storedInode inodeNumber).singlyIndirectBlockPointer * fs.ext2.blockSize
            + 4 * (b - 12))) * fs.ext2.blockSize % 2 ^ 32) % 2 ^ 32 := by
  obtain ⟨below, inside⟩ := reads
  obtain ⟨singly, fits⟩ := inside.resolve_left behind
  have index : (b - 12) * 4 = 4 * (b - 12) := Nat.mul_comm _ _
  rw [pointers] at singly
  simp only [getBlockOffset, getSbptrOffset, behind, singly, if_false, if_true,
    below.getInode_eq, index, Nat.mod_eq_of_lt fits]

theorem findsBlock_singly (reads : fs.ReadsBelow inodeNumber b) (behind : ¬ b < 12)
    : fs.FindsBlock inodeNumber b ↔ fs.Resolves inodeNumber b := by
  have singly := (reads.2.resolve_left behind).1
  have physical : fs.physicalBlock (fs.storedInode inodeNumber) b
      = fs.entry (fs.storedInode inodeNumber).singlyIndirectBlockPointer (b - 12) := by
    simp only [physicalBlock, behind, singly, if_false, if_true]
  rw [FindsBlock, getBlockOffset_singly reads behind, physical, Resolves]
  simp only [reads, behind, if_false, true_and]
  by_cases hole : (fs.storedInode inodeNumber).singlyIndirectBlockPointer = 0
  · simp only [hole, entry, if_true, Nat.zero_mul, Nat.zero_add, Nat.mul_zero, Nat.add_mod_mod]
  · simp only [hole, entry, if_false, Nat.add_assoc]
    exact add_mod_eq_mul_iff

--------------------------------------------------
-- Images on which a block is not found
--------------------------------------------------

def imageDrive (offset : Nat) (words : Nat → UInt8) : Nat → UInt8 :=
  fun a => if offset ≤ a ∧ (a - offset) % 4 = 0 then words ((a - offset) / 4) else 0

theorem readWord_imageDrive (offset k : Nat) (words : Nat → UInt8)
    : readWord (imageDrive offset words) (offset + 4 * k) = (words k).toNat := by
  have first : imageDrive offset words (offset + 4 * k) = words k := by
    simp [imageDrive]
  have others (r : Nat) (low : 0 < r) (high : r < 4)
      : imageDrive offset words (offset + 4 * k + r) = 0 := by
    rw [imageDrive, if_neg]
    omega
  rw [readWord_eq, first, others 1, others 2, others 3] <;> simp

theorem readWord_imageDrive_eq_zero {offset a : Nat} {words : Nat → UInt8}
    (zero : ∀ k, a < offset + 4 * k + 4 → offset + 4 * k < a + 4 → words k = 0)
    : readWord (imageDrive offset words) a = 0 := by
  have byte (r : Nat) (high : r < 4) : imageDrive offset words (a + r) = 0 := by
    rw [imageDrive]
    split
    next stored =>
      apply zero
      · omega
      · omega
    next => rfl
  have start := byte 0 (by omega)
  rw [Nat.add_zero] at start
  rw [readWord_eq, start, byte 1, byte 2, byte 3] <;> simp

/-- The words of an image whose first inode has the indirect pointers 5, 7 and 6. The entry
`i` of block 6 is block 7, the entry `j` of block 7 is block 8, and the entry `k` of block 8 is
`last`.
-/
def chainWords (p i j k : Nat) (last : UInt8) : Nat → UInt8 :=
  fun w =>
    if w = 4 * p + 22 then 5
    else if w = 4 * p + 23 then 7
    else if w = 4 * p + 24 then 6
    else if w = 6 * p + i then 7
    else if w = 7 * p + j then 8
    else if w = 8 * p + k then last
    else 0

/-- That image, with blocks of `p` pointers. -/
def chainImage (pOffset p i j k : Nat) (last : UInt8) : Ext2Fs where
  drv := imageDrive pOffset (chainWords p i j k last)
  pOffset
  ext2 :=
    {
      inodeSize := 128,
      inodesPerGroup := 8,
      inodeTable := fun _ => 4,
      blockSize := 4 * p
    }

section

variable {pOffset p i j k : Nat} {last : UInt8}

@[simp]
theorem chainImage_pOffset : (chainImage pOffset p i j k last).pOffset = pOffset := rfl

@[simp]
theorem chainImage_blockSize
    : (chainImage pOffset p i j k last).ext2.blockSize = 4 * p := rfl

theorem readWord_chainImage (w : Nat)
    : readWord (chainImage pOffset p i j k last).drv (pOffset + 4 * w)
      = (chainWords p i j k last w).toNat :=
  readWord_imageDrive pOffset w _

/-- The indirect pointers of the first inode. -/
theorem chainImage_stored
    : let inode := (chainImage pOffset p i j k last).storedInode 1
      inode.singlyIndirectBlockPointer = 5 ∧ inode.doublyIndirectBlockPointer = 7
        ∧ inode.triplyIndirectBlockPointer = 6 := by
  have position (w : Nat)
      : pOffset + 4 * (4 * p) + 4 * w = pOffset + 4 * (4 * p + w) := by
    omega
  have pointer (w : Nat) (inside : 4 * w + 4 ≤ 128)
      : field ((List.range 128).map (fun r =>
          (chainImage pOffset p i j k last).drv (pOffset + 4 * (4 * p) + r))) (4 * w) 4
        = (chainWords p i j k last (4 * p + w)).toNat := by
    rw [field_range inside, position, readWord_chainImage]
  refine ⟨(pointer 22 (by omega)).trans ?_, (pointer 23 (by omega)).trans ?_,
    (pointer 24 (by omega)).trans ?_⟩ <;> simp [chainWords]

theorem entry_chainImage {block : Nat} (set : block ≠ 0) (index : Nat)
    : (chainImage pOffset p i j k last).entry block index
      = (chainWords p i j k last (block * p + index)).toNat := by
  have position : pOffset + block * (4 * p) + 4 * index = pOffset + 4 * (block * p + index) := by
    ring
  rw [entry, if_neg set, ← readWord_chainImage, ← position]
  rfl

/-- The entries of the indirect blocks that are set. -/
theorem entries_chainImage (pOffset k : Nat) (last : UInt8) (large : 256 ≤ p) (hi : i < p)
    (hj : j < p)
    : let fs := chainImage pOffset p i j k last
      fs.entry 6 i = 7 ∧ fs.entry 7 j = 8 ∧ fs.entry 8 k = last.toNat := by
  refine ⟨?_, ?_, ?_⟩
  · rw [entry_chainImage (by omega), chainWords, if_neg (by omega), if_neg (by omega),
      if_neg (by omega), if_pos rfl]
    rfl
  · rw [entry_chainImage (by omega), chainWords, if_neg (by omega), if_neg (by omega),
      if_neg (by omega), if_neg (by omega), if_pos rfl]
    rfl
  · rw [entry_chainImage (by omega), chainWords, if_neg (by omega), if_neg (by omega),
      if_neg (by omega), if_neg (by omega), if_neg (by omega), if_pos rfl]

/-- There is nothing before block 4, nor in block 5. -/
theorem readWord_chainImage_eq_zero {a : Nat} (large : 256 ≤ p)
    (empty : a + 4 ≤ pOffset + 16 * p ∨ pOffset + 20 * p ≤ a ∧ a + 4 ≤ pOffset + 24 * p)
    : readWord (chainImage pOffset p i j k last).drv a = 0 := by
  apply readWord_imageDrive_eq_zero
  intro w low high
  rw [chainWords, if_neg (by omega), if_neg (by omega), if_neg (by omega), if_neg (by omega),
    if_neg (by omega), if_neg (by omega)]

/-- Its inode table lies in the first 4 GiB. -/
theorem chainImage_tableBelow (small : p ≤ 1024)
    : (chainImage pOffset p i j k last).TableBelow 1 := by
  show 4 * (4 * p) < 2 ^ 32
  omega

/-- From block 5 the code is sent to the start of the partition. -/
theorem getSbptrOffset_chainImage {index : Nat} (large : 256 ≤ p) (small : p ≤ 1024)
    (inside : index < p)
    : (chainImage pOffset p i j k last).getSbptrOffset 1 index = pOffset := by
  have fits : 5 * (4 * p) + index < 2 ^ 32 := by omega
  have empty : pOffset + 20 * p ≤ pOffset + (5 * (4 * p) + index)
      ∧ pOffset + (5 * (4 * p) + index) + 4 ≤ pOffset + 24 * p := by
    omega
  simp only [getSbptrOffset, (chainImage_tableBelow small).getInode_eq, chainImage_stored.1,
    chainImage_pOffset, chainImage_blockSize, Nat.mod_eq_of_lt fits,
    readWord_chainImage_eq_zero large (.inr empty), Nat.zero_mul, Nat.zero_mod, Nat.add_zero]

/-- The start of the partition is empty, and so is the start of the drive. From there the code
is sent to the start of the partition again.
-/
theorem readWord_chainImage_start {index : Nat} (large : 256 ≤ p) (small : p ≤ 1024)
    (inside : index < p)
    : let drv := (chainImage pOffset p i j k last).drv
      readWord drv ((readWord drv pOffset * (4 * p) + index) % 2 ^ 32) = 0 := by
  have fits : index < 2 ^ 32 := by omega
  have start : readWord (chainImage pOffset p i j k last).drv pOffset = 0 := by
    apply readWord_chainImage_eq_zero large
    left
    omega
  simp only [start, Nat.zero_mul, Nat.zero_add, Nat.mod_eq_of_lt fits]
  apply readWord_chainImage_eq_zero large
  left
  omega

/-- So the second lookup and the third end there as well. -/
theorem getDbptrOffset_chainImage {index1 index2 : Nat} (large : 256 ≤ p) (small : p ≤ 1024)
    (inside1 : index1 < p) (inside2 : index2 < p)
    : (chainImage pOffset p i j k last).getDbptrOffset 1 index1 index2 = pOffset := by
  simp only [getDbptrOffset, getSbptrOffset_chainImage large small inside1, chainImage_pOffset,
    chainImage_blockSize, readWord_chainImage_start large small inside2, Nat.zero_mul,
    Nat.zero_mod, Nat.add_zero]

theorem getTbptrOffset_chainImage {index1 index2 index3 : Nat} (large : 256 ≤ p)
    (small : p ≤ 1024) (inside1 : index1 < p) (inside2 : index2 < p) (inside3 : index3 < p)
    : (chainImage pOffset p i j k last).getTbptrOffset 1 index1 index2 index3 = pOffset := by
  simp only [getTbptrOffset, getDbptrOffset_chainImage large small inside1 inside2,
    chainImage_pOffset, chainImage_blockSize, readWord_chainImage_start large small inside3,
    Nat.zero_mul, Nat.zero_mod, Nat.add_zero]

end

/-- For every block behind the doubly or the triply indirect pointer there is an image that
stores it in block `last`, and on which the code returns the offset of the partition.
-/
theorem exists_chainImage {p b : Nat} (large : 256 ≤ p) (small : p ≤ 1024)
    (behind : 12 + p ≤ b) (inside : b < 12 + p + p ^ 2 + p ^ 3) (pOffset : Nat) (last : UInt8)
    : ∃ i j k,
        let fs := chainImage pOffset p i j k last
        fs.physicalBlock (fs.storedInode 1) b = last.toNat
          ∧ fs.getBlockOffset 1 b = pOffset % 2 ^ 32 := by
  have positive : 0 < p := by omega
  have ppb : 4 * p / 4 = p := by omega
  have direct : ¬ b < 12 := by omega
  have singly : ¬ b < 12 + p := by omega
  -- the sums fit a `uint32_t`
  have square : p * p ≤ 1024 * 1024 := Nat.mul_le_mul small small
  have cube : p * p * p ≤ 1024 * 1024 * 1024 := Nat.mul_le_mul square small
  have fits : (12 + p + p * p) % 2 ^ 32 = 12 + p + p * p := Nat.mod_eq_of_lt (by omega)
  have fits' : (12 + p + p * p + p * p * p) % 2 ^ 32 = 12 + p + p * p + p * p * p :=
    Nat.mod_eq_of_lt (by omega)
  by_cases doubly : b < 12 + p + p ^ 2
  · have fits1 : (b - 12 - p) / p < p := by
      apply Nat.div_lt_of_lt_mul
      rw [← pow_two]
      omega
    have fits2 : (b - 12 - p) % p < p := Nat.mod_lt _ positive
    refine ⟨0, (b - 12 - p) / p, (b - 12 - p) % p, ?_, ?_⟩
    · have entries := entries_chainImage pOffset ((b - 12 - p) % p) last large positive fits1
      simp only [physicalBlock, pointers, chainImage_blockSize, ppb, direct, singly, doubly,
        if_false, if_true, chainImage_stored.2.1, entries.2.1, entries.2.2]
    · rw [pow_two] at doubly
      simp only [getBlockOffset, chainImage_blockSize, ppb, direct, singly, fits, doubly, if_false,
        if_true, getDbptrOffset_chainImage large small fits1 fits2]
  · have fits1 : (b - 12 - p - p ^ 2) / p ^ 2 < p := by
      apply Nat.div_lt_of_lt_mul
      have cube : p ^ 3 = p ^ 2 * p := pow_succ p 2
      omega
    have fits2 : (b - 12 - p - p ^ 2) % p ^ 2 / p < p := by
      apply Nat.div_lt_of_lt_mul
      rw [← pow_two]
      exact Nat.mod_lt _ (by positivity)
    refine ⟨(b - 12 - p - p ^ 2) / p ^ 2, (b - 12 - p - p ^ 2) % p ^ 2 / p,
      (b - 12 - p - p ^ 2) % p, ?_, ?_⟩
    · have entries :=
        entries_chainImage pOffset ((b - 12 - p - p ^ 2) % p) last large fits1 fits2
      simp only [physicalBlock, pointers, chainImage_blockSize, ppb, direct, singly, doubly,
        if_false, chainImage_stored.2.2, entries.1, entries.2.1, entries.2.2]
    · have triply : b < 12 + p + p * p + p * p * p := by
        simpa only [pow_succ, pow_zero, one_mul] using inside
      rw [pow_two] at doubly fits1 fits2
      simp only [getBlockOffset, chainImage_blockSize, ppb, direct, singly, fits, doubly, fits',
        triply, if_false, if_true, pow_two]
      rw [getTbptrOffset_chainImage large small fits1 fits2 (Nat.mod_lt _ positive)]

/-- So no bound on the block numbers makes the code right for the blocks behind these
pointers.
-/
theorem exists_not_findsBlock {p b : Nat} (large : 256 ≤ p) (small : p ≤ 1024)
    (behind : 12 + p ≤ b) (inside : b < 12 + p + p ^ 2 + p ^ 3) (pOffset : Nat)
    : ∃ i j k last, ¬ (chainImage pOffset p i j k last).FindsBlock 1 b := by
  obtain ⟨i, j, k, physical, offset⟩ := exists_chainImage large small behind inside pOffset 11
  by_cases found : (chainImage pOffset p i j k 11).FindsBlock 1 b
  · obtain ⟨i', j', k', physical', offset'⟩ :=
      exists_chainImage large small behind inside pOffset 12
    refine ⟨i', j', k', 12, fun found' => ?_⟩
    rw [FindsBlock, physical, offset] at found
    rw [FindsBlock, physical', offset', found] at found'
    simp at found'
    omega
  · exact ⟨i, j, k, 11, found⟩

theorem chainImage_wellFormed {pOffset p i j k : Nat} {last : UInt8}
    (size : p = 256 ∨ p = 512 ∨ p = 1024)
    : (chainImage pOffset p i j k last).WellFormed where
  blockSize := by
    rw [chainImage_blockSize]
    omega
  inodeSize := Nat.le_refl 128
  inodesPerGroup := Nat.succ_pos 7

--------------------------------------------------
-- The blocks that are found
--------------------------------------------------

/-- The blocks that `Resolves` describes are found. Among the blocks whose reads stay in the first
4 GiB these are all the direct ones and all those behind the singly indirect pointer. For every
block behind the other two pointers there is an image, of the same block size and at the same
partition offset, on which it is not found. Direct blocks and those behind the first pointer are
computed; for the others the image is a chain of pointer blocks in which the block found is another
one.
-/
theorem findsBlock_iff_resolves (wellFormed : fs.WellFormed)
    (inside : b < 12 + fs.pointers + fs.pointers ^ 2 + fs.pointers ^ 3)
    : (fs.Resolves inodeNumber b → fs.FindsBlock inodeNumber b)
      ∧ (fs.ReadsBelow inodeNumber b
        → (fs.FindsBlock inodeNumber b ↔ fs.Resolves inodeNumber b))
      ∧ (12 + fs.pointers ≤ b
        → ∃ other : Ext2Fs,
            other.WellFormed
            ∧ other.ext2.blockSize = fs.ext2.blockSize
            ∧ other.pOffset = fs.pOffset
            ∧ other.TableBelow 1
            ∧ ¬ other.FindsBlock 1 b) := by
  have exact : fs.ReadsBelow inodeNumber b
      → (fs.FindsBlock inodeNumber b ↔ fs.Resolves inodeNumber b) := by
    intro reads
    by_cases direct : b < 12
    · rw [findsBlock_direct reads.1 direct]
      simp only [Resolves, reads, direct, if_true, true_and]
    · exact findsBlock_singly reads direct
  refine ⟨fun resolves => (exact resolves.1).mpr resolves, exact, fun behind => ?_⟩
  have size : fs.ext2.blockSize = 4 * fs.pointers
      ∧ (fs.pointers = 256 ∨ fs.pointers = 512 ∨ fs.pointers = 1024) := by
    have sizes := wellFormed.blockSize
    rw [pointers]
    omega
  obtain ⟨i, j, k, last, missed⟩ :=
    exists_not_findsBlock (by omega) (by omega) behind inside fs.pOffset
  exact ⟨chainImage fs.pOffset fs.pointers i j k last, chainImage_wellFormed size.2,
    size.1.symm, rfl, chainImage_tableBelow (by omega), missed⟩

/-- An image with blocks of 1024 bytes. The blocks 12 and 268 of its first inode are stored in
the blocks 9 and 10.
-/
def indirectImage (pOffset : Nat) : Ext2Fs where
  drv :=
    imageDrive pOffset
      (fun w =>
        if w = 4 * 256 + 22 then 5
        else if w = 4 * 256 + 23 then 7
        else if w = 5 * 256 then 9
        else if w = 7 * 256 then 8
        else if w = 8 * 256 then 10
        else 0)
  pOffset
  ext2 :=
    {
      inodeSize := 128,
      inodesPerGroup := 8,
      inodeTable := fun _ => 4,
      blockSize := 1024
    }

/-- On a partition at the start of the drive block 12 is found. -/
theorem findsBlock_indirectImage : (indirectImage 0).FindsBlock 1 12 := by
  have wellFormed : (indirectImage 0).WellFormed := ⟨by decide, by decide, by decide⟩
  apply (findsBlock_iff_resolves wellFormed (by decide)).1
  decide +kernel

/-- On a partition at 1 MiB neither block is found. -/
theorem not_findsBlock_indirectImage
    : (indirectImage 0x100000).WellFormed
      ∧ (indirectImage 0x100000).getBlockOffset 1 12 = 0x100000 + 9 * 1024
      ∧ ¬ (indirectImage 0x100000).FindsBlock 1 12
      ∧ ¬ (indirectImage 0x100000).FindsBlock 1 268 := by
  refine ⟨⟨by decide, by decide, by decide⟩, ?_, ?_, ?_⟩
  · decide +kernel
  · decide +kernel
  · decide +kernel

end Ext2Fs

end Hydrangea
