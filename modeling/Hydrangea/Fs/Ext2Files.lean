import Hydrangea.Fs.Ext2Blocks

/-! What a read of a regular file returns according to the ext2 format, and for which reads
`ext2_readfile` returns that.
-/

namespace Hydrangea

namespace Ext2Fs

/-- A byte of a file in direct blocks. The bytes of a hole are 0. -/
def fileByte (fs : Ext2Fs) (inodeNumber i : Nat) : UInt8 :=
  let bSize := fs.ext2.blockSize
  let pointer := (fs.storedInode inodeNumber).directBlockPointer (i / bSize)
  if pointer = 0 then
    0
  else
    fs.drv (fs.pOffset + pointer * bSize + i % bSize)

/-- The inode of a regular file whose blocks are all direct. -/
structure DirectFile (fs : Ext2Fs) (inodeNumber : Nat) : Prop where
  regular : (fs.storedInode inodeNumber).typePermissions &&& ext2InodeTypeFile ≠ 0
  direct : (fs.storedInode inodeNumber).size ≤ 12 * fs.ext2.blockSize

/-- `ext2_readfile` returns the number of bytes up to the end of the file, puts these bytes into
the buffer, and writes nothing behind the first `size` bytes, whatever the buffer held.
-/
def Reads (fs : Ext2Fs) (inodeNumber offset size : Nat) : Prop :=
  let n := min size ((fs.storedInode inodeNumber).size - offset)
  ∀ buffer,
    let result := fs.readfile inodeNumber offset size buffer
    result.1 = n
    ∧ (∀ i < n, result.2 i = some (fs.fileByte inodeNumber (offset + i)))
    ∧ (∀ i, size ≤ i → result.2 i = buffer i)

/-- A read within a block finds a byte of the file. It does if the block lies in the first
4 GiB. A hole is read from block 0 of the partition.
-/
def ByteServed (fs : Ext2Fs) (inodeNumber offset i : Nat) : Prop :=
  let bSize := fs.ext2.blockSize
  let pointer := (fs.storedInode inodeNumber).directBlockPointer (offset / bSize)
  if pointer = 0 then
    fs.drv (fs.pOffset + (offset % bSize + i)) = 0
  else
    fs.drv (fs.pOffset + (pointer * bSize % 2 ^ 32 + (offset % bSize + i)))
      = fs.drv (fs.pOffset + (pointer * bSize + (offset % bSize + i)))

/-- A read of nothing, a read at the end of the file of more than the whole file, and a read
that ends in the file and before the end of the block it starts in.
-/
def StaysInBlock (fs : Ext2Fs) (inodeNumber offset size : Nat) : Prop :=
  let bSize := fs.ext2.blockSize
  let length := (fs.storedInode inodeNumber).size
  size = 0
  ∨ (offset = length ∧ length < size)
  ∨ (offset + size ≤ length
    ∧ offset / bSize = (offset + size) / bSize
    ∧ ∀ i < size, fs.ByteServed inodeNumber offset i)

variable {fs : Ext2Fs} {inodeNumber offset size : Nat}

/-- A block in the first 4 GiB serves every read. -/
theorem byteServed_of_lt
    (set : (fs.storedInode inodeNumber).directBlockPointer (offset / fs.ext2.blockSize) ≠ 0)
    (low : (fs.storedInode inodeNumber).directBlockPointer (offset / fs.ext2.blockSize)
      * fs.ext2.blockSize < 2 ^ 32)
    (i : Nat)
    : fs.ByteServed inodeNumber offset i := by
  rw [ByteServed, if_neg set, Nat.mod_eq_of_lt low]

/-- What the drive returned is at the start of the buffer. -/
theorem write_ataReadB (drv : Nat → UInt8) (a : Nat) (buffer : Nat → Option UInt8) (i : Nat)
    : write buffer 0 (ataReadB drv a size) i
      = if i < size then some (drv (a + i)) else buffer i := by
  rw [write, ataReadB_eq]
  by_cases inside : i < size
  · simp [inside]
  · simp [inside]

/-- Nothing is read if nothing is asked for. -/
theorem readfile_zero (buffer : Nat → Option UInt8)
    : fs.readfile inodeNumber offset 0 buffer = (0, buffer) := by
  rw [readfile, if_pos rfl]

/-- Nothing is read if more than the file has is asked for. -/
theorem readfile_of_lt (below : fs.TableBelow inodeNumber)
    (long : (fs.storedInode inodeNumber).size < size) (buffer : Nat → Option UInt8)
    : fs.readfile inodeNumber offset size buffer = (0, buffer) := by
  have refused : (fs.storedInode inodeNumber).size = 0
      ∨ size > (fs.storedInode inodeNumber).size :=
    .inr long
  simp only [readfile, below.getInode_eq, refused, if_true, ite_self]

/-- That is right at the end of the file only. -/
theorem reads_of_lt (below : fs.TableBelow inodeNumber)
    (long : (fs.storedInode inodeNumber).size < size)
    : fs.Reads inodeNumber offset size ↔ (fs.storedInode inodeNumber).size ≤ offset := by
  simp only [Reads, readfile_of_lt below long]
  constructor
  · intro reads
    have count := (reads (fun _ => none)).1
    omega
  · intro behind buffer
    have count : min size ((fs.storedInode inodeNumber).size - offset) = 0 := by omega
    simp [count]

/-- What `ext2_readfile` does with a request that it accepts, up to `last`. -/
theorem readfile_accepted (below : fs.TableBelow inodeNumber)
    (file : fs.DirectFile inodeNumber) (positive : 0 < size)
    (fits : size ≤ (fs.storedInode inodeNumber).size) {last : Nat}
    (ends : last = min (offset + size) (fs.storedInode inodeNumber).size)
    (buffer : Nat → Option UInt8)
    : fs.readfile inodeNumber offset size buffer
      = (let bSize := fs.ext2.blockSize
        if offset / bSize = last / bSize then
          let bOffset := fs.getBlockOffset inodeNumber (offset / bSize)
          (size,
            write buffer 0
              (ataReadB fs.drv (fs.pOffset + bOffset + offset % bSize) size))
        else
          match readBlocks fs inodeNumber (offset / bSize) (last / bSize) (offset % bSize)
              (last % bSize) (last / bSize - offset / bSize) (offset / bSize) buffer with
          | (false, buffer) => (0, buffer)
          | (true, buffer) => (size, write buffer (fs.storedInode inodeNumber).size [0])) := by
  have accepted : ¬ ((fs.storedInode inodeNumber).size = 0
      ∨ size > (fs.storedInode inodeNumber).size) := by
    omega
  have cut : (if offset + size > (fs.storedInode inodeNumber).size then
      (fs.storedInode inodeNumber).size else offset + size) = last := by
    rw [ends]
    split <;> omega
  rw [← cut, readfile, if_neg positive.ne', below.getInode_eq]
  exact (if_neg file.regular).trans (if_neg accepted)

/-- A read that crosses a block either gives up with 0 or ends the buffer at the length of the
file.
-/
theorem readfile_crossing (below : fs.TableBelow inodeNumber)
    (file : fs.DirectFile inodeNumber) (positive : 0 < size)
    (fits : size ≤ (fs.storedInode inodeNumber).size)
    (crosses : offset / fs.ext2.blockSize
      ≠ min (offset + size) (fs.storedInode inodeNumber).size / fs.ext2.blockSize)
    (buffer : Nat → Option UInt8)
    : let result := fs.readfile inodeNumber offset size buffer
      result.1 = 0 ∨ result.2 (fs.storedInode inodeNumber).size = some 0 := by
  rw [readfile_accepted below file positive fits rfl]
  simp only [crosses, if_false]
  split
  next => exact .inl rfl
  next => exact .inr (by simp [write])

/-- So it does not return what it should. -/
theorem not_reads_of_crossing (below : fs.TableBelow inodeNumber)
    (file : fs.DirectFile inodeNumber) (inside : offset ≤ (fs.storedInode inodeNumber).size)
    (positive : 0 < size) (fits : size ≤ (fs.storedInode inodeNumber).size)
    (crosses : offset / fs.ext2.blockSize
      ≠ min (offset + size) (fs.storedInode inodeNumber).size / fs.ext2.blockSize)
    : ¬ fs.Reads inodeNumber offset size := by
  intro reads
  obtain ⟨count, -, frame⟩ := reads (fun _ => none)
  have before : offset ≠ (fs.storedInode inodeNumber).size := by
    intro atEnd
    apply crosses
    rw [← atEnd, Nat.min_eq_right (Nat.le_add_right offset size)]
  rcases readfile_crossing below file positive fits crosses (fun _ => none) with none | ended
  · omega
  · have untouched := frame _ fits
    rw [ended] at untouched
    cases untouched

/-- Positions that a read within a block passes. -/
theorem div_mod_within {bSize i : Nat} (same : offset / bSize = (offset + size) / bSize)
    (inside : i < size)
    : (offset + i) / bSize = offset / bSize
      ∧ (offset + i) % bSize = offset % bSize + i := by
  have first : offset / bSize ≤ (offset + i) / bSize :=
    Nat.div_le_div_right (Nat.le_add_right offset i)
  have second : (offset + i) / bSize ≤ (offset + size) / bSize :=
    Nat.div_le_div_right (by omega)
  have block : (offset + i) / bSize = offset / bSize := by omega
  have split := Nat.div_add_mod offset bSize
  have splitBehind := Nat.div_add_mod (offset + i) bSize
  rw [block] at splitBehind
  exact ⟨block, by omega⟩

/-- The bytes of a file that a read within a block passes. -/
theorem fileByte_within {i : Nat}
    (same : offset / fs.ext2.blockSize = (offset + size) / fs.ext2.blockSize)
    (inside : i < size)
    : fs.fileByte inodeNumber (offset + i)
      = (let bSize := fs.ext2.blockSize
        let pointer := (fs.storedInode inodeNumber).directBlockPointer (offset / bSize)
        if pointer = 0 then
          0
        else
          fs.drv (fs.pOffset + pointer * bSize + (offset % bSize + i))) := by
  obtain ⟨block, position⟩ := div_mod_within same inside
  simp only [fileByte, block, position]

/-- The byte that a read within a block takes is the byte of the file exactly when the block
serves it.
-/
theorem served_iff {i : Nat} (below : fs.TableBelow inodeNumber)
    (direct : offset / fs.ext2.blockSize < 12)
    (same : offset / fs.ext2.blockSize = (offset + size) / fs.ext2.blockSize)
    (inside : i < size)
    : some (fs.drv (fs.pOffset
          + fs.getBlockOffset inodeNumber (offset / fs.ext2.blockSize)
          + offset % fs.ext2.blockSize + i))
        = some (fs.fileByte inodeNumber (offset + i))
      ↔ fs.ByteServed inodeNumber offset i := by
  have position : fs.getBlockOffset inodeNumber (offset / fs.ext2.blockSize)
      = (fs.storedInode inodeNumber).directBlockPointer (offset / fs.ext2.blockSize)
        * fs.ext2.blockSize % 2 ^ 32 := by
    simp only [getBlockOffset, direct, if_true, below.getInode_eq]
  rw [fileByte_within same inside, position, ByteServed, Option.some_inj]
  by_cases hole : (fs.storedInode inodeNumber).directBlockPointer
      (offset / fs.ext2.blockSize) = 0
  · simp only [hole, if_true, Nat.zero_mul, Nat.zero_mod, Nat.add_zero, Nat.add_assoc]
  · simp only [hole, if_false, Nat.add_assoc]

/-- A read within a block returns what it should exactly when the block serves it. -/
theorem reads_within_iff (below : fs.TableBelow inodeNumber)
    (file : fs.DirectFile inodeNumber) (positive : 0 < size)
    (fits : offset + size ≤ (fs.storedInode inodeNumber).size)
    (same : offset / fs.ext2.blockSize = (offset + size) / fs.ext2.blockSize)
    : fs.Reads inodeNumber offset size ↔ ∀ i < size, fs.ByteServed inodeNumber offset i := by
  have direct : offset / fs.ext2.blockSize < 12 := by
    apply Nat.div_lt_of_lt_mul
    have short := file.direct
    rw [Nat.mul_comm]
    omega
  have count : min size ((fs.storedInode inodeNumber).size - offset) = size := by omega
  have accepted (buffer : Nat → Option UInt8)
      : fs.readfile inodeNumber offset size buffer
        = (size,
            write buffer 0
              (ataReadB fs.drv
                (fs.pOffset
                  + fs.getBlockOffset inodeNumber (offset / fs.ext2.blockSize)
                  + offset % fs.ext2.blockSize)
                size)) := by
    rw [readfile_accepted below file positive (by omega) (Nat.min_eq_left fits).symm]
    exact if_pos same
  simp only [Reads, count, accepted, write_ataReadB, true_and]
  constructor
  · intro reads i inside
    have byte := (reads (fun _ => none)).1 i inside
    rw [if_pos inside] at byte
    exact (served_iff below direct same inside).mp byte
  · intro served buffer
    constructor
    · intro i inside
      rw [if_pos inside]
      exact (served_iff below direct same inside).mpr (served i inside)
    · intro i behind
      exact if_neg (by omega)

/-- Reads of nothing, and with the inode table in the first 4 GiB the reads that `StaysInBlock`
describes, are the ones that return what they should. The size is compared with the file before the
offset is looked at, and the loop for the last block starts over at the first one, so only reads
within one block return their bytes.
-/
theorem reads_iff_staysInBlock (file : fs.DirectFile inodeNumber)
    (inside : offset ≤ (fs.storedInode inodeNumber).size)
    : (size = 0 → fs.Reads inodeNumber offset size)
      ∧ (fs.TableBelow inodeNumber
        → (fs.Reads inodeNumber offset size ↔ fs.StaysInBlock inodeNumber offset size)) := by
  have nothing (empty : size = 0) : fs.Reads inodeNumber offset size := by
    subst empty
    intro buffer
    rw [readfile_zero]
    simp
  refine ⟨nothing, fun below => ?_⟩
  rcases Nat.eq_zero_or_pos size with empty | positive
  · exact iff_of_true (nothing empty) (.inl empty)
  have asked : size ≠ 0 := by omega
  by_cases long : (fs.storedInode inodeNumber).size < size
  · rw [reads_of_lt below long]
    constructor
    · intro behind
      exact .inr (.inl ⟨by omega, long⟩)
    · rintro (none | ⟨atEnd, -⟩ | ⟨fits, -⟩) <;> omega
  have fits : size ≤ (fs.storedInode inodeNumber).size := Nat.le_of_not_lt long
  by_cases same : offset / fs.ext2.blockSize
      = min (offset + size) (fs.storedInode inodeNumber).size / fs.ext2.blockSize
  · by_cases whole : offset + size ≤ (fs.storedInode inodeNumber).size
    · rw [Nat.min_eq_left whole] at same
      rw [reads_within_iff below file positive whole same]
      constructor
      · intro served
        exact .inr (.inr ⟨whole, same, served⟩)
      · rintro (none | ⟨-, short⟩ | ⟨-, -, served⟩)
        · exact absurd none asked
        · exact absurd short long
        · exact served
    · apply iff_of_false
      · intro reads
        have count := (reads (fun _ => none)).1
        rw [readfile_accepted below file positive fits rfl] at count
        simp only [same, if_true] at count
        omega
      · rintro (none | ⟨-, short⟩ | ⟨fits, -⟩)
        · exact asked none
        · exact long short
        · exact whole fits
  · apply iff_of_false
    · exact not_reads_of_crossing below file inside positive fits same
    · rintro (none | ⟨-, short⟩ | ⟨whole, within, -⟩)
      · exact asked none
      · exact long short
      · apply same
        rw [Nat.min_eq_left whole]
        exact within

/-- An image with blocks of 1024 bytes at 1 MiB. Its first inode is a file of 1536 bytes in the
blocks 5 and 6, all of them 7.
-/
def fileImage : Ext2Fs where
  drv :=
    fun a =>
      if a = 0x100000 + 4 * 1024 + 1 then 0x80
      else if a = 0x100000 + 4 * 1024 + 5 then 6
      else if a = 0x100000 + 4 * 1024 + 40 then 5
      else if a = 0x100000 + 4 * 1024 + 44 then 6
      else if 0x100000 + 5 * 1024 ≤ a ∧ a < 0x100000 + 7 * 1024 then 7
      else 0
  pOffset := 0x100000
  ext2 :=
    {
      inodeSize := 128,
      inodesPerGroup := 8,
      inodeTable := fun _ => 4,
      blockSize := 1024
    }

theorem fileImage_directFile : fileImage.DirectFile 1 where
  regular := by decide +kernel
  direct := by decide +kernel

/-- The first 1000 bytes of that file are read. -/
theorem reads_fileImage : fileImage.Reads 1 0 1000 := by
  apply ((reads_iff_staysInBlock fileImage_directFile (Nat.zero_le _)).2 (by decide)).mpr
  refine .inr (.inr ⟨by decide +kernel, by decide +kernel, fun i _ => ?_⟩)
  apply byteServed_of_lt
  · decide +kernel
  · decide +kernel

/-- The whole file is not: nothing is written from byte 1024 on, except a 0 behind the buffer. -/
theorem not_reads_fileImage
    : fileImage.WellFormed
      ∧ (fileImage.storedInode 1).size = 1536
      ∧ (let result := fileImage.readfile 1 0 1536 (fun _ => none)
        result.1 = 1536 ∧ result.2 1024 = none ∧ result.2 1536 = some 0)
      ∧ ¬ fileImage.Reads 1 0 1536 := by
  have length : (fileImage.storedInode 1).size = 1536 := by decide +kernel
  have ended : (fileImage.readfile 1 0 1536 (fun _ => none)).2 1536 = some 0 := by
    decide +kernel
  refine ⟨⟨by decide, by decide, by decide⟩, length, ⟨?_, ?_, ended⟩, ?_⟩
  · decide +kernel
  · decide +kernel
  · intro reads
    have untouched := (reads (fun _ => none)).2.2 1536 (Nat.le_refl 1536)
    rw [ended] at untouched
    cases untouched

end Ext2Fs

end Hydrangea
