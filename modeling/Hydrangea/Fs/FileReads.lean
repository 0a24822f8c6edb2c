import Hydrangea.Fs.FileOps
import Hydrangea.Fs.Tmpfs

/-! Reading regular files: `initrd_read` of `kernel/fs/initrd/initrd.c`, `tmpfs_vfs_read` of
`kernel/fs/tmpfs/tmpfs.c`, and `read` of `kernel/fs/file_ops.c` on a descriptor of such a file.
-/

namespace Hydrangea

open Tmpfs

-----------------------------------------------------------------------------------------
-- The functions
-----------------------------------------------------------------------------------------

/-- What a read does: what it returns, the bytes that the buffer gets, and the addresses that these
are read from.
-/
structure FileRead where
  returned : Nat
  bytes : List UInt8
  addresses : List Nat

/-- `return 0`. -/
def FileRead.nothing : FileRead :=
  { returned := 0, bytes := [], addresses := [] }

def Touch.addresses (t : Touch) : List Nat :=
  (List.range t.count).map (fun i => (t.addr + i) % 2 ^ 32)

/-- `memcpy(buffer, src, size); return size`. -/
def FileRead.copied (mem : Nat → UInt8) (src size : Nat) : FileRead where
  returned := size
  bytes := loadBytes mem src size
  addresses := Touch.addresses { blocks := [], addr := src, count := size }

def initrdRead (file : VfsFile) (mem : Nat → UInt8) (offset size : Nat) : FileRead :=
  if file.size ≤ offset then
    FileRead.nothing
  else
    let size := if file.size < (offset + size) % 2 ^ 32 then file.size - offset else size
    FileRead.copied mem ((file.inode + offset) % 2 ^ 32) size

/-- What `file->read` is for a regular file. -/
inductive ReadFunction where
  | initrdRead
  | tmpfsVfsRead

/-- A regular file, with its content at `[inode, inode + size)`. -/
structure RegularFile where
  file : VfsFile
  read : ReadFunction
  sized : file.size < 2 ^ 32
  inside : file.inode + file.size ≤ 2 ^ 32

namespace RegularFile

def vfsRead (f : RegularFile) (mem : Nat → UInt8) (offset size : Nat) : FileRead :=
  match f.read with
  | .initrdRead => Hydrangea.initrdRead f.file mem offset size
  | .tmpfsVfsRead =>
      let s : Tmpfs := { file := f.file, mem, blocks := [], touched := [] }
      let (returned, bytes, s) := s.tmpfsVfsRead offset size
      { returned, bytes, addresses := s.touched.flatMap Touch.addresses }

def content (f : RegularFile) (mem : Nat → UInt8) : List UInt8 :=
  (List.range f.file.size).map (fun i => mem (f.file.inode + i))

end RegularFile

namespace TaskFiles

/-- `read` of a descriptor number of the task, where `files` has the files of the nodes. Its buffer
is not in the content of a file.
-/
def read (s : TaskFiles) (files : Nat → RegularFile) (mem : Nat → UInt8) (number size : Nat)
    : FileRead × TaskFiles :=
  let d := s.fileDescriptors.listGet number
  if d = 0 then
    (FileRead.nothing, s)
  else if (s.files.fd d).read = false then
    (FileRead.nothing, s)
  else
    let node := s.files.fdToNode d
    ((files node).vfsRead mem (s.files.fd d).offset size, s)

def reads (files : Nat → RegularFile) (mem : Nat → UInt8) (number : Nat)
    : TaskFiles → (sizes : List Nat) → List FileRead
  | _, [] => []
  | s, size :: sizes =>
      let (r, s) := s.read files mem number size
      r :: reads files mem number s sizes

end TaskFiles

-----------------------------------------------------------------------------------------
-- One read
-----------------------------------------------------------------------------------------

namespace RegularFile

/-- A read copies and returns what there is of the file, and reads nothing else. -/
structure Clipped (f : RegularFile) (mem : Nat → UInt8) (offset size : Nat) : Prop where
  returned : (f.vfsRead mem offset size).returned
    = if offset < f.file.size then min size (f.file.size - offset) else 0
  bytes : (f.vfsRead mem offset size).bytes = ((f.content mem).drop offset).take size
  inside : ∀ a ∈ (f.vfsRead mem offset size).addresses,
    f.file.inode ≤ a ∧ a < f.file.inode + f.file.size

variable {f : RegularFile} {mem : Nat → UInt8} {offset size : Nat}

@[simp]
theorem length_content
    : (f.content mem).length = f.file.size := by
  rw [content, List.length_map, List.length_range]

theorem content_getElem? {i : Nat} (below : i < f.file.size)
    : (f.content mem)[i]? = some (mem (f.file.inode + i)) := by
  rw [content, List.getElem?_map, List.getElem?_range below, Option.map_some]

theorem vfsRead_eq
    : f.vfsRead mem offset size = initrdRead f.file mem offset size := by
  rw [vfsRead]
  cases f.read with
  | initrdRead => rfl
  | tmpfsVfsRead =>
      rw [initrdRead]
      by_cases atEnd : f.file.size ≤ offset
      · simp only [Tmpfs.tmpfsVfsRead, if_pos atEnd]
        rfl
      · simp only [Tmpfs.tmpfsVfsRead, if_neg atEnd, touch, List.flatMap_cons, List.flatMap_nil,
          List.append_nil]
        rfl

theorem vfsRead_end (mem : Nat → UInt8) (size : Nat) (atEnd : f.file.size ≤ offset)
    : f.vfsRead mem offset size = FileRead.nothing := by
  rw [vfsRead_eq, initrdRead, if_pos atEnd]

/-- A read of an area that ends within 32 bits copies what there is of it. -/
theorem vfsRead_small (mem : Nat → UInt8) (before : offset < f.file.size)
    (small : offset + size < 2 ^ 32)
    : f.vfsRead mem offset size
      = FileRead.copied mem (f.file.inode + offset) (min size (f.file.size - offset)) := by
  have count : (if f.file.size < offset + size then f.file.size - offset else size)
      = min size (f.file.size - offset) := by
    split <;> omega
  have source : (f.file.inode + offset) % 2 ^ 32 = f.file.inode + offset := by
    have := f.inside
    exact Nat.mod_eq_of_lt (by omega)
  rw [vfsRead_eq, initrdRead, if_neg (Nat.not_le.mpr before), Nat.mod_eq_of_lt small, source]
  simp only [count]

/-- A read of an area that ends beyond 32 bits is not clipped. -/
theorem vfsRead_wrapped (mem : Nat → UInt8) (before : offset < f.file.size)
    (wide : size < 2 ^ 32) (wraps : 2 ^ 32 ≤ offset + size)
    : (f.vfsRead mem offset size).returned = size := by
  have sized := f.sized
  have unclipped : ¬ f.file.size < (offset + size) % 2 ^ 32 := by omega
  rw [vfsRead_eq, initrdRead, if_neg (Nat.not_le.mpr before), if_neg unclipped]
  rfl

theorem loadBytes_content (mem : Nat → UInt8) {count : Nat}
    (within : offset + count ≤ f.file.size)
    : loadBytes mem (f.file.inode + offset) count = ((f.content mem).drop offset).take count := by
  have inside := f.inside
  have length : (((f.content mem).drop offset).take count).length = count := by
    rw [List.length_take, List.length_drop, length_content]
    omega
  rcases Nat.eq_zero_or_pos count with rfl | some
  · rw [List.take_zero, loadBytes]
  conv_lhs => rw [← length]
  refine loadBytes_eq (by omega) (fun i b byte => ?_)
  rw [Option.mem_def, List.getElem?_take] at byte
  split at byte
  · next below =>
      rw [List.getElem?_drop, content_getElem? (by omega)] at byte
      rw [Nat.mod_eq_of_lt (by omega), Nat.add_assoc]
      exact Option.some.inj byte
  · cases byte

/-- Every read that ends within 32 bits, or starts behind the end, is clipped. -/
theorem clipped_of_small (plain : f.file.size ≤ offset ∨ offset + size < 2 ^ 32)
    : f.Clipped mem offset size := by
  by_cases atEnd : f.file.size ≤ offset
  · have nothing := vfsRead_end mem size atEnd
    constructor
    · rw [nothing, if_neg (Nat.not_lt.mpr atEnd)]
      rfl
    · rw [nothing, List.drop_eq_nil_of_le (by rwa [length_content]), List.take_nil]
      rfl
    · rw [nothing]
      exact fun a member => absurd member List.not_mem_nil
  have before : offset < f.file.size := Nat.not_le.mp atEnd
  have inside := f.inside
  have copied := vfsRead_small mem before (plain.resolve_left atEnd)
  constructor
  · rw [copied, if_pos before]
    rfl
  · have within : offset + min size (f.file.size - offset) ≤ f.file.size := by
      omega
    have loaded := loadBytes_content mem within
    have clip : ((f.content mem).drop offset).take (min size (f.file.size - offset))
        = ((f.content mem).drop offset).take size := by
      rw [← List.take_take, List.take_of_length_le (i := f.file.size - offset)]
      rw [List.length_drop, length_content]
    rw [copied, ← clip, ← loaded]
    rfl
  · rw [copied]
    intro a member
    obtain ⟨i, below, rfl⟩ := List.mem_map.mp member
    have below : i < min size (f.file.size - offset) := List.mem_range.mp below
    dsimp only
    rw [Nat.mod_eq_of_lt (by omega)]
    omega

/-- A read is clipped exactly when it starts behind the end of the file or the sum of its offset
and its size fits 32 bits. The sum is computed in 32 bits: where it wraps, the comparison with the
size does not see it and the whole size is copied.
-/
theorem clipped_iff (f : RegularFile) (mem : Nat → UInt8) (offset : Nat) {size : Nat}
    (size32 : size < 2 ^ 32)
    : f.Clipped mem offset size ↔ f.file.size ≤ offset ∨ offset + size < 2 ^ 32 := by
  constructor
  · intro clipped
    by_contra neither
    obtain ⟨before, wraps⟩ := not_or.mp neither
    have before : offset < f.file.size := Nat.not_le.mp before
    have all := vfsRead_wrapped mem before size32 (Nat.not_lt.mp wraps)
    have sized := f.sized
    have returned := clipped.returned
    rw [all, if_pos before] at returned
    omega
  · exact clipped_of_small

def fiveBytes (read : ReadFunction) : RegularFile where
  file := { permissions := 0, type := 0, inode := 0x10000, size := 5 }
  read
  sized := by decide
  inside := by decide

/-- The end of a file is read with a size that goes beyond it. -/
theorem clipped_fiveBytes
    : (fiveBytes .initrdRead).Clipped (fun a => UInt8.ofNat a) 3 256 :=
  (clipped_iff (fiveBytes .initrdRead) _ 3 (by decide)).mpr (.inr (by decide))

/-- The byte at offset 1 and the 2 ^ 32 - 2 ones behind it are not clipped. -/
theorem not_clipped_fiveBytes
    : ¬ (fiveBytes .initrdRead).Clipped (fun _ => 0) 1 (2 ^ 32 - 1)
      ∧ ¬ (fiveBytes .tmpfsVfsRead).Clipped (fun _ => 0) 1 (2 ^ 32 - 1) := by
  constructor
  · intro clipped
    exact absurd clipped.returned (by decide)
  · intro clipped
    exact absurd clipped.returned (by decide)

end RegularFile

-----------------------------------------------------------------------------------------
-- Reads one after the other
-----------------------------------------------------------------------------------------

/-- Reading a content from its start each time gives the bytes at offset `k` and those that follow.
-/
def RepeatsFrom (content : List UInt8) : (k : Nat) → (sizes : List Nat) → Prop
  | _, [] => True
  | k, size :: sizes =>
      (content.drop k).take size = content.take size ∧ RepeatsFrom content (k + size) sizes

instance decidableRepeatsFrom (content : List UInt8) (k : Nat) (sizes : List Nat)
    : Decidable (RepeatsFrom content k sizes) :=
  match sizes with
  | [] => .isTrue trivial
  | size :: sizes =>
      have := decidableRepeatsFrom content (k + size) sizes
      inferInstanceAs (Decidable (_ ∧ _))

section prefixes

variable {content : List UInt8} {sizes : List Nat}

/-- The length of the bytes read from the start each time. -/
theorem length_flatMap_take
    : (sizes.flatMap (fun size => content.take size)).length
      = (sizes.map (fun size => min size content.length)).sum := by
  rw [List.length_flatMap]
  simp only [List.length_take]

/-- Clipping each size leaves at least what clipping the sum leaves, by induction on the sizes. -/
theorem min_sum_le (sizes : List Nat) (l : Nat)
    : min sizes.sum l ≤ (sizes.map (fun size => min size l)).sum := by
  induction sizes with
  | nil => exact Nat.min_le_left ..
  | cons size sizes ih =>
      rw [List.map_cons, List.sum_cons, List.sum_cons]
      omega

/-- Sizes that are not all zero have a positive sum after clipping, by induction on them. -/
theorem sum_map_min_pos {l : Nat} (pos : 0 < l) (some : sizes.filter (· ≠ 0) ≠ [])
    : 0 < (sizes.map (fun size => min size l)).sum := by
  induction sizes with
  | nil => exact absurd rfl some
  | cons size sizes ih =>
      rw [List.map_cons, List.sum_cons]
      by_cases zero : size = 0
      · rw [List.filter_cons_of_neg (by simpa using zero)] at some
        have := ih some
        omega
      · omega

/-- Two sizes that are not zero, of a sum beyond the limit, are beyond it after clipping too, by
induction on the sizes.
-/
theorem lt_sum_map_min {l : Nat} (pos : 0 < l) (two : 1 < (sizes.filter (· ≠ 0)).length)
    (beyond : l < sizes.sum)
    : l < (sizes.map (fun size => min size l)).sum := by
  induction sizes with
  | nil => exact absurd beyond (Nat.not_lt_zero l)
  | cons size sizes ih =>
      rw [List.sum_cons] at beyond
      rw [List.map_cons, List.sum_cons]
      by_cases zero : size = 0
      · rw [List.filter_cons_of_neg (by simpa using zero)] at two
        have := ih two (by omega)
        omega
      · rw [List.filter_cons_of_pos (by simpa using zero), List.length_cons] at two
        have others : sizes.filter (· ≠ 0) ≠ [] := List.ne_nil_of_length_pos (by omega)
        have := sum_map_min_pos pos others
        have := min_sum_le sizes l
        omega

/-- Reads that are all empty but one give the bytes of that one, by induction on them. -/
theorem flatMap_take_single (single : (sizes.filter (· ≠ 0)).length ≤ 1)
    : sizes.flatMap (fun size => content.take size) = content.take sizes.sum := by
  induction sizes with
  | nil => rfl
  | cons size sizes ih =>
      rw [List.flatMap_cons, List.sum_cons]
      by_cases zero : size = 0
      · rw [List.filter_cons_of_neg (by simpa using zero)] at single
        rw [ih single, zero, List.take_zero, List.nil_append, Nat.zero_add]
      · rw [List.filter_cons_of_pos (by simpa using zero), List.length_cons] at single
        have none : sizes.filter (· ≠ 0) = [] := List.eq_nil_of_length_eq_zero (by omega)
        have zeros : ∀ n ∈ sizes, n = 0 := by
          intro n member
          simpa using List.filter_eq_nil_iff.mp none n member
        have noBytes : sizes.flatMap (fun size => content.take size) = [] := by
          apply List.flatMap_eq_nil_iff.mpr
          intro n member
          rw [zeros n member, List.take_zero]
        rw [noBytes, List.append_nil, List.sum_eq_zero zeros, Nat.add_zero]

/-- Reads of no more than the content give the bytes from an offset on exactly if each of them gets
the bytes that stand there, by induction on the reads.
-/
theorem flatMap_take_iff {k : Nat} (fits : k + sizes.sum ≤ content.length)
    : sizes.flatMap (fun size => content.take size) = (content.drop k).take sizes.sum
      ↔ RepeatsFrom content k sizes := by
  induction sizes generalizing k with
  | nil => exact iff_of_true rfl trivial
  | cons size sizes ih =>
      rw [List.sum_cons] at fits
      rw [List.flatMap_cons, List.sum_cons, List.take_add, List.drop_drop, RepeatsFrom,
        ← ih (by omega)]
      constructor
      · intro same
        obtain ⟨first, rest⟩ := List.append_inj same (by
          rw [List.length_take, List.length_take, List.length_drop]
          omega)
        exact ⟨first.symm, rest⟩
      · rintro ⟨first, rest⟩
        rw [first, rest]

/-- Reads from the start of a content give a prefix of it of the length that they have together
exactly if it is empty, or at most one of them is not empty, or they do not read more than it has
and it repeats its start for each of them.
-/
theorem flatMap_take_prefix_iff (content : List UInt8) (sizes : List Nat)
    : (sizes.flatMap (fun size => content.take size) <+: content
        ∧ (sizes.flatMap (fun size => content.take size)).length = min sizes.sum content.length)
      ↔ content = [] ∨ (sizes.filter (· ≠ 0)).length ≤ 1
        ∨ (sizes.sum ≤ content.length ∧ RepeatsFrom content 0 sizes) := by
  constructor
  · rintro ⟨isPrefix, length⟩
    by_cases fits : sizes.sum ≤ content.length
    · refine .inr (.inr ⟨fits, ?_⟩)
      rw [← flatMap_take_iff (by omega), List.drop_zero]
      rw [List.prefix_iff_eq_take.mp isPrefix, length, Nat.min_eq_left fits]
    · by_contra neither
      obtain ⟨nonempty, two⟩ := not_or.mp neither
      have beyond := lt_sum_map_min (List.length_pos_iff.mpr nonempty)
        (Nat.not_le.mp (not_or.mp two).1) (Nat.not_le.mp fits)
      rw [length_flatMap_take] at length
      omega
  · have ofTake (same : sizes.flatMap (fun size => content.take size) = content.take sizes.sum)
        : sizes.flatMap (fun size => content.take size) <+: content
          ∧ (sizes.flatMap (fun size => content.take size)).length
            = min sizes.sum content.length := by
      rw [same]
      exact ⟨List.take_prefix .., List.length_take ..⟩
    rintro (rfl | single | ⟨fits, repeats⟩)
    · apply ofTake
      simp only [List.take_nil, List.flatMap_eq_nil_iff, implies_true]
    · exact ofTake (flatMap_take_single single)
    · apply ofTake
      rw [(flatMap_take_iff (by omega)).mpr repeats, List.drop_zero]

end prefixes

/-- `fd_open`, where no entry is found for the node. -/
theorem Files.fdOpen_eq (s : Files) (junk : Nat → Nat) (e fd node flags : Nat)
    : s.fdOpen junk e fd node flags
      = {
          gft := (s.gft.listPush junk e).2,
          entry := Function.update s.entry e { node, lockedBy := 0, refCount := 1 },
          fd := Function.update s.fd fd {
            gftIndex := (s.gft.listPush junk e).1,
            offset := 0,
            read := flags &&& oRdwr ≠ 0 ∨ flags &&& oRdonly ≠ 0,
            write := flags &&& oRdwr ≠ 0 ∨ flags &&& oWronly ≠ 0
          }
        } :=
  rfl

namespace TaskFiles

/-- A number of the task is of a descriptor that was opened for reading on a node, and its offset is
still the first one.
-/
structure OpenedFor (s : TaskFiles) (number node : Nat) : Prop where
  denoted : s.denoted number ≠ 0
  read : (s.files.fd (s.denoted number)).read = true
  offset : (s.files.fd (s.denoted number)).offset = 0
  node : s.files.fdToNode (s.denoted number) = node

/-- The bytes of the reads are the start of the file, as far as the reads go. -/
structure ReadsThrough (s : TaskFiles) (files : Nat → RegularFile) (mem : Nat → UInt8)
    (number node : Nat) (sizes : List Nat) : Prop where
  isPrefix : (reads files mem number s sizes).flatMap FileRead.bytes <+: (files node).content mem
  length : ((reads files mem number s sizes).flatMap FileRead.bytes).length
    = min sizes.sum (files node).file.size

variable {s : TaskFiles} {files : Nat → RegularFile} {mem : Nat → UInt8} {number node : Nat}

/-- `open` for reading gives such a number, if the lists have room. -/
theorem openNode_openedFor (junk : Nat → Nat) {e fd flags : Nat} (notNull : fd ≠ 0)
    (reading : flags &&& Files.oRdwr ≠ 0 ∨ flags &&& Files.oRdonly ≠ 0)
    (room : s.fileDescriptors.used + 1 < 2 ^ 32) (roomGft : s.files.gft.used + 1 < 2 ^ 32)
    : (s.openNode junk e fd node flags).2.OpenedFor (s.openNode junk e fd node flags).1 node := by
  obtain ⟨place, used, last, -⟩ := ListT.listPush_eq junk fd room
  obtain ⟨index, usedGft, lastGft, -⟩ := ListT.listPush_eq junk e roomGft
  have denoted : (s.openNode junk e fd node flags).2.denoted (s.openNode junk e fd node flags).1
      = fd := by
    simp only [openNode, TaskFiles.denoted, ListT.listGet, place, used]
    rw [if_neg (by omega)]
    exact last
  have files : (s.openNode junk e fd node flags).2.files = s.files.fdOpen junk e fd node flags := rfl
  constructor
  · rwa [denoted]
  · rw [denoted, files, Files.fdOpen_eq]
    simp only [Function.update_self]
    exact decide_eq_true reading
  · rw [denoted, files, Files.fdOpen_eq]
    simp only [Function.update_self]
  · rw [denoted, files, Files.fdOpen_eq]
    simp only [Files.fdToNode, ListT.listGet, Function.update_self]
    rw [index, usedGft, if_neg (by omega), lastGft, Function.update_self]

/-- A read copies the start of the file and leaves the descriptor as it is. -/
theorem OpenedFor.read_eq (files : Nat → RegularFile) (mem : Nat → UInt8)
    (h : s.OpenedFor number node) {size : Nat} (size32 : size < 2 ^ 32)
    : (s.read files mem number size).1.bytes = ((files node).content mem).take size
      ∧ (s.read files mem number size).2 = s := by
  have opened : s.read files mem number size = ((files node).vfsRead mem 0 size, s) := by
    have denoted := h.denoted
    have reading := h.read
    have offset := h.offset
    have target := h.node
    rw [TaskFiles.denoted] at denoted reading offset target
    simp only [TaskFiles.read]
    rw [if_neg denoted, if_neg (by simp [reading]), target, offset]
  have clipped : (files node).Clipped mem 0 size := RegularFile.clipped_of_small (.inr (by omega))
  rw [opened]
  exact ⟨clipped.bytes, rfl⟩

/-- Each of the reads copies the start of the file, by induction on them. -/
theorem OpenedFor.reads_eq (h : s.OpenedFor number node) {sizes : List Nat}
    (sizes32 : ∀ size ∈ sizes, size < 2 ^ 32)
    : (reads files mem number s sizes).flatMap FileRead.bytes
      = sizes.flatMap (fun size => ((files node).content mem).take size) := by
  induction sizes with
  | nil => rfl
  | cons size sizes ih =>
      obtain ⟨small, rest⟩ := List.forall_mem_cons.mp sizes32
      obtain ⟨bytes, same⟩ := h.read_eq files mem small
      simp only [reads, List.flatMap_cons]
      rw [bytes, same, ih rest]

/-- Reads of a descriptor that was opened for reading go through its file exactly if the file is
empty, or at most one of them is not empty, or they do not read more than the file has and it
repeats its start for each of them. A read does not advance the offset, so every one returns a
prefix of the same content, and the concatenation is a prefix of the file in these cases only.
-/
theorem readsThrough_iff (files : Nat → RegularFile) (mem : Nat → UInt8)
    (h : s.OpenedFor number node) {sizes : List Nat} (sizes32 : ∀ size ∈ sizes, size < 2 ^ 32)
    : s.ReadsThrough files mem number node sizes
      ↔ (files node).file.size = 0 ∨ (sizes.filter (· ≠ 0)).length ≤ 1
        ∨ (sizes.sum ≤ (files node).file.size
          ∧ RepeatsFrom ((files node).content mem) 0 sizes) := by
  have empty : (files node).content mem = [] ↔ (files node).file.size = 0 := by
    rw [← List.length_eq_zero_iff, RegularFile.length_content]
  have prefixes := flatMap_take_prefix_iff ((files node).content mem) sizes
  rw [RegularFile.length_content, empty, ← h.reads_eq sizes32] at prefixes
  rw [← prefixes]
  exact ⟨fun through => ⟨through.isPrefix, through.length⟩,
    fun through => ⟨through.1, through.2⟩⟩

def oneOpen : TaskFiles :=
  (zeroed.openNode (fun _ => 0) 0x2000 0x2010 0xD0 Files.oRdonly).2

theorem oneOpen_openedFor
    : oneOpen.OpenedFor 0 0xD0 :=
  openNode_openedFor (fun _ => 0) (by decide) (by decide) (by decide) (by decide)

/-- Reading three of five bytes, and then nothing. -/
theorem readsThrough_oneOpen
    : oneOpen.ReadsThrough (fun _ => RegularFile.fiveBytes .initrdRead) (fun a => UInt8.ofNat a)
        0 0xD0 [3, 0] :=
  (readsThrough_iff _ _ oneOpen_openedFor (by decide)).mpr (.inr (.inl (by decide)))

/-- Two reads get the first three bytes of five twice. -/
theorem not_readsThrough_oneOpen
    : ¬ oneOpen.ReadsThrough (fun _ => RegularFile.fiveBytes .initrdRead) (fun a => UInt8.ofNat a)
        0 0xD0 [3, 3] := by
  intro through
  have length : ((reads (fun _ => RegularFile.fiveBytes .initrdRead) (fun a => UInt8.ofNat a) 0
      oneOpen [3, 3]).flatMap FileRead.bytes).length = 6 := by
    decide
  exact absurd (length.symm.trans through.length) (by decide)

end TaskFiles

end Hydrangea
