import Hydrangea.Fs.VfsRuns

/-! Reading and writing the files of `kernel/fs/tmpfs/tmpfs.c`. Addresses and sizes are those of a
32-bit machine.
-/

namespace Hydrangea

/-- A block that `kmalloc` has given. -/
structure HeapBlock where
  addr : Nat
  size : Nat

/-- Bytes that `memcpy` reads or writes, and the blocks that the file has at that time. -/
structure Touch where
  blocks : List HeapBlock
  addr : Nat
  count : Nat

/-- A file of `tmpfs` and the memory, with what nothing but a proof looks at: the blocks that
`kmalloc` has given for the file, the oldest first, and the bytes touched so far.
-/
structure Tmpfs where
  file : VfsFile
  mem : Nat → UInt8
  blocks : List HeapBlock
  touched : List Touch

namespace Tmpfs

-----------------------------------------------------------------------------------------
-- The functions
-----------------------------------------------------------------------------------------

/-- The loop of `memcpy`, from a buffer that holds the bytes. -/
def storeBytes (mem : Nat → UInt8) (dest : Nat) : (data : List UInt8) → (Nat → UInt8)
  | [] => mem
  | b :: data => storeBytes (Function.update mem dest b) ((dest + 1) % 2 ^ 32) data

/-- The loop of `memcpy`, from one block to another. -/
def copyBytes (mem : Nat → UInt8) (dest src : Nat) : (size : Nat) → (Nat → UInt8)
  | 0 => mem
  | size + 1 =>
      copyBytes (Function.update mem dest (mem src)) ((dest + 1) % 2 ^ 32) ((src + 1) % 2 ^ 32) size

/-- The loop of `memcpy`, to a buffer: the bytes that it gets. -/
def loadBytes (mem : Nat → UInt8) (src : Nat) : (size : Nat) → List UInt8
  | 0 => []
  | size + 1 => mem src :: loadBytes mem ((src + 1) % 2 ^ 32) size

def touch (s : Tmpfs) (addr count : Nat) : Tmpfs :=
  { s with touched := { blocks := s.blocks, addr, count } :: s.touched }

/-- `kmalloc(size)`, which returns `addr`, or null. -/
def kmalloc (s : Tmpfs) (addr size : Nat) : Tmpfs :=
  if addr = 0 then s else { s with blocks := s.blocks ++ [{ addr, size }] }

def kfree (s : Tmpfs) (ptr : Nat) : Tmpfs :=
  { s with blocks := s.blocks.eraseP (fun block => block.addr = ptr) }

/-- `krealloc`, where `kmalloc` returns `addr`. -/
def krealloc (s : Tmpfs) (ptr newSize addr : Nat) : Nat × Tmpfs :=
  if ptr = 0 then
    (0, s)
  else
    let s := s.kmalloc addr newSize
    if addr = 0 then
      (0, s)
    else
      let s := (s.touch ptr newSize).touch addr newSize
      let s := { s with mem := copyBytes s.mem addr ptr newSize }
      (addr, s.kfree ptr)

/-- `node->inode = inode`. -/
def setInode (s : Tmpfs) (inode : Nat) : Tmpfs :=
  { s with file := { s.file with inode } }

/-- `tmpfs_vfs_read`: the result, the bytes that the buffer gets, and the state. -/
def tmpfsVfsRead (s : Tmpfs) (offset size : Nat) : Nat × List UInt8 × Tmpfs :=
  if s.file.size ≤ offset then
    (0, [], s)
  else
    let size := if s.file.size < (offset + size) % 2 ^ 32 then s.file.size - offset else size
    let src := (s.file.inode + offset) % 2 ^ 32
    (size, loadBytes s.mem src size, s.touch src size)

/-- `if (!node->inode) node->inode = (uint32_t)kmalloc(size)`, where `kmalloc` returns `addr`. -/
def allocate (s : Tmpfs) (size addr : Nat) : Tmpfs :=
  if s.file.inode = 0 then (s.kmalloc addr size).setInode addr else s

/-- `if (node->size < size) node->inode = (uint32_t)krealloc((void *)node->inode, size)`, where
`kmalloc` returns `addr`.
-/
def grow (s : Tmpfs) (size addr : Nat) : Tmpfs :=
  if s.file.size < size then
    let moved := s.krealloc s.file.inode size addr
    moved.2.setInode moved.1
  else
    s

/-- `tmpfs_vfs_write` of the bytes in a buffer, where `kmalloc` returns `new` and, called from
`krealloc`, `moved`.
-/
def tmpfsVfsWrite (s : Tmpfs) (offset : Nat) (buffer : List UInt8) (new moved : Nat) : Nat × Tmpfs :=
  let size := buffer.length
  let s := (s.allocate size new).grow size moved
  let s := { s with file := { s.file with size := (s.file.size + size) % 2 ^ 32 } }
  let dest := (s.file.inode + offset) % 2 ^ 32
  (size, { s.touch dest size with mem := storeBytes s.mem dest buffer })

-----------------------------------------------------------------------------------------
-- The system
-----------------------------------------------------------------------------------------

/-- A call of `tmpfs_vfs_read` or `tmpfs_vfs_write`, with what `kmalloc` returns. -/
inductive FileOp where
  | read (offset size : Nat)
  | write (offset : Nat) (buffer : List UInt8) (new moved : Nat)

/-- What `kmalloc(size)` may return: null or a block that overlaps none of the blocks given. -/
def Given (blocks : List HeapBlock) (addr size : Nat) : Prop :=
  addr = 0 ∨ (addr + size ≤ 2 ^ 32
    ∧ ∀ block ∈ blocks, addr + size ≤ block.addr ∨ block.addr + block.size ≤ addr)

/-- The calls, in any order, on a file that `tmpfs_create` has made of a block that held `contents`.
An address that `kmalloc` does not have to return is null.
-/
def tmpfsSystem (contents : VfsFile) : TransitionSystem Tmpfs FileOp where
  init s := s.blocks = [] ∧ s.touched = []
    ∧ ∃ (vfs vfs' : VfsState Nat) (fuel : Nat) (kmalloc : Buffer256) (i : Option Nat)
        (before : UInt8) (path : List UInt8) (block : NodeBlock Nat) (rest : List (NodeBlock Nat)),
        vfs.tmpfsCreate fuel kmalloc i before path VfsState.vfsFile (block :: rest)
          = some (0, vfs', rest)
        ∧ block.contents.file = contents ∧ s.file = (vfs'.node block.addr).file
  step s op s' :=
    match op with
    | .read offset size =>
        offset ≤ s.file.size ∧ size < 2 ^ 32 ∧ s' = (s.tmpfsVfsRead offset size).2.2
    | .write offset buffer new moved =>
        offset ≤ s.file.size ∧ buffer.length < 2 ^ 32 ∧ Given s.blocks new buffer.length
        ∧ Given (s.kmalloc new buffer.length).blocks moved buffer.length
        ∧ s' = (s.tmpfsVfsWrite offset buffer new moved).2

-----------------------------------------------------------------------------------------
-- The property
-----------------------------------------------------------------------------------------

def overwrite (bytes : List UInt8) (offset : Nat) (data : List UInt8) : List UInt8 :=
  bytes.take offset ++ data ++ bytes.drop (offset + data.length)

def FileOp.apply (bytes : List UInt8) : FileOp → List UInt8
  | .read _ _ => bytes
  | .write offset buffer _ _ => overwrite bytes offset buffer

/-- The byte array after some calls, latest first. -/
def contents : List (Tmpfs × FileOp) → List UInt8
  | [] => []
  | (_, op) :: steps => op.apply (contents steps)

/-- The bytes lie in one block of the file. -/
def Touch.Inside (t : Touch) : Prop :=
  t.count = 0 ∨ ∃ block ∈ t.blocks, block.addr ≤ t.addr ∧ t.addr + t.count ≤ block.addr + block.size

/-- The file has the given bytes, and only bytes in blocks of the file have been touched. -/
structure IsArray (s : Tmpfs) (bytes : List UInt8) : Prop where
  length : s.file.size = bytes.length
  stored : ∀ i, ∀ b ∈ bytes[i]?, s.mem ((s.file.inode + i) % 2 ^ 32) = b
  inside : ∀ t ∈ s.touched, Touch.Inside t

/-- The result of a call, on a byte array. -/
def Returns (s : Tmpfs) (bytes : List UInt8) : FileOp → Prop
  | .read offset size =>
      (s.tmpfsVfsRead offset size).2.1 = (bytes.drop offset).take size
      ∧ (s.tmpfsVfsRead offset size).1 = ((bytes.drop offset).take size).length
  | .write offset buffer new moved => (s.tmpfsVfsWrite offset buffer new moved).1 = buffer.length

/-- The file is a byte array, at first an empty one. -/
def Behaves : (s : Tmpfs) → List (Tmpfs × FileOp) → Prop
  | s, [] => s.IsArray []
  | s, (before, op) :: steps =>
      Behaves before steps ∧ before.Returns (contents steps) op
      ∧ s.IsArray (contents ((before, op) :: steps))

/-- The call writes nothing, or it is the first write and `kmalloc` has memory for it, or it reads
at the end of the file or up to an offset that is less than 2 ^ 32.
-/
def Plain (s : Tmpfs) : FileOp → Prop
  | .read offset size => s.file.size ≤ offset ∨ offset + size < 2 ^ 32
  | .write _ buffer new moved => buffer = [] ∨ (s.file.inode = 0 ∧ new ≠ 0 ∧ moved ≠ 0)

variable {s s' : Tmpfs} {bytes : List UInt8}

-----------------------------------------------------------------------------------------
-- Copying
-----------------------------------------------------------------------------------------

/-- Bytes in front of the destination are kept, by induction on the data. -/
theorem storeBytes_below {mem : Nat → UInt8} {dest a : Nat} {data : List UInt8}
    (fits : dest + data.length ≤ 2 ^ 32) (below : a < dest)
    : storeBytes mem dest data a = mem a := by
  induction data generalizing mem dest with
  | nil => rfl
  | cons b data ih =>
      rw [storeBytes]
      cases data with
      | nil => exact Function.update_of_ne (Nat.ne_of_lt below) ..
      | cons b' data =>
          simp only [List.length_cons] at fits
          have next : (dest + 1) % 2 ^ 32 = dest + 1 := Nat.mod_eq_of_lt (by omega)
          rw [next, ih (by simp only [List.length_cons]; omega) (Nat.lt_succ_of_lt below)]
          exact Function.update_of_ne (Nat.ne_of_lt below) ..

/-- The data is at the destination, by induction on it. -/
theorem storeBytes_inside {mem : Nat → UInt8} {dest i : Nat} {data : List UInt8} {b : UInt8}
    (fits : dest + data.length ≤ 2 ^ 32) (byte : data[i]? = some b)
    : storeBytes mem dest data (dest + i) = b := by
  induction data generalizing mem dest i with
  | nil => cases byte
  | cons x data ih =>
      rw [storeBytes]
      cases data with
      | nil =>
          cases i with
          | zero =>
              obtain rfl : x = b := Option.some.inj byte
              exact Function.update_self ..
          | succ i => cases byte
      | cons y data =>
          simp only [List.length_cons] at fits
          have next : (dest + 1) % 2 ^ 32 = dest + 1 := Nat.mod_eq_of_lt (by omega)
          have fits' : dest + 1 + (y :: data).length ≤ 2 ^ 32 := by
            simp only [List.length_cons]
            omega
          rw [next]
          cases i with
          | zero =>
              obtain rfl : x = b := Option.some.inj byte
              rw [storeBytes_below fits' (show dest + 0 < dest + 1 from Nat.lt_succ_self dest)]
              exact Function.update_self ..
          | succ i =>
              rw [List.getElem?_cons_succ] at byte
              have rest : storeBytes (Function.update mem dest x) (dest + 1) (y :: data) (dest + 1 + i)
                  = b := ih fits' byte
              rwa [Nat.add_assoc, Nat.add_comm 1 i] at rest

/-- What is loaded is what the memory holds, by induction on it. -/
theorem loadBytes_eq {mem : Nat → UInt8} {src : Nat} {data : List UInt8} (small : src < 2 ^ 32)
    (stored : ∀ i, ∀ b ∈ data[i]?, mem ((src + i) % 2 ^ 32) = b)
    : loadBytes mem src data.length = data := by
  induction data generalizing src with
  | nil => rfl
  | cons b data ih =>
      have first := stored 0 b rfl
      rw [Nat.add_zero, Nat.mod_eq_of_lt small] at first
      rw [List.length_cons, loadBytes, first, ih (Nat.mod_lt _ (by decide))]
      intro i b' byte
      have later := stored (i + 1) b' byte
      rwa [Nat.mod_add_mod, Nat.add_assoc, Nat.add_comm 1 i]

-----------------------------------------------------------------------------------------
-- The calls
-----------------------------------------------------------------------------------------

/-- The invariant: the file has the given bytes, and its block has room for these and no others. -/
structure Holds (s : Tmpfs) (bytes : List UInt8) : Prop where
  array : s.IsArray bytes
  block : bytes ≠ [] → s.file.inode ≠ 0 ∧ s.file.inode + bytes.length ≤ 2 ^ 32
    ∧ ∃ block ∈ s.blocks, block.addr = s.file.inode ∧ block.size = bytes.length

/-- The length of a file fits its field. -/
theorem Holds.length_lt (h : s.Holds bytes) : s.file.size < 2 ^ 32 := by
  rw [h.array.length]
  by_cases empty : bytes = []
  · rw [empty]
    decide
  · obtain ⟨notNull, fits, -⟩ := h.block empty
    omega

theorem Holds.touch (h : s.Holds bytes) {offset count : Nat}
    (inside : count = 0 ∨ offset + count ≤ bytes.length)
    : (s.touch ((s.file.inode + offset) % 2 ^ 32) count).Holds bytes := by
  refine ⟨⟨h.array.length, h.array.stored, ?_⟩, h.block⟩
  refine List.forall_mem_cons.mpr ⟨?_, h.array.inside⟩
  rcases inside with none | some
  · exact .inl none
  by_cases none : count = 0
  · exact .inl none
  have nonempty : bytes ≠ [] := by
    rintro rfl
    rw [List.length_nil] at some
    omega
  obtain ⟨-, fits, block, member, start, size⟩ := h.block nonempty
  have address : (s.file.inode + offset) % 2 ^ 32 = s.file.inode + offset :=
    Nat.mod_eq_of_lt (by omega)
  refine .inr ⟨block, member, ?_⟩
  dsimp only
  rw [address, start, size]
  omega

/-- A read returns the bytes of the file and changes nothing, if it is a plain one. -/
theorem Holds.tmpfsVfsRead (h : s.Holds bytes) {offset size : Nat} (inside : offset ≤ s.file.size)
    (plain : s.Plain (.read offset size))
    : s.Returns bytes (.read offset size) ∧ (s.tmpfsVfsRead offset size).2.2.Holds bytes := by
  have length := h.array.length
  rw [Returns, Tmpfs.tmpfsVfsRead]
  by_cases atEnd : s.file.size ≤ offset
  · rw [if_pos atEnd, List.drop_eq_nil_of_le (by omega), List.take_nil]
    exact ⟨⟨rfl, rfl⟩, h⟩
  rw [if_neg atEnd]
  have small : offset + size < 2 ^ 32 := plain.resolve_left atEnd
  rw [Nat.mod_eq_of_lt small]
  set count := if s.file.size < offset + size then s.file.size - offset else size with isCount
  have ends : ((bytes.drop offset).take size).length = count := by
    rw [List.length_take, List.length_drop, isCount]
    split <;> omega
  have loaded : loadBytes s.mem ((s.file.inode + offset) % 2 ^ 32) count
      = (bytes.drop offset).take size := by
    rw [← ends]
    refine loadBytes_eq (Nat.mod_lt _ (by decide)) (fun i b byte => ?_)
    rw [Option.mem_def, List.getElem?_take] at byte
    split at byte
    · rw [List.getElem?_drop] at byte
      rw [Nat.mod_add_mod, Nat.add_assoc]
      exact h.array.stored (offset + i) b byte
    · cases byte
  refine ⟨⟨loaded, ends.symm⟩, h.touch (.inr ?_)⟩
  rw [isCount]
  split <;> omega

/-- A write of nothing changes nothing. -/
theorem Holds.write_nil (h : s.Holds bytes) (offset new moved : Nat)
    : (s.tmpfsVfsWrite offset [] new moved).2.Holds (overwrite bytes offset []) := by
  have same : overwrite bytes offset [] = bytes := by
    rw [overwrite, List.append_nil, List.length_nil, Nat.add_zero, List.take_append_drop]
  have allocated : (s.allocate 0 new).Holds bytes := by
    rw [allocate]
    split
    · next null =>
        have empty : bytes = [] := by
          by_contra nonempty
          exact (h.block nonempty).1 null
        subst empty
        refine ⟨⟨?_, fun _ _ none => (Option.not_mem_none _ none).elim, ?_⟩,
          fun nonempty => (nonempty rfl).elim⟩
        · rw [kmalloc]
          split <;> exact h.array.length
        · rw [kmalloc]
          split <;> exact h.array.inside
    · exact h
  have noGrowth (t : Tmpfs) : t.grow 0 moved = t := if_neg (Nat.not_lt_zero _)
  rw [same, tmpfsVfsWrite]
  dsimp only [List.length_nil]
  rw [noGrowth, Nat.add_zero, Nat.mod_eq_of_lt allocated.length_lt]
  exact allocated.touch (.inl rfl)

/-- `krealloc` moves a block and touches no other bytes than those of the two blocks. -/
theorem krealloc_eq {ptr size addr : Nat} (notNull : ptr ≠ 0) (memory : addr ≠ 0)
    : s.krealloc ptr size addr
      = (addr, { file := s.file, mem := copyBytes s.mem addr ptr size
                 blocks := (s.blocks ++ [HeapBlock.mk addr size]).eraseP (fun block : HeapBlock => block.addr = ptr)
                 touched :=
                  { blocks := s.blocks ++ [HeapBlock.mk addr size], addr, count := size }
                    :: { blocks := s.blocks ++ [HeapBlock.mk addr size], addr := ptr, count := size }
                    :: s.touched }) := by
  rw [krealloc, if_neg notNull, if_neg memory, kmalloc, if_neg memory]
  rfl

/-- The first write stores its bytes in a new block. -/
theorem Holds.write_first (h : s.Holds bytes) {offset new moved : Nat} {buffer : List UInt8}
    (inside : offset ≤ s.file.size) (small : buffer.length < 2 ^ 32) (some : buffer ≠ [])
    (given : Given (s.kmalloc new buffer.length).blocks moved buffer.length)
    (first : s.file.inode = 0) (memory : new ≠ 0) (memory' : moved ≠ 0)
    : (s.tmpfsVfsWrite offset buffer new moved).2.Holds (overwrite bytes offset buffer) := by
  have empty : bytes = [] := by
    by_contra nonempty
    exact (h.block nonempty).1 first
  subst empty
  have zero : s.file.size = 0 := h.array.length
  obtain rfl : offset = 0 := Nat.le_zero.mp (zero ▸ inside)
  have positive : 0 < buffer.length := List.length_pos_of_ne_nil some
  have allocated : s.allocate buffer.length new
      = { s with file := { s.file with inode := new }
                 blocks := s.blocks ++ [HeapBlock.mk new buffer.length] } := by
    rw [allocate, if_pos first, kmalloc, if_neg memory]
    rfl
  obtain ⟨fits, apart⟩ := given.resolve_left memory'
  rw [kmalloc, if_neg memory] at apart
  have other : moved ≠ new := by
    have block := apart (HeapBlock.mk new buffer.length) (List.mem_append_right _ (by simp))
    dsimp only at block
    omega
  have start : (moved + 0) % 2 ^ 32 = moved := Nat.mod_eq_of_lt (by omega)
  have isNew : overwrite [] 0 buffer = buffer := by
    rw [overwrite, List.take_nil, List.drop_nil, List.nil_append, List.append_nil]
  have kept : HeapBlock.mk moved buffer.length
      ∈ (s.blocks ++ [HeapBlock.mk new buffer.length]
          ++ [HeapBlock.mk moved buffer.length]).eraseP
        (fun block : HeapBlock => block.addr = new) := by
    rw [List.mem_eraseP_of_neg (by simpa using other)]
    exact List.mem_append_right _ (List.mem_singleton_self _)
  have old : HeapBlock.mk new buffer.length
      ∈ s.blocks ++ [HeapBlock.mk new buffer.length]
          ++ [HeapBlock.mk moved buffer.length] :=
    List.mem_append_left _ (List.mem_append_right _ (List.mem_singleton_self _))
  rw [isNew, tmpfsVfsWrite, allocated, grow, if_pos (by dsimp only; omega),
    krealloc_eq memory memory']
  refine ⟨⟨?_, fun i b byte => ?_, ?_⟩, fun _ => ⟨memory', fits, _, kept, rfl, rfl⟩⟩
  · have sum : (s.file.size + buffer.length) % 2 ^ 32 = buffer.length := by
      rw [zero, Nat.zero_add, Nat.mod_eq_of_lt small]
    exact sum
  · have position : i < buffer.length := (List.getElem?_eq_some_iff.mp byte).1
    have address : (moved + i) % 2 ^ 32 = moved + i := Nat.mod_eq_of_lt (by omega)
    simp only [setInode, start]
    change storeBytes _ moved buffer ((moved + i) % 2 ^ 32) = b
    rw [address]
    exact storeBytes_inside fits byte
  · simp only [setInode, start]
    refine List.forall_mem_cons.mpr ⟨?_, List.forall_mem_cons.mpr ⟨?_,
      List.forall_mem_cons.mpr ⟨?_, h.array.inside⟩⟩⟩
    · exact .inr ⟨_, kept, Nat.le_refl _, Nat.le_refl _⟩
    · exact .inr ⟨_, List.mem_append_right _ (List.mem_singleton_self _), Nat.le_refl _,
        Nat.le_refl _⟩
    · exact .inr ⟨_, old, Nat.le_refl _, Nat.le_refl _⟩

-----------------------------------------------------------------------------------------
-- Runs
-----------------------------------------------------------------------------------------

/-- A plain call does on the file what it does on a byte array. -/
theorem Holds.step (h : s.Holds bytes) {held : VfsFile} {op : FileOp}
    (step : (tmpfsSystem held).step s op s') (plain : s.Plain op)
    : s.Returns bytes op ∧ s'.Holds (op.apply bytes) := by
  cases op with
  | read offset size =>
      obtain ⟨inside, -, rfl⟩ := step
      exact h.tmpfsVfsRead inside plain
  | write offset buffer new moved =>
      obtain ⟨inside, small, -, given, rfl⟩ := step
      refine ⟨rfl, ?_⟩
      by_cases none : buffer = []
      · subst none
        exact h.write_nil offset new moved
      · obtain ⟨first, memory, memory'⟩ := plain.resolve_left none
        exact h.write_first inside small none given first memory memory'

/-- What a run of plain calls keeps, by induction on the run. -/
theorem run_holds {held : VfsFile} (empty : held.size = 0) {steps : List (Tmpfs × FileOp)}
    (run : (tmpfsSystem held).Run s steps) (plain : ∀ taken ∈ steps, taken.1.Plain taken.2)
    : s.Holds (contents steps) ∧ s.Behaves steps := by
  induction run with
  | @start s initial =>
      obtain ⟨blocks, touched, vfs, vfs', fuel, kmalloc, i, before, path, block, rest, created,
        rfl, file⟩ := initial
      obtain ⟨block', same, file'⟩ := VfsState.tmpfsCreate_file created
      obtain ⟨rfl, -⟩ := List.cons.inj same
      rw [file'] at file
      have array : s.IsArray [] := by
        refine ⟨?_, fun _ _ none => (Option.not_mem_none _ none).elim, ?_⟩
        · rw [file]
          exact empty
        · rw [touched]
          exact List.forall_mem_nil _
      exact ⟨⟨array, fun nonempty => (nonempty rfl).elim⟩, array⟩
  | @next s op s' steps _ taken ih =>
      obtain ⟨holds, behaves⟩ := ih (fun step member => plain step (List.mem_cons_of_mem _ member))
      obtain ⟨returns, after⟩ := holds.step taken (plain (s, op) (List.mem_cons_self ..))
      exact ⟨after, behaves, returns, after.array⟩

/-- A file whose block held the size 0 is a byte array in every run of plain calls. Each call
computes the content from the one before it as the byte array does, by induction on the run.
-/
theorem run_behaves {held : VfsFile} (empty : held.size = 0) {steps : List (Tmpfs × FileOp)}
    (run : (tmpfsSystem held).Run s steps) (plain : ∀ taken ∈ steps, taken.1.Plain taken.2)
    : s.Behaves steps :=
  (run_holds empty run plain).2

-----------------------------------------------------------------------------------------
-- Two files
-----------------------------------------------------------------------------------------

section Examples

def zeroFile : VfsFile :=
  (VfsState.zeroBlock 0).contents.file

def tmpfsAtRoot : VfsState Nat :=
  { VfsState.zeroState with tmpfsRoot := some 0 }

/-- The file that `tmpfs_create("x", VFS_FILE)` makes of zeros. -/
def newTmpfs : Tmpfs where
  file := { VfsState.newFile zeroFile VfsState.vfsFile with inode := 0 }
  mem _ := 0
  blocks := []
  touched := []

theorem newTmpfs_init : (tmpfsSystem zeroFile).init newTmpfs := by
  have returns : (tmpfsAtRoot.tmpfsCreate 1 Vfs.zeros none 0 [0x78, 0] VfsState.vfsFile
      [VfsState.zeroBlock 1]).map (fun r => (r.1, r.2.2.length)) = some (0, 0) := by
    decide +kernel
  obtain ⟨⟨result, vfs', rest⟩, created, facts⟩ := Option.map_eq_some_iff.mp returns
  obtain ⟨rfl, used⟩ := Prod.mk.inj facts
  obtain rfl := List.length_eq_zero_iff.mp used
  obtain ⟨block, same, file⟩ := VfsState.tmpfsCreate_file created
  obtain ⟨rfl, -⟩ := List.cons.inj same
  exact ⟨rfl, rfl, _, vfs', 1, Vfs.zeros, none, 0, [0x78, 0], VfsState.zeroBlock 1, [], created, rfl,
    file.symm⟩

theorem newTmpfs_write : (tmpfsSystem zeroFile).step newTmpfs (.write 0 [0x61, 0x62] 0x1000 0x2000)
    (newTmpfs.tmpfsVfsWrite 0 [0x61, 0x62] 0x1000 0x2000).2 := by
  refine ⟨Nat.le_refl 0, by decide, .inr ⟨by decide, fun _ none => ?_⟩, .inr ⟨by decide, ?_⟩, rfl⟩
  · exact (List.not_mem_nil none).elim
  · intro block member
    obtain rfl := List.mem_singleton.mp member
    decide

/-- The file is read after that. -/
theorem run_behaves_ab
    : ∃ s steps, (tmpfsSystem zeroFile).Run s steps ∧ contents steps = [0x61, 0x62]
        ∧ s.Behaves steps := by
  have read : (tmpfsSystem zeroFile).step
      (newTmpfs.tmpfsVfsWrite 0 [0x61, 0x62] 0x1000 0x2000).2 (.read 0 9)
      ((newTmpfs.tmpfsVfsWrite 0 [0x61, 0x62] 0x1000 0x2000).2.tmpfsVfsRead 0 9).2.2 :=
    ⟨Nat.zero_le _, by decide, rfl⟩
  have run := ((TransitionSystem.Run.start newTmpfs_init).next newTmpfs_write).next read
  refine ⟨_, _, run, rfl, run_behaves rfl run ?_⟩
  refine List.forall_mem_cons.mpr ⟨.inr (by decide), List.forall_mem_cons.mpr ⟨?_, by simp⟩⟩
  exact .inr ⟨rfl, by decide, by decide⟩

/-- When the first byte of a file of two bytes is written again, its length becomes 3. -/
theorem run_not_behaves
    : ¬ ∀ (held : VfsFile) (s : Tmpfs) (steps : List (Tmpfs × FileOp)),
        (tmpfsSystem held).Run s steps → s.Behaves steps := by
  intro always
  have again : (tmpfsSystem zeroFile).step
      (newTmpfs.tmpfsVfsWrite 0 [0x61, 0x62] 0x1000 0x2000).2 (.write 0 [0x63] 0 0)
      ((newTmpfs.tmpfsVfsWrite 0 [0x61, 0x62] 0x1000 0x2000).2.tmpfsVfsWrite 0 [0x63] 0 0).2 :=
    ⟨Nat.zero_le _, by decide, .inl rfl, .inl rfl, rfl⟩
  have run := ((TransitionSystem.Run.start newTmpfs_init).next newTmpfs_write).next again
  have length := (always _ _ _ run).2.2.length
  revert length
  decide

end Examples

end Tmpfs

end Hydrangea
