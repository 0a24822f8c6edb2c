import Hydrangea.Lib.Traced
import Hydrangea.Mem.Paging

/-! The loader of `kernel/exec/elf.c`. It reads the file's headers and copies its segments
through the page tables of the current directory. A run leaves the addresses it reads and the
states it enters, and stops where the code panics or faults on a page that is not mapped.
-/

namespace Hydrangea

namespace Paging

def byte (s : Paging) (phys : Nat) : Nat :=
  s.mem (phys / 4 * 4) / 256 ^ (phys % 4) % 256

def replaceByte (word i value : Nat) : Nat :=
  word - word / 256 ^ i % 256 * 256 ^ i + value % 256 * 256 ^ i

def setByte (s : Paging) (phys value : Nat) : Paging :=
  let word := replaceByte (s.mem (phys / 4 * 4)) (phys % 4) value
  { s with mem := Function.update s.mem (phys / 4 * 4) word }

/-- Where an address lies in physical memory, by the tables of the current directory. -/
def translate (s : Paging) (virt : Nat) : Option Nat :=
  if s.pde s.curPageDir virt &&& pgPresent ≠ 0
      ∧ s.pte s.curPageDir virt &&& pgPresent ≠ 0 then
    some ((s.pte s.curPageDir virt &&& pgFrame) + virt % 4096)
  else
    none

end Paging

namespace Elf

/-- What a run leaves. -/
inductive Event where
  | reads (virt : Nat)
  | enters (s : Paging)

abbrev Load := Traced Event Paging

def enter (s : Paging) : Load Unit := do
  Traced.emit (.enters s)
  Traced.enter s

/-- `*virt`. -/
def readByte (virt : Nat) : Load Nat := do
  Traced.emit (.reads virt)
  let s ← Traced.state
  match s.translate virt with
  | none => Traced.stop
  | some phys => return s.byte phys

/-- `*virt = value`. -/
def writeByte (virt value : Nat) : Load Unit := do
  let s ← Traced.state
  match s.translate virt with
  | none => Traced.stop
  | some phys => enter (s.setByte phys value)

/-- A little-endian number of `n` bytes. -/
def readNumber : (n virt : Nat) → Load Nat
  | 0, _ => return 0
  | n + 1, virt => do
      let low ← readByte virt
      let high ← readNumber n ((virt + 1) % 2 ^ 32)
      return low + 256 * high

def memcpy : (dest src size : Nat) → Load Unit
  | _, _, 0 => return ()
  | dest, src, size + 1 => do
      let value ← readByte src
      writeByte dest value
      memcpy ((dest + 1) % 2 ^ 32) ((src + 1) % 2 ^ 32) size

/-- The loop of `memset`. -/
def fillBytes : (dest value n : Nat) → Load Unit
  | _, _, 0 => return ()
  | dest, value, n + 1 => do
      writeByte dest value
      fillBytes ((dest + 1) % 2 ^ 32) value n

/-- `memset`. The count is a signed number. -/
def memset (dest value n : Nat) : Load Unit :=
  if n < 2 ^ 31 then fillBytes dest value n else return ()

/-- A field of a header: where it lies and its bytes. -/
structure Field where
  offset : Nat
  bytes : Nat

def Field.read (field : Field) (header : Nat) : Load Nat :=
  readNumber field.bytes ((header + field.offset) % 2 ^ 32)

/-- `magic0` of `elf_header_t`. -/
def magic0 : Field := ⟨0, 1⟩

/-- `magic1` of `elf_header_t`. -/
def magic1 : Field := ⟨1, 1⟩

/-- `magic2` of `elf_header_t`. -/
def magic2 : Field := ⟨2, 1⟩

/-- `magic3` of `elf_header_t`. -/
def magic3 : Field := ⟨3, 1⟩

/-- `cl` of `elf_header_t`. -/
def cl : Field := ⟨4, 1⟩

/-- `endianness` of `elf_header_t`. -/
def endianness : Field := ⟨5, 1⟩

/-- `type` of `elf_header_t`. -/
def ehType : Field := ⟨16, 2⟩

/-- `machine` of `elf_header_t`. -/
def machine : Field := ⟨18, 2⟩

/-- `elf_version` of `elf_header_t`. -/
def elfVersion : Field := ⟨20, 4⟩

/-- `entry` of `elf_header_t`. -/
def entry : Field := ⟨24, 4⟩

/-- `ph_offset` of `elf_header_t`. -/
def phOffset : Field := ⟨28, 4⟩

/-- `ph_table_entry_size` of `elf_header_t`, which the loader does not read. -/
def phTableEntrySize : Field := ⟨42, 2⟩

/-- `ph_table_entry_count` of `elf_header_t`. -/
def phTableEntryCount : Field := ⟨44, 2⟩

/-- `type` of `elf_ph_header_t`. -/
def phType : Field := ⟨0, 4⟩

/-- `offset` of `elf_ph_header_t`. -/
def offset : Field := ⟨4, 4⟩

/-- `vaddr` of `elf_ph_header_t`. -/
def vaddr : Field := ⟨8, 4⟩

/-- `file_size` of `elf_ph_header_t`. -/
def fileSize : Field := ⟨16, 4⟩

/-- `mem_size` of `elf_ph_header_t`. -/
def memSize : Field := ⟨20, 4⟩

/-- `sizeof(elf_header_t)`. -/
def headerSize : Nat := 52

/-- `sizeof(elf_ph_header_t)`. -/
def phHeaderSize : Nat := 32

/-- `ELF_PH_SEGTYPE_NULL`. -/
def phSegtypeNull : Nat := 0

/-- `ELF_PH_SEGTYPE_LOAD`. -/
def phSegtypeLoad : Nat := 1

/-- `PG_RW | PG_USER`, the flags of the pages of a segment. -/
def segmentFlags : Nat :=
  Paging.pgRw ||| Paging.pgUser

/-- A file node: `size`, and the bytes that `vfs_read` delivers of it, all of them unless the
file system fails.
-/
structure FileNode where
  size : Nat
  bytes : List UInt8

/-- `vfs_read` into a buffer. -/
def storeBytes : (buffer : Nat) → List UInt8 → Load Unit
  | _, [] => return ()
  | buffer, b :: bytes => do
      writeByte buffer b.toNat
      storeBytes ((buffer + 1) % 2 ^ 32) bytes

def elfVerifyMagic (eh : Nat) : Load Bool := do
  let m0 ← magic0.read eh
  let m1 ← magic1.read eh
  let m2 ← magic2.read eh
  let m3 ← magic3.read eh
  return m0 = 0x7F ∧ m1 = 0x45 ∧ m2 = 0x4C ∧ m3 = 0x46

def elfIsRunnable (eh : Nat) : Load Bool := do
  if (← cl.read eh) ≠ 1 then
    return false
  else if (← endianness.read eh) ≠ 1 then
    return false
  else if (← machine.read eh) ≠ 3 then
    return false
  else if (← elfVersion.read eh) ≠ 1 then
    return false
  else if (← ehType.read eh) ≠ 2 then
    return false
  else
    return true

/-- `pg_alloc` of the current directory. -/
def pgAlloc (virt flags : Nat) : Load Unit := do
  let s ← Traced.state
  match s.pgAlloc virt flags with
  | none => Traced.stop
  | some (_, s') => enter s'

/-- What `elf_load_segments` does for a header of type `ELF_PH_SEGTYPE_LOAD`. Fields are read
anew at each use.
-/
def loadSegment (buffer ph : Nat) : Load Unit := do
  pgAlloc (← vaddr.read ph) segmentFlags
  -- `pg_invalidate_page` and `pg_invalidate_cache`: there is no cache of translations here.
  let _ ← vaddr.read ph
  memcpy (← vaddr.read ph) ((buffer + (← offset.read ph)) % 2 ^ 32) (← memSize.read ph)
  if (← fileSize.read ph) < (← memSize.read ph) then
    let dest := ((← vaddr.read ph) + (← fileSize.read ph)) % 2 ^ 32
    memset dest 0 ((← memSize.read ph) - (← fileSize.read ph))
  else
    return ()

/-- The loop of `elf_load_segments` from its round `n` on. The count has 16 bits, so `2 ^ 16`
of fuel is enough.
-/
def loadSegments (buffer phTbl : Nat) : (fuel n : Nat) → Load Unit
  | 0, _ => return ()
  | fuel + 1, n => do
      if n < (← phTableEntryCount.read buffer) then
        let ph := (phTbl + phHeaderSize * n) % 2 ^ 32
        if (← phType.read ph) = phSegtypeNull then
          loadSegments buffer phTbl fuel (n + 1)
        else if (← phType.read ph) = phSegtypeLoad then
          loadSegment buffer ph
          loadSegments buffer phTbl fuel (n + 1)
        else
          loadSegments buffer phTbl fuel (n + 1)
      else
        return ()

def elfLoadSegments (buffer : Nat) : Load Nat := do
  let phTbl := (buffer + (← phOffset.read buffer)) % 2 ^ 32
  loadSegments buffer phTbl (2 ^ 16) 0
  entry.read buffer

/-- `elf_load` once the file has been read. -/
def loadBuffer (buffer : Nat) : Load Nat := do
  if (← elfVerifyMagic buffer) = false then
    return 0
  else if (← elfIsRunnable buffer) = false then
    return 0
  else
    elfLoadSegments buffer

/-- `elf_load`, with the block that `kmalloc` returns for the file. Freeing the block at the
end does not change its bytes.
-/
def elfLoad (node : Option FileNode) (buffer : Nat) : Load Nat :=
  match node with
  | none => return 0
  | some file => do
      storeBytes buffer file.bytes
      if file.bytes.length = 0 then
        return 0
      else
        loadBuffer buffer

end Elf

end Hydrangea
