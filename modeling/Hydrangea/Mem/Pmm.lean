import Mathlib.Data.Nat.Bitwise
import Mathlib.Logic.Function.Basic
import Mathlib.Tactic

/-! The physical memory manager of `kernel/mem/pmm.c`: the placement allocator and the frame
bitmap. A 32-bit value is a natural number; wherever the C arithmetic can wrap, the
remainder by `2 ^ 32` is written out. `none` is a call that does not return.
-/

namespace Hydrangea

/-- `multiboot_memory_map_t`. -/
structure MmapEntry where
  size : Nat
  addrLo : Nat
  addrHi : Nat
  lenLo : Nat
  type : Nat

/-- The fields of `multiboot_info_t` that memory management reads. `mmap` is the entry that
memory holds at an address.
-/
structure MultibootInfo where
  mmapAddr : Nat
  mmapLength : Nat
  framebufferAddr : Nat
  mmap : Nat → MmapEntry

def multibootMemoryAvailable : Nat := 1

/-- The globals of `pmm.c`: `placement_addr`, the words of `frames_bmp`, `memory_size`. -/
structure Pmm where
  placementAddr : Nat
  framesBmp : Nat → Nat
  memorySize : Nat

/-- `pmalloc`, on `placement_addr`: the address returned, then the moved pointer. The 32-bit
difference `placement_addr - size` after the move is the pointer before it.
-/
def pmalloc (placementAddr size : Nat) : Nat × Nat :=
  (placementAddr, (placementAddr + size) % 2 ^ 32)

/-- While the pointer stays in 32 bits, it moves by the size. -/
theorem pmalloc_eq {placementAddr size : Nat} (room : placementAddr + size < 2 ^ 32)
    : pmalloc placementAddr size = (placementAddr, placementAddr + size) := by
  rw [pmalloc, Nat.mod_eq_of_lt room]

namespace Pmm

def frameBmpSet (s : Pmm) (addr : Nat) : Pmm :=
  let frameNbr := addr / 4096
  let word := s.framesBmp (frameNbr / 32) ||| 1 <<< (frameNbr % 32)
  { s with framesBmp := Function.update s.framesBmp (frameNbr / 32) word }

/-- `frame_bmp_reset`; the complement is taken in 32 bits. -/
def frameBmpReset (s : Pmm) (addr : Nat) : Pmm :=
  let frameNbr := addr / 4096
  let word := s.framesBmp (frameNbr / 32) &&& (0xFFFFFFFF ^^^ 1 <<< (frameNbr % 32))
  { s with framesBmp := Function.update s.framesBmp (frameNbr / 32) word }

def frameBmpTest (s : Pmm) (addr : Nat) : Nat :=
  let frameNbr := addr / 4096
  s.framesBmp (frameNbr / 32) &&& 1 <<< (frameNbr % 32)

/-- The inner loop of `frame_bmp_get_first`: the first clear bit of a word from bit `j` on,
of the `n` bits that remain.
-/
def firstClearBit (word : Nat) : (n j : Nat) → Option Nat
  | 0, _ => none
  | n + 1, j => if word &&& 1 <<< j ≠ 0 then firstClearBit word n (j + 1) else some j

/-- The outer loop of `frame_bmp_get_first`, from word `i` on, of the `n` words that
remain. It ends in the panic when no word has a clear bit.
-/
def scanWords (framesBmp : Nat → Nat) : (n i : Nat) → Option Nat
  | 0, _ => none
  | n + 1, i =>
      if framesBmp i = 0xFFFFFFFF then
        scanWords framesBmp n (i + 1)
      else
        match firstClearBit (framesBmp i) 32 0 with
        | some j => some ((32 * i + j) % 2 ^ 32)
        | none => scanWords framesBmp n (i + 1)

/-- `(memory_size / 4096) / 32`, the number of words `frame_bmp_get_first` scans. The
32-bit index repeats after `2 ^ 32` words, which then are all full, so the loop does not
return either.
-/
def scannedWords (s : Pmm) : Nat :=
  min (s.memorySize / 4096 / 32) (2 ^ 32)

def frameBmpGetFirst (s : Pmm) : Option Nat :=
  scanWords s.framesBmp s.scannedWords 0

def frameAlloc (s : Pmm) : Option (Nat × Pmm) := do
  let ff ← s.frameBmpGetFirst
  let addr := ff * 0x1000 % 2 ^ 32
  return (addr, s.frameBmpSet addr)

def frameFree (s : Pmm) (addr : Nat) : Pmm :=
  s.frameBmpReset addr

/-- The loop `for (frame = 0; frame < frames; frame++) frame_bmp_set(base + frame * 4096)`.
-/
def markFrames (s : Pmm) (base frames : Nat) : Pmm :=
  (List.range frames).foldl (fun s frame => s.frameBmpSet ((base + frame * 4096) % 2 ^ 32)) s

/-- The size in bytes that `pmm_init` allocates and clears for the bitmap. -/
def framesBmpSize : Nat := 0xffffffff / 4096 / 32

/-- `memset(frames_bmp, 0, framesBmpSize)`: the last word is cleared only in part, because
the size is not a multiple of four.
-/
def clearBmp (s : Pmm) : Pmm :=
  { s with
    framesBmp := fun i =>
      if i < framesBmpSize / 4 then
        0
      else if i = framesBmpSize / 4 then
        s.framesBmp i &&& 0xFF000000
      else
        s.framesBmp i }

/-- The body of the first loop of `pmm_init`, for one entry of the memory map. -/
def visitEntry (s : Pmm) (mmap : MmapEntry) : Pmm :=
  if mmap.addrHi ≠ 0 then
    s
  else if mmap.type = multibootMemoryAvailable then
    { s with memorySize := s.memorySize + mmap.lenLo }
  else
    s.markFrames mmap.addrLo (mmap.lenLo / 4096)

/-- The entries that the first loop of `pmm_init` visits: it steps by
`sizeof(multiboot_memory_map_t)`, whatever the `size` fields say.
-/
def visitedEntries (mbi : MultibootInfo) : List MmapEntry :=
  (List.range ((mbi.mmapLength + 23) / 24)).map
    (fun k => mbi.mmap ((mbi.mmapAddr + k * 24) % 2 ^ 32))

/-- The entry `mmap` points to after the first loop. -/
def lastEntry (mbi : MultibootInfo) : MmapEntry :=
  (visitedEntries mbi).getLastD (mbi.mmap mbi.mmapAddr)

def kernelFrames (endOfKernel : Nat) : Nat :=
  (endOfKernel + 2 ^ 32 - 1024 * 1024) % 2 ^ 32 / 4096

/-- The last loop of `pmm_init`, from address `at` on. Its state is the 32-bit address alone,
so it ends within `2 ^ 32` rounds or never.
-/
def markUnavailable (mbi : MultibootInfo) : (fuel address : Nat) → Pmm → Option Pmm
  | 0, _, _ => none
  | fuel + 1, address, s =>
      if address < (mbi.mmapAddr + mbi.mmapLength) % 2 ^ 32 then
        let mmap := mbi.mmap address
        let s :=
          if mmap.type &&& multibootMemoryAvailable = 0 then s.frameBmpSet mmap.addrLo else s
        markUnavailable mbi fuel ((address + mmap.size + 4) % 2 ^ 32) s
      else
        some s

def pmmInit (mbi : MultibootInfo) (endOfKernel : Nat) (s : Pmm) : Option Pmm := do
  let s := { s with memorySize := 0, placementAddr := (pmalloc s.placementAddr framesBmpSize).2 }
  let s := s.clearBmp
  let s := (visitedEntries mbi).foldl visitEntry s
  let s := s.markFrames (lastEntry mbi).addrLo (kernelFrames endOfKernel)
  let (_, s) ← s.frameAlloc
  markUnavailable mbi (2 ^ 32) mbi.mmapAddr s

-----------------------------------------------------------------------------------------
-- The bitmap as a set of frame numbers
-----------------------------------------------------------------------------------------

def Marked (s : Pmm) (frame : Nat) : Prop :=
  (s.framesBmp (frame / 32)).testBit (frame % 32) = true

/-- A one-bit mask selects a nonzero value exactly when the bit is set. -/
theorem and_shiftLeft_ne_zero (word j : Nat)
    : word &&& 1 <<< j ≠ 0 ↔ word.testBit j = true := by
  rw [Nat.one_shiftLeft, Nat.and_two_pow]
  cases word.testBit j <;> simp

/-- `frame_bmp_test` reads the bit of the frame of an address. -/
theorem frameBmpTest_ne_zero (s : Pmm) (addr : Nat)
    : s.frameBmpTest addr ≠ 0 ↔ s.Marked (addr / 4096) :=
  and_shiftLeft_ne_zero _ _

/-- `frame_bmp_set` sets the bit of the frame of its address and no other, by comparing
word and bit numbers.
-/
theorem marked_frameBmpSet (s : Pmm) (addr frame : Nat)
    : (s.frameBmpSet addr).Marked frame ↔ frame = addr / 4096 ∨ s.Marked frame := by
  unfold Marked frameBmpSet
  by_cases sameWord : frame / 32 = addr / 4096 / 32
  · have split : frame = addr / 4096 ↔ addr / 4096 % 32 = frame % 32 := by omega
    simp only [sameWord, Function.update_self, Nat.testBit_or, Nat.one_shiftLeft,
      Nat.testBit_two_pow, Bool.or_eq_true, decide_eq_true_eq, split]
    exact or_comm
  · have other : frame ≠ addr / 4096 := by omega
    simp [Function.update_of_ne sameWord, other]

theorem testBit_full {i : Nat} (inWord : i < 32) : (0xFFFFFFFF : Nat).testBit i = true := by
  have ones := Nat.testBit_two_pow_sub_one 32 i
  simpa [inWord] using ones

/-- `frame_bmp_reset` clears the bit of the frame of its address and no other. -/
theorem marked_frameBmpReset (s : Pmm) (addr frame : Nat)
    : (s.frameBmpReset addr).Marked frame ↔ frame ≠ addr / 4096 ∧ s.Marked frame := by
  unfold Marked frameBmpReset
  by_cases sameWord : frame / 32 = addr / 4096 / 32
  · have split : frame = addr / 4096 ↔ addr / 4096 % 32 = frame % 32 := by omega
    have ones : (0xFFFFFFFF : Nat).testBit (frame % 32) = true :=
      testBit_full (Nat.mod_lt _ (by decide))
    simp only [sameWord, Function.update_self, Nat.testBit_and, Nat.testBit_xor,
      Nat.one_shiftLeft, Nat.testBit_two_pow, ones, ne_eq, split]
    by_cases same : addr / 4096 % 32 = frame % 32 <;> simp [same]
  · have other : frame ≠ addr / 4096 := by omega
    simp [Function.update_of_ne sameWord, other]

/-- The inner loop finds the lowest clear bit, by induction on the bits that remain. -/
theorem firstClearBit_eq_some {word n j k : Nat} (h : firstClearBit word n j = some k)
    : j ≤ k ∧ k < j + n ∧ word.testBit k = false
      ∧ ∀ i, j ≤ i → i < k → word.testBit i = true := by
  induction n generalizing j with
  | zero => simp [firstClearBit] at h
  | succ n ih =>
      simp only [firstClearBit] at h
      by_cases set : word &&& 1 <<< j ≠ 0
      · rw [if_pos set] at h
        obtain ⟨lower, upper, clear, below⟩ := ih h
        refine ⟨by omega, by omega, clear, fun i hi hk => ?_⟩
        by_cases same : i = j
        · rw [same]
          exact (and_shiftLeft_ne_zero word j).mp set
        · exact below i (by omega) hk
      · rw [if_neg set] at h
        obtain rfl : j = k := Option.some.inj h
        have clear : ¬ word.testBit j = true := fun on =>
          set ((and_shiftLeft_ne_zero word j).mpr on)
        exact ⟨Nat.le_refl _, by omega, by simpa using clear, fun i hi hk => by omega⟩

/-- The inner loop finds nothing in a word whose bits are all set, by induction on the bits that
remain.
-/
theorem firstClearBit_eq_none {word n j : Nat} (h : firstClearBit word n j = none)
    : ∀ i, j ≤ i → i < j + n → word.testBit i = true := by
  induction n generalizing j with
  | zero =>
      intro i lower upper
      omega
  | succ n ih =>
      simp only [firstClearBit] at h
      by_cases set : word &&& 1 <<< j ≠ 0
      · rw [if_pos set] at h
        intro i lower upper
        by_cases same : i = j
        · rw [same]
          exact (and_shiftLeft_ne_zero word j).mp set
        · exact ih h i (by omega) (by omega)
      · rw [if_neg set] at h
        cases h

/-- The outer loop finds the lowest clear bit of the scanned words, by induction on the words that
remain.
-/
theorem scanWords_eq_some {framesBmp : Nat → Nat} {n i r : Nat}
    (h : scanWords framesBmp n i = some r)
    : ∃ word bit, i ≤ word ∧ word < i + n ∧ bit < 32 ∧ r = (32 * word + bit) % 2 ^ 32
        ∧ (framesBmp word).testBit bit = false
        ∧ ∀ w b, i ≤ w → b < 32 → 32 * w + b < 32 * word + bit
          → (framesBmp w).testBit b = true := by
  induction n generalizing i with
  | zero => simp [scanWords] at h
  | succ n ih =>
      have later (full : ∀ b < 32, (framesBmp i).testBit b = true)
          (h : scanWords framesBmp n (i + 1) = some r)
          : ∃ word bit, i ≤ word ∧ word < i + (n + 1) ∧ bit < 32 ∧ r = (32 * word + bit) % 2 ^ 32
              ∧ (framesBmp word).testBit bit = false
              ∧ ∀ w b, i ≤ w → b < 32 → 32 * w + b < 32 * word + bit
                → (framesBmp w).testBit b = true := by
        obtain ⟨word, bit, lower, upper, inWord, value, clear, below⟩ := ih h
        refine ⟨word, bit, by omega, by omega, inWord, value, clear, fun w b le small before => ?_⟩
        by_cases first : w = i
        · rw [first]
          exact full b small
        · exact below w b (by omega) small before
      simp only [scanWords] at h
      split at h
      next full =>
        apply later _ h
        intro b small
        rw [full]
        exact testBit_full small
      next =>
        cases found : firstClearBit (framesBmp i) 32 0 with
        | none =>
            apply later _ (by simpa [found] using h)
            intro b small
            exact firstClearBit_eq_none found b (Nat.zero_le b) (by omega)
        | some j =>
            simp only [found, Option.some.injEq] at h
            obtain ⟨-, upper, clear, below⟩ := firstClearBit_eq_some found
            refine ⟨i, j, Nat.le_refl i, by omega, by omega, h.symm, clear,
              fun w b lower small before => ?_⟩
            obtain rfl : w = i := by omega
            exact below b (Nat.zero_le b) (by omega)

/-- When the outer loop finds nothing, all bits of the scanned words are set, by induction on the
words that remain.
-/
theorem scanWords_eq_none {framesBmp : Nat → Nat} {n i : Nat}
    (h : scanWords framesBmp n i = none)
    : ∀ w b, i ≤ w → w < i + n → b < 32 → (framesBmp w).testBit b = true := by
  induction n generalizing i with
  | zero =>
      intro w b lower upper
      omega
  | succ n ih =>
      intro w b lower upper small
      have first : (∀ b < 32, (framesBmp i).testBit b = true)
          ∧ scanWords framesBmp n (i + 1) = none := by
        simp only [scanWords] at h
        split at h
        next full =>
          refine ⟨fun b small => ?_, h⟩
          rw [full]
          exact testBit_full small
        next =>
          cases found : firstClearBit (framesBmp i) 32 0 with
          | none =>
              refine ⟨fun b small => ?_, by simpa [found] using h⟩
              exact firstClearBit_eq_none found b (Nat.zero_le b) (by omega)
          | some j => simp [found] at h
      by_cases same : w = i
      · rw [same]
        exact first.1 b small
      · exact ih first.2 w b (by omega) (by omega) small

/-- `frame_bmp_get_first` returns the lowest clear frame, in 32 bits. -/
theorem frameBmpGetFirst_first {s : Pmm} {ff : Nat} (h : s.frameBmpGetFirst = some ff)
    : ∃ f < 32 * s.scannedWords, ff = f % 2 ^ 32 ∧ ¬ s.Marked f ∧ ∀ g < f, s.Marked g := by
  obtain ⟨word, bit, -, upper, inWord, value, clear, below⟩ := scanWords_eq_some h
  have wordOf : (32 * word + bit) / 32 = word := by omega
  have bitOf : (32 * word + bit) % 32 = bit := by omega
  refine ⟨32 * word + bit, by omega, value, ?_, fun g before => ?_⟩
  · simp [Marked, wordOf, bitOf, clear]
  · apply below
    · exact Nat.zero_le _
    · exact Nat.mod_lt _ (by decide)
    · omega

/-- When `frame_bmp_get_first` does not return, all frames of the scanned words are marked. -/
theorem frameBmpGetFirst_none {s : Pmm} (h : s.frameBmpGetFirst = none)
    : ∀ f < 32 * s.scannedWords, s.Marked f := by
  intro f inside
  apply scanWords_eq_none h
  · exact Nat.zero_le _
  · omega
  · exact Nat.mod_lt _ (by decide)

/-- While the scan stays below frame `2 ^ 32`, `frame_bmp_get_first` returns the lowest clear frame
of the scanned words.
-/
theorem frameBmpGetFirst_eq_some {s : Pmm} {ff : Nat}
    (h : s.frameBmpGetFirst = some ff) (small : s.scannedWords ≤ 2 ^ 27)
    : ff < 32 * s.scannedWords ∧ ¬ s.Marked ff ∧ ∀ frame < ff, s.Marked frame := by
  obtain ⟨f, inside, rfl, clear, below⟩ := frameBmpGetFirst_first h
  have value : f % 2 ^ 32 = f := Nat.mod_eq_of_lt (by omega)
  rw [value]
  exact ⟨inside, clear, below⟩

theorem frameAlloc_eq_some {s s' : Pmm} {addr : Nat} (alloc : s.frameAlloc = some (addr, s'))
    : ∃ ff, s.frameBmpGetFirst = some ff ∧ addr = ff * 0x1000 % 2 ^ 32
        ∧ s' = s.frameBmpSet addr := by
  obtain ⟨ff, found, rest⟩ := Option.bind_eq_some_iff.mp alloc
  obtain ⟨rfl, rfl⟩ := Prod.mk.inj (Option.some.inj rest)
  exact ⟨ff, found, rfl, rfl⟩

/-- `frame_alloc` marks the lowest clear frame, by the lower 20 bits of its number. -/
theorem frameAlloc_first {s s' : Pmm} {addr : Nat} (alloc : s.frameAlloc = some (addr, s'))
    : ∃ f < 32 * s.scannedWords, ¬ s.Marked f ∧ (∀ g < f, s.Marked g)
        ∧ addr = f % 2 ^ 20 * 4096 ∧ s' = s.frameBmpSet addr := by
  obtain ⟨ff, found, value, same⟩ := frameAlloc_eq_some alloc
  obtain ⟨f, inside, rfl, clear, below⟩ := frameBmpGetFirst_first found
  exact ⟨f, inside, clear, below, by omega, same⟩

/-- All frames marked before are marked afterwards. -/
def Keeps (s s' : Pmm) : Prop :=
  ∀ frame, s.Marked frame → s'.Marked frame

theorem Keeps.refl (s : Pmm) : Keeps s s :=
  fun _ marked => marked

theorem Keeps.trans {s s' s'' : Pmm} (h : Keeps s s') (h' : Keeps s' s'') : Keeps s s'' :=
  fun frame marked => h' frame (h frame marked)

theorem keeps_frameBmpSet (s : Pmm) (addr : Nat) : Keeps s (s.frameBmpSet addr) :=
  fun frame marked => (marked_frameBmpSet s addr frame).mpr (Or.inr marked)

theorem frameAlloc_keeps {s s' : Pmm} {addr : Nat} (alloc : s.frameAlloc = some (addr, s'))
    : Keeps s s' ∧ s'.memorySize = s.memorySize ∧ s'.placementAddr = s.placementAddr := by
  obtain ⟨ff, -, -, rfl⟩ := frameAlloc_eq_some alloc
  exact ⟨keeps_frameBmpSet s addr, rfl, rfl⟩

/-- Below 4 GiB `frame_alloc` returns the lowest clear frame and sets its bit. -/
theorem frameAlloc_lowest {s s' : Pmm} {addr : Nat} (small : s.scannedWords ≤ 2 ^ 15)
    (alloc : s.frameAlloc = some (addr, s'))
    : addr % 4096 = 0 ∧ addr / 4096 < 32 * s.scannedWords ∧ ¬ s.Marked (addr / 4096)
      ∧ (∀ frame < addr / 4096, s.Marked frame)
      ∧ (∀ frame, s'.Marked frame ↔ frame = addr / 4096 ∨ s.Marked frame)
      ∧ s'.memorySize = s.memorySize := by
  obtain ⟨ff, found, value, rfl⟩ := frameAlloc_eq_some alloc
  have few : s.scannedWords ≤ 2 ^ 27 := Nat.le_trans small (by decide)
  obtain ⟨inside, clear, lowest⟩ := frameBmpGetFirst_eq_some found few
  have exact : addr = ff * 4096 := by
    rw [value]
    omega
  have number : addr / 4096 = ff := by omega
  refine ⟨by omega, ?_, ?_, ?_, marked_frameBmpSet s addr, rfl⟩
  · rw [number]
    exact inside
  · rw [number]
    exact clear
  · rw [number]
    exact lowest

end Pmm

end Hydrangea
