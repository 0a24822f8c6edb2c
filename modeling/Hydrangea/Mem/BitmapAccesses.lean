import Hydrangea.Lib.Traced
import Hydrangea.Mem.MemoryMap

/-! The words of `frames_bmp` that `kernel/mem/pmm.c` accesses, against the block that `pmm_init`
allocates and clears for them.
-/

namespace Hydrangea

/-- A computation of `pmm.c`: its events are the indices of the words of `frames_bmp` that it reads
or writes. It stops in a panic, or in a loop that does not end.
-/
abbrev BmpAccess : Type → Type :=
  Traced Nat Pmm

namespace BmpAccess

-----------------------------------------------------------------------------------------
-- The functions
-----------------------------------------------------------------------------------------

/-- `frames_bmp[i]`. -/
def word (i : Nat) : BmpAccess Unit :=
  Traced.emit i

def modify (f : Pmm → Pmm) : BmpAccess Unit := do
  let s ← Traced.state
  Traced.enter (f s)

def frameBmpSet (addr : Nat) : BmpAccess Unit := do
  word (addr / 4096 / 32)
  modify (fun s => s.frameBmpSet addr)

def frameBmpReset (addr : Nat) : BmpAccess Unit := do
  word (addr / 4096 / 32)
  modify (fun s => s.frameBmpReset addr)

def frameBmpTest (addr : Nat) : BmpAccess Nat := do
  word (addr / 4096 / 32)
  let s ← Traced.state
  return s.frameBmpTest addr

/-- The outer loop of `frame_bmp_get_first`, from word `i` on, of the `n` words that remain. -/
def scanWords : (n i : Nat) → BmpAccess Nat
  | 0, _ => Traced.stop
  | n + 1, i => do
      word i
      let s ← Traced.state
      if s.framesBmp i = 0xFFFFFFFF then
        scanWords n (i + 1)
      else
        match Pmm.firstClearBit (s.framesBmp i) 32 0 with
        | some j => return (32 * i + j) % 2 ^ 32
        | none => scanWords n (i + 1)

def frameBmpGetFirst : BmpAccess Nat := do
  let s ← Traced.state
  scanWords s.scannedWords 0

def frameAlloc : BmpAccess Nat := do
  let ff ← frameBmpGetFirst
  let addr := ff * 0x1000 % 2 ^ 32
  frameBmpSet addr
  return addr

/-- The loop `for (frame = 0; frame < frames; frame++) frame_bmp_set(base + frame * 4096)`. -/
def markFrames (base : Nat) : (frames : Nat) → BmpAccess Unit
  | 0 => return ()
  | frames + 1 => do
      markFrames base frames
      frameBmpSet ((base + frames * 4096) % 2 ^ 32)

/-- The body of the first loop of `pmm_init`. -/
def visitEntry (mmap : MmapEntry) : BmpAccess Unit :=
  if mmap.addrHi ≠ 0 then
    return ()
  else if mmap.type = multibootMemoryAvailable then
    modify (fun s => { s with memorySize := s.memorySize + mmap.lenLo })
  else
    markFrames mmap.addrLo (mmap.lenLo / 4096)

/-- The first loop of `pmm_init`. -/
def visitEntries : List MmapEntry → BmpAccess Unit
  | [] => return ()
  | mmap :: entries => do
      visitEntry mmap
      visitEntries entries

/-- The last loop of `pmm_init`, from address `at` on. -/
def markUnavailable (mbi : MultibootInfo) : (fuel address : Nat) → BmpAccess Unit
  | 0, _ => Traced.stop
  | fuel + 1, address =>
      if address < (mbi.mmapAddr + mbi.mmapLength) % 2 ^ 32 then do
        let mmap := mbi.mmap address
        if mmap.type &&& multibootMemoryAvailable = 0 then
          frameBmpSet mmap.addrLo
        markUnavailable mbi fuel ((address + mmap.size + 4) % 2 ^ 32)
      else
        return ()

def pmmInit (mbi : MultibootInfo) (endOfKernel fuel : Nat) : BmpAccess Unit := do
  modify (fun s =>
    { s with memorySize := 0, placementAddr := (pmalloc s.placementAddr Pmm.framesBmpSize).2 })
  modify Pmm.clearBmp
  visitEntries (Pmm.visitedEntries mbi)
  markFrames (Pmm.lastEntry mbi).addrLo (Pmm.kernelFrames endOfKernel)
  let _ ← frameAlloc
  markUnavailable mbi fuel mbi.mmapAddr

-----------------------------------------------------------------------------------------
-- The property
-----------------------------------------------------------------------------------------

/-- The word lies in the block that `pmm_init` allocates and clears. -/
def InBlock (i : Nat) : Prop :=
  4 * i + 4 ≤ Pmm.framesBmpSize

instance (i : Nat) : Decidable (InBlock i) :=
  inferInstanceAs (Decidable (_ ≤ _))

def blockFrames : Nat := 262112

/-- A call that accesses the bitmap. -/
inductive Call where
  | set (addr : Nat)
  | reset (addr : Nat)
  | test (addr : Nat)
  | getFirst
  | init (mbi : MultibootInfo) (endOfKernel : Nat)

/-- What a call does. The last loop of `pmm_init` makes as many rounds as there is fuel. -/
def Call.run (fuel : Nat) : Call → BmpAccess Unit
  | .set addr => frameBmpSet addr
  | .reset addr => frameBmpReset addr
  | .test addr => do
      let _ ← frameBmpTest addr
      return ()
  | .getFirst => do
      let _ ← frameBmpGetFirst
      return ()
  | .init mbi endOfKernel => pmmInit mbi endOfKernel fuel

/-- All words that a call accesses lie in the block. -/
def Inside (s : Pmm) (c : Call) : Prop :=
  ∀ fuel, (c.run fuel).Always s InBlock

/-- The frames from an address on begin below the end of the frames of the block. -/
def RangeBelow (base frames : Nat) : Prop :=
  frames = 0 ∨ base + (frames - 1) * 4096 < blockFrames * 4096

instance (base frames : Nat) : Decidable (RangeBelow base frames) :=
  inferInstanceAs (Decidable (_ ∨ _))

/-- What a call must meet. A search must have less than a gigabyte to go through, or find something
in the block; `pmm_init` must get a memory map with nothing to mark behind the block.
-/
def Call.Below (s : Pmm) : Call → Prop
  | .set addr => addr < blockFrames * 4096
  | .reset addr => addr < blockFrames * 4096
  | .test addr => addr < blockFrames * 4096
  | .getFirst => s.memorySize < 2 ^ 30 ∨ ∃ frame < blockFrames, ¬ s.Marked frame
  | .init mbi endOfKernel =>
      (∀ mmap ∈ Pmm.visitedEntries mbi, mmap.addrHi = 0 → mmap.type ≠ multibootMemoryAvailable
        → RangeBelow mmap.addrLo (mmap.lenLo / 4096))
      ∧ RangeBelow (Pmm.lastEntry mbi).addrLo (Pmm.kernelFrames endOfKernel)
      ∧ (availableMemory mbi < 2 ^ 30
        ∨ ∃ frame < blockFrames, ¬ EarlyMarks mbi endOfKernel s frame)
      ∧ ((∃ frame < 32 * min (availableMemory mbi / 4096 / 32) (2 ^ 32),
          ¬ EarlyMarks mbi endOfKernel s frame)
        → ∀ a, Walks mbi mbi.mmapAddr a → (mbi.mmap a).type &&& multibootMemoryAvailable = 0
          → (mbi.mmap a).addrLo < blockFrames * 4096)

/-- Addresses have 32 bits, and so have those in the entries of a memory map. -/
def Call.Sized : Call → Prop
  | .set addr => addr < 2 ^ 32
  | .reset addr => addr < 2 ^ 32
  | .test addr => addr < 2 ^ 32
  | .getFirst => True
  | .init mbi _ => ∀ a, (mbi.mmap a).addrLo < 2 ^ 32

variable {s : Pmm} {event : Nat → Prop}

-----------------------------------------------------------------------------------------
-- Single words
-----------------------------------------------------------------------------------------

theorem inBlock_iff (i : Nat) : InBlock i ↔ 32 * i < blockFrames := by
  rw [InBlock, Pmm.framesBmpSize, blockFrames]
  omega

/-- The word of an address lies in the block if its frame does. -/
theorem inBlock_addr (addr : Nat) : InBlock (addr / 4096 / 32) ↔ addr < blockFrames * 4096 := by
  rw [inBlock_iff, blockFrames]
  omega

/-- A change of the globals accesses nothing. -/
theorem always_modify (f : Pmm → Pmm) : (modify f).Always s event :=
  fun _ member => (List.not_mem_nil member).elim

theorem modify_run (f : Pmm → Pmm) : (modify f s).returned = some ((), f s) :=
  rfl

/-- `frame_bmp_set` accesses the word of its address. -/
theorem always_frameBmpSet (addr : Nat)
    : (frameBmpSet addr).Always s InBlock ↔ addr < blockFrames * 4096 := by
  rw [← inBlock_addr]
  exact List.forall_mem_singleton

-----------------------------------------------------------------------------------------
-- Searching
-----------------------------------------------------------------------------------------

/-- The first word is read, and then the next ones if all its bits are set. -/
theorem scanWords_succ (n i : Nat)
    : scanWords (n + 1) i s
      = let rest : BmpAccess Nat :=
          if s.framesBmp i = 0xFFFFFFFF then
            scanWords n (i + 1)
          else
            match Pmm.firstClearBit (s.framesBmp i) 32 0 with
            | some j => return (32 * i + j) % 2 ^ 32
            | none => scanWords n (i + 1)
        ⟨i :: (rest s).events, (rest s).state, (rest s).result⟩ :=
  rfl

/-- A search finds what `frame_bmp_get_first` finds, and changes nothing, by induction on the words
that remain.
-/
theorem scanWords_run (n i : Nat)
    : (scanWords n i s).result = Pmm.scanWords s.framesBmp n i ∧ (scanWords n i s).state = s := by
  induction n generalizing i with
  | zero => exact ⟨rfl, rfl⟩
  | succ n ih =>
      rw [scanWords_succ]
      dsimp only
      rw [Pmm.scanWords]
      by_cases full : s.framesBmp i = 0xFFFFFFFF
      · rw [if_pos full, if_pos full]
        exact ih (i + 1)
      · rw [if_neg full, if_neg full]
        cases Pmm.firstClearBit (s.framesBmp i) 32 0 with
        | none => exact ih (i + 1)
        | some j => exact ⟨rfl, rfl⟩

/-- The frames of a word are marked if all its bits are set. -/
theorem marked_word (i : Nat)
    : (∀ frame, 32 * i ≤ frame → frame < 32 * (i + 1) → s.Marked frame)
      ↔ ∀ b < 32, (s.framesBmp i).testBit b = true := by
  constructor
  · intro marked b small
    have bit := marked (32 * i + b) (by omega) (by omega)
    have word : (32 * i + b) / 32 = i := by omega
    have place : (32 * i + b) % 32 = b := by omega
    rwa [Pmm.Marked, word, place] at bit
  · intro all frame lower upper
    have word : frame / 32 = i := by omega
    rw [Pmm.Marked, word]
    exact all (frame % 32) (Nat.mod_lt _ (by decide))

/-- A search accesses the words up to the first one with a clear bit, by induction on the words that
remain.
-/
theorem always_scanWords (n i : Nat)
    : (scanWords n i).Always s event
      ↔ ∀ w, i ≤ w → w < i + n
        → (∀ frame, 32 * i ≤ frame → frame < 32 * w → s.Marked frame) → event w := by
  induction n generalizing i with
  | zero =>
      refine ⟨fun _ w lower upper => ?_, fun _ _ member => (List.not_mem_nil member).elim⟩
      omega
  | succ n ih =>
      have split : (scanWords (n + 1) i).Always s event
          ↔ event i ∧ ((∀ frame, 32 * i ≤ frame → frame < 32 * (i + 1) → s.Marked frame)
            → (scanWords n (i + 1)).Always s event) := by
        rw [Traced.Always, scanWords_succ, List.forall_mem_cons, marked_word]
        refine and_congr_right (fun _ => ?_)
        by_cases full : s.framesBmp i = 0xFFFFFFFF
        · have all : ∀ b < 32, (s.framesBmp i).testBit b = true := by
            intro b small
            rw [full]
            exact Pmm.testBit_full small
          rw [if_pos full]
          exact ⟨fun rest _ => rest, fun rest => rest all⟩
        rw [if_neg full]
        cases found : Pmm.firstClearBit (s.framesBmp i) 32 0 with
        | none =>
            have all : ∀ b < 32, (s.framesBmp i).testBit b = true := fun b small =>
              Pmm.firstClearBit_eq_none found b (Nat.zero_le b) (by omega)
            exact ⟨fun rest _ => rest, fun rest => rest all⟩
        | some j =>
            obtain ⟨-, inWord, clear, -⟩ := Pmm.firstClearBit_eq_some found
            have some : ¬ ∀ b < 32, (s.framesBmp i).testBit b = true := fun all => by
              rw [all j (by omega)] at clear
              cases clear
            refine ⟨fun _ all => absurd all some, fun _ _ member => ?_⟩
            exact (List.not_mem_nil member).elim
      rw [split, ih]
      constructor
      · rintro ⟨first, rest⟩ w lower upper marked
        rcases Nat.eq_or_lt_of_le lower with rfl | later
        · exact first
        · exact rest (fun frame from' to' => marked frame from' (by omega)) w later (by omega)
            (fun frame from' to' => marked frame (by omega) to')
      · intro all
        refine ⟨all i (Nat.le_refl i) (by omega) (fun frame from' to' => by omega), ?_⟩
        intro marked w lower upper later
        refine all w (by omega) (by omega) (fun frame from' to' => ?_)
        rcases Nat.lt_or_ge frame (32 * (i + 1)) with here | behind
        · exact marked frame from' here
        · exact later frame behind to'

/-- A search stays in the block if it has no more words to go through, or finds a frame there. -/
theorem always_frameBmpGetFirst
    : frameBmpGetFirst.Always s InBlock
      ↔ s.memorySize < 2 ^ 30 ∨ ∃ frame < blockFrames, ¬ s.Marked frame := by
  have scan : frameBmpGetFirst.Always s InBlock ↔ (scanWords s.scannedWords 0).Always s InBlock :=
    Iff.rfl
  rw [scan, always_scanWords]
  constructor
  · intro inside
    by_contra outside
    rw [not_or, not_lt] at outside
    obtain ⟨large, nothing⟩ := outside
    have full : ∀ frame < blockFrames, s.Marked frame := fun frame below =>
      not_not.mp (fun unset => nothing ⟨frame, below, unset⟩)
    have words : 8191 < s.scannedWords := by
      rw [Pmm.scannedWords]
      omega
    have last := inside 8191 (Nat.zero_le _) (by omega)
      (fun frame _ before => full frame (by rw [blockFrames]; omega))
    rw [inBlock_iff, blockFrames] at last
    omega
  · rintro (few | ⟨frame, below, clear⟩) w - upper marked
    · have words : s.scannedWords ≤ 8191 := by
        rw [Pmm.scannedWords]
        omega
      rw [inBlock_iff, blockFrames]
      omega
    · rw [inBlock_iff]
      by_contra behind
      exact clear (marked frame (Nat.zero_le _) (by omega))

/-- `frame_alloc` then marks a frame of the block. -/
theorem always_frameAlloc
    : frameAlloc.Always s InBlock
      ↔ s.memorySize < 2 ^ 30 ∨ ∃ frame < blockFrames, ¬ s.Marked frame := by
  have found := scanWords_run (s := s) s.scannedWords 0
  rw [frameAlloc, Traced.always_bind, always_frameBmpGetFirst]
  refine and_iff_left_of_imp (fun inside ff ended => ?_)
  have first : s.frameBmpGetFirst = some ff := found.1.symm.trans ended
  obtain ⟨f, scanned, rfl, clear, below⟩ := Pmm.frameBmpGetFirst_first first
  have small : f < blockFrames := by
    rcases inside with few | ⟨frame, inBlock, unset⟩
    · have words : s.scannedWords ≤ 8191 := by
        rw [Pmm.scannedWords]
        omega
      rw [blockFrames]
      omega
    · by_contra behind
      exact unset (below frame (by omega))
  rw [Traced.always_bind, always_frameBmpSet]
  refine ⟨?_, fun _ _ _ member => (List.not_mem_nil member).elim⟩
  rw [blockFrames] at small ⊢
  omega

/-- It returns what `frame_alloc` returns and leaves what that leaves. -/
theorem frameAlloc_run : (frameAlloc s).returned = s.frameAlloc := by
  have searched : (frameBmpGetFirst s).returned = s.frameBmpGetFirst.map (fun ff => (ff, s)) := by
    obtain ⟨result, state⟩ := scanWords_run (s := s) s.scannedWords 0
    show (scanWords s.scannedWords 0 s).returned = _
    rw [Traced.Outcome.returned, result, state]
    rfl
  rw [frameAlloc, Traced.returned_bind, searched, Pmm.frameAlloc]
  cases s.frameBmpGetFirst with
  | none => rfl
  | some ff => rfl

-----------------------------------------------------------------------------------------
-- The loops of `pmm_init`
-----------------------------------------------------------------------------------------

/-- A loop of `frame_bmp_set` returns, by induction on the frames. -/
theorem markFrames_run (base frames : Nat)
    : (markFrames base frames s).returned = some ((), s.markFrames base frames) := by
  induction frames with
  | zero => rfl
  | succ frames ih =>
      rw [markFrames, Traced.returned_bind, ih, Pmm.markFrames_succ]
      rfl

/-- It accesses the words of its frames, by induction on them. -/
theorem always_markFrames (base frames : Nat)
    : (markFrames base frames).Always s InBlock
      ↔ ∀ k < frames, (base + k * 4096) % 2 ^ 32 < blockFrames * 4096 := by
  induction frames with
  | zero =>
      refine ⟨fun _ _ none => ?_, fun _ _ none => ?_⟩
      · exact (Nat.not_lt_zero _ none).elim
      · exact (List.not_mem_nil none).elim
  | succ frames ih =>
      rw [markFrames, Traced.always_bind_of_returned (markFrames_run base frames), ih,
        always_frameBmpSet]
      exact Nat.forall_lt_succ_right.symm

/-- The frames from an address of 32 bits on lie in the block if and only if the last one begins
there.
-/
theorem rangeBelow_iff {base : Nat} (frames : Nat) (small : base < 2 ^ 32)
    : (∀ k < frames, (base + k * 4096) % 2 ^ 32 < blockFrames * 4096) ↔ RangeBelow base frames := by
  have limit : blockFrames * 4096 = 1073610752 := rfl
  rw [RangeBelow, limit]
  constructor
  · intro inside
    by_contra outside
    rw [not_or, not_lt] at outside
    obtain ⟨nonzero, behind⟩ := outside
    have start := inside 0 (by omega)
    rw [Nat.zero_mul, Nat.add_zero, Nat.mod_eq_of_lt small] at start
    -- the first frame that does not begin in front of the end
    have first := inside ((1073610752 - base + 4095) / 4096) (by omega)
    omega
  · intro below k before
    rcases below with none | last
    · omega
    · have step : k * 4096 ≤ (frames - 1) * 4096 := Nat.mul_le_mul_right _ (by omega)
      have less : base + k * 4096 < 1073610752 :=
        Nat.lt_of_le_of_lt (Nat.add_le_add_left step base) last
      exact Nat.lt_of_le_of_lt (Nat.mod_le _ _) less

/-- An entry of the memory map leaves what the first loop of `pmm_init` makes of it. -/
theorem visitEntry_run (mmap : MmapEntry)
    : (visitEntry mmap s).returned = some ((), s.visitEntry mmap) := by
  rw [visitEntry, Pmm.visitEntry]
  split
  · rfl
  · split
    · rfl
    · exact markFrames_run mmap.addrLo (mmap.lenLo / 4096)

/-- It accesses the words of its frames if it is not available. -/
theorem always_visitEntry {mmap : MmapEntry} (small : mmap.addrLo < 2 ^ 32)
    : (visitEntry mmap).Always s InBlock
      ↔ (mmap.addrHi = 0 → mmap.type ≠ multibootMemoryAvailable
        → RangeBelow mmap.addrLo (mmap.lenLo / 4096)) := by
  rw [visitEntry]
  by_cases low : mmap.addrHi = 0
  · rw [if_neg (not_not_intro low)]
    by_cases available : mmap.type = multibootMemoryAvailable
    · rw [if_pos available]
      exact ⟨fun _ _ reserved => absurd available reserved, fun _ => always_modify _⟩
    · rw [if_neg available, always_markFrames, rangeBelow_iff _ small]
      exact ⟨fun below _ _ => below, fun below => below low available⟩
  · rw [if_pos low]
    exact ⟨fun _ zero => absurd zero low, fun _ _ member => (List.not_mem_nil member).elim⟩

/-- The first loop of `pmm_init` returns, by induction on the entries. -/
theorem visitEntries_run (entries : List MmapEntry)
    : (visitEntries entries s).returned = some ((), entries.foldl Pmm.visitEntry s) := by
  induction entries generalizing s with
  | nil => rfl
  | cons mmap entries ih =>
      rw [visitEntries, Traced.returned_bind, visitEntry_run, List.foldl_cons]
      exact ih

/-- It accesses the words of the frames that are not available, by induction on the entries. -/
theorem always_visitEntries {entries : List MmapEntry}
    (small : ∀ mmap ∈ entries, mmap.addrLo < 2 ^ 32)
    : (visitEntries entries).Always s InBlock
      ↔ ∀ mmap ∈ entries, mmap.addrHi = 0 → mmap.type ≠ multibootMemoryAvailable
        → RangeBelow mmap.addrLo (mmap.lenLo / 4096) := by
  induction entries generalizing s with
  | nil =>
      refine ⟨fun _ _ none => ?_, fun _ _ none => ?_⟩
      · exact (List.not_mem_nil none).elim
      · exact (List.not_mem_nil none).elim
  | cons mmap entries ih =>
      rw [visitEntries, Traced.always_bind_of_returned (visitEntry_run mmap),
        always_visitEntry (small mmap (List.mem_cons_self ..)),
        ih (fun mmap member => small mmap (List.mem_cons_of_mem _ member)), List.forall_mem_cons]

/-- One round of the last loop of `pmm_init`. -/
theorem always_markUnavailable_succ (mbi : MultibootInfo) (fuel address : Nat)
    : (markUnavailable mbi (fuel + 1) address).Always s InBlock
      ↔ (address < (mbi.mmapAddr + mbi.mmapLength) % 2 ^ 32
        → ((mbi.mmap address).type &&& multibootMemoryAvailable = 0
            → (mbi.mmap address).addrLo < blockFrames * 4096)
          ∧ (markUnavailable mbi fuel ((address + (mbi.mmap address).size + 4) % 2 ^ 32)).Always
              (if (mbi.mmap address).type &&& multibootMemoryAvailable = 0 then
                s.frameBmpSet (mbi.mmap address).addrLo
              else
                s)
              InBlock) := by
  rw [markUnavailable]
  by_cases inside : address < (mbi.mmapAddr + mbi.mmapLength) % 2 ^ 32
  · rw [if_pos inside, forall_prop_of_true inside]
    dsimp only
    by_cases even : (mbi.mmap address).type &&& multibootMemoryAvailable = 0
    · rw [if_pos even, if_pos even, forall_prop_of_true even, ← always_frameBmpSet (s := s)]
      exact Traced.always_bind_of_returned rfl
    · rw [if_neg even, if_neg even]
      exact (and_iff_right (fun now => absurd now even)).symm
  · rw [if_neg inside]
    exact ⟨fun _ now => absurd now inside, fun _ _ none => (List.not_mem_nil none).elim⟩

/-- The last loop of `pmm_init` accesses the words of the entries with an even type that it comes
to, by induction on the fuel and on the way to the entry.
-/
theorem always_markUnavailable (mbi : MultibootInfo) (address : Nat)
    : (∀ fuel, (markUnavailable mbi fuel address).Always s InBlock)
      ↔ ∀ a, Walks mbi address a → (mbi.mmap a).type &&& multibootMemoryAvailable = 0
        → (mbi.mmap a).addrLo < blockFrames * 4096 := by
  constructor
  · intro inside a walks
    induction walks generalizing s with
    | here here =>
        exact ((always_markUnavailable_succ mbi 0 _).mp (inside 1) here).1
    | next here _ ih =>
        exact ih (fun fuel => ((always_markUnavailable_succ mbi fuel _).mp (inside (fuel + 1)) here).2)
  · intro below fuel
    induction fuel generalizing s address with
    | zero => exact fun _ none => (List.not_mem_nil none).elim
    | succ fuel ih =>
        refine (always_markUnavailable_succ mbi fuel address).mpr (fun here => ⟨?_, ?_⟩)
        · exact below address (.here here)
        · exact ih _ (fun a walks => below a (.next here walks))

-----------------------------------------------------------------------------------------
-- `pmm_init`
-----------------------------------------------------------------------------------------

/-- The last loop of `pmm_init` leaves what it leaves there, by induction on the fuel. -/
theorem markUnavailable_run (mbi : MultibootInfo) (fuel address : Nat)
    : (markUnavailable mbi fuel address s).returned.map Prod.snd
      = Pmm.markUnavailable mbi fuel address s := by
  induction fuel generalizing s address with
  | zero => rfl
  | succ fuel ih =>
      rw [Pmm.markUnavailable, markUnavailable]
      split
      · dsimp only
        split
        · exact ih _
        · exact ih _
      · rfl

/-- `pmm_init` goes on with its last loop where `frame_alloc` returns. -/
theorem pmmInit_run (mbi : MultibootInfo) (endOfKernel fuel : Nat)
    : (pmmInit mbi endOfKernel fuel s).returned.map Prod.snd
      = (s.beforeAlloc mbi endOfKernel).frameAlloc.bind
        (fun r => Pmm.markUnavailable mbi fuel mbi.mmapAddr r.2) := by
  rw [pmmInit, Traced.returned_bind, modify_run, Option.bind_some, Traced.returned_bind, modify_run,
    Option.bind_some, Traced.returned_bind, visitEntries_run, Option.bind_some,
    Traced.returned_bind, markFrames_run, Option.bind_some, Traced.returned_bind, frameAlloc_run,
    Option.map_bind]
  exact Option.bind_congr (fun r _ => markUnavailable_run mbi fuel mbi.mmapAddr)

/-- With its fuel, it leaves what it leaves there. -/
theorem pmmInit_eq (mbi : MultibootInfo) (endOfKernel : Nat) {fuel : Nat} (enough : fuel = 2 ^ 32)
    : (pmmInit mbi endOfKernel fuel s).returned.map Prod.snd = Pmm.pmmInit mbi endOfKernel s := by
  rw [pmmInit_run, Pmm.pmmInit, ← enough]
  rfl

/-- `pmm_init` accesses what its loops and its call of `frame_alloc` access. -/
theorem always_pmmInit_parts (mbi : MultibootInfo) (endOfKernel fuel : Nat)
    : ∃ s₁ s₂,
        (pmmInit mbi endOfKernel fuel).Always s InBlock
          ↔ (visitEntries (Pmm.visitedEntries mbi)).Always s₁ InBlock
            ∧ (markFrames (Pmm.lastEntry mbi).addrLo (Pmm.kernelFrames endOfKernel)).Always s₂ InBlock
            ∧ frameAlloc.Always (s.beforeAlloc mbi endOfKernel) InBlock
            ∧ ∀ addr, (frameAlloc (s.beforeAlloc mbi endOfKernel)).result = some addr
              → (markUnavailable mbi fuel mbi.mmapAddr).Always
                (frameAlloc (s.beforeAlloc mbi endOfKernel)).state InBlock := by
  let s₁ : Pmm := Pmm.clearBmp
    { s with memorySize := 0, placementAddr := (pmalloc s.placementAddr Pmm.framesBmpSize).2 }
  refine ⟨s₁, (Pmm.visitedEntries mbi).foldl Pmm.visitEntry s₁, ?_⟩
  rw [pmmInit, Traced.always_bind_of_returned rfl, and_iff_right (always_modify _),
    Traced.always_bind_of_returned rfl, and_iff_right (always_modify _),
    Traced.always_bind_of_returned (visitEntries_run _),
    Traced.always_bind_of_returned (markFrames_run _ _), Traced.always_bind]
  rfl

/-- `frame_alloc` returns if and only if a frame that is searched is clear. -/
theorem frameAlloc_returns_iff
    : (∃ addr, (frameAlloc s).result = some addr)
      ↔ ∃ frame < 32 * s.scannedWords, ¬ s.Marked frame := by
  have same := frameAlloc_run (s := s)
  constructor
  · rintro ⟨addr, ended⟩
    obtain ⟨frame, inside, clear, -⟩ := Pmm.frameAlloc_first
      (same.symm.trans (Traced.returned_eq_some.mpr ⟨ended, rfl⟩))
    exact ⟨frame, inside, clear⟩
  · rintro ⟨frame, inside, clear⟩
    obtain ⟨addr, s', alloc⟩ := MemoryMap.frameAlloc_returns inside clear
    exact ⟨addr, (Traced.returned_eq_some.mp (same.trans alloc)).1⟩

/-- The entry that `mmap` points to behind the first loop is one of the map. -/
theorem lastEntry_mem (mbi : MultibootInfo) : ∃ a, Pmm.lastEntry mbi = mbi.mmap a := by
  rcases List.eq_nil_or_concat (Pmm.visitedEntries mbi) with none | ⟨front, last, visited⟩
  · exact ⟨mbi.mmapAddr, by rw [Pmm.lastEntry, none, List.getLastD_nil]⟩
  · have member : last ∈ Pmm.visitedEntries mbi := by
      rw [visited, List.concat_eq_append]
      exact List.mem_concat_self
    obtain ⟨k, -, same⟩ := List.mem_map.mp member
    refine ⟨_, Eq.trans ?_ same.symm⟩
    rw [Pmm.lastEntry, visited, List.concat_eq_append, List.getLastD_concat]

/-- `pmm_init` stays in the block if and only if the memory map has nothing to mark behind it. -/
theorem inside_pmmInit {mbi : MultibootInfo} (endOfKernel : Nat)
    (small : ∀ a, (mbi.mmap a).addrLo < 2 ^ 32)
    : Inside s (.init mbi endOfKernel) ↔ (Call.init mbi endOfKernel).Below s := by
  obtain ⟨early, size⟩ := Pmm.beforeAlloc_marked mbi endOfKernel s
  have smallEntries : ∀ mmap ∈ Pmm.visitedEntries mbi, mmap.addrLo < 2 ^ 32 := by
    intro mmap visited
    obtain ⟨k, -, rfl⟩ := List.mem_map.mp visited
    exact small _
  have smallLast : (Pmm.lastEntry mbi).addrLo < 2 ^ 32 := by
    obtain ⟨a, last⟩ := lastEntry_mem mbi
    rw [last]
    exact small a
  have parts (fuel : Nat) := always_pmmInit_parts (s := s) mbi endOfKernel fuel
  have searched := frameAlloc_returns_iff (s := s.beforeAlloc mbi endOfKernel)
  simp only [Pmm.scannedWords, size, early] at searched
  simp only [always_visitEntries smallEntries, always_markFrames, rangeBelow_iff _ smallLast,
    always_frameAlloc, size, early] at parts
  rw [Inside, Call.Below, ← searched]
  constructor
  · intro inside
    obtain ⟨s₁, s₂, all⟩ := parts 0
    obtain ⟨entries, kernel, scan, -⟩ := all.mp (inside 0)
    refine ⟨entries, kernel, scan, ?_⟩
    rintro ⟨addr, ended⟩
    have walks (fuel : Nat) : (markUnavailable mbi fuel mbi.mmapAddr).Always
        (frameAlloc (s.beforeAlloc mbi endOfKernel)).state InBlock := by
      obtain ⟨s₁, s₂, all⟩ := parts fuel
      exact (all.mp (inside fuel)).2.2.2 addr ended
    exact (always_markUnavailable mbi mbi.mmapAddr).mp walks
  · rintro ⟨entries, kernel, scan, walks⟩ fuel
    obtain ⟨s₁, s₂, all⟩ := parts fuel
    refine all.mpr ⟨entries, kernel, scan, fun addr ended => ?_⟩
    exact (always_markUnavailable mbi _).mpr (walks ⟨addr, ended⟩) fuel

/-- A call stays in the block that `pmm_init` allocates if and only if its address is below the end
of the frames of the block, its search ends there, and its memory map has nothing to mark behind
it. The accesses of each call are collected, with the panics, and compared with the end of the
block; the searches read words up to the one in which they end.
-/
theorem inside_iff_below (s : Pmm) {c : Call} (sized : c.Sized) : Inside s c ↔ c.Below s := by
  cases c with
  | set addr => exact (forall_const Nat).trans (always_frameBmpSet addr)
  | reset addr =>
      rw [Call.Below, ← inBlock_addr]
      exact (forall_const Nat).trans List.forall_mem_singleton
  | test addr =>
      rw [Call.Below, ← inBlock_addr]
      exact (forall_const Nat).trans List.forall_mem_singleton
  | getFirst =>
      refine (forall_const Nat).trans ((Traced.always_bind).trans ?_)
      exact (and_iff_left (fun _ _ => Traced.always_pure ())).trans always_frameBmpGetFirst
  | init mbi endOfKernel => exact inside_pmmInit endOfKernel sized

/-- The memory map of one bank at 0 has nothing to mark behind the block. -/
theorem inside_oneBank
    : Inside (Owners.cleared 0x101000).pmm (.init MemoryMap.oneBank.toMultibootInfo 0x101000) := by
  refine (inside_iff_below _ ?_).mpr ⟨by decide, by decide, .inl (by decide), ?_⟩
  · intro a
    show (0 : Nat) < 2 ^ 32
    decide
  · rintro - a entry even
    obtain rfl := MemoryMap.oneBank_entry.mp entry
    cases even

/-- The word of the first address behind the frames of the block does not lie in the block. -/
theorem not_inside_set : ¬ ∀ s c, Call.Sized c → Inside s c := by
  intro inside
  have set := inside (Owners.cleared 0x101000).pmm (.set 0x3FFE0000)
    (show 0x3FFE0000 < 2 ^ 32 by decide) 0
  have word : InBlock 8191 := set 8191 (List.mem_cons_self ..)
  exact absurd word (by decide)

end BmpAccess

end Hydrangea
