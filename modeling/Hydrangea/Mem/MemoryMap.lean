import Hydrangea.Mem.FrameOwnership
import Hydrangea.Mem.Frames

/-! The frames that `frame_alloc` of `kernel/mem/pmm.c` hands out after `pmm_init`, against the
regions of the memory map: all of them are available only if `pmm_init` marks the others, and all
available ones are found only if none lies behind the words that are scanned.
-/

namespace Hydrangea

/-- A memory map with the fields `len_hi` of its entries, which `pmm.c` does not read. -/
structure MemoryMap extends MultibootInfo where
  lenHi : Nat → Nat

namespace MemoryMap

variable {m : MemoryMap} {endOfKernel : Nat} {boot pmm : Pmm}

/-- The map has an entry at an address: `size` leads from one entry to the next. -/
def Entry (m : MemoryMap) (a : Nat) : Prop :=
  Walks m.toMultibootInfo m.mmapAddr a

def start (m : MemoryMap) (a : Nat) : Nat :=
  (m.mmap a).addrHi * 2 ^ 32 + (m.mmap a).addrLo

def stop (m : MemoryMap) (a : Nat) : Nat :=
  m.start a + (m.lenHi a * 2 ^ 32 + (m.mmap a).lenLo)

/-- The frame at an address lies wholly inside an available region and has no byte of a region that
is not available.
-/
def Available (m : MemoryMap) (addr : Nat) : Prop :=
  (∃ a, m.Entry a ∧ (m.mmap a).type = multibootMemoryAvailable
    ∧ m.start a ≤ addr ∧ addr + 4096 ≤ m.stop a)
  ∧ ∀ a, m.Entry a → (m.mmap a).type ≠ multibootMemoryAvailable
    → ∀ byte, addr ≤ byte → byte < addr + 4096 → ¬ (m.start a ≤ byte ∧ byte < m.stop a)

/-- A frame with an address of 32 bits that lies wholly inside an available region whose `addr_hi`
is 0.
-/
def Usable (m : MemoryMap) (frame : Nat) : Prop :=
  frame < 2 ^ 20
    ∧ ∃ a, m.Entry a ∧ (m.mmap a).type = multibootMemoryAvailable ∧ (m.mmap a).addrHi = 0
      ∧ m.start a ≤ frame * 4096 ∧ frame * 4096 + 4096 ≤ m.stop a

/-- The number of frames in the words that `frame_bmp_get_first` scans: the memory that is
available, in whole words.
-/
def scannedFrames (m : MemoryMap) : Nat :=
  32 * min (availableMemory m.toMultibootInfo / 4096 / 32) (2 ^ 32)

/-- Every scanned frame that `pmm_init` does not mark is available. Behind the frames with
addresses of 32 bits only the first one that memory holds unmarked counts, by the lower bits of its
number.
-/
def Covers (m : MemoryMap) (endOfKernel : Nat) (boot : Pmm) : Prop :=
  ∀ frame < m.scannedFrames, ¬ InitMarks m.toMultibootInfo endOfKernel boot frame
    → (∀ before, 2 ^ 20 ≤ before → before < frame
      → InitMarks m.toMultibootInfo endOfKernel boot before)
    → m.Available (frame % 2 ^ 20 * 4096)

def call (s : Pmm) : Frames.Call → Option Pmm
  | .frameAlloc => s.frameAlloc.map Prod.snd
  | .frameFree addr => if addr < 2 ^ 32 then some (s.frameFree addr) else none

/-- The calls of `frame_alloc` and `frame_free` after `pmm_init`. -/
def system (m : MemoryMap) (endOfKernel : Nat) (boot : Pmm) : TransitionSystem Pmm Frames.Call where
  init s := Pmm.pmmInit m.toMultibootInfo endOfKernel boot = some s
  step s c s' := call s c = some s'

/-- `frame_bmp_get_first` panics only when every usable frame is marked, and `frame_alloc` returns a
frame as long as one is not.
-/
def Serves (m : MemoryMap) (s : Pmm) : Prop :=
  (s.frameBmpGetFirst = none → ∀ frame, m.Usable frame → s.Marked frame)
    ∧ ((∃ frame, m.Usable frame ∧ ¬ s.Marked frame) → ∃ addr s', s.frameAlloc = some (addr, s'))

-----------------------------------------------------------------------------------------
-- Allocating until nothing is left
-----------------------------------------------------------------------------------------

/-- The scanned words after `pmm_init`. -/
theorem scannedFrames_eq (ended : Pmm.pmmInit m.toMultibootInfo endOfKernel boot = some pmm)
    : 32 * pmm.scannedWords = m.scannedFrames := by
  rw [Pmm.scannedWords, (Pmm.pmmInit_marked ended).2, scannedFrames]

/-- A clear frame that is scanned is found. -/
theorem frameAlloc_returns {s : Pmm} {frame : Nat} (inside : frame < 32 * s.scannedWords)
    (clear : ¬ s.Marked frame)
    : ∃ addr s', s.frameAlloc = some (addr, s') := by
  cases found : s.frameBmpGetFirst with
  | none => exact absurd (Pmm.frameBmpGetFirst_none found frame inside) clear
  | some ff =>
      refine ⟨ff * 0x1000 % 2 ^ 32, s.frameBmpSet (ff * 0x1000 % 2 ^ 32), ?_⟩
      rw [Pmm.frameAlloc, found]
      rfl

/-- Enough allocations mark the first frames and no others, by induction on these frames. -/
theorem afterAllocs_fill (s : Pmm) {n : Nat} (inside : n ≤ 32 * s.scannedWords) (small : n ≤ 2 ^ 20)
    : ∃ k s', Owners.afterAllocs s k = some s' ∧ s'.memorySize = s.memorySize
        ∧ ∀ frame, s'.Marked frame ↔ s.Marked frame ∨ frame < n := by
  induction n with
  | zero => exact ⟨0, s, rfl, rfl, fun frame => by simp⟩
  | succ n ih =>
      obtain ⟨k, s', after, size, marked⟩ := ih (Nat.le_of_lt inside) (Nat.le_of_lt small)
      by_cases already : s'.Marked n
      · refine ⟨k, s', after, size, fun frame => ?_⟩
        have last : frame = n → s.Marked frame ∨ frame < n := by
          rintro rfl
          exact (marked frame).mp already
        rw [marked, Nat.lt_succ_iff_lt_or_eq, ← or_assoc, or_iff_left_of_imp last]
      · have words : s'.scannedWords = s.scannedWords := by rw [Pmm.scannedWords, size, Pmm.scannedWords]
        obtain ⟨addr, s'', alloc⟩ := frameAlloc_returns (words ▸ inside) already
        have kept := Pmm.frameAlloc_keeps alloc
        refine ⟨k + 1, s'', ?_, kept.2.1.trans size, fun frame => ?_⟩
        · rw [Owners.afterAllocs, after, Option.bind_some, alloc]
          rfl
        · rw [Pmm.marked_frameAlloc alloc]
          constructor
          · rintro (old | ⟨-, below⟩)
            · rcases (marked frame).mp old with before | less
              · exact .inl before
              · exact .inr (Nat.lt_succ_of_lt less)
            · refine .inr (Nat.lt_succ_of_le (Nat.le_of_not_lt (fun more => already (below n more))))
          · rintro (before | less)
            · exact .inl ((marked frame).mpr (.inl before))
            · rcases Nat.lt_succ_iff_lt_or_eq.mp less with less | rfl
              · exact .inl ((marked frame).mpr (.inr less))
              · exact .inr ⟨small, fun g below => (marked g).mpr (.inr below)⟩

/-- Allocations alone are a run, by induction on them. -/
theorem reachable_afterAllocs {k : Nat} {s : Pmm} (after : Owners.afterAllocs pmm k = some s)
    : ∃ live, (Frames.system pmm).Reachable { pmm := s, live } := by
  induction k generalizing s with
  | zero =>
      obtain rfl := Option.some.inj after
      exact ⟨[], .start rfl⟩
  | succ k ih =>
      obtain ⟨before, earlier, taken⟩ := Option.bind_eq_some_iff.mp after
      obtain ⟨⟨addr, s'⟩, alloc, rfl⟩ := Option.map_eq_some_iff.mp taken
      obtain ⟨live, reached⟩ := ih earlier
      have step : (Frames.mk before live).step .frameAlloc
          = some { pmm := s', live := addr :: live } := by
        rw [Frames.step, alloc]
        rfl
      exact ⟨addr :: live, .next reached step⟩

theorem system_afterAllocs {k : Nat} {s s' : Pmm} (reached : (system m endOfKernel boot).Reachable s)
    (after : Owners.afterAllocs s k = some s')
    : (system m endOfKernel boot).Reachable s' := by
  induction k generalizing s' with
  | zero =>
      obtain rfl := Option.some.inj after
      exact reached
  | succ k ih =>
      obtain ⟨before, earlier, alloc⟩ := Option.bind_eq_some_iff.mp after
      have taken : (system m endOfKernel boot).step before .frameAlloc s' := alloc
      exact .next (ih earlier) taken

/-- A scanned frame that is clear after `pmm_init` is handed out at last. -/
theorem handed_out {frame : Nat} (inside : frame < 32 * pmm.scannedWords) (clear : ¬ pmm.Marked frame)
    (high : ∀ before, 2 ^ 20 ≤ before → before < frame → pmm.Marked before)
    : ∃ s, (Frames.system pmm).Reachable s ∧ frame % 2 ^ 20 * 4096 ∈ s.live := by
  obtain ⟨k, s, after, size, marked⟩ := afterAllocs_fill pmm (n := min frame (2 ^ 20))
    (by omega) (Nat.min_le_right ..)
  obtain ⟨live, reached⟩ := reachable_afterAllocs after
  have clear' : ¬ s.Marked frame := by
    intro set
    rcases (marked frame).mp set with old | less
    · exact clear old
    · omega
  have words : s.scannedWords = pmm.scannedWords := by rw [Pmm.scannedWords, size, Pmm.scannedWords]
  obtain ⟨addr, s', alloc⟩ := frameAlloc_returns (words ▸ inside) clear'
  obtain ⟨first, -, firstClear, below, rfl, -⟩ := Pmm.frameAlloc_first alloc
  obtain rfl : first = frame := by
    rcases Nat.lt_trichotomy first frame with less | same | more
    · refine absurd ((marked first).mpr ?_) firstClear
      rcases Nat.lt_or_ge first (2 ^ 20) with small | large
      · exact .inr (by omega)
      · exact .inl (high first large less)
    · exact same
    · exact absurd (below frame more) clear'
  have taken : (Frames.mk s live).step .frameAlloc
      = some { pmm := s', live := first % 2 ^ 20 * 4096 :: live } := by
    rw [Frames.step, alloc]
    rfl
  exact ⟨_, .next reached taken, List.mem_cons_self ..⟩

/-- A frame with an address of 32 bits behind the scanned words stays clear in some run until
`frame_bmp_get_first` panics.
-/
theorem panics_clear (ended : Pmm.pmmInit m.toMultibootInfo endOfKernel boot = some pmm) {frame : Nat}
    (behind : m.scannedFrames ≤ frame) (small : frame < 2 ^ 20)
    : ∃ s, (system m endOfKernel boot).Reachable s ∧ s.frameBmpGetFirst = none ∧ ¬ s.Marked frame := by
  have words := scannedFrames_eq ended
  let freed := pmm.frameFree (frame * 4096)
  have taken : (system m endOfKernel boot).step pmm (.frameFree (frame * 4096)) freed :=
    if_pos (by omega)
  obtain ⟨k, s, after, size, marked⟩ := afterAllocs_fill freed (n := m.scannedFrames)
    (Nat.le_of_eq words.symm) (by omega)
  have reached : (system m endOfKernel boot).Reachable s :=
    system_afterAllocs (.next (.start ended) taken) after
  refine ⟨s, reached, ?_, fun set => ?_⟩
  · cases found : s.frameBmpGetFirst with
    | none => rfl
    | some ff =>
        obtain ⟨first, inside, -, clear, -⟩ := Pmm.frameBmpGetFirst_first found
        have same : s.scannedWords = pmm.scannedWords := by
          rw [Pmm.scannedWords, size, Pmm.scannedWords]
          rfl
        rw [same, words] at inside
        exact absurd ((marked first).mpr (.inr inside)) clear
  · rcases (marked frame).mp set with old | less
    · have reset := (Pmm.marked_frameBmpReset pmm (frame * 4096) frame).mp old
      exact reset.1 (Nat.mul_div_cancel _ (by decide)).symm
    · exact absurd less (Nat.not_lt.mpr behind)

-----------------------------------------------------------------------------------------
-- What is handed out
-----------------------------------------------------------------------------------------

/-- What every state satisfies when the map covers the scanned frames: frames that came to be clear
after `pmm_init` and frames handed out are available.
-/
structure Given (m : MemoryMap) (pmm : Pmm) (s : Frames) : Prop where
  size : s.pmm.memorySize = pmm.memorySize
  high : ∀ frame, 2 ^ 20 ≤ frame → (s.pmm.Marked frame ↔ pmm.Marked frame)
  clear : ∀ frame, ¬ s.pmm.Marked frame
    → ¬ pmm.Marked frame ∨ frame < 2 ^ 20 ∧ m.Available (frame * 4096)
  live : ∀ addr ∈ s.live, ∃ frame < 2 ^ 20, addr = frame * 4096 ∧ m.Available addr

/-- An allocation hands out an available frame. -/
theorem Given.frameAlloc {s : Frames} {s' : Pmm} {addr : Nat} (h : Given m pmm s)
    (ended : Pmm.pmmInit m.toMultibootInfo endOfKernel boot = some pmm)
    (covers : m.Covers endOfKernel boot) (alloc : s.pmm.frameAlloc = some (addr, s'))
    : Given m pmm { pmm := s', live := addr :: s.live } := by
  have marks := (Pmm.pmmInit_marked ended).1
  have set := Pmm.marked_frameAlloc alloc
  have kept := Pmm.frameAlloc_keeps alloc
  obtain ⟨frame, inside, clear, below, rfl, -⟩ := Pmm.frameAlloc_first alloc
  have available : m.Available (frame % 2 ^ 20 * 4096) := by
    rcases h.clear frame clear with unmarked | ⟨small, available⟩
    · have words : s.pmm.scannedWords = pmm.scannedWords := by
        rw [Pmm.scannedWords, h.size, Pmm.scannedWords]
      rw [words, scannedFrames_eq ended] at inside
      refine covers frame inside ((marks frame).not.mp unmarked) (fun before large less => ?_)
      exact (marks before).mp ((h.high before large).mp (below before less))
    · rwa [Nat.mod_eq_of_lt small]
  refine ⟨kept.2.1.trans h.size, fun g large => ?_, fun g unset => ?_, ?_⟩
  · rw [set, ← h.high g large]
    exact or_iff_left (fun both => Nat.not_lt.mpr large both.1)
  · exact h.clear g (fun old => unset ((set g).mpr (.inl old)))
  · rintro a member
    rcases List.mem_cons.mp member with rfl | old
    · exact ⟨_, Nat.mod_lt _ (by decide), rfl, available⟩
    · exact h.live a old

theorem Given.frameFree {s : Frames} {addr : Nat} (h : Given m pmm s) (member : addr ∈ s.live)
    : Given m pmm { pmm := s.pmm.frameFree addr, live := s.live.filter (fun a => a ≠ addr) } := by
  obtain ⟨frame, small, rfl, available⟩ := h.live addr member
  have reset := Pmm.marked_frameBmpReset s.pmm (frame * 4096)
  rw [Nat.mul_div_cancel _ (by decide)] at reset
  refine ⟨h.size, fun g large => ?_, fun g unset => ?_, fun a kept => ?_⟩
  · rw [Pmm.frameFree, reset, h.high g large]
    exact and_iff_right (Nat.ne_of_gt (Nat.lt_of_lt_of_le small large))
  · rw [Pmm.frameFree, reset, not_and_or, not_not] at unset
    rcases unset with rfl | old
    · exact .inr ⟨small, available⟩
    · exact h.clear g old
  · exact h.live a (List.mem_of_mem_filter kept)

/-- Every frame that `frame_alloc` hands out after `pmm_init` is available if and only if
`pmm_init` marks the other frames that are scanned. The frames that can be handed out are the clear
ones that are scanned, and every one of these is handed out in some run, the lowest first.
-/
theorem available_iff_covers (ended : Pmm.pmmInit m.toMultibootInfo endOfKernel boot = some pmm)
    : (∀ s, (Frames.system pmm).Reachable s → ∀ addr ∈ s.live, m.Available addr)
      ↔ m.Covers endOfKernel boot := by
  have marks := (Pmm.pmmInit_marked ended).1
  constructor
  · intro sound frame inside clear high
    rw [← scannedFrames_eq ended] at inside
    obtain ⟨s, reached, member⟩ := handed_out inside ((marks frame).not.mpr clear)
      (fun before large less => (marks before).mpr (high before large less))
    exact sound s reached _ member
  · intro covers s reached
    have given : Given m pmm s := by
      refine reached.invariant ?_ ?_
      · rintro s rfl
        exact ⟨rfl, fun _ _ => Iff.rfl, fun _ clear => .inl clear, fun _ none => by cases none⟩
      · intro s c s' given taken
        cases c with
        | frameAlloc =>
            obtain ⟨⟨addr, s''⟩, alloc, rfl⟩ := Option.map_eq_some_iff.mp taken
            exact given.frameAlloc ended covers alloc
        | frameFree addr =>
            obtain ⟨member, result⟩ := Option.ite_none_right_eq_some.mp taken
            obtain rfl := Option.some.inj result
            exact given.frameFree member
    intro addr member
    obtain ⟨-, -, -, available⟩ := given.live addr member
    exact available

def oneBank : MemoryMap where
  toMultibootInfo := Owners.availableLow
  lenHi _ := 0

/-- Available memory below 0x20000 and from 0x40000 to 0x80000. -/
def twoBanks : MemoryMap where
  mmapAddr := 0x9000
  mmapLength := 48
  framebufferAddr := 0xFD000000
  mmap a :=
    if a = 0x9000 then
      { size := 20, addrLo := 0, addrHi := 0, lenLo := 0x20000, type := 1 }
    else
      { size := 20, addrLo := 0x40000, addrHi := 0, lenLo := 0x40000, type := 1 }
  lenHi _ := 0

/-- `pmm_init` returns for the two maps. With two banks it leaves a frame in the hole and one at
the end of memory clear.
-/
theorem pmmInit_banks
    : (Pmm.pmmInit oneBank.toMultibootInfo 0x101000 (Owners.cleared 0x101000).pmm).isSome = true
      ∧ ∃ pmm ∈ Pmm.pmmInit twoBanks.toMultibootInfo 0x101000 (Owners.cleared 0x101000).pmm,
          32 < 32 * pmm.scannedWords ∧ pmm.frameBmpTest (32 * 4096) = 0 := by
  decide +kernel

theorem oneBank_entry {a : Nat} : oneBank.Entry a ↔ a = 0x9000 := by
  constructor
  · intro walks
    cases walks with
    | here _ => rfl
    | next _ rest =>
        cases rest with
        | here inside => exact absurd inside (by decide)
        | next inside _ => exact absurd inside (by decide)
  · rintro rfl
    exact .here (by decide)

theorem oneBank_covers : oneBank.Covers 0x101000 (Owners.cleared 0x101000).pmm := by
  intro frame inside _ _
  have bound : oneBank.scannedFrames = 128 := by decide
  rw [bound] at inside
  rw [Nat.mod_eq_of_lt (by omega)]
  refine ⟨⟨0x9000, oneBank_entry.mpr rfl, rfl, Nat.zero_le _, ?_⟩, fun a entry reserved => ?_⟩
  · have last : oneBank.stop 0x9000 = 0x80000 := by decide
    omega
  · exact absurd rfl reserved

/-- Of one bank only available frames are handed out. -/
theorem available_oneBank
    : ∃ pmm, Pmm.pmmInit oneBank.toMultibootInfo 0x101000 (Owners.cleared 0x101000).pmm = some pmm
        ∧ ∀ s, (Frames.system pmm).Reachable s → ∀ addr ∈ s.live, oneBank.Available addr := by
  obtain ⟨pmm, ended⟩ := Option.isSome_iff_exists.mp pmmInit_banks.1
  exact ⟨pmm, ended, (available_iff_covers ended).mpr oneBank_covers⟩

/-- With two banks a frame of the hole between them is handed out. -/
theorem not_available_twoBanks
    : ¬ ∀ (m : MemoryMap) endOfKernel boot pmm,
        Pmm.pmmInit m.toMultibootInfo endOfKernel boot = some pmm
          → ∀ s, (Frames.system pmm).Reachable s → ∀ addr ∈ s.live, m.Available addr := by
  intro sound
  obtain ⟨-, pmm, ended, inside, clear⟩ := pmmInit_banks
  have unmarked : ¬ pmm.Marked 32 := by
    have test := (Pmm.frameBmpTest_ne_zero pmm (32 * 4096)).not
    rw [Nat.mul_div_cancel _ (by decide)] at test
    exact test.mp (not_not_intro clear)
  obtain ⟨s, reached, member⟩ := handed_out inside unmarked
    (fun before large less => absurd less (by omega))
  obtain ⟨⟨a, entry, -, first, last⟩, -⟩ := sound _ _ _ _ ended s reached _ member
  have region : a = 0x9000 ∨ a = 0x9018 := by
    cases entry with
    | here _ => exact .inl rfl
    | next _ rest =>
        cases rest with
        | here _ => exact .inr rfl
        | next _ rest =>
            cases rest with
            | here outside => exact absurd outside (by decide)
            | next outside _ => exact absurd outside (by decide)
  rcases region with rfl | rfl
  · exact absurd last (by decide)
  · exact absurd first (by decide)

-----------------------------------------------------------------------------------------
-- What is found
-----------------------------------------------------------------------------------------

/-- The calls scan the same words in every state, by induction on the run. -/
theorem scannedWords_reachable {s : Pmm} (reached : (system m endOfKernel boot).Reachable s)
    : 32 * s.scannedWords = m.scannedFrames := by
  have size : s.memorySize = availableMemory m.toMultibootInfo := by
    induction reached with
    | start ended => exact (Pmm.pmmInit_marked ended).2
    | @next s c s' earlier taken size =>
        cases c with
        | frameAlloc =>
            obtain ⟨⟨addr, s''⟩, alloc, rfl⟩ := Option.map_eq_some_iff.mp taken
            exact (Pmm.frameAlloc_keeps alloc).2.1.trans size
        | frameFree addr =>
            obtain ⟨-, result⟩ := Option.ite_none_right_eq_some.mp taken
            obtain rfl := Option.some.inj result
            exact size
  rw [Pmm.scannedWords, size, scannedFrames]

/-- Allocation serves every usable frame in all states after `pmm_init` if and only if the words
that are scanned hold all usable frames. The search reads whole words of the bitmap only. A usable
frame behind the last one is never handed out, even when all frames in front are taken.
-/
theorem serves_iff_scanned (ended : Pmm.pmmInit m.toMultibootInfo endOfKernel boot = some pmm)
    : (∀ s, (system m endOfKernel boot).Reachable s → m.Serves s)
      ↔ ∀ frame, m.Usable frame → frame < m.scannedFrames := by
  constructor
  · intro serves frame usable
    by_contra outside
    obtain ⟨s, reached, panics, clear⟩ := panics_clear ended (Nat.le_of_not_lt outside) usable.1
    exact clear ((serves s reached).1 panics frame usable)
  · intro scanned s reached
    have words := scannedWords_reachable reached
    constructor
    · intro panics frame usable
      exact Pmm.frameBmpGetFirst_none panics frame (words ▸ scanned frame usable)
    · rintro ⟨frame, usable, clear⟩
      exact frameAlloc_returns (words ▸ scanned frame usable) clear

/-- One bank at 0 is scanned as a whole. -/
theorem serves_oneBank
    : (Pmm.pmmInit oneBank.toMultibootInfo 0x101000 (Owners.cleared 0x101000).pmm).isSome
      ∧ ∀ s, (system oneBank 0x101000 (Owners.cleared 0x101000).pmm).Reachable s
        → oneBank.Serves s := by
  refine ⟨pmmInit_banks.1, ?_⟩
  obtain ⟨pmm, ended⟩ := Option.isSome_iff_exists.mp pmmInit_banks.1
  refine (serves_iff_scanned ended).mpr ?_
  rintro frame ⟨-, a, entry, -, -, -, last⟩
  obtain rfl := oneBank_entry.mp entry
  have bound : oneBank.scannedFrames = 128 ∧ oneBank.stop 0x9000 = 0x80000 := by decide
  rw [bound.2] at last
  rw [bound.1]
  omega

/-- With two banks the last frames of memory are never found. -/
theorem not_serves_twoBanks
    : ¬ ∀ (m : MemoryMap) endOfKernel boot s,
        (system m endOfKernel boot).Reachable s → m.Serves s := by
  intro serves
  obtain ⟨-, pmm, ended, -⟩ := pmmInit_banks
  have behind : twoBanks.scannedFrames ≤ 100 := by decide
  obtain ⟨s, reached, panics, clear⟩ := panics_clear ended behind (by decide)
  refine clear ((serves _ _ _ s reached).1 panics 100 ⟨by decide, 0x9018, ?_, rfl, rfl, ?_, ?_⟩)
  · exact .next (by decide) (.here (by decide))
  · decide
  · decide

end MemoryMap

end Hydrangea
