import Hydrangea.Exec.ElfExecutables

/-! Which files `elf_load` handles safely: it reads inside the block of the file only, rejects what
does not fit in the file, and leaves the pages of the kernel as they are.
-/

namespace Hydrangea.Elf

open Paging

-----------------------------------------------------------------------------------------
-- Safe loads
-----------------------------------------------------------------------------------------

/-- The pages that the kernel directory maps are still mapped in the current directory, to the
same frames, and no entry for them has got `PG_USER`.
-/
def KernelKept (s s' : Paging) (ker : Nat) : Prop :=
  ∀ virt < 2 ^ 32, virt % pgSize = 0 → s.pgIsMapped ker virt = some true
    → s'.pgIsMapped s'.curPageDir virt = some true
      ∧ s'.pgVirtToPhys s'.curPageDir virt = s.pgVirtToPhys ker virt
      ∧ (s'.pte s'.curPageDir virt &&& pgUser ≠ 0 → s.pte ker virt &&& pgUser ≠ 0)
      ∧ (s'.pde s'.curPageDir virt &&& pgUser ≠ 0 → s.pde ker virt &&& pgUser ≠ 0)

def MapsNoMore (s s' : Paging) : Prop :=
  ∀ virt < 2 ^ 32, virt % pgSize = 0
    → s'.pgIsMapped s'.curPageDir virt = s.pgIsMapped s.curPageDir virt

/-- The header, the program header table and the file range of every segment fit in the file. -/
structure FitsInFile (size : Nat) (file : Nat → Nat) : Prop where
  header : headerSize ≤ size
  table : phOffset.of file 0 + phHeaderSize * phTableEntryCount.of file 0 ≤ size
  segments : ∀ seg ∈ allLoads file, seg.offset + seg.fileSize ≤ size

/-- The loader reads inside the block only, and all that time the pages of the kernel are kept.
If something does not fit in the file, it returns 0 and never maps a page.
-/
structure Safe (s : Paging) (ker : Nat) (node : FileNode) (buffer : Nat) : Prop where
  reads : ∀ virt, .reads virt ∈ (elfLoad (some node) buffer s).events
    → buffer ≤ virt ∧ virt < buffer + node.size
  kernel : ∀ s', .enters s' ∈ (elfLoad (some node) buffer s).events → KernelKept s s' ker
  rejects : ¬ FitsInFile node.size node.file
    → (elfLoad (some node) buffer s).result = some 0
      ∧ ∀ s', .enters s' ∈ (elfLoad (some node) buffer s).events → MapsNoMore s s'

/-- The current directory is a clone of the kernel directory, whose tables map their first pages
and none of whose pages is for the user, as `pg_init` makes them.
-/
structure KernelClone (s : Paging) (ker : Nat) : Prop where
  alike : MapsAlike s s ker s.curPageDir
  firstPage : ∀ d < 1024, s.Present s.curPageDir d → s.Mapped s.curPageDir (1024 * d)
  supervisor : ∀ q < 2 ^ 20, s.Mapped ker q → s.slot ker q &&& pgUser = 0

-----------------------------------------------------------------------------------------
-- The condition
-----------------------------------------------------------------------------------------

/-- The first bytes of every ELF file. -/
abbrev Magic (file : Nat → Nat) : Prop :=
  magic0.of file 0 = 0x7F ∧ magic1.of file 0 = 0x45 ∧ magic2.of file 0 = 0x4C
    ∧ magic3.of file 0 = 0x46

/-- A check of `elf_is_runnable` rejects the file before a byte behind it is read. -/
def Unrunnable (size : Nat) (file : Nat → Nat) : Prop :=
  5 ≤ size ∧ (cl.of file 0 ≠ 1
    ∨ 6 ≤ size ∧ (endianness.of file 0 ≠ 1
    ∨ 20 ≤ size ∧ (machine.of file 0 ≠ 3
    ∨ 24 ≤ size ∧ (elfVersion.of file 0 ≠ 1 ∨ ehType.of file 0 ≠ 2))))

/-- A check rejects the file before the loader has read a byte behind it. -/
def Rejected (size : Nat) (file : Nat → Nat) : Prop :=
  4 ≤ size ∧ (¬ Magic file ∨ Unrunnable size file)

/-- `elf_is_runnable` accepts the file. -/
structure Runnable (file : Nat → Nat) : Prop where
  class32 : cl.of file 0 = 1
  little : endianness.of file 0 = 1
  i386 : machine.of file 0 = 3
  version : elfVersion.of file 0 = 1
  exec : ehType.of file 0 = 2

/-- The checks accept the file. -/
structure Accepted (file : Nat → Nat) : Prop where
  magic : Magic file
  runnable : Runnable file

/-- How many bytes of a segment `memcpy` reads at most: the page behind the first one of a region is
never mapped, and elsewhere in a region not even the segment's first page is.
-/
def copied (seg : Segment) : Nat :=
  min seg.memSize (if seg.vaddr % 2 ^ 22 = 0 then 4097 else 1)

def Completes (seg : Segment) : Prop :=
  seg.memSize = 0 ∨ (seg.vaddr % 2 ^ 22 = 0 ∧ seg.memSize ≤ 4096)

/-- Segments that are loaded safely after segments in the given regions. One that `pg_alloc` panics
for is the last. Any other one begins in a region of its own directory, `memcpy` stays inside the
file, and if it comes to an end, the others are loaded safely.
-/
def Stays (s : Paging) (size : Nat) : List Nat → List Segment → Prop
  | _, [] => True
  | regions, seg :: rest =>
      seg.vaddr % 4096 = 0 →
        if s.Present s.curPageDir seg.region then
          Owners.afterAllocs s.pmm (framesFor regions + 1) = none
        else
          Owners.afterAllocs s.pmm (framesFor (regions ++ [seg.region])) = none
            ∨ (seg.offset + copied seg ≤ size
              ∧ (Completes seg → Stays s size (regions ++ [seg.region]) rest))

/-- Where the loader looks for the program header `n`, also if the table does not fit. -/
def position (file : Nat → Nat) (n : Nat) : Nat :=
  headerAt file n % 2 ^ 32

/-- The types of all program headers lie in the file, and none is `PT_LOAD`. -/
def NoLoads (size : Nat) (file : Nat → Nat) : Prop :=
  ∀ n < phTableEntryCount.of file 0,
    position file n + 4 ≤ size ∧ phType.of file (position file n) ≠ phSegtypeLoad

/-- The files that are handled safely: empty ones, those that a check rejects, those that fit and
whose segments stay inside the file and away from the kernel, and by chance those that do not fit,
but have nothing to load and 0 as their entry.
-/
def Harmless (s : Paging) (size : Nat) (file : Nat → Nat) : Prop :=
  size = 0
    ∨ Rejected size file
    ∨ (Accepted file ∧ FitsInFile size file ∧ Stays s size [] (allLoads file))
    ∨ (Accepted file ∧ ¬ FitsInFile size file ∧ 46 ≤ size ∧ NoLoads size file
      ∧ entry.of file 0 = 0)

-----------------------------------------------------------------------------------------
-- The pages of the kernel
-----------------------------------------------------------------------------------------

/-- What the current directory mapped is mapped as before, with the same entries. -/
structure SamePages (s s' : Paging) : Prop where
  current : s'.curPageDir = s.curPageDir
  mapped : ∀ q < 2 ^ 20, s.Mapped s.curPageDir q → s'.Mapped s.curPageDir q
  slot : ∀ q < 2 ^ 20, s.Mapped s.curPageDir q → s'.slot s.curPageDir q = s.slot s.curPageDir q
  entry : ∀ q < 2 ^ 20, s.Mapped s.curPageDir q
    → s'.word s.curPageDir (q / 1024) = s.word s.curPageDir (q / 1024)

section

variable {s s' s'' : Paging} {ker buffer size : Nat} {file : Nat → Nat} {added : List Placed}

theorem SamePages.trans (h : SamePages s s') (h' : SamePages s' s'') : SamePages s s'' := by
  obtain ⟨current, mapped, slot, entry⟩ := h'
  rw [h.current] at current mapped slot entry
  refine ⟨current, fun q hq here => mapped q hq (h.mapped q hq here), ?_, ?_⟩
  · intro q hq here
    rw [slot q hq (h.mapped q hq here), h.slot q hq here]
  · intro q hq here
    rw [entry q hq (h.mapped q hq here), h.entry q hq here]

theorem SamePages.of_untouched (h : Untouched s s' s.curPageDir)
    (current : s'.curPageDir = s.curPageDir)
    : SamePages s s' where
  current := current
  mapped q hq here := (h.mapped_iff hq).mpr here
  slot q hq here := h.slot_eq hq here.1
  entry q hq _ := h.entry (by omega)

theorem Added.samePages (h : Added s s' added) : SamePages s s' where
  current := h.current
  mapped q hq here := (h.mapped q hq).mpr (.inl here)
  slot q hq here := h.oldSlot q hq here
  entry q hq here := h.oldEntry _ (by omega) here.1

/-- The pages of the kernel are pages of its clone, with the same entries up to `PG_FLAGS`. -/
theorem KernelClone.page (clone : KernelClone s ker) {q : Nat} (hq : q < 2 ^ 20)
    : (s.Mapped s.curPageDir q ↔ s.Mapped ker q)
      ∧ (s.Mapped ker q
        → s.slot s.curPageDir q &&& pgFrame = s.slot ker q &&& pgFrame
          ∧ s.slot s.curPageDir q &&& pgFlags = s.slot ker q &&& pgFlags
          ∧ s.word s.curPageDir (q / 1024) &&& pgFlags = s.word ker (q / 1024) &&& pgFlags) := by
  obtain ⟨mapped, entries⟩ := clone.alike (4096 * q) (by omega) (by simp [pgSize])
  simp only [pgIsMapped_page, pgVirtToPhys_page, pte_page, pde_page, Option.some.injEq,
    decide_eq_decide, decide_eq_true_eq] at mapped entries
  exact ⟨mapped, entries⟩

theorem and_pgUser (x : Nat) : x &&& pgUser = (x &&& pgFlags) &&& pgUser := by
  rw [Nat.and_assoc]
  rfl

/-- Keeping the pages of the clone keeps the pages of the kernel. -/
theorem KernelClone.kept (clone : KernelClone s ker) (same : SamePages s s')
    : KernelKept s s' ker := by
  intro virt inWord aligned
  rw [pgSize] at aligned
  obtain ⟨q, rfl⟩ : ∃ q, virt = 4096 * q := ⟨virt / 4096, by omega⟩
  have hq : q < 2 ^ 20 := by omega
  simp only [pgIsMapped_page, pgVirtToPhys_page, pte_page, pde_page, Option.some.injEq,
    decide_eq_true_eq]
  intro mapped
  obtain ⟨iff, entries⟩ := clone.page hq
  obtain ⟨frame, flags, entryFlags⟩ := entries mapped
  have here := iff.mpr mapped
  have slot : s'.slot s.curPageDir q = s.slot s.curPageDir q := same.slot q hq here
  simp only [Paging.slot] at slot frame flags
  rw [same.current, slot, same.entry q hq here]
  refine ⟨same.mapped q hq here, frame, ?_, ?_⟩
  · rw [and_pgUser, flags, ← and_pgUser]
    exact id
  · rw [and_pgUser, entryFlags, ← and_pgUser]
    exact id

/-- Adding a page in a region of the kernel does not. -/
theorem KernelClone.not_kept {p phys : Nat} (clone : KernelClone s ker) (hp : p < 2 ^ 20)
    (present : s.Present s.curPageDir (p / 1024)) (current : s''.curPageDir = s.curPageDir)
    (new : PageAdded s' s'' s.curPageDir p phys segmentFlags)
    : ¬ KernelKept s s'' ker := by
  intro kept
  have hq : 1024 * (p / 1024) < 2 ^ 20 := by omega
  have mapped := (clone.page hq).1.mp (clone.firstPage _ (by omega) present)
  have slot := (new.outcome.written (1024 * (p / 1024)) hq (by omega) (by omega)).2
  have user := kept (4096 * (1024 * (p / 1024))) (by omega) (by simp [pgSize])
  simp only [pgIsMapped_page, pte_page, pde_page, Option.some.injEq, decide_eq_true_eq] at user
  obtain ⟨-, -, pte, -⟩ := user mapped
  refine pte ?_ (clone.supervisor _ hq mapped)
  rw [current]
  change s''.slot s.curPageDir (1024 * (p / 1024)) &&& pgUser ≠ 0
  have userBit (i : Nat) : newPte phys segmentFlags i &&& pgUser = pgUser :=
    calc newPte phys segmentFlags i &&& pgUser
        = newPte phys segmentFlags i &&& (segmentFlags &&& pgUser) := rfl
      _ = (newPte phys segmentFlags i &&& segmentFlags) &&& pgUser := (Nat.and_assoc _ _ _).symm
      _ = segmentFlags &&& pgUser := by rw [newPte_and_flags]
      _ = pgUser := rfl
  rw [slot, userBit]
  decide

-----------------------------------------------------------------------------------------
-- One segment
-----------------------------------------------------------------------------------------

/-- How many bytes of a segment `memcpy` writes at most. -/
def written (seg : Segment) : Nat :=
  min seg.memSize (if seg.vaddr % 2 ^ 22 = 0 then 4096 else 0)

/-- The copy comes to its end if all bytes are written. -/
theorem written_eq_iff (seg : Segment) : written seg = seg.memSize ↔ Completes seg := by
  rw [written, Completes]
  split <;> omega

/-- One more byte is read, unless the copy comes to its end. -/
theorem lt_copied_iff (seg : Segment) (i : Nat)
    : i < copied seg ↔ i < seg.memSize ∧ i ≤ written seg := by
  rw [written, copied]
  split <;> omega

/-- `pg_alloc` in a region of the kernel needs one frame. -/
theorem Added.pgAlloc_kernel {virt phys : Nat} (h : Added s s' added) (inWord : virt < 2 ^ 32)
    (present : s.Present s.curPageDir (virt / 2 ^ 22))
    (returned : s'.pgAlloc virt segmentFlags = some (phys, s''))
    : virt % 4096 = 0
      ∧ (Owners.afterAllocs s.pmm (framesFor (added.map Placed.region) + 1)).isSome
      ∧ ∃ p < 2 ^ 20, p / 1024 = virt / 2 ^ 22
        ∧ PageAdded s' s'' s.curPageDir p phys segmentFlags := by
  have live : s'.Live s'.curPageDir := by
    rw [h.current]
    exact h.live
  obtain ⟨p, hp, rfl, new⟩ := pgAlloc_pageAdded live segmentFlags_low inWord returned
  rw [h.current] at new
  have region : 4096 * p / 2 ^ 22 = p / 1024 := by omega
  rw [region] at present ⊢
  have still : s'.Present s.curPageDir (p / 1024) := (h.present _ (by omega)).mpr (.inl present)
  have frames := new.frames
  rw [if_pos still] at frames
  refine ⟨Nat.mul_mod_right 4096 p, ?_, p, hp, rfl, new⟩
  rw [Owners.afterAllocs_add, h.frames, Option.bind_some, frames]
  rfl

theorem Added.pgAlloc_kernel_returns {virt : Nat} (h : Added s s' added) (inWord : virt < 2 ^ 32)
    (present : s.Present s.curPageDir (virt / 2 ^ 22)) (aligned : virt % 4096 = 0)
    (enough : (Owners.afterAllocs s.pmm (framesFor (added.map Placed.region) + 1)).isSome)
    : ∃ phys s'', s'.pgAlloc virt segmentFlags = some (phys, s'') := by
  obtain ⟨p, rfl⟩ : ∃ p, virt = 4096 * p := ⟨virt / 4096, by omega⟩
  have region : 4096 * p / 2 ^ 22 = p / 1024 := by omega
  rw [region] at present
  have live : s'.Live s'.curPageDir := by
    rw [h.current]
    exact h.live
  have still : s'.Present s'.curPageDir (p / 1024) := by
    rw [h.current]
    exact (h.present _ (by omega)).mpr (.inl present)
  refine Paging.pgAlloc_returns live ?_
  rw [Owners.afterAllocs_add, h.frames, Option.bind_some] at enough
  rw [if_pos still]
  exact enough

/-- A segment whose page has been added, in a region that had no table. -/
structure Placing (s s'' : Paging) (added : List Placed) (seg : Segment) (phys : Nat) : Prop where
  added : Added s s'' (added ++ [⟨seg.vaddr / 4096, phys⟩])
  aligned : seg.vaddr % 4096 = 0
  inWord : seg.vaddr < 2 ^ 32
  user : ¬ s.Present s.curPageDir seg.region

section

variable {seg : Segment} {phys : Nat}

/-- The addresses of the bytes written lie in the segment's region. -/
theorem Placing.region (h : Placing s s'' added seg phys) {i n : Nat}
    (inside : i + n ≤ written seg)
    : seg.vaddr + i + n ≤ 2 ^ 32
      ∧ ∀ j < n, ¬ s.Present s.curPageDir ((seg.vaddr + i + j) / 2 ^ 22) := by
  have aligned := h.aligned
  have inWord := h.inWord
  rw [written] at inside
  split at inside
  · next start =>
      refine ⟨by omega, fun j hj => ?_⟩
      have same : (seg.vaddr + i + j) / 2 ^ 22 = seg.region := by
        rw [Segment.region]
        omega
      rw [same]
      exact h.user
  · refine ⟨by omega, fun j hj => ?_⟩
    omega

/-- `memcpy` writes all bytes or stops at a page that is not mapped. -/
theorem Placing.reach (h : Placing s s'' added seg phys)
    : written seg = seg.memSize
      ∨ (written seg < seg.memSize
        ∧ s''.translate ((seg.vaddr + written seg) % 2 ^ 32) = none) := by
  have aligned := h.aligned
  have inWord := h.inWord
  rcases Nat.lt_or_ge (written seg) seg.memSize with less | all
  · refine .inr ⟨less, ?_⟩
    by_contra mapped
    obtain ⟨phys', found⟩ := Option.ne_none_iff_exists'.mp mapped
    have inRegion : seg.vaddr + written seg < 2 ^ 32
        ∧ (seg.vaddr + written seg) / 2 ^ 22 = seg.region
        ∧ (seg.vaddr + written seg) / 4096 % 1024 ≠ 0 := by
      rw [Segment.region]
      by_cases start : seg.vaddr % 2 ^ 22 = 0
      · rw [written, if_pos start] at less ⊢
        omega
      · rw [written, if_neg start] at less ⊢
        omega
    obtain ⟨small, region, behind⟩ := inRegion
    rw [Nat.mod_eq_of_lt small] at found
    refine behind (h.added.frameOf_user small ?_ found).1
    rw [region]
    exact h.user
  · refine .inl (Nat.le_antisymm ?_ all)
    rw [written]
    exact Nat.min_le_left _ _

/-- The addresses of a copy that comes to its end are mapped. -/
theorem Placing.mapped (h : Placing s s'' added seg phys) {i : Nat} (hi : i < written seg)
    : s''.translate ((seg.vaddr + i) % 2 ^ 32) ≠ none := by
  have aligned := h.aligned
  obtain ⟨inWord, -⟩ := h.region (i := 0) (Nat.le_of_eq (Nat.zero_add _))
  have first : (seg.vaddr + i) % 2 ^ 32 = seg.vaddr + i := by omega
  rw [first, h.added.translate_ne_none (by omega), regions_placed]
  rw [written] at hi
  split at hi
  · next start =>
      refine .inr ⟨by omega, List.mem_append_right _ (List.mem_singleton.mpr ?_)⟩
      rw [Segment.region]
      omega
  · omega

/-- A call of `pg_alloc` that is safe and returns was made in a region without a table. -/
theorem Added.placing (h : Added s s' added) (inWord : seg.vaddr < 2 ^ 32)
    (stays : seg.vaddr % 4096 = 0 →
      if s.Present s.curPageDir seg.region then
        Owners.afterAllocs s.pmm (framesFor (added.map Placed.region) + 1) = none
      else
        Owners.afterAllocs s.pmm (framesFor (added.map Placed.region ++ [seg.region])) = none
          ∨ seg.offset + copied seg ≤ size)
    (alloc : s'.pgAlloc seg.vaddr segmentFlags = some (phys, s''))
    : Placing s s'' added seg phys ∧ seg.offset + copied seg ≤ size := by
  by_cases present : s.Present s.curPageDir seg.region
  · obtain ⟨aligned, frames, -⟩ := h.pgAlloc_kernel inWord present alloc
    have none := stays aligned
    rw [if_pos present] at none
    rw [none] at frames
    cases frames
  · obtain ⟨aligned, added', -⟩ := h.pgAlloc inWord present alloc
    have frames := added'.frames
    rw [regions_placed] at frames
    have safe := stays aligned
    rw [if_neg present, frames] at safe
    exact ⟨⟨added', aligned, inWord, present⟩, safe.resolve_left (Option.some_ne_none _)⟩

end

variable {event : Event → Prop}

section

variable {seg : Segment} {phys : Nat} {s₃ : Paging} {stopped : Paging → Prop}
  {returned : Unit → Paging → Prop}

/-- What `memcpy` writes of a segment lies in the pages that were added. -/
theorem Placing.wrote (placed : Placing s s'' added seg phys)
    (wrote : WroteRange s'' s₃ seg.vaddr (written seg))
    : Placing s s₃ added seg phys := by
  have all := placed.region (i := 0) (Nat.le_of_eq (Nat.zero_add (written seg)))
  exact ⟨placed.added.wroteRange all.1 all.2 wrote, placed.aligned, placed.inWord, placed.user⟩

/-- The copy of a segment whose bytes, as far as `memcpy` gets, lie in the file's block. It stops
only where it cannot write any more.
-/
theorem Placing.meets_memcpy (placed : Placing s s'' added seg phys)
    (ready : Ready s buffer size file) (inside : seg.offset + copied seg ≤ size)
    (reads : ∀ i < size, event (.reads (buffer + i)))
    (enters : ∀ s₃ more, Added s s₃ more → event (.enters s₃))
    (hs : ¬ Completes seg → ∀ s₃, stopped s₃)
    (hr : ∀ s₃, Completes seg → WroteRange s'' s₃ seg.vaddr (written seg) → returned () s₃)
    : (memcpy seg.vaddr ((buffer + seg.offset) % 2 ^ 32) seg.memSize).Meets s'' event stopped
        returned := by
  have bufferEnd := ready.inWord
  have source {i : Nat} (hi : i < seg.memSize) (le : i ≤ written seg)
      : seg.offset + i < size
        ∧ ((buffer + seg.offset) % 2 ^ 32 + i) % 2 ^ 32 = buffer + (seg.offset + i) := by
    have := (lt_copied_iff seg i).mpr ⟨hi, le⟩
    omega
  have all := placed.region (i := 0) (Nat.le_of_eq (Nat.zero_add (written seg)))
  refine Elf.meets_memcpy placed.reach (placed.added.clear all.1 all.2) placed.inWord
    (Nat.mod_lt _ (by decide)) ?_ (fun s₃ wrote => enters s₃ _ (placed.wrote wrote).added) ?_ ?_
  · intro i hi le
    obtain ⟨inFile, address⟩ := source hi le
    rw [address]
    exact reads _ inFile
  · intro i hi unmapped s₃ _
    refine hs (fun completes => ?_) s₃
    have complete := (written_eq_iff seg).mpr completes
    obtain ⟨inFile, address⟩ := source hi (by omega)
    rcases unmapped with none | none
    · rw [address] at none
      have held := (placed.added.holds ready).bytes _ inFile
      rw [virtByte, none] at held
      cases held
    · exact placed.mapped (by omega) none
  · exact fun complete s₃ wrote _ => hr s₃ ((written_eq_iff seg).mp complete) wrote

/-- `memset` of the rest of a segment whose copy came to its end: it lies in the same page. -/
theorem Placing.meets_memset (placed : Placing s s'' added seg phys) (ends : Completes seg)
    (rest : seg.fileSize < seg.memSize) (wrote : WroteRange s'' s₃ seg.vaddr (written seg))
    (enters : ∀ s₄ more, Added s s₄ more → event (.enters s₄))
    (hr : ∀ s₄, Placing s s₄ added seg phys → returned () s₄)
    : (memset ((seg.vaddr + seg.fileSize) % 2 ^ 32) 0 (seg.memSize - seg.fileSize)).Meets s₃ event
        stopped returned := by
  have aligned := placed.aligned
  have inWord := placed.inWord
  have few : seg.memSize ≤ 4096 := by
    rcases ends with empty | ⟨-, small⟩
    · omega
    · exact small
  have complete := (written_eq_iff seg).mpr ends
  have all := placed.region (i := 0) (Nat.le_of_eq (Nat.zero_add (written seg)))
  have placed₃ := placed.wrote wrote
  have tail := placed₃.region (i := seg.fileSize) (n := seg.memSize - seg.fileSize) (by omega)
  have start : (seg.vaddr + seg.fileSize) % 2 ^ 32 = seg.vaddr + seg.fileSize := by omega
  have same {virt : Nat} (hv : virt < 2 ^ 32) : s₃.translate virt = s''.translate virt :=
    (placed.added.clear all.1 all.2).translate_eq wrote hv
  have later {s₄ : Paging}
      (wrote₄ : WroteRange s₃ s₄ (seg.vaddr + seg.fileSize) (seg.memSize - seg.fileSize))
      : Placing s s₄ added seg phys :=
    ⟨placed₃.added.wroteRange tail.1 tail.2 wrote₄, aligned, inWord, placed.user⟩
  rw [memset, if_pos (by omega), start]
  refine meets_fillBytes (placed₃.added.clear tail.1 tail.2) (by omega) ?_ ?_ ?_
  · exact fun s₄ wrote₄ => enters s₄ _ (later wrote₄).added
  · intro i hi unmapped
    rw [same (Nat.mod_lt _ (by decide)), Nat.add_assoc] at unmapped
    exact absurd unmapped (placed.mapped (by omega))
  · exact fun s₄ wrote₄ _ => hr s₄ (later wrote₄)

end

/-- Loading a segment that is safe reads in the block only and adds one page, or stops because
`pg_alloc` panics or the copy does not come to its end.
-/
theorem meets_loadSegment_safe {header : Nat} {returned : Unit → Paging → Prop}
    (ready : Ready s buffer size file) (h : Added s s' added) (low : ∀ i, file i < 256)
    (inside : header + phHeaderSize ≤ size) (reads : ∀ i < size, event (.reads (buffer + i)))
    (enters : ∀ s'' more, Added s s'' more → event (.enters s''))
    (stays : (segmentOf file header).vaddr % 4096 = 0 →
      if s.Present s.curPageDir (segmentOf file header).region then
        Owners.afterAllocs s.pmm (framesFor (added.map Placed.region) + 1) = none
      else
        Owners.afterAllocs s.pmm
            (framesFor (added.map Placed.region ++ [(segmentOf file header).region])) = none
          ∨ (segmentOf file header).offset + copied (segmentOf file header) ≤ size)
    (hr : ∀ s'' phys, Completes (segmentOf file header)
      → Placing s s'' added (segmentOf file header) phys → returned () s'')
    : (loadSegment buffer (buffer + header)).Meets s' event
        (fun _ => ¬ ((segmentOf file header).vaddr % 4096 = 0
          ∧ Owners.afterAllocs s.pmm
              (framesFor (added.map Placed.region ++ [(segmentOf file header).region])) ≠ none
          ∧ ¬ s.Present s.curPageDir (segmentOf file header).region
          ∧ Completes (segmentOf file header)))
        returned := by
  generalize same : segmentOf file header = seg at stays hr ⊢
  have offsetEq : offset.of file header = seg.offset := congrArg Segment.offset same
  have vaddrEq : vaddr.of file header = seg.vaddr := congrArg Segment.vaddr same
  have fileSizeEq : fileSize.of file header = seg.fileSize := congrArg Segment.fileSize same
  have memSizeEq : memSize.of file header = seg.memSize := congrArg Segment.memSize same
  have inWord : seg.vaddr < 2 ^ 32 := by
    rw [← vaddrEq]
    exact number_lt (fun i => low _) 4
  have read (s₁ : Paging) (more : List Placed) (h₁ : Added s s₁ more) (field : Field)
      {stopped : Paging → Prop} {returned₁ : Nat → Paging → Prop} (nonempty : 0 < field.bytes)
      (fieldInside : field.offset + field.bytes ≤ phHeaderSize)
      (hr₁ : returned₁ (field.of file header) s₁)
      : (field.read (buffer + header)).Meets s₁ event stopped returned₁ :=
    (h₁.holds ready).meets_read field nonempty (by omega) rfl reads hr₁
  refine .bind (read s' added h vaddr (by decide) (by decide) ?_)
  rw [vaddrEq]
  have placing {phys : Nat} {s'' : Paging}
      (alloc : s'.pgAlloc seg.vaddr segmentFlags = some (phys, s''))
      : Placing s s'' added seg phys ∧ seg.offset + copied seg ≤ size :=
    h.placing inWord stays alloc
  refine .bind (meets_pgAlloc ?_ ?_ ?_)
  · intro stopped goes
    obtain ⟨aligned, frames, user, -⟩ := goes
    obtain ⟨phys, s'', returned⟩ := h.pgAlloc_returns inWord user aligned
      (Option.isSome_iff_ne_none.mpr frames)
    rw [returned] at stopped
    cases stopped
  · exact fun phys s'' alloc => enters s'' _ (placing alloc).1.added
  intro phys s'' alloc
  obtain ⟨placed, copiedInside⟩ := placing alloc
  refine .bind (read s'' _ placed.added vaddr (by decide) (by decide) ?_)
  refine .bind (read s'' _ placed.added vaddr (by decide) (by decide) ?_)
  refine .bind (read s'' _ placed.added offset (by decide) (by decide) ?_)
  refine .bind (read s'' _ placed.added memSize (by decide) (by decide) ?_)
  rw [vaddrEq, offsetEq, memSizeEq]
  refine .bind (placed.meets_memcpy ready copiedInside reads enters
    (fun incomplete _ goes => incomplete goes.2.2.2) ?_)
  intro s₃ ends wrote
  have placed₃ := placed.wrote wrote
  refine .bind (read s₃ _ placed₃.added fileSize (by decide) (by decide) ?_)
  refine .bind (read s₃ _ placed₃.added memSize (by decide) (by decide) ?_)
  rw [fileSizeEq, memSizeEq]
  split
  · next rest =>
      refine .bind (read s₃ _ placed₃.added vaddr (by decide) (by decide) ?_)
      refine .bind (read s₃ _ placed₃.added fileSize (by decide) (by decide) ?_)
      refine .bind (read s₃ _ placed₃.added memSize (by decide) (by decide) ?_)
      refine .bind (read s₃ _ placed₃.added fileSize (by decide) (by decide) ?_)
      rw [vaddrEq, fileSizeEq, memSizeEq]
      exact placed.meets_memset ends rest wrote enters (fun s₄ placed₄ => hr s₄ phys ends placed₄)
  · exact Traced.meets_pure (hr s₃ phys ends placed₃)

-----------------------------------------------------------------------------------------
-- The program header table
-----------------------------------------------------------------------------------------

/-- One program header more: of another type, or of the first of the segments left. -/
theorem rest_succ {n : Nat} {rest : List Segment} (more : n < phTableEntryCount.of file 0)
    (all : allLoads file = loads file n ++ rest)
    : (phType.of file (headerAt file n) ≠ phSegtypeLoad
        → allLoads file = loads file (n + 1) ++ rest)
      ∧ (phType.of file (headerAt file n) = phSegtypeLoad
        → ∃ rest', rest = segmentOf file (headerAt file n) :: rest'
          ∧ allLoads file = loads file (n + 1) ++ rest') := by
  constructor
  · intro other
    rw [all, loads_succ_skip other]
  · intro load
    obtain ⟨rest', all'⟩ := loads_prefix file (Nat.succ_le_of_lt more)
    refine ⟨rest', ?_, all'⟩
    rw [← allLoads, all, Nat.succ_eq_add_one, loads_succ_load load, List.append_assoc] at all'
    exact List.append_cancel_left all'

/-- What holds before the round `n` of the loop: the pages added are those of the segments so far,
and the segments left stay.
-/
def Loading (s : Paging) (size : Nat) (file : Nat → Nat) (n : Nat) (s' : Paging) : Prop :=
  ∃ added rest, Added s s' added
    ∧ added.map Placed.region = (loads file n).map Segment.region
    ∧ allLoads file = loads file n ++ rest
    ∧ Stays s size ((loads file n).map Segment.region) rest

theorem Loading.skip (h : Loading s size file n s') (more : n < phTableEntryCount.of file 0)
    (other : phType.of file (headerAt file n) ≠ phSegtypeLoad)
    : Loading s size file (n + 1) s' := by
  obtain ⟨added, rest, placed, regions, all, stays⟩ := h
  have same := loads_succ_skip other
  refine ⟨added, rest, placed, ?_, (rest_succ more all).1 other, ?_⟩
  · rw [same, regions]
  · rwa [same]

/-- Loading a segment that stays reads in the block only, and the segments behind it stay then. -/
theorem Loading.load (h : Loading s size file n s') (ready : Ready s buffer size file)
    (low : ∀ i, file i < 256) (fits : FitsInFile size file)
    (more : n < phTableEntryCount.of file 0)
    (isLoad : phType.of file (headerAt file n) = phSegtypeLoad)
    (reads : ∀ i < size, event (.reads (buffer + i)))
    (enters : ∀ s'' more, Added s s'' more → event (.enters s''))
    : (loadSegment buffer (buffer + headerAt file n)).Meets s' event (fun _ => True)
        (fun _ s'' => Loading s size file (n + 1) s'') := by
  obtain ⟨added, rest, placed, regions, all, stays⟩ := h
  obtain ⟨rest', rfl, all'⟩ := (rest_succ more all).2 isLoad
  have one := loads_succ_load isLoad
  refine .mono (meets_loadSegment_safe ready placed low (headerAt_inside fits.table more) reads
    enters ?_ (fun s'' phys completes placing => ?_))
    (fun _ event => event) (fun _ _ => trivial) (fun _ _ result => result)
  · intro aligned
    have here := stays aligned
    rw [regions]
    split at here
    · next present => rwa [if_pos present]
    · next absent =>
        rw [if_neg absent]
        exact here.imp_right And.left
  · have frames := placing.added.frames
    have here := stays placing.aligned
    rw [if_neg placing.user] at here
    rw [regions_placed, regions] at frames
    rw [frames] at here
    refine ⟨_, rest', placing.added, ?_, all', ?_⟩
    · rw [regions_placed, regions, one, List.map_append, List.map_singleton]
    · rw [one, List.map_append, List.map_singleton]
      exact (here.resolve_left (Option.some_ne_none _)).2 completes

/-- The loop reads in the block only. -/
theorem meets_loadSegments_safe {fuel n : Nat} {rest : List Segment}
    {returned : Unit → Paging → Prop} (ready : Ready s buffer size file)
    (low : ∀ i, file i < 256) (fits : FitsInFile size file)
    (reads : ∀ i < size, event (.reads (buffer + i)))
    (enters : ∀ s'' more, Added s s'' more → event (.enters s''))
    (h : Added s s' added)
    (regions : added.map Placed.region = (loads file n).map Segment.region)
    (le : n ≤ phTableEntryCount.of file 0) (enough : phTableEntryCount.of file 0 < n + fuel)
    (all : allLoads file = loads file n ++ rest)
    (stays : Stays s size ((loads file n).map Segment.region) rest)
    (hr : ∀ s'' more, Added s s'' more → returned () s'')
    : (loadSegments buffer ((buffer + phOffset.of file 0) % 2 ^ 32) fuel n).Meets s' event
        (fun _ => True) returned := by
  refine .mono (meets_loadSegments_of (Loading s size file)
    (fun k t ⟨_, _, placed, _⟩ => placed.holds ready) ready.inWord fits.header fits.table reads
    (fun k t more before other => before.skip more other)
    (fun k t more before isLoad => before.load ready low fits more isLoad reads enters)
    ⟨added, rest, h, regions, all, stays⟩ le enough)
    (fun _ event => event) (fun _ _ => trivial) ?_
  rintro _ t ⟨more, -, placed, -⟩
  exact hr t more placed

-----------------------------------------------------------------------------------------
-- What safe events say about a file
-----------------------------------------------------------------------------------------

theorem event_of_readByte {virt : Nat} (always : (readByte virt).Always s event)
    : event (.reads virt) :=
  always.first _ (List.mem_singleton_self _)

/-- A byte whose address is mapped is read. -/
theorem readByte_returns {virt phys : Nat} (found : s.translate virt = some phys)
    : (readByte virt s).result = some (s.byte phys) ∧ (readByte virt s).state = s := by
  have run : (readByte virt).Meets s (fun _ => True) (fun _ => False)
      (fun value s' => value = s.byte phys ∧ s' = s) := by
    refine meets_readByte trivial ?_ ?_
    · intro unmapped
      rw [found] at unmapped
      cases unmapped
    · intro phys' found'
      obtain rfl := Option.some.inj (found.symm.trans found')
      exact ⟨rfl, rfl⟩
  obtain ⟨value, ended, rfl, same⟩ := run.total
  exact ⟨ended, same⟩

/-- So is a field inside the file. -/
theorem Holds.read_returns {header base : Nat} (h : Holds s buffer size file) (field : Field)
    (nonempty : 0 < field.bytes) (inside : header + field.offset + field.bytes ≤ size)
    (base_eq : base = buffer + header)
    : (field.read base s).result = some (field.of file header)
      ∧ (field.read base s).state = s := by
  have run : (field.read base).Meets s (fun _ => True) (fun _ => False)
      (fun value s' => value = field.of file header ∧ s' = s) :=
    h.meets_read field nonempty inside base_eq (fun _ _ => trivial) ⟨rfl, rfl⟩
  obtain ⟨value, ended, rfl, same⟩ := run.total
  exact ⟨ended, same⟩

/-- The file's block lies behind the first addresses of memory, and reads stay inside it. -/
structure Confined (event : Event → Prop) (buffer size : Nat) : Prop where
  behind : 64 ≤ buffer
  reads : ∀ virt, event (.reads virt) → buffer ≤ virt ∧ virt < buffer + size

/-- If a number is read safely, its bytes lie in the block, by induction on them. -/
theorem Confined.number {n virt : Nat} (confined : Confined event buffer size)
    (h : Holds s buffer size file) (inWord : virt < 2 ^ 32)
    (always : (readNumber n virt).Always s event) {i : Nat} (hi : i < n)
    : buffer ≤ (virt + i) % 2 ^ 32 ∧ (virt + i) % 2 ^ 32 < buffer + size := by
  induction n generalizing virt i with
  | zero => omega
  | succ n ih =>
      have first := confined.reads _ (event_of_readByte always.first)
      cases i with
      | zero =>
          rw [Nat.add_zero, Nat.mod_eq_of_lt inWord]
          exact first
      | succ i =>
          have held := h.bytes (virt - buffer) (by omega)
          rw [Nat.add_sub_cancel' first.1] at held
          obtain ⟨phys, found, -⟩ := Option.map_eq_some_iff.mp held
          obtain ⟨ended, same⟩ := readByte_returns found
          have rest := always.next ended
          rw [same] at rest
          have next := ih (Nat.mod_lt _ (by decide)) rest.first (i := i) (by omega)
          rwa [next_mod] at next

/-- If a field is read safely, it lies in the file, and its value goes on. -/
theorem Confined.field {α : Type} {header base : Nat} {f : Nat → Load α}
    (confined : Confined event buffer size) (h : Holds s buffer size file) (field : Field)
    (nonempty : 0 < field.bytes) (few : field.bytes ≤ 64)
    (low : header + field.offset < 2 ^ 32) (base_eq : base = (buffer + header) % 2 ^ 32)
    (always : (field.read base >>= f).Always s event)
    : header + field.offset + field.bytes ≤ size
      ∧ (f (field.of file header)).Always s event
      ∧ ((field.read base >>= f) s).result = (f (field.of file header) s).result
      ∧ ((field.read base >>= f) s).state = (f (field.of file header) s).state := by
  have behind := confined.behind
  have inWord := h.inWord
  have inside (i : Nat) (hi : i < field.bytes) :=
    confined.number h (Nat.mod_lt _ (by decide)) always.first hi
  have first := inside 0 nonempty
  have last := inside (field.bytes - 1) (by omega)
  have fits : header + field.offset + field.bytes ≤ size := by omega
  have base_eq' : base = buffer + header := by omega
  obtain ⟨ended, same⟩ := h.read_returns field nonempty fits base_eq'
  have rest := always.next ended
  obtain ⟨result, state⟩ := Traced.result_bind (f := f) ended
  rw [same] at rest result state
  exact ⟨fits, rest, result, state⟩

/-- If `memcpy` is safe, the bytes it reads lie in the block, up to the first address that it cannot
write to.
-/
theorem Confined.memcpy {dest src n k : Nat} (confined : Confined event buffer size)
    (h : Holds s buffer size file) (clear : Clear s dest k) (hdest : dest < 2 ^ 32)
    (hsrc : src < 2 ^ 32)
    (mapped : ∀ i < k, s.translate ((dest + i) % 2 ^ 32) ≠ none)
    (always : (Elf.memcpy dest src n).Always s event) {i : Nat} (hi : i < n) (le : i ≤ k)
    (apart : ∀ s', WroteRange s s' dest k → Holds s' buffer size file)
    : buffer ≤ (src + i) % 2 ^ 32 ∧ (src + i) % 2 ^ 32 < buffer + size := by
  induction n generalizing s dest src k i with
  | zero => omega
  | succ n ih =>
      have first := confined.reads _ (event_of_readByte always.first)
      cases i with
      | zero =>
          rw [Nat.add_zero, Nat.mod_eq_of_lt hsrc]
          exact first
      | succ i =>
          obtain ⟨k, rfl⟩ : ∃ k', k = k' + 1 := ⟨k - 1, by omega⟩
          have held := h.bytes (src - buffer) (by omega)
          rw [Nat.add_sub_cancel' first.1] at held
          obtain ⟨source, foundSrc, -⟩ := Option.map_eq_some_iff.mp held
          obtain ⟨ended, same⟩ := readByte_returns foundSrc
          have afterRead := always.next ended
          rw [same] at afterRead
          have here := mapped 0 (Nat.succ_pos k)
          rw [Nat.add_zero, Nat.mod_eq_of_lt hdest] at here
          obtain ⟨target, foundDest⟩ := Option.ne_none_iff_exists'.mp here
          have written : (writeByte dest (s.byte source)).Meets s (fun _ => True) (fun _ => False)
              (fun _ s' => s' = s.setByte target (s.byte source)) := by
            refine meets_writeByte here (fun _ _ => trivial) (fun target' found' => ?_)
            rw [Option.some.inj (foundDest.symm.trans found')]
          obtain ⟨_, ended', same'⟩ := written.total
          have rest := afterRead.next ended'
          rw [same'] at rest
          have firstWrite : FirstWritten s (s.setByte target (s.byte source)) dest k :=
            clear.first hdest foundDest
          have next := ih (apart _ firstWrite.wrote) firstWrite.clear (Nat.mod_lt _ (by decide))
            (Nat.mod_lt _ (by decide)) ?_ rest (i := i) (by omega) (by omega)
            (fun s' wrote => apart s' (firstWrite.later s' wrote))
          · rwa [next_mod] at next
          · intro j hj
            rw [firstWrite.translate_mod, next_mod]
            exact mapped (j + 1) (by omega)

/-- An allocation that returns leaves the state it enters. -/
theorem event_of_pgAlloc {virt flags phys : Nat}
    (alloc : s.pgAlloc virt flags = some (phys, s'))
    (always : (pgAlloc virt flags).Always s event)
    : event (.enters s')
      ∧ (pgAlloc virt flags s).result = some () ∧ (pgAlloc virt flags s).state = s' := by
  have unfolded : pgAlloc virt flags s = enter s' s := by
    simp only [Elf.pgAlloc, Traced.state, bind, alloc]
    rfl
  refine ⟨?_, ?_, ?_⟩
  · rw [Traced.Always, unfolded] at always
    exact always _ (List.mem_cons_self ..)
  · rw [unfolded]
    rfl
  · rw [unfolded]
    rfl

end

end Hydrangea.Elf
