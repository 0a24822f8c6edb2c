import Hydrangea.Exec.ElfPages

/-! When `elf_load` loads an executable: what it does with one segment, with the program header
table, and with a file.
-/

namespace Hydrangea.Elf

open Paging

-----------------------------------------------------------------------------------------
-- Executables
-----------------------------------------------------------------------------------------

/-- What the loader uses of a program header. -/
structure Segment where
  offset : Nat
  vaddr : Nat
  fileSize : Nat
  memSize : Nat
  deriving DecidableEq

def segmentOf (file : Nat → Nat) (header : Nat) : Segment where
  offset := offset.of file header
  vaddr := vaddr.of file header
  fileSize := fileSize.of file header
  memSize := memSize.of file header

def Segment.region (seg : Segment) : Nat :=
  seg.vaddr / 2 ^ 22

def Segment.Covers (seg : Segment) (virt : Nat) : Prop :=
  seg.vaddr ≤ virt ∧ virt < seg.vaddr + seg.memSize

def Segment.Overlaps (seg : Segment) (page : Nat) : Prop :=
  ∃ virt, seg.Covers virt ∧ virt / 4096 = page

def Segment.content (seg : Segment) (file : Nat → Nat) (i : Nat) : Nat :=
  if i < seg.fileSize then file (seg.offset + i) else 0

/-- Where the program header `n` of a file lies. -/
def headerAt (file : Nat → Nat) (n : Nat) : Nat :=
  phOffset.of file 0 + phHeaderSize * n

/-- The `PT_LOAD` segments of the first `n` program headers. -/
def loads (file : Nat → Nat) (n : Nat) : List Segment :=
  ((List.range n).filter (fun k => phType.of file (headerAt file k) = phSegtypeLoad)).map
    (fun k => segmentOf file (headerAt file k))

/-- The `PT_LOAD` segments of a file. -/
def allLoads (file : Nat → Nat) : List Segment :=
  loads file (phTableEntryCount.of file 0)

-----------------------------------------------------------------------------------------
-- What one segment needs
-----------------------------------------------------------------------------------------

/-- An address can be read: the directory maps its page, or it is the first page of one of the
regions.
-/
def Readable (s : Paging) (regions : List Nat) (virt : Nat) : Prop :=
  s.Mapped s.curPageDir (virt / 4096)
    ∨ (virt / 4096 % 1024 = 0 ∧ virt / 4096 / 1024 ∈ regions)

/-- A segment can be loaded after segments in the given regions: it is page-aligned; if it has any
bytes, it begins a region and has at most a page of them; there are frames for it; and as many
bytes of the file's buffer as it has in memory can be read.
-/
structure SegmentFits (s : Paging) (buffer : Nat) (regions : List Nat) (seg : Segment) : Prop where
  aligned : seg.vaddr % 4096 = 0
  onePage : seg.memSize ≠ 0 → seg.vaddr % 2 ^ 22 = 0 ∧ seg.memSize ≤ 4096
  frames : (Owners.afterAllocs s.pmm (framesFor (regions ++ [seg.region]))).isSome
  readable : ∀ i < seg.memSize,
    Readable s (regions ++ [seg.region]) ((buffer + seg.offset + i) % 2 ^ 32)

/-- A segment that keeps what its header promises: it lies in the file, and its addresses are those
of regions for which the directory has no table.
-/
structure SegmentOk (s : Paging) (size : Nat) (seg : Segment) : Prop where
  sizes : seg.fileSize ≤ seg.memSize
  inside : seg.offset + seg.fileSize ≤ size
  inWord : seg.vaddr + seg.memSize ≤ 2 ^ 32
  user : ∀ virt, seg.Covers virt → ¬ s.Present s.curPageDir (virt / 2 ^ 22)

/-- A segment with bytes is loaded: its page is mapped to a frame that holds them. -/
structure SegmentLoaded (s : Paging) (dir : Nat) (file : Nat → Nat) (seg : Segment) (a : Placed)
    : Prop where
  aligned : seg.vaddr % 4096 = 0
  small : seg.memSize ≤ 4096
  page : a.page = seg.vaddr / 4096
  mapped : s.Mapped dir a.page
  slot : s.slot dir a.page = newPte a.frame segmentFlags 0
  bytes : ∀ i < seg.memSize, s.byte (a.frame + i) = seg.content file i

theorem number_lt {bytes : Nat → Nat} (low : ∀ i, bytes i < 256) (n : Nat)
    : number bytes n < 256 ^ n := by
  induction n generalizing bytes with
  | zero => exact Nat.one_pos
  | succ n ih =>
      have first := low 0
      have rest := ih (fun i => low (i + 1))
      rw [number, Nat.pow_succ]
      omega

section

variable {s s' s'' s₃ : Paging} {added : List Placed} {buffer size : Nat} {file : Nat → Nat}
  {seg : Segment} {a : Placed}

/-- Which addresses are mapped while pages are added. -/
theorem Added.translate_ne_none (h : Added s s' added) {virt : Nat} (inWord : virt < 2 ^ 32)
    : s'.translate virt ≠ none ↔ Readable s (added.map Placed.region) virt := by
  have hq : virt / 4096 < 2 ^ 20 := by omega
  have mapped := h.mapped (virt / 4096) hq
  rw [translate_eq, h.current, Readable, List.mem_map]
  split
  · next here => exact iff_of_true (Option.some_ne_none _) (mapped.mp here)
  · next here => exact iff_of_false (not_not_intro rfl) (fun readable => here (mapped.mpr readable))

/-- The frames behind addresses without a table at the start are among those given. -/
theorem Added.frameOf_user (h : Added s s' added) {virt phys : Nat} (inWord : virt < 2 ^ 32)
    (absent : ¬ s.Present s.curPageDir (virt / 2 ^ 22)) (found : s'.translate virt = some phys)
    : virt / 4096 % 1024 = 0 ∧ ∃ b ∈ added, frameOf phys = b.frame := by
  have hq : virt / 4096 < 2 ^ 20 := by omega
  have region : virt / 2 ^ 22 = virt / 4096 / 1024 := by omega
  have mapped := (translate_eq_some found).1
  have frame := frameOf_translate found
  rw [region] at absent
  rw [h.current] at mapped frame
  obtain ⟨b, member, -, same⟩ := h.slot_frame hq absent mapped
  exact ⟨((h.mapped_iff hq absent).mp mapped).1, b, member, frame.trans same⟩

/-- Addresses without a table at the start lie in frames that the loader may write. -/
theorem Added.clear (h : Added s s' added) {virt n : Nat} (inWord : virt + n ≤ 2 ^ 32)
    (user : ∀ i < n, ¬ s.Present s.curPageDir ((virt + i) / 2 ^ 22))
    : Clear s' virt n := by
  refine ⟨h.current.symm ▸ h.live.wellFormed.isFrame, fun phys reached => ?_⟩
  obtain ⟨i, hi, found⟩ := reached
  rw [Nat.mod_eq_of_lt (by omega)] at found
  obtain ⟨-, b, member, same⟩ := h.frameOf_user (by omega) (user i hi) found
  obtain ⟨-, -, -, unused⟩ := h.frame b member
  rw [same, h.current]
  exact unused

/-- Writing there keeps the pages that were added. -/
theorem Added.wroteRange (h : Added s s' added) {virt n : Nat} (inWord : virt + n ≤ 2 ^ 32)
    (user : ∀ i < n, ¬ s.Present s.curPageDir ((virt + i) / 2 ^ 22))
    (wrote : WroteRange s' s'' virt n)
    : Added s s'' added := by
  refine h.wrote wrote (fun phys reached => ?_)
  obtain ⟨i, hi, found⟩ := reached
  rw [Nat.mod_eq_of_lt (by omega)] at found
  exact (h.frameOf_user (by omega) (user i hi) found).2

/-- The addresses of a segment have no table at the start. -/
theorem SegmentOk.user_range (ok : SegmentOk s size seg) {i n : Nat} (inside : i + n ≤ seg.memSize)
    : seg.vaddr + i + n ≤ 2 ^ 32
      ∧ ∀ j < n, ¬ s.Present s.curPageDir ((seg.vaddr + i + j) / 2 ^ 22) := by
  have inWord := ok.inWord
  exact ⟨by omega, fun j hj => ok.user _ ⟨by omega, by omega⟩⟩

/-- A segment's addresses lie in frames that the loader may write. -/
theorem Added.clearSegment (h : Added s s' added) (ok : SegmentOk s size seg) {i n : Nat}
    (inside : i + n ≤ seg.memSize)
    : Clear s' (seg.vaddr + i) n :=
  h.clear (ok.user_range inside).1 (ok.user_range inside).2

/-- Writing bytes of a segment keeps the pages that were added. -/
theorem Added.wroteSegment (h : Added s s' added) (ok : SegmentOk s size seg) {i n : Nat}
    (inside : i + n ≤ seg.memSize) (wrote : WroteRange s' s'' (seg.vaddr + i) n)
    : Added s s'' added :=
  h.wroteRange (ok.user_range inside).1 (ok.user_range inside).2 wrote

/-- A loaded segment stays loaded when a page of another region is added. -/
theorem SegmentLoaded.later {p phys : Nat} (loaded : SegmentLoaded s' s.curPageDir file seg a)
    (h : Added s s' added) (member : a ∈ added)
    (new : PageAdded s' s'' s.curPageDir p phys segmentFlags)
    (h' : Added s s'' (added ++ [⟨p, phys⟩])) (other : a.region ≠ p / 1024)
    : SegmentLoaded s'' s.curPageDir file seg a := by
  obtain ⟨small, -⟩ := h.user a member
  obtain ⟨isFrame, -⟩ := h.frame a member
  obtain ⟨-, -, -, unused⟩ := h'.frame a (List.mem_append_left _ member)
  obtain ⟨mappedIff, sameSlot⟩ := new.outcome.kept a.page small (.inl other)
  refine ⟨loaded.aligned, loaded.small, loaded.page, mappedIff.mpr loaded.mapped, ?_, ?_⟩
  · rw [sameSlot loaded.mapped, loaded.slot]
  · intro i hi
    have inside : i < 4096 := Nat.lt_of_lt_of_le hi loaded.small
    rw [← loaded.bytes i hi, byte_eq isFrame inside, byte_eq isFrame inside,
      new.grows.others _ isFrame unused _ (by omega)]

/-- It stays loaded when other given frames are written. -/
theorem SegmentLoaded.wrote {written : Nat → Prop}
    (loaded : SegmentLoaded s' s.curPageDir file seg a) (h : Added s s' added)
    (member : a ∈ added) (wrote : Wrote s' s'' written)
    (inside : ∀ phys, written phys → ∃ b ∈ added, frameOf phys = b.frame)
    (outside : ∀ phys, written phys → frameOf phys ≠ a.frame)
    : SegmentLoaded s'' s.curPageDir file seg a := by
  obtain ⟨small, -⟩ := h.user a member
  obtain ⟨isFrame, -⟩ := h.frame a member
  have untouched : Untouched s' s'' s.curPageDir := by
    refine wrote.untouched h.live.wellFormed.isFrame (fun phys reached used => ?_)
    obtain ⟨b, memberB, same⟩ := inside phys reached
    obtain ⟨-, -, -, unused⟩ := h.frame b memberB
    exact unused (same ▸ used)
  refine ⟨loaded.aligned, loaded.small, loaded.page, ?_, ?_, ?_⟩
  · exact (untouched.mapped_iff small).mpr loaded.mapped
  · rw [untouched.slot_eq small loaded.mapped.1, loaded.slot]
  · intro i hi
    have low : i < 4096 := Nat.lt_of_lt_of_le hi loaded.small
    rw [wrote.bytes, loaded.bytes i hi]
    exact fun reached => outside _ reached (frameOf_add isFrame low)

/-- A page of a segment lies in the segment's region. -/
theorem region_placed (seg : Segment) (phys : Nat)
    : (Placed.mk (seg.vaddr / 4096) phys).region = seg.region := by
  change seg.vaddr / 4096 / 1024 = seg.vaddr / 2 ^ 22
  omega

/-- The regions after the page of a segment was added. -/
theorem regions_placed (added : List Placed) (seg : Segment) (phys : Nat)
    : (added ++ [(⟨seg.vaddr / 4096, phys⟩ : Placed)]).map Placed.region
      = added.map Placed.region ++ [seg.region] := by
  rw [List.map_append, List.map_singleton, region_placed]

/-- If a segment fits, the addresses of its copy are mapped once its page is added. -/
theorem SegmentFits.mapped {phys : Nat}
    (fits : SegmentFits s buffer (added.map Placed.region) seg)
    (h : Added s s' (added ++ [⟨seg.vaddr / 4096, phys⟩])) (ok : SegmentOk s size seg) {i : Nat}
    (hi : i < seg.memSize)
    : s'.translate ((buffer + seg.offset + i) % 2 ^ 32) ≠ none
      ∧ s'.translate (seg.vaddr + i) ≠ none := by
  have inWord := ok.inWord
  obtain ⟨start, small⟩ := fits.onePage (by omega)
  rw [h.translate_ne_none (Nat.mod_lt _ (by decide)), h.translate_ne_none (by omega),
    regions_placed]
  refine ⟨fits.readable i hi, .inr ⟨by omega, ?_⟩⟩
  refine List.mem_append_right _ (List.mem_singleton.mpr ?_)
  rw [Segment.region]
  omega

/-- If the addresses of its copy are mapped, a segment fits. -/
theorem SegmentFits.of_mapped {phys : Nat} (aligned : seg.vaddr % 4096 = 0)
    (h : Added s s' (added ++ [⟨seg.vaddr / 4096, phys⟩])) (ok : SegmentOk s size seg)
    (mapped : ∀ i < seg.memSize, s'.translate ((buffer + seg.offset + i) % 2 ^ 32) ≠ none
      ∧ s'.translate (seg.vaddr + i) ≠ none)
    : SegmentFits s buffer (added.map Placed.region) seg := by
  have inWord := ok.inWord
  have first (i : Nat) (hi : i < seg.memSize) : (seg.vaddr + i) / 4096 % 1024 = 0 := by
    obtain ⟨phys', found⟩ := Option.ne_none_iff_exists'.mp (mapped i hi).2
    exact (h.frameOf_user (by omega) (ok.user _ ⟨by omega, by omega⟩) found).1
  refine ⟨aligned, fun nonempty => ?_, ?_, fun i hi => ?_⟩
  · have here := first 0 (by omega)
    refine ⟨by omega, ?_⟩
    by_contra long
    have next := first 4096 (by omega)
    omega
  · have frames := h.frames
    rw [regions_placed] at frames
    rw [frames]
    rfl
  · rw [← regions_placed added seg phys]
    exact (h.translate_ne_none (Nat.mod_lt _ (by decide))).mp (mapped i hi).1

/-- The page of a segment that fits and has bytes is mapped to the frame it was given. -/
theorem SegmentFits.slot {phys : Nat}
    (fits : SegmentFits s buffer (added.map Placed.region) seg) (nonempty : seg.memSize ≠ 0)
    (ok : SegmentOk s size seg)
    (new : PageAdded s' s'' s.curPageDir (seg.vaddr / 4096) phys segmentFlags)
    : s''.Mapped s.curPageDir (seg.vaddr / 4096)
      ∧ s''.slot s.curPageDir (seg.vaddr / 4096) = newPte phys segmentFlags 0 := by
  obtain ⟨start, small⟩ := fits.onePage nonempty
  have inWord := ok.inWord
  have first : seg.vaddr / 4096 % 1024 = 0 := by omega
  have written := new.outcome.written (seg.vaddr / 4096) (by omega) rfl (by omega)
  rw [first] at written
  exact written

/-- The addresses of a page that is mapped to a frame. -/
theorem translate_placed {phys i : Nat} (aligned : seg.vaddr % 4096 = 0) (hi : i < 4096)
    (isFrame : IsFrame phys) (mapped : s'.Mapped s'.curPageDir (seg.vaddr / 4096))
    (slot : s'.slot s'.curPageDir (seg.vaddr / 4096) = newPte phys segmentFlags 0)
    : s'.translate (seg.vaddr + i) = some (phys + i) := by
  have page : (seg.vaddr + i) / 4096 = seg.vaddr / 4096 := by omega
  have low : (seg.vaddr + i) % 4096 = i := by omega
  rw [← page] at mapped slot
  rw [translate_of_mapped mapped, slot, low, newPte_and_pgFrame isFrame.1 segmentFlags_low,
    Nat.zero_mul, Nat.add_zero, Nat.mod_eq_of_lt isFrame.2]

-----------------------------------------------------------------------------------------
-- Loading one segment
-----------------------------------------------------------------------------------------

/-- The state in which the copy of a segment starts: its page has just been added. -/
structure Begun (s s' s'' : Paging) (added : List Placed) (size : Nat) (seg : Segment)
    (phys : Nat) : Prop where
  before : Added s s' added
  aligned : seg.vaddr % 4096 = 0
  ok : SegmentOk s size seg
  added : Added s s'' (added ++ [⟨seg.vaddr / 4096, phys⟩])
  new : PageAdded s' s'' s.curPageDir (seg.vaddr / 4096) phys segmentFlags

/-- The addresses of a segment that fits, once its page is added. -/
theorem Begun.translate {phys i : Nat} (begun : Begun s s' s'' added size seg phys)
    (fits : SegmentFits s buffer (added.map Placed.region) seg) (hi : i < seg.memSize)
    : s''.translate (seg.vaddr + i) = some (phys + i) := by
  have nonempty : seg.memSize ≠ 0 := by omega
  obtain ⟨-, small⟩ := fits.onePage nonempty
  obtain ⟨mapped, slot⟩ := fits.slot nonempty begun.ok begun.new
  rw [← begun.added.current] at mapped slot
  exact translate_placed begun.aligned (by omega) begun.new.isFrame mapped slot

/-- `memcpy` of a segment copies its bytes, or stops because the segment does not fit. The loop
reads the buffer and stores to the new page byte by byte; outside either of them it stops, and a
segment that fits leaves neither.
-/
theorem Begun.memcpy {phys : Nat} {returned : Unit → Paging → Prop}
    (begun : Begun s s' s'' added size seg phys) (ready : Ready s buffer size file)
    (hr : ∀ s₃, SegmentFits s buffer (added.map Placed.region) seg
      → WroteRange s'' s₃ seg.vaddr seg.memSize
      → (∀ i < seg.fileSize, s₃.byte (phys + i) = file (seg.offset + i))
      → returned () s₃)
    : (memcpy seg.vaddr ((buffer + seg.offset) % 2 ^ 32) seg.memSize).Meets s'' (fun _ => True)
        (fun _ => ¬ SegmentFits s buffer (added.map Placed.region) seg) returned := by
  have ok := begun.ok
  have inWord := ok.inWord
  have source (i : Nat) : ((buffer + seg.offset) % 2 ^ 32 + i) % 2 ^ 32
      = (buffer + seg.offset + i) % 2 ^ 32 := by
    omega
  have dest (i : Nat) (hi : i < seg.memSize) : (seg.vaddr + i) % 2 ^ 32 = seg.vaddr + i := by
    omega
  rcases Nat.eq_zero_or_pos seg.memSize with empty | nonempty
  · have sizes := ok.sizes
    rw [empty]
    refine Traced.meets_pure (hr s'' ?_ (empty ▸ Wrote.refl s'' _) ?_)
    · refine SegmentFits.of_mapped begun.aligned begun.added ok (fun i hi => ?_)
      omega
    · intro i hi
      omega
  refine meets_memcpy (.inl rfl) ?_ (by omega) (Nat.mod_lt _ (by decide))
    (fun _ _ _ => trivial) (fun _ _ => trivial) ?_ ?_
  · exact begun.added.clearSegment ok (i := 0) (by omega)
  · intro i hi unmapped _ _ fits
    obtain ⟨mappedSrc, mappedDest⟩ := fits.mapped begun.added ok hi
    rw [source, dest i hi] at unmapped
    rcases unmapped with none | none
    · exact mappedSrc none
    · exact mappedDest none
  · intro _ s₃ wrote copied
    have fits : SegmentFits s buffer (added.map Placed.region) seg := by
      refine SegmentFits.of_mapped begun.aligned begun.added ok (fun i hi => ?_)
      obtain ⟨from', target, foundSrc, foundDest, -⟩ := copied i hi
      rw [source] at foundSrc
      rw [dest i hi] at foundDest
      rw [foundSrc, foundDest]
      exact ⟨Option.some_ne_none _, Option.some_ne_none _⟩
    refine hr s₃ fits wrote (fun i hi => ?_)
    have sizes := ok.sizes
    have inside := ok.inside
    have bufferEnd := ready.inWord
    obtain ⟨from', target, foundSrc, foundDest, value⟩ := copied i (by omega)
    have address : (buffer + seg.offset + i) % 2 ^ 32 = buffer + (seg.offset + i) := by omega
    rw [source, address] at foundSrc
    rw [dest i (by omega), begun.translate fits (by omega)] at foundDest
    obtain rfl := Option.some.inj foundDest
    obtain ⟨phys', found, -, marked, -⟩ := ready.bytes (seg.offset + i) (by omega)
    have held := (begun.added.holds ready).bytes (seg.offset + i) (by omega)
    rw [virtByte, foundSrc, Option.map_some] at held
    rw [value ?_ ?_, Option.some.inj held]
    -- The source lies in a frame that was marked before, so it is none of the frames given.
    · intro reached
      obtain ⟨j, hj, foundJ⟩ := reached
      rw [dest j hj, begun.translate fits hj] at foundJ
      have mapped := (translate_eq_some found).1
      have bufferPage : (buffer + (seg.offset + i)) / 4096 < 2 ^ 20 := by omega
      have same : s''.translate (buffer + (seg.offset + i))
          = s.translate (buffer + (seg.offset + i)) :=
        translate_congr begun.added.current
          (iff_of_true ((begun.added.mapped _ bufferPage).mpr (.inl mapped)) mapped)
          (fun _ => begun.added.oldSlot _ bufferPage mapped)
      rw [same, found] at foundSrc
      obtain rfl := Option.some.inj foundSrc
      obtain ⟨-, small⟩ := fits.onePage (by omega)
      have inFrame := begun.new.isFrame.1
      have number : phys' / 4096 = phys / 4096 := by
        rw [← Option.some.inj foundJ]
        omega
      rw [number] at marked
      exact begun.new.clear (begun.before.keeps _ marked)
    · intro j hj foundJ
      rw [dest j hj, begun.translate fits hj] at foundJ
      have := Option.some.inj foundJ
      omega

/-- `memset` zeroes the rest of a segment that fits. -/
theorem Begun.memset {phys : Nat} {returned : Unit → Paging → Prop} {stopped : Paging → Prop}
    (begun : Begun s s' s'' added size seg phys)
    (fits : SegmentFits s buffer (added.map Placed.region) seg) (rest : seg.fileSize < seg.memSize)
    (wrote : WroteRange s'' s₃ seg.vaddr seg.memSize)
    (copied : ∀ i < seg.fileSize, s₃.byte (phys + i) = file (seg.offset + i))
    (hr : ∀ s₄, WroteRange s'' s₄ seg.vaddr seg.memSize
      → (∀ i < seg.memSize, s₄.byte (phys + i) = seg.content file i) → returned () s₄)
    : (memset ((seg.vaddr + seg.fileSize) % 2 ^ 32) 0 (seg.memSize - seg.fileSize)).Meets s₃
        (fun _ => True) stopped returned := by
  have ok := begun.ok
  have inWord := ok.inWord
  obtain ⟨-, small⟩ := fits.onePage (by omega)
  have clear₀ : Clear s'' seg.vaddr seg.memSize := begun.added.clearSegment ok (i := 0) (by omega)
  have same {virt : Nat} (hv : virt < 2 ^ 32) : s₃.translate virt = s''.translate virt :=
    clear₀.translate_eq wrote hv
  have added₃ := begun.added.wroteSegment ok (i := 0) (by omega) wrote
  have start : (seg.vaddr + seg.fileSize) % 2 ^ 32 = seg.vaddr + seg.fileSize := by omega
  have dest (i : Nat) (hi : i < seg.memSize - seg.fileSize)
      : (seg.vaddr + seg.fileSize + i) % 2 ^ 32 = seg.vaddr + (seg.fileSize + i) := by
    omega
  have target (i : Nat) (hi : i < seg.memSize - seg.fileSize)
      : s₃.translate ((seg.vaddr + seg.fileSize + i) % 2 ^ 32)
        = some (phys + (seg.fileSize + i)) := by
    rw [dest i hi, same (by omega), begun.translate fits (by omega)]
  rw [Elf.memset, if_pos (by omega), start]
  refine meets_fillBytes ?_ (by omega) (fun _ _ => trivial) ?_ ?_
  · exact added₃.clearSegment ok (i := seg.fileSize) (by omega)
  · intro i hi unmapped
    rw [target i hi] at unmapped
    cases unmapped
  · intro s₄ wrote₄ filled
    refine hr s₄ (wrote.trans (wrote₄.mono ?_)) (fun i hi => ?_)
    · intro a reached
      obtain ⟨i, hi, found⟩ := reached
      refine ⟨seg.fileSize + i, by omega, ?_⟩
      rw [dest i hi, same (by omega)] at found
      rw [Nat.mod_eq_of_lt (by omega)]
      exact found
    · rw [Segment.content]
      split
      · next inFile =>
          rw [wrote₄.bytes, copied i inFile]
          intro reached
          obtain ⟨j, hj, found⟩ := reached
          rw [target j hj] at found
          have := Option.some.inj found
          omega
      · next behind =>
          obtain ⟨phys', found, value⟩ := filled (i - seg.fileSize) (by omega)
          rw [target _ (by omega)] at found
          have index : seg.fileSize + (i - seg.fileSize) = i := by omega
          rw [index] at found
          obtain rfl := Option.some.inj found
          exact value

/-- What loading a segment has done: its page was added, it is loaded if it has bytes, and loaded
segments of other regions are still loaded.
-/
structure Done (s s' s'' : Paging) (added : List Placed) (file : Nat → Nat) (seg : Segment)
    (phys : Nat) : Prop where
  pages : Added s s'' (added ++ [⟨seg.vaddr / 4096, phys⟩])
  loaded : seg.memSize ≠ 0
    → SegmentLoaded s'' s.curPageDir file seg ⟨seg.vaddr / 4096, phys⟩
  others : ∀ seg' a, a ∈ added → a.region ≠ seg.region
    → SegmentLoaded s' s.curPageDir file seg' a → SegmentLoaded s'' s.curPageDir file seg' a

/-- The copy of a segment is complete. -/
theorem Begun.done {phys : Nat} (begun : Begun s s' s'' added size seg phys)
    (fits : SegmentFits s buffer (added.map Placed.region) seg)
    (wrote : WroteRange s'' s₃ seg.vaddr seg.memSize)
    (bytes : ∀ i < seg.memSize, s₃.byte (phys + i) = seg.content file i)
    : Done s s' s₃ added file seg phys := by
  have ok := begun.ok
  have inWord := ok.inWord
  have added₃ : Added s s₃ (added ++ [⟨seg.vaddr / 4096, phys⟩]) :=
    begun.added.wroteSegment ok (i := 0) (by omega) wrote
  have here (a : Nat) (reached : s''.Reaches seg.vaddr seg.memSize a) : frameOf a = phys := by
    obtain ⟨i, hi, found⟩ := reached
    obtain ⟨-, small⟩ := fits.onePage (by omega)
    rw [Nat.mod_eq_of_lt (by omega), begun.translate fits hi] at found
    rw [← Option.some.inj found]
    exact frameOf_add begun.new.isFrame (by omega)
  have last : (⟨seg.vaddr / 4096, phys⟩ : Placed) ∈ added ++ [⟨seg.vaddr / 4096, phys⟩] :=
    List.mem_append_right _ (List.mem_singleton_self _)
  refine ⟨added₃, fun nonempty => ?_, fun seg' a member other loaded => ?_⟩
  · obtain ⟨mapped, slot⟩ := fits.slot nonempty ok begun.new
    have untouched : Untouched s'' s₃ s.curPageDir := by
      have clear : Clear s'' seg.vaddr seg.memSize := begun.added.clearSegment ok (i := 0) (by omega)
      rw [← begun.added.current]
      exact wrote.untouched clear.1 clear.2
    have page : seg.vaddr / 4096 < 2 ^ 20 := by omega
    refine ⟨begun.aligned, (fits.onePage nonempty).2, rfl, ?_, ?_, bytes⟩
    · exact (untouched.mapped_iff page).mpr mapped
    · exact (untouched.slot_eq page mapped.1).trans slot
  · have region : a.region ≠ seg.vaddr / 4096 / 1024 := by
      rwa [← region_placed seg phys] at other
    have kept := loaded.later begun.before member begun.new begun.added region
    have apart : a.frame ≠ phys := by
      obtain ⟨-, -, marked, -⟩ := begun.before.frame a member
      intro same
      rw [same] at marked
      exact begun.new.clear marked
    refine kept.wrote begun.added (List.mem_append_left _ member) wrote ?_ ?_
    · intro b reached
      exact ⟨_, last, here b reached⟩
    · intro b reached same
      exact apart (same.symm.trans (here b reached))

/-- Loading a segment does that, or stops because the segment does not fit. The fields of the
header are read anew at each use and are the same each time, because nothing is stored into the
buffer.
-/
theorem meets_loadSegment {header : Nat} {returned : Unit → Paging → Prop}
    (ready : Ready s buffer size file) (h : Added s s' added) (low : ∀ i, file i < 256)
    (inside : header + phHeaderSize ≤ size) (ok : SegmentOk s size (segmentOf file header))
    (user : ¬ s.Present s.curPageDir (segmentOf file header).region)
    (hr : ∀ s'' phys,
      SegmentFits s buffer (added.map Placed.region) (segmentOf file header)
      → Done s s' s'' added file (segmentOf file header) phys
      → returned () s'')
    : (loadSegment buffer (buffer + header)).Meets s' (fun _ => True)
        (fun _ => ¬ SegmentFits s buffer (added.map Placed.region) (segmentOf file header))
        returned := by
  generalize same : segmentOf file header = seg at ok user hr ⊢
  have offsetEq : offset.of file header = seg.offset := congrArg Segment.offset same
  have vaddrEq : vaddr.of file header = seg.vaddr := congrArg Segment.vaddr same
  have fileSizeEq : fileSize.of file header = seg.fileSize := congrArg Segment.fileSize same
  have memSizeEq : memSize.of file header = seg.memSize := congrArg Segment.memSize same
  have inWord : seg.vaddr < 2 ^ 32 := by
    rw [← vaddrEq]
    exact number_lt (fun i => low _) 4
  -- The header stays in the buffer, so every time a field is read it has the same value.
  have read (s₁ : Paging) (more : List Placed) (h₁ : Added s s₁ more) (field : Field)
      {stopped : Paging → Prop} {returned₁ : Nat → Paging → Prop} (nonempty : 0 < field.bytes)
      (fieldInside : field.offset + field.bytes ≤ phHeaderSize)
      (hr₁ : returned₁ (field.of file header) s₁)
      : (field.read (buffer + header)).Meets s₁ (fun _ => True) stopped returned₁ :=
    (h₁.holds ready).meets_read field nonempty (by omega) rfl (fun _ _ => trivial) hr₁
  refine .bind (read s' added h vaddr (by decide) (by decide) ?_)
  rw [vaddrEq]
  refine .bind (meets_pgAlloc ?_ (fun _ _ _ => trivial) ?_)
  · intro stopped fits
    obtain ⟨phys, s'', returned⟩ := h.pgAlloc_returns inWord user fits.aligned fits.frames
    rw [returned] at stopped
    cases stopped
  intro phys s₀ alloc
  obtain ⟨aligned, added', new⟩ := h.pgAlloc inWord user alloc
  have begun : Begun s s' s₀ added size seg phys := ⟨h, aligned, ok, added', new⟩
  refine .bind (read s₀ _ added' vaddr (by decide) (by decide) ?_)
  refine .bind (read s₀ _ added' vaddr (by decide) (by decide) ?_)
  refine .bind (read s₀ _ added' offset (by decide) (by decide) ?_)
  refine .bind (read s₀ _ added' memSize (by decide) (by decide) ?_)
  rw [vaddrEq, offsetEq, memSizeEq]
  refine .bind (begun.memcpy ready (fun s₃ fits wrote copied => ?_))
  have sizes := ok.sizes
  have added₃ := added'.wroteSegment ok (i := 0) (by omega) wrote
  refine .bind (read s₃ _ added₃ fileSize (by decide) (by decide) ?_)
  refine .bind (read s₃ _ added₃ memSize (by decide) (by decide) ?_)
  rw [fileSizeEq, memSizeEq]
  split
  · next rest =>
      refine .bind (read s₃ _ added₃ vaddr (by decide) (by decide) ?_)
      refine .bind (read s₃ _ added₃ fileSize (by decide) (by decide) ?_)
      refine .bind (read s₃ _ added₃ memSize (by decide) (by decide) ?_)
      refine .bind (read s₃ _ added₃ fileSize (by decide) (by decide) ?_)
      rw [vaddrEq, fileSizeEq, memSizeEq]
      refine begun.memset fits rest wrote copied (fun s₄ wrote₄ bytes => ?_)
      exact hr s₄ phys fits (begun.done fits wrote₄ bytes)
  · next noRest =>
      refine Traced.meets_pure (hr s₃ phys fits (begun.done fits wrote (fun i hi => ?_)))
      have inFile : i < seg.fileSize := by omega
      rw [copied i inFile, Segment.content, if_pos inFile]

end

end Hydrangea.Elf
