import Hydrangea.Lib.Transition
import Hydrangea.Mem.HeapLists
import Hydrangea.Mem.PagingMaps

/-! Who owns which frame: the frames that `pmm_init` marks from the memory map, and the
frames handed out afterwards, while the placement pointer keeps moving.
-/

namespace Hydrangea

def heapStart : Nat := 0x800000

def heapInitialSize : Nat := 0x100000

def heapMaxSize : Nat := 0x100000

namespace Paging

/-- The loop of `pg_init` that fills `ker_page_dir`. -/
def fillKerPageDir (s : Paging) : Paging :=
  (List.range 1024).foldl (fun s i => s.setWord s.kerPageDir i pgRw) s

/-- The part of `pg_init` that maps the framebuffer. `vesa` tells whether `term_get_type()`
is `VESA_TERM`.
-/
def mapFramebuffer (s : Paging) (mbi : MultibootInfo) (vesa : Bool) : Option Paging :=
  if vesa then
    some s
  else
    let page := mbi.framebufferAddr &&& 0xFFF00000
    s.pgMapPages s.kerPageDir page page (2 * 1024) pgRw

def pgInit (s : Paging) (node : Nat → FreeLl) (mbi : MultibootInfo) (vesa : Bool)
    : Option (Paging × Kmem) := do
  let s := s.fillKerPageDir
  let s ← s.pgMapPages s.kerPageDir 0x00000000 0x00000000 1024 pgRw
  let s ← s.mapFramebuffer mbi vesa
  let s ← s.pgMapPages s.kerPageDir heapStart heapStart 1024 pgRw
  let kmem := Kmem.heapCreate s.pmm node heapStart heapInitialSize heapMaxSize 0
  return ({ s with pmm := kmem.pmm, curPageDir := s.kerPageDir }, kmem)

end Paging

-----------------------------------------------------------------------------------------
-- What the memory map marks
-----------------------------------------------------------------------------------------

/-- The last loop of `pmm_init`, started at the first address, comes to the second one. -/
inductive Walks (mbi : MultibootInfo) : Nat → Nat → Prop where
  | here {a : Nat} (inside : a < (mbi.mmapAddr + mbi.mmapLength) % 2 ^ 32) : Walks mbi a a
  | next {a b : Nat} (inside : a < (mbi.mmapAddr + mbi.mmapLength) % 2 ^ 32)
      (rest : Walks mbi ((a + (mbi.mmap a).size + 4) % 2 ^ 32) b)
    : Walks mbi a b

/-- The frames that `pmm_init` marks for a memory map: the whole frames of the entries below
4 GiB that are not available, as many frames as the kernel has from the start of the last
entry on, and the first frame of each entry whose type is even.
-/
inductive MapMarks (mbi : MultibootInfo) (endOfKernel : Nat) : Nat → Prop where
  | entry {e : MmapEntry} {k : Nat} (visited : e ∈ Pmm.visitedEntries mbi)
      (low : e.addrHi = 0) (reserved : e.type ≠ multibootMemoryAvailable)
      (inside : k < e.lenLo / 4096)
    : MapMarks mbi endOfKernel ((e.addrLo + k * 4096) % 2 ^ 32 / 4096)
  | kernel {k : Nat} (inside : k < Pmm.kernelFrames endOfKernel)
    : MapMarks mbi endOfKernel (((Pmm.lastEntry mbi).addrLo + k * 4096) % 2 ^ 32 / 4096)
  | first {a : Nat} (walks : Walks mbi mbi.mmapAddr a)
      (even : (mbi.mmap a).type &&& multibootMemoryAvailable = 0)
    : MapMarks mbi endOfKernel ((mbi.mmap a).addrLo / 4096)

/-- The memory that `pmm_init` counts. -/
def availableMemory (mbi : MultibootInfo) : Nat :=
  ((Pmm.visitedEntries mbi).map (fun e =>
    if e.addrHi = 0 ∧ e.type = multibootMemoryAvailable then e.lenLo else 0)).sum

/-- The frames that the first loop of `pmm_init` marks for an entry. -/
def MmapEntry.Marks (e : MmapEntry) (frame : Nat) : Prop :=
  e.addrHi = 0 ∧ e.type ≠ multibootMemoryAvailable
    ∧ ∃ k < e.lenLo / 4096, frame = (e.addrLo + k * 4096) % 2 ^ 32 / 4096

/-- The frames that are marked when `pmm_init` calls `frame_alloc`: those that `memset` leaves
marked, those of the entries that are not available, and those of the kernel.
-/
def EarlyMarks (mbi : MultibootInfo) (endOfKernel : Nat) (boot : Pmm) (frame : Nat) : Prop :=
  boot.clearBmp.Marked frame
    ∨ (∃ e ∈ Pmm.visitedEntries mbi, e.Marks frame)
    ∨ ∃ k < Pmm.kernelFrames endOfKernel,
        frame = ((Pmm.lastEntry mbi).addrLo + k * 4096) % 2 ^ 32 / 4096

/-- The frames that `pmm_init` leaves marked: those, the lowest one of the others, and the first
frame of each entry whose type is even.
-/
def InitMarks (mbi : MultibootInfo) (endOfKernel : Nat) (boot : Pmm) (frame : Nat) : Prop :=
  EarlyMarks mbi endOfKernel boot frame
    ∨ (frame < 2 ^ 20 ∧ ∀ before < frame, EarlyMarks mbi endOfKernel boot before)
    ∨ ∃ a, Walks mbi mbi.mmapAddr a ∧ (mbi.mmap a).type &&& multibootMemoryAvailable = 0
        ∧ frame = (mbi.mmap a).addrLo / 4096

namespace Pmm

/-- The last round of a loop of `frame_bmp_set`. -/
theorem markFrames_succ (s : Pmm) (base frames : Nat)
    : s.markFrames base (frames + 1)
      = (s.markFrames base frames).frameBmpSet ((base + frames * 4096) % 2 ^ 32) := by
  rw [markFrames, List.range_succ, List.foldl_append]
  rfl

/-- A loop of `frame_bmp_set` marks its frames and no others, by induction on the frames. -/
theorem markFrames_marks (s : Pmm) (base frames : Nat)
    : (∀ f, (s.markFrames base frames).Marked f
        ↔ s.Marked f ∨ ∃ k < frames, f = (base + k * 4096) % 2 ^ 32 / 4096)
      ∧ (s.markFrames base frames).memorySize = s.memorySize := by
  induction frames with
  | zero => exact ⟨fun f => by simp [markFrames], rfl⟩
  | succ frames ih =>
      obtain ⟨marks, size⟩ := ih
      rw [markFrames_succ]
      refine ⟨fun f => ?_, size⟩
      rw [marked_frameBmpSet, marks]
      constructor
      · rintro (last | old | ⟨k, before, same⟩)
        · exact .inr ⟨frames, Nat.lt_succ_self _, last⟩
        · exact .inl old
        · exact .inr ⟨k, Nat.lt_succ_of_lt before, same⟩
      · rintro (old | ⟨k, before, same⟩)
        · exact .inr (.inl old)
        · rcases Nat.lt_succ_iff_lt_or_eq.mp before with less | rfl
          · exact .inr (.inr ⟨k, less, same⟩)
          · exact .inl same

/-- An entry of the memory map is counted or marked. -/
theorem visitEntry_marks (s : Pmm) (e : MmapEntry)
    : (∀ f, (s.visitEntry e).Marked f ↔ s.Marked f ∨ e.Marks f)
      ∧ (s.visitEntry e).memorySize = s.memorySize
        + (if e.addrHi = 0 ∧ e.type = multibootMemoryAvailable then e.lenLo else 0) := by
  by_cases low : e.addrHi = 0
  · by_cases available : e.type = multibootMemoryAvailable
    · have counted : s.visitEntry e = { s with memorySize := s.memorySize + e.lenLo } := by
        rw [visitEntry, if_neg (not_not_intro low), if_pos available]
      rw [counted, if_pos ⟨low, available⟩]
      refine ⟨fun f => ⟨.inl, ?_⟩, rfl⟩
      rintro (old | ⟨-, reserved, -⟩)
      · exact old
      · exact absurd available reserved
    · have marked : s.visitEntry e = s.markFrames e.addrLo (e.lenLo / 4096) := by
        rw [visitEntry, if_neg (not_not_intro low), if_neg available]
      obtain ⟨marks, size⟩ := markFrames_marks s e.addrLo (e.lenLo / 4096)
      rw [marked, if_neg (fun both => available both.2)]
      refine ⟨fun f => (marks f).trans (or_congr_right ?_), size⟩
      exact ⟨fun inside => ⟨low, available, inside⟩, fun marks => marks.2.2⟩
  · have skipped : s.visitEntry e = s := by rw [visitEntry, if_pos low]
    rw [skipped, if_neg (fun both => low both.1)]
    refine ⟨fun f => ⟨.inl, ?_⟩, rfl⟩
    rintro (old | ⟨zero, -⟩)
    · exact old
    · exact absurd zero low

/-- The first loop of `pmm_init`, by induction on the entries. -/
theorem visitEntries_marks (s : Pmm) (es : List MmapEntry)
    : (∀ f, (es.foldl visitEntry s).Marked f ↔ s.Marked f ∨ ∃ e ∈ es, e.Marks f)
      ∧ (es.foldl visitEntry s).memorySize = s.memorySize
        + (es.map (fun e =>
          if e.addrHi = 0 ∧ e.type = multibootMemoryAvailable then e.lenLo else 0)).sum := by
  induction es generalizing s with
  | nil => exact ⟨by simp, by simp⟩
  | cons e es ih =>
      obtain ⟨marks, size⟩ := visitEntry_marks s e
      obtain ⟨marks', size'⟩ := ih (s.visitEntry e)
      rw [List.foldl_cons]
      refine ⟨fun f => ?_, ?_⟩
      · rw [marks', marks, or_assoc]
        simp only [List.mem_cons, exists_eq_or_imp]
      · rw [size', size, List.map_cons, List.sum_cons, Nat.add_assoc]

/-- The last loop of `pmm_init`, by induction on the fuel. -/
theorem markUnavailable_marks {mbi : MultibootInfo} {fuel address : Nat} {s s' : Pmm}
    (ended : markUnavailable mbi fuel address s = some s')
    : (∀ f, s'.Marked f ↔ s.Marked f ∨ ∃ a, Walks mbi address a
        ∧ (mbi.mmap a).type &&& multibootMemoryAvailable = 0 ∧ f = (mbi.mmap a).addrLo / 4096)
      ∧ s'.memorySize = s.memorySize := by
  induction fuel generalizing address s with
  | zero => cases ended
  | succ fuel ih =>
      rw [markUnavailable] at ended
      by_cases inside : address < (mbi.mmapAddr + mbi.mmapLength) % 2 ^ 32
      · rw [if_pos inside] at ended
        obtain ⟨marks, size⟩ := ih ended
        have first : ∀ f, (if (mbi.mmap address).type &&& multibootMemoryAvailable = 0 then
            s.frameBmpSet (mbi.mmap address).addrLo else s).Marked f
              ↔ s.Marked f ∨ (mbi.mmap address).type &&& multibootMemoryAvailable = 0
                ∧ f = (mbi.mmap address).addrLo / 4096 := by
          intro f
          split
          · next even => rw [marked_frameBmpSet, or_comm, and_iff_right even]
          · next odd => rw [or_iff_left (fun both => odd both.1)]
        refine ⟨fun f => ?_, ?_⟩
        · rw [marks, first, or_assoc]
          refine or_congr_right ⟨?_, ?_⟩
          · rintro (⟨even, same⟩ | ⟨a, walks, both⟩)
            · exact ⟨address, .here inside, even, same⟩
            · exact ⟨a, .next inside walks, both⟩
          · rintro ⟨a, walks, both⟩
            cases walks with
            | here _ => exact .inl both
            | next _ rest => exact .inr ⟨a, rest, both⟩
        · rw [size]
          split <;> rfl
      · rw [if_neg inside] at ended
        obtain rfl := Option.some.inj ended
        refine ⟨fun f => ⟨.inl, ?_⟩, rfl⟩
        rintro (old | ⟨a, walks, -⟩)
        · exact old
        · cases walks with
          | here inside' => exact absurd inside' inside
          | next inside' _ => exact absurd inside' inside

/-- The frame that `frame_alloc` marks is the lowest one left, if that has an address of 32 bits. -/
theorem marked_frameAlloc {s s' : Pmm} {addr : Nat} (alloc : s.frameAlloc = some (addr, s')) (f : Nat)
    : s'.Marked f ↔ s.Marked f ∨ f < 2 ^ 20 ∧ ∀ g < f, s.Marked g := by
  obtain ⟨first, -, clear, below, rfl, rfl⟩ := frameAlloc_first alloc
  rw [marked_frameBmpSet, Nat.mul_div_cancel _ (by decide), or_comm]
  constructor
  · rintro (old | rfl)
    · exact .inl old
    · rcases Nat.lt_or_ge first (2 ^ 20) with small | large
      · rw [Nat.mod_eq_of_lt small]
        exact .inr ⟨small, below⟩
      · exact .inl (below _ (Nat.lt_of_lt_of_le (Nat.mod_lt _ (by decide)) large))
  · rintro (old | ⟨small, marked⟩)
    · exact .inl old
    · rcases Nat.lt_trichotomy f first with less | rfl | more
      · exact .inl (below f less)
      · exact .inr (Nat.mod_eq_of_lt small).symm
      · exact absurd (marked first more) clear

/-- The bitmap when `pmm_init` calls `frame_alloc`. -/
def beforeAlloc (mbi : MultibootInfo) (endOfKernel : Nat) (s : Pmm) : Pmm :=
  let s := { s with memorySize := 0, placementAddr := (pmalloc s.placementAddr framesBmpSize).2 }
  ((visitedEntries mbi).foldl visitEntry s.clearBmp).markFrames (lastEntry mbi).addrLo
    (kernelFrames endOfKernel)

/-- Then `EarlyMarks` are marked, and the available memory is counted. -/
theorem beforeAlloc_marked (mbi : MultibootInfo) (endOfKernel : Nat) (s : Pmm)
    : (∀ frame, (s.beforeAlloc mbi endOfKernel).Marked frame ↔ EarlyMarks mbi endOfKernel s frame)
      ∧ (s.beforeAlloc mbi endOfKernel).memorySize = availableMemory mbi := by
  rw [beforeAlloc]
  generalize start : clearBmp _ = s₁
  have none : s₁.memorySize = 0 := by
    rw [← start]
    rfl
  have cleared : ∀ frame, s₁.Marked frame ↔ s.clearBmp.Marked frame := by
    intro frame
    rw [← start]
    simp only [Marked, clearBmp]
  obtain ⟨entries, sizeEntries⟩ := visitEntries_marks s₁ (visitedEntries mbi)
  obtain ⟨kernel, sizeKernel⟩ := markFrames_marks ((visitedEntries mbi).foldl visitEntry s₁)
    (lastEntry mbi).addrLo (kernelFrames endOfKernel)
  refine ⟨fun frame => ?_, ?_⟩
  · rw [kernel, entries, cleared, or_assoc, EarlyMarks]
  · rw [sizeKernel, sizeEntries, none, Nat.zero_add]
    rfl

/-- `pmm_init` leaves `InitMarks` marked and counts the available memory. -/
theorem pmmInit_marked {mbi : MultibootInfo} {endOfKernel : Nat} {s s' : Pmm}
    (ended : pmmInit mbi endOfKernel s = some s')
    : (∀ frame, s'.Marked frame ↔ InitMarks mbi endOfKernel s frame)
      ∧ s'.memorySize = availableMemory mbi := by
  obtain ⟨⟨addr, s₁⟩, alloc, last⟩ := Option.bind_eq_some_iff.mp ended
  change (s.beforeAlloc mbi endOfKernel).frameAlloc = some (addr, s₁) at alloc
  obtain ⟨early, size⟩ := beforeAlloc_marked mbi endOfKernel s
  obtain ⟨-, sizeAlloc, -⟩ := frameAlloc_keeps alloc
  obtain ⟨firsts, sizeLast⟩ := markUnavailable_marks last
  refine ⟨fun frame => ?_, ?_⟩
  · rw [firsts, marked_frameAlloc alloc, or_assoc, InitMarks]
    simp only [early]
  · rw [sizeLast, sizeAlloc, size]

theorem pmmInit_marks {mbi : MultibootInfo} {endOfKernel : Nat} {s s' : Pmm}
    (ended : pmmInit mbi endOfKernel s = some s')
    : (∀ frame, MapMarks mbi endOfKernel frame → s'.Marked frame)
      ∧ s'.memorySize = availableMemory mbi := by
  obtain ⟨marked, size⟩ := pmmInit_marked ended
  refine ⟨fun frame marks => (marked frame).mpr ?_, size⟩
  cases marks with
  | entry visited low reserved inside =>
      exact .inl (.inr (.inl ⟨_, visited, low, reserved, _, inside, rfl⟩))
  | kernel inside => exact .inl (.inr (.inr ⟨_, inside, rfl⟩))
  | first walks even => exact .inr (.inr ⟨_, walks, even, rfl⟩)

end Pmm

namespace Paging

/-- Filling the page directory leaves the frame bitmap alone. -/
theorem fillKerPageDir_pmm (s : Paging) : s.fillKerPageDir.pmm = s.pmm := by
  have each (words : List Nat) (s : Paging)
      : (words.foldl (fun s i => s.setWord s.kerPageDir i pgRw) s).pmm = s.pmm := by
    induction words generalizing s with
    | nil => rfl
    | cons i words ih => exact ih (s.setWord s.kerPageDir i pgRw)
  exact each _ s

theorem pgInit_keeps {s s' : Paging} {node : Nat → FreeLl} {mbi : MultibootInfo}
    {vesa : Bool} {kmem : Kmem} (ended : s.pgInit node mbi vesa = some (s', kmem))
    : Pmm.Keeps s.pmm kmem.pmm ∧ kmem.pmm.memorySize = s.pmm.memorySize := by
  obtain ⟨s₁, low, ended⟩ := Option.bind_eq_some_iff.mp ended
  obtain ⟨s₂, framebuffer, ended⟩ := Option.bind_eq_some_iff.mp ended
  obtain ⟨s₃, heap, ended⟩ := Option.bind_eq_some_iff.mp ended
  obtain ⟨-, rfl⟩ := Prod.mk.inj (Option.some.inj ended)
  obtain ⟨keepsLow, sizeLow⟩ := pgMapPages_keeps low
  obtain ⟨keepsHeap, sizeHeap⟩ := pgMapPages_keeps heap
  have middle : Pmm.Keeps s₁.pmm s₂.pmm ∧ s₂.pmm.memorySize = s₁.pmm.memorySize := by
    rw [mapFramebuffer] at framebuffer
    split at framebuffer
    · obtain rfl := Option.some.inj framebuffer
      exact ⟨Pmm.Keeps.refl _, rfl⟩
    · exact pgMapPages_keeps framebuffer
  rw [fillKerPageDir_pmm] at keepsLow sizeLow
  exact ⟨keepsLow.trans (middle.1.trans keepsHeap),
    sizeHeap.trans (middle.2.trans sizeLow)⟩

end Paging

-----------------------------------------------------------------------------------------
-- Runs of calls
-----------------------------------------------------------------------------------------

inductive MemCall where
  | frameAlloc
  | frameFree (addr : Nat)
  | pmalloc (size : Nat)
  | kmalloc (size : Nat)

/-- The memory-management globals and the live frames: the addresses that `frame_alloc` has
returned and that were not freed since.
-/
structure Owners where
  kmem : Kmem
  live : List Nat

namespace Owners

/-- One call; only live frames are freed. -/
def call (s : Owners) : MemCall → Option Owners
  | .frameAlloc => do
      let (addr, pmm) ← s.kmem.pmm.frameAlloc
      return { kmem := { s.kmem with pmm }, live := s.live ++ [addr] }
  | .frameFree addr =>
      if addr ∈ s.live then
        some { kmem := { s.kmem with pmm := s.kmem.pmm.frameFree addr },
               live := s.live.erase addr }
      else
        none
  | .pmalloc size =>
      let placementAddr := (Hydrangea.pmalloc s.kmem.pmm.placementAddr size).2
      some { s with kmem := { s.kmem with pmm := { s.kmem.pmm with placementAddr } } }
  | .kmalloc size => do
      let (_, kmem) ← s.kmem.heapAlloc size
      return { s with kmem }

/-- The calls after `pmm_init` and `pg_init` on a memory map. The placement pointer starts at
the end of the kernel; what else memory holds at first is arbitrary.
-/
def system (mbi : MultibootInfo) (endOfKernel : Nat) (vesa : Bool)
    : TransitionSystem Owners MemCall where
  init s := ∃ (boot : Paging) (node : Nat → FreeLl) (pmm : Pmm) (paging : Paging),
    boot.pmm.placementAddr = endOfKernel
      ∧ Pmm.pmmInit mbi endOfKernel boot.pmm = some pmm
      ∧ { boot with pmm }.pgInit node mbi vesa = some (paging, s.kmem)
      ∧ s.live = []
  step s c s' := s.call c = some s'

/-- A byte of the kernel image, of the memory that the placement allocator has given out, or
of the kernel heap.
-/
def Reserved (endOfKernel placementAddr byte : Nat) : Prop :=
  0x100000 ≤ byte ∧ byte < endOfKernel
    ∨ endOfKernel ≤ byte ∧ byte < placementAddr
    ∨ heapStart ≤ byte ∧ byte < heapStart + heapInitialSize

/-- The frame at an address has a reserved byte. -/
def Overlaps (endOfKernel placementAddr addr : Nat) : Prop :=
  ∃ byte, addr ≤ byte ∧ byte < addr + 4096 ∧ Reserved endOfKernel placementAddr byte

/-- No live frame has a reserved byte. -/
def Apart (endOfKernel : Nat) (s : Owners) : Prop :=
  ∀ addr ∈ s.live, ¬ Overlaps endOfKernel s.kmem.pmm.placementAddr addr

/-- How far a call may move the placement pointer. -/
def reach (s : Owners) : MemCall → Nat
  | .pmalloc size => s.kmem.pmm.placementAddr + size
  | .kmalloc _ => s.kmem.pmm.placementAddr + Kmem.sizeofFreeLl
  | _ => s.kmem.pmm.placementAddr

/-- The memory map accounts for the reserved memory: the bitmap has a word for every frame
that `frame_alloc` looks at, and the frames among these that have a reserved byte, even
after the call, are marked for the map.
-/
def Covered (mbi : MultibootInfo) (endOfKernel : Nat) (s : Owners) (c : MemCall) : Prop :=
  availableMemory mbi / 4096 / 32 ≤ Pmm.framesBmpSize / 4
    ∧ ∀ frame < availableMemory mbi / 4096 / 32 * 32,
        Overlaps endOfKernel (s.reach c) (frame * 4096) → MapMarks mbi endOfKernel frame

/-- What the calls keep: the marks of the memory map stay, and the live frames are different
frames that are scanned and that the map does not mark.
-/
structure Kept (mbi : MultibootInfo) (endOfKernel : Nat) (s : Owners) : Prop where
  size : s.kmem.pmm.memorySize = availableMemory mbi
  marks : ∀ frame, MapMarks mbi endOfKernel frame → s.kmem.pmm.Marked frame
  nodup : s.live.Nodup
  live : ∀ addr ∈ s.live, ∃ frame < availableMemory mbi / 4096 / 32 * 32,
    addr = frame * 4096 ∧ s.kmem.pmm.Marked frame ∧ ¬ MapMarks mbi endOfKernel frame

variable {mbi : MultibootInfo} {endOfKernel : Nat} {vesa : Bool}

/-- A smaller placement pointer reserves less. -/
theorem Overlaps.mono {placement placement' addr : Nat} (le : placement ≤ placement')
    (h : Overlaps endOfKernel placement addr)
    : Overlaps endOfKernel placement' addr := by
  obtain ⟨byte, lower, upper, reserved⟩ := h
  refine ⟨byte, lower, upper, ?_⟩
  rcases reserved with kernel | ⟨from', below⟩ | heap
  · exact Or.inl kernel
  · exact Or.inr (Or.inl ⟨from', Nat.lt_of_lt_of_le below le⟩)
  · exact Or.inr (Or.inr heap)

/-- After `pmm_init` and `pg_init` the frames of the memory map are marked. -/
theorem Kept.init {s : Owners} (initial : (system mbi endOfKernel vesa).init s)
    : Kept mbi endOfKernel s := by
  obtain ⟨boot, node, pmm, paging, -, pmmInit, pgInit, none⟩ := initial
  obtain ⟨marks, size⟩ := Pmm.pmmInit_marks pmmInit
  obtain ⟨keeps, size'⟩ := Paging.pgInit_keeps pgInit
  refine ⟨size'.trans size, fun frame marked => keeps frame (marks frame marked), ?_, ?_⟩
  · rw [none]
    exact List.nodup_nil
  · rw [none]
    simp

/-- Every call keeps the marks of the memory map and the live frames apart from them, as
long as the bitmap is large enough.
-/
theorem Kept.step {s s' : Owners} {c : MemCall} (h : Kept mbi endOfKernel s)
    (fits : availableMemory mbi / 4096 / 32 ≤ Pmm.framesBmpSize / 4)
    (called : s.call c = some s')
    : Kept mbi endOfKernel s' := by
  have bound : Pmm.framesBmpSize / 4 = 8191 := by decide
  cases c with
  | frameAlloc =>
      obtain ⟨⟨addr, pmm⟩, alloc, rest⟩ := Option.bind_eq_some_iff.mp called
      obtain rfl := Option.some.inj rest
      obtain ⟨keeps, size, -⟩ := Pmm.frameAlloc_keeps alloc
      obtain ⟨ff, found, rfl, rfl⟩ := Pmm.frameAlloc_eq_some alloc
      have words : s.kmem.pmm.scannedWords = availableMemory mbi / 4096 / 32 := by
        rw [Pmm.scannedWords, h.size]
        omega
      obtain ⟨scanned, clear, -⟩ := Pmm.frameBmpGetFirst_eq_some found (by omega)
      have noWrap : ff * 0x1000 % 2 ^ 32 = ff * 4096 := Nat.mod_eq_of_lt (by omega)
      rw [noWrap] at keeps size ⊢
      refine ⟨size.trans h.size, fun frame marks => keeps frame (h.marks frame marks), ?_,
        fun addr member => ?_⟩
      · refine List.nodup_append.mpr ⟨h.nodup, List.nodup_singleton _, ?_⟩
        intro addr member new isNew same
        obtain ⟨frame, -, rfl, marked, -⟩ := h.live addr member
        rw [List.mem_singleton.mp isNew] at same
        exact clear (by rwa [← Nat.eq_of_mul_eq_mul_right (by decide) same])
      · rcases List.mem_append.mp member with old | new
        · obtain ⟨frame, inside, address, marked, free⟩ := h.live addr old
          exact ⟨frame, inside, address, keeps frame marked, free⟩
        · refine ⟨ff, by omega, List.mem_singleton.mp new, ?_, fun marks =>
            clear (h.marks ff marks)⟩
          rw [Pmm.marked_frameBmpSet]
          exact Or.inl (Nat.mul_div_cancel ff (by decide)).symm
  | frameFree addr =>
      rw [call] at called
      by_cases live : addr ∈ s.live
      · rw [if_pos live] at called
        obtain rfl := Option.some.inj called
        obtain ⟨freed, -, rfl, -, free⟩ := h.live addr live
        have reset (frame : Nat) (marked : s.kmem.pmm.Marked frame) (other : frame ≠ freed)
            : (s.kmem.pmm.frameFree (freed * 4096)).Marked frame := by
          rw [Pmm.frameFree, Pmm.marked_frameBmpReset, Nat.mul_div_cancel freed (by decide)]
          exact ⟨other, marked⟩
        refine ⟨h.size, fun frame marks => ?_, h.nodup.erase _, fun addr member => ?_⟩
        · refine reset frame (h.marks frame marks) ?_
          rintro rfl
          exact free marks
        · obtain ⟨other, old⟩ := h.nodup.mem_erase_iff.mp member
          obtain ⟨frame, inside, rfl, marked, apart⟩ := h.live addr old
          refine ⟨frame, inside, rfl, reset frame marked ?_, apart⟩
          rintro rfl
          exact other rfl
      · rw [if_neg live] at called
        cases called
  | pmalloc size =>
      obtain rfl := Option.some.inj called
      exact ⟨h.size, h.marks, h.nodup, h.live⟩
  | kmalloc size =>
      obtain ⟨⟨addr, kmem⟩, alloc, rest⟩ := Option.bind_eq_some_iff.mp called
      obtain rfl := Option.some.inj rest
      rcases Kmem.heapAlloc_pmm alloc with same | ⟨value, same⟩
      · exact ⟨by rw [same]; exact h.size, by rw [same]; exact h.marks, h.nodup,
          by rw [same]; exact h.live⟩
      · exact ⟨by rw [same]; exact h.size, by rw [same]; exact h.marks, h.nodup,
          by rw [same]; exact h.live⟩

/-- A call moves the placement pointer no further than its reach. -/
theorem placementAddr_le_reach {s s' : Owners} {c : MemCall} (called : s.call c = some s')
    : s'.kmem.pmm.placementAddr ≤ s.reach c := by
  cases c with
  | frameAlloc =>
      obtain ⟨⟨addr, pmm⟩, alloc, rest⟩ := Option.bind_eq_some_iff.mp called
      obtain rfl := Option.some.inj rest
      exact (Pmm.frameAlloc_keeps alloc).2.2.le
  | frameFree addr =>
      rw [call] at called
      split at called
      · obtain rfl := Option.some.inj called
        exact Nat.le_refl _
      · cases called
  | pmalloc size =>
      obtain rfl := Option.some.inj called
      exact Nat.mod_le _ _
  | kmalloc size =>
      obtain ⟨⟨addr, kmem⟩, alloc, rest⟩ := Option.bind_eq_some_iff.mp called
      obtain rfl := Option.some.inj rest
      rcases Kmem.heapAlloc_pmm alloc with same | ⟨value, same⟩
      · rw [same]
        exact Nat.le_add_right _ _
      · rw [same]
        exact Nat.mod_le _ _

/-- The marks of the memory map stay in every run whose bitmap is large enough. -/
theorem Kept.reachable {s : Owners}
    (reached : ((system mbi endOfKernel vesa).restrict (Covered mbi endOfKernel)).Reachable s)
    : Kept mbi endOfKernel s := by
  refine reached.invariant ?_ ?_
  · intro s initial
    exact Kept.init initial
  · intro s c s' kept step
    obtain ⟨⟨fits, -⟩, called⟩ := step
    exact kept.step fits called

/-- In every run on a memory map that accounts for the reserved memory at each call, no live frame
has a reserved byte. A live frame was clear at the call before, and the condition is that clear
frames have no reserved byte then.
-/
theorem run_apart {s : Owners} {steps : List (Owners × MemCall)}
    (run : (system mbi endOfKernel vesa).Run s steps)
    (covered : ∀ taken ∈ steps, Covered mbi endOfKernel taken.1 taken.2)
    : Apart endOfKernel s := by
  intro addr member overlaps
  have reached := run.restrict covered
  obtain ⟨frame, inside, rfl, -, free⟩ := (Kept.reachable reached).live addr member
  cases reached with
  | start initial =>
      obtain ⟨-, -, -, -, -, -, -, none⟩ := initial
      rw [none] at member
      cases member
  | next _ taken =>
      obtain ⟨⟨-, covers⟩, called⟩ := taken
      exact free (covers frame inside (overlaps.mono (placementAddr_le_reach called)))

-----------------------------------------------------------------------------------------
-- Two memory maps
-----------------------------------------------------------------------------------------

/-- The frame bitmap after a number of calls of `frame_alloc`. -/
def afterAllocs (pmm : Pmm) : Nat → Option Pmm
  | 0 => some pmm
  | n + 1 => (afterAllocs pmm n).bind (fun s => s.frameAlloc.map Prod.snd)

/-- `pg_map_pages` returns while there are frames, and takes at most one of them. -/
theorem pgMapPages_afterAllocs {pmm : Pmm} {k virt phys : Nat} {s : Paging}
    (now : ∃ n ≤ k, afterAllocs pmm n = some s.pmm)
    (frames : ∀ n ≤ k + 1, (afterAllocs pmm n).isSome) (virtAligned : virt % 4096 = 0)
    (physAligned : phys % 4096 = 0) (dir num flags : Nat)
    : ∃ s', s.pgMapPages dir virt phys num flags = some s'
      ∧ ∃ n ≤ k + 1, afterAllocs pmm n = some s'.pmm := by
  obtain ⟨n, le, now⟩ := now
  have room : s.pmm.frameAlloc.isSome := by
    have next := frames (n + 1) (Nat.succ_le_succ le)
    simpa [afterAllocs, now] using next
  obtain ⟨p, rfl⟩ : ∃ p, virt = 4096 * p := ⟨virt / 4096, by omega⟩
  obtain ⟨s', returned⟩ : ∃ s', s.pgMapPages dir (4096 * p) phys num flags = some s' :=
    Paging.pgMapPages_returns physAligned (Or.inr room)
  refine ⟨s', returned, ?_⟩
  rcases Paging.pgMapPages_pmm returned with same | ⟨frame, alloc⟩
  · exact ⟨n, Nat.le_succ_of_le le, by rw [same, now]⟩
  · exact ⟨n + 1, Nat.succ_le_succ le, by simp [afterAllocs, now, alloc]⟩

/-- `pg_init` returns when there are three frames for its tables. -/
theorem pgInit_afterAllocs (boot : Paging) (node : Nat → FreeLl) (mbi : MultibootInfo)
    (frames : ∀ n ≤ 3, (afterAllocs boot.pmm n).isSome)
    : ∃ paging kmem, boot.pgInit node mbi false = some (paging, kmem)
      ∧ ∃ n ≤ 3, ∃ pmm, afterAllocs boot.pmm n = some pmm
        ∧ kmem.pmm = { pmm with placementAddr := kmem.pmm.placementAddr } := by
  have start : ∃ n ≤ 0, afterAllocs boot.pmm n = some boot.fillKerPageDir.pmm := by
    rw [Paging.fillKerPageDir_pmm]
    exact ⟨0, Nat.le_refl 0, rfl⟩
  have pageAligned : (mbi.framebufferAddr &&& 0xFFF00000) % 4096 = 0 := by
    have part := Word.and_highMask_aligned (show 20 ≤ 32 by decide) mbi.framebufferAddr
    have mask : Word.highMask 20 32 = 0xFFF00000 := by decide
    rw [mask] at part
    omega
  obtain ⟨s₁, low, after₁⟩ := pgMapPages_afterAllocs start
    (fun n le => frames n (by omega)) (Nat.zero_mod 4096) (Nat.zero_mod 4096)
    boot.fillKerPageDir.kerPageDir 1024 Paging.pgRw
  obtain ⟨s₂, framebuffer, after₂⟩ := pgMapPages_afterAllocs after₁
    (fun n le => frames n (by omega)) pageAligned pageAligned s₁.kerPageDir (2 * 1024)
    Paging.pgRw
  obtain ⟨s₃, heap, n, le, after₃⟩ := pgMapPages_afterAllocs after₂
    (fun n le => frames n le) (show heapStart % 4096 = 0 by decide)
    (show heapStart % 4096 = 0 by decide) s₂.kerPageDir 1024 Paging.pgRw
  have ended : boot.pgInit node mbi false
      = some ({ s₃ with
          pmm := (Kmem.heapCreate s₃.pmm node heapStart heapInitialSize heapMaxSize 0).pmm
          curPageDir := s₃.kerPageDir },
        Kmem.heapCreate s₃.pmm node heapStart heapInitialSize heapMaxSize 0) := by
    simp only [Paging.pgInit, Paging.mapFramebuffer, low, framebuffer, heap,
      Option.bind_eq_bind, Option.bind_some, Bool.false_eq_true, if_false]
    rfl
  exact ⟨_, _, ended, n, le, s₃.pmm, after₃, rfl⟩

/-- A megabyte of reserved memory at 0, and a megabyte that is available behind it, listed
first.
-/
def reservedLow : MultibootInfo where
  mmapAddr := 0x9000
  mmapLength := 48
  framebufferAddr := 0xFD000000
  mmap a :=
    if a = 0x9000 then
      { size := 20, addrLo := 0x100000, addrHi := 0, lenLo := 0x200000, type := 1 }
    else
      { size := 20, addrLo := 0, addrHi := 0, lenLo := 0x100000, type := 2 }

def availableLow : MultibootInfo where
  mmapAddr := 0x9000
  mmapLength := 24
  framebufferAddr := 0xFD000000
  mmap _ := { size := 20, addrLo := 0, addrHi := 0, lenLo := 0x80000, type := 1 }

/-- Memory before the start of the kernel, with a cleared bitmap. -/
def cleared (endOfKernel : Nat) : Paging where
  pmm := { placementAddr := endOfKernel, framesBmp := fun _ => 0, memorySize := 0 }
  mem _ := 0
  kerPageDir := 0x101000
  curPageDir := 0

/-- A frame that `frame_alloc` returns after `pmm_init` and `pg_init` is live in a state of
a run.
-/
theorem run_frameAlloc {mbi : MultibootInfo} {endOfKernel : Nat} {P : Nat → Prop} {pmm : Pmm}
    (started : Pmm.pmmInit mbi endOfKernel (cleared endOfKernel).pmm = some pmm)
    (frames : ∀ n ≤ 3, ∃ s ∈ afterAllocs pmm n, ∃ r ∈ s.frameAlloc, P r.1)
    : ∃ s s' addr, (system mbi endOfKernel false).Run s' [(s, .frameAlloc)]
        ∧ s'.live = [addr] ∧ P addr := by
  obtain ⟨paging, kmem, ended, n, le, pmm', after, same⟩ :=
    pgInit_afterAllocs { cleared endOfKernel with pmm } (fun _ => ⟨0, 0, none, none⟩) mbi
      (fun n le => by
        obtain ⟨s, now, -⟩ := frames n le
        exact Option.isSome_of_mem now)
  obtain ⟨pmm'', now, ⟨addr, s'⟩, alloc, property⟩ := frames n le
  obtain rfl : pmm' = pmm'' := Option.some.inj (after.symm.trans now)
  have alloc' : kmem.pmm.frameAlloc = some (addr, kmem.pmm.frameBmpSet addr) := by
    obtain ⟨ff, found, rfl, -⟩ := Pmm.frameAlloc_eq_some alloc
    have found' : kmem.pmm.frameBmpGetFirst = some ff := by
      rw [same]
      exact found
    rw [Pmm.frameAlloc, found']
    rfl
  have initial : (system mbi endOfKernel false).init { kmem, live := [] } :=
    ⟨cleared endOfKernel, _, pmm, paging, rfl, started, ended, rfl⟩
  refine ⟨{ kmem, live := [] },
    { kmem := { kmem with pmm := kmem.pmm.frameBmpSet addr }, live := [addr] }, addr,
    .next (.start initial) ?_, rfl, property⟩
  show call _ .frameAlloc = _
  rw [call, alloc']
  rfl

/-- The frames that `frame_alloc` returns for the map with low memory reserved lie where the
kernel is.
-/
theorem reservedLow_frames
    : ∃ pmm ∈ Pmm.pmmInit reservedLow 0x200000 (cleared 0x200000).pmm, ∀ n ≤ 3,
        ∃ s ∈ afterAllocs pmm n, ∃ r ∈ s.frameAlloc, 0x100000 ≤ r.1 ∧ r.1 < 0x200000 := by
  decide +kernel

/-- The frames that `frame_alloc` returns for the map with little memory. -/
theorem availableLow_frames
    : ∃ pmm ∈ Pmm.pmmInit availableLow 0x101000 (cleared 0x101000).pmm, ∀ n ≤ 3,
        ∃ s ∈ afterAllocs pmm n, ∃ r ∈ s.frameAlloc, 0x1000 ≤ r.1 := by
  decide +kernel

/-- Half a megabyte of memory ends below the kernel, so a frame of it has no reserved byte. -/
theorem run_apart_availableLow
    : ∃ s s' addr, (system availableLow 0x101000 false).Run s' [(s, .frameAlloc)]
        ∧ s'.live = [addr] ∧ Apart 0x101000 s' := by
  obtain ⟨pmm, started, frames⟩ := availableLow_frames
  obtain ⟨s, s', addr, run, live, -⟩ := run_frameAlloc (Option.mem_def.mp started) frames
  refine ⟨s, s', addr, run, live, run_apart run ?_⟩
  intro taken member
  have memory : availableMemory availableLow / 4096 / 32 = 4 := by decide
  rw [Covered, memory]
  refine ⟨by decide, fun frame inside overlaps => ?_⟩
  obtain ⟨byte, -, upper, reserved⟩ := overlaps
  rw [Reserved, heapStart] at reserved
  omega

/-- A frame of the kernel image is handed out when the memory map does not reserve it. -/
theorem run_not_apart
    : ∃ s s', (system reservedLow 0x200000 false).Run s' [(s, .frameAlloc)]
        ∧ ¬ Apart 0x200000 s' := by
  obtain ⟨pmm, started, frames⟩ := reservedLow_frames
  obtain ⟨s, s', addr, run, live, inside⟩ := run_frameAlloc
    (P := fun addr => 0x100000 ≤ addr ∧ addr < 0x200000) (Option.mem_def.mp started) frames
  have member : addr ∈ s'.live := by
    rw [live]
    exact List.mem_singleton.mpr rfl
  refine ⟨s, s', run, fun apart => apart addr member ⟨addr, Nat.le_refl _, ?_, ?_⟩⟩
  · exact Nat.lt_add_of_pos_right (by decide)
  · exact Or.inl inside

end Owners

end Hydrangea
