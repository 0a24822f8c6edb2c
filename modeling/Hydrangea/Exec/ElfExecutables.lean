import Hydrangea.Exec.ElfLoads

/-! Which executables `elf_load` loads: those whose segments are each a single page at the start
of a region of 4 MiB.
-/

namespace Hydrangea.Elf

open Paging

-----------------------------------------------------------------------------------------
-- The program header table
-----------------------------------------------------------------------------------------

/-- Each of a list of segments can be loaded after those before it. -/
def Fits (s : Paging) (buffer : Nat) (segments : List Segment) : Prop :=
  ∀ before seg after, segments = before ++ seg :: after
    → SegmentFits s buffer (before.map Segment.region) seg

/-- The pages that the first `n` program headers have added. A segment with bytes is loaded as
long as no later one begins in its region.
-/
structure Progress (s s' : Paging) (buffer : Nat) (file : Nat → Nat) (n : Nat)
    (added : List Placed) : Prop where
  placed : Added s s' added
  pages : added.map Placed.page = (loads file n).map (fun seg => seg.vaddr / 4096)
  fits : Fits s buffer (loads file n)
  loaded : ∀ before seg after, loads file n = before ++ seg :: after → seg.memSize ≠ 0
    → (∀ later ∈ after, later.region ≠ seg.region)
    → ∃ a ∈ added, SegmentLoaded s' s.curPageDir file seg a

/-- The segments of one more program header. -/
theorem loads_succ (file : Nat → Nat) (n : Nat)
    : loads file (n + 1) = loads file n
        ++ if phType.of file (headerAt file n) = phSegtypeLoad then
            [segmentOf file (headerAt file n)]
          else
            [] := by
  simp only [loads, List.range_succ, List.filter_append, List.map_append]
  congr 1
  by_cases load : phType.of file (headerAt file n) = phSegtypeLoad <;> simp [load]

theorem loads_succ_skip {file : Nat → Nat} {n : Nat}
    (other : phType.of file (headerAt file n) ≠ phSegtypeLoad)
    : loads file (n + 1) = loads file n := by
  rw [loads_succ, if_neg other, List.append_nil]

theorem loads_succ_load {file : Nat → Nat} {n : Nat}
    (load : phType.of file (headerAt file n) = phSegtypeLoad)
    : loads file (n + 1) = loads file n ++ [segmentOf file (headerAt file n)] := by
  rw [loads_succ, if_pos load]

/-- The segments of the first program headers come first. -/
theorem loads_prefix (file : Nat → Nat) {n m : Nat} (le : n ≤ m)
    : ∃ rest, loads file m = loads file n ++ rest := by
  induction m with
  | zero =>
      obtain rfl : n = 0 := Nat.le_zero.mp le
      exact ⟨[], (List.append_nil _).symm⟩
  | succ m ih =>
      rcases Nat.eq_or_lt_of_le le with rfl | below
      · exact ⟨[], (List.append_nil _).symm⟩
      · obtain ⟨rest, same⟩ := ih (Nat.le_of_lt_succ below)
        rw [loads_succ, same, List.append_assoc]
        exact ⟨_, rfl⟩

/-- Where a list with one more element at its end can be split. -/
theorem append_singleton_eq_append_cons {α : Type} {l before after : List α} {last x : α}
    (same : l ++ [last] = before ++ x :: after)
    : (l = before ∧ x = last ∧ after = [])
      ∨ ∃ after', l = before ++ x :: after' ∧ after = after' ++ [last] := by
  rcases List.eq_nil_or_concat after with rfl | ⟨after', y, rfl⟩
  · obtain ⟨rfl, single⟩ := List.append_inj' same rfl
    exact .inl ⟨rfl, (List.singleton_inj.mp single).symm, rfl⟩
  · rw [List.concat_eq_append, ← List.cons_append, ← List.append_assoc] at same
    obtain ⟨rfl, single⟩ := List.append_inj' same rfl
    exact .inr ⟨after', rfl, by rw [List.concat_eq_append, List.singleton_inj.mp single]⟩

/-- A part of the segments fits if all of them do. -/
theorem Fits.of_append {s : Paging} {buffer : Nat} {segments rest : List Segment}
    (h : Fits s buffer (segments ++ rest))
    : Fits s buffer segments := by
  intro before seg after same
  refine h before seg (after ++ rest) ?_
  rw [same, List.append_assoc, List.cons_append]

section

variable {s s' s'' : Paging} {added : List Placed} {buffer size n : Nat} {file : Nat → Nat}

/-- The regions of the pages are those of the segments. -/
theorem Progress.regions (h : Progress s s' buffer file n added)
    : added.map Placed.region = (loads file n).map Segment.region := by
  have divided := congrArg (List.map (fun page => page / 1024)) h.pages
  rw [List.map_map, List.map_map] at divided
  refine divided.trans (List.map_congr_left (fun seg _ => ?_))
  change seg.vaddr / 4096 / 1024 = seg.vaddr / 2 ^ 22
  omega

theorem Progress.start (live : s.Live s.curPageDir) : Progress s s buffer file 0 [] := by
  refine ⟨Added.refl live, rfl, ?_, ?_⟩
  · intro before seg after same
    exact absurd same (by simp [loads])
  · intro before seg after same
    exact absurd same (by simp [loads])

/-- A program header of another type. -/
theorem Progress.skip (h : Progress s s' buffer file n added)
    (other : phType.of file (headerAt file n) ≠ phSegtypeLoad)
    : Progress s s' buffer file (n + 1) added := by
  have same := loads_succ_skip other
  obtain ⟨added, pages, fits, loaded⟩ := h
  refine ⟨added, ?_, ?_, ?_⟩
  · rwa [same]
  · rwa [same]
  · rwa [same]

/-- A program header of a segment that was loaded. -/
theorem Progress.load {phys : Nat} (h : Progress s s' buffer file n added)
    (load : phType.of file (headerAt file n) = phSegtypeLoad)
    (fits : SegmentFits s buffer (added.map Placed.region) (segmentOf file (headerAt file n)))
    (loaded : Done s s' s'' added file (segmentOf file (headerAt file n)) phys)
    : Progress s s'' buffer file (n + 1)
        (added ++ [⟨(segmentOf file (headerAt file n)).vaddr / 4096, phys⟩]) := by
  have one := loads_succ_load load
  refine ⟨loaded.pages, ?_, ?_, ?_⟩
  · rw [one, List.map_append, List.map_append, h.pages]
    rfl
  · intro before seg after same
    rw [one] at same
    rcases append_singleton_eq_append_cons same with ⟨rfl, rfl, -⟩ | ⟨after', same', -⟩
    · rwa [h.regions] at fits
    · exact h.fits before seg after' same'
  · intro before seg after same nonempty alone
    rw [one] at same
    rcases append_singleton_eq_append_cons same with ⟨-, rfl, -⟩ | ⟨after', same', rfl⟩
    · exact ⟨_, List.mem_append_right _ (List.mem_singleton_self _), loaded.loaded nonempty⟩
    · obtain ⟨a, member, before'⟩ := h.loaded before seg after' same' nonempty
        (fun later memberL => alone later (List.mem_append_left _ memberL))
      have last := alone _ (List.mem_append_right after' (List.mem_singleton_self _))
      have region : a.region = seg.region := by
        rw [Placed.region, before'.page, Segment.region]
        omega
      refine ⟨a, List.mem_append_left _ member, loaded.others seg a member ?_ before'⟩
      rw [region]
      exact last.symm

/-- The program header table lies in the file, and so do the segments. -/
structure TableOk (s : Paging) (size : Nat) (file : Nat → Nat) : Prop where
  header : headerSize ≤ size
  table : phOffset.of file 0 + phHeaderSize * phTableEntryCount.of file 0 ≤ size
  segments : ∀ seg ∈ allLoads file, SegmentOk s size seg

theorem headerAt_inside
    (table : phOffset.of file 0 + phHeaderSize * phTableEntryCount.of file 0 ≤ size)
    (more : n < phTableEntryCount.of file 0)
    : headerAt file n + phHeaderSize ≤ size := by
  rw [headerAt, phHeaderSize] at *
  omega

/-- The address of a program header that lies in the block of the file. -/
theorem headerAt_address (inWord : buffer + size ≤ 2 ^ 32)
    (inside : headerAt file n + phHeaderSize ≤ size)
    : ((buffer + phOffset.of file 0) % 2 ^ 32 + phHeaderSize * n) % 2 ^ 32
      = buffer + headerAt file n := by
  rw [headerAt, phHeaderSize] at *
  omega

/-- The rule of the loop over the program headers, by induction on the rounds left: what holds
before each round, is kept where the header is of another type, and is kept by `loadSegment` where
it is of a segment, holds behind all of them.
-/
theorem meets_loadSegments_of {event : Event → Prop} {stopped : Paging → Prop} {fuel : Nat}
    (holding : Nat → Paging → Prop)
    (holds : ∀ k t, holding k t → Holds t buffer size file) (inWord : buffer + size ≤ 2 ^ 32)
    (header : headerSize ≤ size)
    (table : phOffset.of file 0 + phHeaderSize * phTableEntryCount.of file 0 ≤ size)
    (reads : ∀ i < size, event (.reads (buffer + i)))
    (skip : ∀ k t, k < phTableEntryCount.of file 0 → holding k t
      → phType.of file (headerAt file k) ≠ phSegtypeLoad → holding (k + 1) t)
    (load : ∀ k t, k < phTableEntryCount.of file 0 → holding k t
      → phType.of file (headerAt file k) = phSegtypeLoad
      → (loadSegment buffer (buffer + headerAt file k)).Meets t event stopped
          (fun _ t' => holding (k + 1) t'))
    (h : holding n s') (le : n ≤ phTableEntryCount.of file 0)
    (enough : phTableEntryCount.of file 0 < n + fuel)
    : (loadSegments buffer ((buffer + phOffset.of file 0) % 2 ^ 32) fuel n).Meets s' event stopped
        (fun _ t => holding (phTableEntryCount.of file 0) t) := by
  induction fuel generalizing s' n with
  | zero => omega
  | succ fuel ih =>
      refine .bind ((holds n s' h).meets_read phTableEntryCount (by decide) ?_
        (Nat.add_zero buffer).symm reads ?_)
      · change 0 + 44 + 2 ≤ size
        rw [headerSize] at header
        omega
      split
      · next more =>
          have inside := headerAt_inside table more
          rw [headerAt_address inWord inside]
          have type {returned : Nat → Paging → Prop}
              (hr : returned (phType.of file (headerAt file n)) s')
              : (phType.read (buffer + headerAt file n)).Meets s' event stopped returned := by
            refine (holds n s' h).meets_read phType (by decide) ?_ rfl reads hr
            rw [phHeaderSize] at inside
            change headerAt file n + 0 + 4 ≤ size
            omega
          refine .bind (type ?_)
          split
          · next null =>
              refine ih (skip n s' more h ?_) more (by omega)
              rw [null]
              decide
          · refine .bind (type ?_)
            split
            · next isLoad =>
                refine .bind (.mono (load n s' more h isLoad) (fun _ event => event)
                  (fun _ stops => stops) (fun _ t' kept => ?_))
                exact ih kept more (by omega)
            · next other => exact ih (skip n s' more h other) more (by omega)
      · next done =>
          obtain rfl : n = phTableEntryCount.of file 0 := by omega
          exact Traced.meets_pure h

/-- The loop over the program headers loads every segment, or stops because they do not all fit. -/
theorem meets_loadSegments {fuel : Nat} {returned : Unit → Paging → Prop}
    (ready : Ready s buffer size file) (low : ∀ i, file i < 256) (ok : TableOk s size file)
    (user : ∀ seg ∈ allLoads file, ¬ s.Present s.curPageDir seg.region)
    (h : Progress s s' buffer file n added) (le : n ≤ phTableEntryCount.of file 0)
    (enough : phTableEntryCount.of file 0 < n + fuel)
    (hr : ∀ s'' more, Progress s s'' buffer file (phTableEntryCount.of file 0) more
      → returned () s'')
    : (loadSegments buffer ((buffer + phOffset.of file 0) % 2 ^ 32) fuel n).Meets s'
        (fun _ => True) (fun _ => ¬ Fits s buffer (allLoads file)) returned := by
  refine .mono (meets_loadSegments_of (fun k t => ∃ more, Progress s t buffer file k more)
    (fun k t ⟨_, before⟩ => before.placed.holds ready) ready.inWord ok.header ok.table
    (fun _ _ => trivial) (fun k t _ ⟨more, before⟩ other => ⟨more, before.skip other⟩) ?_
    ⟨added, h⟩ le enough) (fun _ event => event) (fun _ unfit => unfit)
    (fun _ t ⟨more, all⟩ => hr t more all)
  rintro k t more ⟨earlier, before⟩ load
  obtain ⟨rest, all⟩ := loads_prefix file (Nat.succ_le_of_lt more)
  have split : allLoads file = loads file k ++ segmentOf file (headerAt file k) :: rest := by
    rw [allLoads, all, loads_succ_load load, List.append_assoc, List.singleton_append]
  have member : segmentOf file (headerAt file k) ∈ allLoads file := by
    rw [split]
    exact List.mem_append_right _ (List.mem_cons_self ..)
  have fits (all : Fits s buffer (allLoads file))
      : SegmentFits s buffer (earlier.map Placed.region) (segmentOf file (headerAt file k)) := by
    rw [before.regions]
    exact all _ _ _ split
  refine .mono (meets_loadSegment ready before.placed low (headerAt_inside ok.table more)
    (ok.segments _ member) (user _ member) (fun t' phys fits loaded => ?_))
    (fun _ event => event) (fun _ unfit all => unfit (fits all)) (fun _ _ result => result)
  exact ⟨_, before.load load fits loaded⟩

end

-----------------------------------------------------------------------------------------
-- Whole files
-----------------------------------------------------------------------------------------

def FileNode.file (node : FileNode) (i : Nat) : Nat :=
  (node.bytes.getD i 0).toNat

/-- A file of which `vfs_read` delivers all bytes, a directory whose frames are marked used, and
the block of `kmalloc`: its bytes lie in frames that are marked used and that the directory does
not use itself, each in a place of its own.
-/
structure Setting (s : Paging) (node : FileNode) (buffer : Nat) : Prop where
  live : s.Live s.curPageDir
  whole : node.bytes.length = node.size
  inWord : buffer + node.size ≤ 2 ^ 32
  block : ∀ i < node.size, ∃ phys, s.translate (buffer + i) = some phys
    ∧ s.pmm.Marked (phys / 4096) ∧ ¬ s.UsedBy s.curPageDir (frameOf phys)
    ∧ ∀ j < node.size, s.translate (buffer + j) = some phys → j = i

/-- A well-formed little-endian ELF32 executable for the i386, whose segments lie in the file and
have addresses of their own, in regions for which the directory has no table.
-/
structure Executable (s : Paging) (size : Nat) (file : Nat → Nat) : Prop where
  magic : magic0.of file 0 = 0x7F ∧ magic1.of file 0 = 0x45 ∧ magic2.of file 0 = 0x4C
    ∧ magic3.of file 0 = 0x46
  class32 : cl.of file 0 = 1
  little : endianness.of file 0 = 1
  i386 : machine.of file 0 = 3
  version : elfVersion.of file 0 = 1
  exec : ehType.of file 0 = 2
  entrySize : phTableEntrySize.of file 0 = phHeaderSize
  table : TableOk s size file
  apart : (allLoads file).Pairwise (fun seg seg' => ∀ virt, seg.Covers virt → ¬ seg'.Covers virt)

/-- The segments of an executable lie in memory: each page that overlaps one is mapped, writable
and for the user, to a frame of its own that was not in use, and the addresses hold the bytes of
the file and zeros behind them.
-/
structure Image (s s' : Paging) (file : Nat → Nat) (segments : List Segment) : Prop where
  pages : ∀ seg ∈ segments, ∀ page, seg.Overlaps page → ∃ frame,
    s'.MapsTo s'.curPageDir (4096 * page) frame segmentFlags
      ∧ s'.pde s'.curPageDir (4096 * page) &&& segmentFlags = segmentFlags
      ∧ ¬ s.pmm.Marked (frame / 4096)
  own : ∀ seg ∈ segments, ∀ seg' ∈ segments, ∀ page page', seg.Overlaps page → seg'.Overlaps page'
    → s'.pgVirtToPhys s'.curPageDir (4096 * page) = s'.pgVirtToPhys s'.curPageDir (4096 * page')
    → page = page'
  contents : ∀ seg ∈ segments, ∀ i < seg.memSize,
    s'.virtByte (seg.vaddr + i) = some (seg.content file i)

/-- `elf_load` returns the entry, and the segments lie in memory. -/
def LoadsAll (s : Paging) (node : FileNode) (buffer : Nat) : Prop :=
  (elfLoad (some node) buffer s).result = some (entry.of node.file 0)
    ∧ Image s (elfLoad (some node) buffer s).state node.file (allLoads node.file)

/-- What an executable needs: its segments begin in regions for which the directory has no table,
no segment begins in the region of an earlier one that has bytes, and each fits.
-/
structure Loadable (s : Paging) (buffer : Nat) (segments : List Segment) : Prop where
  user : ∀ seg ∈ segments, ¬ s.Present s.curPageDir seg.region
  alone : segments.Pairwise (fun seg later => seg.memSize ≠ 0 → later.region ≠ seg.region)
  fits : Fits s buffer segments

section

variable {s s' : Paging} {added : List Placed} {buffer size : Nat} {node : FileNode}

theorem FileNode.file_lt (node : FileNode) (i : Nat) : node.file i < 256 :=
  UInt8.toNat_lt _

/-- Once the file is stored, it lies in its buffer. -/
theorem Setting.ready (h : Setting s node buffer) (wrote : WroteRange s s' buffer node.size)
    (clear : Clear s buffer node.size)
    (stored : ∀ i < node.size, s'.virtByte ((buffer + i) % 2 ^ 32) = some (node.file i))
    : Ready s' buffer node.size node.file := by
  have untouched : Untouched s s' s.curPageDir := wrote.untouched clear.1 clear.2
  have inWord := h.inWord
  refine ⟨?_, inWord, fun i hi => ?_⟩
  · rw [wrote.current]
    exact untouched.live wrote.pmm h.live
  · obtain ⟨phys, found, marked, unused, -⟩ := h.block i hi
    have same : s'.translate (buffer + i) = some phys := by
      rw [clear.translate_eq wrote (by omega), found]
    have value := stored i hi
    rw [Nat.mod_eq_of_lt (by omega), virtByte, same, Option.map_some] at value
    refine ⟨phys, same, Option.some.inj value, ?_, ?_⟩
    · rw [wrote.pmm]
      exact marked
    · rw [wrote.current]
      exact fun used => unused ((untouched.usedBy_iff _).mp used)

/-- The frames behind the buffer are not used by the directory. -/
theorem Setting.clear (h : Setting s node buffer) : Clear s buffer node.size := by
  refine ⟨h.live.wellFormed.isFrame, fun phys reached => ?_⟩
  obtain ⟨i, hi, found⟩ := reached
  have inWord := h.inWord
  obtain ⟨phys', found', -, unused, -⟩ := h.block i hi
  rw [Nat.mod_eq_of_lt (by omega), found'] at found
  rwa [← Option.some.inj found]

/-- `vfs_read` stores the file in its buffer. -/
theorem Setting.meets_storeBytes {event : Event → Prop} {stopped : Paging → Prop}
    {returned : Unit → Paging → Prop} (h : Setting s node buffer) (below : buffer < 2 ^ 32)
    (hp : ∀ s', WroteRange s s' buffer node.size → event (.enters s'))
    (hr : ∀ s', WroteRange s s' buffer node.size → Ready s' buffer node.size node.file
      → returned () s')
    : (storeBytes buffer node.bytes).Meets s event stopped returned := by
  have inWord := h.inWord
  refine Elf.meets_storeBytes ?_ below ?_ ?_ ?_
  · rw [h.whole]
    exact h.clear
  · rw [h.whole]
    exact hp
  · rw [h.whole]
    intro i hi
    obtain ⟨phys, found, -, -, once⟩ := h.block i hi
    refine ⟨phys, by rw [Nat.mod_eq_of_lt (by omega), found], fun j hj foundJ => ?_⟩
    rw [Nat.mod_eq_of_lt (by omega)] at foundJ
    exact once j hj foundJ
  · intro s₁ wrote stored
    rw [h.whole] at wrote stored
    exact hr s₁ wrote (h.ready wrote h.clear stored)

/-- What fits depends on the frame bitmap and the mapped pages only. -/
theorem Fits.congr {segments : List Segment} (samePmm : s'.pmm = s.pmm)
    (current : s'.curPageDir = s.curPageDir)
    (mapped : ∀ q < 2 ^ 20, s'.Mapped s.curPageDir q ↔ s.Mapped s.curPageDir q)
    : Fits s' buffer segments ↔ Fits s buffer segments := by
  have readable (regions : List Nat) (virt : Nat)
      : Readable s' regions (virt % 2 ^ 32) ↔ Readable s regions (virt % 2 ^ 32) := by
    rw [Readable, Readable, current, mapped _ (by omega)]
  constructor
  · intro fits before seg after same
    obtain ⟨aligned, onePage, frames, reads⟩ := fits before seg after same
    exact ⟨aligned, onePage, samePmm ▸ frames, fun i hi => (readable _ _).mp (reads i hi)⟩
  · intro fits before seg after same
    obtain ⟨aligned, onePage, frames, reads⟩ := fits before seg after same
    exact ⟨aligned, onePage, samePmm ▸ frames, fun i hi => (readable _ _).mpr (reads i hi)⟩

/-- `elf_load` of an executable loads every segment, or stops because they do not all fit. The
header is read from the bytes stored, which stay as they are, and the loop keeps `Progress` from
one program header to the next.
-/
theorem meets_elfLoad {returned : Nat → Paging → Prop} (setting : Setting s node buffer)
    (executable : Executable s node.size node.file)
    (user : ∀ seg ∈ allLoads node.file, ¬ s.Present s.curPageDir seg.region)
    (hr : ∀ s₁ s' added, s₁.pmm = s.pmm
      → Progress s₁ s' buffer node.file (phTableEntryCount.of node.file 0) added
      → Fits s buffer (allLoads node.file)
      → returned (entry.of node.file 0) s')
    : (elfLoad (some node) buffer).Meets s (fun _ => True)
        (fun _ => ¬ Fits s buffer (allLoads node.file)) returned := by
  have inWord := setting.inWord
  have clear := setting.clear
  have header : headerSize ≤ node.size := executable.table.header
  rw [headerSize] at header
  refine .bind (setting.meets_storeBytes (by omega) (fun _ _ => trivial) ?_)
  intro s₁ wrote ready
  have untouched : Untouched s s₁ s.curPageDir := wrote.untouched clear.1 clear.2
  have fitsIff : Fits s₁ buffer (allLoads node.file) ↔ Fits s buffer (allLoads node.file) :=
    Fits.congr wrote.pmm wrote.current (fun q hq => untouched.mapped_iff hq)
  have presentIff {d : Nat} (hd : d < 1024)
      : s₁.Present s₁.curPageDir d ↔ s.Present s.curPageDir d := by
    rw [wrote.current]
    exact untouched.present_iff hd
  have region {seg : Segment} (member : seg ∈ allLoads node.file) : seg.region < 1024 := by
    have inWord := (executable.table.segments seg member).inWord
    obtain ⟨k, -, rfl⟩ := List.mem_map.mp member
    have small : (segmentOf node.file (headerAt node.file k)).vaddr < 2 ^ 32 :=
      number_lt (fun i => node.file_lt _) 4
    rw [Segment.region]
    omega
  have table : TableOk s₁ node.size node.file := by
    refine ⟨executable.table.header, executable.table.table, fun seg member => ?_⟩
    obtain ⟨sizes, inside, inWord, user⟩ := executable.table.segments seg member
    refine ⟨sizes, inside, inWord, fun virt covers present => user virt covers ?_⟩
    obtain ⟨-, below⟩ := covers
    exact (presentIff (by omega)).mp present
  have nonempty : ¬ node.bytes.length = 0 := by
    rw [setting.whole]
    omega
  rw [if_neg nonempty]
  -- Every field of the header is read from the buffer.
  have read (field : Field) {stopped : Paging → Prop} {returned₁ : Nat → Paging → Prop}
      (some : 0 < field.bytes) (inside : field.offset + field.bytes ≤ 52)
      (hr₁ : returned₁ (field.of node.file 0) s₁)
      : (field.read buffer).Meets s₁ (fun _ => True) stopped returned₁ :=
    ((Added.refl ready.live).holds ready).meets_read field some (by omega)
      (Nat.add_zero buffer).symm (fun _ _ => trivial) hr₁
  obtain ⟨m0, m1, m2, m3⟩ := executable.magic
  refine .bind (.bind (read magic0 (by decide) (by decide) ?_))
  refine .bind (read magic1 (by decide) (by decide) ?_)
  refine .bind (read magic2 (by decide) (by decide) ?_)
  refine .bind (read magic3 (by decide) (by decide) (Traced.meets_pure ?_))
  rw [if_neg (by simp [m0, m1, m2, m3])]
  refine .bind (.bind (read cl (by decide) (by decide) ?_))
  rw [if_neg (not_not_intro executable.class32)]
  refine .bind (read endianness (by decide) (by decide) ?_)
  rw [if_neg (not_not_intro executable.little)]
  refine .bind (read machine (by decide) (by decide) ?_)
  rw [if_neg (not_not_intro executable.i386)]
  refine .bind (read elfVersion (by decide) (by decide) ?_)
  rw [if_neg (not_not_intro executable.version)]
  refine .bind (read ehType (by decide) (by decide) ?_)
  rw [if_neg (not_not_intro executable.exec)]
  refine Traced.meets_pure ?_
  rw [if_neg (by decide)]
  refine .bind (read phOffset (by decide) (by decide) ?_)
  have count : phTableEntryCount.of node.file 0 < 2 ^ 16 :=
    number_lt (fun i => node.file_lt _) 2
  refine .bind (.mono (meets_loadSegments ready node.file_lt table
    (fun seg member present => user seg member ((presentIff (region member)).mp present))
    (Progress.start ready.live) (Nat.zero_le _) (by omega) (fun s' added progress => ?_))
    (fun _ event => event) (fun _ unfit fits => unfit (fitsIff.mpr fits))
    (fun _ _ result => result))
  refine (progress.placed.holds ready).meets_read entry (by decide) ?_
    (Nat.add_zero buffer).symm (fun _ _ => trivial) ?_
  · change 0 + 24 + 4 ≤ node.size
    omega
  · exact hr s₁ s' added wrote.pmm progress (fitsIff.mp progress.fits)

/-- The pages that overlap a segment of at most one page. -/
theorem SegmentLoaded.overlaps {s : Paging} {dir : Nat} {file : Nat → Nat} {seg : Segment}
    {a : Placed} (loaded : SegmentLoaded s dir file seg a) {page : Nat}
    (overlaps : seg.Overlaps page)
    : page = a.page := by
  obtain ⟨virt, ⟨above, below⟩, rfl⟩ := overlaps
  have aligned := loaded.aligned
  have small := loaded.small
  rw [loaded.page]
  omega

theorem Segment.Overlaps.nonempty {seg : Segment} {page : Nat} (overlaps : seg.Overlaps page)
    : seg.memSize ≠ 0 := by
  obtain ⟨virt, ⟨above, below⟩, -⟩ := overlaps
  omega

/-- If no segment with bytes is followed by one in its region, all segments lie in memory. A later
segment stores into frames of its own, so the bytes of the earlier ones are still there in the end.
-/
theorem Progress.image {file : Nat → Nat} {n : Nat} {s₁ : Paging} (samePmm : s₁.pmm = s.pmm)
    (progress : Progress s₁ s' buffer file n added)
    (alone : (loads file n).Pairwise
      (fun seg later => seg.memSize ≠ 0 → later.region ≠ seg.region))
    : Image s s' file (loads file n) := by
  have current := progress.placed.current
  have loaded {seg : Segment} (member : seg ∈ loads file n) (nonempty : seg.memSize ≠ 0)
      : ∃ a ∈ added, SegmentLoaded s' s₁.curPageDir file seg a := by
    obtain ⟨before, after, same⟩ := List.append_of_mem member
    refine progress.loaded before seg after same nonempty (fun later memberL => ?_)
    rw [same, List.pairwise_append] at alone
    exact (List.pairwise_cons.mp alone.2.1).1 later memberL nonempty
  have mapsTo {seg : Segment} {a : Placed} (member : a ∈ added)
      (here : SegmentLoaded s' s₁.curPageDir file seg a)
      : s'.MapsTo s'.curPageDir (4096 * a.page) a.frame segmentFlags := by
    obtain ⟨isFrame, -⟩ := progress.placed.frame a member
    rw [mapsTo_page, current, here.slot]
    refine ⟨here.mapped, ?_, newPte_and_flags _ _ _⟩
    rw [newPte_and_pgFrame isFrame.1 segmentFlags_low, Nat.zero_mul, Nat.add_zero,
      Nat.mod_eq_of_lt isFrame.2]
  refine ⟨?_, ?_, ?_⟩
  · intro seg member page overlaps
    obtain ⟨a, memberA, here⟩ := loaded member overlaps.nonempty
    obtain ⟨-, clear, -⟩ := progress.placed.frame a memberA
    rw [here.overlaps overlaps]
    refine ⟨a.frame, mapsTo memberA here, ?_, ?_⟩
    · rw [pde_page, current]
      exact progress.placed.carries a memberA
    · rwa [← samePmm]
  · intro seg member seg' member' page page' overlaps overlaps' same
    obtain ⟨a, memberA, here⟩ := loaded member overlaps.nonempty
    obtain ⟨a', memberA', here'⟩ := loaded member' overlaps'.nonempty
    rw [here.overlaps overlaps, here'.overlaps overlaps', (mapsTo memberA here).physical,
      (mapsTo memberA' here').physical] at same
    have equal : a = a' :=
      List.inj_on_of_nodup_map progress.placed.distinct memberA memberA' (Option.some.inj same)
    rw [here.overlaps overlaps, here'.overlaps overlaps', equal]
  · intro seg member i hi
    obtain ⟨a, memberA, here⟩ := loaded member (by omega)
    obtain ⟨isFrame, -⟩ := progress.placed.frame a memberA
    have inside : i < 4096 := Nat.lt_of_lt_of_le hi here.small
    have mapped := here.mapped
    have slot := here.slot
    rw [here.page, ← current] at mapped slot
    rw [virtByte, translate_placed here.aligned inside isFrame mapped slot, Option.map_some,
      here.bytes i hi]

/-- The condition of two segments that fit and have bytes but no address in common. -/
theorem alone_of_apart {segments : List Segment} (fits : Fits s buffer segments)
    (full : ∀ seg ∈ segments, seg.memSize ≠ 0)
    (apart : segments.Pairwise (fun seg seg' => ∀ virt, seg.Covers virt → ¬ seg'.Covers virt))
    : segments.Pairwise (fun seg later => seg.memSize ≠ 0 → later.region ≠ seg.region) := by
  have start {seg : Segment} (member : seg ∈ segments) : seg.vaddr % 2 ^ 22 = 0 := by
    obtain ⟨before, after, same⟩ := List.append_of_mem member
    exact ((fits before seg after same).onePage (full seg member)).1
  refine apart.imp_of_mem (fun {seg later} member memberL none nonempty same => ?_)
  have first := start member
  have second := start memberL
  have nonemptyL := full later memberL
  rw [Segment.region, Segment.region] at same
  have equal : later.vaddr = seg.vaddr := by omega
  exact none seg.vaddr ⟨Nat.le_refl _, by omega⟩ ⟨equal.le, by omega⟩

/-- `elf_load` loads an executable if each of its segments that has bytes is a single page at the
start of a region of 4 MiB, there are frames for them, and the bytes that are copied from behind
the segment's part of the file can be read. If no segment is empty, it loads no other executable.
The loads are followed segment by segment: the pages that were allocated stay mapped and the bytes
stored stay in place as long as regions are apart. In the other direction, a run that returns has
found a frame for each page and bytes for each copy.
-/
theorem elfLoad_loadsAll (setting : Setting s node buffer)
    (executable : Executable s node.size node.file)
    : (Loadable s buffer (allLoads node.file) → LoadsAll s node buffer)
      ∧ ((∀ seg ∈ allLoads node.file, seg.memSize ≠ 0) → LoadsAll s node buffer
        → Loadable s buffer (allLoads node.file)) := by
  constructor
  · intro loadable
    have run : (elfLoad (some node) buffer).Meets s (fun _ => True) (fun _ => False)
        (fun value s' => value = entry.of node.file 0
          ∧ Image s s' node.file (allLoads node.file)) := by
      refine .mono (meets_elfLoad setting executable loadable.user
        (fun s₁ s' added same progress _ => ⟨rfl, progress.image same loadable.alone⟩))
        (fun _ event => event) ?_ (fun _ _ result => result)
      exact fun _ unfit => unfit loadable.fits
    obtain ⟨value, ended, rfl, image⟩ := run.total
    exact ⟨ended, image⟩
  · intro full loaded
    have user : ∀ seg ∈ allLoads node.file, ¬ s.Present s.curPageDir seg.region := by
      intro seg member
      have nonempty := full seg member
      exact (executable.table.segments seg member).user seg.vaddr ⟨Nat.le_refl _, by omega⟩
    have run : (elfLoad (some node) buffer).Meets s (fun _ => True) (fun _ => ¬ Fits s buffer _)
        (fun _ _ => Fits s buffer (allLoads node.file)) :=
      meets_elfLoad setting executable user (fun _ _ _ _ _ fits => fits)
    have fits := run.returns _ loaded.1
    exact ⟨user, alone_of_apart fits full executable.apart, fits⟩

end

/-- A directory at `0x5000` that maps page 0 to the frame at `0x7000`, which is marked used. -/
def userImage : Paging :=
  { mappedImage with
    pmm := { mappedImage.pmm with framesBmp := fun i => if i = 0 then 0xE0 else 0 } }

/-- An executable with one segment, of four bytes in the file and eight in memory. -/
def oneSegment (vaddr : List UInt8) : FileNode where
  size := 88
  bytes :=
    [0x7F, 0x45, 0x4C, 0x46, 1, 1, 1, 0, 0, 0, 0, 0, 0, 0, 0, 0]
      ++ [2, 0, 3, 0, 1, 0, 0, 0, 0, 0, 0x40, 0, 52, 0, 0, 0, 0, 0, 0, 0, 0, 0, 0, 0]
      ++ [52, 0, 32, 0, 1, 0, 0, 0, 0, 0, 0, 0]
      ++ [1, 0, 0, 0, 84, 0, 0, 0] ++ vaddr
      ++ [0, 0, 0, 0, 4, 0, 0, 0, 8, 0, 0, 0, 7, 0, 0, 0, 0, 0x10, 0, 0]
      ++ [0x90, 0x90, 0xEB, 0xFE]

/-- A directory with a single table, for the first region, that maps page 0. The frames of the
directory, the table and the page are marked used.
-/
structure FirstTable (s : Paging) (page : Nat) : Prop where
  isFrame : IsFrame s.curPageDir
  absent : ∀ d < 1024, d ≠ 0 → ¬ s.Present s.curPageDir d
  apart : s.tableAt s.curPageDir 0 ≠ s.curPageDir
  mapped : s.Mapped s.curPageDir 0
  slot : s.slot s.curPageDir 0 &&& pgFrame = 4096 * page
  own : s.curPageDir ≠ 4096 * page ∧ s.tableAt s.curPageDir 0 ≠ 4096 * page
  marked : s.pmm.Marked (s.curPageDir / 4096) ∧ s.pmm.Marked (s.tableAt s.curPageDir 0 / 4096)
    ∧ s.pmm.Marked page
  scanned : s.pmm.scannedWords ≤ 2 ^ 15

section

variable {s : Paging} {page : Nat}

/-- The only entry that is present. -/
theorem FirstTable.first (h : FirstTable s page) {d : Nat} (hd : d < 1024)
    (present : s.Present s.curPageDir d)
    : d = 0 := by
  by_contra other
  exact h.absent d hd other present

/-- The bitmap marks the frames that the directory uses. -/
theorem FirstTable.live (h : FirstTable s page) : s.Live s.curPageDir := by
  obtain ⟨dir, table, -⟩ := h.marked
  refine ⟨⟨h.isFrame, ?_, ?_⟩, ?_, h.scanned⟩
  · intro d hd present
    obtain rfl := h.first hd present
    exact h.apart
  · intro d hd d' hd' present present' _
    rw [h.first hd present, h.first hd' present']
  · intro frame used
    rcases used with rfl | ⟨d, hd, present, rfl⟩
    · exact dir
    · obtain rfl := h.first hd present
      exact table

theorem FirstTable.translate (h : FirstTable s page) {virt : Nat} (low : virt < 4096)
    : s.translate virt = some (4096 * page + virt) := by
  have number : virt / 4096 = 0 := by omega
  have mapped : s.Mapped s.curPageDir (virt / 4096) := by
    rw [number]
    exact h.mapped
  rw [translate_of_mapped mapped, number, h.slot, Nat.mod_eq_of_lt low]

/-- A file fits behind `0x100`. -/
theorem FirstTable.setting (h : FirstTable s page) {node : FileNode} (size : node.size ≤ 0xF00)
    (whole : node.bytes.length = node.size)
    : Setting s node 0x100 := by
  refine ⟨h.live, whole, by omega, fun i hi => ?_⟩
  have frame : (4096 * page + (0x100 + i)) / 4096 = page := by omega
  refine ⟨_, h.translate (by omega), ?_, ?_, fun j hj found => ?_⟩
  · rw [frame]
    exact h.marked.2.2
  · rw [frameOf, frame, Nat.mul_comm]
    intro used
    rcases used with own | ⟨d, hd, present, same⟩
    · exact h.own.1 own.symm
    · obtain rfl := h.first hd present
      exact h.own.2 same
  · rw [h.translate (by omega)] at found
    have := Option.some.inj found
    omega

end

/-- The bitmap marks the frames of the image. -/
theorem userImage_firstTable : FirstTable userImage 7 := by
  refine ⟨⟨by decide, by decide⟩, fun d hd other => mappedImage_absent d hd other, by decide,
    by decide, by decide, by decide, ?_, by decide⟩
  simp only [Pmm.Marked]
  decide

/-- The executable's one segment, in a region without a table. -/
theorem oneSegment_ok {segment : Segment} {region : Nat} (sizes : segment.fileSize ≤ segment.memSize)
    (inside : segment.offset + segment.fileSize ≤ 88)
    (start : segment.vaddr / 2 ^ 22 = region)
    (stays : (segment.vaddr + segment.memSize) / 2 ^ 22 = region) (small : region < 1024)
    (user : region ≠ 0)
    : SegmentOk userImage 88 segment := by
  refine ⟨sizes, inside, by omega, fun virt covers => ?_⟩
  obtain ⟨above, below⟩ := covers
  have same : virt / 2 ^ 22 = region := by omega
  rw [same]
  exact mappedImage_absent region small user

/-- At `0x400000` the executable is loaded: the four bytes of the file and four zeros. -/
theorem elfLoad_oneSegment
    : Setting userImage (oneSegment [0, 0, 0x40, 0]) 0x100
      ∧ Executable userImage 88 (oneSegment [0, 0, 0x40, 0]).file
      ∧ LoadsAll userImage (oneSegment [0, 0, 0x40, 0]) 0x100 := by
  have segments : allLoads (oneSegment [0, 0, 0x40, 0]).file = [⟨84, 0x400000, 4, 8⟩] := by
    decide
  have setting : Setting userImage (oneSegment [0, 0, 0x40, 0]) 0x100 :=
    userImage_firstTable.setting (by decide) rfl
  have executable : Executable userImage 88 (oneSegment [0, 0, 0x40, 0]).file := by
    refine ⟨by decide, by decide, by decide, by decide, by decide, by decide, by decide,
      ⟨by decide, by decide, ?_⟩, ?_⟩
    · rw [segments]
      intro seg member
      rw [List.mem_singleton.mp member]
      exact oneSegment_ok (by decide) (by decide) rfl rfl (by decide) (by decide)
    · rw [segments]
      exact List.pairwise_singleton _ _
  have loadable : Loadable userImage 0x100 (allLoads (oneSegment [0, 0, 0x40, 0]).file) := by
    rw [segments]
    refine ⟨?_, List.pairwise_singleton _ _, ?_⟩
    · intro seg member
      rw [List.mem_singleton.mp member]
      exact mappedImage_absent 1 (by decide) (by decide)
    · intro before seg after same
      obtain ⟨rfl, rfl, -⟩ | ⟨after', none, -⟩ := append_singleton_eq_append_cons (l := []) same
      · refine ⟨by decide, fun _ => by decide, ?_, fun i hi => .inl ?_⟩
        · decide +kernel
        · have low : i < 8 := hi
          have page : (0x100 + 84 + i) % 2 ^ 32 / 4096 = 0 := by omega
          rw [page]
          decide
      · exact absurd none (by simp)
  exact ⟨setting, executable, (elfLoad_loadsAll setting executable).1 loadable⟩

/-- At `0x8048000`, which does not begin a region, it is not. -/
theorem elfLoad_not_loadsAll
    : Setting userImage (oneSegment [0, 0x80, 4, 8]) 0x100
      ∧ Executable userImage 88 (oneSegment [0, 0x80, 4, 8]).file
      ∧ ¬ LoadsAll userImage (oneSegment [0, 0x80, 4, 8]) 0x100 := by
  have segments : allLoads (oneSegment [0, 0x80, 4, 8]).file = [⟨84, 0x8048000, 4, 8⟩] := by
    decide
  have setting : Setting userImage (oneSegment [0, 0x80, 4, 8]) 0x100 :=
    userImage_firstTable.setting (by decide) rfl
  have executable : Executable userImage 88 (oneSegment [0, 0x80, 4, 8]).file := by
    refine ⟨by decide, by decide, by decide, by decide, by decide, by decide, by decide,
      ⟨by decide, by decide, ?_⟩, ?_⟩
    · rw [segments]
      intro seg member
      rw [List.mem_singleton.mp member]
      exact oneSegment_ok (by decide) (by decide) rfl rfl (by decide) (by decide)
    · rw [segments]
      exact List.pairwise_singleton _ _
  refine ⟨setting, executable, fun loaded => ?_⟩
  have user : ∀ seg ∈ allLoads (oneSegment [0, 0x80, 4, 8]).file,
      ¬ userImage.Present userImage.curPageDir seg.region := by
    rw [segments]
    intro seg member
    rw [List.mem_singleton.mp member]
    exact mappedImage_absent 32 (by decide) (by decide)
  have run : (elfLoad (some (oneSegment [0, 0x80, 4, 8])) 0x100).Meets userImage (fun _ => True)
      (fun _ => ¬ Fits userImage 0x100 _)
      (fun _ _ => Fits userImage 0x100 (allLoads (oneSegment [0, 0x80, 4, 8]).file)) :=
    meets_elfLoad setting executable user (fun _ _ _ _ _ fits => fits)
  have fits := run.returns _ loaded.1
  rw [segments] at fits
  exact absurd ((fits [] _ [] rfl).onePage (by decide)).1 (by decide)

end Hydrangea.Elf
