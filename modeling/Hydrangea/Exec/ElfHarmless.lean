import Hydrangea.Exec.ElfSafety

/-! The files that `elf_load` handles safely are the harmless ones: what safe events say about the
segments, the checks of the header, and whole files.
-/

namespace Hydrangea.Elf

open Paging

variable {s s' s'' : Paging} {ker buffer size : Nat} {file : Nat → Nat} {added : List Placed}
  {event : Event → Prop}

-----------------------------------------------------------------------------------------
-- Segments
-----------------------------------------------------------------------------------------

/-- No state in which a region of the kernel has got one more page meets the condition. -/
def KeepsOut (s : Paging) (event : Event → Prop) : Prop :=
  ∀ s' s'' p phys, p < 2 ^ 20 → s.Present s.curPageDir (p / 1024)
    → s''.curPageDir = s.curPageDir → PageAdded s' s'' s.curPageDir p phys segmentFlags
    → ¬ event (.enters s'')

/-- A segment that was loaded safely so far is one that stays. -/
theorem stays_of_loadSegment {header : Nat} (ready : Ready s buffer size file)
    (h : Added s s' added) (low : ∀ i, file i < 256) (inside : header + phHeaderSize ≤ size)
    (starts : offset.of file header ≤ size) (confined : Confined event buffer size)
    (keepsOut : KeepsOut s event)
    (always : (loadSegment buffer (buffer + header)).Always s' event)
    : (segmentOf file header).vaddr % 4096 = 0 →
      if s.Present s.curPageDir (segmentOf file header).region then
        Owners.afterAllocs s.pmm (framesFor (added.map Placed.region) + 1) = none
      else
        Owners.afterAllocs s.pmm
            (framesFor (added.map Placed.region ++ [(segmentOf file header).region])) = none
          ∨ (segmentOf file header).offset + copied (segmentOf file header) ≤ size := by
  generalize same : segmentOf file header = seg
  have offsetEq : offset.of file header = seg.offset := congrArg Segment.offset same
  have vaddrEq : vaddr.of file header = seg.vaddr := congrArg Segment.vaddr same
  have memSizeEq : memSize.of file header = seg.memSize := congrArg Segment.memSize same
  have inWord : seg.vaddr < 2 ^ 32 := by
    rw [← vaddrEq]
    exact number_lt (fun i => low _) 4
  have behind := confined.behind
  have bufferEnd := ready.inWord
  rw [phHeaderSize] at inside
  have base : buffer + header = (buffer + header) % 2 ^ 32 := by omega
  have field (s₁ : Paging) (more : List Placed) (h₁ : Added s s₁ more) (field : Field)
      (nonempty : 0 < field.bytes) (fieldInside : field.offset + field.bytes ≤ 32)
      {f : Nat → Load Unit} (always₁ : (field.read (buffer + header) >>= f).Always s₁ event)
      : (f (field.of file header)).Always s₁ event :=
    (confined.field (h₁.holds ready) field nonempty (by omega) (by omega) base always₁).2.1
  have allocated := field s' added h vaddr (by decide) (by decide) always
  rw [vaddrEq] at allocated
  intro aligned
  split
  · next present =>
      by_contra some
      obtain ⟨phys, s₂, alloc⟩ := h.pgAlloc_kernel_returns inWord present aligned
        (Option.isSome_iff_ne_none.mpr some)
      obtain ⟨-, -, p, hp, region, new⟩ := h.pgAlloc_kernel inWord present alloc
      refine keepsOut s' s₂ p phys hp ?_ (new.current.trans h.current) new
        (event_of_pgAlloc alloc allocated.first).1
      rwa [region]
  · next absent =>
      rw [or_iff_not_imp_left]
      intro some
      obtain ⟨phys, s₂, alloc⟩ := h.pgAlloc_returns inWord absent aligned
        (Option.isSome_iff_ne_none.mpr some)
      obtain ⟨-, added', -⟩ := h.pgAlloc inWord absent alloc
      have placed : Placing s s₂ added seg phys := ⟨added', aligned, inWord, absent⟩
      obtain ⟨-, ended, state⟩ := event_of_pgAlloc alloc allocated.first
      have copies := allocated.next ended
      rw [state] at copies
      have copies₁ := field s₂ _ added' vaddr (by decide) (by decide) copies
      have copies₂ := field s₂ _ added' vaddr (by decide) (by decide) copies₁
      have copies₃ := field s₂ _ added' offset (by decide) (by decide) copies₂
      have copies₄ := field s₂ _ added' memSize (by decide) (by decide) copies₃
      rw [vaddrEq, offsetEq, memSizeEq] at copies₄
      have all := placed.region (i := 0) (Nat.le_of_eq (Nat.zero_add (written seg)))
      rw [offsetEq] at starts
      -- The first byte behind the file would be read.
      by_contra outside
      obtain ⟨less, le⟩ := (lt_copied_iff seg (size - seg.offset)).mp (by omega)
      have read := confined.memcpy (added'.holds ready) (added'.clear all.1 all.2) inWord
        (Nat.mod_lt _ (by decide)) (fun i hi => placed.mapped hi) copies₄.first less le
        (fun s₃ wrote => (added'.wroteRange all.1 all.2 wrote).holds ready)
      omega

/-- A segment whose round has been safe stays in front of those behind it, if these stay when it has
been loaded.
-/
theorem stays_cons_of_loadSegment {header : Nat} {rest : List Segment} {f : Unit → Load Unit}
    (ready : Ready s buffer size file) (low : ∀ i, file i < 256) (h : Added s s' added)
    (inside : header + phHeaderSize ≤ size) (starts : offset.of file header ≤ size)
    (confined : Confined event buffer size) (keepsOut : KeepsOut s event)
    (always : (loadSegment buffer (buffer + header) >>= f).Always s' event)
    (later : ∀ s'' phys, Placing s s'' added (segmentOf file header) phys
      → (f ()).Always s'' event
      → Stays s size (added.map Placed.region ++ [(segmentOf file header).region]) rest)
    : Stays s size (added.map Placed.region) (segmentOf file header :: rest) := by
  have here := stays_of_loadSegment ready h low inside starts confined keepsOut always.first
  intro aligned
  have placed := here aligned
  split at placed
  · next present => rwa [if_pos present]
  · next absent =>
      rw [if_neg absent, or_iff_not_imp_left]
      intro frames
      refine ⟨placed.resolve_left frames, fun completes => ?_⟩
      have run : (loadSegment buffer (buffer + header)).Meets s' (fun _ => True) (fun _ => False)
          (fun _ s'' => ∃ phys, Placing s s'' added (segmentOf file header) phys) :=
        .mono (meets_loadSegment_safe ready h low inside (fun _ _ => trivial)
            (fun _ _ _ => trivial) here (fun s'' phys _ placing => ⟨phys, placing⟩))
          (fun _ event => event) (fun _ stops => stops ⟨aligned, frames, absent, completes⟩)
          (fun _ _ result => result)
      obtain ⟨_, ended, phys, placing⟩ := run.total
      exact later _ phys placing (always.next ended)

/-- The segments left stay if the loop has been safe, by induction on the rounds left. A segment
that does not stay would make one of the steps unsafe, by the same lemma for a single one.
-/
theorem stays_of_loadSegments {fuel n : Nat} {rest : List Segment}
    (ready : Ready s buffer size file) (low : ∀ i, file i < 256) (fits : FitsInFile size file)
    (confined : Confined event buffer size) (keepsOut : KeepsOut s event) (h : Added s s' added)
    (regions : added.map Placed.region = (loads file n).map Segment.region)
    (le : n ≤ phTableEntryCount.of file 0) (enough : phTableEntryCount.of file 0 < n + fuel)
    (all : allLoads file = loads file n ++ rest)
    (always : (loadSegments buffer ((buffer + phOffset.of file 0) % 2 ^ 32) fuel n).Always s' event)
    : Stays s size ((loads file n).map Segment.region) rest := by
  induction fuel generalizing s' n added rest with
  | zero => omega
  | succ fuel ih =>
      have header : 52 ≤ size := fits.header
      have bufferEnd := ready.inWord
      have base : buffer = (buffer + 0) % 2 ^ 32 := by omega
      obtain ⟨-, counted, -⟩ := confined.field (h.holds ready) phTableEntryCount (by decide)
        (by decide) (by decide) base always
      split at counted
      · next more =>
          have inside := headerAt_inside fits.table more
          rw [headerAt_address bufferEnd inside] at counted
          have type {f : Nat → Load Unit}
              (always₁ : (phType.read (buffer + headerAt file n) >>= f).Always s' event)
              : (f (phType.of file (headerAt file n))).Always s' event := by
            rw [phHeaderSize] at inside
            have own : buffer + headerAt file n = (buffer + headerAt file n) % 2 ^ 32 := by omega
            refine (confined.field (h.holds ready) phType (by decide) (by decide) ?_ own
              always₁).2.1
            change headerAt file n + 0 < 2 ^ 32
            omega
          obtain ⟨skip, load⟩ := rest_succ more all
          have skipped (other : phType.of file (headerAt file n) ≠ phSegtypeLoad)
              (always₁ : (loadSegments buffer ((buffer + phOffset.of file 0) % 2 ^ 32) fuel
                (n + 1)).Always s' event)
              : Stays s size ((loads file n).map Segment.region) rest := by
            have same := loads_succ_skip other
            have later := ih h (by rw [same, regions]) more (by omega) (skip other) always₁
            rwa [same] at later
          have typed := type counted
          split at typed
          · next null =>
              refine skipped ?_ typed
              rw [null]
              decide
          · have typed' := type typed
            split at typed'
            · next isLoad =>
                obtain ⟨rest', rfl, all'⟩ := load isLoad
                have one := loads_succ_load isLoad
                have member : segmentOf file (headerAt file n) ∈ allLoads file := by
                  rw [all]
                  exact List.mem_append_right _ (List.mem_cons_self ..)
                have starts : offset.of file (headerAt file n) ≤ size :=
                  le_trans (Nat.le_add_right _ _) (fits.segments _ member)
                rw [← regions]
                refine stays_cons_of_loadSegment ready low h inside starts confined keepsOut typed'
                  (fun s'' phys placing always₁ => ?_)
                have later := ih placing.added
                  (by rw [regions_placed, regions, one, List.map_append, List.map_singleton])
                  more (by omega) all' always₁
                rwa [one, List.map_append, List.map_singleton, ← regions] at later
            · next other => exact skipped other typed'
      · next done =>
          obtain rfl : n = phTableEntryCount.of file 0 := by omega
          obtain rfl : rest = [] := List.append_right_eq_self.mp all.symm
          trivial

-----------------------------------------------------------------------------------------
-- Files that do not fit
-----------------------------------------------------------------------------------------

/-- No state that `pg_alloc` enters meets the condition. -/
def AddsNone (s : Paging) (event : Event → Prop) : Prop :=
  ∀ virt phys s', virt < 2 ^ 32 → s.pgAlloc virt segmentFlags = some (phys, s')
    → ¬ event (.enters s')

/-- The types of the program headers from `n` on lie in the file, and none is `PT_LOAD`. -/
def NoLoadsFrom (size : Nat) (file : Nat → Nat) (n : Nat) : Prop :=
  ∀ m, n ≤ m → m < phTableEntryCount.of file 0
    → position file m + 4 ≤ size ∧ phType.of file (position file m) ≠ phSegtypeLoad

/-- One program header more. -/
theorem NoLoadsFrom.cons {n : Nat} (here : position file n + 4 ≤ size)
    (other : phType.of file (position file n) ≠ phSegtypeLoad)
    (later : NoLoadsFrom size file (n + 1))
    : NoLoadsFrom size file n := by
  intro m le more
  rcases Nat.eq_or_lt_of_le le with rfl | less
  · exact ⟨here, other⟩
  · exact later m less more

/-- Where the loop looks for a program header. -/
theorem position_address (buffer : Nat) (file : Nat → Nat) (n : Nat)
    : ((buffer + phOffset.of file 0) % 2 ^ 32 + phHeaderSize * n) % 2 ^ 32
      = (buffer + position file n) % 2 ^ 32 := by
  rw [position, headerAt]
  omega

/-- A segment is not loaded without adding a page. -/
theorem not_loaded {header : Nat} (holds : Holds s buffer size file) (low : ∀ i, file i < 256)
    (confined : Confined event buffer size) (addsNone : AddsNone s event)
    (inside : header + 4 ≤ size)
    (always : (loadSegment buffer ((buffer + header) % 2 ^ 32)).Always s event)
    : (loadSegment buffer ((buffer + header) % 2 ^ 32) s).result ≠ some () := by
  intro ended
  have behind := confined.behind
  have bufferEnd := holds.inWord
  have small : header + vaddr.offset < 2 ^ 32 := by
    change header + 8 < 2 ^ 32
    omega
  obtain ⟨-, allocated, result, -⟩ :=
    confined.field holds vaddr (by decide) (by decide) small rfl always
  have inWord : vaddr.of file header < 2 ^ 32 := number_lt (fun i => low _) 4
  obtain ⟨_, returned⟩ := Traced.returned_of_bind (result.symm.trans ended)
  cases alloc : s.pgAlloc (vaddr.of file header) segmentFlags with
  | none =>
      have run : (pgAlloc (vaddr.of file header) segmentFlags).Meets s (fun _ => True)
          (fun _ => True) (fun _ _ => False) := by
        refine meets_pgAlloc (fun _ => trivial) (fun _ _ _ => trivial) (fun phys s'' alloc' => ?_)
        rw [alloc] at alloc'
        cases alloc'
      exact run.returns _ returned
  | some taken =>
      obtain ⟨phys, s₂⟩ := taken
      exact addsNone _ phys s₂ inWord alloc (event_of_pgAlloc alloc allocated.first).1

/-- If the loop returns without adding a page, there is nothing to load, by induction on the rounds
left.
-/
theorem noLoads_of_loadSegments {fuel n : Nat} (holds : Holds s buffer size file)
    (low : ∀ i, file i < 256) (nonempty : 0 < size) (confined : Confined event buffer size)
    (addsNone : AddsNone s event) (enough : phTableEntryCount.of file 0 < n + fuel)
    (le : n ≤ phTableEntryCount.of file 0)
    (always : (loadSegments buffer ((buffer + phOffset.of file 0) % 2 ^ 32) fuel n).Always s event)
    (ended : (loadSegments buffer ((buffer + phOffset.of file 0) % 2 ^ 32) fuel n s).result
      = some ())
    : 46 ≤ size ∧ NoLoadsFrom size file n := by
  induction fuel generalizing n with
  | zero => omega
  | succ fuel ih =>
      have bufferEnd := holds.inWord
      have base : buffer = (buffer + 0) % 2 ^ 32 := by omega
      obtain ⟨counts, counted, result, -⟩ := confined.field holds phTableEntryCount (by decide)
        (by decide) (by decide) base always
      replace counts : 46 ≤ size := by
        change 0 + 44 + 2 ≤ size at counts
        omega
      refine ⟨counts, ?_⟩
      replace result := ended.symm.trans result
      split at counted
      · next more =>
          rw [if_pos more] at result
          rw [position_address] at counted result
          have small : position file n + phType.offset < 2 ^ 32 := by
            rw [position]
            change headerAt file n % 2 ^ 32 + 0 < 2 ^ 32
            omega
          obtain ⟨inside, typed, result', -⟩ :=
            confined.field holds phType (by decide) (by decide) small rfl counted
          replace result' := result.trans result'
          have others (always₁ : (loadSegments buffer ((buffer + phOffset.of file 0) % 2 ^ 32) fuel
                (n + 1)).Always s event)
              (ended₁ : some () = (loadSegments buffer ((buffer + phOffset.of file 0) % 2 ^ 32) fuel
                (n + 1) s).result)
              (other : phType.of file (position file n) ≠ phSegtypeLoad)
              : NoLoadsFrom size file n :=
            .cons inside other (ih (by omega) more always₁ ended₁.symm).2
          split at typed
          · next null =>
              rw [if_pos null] at result'
              refine others typed result' ?_
              rw [null]
              decide
          · next notNull =>
              rw [if_neg notNull] at result'
              obtain ⟨-, typed', result'', -⟩ :=
                confined.field holds phType (by decide) (by decide) small rfl typed
              replace result'' := result'.trans result''
              split at typed'
              · next load =>
                  rw [if_pos load] at result''
                  obtain ⟨_, returned⟩ := Traced.returned_of_bind result''.symm
                  exact absurd returned
                    (not_loaded holds low confined addsNone inside typed'.first)
              · next other =>
                  rw [if_neg other] at result''
                  exact others typed' result'' other
      · next done =>
          intro m above below
          omega

/-- With nothing to load, the loop reads the types only, by induction on the rounds left. -/
theorem meets_loadSegments_noLoads {fuel n : Nat} {returned : Unit → Paging → Prop}
    (holds : Holds s buffer size file) (counts : 46 ≤ size)
    (reads : ∀ i < size, event (.reads (buffer + i))) (noLoads : NoLoadsFrom size file n)
    (enough : phTableEntryCount.of file 0 < n + fuel) (le : n ≤ phTableEntryCount.of file 0)
    (hr : returned () s)
    : (loadSegments buffer ((buffer + phOffset.of file 0) % 2 ^ 32) fuel n).Meets s event
        (fun _ => False) returned := by
  induction fuel generalizing n with
  | zero => omega
  | succ fuel ih =>
      have bufferEnd := holds.inWord
      refine .bind (holds.meets_read phTableEntryCount (by decide) ?_
        (Nat.add_zero buffer).symm reads ?_)
      · change 0 + 44 + 2 ≤ size
        omega
      split
      · next more =>
          obtain ⟨inside, other⟩ := noLoads n (Nat.le_refl n) more
          have address : ((buffer + phOffset.of file 0) % 2 ^ 32 + phHeaderSize * n) % 2 ^ 32
              = buffer + position file n := by
            rw [position_address]
            omega
          rw [address]
          have type {returned₁ : Nat → Paging → Prop}
              (hr₁ : returned₁ (phType.of file (position file n)) s)
              : (phType.read (buffer + position file n)).Meets s event
                  (fun _ => False) returned₁ :=
            holds.meets_read phType (by decide) inside rfl reads hr₁
          have rest := ih (fun m le => noLoads m (Nat.le_of_succ_le le)) (by omega) more
          refine .bind (type ?_)
          split
          · exact rest
          · refine .bind (type ?_)
            rw [if_neg other]
            exact rest
      · exact Traced.meets_pure hr

-----------------------------------------------------------------------------------------
-- The checks of the header
-----------------------------------------------------------------------------------------

/-- `elf_verify_magic` reads four bytes. -/
theorem meets_elfVerifyMagic {returned : Bool → Paging → Prop} (holds : Holds s buffer size file)
    (four : 4 ≤ size) (reads : ∀ i < size, event (.reads (buffer + i)))
    (hr : returned (decide (Magic file)) s)
    : (elfVerifyMagic buffer).Meets s event (fun _ => False) returned := by
  have read (field : Field) {returned₁ : Nat → Paging → Prop} (nonempty : 0 < field.bytes)
      (inside : field.offset + field.bytes ≤ 4) (hr₁ : returned₁ (field.of file 0) s)
      : (field.read buffer).Meets s event (fun _ => False) returned₁ :=
    holds.meets_read field nonempty (by omega) (Nat.add_zero buffer).symm reads hr₁
  refine .bind (read magic0 (by decide) (by decide) ?_)
  refine .bind (read magic1 (by decide) (by decide) ?_)
  refine .bind (read magic2 (by decide) (by decide) ?_)
  exact .bind (read magic3 (by decide) (by decide) (Traced.meets_pure hr))

/-- `elf_is_runnable` returns false for a file that it rejects in time. -/
theorem meets_elfIsRunnable_rejects {returned : Bool → Paging → Prop}
    (holds : Holds s buffer size file) (reads : ∀ i < size, event (.reads (buffer + i)))
    (unrunnable : Unrunnable size file) (hr : returned false s)
    : (elfIsRunnable buffer).Meets s event (fun _ => False) returned := by
  have read (field : Field) {returned₁ : Nat → Paging → Prop} (nonempty : 0 < field.bytes)
      (inside : field.offset + field.bytes ≤ size) (hr₁ : returned₁ (field.of file 0) s)
      : (field.read buffer).Meets s event (fun _ => False) returned₁ :=
    holds.meets_read field nonempty (by omega) (Nat.add_zero buffer).symm reads hr₁
  obtain ⟨five, failed⟩ := unrunnable
  refine .bind (read cl (by decide) five ?_)
  split
  · exact Traced.meets_pure hr
  · next passed =>
      obtain ⟨six, failed⟩ := failed.resolve_left passed
      refine .bind (read endianness (by decide) six ?_)
      split
      · exact Traced.meets_pure hr
      · next passed =>
          obtain ⟨twenty, failed⟩ := failed.resolve_left passed
          refine .bind (read machine (by decide) twenty ?_)
          split
          · exact Traced.meets_pure hr
          · next passed =>
              obtain ⟨more, failed⟩ := failed.resolve_left passed
              refine .bind (read elfVersion (by decide) more ?_)
              split
              · exact Traced.meets_pure hr
              · next passed =>
                  refine .bind (read ehType (by decide) (le_trans (by decide) more) ?_)
                  rw [if_pos (failed.resolve_left passed)]
                  exact Traced.meets_pure hr

/-- It returns true for a file that it accepts. -/
theorem meets_elfIsRunnable_accepts {returned : Bool → Paging → Prop}
    (holds : Holds s buffer size file) (reads : ∀ i < size, event (.reads (buffer + i)))
    (enough : 24 ≤ size) (runnable : Runnable file) (hr : returned true s)
    : (elfIsRunnable buffer).Meets s event (fun _ => False) returned := by
  have read (field : Field) {returned₁ : Nat → Paging → Prop} (nonempty : 0 < field.bytes)
      (inside : field.offset + field.bytes ≤ 24) (hr₁ : returned₁ (field.of file 0) s)
      : (field.read buffer).Meets s event (fun _ => False) returned₁ :=
    holds.meets_read field nonempty (by omega) (Nat.add_zero buffer).symm reads hr₁
  refine .bind (read cl (by decide) (by decide) ?_)
  rw [if_neg (not_not_intro runnable.class32)]
  refine .bind (read endianness (by decide) (by decide) ?_)
  rw [if_neg (not_not_intro runnable.little)]
  refine .bind (read machine (by decide) (by decide) ?_)
  rw [if_neg (not_not_intro runnable.i386)]
  refine .bind (read elfVersion (by decide) (by decide) ?_)
  rw [if_neg (not_not_intro runnable.version)]
  refine .bind (read ehType (by decide) (by decide) ?_)
  rw [if_neg (not_not_intro runnable.exec)]
  exact Traced.meets_pure hr

/-- A field of the header that was read safely lies in the file. -/
theorem Confined.headerField {α : Type} {f : Nat → Load α} (confined : Confined event buffer size)
    (holds : Holds s buffer size file) (nonempty : 0 < size) (field : Field)
    (some : 0 < field.bytes) (inside : field.offset + field.bytes ≤ 64)
    (always : (field.read buffer >>= f).Always s event)
    : field.offset + field.bytes ≤ size ∧ (f (field.of file 0)).Always s event
      ∧ ((field.read buffer >>= f) s).result = (f (field.of file 0) s).result := by
  have bufferEnd := holds.inWord
  have base : buffer = (buffer + 0) % 2 ^ 32 := by omega
  obtain ⟨fits, next, result, -⟩ :=
    confined.field holds field some (by omega) (by omega) base always
  exact ⟨by omega, next, result⟩

/-- If `elf_is_runnable` was safe, it has rejected the file in time or accepted it. -/
theorem Confined.elfIsRunnable (confined : Confined event buffer size)
    (holds : Holds s buffer size file) (nonempty : 0 < size)
    (always : (elfIsRunnable buffer).Always s event)
    : Unrunnable size file ∨ (24 ≤ size ∧ Runnable file) := by
  obtain ⟨five, always, -⟩ := confined.headerField holds nonempty cl (by decide) (by decide) always
  split at always
  · next failed => exact .inl ⟨five, .inl failed⟩
  next class32 =>
  obtain ⟨six, always, -⟩ :=
    confined.headerField holds nonempty endianness (by decide) (by decide) always
  split at always
  · next failed => exact .inl ⟨five, .inr ⟨six, .inl failed⟩⟩
  next little =>
  obtain ⟨twenty, always, -⟩ :=
    confined.headerField holds nonempty machine (by decide) (by decide) always
  split at always
  · next failed => exact .inl ⟨five, .inr ⟨six, .inr ⟨twenty, .inl failed⟩⟩⟩
  next i386 =>
  obtain ⟨more, always, -⟩ :=
    confined.headerField holds nonempty elfVersion (by decide) (by decide) always
  by_cases accepted : elfVersion.of file 0 = 1 ∧ ehType.of file 0 = 2
  · exact .inr ⟨more, not_not.mp class32, not_not.mp little, not_not.mp i386, accepted.1,
      accepted.2⟩
  · exact .inl ⟨five, .inr ⟨six, .inr ⟨twenty, .inr ⟨more, not_and_or.mp accepted⟩⟩⟩⟩

theorem meets_loadBuffer_rejected {returned : Nat → Paging → Prop}
    (holds : Holds s buffer size file) (reads : ∀ i < size, event (.reads (buffer + i)))
    (rejected : Rejected size file) (hr : returned 0 s)
    : (loadBuffer buffer).Meets s event (fun _ => False) returned := by
  obtain ⟨four, failed⟩ := rejected
  refine .bind (meets_elfVerifyMagic holds four reads ?_)
  split
  · exact Traced.meets_pure hr
  · next passed =>
      have magic : Magic file := of_decide_eq_true (eq_true_of_ne_false passed)
      refine .bind (meets_elfIsRunnable_rejects holds reads
        (failed.resolve_left (not_not_intro magic)) ?_)
      exact Traced.meets_pure hr

theorem meets_loadBuffer_accepted {stopped : Paging → Prop} {returned : Nat → Paging → Prop}
    (holds : Holds s buffer size file) (reads : ∀ i < size, event (.reads (buffer + i)))
    (enough : 24 ≤ size) (accepted : Accepted file)
    (loaded : (elfLoadSegments buffer).Meets s event stopped returned)
    : (loadBuffer buffer).Meets s event stopped returned := by
  refine .bind (.mono (meets_elfVerifyMagic holds (by omega) reads ?_)
    (fun _ event => event) (fun _ none => none.elim) (fun _ _ result => result))
  rw [decide_eq_true accepted.magic, if_neg (by decide)]
  refine .bind (.mono (meets_elfIsRunnable_accepts holds reads enough accepted.runnable ?_)
    (fun _ event => event) (fun _ none => none.elim) (fun _ _ result => result))
  rw [if_neg (by decide)]
  exact loaded

/-- If the checks were safe, they have rejected the file in time, or its segments were loaded. -/
theorem Confined.loadBuffer (confined : Confined event buffer size)
    (holds : Holds s buffer size file) (nonempty : 0 < size)
    (reads : ∀ i < size, event (.reads (buffer + i)))
    (always : (loadBuffer buffer).Always s event)
    : Rejected size file
      ∨ (Accepted file ∧ (elfLoadSegments buffer).Always s event
        ∧ (Elf.loadBuffer buffer s).result = (elfLoadSegments buffer s).result) := by
  obtain ⟨-, next₁, -⟩ :=
    confined.headerField holds nonempty magic0 (by decide) (by decide) always.first
  obtain ⟨-, next₂, -⟩ :=
    confined.headerField holds nonempty magic1 (by decide) (by decide) next₁
  obtain ⟨-, next₃, -⟩ :=
    confined.headerField holds nonempty magic2 (by decide) (by decide) next₂
  obtain ⟨four, -⟩ :=
    confined.headerField holds nonempty magic3 (by decide) (by decide) next₃
  replace four : 4 ≤ size := four
  by_cases magic : Magic file
  · have verified : (elfVerifyMagic buffer).Meets s event (fun _ => False)
        (fun valid s' => valid = true ∧ s' = s) :=
      meets_elfVerifyMagic holds four reads ⟨decide_eq_true magic, rfl⟩
    obtain ⟨_, ended, rfl, same⟩ := verified.total
    have checked := always.next ended
    rw [same, if_neg (by decide)] at checked
    rcases confined.elfIsRunnable holds nonempty checked.first with unrunnable | ⟨more, runnable⟩
    · exact .inl ⟨four, .inr unrunnable⟩
    · have ran : (Elf.elfIsRunnable buffer).Meets s event (fun _ => False)
          (fun valid s' => valid = true ∧ s' = s) :=
        meets_elfIsRunnable_accepts holds reads more runnable ⟨rfl, rfl⟩
      obtain ⟨_, ended', rfl, same'⟩ := ran.total
      have loaded := checked.next ended'
      rw [same', if_neg (by decide)] at loaded
      refine .inr ⟨⟨magic, runnable⟩, loaded, ?_⟩
      calc (Elf.loadBuffer buffer s).result
          = _ := (Traced.result_bind ended).1
        _ = _ := by rw [same, if_neg (by decide), (Traced.result_bind ended').1]
        _ = _ := by rw [same', if_neg (by decide)]
  · exact .inl ⟨four, .inl magic⟩

-----------------------------------------------------------------------------------------
-- Whole files
-----------------------------------------------------------------------------------------

/-- The count of program headers has 16 bits. -/
theorem count_lt (low : ∀ i, file i < 256) : phTableEntryCount.of file 0 < 2 ^ 16 :=
  number_lt (fun _ => low _) 2

/-- A file that fits is loaded safely if its segments stay. -/
theorem meets_elfLoadSegments_safe (ready : Ready s buffer size file) (low : ∀ i, file i < 256)
    (fits : FitsInFile size file) (reads : ∀ i < size, event (.reads (buffer + i)))
    (enters : ∀ s' more, Added s s' more → event (.enters s'))
    (stays : Stays s size [] (allLoads file))
    : (elfLoadSegments buffer).Meets s event (fun _ => True) (fun _ _ => True) := by
  have header : 52 ≤ size := fits.header
  have refl : Added s s [] := Added.refl ready.live
  have count := count_lt low
  refine .bind ((refl.holds ready).meets_read phOffset (by decide) ?_
    (Nat.add_zero buffer).symm reads ?_)
  · change 0 + 28 + 4 ≤ size
    omega
  refine .bind (meets_loadSegments_safe ready low fits reads enters refl rfl (Nat.zero_le _)
    (by omega) rfl stays (fun s' more added => ?_))
  refine (added.holds ready).meets_read entry (by decide) ?_ (Nat.add_zero buffer).symm reads
    trivial
  change 0 + 24 + 4 ≤ size
  omega

/-- If it has been loaded safely, its segments stay. -/
theorem stays_of_elfLoadSegments (ready : Ready s buffer size file) (low : ∀ i, file i < 256)
    (fits : FitsInFile size file) (confined : Confined event buffer size)
    (keepsOut : KeepsOut s event) (always : (elfLoadSegments buffer).Always s event)
    : Stays s size [] (allLoads file) := by
  have header : 52 ≤ size := fits.header
  have refl : Added s s [] := Added.refl ready.live
  have count := count_lt low
  obtain ⟨-, looped, -⟩ := confined.headerField (refl.holds ready) (by omega) phOffset (by decide)
    (by decide) always
  exact stays_of_loadSegments ready low fits confined keepsOut refl rfl (Nat.zero_le _) (by omega)
    rfl looped.first

/-- A file without segments is only read. -/
theorem meets_elfLoadSegments_noLoads (holds : Holds s buffer size file)
    (low : ∀ i, file i < 256) (reads : ∀ i < size, event (.reads (buffer + i)))
    (counts : 46 ≤ size) (noLoads : NoLoads size file)
    : (elfLoadSegments buffer).Meets s event (fun _ => False)
        (fun value _ => value = entry.of file 0) := by
  have count := count_lt low
  refine .bind (holds.meets_read phOffset (by decide) ?_ (Nat.add_zero buffer).symm reads ?_)
  · change 0 + 28 + 4 ≤ size
    omega
  refine .bind (meets_loadSegments_noLoads holds counts reads (fun n _ more => noLoads n more)
    (by omega) (Nat.zero_le _) ?_)
  refine holds.meets_read entry (by decide) ?_ (Nat.add_zero buffer).symm reads rfl
  change 0 + 24 + 4 ≤ size
  omega

/-- If 0 is returned without adding a page, nothing is to be loaded and the entry is 0. -/
theorem noLoads_of_elfLoadSegments (holds : Holds s buffer size file) (low : ∀ i, file i < 256)
    (nonempty : 0 < size) (confined : Confined event buffer size) (addsNone : AddsNone s event)
    (always : (elfLoadSegments buffer).Always s event)
    (ended : (elfLoadSegments buffer s).result = some 0)
    : 46 ≤ size ∧ NoLoads size file ∧ entry.of file 0 = 0 := by
  have bufferEnd := holds.inWord
  have count := count_lt low
  obtain ⟨-, looped, result⟩ :=
    confined.headerField holds nonempty phOffset (by decide) (by decide) always
  replace result := ended.symm.trans result
  obtain ⟨_, returned⟩ := Traced.returned_of_bind result.symm
  obtain ⟨counts, noLoads⟩ := noLoads_of_loadSegments holds low nonempty confined addsNone
    (by omega) (Nat.zero_le _) looped.first returned
  refine ⟨counts, fun n more => noLoads n (Nat.zero_le n) more, ?_⟩
  have run : (elfLoadSegments buffer).Meets s (fun _ => True) (fun _ => False)
      (fun value _ => value = entry.of file 0) :=
    meets_elfLoadSegments_noLoads holds low (fun _ _ => trivial) counts
      (fun n more => noLoads n (Nat.zero_le n) more)
  exact (run.returns 0 ended).symm

def Event.Safe (s : Paging) (ker buffer size : Nat) : Event → Prop
  | .reads virt => buffer ≤ virt ∧ virt < buffer + size
  | .enters s' => KernelKept s s' ker

/-- What may happen while a file that does not fit is rejected. -/
def Event.Quiet (s : Paging) (ker buffer size : Nat) : Event → Prop
  | .reads virt => buffer ≤ virt ∧ virt < buffer + size
  | .enters s' => KernelKept s s' ker ∧ MapsNoMore s s'

theorem safe_iff_always {node : FileNode}
    : Safe s ker node buffer
      ↔ (elfLoad (some node) buffer).Always s (Event.Safe s ker buffer node.size)
        ∧ (¬ FitsInFile node.size node.file
          → (elfLoad (some node) buffer s).result = some 0
            ∧ (elfLoad (some node) buffer).Always s (Event.Quiet s ker buffer node.size)) := by
  constructor
  · intro safe
    refine ⟨fun e member => ?_, fun unfit => ⟨(safe.rejects unfit).1, fun e member => ?_⟩⟩
    · cases e with
      | reads virt => exact safe.reads virt member
      | enters s' => exact safe.kernel s' member
    · cases e with
      | reads virt => exact safe.reads virt member
      | enters s' => exact ⟨safe.kernel s' member, (safe.rejects unfit).2 s' member⟩
  · intro h
    obtain ⟨always, rejects⟩ := h
    exact ⟨fun virt member => always _ member, fun s' member => always _ member,
      fun unfit => ⟨(rejects unfit).1, fun s' member => ((rejects unfit).2 _ member).2⟩⟩

/-- Staying depends on the frame bitmap and the tables only. -/
theorem stays_congr {segments : List Segment} {regions : List Nat} (samePmm : s'.pmm = s.pmm)
    (present : ∀ d < 1024, s'.Present s'.curPageDir d ↔ s.Present s.curPageDir d)
    (small : ∀ seg ∈ segments, seg.region < 1024)
    : Stays s' size regions segments ↔ Stays s size regions segments := by
  induction segments generalizing regions with
  | nil => exact Iff.rfl
  | cons seg rest ih =>
      obtain ⟨here, later⟩ := List.forall_mem_cons.mp small
      simp only [Stays, samePmm, present _ here, ih later]

theorem allLoads_region (low : ∀ i, file i < 256)
    : ∀ seg ∈ allLoads file, seg.region < 1024 := by
  intro seg member
  obtain ⟨k, -, rfl⟩ := List.mem_map.mp member
  have small : (segmentOf file (headerAt file k)).vaddr < 2 ^ 32 := number_lt (fun i => low _) 4
  rw [Segment.region]
  omega

section

variable {node : FileNode}

/-- Storing the file changes no page. -/
theorem Setting.untouched (setting : Setting s node buffer)
    (wrote : WroteRange s s' buffer node.size)
    : Untouched s s' s.curPageDir :=
  wrote.untouched setting.clear.1 setting.clear.2

/-- While the file is stored, everything is quiet. -/
theorem KernelClone.quiet_stored (clone : KernelClone s ker) (setting : Setting s node buffer)
    (wrote : WroteRange s s' buffer node.size)
    : KernelKept s s' ker ∧ MapsNoMore s s' := by
  have untouched := setting.untouched wrote
  refine ⟨clone.kept (.of_untouched untouched wrote.current), fun virt inWord aligned => ?_⟩
  rw [pgSize] at aligned
  obtain ⟨q, rfl⟩ : ∃ q, virt = 4096 * q := ⟨virt / 4096, by omega⟩
  rw [pgIsMapped_page, pgIsMapped_page, wrote.current]
  exact congrArg some (decide_eq_decide.mpr (untouched.mapped_iff (by omega)))

/-- Adding a page is safe for no region of the kernel. -/
theorem KernelClone.keepsOut (clone : KernelClone s ker) (setting : Setting s node buffer)
    (wrote : WroteRange s s' buffer node.size)
    : KeepsOut s' (Event.Safe s ker buffer node.size) := by
  intro s₂ s₃ p phys hp present current new
  rw [wrote.current] at present current new
  exact clone.not_kept hp (((setting.untouched wrote).present_iff (by omega)).mp present) current
    new

theorem KernelClone.addsNone (clone : KernelClone s ker) (setting : Setting s node buffer)
    (wrote : WroteRange s s' buffer node.size) (live : s'.Live s'.curPageDir)
    : AddsNone s' (Event.Quiet s ker buffer node.size) := by
  intro virt phys s₂ inWord alloc quiet
  obtain ⟨kept, none⟩ := quiet
  have untouched := setting.untouched wrote
  have hd : virt / 2 ^ 22 < 1024 := by omega
  by_cases present : s'.Present s'.curPageDir (virt / 2 ^ 22)
  · obtain ⟨-, -, p, hp, region, new⟩ := (Added.refl live).pgAlloc_kernel inWord present alloc
    rw [wrote.current] at present new
    refine clone.not_kept hp ?_ (new.current.trans wrote.current) new kept
    rw [region]
    exact (untouched.present_iff hd).mp present
  · obtain ⟨-, added, -⟩ := (Added.refl live).pgAlloc inWord present alloc
    have hq : 1024 * (virt / 2 ^ 22) < 2 ^ 20 := by omega
    have mapped : s₂.Mapped s₂.curPageDir (1024 * (virt / 2 ^ 22)) := by
      rw [added.current, added.mapped _ hq]
      refine .inr ⟨Nat.mul_mod_right _ _, _, List.mem_singleton_self _, ?_⟩
      change virt / 4096 / 1024 = _
      omega
    have same := none (4096 * (1024 * (virt / 2 ^ 22))) (by omega) (by simp [pgSize])
    rw [pgIsMapped_page, pgIsMapped_page, decide_eq_true mapped] at same
    have before : s.Mapped s.curPageDir (1024 * (virt / 2 ^ 22)) :=
      of_decide_eq_true (Option.some.inj same).symm
    refine present ?_
    rw [wrote.current, untouched.present_iff hd]
    have table := before.1
    rwa [Nat.mul_div_cancel_left _ (by decide)] at table

theorem Harmless.safe (setting : Setting s node buffer) (clone : KernelClone s ker)
    (harmless : Harmless s node.size node.file)
    : Safe s ker node buffer := by
  have low := node.file_lt
  have inWord := setting.inWord
  rcases Nat.eq_zero_or_pos node.size with empty | nonempty
  · have bytes : node.bytes = [] := List.length_eq_zero_iff.mp (setting.whole.trans empty)
    have ran : elfLoad (some node) buffer s = ⟨[], s, some 0⟩ := by
      rw [elfLoad, bytes]
      rfl
    have none {e : Event} (member : e ∈ (elfLoad (some node) buffer s).events) : False := by
      rw [ran] at member
      exact List.not_mem_nil member
    refine ⟨fun virt member => (none member).elim, fun s' member => (none member).elim,
      fun _ => ⟨by rw [ran], fun s' member => (none member).elim⟩⟩
  have stored : ¬ node.bytes.length = 0 := by
    rw [setting.whole]
    omega
  -- After the file was stored, its bytes are read and the header is checked.
  have whole {event : Event → Prop} {stopped : Paging → Prop} {returned : Nat → Paging → Prop}
      (enters : ∀ s₁, WroteRange s s₁ buffer node.size → event (.enters s₁))
      (next : ∀ s₁, WroteRange s s₁ buffer node.size → Ready s₁ buffer node.size node.file
        → (loadBuffer buffer).Meets s₁ event stopped returned)
      : (elfLoad (some node) buffer).Meets s event stopped returned := by
    refine .bind (setting.meets_storeBytes (by omega) enters (fun s₁ wrote ready => ?_))
    rw [if_neg stored]
    exact next s₁ wrote ready
  have inBlock (i : Nat) (hi : i < node.size)
      : buffer ≤ buffer + i ∧ buffer + i < buffer + node.size := by
    omega
  have quiet (s₁ : Paging) (wrote : WroteRange s s₁ buffer node.size) :=
    clone.quiet_stored setting wrote
  have rejects {event : Event → Prop}
      (enters : ∀ s₁, WroteRange s s₁ buffer node.size → event (.enters s₁))
      (reads : ∀ i < node.size, event (.reads (buffer + i)))
      (why : Rejected node.size node.file
        ∨ (Accepted node.file ∧ 46 ≤ node.size ∧ NoLoads node.size node.file
          ∧ entry.of node.file 0 = 0))
      : (elfLoad (some node) buffer).Meets s event (fun _ => False)
          (fun value _ => value = 0) := by
    refine whole enters (fun s₁ wrote ready => ?_)
    have holds := (Added.refl ready.live).holds ready
    rcases why with rejected | ⟨accepted, counts, noLoads, zero⟩
    · exact meets_loadBuffer_rejected holds reads rejected rfl
    · refine meets_loadBuffer_accepted holds reads (by omega) accepted ?_
      rw [← zero]
      exact meets_elfLoadSegments_noLoads holds low reads counts noLoads
  rw [safe_iff_always]
  rcases harmless with empty | rejected | ⟨accepted, fits, stays⟩ | ⟨accepted, -, counts, nothing⟩
  · omega
  · refine ⟨(rejects (fun s₁ wrote => (quiet s₁ wrote).1) inBlock (.inl rejected)).events,
      fun _ => ?_⟩
    have run : (elfLoad (some node) buffer).Meets s (Event.Quiet s ker buffer node.size)
        (fun _ => False) (fun value _ => value = 0) :=
      rejects quiet inBlock (.inl rejected)
    obtain ⟨_, ended, rfl⟩ := run.total
    exact ⟨ended, run.events⟩
  · refine ⟨?_, fun unfit => absurd fits unfit⟩
    have run : (elfLoad (some node) buffer).Meets s (Event.Safe s ker buffer node.size)
        (fun _ => True) (fun _ _ => True) := by
      refine whole (fun s₁ wrote => (quiet s₁ wrote).1) (fun s₁ wrote ready => ?_)
      have holds := (Added.refl ready.live).holds ready
      have untouched := setting.untouched wrote
      have header : 52 ≤ node.size := fits.header
      refine meets_loadBuffer_accepted holds inBlock (by omega) accepted ?_
      refine meets_elfLoadSegments_safe ready low fits inBlock (fun s₂ more added => ?_) ?_
      · refine clone.kept ((SamePages.of_untouched untouched wrote.current).trans ?_)
        exact added.samePages
      · refine (stays_congr wrote.pmm (fun d hd => ?_) (allLoads_region low)).mpr stays
        rw [wrote.current]
        exact untouched.present_iff hd
    exact run.events
  · refine ⟨(rejects (fun s₁ wrote => (quiet s₁ wrote).1) inBlock
      (.inr ⟨accepted, counts, nothing⟩)).events, fun _ => ?_⟩
    have run : (elfLoad (some node) buffer).Meets s (Event.Quiet s ker buffer node.size)
        (fun _ => False) (fun value _ => value = 0) :=
      rejects quiet inBlock (.inr ⟨accepted, counts, nothing⟩)
    obtain ⟨_, ended, rfl⟩ := run.total
    exact ⟨ended, run.events⟩

theorem Safe.harmless (setting : Setting s node buffer) (clone : KernelClone s ker)
    (behind : 64 ≤ buffer) (safe : Safe s ker node buffer)
    : Harmless s node.size node.file := by
  have low := node.file_lt
  have inWord := setting.inWord
  rcases Nat.eq_zero_or_pos node.size with empty | nonempty
  · exact .inl empty
  have stored : ¬ node.bytes.length = 0 := by
    rw [setting.whole]
    omega
  have storing : (storeBytes buffer node.bytes).Meets s (fun _ => True) (fun _ => False)
      (fun _ s₁ => WroteRange s s₁ buffer node.size ∧ Ready s₁ buffer node.size node.file) :=
    setting.meets_storeBytes (by omega) (fun _ _ => trivial)
      (fun s₁ wrote ready => ⟨wrote, ready⟩)
  obtain ⟨_, ended, wrote, ready⟩ := storing.total
  have rest {event : Event → Prop} (always : (elfLoad (some node) buffer).Always s event)
      : (loadBuffer buffer).Always (storeBytes buffer node.bytes s).state event := by
    have next := always.next ended
    rwa [if_neg stored] at next
  have result : (elfLoad (some node) buffer s).result
      = (loadBuffer buffer (storeBytes buffer node.bytes s).state).result := by
    refine (Traced.result_bind ended).1.trans ?_
    rw [if_neg stored]
  have inBlock (i : Nat) (hi : i < node.size)
      : buffer ≤ buffer + i ∧ buffer + i < buffer + node.size := by
    omega
  have holds := (Added.refl ready.live).holds ready
  obtain ⟨always, rejects⟩ := safe_iff_always.mp safe
  by_cases fits : FitsInFile node.size node.file
  · have confined : Confined (Event.Safe s ker buffer node.size) buffer node.size :=
      ⟨behind, fun _ inside => inside⟩
    rcases confined.loadBuffer holds nonempty inBlock (rest always)
      with rejected | ⟨accepted, loaded, -⟩
    · exact .inr (.inl rejected)
    · refine .inr (.inr (.inl ⟨accepted, fits, ?_⟩))
      refine (stays_congr wrote.pmm (fun d hd => ?_) (allLoads_region low)).mp
        (stays_of_elfLoadSegments ready low fits confined (clone.keepsOut setting wrote) loaded)
      rw [wrote.current]
      exact (setting.untouched wrote).present_iff hd
  · have confined : Confined (Event.Quiet s ker buffer node.size) buffer node.size :=
      ⟨behind, fun _ inside => inside⟩
    obtain ⟨zero, quiet⟩ := rejects fits
    rcases confined.loadBuffer holds nonempty inBlock (rest quiet)
      with rejected | ⟨accepted, loaded, same⟩
    · exact .inr (.inl rejected)
    · obtain ⟨counts, noLoads, entry⟩ := noLoads_of_elfLoadSegments holds low nonempty confined
        (clone.addsNone setting wrote ready.live) loaded (same.symm.trans (result.symm.trans zero))
      exact .inr (.inr (.inr ⟨accepted, fits, counts, noLoads, entry⟩))

/-- In a directory cloned from the kernel's, exactly the harmless files are handled safely. A
harmless file allocates and stores in user pages only. For the other direction, the first header
that is not harmless makes the loader read outside the buffer, or store through an entry of the
kernel.
-/
theorem elfLoad_safe_iff (setting : Setting s node buffer) (clone : KernelClone s ker)
    (behind : 64 ≤ buffer)
    : Safe s ker node buffer ↔ Harmless s node.size node.file :=
  ⟨fun safe => safe.harmless setting clone behind, fun harmless => harmless.safe setting clone⟩

end

/-- The kernel's directory at `0x5000` and its clone at `0x8000`, with tables at `0x6000` and
`0x9000` that map page 0 to the frame at `0x7000`. All these frames are marked used.
-/
def cloneImage : Paging :=
  { mappedImage with
    pmm := { mappedImage.pmm with framesBmp := fun i => if i = 0 then 0x3E0 else 0 }
    mem := fun addr =>
      if addr = 0x8000 then 0x9003 else if addr = 0x9000 then 0x7003 else mappedImage.mem addr
    curPageDir := 0x8000 }

/-- A word outside the first words of the directories and tables is an empty entry. -/
theorem cloneImage_word {frame i : Nat} (aligned : frame % 4096 = 0) (inWord : frame < 2 ^ 20)
    (hi : i < 1024) (other : i ≠ 0)
    : cloneImage.word frame i = pgRw := by
  have address : (frame + 4 * i) % 2 ^ 32 = frame + 4 * i := by omega
  rw [word, address]
  simp only [cloneImage, mappedImage]
  rw [if_neg (by omega), if_neg (by omega), if_neg (by omega), if_neg (by omega)]

theorem cloneImage_firstTable : FirstTable cloneImage 7 := by
  refine ⟨⟨by decide, by decide⟩, fun d hd other => ?_, by decide, by decide, by decide,
    by decide, ?_, by decide⟩
  · change ¬ cloneImage.word 0x8000 d &&& pgPresent ≠ 0
    rw [cloneImage_word (by decide) (by decide) hd other]
    decide
  · simp only [Pmm.Marked]
    decide

/-- Both directories map page 0 only. -/
theorem cloneImage_mapped {dir q : Nat} (dirs : dir = 0x5000 ∨ dir = 0x8000) (hq : q < 2 ^ 20)
    (mapped : cloneImage.Mapped dir q)
    : q = 0 := by
  have aligned : dir % 4096 = 0 ∧ dir < 2 ^ 20 := by omega
  have first : q / 1024 = 0 := by
    by_contra other
    have present := mapped.1
    rw [Present, cloneImage_word aligned.1 aligned.2 (by omega) other] at present
    exact absurd present (by decide)
  have table : cloneImage.tableAt dir 0 % 4096 = 0 ∧ cloneImage.tableAt dir 0 < 2 ^ 20 := by
    rcases dirs with rfl | rfl
    · decide
    · decide
  by_contra other
  have slot := mapped.2
  rw [first, cloneImage_word table.1 table.2 (by omega) (by omega)] at slot
  exact absurd slot (by decide)

/-- The current directory is a clone of the kernel's. -/
theorem cloneImage_clone : KernelClone cloneImage 0x5000 := by
  refine ⟨?_, ?_, ?_⟩
  · intro virt inWord aligned
    rw [pgSize] at aligned
    obtain ⟨q, rfl⟩ : ∃ q, virt = 4096 * q := ⟨virt / 4096, by omega⟩
    have hq : q < 2 ^ 20 := by omega
    simp only [pgIsMapped_page, Option.some.injEq, decide_eq_decide, decide_eq_true_eq]
    constructor
    · constructor
      · intro mapped
        obtain rfl := cloneImage_mapped (.inr rfl) hq mapped
        decide
      · intro mapped
        obtain rfl := cloneImage_mapped (.inl rfl) hq mapped
        decide
    · intro mapped
      obtain rfl := cloneImage_mapped (.inl rfl) hq mapped
      decide
  · intro d hd present
    obtain rfl := cloneImage_firstTable.first hd present
    decide
  · intro q hq mapped
    obtain rfl := cloneImage_mapped (.inl rfl) hq mapped
    decide

/-- Segments at `0x400000` lie in a region without a table. -/
theorem cloneImage_absent (offset fileSize memSize : Nat)
    : ¬ cloneImage.Present cloneImage.curPageDir
        (Segment.region ⟨offset, 0x400000, fileSize, memSize⟩) := by
  have region : Segment.region ⟨offset, 0x400000, fileSize, memSize⟩ = 1 := by
    simp [Segment.region]
  rw [region]
  exact cloneImage_firstTable.absent 1 (by decide) (by decide)

/-- An executable whose segment has as many bytes in memory as in the file. -/
def fullSegment : FileNode :=
  { oneSegment [0, 0, 0x40, 0] with bytes := (oneSegment [0, 0, 0x40, 0]).bytes.set 72 4 }

/-- It is loaded safely. -/
theorem elfLoad_safe_fullSegment
    : Setting cloneImage fullSegment 0x100
      ∧ KernelClone cloneImage 0x5000
      ∧ Safe cloneImage 0x5000 fullSegment 0x100 := by
  have segments : allLoads fullSegment.file = [⟨84, 0x400000, 4, 4⟩] := by
    decide
  have setting : Setting cloneImage fullSegment 0x100 :=
    cloneImage_firstTable.setting (by decide) rfl
  have accepted : Accepted fullSegment.file :=
    ⟨by decide, by decide, by decide, by decide, by decide, by decide⟩
  have fits : FitsInFile fullSegment.size fullSegment.file := by
    refine ⟨by decide, by decide, ?_⟩
    rw [segments]
    intro seg member
    rw [List.mem_singleton.mp member]
    decide
  have stays : Stays cloneImage fullSegment.size [] (allLoads fullSegment.file) := by
    rw [segments]
    intro _
    rw [if_neg (cloneImage_absent 84 4 4)]
    exact .inr ⟨by decide, fun _ => trivial⟩
  refine ⟨setting, cloneImage_clone, ?_⟩
  exact (elfLoad_safe_iff setting cloneImage_clone (by decide)).mpr
    (.inr (.inr (.inl ⟨accepted, fits, stays⟩)))

/-- Of a segment with four bytes more in memory than in the file, four bytes behind the file are
read.
-/
theorem elfLoad_not_safe
    : Setting cloneImage (oneSegment [0, 0, 0x40, 0]) 0x100
      ∧ KernelClone cloneImage 0x5000
      ∧ ¬ Safe cloneImage 0x5000 (oneSegment [0, 0, 0x40, 0]) 0x100 := by
  have segments : allLoads (oneSegment [0, 0, 0x40, 0]).file = [⟨84, 0x400000, 4, 8⟩] := by
    decide
  have setting : Setting cloneImage (oneSegment [0, 0, 0x40, 0]) 0x100 :=
    cloneImage_firstTable.setting (by decide) rfl
  have fits : FitsInFile 88 (oneSegment [0, 0, 0x40, 0]).file := by
    refine ⟨by decide, by decide, ?_⟩
    rw [segments]
    intro seg member
    rw [List.mem_singleton.mp member]
    decide
  refine ⟨setting, cloneImage_clone, fun safe => ?_⟩
  rcases safe.harmless setting cloneImage_clone (by decide)
    with empty | ⟨-, magic | ⟨-, failed⟩⟩ | ⟨-, -, stays⟩ | ⟨-, unfit, -⟩
  · exact absurd empty (by decide)
  · exact magic (by decide)
  · refine absurd failed ?_
    decide
  · rw [segments] at stays
    have region := stays (by decide)
    rw [if_neg (cloneImage_absent 84 4 8)] at region
    rcases region with none | ⟨inside, -⟩
    · have enough : (Owners.afterAllocs cloneImage.pmm (framesFor ([] ++ [1]))).isSome := by
        decide +kernel
      change Owners.afterAllocs cloneImage.pmm (framesFor ([] ++ [1])) = _ at none
      rw [none] at enough
      cases enough
    · exact absurd inside (by decide)
  · exact unfit fits

end Hydrangea.Elf
