import Hydrangea.Mem.PagingAllocs

/-! What `pg_init` leaves: a directory of the kernel, all of whose frames are marked used, with
tables that let ring 3 reach no page. The mapping of the framebuffer runs over the end of its
table, into the frame behind, and this must not be the directory.
-/

namespace Hydrangea.Paging

variable {s s' : Paging} {dir base f t i d p phys num flags value : Nat}

-----------------------------------------------------------------------------------------
-- Tables for the supervisor
-----------------------------------------------------------------------------------------

def SameTables (s s' : Paging) (dir : Nat) : Prop :=
  ∀ d < 1024, (s'.Present dir d ↔ s.Present dir d) ∧ s'.tableAt dir d = s.tableAt dir d

/-- A directory with its frames marked used, none of whose pages ring 3 may access. No table lies
in the frame in front of it, nor will one, as that frame is marked.
-/
structure Supervisor (s : Paging) (dir : Nat) : Prop where
  live : s.Live dir
  entries : ∀ d < 1024, s.Present dir d → ∀ t < 1024, s.word (s.tableAt dir d) t &&& pgUser = 0
  front : s.pmm.Marked ((dir + 0xFFFFF000) % 2 ^ 32 / 4096)
  behind : ∀ d < 1024, s.Present dir d → (s.tableAt dir d + 4096) % 2 ^ 32 ≠ dir

theorem SameTables.trans {s'' : Paging} (h : SameTables s s' dir) (h' : SameTables s' s'' dir)
    : SameTables s s'' dir :=
  fun d hd => ⟨(h' d hd).1.trans (h d hd).1, (h' d hd).2.trans (h d hd).2⟩

/-- Entries that have not changed point to the same tables. -/
theorem sameTables_of_words (same : ∀ d < 1024, s'.word dir d = s.word dir d)
    : SameTables s s' dir := by
  intro d hd
  rw [Present, Present, tableAt, tableAt, same d hd]
  exact ⟨Iff.rfl, rfl⟩

/-- More flags in a present entry leave its table. -/
theorem sameTables_flags (isFrame : IsFrame dir) (hd : d < 1024) (present : s.Present dir d)
    (low : flags < 4096)
    : SameTables s (s.setWord dir d (s.word dir d ||| flags)) dir := by
  intro d' hd'
  rw [Present, tableAt, word_setWord isFrame hd hd']
  split
  next same =>
    subst same
    exact ⟨iff_of_true (or_flags_present flags present) present, or_flags_and_pgFrame _ low⟩
  next => exact ⟨Iff.rfl, rfl⟩

/-- Stores into tables keep `Supervisor` if the entries stored leave ring 3 out. -/
theorem Supervisor.of_entries (h : s.Supervisor dir) (same : SameTables s s' dir)
    (pmm : s'.pmm = s.pmm)
    (entries : ∀ d < 1024, s.Present dir d → ∀ t < 1024,
      s'.word (s.tableAt dir d) t &&& pgUser = 0)
    : s'.Supervisor dir := by
  have scanned := h.live.scanned
  have front := h.front
  rw [← pmm] at scanned front
  have keeps : Pmm.Keeps s.pmm s'.pmm := by
    rw [pmm]
    exact Pmm.Keeps.refl _
  refine ⟨(h.live.of_entries (fun d hd => (same d hd).1) (fun d hd => (same d hd).2) keeps
    scanned).1, fun d hd present => ?_, front, fun d hd present => ?_⟩
  · rw [(same d hd).2]
    exact entries d hd ((same d hd).1.mp present)
  · rw [(same d hd).2]
    exact h.behind d hd ((same d hd).1.mp present)

-----------------------------------------------------------------------------------------
-- One store
-----------------------------------------------------------------------------------------

/-- A store changes the word that lies there, by whatever frame it is counted. -/
theorem word_setWord_cases (s : Paging) (base i value f t : Nat)
    : (s.setWord base i value).word f t = s.word f t
      ∨ (s.setWord base i value).word f t = value ∧ s.word f t = s.word base i := by
  simp only [word, setWord, Function.update_apply]
  split
  next same => exact .inr ⟨rfl, by rw [same]⟩
  next => exact .inl rfl

/-- Two frames behind each other hold no word of a third one. -/
theorem not_hits_of_behind {table : Nat} (isTable : IsFrame table) (isFrame : IsFrame dir)
    (ne : table ≠ dir) (behind : (table + 4096) % 2 ^ 32 ≠ dir) (inside : i < 2048)
    : ¬ Hits table i dir := by
  obtain ⟨aligned, -⟩ := isFrame
  obtain ⟨aligned', small'⟩ := isTable
  rintro ⟨from', below⟩
  omega

/-- A store into a table, or the frame behind it, of an entry that leaves ring 3 out, or lets it in
no more than the entry that was there.
-/
theorem Supervisor.setWord (h : s.Supervisor dir) (hd : d < 1024) (present : s.Present dir d)
    (inside : i < 2048)
    (user : value &&& pgUser = 0 ∨ value &&& pgUser = s.word (s.tableAt dir d) i &&& pgUser)
    : (s.setWord (s.tableAt dir d) i value).Supervisor dir
      ∧ SameTables s (s.setWord (s.tableAt dir d) i value) dir := by
  have isFrame := h.live.wellFormed.isFrame
  have outside := not_hits_of_behind (isFrame_tableAt s dir d) isFrame
    (h.live.wellFormed.table_ne d hd present) (h.behind d hd present) inside
  have same : SameTables s (s.setWord (s.tableAt dir d) i value) dir :=
    sameTables_of_words (fun d' hd' => word_setWord_of_not_hits isFrame hd' outside)
  refine ⟨h.of_entries same rfl (fun d' hd' present' t ht => ?_), same⟩
  have old := h.entries d' hd' present' t ht
  rcases word_setWord_cases s (s.tableAt dir d) i value (s.tableAt dir d') t
    with kept | ⟨stored, here⟩
  · rw [kept]
    exact old
  · rw [stored]
    rcases user with none | before
    · exact none
    · rw [before, ← here]
      exact old

/-- Flags are stored into the entry of a table. -/
theorem Supervisor.setEntry (h : s.Supervisor dir) (hd : d < 1024) (present : s.Present dir d)
    (low : flags < 4096)
    : (s.setWord dir d (s.word dir d ||| flags)).Supervisor dir
      ∧ SameTables s (s.setWord dir d (s.word dir d ||| flags)) dir := by
  have isFrame := h.live.wellFormed.isFrame
  have same := sameTables_flags isFrame hd present low
  refine ⟨h.of_entries same rfl (fun d' hd' present' t ht => ?_), same⟩
  rw [word_setWord_of_ne isFrame (isFrame_tableAt s dir d')
    (h.live.wellFormed.table_ne d' hd' present') hd ht]
  exact h.entries d' hd' present' t ht

-----------------------------------------------------------------------------------------
-- Mapping pages
-----------------------------------------------------------------------------------------

/-- The entry of a page that is mapped without `PG_USER`. -/
theorem newPte_and_pgUser (aligned : phys % 4096 = 0) (user : flags &&& pgUser = 0) (i : Nat)
    : newPte phys flags i &&& pgUser = 0 := by
  have whole : (phys + i * pgSize) % 2 ^ 32 % 2 ^ 12 = 0 := by
    rw [pgSize]
    omega
  have frame : (phys + i * pgSize) % 2 ^ 32 &&& pgUser = 0 := by
    generalize (phys + i * pgSize) % 2 ^ 32 = x at whole
    have bit := congrArg (Nat.testBit · 2) whole
    by_contra set
    simp only [Nat.testBit_mod_two_pow, Nat.zero_testBit,
      (Pmm.and_shiftLeft_ne_zero x 2).mp set] at bit
    exact absurd bit (by decide)
  rw [newPte, Nat.and_or_distrib_right, Nat.and_or_distrib_right, frame, user]
  decide

/-- One round of the loop of `pg_map_pages`, also behind the end of the table. -/
theorem Supervisor.mapPage (h : s.Supervisor dir) (small : p < 2 ^ 20)
    (present : s.Present dir (p / 1024)) (low : flags < 4096) (user : flags &&& pgUser = 0)
    (aligned : phys % 4096 = 0) (inside : i < 2048)
    (round : mapPage dir (4096 * p) phys flags (s.tableAt dir (p / 1024)) s i = some s')
    : s'.Supervisor dir ∧ SameTables s s' dir := by
  have hd : p / 1024 < 1024 := by omega
  have new := newPte_and_pgUser aligned user i
  obtain ⟨mapped, -, stored⟩ := Option.bind_eq_some_iff.mp round
  cases mapped with
  | false =>
      rw [← Option.some.inj stored]
      exact h.setWord hd present inside (.inl new)
  | true =>
      have more : (s.word (s.tableAt dir (p / 1024)) i ||| flags) &&& pgUser
          = s.word (s.tableAt dir (p / 1024)) i &&& pgUser := by
        rw [Nat.and_or_distrib_right, user, Nat.or_zero]
      obtain ⟨h₁, same₁⟩ := h.setWord hd present inside (.inr more)
      obtain ⟨h₂, same₂⟩ := h₁.setEntry hd ((same₁ _ hd).1.mpr present) low
      have both := same₁.trans same₂
      have last := h₂.setWord hd ((both _ hd).1.mpr present) inside (.inl new)
      rw [(both _ hd).2] at last
      rw [dirIndex_page] at stored
      rw [← Option.some.inj stored]
      exact ⟨last.1, both.trans last.2⟩

/-- The loop, by induction on the pages. -/
theorem Supervisor.loop (h : s.Supervisor dir) (small : p < 2 ^ 20)
    (present : s.Present dir (p / 1024)) (low : flags < 4096) (user : flags &&& pgUser = 0)
    (aligned : phys % 4096 = 0) (few : num ≤ 2048)
    (looped : (List.range num).foldlM
      (Paging.mapPage dir (4096 * p) phys flags (s.tableAt dir (p / 1024))) s = some s')
    : s'.Supervisor dir ∧ SameTables s s' dir := by
  induction num generalizing s' with
  | zero =>
      obtain rfl := Option.some.inj looped
      exact ⟨h, fun _ _ => ⟨Iff.rfl, rfl⟩⟩
  | succ num ih =>
      have hd : p / 1024 < 1024 := by omega
      rw [List.range_succ, List.foldlM_append] at looped
      obtain ⟨before, loopedBefore, round⟩ := Option.bind_eq_some_iff.mp looped
      obtain ⟨h₁, same₁⟩ := ih (by omega) loopedBefore
      have last : Paging.mapPage dir (4096 * p) phys flags (s.tableAt dir (p / 1024)) before num
          = some s' := by simpa using round
      rw [← (same₁ _ hd).2] at last
      obtain ⟨h₂, same₂⟩ := h₁.mapPage small ((same₁ _ hd).1.mpr present) low user aligned few last
      exact ⟨h₂, same₁.trans same₂⟩

/-- A table is made where there is none: it is empty, and does not lie in the frame in front of the
directory, which is marked.
-/
theorem Supervisor.needTable (h : s.Supervisor dir) (small : p < 2 ^ 20) (low : flags < 4096)
    (needed : s.needTable dir (4096 * p) flags = some s')
    : s'.Supervisor dir ∧ s'.Present dir (p / 1024) := by
  have hd : p / 1024 < 1024 := by omega
  obtain ⟨table, -⟩ := hasTable_of_needTable h.live.wellFormed
    (fun frame pmm alloc => h.live.fresh frame pmm alloc) low small needed
  refine ⟨?_, table.present⟩
  rw [Paging.needTable, pgTblExists_page, Option.bind_eq_bind, Option.bind_some,
    dirIndex_page] at needed
  by_cases present : s.Present dir (p / 1024)
  · obtain rfl : s = s' := by simpa [present] using needed
    exact h
  · have made : s.pgMkPgtbl dir (p / 1024) flags = some s' := by
      simpa [present] using needed
    obtain ⟨grows, elsewhere, -, -⟩ := h.live.pgMkPgtbl low small present made
    have old {d : Nat} (hd : d < 1024) (other : d ≠ p / 1024) (presentD : s'.Present dir d)
        : s.Present dir d ∧ s'.tableAt dir d = s.tableAt dir d := by
      rw [Present, elsewhere d hd other] at presentD
      rw [tableAt, elsewhere d hd other]
      exact ⟨presentD, rfl⟩
    refine ⟨grows.live, fun d hd presentD t ht => ?_, grows.keeps _ h.front,
      fun d hd presentD same => ?_⟩
    · rcases eq_or_ne d (p / 1024) with rfl | other
      · rw [table.empty present t ht, Nat.zero_and]
      · obtain ⟨presentD, sameTable⟩ := old hd other presentD
        rw [sameTable, table.table d hd presentD t ht]
        exact h.entries d hd presentD t ht
    · rcases eq_or_ne d (p / 1024) with rfl | other
      · obtain ⟨-, below⟩ := isFrame_tableAt s' dir (p / 1024)
        have inFront : (dir + 0xFFFFF000) % 2 ^ 32 = s'.tableAt dir (p / 1024) := by omega
        have front := h.front
        rw [inFront] at front
        rcases grows.uses _ (.inr ⟨_, hd, presentD, rfl⟩) with own | new
        · rcases own with here | ⟨d', hd', present', here⟩
          · exact grows.live.wellFormed.table_ne _ hd presentD here
          · rw [← here] at same
            exact h.behind d' hd' present' same
        · exact new front
      · obtain ⟨presentD, sameTable⟩ := old hd other presentD
        rw [sameTable] at same
        exact h.behind d hd presentD same

/-- `pg_map_pages` without `PG_USER` for at most two tables of pages. -/
theorem Supervisor.pgMapPages (h : s.Supervisor dir) (small : p < 2 ^ 20) (low : flags < 4096)
    (user : flags &&& pgUser = 0) (few : num ≤ 2048)
    (returned : s.pgMapPages dir (4096 * p) phys num flags = some s')
    : s'.Supervisor dir := by
  rw [Paging.pgMapPages] at returned
  obtain ⟨-, returned⟩ := Option.ite_none_left_eq_some.mp returned
  obtain ⟨aligned, returned⟩ := Option.ite_none_left_eq_some.mp returned
  obtain ⟨s₁, needed, looped⟩ := Option.bind_eq_some_iff.mp returned
  obtain ⟨h₁, present⟩ := h.needTable small low needed
  rw [dirIndex_page] at looped
  exact (h₁.loop small present low user (not_not.mp aligned) few looped).1

-----------------------------------------------------------------------------------------
-- The whole of `pg_init`
-----------------------------------------------------------------------------------------

/-- A machine on which `pg_init` may be called. Of the kernel image, the frame of `ker_page_dir` and
the one in front of it have to be marked used.
-/
structure Bootable (s : Paging) : Prop where
  isFrame : IsFrame s.kerPageDir
  marked : s.pmm.Marked (s.kerPageDir / 4096)
  front : s.pmm.Marked ((s.kerPageDir + 0xFFFFF000) % 2 ^ 32 / 4096)
  scanned : s.pmm.scannedWords ≤ 2 ^ 15

/-- The loop that fills `ker_page_dir` stores into one array. -/
theorem fillKerPageDir_eq (s : Paging)
    : s.fillKerPageDir = (List.range 1024).foldl (fun t i => t.setWord s.kerPageDir i pgRw) s := by
  have each (words : List Nat) (t : Paging) (same : t.kerPageDir = s.kerPageDir)
      : words.foldl (fun t i => t.setWord t.kerPageDir i pgRw) t
        = words.foldl (fun t i => t.setWord s.kerPageDir i pgRw) t := by
    induction words generalizing t with
    | nil => rfl
    | cons i words ih =>
        rw [List.foldl_cons, List.foldl_cons, same]
        exact ih _ same
  exact each _ s rfl

theorem Bootable.fillKerPageDir (h : s.Bootable)
    : s.fillKerPageDir.Supervisor s.kerPageDir := by
  have absent (d : Nat) (hd : d < 1024) : ¬ s.fillKerPageDir.Present s.kerPageDir d := by
    rw [Present, fillKerPageDir_eq, fill_word h.isFrame h.isFrame (Nat.le_refl _) hd,
      if_pos ⟨rfl, hd⟩]
    decide
  obtain ⟨isFrame, marked, front, scanned⟩ := h
  rw [← fillKerPageDir_pmm s] at marked front scanned
  refine ⟨⟨⟨isFrame, fun d hd present => absurd present (absent d hd),
      fun d hd _ _ present => absurd present (absent d hd)⟩, fun f used => ?_, scanned⟩,
    fun d hd present => absurd present (absent d hd), front,
    fun d hd present => absurd present (absent d hd)⟩
  rcases used with rfl | ⟨d, hd, present, -⟩
  · exact marked
  · exact absurd present (absent d hd)

theorem framebufferPage (mbi : MultibootInfo)
    : ∃ p < 2 ^ 20, mbi.framebufferAddr &&& 0xFFF00000 = 4096 * p := by
  obtain ⟨aligned, below⟩ :=
    Word.and_highMask_aligned (show 20 ≤ 32 by decide) mbi.framebufferAddr
  rw [show Word.highMask 20 32 = 0xFFF00000 by decide] at aligned below
  exact ⟨(mbi.framebufferAddr &&& 0xFFF00000) / 4096, by omega, by omega⟩

/-- What `pg_init` leaves: its three calls of `pg_map_pages` only add tables without `PG_USER` to
the empty directory, and the framebuffer overruns no directory.
-/
theorem Bootable.pgInit {node : Nat → FreeLl} {mbi : MultibootInfo} {vesa : Bool} {kmem : Kmem}
    (h : s.Bootable) (returned : s.pgInit node mbi vesa = some (s', kmem))
    : s'.Supervisor s'.kerPageDir := by
  obtain ⟨s₁, low, returned⟩ := Option.bind_eq_some_iff.mp returned
  obtain ⟨s₂, framebuffer, returned⟩ := Option.bind_eq_some_iff.mp returned
  obtain ⟨s₃, heap, returned⟩ := Option.bind_eq_some_iff.mp returned
  obtain ⟨rfl, -⟩ := Prod.mk.inj (Option.some.inj returned)
  have filled : s.fillKerPageDir.kerPageDir = s.kerPageDir := by
    rw [fillKerPageDir_eq]
    exact (sameDirs_foldl (fun t i => t.setWord s.kerPageDir i pgRw)
      (fun _ _ => sameDirs_setWord ..) _ s).1
  have user : pgRw &&& pgUser = 0 := by decide
  have start := h.fillKerPageDir
  rw [← filled] at start
  have afterLow : s₁.Supervisor s₁.kerPageDir := by
    rw [(sameDirs_pgMapPages low).1]
    exact start.pgMapPages (p := 0) (by decide) (by decide) user (by decide) low
  have afterFramebuffer : s₂.Supervisor s₂.kerPageDir := by
    rw [mapFramebuffer] at framebuffer
    split at framebuffer
    · obtain rfl := Option.some.inj framebuffer
      exact afterLow
    · obtain ⟨p, small, page⟩ := framebufferPage mbi
      have same := (sameDirs_pgMapPages framebuffer).1
      rw [page] at framebuffer
      rw [same]
      exact afterLow.pgMapPages small (by decide) user (by decide) framebuffer
  have same := (sameDirs_pgMapPages heap).1
  rw [show heapStart = 4096 * 0x800 by decide] at heap
  have afterHeap := afterFramebuffer.pgMapPages (by decide) (by decide) user (by decide) heap
  rw [← same] at afterHeap
  -- `heap_create` moves the placement pointer alone
  obtain ⟨⟨⟨isFrame, ne, inj⟩, marked, scanned⟩, entries, front, behind⟩ := afterHeap
  exact ⟨⟨⟨isFrame, ne, inj⟩, marked, scanned⟩, entries, front, behind⟩

end Hydrangea.Paging
