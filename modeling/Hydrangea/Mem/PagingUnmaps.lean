import Hydrangea.Mem.PagingMaps

/-! What `pg_unmap_pages` of `kernel/mem/paging.c` does to a page directory and to the frame
bitmap: it clears as many words as it is told, from the start of the table of the first page on,
and frees the last frame of the address space.
-/

namespace Hydrangea.Paging

variable {s s' : Paging} {dir p num tbl : Nat}

/-- Page `q` is one of `num` pages from `p` on. -/
def InRange (p num q : Nat) : Prop :=
  ∃ i < num, q = (p + i) % 2 ^ 20

def entryAt (s : Paging) (dir q : Nat) : Nat :=
  s.word (s.tableAt dir (q / 1024)) (q % 1024)

/-- Between two states exactly the pages of a range became unmapped, the other mapped pages keep
their entries, and exactly the bits of the frames that the pages were mapped to became clear.
-/
structure Unmaps (s s' : Paging) (dir p num : Nat) : Prop where
  mapped : ∀ q < 2 ^ 20, s'.Mapped dir q ↔ s.Mapped dir q ∧ ¬ InRange p num q
  kept : ∀ q < 2 ^ 20, s.Mapped dir q → ¬ InRange p num q
    → s'.word dir (q / 1024) = s.word dir (q / 1024) ∧ s'.entryAt dir q = s.entryAt dir q
  marked : ∀ f < 2 ^ 20, s'.pmm.Marked f ↔ s.pmm.Marked f
    ∧ ¬ ∃ q, InRange p num q ∧ s.Mapped dir q ∧ (s.entryAt dir q &&& pgFrame) / 4096 = f

/-- An address is that of one of `num` words from the start of a table on. -/
def Clears (tbl num a : Nat) : Prop :=
  ∃ i < num, a = (tbl + 4 * i) % 2 ^ 32

/-- The directory entry or the table entry of a page is one of the `num` words from the start of the
table of page `p` on.
-/
def Loses (s : Paging) (dir p num q : Nat) : Prop :=
  Clears (s.tableAt dir (p / 1024)) num ((dir + 4 * (q / 1024)) % 2 ^ 32)
    ∨ Clears (s.tableAt dir (p / 1024)) num ((s.tableAt dir (q / 1024) + 4 * (q % 1024)) % 2 ^ 32)

/-- Without a table for page `p` no page of the range is mapped. With one, the mapped pages that
have an entry among the first `num` words of it are those of the range, and the frame at the end of
the address space is the only marked frame that they are mapped to, if it is marked.
-/
def FitsTable (s : Paging) (dir p num : Nat) : Prop :=
  if s.Present dir (p / 1024) then
    (∀ q < 2 ^ 20, s.Mapped dir q → (s.Loses dir p num q ↔ InRange p num q))
      ∧ ∀ f < 2 ^ 20, s.pmm.Marked f → (0 < num ∧ f = 0xFFFFF
        ↔ ∃ q, InRange p num q ∧ s.Mapped dir q ∧ (s.entryAt dir q &&& pgFrame) / 4096 = f)
  else
    ∀ q, InRange p num q → ¬ s.Mapped dir q

-----------------------------------------------------------------------------------------
-- The loop
-----------------------------------------------------------------------------------------

/-- The frame mask leaves the last frame of the address space. -/
theorem or_pgFrame_frame (x : Nat) : (x ||| pgFrame) % 2 ^ 32 / 4096 = 0xFFFFF := by
  have value : (x ||| pgFrame) % 2 ^ 32 = x % 2 ^ 32 ||| pgFrame := by
    rw [Nat.or_mod_two_pow]
    rfl
  have large : pgFrame ≤ (x ||| pgFrame) % 2 ^ 32 := by
    rw [value]
    exact Nat.right_le_or
  have small : (x ||| pgFrame) % 2 ^ 32 < 2 ^ 32 := Nat.mod_lt _ (by decide)
  rw [pgFrame] at large small ⊢
  omega

theorem mem_setWord (s : Paging) (base i value a : Nat)
    : (s.setWord base i value).mem a = if a = (base + 4 * i) % 2 ^ 32 then value else s.mem a :=
  Function.update_apply ..

/-- Every round clears its word and frees the last frame. -/
theorem unmapPage_eq (tbl : Nat) (s : Paging) (i : Nat)
    : unmapPage tbl s i
      = { s with pmm := s.pmm.frameFree ((s.word tbl i ||| pgFrame) % 2 ^ 32) }.setWord tbl i 0 := by
  refine if_pos (fun zero => ?_)
  have bit : (s.word tbl i ||| pgPresent).testBit 0 = true := by
    rw [Nat.testBit_or, Bool.or_eq_true]
    exact .inr (by decide)
  rw [zero] at bit
  cases bit

/-- The words of a loop are cleared and no others, and only the last frame is freed, by induction
on the rounds.
-/
theorem unmapPages_words (tbl num : Nat) (s : Paging)
    : (∀ a, Clears tbl num a → ((List.range num).foldl (unmapPage tbl) s).mem a = 0)
      ∧ (∀ a, ¬ Clears tbl num a → ((List.range num).foldl (unmapPage tbl) s).mem a = s.mem a)
      ∧ ∀ f, ((List.range num).foldl (unmapPage tbl) s).pmm.Marked f
          ↔ s.pmm.Marked f ∧ ¬ (0 < num ∧ f = 0xFFFFF) := by
  induction num with
  | zero =>
      refine ⟨?_, fun a _ => rfl, fun f => ?_⟩
      · rintro a ⟨i, none, -⟩
        exact absurd none (Nat.not_lt_zero i)
      · exact (and_iff_left (fun both => Nat.lt_irrefl 0 both.1)).symm
  | succ num ih =>
      obtain ⟨cleared, kept, marked⟩ := ih
      rw [List.range_succ, List.foldl_append, List.foldl_cons, List.foldl_nil, unmapPage_eq]
      generalize (List.range num).foldl (unmapPage tbl) s = s₁ at cleared kept marked
      have earlier {a : Nat} (other : a ≠ (tbl + 4 * num) % 2 ^ 32)
          : Clears tbl (num + 1) a ↔ Clears tbl num a := by
        constructor
        · rintro ⟨i, before, same⟩
          refine ⟨i, Nat.lt_of_le_of_ne (Nat.le_of_lt_succ before) ?_, same⟩
          rintro rfl
          exact other same
        · rintro ⟨i, before, same⟩
          exact ⟨i, Nat.lt_succ_of_lt before, same⟩
      refine ⟨fun a clears => ?_, fun a spared => ?_, fun f => ?_⟩
      · rw [mem_setWord]
        split
        · rfl
        · next other => exact cleared a ((earlier other).mp clears)
      · have other : a ≠ (tbl + 4 * num) % 2 ^ 32 := fun same =>
          spared ⟨num, Nat.lt_succ_self num, same⟩
        rw [mem_setWord, if_neg other]
        exact kept a ((earlier other).not.mp spared)
      · have reset := Pmm.marked_frameBmpReset s₁.pmm ((s₁.word tbl num ||| pgFrame) % 2 ^ 32) f
        rw [or_pgFrame_frame, marked] at reset
        refine reset.trans ⟨?_, ?_⟩
        · rintro ⟨other, old, -⟩
          exact ⟨old, fun both => other both.2⟩
        · rintro ⟨old, other⟩
          have ne : f ≠ 0xFFFFF := fun same => other ⟨Nat.succ_pos num, same⟩
          exact ⟨ne, old, fun both => ne both.2⟩

theorem pgUnmapPages_page (s : Paging) (dir p num : Nat)
    : s.pgUnmapPages dir (4096 * p) num
      = some (if s.Present dir (p / 1024)
          then (List.range num).foldl (unmapPage (s.tableAt dir (p / 1024))) s else s) := by
  rw [pgUnmapPages, pgTblExists_page, dirIndex_page]
  by_cases present : s.Present dir (p / 1024)
  · simp [present, tableAt]
  · simp [present]

-----------------------------------------------------------------------------------------
-- Pages and frames
-----------------------------------------------------------------------------------------

/-- The pages that stay mapped are those that lose no entry, and they keep both. -/
theorem unmapPages_mapped (s : Paging) (dir p num q : Nat)
    : let s' := (List.range num).foldl (unmapPage (s.tableAt dir (p / 1024))) s
      (s'.Mapped dir q ↔ s.Mapped dir q ∧ ¬ s.Loses dir p num q)
        ∧ (¬ s.Loses dir p num q
          → s'.word dir (q / 1024) = s.word dir (q / 1024) ∧ s'.entryAt dir q = s.entryAt dir q) := by
  intro s'
  obtain ⟨cleared, kept, -⟩ := unmapPages_words (s.tableAt dir (p / 1024)) num s
  by_cases first : Clears (s.tableAt dir (p / 1024)) num ((dir + 4 * (q / 1024)) % 2 ^ 32)
  · have absent : ¬ s'.Present dir (q / 1024) := by
      rw [Present, word, cleared _ first]
      decide
    refine ⟨iff_of_false (fun mapped => absurd mapped.1 absent) ?_, fun spared => ?_⟩
    · exact fun both => both.2 (.inl first)
    · exact absurd (.inl first) spared
  · have entry : s'.word dir (q / 1024) = s.word dir (q / 1024) := kept _ first
    have table : s'.tableAt dir (q / 1024) = s.tableAt dir (q / 1024) := by
      rw [tableAt, entry, tableAt]
    by_cases second : Clears (s.tableAt dir (p / 1024)) num
        ((s.tableAt dir (q / 1024) + 4 * (q % 1024)) % 2 ^ 32)
    · refine ⟨iff_of_false (fun mapped => ?_) (fun both => both.2 (.inr second)), fun spared => ?_⟩
      · have present := mapped.2
        rw [table, word, cleared _ second] at present
        exact present (by decide)
      · exact absurd (.inr second) spared
    · have same : s'.entryAt dir q = s.entryAt dir q := by
        rw [entryAt, table]
        exact kept _ second
      have spared : ¬ s.Loses dir p num q := not_or.mpr ⟨first, second⟩
      refine ⟨?_, fun _ => ⟨entry, same⟩⟩
      rw [and_iff_left spared]
      change s'.word dir (q / 1024) &&& pgPresent ≠ 0 ∧ s'.entryAt dir q &&& pgPresent ≠ 0 ↔ _
      rw [entry, same]
      rfl

/-- `pg_unmap_pages` unmaps the pages of a range and frees their frames if and only if they fit the
table. The loop clears the first entries of one table, whatever the first page is, and with `|` in
place of `&` it frees the same last frame each time; what the range must be is read off from these
words.
-/
theorem pgUnmapPages_iff (s : Paging) (dir p num : Nat)
    : ∃ s', s.pgUnmapPages dir (4096 * p) num = some s'
        ∧ (s.Unmaps s' dir p num ↔ s.FitsTable dir p num) := by
  refine ⟨_, pgUnmapPages_page s dir p num, ?_⟩
  have page {q : Nat} (range : InRange p num q) : q < 2 ^ 20 := by
    obtain ⟨i, -, rfl⟩ := range
    exact Nat.mod_lt _ (by decide)
  by_cases present : s.Present dir (p / 1024)
  · rw [FitsTable, if_pos present, if_pos present]
    have marks := (unmapPages_words (s.tableAt dir (p / 1024)) num s).2.2
    constructor
    · intro unmaps
      refine ⟨fun q small mapped => ?_, fun f small set => ?_⟩
      · have both := (unmapPages_mapped s dir p num q).1.symm.trans (unmaps.mapped q small)
        rw [and_iff_right mapped, and_iff_right mapped] at both
        exact not_iff_not.mp both
      · have both := (marks f).symm.trans (unmaps.marked f small)
        rw [and_iff_right set, and_iff_right set] at both
        exact not_iff_not.mp both
    · rintro ⟨fits, last⟩
      refine ⟨fun q small => ?_, fun q small mapped outside => ?_, fun f small => ?_⟩
      · rw [(unmapPages_mapped s dir p num q).1]
        exact and_congr_right (fun mapped => (fits q small mapped).not)
      · exact (unmapPages_mapped s dir p num q).2 ((fits q small mapped).not.mpr outside)
      · rw [marks]
        exact and_congr_right (fun set => (last f small set).not)
  · rw [FitsTable, if_neg present, if_neg present]
    constructor
    · intro unmaps q range mapped
      exact ((unmaps.mapped q (page range)).mp mapped).2 range
    · intro none
      refine ⟨fun q _ => ?_, fun q _ _ _ => ⟨rfl, rfl⟩, fun f _ => ?_⟩
      · exact (and_iff_left_of_imp (fun mapped range => none q range mapped)).symm
      · refine (and_iff_left ?_).symm
        rintro ⟨q, range, mapped, -⟩
        exact none q range mapped

/-- In a page directory, for at most 1024 pages, the pages that lose an entry are the first ones of
the table.
-/
theorem WellFormed.loses_iff (h : s.WellFormed dir) {q : Nat} (few : num ≤ 1024) (small : p < 2 ^ 20)
    (small' : q < 2 ^ 20) (present : s.Present dir (p / 1024)) (mapped : s.Mapped dir q)
    : s.Loses dir p num q ↔ q / 1024 = p / 1024 ∧ q % 1024 < num := by
  have hd : p / 1024 < 1024 := by omega
  have hd' : q / 1024 < 1024 := by omega
  have ht : q % 1024 < 1024 := Nat.mod_lt _ (by decide)
  have isTable := isFrame_tableAt s dir (p / 1024)
  have isTable' := isFrame_tableAt s dir (q / 1024)
  have notDir : ¬ Clears (s.tableAt dir (p / 1024)) num ((dir + 4 * (q / 1024)) % 2 ^ 32) := by
    rintro ⟨i, before, same⟩
    have apart := h.table_ne _ hd present
    rw [h.isFrame.address hd', isTable.address (Nat.lt_of_lt_of_le before few)] at same
    have aligned := h.isFrame.1
    have aligned' := isTable.1
    omega
  rw [Loses, or_iff_right notDir, isTable'.address ht]
  constructor
  · rintro ⟨i, before, same⟩
    rw [isTable.address (Nat.lt_of_lt_of_le before few)] at same
    have aligned := isTable.1
    have aligned' := isTable'.1
    have sameTable : s.tableAt dir (q / 1024) = s.tableAt dir (p / 1024) := by omega
    refine ⟨h.table_inj _ hd' _ hd mapped.1 present sameTable, ?_⟩
    omega
  · rintro ⟨sameTable, before⟩
    refine ⟨q % 1024, before, ?_⟩
    rw [sameTable, isTable.address ht]

/-- A page directory at 0x5000 without tables, below five frames in use. -/
def emptyDirectory : Paging where
  pmm :=
    { placementAddr := 0x100000
      framesBmp := fun i => if i = 0 then 0x3F else 0
      memorySize := 0x100000 }
  mem _ := pgRw
  kerPageDir := 0x5000
  curPageDir := 0x5000

/-- After `pg_alloc` and `pg_free` the frame of the page is still marked. -/
theorem pgFree_not_unmaps
    : ∃ phys s s', emptyDirectory.pgAlloc 0 pgRw = some (phys, s) ∧ s.pgFree 0 = some s'
        ∧ ¬ emptyDirectory.pmm.Marked (phys / 4096) ∧ s'.pmm.Marked (phys / 4096)
        ∧ ¬ s.Unmaps s' 0x5000 0 1 := by
  have facts : ∃ r ∈ emptyDirectory.pgAlloc 0 pgRw, ∃ s' ∈ r.2.pgFree 0,
      emptyDirectory.pmm.frameBmpTest r.1 = 0 ∧ s'.pmm.frameBmpTest r.1 ≠ 0
        ∧ r.2.Mapped 0x5000 0 ∧ r.2.entryAt 0x5000 0 &&& pgFrame = r.1 ∧ r.1 < 2 ^ 32 := by
    decide +kernel
  obtain ⟨⟨phys, s⟩, allocated, s', freed, clear, set, mapped, frame, small⟩ := facts
  rw [Pmm.frameBmpTest_ne_zero] at set
  refine ⟨phys, s, s', allocated, freed, ?_, set, fun unmaps => ?_⟩
  · rw [← Pmm.frameBmpTest_ne_zero]
    exact not_not_intro clear
  · dsimp only at frame small
    have freedFrame := ((unmaps.marked (phys / 4096) (by omega)).mp set).2
    exact freedFrame ⟨0, ⟨0, Nat.one_pos, rfl⟩, mapped, by rw [frame]⟩

end Hydrangea.Paging
