import Hydrangea.Mem.Paging

/-! What `pg_map_pages` does to a page directory, and when that maps the range of pages it
is called for. Pages are counted by their numbers: the address of page `p` is `4096 * p`.
-/

namespace Hydrangea.Paging

/-- The directory entry `d` points to a table. -/
def Present (s : Paging) (dir d : Nat) : Prop :=
  s.word dir d &&& pgPresent ≠ 0

instance (s : Paging) (dir d : Nat) : Decidable (s.Present dir d) :=
  inferInstanceAs (Decidable (_ ≠ _))

/-- The table that the directory entry `d` points to. -/
def tableAt (s : Paging) (dir d : Nat) : Nat :=
  s.word dir d &&& pgFrame

/-- Page `p` is mapped: its directory entry and its table entry are present. -/
def Mapped (s : Paging) (dir p : Nat) : Prop :=
  s.Present dir (p / 1024)
    ∧ s.word (s.tableAt dir (p / 1024)) (p % 1024) &&& pgPresent ≠ 0

instance (s : Paging) (dir p : Nat) : Decidable (s.Mapped dir p) :=
  inferInstanceAs (Decidable (_ ∧ _ ≠ _))

theorem isFrame_tableAt (s : Paging) (dir d : Nat) : IsFrame (s.tableAt dir d) :=
  isFrame_and_pgFrame _

/-- A page directory: a frame, and its tables are frames of their own. -/
structure WellFormed (s : Paging) (dir : Nat) : Prop where
  isFrame : IsFrame dir
  table_ne : ∀ d < 1024, s.Present dir d → s.tableAt dir d ≠ dir
  table_inj : ∀ d < 1024, ∀ d' < 1024, s.Present dir d → s.Present dir d'
    → s.tableAt dir d = s.tableAt dir d' → d = d'

/-- A frame that neither the directory nor its tables use. -/
structure Fresh (s : Paging) (dir frame : Nat) : Prop where
  isFrame : IsFrame frame
  ne_dir : frame ≠ dir
  ne_table : ∀ d < 1024, s.Present dir d → s.tableAt dir d ≠ frame

theorem range_page (p i : Nat) : 4096 * p + i * pgSize = 4096 * (p + i) := by
  rw [pgSize]
  omega

/-- The directory entry of a page, by its number. -/
theorem pde_page (s : Paging) (dir p : Nat) : s.pde dir (4096 * p) = s.word dir (p / 1024) := by
  rw [pde, dirIndex_page]

/-- The table entry of a page, by its number. -/
theorem pte_page (s : Paging) (dir p : Nat)
    : s.pte dir (4096 * p) = s.word (s.tableAt dir (p / 1024)) (p % 1024) := by
  rw [pte, pde_page, tableIndex_page, tableAt]

theorem pgTblExists_page (s : Paging) (dir p : Nat)
    : s.pgTblExists dir (4096 * p) = some (decide (s.Present dir (p / 1024))) := by
  rw [pgTblExists, pde_page, if_neg (by omega)]
  rfl

theorem pgIsMapped_page (s : Paging) (dir p : Nat)
    : s.pgIsMapped dir (4096 * p) = some (decide (s.Mapped dir p)) := by
  rw [pgIsMapped, pgTblExists_page, pte_page, if_neg (by omega)]
  exact congrArg some (Bool.decide_and _ _).symm

theorem pgVirtToPhys_page (s : Paging) (dir p : Nat)
    : s.pgVirtToPhys dir (4096 * p)
      = some (s.word (s.tableAt dir (p / 1024)) (p % 1024) &&& pgFrame) := by
  simp [pgVirtToPhys, pte_page]

-----------------------------------------------------------------------------------------
-- The table of the first page
-----------------------------------------------------------------------------------------

/-- The state in which the loop of `pg_map_pages` starts: the first page has a table, new
and empty if it had none, and nothing else has changed.
-/
structure HasTable (s s' : Paging) (dir d flags : Nat) : Prop where
  wellFormed : s'.WellFormed dir
  present : s'.Present dir d
  entry : ∀ d' < 1024, d' ≠ d ∨ s.Present dir d → s'.word dir d' = s.word dir d'
  carries : ¬ s.Present dir d → s'.word dir d &&& flags = flags
  table : ∀ d' < 1024, s.Present dir d' → ∀ t < 1024,
    s'.word (s.tableAt dir d') t = s.word (s.tableAt dir d') t
  empty : ¬ s.Present dir d → ∀ t < 1024, s'.word (s'.tableAt dir d) t = 0

theorem HasTable.refl {s : Paging} {dir d flags : Nat} (h : s.WellFormed dir)
    (present : s.Present dir d)
    : HasTable s s dir d flags where
  wellFormed := h
  present := present
  entry _ _ _ := rfl
  carries absent := absurd present absent
  table _ _ _ _ _ := rfl
  empty absent := absurd present absent

/-- `pg_mk_pgtbl` stores the new entry into the directory and zeroes the new table. -/
theorem pgMkPgtbl_words {s s' : Paging} {dir d flags frame : Nat} {pmm : Pmm}
    (dirFrame : IsFrame dir) (hd : d < 1024)
    (alloc : s.pmm.frameAlloc = some (frame, pmm)) (newFrame : IsFrame frame)
    (ne : frame ≠ dir) (made : s.pgMkPgtbl dir d flags = some s')
    : (∀ d' < 1024,
        s'.word dir d' = if d' = d then frame ||| pgPresent ||| flags else s.word dir d')
      ∧ ∀ other, IsFrame other → other ≠ dir → ∀ t < 1024,
          s'.word other t = if other = frame then 0 else s.word other t := by
  obtain rfl : (({ s with pmm } : Paging).clearTable frame).setWord dir d
      (frame ||| pgPresent ||| flags) = s' := by
    simpa [pgMkPgtbl, alloc] using made
  constructor
  · intro d' hd'
    rw [word_setWord dirFrame hd hd', clearTable_word newFrame dirFrame hd', if_neg ne.symm]
    rfl
  · intro other hother neDir t ht
    rw [word_setWord_of_ne dirFrame hother neDir hd ht, clearTable_word newFrame hother ht]
    rfl

/-- `pg_mk_pgtbl` makes the table, in a frame that is not in use. The frame is none of the
directory's, so its zeros are the entries of the new table and of no other one.
-/
theorem HasTable.mk_pgtbl {s s' : Paging} {dir d flags frame : Nat} {pmm : Pmm}
    (h : s.WellFormed dir) (absent : ¬ s.Present dir d) (hd : d < 1024)
    (low : flags < 4096) (alloc : s.pmm.frameAlloc = some (frame, pmm))
    (fresh : s.Fresh dir frame) (made : s.pgMkPgtbl dir d flags = some s')
    : HasTable s s' dir d flags := by
  obtain ⟨dirWord, otherWord⟩ :=
    pgMkPgtbl_words h.isFrame hd alloc fresh.isFrame fresh.ne_dir made
  have newEntry : s'.word dir d = frame ||| pgPresent ||| flags :=
    (dirWord d hd).trans (if_pos rfl)
  have kept (d' : Nat) (hd' : d' < 1024) (ne : d' ≠ d) : s'.word dir d' = s.word dir d' :=
    (dirWord d' hd').trans (if_neg ne)
  have newTable : s'.tableAt dir d = frame := by
    rw [tableAt, newEntry, entry_and_pgFrame fresh.isFrame low]
  have keptTable {d' : Nat} (hd' : d' < 1024) (ne : d' ≠ d) (p : s'.Present dir d')
      : s.Present dir d' ∧ s'.tableAt dir d' = s.tableAt dir d' := by
    rw [Present, kept d' hd' ne] at p
    exact ⟨p, by rw [tableAt, kept d' hd' ne, tableAt]⟩
  have newOther {d' : Nat} (hd' : d' < 1024) (ne : d' ≠ d) (p : s'.Present dir d')
      : s'.tableAt dir d' ≠ s'.tableAt dir d := by
    obtain ⟨p, same⟩ := keptTable hd' ne p
    rw [same, newTable]
    exact fresh.ne_table d' hd' p
  refine ⟨⟨h.isFrame, fun d' hd' p => ?_, fun d₁ h₁ d₂ h₂ p₁ p₂ same => ?_⟩, ?_, ?_, ?_, ?_, ?_⟩
  · rcases eq_or_ne d' d with new | ne
    · rw [new, newTable]
      exact fresh.ne_dir
    · obtain ⟨p, same⟩ := keptTable hd' ne p
      rw [same]
      exact h.table_ne d' hd' p
  · rcases eq_or_ne d₁ d with new₁ | ne₁
    · rcases eq_or_ne d₂ d with new₂ | ne₂
      · rw [new₁, new₂]
      · rw [new₁] at same
        exact absurd same.symm (newOther h₂ ne₂ p₂)
    · rcases eq_or_ne d₂ d with new₂ | ne₂
      · rw [new₂] at same
        exact absurd same (newOther h₁ ne₁ p₁)
      · obtain ⟨p, same₁⟩ := keptTable h₁ ne₁ p₁
        obtain ⟨p', same₂⟩ := keptTable h₂ ne₂ p₂
        rw [same₁, same₂] at same
        exact h.table_inj d₁ h₁ d₂ h₂ p p' same
  · rw [Present, newEntry]
    exact entry_present frame flags
  · intro d' hd' old
    rcases old with ne | p
    · exact kept d' hd' ne
    · exact absurd p absent
  · intro _
    rw [newEntry]
    exact Word.or_and_self _ flags
  · intro d' hd' p t ht
    rw [otherWord _ (isFrame_tableAt s dir d') (h.table_ne d' hd' p) t ht,
      if_neg (fresh.ne_table d' hd' p)]
  · intro _ t ht
    rw [newTable, otherWord frame fresh.isFrame fresh.ne_dir t ht, if_pos rfl]

/-- The pages that were mapped before the table was made are those mapped after. -/
theorem HasTable.mapped_iff {s s' : Paging} {dir d flags p : Nat}
    (h : HasTable s s' dir d flags) (small : p < 2 ^ 20)
    : s'.Mapped dir p ↔ s.Mapped dir p := by
  have hd : p / 1024 < 1024 := by omega
  have ht : p % 1024 < 1024 := by omega
  by_cases kept : p / 1024 ≠ d ∨ s.Present dir d
  · have same := h.entry _ hd kept
    have sameTable : s'.tableAt dir (p / 1024) = s.tableAt dir (p / 1024) := by
      rw [tableAt, same, tableAt]
    simp only [Mapped, Present, same, sameTable]
    refine and_congr_right (fun present => ?_)
    rw [h.table _ hd present _ ht]
  · obtain ⟨rfl, absent⟩ : p / 1024 = d ∧ ¬ s.Present dir d := by
      simpa [not_or] using kept
    have empty := h.empty absent _ ht
    simp [Mapped, empty, absent]

/-- A mapped page keeps its entries when the table is made. -/
theorem HasTable.words_eq {s s' : Paging} {dir d flags p : Nat}
    (h : HasTable s s' dir d flags) (small : p < 2 ^ 20) (mapped : s.Mapped dir p)
    : s'.word dir (p / 1024) = s.word dir (p / 1024)
      ∧ s'.tableAt dir (p / 1024) = s.tableAt dir (p / 1024)
      ∧ s'.word (s.tableAt dir (p / 1024)) (p % 1024)
        = s.word (s.tableAt dir (p / 1024)) (p % 1024) := by
  have hd : p / 1024 < 1024 := by omega
  have ht : p % 1024 < 1024 := by omega
  have kept : p / 1024 ≠ d ∨ s.Present dir d := by
    rcases eq_or_ne (p / 1024) d with rfl | ne
    · exact Or.inr mapped.1
    · exact Or.inl ne
  have same := h.entry _ hd kept
  exact ⟨same, by rw [tableAt, same, tableAt], h.table _ hd mapped.1 _ ht⟩

-----------------------------------------------------------------------------------------
-- The loop
-----------------------------------------------------------------------------------------

/-- No store behind the table, for a range of more than 1024 pages, falls into a frame. -/
def Misses (tbl num frame : Nat) : Prop :=
  ∀ i, 1024 ≤ i → i < num → ¬ Hits tbl i frame

/-- What the first `j` rounds of the loop have stored, for a range that begins with page
`p`: its first `j` entries into the table of `p`, and the flags into the directory entry of
`p` once a page was found mapped.
-/
structure Stored (s s' : Paging) (dir p phys flags tbl j : Nat) : Prop where
  entry : ∀ d < 1024, s'.word dir d
    = if d = p / 1024 ∧ ∃ i < j, s.Mapped dir (p + i) then s.word dir d ||| flags
      else s.word dir d
  table : ∀ t < 1024, s'.word tbl t
    = if t < j then newPte phys flags t else s.word tbl t
  others : ∀ frame, IsFrame frame → frame ≠ dir → frame ≠ tbl → Misses tbl j frame
    → ∀ t < 1024, s'.word frame t = s.word frame t

/-- A table is not hit by the stores behind it, which stay below its next turn round the
address space.
-/
theorem not_hits_self {frame i : Nat} (h : IsFrame frame) (behind : 1024 ≤ i)
    (small : i < 2 ^ 20)
    : ¬ Hits frame i frame := by
  intro inside
  obtain ⟨-, inWord⟩ := h
  rw [Hits] at inside
  omega

/-- A store into a table, or behind it, changes one of its words at most. -/
theorem word_setWord_table {s : Paging} {tbl j t value : Nat} (h : IsFrame tbl)
    (small : j < 2 ^ 20) (ht : t < 1024)
    : (s.setWord tbl j value).word tbl t = if t = j then value else s.word tbl t := by
  rcases Nat.lt_or_ge j 1024 with inside | behind
  · exact word_setWord h inside ht
  · rw [word_setWord_of_not_hits h ht (not_hits_self h behind small), if_neg (by omega)]

/-- A store into a table, or behind it, leaves the frames it misses alone. -/
theorem word_setWord_other {s : Paging} {tbl frame j t value : Nat} (h : IsFrame tbl)
    (h' : IsFrame frame) (ne : frame ≠ tbl) (misses : Misses tbl (j + 1) frame)
    (ht : t < 1024)
    : (s.setWord tbl j value).word frame t = s.word frame t := by
  rcases Nat.lt_or_ge j 1024 with inside | behind
  · exact word_setWord_of_ne h h' ne inside ht
  · exact word_setWord_of_not_hits h' ht (misses j behind (Nat.lt_succ_self j))

/-- Fewer stores miss what more stores miss. -/
theorem Misses.mono {tbl num num' frame : Nat} (h : Misses tbl num frame) (le : num' ≤ num)
    : Misses tbl num' frame :=
  fun i behind small => h i behind (Nat.lt_of_lt_of_le small le)

section Loop

variable {s : Paging} {dir p phys flags num : Nat}

theorem Stored.zero (tbl : Nat) : Stored s s dir p phys flags tbl 0 where
  entry _ _ := by simp
  table _ _ := by simp
  others _ _ _ _ _ _ _ := rfl

/-- A present entry still points to the same table. -/
theorem Stored.tableAt_eq {s' : Paging} {tbl j : Nat} (h : Stored s s' dir p phys flags tbl j)
    (low : flags < 4096) {d : Nat} (hd : d < 1024)
    : s'.tableAt dir d = s.tableAt dir d := by
  rw [tableAt, h.entry d hd]
  split
  · exact or_flags_and_pgFrame _ low
  · rfl

/-- The loop makes no table and drops none. -/
theorem Stored.present_iff {s' : Paging} {tbl j : Nat}
    (h : Stored s s' dir p phys flags tbl j) (present : s.Present dir (p / 1024)) {d : Nat}
    (hd : d < 1024)
    : s'.Present dir d ↔ s.Present dir d := by
  rw [Present, h.entry d hd]
  split
  · next this =>
      rw [this.1]
      exact iff_of_true (or_flags_present flags present) present
  · rfl

/-- Entries of other tables than the first page's are as they were. -/
theorem Stored.word_other {s' : Paging} {j : Nat}
    (h : Stored s s' dir p phys flags (s.tableAt dir (p / 1024)) j) (hdir : s.WellFormed dir)
    (present : s.Present dir (p / 1024)) (hp : p / 1024 < 1024)
    (misses : ∀ d < 1024, s.Present dir d
      → Misses (s.tableAt dir (p / 1024)) j (s.tableAt dir d))
    {d t : Nat} (hd : d < 1024) (ht : t < 1024) (present' : s.Present dir d)
    (other : d ≠ p / 1024)
    : s'.word (s.tableAt dir d) t = s.word (s.tableAt dir d) t := by
  refine h.others _ (isFrame_tableAt s dir d) (hdir.table_ne d hd present') ?_
    (misses d hd present') t ht
  intro same
  exact other (hdir.table_inj d hd _ hp present' present same)

/-- A page of the range whose round has not come is mapped as it was before the loop. -/
theorem Stored.mapped_iff {s' : Paging} {i j : Nat}
    (h : Stored s s' dir p phys flags (s.tableAt dir (p / 1024)) j) (hdir : s.WellFormed dir)
    (present : s.Present dir (p / 1024)) (low : flags < 4096) (small : p + i < 2 ^ 20)
    (misses : ∀ d < 1024, s.Present dir d
      → Misses (s.tableAt dir (p / 1024)) j (s.tableAt dir d))
    (later : j ≤ i)
    : s'.Mapped dir (p + i) ↔ s.Mapped dir (p + i) := by
  have hp : p / 1024 < 1024 := by omega
  have hd : (p + i) / 1024 < 1024 := by omega
  have ht : (p + i) % 1024 < 1024 := by omega
  rw [Mapped, h.present_iff present hd, h.tableAt_eq low hd]
  refine and_congr_right (fun present' => ?_)
  rcases eq_or_ne ((p + i) / 1024) (p / 1024) with same | other
  · have notYet : ¬ (p + i) % 1024 < j := by omega
    rw [same, h.table _ ht, if_neg notYet]
  · rw [h.word_other hdir present hp misses hd ht present' other]

/-- One round stores the entry of its page, and the flags into the directory entry of the
first page if it finds its page mapped.
-/
theorem mapPage_words {s' s'' : Paging} {tbl j : Nat} (isDir : IsFrame dir)
    (isTable : IsFrame tbl) (ne : tbl ≠ dir) (small : p + j < 2 ^ 20)
    (missesDir : Misses tbl (j + 1) dir)
    (round : mapPage dir (4096 * p) phys flags tbl s' j = some s'')
    : (∀ d < 1024, s''.word dir d
        = if d = p / 1024 ∧ s'.Mapped dir (p + j) then s'.word dir d ||| flags
          else s'.word dir d)
      ∧ (∀ t < 1024, s''.word tbl t
        = if t = j then newPte phys flags j else s'.word tbl t)
      ∧ ∀ frame, IsFrame frame → frame ≠ dir → frame ≠ tbl → Misses tbl (j + 1) frame
        → ∀ t < 1024, s''.word frame t = s'.word frame t := by
  have hp : p / 1024 < 1024 := by omega
  have hj : j < 2 ^ 20 := by omega
  have address : (4096 * p + j * pgSize) % 2 ^ 32 = 4096 * (p + j) := by
    rw [range_page]
    exact Nat.mod_eq_of_lt (by omega)
  simp only [mapPage, address, pgIsMapped_page, dirIndex_page, Option.bind_eq_bind,
    Option.bind_some, decide_eq_true_eq, Option.pure_def, Option.some.injEq] at round
  obtain rfl := round
  by_cases mapped : s'.Mapped dir (p + j)
  · simp only [mapped, if_true, and_true]
    refine ⟨fun d hd => ?_, fun t ht => ?_, fun frame isFrame neDir neTbl misses t ht => ?_⟩
    · rw [word_setWord_other isTable isDir ne.symm missesDir hd, word_setWord isDir hp hd]
      simp only [word_setWord_other isTable isDir ne.symm missesDir hp,
        word_setWord_other isTable isDir ne.symm missesDir hd]
      rcases eq_or_ne d (p / 1024) with first | other
      · simp only [first]
      · simp only [other, if_false]
    · rw [word_setWord_table isTable hj ht, word_setWord_of_ne isDir isTable ne hp ht,
        word_setWord_table isTable hj ht]
      split <;> rfl
    · rw [word_setWord_other isTable isFrame neTbl misses ht,
        word_setWord_of_ne isDir isFrame neDir hp ht,
        word_setWord_other isTable isFrame neTbl misses ht]
  · simp only [mapped, if_false, and_false]
    refine ⟨fun d hd => ?_, fun t ht => ?_, fun frame isFrame _ neTbl misses t ht => ?_⟩
    · exact word_setWord_other isTable isDir ne.symm missesDir hd
    · exact word_setWord_table isTable hj ht
    · exact word_setWord_other isTable isFrame neTbl misses ht

theorem Stored.step {s' s'' : Paging} {j : Nat}
    (h : Stored s s' dir p phys flags (s.tableAt dir (p / 1024)) j) (hdir : s.WellFormed dir)
    (present : s.Present dir (p / 1024)) (low : flags < 4096) (small : p + j < 2 ^ 20)
    (missesDir : Misses (s.tableAt dir (p / 1024)) (j + 1) dir)
    (misses : ∀ d < 1024, s.Present dir d
      → Misses (s.tableAt dir (p / 1024)) (j + 1) (s.tableAt dir d))
    (round : mapPage dir (4096 * p) phys flags (s.tableAt dir (p / 1024)) s' j = some s'')
    : Stored s s'' dir p phys flags (s.tableAt dir (p / 1024)) (j + 1) := by
  have hp : p / 1024 < 1024 := by omega
  have checked : s'.Mapped dir (p + j) ↔ s.Mapped dir (p + j) :=
    h.mapped_iff hdir present low small
      (fun d hd pr => (misses d hd pr).mono (Nat.le_succ j)) (Nat.le_refl j)
  have anyMapped : (∃ i < j + 1, s.Mapped dir (p + i))
      ↔ s.Mapped dir (p + j) ∨ ∃ i < j, s.Mapped dir (p + i) :=
    Nat.exists_lt_succ_right.trans or_comm
  obtain ⟨dirWord, tableWord, otherWord⟩ :=
    mapPage_words hdir.isFrame (isFrame_tableAt s dir _) (hdir.table_ne _ hp present) small
      missesDir round
  refine ⟨fun d hd => ?_, fun t ht => ?_, fun frame isFrame neDir neTbl miss t ht => ?_⟩
  · rw [dirWord d hd, h.entry d hd]
    simp only [checked, anyMapped]
    by_cases first : d = p / 1024
    · by_cases now : s.Mapped dir (p + j)
      · by_cases before : ∃ i < j, s.Mapped dir (p + i)
        · simp [first, now, before]
        · simp [first, now, before]
      · simp [first, now]
    · simp [first]
  · rw [tableWord t ht, h.table t ht]
    rcases Nat.lt_trichotomy t j with below | same | above
    · simp [below.ne, below, Nat.lt_succ_of_lt below]
    · simp [same]
    · simp [above.ne', Nat.not_lt.mpr above.le, Nat.not_lt.mpr (Nat.succ_le_of_lt above)]
  · rw [otherWord frame isFrame neDir neTbl miss t ht]
    exact h.others frame isFrame neDir neTbl (miss.mono (Nat.le_succ j)) t ht

/-- The whole loop, by induction on the rounds. -/
theorem Stored.loop {s' : Paging} (hdir : s.WellFormed dir)
    (present : s.Present dir (p / 1024)) (low : flags < 4096) (small : p + num ≤ 2 ^ 20)
    (missesDir : Misses (s.tableAt dir (p / 1024)) num dir)
    (misses : ∀ d < 1024, s.Present dir d
      → Misses (s.tableAt dir (p / 1024)) num (s.tableAt dir d))
    (ran : (List.range num).foldlM
      (mapPage dir (4096 * p) phys flags (s.tableAt dir (p / 1024))) s = some s')
    : Stored s s' dir p phys flags (s.tableAt dir (p / 1024)) num := by
  induction num generalizing s' with
  | zero =>
      obtain rfl : s = s' := by simpa using ran
      exact Stored.zero _
  | succ j ih =>
      rw [List.range_succ, List.foldlM_append] at ran
      obtain ⟨before, ranBefore, round⟩ := Option.bind_eq_some_iff.mp ran
      have stored := ih (by omega) (missesDir.mono (Nat.le_succ j))
        (fun d hd pr => (misses d hd pr).mono (Nat.le_succ j)) ranBefore
      refine stored.step hdir present low (by omega) missesDir misses ?_
      simpa using round

end Loop

-----------------------------------------------------------------------------------------
-- The whole call
-----------------------------------------------------------------------------------------

/-- The table the call stores into, and behind: the one there is, or the frame it will get. -/
def firstTable (s : Paging) (dir virt : Nat) : Option Nat :=
  if s.Present dir (dirIndex virt) then
    some (s.tableAt dir (dirIndex virt))
  else
    s.pmm.frameAlloc.map Prod.fst

/-- The stores behind the table, for a range of more than 1024 pages, change neither the
directory nor one of its tables.
-/
def StaysClear (s : Paging) (dir virt num : Nat) : Prop :=
  ∀ tbl ∈ s.firstTable dir virt,
    Misses tbl num dir ∧ ∀ d < 1024, s.Present dir d → Misses tbl num (s.tableAt dir d)

def slot (s : Paging) (dir q : Nat) : Nat :=
  s.word (s.tableAt dir (q / 1024)) (q % 1024)

/-- What a call has done, for a range that begins with page `p`: its entries stand at the
beginning of the table of `p`, and every other page is as it was.
-/
structure Outcome (s s' : Paging) (dir p phys flags num : Nat) : Prop where
  written : ∀ q < 2 ^ 20, q / 1024 = p / 1024 → q % 1024 < num
    → s'.Mapped dir q ∧ s'.slot dir q = newPte phys flags (q % 1024)
  kept : ∀ q < 2 ^ 20, q / 1024 ≠ p / 1024 ∨ num ≤ q % 1024
    → (s'.Mapped dir q ↔ s.Mapped dir q)
      ∧ (s.Mapped dir q → s'.slot dir q = s.slot dir q)
  keptEntry : ∀ q < 2 ^ 20, q / 1024 ≠ p / 1024 → s.Mapped dir q
    → s'.word dir (q / 1024) = s.word dir (q / 1024)
  entry : s.Present dir (p / 1024) → s'.word dir (p / 1024)
    = if ∃ i < num, s.Mapped dir (p + i) then s.word dir (p / 1024) ||| flags
      else s.word dir (p / 1024)
  newEntry : ¬ s.Present dir (p / 1024) → s'.word dir (p / 1024) &&& flags = flags

section Call

variable {s s' : Paging} {dir p phys num flags : Nat}

/-- The call makes the table of the first page if there is none. -/
theorem hasTable_of_needTable (hdir : s.WellFormed dir)
    (fresh : ∀ frame pmm, s.pmm.frameAlloc = some (frame, pmm) → s.Fresh dir frame)
    (low : flags < 4096) (inWord : p < 2 ^ 20)
    (needed : s.needTable dir (4096 * p) flags = some s')
    : HasTable s s' dir (p / 1024) flags
      ∧ s.firstTable dir (4096 * p) = some (s'.tableAt dir (p / 1024)) := by
  have hp : p / 1024 < 1024 := by omega
  rw [needTable, pgTblExists_page, Option.bind_eq_bind, Option.bind_some,
    dirIndex_page] at needed
  rw [firstTable, dirIndex_page]
  by_cases present : s.Present dir (p / 1024)
  · obtain rfl : s = s' := by simpa [present] using needed
    exact ⟨HasTable.refl hdir present, if_pos present⟩
  · have made : s.pgMkPgtbl dir (p / 1024) flags = some s' := by
      simpa [present] using needed
    obtain ⟨⟨frame, pmm⟩, alloc, -⟩ := Option.bind_eq_some_iff.mp made
    have new := fresh frame pmm alloc
    obtain ⟨dirWord, -⟩ := pgMkPgtbl_words hdir.isFrame hp alloc new.isFrame new.ne_dir made
    refine ⟨HasTable.mk_pgtbl hdir present hp low alloc new made, ?_⟩
    rw [if_neg present, alloc, tableAt, dirWord _ hp, if_pos rfl,
      entry_and_pgFrame new.isFrame low]
    rfl

/-- The stores miss the tables that there are once the first page has one. -/
theorem StaysClear.misses {tbl : Nat} (clear : s.StaysClear dir (4096 * p) num)
    (small : num ≤ 2 ^ 20) (table : HasTable s s' dir (p / 1024) flags)
    (first : s.firstTable dir (4096 * p) = some (s'.tableAt dir (p / 1024)))
    (same : tbl = s'.tableAt dir (p / 1024))
    : Misses tbl num dir
      ∧ ∀ d < 1024, s'.Present dir d → Misses tbl num (s'.tableAt dir d) := by
  subst same
  obtain ⟨missesDir, misses⟩ := clear _ first
  refine ⟨missesDir, fun d hd present => ?_⟩
  by_cases old : d ≠ p / 1024 ∨ s.Present dir (p / 1024)
  · have same := table.entry d hd old
    rw [Present, same] at present
    have miss := misses d hd present
    rwa [show s'.tableAt dir d = s.tableAt dir d by rw [tableAt, same, tableAt]]
  · obtain ⟨rfl, -⟩ : d = p / 1024 ∧ ¬ s.Present dir (p / 1024) := by
      simpa [not_or] using old
    exact fun i behind more => not_hits_self (isFrame_tableAt s' dir _) behind (by omega)

/-- What the loop does to the pages, from the words it stores. -/
theorem Stored.outcome (stored : Stored s s' dir p phys flags (s.tableAt dir (p / 1024)) num)
    (hdir : s.WellFormed dir) (present : s.Present dir (p / 1024)) (low : flags < 4096)
    (inWord : p < 2 ^ 20)
    (misses : ∀ d < 1024, s.Present dir d
      → Misses (s.tableAt dir (p / 1024)) num (s.tableAt dir d))
    : Outcome s s' dir p phys flags num := by
  have hp : p / 1024 < 1024 := by omega
  have presentIff {q : Nat} (small : q < 2 ^ 20)
      : s'.Present dir (q / 1024) ↔ s.Present dir (q / 1024) :=
    stored.present_iff present (by omega)
  have sameTable {q : Nat} (small : q < 2 ^ 20)
      : s'.tableAt dir (q / 1024) = s.tableAt dir (q / 1024) :=
    stored.tableAt_eq low (by omega)
  refine ⟨fun q small region inside => ?_, fun q small other => ?_,
    fun q small other _ => ?_, fun _ => ?_, fun absent => absurd present absent⟩
  · have word := stored.table (q % 1024) (by omega)
    rw [if_pos inside] at word
    rw [Mapped, slot, presentIff small, sameTable small, region, word]
    exact ⟨⟨present, entry_present _ flags⟩, rfl⟩
  · have word (here : s.Present dir (q / 1024))
        : s'.word (s.tableAt dir (q / 1024)) (q % 1024)
          = s.word (s.tableAt dir (q / 1024)) (q % 1024) := by
      by_cases region : q / 1024 = p / 1024
      · have behind : ¬ q % 1024 < num :=
          Nat.not_lt.mpr (other.resolve_left (not_not_intro region))
        rw [region, stored.table _ (by omega), if_neg behind]
      · exact stored.word_other hdir present hp misses (by omega) (by omega) here region
    rw [Mapped, Mapped, slot, slot, presentIff small, sameTable small]
    refine ⟨and_congr_right (fun here => ?_), fun mapped => word mapped.1⟩
    rw [word here]
  · have elsewhere : ¬ (q / 1024 = p / 1024 ∧ ∃ i < num, s.Mapped dir (p + i)) :=
      fun both => other both.1
    rw [stored.entry _ (by omega), if_neg elsewhere]
  · rw [stored.entry _ hp]
    simp only [true_and]

/-- Making the table first does not change what a call does to the pages. -/
theorem Outcome.of_hasTable {s₁ : Paging} (outcome : Outcome s₁ s' dir p phys flags num)
    (table : HasTable s s₁ dir (p / 1024) flags) (inWord : p < 2 ^ 20)
    (small : p + num ≤ 2 ^ 20)
    : Outcome s s' dir p phys flags num := by
  have hp : p / 1024 < 1024 := by omega
  refine ⟨outcome.written, fun q hq other => ?_, fun q hq other mapped => ?_,
    fun present => ?_, fun absent => ?_⟩
  · obtain ⟨mappedIff, sameSlot⟩ := outcome.kept q hq other
    refine ⟨mappedIff.trans (table.mapped_iff hq), fun mapped => ?_⟩
    obtain ⟨-, sameTable, sameWord⟩ := table.words_eq hq mapped
    rw [sameSlot ((table.mapped_iff hq).mpr mapped), slot, slot, sameTable, sameWord]
  · obtain ⟨sameEntry, -⟩ := table.words_eq hq mapped
    rw [outcome.keptEntry q hq other ((table.mapped_iff hq).mpr mapped), sameEntry]
  · have someMapped : (∃ i < num, s₁.Mapped dir (p + i)) ↔ ∃ i < num, s.Mapped dir (p + i) :=
      exists_congr (fun i => and_congr_right (fun _ => table.mapped_iff (by omega)))
    rw [outcome.entry table.present, table.entry _ hp (Or.inr present)]
    simp only [someMapped]
  · rw [outcome.entry table.present]
    have carries := table.carries absent
    split
    · exact Word.or_and_self _ flags
    · exact carries

theorem pgMapPages_outcome (hdir : s.WellFormed dir)
    (fresh : ∀ frame pmm, s.pmm.frameAlloc = some (frame, pmm) → s.Fresh dir frame)
    (low : flags < 4096) (small : p + num ≤ 2 ^ 20) (inWord : p < 2 ^ 20)
    (clear : s.StaysClear dir (4096 * p) num)
    (returned : s.pgMapPages dir (4096 * p) phys num flags = some s')
    : Outcome s s' dir p phys flags num := by
  have aligned : ¬ 4096 * p % 0x1000 ≠ 0 := by omega
  rw [pgMapPages, if_neg aligned] at returned
  split at returned
  · exact absurd returned (by simp)
  · obtain ⟨s₁, needed, looped⟩ := Option.bind_eq_some_iff.mp returned
    rw [dirIndex_page] at looped
    obtain ⟨table, first⟩ := hasTable_of_needTable hdir fresh low inWord needed
    obtain ⟨missesDir, misses⟩ := clear.misses (by omega) table first rfl
    have stored :=
      Stored.loop table.wellFormed table.present low small missesDir misses looped
    exact (stored.outcome table.wellFormed table.present low inWord misses).of_hasTable
      table inWord small

end Call

-----------------------------------------------------------------------------------------
-- Mapping a range
-----------------------------------------------------------------------------------------

/-- The page at an address is mapped to a frame, and its table entry carries the flags. -/
structure MapsTo (s : Paging) (dir virt phys flags : Nat) : Prop where
  mapped : s.pgIsMapped dir virt = some true
  physical : s.pgVirtToPhys dir virt = some phys
  carries : s.pte dir virt &&& flags = flags

/-- What `pg_map_pages` is for: the pages of the range are mapped to the frames from `phys`
on, with the flags in both their entries, and all other pages keep their mapping and their
flags, except that a directory entry shared with a page of the range may get the flags.
-/
structure MapsRange (s s' : Paging) (dir virt phys num flags : Nat) : Prop where
  inside : ∀ i < num,
    s'.MapsTo dir (virt + i * pgSize) ((phys + i * pgSize) % 2 ^ 32) flags
      ∧ s'.pde dir (virt + i * pgSize) &&& flags = flags
  outside : ∀ page, page % 4096 = 0 → page < 2 ^ 32
    → page < virt ∨ virt + num * pgSize ≤ page
    → s'.pgIsMapped dir page = s.pgIsMapped dir page
      ∧ (s.pgIsMapped dir page = some true
        → s'.pte dir page = s.pte dir page
          ∧ (s'.pde dir page = s.pde dir page
            ∨ (∃ i < num, dirIndex (virt + i * pgSize) = dirIndex page)
              ∧ s'.pde dir page = s.pde dir page ||| flags))

/-- The page `i` of a range is mapped as a call asks before the call. The directory entry
of the first page need not carry the flags, because the call adds them to it.
-/
def Already (s : Paging) (dir virt phys flags i : Nat) : Prop :=
  s.MapsTo dir (virt + i * pgSize) ((phys + i * pgSize) % 2 ^ 32) flags
    ∧ (s.pde dir (virt + i * pgSize) &&& flags = flags
      ∨ dirIndex (virt + i * pgSize) = dirIndex virt)

/-- The ranges that `pg_map_pages` maps. It stores at the beginning of a table, so a range
has to begin there, unless the stores repeat what the table holds and the range is mapped
already. It adds the flags to an old directory entry only if it finds a mapped page.
-/
def Fits (s : Paging) (dir virt phys num flags : Nat) : Prop :=
  num = 0
    ∨ (tableIndex virt = 0
      ∧ (s.pde dir virt &&& pgPresent = 0 ∨ s.pde dir virt &&& flags = flags
        ∨ ∃ i < num, s.pgIsMapped dir (virt + i * pgSize) = some true)
      ∧ ∀ i, 1024 ≤ i → i < num → s.Already dir virt phys flags i)
    ∨ (num ≤ tableIndex virt
      ∧ ∀ i < num, s.Already dir virt phys flags i
        ∧ s.pte dir (dirIndex virt * 2 ^ 22 + i * pgSize) = newPte phys flags i)

section Range

variable {s s' : Paging} {dir p phys num flags : Nat}

theorem mapsTo_page {q frame : Nat}
    : s.MapsTo dir (4096 * q) frame flags
      ↔ s.Mapped dir q ∧ s.slot dir q &&& pgFrame = frame
        ∧ s.slot dir q &&& flags = flags := by
  constructor
  · intro h
    obtain ⟨mapped, physical, carries⟩ := h
    rw [pgIsMapped_page] at mapped
    rw [pgVirtToPhys_page] at physical
    rw [pte_page] at carries
    exact ⟨by simpa using mapped, Option.some.inj physical, carries⟩
  · intro h
    obtain ⟨mapped, physical, carries⟩ := h
    refine ⟨?_, ?_, ?_⟩
    · simpa [pgIsMapped_page] using mapped
    · rw [pgVirtToPhys_page]
      exact congrArg some physical
    · rw [pte_page]
      exact carries

/-- The entry of the page `i` points to its frame. -/
theorem newPte_and_pgFrame (physAligned : phys % 4096 = 0) (low : flags < 4096) (i : Nat)
    : newPte phys flags i &&& pgFrame = (phys + i * pgSize) % 2 ^ 32 := by
  refine entry_and_pgFrame ⟨?_, Nat.mod_lt _ (Nat.two_pow_pos 32)⟩ low
  rw [pgSize]
  omega

/-- The entry of the page `i` carries the flags. -/
theorem newPte_and_flags (phys flags i : Nat) : newPte phys flags i &&& flags = flags :=
  Word.or_and_self _ flags

/-- A page away from the stores maps to what it mapped to. -/
theorem Outcome.mapsTo_iff (outcome : Outcome s s' dir p phys flags num) {q frame : Nat}
    (small : q < 2 ^ 20) (away : q / 1024 ≠ p / 1024 ∨ num ≤ q % 1024)
    : s'.MapsTo dir (4096 * q) frame flags ↔ s.MapsTo dir (4096 * q) frame flags := by
  obtain ⟨mappedIff, sameSlot⟩ := outcome.kept q small away
  rw [mapsTo_page, mapsTo_page, mappedIff]
  refine and_congr_right (fun mapped => ?_)
  rw [sameSlot mapped]

/-- A page that is stored maps to its frame. -/
theorem Outcome.mapsTo_written (outcome : Outcome s s' dir p phys flags num)
    (physAligned : phys % 4096 = 0) (low : flags < 4096) {q : Nat} (small : q < 2 ^ 20)
    (region : q / 1024 = p / 1024) (inside : q % 1024 < num)
    : s'.MapsTo dir (4096 * q) ((phys + q % 1024 * pgSize) % 2 ^ 32) flags := by
  obtain ⟨mapped, word⟩ := outcome.written q small region inside
  rw [mapsTo_page, word]
  exact ⟨mapped, newPte_and_pgFrame physAligned low _, newPte_and_flags phys flags _⟩

/-- The directory entry of a mapped page stays, or gets the flags because it is shared. -/
theorem Outcome.pde_shared (outcome : Outcome s s' dir p phys flags num) {q : Nat}
    (small : q < 2 ^ 20) (mapped : s.Mapped dir q)
    : s'.word dir (q / 1024) = s.word dir (q / 1024)
      ∨ (∃ i < num, (p + i) / 1024 = q / 1024)
        ∧ s'.word dir (q / 1024) = s.word dir (q / 1024) ||| flags := by
  rcases eq_or_ne (q / 1024) (p / 1024) with region | other
  · have present := mapped.1
    rw [region] at present ⊢
    rw [outcome.entry present]
    split
    · next found =>
        obtain ⟨i, hi, -⟩ := found
        exact Or.inr ⟨⟨0, by omega, rfl⟩, rfl⟩
    · exact Or.inl rfl
  · exact Or.inl (outcome.keptEntry q small other mapped)

theorem already_page {i : Nat}
    : s.Already dir (4096 * p) phys flags i
      ↔ s.MapsTo dir (4096 * (p + i)) ((phys + i * pgSize) % 2 ^ 32) flags
        ∧ (s.word dir ((p + i) / 1024) &&& flags = flags
          ∨ (p + i) / 1024 = p / 1024) := by
  rw [Already, range_page, pde_page, dirIndex_page, dirIndex_page]

theorem fits_page
    : s.Fits dir (4096 * p) phys num flags
      ↔ num = 0
        ∨ (p % 1024 = 0
          ∧ (¬ s.Present dir (p / 1024) ∨ s.word dir (p / 1024) &&& flags = flags
            ∨ ∃ i < num, s.Mapped dir (p + i))
          ∧ ∀ i, 1024 ≤ i → i < num → s.Already dir (4096 * p) phys flags i)
        ∨ (num ≤ p % 1024
          ∧ ∀ i < num, s.Already dir (4096 * p) phys flags i
            ∧ s.slot dir (1024 * (p / 1024) + i) = newPte phys flags i) := by
  have region (i : Nat)
      : p / 1024 * 2 ^ 22 + i * pgSize = 4096 * (1024 * (p / 1024) + i) := by
    rw [pgSize]
    omega
  simp only [Fits, tableIndex_page, dirIndex_page, pde_page, range_page, pgIsMapped_page,
    region, pte_page, slot, Option.some.injEq, decide_eq_true_eq, Present, ne_eq,
    not_not]

theorem Outcome.mapsRange (outcome : Outcome s s' dir p phys flags num)
    (physAligned : phys % 4096 = 0) (low : flags < 4096) (small : p + num ≤ 2 ^ 20)
    (fits : s.Fits dir (4096 * p) phys num flags)
    : MapsRange s s' dir (4096 * p) phys num flags := by
  rw [fits_page] at fits
  constructor
  · intro i hi
    rw [range_page, pde_page]
    rcases fits with none | ⟨start, entry, behind⟩ | ⟨front, already⟩
    · omega
    · rcases Nat.lt_or_ge i 1024 with inTable | after
      · have region : (p + i) / 1024 = p / 1024 := by omega
        have index : (p + i) % 1024 = i := by omega
        have maps := outcome.mapsTo_written physAligned low (q := p + i) (by omega) region
          (by omega)
        rw [index] at maps
        refine ⟨maps, ?_⟩
        rw [region]
        by_cases present : s.Present dir (p / 1024)
        · rw [outcome.entry present]
          split
          · exact Word.or_and_self _ flags
          · next nothing =>
              exact (entry.resolve_left (not_not_intro present)).resolve_right nothing
        · exact outcome.newEntry present
      · obtain ⟨maps, carries⟩ := already_page.mp (behind i after hi)
        have other : (p + i) / 1024 ≠ p / 1024 := by omega
        refine ⟨(outcome.mapsTo_iff (by omega) (Or.inl other)).mpr maps, ?_⟩
        rw [outcome.keptEntry _ (by omega) other (mapsTo_page.mp maps).1]
        exact carries.resolve_right other
    · obtain ⟨maps, carries⟩ := already_page.mp (already i hi).1
      have mapped := (mapsTo_page.mp maps).1
      have away : (p + i) / 1024 ≠ p / 1024 ∨ num ≤ (p + i) % 1024 := by omega
      refine ⟨(outcome.mapsTo_iff (by omega) away).mpr maps, ?_⟩
      rcases eq_or_ne ((p + i) / 1024) (p / 1024) with region | other
      · have present := mapped.1
        rw [region] at present ⊢
        rw [outcome.entry present, if_pos ⟨i, hi, mapped⟩]
        exact Word.or_and_self _ flags
      · rw [outcome.keptEntry _ (by omega) other mapped]
        exact carries.resolve_right other
  · intro page aligned inAddress outside
    obtain ⟨q, rfl⟩ : ∃ q, page = 4096 * q := ⟨page / 4096, by omega⟩
    have hq : q < 2 ^ 20 := by omega
    have unchanged : (s'.Mapped dir q ↔ s.Mapped dir q)
        ∧ (s.Mapped dir q → s'.slot dir q = s.slot dir q) := by
      by_cases away : q / 1024 ≠ p / 1024 ∨ num ≤ q % 1024
      · exact outcome.kept q hq away
      · obtain ⟨region, inside⟩ : q / 1024 = p / 1024 ∧ q % 1024 < num := by
          simpa [not_or] using away
        rw [pgSize] at outside
        rcases fits with none | ⟨start, -, -⟩ | ⟨front, already⟩
        · omega
        · omega
        · have first := (mapsTo_page.mp (already_page.mp (already 0 (by omega)).1).1).1.1
          have word := (already (q % 1024) inside).2
          rw [show 1024 * (p / 1024) + q % 1024 = q by omega] at word
          obtain ⟨mapped', word'⟩ := outcome.written q hq region inside
          have mapped : s.Mapped dir q := by
            refine ⟨by rw [region]; exact first, ?_⟩
            rw [slot] at word
            rw [word]
            exact entry_present _ flags
          exact ⟨iff_of_true mapped' mapped, fun _ => word'.trans word.symm⟩
    obtain ⟨mappedIff, sameSlot⟩ := unchanged
    simp only [pgIsMapped_page, pte_page, pde_page, range_page, dirIndex_page, mappedIff,
      Option.some.injEq, decide_eq_true_eq, true_and]
    exact fun mapped => ⟨sameSlot mapped, outcome.pde_shared hq mapped⟩

theorem Outcome.fits (outcome : Outcome s s' dir p phys flags num)
    (physAligned : phys % 4096 = 0) (low : flags < 4096) (small : p + num ≤ 2 ^ 20)
    (inWord : p < 2 ^ 20)
    (maps : MapsRange s s' dir (4096 * p) phys num flags)
    : s.Fits dir (4096 * p) phys num flags := by
  rw [fits_page]
  rcases Nat.eq_zero_or_pos num with none | some
  · exact Or.inl none
  have inside (i : Nat) (hi : i < num) := maps.inside i hi
  simp only [range_page, pde_page] at inside
  have alreadyOf {i : Nat} (hi : i < num)
      (away : (p + i) / 1024 ≠ p / 1024 ∨ num ≤ (p + i) % 1024)
      : s.Already dir (4096 * p) phys flags i := by
    obtain ⟨mapsTo, carries⟩ := inside i hi
    have before := (outcome.mapsTo_iff (by omega) away).mp mapsTo
    refine already_page.mpr ⟨before, ?_⟩
    rcases eq_or_ne ((p + i) / 1024) (p / 1024) with region | other
    · exact Or.inr region
    · rw [outcome.keptEntry _ (by omega) other (mapsTo_page.mp before).1] at carries
      exact Or.inl carries
  rcases Nat.eq_zero_or_pos (p % 1024) with start | middle
  · refine Or.inr (Or.inl ⟨start, ?_, fun i after hi => alreadyOf hi (by omega)⟩)
    by_cases present : s.Present dir (p / 1024)
    · have carries := (inside 0 some).2
      rw [Nat.add_zero, outcome.entry present] at carries
      split at carries
      · next found => exact Or.inr (Or.inr found)
      · exact Or.inr (Or.inl carries)
    · exact Or.inl present
  · have front : num ≤ p % 1024 := by
      refine Nat.le_of_not_lt (fun inTable => ?_)
      -- The first page holds the entry of page `p % 1024` of the range, which is another.
      have stored := outcome.mapsTo_written physAligned low inWord rfl inTable
      have wanted := (inside 0 some).1
      have one := (mapsTo_page.mp stored).2.1
      have two := (mapsTo_page.mp wanted).2.1
      rw [Nat.add_zero] at two
      rw [two, pgSize] at one
      omega
    refine Or.inr (Or.inr ⟨front, fun i hi => ⟨alreadyOf hi (by omega), ?_⟩⟩)
    have region : (1024 * (p / 1024) + i) / 1024 = p / 1024 := by omega
    have index : (1024 * (p / 1024) + i) % 1024 = i := by omega
    obtain ⟨mapped', word'⟩ := outcome.written (1024 * (p / 1024) + i) (by omega) region
      (by omega)
    obtain ⟨mappedIff, same⟩ := maps.outside (4096 * (1024 * (p / 1024) + i)) (by omega)
      (by omega) (Or.inl (by omega))
    simp only [pgIsMapped_page, pte_page, Option.some.injEq, decide_eq_true_eq] at mappedIff same
    have mapped : s.Mapped dir (1024 * (p / 1024) + i) :=
      (decide_eq_decide.mp mappedIff).mp mapped'
    have sameSlot := (same mapped).1
    rw [slot] at word' ⊢
    rw [← sameSlot, word', index]

end Range

theorem mapPage_returns (dir phys flags tbl p : Nat) (s : Paging) (i : Nat)
    : ∃ s', mapPage dir (4096 * p) phys flags tbl s i = some s' := by
  have address : (4096 * p + i * pgSize) % 2 ^ 32 = 4096 * ((p + i) % 2 ^ 20) := by
    rw [range_page]
    omega
  simp only [mapPage, address, pgIsMapped_page]
  exact ⟨_, rfl⟩

/-- `pg_map_pages` returns if both addresses are aligned and it has or gets a table. -/
theorem pgMapPages_returns {s : Paging} {dir p phys num flags : Nat}
    (physAligned : phys % 4096 = 0)
    (room : s.Present dir (p / 1024) ∨ s.pmm.frameAlloc.isSome)
    : ∃ s', s.pgMapPages dir (4096 * p) phys num flags = some s' := by
  have aligned : ¬ 4096 * p % 0x1000 ≠ 0 := by omega
  have loop (tbl : Nat) (rounds : List Nat) (s : Paging)
      : ∃ s', rounds.foldlM (mapPage dir (4096 * p) phys flags tbl) s = some s' := by
    induction rounds generalizing s with
    | nil => exact ⟨s, rfl⟩
    | cons i rounds ih =>
        obtain ⟨s₁, round⟩ := mapPage_returns dir phys flags tbl p s i
        rw [List.foldlM_cons, round]
        exact ih s₁
  have made : ∃ s₁, s.needTable dir (4096 * p) flags = some s₁ := by
    rw [needTable, pgTblExists_page, Option.bind_eq_bind, Option.bind_some]
    by_cases present : s.Present dir (p / 1024)
    · exact ⟨s, if_pos (decide_eq_true present)⟩
    · obtain ⟨⟨frame, pmm⟩, alloc⟩ :=
        Option.isSome_iff_exists.mp (room.resolve_left present)
      rw [if_neg (by simpa using present), pgMkPgtbl, alloc]
      exact ⟨_, rfl⟩
  obtain ⟨s₁, made⟩ := made
  rw [pgMapPages, if_neg aligned, if_neg (not_not_intro physAligned), made]
  exact loop _ _ s₁

/-- A range of at most 1024 pages never reaches behind the table. -/
theorem staysClear_of_le {s : Paging} {dir virt num : Nat} (few : num ≤ 1024)
    : s.StaysClear dir virt num := by
  have never (tbl frame : Nat) : Misses tbl num frame := by
    intro i behind more
    omega
  exact fun tbl _ => ⟨never tbl dir, fun d _ _ => never tbl _⟩

/-- `pg_map_pages` returns, and maps exactly the ranges that fit as long as it does not overrun the
table into the directory or another table. The flags of an entry are its bits below the frame. The
loop stores from the first entry of one table on, whatever the first page is, and goes on behind
its end; what is already mapped there gets the new frame.
-/
theorem pgMapPages_mapsRange_iff {s : Paging} {dir virt phys num flags : Nat}
    (hdir : s.WellFormed dir)
    (room : s.Present dir (dirIndex virt) ∨ s.pmm.frameAlloc.isSome)
    (fresh : ∀ frame pmm, s.pmm.frameAlloc = some (frame, pmm) → s.Fresh dir frame)
    (virtAligned : virt % pgSize = 0) (physAligned : phys % pgSize = 0)
    (low : flags < 4096) (virtInWord : virt < 2 ^ 32)
    (noWrap : virt + num * pgSize ≤ 2 ^ 32)
    : ∃ s', s.pgMapPages dir virt phys num flags = some s'
      ∧ (s.StaysClear dir virt num
        → (MapsRange s s' dir virt phys num flags ↔ s.Fits dir virt phys num flags)) := by
  rw [pgSize] at virtAligned physAligned noWrap
  obtain ⟨p, rfl⟩ : ∃ p, virt = 4096 * p := ⟨virt / 4096, by omega⟩
  rw [dirIndex_page] at room
  obtain ⟨s', returned⟩ : ∃ s', s.pgMapPages dir (4096 * p) phys num flags = some s' :=
    pgMapPages_returns physAligned room
  refine ⟨s', returned, fun clear => ?_⟩
  have small : p + num ≤ 2 ^ 20 := by omega
  have inWord : p < 2 ^ 20 := by omega
  have outcome := pgMapPages_outcome hdir fresh low small inWord clear returned
  exact ⟨outcome.fits physAligned low small inWord, outcome.mapsRange physAligned low small⟩

/-- A page directory without tables, as `pg_init` fills it, at `0x5000`, and a megabyte of
free frames.
-/
def blank : Paging where
  pmm := { placementAddr := 0x100000, framesBmp := fun _ => 0, memorySize := 0x100000 }
  mem _ := pgRw
  kerPageDir := 0x5000
  curPageDir := 0x5000

theorem blank_absent (d : Nat) : ¬ blank.Present 0x5000 d :=
  show ¬ pgRw &&& pgPresent ≠ 0 by decide

theorem blank_wellFormed : blank.WellFormed 0x5000 where
  isFrame := ⟨by decide, by decide⟩
  table_ne d _ present := absurd present (blank_absent d)
  table_inj d _ _ _ present := absurd present (blank_absent d)

/-- The first table of the blank directory lies at address 0. -/
theorem blank_frameAlloc : blank.pmm.frameAlloc.map Prod.fst = some 0 := by
  decide +kernel

/-- The frame that a table of the blank directory gets is fresh. -/
theorem blank_fresh (frame : Nat) (pmm : Pmm)
    (alloc : blank.pmm.frameAlloc = some (frame, pmm))
    : blank.Fresh 0x5000 frame := by
  have first := blank_frameAlloc
  rw [alloc] at first
  obtain rfl : frame = 0 := Option.some.inj first
  exact ⟨⟨by decide, by decide⟩, by decide, fun d _ present =>
    absurd present (blank_absent d)⟩

/-- Two pages at the beginning of a table are mapped. -/
theorem pgMapPages_two_pages
    : ∃ s', blank.pgMapPages 0x5000 0x400000 0x7000 2 pgRw = some s'
      ∧ MapsRange blank s' 0x5000 0x400000 0x7000 2 pgRw := by
  have room : blank.pmm.frameAlloc.isSome := by
    have first := blank_frameAlloc
    cases alloc : blank.pmm.frameAlloc with
    | none => simp [alloc] at first
    | some _ => rfl
  obtain ⟨s', returned, mapsIff⟩ : ∃ s',
      blank.pgMapPages 0x5000 0x400000 0x7000 2 pgRw = some s'
        ∧ (blank.StaysClear 0x5000 0x400000 2
          → (MapsRange blank s' 0x5000 0x400000 0x7000 2 pgRw
            ↔ blank.Fits 0x5000 0x400000 0x7000 2 pgRw)) :=
    pgMapPages_mapsRange_iff blank_wellFormed (Or.inr room) blank_fresh (by decide)
      (by decide) (by decide) (by decide) (by decide)
  refine ⟨s', returned, (mapsIff (staysClear_of_le (by decide))).mpr ?_⟩
  exact Or.inr (Or.inl ⟨by decide, Or.inl (by decide), fun i behind more => by omega⟩)

/-- One page that is the second one of its table is not mapped: its entry is stored into the
first one.
-/
theorem pgMapPages_not_mapsRange
    : ∃ s', blank.pgMapPages 0x5000 0x1000 0x1000 1 pgRw = some s'
      ∧ ¬ MapsRange blank s' 0x5000 0x1000 0x1000 1 pgRw := by
  have unmapped : ∃ s', blank.pgMapPages 0x5000 0x1000 0x1000 1 pgRw = some s'
      ∧ s'.pgIsMapped 0x5000 0x1000 = some false := by
    have called : (blank.pgMapPages 0x5000 0x1000 0x1000 1 pgRw).map
        (fun s' => s'.pgIsMapped 0x5000 0x1000) = some (some false) := by
      decide +kernel
    exact Option.map_eq_some_iff.mp called
  obtain ⟨s', returned, unmapped⟩ := unmapped
  refine ⟨s', returned, fun maps => ?_⟩
  have mapped := (maps.inside 0 (by decide)).1.mapped
  rw [Nat.zero_mul, Nat.add_zero, unmapped] at mapped
  exact absurd mapped (by decide)

end Hydrangea.Paging
