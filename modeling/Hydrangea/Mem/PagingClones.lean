import Hydrangea.Lib.Transition
import Hydrangea.Mem.PagingMaps

/-! What `pg_clone_page_dir` makes of a page directory, and that mapping pages in the clone does
not show in the directory it was made of.
-/

namespace Hydrangea.Paging

-----------------------------------------------------------------------------------------
-- The frames of a directory
-----------------------------------------------------------------------------------------

/-- A frame that a directory uses: its own, or the one of a table. -/
def UsedBy (s : Paging) (dir frame : Nat) : Prop :=
  frame = dir ∨ ∃ d < 1024, s.Present dir d ∧ s.tableAt dir d = frame

/-- A page directory in a frame of its own, all of whose frames are marked used. -/
structure Owned (s : Paging) (dir : Nat) : Prop where
  isFrame : IsFrame dir
  marked : ∀ frame, s.UsedBy dir frame → s.pmm.Marked (frame / 4096)

/-- What lies in the frames that a directory uses is the same in a second state. -/
def Untouched (s s' : Paging) (dir : Nat) : Prop :=
  ∀ frame, s.UsedBy dir frame → ∀ t < 1024, s'.word frame t = s.word frame t

/-- A directory `c` that has come up beside a directory `dir` of an earlier state: it uses no
frame of `dir`, all frames of both are marked used, and those of `dir` have not changed.
-/
structure Beside (s s' : Paging) (dir c : Nat) : Prop where
  isFrame : IsFrame dir
  wellFormed : s'.WellFormed c
  untouched : Untouched s s' dir
  marked : ∀ frame, s.UsedBy dir frame ∨ s'.UsedBy c frame → s'.pmm.Marked (frame / 4096)
  apart : ∀ frame, s'.UsedBy c frame → ¬ s.UsedBy dir frame
  scanned : s'.pmm.scannedWords ≤ 2 ^ 15

theorem UsedBy.isFrame {s : Paging} {dir frame : Nat} (used : s.UsedBy dir frame)
    (dirFrame : IsFrame dir)
    : IsFrame frame := by
  rcases used with rfl | ⟨d, -, -, rfl⟩
  · exact dirFrame
  · exact isFrame_tableAt s dir d

/-- A frame that `frame_alloc` returns below 4 GiB. -/
theorem isFrame_of_frameAlloc {s s' : Pmm} {frame : Nat} (small : s.scannedWords ≤ 2 ^ 15)
    (alloc : s.frameAlloc = some (frame, s'))
    : IsFrame frame := by
  obtain ⟨aligned, inside, -⟩ := Pmm.frameAlloc_lowest small alloc
  exact ⟨aligned, by omega⟩

section

variable {s s' : Paging} {dir c : Nat}

/-- An allocation takes a frame that neither directory uses, and marks it. -/
theorem Beside.frameAlloc {frame : Nat} {pmm : Pmm} (h : Beside s s' dir c)
    (alloc : s'.pmm.frameAlloc = some (frame, pmm))
    : Beside s { s' with pmm } dir c
      ∧ IsFrame frame
      ∧ pmm.Marked (frame / 4096)
      ∧ ¬ s.UsedBy dir frame
      ∧ ¬ s'.UsedBy c frame := by
  obtain ⟨-, -, clear, -, bits, size⟩ := Pmm.frameAlloc_lowest h.scanned alloc
  have keeps (f : Nat) (set : s'.pmm.Marked f) : pmm.Marked f := (bits f).mpr (.inr set)
  obtain ⟨cloneFrame, table_ne, table_inj⟩ := h.wellFormed
  refine ⟨⟨h.isFrame, ⟨cloneFrame, table_ne, table_inj⟩, h.untouched, ?_, h.apart, ?_⟩,
    ?_, ?_, ?_, ?_⟩
  · intro f used
    exact keeps _ (h.marked f used)
  · have scanned := h.scanned
    rw [Pmm.scannedWords] at scanned ⊢
    rw [size]
    exact scanned
  · exact isFrame_of_frameAlloc h.scanned alloc
  · exact (bits _).mpr (.inl rfl)
  · intro used
    exact clear (h.marked _ (.inl used))
  · intro used
    exact clear (h.marked _ (.inr used))

/-- Changing the clone and one of its tables, old or new, leaves it beside the directory. -/
theorem Beside.step {s'' : Paging} {tbl : Nat} (h : Beside s s' dir c)
    (wellFormed : s''.WellFormed c)
    (others : ∀ frame, IsFrame frame → frame ≠ c → frame ≠ tbl → ∀ t < 1024,
      s''.word frame t = s'.word frame t)
    (uses : ∀ frame, s''.UsedBy c frame → s'.UsedBy c frame ∨ frame = tbl)
    (tblApart : ¬ s.UsedBy dir tbl) (tblMarked : s''.pmm.Marked (tbl / 4096))
    (keeps : Pmm.Keeps s'.pmm s''.pmm) (size : s''.pmm.memorySize = s'.pmm.memorySize)
    : Beside s s'' dir c := by
  refine ⟨h.isFrame, wellFormed, ?_, ?_, ?_, ?_⟩
  · intro frame used t ht
    have notClone : frame ≠ c := fun same => h.apart c (.inl rfl) (same ▸ used)
    have notTable : frame ≠ tbl := fun same => tblApart (same ▸ used)
    rw [others frame (used.isFrame h.isFrame) notClone notTable t ht]
    exact h.untouched frame used t ht
  · intro frame used
    rcases used with used | used
    · exact keeps _ (h.marked frame (.inl used))
    · rcases uses frame used with old | rfl
      · exact keeps _ (h.marked frame (.inr old))
      · exact tblMarked
  · intro frame used
    rcases uses frame used with old | rfl
    · exact h.apart frame old
    · exact tblApart
  · have scanned := h.scanned
    rw [Pmm.scannedWords] at scanned ⊢
    rw [size]
    exact scanned

end

-----------------------------------------------------------------------------------------
-- Cloning a directory
-----------------------------------------------------------------------------------------

/-- Copying a table changes the new table only, by induction on the words copied. -/
theorem copyTable_word {s : Paging} {newTbl tbl frame j : Nat} (h : IsFrame newTbl)
    (hold : IsFrame tbl) (ne : tbl ≠ newTbl) (h' : IsFrame frame) (hj : j < 1024)
    : (s.copyTable newTbl tbl).word frame j
      = if frame = newTbl then s.word tbl j else s.word frame j := by
  have partly (n : Nat) (small : n ≤ 1024) (frame : Nat) (h' : IsFrame frame) (j : Nat)
      (hj : j < 1024)
      : ((List.range n).foldl (fun s i => s.setWord newTbl i (s.word tbl i)) s).word frame j
        = if frame = newTbl ∧ j < n then s.word tbl j else s.word frame j := by
    induction n generalizing frame j with
    | zero => simp
    | succ n ih =>
        have before := ih (Nat.le_of_succ_le small)
        rw [List.range_succ, List.foldl_append, List.foldl_cons, List.foldl_nil,
          before tbl hold n small]
        simp only [ne, false_and, if_false]
        rcases eq_or_ne frame newTbl with rfl | distinct
        · rw [word_setWord h small hj, before frame h j hj]
          rcases eq_or_ne j n with rfl | other
          · simp
          · have same : j < n + 1 ↔ j < n := by omega
            simp [other, same]
        · rw [word_setWord_of_ne h h' distinct small hj, before frame h' j hj]
          simp [distinct]
  have all := partly 1024 (Nat.le_refl _) frame h' j hj
  simpa [copyTable, hj] using all

/-- Copying a table stores into memory only. -/
@[simp]
theorem copyTable_pmm (s : Paging) (newTbl tbl : Nat)
    : (s.copyTable newTbl tbl).pmm = s.pmm := by
  have each (words : List Nat) (s : Paging)
      : (words.foldl (fun s i => s.setWord newTbl i (s.word tbl i)) s).pmm = s.pmm := by
    induction words generalizing s with
    | nil => rfl
    | cons i words ih => exact ih (s.setWord newTbl i (s.word tbl i))
  exact each _ s

theorem entry_and_pgFlags {frame flags : Nat} (h : IsFrame frame) (low : flags < 4096)
    : (frame ||| flags) &&& pgFlags = flags := by
  have mask : pgFlags = 2 ^ 12 - 1 := by decide
  have aligned : frame % 2 ^ 12 = 0 := h.1
  have small : flags < 2 ^ 12 := low
  rw [mask, Nat.and_two_pow_sub_one_eq_mod, Nat.or_mod_two_pow, aligned,
    Nat.mod_eq_of_lt small, Nat.zero_or]

theorem entry_and_pgFrame' {frame flags : Nat} (h : IsFrame frame) (low : flags < 4096)
    : (frame ||| flags) &&& pgFrame = frame :=
  (or_flags_and_pgFrame frame low).trans
    (Word.and_highMask_of_aligned (show 12 ≤ 32 by decide) h.1 h.2)

/-- The directory `c` after the loop has seen `n` entries of `dir`: a present one has a table
with the same words and an entry with the same flags.
-/
structure Copied (s s' : Paging) (dir c n : Nat) : Prop where
  beside : Beside s s' dir c
  entry : ∀ d < 1024, d < n → s.Present dir d
    → s'.Present c d
      ∧ s'.word c d &&& pgFlags = s.word dir d &&& pgFlags
      ∧ ∀ t < 1024, s'.word (s'.tableAt c d) t = s.word (s.tableAt dir d) t
  absent : ∀ d < 1024, n ≤ d ∨ ¬ s.Present dir d → s'.word c d = 0

theorem newEntry_present (frame : Nat) {x : Nat} (present : x &&& pgPresent ≠ 0)
    : (frame ||| (x &&& pgFlags)) &&& pgPresent ≠ 0 := by
  rw [present_iff] at present ⊢
  have mask : pgFlags.testBit 0 = true := by decide
  rw [Nat.testBit_or, Nat.testBit_and, present, mask, Bool.and_self, Bool.or_true]

/-- A word of zeros points to no table. -/
theorem not_present_of_zero {s : Paging} {dir d : Nat} (zero : s.word dir d = 0)
    : ¬ s.Present dir d := by
  simp [Present, zero]

section

variable {s s₁ s₂ : Paging} {dir c i : Nat}

/-- One round that finds a table stores its entry and its words, in a frame that is new. -/
theorem cloneEntry_words {newTbl : Nat} {pmm : Pmm} (dirFrame : IsFrame dir)
    (cloneFrame : IsFrame c) (apart : dir ≠ c) (hi : i < 1024)
    (alloc : s₁.pmm.frameAlloc = some (newTbl, pmm)) (newFrame : IsFrame newTbl)
    (neDir : dir ≠ newTbl) (neClone : c ≠ newTbl) (neTable : s₁.tableAt dir i ≠ newTbl)
    (present : s₁.Present dir i) (round : cloneEntry dir c s₁ i = some s₂)
    : s₂.pmm = pmm
      ∧ s₂.word c i = newTbl ||| (s₁.word dir i &&& pgFlags)
      ∧ (∀ d < 1024, d ≠ i → s₂.word c d = s₁.word c d)
      ∧ (∀ t < 1024, s₂.word newTbl t = s₁.word (s₁.tableAt dir i) t)
      ∧ ∀ frame, IsFrame frame → frame ≠ c → frame ≠ newTbl
        → ∀ t < 1024, s₂.word frame t = s₁.word frame t := by
  have copied (frame t : Nat) (hf : IsFrame frame) (ht : t < 1024)
      : (({ s₁ with pmm } : Paging).copyTable newTbl (s₁.tableAt dir i)).word frame t
        = if frame = newTbl then s₁.word (s₁.tableAt dir i) t else s₁.word frame t :=
    copyTable_word newFrame (isFrame_tableAt s₁ dir i) neTable hf ht
  rw [Present] at present
  simp only [cloneEntry, if_pos present, pgClonePageTable, alloc, Option.bind_eq_bind,
    Option.bind_some, Option.pure_def, Option.some.injEq] at round
  rw [← tableAt] at round
  obtain rfl := round
  refine ⟨by simp [setWord], ?_, ?_, ?_, ?_⟩
  · rw [word_setWord cloneFrame hi hi, if_pos rfl, word_setWord cloneFrame hi hi, if_pos rfl,
      word_setWord_of_ne cloneFrame dirFrame apart hi hi, copied dir i dirFrame hi,
      if_neg neDir, Nat.or_assoc, Nat.or_self]
  · intro d hd other
    rw [word_setWord cloneFrame hi hd, if_neg other, word_setWord cloneFrame hi hd,
      if_neg other, copied c d cloneFrame hd, if_neg neClone]
  · intro t ht
    rw [word_setWord_of_ne cloneFrame newFrame neClone.symm hi ht,
      word_setWord_of_ne cloneFrame newFrame neClone.symm hi ht, copied newTbl t newFrame ht,
      if_pos rfl]
  · intro frame hf ne ne' t ht
    rw [word_setWord_of_ne cloneFrame hf ne hi ht, word_setWord_of_ne cloneFrame hf ne hi ht,
      copied frame t hf ht, if_neg ne']

/-- The words of a directory that a second state has left alone. -/
theorem Untouched.entry {s' : Paging} {d : Nat} (h : Untouched s s' dir) (hd : d < 1024)
    : s'.word dir d = s.word dir d :=
  h dir (.inl rfl) d hd

/-- A clone with one more table, in a frame that is new, is still well formed. -/
theorem wellFormed_of_newTable {newTbl flags : Nat} (h : s₁.WellFormed c) (hi : i < 1024)
    (newFrame : IsFrame newTbl) (low : flags < 4096) (new : ¬ s₁.UsedBy c newTbl)
    (here : s₂.word c i = newTbl ||| flags)
    (elsewhere : ∀ d < 1024, d ≠ i → s₂.word c d = s₁.word c d)
    : s₂.WellFormed c ∧ ∀ frame, s₂.UsedBy c frame → s₁.UsedBy c frame ∨ frame = newTbl := by
  have table : s₂.tableAt c i = newTbl := by
    rw [tableAt, here, entry_and_pgFrame' newFrame low]
  have old {d : Nat} (hd : d < 1024) (other : d ≠ i) (present : s₂.Present c d)
      : s₁.Present c d ∧ s₂.tableAt c d = s₁.tableAt c d := by
    rw [Present, elsewhere d hd other] at present
    exact ⟨present, by rw [tableAt, elsewhere d hd other, tableAt]⟩
  have apart {d : Nat} (hd : d < 1024) (other : d ≠ i) (present : s₂.Present c d)
      : s₂.tableAt c d ≠ newTbl := by
    obtain ⟨present, same⟩ := old hd other present
    intro clash
    exact new (.inr ⟨d, hd, present, same.symm.trans clash⟩)
  refine ⟨⟨h.isFrame, ?_, ?_⟩, ?_⟩
  · intro d hd present
    rcases eq_or_ne d i with rfl | other
    · rw [table]
      exact fun clash => new (.inl clash)
    · obtain ⟨present, same⟩ := old hd other present
      rw [same]
      exact h.table_ne d hd present
  · intro d hd d' hd' present present' same
    rcases eq_or_ne d i with rfl | other
    · rcases eq_or_ne d' d with rfl | other'
      · rfl
      · exact absurd (same.symm.trans table) (apart hd' other' present')
    · rcases eq_or_ne d' i with rfl | other'
      · exact absurd (same.trans table) (apart hd other present)
      · obtain ⟨present, same₁⟩ := old hd other present
        obtain ⟨present', same₂⟩ := old hd' other' present'
        rw [same₁, same₂] at same
        exact h.table_inj d hd d' hd' present present' same
  · intro frame used
    rcases used with own | ⟨d, hd, present, same⟩
    · exact .inl (.inl own)
    · rcases eq_or_ne d i with rfl | other
      · exact .inr (same.symm.trans table)
      · obtain ⟨present, same'⟩ := old hd other present
        exact .inl (.inr ⟨d, hd, present, same'.symm.trans same⟩)

/-- One round of the loop of `pg_clone_page_dir`. An entry that is present gets a new table in a
frame that was clear, with the words of the old one; any other entry is left out.
-/
theorem Copied.step (h : Copied s s₁ dir c i) (hi : i < 1024)
    (round : cloneEntry dir c s₁ i = some s₂)
    : Copied s s₂ dir c (i + 1) := by
  have entryOf := h.beside.untouched.entry hi
  have cloneFrame := h.beside.wellFormed.isFrame
  by_cases present : s₁.Present dir i
  · have presentOld : s.Present dir i := by
      rwa [Present, ← entryOf]
    have tableOld : s₁.tableAt dir i = s.tableAt dir i := by
      rw [tableAt, entryOf, tableAt]
    have tableUsed : s.UsedBy dir (s₁.tableAt dir i) :=
      .inr ⟨i, hi, presentOld, tableOld.symm⟩
    obtain ⟨⟨newTbl, pmm⟩, alloc⟩ : ∃ taken, s₁.pmm.frameAlloc = some taken := by
      cases alloc : s₁.pmm.frameAlloc with
      | none =>
          rw [Present] at present
          simp [cloneEntry, if_pos present, pgClonePageTable, alloc] at round
      | some taken => exact ⟨taken, rfl⟩
    obtain ⟨beside, newFrame, newMarked, notDir, notClone⟩ := h.beside.frameAlloc alloc
    have dirNe : dir ≠ newTbl := fun clash => notDir (.inl clash.symm)
    have cloneNe : c ≠ newTbl := fun clash => notClone (.inl clash.symm)
    have tableNe : s₁.tableAt dir i ≠ newTbl := fun clash => notDir (clash ▸ tableUsed)
    have dirNeClone : dir ≠ c := fun clash => h.beside.apart c (.inl rfl) (.inl clash.symm)
    obtain ⟨samePmm, here, elsewhere, table, others⟩ :=
      cloneEntry_words h.beside.isFrame cloneFrame dirNeClone hi alloc newFrame dirNe cloneNe
        tableNe present round
    have low : s₁.word dir i &&& pgFlags < 4096 :=
      Nat.and_lt_two_pow _ (show pgFlags < 2 ^ 12 by decide)
    obtain ⟨wellFormed, uses⟩ :=
      wellFormed_of_newTable h.beside.wellFormed hi newFrame low notClone here elsewhere
    have hereTable : s₂.tableAt c i = newTbl := by
      rw [tableAt, here, entry_and_pgFrame' newFrame low]
    refine ⟨beside.step wellFormed others uses notDir (samePmm ▸ newMarked) ?_ ?_, ?_, ?_⟩
    · rw [samePmm]
      exact Pmm.Keeps.refl _
    · rw [samePmm]
    · intro d hd below presentD
      rcases eq_or_ne d i with rfl | other
      · have flags : s₂.word c d &&& pgFlags = s.word dir d &&& pgFlags := by
          rw [here, entry_and_pgFlags newFrame low, entryOf]
        refine ⟨?_, flags, ?_⟩
        · rw [Present, here, entryOf]
          exact newEntry_present newTbl presentD
        · intro t ht
          rw [hereTable, table t ht, tableOld]
          exact h.beside.untouched _ (tableOld ▸ tableUsed) t ht
      · obtain ⟨presentC, flags, words⟩ := h.entry d hd (by omega) presentD
        have same := elsewhere d hd other
        have sameTable : s₂.tableAt c d = s₁.tableAt c d := by
          rw [tableAt, same, tableAt]
        refine ⟨by rwa [Present, same], by rw [same, flags], ?_⟩
        intro t ht
        have used : s₁.UsedBy c (s₁.tableAt c d) := .inr ⟨d, hd, presentC, rfl⟩
        rw [sameTable, others _ (isFrame_tableAt s₁ c d)
          (h.beside.wellFormed.table_ne d hd presentC) (fun clash => notClone (clash ▸ used))
          t ht]
        exact words t ht
    · intro d hd reason
      have other : d ≠ i := by
        rintro rfl
        rcases reason with ahead | notPresent
        · omega
        · exact notPresent presentOld
      rw [elsewhere d hd other]
      exact h.absent d hd (reason.imp_left (fun ahead => by omega))
  · have notPresent : ¬ s.Present dir i := by
      rwa [Present, ← entryOf]
    obtain rfl : s₁ = s₂ := by
      rw [Present] at present
      simpa [cloneEntry, if_neg present] using round
    refine ⟨h.beside, ?_, ?_⟩
    · intro d hd below presentD
      have other : d ≠ i := by
        rintro rfl
        exact notPresent presentD
      exact h.entry d hd (by omega) presentD
    · intro d hd reason
      rcases eq_or_ne d i with rfl | other
      · exact h.absent d hd (.inr notPresent)
      · exact h.absent d hd (reason.imp_left (fun ahead => by omega))

/-- A new directory, all of whose entries are zero, before the loop. -/
theorem Copied.new {pmm : Pmm} (owned : s.Owned dir) (scanned : s.pmm.scannedWords ≤ 2 ^ 15)
    (alloc : s.pmm.frameAlloc = some (c, pmm))
    : Copied s (({ s with pmm } : Paging).clearTable c) dir c 0 := by
  obtain ⟨-, -, clear, -, bits, size⟩ := Pmm.frameAlloc_lowest scanned alloc
  have cloneFrame := isFrame_of_frameAlloc scanned alloc
  have words (frame t : Nat) (hf : IsFrame frame) (ht : t < 1024)
      : (({ s with pmm } : Paging).clearTable c).word frame t
        = if frame = c then 0 else s.word frame t :=
    clearTable_word cloneFrame hf ht
  have zero (d : Nat) (hd : d < 1024) : (({ s with pmm } : Paging).clearTable c).word c d = 0 :=
    (words c d cloneFrame hd).trans (if_pos rfl)
  have apart (frame : Nat) (used : s.UsedBy dir frame) : frame ≠ c := by
    rintro rfl
    exact clear (owned.marked _ used)
  have own (frame : Nat) (used : (({ s with pmm } : Paging).clearTable c).UsedBy c frame)
      : frame = c := by
    rcases used with rfl | ⟨d, hd, present, -⟩
    · rfl
    · exact absurd present (not_present_of_zero (zero d hd))
  have wellFormed : (({ s with pmm } : Paging).clearTable c).WellFormed c :=
    ⟨cloneFrame, fun d hd present => absurd present (not_present_of_zero (zero d hd)),
      fun d hd d' hd' present => absurd present (not_present_of_zero (zero d hd))⟩
  refine ⟨⟨owned.isFrame, wellFormed, ?_, ?_, ?_, ?_⟩, ?_, fun d hd _ => zero d hd⟩
  · intro frame used t ht
    rw [words frame t (used.isFrame owned.isFrame) ht, if_neg (apart frame used)]
  · intro frame used
    rw [clearTable_pmm]
    rcases used with used | used
    · exact (bits _).mpr (.inr (owned.marked frame used))
    · rw [own frame used]
      exact (bits _).mpr (.inl rfl)
  · intro frame used old
    exact apart frame old (own frame used)
  · rw [clearTable_pmm]
    rw [Pmm.scannedWords] at scanned ⊢
    rw [size]
    exact scanned
  · intro d _ below
    omega

/-- The whole loop, by induction on the entries seen. -/
theorem Copied.loop {n : Nat} (h : Copied s s₁ dir c 0) (few : n ≤ 1024)
    (looped : (List.range n).foldlM (cloneEntry dir c) s₁ = some s₂)
    : Copied s s₂ dir c n := by
  induction n generalizing s₂ with
  | zero =>
      obtain rfl : s₁ = s₂ := by simpa using looped
      exact h
  | succ n ih =>
      rw [List.range_succ, List.foldlM_append] at looped
      obtain ⟨before, loopedBefore, round⟩ := Option.bind_eq_some_iff.mp looped
      refine (ih (by omega) loopedBefore).step few ?_
      simpa using round

/-- What `pg_clone_page_dir` returns is a copy in frames of its own. -/
theorem copied_of_pgClonePageDir (owned : s.Owned dir) (scanned : s.pmm.scannedWords ≤ 2 ^ 15)
    (cloned : s.pgClonePageDir dir = some (c, s₂))
    : Copied s s₂ dir c 1024 := by
  obtain ⟨⟨newDir, pmm⟩, alloc, rest⟩ := Option.bind_eq_some_iff.mp cloned
  obtain ⟨s₁, looped, returned⟩ := Option.bind_eq_some_iff.mp rest
  obtain ⟨rfl, rfl⟩ := Prod.mk.inj (Option.some.inj returned)
  exact (Copied.new owned scanned alloc).loop (Nat.le_refl _) looped

theorem Copied.mapped_iff (h : Copied s s₁ dir c 1024) {p : Nat} (small : p < 2 ^ 20)
    : s₁.Mapped c p ↔ s.Mapped dir p := by
  have hd : p / 1024 < 1024 := by omega
  have ht : p % 1024 < 1024 := by omega
  rw [Mapped, Mapped]
  by_cases present : s.Present dir (p / 1024)
  · obtain ⟨presentC, -, words⟩ := h.entry _ hd hd present
    rw [words _ ht]
    exact and_congr_left' (iff_of_true presentC present)
  · have absentC := not_present_of_zero (h.absent _ hd (.inr present))
    exact iff_of_false (fun both => absentC both.1) (fun both => present both.1)

end

-----------------------------------------------------------------------------------------
-- Mapping pages in a clone
-----------------------------------------------------------------------------------------

section

variable {s s₁ s₂ : Paging} {dir c p flags : Nat}

/-- Making a table for a page leaves the clone beside the directory. -/
theorem Beside.needTable (h : Beside s s₁ dir c) (low : flags < 4096) (small : p < 2 ^ 20)
    (needed : s₁.needTable c (4096 * p) flags = some s₂)
    : Beside s s₂ dir c ∧ s₂.Present c (p / 1024) := by
  have hp : p / 1024 < 1024 := by omega
  have made := needed
  rw [Paging.needTable, pgTblExists_page, Option.bind_eq_bind, Option.bind_some,
    dirIndex_page] at made
  by_cases present : s₁.Present c (p / 1024)
  · obtain rfl : s₁ = s₂ := by simpa [present] using made
    exact ⟨h, present⟩
  · replace made : s₁.pgMkPgtbl c (p / 1024) flags = some s₂ := by
      simpa [present] using made
    obtain ⟨⟨frame, pmm⟩, alloc, rest⟩ := Option.bind_eq_some_iff.mp made
    obtain ⟨beside, newFrame, newMarked, notDir, notClone⟩ := h.frameAlloc alloc
    have cloneNe : frame ≠ c := fun clash => notClone (.inl clash)
    obtain ⟨dirWord, otherWord⟩ :=
      pgMkPgtbl_words h.wellFormed.isFrame hp alloc newFrame cloneNe made
    have here : s₂.word c (p / 1024) = frame ||| (pgPresent ||| flags) := by
      rw [dirWord _ hp, if_pos rfl, Nat.or_assoc]
    have lowBoth : pgPresent ||| flags < 4096 :=
      Nat.or_lt_two_pow (show pgPresent < 2 ^ 12 by decide) low
    have elsewhere (d : Nat) (hd : d < 1024) (other : d ≠ p / 1024)
        : s₂.word c d = s₁.word c d :=
      (dirWord d hd).trans (if_neg other)
    obtain ⟨wellFormed, uses⟩ :=
      wellFormed_of_newTable h.wellFormed hp newFrame lowBoth notClone here elsewhere
    have samePmm : s₂.pmm = pmm := by
      rw [← Option.some.inj rest]
      simp [setWord]
    refine ⟨beside.step wellFormed ?_ uses notDir (samePmm ▸ newMarked) ?_ ?_, ?_⟩
    · intro other hother neClone neTable t ht
      rw [otherWord other hother neClone t ht, if_neg neTable]
      rfl
    · rw [samePmm]
      exact Pmm.Keeps.refl _
    · rw [samePmm]
    · rw [Present, here, ← Nat.or_assoc]
      exact entry_present frame flags

/-- Mapping a page in one of the clone's tables leaves the clone beside the directory. -/
theorem Beside.mapPage {phys : Nat} (h : Beside s s₁ dir c) (low : flags < 4096)
    (small : p < 2 ^ 20) (present : s₁.Present c (p / 1024))
    (looped : (List.range 1).foldlM
      (mapPage c (4096 * p) phys flags (s₁.tableAt c (p / 1024))) s₁ = some s₂)
    : Beside s s₂ dir c := by
  have hp : p / 1024 < 1024 := by omega
  have one {tbl frame : Nat} : Misses tbl 1 frame := by
    intro i behind below
    omega
  have stored := Stored.loop h.wellFormed present low (by omega) one (fun _ _ _ => one) looped
  have samePmm : s₂.pmm = s₁.pmm := by
    rw [List.range_one, List.foldlM_cons] at looped
    obtain ⟨s', round, rest⟩ := Option.bind_eq_some_iff.mp looped
    obtain rfl := Option.some.inj rest
    exact mapPage_pmm round
  have sameTable {d : Nat} (hd : d < 1024) : s₂.tableAt c d = s₁.tableAt c d :=
    stored.tableAt_eq low hd
  have samePresent {d : Nat} (hd : d < 1024) : s₂.Present c d ↔ s₁.Present c d :=
    stored.present_iff present hd
  have used : s₁.UsedBy c (s₁.tableAt c (p / 1024)) := .inr ⟨_, hp, present, rfl⟩
  have wellFormed : s₂.WellFormed c := by
    refine ⟨h.wellFormed.isFrame, ?_, ?_⟩
    · intro d hd presentD
      rw [sameTable hd]
      exact h.wellFormed.table_ne d hd ((samePresent hd).mp presentD)
    · intro d hd d' hd' presentD presentD' same
      rw [sameTable hd, sameTable hd'] at same
      exact h.wellFormed.table_inj d hd d' hd' ((samePresent hd).mp presentD)
        ((samePresent hd').mp presentD') same
  refine h.step wellFormed ?_ ?_ (h.apart _ used) ?_ ?_ ?_
  · intro frame hframe neClone neTable t ht
    exact stored.others frame hframe neClone neTable one t ht
  · intro frame usedNow
    rcases usedNow with own | ⟨d, hd, presentD, same⟩
    · exact .inl (.inl own)
    · exact .inl (.inr ⟨d, hd, (samePresent hd).mp presentD, (sameTable hd).symm.trans same⟩)
  · rw [samePmm]
    exact h.marked _ (.inr used)
  · rw [samePmm]
    exact Pmm.Keeps.refl _
  · rw [samePmm]

/-- `pg_alloc` with the clone as the current directory leaves it beside the directory. -/
theorem Beside.pgAlloc {virt phys : Nat} (h : Beside s s₁ dir c) (current : s₁.curPageDir = c)
    (low : flags < 4096) (inWord : virt < 2 ^ 32)
    (returned : s₁.pgAlloc virt flags = some (phys, s₂))
    : Beside s s₂ dir c := by
  subst current
  obtain ⟨⟨frame, pmm⟩, alloc, rest⟩ := Option.bind_eq_some_iff.mp returned
  obtain ⟨s', called, same⟩ := Option.bind_eq_some_iff.mp rest
  obtain ⟨rfl, rfl⟩ := Prod.mk.inj (Option.some.inj same)
  obtain ⟨beside, -⟩ := h.frameAlloc alloc
  rw [pgMapPages] at called
  split at called
  · cases called
  · next aligned =>
      split at called
      · cases called
      · obtain ⟨s₃, needed, looped⟩ := Option.bind_eq_some_iff.mp called
        obtain ⟨p, rfl⟩ : ∃ p, virt = 4096 * p := ⟨virt / 4096, by omega⟩
        have small : p < 2 ^ 20 := by omega
        obtain ⟨besideTable, present⟩ := beside.needTable low small needed
        rw [dirIndex_page] at looped
        exact besideTable.mapPage low small present looped

end

-----------------------------------------------------------------------------------------
-- The kernel's directory and the current one
-----------------------------------------------------------------------------------------

section

variable {s s' : Paging} {dir c : Nat}

def SameDirs (s s' : Paging) : Prop :=
  s'.kerPageDir = s.kerPageDir ∧ s'.curPageDir = s.curPageDir

theorem SameDirs.trans {s'' : Paging} (h : SameDirs s s') (h' : SameDirs s' s'')
    : SameDirs s s'' :=
  ⟨h'.1.trans h.1, h'.2.trans h.2⟩

theorem sameDirs_setWord (s : Paging) (base i value : Nat)
    : SameDirs s (s.setWord base i value) :=
  ⟨rfl, rfl⟩

theorem sameDirs_foldl (round : Paging → Nat → Paging) (each : ∀ s i, SameDirs s (round s i))
    (rounds : List Nat) (s : Paging)
    : SameDirs s (rounds.foldl round s) := by
  induction rounds generalizing s with
  | nil => exact ⟨rfl, rfl⟩
  | cons i rounds ih => exact (each s i).trans (ih (round s i))

theorem sameDirs_foldlM {round : Paging → Nat → Option Paging}
    (each : ∀ s i s', round s i = some s' → SameDirs s s') {rounds : List Nat}
    (looped : rounds.foldlM round s = some s')
    : SameDirs s s' := by
  induction rounds generalizing s with
  | nil =>
      obtain rfl := Option.some.inj looped
      exact ⟨rfl, rfl⟩
  | cons i rounds ih =>
      rw [List.foldlM_cons] at looped
      obtain ⟨s₁, first, rest⟩ := Option.bind_eq_some_iff.mp looped
      exact (each s i s₁ first).trans (ih rest)

theorem sameDirs_clearTable (s : Paging) (table : Nat) : SameDirs s (s.clearTable table) := by
  have each (words : List Nat)
      : SameDirs s (words.foldl (fun s i => s.setWord table i 0) s) :=
    sameDirs_foldl (fun s i => s.setWord table i 0) (fun _ _ => sameDirs_setWord ..) words s
  exact each _

theorem sameDirs_copyTable (s : Paging) (newTbl tbl : Nat)
    : SameDirs s (s.copyTable newTbl tbl) := by
  have each (words : List Nat)
      : SameDirs s (words.foldl (fun s i => s.setWord newTbl i (s.word tbl i)) s) :=
    sameDirs_foldl (fun s i => s.setWord newTbl i (s.word tbl i))
      (fun _ _ => sameDirs_setWord ..) words s
  exact each _

theorem sameDirs_pgMapPages {virt phys num flags : Nat}
    (returned : s.pgMapPages dir virt phys num flags = some s')
    : SameDirs s s' := by
  rw [pgMapPages] at returned
  split at returned
  · cases returned
  split at returned
  · cases returned
  obtain ⟨s₁, needed, looped⟩ := Option.bind_eq_some_iff.mp returned
  have table : SameDirs s s₁ := by
    obtain ⟨tblExists, -, made⟩ := Option.bind_eq_some_iff.mp needed
    cases tblExists with
    | true =>
        rw [← Option.some.inj made]
        exact ⟨rfl, rfl⟩
    | false =>
        obtain ⟨⟨frame, pmm⟩, -, rest⟩ := Option.bind_eq_some_iff.mp made
        have cleared := sameDirs_clearTable { s with pmm } frame
        rw [← Option.some.inj rest]
        exact cleared.trans (sameDirs_setWord _ _ _ _)
  refine table.trans (sameDirs_foldlM (fun s i s' round => ?_) looped)
  obtain ⟨mapped, -, stored⟩ := Option.bind_eq_some_iff.mp round
  rw [← Option.some.inj stored]
  cases mapped <;> exact ⟨rfl, rfl⟩

theorem sameDirs_pgAlloc {virt phys flags : Nat}
    (returned : s.pgAlloc virt flags = some (phys, s'))
    : SameDirs s s' := by
  obtain ⟨⟨frame, pmm⟩, -, rest⟩ := Option.bind_eq_some_iff.mp returned
  obtain ⟨s₁, called, same⟩ := Option.bind_eq_some_iff.mp rest
  obtain ⟨-, rfl⟩ := Prod.mk.inj (Option.some.inj same)
  exact sameDirs_pgMapPages (s := { s with pmm }) called

theorem sameDirs_pgClonePageDir (cloned : s.pgClonePageDir dir = some (c, s'))
    : SameDirs s s' := by
  obtain ⟨⟨newDir, pmm⟩, -, rest⟩ := Option.bind_eq_some_iff.mp cloned
  obtain ⟨s₁, looped, returned⟩ := Option.bind_eq_some_iff.mp rest
  obtain ⟨-, rfl⟩ := Prod.mk.inj (Option.some.inj returned)
  have start := sameDirs_clearTable { s with pmm } newDir
  refine start.trans (sameDirs_foldlM (fun s i s' round => ?_) looped)
  rw [cloneEntry] at round
  split at round
  · obtain ⟨⟨entry, s₂⟩, copied, stored⟩ := Option.bind_eq_some_iff.mp round
    obtain ⟨⟨newTbl, pmm'⟩, -, made⟩ := Option.bind_eq_some_iff.mp copied
    obtain ⟨-, same⟩ := Prod.mk.inj (Option.some.inj made)
    have table := sameDirs_copyTable { s with pmm := pmm' } newTbl (s.word dir i &&& pgFrame)
    rw [same] at table
    rw [← Option.some.inj stored]
    exact ⟨table.1, table.2⟩
  · rw [← Option.some.inj round]
    exact ⟨rfl, rfl⟩

end

-----------------------------------------------------------------------------------------
-- Runs in a clone
-----------------------------------------------------------------------------------------

/-- The calls that are made with a clone as the current directory. -/
inductive CloneCall where
  | frameAlloc
  | pgAlloc (virt flags : Nat)

/-- A call that returns. Addresses are 32-bit, flags are bits of `PG_FLAGS`. -/
def cloneCall (s : Paging) : CloneCall → Option Paging
  | .frameAlloc => s.pmm.frameAlloc.map (fun taken => { s with pmm := taken.2 })
  | .pgAlloc virt flags =>
      if virt < 2 ^ 32 ∧ flags ≤ pgFlags then
        (s.pgAlloc virt flags).map Prod.snd
      else
        none

def cloneCalls (s : Paging) (c : Nat) : TransitionSystem Paging CloneCall where
  init s' := s' = { s with curPageDir := c }
  step s' call s'' := s'.cloneCall call = some s''

/-- A directory `c` maps what a directory `dir` maps in another state, with the same flags. -/
def MapsAlike (s s' : Paging) (dir c : Nat) : Prop :=
  ∀ virt < 2 ^ 32, virt % pgSize = 0
    → s'.pgIsMapped c virt = s.pgIsMapped dir virt
      ∧ (s.pgIsMapped dir virt = some true
        → s'.pgVirtToPhys c virt = s.pgVirtToPhys dir virt
          ∧ s'.pte c virt &&& pgFlags = s.pte dir virt &&& pgFlags
          ∧ s'.pde c virt &&& pgFlags = s.pde dir virt &&& pgFlags)

section

variable {s s₁ s₂ : Paging} {dir c : Nat}

/-- In every state of every run in the clone, the directory and the clone lie beside each
other, by induction on the run.
-/
theorem Beside.reachable (h : Beside s s₁ dir c) (reached : (cloneCalls s₁ c).Reachable s₂)
    : Beside s s₂ dir c := by
  have start (s' : Paging) (first : (cloneCalls s₁ c).init s')
      : Beside s s' dir c ∧ s'.curPageDir = c := by
    obtain rfl : s' = { s₁ with curPageDir := c } := first
    obtain ⟨cloneFrame, table_ne, table_inj⟩ := h.wellFormed
    exact ⟨⟨h.isFrame, ⟨cloneFrame, table_ne, table_inj⟩, h.untouched, h.marked, h.apart,
      h.scanned⟩, rfl⟩
  have step (s' : Paging) (call : CloneCall) (s'' : Paging)
      (invariant : Beside s s' dir c ∧ s'.curPageDir = c)
      (taken : (cloneCalls s₁ c).step s' call s'')
      : Beside s s'' dir c ∧ s''.curPageDir = c := by
    obtain ⟨beside, current⟩ := invariant
    cases call with
    | frameAlloc =>
        obtain ⟨⟨frame, pmm⟩, alloc, rfl⟩ := Option.map_eq_some_iff.mp taken
        exact ⟨(beside.frameAlloc alloc).1, current⟩
    | pgAlloc virt flags =>
        obtain ⟨⟨inWord, low⟩, called⟩ := Option.ite_none_right_eq_some.mp taken
        obtain ⟨⟨phys, s₃⟩, returned, rfl⟩ := Option.map_eq_some_iff.mp called
        refine ⟨beside.pgAlloc current (Nat.lt_succ_of_le low) inWord returned, ?_⟩
        rw [(sameDirs_pgAlloc returned).2, current]
  exact (reached.invariant start step).1

end

/-- The loop of `pg_clone_page_dir` does nothing for entries that are not present, by
induction on them.
-/
theorem cloneEntries_absent {s : Paging} {dir c : Nat} {entries : List Nat}
    (absent : ∀ d ∈ entries, ¬ s.Present dir d)
    : entries.foldlM (cloneEntry dir c) s = some s := by
  induction entries with
  | nil => rfl
  | cons d entries ih =>
      have here := absent d (List.mem_cons_self ..)
      have rest := ih (fun d' member => absent d' (List.mem_cons_of_mem _ member))
      rw [Present] at here
      rw [List.foldlM_cons, cloneEntry, if_neg here]
      exact rest

theorem pgClonePageDir_of_firstTable {s : Paging} {dir c newTbl : Nat} {pmm pmm' : Pmm}
    (owned : s.Owned dir) (scanned : s.pmm.scannedWords ≤ 2 ^ 15) (present : s.Present dir 0)
    (absent : ∀ d < 1024, d ≠ 0 → ¬ s.Present dir d)
    (alloc : s.pmm.frameAlloc = some (c, pmm)) (alloc' : pmm.frameAlloc = some (newTbl, pmm'))
    : ∃ s', s.pgClonePageDir dir = some (c, s') ∧ s'.pmm = pmm' := by
  have new := Copied.new owned scanned alloc
  have still := present
  rw [Present, ← new.beside.untouched.entry (by decide)] at still
  obtain ⟨s₁, round, pmm₁⟩ : ∃ s₁,
      cloneEntry dir c (({ s with pmm } : Paging).clearTable c) 0 = some s₁
        ∧ s₁.pmm = pmm' := by
    simp only [cloneEntry, if_pos still, pgClonePageTable, clearTable_pmm, alloc',
      Option.bind_eq_bind, Option.bind_some]
    exact ⟨_, rfl, by simp [setWord]⟩
  have copied := new.step (by decide) round
  have rest (d : Nat) (member : d ∈ (List.range 1023).map Nat.succ)
      : ¬ s₁.Present dir d := by
    obtain ⟨n, below, rfl⟩ := List.mem_map.mp member
    have hd : n + 1 < 1024 := Nat.succ_lt_succ (List.mem_range.mp below)
    rw [Present, copied.beside.untouched.entry hd]
    exact absent (n + 1) hd (Nat.succ_ne_zero n)
  have looped : (List.range 1024).foldlM (cloneEntry dir c)
      (({ s with pmm } : Paging).clearTable c) = some s₁ := by
    rw [List.range_succ_eq_map, List.foldlM_cons, round, Option.bind_eq_bind,
      Option.bind_some, cloneEntries_absent rest]
  refine ⟨s₁, ?_, pmm₁⟩
  exact Option.bind_eq_some_iff.mpr
    ⟨(c, pmm), alloc, Option.bind_eq_some_iff.mpr ⟨s₁, looped, rfl⟩⟩

/-- A directory at `0x5000` with one table, at `0x6000`, that maps page 0, and both frames
marked.
-/
def mappedImage : Paging where
  pmm :=
    { placementAddr := 0x100000
      framesBmp := fun i => if i = 0 then 0x60 else 0
      memorySize := 0x100000 }
  mem addr := if addr = 0x5000 then 0x6003 else if addr = 0x6000 then 0x7003 else pgRw
  kerPageDir := 0x5000
  curPageDir := 0x5000

/-- The entries of the directory but the first are not present. -/
theorem mappedImage_absent (d : Nat) (hd : d < 1024) (other : d ≠ 0)
    : ¬ mappedImage.Present 0x5000 d := by
  have address : (0x5000 + 4 * d) % 2 ^ 32 = 0x5000 + 4 * d := by omega
  have first : 0x5000 + 4 * d ≠ 0x5000 := by omega
  have second : 0x5000 + 4 * d ≠ 0x6000 := by omega
  have entry : mappedImage.word 0x5000 d = pgRw := by
    rw [word, address]
    exact (if_neg first).trans (if_neg second)
  rw [Present, entry]
  decide

theorem mappedImage_owned : mappedImage.Owned 0x5000 := by
  refine ⟨⟨by decide, by decide⟩, ?_⟩
  intro frame used
  rcases used with rfl | ⟨d, hd, present, rfl⟩
  · rw [Pmm.Marked]
    decide
  · rcases eq_or_ne d 0 with rfl | other
    · rw [Pmm.Marked]
      decide
    · exact absurd present (mappedImage_absent d hd other)

end Hydrangea.Paging
