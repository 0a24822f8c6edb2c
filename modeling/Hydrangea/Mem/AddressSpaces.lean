import Hydrangea.Mem.PagingInit

/-! The address spaces of user programs: whatever programs are started and switched to, and whatever
they allocate and store, each one has its memory for itself, and none reaches a page table.
-/

namespace Hydrangea

namespace Paging

variable {s s' : Paging} {dir dir' c d f p t : Nat}

-----------------------------------------------------------------------------------------
-- Directories that a call leaves alone
-----------------------------------------------------------------------------------------

theorem Untouched.present (h : Untouched s s' dir) (small : d < 1024)
    : s'.Present dir d ↔ s.Present dir d := by
  rw [Present, h.entry small, Present]

theorem Untouched.tableAt (h : Untouched s s' dir) (small : d < 1024)
    : s'.tableAt dir d = s.tableAt dir d := by
  rw [Paging.tableAt, h.entry small, Paging.tableAt]

theorem Untouched.usedBy (h : Untouched s s' dir) : s'.UsedBy dir f ↔ s.UsedBy dir f := by
  refine or_congr_right (exists_congr (fun d => and_congr_right (fun small => ?_)))
  rw [h.present small, h.tableAt small]

theorem Untouched.slot (h : Untouched s s' dir) (present : s.Present dir (p / 1024))
    (small : p < 2 ^ 20)
    : s'.slot dir p = s.slot dir p := by
  have inside : p / 1024 < 1024 := by omega
  rw [Paging.slot, h.tableAt inside, Paging.slot]
  exact h _ (.inr ⟨_, inside, present, rfl⟩) _ (Nat.mod_lt _ (by decide))

theorem Untouched.mapped (h : Untouched s s' dir) (small : p < 2 ^ 20)
    : s'.Mapped dir p ↔ s.Mapped dir p := by
  rw [Mapped, Mapped, h.present (by omega)]
  refine and_congr_right (fun present => ?_)
  have same := h.slot present small
  rw [Paging.slot, Paging.slot] at same
  rw [same]

/-- What is left alone stays a directory with its frames marked. -/
theorem Live.untouched (live : s.Live dir) (h : Untouched s s' dir)
    (keeps : Pmm.Keeps s.pmm s'.pmm) (scanned : s'.pmm.scannedWords ≤ 2 ^ 15)
    : s'.Live dir :=
  (live.of_entries (fun _ hd => h.present hd) (fun _ hd => h.tableAt hd) keeps scanned).1

-----------------------------------------------------------------------------------------
-- Pages of ring 3
-----------------------------------------------------------------------------------------

/-- The table entry of a page lets ring 3 access it. -/
def UserEntry (s : Paging) (dir p : Nat) : Prop :=
  p < 2 ^ 20 ∧ s.Mapped dir p ∧ s.slot dir p &&& pgUser ≠ 0

instance (s : Paging) (dir p : Nat) : Decidable (s.UserEntry dir p) :=
  inferInstanceAs (Decidable (_ ∧ _ ∧ _ ≠ _))

/-- The processor lets ring 3 access a page: the directory entry does too. -/
def UserPage (s : Paging) (dir p : Nat) : Prop :=
  s.UserEntry dir p ∧ s.word dir (p / 1024) &&& pgUser ≠ 0

instance (s : Paging) (dir p : Nat) : Decidable (s.UserPage dir p) :=
  inferInstanceAs (Decidable (_ ∧ _ ≠ _))

def userFrame (s : Paging) (dir p : Nat) : Nat :=
  s.slot dir p &&& pgFrame

/-- What ring 3 reads from word `t` of a page, if that is no page fault. -/
def userLoad (s : Paging) (dir p t : Nat) : Option Nat :=
  if s.UserPage dir p ∧ t < 1024 then some (s.word (s.userFrame dir p) t) else none

/-- A store of ring 3 to word `t` of a page, if that is no page fault. -/
def userStore (s : Paging) (p t value : Nat) : Option Paging :=
  if s.UserPage s.curPageDir p ∧ t < 1024 ∧ s.slot s.curPageDir p &&& pgRw ≠ 0
      ∧ s.word s.curPageDir (p / 1024) &&& pgRw ≠ 0 then
    some (s.setWord (s.userFrame s.curPageDir p) t value)
  else none

theorem isFrame_userFrame (s : Paging) (dir p : Nat) : IsFrame (s.userFrame dir p) :=
  isFrame_and_pgFrame _

/-- The pages of a directory that is left alone. -/
theorem Untouched.userEntry (h : Untouched s s' dir)
    : s'.UserEntry dir p ↔ s.UserEntry dir p := by
  refine and_congr_right (fun small => ?_)
  rw [h.mapped small]
  refine and_congr_right (fun mapped => ?_)
  rw [h.slot mapped.1 small]

theorem Untouched.userFrame (h : Untouched s s' dir) (entry : s.UserEntry dir p)
    : s'.userFrame dir p = s.userFrame dir p := by
  rw [Paging.userFrame, h.slot entry.2.1.1 entry.1, Paging.userFrame]

theorem Untouched.userPage (h : Untouched s s' dir) : s'.UserPage dir p ↔ s.UserPage dir p := by
  rw [UserPage, UserPage, h.userEntry]
  refine and_congr_right (fun entry => ?_)
  have small := entry.1
  rw [h.entry (by omega)]

/-- What ring 3 reads there, if the frames of the pages have kept their words too. -/
theorem Untouched.userLoad (h : Untouched s s' dir)
    (words : ∀ p t, s.UserEntry dir p → t < 1024
      → s'.word (s.userFrame dir p) t = s.word (s.userFrame dir p) t)
    : s'.userLoad dir = s.userLoad dir := by
  funext p t
  refine if_ctx_congr (and_congr_left' h.userPage) (fun both => ?_) (fun _ => rfl)
  rw [h.userFrame both.1.1, words p t both.1.1 both.2]

-----------------------------------------------------------------------------------------
-- Address spaces
-----------------------------------------------------------------------------------------

/-- Directories in frames of their own, all marked used. The frames of their user pages are marked
used too, hold no directory or table, and each belongs to one page of one directory.
-/
structure Isolated (s : Paging) (dirs : List Nat) : Prop where
  live : ∀ dir ∈ dirs, s.Live dir
  apart : ∀ dir ∈ dirs, ∀ dir' ∈ dirs, dir ≠ dir' → ∀ f, s.UsedBy dir f → ¬ s.UsedBy dir' f
  marked : ∀ dir ∈ dirs, ∀ p, s.UserEntry dir p → s.pmm.Marked (s.userFrame dir p / 4096)
  hidden : ∀ dir ∈ dirs, ∀ p, s.UserEntry dir p → ∀ dir' ∈ dirs,
    ¬ s.UsedBy dir' (s.userFrame dir p)
  once : ∀ dir ∈ dirs, ∀ dir' ∈ dirs, ∀ p p', s.UserEntry dir p → s.UserEntry dir' p'
    → s.userFrame dir p = s.userFrame dir' p' → dir = dir' ∧ p = p'

/-- What a call does to the directories: it changes the directory `c`, which may be new, and leaves
the others alone. The frames that this then uses are its own from before or new, and so is that of
each of its user pages but one.
-/
structure Changes (s s' : Paging) (dirs dirs' : List Nat) (c page : Nat) : Prop where
  members : ∀ dir ∈ dirs', dir ≠ c → dir ∈ dirs
  untouched : ∀ dir ∈ dirs, dir ≠ c → Untouched s s' dir
  keeps : Pmm.Keeps s.pmm s'.pmm
  live : s'.Live c
  uses : ∀ f, s'.UsedBy c f → c ∈ dirs ∧ s.UsedBy c f ∨ ¬ s.pmm.Marked (f / 4096)
  entries : ∀ p, s'.UserEntry c p →
    c ∈ dirs ∧ s.UserEntry c p ∧ s'.userFrame c p = s.userFrame c p
    ∨ p = page ∧ ¬ s.pmm.Marked (s'.userFrame c p / 4096)
      ∧ s'.pmm.Marked (s'.userFrame c p / 4096) ∧ ¬ s'.UsedBy c (s'.userFrame c p)

theorem Isolated.of_mem {dirs dirs' : List Nat} (h : s.Isolated dirs)
    (sub : ∀ dir, dir ∈ dirs' → dir ∈ dirs)
    : s.Isolated dirs' where
  live dir here := h.live dir (sub dir here)
  apart dir here dir' here' := h.apart dir (sub dir here) dir' (sub dir' here')
  marked dir here := h.marked dir (sub dir here)
  hidden dir here p entry dir' here' := h.hidden dir (sub dir here) p entry dir' (sub dir' here')
  once dir here dir' here' := h.once dir (sub dir here) dir' (sub dir' here')

section

variable {dirs dirs' : List Nat} {page : Nat}

/-- The frames that a directory uses behind a call are its own from before, or new. -/
theorem Changes.usedBy (h : Changes s s' dirs dirs' c page) (member : dir ∈ dirs')
    (used : s'.UsedBy dir f)
    : dir ∈ dirs ∧ s.UsedBy dir f ∨ dir = c ∧ ¬ s.pmm.Marked (f / 4096) := by
  by_cases changed : dir = c
  · subst changed
    exact (h.uses f used).imp_right (fun new => ⟨rfl, new⟩)
  · have before := h.members dir member changed
    exact .inl ⟨before, (h.untouched dir before changed).usedBy.mp used⟩

/-- Its user pages are those from before, or the new one. -/
theorem Changes.userEntry (h : Changes s s' dirs dirs' c page) (member : dir ∈ dirs')
    (entry : s'.UserEntry dir p)
    : dir ∈ dirs ∧ s.UserEntry dir p ∧ s'.userFrame dir p = s.userFrame dir p
      ∨ dir = c ∧ p = page ∧ ¬ s.pmm.Marked (s'.userFrame dir p / 4096)
        ∧ s'.pmm.Marked (s'.userFrame dir p / 4096) ∧ ¬ s'.UsedBy c (s'.userFrame dir p) := by
  by_cases changed : dir = c
  · subst changed
    exact (h.entries p entry).imp_right (fun new => ⟨rfl, new⟩)
  · have before := h.members dir member changed
    have alone := h.untouched dir before changed
    have entry' := alone.userEntry.mp entry
    exact .inl ⟨before, entry', alone.userFrame entry'⟩

/-- Such a call keeps the address spaces isolated. -/
theorem Isolated.changes (isolated : s.Isolated dirs) (h : Changes s s' dirs dirs' c page)
    : s'.Isolated dirs' where
  live dir member := by
    by_cases changed : dir = c
    · rw [changed]
      exact h.live
    · have before := h.members dir member changed
      exact (isolated.live dir before).untouched (h.untouched dir before changed) h.keeps
        h.live.scanned
  apart dir member dir' member' other f used used' := by
    rcases h.usedBy member used with ⟨before, old⟩ | ⟨changed, new⟩
    · rcases h.usedBy member' used' with ⟨before', old'⟩ | ⟨-, new⟩
      · exact isolated.apart dir before dir' before' other f old old'
      · exact new ((isolated.live dir before).marked f old)
    · rcases h.usedBy member' used' with ⟨before', old'⟩ | ⟨changed', -⟩
      · exact new ((isolated.live dir' before').marked f old')
      · exact other (changed.trans changed'.symm)
  marked dir member p entry := by
    rcases h.userEntry member entry with ⟨before, old, same⟩ | ⟨-, -, -, set, -⟩
    · rw [same]
      exact h.keeps _ (isolated.marked dir before p old)
    · exact set
  hidden dir member p entry dir' member' used := by
    rcases h.userEntry member entry with ⟨before, old, same⟩ | ⟨-, -, new, -, unused⟩
    · rw [same] at used
      rcases h.usedBy member' used with ⟨before', old'⟩ | ⟨-, new⟩
      · exact isolated.hidden dir before p old dir' before' old'
      · exact new (isolated.marked dir before p old)
    · rcases h.usedBy member' used with ⟨before', old'⟩ | ⟨changed, -⟩
      · exact new ((isolated.live dir' before').marked _ old')
      · rw [changed] at used
        exact unused used
  once dir member dir' member' p p' entry entry' same := by
    rcases h.userEntry member entry with ⟨before, old, kept⟩ | ⟨changed, first, new, -⟩
    · rcases h.userEntry member' entry' with ⟨before', old', kept'⟩ | ⟨-, -, new', -⟩
      · rw [kept, kept'] at same
        exact isolated.once dir before dir' before' p p' old old' same
      · rw [← same, kept] at new'
        exact absurd (isolated.marked dir before p old) new'
    · rcases h.userEntry member' entry' with ⟨before', old', kept'⟩ | ⟨changed', second, -⟩
      · rw [same, kept'] at new
        exact absurd (isolated.marked dir' before' p' old') new
      · exact ⟨changed.trans changed'.symm, first.trans second.symm⟩

end

-----------------------------------------------------------------------------------------
-- Allocating a page
-----------------------------------------------------------------------------------------

section

variable {dirs : List Nat} {virt phys flags : Nat}

/-- A frame that some directory does not use is not used by the current one behind `pg_alloc`,
if it is marked.
-/
theorem PageAdded.unused_of_marked (added : PageAdded s s' c p phys flags)
    (unused : ¬ s.UsedBy c f) (set : s.pmm.Marked (f / 4096))
    : ¬ s'.UsedBy c f := by
  intro used
  rcases added.grows.uses f used with old | new
  · exact unused old
  · exact new set

/-- `pg_alloc` changes the current directory alone, and no memory of the others. -/
theorem Isolated.pgAlloc (isolated : s.Isolated dirs) (member : s.curPageDir ∈ dirs)
    (low : flags < 4096) (inWord : virt < 2 ^ 32)
    (returned : s.pgAlloc virt flags = some (phys, s'))
    : s'.Isolated dirs
      ∧ ∀ dir ∈ dirs, dir ≠ s.curPageDir
        → Untouched s s' dir ∧ s'.userLoad dir = s.userLoad dir := by
  obtain ⟨p, small, rfl, added⟩ := pgAlloc_pageAdded (isolated.live _ member) low inWord returned
  generalize s.curPageDir = c at *
  have untouched (dir : Nat) (here : dir ∈ dirs) (other : dir ≠ c) : Untouched s s' dir := by
    intro frame used t inside
    refine added.grows.others frame (used.isFrame (isolated.live dir here).wellFormed.isFrame)
      (added.unused_of_marked ?_ ((isolated.live dir here).marked frame used)) t inside
    exact isolated.apart dir here c member other frame used
  have changes : Changes s s' dirs dirs c (1024 * (p / 1024)) := by
    refine ⟨fun _ here _ => here, untouched, added.grows.keeps, added.grows.live,
      fun f used => (added.grows.uses f used).imp_left (fun old => ⟨member, old⟩),
      fun q entry => ?_⟩
    obtain ⟨inside, mapped, user⟩ := entry
    by_cases region : q / 1024 = p / 1024 ∧ q % 1024 < 1
    · have slot := (added.outcome.written q inside region.1 region.2).2
      have frame : s'.userFrame c q = phys := by
        have first : q % 1024 = 0 := by omega
        have fits : phys < 2 ^ 32 := added.isFrame.2
        rw [userFrame, slot, first, newPte_and_pgFrame added.isFrame.1 low, Nat.zero_mul,
          Nat.add_zero, Nat.mod_eq_of_lt fits]
      rw [frame]
      exact .inr ⟨by omega, added.clear, added.marked, added.unused⟩
    · obtain ⟨same, slot⟩ := added.outcome.kept q inside (by omega)
      have mapped' := same.mp mapped
      have slot' := slot mapped'
      refine .inl ⟨member, ⟨inside, mapped', ?_⟩, by rw [userFrame, slot', userFrame]⟩
      rwa [← slot']
  refine ⟨isolated.changes changes, fun dir here other => ⟨untouched dir here other, ?_⟩⟩
  refine (untouched dir here other).userLoad (fun q t entry inside => ?_)
  refine added.grows.others _ (isFrame_userFrame s dir q) (added.unused_of_marked ?_ ?_) t inside
  · exact isolated.hidden dir here q entry c member
  · exact isolated.marked dir here q entry

end

-----------------------------------------------------------------------------------------
-- Making a directory
-----------------------------------------------------------------------------------------

/-- What making a directory `c` does to the rest: frames that were marked used keep their words, and
those of `c` are new.
-/
structure Spares (s s' : Paging) (c : Nat) : Prop where
  keeps : Pmm.Keeps s.pmm s'.pmm
  words : ∀ f, IsFrame f → s.pmm.Marked (f / 4096) → ∀ t < 1024, s'.word f t = s.word f t
  new : ∀ f, s'.UsedBy c f → ¬ s.pmm.Marked (f / 4096)

section

variable {s₁ s₂ : Paging} {pmm : Pmm} {i n : Nat}

theorem Spares.start (scanned : s.pmm.scannedWords ≤ 2 ^ 15)
    (alloc : s.pmm.frameAlloc = some (c, pmm))
    : Spares s (({ s with pmm } : Paging).clearTable c) c := by
  obtain ⟨-, -, clear, -, bits, -⟩ := Pmm.frameAlloc_lowest scanned alloc
  have cloneFrame := isFrame_of_frameAlloc scanned alloc
  refine ⟨?_, fun f frame set t inside => ?_, fun f used => ?_⟩
  · rw [clearTable_pmm]
    exact fun f set => (bits f).mpr (.inr set)
  · have ne : f ≠ c := by
      rintro rfl
      exact clear set
    rw [clearTable_word cloneFrame frame inside, if_neg ne]
    rfl
  · rcases used with rfl | ⟨d, hd, present, -⟩
    · exact clear
    · refine absurd present (not_present_of_zero ?_)
      rw [clearTable_word cloneFrame cloneFrame hd, if_pos rfl]

/-- One round of the loop of `pg_clone_page_dir`. -/
theorem Spares.step (h : Spares s s₁ c) (copied : Copied s s₁ dir c i) (inside : i < 1024)
    (round : cloneEntry dir c s₁ i = some s₂)
    : Spares s s₂ c := by
  by_cases present : s₁.Present dir i
  · obtain ⟨⟨newTbl, pmm⟩, alloc⟩ : ∃ taken, s₁.pmm.frameAlloc = some taken := by
      cases alloc : s₁.pmm.frameAlloc with
      | none =>
          rw [Present] at present
          simp [cloneEntry, if_pos present, pgClonePageTable, alloc] at round
      | some taken => exact ⟨taken, rfl⟩
    have untouched := copied.beside.untouched
    have tableUsed : s.UsedBy dir (s₁.tableAt dir i) :=
      .inr ⟨i, inside, (untouched.present inside).mp present, (untouched.tableAt inside).symm⟩
    obtain ⟨-, newFrame, -, notDir, notClone⟩ := copied.beside.frameAlloc alloc
    obtain ⟨-, -, clear, -, bits, -⟩ := Pmm.frameAlloc_lowest copied.beside.scanned alloc
    obtain ⟨samePmm, here, elsewhere, -, others⟩ :=
      cloneEntry_words copied.beside.isFrame copied.beside.wellFormed.isFrame
        (fun same => copied.beside.apart c (.inl rfl) (.inl same.symm)) inside alloc newFrame
        (fun same => notDir (.inl same.symm)) (fun same => notClone (.inl same.symm))
        (fun same => notDir (same ▸ tableUsed)) present round
    have low : s₁.word dir i &&& pgFlags < 4096 :=
      Nat.and_lt_two_pow _ (show pgFlags < 2 ^ 12 by decide)
    obtain ⟨-, uses⟩ := wellFormed_of_newTable copied.beside.wellFormed inside newFrame low
      notClone here elsewhere
    have newClear : ¬ s.pmm.Marked (newTbl / 4096) := fun set => clear (h.keeps _ set)
    refine ⟨?_, fun f frame set t below => ?_, fun f used => ?_⟩
    · rw [samePmm]
      exact h.keeps.trans (fun f set => (bits f).mpr (.inr set))
    · have neClone : f ≠ c := by
        rintro rfl
        exact h.new f (.inl rfl) set
      have neTable : f ≠ newTbl := by
        rintro rfl
        exact newClear set
      rw [others f frame neClone neTable t below, h.words f frame set t below]
    · rcases uses f used with old | rfl
      · exact h.new f old
      · exact newClear
  · obtain rfl : s₁ = s₂ := by
      rw [Present] at present
      simpa [cloneEntry, if_neg present] using round
    exact h

/-- The whole loop, by induction on the entries seen. -/
theorem Spares.loop (h : Spares s s₁ c) (copied : Copied s s₁ dir c 0) (few : n ≤ 1024)
    (looped : (List.range n).foldlM (cloneEntry dir c) s₁ = some s₂)
    : Spares s s₂ c := by
  induction n generalizing s₂ with
  | zero =>
      obtain rfl : s₁ = s₂ := by simpa using looped
      exact h
  | succ n ih =>
      rw [List.range_succ, List.foldlM_append] at looped
      obtain ⟨before, loopedBefore, round⟩ := Option.bind_eq_some_iff.mp looped
      have earlier := copied.loop (by omega) loopedBefore
      exact (ih (by omega) loopedBefore).step earlier few (by simpa using round)

end

theorem spares_of_pgClonePageDir (owned : s.Owned dir) (scanned : s.pmm.scannedWords ≤ 2 ^ 15)
    (cloned : s.pgClonePageDir dir = some (c, s'))
    : Spares s s' c := by
  obtain ⟨⟨newDir, pmm⟩, alloc, rest⟩ := Option.bind_eq_some_iff.mp cloned
  obtain ⟨s₁, looped, returned⟩ := Option.bind_eq_some_iff.mp rest
  obtain ⟨rfl, rfl⟩ := Prod.mk.inj (Option.some.inj returned)
  exact (Spares.start scanned alloc).loop (Copied.new owned scanned alloc) (Nat.le_refl _)
    looped

/-- Making a directory from one without user pages changes no memory of the others. -/
theorem Isolated.pgClonePageDir {dirs : List Nat} (isolated : s.Isolated dirs)
    (member : dir ∈ dirs) (noUser : ∀ p, ¬ s.UserEntry dir p)
    (cloned : s.pgClonePageDir dir = some (c, s'))
    : c ∉ dirs ∧ s'.Isolated (c :: dirs) ∧ (∀ p, ¬ s'.UserEntry dir p)
      ∧ ∀ dir' ∈ dirs, s'.userLoad dir' = s.userLoad dir' := by
  have live := isolated.live dir member
  have owned : s.Owned dir := ⟨live.wellFormed.isFrame, live.marked⟩
  have copied := copied_of_pgClonePageDir owned live.scanned cloned
  have spares := spares_of_pgClonePageDir owned live.scanned cloned
  have untouched (dir' : Nat) (here : dir' ∈ dirs) : Untouched s s' dir' := fun frame used =>
    spares.words frame (used.isFrame (isolated.live dir' here).wellFormed.isFrame)
      ((isolated.live dir' here).marked frame used)
  have changes : Changes s s' dirs (c :: dirs) c 0 := by
    refine ⟨fun d here other => (List.mem_cons.mp here).resolve_left other,
      fun d here _ => untouched d here, spares.keeps,
      ⟨copied.beside.wellFormed, fun f used => copied.beside.marked f (.inr used),
        copied.beside.scanned⟩, fun f used => .inr (spares.new f used), fun p entry => ?_⟩
    obtain ⟨small, mapped, user⟩ := entry
    have mapped' := (copied.mapped_iff small).mp mapped
    obtain ⟨-, -, words⟩ := copied.entry (p / 1024) (by omega) (by omega) mapped'.1
    refine absurd ⟨small, mapped', ?_⟩ (noUser p)
    rw [slot, ← words _ (Nat.mod_lt _ (by decide))]
    exact user
  refine ⟨fun here => ?_, isolated.changes changes, fun p entry => ?_, fun dir' here => ?_⟩
  · exact spares.new c (.inl rfl) ((isolated.live c here).marked c (.inl rfl))
  · exact noUser p ((untouched dir member).userEntry.mp entry)
  · refine (untouched dir' here).userLoad (fun p t entry inside => ?_)
    exact spares.words _ (isFrame_userFrame s dir' p) (isolated.marked dir' here p entry) t inside

-----------------------------------------------------------------------------------------
-- Storing
-----------------------------------------------------------------------------------------

/-- What a store of ring 3 does: it changes the word of its page alone. The frame of the page is
that of no directory or table and of no other page, which is what isolation says.
-/
theorem Isolated.userStore {dirs : List Nat} {value : Nat} (isolated : s.Isolated dirs)
    (member : s.curPageDir ∈ dirs) (stored : s.userStore p t value = some s')
    : s'.Isolated dirs ∧ s'.kerPageDir = s.kerPageDir ∧ (∀ dir ∈ dirs, Untouched s s' dir)
      ∧ ∀ dir ∈ dirs, s'.userLoad dir
        = if dir = s.curPageDir then
            fun p' t' => if p' = p ∧ t' = t then some value else s.userLoad dir p' t'
          else s.userLoad dir := by
  obtain ⟨⟨page, inside, -⟩, same⟩ := Option.ite_none_right_eq_some.mp stored
  obtain rfl := Option.some.inj same
  have frame := isFrame_userFrame s s.curPageDir p
  have words (f : Nat) (isFrame : IsFrame f) (t' : Nat) (inside' : t' < 1024)
      : (s.setWord (s.userFrame s.curPageDir p) t value).word f t'
        = if f = s.userFrame s.curPageDir p ∧ t' = t then value else s.word f t' := by
    by_cases here : f = s.userFrame s.curPageDir p
    · subst here
      rw [word_setWord frame inside inside']
      simp
    · rw [if_neg (fun both => here both.1), word_setWord_of_ne frame isFrame here inside inside']
  have untouched (dir : Nat) (here : dir ∈ dirs)
      : Untouched s (s.setWord (s.userFrame s.curPageDir p) t value) dir := by
    intro f used t' inside'
    have live := isolated.live dir here
    rw [words f (used.isFrame live.wellFormed.isFrame) t' inside', if_neg]
    rintro ⟨rfl, -⟩
    exact isolated.hidden _ member p page.1 dir here used
  have changes : Changes s (s.setWord (s.userFrame s.curPageDir p) t value) dirs dirs s.curPageDir
      0 := by
    have own := untouched _ member
    refine ⟨fun _ here _ => here, fun dir here _ => untouched dir here, Pmm.Keeps.refl _,
      (isolated.live _ member).untouched own (Pmm.Keeps.refl _) (isolated.live _ member).scanned,
      fun f used => .inl ⟨member, own.usedBy.mp used⟩, fun q entry => ?_⟩
    have entry' := own.userEntry.mp entry
    exact .inl ⟨member, entry', own.userFrame entry'⟩
  refine ⟨isolated.changes changes, rfl, untouched, fun dir here => ?_⟩
  split
  next current =>
    funext p' t'
    by_cases word : p' = p ∧ t' = t
    · rw [if_pos word, word.1, word.2, userLoad, current,
        if_pos ⟨(untouched _ member).userPage.mpr page, inside⟩,
        (untouched _ member).userFrame page.1, words _ frame t inside, if_pos ⟨rfl, rfl⟩]
    · rw [if_neg word, userLoad, userLoad]
      refine if_ctx_congr (and_congr_left' (untouched dir here).userPage) (fun both => ?_)
        (fun _ => rfl)
      rw [(untouched dir here).userFrame both.1.1, words _ (isFrame_userFrame s dir p') t' both.2,
        if_neg]
      rintro ⟨same, last⟩
      exact word ⟨(isolated.once dir here _ member p' p both.1.1 page.1 same).2, last⟩
  next other =>
    refine (untouched dir here).userLoad (fun p' t' entry inside' => ?_)
    rw [words _ (isFrame_userFrame s dir p') t' inside', if_neg]
    rintro ⟨same, -⟩
    exact other (isolated.once dir here _ member p' p entry page.1 same).1

end Paging

-----------------------------------------------------------------------------------------
-- Runs
-----------------------------------------------------------------------------------------

open Paging

/-- Memory, and the directories that `pg_make_user_page_dir` has made, latest first. -/
structure Spaces where
  memory : Paging
  programs : List Nat

/-- What happens: a directory is made for a program, the scheduler switches to one of a program or
to that of the kernel, a program that is being loaded gets a page, or it stores a word.
-/
inductive SpaceCall where
  | pgMakeUserPageDir
  | pgSwitchPageDir (dir : Nat)
  | pgAlloc (virt : Nat)
  | store (p t value : Nat)

namespace Spaces

def dirs (s : Spaces) : List Nat :=
  s.memory.kerPageDir :: s.programs

/-- A call that returns, or a store that is no page fault. The pages of programs are allocated with
`PG_RW | PG_USER`, in their own directories.
-/
def call (s : Spaces) : SpaceCall → Option Spaces
  | .pgMakeUserPageDir =>
      s.memory.pgMakeUserPageDir.map (fun made => ⟨made.2, made.1 :: s.programs⟩)
  | .pgSwitchPageDir dir =>
      if dir ∈ s.dirs then some { s with memory := { s.memory with curPageDir := dir } } else none
  | .pgAlloc virt =>
      if s.memory.curPageDir ∈ s.programs ∧ virt < 2 ^ 32 then
        (s.memory.pgAlloc virt (pgRw ||| pgUser)).map (fun got => { s with memory := got.2 })
      else none
  | .store p t value =>
      if s.memory.curPageDir ∈ s.programs ∧ value < 2 ^ 32 then
        (s.memory.userStore p t value).map (fun memory => { s with memory })
      else none

/-- No program has been started. The directory of the kernel and its tables lie in frames of their
own, which are marked used in a bitmap for at most 4 GiB, and ring 3 may access none of its pages.
`booted_of_init` says when `pmm_init` and `pg_init` leave such a state.
-/
structure Booted (s : Spaces) : Prop where
  live : s.memory.Live s.memory.kerPageDir
  noUser : ∀ p, ¬ s.memory.UserEntry s.memory.kerPageDir p
  none : s.programs = []

/-- `pmm_init` and `pg_init` leave such a state if `pmm_init` counts at most 4 GiB and marks, of the
kernel image, the frame of `ker_page_dir` and the one in front of it.
-/
theorem booted_of_init {boot memory : Paging} {pmm : Pmm} {mbi : MultibootInfo} {endOfKernel : Nat}
    {node : Nat → FreeLl} {vesa : Bool} {kmem : Kmem}
    (pmmReturned : Pmm.pmmInit mbi endOfKernel boot.pmm = some pmm)
    (pgReturned : ({ boot with pmm } : Paging).pgInit node mbi vesa = some (memory, kmem))
    (isFrame : IsFrame boot.kerPageDir)
    (marked : InitMarks mbi endOfKernel boot.pmm (boot.kerPageDir / 4096))
    (front : InitMarks mbi endOfKernel boot.pmm
      ((boot.kerPageDir + 0xFFFFF000) % 2 ^ 32 / 4096))
    (small : availableMemory mbi ≤ 2 ^ 32)
    : Booted ⟨memory, []⟩ := by
  obtain ⟨marks, counted⟩ := Pmm.pmmInit_marked pmmReturned
  have scanned : pmm.scannedWords ≤ 2 ^ 15 := by
    rw [Pmm.scannedWords, counted]
    omega
  have bootable : ({ boot with pmm } : Paging).Bootable :=
    ⟨isFrame, (marks _).mpr marked, (marks _).mpr front, scanned⟩
  obtain ⟨live, entries, -, -⟩ := bootable.pgInit pgReturned
  refine ⟨live, fun p entry => ?_, rfl⟩
  obtain ⟨small, ⟨present, -⟩, user⟩ := entry
  exact user (entries _ (by omega) present _ (Nat.mod_lt _ (by decide)))

/-- Low memory, and two megabytes behind it, which are listed last: `pmm_init` marks the frames of a
kernel of a megabyte there.
-/
def kernelLast : MultibootInfo where
  mmapAddr := 0x9000
  mmapLength := 48
  framebufferAddr := 0xFD000000
  mmap a :=
    if a = 0x9000 then
      { size := 20, addrLo := 0, addrHi := 0, lenLo := 0xA0000, type := 1 }
    else
      { size := 20, addrLo := 0x100000, addrHi := 0, lenLo := 0x200000, type := 1 }

example : ∃ memory, Booted ⟨memory, []⟩ := by
  have frames : ∃ pmm ∈ Pmm.pmmInit kernelLast 0x200000 (Owners.cleared 0x200000).pmm, ∀ n ≤ 3,
      (Owners.afterAllocs pmm n).isSome := by decide +kernel
  obtain ⟨pmm, pmmReturned, frames⟩ := frames
  obtain ⟨memory, kmem, pgReturned, -⟩ :=
    Owners.pgInit_afterAllocs { Owners.cleared 0x200000 with pmm } (fun _ => ⟨0, 0, none, none⟩)
      kernelLast frames
  have kernel (k : Nat) (inside : k < 256)
      : InitMarks kernelLast 0x200000 (Owners.cleared 0x200000).pmm (0x100 + k) := by
    refine .inl (.inr (.inr ⟨k, inside, ?_⟩))
    change 0x100 + k = (0x100000 + k * 4096) % 2 ^ 32 / 4096
    omega
  exact ⟨memory, booted_of_init pmmReturned pgReturned ⟨by decide, by decide⟩
    (kernel 1 (by decide)) (kernel 0 (by decide)) (by decide)⟩

/-- The runs behind `pg_init`. -/
def system : TransitionSystem Spaces SpaceCall where
  init := Booted
  step s call s' := s.call call = some s'

/-- What holds in all runs. -/
structure Inv (s : Spaces) : Prop where
  isolated : s.memory.Isolated s.dirs
  noUser : ∀ p, ¬ s.memory.UserEntry s.memory.kerPageDir p
  kernel : s.memory.kerPageDir ∉ s.programs

/-- A store of the program itself changes the word that it stores. -/
def effect (dir : Nat) (s : Spaces) (call : SpaceCall) (view : Nat → Nat → Option Nat)
    : Nat → Nat → Option Nat :=
  match call with
  | .store p t value =>
      if s.memory.curPageDir = dir then
        fun p' t' => if p' = p ∧ t' = t then some value else view p' t'
      else view
  | _ => view

def Elsewhere (dir : Nat) (s : Spaces) (call : SpaceCall) : Prop :=
  ∀ virt, call = .pgAlloc virt → s.memory.curPageDir ≠ dir

variable {s s' : Spaces} {dir : Nat}

theorem Booted.inv (h : s.Booted) : s.Inv := by
  have only : s.dirs = [s.memory.kerPageDir] := by rw [dirs, h.none]
  refine ⟨⟨?_, ?_, ?_, ?_, ?_⟩, h.noUser, by simp [h.none]⟩
  · rw [only]
    rintro dir member
    rw [List.mem_singleton.mp member]
    exact h.live
  · rw [only]
    intro dir member dir' member' other
    exact absurd ((List.mem_singleton.mp member).trans (List.mem_singleton.mp member').symm) other
  all_goals
    rw [only]
    intro dir member
    rw [List.mem_singleton.mp member]
  · exact fun p entry => absurd entry (h.noUser p)
  · exact fun p entry => absurd entry (h.noUser p)
  · exact fun _ _ p _ entry => absurd entry (h.noUser p)

/-- What holds with a directory of the kernel that has not moved. -/
theorem Inv.of_kernel {memory : Paging} {programs : List Nat} {ker : Nat}
    (same : memory.kerPageDir = ker) (isolated : memory.Isolated (ker :: programs))
    (noUser : ∀ p, ¬ memory.UserEntry ker p) (kernel : ker ∉ programs)
    : Inv ⟨memory, programs⟩ := by
  subst same
  exact ⟨isolated, noUser, kernel⟩

/-- What a call keeps, and what it does to the memory of a program. By cases on the call, from what
is proved of each one for the directories that it is not about.
-/
theorem Inv.step {c : SpaceCall} (h : s.Inv) (called : s.call c = some s')
    : s'.Inv ∧ ∀ dir ∈ s.programs, Elsewhere dir s c
      → dir ∈ s'.programs
        ∧ s'.memory.userLoad dir = effect dir s c (s.memory.userLoad dir) := by
  have first : s.memory.kerPageDir ∈ s.dirs := List.mem_cons_self ..
  have inDirs (dir : Nat) (here : dir ∈ s.programs) : dir ∈ s.dirs := List.mem_cons_of_mem _ here
  cases c with
  | pgMakeUserPageDir =>
      obtain ⟨⟨c, memory⟩, made, rfl⟩ := Option.map_eq_some_iff.mp called
      obtain ⟨new, isolated, noUser, same⟩ := h.isolated.pgClonePageDir first h.noUser made
      have isolated' : memory.Isolated (s.memory.kerPageDir :: c :: s.programs) := by
        refine isolated.of_mem (fun dir member => ?_)
        simp only [dirs, List.mem_cons] at member ⊢
        tauto
      have away : s.memory.kerPageDir ∉ c :: s.programs := by
        rw [List.mem_cons, not_or]
        exact ⟨fun clash => new (clash ▸ first), h.kernel⟩
      exact ⟨.of_kernel (sameDirs_pgClonePageDir made).1 isolated' noUser away,
        fun dir here _ => ⟨List.mem_cons_of_mem _ here, same dir (inDirs dir here)⟩⟩
  | pgSwitchPageDir d =>
      obtain ⟨-, same⟩ := Option.ite_none_right_eq_some.mp called
      obtain rfl := Option.some.inj same
      obtain ⟨⟨live, apart, marked, hidden, once⟩, noUser, kernel⟩ := h
      refine ⟨⟨⟨fun dir here => ?_, apart, marked, hidden, once⟩, noUser, kernel⟩,
        fun dir here _ => ⟨here, rfl⟩⟩
      obtain ⟨⟨isFrame, table_ne, table_inj⟩, used, scanned⟩ := live dir here
      exact ⟨⟨isFrame, table_ne, table_inj⟩, used, scanned⟩
  | pgAlloc virt =>
      obtain ⟨⟨current, inWord⟩, same⟩ := Option.ite_none_right_eq_some.mp called
      obtain ⟨⟨phys, memory⟩, returned, rfl⟩ := Option.map_eq_some_iff.mp same
      obtain ⟨isolated, others⟩ := h.isolated.pgAlloc (inDirs _ current)
        (show pgRw ||| pgUser < 4096 by decide) inWord returned
      have away : s.memory.kerPageDir ≠ s.memory.curPageDir := fun clash =>
        h.kernel (clash ▸ current)
      have untouched := (others _ first away).1
      exact ⟨.of_kernel (sameDirs_pgAlloc returned).1 isolated
          (fun p entry => h.noUser p (untouched.userEntry.mp entry)) h.kernel,
        fun dir here elsewhere =>
          ⟨here, (others dir (inDirs dir here) (elsewhere virt rfl).symm).2⟩⟩
  | store p t value =>
      obtain ⟨⟨current, -⟩, same⟩ := Option.ite_none_right_eq_some.mp called
      obtain ⟨memory, stored, rfl⟩ := Option.map_eq_some_iff.mp same
      obtain ⟨isolated, kernel, untouched, load⟩ :=
        h.isolated.userStore (inDirs _ current) stored
      refine ⟨.of_kernel kernel isolated
          (fun p entry => h.noUser p ((untouched _ first).userEntry.mp entry)) h.kernel,
        fun dir here _ => ⟨here, (load dir (inDirs dir here)).trans ?_⟩⟩
      exact if_congr eq_comm rfl rfl

/-- By induction on the run. -/
theorem inv_reachable (reached : system.Reachable s) : s.Inv :=
  reached.invariant (fun _ => Booted.inv) (fun _ _ _ h taken => (h.step taken).1)

def later (s : Spaces) (dir : Nat) : TransitionSystem Spaces SpaceCall :=
  TransitionSystem.restrict { init := fun s' => s' = s, step := system.step } (Elsewhere dir)

/-- The directory `mappedImage` is one that `pg_init` may leave. -/
theorem booted_mappedImage : Booted ⟨mappedImage, []⟩ := by
  have absent {d : Nat} (hd : d < 1024) (present : mappedImage.Present 0x5000 d) : d = 0 := by
    by_contra other
    exact mappedImage_absent d hd other present
  refine ⟨⟨⟨mappedImage_owned.isFrame, fun d hd present => ?_, ?_⟩, mappedImage_owned.marked,
    by decide⟩, fun p entry => ?_, rfl⟩
  · rw [absent hd present]
    decide
  · intro d hd d' hd' present present' _
    rw [absent hd present, absent hd' present']
  · obtain ⟨small, ⟨present, mapped⟩, user⟩ := entry
    have region : p / 1024 = 0 := absent (by omega) present
    have table : mappedImage.tableAt 0x5000 0 = 0x6000 := by decide
    have word : mappedImage.word 0x6000 (p % 1024)
        = if p % 1024 = 0 then 0x7003 else pgRw := by
      have address : (0x6000 + 4 * (p % 1024)) % 2 ^ 32 = 0x6000 + 4 * (p % 1024) := by omega
      have first : 0x6000 + 4 * (p % 1024) ≠ 0x5000 := by omega
      rw [Paging.word, address]
      refine (if_neg first).trans (if_congr ?_ rfl rfl)
      omega
    rw [slot, region] at user
    change mappedImage.word (mappedImage.tableAt 0x5000 0) (p % 1024) &&& pgUser ≠ 0 at user
    rw [table, word] at user
    split at user <;> exact user (by decide)

/-- A program that runs in a directory that maps page 0 may get the page for itself. -/
theorem exists_pgAlloc (reached : system.Reachable s) (member : s.memory.curPageDir ∈ s.programs)
    (mapped : s.memory.Mapped s.memory.curPageDir 0) (frame : s.memory.pmm.frameAlloc.isSome)
    : ∃ s', system.Reachable s' ∧ s'.memory.curPageDir ∈ s'.programs
        ∧ s'.memory.UserPage s'.memory.curPageDir 0
        ∧ s'.memory.slot s'.memory.curPageDir 0 &&& pgRw ≠ 0
        ∧ s'.memory.word s'.memory.curPageDir 0 &&& pgRw ≠ 0 := by
  have live := (inv_reachable reached).isolated.live _ (List.mem_cons_of_mem _ member)
  have enough : (Owners.afterAllocs s.memory.pmm
      (if s.memory.Present s.memory.curPageDir (0 / 1024) then 1 else 2)).isSome := by
    have present : s.memory.Present s.memory.curPageDir (0 / 1024) := mapped.1
    obtain ⟨got, alloc⟩ := Option.isSome_iff_exists.mp frame
    rw [if_pos present]
    simp [Owners.afterAllocs, alloc]
  obtain ⟨phys, memory, returned⟩ := pgAlloc_returns live enough
  have current := (sameDirs_pgAlloc returned).2
  obtain ⟨p, -, first, added⟩ := pgAlloc_pageAdded live (show pgRw ||| pgUser < 4096 by decide)
    (show 4096 * 0 < 2 ^ 32 by decide) returned
  obtain rfl : p = 0 := by omega
  obtain ⟨mapped', slot⟩ := added.outcome.written 0 (by decide) rfl (by decide)
  have entry := added.outcome.entry mapped.1
  rw [if_pos ⟨0, by decide, mapped⟩] at entry
  have slotFlags : memory.slot s.memory.curPageDir 0 &&& (pgRw ||| pgUser) = pgRw ||| pgUser := by
    rw [slot]
    exact newPte_and_flags _ _ _
  have entryFlags : memory.word s.memory.curPageDir 0 &&& (pgRw ||| pgUser) = pgRw ||| pgUser := by
    rw [show memory.word s.memory.curPageDir 0 = _ from entry]
    exact Word.or_and_self _ _
  have bits {x : Nat} (both : x &&& (pgRw ||| pgUser) = pgRw ||| pgUser)
      : x &&& pgUser ≠ 0 ∧ x &&& pgRw ≠ 0 := by
    have bit (i : Nat) := congrArg (Nat.testBit · i) both
    have first := bit 1
    have second := bit 2
    simp only [Nat.testBit_and] at first second
    refine ⟨fun zero => ?_, fun zero => ?_⟩
    · have := congrArg (Nat.testBit · 2) zero
      simp only [Nat.testBit_and] at this
      revert second this
      cases x.testBit 2 <;> decide
    · have := congrArg (Nat.testBit · 1) zero
      simp only [Nat.testBit_and] at this
      revert first this
      cases x.testBit 1 <;> decide
  have called : s.call (.pgAlloc 0) = some ⟨memory, s.programs⟩ := by
    refine (if_pos ⟨member, by decide⟩).trans ?_
    rw [show s.memory.pgAlloc 0 (pgRw ||| pgUser) = _ from returned]
    rfl
  refine ⟨⟨memory, s.programs⟩, .next reached called, ?_⟩
  rw [current]
  exact ⟨member, ⟨⟨by decide, mapped', (bits slotFlags).1⟩, (bits entryFlags).1⟩,
    (bits slotFlags).2, (bits entryFlags).2⟩

theorem exists_pgMakeUserPageDir {c : Nat} {memory : Paging} (reached : system.Reachable s)
    (made : s.memory.pgMakeUserPageDir = some (c, memory))
    : system.Reachable ⟨{ memory with curPageDir := c }, c :: s.programs⟩ := by
  have called : s.call .pgMakeUserPageDir = some ⟨memory, c :: s.programs⟩ := by
    rw [call, made]
    rfl
  have switched : Spaces.call ⟨memory, c :: s.programs⟩ (.pgSwitchPageDir c)
      = some ⟨{ memory with curPageDir := c }, c :: s.programs⟩ :=
    if_pos (List.mem_cons_of_mem _ (List.mem_cons_self ..))
  exact .next (.next reached called) switched

/-- A run in which a program gets page 0. -/
theorem mappedImage_program
    : ∃ s, system.Reachable s ∧ s.memory.curPageDir ∈ s.programs
        ∧ s.memory.UserPage s.memory.curPageDir 0
        ∧ s.memory.slot s.memory.curPageDir 0 &&& pgRw ≠ 0
        ∧ s.memory.word s.memory.curPageDir 0 &&& pgRw ≠ 0 := by
  have enough : (mappedImage.pmm.frameAlloc.bind fun first =>
      first.2.frameAlloc.bind fun second => second.2.frameAlloc).isSome = true := by
    decide +kernel
  obtain ⟨⟨phys, pmm₃⟩, frames⟩ := Option.isSome_iff_exists.mp enough
  obtain ⟨⟨c, pmm₁⟩, alloc₁, frames⟩ := Option.bind_eq_some_iff.mp frames
  obtain ⟨⟨newTbl, pmm₂⟩, alloc₂, alloc₃⟩ := Option.bind_eq_some_iff.mp frames
  have mapped : mappedImage.Mapped 0x5000 0 := by decide
  obtain ⟨memory, cloned, pmm'⟩ := pgClonePageDir_of_firstTable mappedImage_owned (by decide)
    mapped.1 mappedImage_absent alloc₁ alloc₂
  have copied := copied_of_pgClonePageDir mappedImage_owned (by decide) cloned
  have reached := exists_pgMakeUserPageDir (.start booted_mappedImage) cloned
  refine exists_pgAlloc reached (List.mem_cons_self ..) ((copied.mapped_iff (by decide)).mpr mapped)
    ?_
  change memory.pmm.frameAlloc.isSome = true
  rw [pmm', show pmm₂.frameAlloc = _ from alloc₃]
  rfl

/-- Behind `pg_init`, no program can reach a page directory or table, nor the memory of another
one: the frame of a page that it may access holds none of these, and is that of no other page that
ring 3 may access. The invariant says so of the frames behind all user pages of all directories,
and every call keeps it, because the frames it takes were free.
-/
theorem userPage_private (reached : system.Reachable s) {p : Nat} (member : dir ∈ s.programs)
    (page : s.memory.UserPage dir p)
    : (∀ dir' ∈ s.dirs, ¬ s.memory.UsedBy dir' (s.memory.userFrame dir p))
      ∧ ∀ dir' ∈ s.dirs, ∀ p', s.memory.UserPage dir' p'
        → s.memory.userFrame dir p = s.memory.userFrame dir' p' → dir = dir' ∧ p = p' := by
  have isolated := (inv_reachable reached).isolated
  have here : dir ∈ s.dirs := List.mem_cons_of_mem _ member
  exact ⟨isolated.hidden dir here p page.1, fun dir' here' p' page' =>
    isolated.once dir here dir' here' p p' page.1 page'.1⟩

theorem userPage_private_mappedImage
    : ∃ s, system.Reachable s ∧ s.memory.UserPage s.memory.curPageDir 0
        ∧ ∀ dir' ∈ s.dirs, ¬ s.memory.UsedBy dir' (s.memory.userFrame s.memory.curPageDir 0) := by
  obtain ⟨s, reached, member, page, -⟩ := mappedImage_program
  exact ⟨s, reached, page, (userPage_private reached member page).1⟩

/-- Once its pages are allocated, a program finds in its memory what it stored there last, whatever
other programs are started, switched to, get as pages or store meanwhile. By induction on the run.
-/
theorem userLoad_later (reached : system.Reachable s) (member : dir ∈ s.programs)
    {steps : List (Spaces × SpaceCall)} (run : (s.later dir).Run s' steps)
    : s'.memory.userLoad dir
      = steps.foldr (fun step view => effect dir step.1 step.2 view) (s.memory.userLoad dir) := by
  have all : s'.Inv ∧ dir ∈ s'.programs ∧ s'.memory.userLoad dir
      = steps.foldr (fun step view => effect dir step.1 step.2 view) (s.memory.userLoad dir) := by
    induction run with
    | start initial =>
        obtain rfl := initial
        exact ⟨inv_reachable reached, member, rfl⟩
    | next _ taken ih =>
        obtain ⟨inv, here, view⟩ := ih
        obtain ⟨inv', others⟩ := inv.step taken.2
        obtain ⟨here', view'⟩ := others dir here taken.1
        exact ⟨inv', here', by rw [view', view, List.foldr_cons]⟩
  exact all.2.2

theorem userLoad_later_mappedImage
    : ∃ s s' steps, system.Reachable s ∧ (s.later s.memory.curPageDir).Run s' steps
        ∧ s'.memory.userLoad s.memory.curPageDir 0 5 = some 7 := by
  obtain ⟨s, reached, member, page, slot, entry⟩ := mappedImage_program
  have called : s.call (.store 0 5 7)
      = some { s with
          memory := s.memory.setWord (s.memory.userFrame s.memory.curPageDir 0) 5 7 } := by
    refine (if_pos ⟨member, by decide⟩).trans ?_
    rw [userStore, if_pos ⟨page, by decide, slot, entry⟩]
    rfl
  have run : (s.later s.memory.curPageDir).Run _ [(s, .store 0 5 7)] :=
    .next (.start rfl) ⟨(nofun : Elsewhere _ _ (.store 0 5 7)), called⟩
  refine ⟨s, _, _, reached, run, ?_⟩
  rw [userLoad_later reached member run, List.foldr_cons, effect, if_pos rfl]
  exact if_pos ⟨rfl, rfl⟩

end Spaces

end Hydrangea
