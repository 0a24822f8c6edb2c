import Hydrangea.Mem.FrameOwnership
import Hydrangea.Mem.PagingClones

/-! What `pg_alloc` does to the current directory, all of whose frames are marked used: one page
is mapped to a new frame, and frames that the directory does not use keep their words.
-/

namespace Hydrangea.Paging

/-- A page directory whose frames are marked used, in a bitmap for at most 4 GiB. -/
structure Live (s : Paging) (dir : Nat) : Prop where
  wellFormed : s.WellFormed dir
  marked : ∀ frame, s.UsedBy dir frame → s.pmm.Marked (frame / 4096)
  scanned : s.pmm.scannedWords ≤ 2 ^ 15

/-- A directory uses more frames than before. They are new, and the frames it still does not use
have kept their words.
-/
structure Grows (s s' : Paging) (dir : Nat) : Prop where
  live : s'.Live dir
  keeps : Pmm.Keeps s.pmm s'.pmm
  kept : ∀ frame, s.UsedBy dir frame → s'.UsedBy dir frame
  uses : ∀ frame, s'.UsedBy dir frame → s.UsedBy dir frame ∨ ¬ s.pmm.Marked (frame / 4096)
  others : ∀ frame, IsFrame frame → ¬ s'.UsedBy dir frame → ∀ t < 1024,
    s'.word frame t = s.word frame t

/-- What `pg_alloc` does: page `p` is mapped to the frame `phys`, which is new. -/
structure PageAdded (s s' : Paging) (dir p phys flags : Nat) : Prop where
  grows : Grows s s' dir
  isFrame : IsFrame phys
  clear : ¬ s.pmm.Marked (phys / 4096)
  marked : s'.pmm.Marked (phys / 4096)
  unused : ¬ s'.UsedBy dir phys
  outcome : Outcome s s' dir p phys flags 1
  entries : ∀ d < 1024, d ≠ p / 1024 → s'.word dir d = s.word dir d
  current : s'.curPageDir = s.curPageDir
  frames : Owners.afterAllocs s.pmm (if s.Present dir (p / 1024) then 1 else 2) = some s'.pmm

section

variable {s s' s'' : Paging} {dir p flags : Nat}

theorem Grows.refl (live : s.Live dir) : Grows s s dir where
  live := live
  keeps := Pmm.Keeps.refl _
  kept _ used := used
  uses _ used := .inl used
  others _ _ _ _ _ := rfl

theorem Grows.trans (h : Grows s s' dir) (h' : Grows s' s'' dir) : Grows s s'' dir where
  live := h'.live
  keeps := h.keeps.trans h'.keeps
  kept frame used := h'.kept frame (h.kept frame used)
  uses frame used := by
    rcases h'.uses frame used with before | new
    · exact h.uses frame before
    · exact .inr (fun set => new (h.keeps _ set))
  others frame isFrame unused t ht := by
    have before : ¬ s'.UsedBy dir frame := fun used => unused (h'.kept frame used)
    rw [h'.others frame isFrame unused t ht, h.others frame isFrame before t ht]

/-- An allocated frame is new, and the directory does not use it. -/
theorem Live.frameAlloc {frame : Nat} {pmm : Pmm} (live : s.Live dir)
    (alloc : s.pmm.frameAlloc = some (frame, pmm))
    : Grows s { s with pmm } dir
      ∧ IsFrame frame
      ∧ ¬ s.pmm.Marked (frame / 4096)
      ∧ pmm.Marked (frame / 4096)
      ∧ ¬ s.UsedBy dir frame := by
  obtain ⟨-, -, clear, -, bits, size⟩ := Pmm.frameAlloc_lowest live.scanned alloc
  have keeps : Pmm.Keeps s.pmm pmm := fun f set => (bits f).mpr (.inr set)
  obtain ⟨isFrame, table_ne, table_inj⟩ := live.wellFormed
  have scanned : pmm.scannedWords ≤ 2 ^ 15 := by
    have small := live.scanned
    rw [Pmm.scannedWords] at small ⊢
    rw [size]
    exact small
  have live' : Live { s with pmm } dir :=
    ⟨⟨isFrame, table_ne, table_inj⟩, fun f used => keeps _ (live.marked f used), scanned⟩
  refine ⟨⟨live', keeps, fun _ used => used, fun _ used => .inl used, fun _ _ _ _ _ => rfl⟩,
    isFrame_of_frameAlloc live.scanned alloc, clear, (bits _).mpr (.inl rfl), ?_⟩
  intro used
  exact clear (live.marked frame used)

/-- A frame that is allocated is fresh for the directory. -/
theorem Live.fresh (live : s.Live dir) (frame : Nat) (pmm : Pmm)
    (alloc : s.pmm.frameAlloc = some (frame, pmm))
    : s.Fresh dir frame := by
  obtain ⟨-, isFrame, -, -, unused⟩ := live.frameAlloc alloc
  refine ⟨isFrame, fun same => unused (.inl same), ?_⟩
  intro d hd present same
  exact unused (.inr ⟨d, hd, present, same⟩)

/-- Making a table takes a frame for it and changes one entry of the directory. -/
theorem Live.pgMkPgtbl (live : s.Live dir) (low : flags < 4096) (small : p < 2 ^ 20)
    (absent : ¬ s.Present dir (p / 1024))
    (made : s.pgMkPgtbl dir (p / 1024) flags = some s')
    : Grows s s' dir
      ∧ (∀ d < 1024, d ≠ p / 1024 → s'.word dir d = s.word dir d)
      ∧ s'.Present dir (p / 1024)
      ∧ ∃ frame, s.pmm.frameAlloc = some (frame, s'.pmm) := by
  have hp : p / 1024 < 1024 := by omega
  obtain ⟨⟨frame, pmm⟩, alloc, rest⟩ := Option.bind_eq_some_iff.mp made
  obtain ⟨grown, newFrame, clear, marked, unused⟩ := live.frameAlloc alloc
  have ne : frame ≠ dir := fun same => unused (.inl same)
  obtain ⟨dirWord, otherWord⟩ :=
    pgMkPgtbl_words live.wellFormed.isFrame hp alloc newFrame ne made
  have samePmm : s'.pmm = pmm := by
    rw [← Option.some.inj rest]
    simp [setWord]
  have here : s'.word dir (p / 1024) = frame ||| (pgPresent ||| flags) := by
    rw [dirWord _ hp, if_pos rfl, Nat.or_assoc]
  have lowBoth : pgPresent ||| flags < 4096 :=
    Nat.or_lt_two_pow (show pgPresent < 2 ^ 12 by decide) low
  have elsewhere (d : Nat) (hd : d < 1024) (other : d ≠ p / 1024)
      : s'.word dir d = s.word dir d :=
    (dirWord d hd).trans (if_neg other)
  have present : s'.Present dir (p / 1024) := by
    rw [Present, here, ← Nat.or_assoc]
    exact entry_present frame flags
  have table : s'.tableAt dir (p / 1024) = frame := by
    rw [tableAt, here, entry_and_pgFrame' newFrame lowBoth]
  obtain ⟨wellFormed, uses⟩ :=
    wellFormed_of_newTable live.wellFormed hp newFrame lowBoth unused here elsewhere
  have keeps : Pmm.Keeps s.pmm s'.pmm := by
    rw [samePmm]
    exact grown.keeps
  have marked' : ∀ f, s'.UsedBy dir f → s'.pmm.Marked (f / 4096) := by
    intro f used
    rcases uses f used with old | rfl
    · exact keeps _ (live.marked f old)
    · rw [samePmm]
      exact marked
  have scanned : s'.pmm.scannedWords ≤ 2 ^ 15 := by
    rw [samePmm]
    exact grown.live.scanned
  refine ⟨⟨⟨wellFormed, marked', scanned⟩, keeps, ?_, ?_, ?_⟩, elsewhere, present, frame, ?_⟩
  · intro f used
    rcases used with own | ⟨d, hd, presentD, same⟩
    · exact .inl own
    · have other : d ≠ p / 1024 := fun clash => absent (clash ▸ presentD)
      refine .inr ⟨d, hd, ?_, ?_⟩
      · rwa [Present, elsewhere d hd other]
      · rw [tableAt, elsewhere d hd other]
        exact same
  · intro f used
    rcases uses f used with old | rfl
    · exact .inl old
    · exact .inr clear
  · intro f isFrame unused' t ht
    have neDir : f ≠ dir := fun same => unused' (.inl same)
    have neTable : f ≠ frame := fun same => unused' (.inr ⟨_, hp, present, table.trans same.symm⟩)
    rw [otherWord f isFrame neDir t ht, if_neg neTable]
  · rw [samePmm]
    exact alloc

/-- What `Live` says of a directory is about its own entries, and the bits that are set. -/
theorem Live.of_entries (live : s.Live dir)
    (present : ∀ d < 1024, s'.Present dir d ↔ s.Present dir d)
    (table : ∀ d < 1024, s'.tableAt dir d = s.tableAt dir d) (keeps : Pmm.Keeps s.pmm s'.pmm)
    (scanned : s'.pmm.scannedWords ≤ 2 ^ 15)
    : s'.Live dir ∧ ∀ frame, s'.UsedBy dir frame ↔ s.UsedBy dir frame := by
  have used (frame : Nat) : s'.UsedBy dir frame ↔ s.UsedBy dir frame := by
    refine or_congr_right (exists_congr (fun d => and_congr_right (fun hd => ?_)))
    rw [present d hd, table d hd]
  refine ⟨⟨⟨live.wellFormed.isFrame, ?_, ?_⟩, ?_, scanned⟩, used⟩
  · intro d hd presentD
    rw [table d hd]
    exact live.wellFormed.table_ne d hd ((present d hd).mp presentD)
  · intro d hd d' hd' presentD presentD' same
    rw [table d hd, table d' hd'] at same
    exact live.wellFormed.table_inj d hd d' hd' ((present d hd).mp presentD)
      ((present d' hd').mp presentD') same
  · exact fun frame uses => keeps _ (live.marked frame ((used frame).mp uses))

/-- `pg_alloc` maps the first page of the region. -/
theorem PageAdded.first {phys : Nat} (new : PageAdded s s' dir p phys flags)
    (hp : p < 2 ^ 20)
    : s'.Mapped dir (1024 * (p / 1024)) ∧ s'.Present dir (p / 1024)
      ∧ s'.slot dir (1024 * (p / 1024)) = newPte phys flags 0 := by
  obtain ⟨mapped, slot⟩ := new.outcome.written (1024 * (p / 1024)) (by omega) (by omega) (by omega)
  rw [Nat.mul_mod_right] at slot
  have present := mapped.1
  rw [show 1024 * (p / 1024) / 1024 = p / 1024 by omega] at present
  exact ⟨mapped, present, slot⟩

/-- Storing an entry into a table that is there changes this table and its directory entry. -/
theorem Live.mapPage {phys : Nat} (live : s.Live dir) (low : flags < 4096) (small : p < 2 ^ 20)
    (present : s.Present dir (p / 1024))
    (looped : (List.range 1).foldlM
      (mapPage dir (4096 * p) phys flags (s.tableAt dir (p / 1024))) s = some s')
    : Grows s s' dir
      ∧ (∀ d < 1024, d ≠ p / 1024 → s'.word dir d = s.word dir d)
      ∧ s'.pmm = s.pmm
      ∧ ∀ frame, s'.UsedBy dir frame → s.UsedBy dir frame := by
  have hp : p / 1024 < 1024 := by omega
  have one {tbl frame : Nat} : Misses tbl 1 frame := by
    intro i behind below
    omega
  have stored :=
    Stored.loop live.wellFormed present low (by omega) one (fun _ _ _ => one) looped
  have samePmm : s'.pmm = s.pmm := by
    rw [List.range_one, List.foldlM_cons] at looped
    obtain ⟨s₁, round, rest⟩ := Option.bind_eq_some_iff.mp looped
    obtain rfl := Option.some.inj rest
    exact mapPage_pmm round
  have keeps : Pmm.Keeps s.pmm s'.pmm := by
    rw [samePmm]
    exact Pmm.Keeps.refl _
  have scanned : s'.pmm.scannedWords ≤ 2 ^ 15 := by
    rw [samePmm]
    exact live.scanned
  obtain ⟨live', sameUsed⟩ := live.of_entries (fun d hd => stored.present_iff present hd)
    (fun d hd => stored.tableAt_eq low hd) keeps scanned
  refine ⟨⟨live', keeps, fun f used => (sameUsed f).mpr used,
    fun f used => .inl ((sameUsed f).mp used), ?_⟩, ?_, samePmm,
    fun f used => (sameUsed f).mp used⟩
  · intro f isFrame unused t ht
    have neDir : f ≠ dir := fun same => unused (.inl same)
    have neTable : f ≠ s.tableAt dir (p / 1024) := by
      intro same
      exact unused ((sameUsed f).mpr (.inr ⟨_, hp, present, same.symm⟩))
    exact stored.others f isFrame neDir neTable one t ht
  · intro d hd other
    rw [stored.entry d hd, if_neg (fun both => other both.1)]

end

section

variable {s s' : Paging} {p flags : Nat}

theorem pgAlloc_pageAdded {virt phys : Nat} (live : s.Live s.curPageDir) (low : flags < 4096)
    (inWord : virt < 2 ^ 32) (returned : s.pgAlloc virt flags = some (phys, s'))
    : ∃ p < 2 ^ 20, virt = 4096 * p ∧ PageAdded s s' s.curPageDir p phys flags := by
  obtain ⟨⟨frame, pmm⟩, alloc, rest⟩ := Option.bind_eq_some_iff.mp returned
  obtain ⟨s₃, called, same⟩ := Option.bind_eq_some_iff.mp rest
  obtain ⟨rfl, rfl⟩ := Prod.mk.inj (Option.some.inj same)
  obtain ⟨grown, isFrame, clear, marked, unused⟩ := live.frameAlloc alloc
  have aligned : virt % 4096 = 0 := by
    by_contra unaligned
    rw [pgMapPages, if_pos unaligned] at called
    cases called
  obtain ⟨p, rfl⟩ : ∃ p, virt = 4096 * p := ⟨virt / 4096, by omega⟩
  have small : p < 2 ^ 20 := by omega
  have hp : p / 1024 < 1024 := by omega
  have physAligned : ¬ frame % 0x1000 ≠ 0 := not_not_intro isFrame.1
  have outcome := pgMapPages_outcome grown.live.wellFormed grown.live.fresh low
    (show p + 1 ≤ 2 ^ 20 by omega) small (staysClear_of_le (by decide)) called
  have current : s₃.curPageDir = s.curPageDir := (sameDirs_pgAlloc returned).2
  rw [pgMapPages, if_neg (by omega), if_neg physAligned] at called
  obtain ⟨s₂, needed, looped⟩ := Option.bind_eq_some_iff.mp called
  rw [dirIndex_page] at looped
  rw [Paging.needTable, pgTblExists_page, Option.bind_eq_bind, Option.bind_some,
    dirIndex_page] at needed
  -- Whether the table is new or not, the directory has grown by it alone.
  have table : Grows { s with pmm } s₂ s.curPageDir
      ∧ s₂.Present s.curPageDir (p / 1024)
      ∧ (∀ d < 1024, d ≠ p / 1024 → s₂.word s.curPageDir d = s.word s.curPageDir d)
      ∧ (∀ f, s₂.UsedBy s.curPageDir f
        → s.UsedBy s.curPageDir f ∨ ¬ pmm.Marked (f / 4096))
      ∧ Owners.afterAllocs s.pmm (if s.Present s.curPageDir (p / 1024) then 1 else 2)
        = some s₂.pmm := by
    by_cases present : s.Present s.curPageDir (p / 1024)
    · have still : ({ s with pmm } : Paging).Present s.curPageDir (p / 1024) := present
      obtain rfl : ({ s with pmm } : Paging) = s₂ := by simpa [still] using needed
      refine ⟨Grows.refl grown.live, present, fun _ _ _ => rfl, fun _ used => .inl used, ?_⟩
      rw [if_pos present]
      simp [Owners.afterAllocs, alloc]
    · have still : ¬ ({ s with pmm } : Paging).Present s.curPageDir (p / 1024) := present
      replace needed : ({ s with pmm } : Paging).pgMkPgtbl s.curPageDir (p / 1024) flags
          = some s₂ := by
        simpa [still] using needed
      obtain ⟨grows, entries, made, frame', alloc'⟩ :=
        grown.live.pgMkPgtbl low small still needed
      refine ⟨grows, made, entries, fun f used => grows.uses f used, ?_⟩
      rw [if_neg present]
      replace alloc' : pmm.frameAlloc = some (frame', s₂.pmm) := alloc'
      simp [Owners.afterAllocs, alloc, alloc']
  obtain ⟨grows, present, entries, uses, frames⟩ := table
  obtain ⟨grows', entries', samePmm, uses'⟩ := grows.live.mapPage low small present looped
  refine ⟨p, small, rfl, ⟨(grown.trans grows).trans grows', isFrame, clear, ?_, ?_, ?_, ?_,
    current, ?_⟩⟩
  · exact grows'.keeps _ (grows.keeps _ marked)
  · intro used
    rcases uses frame (uses' frame used) with old | new
    · exact unused old
    · exact new marked
  · exact ⟨outcome.written, outcome.kept, outcome.keptEntry, outcome.entry, outcome.newEntry⟩
  · intro d hd other
    rw [entries' d hd other, entries d hd other]
  · rw [samePmm]
    exact frames

/-- `pg_alloc` of a page returns when there are enough frames. -/
theorem pgAlloc_returns (live : s.Live s.curPageDir)
    (enough : (Owners.afterAllocs s.pmm
      (if s.Present s.curPageDir (p / 1024) then 1 else 2)).isSome)
    : ∃ phys s', s.pgAlloc (4096 * p) flags = some (phys, s') := by
  obtain ⟨⟨frame, pmm⟩, alloc⟩ : ∃ taken, s.pmm.frameAlloc = some taken := by
    cases alloc : s.pmm.frameAlloc with
    | none => split at enough <;> simp [Owners.afterAllocs, alloc] at enough
    | some taken => exact ⟨taken, rfl⟩
  obtain ⟨-, isFrame, -⟩ := live.frameAlloc alloc
  have room : ({ s with pmm } : Paging).Present s.curPageDir (p / 1024)
      ∨ pmm.frameAlloc.isSome := by
    by_cases present : s.Present s.curPageDir (p / 1024)
    · exact .inl present
    · rw [if_neg present] at enough
      simpa [Owners.afterAllocs, alloc] using Or.inr enough
  obtain ⟨s', called⟩ : ∃ s', ({ s with pmm } : Paging).pgMapPages s.curPageDir (4096 * p) frame 1
      flags = some s' :=
    pgMapPages_returns isFrame.1 room
  exact ⟨frame, s', Option.bind_eq_some_iff.mpr
    ⟨(frame, pmm), alloc, Option.bind_eq_some_iff.mpr ⟨s', called, rfl⟩⟩⟩

end

end Hydrangea.Paging
