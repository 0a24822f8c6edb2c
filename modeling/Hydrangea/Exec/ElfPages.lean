import Hydrangea.Exec.ElfBytes

/-! The pages that the loader adds to a directory, in regions of 4 MiB for which the directory had
no table: `pg_alloc` maps the first page of the region, whatever page it is called for.
-/

namespace Hydrangea

open Paging

namespace Owners

/-- Allocating some frames and then some more. -/
theorem afterAllocs_add (pmm : Pmm) (m n : Nat)
    : afterAllocs pmm (m + n) = (afterAllocs pmm m).bind (fun pmm' => afterAllocs pmm' n) := by
  induction n with
  | zero => simp [afterAllocs]
  | succ n ih =>
      rw [← Nat.add_assoc, afterAllocs, ih, Option.bind_assoc]
      rfl

end Owners

namespace Elf

/-- A page that was added and the frame it was given. -/
structure Placed where
  page : Nat
  frame : Nat

def Placed.region (a : Placed) : Nat :=
  a.page / 1024

/-- The frames that pages in regions without a table take: one for each, and one for the table of
each region.
-/
def framesFor (regions : List Nat) : Nat :=
  regions.length + regions.toFinset.card

theorem framesFor_append (regions : List Nat) (d : Nat)
    : framesFor (regions ++ [d]) = framesFor regions + if d ∈ regions then 1 else 2 := by
  have finset : (regions ++ [d]).toFinset = insert d regions.toFinset := by
    rw [List.toFinset_append, List.toFinset_cons, List.toFinset_nil, insert_empty_eq,
      Finset.union_comm, Finset.singleton_union]
  rw [framesFor, framesFor, finset, List.length_append, List.length_singleton]
  by_cases member : d ∈ regions
  · rw [if_pos member, Finset.insert_eq_of_mem (List.mem_toFinset.mpr member)]
    omega
  · rw [if_neg member, Finset.card_insert_of_notMem (fun h => member (List.mem_toFinset.mp h))]
    omega

/-- The pages that were added to the directory since an earlier state, oldest first. The frames of
other things that were marked then have kept their words.
-/
structure Added (s s' : Paging) (added : List Placed) : Prop where
  current : s'.curPageDir = s.curPageDir
  live : s'.Live s.curPageDir
  keeps : Pmm.Keeps s.pmm s'.pmm
  uses : ∀ frame, s'.UsedBy s.curPageDir frame
    → s.UsedBy s.curPageDir frame ∨ ¬ s.pmm.Marked (frame / 4096)
  others : ∀ frame, IsFrame frame → s.pmm.Marked (frame / 4096)
    → ¬ s.UsedBy s.curPageDir frame → ∀ t < 1024, s'.word frame t = s.word frame t
  user : ∀ a ∈ added, a.page < 2 ^ 20 ∧ ¬ s.Present s.curPageDir a.region
  frame : ∀ a ∈ added, IsFrame a.frame ∧ ¬ s.pmm.Marked (a.frame / 4096)
    ∧ s'.pmm.Marked (a.frame / 4096) ∧ ¬ s'.UsedBy s.curPageDir a.frame
  distinct : (added.map Placed.frame).Nodup
  present : ∀ d < 1024, s'.Present s.curPageDir d
    ↔ s.Present s.curPageDir d ∨ ∃ a ∈ added, a.region = d
  oldEntry : ∀ d < 1024, s.Present s.curPageDir d
    → s'.word s.curPageDir d = s.word s.curPageDir d
  carries : ∀ a ∈ added, s'.word s.curPageDir a.region &&& segmentFlags = segmentFlags
  mapped : ∀ q < 2 ^ 20, s'.Mapped s.curPageDir q
    ↔ s.Mapped s.curPageDir q ∨ (q % 1024 = 0 ∧ ∃ a ∈ added, a.region = q / 1024)
  oldSlot : ∀ q < 2 ^ 20, s.Mapped s.curPageDir q
    → s'.slot s.curPageDir q = s.slot s.curPageDir q
  newSlot : ∀ a ∈ added, ∃ b ∈ added, b.region = a.region
    ∧ s'.slot s.curPageDir (1024 * a.region) = newPte b.frame segmentFlags 0
  frames : Owners.afterAllocs s.pmm (framesFor (added.map Placed.region)) = some s'.pmm

theorem segmentFlags_low : segmentFlags < 4096 := by
  decide

section

variable {s s' s'' : Paging} {added : List Placed}

/-- Nothing was added yet. -/
theorem Added.refl (live : s.Live s.curPageDir) : Added s s [] := by
  refine ⟨rfl, live, Pmm.Keeps.refl _, fun _ used => .inl used, fun _ _ _ _ _ _ => rfl, ?_, ?_,
    List.nodup_nil, ?_, fun _ _ _ => rfl, ?_, ?_, fun _ _ _ => rfl, ?_, rfl⟩
  · exact fun _ member => (List.not_mem_nil member).elim
  · exact fun _ member => (List.not_mem_nil member).elim
  · intro d _
    simp
  · exact fun _ member => (List.not_mem_nil member).elim
  · intro q _
    simp
  · exact fun _ member => (List.not_mem_nil member).elim

/-- A page of a region that had no table is mapped if it is the first one and one was added. -/
theorem Added.mapped_iff (h : Added s s' added) {q : Nat} (hq : q < 2 ^ 20)
    (absent : ¬ s.Present s.curPageDir (q / 1024))
    : s'.Mapped s.curPageDir q ↔ q % 1024 = 0 ∧ ∃ a ∈ added, a.region = q / 1024 := by
  rw [h.mapped q hq]
  exact or_iff_right (fun mapped => absent mapped.1)

/-- It is mapped to one of the frames that were given. -/
theorem Added.slot_frame (h : Added s s' added) {q : Nat} (hq : q < 2 ^ 20)
    (absent : ¬ s.Present s.curPageDir (q / 1024)) (mapped : s'.Mapped s.curPageDir q)
    : ∃ b ∈ added, b.region = q / 1024 ∧ s'.slot s.curPageDir q &&& pgFrame = b.frame := by
  obtain ⟨first, a, member, region⟩ := (h.mapped_iff hq absent).mp mapped
  obtain ⟨b, memberB, regionB, slot⟩ := h.newSlot a member
  have page : 1024 * a.region = q := by
    rw [region]
    omega
  rw [page] at slot
  obtain ⟨isFrame, -⟩ := h.frame b memberB
  refine ⟨b, memberB, regionB.trans region, ?_⟩
  rw [slot, newPte_and_pgFrame isFrame.1 segmentFlags_low, Nat.zero_mul, Nat.add_zero,
    Nat.mod_eq_of_lt isFrame.2]

/-- Writes into the frames that were given change nothing else. Neither the directory nor its
tables lie in those frames, so all that is said of them is said of the same words.
-/
theorem Added.wrote {written : Nat → Prop} (h : Added s s' added) (wrote : Wrote s' s'' written)
    (inside : ∀ phys, written phys → ∃ a ∈ added, frameOf phys = a.frame)
    : Added s s'' added := by
  have untouched : Untouched s' s'' s.curPageDir := by
    refine wrote.untouched h.live.wellFormed.isFrame (fun phys reached used => ?_)
    obtain ⟨a, member, same⟩ := inside phys reached
    obtain ⟨-, -, -, unused⟩ := h.frame a member
    exact unused (same ▸ used)
  have samePmm : s''.pmm = s'.pmm := wrote.pmm
  refine ⟨wrote.current.trans h.current, untouched.live samePmm h.live, ?_, ?_, ?_, h.user, ?_,
    h.distinct, ?_, ?_, ?_, ?_, ?_, ?_, ?_⟩
  · rw [samePmm]
    exact h.keeps
  · exact fun frame used => h.uses frame ((untouched.usedBy_iff frame).mp used)
  · intro frame isFrame marked unused t ht
    rw [wrote.word isFrame ht, h.others frame isFrame marked unused t ht]
    intro phys reached same
    obtain ⟨a, member, same'⟩ := inside phys reached
    obtain ⟨-, clear, -⟩ := h.frame a member
    rw [← same', same] at clear
    exact clear marked
  · intro a member
    obtain ⟨isFrame, clear, marked, unused⟩ := h.frame a member
    refine ⟨isFrame, clear, ?_, fun used => unused ((untouched.usedBy_iff _).mp used)⟩
    rw [samePmm]
    exact marked
  · intro d hd
    rw [untouched.present_iff hd]
    exact h.present d hd
  · intro d hd present
    rw [untouched.entry hd, h.oldEntry d hd present]
  · intro a member
    obtain ⟨small, -⟩ := h.user a member
    have hd : a.region < 1024 := by
      rw [Placed.region]
      omega
    rw [untouched.entry hd]
    exact h.carries a member
  · intro q hq
    rw [untouched.mapped_iff hq]
    exact h.mapped q hq
  · intro q hq mapped
    have still := (h.mapped q hq).mpr (.inl mapped)
    rw [untouched.slot_eq hq still.1]
    exact h.oldSlot q hq mapped
  · intro a member
    obtain ⟨small, -⟩ := h.user a member
    have hq : 1024 * a.region < 2 ^ 20 := by
      rw [Placed.region]
      omega
    have page : 1024 * a.region / 1024 = a.region := by omega
    have still : s'.Present s.curPageDir (1024 * a.region / 1024) := by
      rw [page]
      exact (h.present _ (by omega)).mpr (.inr ⟨a, member, rfl⟩)
    rw [untouched.slot_eq hq still]
    exact h.newSlot a member
  · rw [samePmm]
    exact h.frames

-----------------------------------------------------------------------------------------
-- One page more
-----------------------------------------------------------------------------------------

theorem exists_snoc {b : Placed} {P : Placed → Prop}
    : (∃ a ∈ added ++ [b], P a) ↔ (∃ a ∈ added, P a) ∨ P b := by
  simp only [List.mem_append, List.mem_singleton, or_and_right, exists_or, exists_eq_left]

theorem forall_snoc {b : Placed} {P : Placed → Prop} (old : ∀ a ∈ added, P a) (last : P b)
    : ∀ a ∈ added ++ [b], P a :=
  List.forall_mem_append.mpr ⟨old, List.forall_mem_singleton.mpr last⟩

/-- The region of a page that was added is one of the directory. -/
theorem Added.region_lt (h : Added s s' added) {a : Placed} (member : a ∈ added)
    : a.region < 1024 := by
  obtain ⟨small, -⟩ := h.user a member
  rw [Placed.region]
  omega

section

variable {p phys : Nat} (h : Added s s' added)
  (new : PageAdded s' s'' s.curPageDir p phys segmentFlags)
include h new

/-- The frames that the directory uses are its own from the start, or new since. -/
theorem Added.uses_snoc (frame : Nat) (used : s''.UsedBy s.curPageDir frame)
    : s.UsedBy s.curPageDir frame ∨ ¬ s.pmm.Marked (frame / 4096) := by
  rcases new.grows.uses frame used with before | fresh
  · exact h.uses frame before
  · exact .inr (fun set => fresh (h.keeps _ set))

/-- Other things that were marked have kept their words. -/
theorem Added.others_snoc (frame : Nat) (isFrame : IsFrame frame)
    (marked : s.pmm.Marked (frame / 4096)) (unused : ¬ s.UsedBy s.curPageDir frame) (t : Nat)
    (ht : t < 1024)
    : s''.word frame t = s.word frame t := by
  have unused' : ¬ s''.UsedBy s.curPageDir frame := fun used =>
    (h.uses_snoc new frame used).elim unused (fun fresh => fresh marked)
  rw [new.grows.others frame isFrame unused' t ht, h.others frame isFrame marked unused t ht]

theorem Added.frame_snoc
    : ∀ a ∈ added ++ [⟨p, phys⟩], IsFrame a.frame ∧ ¬ s.pmm.Marked (a.frame / 4096)
      ∧ s''.pmm.Marked (a.frame / 4096) ∧ ¬ s''.UsedBy s.curPageDir a.frame := by
  have unmarked : ¬ s.pmm.Marked (phys / 4096) := fun set => new.clear (h.keeps _ set)
  refine forall_snoc (fun a member => ?_) ⟨new.isFrame, unmarked, new.marked, new.unused⟩
  obtain ⟨isFrame, fresh, marked, unused⟩ := h.frame a member
  refine ⟨isFrame, fresh, new.grows.keeps _ marked, fun used => ?_⟩
  rcases new.grows.uses a.frame used with before | unmarked'
  · exact unused before
  · exact unmarked' marked

/-- The frame of the page was clear, so it is none of those given before. -/
theorem Added.distinct_snoc
    : ((added ++ [(⟨p, phys⟩ : Placed)]).map Placed.frame).Nodup := by
  rw [List.map_append, List.map_singleton]
  refine List.nodup_append.mpr ⟨h.distinct, List.nodup_singleton _, ?_⟩
  intro frame member frame' last
  obtain ⟨a, memberA, rfl⟩ := List.mem_map.mp member
  obtain ⟨-, -, marked, -⟩ := h.frame a memberA
  rw [List.mem_singleton.mp last]
  intro same
  rw [same] at marked
  exact new.clear marked

theorem Added.present_snoc (hp : p < 2 ^ 20) (d : Nat) (hd : d < 1024)
    : s''.Present s.curPageDir d
      ↔ s.Present s.curPageDir d ∨ ∃ a ∈ added ++ [⟨p, phys⟩], a.region = d := by
  rw [exists_snoc]
  rcases eq_or_ne d (p / 1024) with rfl | other
  · exact iff_of_true (new.first hp).2.1 (.inr (.inr rfl))
  · rw [Present, new.entries d hd other, ← Present, h.present d hd]
    refine or_congr_right (or_iff_left ?_).symm
    exact fun same => other same.symm

/-- The entry of a region in which a page was added before carries the flags of segments, also if
the new page is in it; and if it has none, `pg_alloc` makes the entry with these flags.
-/
theorem Added.carries_snoc (hp : p < 2 ^ 20) (absent : ¬ s.Present s.curPageDir (p / 1024))
    : ∀ a ∈ added ++ [⟨p, phys⟩],
      s''.word s.curPageDir a.region &&& segmentFlags = segmentFlags := by
  have hd : p / 1024 < 1024 := by omega
  have here {a : Placed} (member : a ∈ added) (same : a.region = p / 1024)
      : s''.word s.curPageDir (p / 1024) &&& segmentFlags = segmentFlags := by
    have present := (h.present _ hd).mpr (.inr ⟨a, member, same⟩)
    have carried := h.carries a member
    rw [same] at carried
    rw [new.outcome.entry present]
    split
    · exact Word.or_and_self _ _
    · exact carried
  refine forall_snoc (fun a member => ?_) ?_
  · rcases eq_or_ne a.region (p / 1024) with same | other
    · rw [same]
      exact here member same
    · rw [new.entries _ (h.region_lt member) other]
      exact h.carries a member
  · by_cases present : s'.Present s.curPageDir (p / 1024)
    · obtain ⟨a, member, same⟩ := ((h.present _ hd).mp present).resolve_left absent
      exact here member same
    · exact new.outcome.newEntry present

theorem Added.mapped_snoc (q : Nat) (hq : q < 2 ^ 20)
    : s''.Mapped s.curPageDir q
      ↔ s.Mapped s.curPageDir q
        ∨ (q % 1024 = 0 ∧ ∃ a ∈ added ++ [⟨p, phys⟩], a.region = q / 1024) := by
  rw [exists_snoc]
  rcases eq_or_ne (q / 1024) (p / 1024) with region | other
  · rcases Nat.eq_zero_or_pos (q % 1024) with first | behind
    · refine iff_of_true ?_ (.inr ⟨first, .inr region.symm⟩)
      exact (new.outcome.written q hq region (by omega)).1
    · rw [(new.outcome.kept q hq (.inr behind)).1, h.mapped q hq]
      have notFirst : ¬ q % 1024 = 0 := by omega
      simp only [notFirst, false_and]
  · rw [(new.outcome.kept q hq (.inl other)).1, h.mapped q hq]
    refine or_congr_right (and_congr_right (fun _ => (or_iff_left ?_).symm))
    exact fun same => other same.symm

theorem Added.oldSlot_snoc (absent : ¬ s.Present s.curPageDir (p / 1024)) (q : Nat)
    (hq : q < 2 ^ 20) (mapped : s.Mapped s.curPageDir q)
    : s''.slot s.curPageDir q = s.slot s.curPageDir q := by
  have other : q / 1024 ≠ p / 1024 := fun same => absent (same ▸ mapped.1)
  have still := (h.mapped q hq).mpr (.inl mapped)
  rw [(new.outcome.kept q hq (.inl other)).2 still, h.oldSlot q hq mapped]

/-- The first page of a region is mapped to the frame given last in it. -/
theorem Added.newSlot_snoc (hp : p < 2 ^ 20)
    : ∀ a ∈ added ++ [⟨p, phys⟩], ∃ b ∈ added ++ [⟨p, phys⟩], b.region = a.region
      ∧ s''.slot s.curPageDir (1024 * a.region) = newPte b.frame segmentFlags 0 := by
  have here : ∃ b ∈ added ++ [⟨p, phys⟩], b.region = p / 1024
      ∧ s''.slot s.curPageDir (1024 * (p / 1024)) = newPte b.frame segmentFlags 0 :=
    exists_snoc.mpr (.inr ⟨rfl, (new.first hp).2.2⟩)
  refine forall_snoc (fun a member => ?_) here
  rcases eq_or_ne a.region (p / 1024) with same | other
  · rw [same]
    exact here
  · have inside := h.region_lt member
    have hq : 1024 * a.region < 2 ^ 20 := by omega
    have page : 1024 * a.region / 1024 = a.region := by omega
    have still := (h.mapped (1024 * a.region) hq).mpr
      (.inr ⟨Nat.mul_mod_right 1024 _, a, member, page.symm⟩)
    obtain ⟨b, memberB, regionB, slot⟩ := h.newSlot a member
    refine exists_snoc.mpr (.inl ⟨b, memberB, regionB, ?_⟩)
    rw [(new.outcome.kept _ hq (.inl (page.symm ▸ other))).2 still, slot]

/-- The page takes one frame, and one for a table if it is the first one of its region. -/
theorem Added.frames_snoc (hp : p < 2 ^ 20) (absent : ¬ s.Present s.curPageDir (p / 1024))
    : Owners.afterAllocs s.pmm (framesFor ((added ++ [(⟨p, phys⟩ : Placed)]).map Placed.region))
      = some s''.pmm := by
  have again : s'.Present s.curPageDir (p / 1024) ↔ p / 1024 ∈ added.map Placed.region := by
    rw [h.present _ (by omega), List.mem_map]
    exact or_iff_right absent
  have frames := new.frames
  simp only [again] at frames
  rw [List.map_append, List.map_singleton]
  change Owners.afterAllocs s.pmm (framesFor (added.map Placed.region ++ [p / 1024])) = _
  rw [framesFor_append, Owners.afterAllocs_add, h.frames]
  exact frames

end

/-- `pg_alloc` of a page in a region that had no table. -/
theorem Added.pgAlloc {virt phys : Nat} (h : Added s s' added) (inWord : virt < 2 ^ 32)
    (absent : ¬ s.Present s.curPageDir (virt / 2 ^ 22))
    (returned : s'.pgAlloc virt segmentFlags = some (phys, s''))
    : virt % 4096 = 0
      ∧ Added s s'' (added ++ [⟨virt / 4096, phys⟩])
      ∧ PageAdded s' s'' s.curPageDir (virt / 4096) phys segmentFlags := by
  have live : s'.Live s'.curPageDir := by
    rw [h.current]
    exact h.live
  obtain ⟨p, hp, rfl, new⟩ := pgAlloc_pageAdded live segmentFlags_low inWord returned
  rw [h.current] at new
  rw [show 4096 * p / 2 ^ 22 = p / 1024 by omega] at absent
  rw [show 4096 * p / 4096 = p by omega]
  refine ⟨Nat.mul_mod_right 4096 p, ?_, new⟩
  exact {
    current := new.current.trans h.current
    live := new.grows.live
    keeps := h.keeps.trans new.grows.keeps
    uses := h.uses_snoc new
    others := h.others_snoc new
    user := forall_snoc h.user ⟨hp, absent⟩
    frame := h.frame_snoc new
    distinct := h.distinct_snoc new
    present := h.present_snoc new hp
    oldEntry := fun d hd present => by
      have other : d ≠ p / 1024 := fun same => absent (same ▸ present)
      rw [new.entries d hd other, h.oldEntry d hd present]
    carries := h.carries_snoc new hp absent
    mapped := h.mapped_snoc new
    oldSlot := h.oldSlot_snoc new absent
    newSlot := h.newSlot_snoc new hp
    frames := h.frames_snoc new hp absent }

/-- It returns when the address is aligned and there are enough frames. -/
theorem Added.pgAlloc_returns {virt : Nat} (h : Added s s' added) (inWord : virt < 2 ^ 32)
    (absent : ¬ s.Present s.curPageDir (virt / 2 ^ 22)) (aligned : virt % 4096 = 0)
    (enough : (Owners.afterAllocs s.pmm
      (framesFor (added.map Placed.region ++ [virt / 2 ^ 22]))).isSome)
    : ∃ phys s'', s'.pgAlloc virt segmentFlags = some (phys, s'') := by
  obtain ⟨p, rfl⟩ : ∃ p, virt = 4096 * p := ⟨virt / 4096, by omega⟩
  have region : 4096 * p / 2 ^ 22 = p / 1024 := by omega
  have hd : p / 1024 < 1024 := by omega
  rw [region] at absent enough
  have live : s'.Live s'.curPageDir := by
    rw [h.current]
    exact h.live
  have again : s'.Present s.curPageDir (p / 1024) ↔ p / 1024 ∈ added.map Placed.region := by
    rw [h.present _ hd, List.mem_map]
    exact or_iff_right absent
  refine Paging.pgAlloc_returns live ?_
  rw [framesFor_append, Owners.afterAllocs_add, h.frames] at enough
  simp only [h.current, again]
  exact enough

-----------------------------------------------------------------------------------------
-- The file in its buffer
-----------------------------------------------------------------------------------------

/-- The directory is live, and the file lies in a buffer in frames that are marked used and that
the directory does not use itself.
-/
structure Ready (s : Paging) (buffer size : Nat) (file : Nat → Nat) : Prop where
  live : s.Live s.curPageDir
  inWord : buffer + size ≤ 2 ^ 32
  bytes : ∀ i < size, ∃ phys, s.translate (buffer + i) = some phys ∧ s.byte phys = file i
    ∧ s.pmm.Marked (phys / 4096) ∧ ¬ s.UsedBy s.curPageDir (frameOf phys)

/-- The file stays in its buffer while pages are added. -/
theorem Added.holds {buffer size : Nat} {file : Nat → Nat} (h : Added s s' added)
    (ready : Ready s buffer size file)
    : Holds s' buffer size file := by
  refine ⟨ready.inWord, fun i hi => ?_⟩
  obtain ⟨phys, found, value, marked, unused⟩ := ready.bytes i hi
  obtain ⟨mapped, address⟩ := translate_eq_some found
  have inWord := ready.inWord
  have hq : (buffer + i) / 4096 < 2 ^ 20 := by omega
  have still := (h.mapped _ hq).mpr (.inl mapped)
  have same : s'.translate (buffer + i) = some phys := by
    rw [translate_congr h.current (iff_of_true still mapped) (fun _ => h.oldSlot _ hq mapped),
      found]
  have isFrame : IsFrame (s.slot s.curPageDir ((buffer + i) / 4096) &&& pgFrame) :=
    isFrame_and_pgFrame _
  have low : (buffer + i) % 4096 < 4096 := Nat.mod_lt _ (by decide)
  have frameEq : frameOf phys = s.slot s.curPageDir ((buffer + i) / 4096) &&& pgFrame :=
    frameOf_translate found
  have number : (s.slot s.curPageDir ((buffer + i) / 4096) &&& pgFrame) / 4096 = phys / 4096 := by
    rw [← frameEq, frameOf]
    omega
  rw [virtByte, same, Option.map_some, ← value, address, byte_eq isFrame low, byte_eq isFrame low,
    h.others _ isFrame (by rwa [number]) (frameEq ▸ unused) _ (by omega)]

end

end Elf

end Hydrangea
