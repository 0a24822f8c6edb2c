import Hydrangea.Exec.Elf
import Hydrangea.Mem.PagingAllocs

/-! The bytes that the loader's reads and writes reach through the page tables. Writes into frames
that the directory does not use leave every translation as it is.
-/

namespace Hydrangea

namespace Paging

-----------------------------------------------------------------------------------------
-- Bytes of physical memory
-----------------------------------------------------------------------------------------

def frameOf (phys : Nat) : Nat :=
  phys / 4096 * 4096

theorem replaceByte_byte (word value : Nat) {i j : Nat} (hi : i < 4) (hj : j < 4)
    : replaceByte word i value / 256 ^ j % 256
      = if j = i then value % 256 else word / 256 ^ j % 256 := by
  rw [replaceByte]
  interval_cases i <;> interval_cases j <;> simp <;> omega

/-- A byte that was stored is read back, and no other one has changed. -/
theorem byte_setByte (s : Paging) (phys value phys' : Nat)
    : (s.setByte phys value).byte phys' = if phys' = phys then value % 256 else s.byte phys' := by
  simp only [byte, setByte, Function.update_apply]
  by_cases sameWord : phys' / 4 * 4 = phys / 4 * 4
  · have sameByte : phys' % 4 = phys % 4 ↔ phys' = phys := by omega
    rw [if_pos sameWord, replaceByte_byte _ _ (Nat.mod_lt _ (by decide)) (Nat.mod_lt _ (by decide))]
    simp only [sameByte, sameWord]
  · have other : phys' ≠ phys := fun same => sameWord (by rw [same])
    rw [if_neg sameWord, if_neg other]

/-- The bytes of a frame are those of its words. -/
theorem byte_eq {s : Paging} {frame o : Nat} (h : IsFrame frame) (ho : o < 4096)
    : s.byte (frame + o) = s.word frame (o / 4) / 256 ^ (o % 4) % 256 := by
  have inside : o / 4 < 1024 := by omega
  have aligned := h.1
  have address : (frame + o) / 4 * 4 = frame + 4 * (o / 4) := by omega
  have low : (frame + o) % 4 = o % 4 := by omega
  rw [byte, word, h.address inside, address, low]

/-- The second state differs in bytes that were written only. -/
structure Wrote (s s' : Paging) (written : Nat → Prop) : Prop where
  pmm : s'.pmm = s.pmm
  current : s'.curPageDir = s.curPageDir
  words : ∀ a, (∀ phys, written phys → phys / 4 * 4 ≠ a) → s'.mem a = s.mem a
  bytes : ∀ phys, ¬ written phys → s'.byte phys = s.byte phys

section

variable {s s' s'' : Paging} {written written' : Nat → Prop} {dir : Nat}

theorem Wrote.refl (s : Paging) (written : Nat → Prop) : Wrote s s written :=
  ⟨rfl, rfl, fun _ _ => rfl, fun _ _ => rfl⟩

theorem Wrote.trans (h : Wrote s s' written) (h' : Wrote s' s'' written) : Wrote s s'' written where
  pmm := h'.pmm.trans h.pmm
  current := h'.current.trans h.current
  words a outside := (h'.words a outside).trans (h.words a outside)
  bytes phys outside := (h'.bytes phys outside).trans (h.bytes phys outside)

/-- More bytes may have been written. -/
theorem Wrote.mono (h : Wrote s s' written) (more : ∀ phys, written phys → written' phys)
    : Wrote s s' written' where
  pmm := h.pmm
  current := h.current
  words a outside := h.words a (fun phys inside => outside phys (more phys inside))
  bytes phys outside := h.bytes phys (fun inside => outside (more phys inside))

theorem wrote_setByte (s : Paging) (phys value : Nat)
    : Wrote s (s.setByte phys value) (fun a => a = phys) where
  pmm := rfl
  current := rfl
  words _ outside := Function.update_of_ne (outside phys rfl).symm _ _
  bytes phys' outside := (byte_setByte s phys value phys').trans (if_neg outside)

/-- The words of a frame that was not written. -/
theorem Wrote.word (h : Wrote s s' written) {frame t : Nat} (isFrame : IsFrame frame)
    (ht : t < 1024) (outside : ∀ phys, written phys → frameOf phys ≠ frame)
    : s'.word frame t = s.word frame t := by
  rw [Paging.word, Paging.word, isFrame.address ht]
  refine h.words _ (fun phys inside same => outside phys inside ?_)
  obtain ⟨aligned, -⟩ := isFrame
  rw [frameOf]
  omega

/-- Writes into frames that a directory does not use do not touch it. -/
theorem Wrote.untouched (h : Wrote s s' written) (isFrame : IsFrame dir)
    (outside : ∀ phys, written phys → ¬ s.UsedBy dir (frameOf phys))
    : Untouched s s' dir := by
  intro frame used t ht
  refine h.word (used.isFrame isFrame) ht (fun phys inside same => outside phys inside ?_)
  rw [same]
  exact used

-----------------------------------------------------------------------------------------
-- Translations
-----------------------------------------------------------------------------------------

/-- The tables of a directory that was not touched. -/
theorem Untouched.present_iff (h : Untouched s s' dir) {d : Nat} (hd : d < 1024)
    : s'.Present dir d ↔ s.Present dir d := by
  rw [Present, h.entry hd, Present]

theorem Untouched.tableAt_eq (h : Untouched s s' dir) {d : Nat} (hd : d < 1024)
    : s'.tableAt dir d = s.tableAt dir d := by
  rw [tableAt, h.entry hd, tableAt]

theorem Untouched.usedBy_iff (h : Untouched s s' dir) (frame : Nat)
    : s'.UsedBy dir frame ↔ s.UsedBy dir frame := by
  refine or_congr_right (exists_congr (fun d => and_congr_right (fun hd => ?_)))
  rw [h.present_iff hd, h.tableAt_eq hd]

/-- The entries in the tables of an untouched directory. -/
theorem Untouched.slot_eq (h : Untouched s s' dir) {q : Nat} (hq : q < 2 ^ 20)
    (present : s.Present dir (q / 1024))
    : s'.slot dir q = s.slot dir q := by
  have hd : q / 1024 < 1024 := by omega
  have ht : q % 1024 < 1024 := by omega
  rw [slot, h.tableAt_eq hd, slot]
  exact h _ (.inr ⟨_, hd, present, rfl⟩) _ ht

theorem Untouched.mapped_iff (h : Untouched s s' dir) {q : Nat} (hq : q < 2 ^ 20)
    : s'.Mapped dir q ↔ s.Mapped dir q := by
  have hd : q / 1024 < 1024 := by omega
  refine (and_congr_left' (h.present_iff hd)).trans (and_congr_right (fun present => ?_))
  have same := h.slot_eq hq present
  rw [slot, slot] at same
  rw [same]

theorem Untouched.live (h : Untouched s s' dir) (samePmm : s'.pmm = s.pmm) (live : s.Live dir)
    : s'.Live dir := by
  obtain ⟨⟨isFrame, table_ne, table_inj⟩, marked, scanned⟩ := live
  refine ⟨⟨isFrame, ?_, ?_⟩, ?_, ?_⟩
  · intro d hd present
    rw [h.tableAt_eq hd]
    exact table_ne d hd ((h.present_iff hd).mp present)
  · intro d hd d' hd' present present' same
    rw [h.tableAt_eq hd, h.tableAt_eq hd'] at same
    exact table_inj d hd d' hd' ((h.present_iff hd).mp present) ((h.present_iff hd').mp present')
      same
  · intro frame used
    rw [samePmm]
    exact marked frame ((h.usedBy_iff frame).mp used)
  · rw [samePmm]
    exact scanned

theorem translate_eq (s : Paging) (virt : Nat)
    : s.translate virt
      = if s.Mapped s.curPageDir (virt / 4096) then
          some ((s.slot s.curPageDir (virt / 4096) &&& pgFrame) + virt % 4096)
        else
          none := by
  have dirIndexEq : dirIndex virt = virt / 4096 / 1024 := by
    rw [dirIndex, Nat.shiftRight_eq_div_pow]
    omega
  have tableIndexEq : tableIndex virt = virt / 4096 % 1024 := by
    rw [tableIndex, Nat.shiftRight_eq_div_pow, show (0x3FF : Nat) = 2 ^ 10 - 1 by decide,
      Nat.and_two_pow_sub_one_eq_mod]
  simp only [translate, pte, pde, dirIndexEq, tableIndexEq]
  rfl

/-- The page of an address that is translated is mapped. -/
theorem translate_eq_some {virt phys : Nat} (h : s.translate virt = some phys)
    : s.Mapped s.curPageDir (virt / 4096)
      ∧ phys = (s.slot s.curPageDir (virt / 4096) &&& pgFrame) + virt % 4096 := by
  rw [translate_eq] at h
  obtain ⟨mapped, same⟩ := Option.ite_none_right_eq_some.mp h
  exact ⟨mapped, (Option.some.inj same).symm⟩

theorem translate_of_mapped {virt : Nat} (mapped : s.Mapped s.curPageDir (virt / 4096))
    : s.translate virt
      = some ((s.slot s.curPageDir (virt / 4096) &&& pgFrame) + virt % 4096) := by
  rw [translate_eq, if_pos mapped]

theorem frameOf_add {frame o : Nat} (isFrame : IsFrame frame) (ho : o < 4096)
    : frameOf (frame + o) = frame := by
  obtain ⟨aligned, -⟩ := isFrame
  rw [frameOf]
  omega

theorem frameOf_translate {virt phys : Nat} (h : s.translate virt = some phys)
    : frameOf phys = s.slot s.curPageDir (virt / 4096) &&& pgFrame := by
  obtain ⟨-, rfl⟩ := translate_eq_some h
  exact frameOf_add (isFrame_and_pgFrame _) (Nat.mod_lt _ (by decide))

/-- An address is translated as before if its page is. -/
theorem translate_congr {virt : Nat} (current : s'.curPageDir = s.curPageDir)
    (mapped : s'.Mapped s.curPageDir (virt / 4096) ↔ s.Mapped s.curPageDir (virt / 4096))
    (same : s.Mapped s.curPageDir (virt / 4096)
      → s'.slot s.curPageDir (virt / 4096) = s.slot s.curPageDir (virt / 4096))
    : s'.translate virt = s.translate virt := by
  rw [translate_eq, translate_eq, current]
  by_cases here : s.Mapped s.curPageDir (virt / 4096)
  · rw [if_pos (mapped.mpr here), if_pos here, same here]
  · rw [if_neg (fun there => here (mapped.mp there)), if_neg here]

/-- While the directory is not touched, every translation stays. -/
theorem Untouched.translate_eq (h : Untouched s s' s.curPageDir)
    (current : s'.curPageDir = s.curPageDir) {virt : Nat} (inWord : virt < 2 ^ 32)
    : s'.translate virt = s.translate virt := by
  have hq : virt / 4096 < 2 ^ 20 := by omega
  exact translate_congr current (h.mapped_iff hq) (fun mapped => h.slot_eq hq mapped.1)

def virtByte (s : Paging) (virt : Nat) : Option Nat :=
  (s.translate virt).map s.byte

/-- The bytes of physical memory behind `n` addresses from `virt` on. -/
def Reaches (s : Paging) (virt n phys : Nat) : Prop :=
  ∃ i < n, s.translate ((virt + i) % 2 ^ 32) = some phys

theorem next_mod (virt i : Nat)
    : ((virt + 1) % 2 ^ 32 + i) % 2 ^ 32 = (virt + (i + 1)) % 2 ^ 32 := by
  omega

/-- The first address, and the others from the next one on. -/
theorem reaches_succ {virt n phys : Nat} (inWord : virt < 2 ^ 32)
    : s.Reaches virt (n + 1) phys
      ↔ s.translate virt = some phys ∨ s.Reaches ((virt + 1) % 2 ^ 32) n phys := by
  constructor
  · intro h
    obtain ⟨i, hi, found⟩ := h
    cases i with
    | zero =>
        rw [Nat.add_zero, Nat.mod_eq_of_lt inWord] at found
        exact .inl found
    | succ i => exact .inr ⟨i, by omega, by rw [next_mod]; exact found⟩
  · intro h
    rcases h with found | ⟨i, hi, found⟩
    · exact ⟨0, by omega, by rw [Nat.add_zero, Nat.mod_eq_of_lt inWord]; exact found⟩
    · exact ⟨i + 1, by omega, by rw [← next_mod]; exact found⟩

/-- What is reached depends on the translations only. -/
theorem reaches_congr {virt n : Nat}
    (same : ∀ virt < 2 ^ 32, s'.translate virt = s.translate virt) (phys : Nat)
    : s'.Reaches virt n phys ↔ s.Reaches virt n phys := by
  refine exists_congr (fun i => and_congr_right (fun _ => ?_))
  rw [same _ (Nat.mod_lt _ (Nat.two_pow_pos 32))]

end

end Paging

namespace Elf

open Paging

section

variable {s : Paging} {event : Event → Prop} {stopped : Paging → Prop}

-----------------------------------------------------------------------------------------
-- Reading and writing bytes
-----------------------------------------------------------------------------------------

/-- Reading a byte stops on a page that is not mapped. -/
theorem meets_readByte {virt : Nat} {returned : Nat → Paging → Prop} (he : event (.reads virt))
    (hs : s.translate virt = none → stopped s)
    (hr : ∀ phys, s.translate virt = some phys → returned (s.byte phys) s)
    : (readByte virt).Meets s event stopped returned := by
  refine .bind (Traced.meets_emit he (.bind (Traced.meets_state ?_)))
  cases found : s.translate virt with
  | none => exact Traced.meets_stop (hs found)
  | some phys => exact Traced.meets_pure (hr phys found)

theorem meets_enter {s' : Paging} {returned : Unit → Paging → Prop} (he : event (.enters s'))
    (hr : returned () s')
    : (enter s').Meets s event stopped returned :=
  .bind (Traced.meets_emit he (Traced.meets_enter hr))

/-- Writing a byte stops on a page that is not mapped, too. -/
theorem meets_writeByte {virt value : Nat} {returned : Unit → Paging → Prop}
    (hs : s.translate virt = none → stopped s)
    (he : ∀ phys, s.translate virt = some phys → event (.enters (s.setByte phys value)))
    (hr : ∀ phys, s.translate virt = some phys → returned () (s.setByte phys value))
    : (writeByte virt value).Meets s event stopped returned := by
  refine .bind (Traced.meets_state ?_)
  cases found : s.translate virt with
  | none => exact Traced.meets_stop (hs found)
  | some phys => exact meets_enter (he phys found) (hr phys found)

/-- Allocating a page may panic. -/
theorem meets_pgAlloc {virt flags : Nat} {returned : Unit → Paging → Prop}
    (hs : s.pgAlloc virt flags = none → stopped s)
    (he : ∀ phys s', s.pgAlloc virt flags = some (phys, s') → event (.enters s'))
    (hr : ∀ phys s', s.pgAlloc virt flags = some (phys, s') → returned () s')
    : (pgAlloc virt flags).Meets s event stopped returned := by
  refine .bind (Traced.meets_state ?_)
  cases result : s.pgAlloc virt flags with
  | none => exact Traced.meets_stop (hs result)
  | some taken =>
      obtain ⟨phys, s'⟩ := taken
      exact meets_enter (he phys s' result) (hr phys s' result)

/-- The number that bytes stand for, the lowest first. -/
def number (bytes : Nat → Nat) : Nat → Nat
  | 0 => 0
  | n + 1 => bytes 0 + 256 * number (fun i => bytes (i + 1)) n

/-- Reading a number whose bytes are known, by induction on their count. -/
theorem meets_readNumber {n virt : Nat} {bytes : Nat → Nat} {returned : Nat → Paging → Prop}
    (inWord : virt < 2 ^ 32) (he : ∀ i < n, event (.reads ((virt + i) % 2 ^ 32)))
    (known : ∀ i < n, s.virtByte ((virt + i) % 2 ^ 32) = some (bytes i))
    (hr : returned (number bytes n) s)
    : (readNumber n virt).Meets s event stopped returned := by
  induction n generalizing virt bytes returned with
  | zero => exact Traced.meets_pure hr
  | succ n ih =>
      have here : (virt + 0) % 2 ^ 32 = virt := Nat.mod_eq_of_lt inWord
      have first := known 0 (Nat.succ_pos n)
      rw [here] at first
      obtain ⟨phys, found, value⟩ := Option.map_eq_some_iff.mp first
      refine .bind (meets_readByte (here ▸ he 0 (Nat.succ_pos n)) ?_ ?_)
      · intro unmapped
        rw [found] at unmapped
        cases unmapped
      · intro phys' found'
        obtain rfl := Option.some.inj (found.symm.trans found')
        have later (i : Nat) (hi : i < n)
            : s.virtByte (((virt + 1) % 2 ^ 32 + i) % 2 ^ 32) = some (bytes (i + 1)) := by
          rw [next_mod]
          exact known (i + 1) (Nat.succ_lt_succ hi)
        refine .bind (ih (Nat.mod_lt _ (by decide)) ?_ later (Traced.meets_pure ?_))
        · intro i hi
          rw [next_mod]
          exact he (i + 1) (Nat.succ_lt_succ hi)
        · rw [value]
          exact hr

/-- The value of a field of a header that lies in a file. -/
def Field.of (field : Field) (file : Nat → Nat) (header : Nat) : Nat :=
  number (fun i => file (header + field.offset + i)) field.bytes

/-- A file lies in a buffer. -/
structure Holds (s : Paging) (buffer size : Nat) (file : Nat → Nat) : Prop where
  inWord : buffer + size ≤ 2 ^ 32
  bytes : ∀ i < size, s.virtByte (buffer + i) = some (file i)

/-- Reading a field of a header inside the file. -/
theorem Holds.meets_read {buffer size header base : Nat} {file : Nat → Nat}
    {returned : Nat → Paging → Prop} (h : Holds s buffer size file) (field : Field)
    (nonempty : 0 < field.bytes) (inside : header + field.offset + field.bytes ≤ size)
    (base_eq : base = buffer + header) (he : ∀ i < size, event (.reads (buffer + i)))
    (hr : returned (field.of file header) s)
    : (field.read base).Meets s event stopped returned := by
  have inWord := h.inWord
  have address (i : Nat) (hi : i < field.bytes)
      : ((base + field.offset) % 2 ^ 32 + i) % 2 ^ 32
        = buffer + (header + field.offset + i) := by
    omega
  refine meets_readNumber (Nat.mod_lt _ (by decide)) ?_ ?_ hr
  · intro i hi
    rw [address i hi]
    exact he _ (by omega)
  · intro i hi
    rw [address i hi]
    exact h.bytes _ (by omega)

-----------------------------------------------------------------------------------------
-- Writing ranges
-----------------------------------------------------------------------------------------

/-- The frames behind a range of addresses are not used by the directory. -/
def Clear (s : Paging) (dest n : Nat) : Prop :=
  IsFrame s.curPageDir
    ∧ ∀ phys, s.Reaches dest n phys → ¬ s.UsedBy s.curPageDir (frameOf phys)

/-- Only bytes behind a range of addresses were written. -/
abbrev WroteRange (s s' : Paging) (dest n : Nat) : Prop :=
  Wrote s s' (s.Reaches dest n)

/-- Writing into a clear range changes no translation. -/
theorem Clear.translate_eq {s' : Paging} {dest n : Nat} (clear : Clear s dest n)
    (wrote : WroteRange s s' dest n) {virt : Nat} (inWord : virt < 2 ^ 32)
    : s'.translate virt = s.translate virt :=
  (wrote.untouched clear.1 clear.2).translate_eq wrote.current inWord

/-- What the first write of a range leaves for the others. -/
structure FirstWritten (s s₁ : Paging) (dest n : Nat) : Prop where
  wrote : WroteRange s s₁ dest (n + 1)
  clear : Clear s₁ ((dest + 1) % 2 ^ 32) n
  same : ∀ virt < 2 ^ 32, s₁.translate virt = s.translate virt
  later : ∀ s', WroteRange s₁ s' ((dest + 1) % 2 ^ 32) n → WroteRange s s' dest (n + 1)

theorem FirstWritten.translate_mod {s₁ : Paging} {dest n : Nat} (h : FirstWritten s s₁ dest n)
    (virt : Nat)
    : s₁.translate (virt % 2 ^ 32) = s.translate (virt % 2 ^ 32) :=
  h.same _ (Nat.mod_lt _ (Nat.two_pow_pos 32))

/-- A byte behind one address of the range only is not written again. -/
theorem FirstWritten.not_reaches {s₁ : Paging} {dest n phys : Nat} (h : FirstWritten s s₁ dest n)
    (once : ∀ j < n + 1, s.translate ((dest + j) % 2 ^ 32) = some phys → j = 0)
    : ¬ s₁.Reaches ((dest + 1) % 2 ^ 32) n phys := by
  intro again
  obtain ⟨j, hj, found⟩ := again
  rw [h.translate_mod, next_mod] at found
  exact absurd (once (j + 1) (Nat.succ_lt_succ hj) found) (Nat.succ_ne_zero j)

theorem Clear.first {dest n phys value : Nat} (clear : Clear s dest (n + 1))
    (inWord : dest < 2 ^ 32) (found : s.translate dest = some phys)
    : FirstWritten s (s.setByte phys value) dest n := by
  have wrote : WroteRange s (s.setByte phys value) dest (n + 1) := by
    refine (wrote_setByte s phys value).mono (fun a same => ?_)
    rw [same]
    exact (reaches_succ inWord).mpr (.inl found)
  have same : ∀ virt < 2 ^ 32, (s.setByte phys value).translate virt = s.translate virt :=
    fun virt hv => clear.translate_eq wrote hv
  have rest (a : Nat) (reached : (s.setByte phys value).Reaches ((dest + 1) % 2 ^ 32) n a)
      : s.Reaches dest (n + 1) a :=
    (reaches_succ inWord).mpr (.inr ((reaches_congr same a).mp reached))
  refine ⟨wrote, ⟨clear.1, fun a reached used => ?_⟩, same, fun s' wrote' => ?_⟩
  · have untouched := wrote.untouched clear.1 clear.2
    exact clear.2 a (rest a reached) ((untouched.usedBy_iff _).mp used)
  · exact wrote.trans (wrote'.mono rest)

/-- Every byte of a range is that of its source, unless the source or the byte itself was written
again.
-/
def CopiedRange (s s' : Paging) (dest src size : Nat) : Prop :=
  ∀ i < size, ∃ source target, s.translate ((src + i) % 2 ^ 32) = some source
    ∧ s.translate ((dest + i) % 2 ^ 32) = some target
    ∧ (¬ s.Reaches dest size source
      → (∀ j < size, s.translate ((dest + j) % 2 ^ 32) = some target → j = i)
      → s'.byte target = s.byte source)

theorem FirstWritten.copiedRange {s' : Paging} {dest src k source₀ target₀ : Nat}
    (hdest : dest < 2 ^ 32) (hsrc : src < 2 ^ 32) (foundSrc : s.translate src = some source₀)
    (foundDest : s.translate dest = some target₀)
    (first : FirstWritten s (s.setByte target₀ (s.byte source₀)) dest k)
    (wrote : WroteRange (s.setByte target₀ (s.byte source₀)) s' ((dest + 1) % 2 ^ 32) k)
    (copied : CopiedRange (s.setByte target₀ (s.byte source₀)) s' ((dest + 1) % 2 ^ 32)
      ((src + 1) % 2 ^ 32) k)
    : CopiedRange s s' dest src (k + 1) := by
  intro i hi
  cases i with
  | zero =>
      refine ⟨source₀, target₀, by rwa [Nat.add_zero, Nat.mod_eq_of_lt hsrc],
        by rwa [Nat.add_zero, Nat.mod_eq_of_lt hdest], ?_⟩
      intro _ once
      rw [wrote.bytes target₀ (first.not_reaches once), byte_setByte, if_pos rfl, byte, Nat.mod_mod]
  | succ i =>
      obtain ⟨source, target, foundSrc', foundDest', value⟩ := copied i (by omega)
      rw [first.translate_mod, next_mod] at foundSrc'
      rw [first.translate_mod, next_mod] at foundDest'
      refine ⟨source, target, foundSrc', foundDest', fun unwritten' once => ?_⟩
      have unreached : ¬ s.Reaches ((dest + 1) % 2 ^ 32) k source :=
        fun reached => unwritten' ((reaches_succ hdest).mpr (.inr reached))
      have notFirst : source ≠ target₀ := by
        intro same
        exact unwritten' ((reaches_succ hdest).mpr (.inl (same ▸ foundDest)))
      rw [value ?_ ?_, byte_setByte, if_neg notFirst]
      · exact fun reached => unreached ((reaches_congr first.same source).mp reached)
      · intro j hj found
        rw [first.translate_mod, next_mod] at found
        have := once (j + 1) (Nat.succ_lt_succ hj) found
        omega

/-- `memcpy` stops at the first address that is not mapped. Up to there the range it writes to is
clear: all of it, or its first `k` addresses if the next one is not mapped. If it returns, the range
is copied.
-/
theorem meets_memcpy {dest src size k : Nat} {returned : Unit → Paging → Prop}
    (reach : k = size ∨ (k < size ∧ s.translate ((dest + k) % 2 ^ 32) = none))
    (clear : Clear s dest k) (hdest : dest < 2 ^ 32) (hsrc : src < 2 ^ 32)
    (he : ∀ i < size, i ≤ k → event (.reads ((src + i) % 2 ^ 32)))
    (hp : ∀ s', WroteRange s s' dest k → event (.enters s'))
    (hs : ∀ i < size, s.translate ((src + i) % 2 ^ 32) = none
        ∨ s.translate ((dest + i) % 2 ^ 32) = none
      → ∀ s', WroteRange s s' dest k → stopped s')
    (hr : k = size → ∀ s', WroteRange s s' dest k → CopiedRange s s' dest src size
      → returned () s')
    : (memcpy dest src size).Meets s event stopped returned := by
  induction size generalizing s dest src k with
  | zero =>
      have none : k = 0 := by omega
      refine Traced.meets_pure (hr none s (Wrote.refl s _) ?_)
      intro i hi
      omega
  | succ n ih =>
      have firstSrc : (src + 0) % 2 ^ 32 = src := Nat.mod_eq_of_lt hsrc
      have firstDest : (dest + 0) % 2 ^ 32 = dest := Nat.mod_eq_of_lt hdest
      have unwritten : WroteRange s s dest k := Wrote.refl s _
      refine .bind (meets_readByte (firstSrc ▸ he 0 (Nat.succ_pos n) (Nat.zero_le k)) ?_ ?_)
      · intro unmapped
        exact hs 0 (Nat.succ_pos n) (.inl (by rw [firstSrc, unmapped])) s unwritten
      intro source₀ foundSrc
      cases k with
      | zero =>
          have unmapped : s.translate dest = none := by
            rw [← firstDest]
            exact (reach.resolve_left (Nat.succ_ne_zero n).symm).2
          refine .bind (meets_writeByte ?_ ?_ ?_)
          · intro _
            exact hs 0 (Nat.succ_pos n) (.inr (by rw [firstDest, unmapped])) s unwritten
          · intro _ found
            exact absurd (unmapped.symm.trans found) (Option.some_ne_none _).symm
          · intro _ found
            exact absurd (unmapped.symm.trans found) (Option.some_ne_none _).symm
      | succ k =>
          have first {target : Nat} (found : s.translate dest = some target)
              : FirstWritten s (s.setByte target (s.byte source₀)) dest k :=
            clear.first hdest found
          refine .bind (meets_writeByte ?_ ?_ ?_)
          · intro unmapped
            exact hs 0 (Nat.succ_pos n) (.inr (by rw [firstDest, unmapped])) s unwritten
          · intro target found
            exact hp _ (first found).wrote
          intro target₀ foundDest
          replace first := first foundDest
          refine ih ?_ first.clear (Nat.mod_lt _ (by decide)) (Nat.mod_lt _ (by decide)) ?_ ?_ ?_ ?_
          · rw [first.translate_mod, next_mod]
            exact reach.imp (fun same => Nat.succ.inj same)
              (fun stops => ⟨Nat.lt_of_succ_lt_succ stops.1, stops.2⟩)
          · intro i hi le
            rw [next_mod]
            exact he (i + 1) (Nat.succ_lt_succ hi) (Nat.succ_le_succ le)
          · exact fun s' wrote => hp s' (first.later s' wrote)
          · intro i hi unmapped s' wrote
            rw [first.translate_mod, first.translate_mod, next_mod, next_mod] at unmapped
            exact hs (i + 1) (Nat.succ_lt_succ hi) unmapped s' (first.later s' wrote)
          · intro whole s' wrote copied
            subst whole
            exact hr rfl s' (first.later s' wrote)
              (first.copiedRange hdest hsrc foundSrc foundDest wrote copied)

/-- `memset` fills a clear range, or stops at an address that is not mapped. -/
theorem meets_fillBytes {dest value n : Nat} {returned : Unit → Paging → Prop}
    (clear : Clear s dest n) (hdest : dest < 2 ^ 32)
    (hp : ∀ s', WroteRange s s' dest n → event (.enters s'))
    (hs : ∀ i < n, s.translate ((dest + i) % 2 ^ 32) = none
      → ∀ s', WroteRange s s' dest n → stopped s')
    (hr : ∀ s', WroteRange s s' dest n
      → (∀ i < n, ∃ target, s.translate ((dest + i) % 2 ^ 32) = some target
        ∧ s'.byte target = value % 256)
      → returned () s')
    : (fillBytes dest value n).Meets s event stopped returned := by
  induction n generalizing s dest with
  | zero =>
      refine Traced.meets_pure (hr s (Wrote.refl s _) ?_)
      intro i hi
      omega
  | succ n ih =>
      have here : (dest + 0) % 2 ^ 32 = dest := Nat.mod_eq_of_lt hdest
      have first {target : Nat} (found : s.translate dest = some target)
          : FirstWritten s (s.setByte target value) dest n :=
        clear.first hdest found
      refine .bind (meets_writeByte ?_ (fun target found => hp _ (first found).wrote) ?_)
      · intro unmapped
        exact hs 0 (Nat.succ_pos n) (by rw [here, unmapped]) s (Wrote.refl s _)
      intro target₀ found₀
      replace first := first found₀
      refine ih first.clear (Nat.mod_lt _ (by decide))
        (fun s' wrote => hp s' (first.later s' wrote)) ?_ ?_
      · intro i hi unmapped s' wrote
        rw [first.translate_mod, next_mod] at unmapped
        exact hs (i + 1) (Nat.succ_lt_succ hi) unmapped s' (first.later s' wrote)
      · intro s' wrote filled
        refine hr s' (first.later s' wrote) (fun i hi => ?_)
        cases i with
        | zero =>
            refine ⟨target₀, by rw [here, found₀], ?_⟩
            by_cases again : (s.setByte target₀ value).Reaches ((dest + 1) % 2 ^ 32) n target₀
            · obtain ⟨j, hj, found⟩ := again
              obtain ⟨target, found', value'⟩ := filled j hj
              obtain rfl := Option.some.inj (found.symm.trans found')
              exact value'
            · rw [wrote.bytes target₀ again, byte_setByte, if_pos rfl]
        | succ i =>
            obtain ⟨target, found, value'⟩ := filled i (by omega)
            rw [first.translate_mod, next_mod] at found
            exact ⟨target, found, value'⟩

/-- `vfs_read` stores the bytes of the file into a clear buffer all of whose addresses are mapped,
no two to one byte.
-/
theorem meets_storeBytes {buffer : Nat} {bytes : List UInt8} {returned : Unit → Paging → Prop}
    (clear : Clear s buffer bytes.length) (hbuffer : buffer < 2 ^ 32)
    (hp : ∀ s', WroteRange s s' buffer bytes.length → event (.enters s'))
    (mapped : ∀ i < bytes.length, ∃ phys, s.translate ((buffer + i) % 2 ^ 32) = some phys
      ∧ ∀ j < bytes.length, s.translate ((buffer + j) % 2 ^ 32) = some phys → j = i)
    (hr : ∀ s', WroteRange s s' buffer bytes.length
      → (∀ i < bytes.length, s'.virtByte ((buffer + i) % 2 ^ 32) = some (bytes.getD i 0).toNat)
      → returned () s')
    : (storeBytes buffer bytes).Meets s event stopped returned := by
  induction bytes generalizing s buffer with
  | nil =>
      refine Traced.meets_pure (hr s (Wrote.refl s _) ?_)
      intro i hi
      exact absurd hi (Nat.not_lt_zero i)
  | cons b bytes ih =>
      have here : (buffer + 0) % 2 ^ 32 = buffer := Nat.mod_eq_of_lt hbuffer
      obtain ⟨phys, found, once⟩ := mapped 0 (Nat.succ_pos _)
      rw [here] at found
      have first : FirstWritten s (s.setByte phys b.toNat) buffer bytes.length :=
        clear.first hbuffer found
      refine .bind (meets_writeByte ?_ ?_ ?_)
      · intro unmapped
        rw [found] at unmapped
        cases unmapped
      · intro phys' found'
        obtain rfl := Option.some.inj (found.symm.trans found')
        exact hp _ first.wrote
      intro phys' found'
      obtain rfl := Option.some.inj (found.symm.trans found')
      refine ih first.clear (Nat.mod_lt _ (by decide))
        (fun s' wrote => hp s' (first.later s' wrote)) ?_ ?_
      · intro i hi
        obtain ⟨phys', found', once'⟩ := mapped (i + 1) (Nat.succ_lt_succ hi)
        refine ⟨phys', by rw [first.translate_mod, next_mod, found'], fun j hj foundJ => ?_⟩
        rw [first.translate_mod, next_mod] at foundJ
        have := once' (j + 1) (Nat.succ_lt_succ hj) foundJ
        omega
      · intro s' wrote stored
        have whole := first.later s' wrote
        refine hr s' whole (fun i hi => ?_)
        cases i with
        | zero =>
            have same : s'.translate buffer = some phys := by
              rw [clear.translate_eq whole hbuffer, found]
            have small : b.toNat % 256 = b.toNat := Nat.mod_eq_of_lt b.toNat_lt
            rw [here, virtByte, same, Option.map_some, wrote.bytes phys (first.not_reaches once),
              byte_setByte, if_pos rfl, small]
            rfl
        | succ i =>
            have value := stored i (by simpa using hi)
            rw [next_mod] at value
            exact value

end

end Elf

end Hydrangea
