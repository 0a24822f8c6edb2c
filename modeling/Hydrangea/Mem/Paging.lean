import Hydrangea.Lib.Word
import Hydrangea.Mem.Pmm

/-! The page directories and page tables of `kernel/mem/paging.c`, which lie in memory as
arrays of 32-bit words. `none` is a call that does not return: the panic on an unaligned
address, or the one of `frame_alloc`.
-/

namespace Hydrangea

/-- The frame bitmap, the words of memory by their addresses, the address of `ker_page_dir`
and `cur_page_dir`.
-/
structure Paging where
  pmm : Pmm
  mem : Nat → Nat
  kerPageDir : Nat
  curPageDir : Nat

namespace Paging

def pgSize : Nat := 0x1000

def pgPresent : Nat := 1 <<< 0

def pgRw : Nat := 1 <<< 1

def pgUser : Nat := 1 <<< 2

def pgFrame : Nat := 0xFFFFF000

def pgFlags : Nat := 0x00000FFF

/-- `((uint32_t *)base)[i]`. -/
def word (s : Paging) (base i : Nat) : Nat :=
  s.mem ((base + 4 * i) % 2 ^ 32)

/-- `((uint32_t *)base)[i] = value`. -/
def setWord (s : Paging) (base i value : Nat) : Paging :=
  { s with mem := Function.update s.mem ((base + 4 * i) % 2 ^ 32) value }

def dirIndex (virt : Nat) : Nat :=
  virt >>> 22

def tableIndex (virt : Nat) : Nat :=
  virt >>> 12 &&& 0x3FF

def pde (s : Paging) (dir virt : Nat) : Nat :=
  s.word dir (dirIndex virt)

/-- The entry for a page in the table that its directory entry points to. -/
def pte (s : Paging) (dir virt : Nat) : Nat :=
  s.word (s.pde dir virt &&& pgFrame) (tableIndex virt)

/-- The loop of `pg_mk_pgtbl`. -/
def clearTable (s : Paging) (newTable : Nat) : Paging :=
  (List.range 1024).foldl (fun s i => s.setWord newTable i 0) s

/-- `pg_mk_pgtbl`, without the address it returns, which its caller does not use. -/
def pgMkPgtbl (s : Paging) (dir dirIndex flags : Nat) : Option Paging := do
  let (newTable, pmm) ← s.pmm.frameAlloc
  let s := { s with pmm }.clearTable newTable
  return s.setWord dir dirIndex (newTable ||| pgPresent ||| flags)

def pgTblExists (s : Paging) (dir virt : Nat) : Option Bool :=
  if virt % 0x1000 ≠ 0 then none else some (s.pde dir virt &&& pgPresent ≠ 0)

def pgIsMapped (s : Paging) (dir virt : Nat) : Option Bool :=
  if virt % 0x1000 ≠ 0 then
    none
  else do
    let tblExists ← s.pgTblExists dir virt
    return tblExists && s.pte dir virt &&& pgPresent ≠ 0

def pgVirtToPhys (s : Paging) (dir virt : Nat) : Option Nat :=
  if virt % 0x1000 ≠ 0 then none else some (s.pte dir virt &&& pgFrame)

/-- The entry that `pg_map_pages` writes for its `i`-th page. -/
def newPte (phys flags i : Nat) : Nat :=
  (phys + i * pgSize) % 2 ^ 32 ||| pgPresent ||| flags

/-- The body of the loop of `pg_map_pages`. -/
def mapPage (dir virt phys flags tbl : Nat) (s : Paging) (i : Nat) : Option Paging := do
  let addr := (virt + i * pgSize) % 2 ^ 32
  let s :=
    if ← s.pgIsMapped dir addr then
      let s := s.setWord tbl i (s.word tbl i ||| flags)
      s.setWord dir (dirIndex virt) (s.word dir (dirIndex virt) ||| flags)
    else
      s
  return s.setWord tbl i (newPte phys flags i)

/-- The part of `pg_map_pages` in front of its loop that makes the table. -/
def needTable (s : Paging) (dir virt flags : Nat) : Option Paging := do
  let tblExists ← s.pgTblExists dir virt
  if tblExists then some s else s.pgMkPgtbl dir (dirIndex virt) flags

def pgMapPages (s : Paging) (dir virt phys num flags : Nat) : Option Paging :=
  if virt % 0x1000 ≠ 0 then
    none
  else if phys % 0x1000 ≠ 0 then
    none
  else do
    let s ← s.needTable dir virt flags
    let tbl := s.word dir (dirIndex virt) &&& pgFrame
    (List.range num).foldlM (mapPage dir virt phys flags tbl) s

/-- `pg_alloc`: the frame returned and the new state. -/
def pgAlloc (s : Paging) (virt flags : Nat) : Option (Nat × Paging) := do
  let (phys, pmm) ← s.pmm.frameAlloc
  let s ← { s with pmm }.pgMapPages s.curPageDir virt phys 1 flags
  return (phys, s)

/-- The body of the loop of `pg_unmap_pages`; the argument of `frame_free` has 32 bits. -/
def unmapPage (tbl : Nat) (s : Paging) (i : Nat) : Paging :=
  if s.word tbl i ||| pgPresent ≠ 0 then
    let s := { s with pmm := s.pmm.frameFree ((s.word tbl i ||| pgFrame) % 2 ^ 32) }
    s.setWord tbl i 0
  else
    s

def pgUnmapPages (s : Paging) (dir virt num : Nat) : Option Paging := do
  let tblExists ← s.pgTblExists dir virt
  if !tblExists then
    return s
  let tbl := s.word dir (dirIndex virt) &&& pgFrame
  return (List.range num).foldl (unmapPage tbl) s

def pgFree (s : Paging) (virt : Nat) : Option Paging :=
  s.pgUnmapPages s.curPageDir virt 1

/-- The `memcpy` of `pg_clone_page_table`. -/
def copyTable (s : Paging) (newTbl tbl : Nat) : Paging :=
  (List.range 1024).foldl (fun s i => s.setWord newTbl i (s.word tbl i)) s

/-- `pg_clone_page_table`: the entry returned and the new state. -/
def pgClonePageTable (s : Paging) (tbl : Nat) : Option (Nat × Paging) := do
  let (newTbl, pmm) ← s.pmm.frameAlloc
  return (newTbl ||| (tbl &&& pgFlags), { s with pmm }.copyTable newTbl (tbl &&& pgFrame))

/-- The body of the loop of `pg_clone_page_dir`. -/
def cloneEntry (dir newDir : Nat) (s : Paging) (i : Nat) : Option Paging := do
  if s.word dir i &&& pgPresent ≠ 0 then
    let (entry, s) ← s.pgClonePageTable (s.word dir i)
    let s := s.setWord newDir i entry
    return s.setWord newDir i (s.word newDir i ||| (s.word dir i &&& pgFlags))
  else
    return s

/-- `pg_clone_page_dir`: the directory returned and the new state. -/
def pgClonePageDir (s : Paging) (dir : Nat) : Option (Nat × Paging) := do
  let (newDir, pmm) ← s.pmm.frameAlloc
  let s := { s with pmm }.clearTable newDir
  let s ← (List.range 1024).foldlM (cloneEntry dir newDir) s
  return (newDir, s)

def pgMakeUserPageDir (s : Paging) : Option (Nat × Paging) :=
  s.pgClonePageDir s.kerPageDir

-----------------------------------------------------------------------------------------
-- Words in different frames
-----------------------------------------------------------------------------------------

/-- A frame: its address is aligned and fits a 32-bit word. -/
def IsFrame (frame : Nat) : Prop :=
  frame % 4096 = 0 ∧ frame < 2 ^ 32

theorem IsFrame.address {frame i : Nat} (h : IsFrame frame) (inside : i < 1024)
    : (frame + 4 * i) % 2 ^ 32 = frame + 4 * i := by
  obtain ⟨aligned, small⟩ := h
  refine Nat.mod_eq_of_lt ?_
  omega

/-- A store into one word of a frame is read back there, and nowhere else in the frame. -/
theorem word_setWord {s : Paging} {frame i j value : Nat} (h : IsFrame frame) (hi : i < 1024)
    (hj : j < 1024)
    : (s.setWord frame i value).word frame j = if j = i then value else s.word frame j := by
  simp only [word, setWord, h.address hi, h.address hj, Function.update_apply]
  have same : frame + 4 * j = frame + 4 * i ↔ j = i := by omega
  simp only [same]

/-- The word `i` of an array lies in a frame. -/
def Hits (base i frame : Nat) : Prop :=
  frame ≤ (base + 4 * i) % 2 ^ 32 ∧ (base + 4 * i) % 2 ^ 32 < frame + 4096

/-- A store outside a frame is not seen in it. -/
theorem word_setWord_of_not_hits {s : Paging} {base frame i j value : Nat}
    (h : IsFrame frame) (hj : j < 1024) (outside : ¬ Hits base i frame)
    : (s.setWord base i value).word frame j = s.word frame j := by
  have apart : frame + 4 * j ≠ (base + 4 * i) % 2 ^ 32 := by
    intro same
    exact outside ⟨by omega, by omega⟩
  simp only [word, setWord, h.address hj, Function.update_of_ne apart]

/-- A frame holds no word of another one. -/
theorem not_hits_of_ne {frame other i : Nat} (h : IsFrame frame) (h' : IsFrame other)
    (distinct : other ≠ frame) (hi : i < 1024)
    : ¬ Hits frame i other := by
  intro inside
  rw [Hits, h.address hi] at inside
  obtain ⟨aligned, -⟩ := h
  obtain ⟨aligned', -⟩ := h'
  omega

/-- A store into one frame is not seen in another one. -/
theorem word_setWord_of_ne {s : Paging} {frame other i j value : Nat} (h : IsFrame frame)
    (h' : IsFrame other) (distinct : other ≠ frame) (hi : i < 1024) (hj : j < 1024)
    : (s.setWord frame i value).word other j = s.word other j :=
  word_setWord_of_not_hits h' hj (not_hits_of_ne h h' distinct hi)

/-- Filling a frame with one value stores it into the words seen, and leaves other frames alone. By
induction on the words.
-/
theorem fill_word {s : Paging} {base frame value n j : Nat} (h : IsFrame base) (h' : IsFrame frame)
    (small : n ≤ 1024) (hj : j < 1024)
    : ((List.range n).foldl (fun s i => s.setWord base i value) s).word frame j
      = if frame = base ∧ j < n then value else s.word frame j := by
  induction n with
  | zero => simp
  | succ n ih =>
      have before := ih (Nat.le_of_succ_le small)
      rw [List.range_succ, List.foldl_append, List.foldl_cons, List.foldl_nil]
      rcases eq_or_ne frame base with rfl | distinct
      · rw [word_setWord h small hj, before]
        rcases eq_or_ne j n with rfl | other
        · simp
        · have same : j < n + 1 ↔ j < n := by omega
          simp [other, same]
      · rw [word_setWord_of_ne h h' distinct small hj, before]
        simp [distinct]

theorem clearTable_word {s : Paging} {newTable frame j : Nat} (h : IsFrame newTable)
    (h' : IsFrame frame) (hj : j < 1024)
    : (s.clearTable newTable).word frame j
      = if frame = newTable then 0 else s.word frame j := by
  rw [clearTable, fill_word h h' (Nat.le_refl _) hj]
  simp only [hj, and_true]

/-- Clearing a table stores into memory only. -/
@[simp]
theorem clearTable_pmm (s : Paging) (newTable : Nat)
    : (s.clearTable newTable).pmm = s.pmm := by
  have each (words : List Nat) (s : Paging)
      : (words.foldl (fun s i => s.setWord newTable i 0) s).pmm = s.pmm := by
    induction words generalizing s with
    | nil => rfl
    | cons i words ih => exact ih (s.setWord newTable i 0)
  exact each _ s

theorem isFrame_and_pgFrame (x : Nat) : IsFrame (x &&& pgFrame) :=
  Word.and_highMask_aligned (show 12 ≤ 32 by decide) x

/-- An entry points to the frame it was made of. -/
theorem entry_and_pgFrame {frame flags : Nat} (h : IsFrame frame) (low : flags < 4096)
    : (frame ||| pgPresent ||| flags) &&& pgFrame = frame := by
  have present : pgPresent < 2 ^ 12 := by decide
  have first := Word.or_and_highMask (show 12 ≤ 32 by decide) (frame ||| pgPresent) low
  have second := Word.or_and_highMask (show 12 ≤ 32 by decide) frame present
  have third := Word.and_highMask_of_aligned (show 12 ≤ 32 by decide) h.1 h.2
  exact first.trans (second.trans third)

/-- More flags leave the frame of an entry as it is. -/
theorem or_flags_and_pgFrame (x : Nat) {flags : Nat} (low : flags < 4096)
    : (x ||| flags) &&& pgFrame = x &&& pgFrame :=
  Word.or_and_highMask (show 12 ≤ 32 by decide) x low

/-- An entry is present exactly when its lowest bit is set. -/
theorem present_iff (x : Nat) : x &&& pgPresent ≠ 0 ↔ x.testBit 0 = true :=
  Pmm.and_shiftLeft_ne_zero x 0

theorem entry_present (frame flags : Nat)
    : (frame ||| pgPresent ||| flags) &&& pgPresent ≠ 0 := by
  rw [present_iff]
  simp [pgPresent]

/-- More flags leave a present entry present. -/
theorem or_flags_present {x : Nat} (flags : Nat) (present : x &&& pgPresent ≠ 0)
    : (x ||| flags) &&& pgPresent ≠ 0 := by
  rw [present_iff] at present ⊢
  rw [Nat.testBit_or, present, Bool.true_or]

theorem dirIndex_page (p : Nat) : dirIndex (4096 * p) = p / 1024 := by
  rw [dirIndex, Nat.shiftRight_eq_div_pow]
  omega

theorem tableIndex_page (p : Nat) : tableIndex (4096 * p) = p % 1024 := by
  rw [tableIndex, Nat.shiftRight_eq_div_pow, show (0x3FF : Nat) = 2 ^ 10 - 1 by decide,
    Nat.and_two_pow_sub_one_eq_mod]
  omega

-----------------------------------------------------------------------------------------
-- The frames that a call takes
-----------------------------------------------------------------------------------------

/-- The loop of `pg_map_pages` leaves the frame bitmap alone. -/
theorem mapPage_pmm {dir virt phys flags tbl i : Nat} {s s' : Paging}
    (round : mapPage dir virt phys flags tbl s i = some s')
    : s'.pmm = s.pmm := by
  obtain ⟨mapped, -, rest⟩ := Option.bind_eq_some_iff.mp round
  rw [← Option.some.inj rest]
  cases mapped <;> rfl

/-- `pg_map_pages` allocates a frame for a new table, or none. -/
theorem pgMapPages_pmm {dir virt phys num flags : Nat} {s s' : Paging}
    (returned : s.pgMapPages dir virt phys num flags = some s')
    : s'.pmm = s.pmm ∨ ∃ frame, s.pmm.frameAlloc = some (frame, s'.pmm) := by
  have loop (tbl : Nat) (rounds : List Nat) {s s' : Paging}
      (ended : rounds.foldlM (mapPage dir virt phys flags tbl) s = some s')
      : s'.pmm = s.pmm := by
    induction rounds generalizing s with
    | nil => exact congrArg Paging.pmm (Option.some.inj ended).symm
    | cons i rounds ih =>
        rw [List.foldlM_cons] at ended
        obtain ⟨s₁, round, rest⟩ := Option.bind_eq_some_iff.mp ended
        exact (ih rest).trans (mapPage_pmm round)
  rw [pgMapPages] at returned
  split at returned
  · cases returned
  · split at returned
    · cases returned
    · obtain ⟨s₁, needed, looped⟩ := Option.bind_eq_some_iff.mp returned
      rw [loop _ _ looped]
      obtain ⟨tblExists, -, made⟩ := Option.bind_eq_some_iff.mp needed
      cases tblExists with
      | true =>
          obtain rfl : s = s₁ := Option.some.inj made
          exact Or.inl rfl
      | false =>
          obtain ⟨⟨frame, pmm⟩, alloc, rest⟩ := Option.bind_eq_some_iff.mp made
          obtain rfl := Option.some.inj rest
          refine Or.inr ⟨frame, ?_⟩
          rw [alloc]
          simp [setWord]

theorem pgMapPages_keeps {dir virt phys num flags : Nat} {s s' : Paging}
    (returned : s.pgMapPages dir virt phys num flags = some s')
    : Pmm.Keeps s.pmm s'.pmm ∧ s'.pmm.memorySize = s.pmm.memorySize := by
  rcases pgMapPages_pmm returned with same | ⟨frame, alloc⟩
  · rw [same]
    exact ⟨Pmm.Keeps.refl _, rfl⟩
  · obtain ⟨keeps, size, -⟩ := Pmm.frameAlloc_keeps alloc
    exact ⟨keeps, size⟩

end Paging

end Hydrangea
