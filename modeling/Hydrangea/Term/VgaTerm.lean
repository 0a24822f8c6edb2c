import Hydrangea.Lib.Stepwise

/-! The text terminal of `kernel/term/vga/vga_term.c`. A function that accesses the text buffer also
returns the indices of the cells that it reads and writes. A `size_t` has 32 bits.
-/

namespace Hydrangea

def vgaWidth : Nat := 80
def vgaHeight : Nat := 25

/-- `c_vga_term_state`, the text buffer and the index that the hardware shows its cursor at. -/
structure VgaTerm where
  color : UInt8
  row : Nat
  column : Nat
  frameBuffer : Nat → UInt16
  cursor : Nat

namespace VgaTerm

def vgaChar (c color : UInt8) : UInt16 :=
  color.toUInt16 <<< 8 ||| c.toUInt16

/-- `vga_term_cur_mov`. -/
def curMov (s : VgaTerm) (x y : Nat) : VgaTerm :=
  { s with cursor := (x + vgaWidth * y) % 2 ^ 16, row := y, column := x }

/-- `vga_term_cur_step`. -/
def curStep (s : VgaTerm) : VgaTerm :=
  s.curMov s.column s.row

/-- The rounds of the loops of `vga_term_scroll`. -/
def scrollRounds : List (Nat × Nat) :=
  (List.range vgaHeight).flatMap (fun i => (List.range vgaWidth).map (fun j => (i, j)))

/-- `vga_term_scroll`: each round writes one cell from the one below it. -/
def scroll (s : VgaTerm) : List Nat × VgaTerm :=
  (scrollRounds.flatMap (fun (i, j) => [(i + 1) * vgaWidth + j, i * vgaWidth + j]),
    { s with
      frameBuffer := scrollRounds.foldl
        (fun buffer (i, j) =>
          Function.update buffer (i * vgaWidth + j) (buffer ((i + 1) * vgaWidth + j)))
        s.frameBuffer })

/-- `vga_term_putat`. -/
def putat (s : VgaTerm) (c : UInt8) (x y : Nat) : List Nat × VgaTerm :=
  let index := (x + y * vgaWidth) % 2 ^ 32
  ([index],
    { s with frameBuffer := Function.update s.frameBuffer index (vgaChar c s.color) }.curStep)

@[simp]
theorem curStep_column (s : VgaTerm) : s.curStep.column = s.column := rfl

@[simp]
theorem curStep_row (s : VgaTerm) : s.curStep.row = s.row := rfl

@[simp]
theorem putat_column (s : VgaTerm) (c : UInt8) (x y : Nat) : (s.putat c x y).2.column = s.column :=
  rfl

@[simp]
theorem putat_row (s : VgaTerm) (c : UInt8) (x y : Nat) : (s.putat c x y).2.row = s.row := rfl

@[simp]
theorem putat_cells (s : VgaTerm) (c : UInt8) (x y : Nat)
    : (s.putat c x y).1 = [(x + y * vgaWidth) % 2 ^ 32] := rfl

/-- The start of the next row, as `vga_term_putchar` goes there in two places. -/
def nextRow (s : VgaTerm) : List Nat × VgaTerm :=
  let s := { s with column := 0, row := (s.row + 1) % 2 ^ 32 }
  if s.row = vgaHeight then { s with row := s.row - 1 }.scroll else ([], s)

/-- The loop of `vga_term_putchar` for a tabulator, whose bound is the column plus one. -/
def tabFrom (bound i : Nat) : Nat :=
  if bound > i then tabFrom bound (i + 4) else i
termination_by bound - i

/-- `vga_term_putchar`. -/
def putchar (s : VgaTerm) (c : UInt8) : List Nat × VgaTerm :=
  if c = 10 then
    let (cells, s) := s.nextRow
    (cells, s.curStep)
  else if c = 8 then
    let s := { s with column := (s.column + (2 ^ 32 - 1)) % 2 ^ 32 }.curStep
    s.putat 32 s.column s.row
  else if c = 9 then
    ([], { s with column := tabFrom ((s.column + 1) % 2 ^ 32) 0 }.curStep)
  else
    let (cells, s) := if (s.column + 1) % 2 ^ 32 = vgaWidth then s.nextRow else ([], s)
    let (cells', s') := { s with column := (s.column + 1) % 2 ^ 32 }.putat c s.column s.row
    (cells ++ cells', s')

/-- `vga_term_init`, with what is in memory at the text buffer and behind. -/
def init (memory : Nat → UInt16) : VgaTerm :=
  { color := 0x0F
    row := 0
    column := 0
    frameBuffer := fun k => if k < vgaWidth * vgaHeight then vgaChar 32 0x0F else memory k
    cursor := 0 }

def next (s : VgaTerm) (c : UInt8) : VgaTerm :=
  (s.putchar c).2

def OnScreen (s : VgaTerm) : Prop :=
  s.column < vgaWidth ∧ s.row < vgaHeight

/-- A character is printed inside the text buffer, and the cursor stays on the screen. -/
structure Safe (s : VgaTerm) (c : UInt8) : Prop where
  onScreen : (s.next c).OnScreen
  inBuffer : ∀ cell ∈ (s.putchar c).1, cell < vgaWidth * vgaHeight

/-- When a character is printed safely: no newline in the last row, no backspace in the first
column, no tabulator in the last four columns, and no other character in the last cell.
-/
structure Allowed (s : VgaTerm) (c : UInt8) : Prop where
  newline : c = 10 → s.row ≠ 24
  backspace : c = 8 → s.column ≠ 0
  tabulator : c = 9 → s.column < 76
  printed : c ≠ 10 → c ≠ 8 → c ≠ 9 → s.column = 79 → s.row ≠ 24

variable {s : VgaTerm} {c : UInt8}

/-- The loop for a tabulator goes on to the next multiple of four, by induction on the columns left.
-/
theorem tabFrom_eq {bound i : Nat} (aligned : i % 4 = 0) (near : i < bound + 4)
    : tabFrom bound i = (bound + 3) / 4 * 4 := by
  fun_induction tabFrom bound i with
  | case1 i more ih => exact ih (by omega) (by omega)
  | case2 i done => omega

/-- Scrolling reads the row behind the last one. -/
theorem outside_mem_scroll (s : VgaTerm) : vgaWidth * vgaHeight ∈ s.scroll.1 := by
  refine List.mem_flatMap.mpr ⟨(24, 0), List.mem_flatMap.mpr ⟨24, ?_, ?_⟩, ?_⟩
  · exact List.mem_range.mpr (by decide)
  · exact List.mem_map.mpr ⟨0, List.mem_range.mpr (by decide), rfl⟩
  · exact List.mem_cons_self ..

/-- Going to the next row is safe in front of the last one only. -/
theorem nextRow_cases (onScreen : s.OnScreen)
    : (s.row ≠ 24 ∧ s.nextRow = ([], { s with column := 0, row := s.row + 1 }))
      ∨ (s.row = 24 ∧ vgaWidth * vgaHeight ∈ s.nextRow.1) := by
  have below : s.row < 25 := onScreen.2
  rw [nextRow, show (s.row + 1) % 2 ^ 32 = s.row + 1 by omega]
  by_cases last : s.row = 24
  · rw [if_pos (by rw [last]; rfl)]
    exact .inr ⟨last, outside_mem_scroll _⟩
  · rw [if_neg (by rw [vgaHeight]; dsimp only; omega)]
    exact .inl ⟨last, rfl⟩

theorem cell_lt {x y : Nat} (column : x < 80) (row : y < 25)
    : (x + y * vgaWidth) % 2 ^ 32 < vgaWidth * vgaHeight := by
  rw [vgaWidth, vgaHeight, Nat.mod_eq_of_lt (by omega)]
  omega

theorem safe_newline (onScreen : s.OnScreen) : s.Safe 10 ↔ s.row ≠ 24 := by
  rcases nextRow_cases onScreen with ⟨notLast, next⟩ | ⟨last, outside⟩
  · have printed : s.putchar 10 = ([], { s with column := 0, row := s.row + 1 }.curStep) := by
      rw [putchar, if_pos rfl, next]
    have below : s.row < 25 := onScreen.2
    refine iff_of_true ⟨?_, fun cell member => ?_⟩ notLast
    · rw [VgaTerm.next, printed]
      exact ⟨show 0 < 80 by decide, show s.row + 1 < 25 by omega⟩
    · rw [printed] at member
      cases member
  · refine iff_of_false (fun safe => ?_) (fun notLast => notLast last)
    refine absurd (safe.inBuffer _ ?_) (lt_irrefl _)
    rw [putchar, if_pos rfl]
    exact outside

theorem safe_backspace (onScreen : s.OnScreen) : s.Safe 8 ↔ s.column ≠ 0 := by
  obtain ⟨columns, rows⟩ : s.column < 80 ∧ s.row < 25 := onScreen
  have column : (s.next 8).column = (s.column + (2 ^ 32 - 1)) % 2 ^ 32 := by
    rw [next, putchar, if_neg (by decide), if_pos rfl, putat_column, curStep_column]
  have row : (s.next 8).row = s.row := by
    rw [next, putchar, if_neg (by decide), if_pos rfl, putat_row, curStep_row]
  have cells : (s.putchar 8).1
      = [((s.column + (2 ^ 32 - 1)) % 2 ^ 32 + s.row * vgaWidth) % 2 ^ 32] := by
    rw [putchar, if_neg (by decide), if_pos rfl, putat_cells, curStep_column, curStep_row]
  constructor
  · intro safe zero
    have inside := safe.onScreen.1
    rw [column, zero, vgaWidth] at inside
    omega
  · intro nonzero
    have left : (s.column + (2 ^ 32 - 1)) % 2 ^ 32 = s.column - 1 := by omega
    refine ⟨?_, fun cell member => ?_⟩
    · rw [OnScreen, column, row, left, vgaWidth, vgaHeight]
      omega
    · rw [cells, left] at member
      rw [List.mem_singleton.mp member]
      exact cell_lt (by omega) rows

theorem safe_tabulator (onScreen : s.OnScreen) : s.Safe 9 ↔ s.column < 76 := by
  obtain ⟨columns, rows⟩ : s.column < 80 ∧ s.row < 25 := onScreen
  have printed : s.putchar 9
      = ([], { s with column := tabFrom ((s.column + 1) % 2 ^ 32) 0 }.curStep) := by
    rw [putchar, if_neg (by decide), if_neg (by decide), if_pos rfl]
  have stop : tabFrom ((s.column + 1) % 2 ^ 32) 0 = ((s.column + 1) % 2 ^ 32 + 3) / 4 * 4 :=
    tabFrom_eq (by decide) (by omega)
  have onScreen' : (s.next 9).OnScreen
      ↔ ((s.column + 1) % 2 ^ 32 + 3) / 4 * 4 < 80 ∧ s.row < 25 := by
    rw [next, printed, stop]
    rfl
  constructor
  · intro safe
    have inside := (onScreen'.mp safe.onScreen).1
    omega
  · intro near
    refine ⟨onScreen'.mpr ⟨by omega, rows⟩, fun cell member => ?_⟩
    rw [printed] at member
    cases member

theorem safe_printed (onScreen : s.OnScreen) (noNewline : c ≠ 10) (noBackspace : c ≠ 8)
    (noTabulator : c ≠ 9)
    : s.Safe c ↔ (s.column = 79 → s.row ≠ 24) := by
  obtain ⟨columns, rows⟩ : s.column < 80 ∧ s.row < 25 := id onScreen
  have printed := putchar.eq_def s c
  rw [if_neg noNewline, if_neg noBackspace, if_neg noTabulator] at printed
  -- Where the character is put, in the row of the cursor or at the start of the next one.
  have put (s' : VgaTerm) (x : Nat) (inRow : s'.row < 25) (inColumn : x < 79) (here : s'.column = x)
      (same : s.putchar c
        = ({ s' with column := (s'.column + 1) % 2 ^ 32 } : VgaTerm).putat c s'.column s'.row)
      : s.Safe c := by
    have column : (s.next c).column = (x + 1) % 2 ^ 32 := by
      rw [next, same, putat_column, here]
    have row : (s.next c).row = s'.row := by
      rw [next, same, putat_row]
    refine ⟨?_, fun cell member => ?_⟩
    · rw [OnScreen, column, row, vgaWidth, vgaHeight]
      omega
    · rw [same, putat_cells, here] at member
      rw [List.mem_singleton.mp member]
      exact cell_lt (by omega) inRow
  by_cases last : s.column = 79
  · rw [if_pos (by rw [last]; rfl)] at printed
    rcases nextRow_cases onScreen with ⟨notLast, next⟩ | ⟨lastRow, outside⟩
    · rw [next] at printed
      refine iff_of_true ?_ (fun _ => notLast)
      exact put { s with column := 0, row := s.row + 1 } 0 (show s.row + 1 < 25 by omega)
        (by decide) rfl printed
    · refine iff_of_false (fun safe => ?_) (fun h => h last lastRow)
      refine absurd (safe.inBuffer _ ?_) (lt_irrefl _)
      rw [printed]
      exact List.mem_append_left _ outside
  · rw [if_neg (by rw [vgaWidth]; omega)] at printed
    exact iff_of_true (put s s.column rows (by omega) rfl printed) (fun h => absurd h last)

/-- A character is printed safely just when it is allowed. -/
theorem safe_iff (onScreen : s.OnScreen) (c : UInt8) : s.Safe c ↔ s.Allowed c := by
  by_cases newline : c = 10
  · subst newline
    rw [safe_newline onScreen]
    exact ⟨fun h => ⟨fun _ => h, (absurd · (by decide)), (absurd · (by decide)), (absurd rfl ·)⟩,
      fun h => h.newline rfl⟩
  by_cases backspace : c = 8
  · subst backspace
    rw [safe_backspace onScreen]
    exact ⟨fun h => ⟨(absurd · (by decide)), fun _ => h, (absurd · (by decide)),
      fun _ => (absurd rfl ·)⟩, fun h => h.backspace rfl⟩
  by_cases tabulator : c = 9
  · subst tabulator
    rw [safe_tabulator onScreen]
    exact ⟨fun h => ⟨(absurd · (by decide)), (absurd · (by decide)), fun _ => h,
      fun _ _ => (absurd rfl ·)⟩, fun h => h.tabulator rfl⟩
  · rw [safe_printed onScreen newline backspace tabulator]
    exact ⟨fun h => ⟨(absurd · newline), (absurd · backspace), (absurd · tabulator),
      fun _ _ _ => h⟩, fun h => h.printed newline backspace tabulator⟩

theorem init_onScreen (memory : Nat → UInt16) : (init memory).OnScreen :=
  ⟨show 0 < 80 by decide, show 0 < 25 by decide⟩

/-- What is printed from the first state on is printed safely just when it is allowed. -/
theorem init_safe_iff (memory : Nat → UInt16) (bytes : List UInt8)
    : (∀ earlier c, earlier ++ [c] <+: bytes → (earlier.foldl next (init memory)).Safe c)
      ↔ Stepwise.Always next Allowed (init memory) bytes := by
  rw [← Stepwise.always_iff_prefix]
  refine Stepwise.always_congr OnScreen ?_ ?_ (init_onScreen memory) bytes
  · exact fun s c inside => safe_iff inside c
  · exact fun s c _ safe => safe.onScreen

end VgaTerm

end Hydrangea
