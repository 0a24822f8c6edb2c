import Hydrangea.Term.VgaTerm

/-! The terminal of `kernel/term/vesa/vesa_term.c` on a frame buffer of 1024 by 768 pixels of 32
bits, and the safety of what is printed on it and on the text terminal. A function that accesses
the font or the frame buffer also returns its accesses. A `size_t` has 32 bits.
-/

namespace Hydrangea

def fbHeight : Nat := 768
def fbWidth : Nat := 1024
def fontHeight : Nat := 16
def fontWidth : Nat := 8
def fbRows : Nat := fbHeight / fontHeight
def fbCols : Nat := fbWidth / fontWidth

/-- `vesa_bpp` and `vesa_pitch` of this frame buffer. -/
def vesaBpp : Nat := 32
def vesaPitch : Nat := fbWidth * vesaBpp / 8

/-- The number of words of `default_font`. -/
def fontSize : Nat := 1536

/-- `font_getchar`: the position of the glyph in `default_font`, or null. -/
def fontGetchar (c : UInt8) : Option Nat :=
  if c < 32 ∨ c > 128 then none else some (16 * (c.toNat - 32))

/-- `c_term` and the frame buffer, whose words are given by their offsets in bytes. -/
structure VesaTerm where
  row : Nat
  col : Nat
  color : UInt32
  vesaFb : Nat → UInt32

namespace VesaTerm

/-- An access to a word of a glyph, or to a word of the frame buffer. -/
inductive Access where
  | glyph (p : Option Nat) (i : Nat)
  | pixel (offset : Nat)

def niceBg : UInt32 := 0x0A050F
def niceCur : UInt32 := 0xFFFFFF
def niceWhite : UInt32 := 0xC7C7C7

/-- `vesa_term_use_color`. -/
def useColor (s : VesaTerm) (color : UInt32) : VesaTerm :=
  { s with color := color }

/-- `vesa_term_cur_mov`. -/
def curMov (s : VesaTerm) (x y : Nat) : VesaTerm :=
  { s with col := x, row := y }

/-- `vesa_term_cur_step`. -/
def curStep (s : VesaTerm) : VesaTerm :=
  s.curMov s.col s.row

/-- Where `vesa_put_pixel` stores a pixel. -/
def pixelOffset (x y : Nat) : Nat :=
  (y * vesaPitch + x * vesaBpp % 2 ^ 32 / 8) % 2 ^ 32

/-- `vesa_put_pixel`. -/
def putPixel (s : VesaTerm) (x y : Nat) (color : UInt32) : VesaTerm :=
  { s with vesaFb := Function.update s.vesaFb (pixelOffset x y) color }

def rounds (height width : Nat) : List (Nat × Nat) :=
  (List.range height).flatMap (fun i => (List.range width).map (fun j => (i, j)))

variable (font : Option Nat → Nat → UInt32)

/-- `vesa_term_putat`, where `font` holds the words at the pointers that `font_getchar` returns. -/
def putat (s : VesaTerm) (c : UInt8) (x y : Nat) : List Access × VesaTerm :=
  let p := fontGetchar c
  ((rounds fontHeight fontWidth).flatMap (fun (i, j) =>
      [.glyph p i,
        .pixel (pixelOffset ((x * fontWidth + j) % 2 ^ 32) ((y * fontHeight + i) % 2 ^ 32))]),
    (rounds fontHeight fontWidth).foldl
      (fun s (i, j) =>
        s.putPixel ((x * fontWidth + j) % 2 ^ 32) ((y * fontHeight + i) % 2 ^ 32)
          (if font p i &&& (0x80 >>> UInt32.ofNat j) ≠ 0 then s.color else niceBg))
      s)

/-- `vesa_term_scroll`. -/
def scroll (s : VesaTerm) : List Access × VesaTerm :=
  ((rounds fbHeight fbWidth).flatMap (fun (i, j) =>
      (if i ≥ fbHeight - fontHeight then [] else [.pixel (4 * ((i + 16) * fbWidth + j))])
        ++ [.pixel (4 * (i * fbWidth + j))]),
    { s with
      vesaFb := (rounds fbHeight fbWidth).foldl
        (fun fb (i, j) =>
          Function.update fb (4 * (i * fbWidth + j))
            (if i ≥ fbHeight - fontHeight then niceBg else fb (4 * ((i + 16) * fbWidth + j))))
        s.vesaFb })

/-- The start of the next row, as `vesa_term_putchar` goes there in two places. -/
def nextRow (s : VesaTerm) : List Access × VesaTerm :=
  let s := { s with col := 0, row := (s.row + 1) % 2 ^ 32 }
  if s.row = fbRows then { s with row := s.row - 1 }.scroll else ([], s)

/-- `vesa_term_putchar` up to the cursor that it draws. -/
def putcharAt (s : VesaTerm) (c : UInt8) : List Access × VesaTerm :=
  if c = 10 then
    let (blank, s) := s.putat font 32 s.col s.row
    let (scrolled, s) := s.nextRow
    (blank ++ scrolled, s.curStep)
  else if c = 8 then
    let (blank, s) := s.putat font 32 s.col s.row
    (blank, { s with col := (s.col + (2 ^ 32 - 1)) % 2 ^ 32 }.curStep)
  else if c = 9 then
    let (blank, s) := s.putat font 32 s.col s.row
    (blank, { s with col := VgaTerm.tabFrom ((s.col + 1) % 2 ^ 32) 0 }.curStep)
  else
    let (scrolled, s) := if (s.col + 1) % 2 ^ 32 = fbCols then s.nextRow else ([], s)
    let (drawn, s') := { s with col := (s.col + 1) % 2 ^ 32 }.putat font c s.col s.row
    (scrolled ++ drawn, s')

/-- `vesa_term_putchar`. -/
def putchar (s : VesaTerm) (c : UInt8) : List Access × VesaTerm :=
  let (accesses, s) := s.putcharAt font c
  let (cursor, s') := (s.useColor niceCur).putat font 95 s.col s.row
  (accesses ++ cursor, s'.useColor s.color)

/-- `vesa_term_init` after `vesa_clear`, with what is in memory behind the frame buffer. -/
def init (memory : Nat → UInt32) : VesaTerm :=
  { row := 0
    col := 0
    color := niceWhite
    vesaFb := fun offset => if offset < fbHeight * vesaPitch then 0 else memory offset }

def next (s : VesaTerm) (c : UInt8) : VesaTerm :=
  (s.putchar font c).2

def OnScreen (s : VesaTerm) : Prop :=
  s.col < fbCols ∧ s.row < fbRows

/-- An access is one to a glyph that exists, or to a word of the frame buffer. -/
def Access.Inside : Access → Prop
  | .glyph p i => ∃ base, p = some base ∧ base + i < fontSize
  | .pixel offset => offset + 4 ≤ fbHeight * vesaPitch

/-- A character is printed inside the frame buffer and with glyphs that exist, and the cursor stays
on the screen.
-/
structure Safe (s : VesaTerm) (c : UInt8) : Prop where
  onScreen : (s.next font c).OnScreen
  inside : ∀ access ∈ (s.putchar font c).1, access.Inside

/-- When a character is printed safely: no backspace in the first column, no tabulator in the last
four columns, and no character without a glyph.
-/
structure Allowed (s : VesaTerm) (c : UInt8) : Prop where
  backspace : c = 8 → s.col ≠ 0
  tabulator : c = 9 → s.col < 124
  glyph : c ≠ 10 → c ≠ 8 → c ≠ 9 → 32 ≤ c ∧ c < 128

variable {font} {s : VesaTerm} {c : UInt8} {x y : Nat}

-----------------------------------------------------------------------------------------
-- Drawing
-----------------------------------------------------------------------------------------

theorem mem_rounds {height width i j : Nat}
    : (i, j) ∈ rounds height width ↔ i < height ∧ j < width := by
  simp [rounds]

/-- Drawing pixels leaves the cursor where it is, by induction on them. -/
theorem foldl_putPixel (pixels : List (Nat × Nat)) (s : VesaTerm) (x y : Nat × Nat → Nat)
    (color : VesaTerm → Nat × Nat → UInt32)
    : (pixels.foldl (fun s ij => s.putPixel (x ij) (y ij) (color s ij)) s).col = s.col
      ∧ (pixels.foldl (fun s ij => s.putPixel (x ij) (y ij) (color s ij)) s).row = s.row := by
  induction pixels generalizing s with
  | nil => exact ⟨rfl, rfl⟩
  | cons ij pixels ih => exact ih (s.putPixel (x ij) (y ij) (color s ij))

@[simp]
theorem curStep_col (s : VesaTerm) : s.curStep.col = s.col := rfl

@[simp]
theorem curStep_row (s : VesaTerm) : s.curStep.row = s.row := rfl

@[simp]
theorem putat_col (s : VesaTerm) (c : UInt8) (x y : Nat) : (s.putat font c x y).2.col = s.col :=
  (foldl_putPixel _ s _ _ _).1

@[simp]
theorem putat_row (s : VesaTerm) (c : UInt8) (x y : Nat) : (s.putat font c x y).2.row = s.row :=
  (foldl_putPixel _ s _ _ _).2

/-- A pixel of the screen lies in the frame buffer. -/
theorem pixel_inside (column : x < 1024) (row : y < 768)
    : (Access.pixel (pixelOffset x y)).Inside := by
  rw [Access.Inside, pixelOffset, vesaPitch, vesaBpp, fbWidth, fbHeight]
  omega

/-- The characters from the blank to the last one of the font, by their values. -/
theorem glyph_iff : 32 ≤ c ∧ c < 128 ↔ 32 ≤ c.toNat ∧ c.toNat < 128 :=
  and_congr UInt8.le_iff_toNat_le UInt8.lt_iff_toNat_lt

/-- `font_getchar` lets one more character through. -/
theorem fontGetchar_eq (c : UInt8)
    : fontGetchar c
      = if 32 ≤ c.toNat ∧ c.toNat ≤ 128 then some (16 * (c.toNat - 32)) else none := by
  have outside : c < 32 ∨ c > 128 ↔ ¬ (32 ≤ c.toNat ∧ c.toNat ≤ 128) := by
    have below : c < 32 ↔ c.toNat < 32 := UInt8.lt_iff_toNat_lt
    have above : c > 128 ↔ 128 < c.toNat := UInt8.lt_iff_toNat_lt
    rw [below, above]
    omega
  rw [fontGetchar, if_congr outside rfl rfl, ite_not]

/-- The characters from the blank to the last one of the font have glyphs. -/
theorem fontGetchar_inside (glyph : 32 ≤ c ∧ c < 128)
    : fontGetchar c = some (16 * (c.toNat - 32)) ∧ 16 * (c.toNat - 32) + 16 ≤ fontSize := by
  obtain ⟨low, high⟩ := glyph_iff.mp glyph
  rw [fontGetchar_eq, if_pos ⟨low, high.le⟩, fontSize]
  exact ⟨rfl, by omega⟩

/-- The other characters have none: a null pointer, or one behind the font. -/
theorem fontGetchar_outside (noGlyph : ¬ (32 ≤ c ∧ c < 128)) {base : Nat}
    (found : fontGetchar c = some base)
    : fontSize ≤ base := by
  rw [fontGetchar_eq] at found
  split at found
  · next inFont =>
      obtain rfl := Option.some.inj found
      rw [glyph_iff] at noGlyph
      rw [fontSize]
      omega
  · cases found

/-- A character with a glyph is drawn inside the frame buffer at a place of the screen. -/
theorem putat_inside (s : VesaTerm) (glyph : 32 ≤ c ∧ c < 128) (column : x < 128) (row : y < 48)
    : ∀ access ∈ (s.putat font c x y).1, access.Inside := by
  intro access member
  obtain ⟨⟨i, j⟩, inRounds, isAccess⟩ := List.mem_flatMap.mp member
  obtain ⟨height, width⟩ : i < 16 ∧ j < 8 := mem_rounds.mp inRounds
  obtain ⟨found, room⟩ := fontGetchar_inside glyph
  rcases List.mem_cons.mp isAccess with rfl | isPixel
  · exact ⟨_, found, by omega⟩
  · rw [List.mem_singleton.mp isPixel, fontWidth, fontHeight]
    exact pixel_inside (by omega) (by omega)

/-- A character without a glyph is not drawn safely. -/
theorem putat_not_inside (s : VesaTerm) (noGlyph : ¬ (32 ≤ c ∧ c < 128)) (x y : Nat)
    : ∃ access ∈ (s.putat font c x y).1, ¬ access.Inside := by
  refine ⟨.glyph (fontGetchar c) 0, ?_, ?_⟩
  · refine List.mem_flatMap.mpr ⟨(0, 0), mem_rounds.mpr (by decide), ?_⟩
    exact List.mem_cons_self ..
  · rintro ⟨base, found, room⟩
    have outside := fontGetchar_outside noGlyph found
    omega

/-- Scrolling stays in the frame buffer. -/
theorem scroll_inside (s : VesaTerm) : ∀ access ∈ s.scroll.1, access.Inside := by
  intro access member
  rw [scroll] at member
  dsimp only at member
  obtain ⟨⟨i, j⟩, inRounds, isAccess⟩ := List.mem_flatMap.mp member
  have bounds := mem_rounds.mp inRounds
  rw [fbHeight, fbWidth] at bounds
  rcases List.mem_append.mp isAccess with isRead | isWrite
  · split at isRead
    · cases isRead
    · next above =>
        rw [fbHeight, fontHeight] at above
        rw [List.mem_singleton.mp isRead, Access.Inside, vesaPitch, vesaBpp, fbWidth, fbHeight]
        omega
  · rw [List.mem_singleton.mp isWrite, Access.Inside, vesaPitch, vesaBpp, fbWidth, fbHeight]
    omega

/-- Going to the next row stays on the screen and in the frame buffer. -/
theorem nextRow_inside (row : s.row < 48)
    : s.nextRow.2.col = 0 ∧ s.nextRow.2.row < 48 ∧ ∀ access ∈ s.nextRow.1, access.Inside := by
  have rows : fbRows = 48 := rfl
  rw [nextRow, show (s.row + 1) % 2 ^ 32 = s.row + 1 by omega, rows]
  by_cases last : s.row + 1 = 48
  · rw [if_pos last]
    exact ⟨rfl, show s.row + 1 - 1 < 48 by omega, scroll_inside _⟩
  · rw [if_neg last]
    exact ⟨rfl, show s.row + 1 < 48 by omega, fun access member => absurd member List.not_mem_nil⟩

-----------------------------------------------------------------------------------------
-- Printing
-----------------------------------------------------------------------------------------

/-- The cursor is drawn safely where it is on the screen. -/
theorem safe_iff_putcharAt (s : VesaTerm) (c : UInt8)
    : s.Safe font c ↔ (s.putcharAt font c).2.OnScreen
      ∧ ∀ access ∈ (s.putcharAt font c).1, access.Inside := by
  have accesses : (s.putchar font c).1 = (s.putcharAt font c).1
      ++ (((s.putcharAt font c).2.useColor niceCur).putat font 95 (s.putcharAt font c).2.col
        (s.putcharAt font c).2.row).1 := rfl
  have moved : (s.next font c).OnScreen ↔ (s.putcharAt font c).2.OnScreen := by
    simp [OnScreen, next, putchar, useColor]
  constructor
  · intro safe
    refine ⟨moved.mp safe.onScreen, fun access member => safe.inside access ?_⟩
    rw [accesses]
    exact List.mem_append_left _ member
  · rintro ⟨onScreen, inside⟩
    refine ⟨moved.mpr onScreen, ?_⟩
    rw [accesses]
    refine List.forall_mem_append.mpr ⟨inside, ?_⟩
    exact putat_inside _ (by decide) onScreen.1 onScreen.2

theorem safe_newline (onScreen : s.OnScreen) : s.Safe font 10 := by
  have blank : ∀ access ∈ (s.putat font 32 s.col s.row).1, access.Inside :=
    putat_inside s (by decide) onScreen.1 onScreen.2
  have printed : s.putcharAt font 10
      = ((s.putat font 32 s.col s.row).1 ++ (s.putat font 32 s.col s.row).2.nextRow.1,
        (s.putat font 32 s.col s.row).2.nextRow.2.curStep) := by
    rw [putcharAt, if_pos rfl]
  have inRow : (s.putat font 32 s.col s.row).2.row < 48 := by
    rw [putat_row]
    exact onScreen.2
  obtain ⟨col, row, scrolled⟩ := nextRow_inside inRow
  rw [safe_iff_putcharAt, printed]
  refine ⟨⟨?_, ?_⟩, List.forall_mem_append.mpr ⟨blank, scrolled⟩⟩
  · rw [curStep_col, col]
    decide
  · rw [curStep_row]
    exact row

theorem safe_backspace (onScreen : s.OnScreen) : s.Safe font 8 ↔ s.col ≠ 0 := by
  have blank : ∀ access ∈ (s.putat font 32 s.col s.row).1, access.Inside :=
    putat_inside s (by decide) onScreen.1 onScreen.2
  obtain ⟨columns, rows⟩ : s.col < 128 ∧ s.row < 48 := onScreen
  have moved : (s.putcharAt font 8).2.OnScreen
      ↔ (s.col + (2 ^ 32 - 1)) % 2 ^ 32 < 128 ∧ s.row < 48 := by
    rw [putcharAt, if_neg (by decide), if_pos rfl, OnScreen]
    simp only [curStep, curMov, putat_col, putat_row]
    rfl
  have accesses : (s.putcharAt font 8).1 = (s.putat font 32 s.col s.row).1 := by
    rw [putcharAt, if_neg (by decide), if_pos rfl]
  rw [safe_iff_putcharAt, moved, accesses]
  constructor
  · rintro ⟨⟨col, -⟩, -⟩ zero
    omega
  · intro nonzero
    exact ⟨⟨by omega, rows⟩, blank⟩

theorem safe_tabulator (onScreen : s.OnScreen) : s.Safe font 9 ↔ s.col < 124 := by
  have blank : ∀ access ∈ (s.putat font 32 s.col s.row).1, access.Inside :=
    putat_inside s (by decide) onScreen.1 onScreen.2
  obtain ⟨columns, rows⟩ : s.col < 128 ∧ s.row < 48 := onScreen
  have stop : VgaTerm.tabFrom ((s.col + 1) % 2 ^ 32) 0 = ((s.col + 1) % 2 ^ 32 + 3) / 4 * 4 :=
    VgaTerm.tabFrom_eq (by decide) (by omega)
  have moved : (s.putcharAt font 9).2.OnScreen
      ↔ ((s.col + 1) % 2 ^ 32 + 3) / 4 * 4 < 128 ∧ s.row < 48 := by
    rw [putcharAt, if_neg (by decide), if_neg (by decide), if_pos rfl, OnScreen]
    simp only [curStep, curMov, putat_col, putat_row, stop]
    rfl
  have accesses : (s.putcharAt font 9).1 = (s.putat font 32 s.col s.row).1 := by
    rw [putcharAt, if_neg (by decide), if_neg (by decide), if_pos rfl]
  rw [safe_iff_putcharAt, moved, accesses]
  constructor
  · rintro ⟨⟨col, -⟩, -⟩
    omega
  · intro near
    exact ⟨⟨by omega, rows⟩, blank⟩

theorem safe_printed (onScreen : s.OnScreen) (noNewline : c ≠ 10) (noBackspace : c ≠ 8)
    (noTabulator : c ≠ 9)
    : s.Safe font c ↔ 32 ≤ c ∧ c < 128 := by
  obtain ⟨columns, rows⟩ : s.col < 128 ∧ s.row < 48 := id onScreen
  -- The place of the character, and what is accessed on the way there.
  have place : ∃ (s' : VesaTerm) (scrolled : List Access),
      s.putcharAt font c = (scrolled ++ (({ s' with col := (s'.col + 1) % 2 ^ 32 }
          : VesaTerm).putat font c s'.col s'.row).1,
        (({ s' with col := (s'.col + 1) % 2 ^ 32 } : VesaTerm).putat font c s'.col s'.row).2)
      ∧ s'.col < 127 ∧ s'.row < 48 ∧ ∀ access ∈ scrolled, access.Inside := by
    rw [putcharAt, if_neg noNewline, if_neg noBackspace, if_neg noTabulator]
    have cols : fbCols = 128 := rfl
    by_cases last : s.col = 127
    · have moved := nextRow_inside rows
      rw [if_pos (by rw [last, cols]; rfl)]
      rcases next : s.nextRow with ⟨accesses, s'⟩
      rw [next] at moved
      obtain ⟨col, row, scrolled⟩ := moved
      exact ⟨s', accesses, rfl, Nat.lt_of_le_of_lt (Nat.le_of_eq col) (by decide), row, scrolled⟩
    · rw [if_neg (by rw [cols]; omega)]
      exact ⟨s, [], rfl, by omega, rows, fun access member => absurd member List.not_mem_nil⟩
  obtain ⟨s', scrolled, printed, col, row, inside⟩ := place
  rw [safe_iff_putcharAt, printed]
  constructor
  · rintro ⟨-, all⟩
    by_contra noGlyph
    obtain ⟨access, member, outside⟩ : ∃ access ∈ (({ s' with col := (s'.col + 1) % 2 ^ 32 }
        : VesaTerm).putat font c s'.col s'.row).1, ¬ access.Inside :=
      putat_not_inside _ noGlyph _ _
    exact outside (all access (List.mem_append_right _ member))
  · intro glyph
    refine ⟨⟨?_, ?_⟩, List.forall_mem_append.mpr ⟨inside, ?_⟩⟩
    · rw [putat_col]
      show (s'.col + 1) % 2 ^ 32 < 128
      omega
    · rw [putat_row]
      exact row
    · exact putat_inside _ glyph (by omega) row

/-- A character is printed safely just when it is allowed. -/
theorem safe_iff (onScreen : s.OnScreen) (c : UInt8) : s.Safe font c ↔ s.Allowed c := by
  by_cases newline : c = 10
  · subst newline
    exact iff_of_true (safe_newline onScreen)
      ⟨(absurd · (by decide)), (absurd · (by decide)), (absurd rfl ·)⟩
  by_cases backspace : c = 8
  · subst backspace
    rw [safe_backspace onScreen]
    exact ⟨fun h => ⟨fun _ => h, (absurd · (by decide)), fun _ => (absurd rfl ·)⟩,
      fun h => h.backspace rfl⟩
  by_cases tabulator : c = 9
  · subst tabulator
    rw [safe_tabulator onScreen]
    exact ⟨fun h => ⟨(absurd · (by decide)), fun _ => h, fun _ _ => (absurd rfl ·)⟩,
      fun h => h.tabulator rfl⟩
  · rw [safe_printed onScreen newline backspace tabulator]
    exact ⟨fun h => ⟨(absurd · backspace), (absurd · tabulator), fun _ _ _ => h⟩,
      fun h => h.glyph newline backspace tabulator⟩

theorem init_onScreen (memory : Nat → UInt32) : (init memory).OnScreen :=
  ⟨show 0 < 128 by decide, show 0 < 48 by decide⟩

/-- What is printed from the first state on is printed safely just when it is allowed. -/
theorem init_safe_iff (memory : Nat → UInt32) (bytes : List UInt8)
    : (∀ earlier c, earlier ++ [c] <+: bytes →
        (earlier.foldl (next font) (init memory)).Safe font c)
      ↔ Stepwise.Always (next font) Allowed (init memory) bytes := by
  rw [← Stepwise.always_iff_prefix]
  refine Stepwise.always_congr OnScreen ?_ ?_ (init_onScreen memory) bytes
  · exact fun s c inside => safe_iff inside c
  · exact fun s c _ safe => safe.onScreen

end VesaTerm

/-- What is printed on a new terminal stays on the screen and in its buffer, with glyphs that
exist, just when each character is allowed where it is printed: on the text terminal and on the one
in the frame buffer. Both are the same terminal with other cells: the condition on a character and
a position is computed once, and followed along what is printed.
-/
theorem terminals_safe_iff (memory : Nat → UInt16) (memory' : Nat → UInt32)
    (font : Option Nat → Nat → UInt32) (bytes : List UInt8)
    : ((∀ earlier c, earlier ++ [c] <+: bytes →
          (earlier.foldl VgaTerm.next (VgaTerm.init memory)).Safe c)
        ↔ Stepwise.Always VgaTerm.next VgaTerm.Allowed (VgaTerm.init memory) bytes)
      ∧ ((∀ earlier c, earlier ++ [c] <+: bytes →
          (earlier.foldl (VesaTerm.next font) (VesaTerm.init memory')).Safe font c)
        ↔ Stepwise.Always (VesaTerm.next font) VesaTerm.Allowed (VesaTerm.init memory') bytes) :=
  ⟨VgaTerm.init_safe_iff memory bytes, VesaTerm.init_safe_iff memory' bytes⟩

/-- A backspace in the first column leaves both screens. -/
theorem terminals_not_safe
    : ¬ (∀ memory bytes earlier c, earlier ++ [c] <+: bytes →
        (earlier.foldl VgaTerm.next (VgaTerm.init memory)).Safe c)
      ∧ ¬ ∀ font memory bytes earlier c, earlier ++ [c] <+: bytes →
        (earlier.foldl (VesaTerm.next font) (VesaTerm.init memory)).Safe font c := by
  constructor
  · intro always
    have safe := always (fun _ => 0) [8] [] 8 List.prefix_rfl
    exact (VgaTerm.safe_backspace (VgaTerm.init_onScreen _)).mp safe rfl
  · intro always
    have safe := always (fun _ _ => 0) (fun _ => 0) [8] [] 8 List.prefix_rfl
    exact (VesaTerm.safe_backspace (VesaTerm.init_onScreen _)).mp safe rfl

end Hydrangea
