import Hydrangea.Libk.Itoa
import Hydrangea.Drivers.Kbd
import Hydrangea.Lib.Stepwise

/-! `scank` of `libk/stdio.c`, on the keyboard of `kernel/drivers/kbd.c`. `none` is an access behind
the end of a buffer, or a call that does not return.
-/

namespace Hydrangea

open CString

namespace Scank

/-- The globals of the keyboard when `kbd_keydown` and when `kbd_get` reads them, in a round of the
loop that reads a line. Interrupts change them at any time.
-/
structure Round where
  atKeydown : Kbd
  atGet : Kbd

def Round.key (round : Round) : Option UInt8 :=
  if round.atKeydown.kbdKeydown = 0xFF then none else some round.atGet.kbdGet.1

def keys (rounds : List Round) : List UInt8 :=
  rounds.filterMap Round.key

/-- The line that is read: `pos` and `str`, `pos` after each key so far, and what was printed. -/
structure Line where
  pos : Nat
  str : List UInt8
  positions : List Nat
  printed : List UInt8

def Line.empty : Line :=
  ⟨0, List.replicate 256 0, [], []⟩

def Line.keystroke (line : Line) (c : UInt8) : Option Line :=
  if c = 8 then
    if line.pos ≠ 0 then do
      let pos := line.pos - 1
      let str ← storeChar line.str pos 0
      some { pos, str, positions := line.positions ++ [pos], printed := line.printed ++ [c] }
    else
      some { line with positions := line.positions ++ [line.pos] }
  else if c = 10 then
    some { line with positions := line.positions ++ [line.pos], printed := line.printed ++ [c] }
  else do
    let str ← storeChar line.str line.pos c
    let pos := line.pos + 1
    let str ← storeChar str pos 0
    some { pos, str, positions := line.positions ++ [pos], printed := line.printed ++ [c] }

def readLine : (rounds : List Round) → (line : Line) → Option (Line × List Round)
  | [], _ => none
  | round :: rounds, line =>
      match round.key with
      | none => readLine rounds line
      | some c => do
          let line ← line.keystroke c
          if c = 10 then some (line, rounds) else readLine rounds line

/-- What a conversion stores through its argument. -/
inductive Delivery where
  | none
  | line (chars : List UInt8)
  | number (n : Int)

/-- The `switch` on the character of a conversion. -/
def deliver (d : UInt8) (str : List UInt8) : Option Delivery :=
  if d = 115 then
    (strlen str).map (fun n => .line (str.take (n + 1)))
  else if d = 100 then
    (atoi str).map .number
  else
    some .none

/-- What a call does: `pos` after each key, what was printed, and what was stored through the
arguments.
-/
structure Outcome where
  positions : List Nat
  printed : List UInt8
  delivered : List Delivery

/-- A line was read before, and something stored. -/
def Outcome.behind (outcome : Outcome) (line : Line) (delivery : Delivery) : Outcome where
  positions := line.positions ++ outcome.positions
  printed := line.printed ++ outcome.printed
  delivered := delivery :: outcome.delivered

/-- `scank`, in at most `fuel` rounds. -/
def scank : (fuel : Nat) → (format : List UInt8) → (rounds : List Round) → Option Outcome
  | 0, _, _ => none
  | _ + 1, [], _ => none
  | fuel + 1, c :: format, rounds =>
      if c = 0 then
        some ⟨[], [], []⟩
      else if c ≠ 37 then
        -- Nothing advances the format here.
        scank fuel (c :: format) rounds
      else do
        let (line, rounds) ← readLine rounds .empty
        let d ← format.head?
        let delivery ← deliver d line.str
        let outcome ← scank fuel format.tail rounds
        some (outcome.behind line delivery)

-----------------------------------------------------------------------------------------
-- What a caller asks for
-----------------------------------------------------------------------------------------

def specifiers : List UInt8 → List UInt8
  | c :: d :: s => if c = 37 then d :: specifiers s else specifiers (d :: s)
  | _ => []

/-- A backspace cancels the last character of a line, and any other key adds one. -/
def edit (line : List UInt8) (c : UInt8) : List UInt8 :=
  if c = 8 then line.dropLast else line ++ [c]

def edited (typed : List UInt8) : List UInt8 :=
  typed.foldl edit []

/-- A conversion with the keys of its line: a string is the line that was typed. -/
def Meets (asked : UInt8 × List UInt8) (delivery : Delivery) : Prop :=
  asked.1 = 115 → delivery = .line (edited asked.2 ++ [0])

/-- The conversions of a format, each with the keys of its line. -/
def asks (s : List UInt8) (rounds : List Round) : List (UInt8 × List UInt8) :=
  (specifiers s).zip ((keys rounds).splitOn 10)

/-- `scank` returns, with `pos` between 0 and 255 after every key, and each string that it stores is
the line that was typed.
-/
def ScankRight (s : List UInt8) (rounds : List Round) : Prop :=
  ∃ fuel outcome, scank fuel (s ++ [0]) rounds = some outcome
    ∧ (∀ pos ∈ outcome.positions, pos ≤ 255)
    ∧ List.Forall₂ Meets (asks s rounds) outcome.delivered

def OnlyConversions : List UInt8 → Prop
  | [] => True
  | [_] => False
  | c :: _ :: s => c = 37 ∧ OnlyConversions s

/-- A key leaves at most 255 characters. -/
def Fits (line : List UInt8) (c : UInt8) : Prop :=
  (edit line c).length ≤ 255

/-- The keys of a line never leave more than 255 characters, and no zero in the end if it is a
string.
-/
def Readable (asked : UInt8 × List UInt8) : Prop :=
  Stepwise.Always edit Fits [] asked.2 ∧ (asked.1 = 115 → 0 ∉ edited asked.2)

variable {line : Line} {typed l s others : List UInt8} {rounds rounds' : List Round} {c d : UInt8}

-----------------------------------------------------------------------------------------
-- Reading a line
-----------------------------------------------------------------------------------------

/-- The line is in the buffer, in front of a zero. -/
structure Line.Shows (line : Line) (l : List UInt8) : Prop where
  pos : line.pos = l.length
  str : l ++ [0] <+: line.str
  size : line.str.length = 256
  inside : ∀ pos ∈ line.positions, pos ≤ 255

theorem Line.Shows.short (h : line.Shows l) : l.length ≤ 255 := by
  have room := h.str.length_le
  rw [h.size, List.length_append, List.length_singleton] at room
  exact Nat.le_of_lt_succ room

/-- One more position that is inside. -/
theorem Line.Shows.recorded (h : line.Shows l) {k : Nat} (inside : k ≤ 255)
    : ∀ pos ∈ line.positions ++ [k], pos ≤ 255 := by
  intro pos member
  rcases List.mem_append.mp member with earlier | last
  · exact h.inside pos earlier
  · rw [List.mem_singleton.mp last]
    exact inside

theorem Line.shows_empty : Line.empty.Shows [] where
  pos := rfl
  str := ⟨List.replicate 255 0, rfl⟩
  size := List.length_replicate
  inside _ member := absurd member List.not_mem_nil

theorem keystroke_newline (h : line.Shows l)
    : ∃ line', line.keystroke 10 = some line' ∧ line'.Shows l := by
  refine ⟨_, rfl, h.pos, h.str, h.size, h.recorded ?_⟩
  rw [h.pos]
  exact h.short

theorem storeChar_append (front rest : List UInt8) (old c : UInt8)
    : storeChar (front ++ old :: rest) front.length c = some (front ++ c :: rest) := by
  have inside : front.length < (front ++ old :: rest).length := by simp
  rw [storeChar, if_pos inside, List.set_append_right _ _ le_rfl, Nat.sub_self,
    List.set_cons_zero]

/-- A backspace cancels the last character. -/
theorem keystroke_back (h : line.Shows l)
    : ∃ line', line.keystroke 8 = some line' ∧ line'.Shows l.dropLast := by
  have short := h.short
  rw [Line.keystroke, if_pos rfl]
  rcases List.eq_nil_or_concat l with rfl | ⟨l, last, rfl⟩
  · have start : line.pos = 0 := h.pos
    rw [if_neg (not_not.mpr start)]
    refine ⟨_, rfl, h.pos, h.str, h.size, h.recorded ?_⟩
    rw [h.pos]
    exact short
  · obtain ⟨rest, buffer⟩ := h.str
    rw [List.concat_eq_append, List.length_append, List.length_singleton] at short
    have pos : line.pos - 1 = l.length := by
      rw [h.pos, List.concat_eq_append, List.length_append, List.length_singleton,
        Nat.add_sub_cancel]
    have split : line.str = l ++ last :: 0 :: rest := by
      rw [← buffer, List.concat_eq_append]
      simp
    have size := h.size
    rw [split] at size
    rw [if_pos (by rw [h.pos, List.concat_eq_append]; simp), List.concat_eq_append,
      List.dropLast_concat]
    dsimp only
    rw [pos, split, storeChar_append]
    refine ⟨_, rfl, rfl, ⟨0 :: rest, by simp⟩, ?_, h.recorded (by omega)⟩
    rw [← size, List.length_append, List.length_append]
    rfl

/-- Any other character is added if there is room for it and the zero, and otherwise the zero is
stored behind the buffer.
-/
theorem keystroke_add (h : line.Shows l) (other : c ≠ 8) (inner : c ≠ 10)
    : (l.length < 255 → ∃ line', line.keystroke c = some line' ∧ line'.Shows (l ++ [c]))
      ∧ (l.length = 255 → line.keystroke c = none) := by
  obtain ⟨rest, buffer⟩ := h.str
  have split : line.str = l ++ 0 :: rest := by
    rw [← buffer, List.append_assoc]
    rfl
  have size := h.size
  rw [split, List.length_append, List.length_cons] at size
  rw [Line.keystroke, if_neg other, if_neg inner, h.pos, split, storeChar_append]
  constructor
  · intro room
    cases rest with
    | nil => exact absurd size (by simp; omega)
    | cons old rest =>
        have behind : l ++ c :: old :: rest = (l ++ [c]) ++ old :: rest := by simp
        have next : l.length + 1 = (l ++ [c]).length := by simp
        dsimp only
        rw [Option.bind_eq_bind, Option.bind_some, behind, next, storeChar_append]
        refine ⟨_, rfl, rfl, ⟨rest, by simp⟩, ?_, h.recorded (by simp; omega)⟩
        simp only [List.length_append, List.length_cons, List.length_nil] at size ⊢
        omega
  · intro full
    have outside : ¬ l.length + 1 < (l ++ c :: rest).length := by
      rw [List.length_append, List.length_cons]
      omega
    rw [Option.bind_eq_bind, Option.bind_some]
    dsimp only
    rw [storeChar, if_neg outside]
    rfl

/-- A key edits the line if this fits, and stores behind the buffer if not. -/
theorem keystroke_edit (h : line.Shows l) (inner : c ≠ 10)
    : (Fits l c → ∃ line', line.keystroke c = some line' ∧ line'.Shows (edit l c))
      ∧ (¬ Fits l c → line.keystroke c = none) := by
  have short := h.short
  rw [Fits, edit]
  by_cases back : c = 8
  · subst back
    rw [if_pos rfl, List.length_dropLast]
    exact ⟨fun _ => keystroke_back h, fun long => absurd long (by omega)⟩
  · obtain ⟨adds, overruns⟩ := keystroke_add h back inner
    rw [if_neg back, List.length_append, List.length_singleton]
    exact ⟨fun fits => adds fits, fun long => overruns (by omega)⟩

/-- A line is read if no key makes it too long, and in no other case. By induction on the rounds.
-/
theorem readLine_cases (h : line.Shows l) (typing : keys rounds = typed ++ 10 :: others)
    (one : 10 ∉ typed)
    : (Stepwise.Always edit Fits l typed → ∃ line' rounds',
        readLine rounds line = some (line', rounds') ∧ line'.Shows (typed.foldl edit l)
        ∧ keys rounds' = others)
      ∧ (¬ Stepwise.Always edit Fits l typed → readLine rounds line = none) := by
  induction rounds generalizing line l typed with
  | nil => exact absurd typing (by simp [keys])
  | cons round rounds ih =>
      cases pressed : round.key with
      | none =>
          rw [keys, List.filterMap_cons_none pressed] at typing
          rw [readLine, pressed]
          exact ih h typing one
      | some c =>
          rw [keys, List.filterMap_cons_some pressed] at typing
          rw [readLine, pressed]
          dsimp only
          cases typed with
          | nil =>
              obtain ⟨rfl, rfl⟩ := List.cons_eq_cons.mp typing
              obtain ⟨line', stroke, shows⟩ := keystroke_newline h
              rw [stroke]
              exact ⟨fun _ => ⟨line', rounds, rfl, shows, rfl⟩, fun long => absurd trivial long⟩
          | cons first typed =>
              obtain ⟨rfl, later⟩ := List.cons_eq_cons.mp typing
              obtain ⟨inner, one⟩ := not_or.mp (fun member => one (List.mem_cons.mpr member))
              obtain ⟨edits, overruns⟩ := keystroke_edit h (Ne.symm inner)
              rw [Stepwise.Always]
              by_cases fits : Fits l c
              · obtain ⟨line', stroke, shows⟩ := edits fits
                rw [stroke, Option.bind_eq_bind, Option.bind_some, if_neg (Ne.symm inner),
                  and_iff_right fits]
                exact ih shows later one
              · rw [overruns fits]
                exact ⟨fun always => absurd always.1 fits, fun _ => rfl⟩

-----------------------------------------------------------------------------------------
-- Formats
-----------------------------------------------------------------------------------------

/-- What is stored is the line that was typed, if no zero is left in it or no string is asked for.
-/
theorem deliver_meets (d : UInt8) (h : line.Shows (edited typed))
    : ∃ delivery, deliver d line.str = some delivery
      ∧ (Meets (d, typed) delivery ↔ (d = 115 → 0 ∉ edited typed)) := by
  obtain ⟨rest, buffer⟩ := h.str
  rw [deliver]
  by_cases string : d = 115
  · -- The string in the buffer ends with the first zero, which is the one behind the line if the
    -- line has none.
    have zero : 0 ∈ line.str := by
      rw [← buffer]
      simp
    obtain ⟨front, behind, split, first⟩ := List.eq_append_cons_of_mem zero
    have held : Holds line.str front := ⟨first, behind, split⟩
    rw [if_pos string, strlen_eq held]
    refine ⟨_, rfl, ?_⟩
    rw [Meets]
    refine imp_congr_right (fun _ => ?_)
    have taken : line.str.take (front.length + 1) = front ++ [0] := by
      rw [split, List.take_length_add_append]
      rfl
    dsimp only
    rw [taken, Delivery.line.injEq, List.append_left_inj]
    constructor
    · rintro rfl
      exact first
    · intro free
      have held' : Holds line.str (edited typed) := ⟨free, rest, by rw [← buffer]; simp⟩
      rw [← held.takeWhile_eq, held'.takeWhile_eq]
  · rw [if_neg string]
    have met (delivery : Delivery)
        : Meets (d, typed) delivery ↔ (d = 115 → 0 ∉ edited typed) :=
      iff_of_true (fun string' => absurd string' string) (fun string' => absurd string' string)
    split
    · have zero : 0 ∈ line.str := by
        rw [← buffer]
        simp
      obtain ⟨n, number⟩ := atoi_isSome zero
      rw [number]
      exact ⟨_, rfl, met _⟩
    · exact ⟨_, rfl, met _⟩

/-- A call does not return from a character that belongs to no conversion, by induction on the
rounds.
-/
theorem scank_other {format : List UInt8} (nonzero : c ≠ 0) (other : c ≠ 37) (fuel : Nat)
    : scank fuel (c :: format) rounds = none := by
  induction fuel with
  | zero => rfl
  | succ fuel ih => rw [scank, if_neg nonzero, if_pos other, ih]

/-- A call reads a line for every conversion. -/
theorem scank_percent (fuel : Nat) (d : UInt8) (format : List UInt8) (rounds : List Round)
    : scank (fuel + 1) (37 :: d :: format) rounds
      = (readLine rounds .empty).bind (fun read =>
          (deliver d read.1.str).bind (fun delivery =>
            (scank fuel format read.2).map (fun outcome => outcome.behind read.1 delivery))) := by
  rw [scank, if_neg (by decide), if_neg (by decide)]
  cases readLine rounds .empty with
  | none => rfl
  | some read =>
      obtain ⟨line, rounds⟩ := read
      simp only [Option.bind_eq_bind, Option.bind_some, List.head?_cons, List.tail_cons]
      refine Option.bind_congr (fun delivery _ => ?_)
      exact (Option.map_eq_bind ..).symm

/-- A call reads behind the end of a format whose last character is a `%`. -/
theorem scank_lone (fuel : Nat) (rounds : List Round) : scank fuel [37, 0] rounds = none := by
  cases fuel with
  | zero => rfl
  | succ fuel =>
      rw [scank_percent]
      have behind (read : Line × List Round) (delivery : Delivery)
          : (scank fuel [] read.2).map (fun outcome => outcome.behind read.1 delivery) = none := by
        cases fuel <;> rfl
      simp only [behind, Option.bind_fun_none]

/-- A format that begins with a character of no conversion is not read to its end. -/
theorem not_scankRight_other (text : 0 ∉ c :: s) (other : c ≠ 37)
    : ¬ ScankRight (c :: s) rounds := by
  rintro ⟨fuel, outcome, ran, -⟩
  have nonzero : c ≠ 0 := by
    rintro rfl
    exact text List.mem_cons_self
  rw [List.cons_append, scank_other nonzero other] at ran
  cases ran

/-- A line that is too long is stored behind the buffer. -/
theorem not_scankRight (unread : readLine rounds .empty = none) (d : UInt8) (s : List UInt8)
    : ¬ ScankRight (37 :: d :: s) rounds := by
  rintro ⟨fuel, outcome, ran, -⟩
  cases fuel with
  | zero => cases ran
  | succ fuel =>
      rw [List.cons_append, List.cons_append, scank_percent, unread] at ran
      cases ran

/-- The first conversion and the rest of a format are right on their own. -/
theorem scankRight_cons (read : readLine rounds .empty = some (line, rounds'))
    (shows : line.Shows (edited typed))
    (split : asks (37 :: d :: s) rounds = (d, typed) :: asks s rounds')
    : ScankRight (37 :: d :: s) rounds
      ↔ (d = 115 → 0 ∉ edited typed) ∧ ScankRight s rounds' := by
  obtain ⟨delivery, stored, met⟩ := deliver_meets d shows
  have ends (fuel : Nat) : scank (fuel + 1) (37 :: d :: s ++ [0]) rounds
      = (scank fuel (s ++ [0]) rounds').map (fun outcome => outcome.behind line delivery) := by
    rw [List.cons_append, List.cons_append, scank_percent, read, Option.bind_some, stored,
      Option.bind_some]
  constructor
  · rintro ⟨fuel, outcome, ran, inside, meets⟩
    cases fuel with
    | zero => cases ran
    | succ fuel =>
        rw [ends] at ran
        obtain ⟨later, left, rfl⟩ := Option.map_eq_some_iff.mp ran
        rw [split] at meets
        obtain ⟨here, meets⟩ := List.forall₂_cons.mp meets
        refine ⟨met.mp here, fuel, later, left, fun pos member => ?_, meets⟩
        exact inside pos (List.mem_append_right _ member)
  · rintro ⟨free, fuel, later, ran, inside, meets⟩
    refine ⟨fuel + 1, later.behind line delivery, by rw [ends, ran]; rfl, ?_, ?_⟩
    · intro pos member
      rcases List.mem_append.mp member with here | there
      · exact shows.inside pos here
      · exact inside pos there
    · rw [split]
      exact List.forall₂_cons.mpr ⟨met.mpr free, meets⟩

/-- With enough newlines, `scank` works exactly on the formats that consist of conversions only,
while no line grows longer than 255 characters and no zero is left in a string. The induction is on
the conversions of the format: each takes a line, which its edits keep in the array or not, and
what is no conversion is not waited for.
-/
theorem scankRight_iff (s : List UInt8) (rounds : List Round) (text : 0 ∉ s)
    (enough : (specifiers s).length ≤ (keys rounds).count 10)
    : ScankRight s rounds ↔ OnlyConversions s ∧ ∀ asked ∈ asks s rounds, Readable asked := by
  -- The induction is on the conversions of the format.
  induction s using OnlyConversions.induct generalizing rounds with
  | case1 =>
      refine iff_of_true ⟨1, ⟨[], [], []⟩, rfl, ?_, .nil⟩ ⟨trivial, ?_⟩
      · exact fun pos member => absurd member List.not_mem_nil
      · exact fun asked member => absurd member List.not_mem_nil
  | case2 c =>
      refine iff_of_false ?_ (fun ⟨only, _⟩ => only)
      by_cases percent : c = 37
      · rintro ⟨fuel, outcome, ran, -⟩
        rw [percent, List.singleton_append, scank_lone] at ran
        cases ran
      · exact not_scankRight_other text percent
  | case3 c d s ih =>
      by_cases percent : c = 37
      · subst percent
        have text : 0 ∉ s := fun member => text (by simp [member])
        rw [specifiers, if_pos rfl, List.length_cons] at enough
        have newline : 10 ∈ keys rounds := List.count_pos_iff.mp (by omega)
        obtain ⟨typed, others, typing, one⟩ := List.eq_append_cons_of_mem newline
        have lines : (keys rounds).splitOn 10 = typed :: others.splitOn 10 := by
          rw [typing, List.splitOn_append_cons_self_of_not_mem one]
        obtain ⟨reads, overruns⟩ := readLine_cases Line.shows_empty typing one
        by_cases always : Stepwise.Always edit Fits [] typed
        · obtain ⟨line, rounds', read, shows, rfl⟩ := reads always
          have split : asks (37 :: d :: s) rounds = (d, typed) :: asks s rounds' := by
            rw [asks, specifiers, if_pos rfl, lines, List.zip_cons_cons, asks]
          have left : (specifiers s).length ≤ (keys rounds').count 10 := by
            rw [typing, List.count_append, List.count_eq_zero_of_not_mem one, List.count_cons_self]
              at enough
            omega
          rw [scankRight_cons read shows split, ih rounds' text left, split, List.forall_mem_cons,
            OnlyConversions, Readable]
          tauto
        · refine iff_of_false (not_scankRight (overruns always) d s) (fun ⟨_, readable⟩ => ?_)
          have asked : (d, typed) ∈ asks (37 :: d :: s) rounds := by
            rw [asks, specifiers, if_pos rfl, lines, List.zip_cons_cons]
            exact List.mem_cons_self
          exact always (readable _ asked).1
      · exact iff_of_false (not_scankRight_other text percent) (fun ⟨only, _⟩ => percent only.1)

def typing (c : UInt8) : Round :=
  ⟨⟨fun _ => 1, 0, fun _ => c, fun _ => c⟩, ⟨fun _ => 1, 0, fun _ => c, fun _ => c⟩⟩

theorem key_typing (c : UInt8) : (typing c).key = some c := by
  have down : (typing c).atKeydown.kbdKeydown ≠ 0xFF := by
    rw [Kbd.kbdKeydown_ne_iff]
    exact ⟨0, by decide, by simp [typing]⟩
  rw [Round.key, if_neg down, typing, Kbd.kbdGet]
  simp

theorem keys_typing (typed : List UInt8) : keys (typed.map typing) = typed := by
  rw [keys, List.filterMap_map]
  simp [key_typing]

/-- A letter, a backspace that cancels it, and another letter. -/
theorem scankRight_iff_backspace : ScankRight [37, 115] ([97, 8, 98, 10].map typing) := by
  have asked : asks [37, 115] ([97, 8, 98, 10].map typing) = [(115, [97, 8, 98])] := by
    rw [asks, keys_typing]
    decide
  refine (scankRight_iff [37, 115] _ (by decide) (by rw [keys_typing]; decide)).mpr ?_
  rw [asked]
  refine ⟨⟨rfl, trivial⟩, fun _ member => ?_⟩
  rw [List.mem_singleton.mp member]
  simp [Readable, Stepwise.Always, Fits, edit, edited]

/-- No character of a line is cancelled without a backspace, by induction on the keys. -/
theorem foldl_edit (kept : 8 ∉ typed) (l : List UInt8) : typed.foldl edit l = l ++ typed := by
  induction typed generalizing l with
  | nil => exact (List.append_nil l).symm
  | cons c typed ih =>
      obtain ⟨other, kept⟩ := not_or.mp (fun member => kept (List.mem_cons.mpr member))
      rw [List.foldl_cons, ih kept, edit, if_neg (Ne.symm other), List.append_assoc]
      rfl

def overlong : List Round :=
  (List.replicate 256 (97 : UInt8) ++ [10]).map typing

/-- The line is stored behind the buffer, though a newline ends it. -/
theorem scank_overruns
    : (specifiers [37, 115]).length ≤ (keys overlong).count 10
      ∧ ¬ ScankRight [37, 115] overlong := by
  have only {c : UInt8} (other : c ≠ 97) (n : Nat) : c ∉ List.replicate n (97 : UInt8) :=
    fun member => other (List.eq_of_mem_replicate member)
  have typed : keys overlong = List.replicate 256 97 ++ [10] := keys_typing _
  constructor
  · rw [typed, List.count_append, List.count_eq_zero_of_not_mem (only (by decide) 256)]
    decide
  · have overruns := (readLine_cases Line.shows_empty typed (only (by decide) 256)).2
    refine not_scankRight (overruns (fun always => ?_)) 115 []
    have last := Stepwise.always_iff_prefix.mp always (List.replicate 255 97) 97 (by
      rw [← List.replicate_succ'])
    rw [foldl_edit (only (by decide) 255), Fits, edit, if_neg (by decide), List.nil_append,
      List.length_append, List.length_replicate] at last
    exact absurd last (by decide)

end Scank

end Hydrangea
