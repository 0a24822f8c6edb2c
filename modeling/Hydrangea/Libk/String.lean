import Hydrangea.Lib.CString
import Hydrangea.Lib.Runs

/-! The functions of `libk/string.c` that the virtual file system uses on names and paths.
`none` is an access behind the end of a buffer.
-/

namespace Hydrangea

open CString

/-- `strcpy`: the destination afterwards. -/
def strcpy : (dest src : List UInt8) → Option (List UInt8)
  | _ :: dest, c :: src =>
      if c = 0 then some (0 :: dest) else (strcpy dest src).map (c :: ·)
  | _, _ => none

def strcmp : (dest src : List UInt8) → Option Nat
  | d :: dest, s :: src =>
      if d = s then
        if s = 0 then some 0 else strcmp dest src
      else
        some 1
  | _, _ => none

def strlen : (str : List UInt8) → Option Nat
  | [] => none
  | c :: str => if c = 0 then some 0 else (strlen str).map (· + 1)

/-- `strcat`: the destination afterwards. -/
def strcat (dest src : List UInt8) : Option (List UInt8) := do
  let len ← strlen dest
  let copied ← strcpy (dest.drop len) src
  return dest.take len ++ copied

/-- `strchr`: the string from the first such character on, or null. -/
def strchr : (str : List UInt8) → (c : UInt8) → Option (Option (List UInt8))
  | [], _ => none
  | s :: str, c =>
      if s ≠ c then
        if s = 0 then some none else strchr str c
      else
        some (some (s :: str))

def strspn (str2 : List UInt8) : (str1 : List UInt8) → Option Nat
  | [] => none
  | c :: str1 =>
      if c ≠ 0 then do
        let found ← strchr str2 c
        if found.isSome then (strspn str2 str1).map (· + 1) else some 0
      else
        some 0

def strcspn (str2 : List UInt8) : (str1 : List UInt8) → Option Nat
  | [] => none
  | c :: str1 =>
      if c ≠ 0 then do
        let found ← strchr str2 c
        if found.isSome then some 0 else (strcspn str2 str1).map (· + 1)
      else
        some 0

/-- `strtok` on a buffer: the token, the static `i` and the buffer afterwards. Both pointers
are positions in the buffer, or null.
-/
def strtok (buffer : List UInt8) (i str : Option Nat) (delim : List UInt8)
    : Option (Option Nat × Option Nat × List UInt8) :=
  match str.or i with
  | none => some (none, none, buffer)
  | some i => do
      let skipped ← strspn delim (buffer.drop i)
      let str := i + skipped
      let len ← strcspn delim (buffer.drop str)
      let i := str + len
      if i = str then
        return (none, none, buffer)
      else
        let c ← buffer[i]?
        if c ≠ 0 then
          return (some str, some (i + 1), buffer.set i 0)
        else
          return (some str, none, buffer)

def memcmp : (ptr1 ptr2 : List UInt8) → (size : Nat) → Option Int
  | _, _, 0 => some 0
  | p1 :: ptr1, p2 :: ptr2, size + 1 =>
      if p1 < p2 then
        some (-1)
      else if p2 < p1 then
        some 1
      else
        memcmp ptr1 ptr2 size
  | _, _, _ + 1 => none

/-- The loop of `strstr` from its round `i` on. -/
def strstrFrom (str1 str2 : List UInt8) (n2 : Nat) : (rounds i : Nat) → Option (Option Nat)
  | 0, _ => some none
  | rounds + 1, i => do
      let differs ← memcmp (str1.drop i) str2 n2
      if differs = 0 then some (some i) else strstrFrom str1 str2 n2 rounds (i + 1)

/-- `strstr`: the position of the string, or null. -/
def strstr (str1 str2 : List UInt8) : Option (Option Nat) := do
  let n1 ← strlen str1
  let n2 ← strlen str2
  if n1 < n2 then some none else strstrFrom str1 str2 n2 ((n1 - n2 + 1) % 2 ^ 32) 0

-----------------------------------------------------------------------------------------
-- What the functions do to strings
-----------------------------------------------------------------------------------------

/-- `strcpy` copies a string that has room, by induction on the string. -/
theorem strcpy_eq {dest src s : List UInt8} (h : Holds src s) (room : s.length < dest.length)
    : strcpy dest src = some (s ++ 0 :: dest.drop (s.length + 1)) := by
  induction s generalizing dest src with
  | nil =>
      obtain ⟨rest, rfl⟩ := h.of_nil
      cases dest with
      | nil => simp at room
      | cons d dest => simp [strcpy]
  | cons c s ih =>
      obtain ⟨nonzero, behind, rfl, rest⟩ := h.of_cons
      cases dest with
      | nil => simp at room
      | cons d dest =>
          have copied := ih rest (Nat.lt_of_succ_lt_succ room)
          simp [strcpy, nonzero, copied]

theorem strcpy_holds (dest : List UInt8) {src s : List UInt8} (h : Holds src s)
    (room : s.length < dest.length)
    : ∃ dest', strcpy dest src = some dest' ∧ Holds dest' s ∧ dest'.length = dest.length := by
  refine ⟨_, strcpy_eq h room, holds_append h.1 _, ?_⟩
  rw [List.length_append, List.length_cons, List.length_drop]
  omega

/-- What `strcpy` copies is a string that has room, by induction on the destination. -/
theorem holds_of_strcpy {dest src dest' : List UInt8} (copied : strcpy dest src = some dest')
    : ∃ s, Holds src s ∧ s.length < dest.length := by
  induction dest generalizing src dest' with
  | nil => cases copied
  | cons d dest ih =>
      cases src with
      | nil => cases copied
      | cons c src =>
          by_cases stop : c = 0
          · exact ⟨[], stop ▸ holds_nil src, Nat.succ_pos _⟩
          · rw [strcpy, if_neg stop] at copied
            obtain ⟨dest₁, rest, -⟩ := Option.map_eq_some_iff.mp copied
            obtain ⟨s, ⟨nonzero, behind, rfl⟩, room⟩ := ih rest
            refine ⟨c :: s, ⟨?_, behind, rfl⟩, Nat.succ_lt_succ room⟩
            rw [List.mem_cons, not_or]
            exact ⟨Ne.symm stop, nonzero⟩

theorem length_lt_of_strcpy {dest src dest' s : List UInt8} (copied : strcpy dest src = some dest')
    (held : Holds src s)
    : s.length < dest.length := by
  obtain ⟨t, held', room⟩ := holds_of_strcpy copied
  obtain rfl : t = s := held'.takeWhile_eq.symm.trans held.takeWhile_eq
  exact room

theorem held_of_strcpy {dest src dest' s : List UInt8} (copied : strcpy dest src = some dest')
    (held : Holds src s)
    : Holds dest' s := by
  obtain ⟨stored, copied', held', -⟩ := strcpy_holds dest held (length_lt_of_strcpy copied held)
  obtain rfl := Option.some.inj (copied.symm.trans copied')
  exact held'

/-- What `strcpy` leaves in the destination ends. -/
theorem zero_mem_of_strcpy {dest src dest' : List UInt8} (copied : strcpy dest src = some dest')
    : 0 ∈ dest' := by
  obtain ⟨s, held, -⟩ := holds_of_strcpy copied
  obtain ⟨-, rest, rfl⟩ := held_of_strcpy copied held
  simp

/-- `strcmp` tells whether two strings are equal, by induction on the first one. -/
theorem strcmp_eq {dest src s t : List UInt8} (hs : Holds dest s) (ht : Holds src t)
    : strcmp dest src = some (if s = t then 0 else 1) := by
  induction s generalizing dest src t with
  | nil =>
      obtain ⟨rest, rfl⟩ := hs.of_nil
      cases t with
      | nil =>
          obtain ⟨rest', rfl⟩ := ht.of_nil
          simp [strcmp]
      | cons c t =>
          obtain ⟨nonzero, behind, rfl, -⟩ := ht.of_cons
          simp [strcmp, Ne.symm nonzero]
  | cons c s ih =>
      obtain ⟨nonzero, behind, rfl, rest⟩ := hs.of_cons
      cases t with
      | nil =>
          obtain ⟨rest', rfl⟩ := ht.of_nil
          simp [strcmp, nonzero]
      | cons c' t =>
          obtain ⟨nonzero', behind', rfl, rest'⟩ := ht.of_cons
          rcases eq_or_ne c c' with rfl | differ
          · simp [strcmp, nonzero, ih rest rest']
          · simp [strcmp, differ]

/-- `strlen` is the length of the string, by induction on it. -/
theorem strlen_eq {str s : List UInt8} (h : Holds str s) : strlen str = some s.length := by
  induction s generalizing str with
  | nil =>
      obtain ⟨rest, rfl⟩ := h.of_nil
      simp [strlen]
  | cons c s ih =>
      obtain ⟨nonzero, behind, rfl, rest⟩ := h.of_cons
      simp [strlen, nonzero, ih rest]

theorem strcat_eq {dest src s t : List UInt8} (hs : Holds dest s) (ht : Holds src t)
    (room : s.length + t.length < dest.length)
    : strcat dest src = some (s ++ t ++ 0 :: dest.drop (s.length + t.length + 1)) := by
  have behind : t.length < (dest.drop s.length).length := by
    rw [List.length_drop]
    omega
  have front : dest.take s.length = s := by
    obtain ⟨-, rest, rfl⟩ := hs
    simp
  rw [strcat, strlen_eq hs, Option.bind_eq_bind, Option.bind_some, strcpy_eq ht behind,
    List.drop_drop, front]
  simp [Nat.add_assoc]

theorem strcat_holds {dest src s t : List UInt8} (hs : Holds dest s) (ht : Holds src t)
    (room : s.length + t.length < dest.length)
    : ∃ dest', strcat dest src = some dest' ∧ Holds dest' (s ++ t)
        ∧ dest'.length = dest.length := by
  have nonzero : 0 ∉ s ++ t := by
    rw [List.mem_append, not_or]
    exact ⟨hs.1, ht.1⟩
  refine ⟨_, strcat_eq hs ht room, holds_append nonzero _, ?_⟩
  rw [List.length_append, List.length_append, List.length_cons, List.length_drop]
  omega

/-- `strchr` finds the characters of the string, by induction on it. -/
theorem strchr_isSome {str s : List UInt8} {c : UInt8} (h : Holds str s) (nonzero : c ≠ 0)
    : ∃ found, strchr str c = some found ∧ (found.isSome ↔ c ∈ s) := by
  induction s generalizing str with
  | nil =>
      obtain ⟨rest, rfl⟩ := h.of_nil
      exact ⟨none, by simp [strchr, Ne.symm nonzero], by simp⟩
  | cons d s ih =>
      obtain ⟨nonzero', behind, rfl, rest⟩ := h.of_cons
      rcases eq_or_ne d c with rfl | differ
      · exact ⟨some (d :: behind), by simp [strchr], by simp⟩
      · obtain ⟨found, search, foundIff⟩ := ih rest
        exact ⟨found, by simp [strchr, differ, nonzero', search],
          by simp [foundIff, Ne.symm differ]⟩

/-- `strspn` skips the delimiters in front, by induction on them. -/
theorem strspn_eq {delim ds front rest : List UInt8} {c : UInt8} (h : Holds delim ds)
    (skip : ∀ d ∈ front, d ≠ 0 ∧ d ∈ ds) (stop : c ∉ ds)
    : strspn delim (front ++ c :: rest) = some front.length := by
  induction front with
  | nil =>
      rcases eq_or_ne c 0 with rfl | nonzero
      · simp [strspn]
      · obtain ⟨found, search, foundIff⟩ := strchr_isSome h nonzero
        have notFound : found.isSome = false := by simpa [stop] using foundIff
        simp [strspn, nonzero, search, notFound]
  | cons d front ih =>
      obtain ⟨nonzero, member⟩ := skip d (by simp)
      obtain ⟨found, search, foundIff⟩ := strchr_isSome h nonzero
      have isFound : found.isSome = true := foundIff.mpr member
      have later := ih (fun d' inFront => skip d' (by simp [inFront]))
      simp [strspn, nonzero, search, isFound, later]

/-- `strcspn` passes over the characters up to a delimiter or the end, by induction on
them.
-/
theorem strcspn_eq {delim ds front rest : List UInt8} {c : UInt8} (h : Holds delim ds)
    (pass : ∀ d ∈ front, d ≠ 0 ∧ d ∉ ds) (stop : c = 0 ∨ c ∈ ds)
    : strcspn delim (front ++ c :: rest) = some front.length := by
  induction front with
  | nil =>
      rcases eq_or_ne c 0 with rfl | nonzero
      · simp [strcspn]
      · obtain ⟨found, search, foundIff⟩ := strchr_isSome h nonzero
        have isFound : found.isSome = true := foundIff.mpr (stop.resolve_left nonzero)
        simp [strcspn, nonzero, search, isFound]
  | cons d front ih =>
      obtain ⟨nonzero, absent⟩ := pass d (by simp)
      obtain ⟨found, search, foundIff⟩ := strchr_isSome h nonzero
      have notFound : found.isSome = false := by simpa [absent] using foundIff
      have later := ih (fun d' inFront => pass d' (by simp [inFront]))
      simp [strcspn, nonzero, search, notFound, later]

/-- The buffer from a later position on. -/
theorem drop_of_drop {buffer front rest : List UInt8} {p : Nat}
    (here : buffer.drop p = front ++ rest)
    : buffer.drop (p + front.length) = rest := by
  rw [← List.drop_drop, here, List.drop_left]

/-- A zero that is stored behind a word ends it there, and what follows stays. -/
theorem drop_set_behind {buffer word rest : List UInt8} {p : Nat} {c : UInt8}
    (here : buffer.drop p = word ++ c :: rest)
    : (buffer.set (p + word.length) 0).drop p = word ++ 0 :: rest
      ∧ (buffer.set (p + word.length) 0).drop (p + word.length + 1) = rest := by
  constructor
  · rw [List.drop_set, if_neg (Nat.not_lt.mpr (Nat.le_add_right _ _)), here,
      Nat.add_sub_cancel_left, List.set_append_right _ _ (Nat.le_refl _), Nat.sub_self]
    rfl
  · rw [List.drop_set_of_lt (Nat.lt_add_one _), ← List.drop_drop, drop_of_drop here]
    rfl

/-- `strtok` returns the next word, and ends it unless the string ends there. -/
theorem strtok_word {buffer delim ds lead word rest : List UInt8} {i str : Option Nat}
    {p : Nat} {c : UInt8} (h : Holds delim ds) (start : str.or i = some p)
    (here : buffer.drop p = lead ++ (word ++ c :: rest))
    (skip : ∀ d ∈ lead, d ≠ 0 ∧ d ∈ ds) (pass : ∀ d ∈ word, d ≠ 0 ∧ d ∉ ds)
    (nonempty : word ≠ []) (stop : c = 0 ∨ c ∈ ds)
    : strtok buffer i str delim
      = some (if c ≠ 0 then
            (some (p + lead.length), some (p + lead.length + word.length + 1),
              buffer.set (p + lead.length + word.length) 0)
          else
            (some (p + lead.length), none, buffer)) := by
  have skipped : strspn delim (buffer.drop p) = some lead.length := by
    obtain ⟨w, word, rfl⟩ := List.exists_cons_of_ne_nil nonempty
    rw [here]
    exact strspn_eq h skip (pass w (by simp)).2
  have atWord := drop_of_drop here
  have passed : strcspn delim (buffer.drop (p + lead.length)) = some word.length := by
    rw [atWord]
    exact strcspn_eq h pass stop
  have atEnd : buffer[p + lead.length + word.length]? = some c := by
    have behind := drop_of_drop atWord
    have head := List.head?_drop (l := buffer) (i := p + lead.length + word.length)
    rw [behind] at head
    exact head.symm
  have moved : p + lead.length + word.length ≠ p + lead.length := by
    have := List.length_pos_iff.mpr nonempty
    omega
  simp only [strtok, start, skipped, passed, atEnd, Option.bind_eq_bind, Option.bind_some,
    if_neg moved]
  split <;> rfl

/-- `strtok` returns null when only delimiters are left. -/
theorem strtok_end {buffer delim ds lead rest : List UInt8} {i str : Option Nat} {p : Nat}
    (h : Holds delim ds) (start : str.or i = some p)
    (here : buffer.drop p = lead ++ 0 :: rest) (skip : ∀ d ∈ lead, d ≠ 0 ∧ d ∈ ds)
    : strtok buffer i str delim = some (none, none, buffer) := by
  have skipped : strspn delim (buffer.drop p) = some lead.length := by
    rw [here]
    exact strspn_eq h skip h.1
  have passed : strcspn delim (buffer.drop (p + lead.length)) = some 0 := by
    rw [drop_of_drop here]
    simp [strcspn]
  simp [strtok, start, skipped, passed]

/-- `memcmp` tells whether two blocks are equal, by induction on their size. -/
theorem memcmp_eq {ptr1 ptr2 : List UInt8} {size : Nat} (room : size ≤ ptr1.length)
    (room' : size ≤ ptr2.length)
    : ∃ differs, memcmp ptr1 ptr2 size = some differs
        ∧ (differs = 0 ↔ ptr1.take size = ptr2.take size) := by
  induction size generalizing ptr1 ptr2 with
  | zero => exact ⟨0, by cases ptr1 <;> cases ptr2 <;> rfl, by simp⟩
  | succ size ih =>
      obtain ⟨b, ptr1, rfl⟩ := List.exists_cons_of_length_pos (Nat.lt_of_lt_of_le (Nat.succ_pos _) room)
      obtain ⟨b', ptr2, rfl⟩ :=
        List.exists_cons_of_length_pos (Nat.lt_of_lt_of_le (Nat.succ_pos _) room')
      obtain ⟨differs, compared, equal⟩ :=
        ih (Nat.le_of_succ_le_succ room) (Nat.le_of_succ_le_succ room')
      rw [memcmp, List.take_succ_cons, List.take_succ_cons]
      split
      · next less =>
          exact ⟨-1, rfl, iff_of_false (by decide)
            (fun same => UInt8.ne_of_lt less (List.cons.inj same).1)⟩
      · split
        · next more =>
            exact ⟨1, rfl, iff_of_false (by decide)
              (fun same => UInt8.ne_of_lt more (List.cons.inj same).1.symm)⟩
        · next notLess notMore =>
            obtain rfl : b = b' := UInt8.le_antisymm (UInt8.not_lt.mp notMore) (UInt8.not_lt.mp notLess)
            exact ⟨differs, compared, by simpa using equal⟩

/-- The loop of `strstr` finds the first place where the string is, by induction on the rounds. -/
theorem strstrFrom_eq {str1 str2 : List UInt8} {n2 : Nat} (room' : n2 ≤ str2.length) {rounds i : Nat}
    (room : ∀ j, j < i + rounds → n2 ≤ (str1.drop j).length)
    : ∃ found, strstrFrom str1 str2 n2 rounds i = some found
        ∧ (found = none ↔ ∀ j, i ≤ j → j < i + rounds → (str1.drop j).take n2 ≠ str2.take n2)
        ∧ ∀ k, found = some k → k < i + rounds ∧ (str1.drop k).take n2 = str2.take n2
          ∧ ∀ j, i ≤ j → j < k → (str1.drop j).take n2 ≠ str2.take n2 := by
  induction rounds generalizing i with
  | zero =>
      exact ⟨none, rfl, iff_of_true rfl (fun j above below => by omega), fun k here => by cases here⟩
  | succ rounds ih =>
      obtain ⟨differs, compared, equal⟩ := memcmp_eq (room i (by omega)) room'
      obtain ⟨found, search, none, first⟩ :=
        ih (fun j (below : j < i + 1 + rounds) => room j (by omega))
      rw [strstrFrom, compared, Option.bind_eq_bind, Option.bind_some]
      by_cases same : differs = 0
      · rw [if_pos same]
        refine ⟨some i, rfl, iff_of_false (fun none => by cases none) (fun never => ?_), ?_⟩
        · exact never i le_rfl (by omega) (equal.mp same)
        · rintro k ⟨⟩
          exact ⟨by omega, equal.mp same, fun j above below => by omega⟩
      · rw [if_neg same]
        -- Nothing is here, so the places from here on are the ones from the next on.
        have further (high : Nat)
            : (∀ j, i ≤ j → j < high → (str1.drop j).take n2 ≠ str2.take n2)
              ↔ ∀ j, i + 1 ≤ j → j < high → (str1.drop j).take n2 ≠ str2.take n2 := by
          refine ⟨fun never j above => never j (by omega), fun never j above below => ?_⟩
          rcases Nat.eq_or_lt_of_le above with rfl | later
          · exact fun equals => same (equal.mpr equals)
          · exact never j later below
        refine ⟨found, search, ?_, fun k here => ?_⟩
        · rw [further, none, Nat.add_right_comm, Nat.add_assoc]
        · obtain ⟨below, equals, never⟩ := first k here
          exact ⟨by omega, equals, (further k).mpr never⟩

/-- What a search for the first place where a string is in another one should find. -/
structure FirstOccurrence (t s : List UInt8) (found : Option Nat) : Prop where
  absent : found = none ↔ ¬ t <:+: s
  first (i : Nat) : found = some i → i ≤ s.length ∧ t <+: s.drop i ∧ ∀ j < i, ¬ t <+: s.drop j

/-- A place found is one where the string is. -/
theorem FirstOccurrence.isInfix {t s : List UInt8} {i : Nat} (h : FirstOccurrence t s (some i))
    : t <:+: s :=
  (h.first i rfl).2.1.isInfix.trans (List.drop_suffix i s).isInfix

theorem FirstOccurrence.unique {t s : List UInt8} {found found' : Option Nat}
    (h : FirstOccurrence t s found) (h' : FirstOccurrence t s found')
    : found = found' := by
  cases found with
  | none =>
      cases found' with
      | none => rfl
      | some i => exact absurd h'.isInfix (h.absent.mp rfl)
  | some i =>
      cases found' with
      | none => exact absurd h.isInfix (h'.absent.mp rfl)
      | some i' =>
          obtain ⟨-, here, before⟩ := h.first i rfl
          obtain ⟨-, here', before'⟩ := h'.first i' rfl
          rcases Nat.lt_trichotomy i i' with less | rfl | more
          · exact absurd here (before' i less)
          · rfl
          · exact absurd here' (before i' more)

/-- `strstr` finds the first place where the second string is in the first one. The size of a string
with its zero is a `size_t`.
-/
theorem strstr_eq {str1 str2 s t : List UInt8} (held : Holds str1 s) (held' : Holds str2 t)
    (sized : s.length + 1 < 2 ^ 32)
    : ∃ found, strstr str1 str2 = some found ∧ FirstOccurrence t s found := by
  rw [strstr, strlen_eq held, strlen_eq held', Option.bind_eq_bind, Option.bind_some,
    Option.bind_some]
  by_cases long : s.length < t.length
  · rw [if_pos long]
    refine ⟨none, rfl, iff_of_true rfl ?_, fun i here => by cases here⟩
    exact fun part => absurd part.length_le (Nat.not_le.mpr long)
  · obtain ⟨-, rest, rfl⟩ := held
    obtain ⟨-, rest', rfl⟩ := held'
    have inside {j : Nat} (below : j < 0 + (s.length - t.length + 1))
        : ((s ++ 0 :: rest).drop j).take t.length = (t ++ 0 :: rest').take t.length
          ↔ t <+: s.drop j := by
      rw [List.drop_append_of_le_length (by omega), List.take_append_of_le_length, List.take_left,
        List.prefix_iff_eq_take, eq_comm]
      rw [List.length_drop]
      omega
    have room' : t.length ≤ (t ++ 0 :: rest').length := by simp
    have room (j : Nat) (below : j < 0 + (s.length - t.length + 1))
        : t.length ≤ ((s ++ 0 :: rest).drop j).length := by
      rw [List.length_drop, List.length_append, List.length_cons]
      omega
    obtain ⟨found, search, none, first⟩ := strstrFrom_eq room' room
    rw [if_neg long, Nat.mod_eq_of_lt (by omega)]
    refine ⟨found, search, none.trans ⟨?_, ?_⟩, fun k here => ?_⟩
    · rintro never ⟨front, behind, rfl⟩
      refine never front.length (Nat.zero_le _) (by simp; omega) ?_
      rw [inside (by simp; omega), List.append_assoc, List.drop_left]
      exact List.prefix_append t behind
    · intro absent j _ below same
      exact absent (((inside below).mp same).isInfix.trans (List.drop_suffix _ _).isInfix)
    · obtain ⟨below, same, never⟩ := first k here
      refine ⟨by omega, (inside below).mp same, fun j earlier here => ?_⟩
      exact never j (Nat.zero_le _) earlier ((inside (by omega)).mpr here)

-----------------------------------------------------------------------------------------
-- Cutting words off with `strtok`
-----------------------------------------------------------------------------------------

/-- The first word of a string, and what is behind the delimiter that ends it. -/
def cutWord (d : UInt8) (t : List UInt8) : Option (List UInt8 × List UInt8) :=
  match t.dropWhile (· = d) with
  | [] => none
  | rest => some (rest.takeWhile (· ≠ d), (rest.dropWhile (· ≠ d)).drop 1)

def words (d : UInt8) (t : List UInt8) : List (List UInt8) :=
  (t.splitOn d).filter (· ≠ [])

/-- What `strtok` has yet to cut up. -/
def Left (buffer : List UInt8) (i : Option Nat) (t : List UInt8) : Prop :=
  (i = none ∧ t = []) ∨ ∃ p, i = some p ∧ Holds (buffer.drop p) t

/-- A string is delimiters, or a word between delimiters in front and what is behind it. -/
theorem cutWord_cases (d : UInt8) (t : List UInt8)
    : (cutWord d t = none ∧ ∀ c ∈ t, c = d)
      ∨ ∃ lead word tail, t = lead ++ (word ++ tail) ∧ (∀ c ∈ lead, c = d) ∧ word ≠ [] ∧ d ∉ word
        ∧ (tail = [] ∨ ∃ behind, tail = d :: behind) ∧ cutWord d t = some (word, tail.drop 1) := by
  rcases Runs.run_cases (· = d) t with
    ⟨none, all⟩ | ⟨lead, word, tail, split, leads, nonempty, free, ends, -, rest, first, behind⟩
  · refine .inl ⟨?_, all⟩
    rw [cutWord, none]
  · refine .inr ⟨lead, word, tail, split, leads, nonempty, fun member => free d member rfl, ?_, ?_⟩
    · rcases ends with rfl | ⟨c, later, rfl, rfl⟩
      · exact .inl rfl
      · exact .inr ⟨later, rfl⟩
    · have some : word ++ tail ≠ [] := List.append_ne_nil_of_left_ne_nil nonempty tail
      rw [cutWord, rest]
      split
      · next none => exact absurd none some
      · exact congrArg₂ (fun word tail => Option.some (word, tail.drop 1)) first behind

/-- Delimiters in front make no words, by induction on them. -/
theorem words_append {d : UInt8} {lead : List UInt8} (all : ∀ c ∈ lead, c = d) (t : List UInt8)
    : words d (lead ++ t) = words d t := by
  induction lead with
  | nil => rfl
  | cons c lead ih =>
      obtain ⟨rfl, rest⟩ := List.forall_mem_cons.mp all
      rw [List.cons_append, words, List.splitOn_cons_eq_if_modifyHead, if_pos (beq_self_eq_true c),
        List.filter_cons_of_neg (by simp)]
      exact ih rest

/-- A string has the words that can be cut off. -/
theorem words_eq (d : UInt8) (t : List UInt8)
    : words d t = match cutWord d t with
      | none => []
      | some (word, behind) => word :: words d behind := by
  have empty : words d [] = [] := by simp [words]
  rcases cutWord_cases d t with
    ⟨none, all⟩ | ⟨lead, word, tail, rfl, leads, nonempty, free, ends, cut⟩
  · rw [none, ← empty]
    have whole := words_append all []
    rwa [List.append_nil] at whole
  · rw [cut, words_append leads]
    dsimp only
    rcases ends with rfl | ⟨behind, rfl⟩
    · rw [List.drop_nil, empty, List.append_nil, words, List.splitOn_eq_singleton free]
      exact List.filter_cons_of_pos (by simpa using nonempty)
    · rw [words, List.splitOn_append_cons_self_of_not_mem free]
      exact List.filter_cons_of_pos (by simpa using nonempty)

theorem cutWord_length {d : UInt8} {t word behind : List UInt8}
    (cut : cutWord d t = some (word, behind))
    : 0 < word.length ∧ word.length + behind.length ≤ t.length := by
  rcases cutWord_cases d t with ⟨none, -⟩ | ⟨lead, word', tail, rfl, -, nonempty, -, -, cut'⟩
  · cases cut.symm.trans none
  · obtain ⟨rfl, rfl⟩ := Prod.mk.inj (Option.some.inj (cut.symm.trans cut'))
    refine ⟨List.length_pos_iff.mpr nonempty, ?_⟩
    rw [List.length_append, List.length_append, List.length_drop]
    omega

/-- A string has no more words than characters, and no longer ones, by induction on its length. -/
theorem words_length (d : UInt8) (t : List UInt8)
    : (words d t).length ≤ t.length ∧ ∀ word ∈ words d t, word.length ≤ t.length := by
  induction size : t.length using Nat.strong_induction_on generalizing t with
  | _ size ih =>
      subst size
      rw [words_eq]
      cases cut : cutWord d t with
      | none => exact ⟨Nat.zero_le _, fun _ member => (List.not_mem_nil member).elim⟩
      | some pair =>
          obtain ⟨word, behind⟩ := pair
          obtain ⟨positive, parts⟩ := cutWord_length cut
          obtain ⟨count, lengths⟩ := ih behind.length (by omega) behind rfl
          refine ⟨?_, List.forall_mem_cons.mpr ⟨by omega, fun other member => ?_⟩⟩
          · rw [List.length_cons]
            omega
          · exact Nat.le_trans (lengths other member) (by omega)

/-- The words of two strings between which there is a delimiter. -/
theorem words_append_cons (d : UInt8) (p q : List UInt8)
    : words d (p ++ d :: q) = words d p ++ words d q := by
  rw [words, List.splitOn_append_cons_self, List.filter_append]
  rfl

/-- A string without delimiters is one word. -/
theorem words_of_not_mem {d : UInt8} {t : List UInt8} (free : d ∉ t) (nonempty : t ≠ [])
    : words d t = [t] := by
  rw [words, List.splitOn_eq_singleton free]
  exact List.filter_cons_of_pos (by simpa using nonempty)

/-- A word has no delimiters and is not empty, by induction on the length of the string. -/
theorem of_mem_words {d : UInt8} {t word : List UInt8} (member : word ∈ words d t)
    : d ∉ word ∧ word ≠ [] := by
  induction size : t.length using Nat.strong_induction_on generalizing t with
  | _ size ih =>
      subst size
      rw [words_eq] at member
      rcases cutWord_cases d t with
        ⟨none, -⟩ | ⟨lead, first, tail, -, -, nonempty, free, -, cut⟩
      · rw [none] at member
        cases member
      · obtain ⟨positive, parts⟩ := cutWord_length cut
        rw [cut] at member
        rcases List.mem_cons.mp member with rfl | later
        · exact ⟨free, nonempty⟩
        · exact ih (tail.drop 1).length (by omega) later rfl

/-- A word is a part of the string, by induction on the length of the string. -/
theorem infix_of_mem_words {d : UInt8} {t word : List UInt8} (member : word ∈ words d t)
    : word <:+: t := by
  induction size : t.length using Nat.strong_induction_on generalizing t with
  | _ size ih =>
      subst size
      rw [words_eq] at member
      rcases cutWord_cases d t with ⟨none, -⟩ | ⟨lead, first, tail, same, -, -, -, -, cut⟩
      · rw [none] at member
        cases member
      · obtain ⟨positive, parts⟩ := cutWord_length cut
        rw [cut] at member
        rcases List.mem_cons.mp member with rfl | later
        · exact ⟨lead, tail, by rw [same, List.append_assoc]⟩
        · refine (ih (tail.drop 1).length (by omega) later rfl).trans ?_
          rw [same, ← List.append_assoc]
          exact (List.drop_suffix 1 tail).isInfix.trans (List.suffix_append _ _).isInfix

/-- A string without words is delimiters. -/
theorem eq_of_words_nil {d : UInt8} {t : List UInt8} (none : words d t = []) : ∀ c ∈ t, c = d := by
  rw [words_eq] at none
  rcases cutWord_cases d t with ⟨-, all⟩ | ⟨_, _, _, _, _, _, _, _, cut⟩
  · exact all
  · rw [cut] at none
    cases none

theorem exists_last_delimiter {d : UInt8} {t : List UInt8} (member : d ∈ t)
    : ∃ p q, t = p ++ d :: q ∧ d ∉ q := by
  obtain ⟨q, p, split, free⟩ := List.eq_append_cons_of_mem (List.mem_reverse.mpr member)
  refine ⟨p.reverse, q.reverse, ?_, fun inside => free (List.mem_reverse.mp inside)⟩
  rw [← List.reverse_reverse t, split]
  simp

theorem last_delimiter_unique {d : UInt8} {p q p' q' : List UInt8} (same : p ++ d :: q = p' ++ d :: q')
    (free : d ∉ q) (free' : d ∉ q')
    : p = p' ∧ q = q' := by
  rcases List.append_eq_append_iff.mp same with ⟨c, rfl, rest⟩ | ⟨c, rfl, rest⟩
  · cases c with
    | nil => exact ⟨(List.append_nil p).symm, (List.cons.inj rest).2⟩
    | cons b c =>
        rw [(List.cons.inj rest).2] at free
        exact absurd (List.mem_append_right _ (List.mem_cons_self ..)) free
  · cases c with
    | nil => exact ⟨List.append_nil p', (List.cons.inj rest).2.symm⟩
    | cons b c =>
        rw [(List.cons.inj rest).2] at free'
        exact absurd (List.mem_append_right _ (List.mem_cons_self ..)) free'

/-- The last word of a string ends with the part behind the last delimiter. -/
theorem words_append_of_not_mem {d : UInt8} {x : List UInt8} (free : d ∉ x) (nonempty : x ≠ [])
    (p : List UInt8)
    : ∃ front y, words d (p ++ x) = front ++ [y ++ x] := by
  by_cases member : d ∈ p
  · obtain ⟨p, y, rfl, free'⟩ := exists_last_delimiter member
    have whole : d ∉ y ++ x := fun inside => (List.mem_append.mp inside).elim free' free
    refine ⟨words d p, y, ?_⟩
    rw [List.append_assoc, List.cons_append, words_append_cons,
      words_of_not_mem whole (List.append_ne_nil_of_right_ne_nil y nonempty)]
  · have whole : d ∉ p ++ x := fun inside => (List.mem_append.mp inside).elim member free
    exact ⟨[], p, words_of_not_mem whole (List.append_ne_nil_of_right_ne_nil p nonempty)⟩

/-- A string whose last word for a delimiter has none of another one, and the other way around, has
no delimiter.
-/
theorem not_mem_of_last_words {d e : UInt8} {t ℓ v : List UInt8} {front front' : List (List UInt8)}
    (other : d ≠ e) (last : words d t = front ++ [ℓ]) (last' : words e t = front' ++ [v])
    (free : e ∉ ℓ) (free' : d ∉ v)
    : d ∉ t := by
  intro member
  obtain ⟨p, q, rfl, behind⟩ := exists_last_delimiter member
  have free'' : e ∉ d :: q := by
    rw [List.mem_cons, not_or]
    refine ⟨other.symm, fun inside => ?_⟩
    have nonempty : q ≠ [] := List.ne_nil_of_mem inside
    rw [words_append_cons, words_of_not_mem behind nonempty] at last
    obtain ⟨-, same⟩ := List.append_inj' last rfl
    exact free (List.head_eq_of_cons_eq same ▸ inside)
  obtain ⟨front, y, split⟩ := words_append_of_not_mem free'' (List.cons_ne_nil d q) p
  obtain ⟨-, same⟩ := List.append_inj' (last'.symm.trans split) rfl
  rw [List.head_eq_of_cons_eq same] at free'
  exact free' (List.mem_append_right _ (List.mem_cons_self ..))

/-- `strtok` cuts the next word off. -/
theorem strtok_next {buffer t : List UInt8} {i str : Option Nat} {p : Nat} {d : UInt8}
    (nonzero : d ≠ 0) (start : str.or i = some p) (held : Holds (buffer.drop p) t)
    : match cutWord d t with
      | none => strtok buffer i str [d, 0] = some (none, none, buffer)
      | some (word, behind) => ∃ q i' buffer', strtok buffer i str [d, 0] = some (some q, i', buffer')
          ∧ Holds (buffer'.drop q) word ∧ Left buffer' i' behind := by
  have delim : Holds [d, 0] [d] := ⟨by simpa using nonzero.symm, [], rfl⟩
  obtain ⟨free, rest, here⟩ := held
  have skips {lead : List UInt8} (leads : ∀ c ∈ lead, c = d) : ∀ c ∈ lead, c ≠ 0 ∧ c ∈ [d] := by
    intro c member
    rw [leads c member]
    exact ⟨nonzero, List.mem_singleton_self d⟩
  rcases cutWord_cases d t with
    ⟨none, all⟩ | ⟨lead, word, tail, rfl, leads, nonempty, noDelim, ends, cut⟩
  · rw [none]
    exact strtok_end delim start here (skips all)
  · rw [cut]
    dsimp only
    have freeWord : 0 ∉ word := fun zero =>
      free (List.mem_append_right _ (List.mem_append_left _ zero))
    have pass : ∀ c ∈ word, c ≠ 0 ∧ c ∉ [d] := by
      intro c member
      refine ⟨fun zero => freeWord (zero ▸ member), fun isDelim => ?_⟩
      rw [List.mem_singleton] at isDelim
      exact noDelim (isDelim ▸ member)
    rcases ends with rfl | ⟨behind, rfl⟩
    · rw [List.append_nil, List.append_assoc] at here
      have called := strtok_word delim start here (skips leads) pass nonempty (.inl rfl)
      refine ⟨_, _, _, called, ?_, .inl ⟨rfl, rfl⟩⟩
      rw [drop_of_drop here]
      exact holds_append freeWord rest
    · rw [List.append_assoc, List.append_assoc, List.cons_append] at here
      have called := strtok_word delim start here (skips leads) pass nonempty
        (.inr (List.mem_singleton_self d))
      rw [if_pos nonzero] at called
      obtain ⟨before, after⟩ := drop_set_behind (drop_of_drop here)
      refine ⟨_, _, _, called, ?_, .inr ⟨_, rfl, ?_⟩⟩
      · rw [before]
        exact holds_append freeWord _
      · rw [after]
        refine holds_append (fun zero => free ?_) rest
        exact List.mem_append_right _ (List.mem_append_right _ (List.mem_cons_of_mem _ zero))

/-- When nothing is left, `strtok` returns null. -/
theorem strtok_left {buffer t : List UInt8} {i : Option Nat} {d : UInt8} (nonzero : d ≠ 0)
    (left : Left buffer i t)
    : match cutWord d t with
      | none => strtok buffer i none [d, 0] = some (none, none, buffer)
      | some (word, behind) => ∃ q i' buffer', strtok buffer i none [d, 0] = some (some q, i', buffer')
          ∧ Holds (buffer'.drop q) word ∧ Left buffer' i' behind := by
  rcases left with ⟨rfl, rfl⟩ | ⟨p, rfl, held⟩
  · rfl
  · exact strtok_next nonzero rfl held

end Hydrangea
