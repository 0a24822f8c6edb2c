import Hydrangea.Libk.String

/-! The functions of `libc/string/string.c`, the C library of user programs, that compare strings
and cut them up. `none` is an access behind the end of a buffer.
-/

namespace Hydrangea

namespace Libc

open CString

def memcmp : (s1 s2 : List UInt8) → (n : Nat) → Option Int
  | _, _, 0 => some 0
  | p1 :: s1, p2 :: s2, n + 1 =>
      if charValue p1 < charValue p2 then
        some (-1)
      else if charValue p1 > charValue p2 then
        some 1
      else
        memcmp s1 s2 n
  | _, _, _ + 1 => none

def strcmp : (s1 s2 : List UInt8) → Option Int
  | c1 :: s1, c2 :: s2 =>
      if c1 = c2 then
        if c2 = 0 then some 0 else strcmp s1 s2
      else
        some 1
  | _, _ => none

/-- `strncmp`, which does not look at the second string when the first one has ended. -/
def strncmp : (s1 s2 : List UInt8) → (n : Nat) → Option Int
  | _, _, 0 => some 0
  | [], _, _ + 1 => none
  | c1 :: s1, s2, n + 1 =>
      if c1 = 0 then
        some 0
      else match s2 with
        | [] => none
        | c2 :: s2 =>
            if c2 = 0 then some 0
            else if c1 ≠ c2 then some 1
            else strncmp s1 s2 n

/-- `strchr`: the string from the first such character on, or null. -/
def strchr : (s : List UInt8) → (c : Int) → Option (Option (List UInt8))
  | [], _ => none
  | b :: s, c =>
      if charValue b ≠ c then
        if b = 0 then some none else strchr s c
      else
        some (some (b :: s))

def strcspn (s2 : List UInt8) : (s1 : List UInt8) → Option Nat
  | [] => none
  | c :: s1 =>
      if c ≠ 0 then do
        let found ← strchr s2 (charValue c)
        if found.isSome then some 0 else (strcspn s2 s1).map (· + 1)
      else
        some 0

def strspn (s2 : List UInt8) : (s1 : List UInt8) → Option Nat
  | [] => none
  | c :: s1 =>
      if c ≠ 0 then do
        let found ← strchr s2 (charValue c)
        if found.isSome then (strspn s2 s1).map (· + 1) else some 0
      else
        some 0

/-- `strtok` on a buffer: the token, the static `i` and the buffer afterwards. Both pointers
are positions in the buffer, or null.
-/
def strtok (buffer : List UInt8) (i s1 : Option Nat) (s2 : List UInt8)
    : Option (Option Nat × Option Nat × List UInt8) :=
  match s1.or i with
  | none => some (none, none, buffer)
  | some i => do
      let skipped ← strspn s2 (buffer.drop i)
      let s1 := i + skipped
      let len ← strcspn s2 (buffer.drop s1)
      let i := s1 + len
      if i = s1 then
        return (none, none, buffer)
      else
        let c ← buffer[i]?
        if c ≠ 0 then
          return (some s1, some (i + 1), buffer.set i 0)
        else
          return (some s1, none, buffer)

/-- Both libraries find the same characters, by induction on the string. -/
theorem strchr_eq (s : List UInt8) (c : UInt8)
    : strchr s (charValue c) = Hydrangea.strchr s c := by
  induction s with
  | nil => rfl
  | cons b s ih =>
      rw [strchr, Hydrangea.strchr, ih]
      simp only [ne_eq, charValue_inj]

/-- Both libraries skip the same delimiters, by induction on the string. -/
theorem strspn_eq (s2 s1 : List UInt8) : strspn s2 s1 = Hydrangea.strspn s2 s1 := by
  induction s1 with
  | nil => rfl
  | cons c s1 ih => rw [strspn, Hydrangea.strspn, strchr_eq, ih]

/-- Both libraries pass over the same characters, by induction on the string. -/
theorem strcspn_eq (s2 s1 : List UInt8) : strcspn s2 s1 = Hydrangea.strcspn s2 s1 := by
  induction s1 with
  | nil => rfl
  | cons c s1 ih => rw [strcspn, Hydrangea.strcspn, strchr_eq, ih]

/-- Both libraries cut the same tokens off. -/
theorem strtok_eq : strtok = Hydrangea.strtok := by
  funext buffer i s1 s2
  cases start : s1.or i with
  | none => simp only [strtok, Hydrangea.strtok, start]
  | some s => simp only [strtok, Hydrangea.strtok, start, strspn_eq, strcspn_eq]

end Libc

end Hydrangea
