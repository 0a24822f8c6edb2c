import Hydrangea.Libc.Comparisons

/-! `strstr` of `libc/string/string.c` and of `libk/string.c`. -/

namespace Hydrangea

namespace Libc

open CString

def strlen : (s : List UInt8) → Option Nat
  | [] => none
  | c :: s => if c = 0 then some 0 else (strlen s).map (· + 1)

/-- The loop of `strstr` from its round `i` on. -/
def strstrFrom (s1 s2 : List UInt8) (n2 : Nat) : (rounds i : Nat) → Option (Option Nat)
  | 0, _ => some none
  | rounds + 1, i => do
      let differs ← memcmp (s1.drop i) s2 n2
      if differs = 0 then some (some i) else strstrFrom s1 s2 n2 rounds (i + 1)

/-- `strstr`: the position of the string, or null. -/
def strstr (s1 s2 : List UInt8) : Option (Option Nat) := do
  let n1 ← strlen s1
  let n2 ← strlen s2
  if n1 < n2 then some none else strstrFrom s1 s2 n2 ((n1 - n2 + 1) % 2 ^ 32) 0

/-- Both libraries find the same length, by induction on the string. -/
theorem strlen_eq (s : List UInt8) : strlen s = Hydrangea.strlen s := by
  induction s with
  | nil => rfl
  | cons c s ih => rw [strlen, Hydrangea.strlen, ih]

/-- Both `memcmp` find the same blocks equal, though they order others differently, and look no
further than each other. By induction on the size.
-/
theorem memcmp_equal (p q : List UInt8) (n : Nat)
    : (memcmp p q n).map (fun r => decide (r = 0))
      = (Hydrangea.memcmp p q n).map (fun r => decide (r = 0)) := by
  induction n generalizing p q with
  | zero => cases p <;> cases q <;> rfl
  | succ n ih =>
      cases p with
      | nil => rfl
      | cons c p =>
          cases q with
          | nil => rfl
          | cons d q =>
              by_cases differ : c = d
              · subst differ
                rw [memcmp, Hydrangea.memcmp]
                simp only [lt_irrefl, if_false, UInt8.lt_irrefl]
                exact ih p q
              · rw [memcmp_of_ne differ, kernel_memcmp_of_ne differ, Option.map_some,
                  Option.map_some]
                split <;> split <;> rfl

/-- Both loops of `strstr` find the same, by induction on the rounds. -/
theorem strstrFrom_eq (s1 s2 : List UInt8) (n2 rounds i : Nat)
    : strstrFrom s1 s2 n2 rounds i = Hydrangea.strstrFrom s1 s2 n2 rounds i := by
  induction rounds generalizing i with
  | zero => rfl
  | succ rounds ih =>
      have equal := memcmp_equal (s1.drop i) s2 n2
      rw [strstrFrom, Hydrangea.strstrFrom, ih]
      cases user : memcmp (s1.drop i) s2 n2 with
      | none =>
          rw [user, Option.map_none, eq_comm, Option.map_eq_none_iff] at equal
          rw [equal]
      | some r =>
          rw [user, Option.map_some, eq_comm, Option.map_eq_some_iff] at equal
          obtain ⟨r', kernel, same⟩ := equal
          rw [kernel, Option.bind_eq_bind, Option.bind_some, Option.bind_some]
          simp only [decide_eq_decide.mp same]

/-- Both libraries find the same, whatever the buffers hold. -/
theorem strstr_eq : strstr = Hydrangea.strstr := by
  funext s1 s2
  simp only [strstr, Hydrangea.strstr, strlen_eq, strstrFrom_eq]

/-- Both `strstr` find the first place where the second string is in the first one, or return null
if it is nowhere, and a buffer that ends with the zero of the first string is enough for that. The
size of a string with its zero is a `size_t`. Both search from each position on, and a comparison
that meets the zero of the first string ends the search, so nothing behind it is read.
-/
theorem strstr_finds {s1 s2 s t : List UInt8} (held : Holds s1 s) (held' : Holds s2 t)
    (sized : s.length + 1 < 2 ^ 32)
    : ∃ found, FirstOccurrence t s found
      ∧ Hydrangea.strstr s1 s2 = some found ∧ strstr s1 s2 = some found
      ∧ Hydrangea.strstr (s1.take (s.length + 1)) s2 = some found
      ∧ strstr (s1.take (s.length + 1)) s2 = some found := by
  obtain ⟨found, search, first⟩ := Hydrangea.strstr_eq held held' sized
  have cut : Holds (s1.take (s.length + 1)) s := held.take (Nat.lt_succ_self _)
  obtain ⟨found', search', first'⟩ := Hydrangea.strstr_eq cut held' sized
  rw [strstr_eq]
  obtain rfl := first'.unique first
  exact ⟨found', first, search, search, search', search'⟩

/-- A string that is found behind another place where it only begins. -/
theorem strstr_finds_second
    : ∃ found, FirstOccurrence [97, 98] [97, 97, 98] found
      ∧ Hydrangea.strstr [97, 97, 98, 0, 7] [97, 98, 0] = some found
      ∧ strstr [97, 97, 98, 0, 7] [97, 98, 0] = some found
      ∧ Hydrangea.strstr [97, 97, 98, 0] [97, 98, 0] = some found
      ∧ strstr [97, 97, 98, 0] [97, 98, 0] = some found :=
  strstr_finds (show Holds [97, 97, 98, 0, 7] [97, 97, 98] by decide) (by decide) (by decide)

end Libc

end Hydrangea
