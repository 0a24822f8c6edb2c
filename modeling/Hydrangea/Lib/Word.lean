import Mathlib.Data.Nat.Bitwise
import Mathlib.Tactic

/-! Words that hold an aligned address in their high bits and flags in their low bits.
A word is a natural number; the mask of the high bits from bit `k` to bit `w` is
`(2 ^ (w - k) - 1) <<< k`.
-/

namespace Word

/-- The mask of the bits from `k` up to `w`. -/
def highMask (k w : Nat) : Nat :=
  (2 ^ (w - k) - 1) <<< k

theorem testBit_highMask {k w : Nat} (small : k ≤ w) (i : Nat)
    : (highMask k w).testBit i = (decide (k ≤ i) && decide (i < w)) := by
  have inside : k ≤ i → (i - k < w - k ↔ i < w) := by omega
  simp only [highMask, Nat.testBit_shiftLeft, Nat.testBit_two_pow_sub_one]
  by_cases high : k ≤ i <;> simp [high, inside]

/-- A number below `2 ^ k` has no bit from `k` on. -/
theorem testBit_of_lt {x k i : Nat} (small : x < 2 ^ k) (high : k ≤ i) : x.testBit i = false :=
  Nat.testBit_lt_two_pow (Nat.lt_of_lt_of_le small (Nat.pow_le_pow_right (by decide) high))

/-- A multiple of `2 ^ k` has no bit below `k`. -/
theorem testBit_of_dvd {x k i : Nat} (aligned : x % 2 ^ k = 0) (low : i < k)
    : x.testBit i = false := by
  have part := Nat.testBit_mod_two_pow x k i
  rw [aligned] at part
  simpa [low] using part.symm

/-- Masking the high bits drops flags in the low bits. -/
theorem or_and_highMask {k w : Nat} (small : k ≤ w) (x : Nat) {flags : Nat}
    (low : flags < 2 ^ k)
    : (x ||| flags) &&& highMask k w = x &&& highMask k w := by
  refine Nat.eq_of_testBit_eq (fun i => ?_)
  simp only [Nat.testBit_and, Nat.testBit_or, testBit_highMask small]
  by_cases high : k ≤ i
  · simp [testBit_of_lt low high]
  · simp [high]

/-- Masking the high bits keeps an aligned address. -/
theorem and_highMask_of_aligned {k w : Nat} (small : k ≤ w) {x : Nat} (aligned : x % 2 ^ k = 0)
    (inWord : x < 2 ^ w)
    : x &&& highMask k w = x := by
  refine Nat.eq_of_testBit_eq (fun i => ?_)
  simp only [Nat.testBit_and, testBit_highMask small]
  by_cases high : k ≤ i
  · by_cases inside : i < w
    · simp [high, inside]
    · simp [testBit_of_lt inWord (Nat.le_of_not_lt inside)]
  · simp [testBit_of_dvd aligned (Nat.lt_of_not_le high)]

theorem and_highMask_aligned {k w : Nat} (small : k ≤ w) (x : Nat)
    : (x &&& highMask k w) % 2 ^ k = 0 ∧ x &&& highMask k w < 2 ^ w := by
  constructor
  · refine Nat.eq_of_testBit_eq (fun i => ?_)
    simp only [Nat.testBit_mod_two_pow, Nat.testBit_and, testBit_highMask small,
      Nat.zero_testBit]
    by_cases low : i < k
    · simp [Nat.not_le.mpr low]
    · simp [low]
  · refine Nat.lt_of_le_of_lt Nat.and_le_right ?_
    refine Nat.lt_pow_two_of_testBit _ (fun i high => ?_)
    simp [testBit_highMask small, Nat.not_lt.mpr high]

/-- Flags that were or'ed in are there. -/
theorem or_and_self (x flags : Nat) : (x ||| flags) &&& flags = flags := by
  refine Nat.eq_of_testBit_eq (fun i => ?_)
  simp only [Nat.testBit_and, Nat.testBit_or]
  cases x.testBit i <;> cases flags.testBit i <;> rfl

end Word
