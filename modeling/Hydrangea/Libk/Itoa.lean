import Hydrangea.Libk.String

/-! Numbers as text: `itoa` and `atoi` of `libk/string.c`. An `int` has 32 bits, and so has the
`unsigned long` that takes the remainder. `none` is an access behind the end of a buffer.
-/

namespace Hydrangea

open CString

/-- The bases that `itoa` is called with, which have more than one digit. -/
structure Base where
  toNat : Nat
  big : 2 ≤ toNat

/-- A quotient that is not zero is smaller than the number. -/
theorem natAbs_tdiv_lt (base : Base) {value : Int} (more : value.tdiv base.toNat ≠ 0)
    : (value.tdiv base.toNat).natAbs < value.natAbs := by
  have nonzero : value ≠ 0 := by
    rintro rfl
    exact more (Int.zero_tdiv _)
  rw [Int.natAbs_tdiv, Int.natAbs_natCast]
  exact Nat.div_lt_self (Int.natAbs_pos.mpr nonzero) base.big

/-- The character for a remainder, as the `char` that is stored. -/
def digit (tmp : Nat) : UInt8 :=
  if tmp < 10 then UInt8.ofNat (tmp + 48) else UInt8.ofNat (tmp + 97 - 10)

def storeChar (result : List UInt8) (i : Nat) (c : UInt8) : Option (List UInt8) :=
  if i < result.length then some (result.set i c) else none

/-- The first loop of `itoa`: the buffer and `i` after it. -/
def itoaDigits (base : Base) (value : Int) (result : List UInt8) (i : Nat)
    : Option (List UInt8 × Nat) :=
  let tmp := (value.tmod base.toNat % 2 ^ 32).toNat
  (storeChar result i (digit tmp)).bind (fun result =>
    if value.tdiv base.toNat ≠ 0 then
      itoaDigits base (value.tdiv base.toNat) result (i + 1)
    else
      some (result, i + 1))
termination_by value.natAbs
decreasing_by
  exact natAbs_tdiv_lt base ‹_›

/-- The second loop of `itoa`, which swaps the characters between `j` and `i`. -/
def swapEnds (result : List UInt8) (j i : Nat) : Option (List UInt8) :=
  if j < i then do
    let tmp ← result[j]?
    let last ← result[i]?
    let result ← storeChar result j last
    let result ← storeChar result i tmp
    swapEnds result (j + 1) (i - 1)
  else
    some result
termination_by i - j

/-- `itoa`: the buffer afterwards. -/
def itoa (value : Int) (result : List UInt8) (base : Base) : Option (List UInt8) := do
  let (result, i) ← itoaDigits base value result 0
  let result ← storeChar result i 0
  swapEnds result 0 (i - 1)

def skipBlanks : (str : List UInt8) → List UInt8
  | [] => []
  | c :: str => if c = 32 then skipBlanks str else c :: str

/-- The loop of `atoi`, with `result` so far. -/
def atoiDigits : (str : List UInt8) → (result : Int) → Option Int
  | [], _ => none
  | c :: str, result =>
      let n := (charValue c - 48) % 2 ^ 16
      if n > 9 then some result else atoiDigits str (Int.bmod (10 * result + n) (2 ^ 32))

def atoi (str : List UInt8) : Option Int :=
  match skipBlanks str with
  | [] => none
  | c :: str =>
      if c = 45 then
        (atoiDigits str 0).map (fun result => Int.bmod (-result) (2 ^ 32))
      else if c = 43 then
        atoiDigits str 0
      else
        atoiDigits (c :: str) 0

/-- The characters that `itoa` finds, the last one first. -/
def digitsFrom (base : Base) (value : Int) : List UInt8 :=
  digit (value.tmod base.toNat % 2 ^ 32).toNat
    :: if value.tdiv base.toNat ≠ 0 then digitsFrom base (value.tdiv base.toNat) else []
termination_by value.natAbs
decreasing_by
  exact natAbs_tdiv_lt base ‹_›

variable {base : Base} {value : Int} {result : List UInt8} {i j : Nat}

/-- The number of characters, by induction on the quotients. -/
theorem length_digitsFrom {k : Nat} (positive : 0 < k) (small : value.natAbs < base.toNat ^ k)
    : (digitsFrom base value).length ≤ k := by
  fun_induction digitsFrom base value generalizing k with
  | case1 value ih =>
      obtain ⟨k, rfl⟩ := Nat.exists_eq_succ_of_ne_zero (Nat.pos_iff_ne_zero.mp positive)
      rw [List.length_cons]
      split
      · next more =>
          have quotient : value.natAbs / base.toNat < base.toNat ^ k := by
            rw [Nat.pow_succ] at small
            exact Nat.div_lt_of_lt_mul (Nat.mul_comm _ _ ▸ small)
          have same : (value.tdiv base.toNat).natAbs = value.natAbs / base.toNat := by
            rw [Int.natAbs_tdiv, Int.natAbs_natCast]
            rfl
          rw [← same] at quotient
          have positive' : 0 < k := by
            rcases Nat.eq_zero_or_pos k with rfl | positive'
            · rw [Nat.pow_zero, Nat.lt_one_iff, Int.natAbs_eq_zero] at quotient
              exact absurd quotient more
            · exact positive'
          exact Nat.succ_le_succ (ih more positive' quotient)
      · exact Nat.succ_le_succ (Nat.zero_le _)

/-- The first loop stores the characters, by induction on the quotients. -/
theorem itoaDigits_eq (room : i + (digitsFrom base value).length ≤ result.length)
    : itoaDigits base value result i
      = some (result.take i ++ digitsFrom base value
          ++ result.drop (i + (digitsFrom base value).length),
        i + (digitsFrom base value).length) := by
  fun_induction digitsFrom base value generalizing result i with
  | case1 value ih =>
      rw [List.length_cons] at room
      have here : i < result.length := by omega
      have front (c : UInt8) : (result.set i c).take (i + 1) = result.take i ++ [c] := by
        rw [List.set_eq_take_append_cons_drop, if_pos here, List.take_append, List.length_take,
          List.take_of_length_le (by rw [List.length_take]; omega)]
        rw [show i + 1 - min i result.length = 1 by omega, List.take_succ_cons, List.take_zero]
      have behind (c : UInt8) (m : Nat) : (result.set i c).drop (i + 1 + m)
          = result.drop (i + 1 + m) := List.drop_set_of_lt (by omega)
      rw [itoaDigits, storeChar, if_pos here, Option.bind_some]
      by_cases more : value.tdiv base.toNat ≠ 0
      · simp only [if_pos more] at room ⊢
        rw [ih more (by rw [List.length_set]; omega), front, behind, List.length_cons,
          Nat.add_assoc i 1, Nat.add_comm 1]
        simp only [List.append_assoc, List.cons_append, List.nil_append]
      · simp only [if_neg more]
        have last := List.take_append_drop (i + 1)
          (result.set i (digit (value.tmod base.toNat % 2 ^ 32).toNat))
        rw [front, ← Nat.add_zero (i + 1), behind] at last
        rw [← last]
        rfl

/-- The second loop reverses the characters, by induction on the ones left. -/
theorem swapEnds_eq (inside : i < result.length)
    : ∃ result', swapEnds result j i = some result'
      ∧ ∀ k, result'[k]? = if j ≤ k ∧ k ≤ i then result[j + i - k]? else result[k]? := by
  fun_induction swapEnds result j i with
  | case1 result j i more ih =>
      have before : j < result.length := by omega
      have other : i < (result.set j result[i]).length := by simpa using inside
      rw [List.getElem?_eq_getElem before, List.getElem?_eq_getElem inside]
      simp only [Option.bind_eq_bind, Option.bind_some, storeChar, if_pos before, if_pos other]
      obtain ⟨result', swapped, chars⟩ := ih ((result.set j result[i]).set i result[j]) (by simp; omega)
      refine ⟨result', swapped, fun k => ?_⟩
      have apart (m : Nat) (notFirst : m ≠ j) (notLast : m ≠ i)
          : ((result.set j result[i]).set i result[j])[m]? = result[m]? := by
        rw [List.getElem?_set_ne (Ne.symm notLast), List.getElem?_set_ne (Ne.symm notFirst)]
      rw [chars]
      rcases eq_or_ne k j with rfl | notFirst
      · rw [if_neg (by omega), if_pos (by omega), List.getElem?_set_ne (by omega),
          List.getElem?_set_self before, Nat.add_sub_cancel_left, List.getElem?_eq_getElem inside]
      · rcases eq_or_ne k i with rfl | notLast
        · rw [if_neg (by omega), if_pos (by omega), List.getElem?_set_self other,
            Nat.add_sub_cancel, List.getElem?_eq_getElem before]
        · by_cases between : j ≤ k ∧ k ≤ i
          · rw [if_pos (by omega), if_pos between, apart _ (by omega) (by omega)]
            congr 1
            omega
          · rw [if_neg (by omega), if_neg between, apart _ notFirst notLast]
  | case2 result j i ends =>
      refine ⟨result, rfl, fun k => ?_⟩
      split
      · congr 1
        omega
      · rfl

/-- `itoa` stores its characters in front of a zero. -/
theorem itoa_eq (room : (digitsFrom base value).length < result.length)
    : itoa value result base
      = some ((digitsFrom base value).reverse
          ++ 0 :: result.drop ((digitsFrom base value).length + 1)) := by
  have nonempty : 0 < (digitsFrom base value).length := by
    rw [digitsFrom]
    exact Nat.succ_pos _
  have start : 0 + (digitsFrom base value).length ≤ result.length := by omega
  have digits := itoaDigits_eq start
  rw [List.take_zero, List.nil_append, Nat.zero_add] at digits
  generalize digitsFrom base value = ds at room nonempty digits
  have ended : storeChar (ds ++ result.drop ds.length) ds.length 0
      = some (ds ++ 0 :: result.drop (ds.length + 1)) := by
    rw [storeChar, if_pos (by simp; omega), List.set_append_right _ _ (le_refl _), Nat.sub_self,
      ← List.cons_getElem_drop_succ (h := room), List.set_cons_zero]
  rw [itoa, digits, Option.bind_eq_bind, Option.bind_some]
  dsimp only
  rw [ended]
  have inside : ds.length - 1 < (ds ++ 0 :: result.drop (ds.length + 1)).length := by
    rw [List.length_append, List.length_cons]
    omega
  obtain ⟨result', swapped, chars⟩ := swapEnds_eq (j := 0) inside
  refine swapped.trans ?_
  refine congrArg some (List.ext_getElem? (fun k => ?_))
  rw [chars]
  by_cases inside : k < ds.length
  · rw [if_pos (by omega), List.getElem?_append_left (by omega),
      List.getElem?_append_left (by simpa using inside), List.getElem?_reverse inside]
    congr 1
    omega
  · rw [if_neg (by omega), List.getElem?_append_right (by omega),
      List.getElem?_append_right (by simpa using inside), List.length_reverse]

-----------------------------------------------------------------------------------------
-- Decimal numbers
-----------------------------------------------------------------------------------------

def ten : Base :=
  ⟨10, by decide⟩

def charByte (c : Char) : UInt8 :=
  UInt8.ofNat c.toNat

def decimal (n : Int) : List UInt8 :=
  n.repr.toList.map charByte

/-- The characters of a natural number are its digits, by induction on the quotients. -/
theorem reverse_digitsFrom (small : base.toNat ≤ 16) (n : Nat)
    : (digitsFrom base n).reverse = (Nat.toDigits base.toNat n).map charByte := by
  have big := base.big
  induction n using Nat.strong_induction_on with
  | _ n ih =>
      have remainder : ((n : Int).tmod base.toNat % 2 ^ 32).toNat = n % base.toNat := by
        rw [← Int.ofNat_tmod]
        have below := Nat.mod_lt n (show 0 < base.toNat by omega)
        omega
      have char : ∀ k < 16, digit k = charByte (Nat.digitChar k) := by decide
      have last := char (n % base.toNat) (Nat.lt_of_lt_of_le (Nat.mod_lt n (by omega)) small)
      rw [digitsFrom, remainder, last, ← Int.ofNat_tdiv, Nat.toDigits_eq_if (by omega)]
      by_cases below : n < base.toNat
      · rw [if_pos below, Nat.div_eq_of_lt below, Nat.mod_eq_of_lt below]
        rfl
      · have positive : n / base.toNat ≠ 0 :=
          Nat.pos_iff_ne_zero.mp (Nat.div_pos (Nat.not_lt.mp below) (by omega))
        rw [if_neg below, if_pos (by exact_mod_cast positive), List.reverse_cons,
          ih _ (Nat.div_lt_self (by omega) big), List.map_append]
        rfl

/-- The characters are neither zeros nor minus signs, by induction on the quotients. -/
theorem of_mem_digitsFrom_ten {c : UInt8} (member : c ∈ digitsFrom ten value)
    : c ≠ 0 ∧ c ≠ 45 := by
  have each (r : Int) (low : -10 < r) (high : r < 10)
      : digit (r % 2 ^ 32).toNat ≠ 0 ∧ digit (r % 2 ^ 32).toNat ≠ 45 := by
    interval_cases r <;> decide
  generalize isTen : ten = base at member
  fun_induction digitsFrom base value with
  | case1 value ih =>
      subst isTen
      rcases List.mem_cons.mp member with rfl | later
      · have low := Int.lt_tmod_of_pos value (show (0 : Int) < 10 by decide)
        have high := Int.tmod_lt_of_pos value (show (0 : Int) < 10 by decide)
        exact each _ low high
      · split at later
        · next more => exact ih more later
        · cases later

theorem charByte_of_isDigit {c : Char} (isDigit : c.isDigit)
    : ∃ k < 10, c.toNat = k + 48 ∧ charValue (charByte c) = k + 48 ∧ charByte c ≠ 32
      ∧ charByte c ≠ 45 ∧ charByte c ≠ 43 := by
  have each : ∀ k < 10, charValue (UInt8.ofNat (k + 48)) = k + 48 ∧ UInt8.ofNat (k + 48) ≠ 32
      ∧ UInt8.ofNat (k + 48) ≠ 45 ∧ UInt8.ofNat (k + 48) ≠ 43 := by decide
  have bounds : 48 ≤ c.toNat ∧ c.toNat ≤ 57 := by
    simpa [Char.isDigit, UInt32.le_iff_toNat_le] using isDigit
  obtain ⟨k, same⟩ := Nat.exists_eq_add_of_le' bounds.1
  have small : k < 10 := by omega
  refine ⟨k, small, same, ?_⟩
  rw [charByte, same]
  exact each k small

/-- Further digits make a number no smaller, by induction on them. -/
theorem le_ofDigitChars (cs : List Char) (init : Nat) : init ≤ Nat.ofDigitChars 10 cs init := by
  induction cs generalizing init with
  | nil => exact Nat.ofDigitChars_nil.ge
  | cons c cs ih =>
      rw [Nat.ofDigitChars_cons]
      exact Nat.le_trans (by omega) (ih _)

/-- The loop of `atoi` reads digits, by induction on them. -/
theorem atoiDigits_eq {cs : List Char} (digits : ∀ c ∈ cs, c.isDigit) (rest : List UInt8)
    {n : Nat} (small : Nat.ofDigitChars 10 cs n < 2 ^ 31)
    : atoiDigits (cs.map charByte ++ 0 :: rest) n = some (Nat.ofDigitChars 10 cs n : Int) := by
  induction cs generalizing n with
  | nil =>
      rw [Nat.ofDigitChars_nil]
      rfl
  | cons c cs ih =>
      obtain ⟨isDigit, others⟩ := List.forall_mem_cons.mp digits
      obtain ⟨k, below, code, value, -⟩ := charByte_of_isDigit isDigit
      have step : c.toNat - '0'.toNat = k := by
        rw [code]
        exact Nat.add_sub_cancel k 48
      rw [Nat.ofDigitChars_cons, step] at small ⊢
      have inWord := Nat.lt_of_le_of_lt (le_ofDigitChars cs _) small
      have digitOf : (charValue (charByte c) - 48) % 2 ^ 16 = k := by
        rw [value]
        omega
      have noWrap : Int.bmod (10 * n + k) (2 ^ 32) = (10 * n + k : Nat) := by
        rw [Int.bmod_eq_of_le] <;> omega
      rw [List.map_cons, List.cons_append, atoiDigits, digitOf, if_neg (by omega), noWrap]
      exact ih others small

/-- `atoi` reads the decimal representation of a natural number. -/
theorem atoi_decimal {n : Nat} (small : n < 2 ^ 31) (rest : List UInt8)
    : atoi ((Nat.toDigits 10 n).map charByte ++ 0 :: rest) = some (n : Int) := by
  have digits : ∀ c ∈ Nat.toDigits 10 n, c.isDigit :=
    fun c member => Nat.isDigit_of_mem_toDigits (by decide) (by decide) member
  have read := atoiDigits_eq (n := 0) digits rest
    (by rwa [Nat.ofDigitChars_ten_toDigits])
  rw [Nat.ofDigitChars_ten_toDigits] at read
  obtain ⟨c, cs, split⟩ := List.exists_cons_of_ne_nil (Nat.toDigits_ne_nil (n := n) (b := 10))
  rw [split] at digits read ⊢
  obtain ⟨-, -, -, -, notBlank, notMinus, notPlus⟩ := charByte_of_isDigit (digits c (by simp))
  rw [List.map_cons, List.cons_append] at read ⊢
  rw [atoi, skipBlanks, if_neg notBlank]
  dsimp only
  rw [if_neg notMinus, if_neg notPlus]
  exact read

/-- Skipping blanks stops at a zero at the latest, by induction on the string. -/
theorem zero_mem_skipBlanks {str : List UInt8} (zero : 0 ∈ str) : 0 ∈ skipBlanks str := by
  induction str with
  | nil => cases zero
  | cons c str ih =>
      rw [skipBlanks]
      split
      · next blank =>
          rcases List.mem_cons.mp zero with rfl | later
          · exact absurd blank (by decide)
          · exact ih later
      · exact zero

/-- So does the loop of `atoi`, by induction on the string. -/
theorem atoiDigits_isSome {str : List UInt8} (zero : 0 ∈ str) (result : Int)
    : ∃ n, atoiDigits str result = some n := by
  induction str generalizing result with
  | nil => cases zero
  | cons c str ih =>
      rw [atoiDigits]
      split
      · exact ⟨result, rfl⟩
      · next digit =>
          rcases List.mem_cons.mp zero with rfl | later
          · exact absurd (by decide) digit
          · exact ih later _

/-- `atoi` reads nothing behind a zero. -/
theorem atoi_isSome {str : List UInt8} (zero : 0 ∈ str) : ∃ n, atoi str = some n := by
  have left := zero_mem_skipBlanks zero
  rw [atoi]
  generalize skipBlanks str = str at left ⊢
  cases str with
  | nil => cases left
  | cons c str =>
      have later (sign : c = 45 ∨ c = 43) : 0 ∈ str := by
        rcases List.mem_cons.mp left with rfl | later
        · exact absurd sign (by decide)
        · exact later
      dsimp only
      split
      · next minus =>
          obtain ⟨n, read⟩ := atoiDigits_isSome (later (.inl minus)) 0
          rw [read]
          exact ⟨_, rfl⟩
      · split
        · next plus => exact atoiDigits_isSome (later (.inr plus)) 0
        · exact atoiDigits_isSome left 0

/-- `itoa` writes a number, and `atoi` reads it back. -/
structure RoundTrips (n : Int) (buf : List UInt8) (buf' : List UInt8) : Prop where
  written : itoa n buf ten = some buf'
  holds : Holds buf' (decimal n)
  read : atoi buf' = some n
  digits : ∀ c ∈ (if n < 0 then (decimal n).tail else decimal n), 48 ≤ c ∧ c ≤ 57

/-- The representation of a natural number is its digits. -/
theorem decimal_natCast (n : Nat) : decimal n = (Nat.toDigits 10 n).map charByte := by
  rw [decimal, Int.repr_eq_if, if_pos (Int.natCast_nonneg n), Int.toNat_natCast, Nat.toList_repr]

/-- The representation of a negative number begins with a minus sign. -/
theorem decimal_of_neg {n : Int} (negative : n < 0) : ∃ cs, decimal n = 45 :: cs := by
  rw [decimal, Int.repr_eq_if, if_neg (by omega), String.toList_append, List.map_append]
  exact ⟨_, rfl⟩

theorem length_digitsFrom_ten {n : Int} (int : -2 ^ 31 ≤ n ∧ n < 2 ^ 31)
    : (digitsFrom ten n).length ≤ 10 := by
  refine length_digitsFrom (by decide) ?_
  show n.natAbs < 10 ^ 10
  omega

theorem not_roundTrips_of_neg {n : Int} (int : -2 ^ 31 ≤ n ∧ n < 2 ^ 31) (negative : n < 0)
    {buf buf' : List UInt8} (room : 12 ≤ buf.length)
    : ¬ RoundTrips n buf buf' := by
  intro h
  have long := length_digitsFrom_ten int
  have fits : (digitsFrom ten n).length < buf.length := by omega
  have written := itoa_eq fits
  have same := Option.some.inj (h.written.symm.trans written)
  obtain ⟨cs, minus⟩ := decimal_of_neg negative
  obtain ⟨-, rest, stored⟩ := h.holds
  rw [minus, same] at stored
  have first : 45 ∈ (digitsFrom ten n).reverse := by
    cases chars : (digitsFrom ten n).reverse with
    | nil =>
        rw [List.reverse_eq_nil_iff, digitsFrom] at chars
        cases chars
    | cons c cs' =>
        rw [chars] at stored
        rw [(List.cons.inj stored).1]
        exact List.mem_cons_self ..
  exact (of_mem_digitsFrom_ten (List.mem_reverse.mp first)).2 rfl

/-- A natural number is written and read back. -/
theorem roundTrips_natCast {n : Nat} (small : n < 2 ^ 31) {buf : List UInt8}
    (room : 12 ≤ buf.length)
    : ∃ buf', RoundTrips n buf buf' := by
  have long := length_digitsFrom_ten (n := n) (by omega)
  have fits : (digitsFrom ten n).length < buf.length := by omega
  have written := itoa_eq fits
  have digits : (digitsFrom ten n).reverse = decimal n := by
    rw [decimal_natCast, reverse_digitsFrom (by decide)]
    rfl
  have nonzero : 0 ∉ decimal n := by
    rw [← digits]
    exact fun zero => (of_mem_digitsFrom_ten (List.mem_reverse.mp zero)).1 rfl
  rw [digits] at written
  refine ⟨_, written, holds_append nonzero _, ?_, fun c member => ?_⟩
  · rw [decimal_natCast]
    exact atoi_decimal small _
  · rw [if_neg (by omega), decimal_natCast] at member
    obtain ⟨d, digit, rfl⟩ := List.mem_map.mp member
    obtain ⟨k, below, code, -⟩ :=
      charByte_of_isDigit (Nat.isDigit_of_mem_toDigits (by decide) (by decide) digit)
    rw [charByte, code]
    have each : ∀ k < 10, 48 ≤ UInt8.ofNat (k + 48) ∧ UInt8.ofNat (k + 48) ≤ 57 := by decide
    exact each k below

/-- An `int` is written and read back if it is not negative, and only then, into any buffer with
room for the longest one. The digits of a negative number are computed from negative remainders,
and these are the codes of other characters.
-/
theorem itoa_roundTrips_iff {n : Int} (int : -2 ^ 31 ≤ n ∧ n < 2 ^ 31) {buf : List UInt8}
    (room : 12 ≤ buf.length)
    : (∃ buf', RoundTrips n buf buf') ↔ 0 ≤ n := by
  constructor
  · rintro ⟨buf', h⟩
    by_contra negative
    exact not_roundTrips_of_neg int (Int.not_le.mp negative) room h
  · intro positive
    lift n to Nat using positive
    exact roundTrips_natCast (by omega) room

/-- A number written to the array of `v_printk`. -/
theorem itoa_roundTrips_iff_largest : ∃ buf', RoundTrips 2147483647 (List.replicate 20 7) buf' :=
  (itoa_roundTrips_iff (by decide) (by decide)).mpr (by decide)

/-- `-1` is written as `V`. -/
theorem itoa_not_roundTrips
    : ¬ ∀ n : Int, -2 ^ 31 ≤ n ∧ n < 2 ^ 31 → ∀ buf : List UInt8, 12 ≤ buf.length
      → ∃ buf', RoundTrips n buf buf' := by
  intro always
  obtain ⟨buf', h⟩ := always (-1) (by decide) (List.replicate 20 0) (by decide)
  exact not_roundTrips_of_neg (by decide) (by decide) (by decide) h

end Hydrangea
