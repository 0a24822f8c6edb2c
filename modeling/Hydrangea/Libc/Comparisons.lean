import Hydrangea.Libc.String

/-! What the comparisons of `libc/string/string.c` tell about the order of strings and buffers. -/

namespace Hydrangea

namespace Libc

open CString

variable {b1 b2 s t p q : List UInt8} {n : Nat}

/-- One part of the strings is a prefix of the other one, and not all of it. -/
def ProperPrefix (s t : List UInt8) : Prop :=
  (s <+: t ∨ t <+: s) ∧ s ≠ t

/-- Where two buffers differ first, both bytes lie below 128, or neither. -/
def SameSide (p q : List UInt8) : Prop :=
  ∀ front c d u v, p = front ++ c :: u → q = front ++ d :: v → c ≠ d → (c < 128 ↔ d < 128)

/-- `strncmp` returns zero when one string ends, or when both agree on `n` characters, by induction
on these.
-/
theorem strncmp_eq (hs : Holds b1 s) (ht : Holds b2 t) (n : Nat)
    : ∃ r, strncmp b1 b2 n = some r ∧ (r = 0 ↔ s.take n <+: t.take n ∨ t.take n <+: s.take n) := by
  induction n generalizing b1 b2 s t with
  | zero => exact ⟨0, by cases b1 <;> cases b2 <;> rfl, by simp⟩
  | succ n ih =>
      cases s with
      | nil =>
          obtain ⟨rest, rfl⟩ := hs.of_nil
          exact ⟨0, rfl, by simp⟩
      | cons c s =>
          obtain ⟨nonzero, behind, rfl, rest⟩ := hs.of_cons
          rw [strncmp.eq_def]
          dsimp only
          rw [if_neg nonzero]
          cases t with
          | nil =>
              obtain ⟨rest', rfl⟩ := ht.of_nil
              exact ⟨0, rfl, by simp⟩
          | cons d t =>
              obtain ⟨nonzero', behind', rfl, rest'⟩ := ht.of_cons
              dsimp only
              rw [if_neg nonzero']
              rcases eq_or_ne c d with rfl | differ
              · obtain ⟨r, compared, zero⟩ := ih rest rest'
                exact ⟨r, by simpa using compared, by simpa using zero⟩
              · exact ⟨1, by simp [differ], by simp [differ, Ne.symm differ]⟩

/-- Both libraries compare whole strings alike, by induction on the first one. -/
theorem strcmp_eq_map (s1 s2 : List UInt8)
    : strcmp s1 s2 = (Hydrangea.strcmp s1 s2).map Int.ofNat := by
  induction s1 generalizing s2 with
  | nil => rfl
  | cons c s1 ih =>
      cases s2 with
      | nil => rfl
      | cons d s2 =>
          rw [strcmp, Hydrangea.strcmp, ih]
          split
          · split <;> rfl
          · rfl

/-- `strcmp` tells whether two strings are equal. -/
theorem strcmp_eq (hs : Holds b1 s) (ht : Holds b2 t)
    : strcmp b1 b2 = some (if s = t then 0 else 1) := by
  rw [strcmp_eq_map, Hydrangea.strcmp_eq hs ht]
  split <;> rfl

/-- The order of two bytes as `char` is the one of their values if they are on one side of 128, and
the other one if not.
-/
theorem charValue_lt_iff {c d : UInt8} (differ : c ≠ d)
    : charValue c < charValue d ↔ ((c < 128 ↔ d < 128) ↔ c < d) := by
  have apart : c.toNat ≠ d.toNat := fun same => differ (UInt8.toNat_inj.mp same)
  have := c.toNat_lt
  have := d.toNat_lt
  rw [charValue_eq, charValue_eq]
  simp only [UInt8.lt_iff_toNat_lt, show (128 : UInt8).toNat = 128 from rfl]
  split <;> split <;> omega

theorem sameSide_cons_self (c : UInt8) : SameSide (c :: p) (c :: q) ↔ SameSide p q := by
  constructor
  · intro h front d e u v splitP splitQ differ
    exact h (c :: front) d e u v (by rw [splitP]; rfl) (by rw [splitQ]; rfl) differ
  · intro h front d e u v splitP splitQ differ
    cases front with
    | nil =>
        obtain ⟨rfl, -⟩ := List.cons.inj splitP
        exact absurd (List.cons.inj splitQ).1 differ
    | cons f front =>
        exact h front d e u v (List.cons.inj splitP).2 (List.cons.inj splitQ).2 differ

/-- Only the first bytes count where they differ. -/
theorem sameSide_cons_of_ne {c d : UInt8} (differ : c ≠ d)
    : SameSide (c :: p) (d :: q) ↔ (c < 128 ↔ d < 128) := by
  constructor
  · exact fun h => h [] c d p q rfl rfl differ
  · intro same front e f u v splitP splitQ _
    cases front with
    | nil =>
        obtain ⟨rfl, -⟩ := List.cons.inj splitP
        obtain ⟨rfl, -⟩ := List.cons.inj splitQ
        exact same
    | cons g front =>
        exact absurd ((List.cons.inj splitP).1.trans (List.cons.inj splitQ).1.symm) differ

/-- The user's `memcmp` looks no further than the first bytes that differ. -/
theorem memcmp_of_ne {c d : UInt8} (differ : c ≠ d) (n : Nat)
    : memcmp (c :: p) (d :: q) (n + 1) = some (if charValue c < charValue d then -1 else 1) := by
  have values : charValue c ≠ charValue d := fun same => differ (charValue_inj.mp same)
  rw [memcmp]
  split
  · rfl
  · rw [if_pos (by omega)]

/-- The kernel's `memcmp` looks no further than the first bytes that differ. -/
theorem kernel_memcmp_of_ne {c d : UInt8} (differ : c ≠ d) (n : Nat)
    : Hydrangea.memcmp (c :: p) (d :: q) (n + 1) = some (if c < d then -1 else 1) := by
  rw [Hydrangea.memcmp]
  split
  · rfl
  · next notLess => rw [if_pos ((UInt8.lt_or_lt_of_ne differ).resolve_left notLess)]

/-- Two results have one sign when they are chosen alike. -/
theorem sign_eq_iff (less less' : Prop) [Decidable less] [Decidable less']
    : (if less then -1 else 1 : Int).sign = (if less' then -1 else 1 : Int).sign
      ↔ (less ↔ less') := by
  by_cases h : less <;> by_cases h' : less' <;> simp [h, h']

/-- The two `memcmp` return numbers of one sign if the first bytes that differ are on one side of
128, by induction on the bytes.
-/
theorem memcmp_sign_iff (same : p.length = q.length)
    : ∃ r r', memcmp p q p.length = some r ∧ Hydrangea.memcmp p q p.length = some r'
        ∧ (r.sign = r'.sign ↔ SameSide p q) := by
  induction p generalizing q with
  | nil =>
      obtain rfl := List.eq_nil_of_length_eq_zero same.symm
      refine ⟨0, 0, rfl, rfl, iff_of_true rfl ?_⟩
      intro front c d u v split
      exact absurd split.symm (List.append_ne_nil_of_right_ne_nil front (List.cons_ne_nil c u))
  | cons c p ih =>
      cases q with
      | nil => cases same
      | cons d q =>
          rw [List.length_cons]
          rcases eq_or_ne c d with rfl | differ
          · obtain ⟨r, r', user, kernel, sign⟩ := ih (Nat.succ.inj same)
            refine ⟨r, r', ?_, ?_, sign.trans (sameSide_cons_self c).symm⟩
            · rw [memcmp, if_neg (lt_irrefl _), if_neg (lt_irrefl _), user]
            · rw [Hydrangea.memcmp, if_neg (UInt8.lt_irrefl c), if_neg (UInt8.lt_irrefl c), kernel]
          · refine ⟨_, _, memcmp_of_ne differ _, kernel_memcmp_of_ne differ _, ?_⟩
            rw [sign_eq_iff, charValue_lt_iff differ, sameSide_cons_of_ne differ]
            by_cases less : c < d <;> simp [less]

/-- `strncmp` returns zero just when two strings agree on `n` characters or on all they have, which
is when `strcmp` does if `n` is larger than both.
-/
def StrncmpAgrees (b1 b2 s t : List UInt8) (n : Nat) : Prop :=
  ∃ r r', strncmp b1 b2 n = some r ∧ strcmp b1 b2 = some r'
    ∧ (r = 0 ↔ s.take n = t.take n) ∧ (s.length < n → t.length < n → (r = 0 ↔ r' = 0))

/-- `strcmp` returns opposite signs for a pair of strings and the pair the other way around. -/
def StrcmpOpposite (b1 b2 : List UInt8) : Prop :=
  ∃ r r', strcmp b1 b2 = some r ∧ strcmp b2 b1 = some r' ∧ r.sign = -r'.sign

/-- Both `memcmp` return the same sign. -/
def MemcmpAgrees (p q : List UInt8) : Prop :=
  ∃ r r', memcmp p q p.length = some r ∧ Hydrangea.memcmp p q p.length = some r'
    ∧ r.sign = r'.sign

/-- When the comparisons of the user's library are consistent: `strncmp` unless what it looks at of
one string is a proper prefix of what it looks at of the other one, `strcmp` for equal strings, and
`memcmp` for buffers whose first bytes that differ are on one side of 128. Each function is first
computed by what it compares: `strncmp` ends at the zero of one string without a look at the other
one, `strcmp` returns 1 for all differences, and the two `memcmp` compare signed and unsigned
bytes.
-/
theorem comparisons_consistent_iff (hs : Holds b1 s) (ht : Holds b2 t) (n : Nat)
    (same : p.length = q.length)
    : (StrncmpAgrees b1 b2 s t n ↔ ¬ ProperPrefix (s.take n) (t.take n))
      ∧ (StrcmpOpposite b1 b2 ↔ s = t)
      ∧ (MemcmpAgrees p q ↔ SameSide p q) := by
  refine ⟨?_, ?_, ?_⟩
  · obtain ⟨r, compared, zero⟩ := strncmp_eq hs ht n
    have whole := strcmp_eq hs ht
    rw [StrncmpAgrees, compared, whole]
    constructor
    · rintro ⟨_, _, first, -, agree, -⟩ ⟨prefixes, differ⟩
      obtain rfl := Option.some.inj first
      exact differ (agree.mp (zero.mpr prefixes))
    · intro notProper
      have agree : r = 0 ↔ s.take n = t.take n := by
        rw [zero]
        constructor
        · intro prefixes
          by_contra differ
          exact notProper ⟨prefixes, differ⟩
        · intro equal
          exact .inl (equal ▸ List.prefix_rfl)
      refine ⟨r, _, rfl, rfl, agree, fun long long' => ?_⟩
      rw [agree, List.take_of_length_le long.le, List.take_of_length_le long'.le]
      split <;> simp_all
  · rw [StrcmpOpposite, strcmp_eq hs ht, strcmp_eq ht hs]
    by_cases equal : s = t
    · rw [if_pos equal, if_pos equal.symm]
      exact iff_of_true ⟨0, 0, rfl, rfl, rfl⟩ equal
    · rw [if_neg equal, if_neg (Ne.symm equal)]
      refine iff_of_false ?_ equal
      rintro ⟨r, r', first, second, sign⟩
      obtain rfl := Option.some.inj first
      obtain rfl := Option.some.inj second
      exact absurd sign (by decide)
  · obtain ⟨r, r', user, kernel, sign⟩ := memcmp_sign_iff same
    rw [MemcmpAgrees, user, kernel, ← sign]
    constructor
    · rintro ⟨_, _, first, second, equal⟩
      obtain rfl := Option.some.inj first
      obtain rfl := Option.some.inj second
      exact equal
    · exact fun equal => ⟨r, r', rfl, rfl, equal⟩

/-- `ab` and `ac` agree on one character. -/
theorem comparisons_consistent_iff_one
    : StrncmpAgrees [97, 98, 0] [97, 99, 0] [97, 98] [97, 99] 1 :=
  (comparisons_consistent_iff (p := []) (q := []) (by decide) (by decide) 1 rfl).1.mpr
    (fun proper => proper.2 rfl)

/-- `a` and `ab` are neither told apart by `strncmp` nor ordered by `strcmp`, and the bytes 128 and
127 are ordered the other way around by `memcmp`.
-/
theorem comparisons_not_consistent
    : ¬ (∀ b1 b2 s t n, Holds b1 s → Holds b2 t → StrncmpAgrees b1 b2 s t n)
      ∧ ¬ (∀ b1 b2 s t, Holds b1 s → Holds b2 t → StrcmpOpposite b1 b2)
      ∧ ¬ (∀ p q : List UInt8, p.length = q.length → MemcmpAgrees p q) := by
  refine ⟨fun always => ?_, fun always => ?_, fun always => ?_⟩
  · obtain ⟨r, r', compared, -, agree, -⟩ :=
      always [97, 0] [97, 98, 0] [97] [97, 98] 2 (by decide) (by decide)
    obtain rfl : 0 = r := Option.some.inj compared
    exact absurd (agree.mp rfl) (by decide)
  · obtain ⟨r, r', first, second, sign⟩ :=
      always [97, 0] [97, 98, 0] [97] [97, 98] (by decide) (by decide)
    obtain rfl : 1 = r := Option.some.inj first
    obtain rfl : 1 = r' := Option.some.inj second
    exact absurd sign (by decide)
  · obtain ⟨r, r', user, kernel, sign⟩ := always [128] [127] rfl
    obtain rfl : -1 = r := Option.some.inj user
    obtain rfl : 1 = r' := Option.some.inj kernel
    exact absurd sign (by decide)

end Libc

end Hydrangea
