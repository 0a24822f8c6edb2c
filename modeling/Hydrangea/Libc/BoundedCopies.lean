import Hydrangea.Libc.String

/-! The bytes that `strncpy` and `strncat` of `libc/string/string.c` store, by their distance from
the destination. A `size_t` has 32 bits. `none` is an access behind the end of a string.
-/

namespace Hydrangea

namespace Libc

open CString

/-- `--n`. -/
def dec (n : Nat) : Nat :=
  (n + (2 ^ 32 - 1)) % 2 ^ 32

/-- The inner loop of `strncpy`, after its first `--n`. -/
def padding : (n d : Nat) → List (Nat × UInt8)
  | 0, _ => []
  | n + 1, d => (d, 0) :: padding n (d + 1)

/-- The outer loop of `strncpy`. -/
def strncpyFrom : (s : List UInt8) → (n d : Nat) → Option (List (Nat × UInt8))
  | [], _, _ => none
  | c :: s, n, d =>
      if c = 0 then
        some ((d, c) :: padding (dec n) (d + 1))
      else if dec n ≠ 0 then
        (strncpyFrom s (dec n) (d + 1)).map ((d, c) :: ·)
      else
        some [(d, c)]

/-- `strncpy`: its stores. -/
def strncpy (s2 : List UInt8) (n : Nat) : Option (List (Nat × UInt8)) :=
  strncpyFrom s2 n 0

/-- The first loop of `strncat`. -/
def findEnd : (d : List UInt8) → Option Nat
  | [] => none
  | c :: d => if c ≠ 0 then (findEnd d).map (· + 1) else some 0

/-- The second loop of `strncat`: its stores, and the `d` after it. -/
def strncatFrom : (s : List UInt8) → (n d : Nat) → Option (List (Nat × UInt8) × Nat)
  | [], _, _ => none
  | c :: s, n, d =>
      if c = 0 then
        some ([(d, c)], d)
      else if dec n ≠ 0 then
        (strncatFrom s (dec n) (d + 1)).map (fun r => ((d, c) :: r.1, r.2))
      else
        some ([(d, c)], d + 1)

/-- `strncat`: its stores. -/
def strncat (s1 s2 : List UInt8) (n : Nat) : Option (List (Nat × UInt8)) := do
  let d ← findEnd s1
  let (stores, d) ← strncatFrom s2 n d
  return stores ++ [(d, 0)]

def storeAll (m : Nat → UInt8) (stores : List (Nat × UInt8)) : Nat → UInt8 :=
  stores.foldl (fun m store => Function.update m store.1 store.2) m

def Touches (stores : List (Nat × UInt8)) (d : Nat) : Prop :=
  d ∈ stores.map Prod.fst

variable {b1 b2 s t : List UInt8} {n d : Nat}

/-- `strncpy` stores to the first `n` bytes of the destination, and leaves the first `n` characters
of the string there, with zeros behind its end.
-/
structure StrncpyExact (b2 s : List UInt8) (n : Nat) (stores : List (Nat × UInt8)) : Prop where
  stored : strncpy b2 n = some stores
  touches : ∀ d, Touches stores d ↔ d < n
  bytes : ∀ m d, d < n → storeAll m stores d = s.getD d 0

/-- `strncat` stores to as many bytes as it takes characters, and one more, from the end of the
destination on, and leaves at most `n` characters of the string and a zero there.
-/
structure StrncatExact (b1 b2 t s : List UInt8) (n : Nat) (stores : List (Nat × UInt8)) : Prop where
  stored : strncat b1 b2 n = some stores
  touches : ∀ d, Touches stores d ↔ t.length ≤ d ∧ d ≤ t.length + min n s.length
  bytes : ∀ m i, i ≤ min n s.length → storeAll m stores (t.length + i) = (s.take n).getD i 0

-----------------------------------------------------------------------------------------
-- Stores to a range
-----------------------------------------------------------------------------------------

/-- Stores to the `k` bytes from `d` on. -/
def rangeStores (f : Nat → UInt8) (d k : Nat) : List (Nat × UInt8) :=
  (List.range k).map (fun i => (d + i, f i))

theorem rangeStores_succ (f : Nat → UInt8) (d k : Nat)
    : rangeStores f d (k + 1) = (d, f 0) :: rangeStores (fun i => f (i + 1)) (d + 1) k := by
  rw [rangeStores, List.range_succ_eq_map, List.map_cons, List.map_map]
  refine congrArg₂ _ rfl (List.map_congr_left (fun i _ => ?_))
  rw [Function.comp_apply, Nat.succ_eq_add_one, Nat.add_assoc, Nat.add_comm 1]

theorem touches_rangeStores (f : Nat → UInt8) (d k x : Nat)
    : Touches (rangeStores f d k) x ↔ d ≤ x ∧ x < d + k := by
  rw [Touches, rangeStores, List.map_map, List.mem_map]
  constructor
  · rintro ⟨i, member, rfl⟩
    rw [List.mem_range] at member
    simp only [Function.comp_apply]
    omega
  · rintro ⟨low, high⟩
    exact ⟨x - d, List.mem_range.mpr (by omega), Nat.add_sub_cancel' low⟩

/-- What stores leave in a range, by induction on its length. -/
theorem storeAll_rangeStores (f : Nat → UInt8) (d k x : Nat) (m : Nat → UInt8)
    : storeAll m (rangeStores f d k) x = if d ≤ x ∧ x < d + k then f (x - d) else m x := by
  induction k generalizing f d m with
  | zero => exact (if_neg (by omega)).symm
  | succ k ih =>
      have first : storeAll m (rangeStores f d (k + 1))
          = storeAll (Function.update m d (f 0)) (rangeStores (fun i => f (i + 1)) (d + 1) k) := by
        rw [rangeStores_succ]
        rfl
      rw [first, ih]
      rcases Nat.lt_trichotomy x d with before | rfl | behind
      · rw [if_neg (by omega), if_neg (by omega), Function.update_of_ne (by omega)]
      · rw [if_neg (by omega), if_pos (by omega), Function.update_self, Nat.sub_self]
      · rw [Function.update_of_ne (by omega), show x - (d + 1) + 1 = x - d by omega]
        exact if_congr (by omega) rfl rfl

-----------------------------------------------------------------------------------------
-- The loops
-----------------------------------------------------------------------------------------

theorem dec_zero : dec 0 ≠ 0 := by
  rw [dec]
  omega

theorem dec_of_pos (positive : 0 < n) (small : n < 2 ^ 32) : dec n = n - 1 := by
  rw [dec]
  omega

/-- The inner loop of `strncpy` stores zeros, by induction on their number. -/
theorem padding_eq (n d : Nat) : padding n d = rangeStores (fun _ => 0) d n := by
  induction n generalizing d with
  | zero => rfl
  | succ n ih => rw [padding, ih, rangeStores_succ]

/-- `strncpy` stores `n` bytes if `n` is positive, by induction on the string. -/
theorem strncpyFrom_eq (held : Holds b2 s) (positive : 0 < n) (small : n < 2 ^ 32)
    : strncpyFrom b2 n d = some (rangeStores (fun i => s.getD i 0) d n) := by
  induction s generalizing b2 n d with
  | nil =>
      obtain ⟨rest, rfl⟩ := held.of_nil
      obtain ⟨n, rfl⟩ := Nat.exists_eq_succ_of_ne_zero (Nat.pos_iff_ne_zero.mp positive)
      rw [strncpyFrom, if_pos rfl, dec_of_pos positive small, padding_eq, rangeStores_succ]
      simp
  | cons c s ih =>
      obtain ⟨nonzero, behind, rfl, rest⟩ := held.of_cons
      obtain ⟨n, rfl⟩ := Nat.exists_eq_succ_of_ne_zero (Nat.pos_iff_ne_zero.mp positive)
      rw [strncpyFrom, if_neg nonzero, dec_of_pos positive small, rangeStores_succ]
      rw [Nat.succ_eq_add_one, Nat.add_sub_cancel]
      split
      · next more =>
          rw [ih rest (by omega) (by omega)]
          rfl
      · next last =>
          obtain rfl := not_not.mp last
          rfl

/-- The first loop of `strncat` finds the end of the destination, by induction on it. -/
theorem findEnd_eq (held : Holds b1 t) : findEnd b1 = some t.length := by
  induction t generalizing b1 with
  | nil =>
      obtain ⟨rest, rfl⟩ := held.of_nil
      rfl
  | cons c t ih =>
      obtain ⟨nonzero, behind, rfl, rest⟩ := held.of_cons
      rw [findEnd, if_pos nonzero, ih rest]
      rfl

/-- The second loop of `strncat` stores at most `n` characters if `n` is positive, and stores a zero
if there are fewer. By induction on the string.
-/
theorem strncatFrom_eq (held : Holds b2 s) (positive : 0 < n) (small : n < 2 ^ 32)
    : strncatFrom b2 n d
      = some (rangeStores (fun i => s.getD i 0) d (min n (s.length + 1)),
        d + min n s.length) := by
  induction s generalizing b2 n d with
  | nil =>
      obtain ⟨rest, rfl⟩ := held.of_nil
      rw [strncatFrom, if_pos rfl, List.length_nil, Nat.min_eq_right positive, Nat.min_zero]
      rfl
  | cons c s ih =>
      obtain ⟨nonzero, behind, rfl, rest⟩ := held.of_cons
      obtain ⟨n, rfl⟩ := Nat.exists_eq_succ_of_ne_zero (Nat.pos_iff_ne_zero.mp positive)
      rw [strncatFrom, if_neg nonzero, dec_of_pos positive small, List.length_cons,
        Nat.succ_eq_add_one, Nat.add_sub_cancel, Nat.add_min_add_right, Nat.add_min_add_right,
        rangeStores_succ]
      split
      · next more =>
          rw [ih rest (by omega) (by omega), Option.map_some, Nat.add_right_comm]
          rfl
      · next last =>
          obtain rfl := not_not.mp last
          rw [Nat.zero_min, Nat.zero_min]
          rfl

theorem touches_cons (d : Nat) (c : UInt8) (stores : List (Nat × UInt8))
    : Touches ((d, c) :: stores) d :=
  List.mem_cons_self ..

/-- `strncpy` stores the first character, whatever `n` is. -/
theorem touches_strncpyFrom {stores : List (Nat × UInt8)}
    (copied : strncpyFrom b2 n d = some stores)
    : Touches stores d := by
  cases b2 with
  | nil => cases copied
  | cons c s =>
      rw [strncpyFrom] at copied
      split at copied
      · obtain rfl := Option.some.inj copied
        exact touches_cons _ _ _
      · split at copied
        · obtain ⟨rest, -, rfl⟩ := Option.map_eq_some_iff.mp copied
          exact touches_cons _ _ _
        · obtain rfl := Option.some.inj copied
          exact touches_cons _ _ _

/-- `strncat` stores the first character, whatever `n` is. -/
theorem touches_strncatFrom {r : List (Nat × UInt8) × Nat} (copied : strncatFrom b2 n d = some r)
    : Touches r.1 d := by
  cases b2 with
  | nil => cases copied
  | cons c s =>
      rw [strncatFrom] at copied
      split at copied
      · obtain rfl := Option.some.inj copied
        exact touches_cons _ _ _
      · split at copied
        · obtain ⟨rest, -, rfl⟩ := Option.map_eq_some_iff.mp copied
          exact touches_cons _ _ _
        · obtain rfl := Option.some.inj copied
          exact touches_cons _ _ _

theorem strncpy_exact_iff (held : Holds b2 s) (small : n < 2 ^ 32)
    : (∃ stores, StrncpyExact b2 s n stores) ↔ n ≠ 0 := by
  constructor
  · rintro ⟨stores, exact'⟩ rfl
    exact Nat.not_lt_zero 0 ((exact'.touches 0).mp (touches_strncpyFrom exact'.stored))
  · intro nonzero
    have copied := strncpyFrom_eq (d := 0) held (Nat.pos_of_ne_zero nonzero) small
    refine ⟨_, copied, fun d => ?_, fun m d inside => ?_⟩
    · rw [touches_rangeStores, Nat.zero_add]
      exact and_iff_right (Nat.zero_le d)
    · rw [storeAll_rangeStores, if_pos (by omega), Nat.sub_zero]

/-- The stores of `strncat`, from those of its second loop. -/
theorem strncat_eq (held : Holds b1 t) (b2 : List UInt8) (n : Nat)
    : strncat b1 b2 n
      = (strncatFrom b2 n t.length).map (fun r => r.1 ++ [(r.2, 0)]) := by
  rw [strncat, findEnd_eq held, Option.bind_eq_bind, Option.bind_some, Option.map_eq_bind]
  rfl

theorem storeAll_append (m : Nat → UInt8) (stores : List (Nat × UInt8)) (d : Nat) (c : UInt8)
    : storeAll m (stores ++ [(d, c)]) = Function.update (storeAll m stores) d c :=
  List.foldl_append

/-- A last byte is stored to. -/
theorem touches_append (stores : List (Nat × UInt8)) (d : Nat) (c : UInt8) (x : Nat)
    : Touches (stores ++ [(d, c)]) x ↔ Touches stores x ∨ x = d := by
  simp [Touches]

/-- `strncat` is exact for a positive `n`, or an empty source, and in no other case. -/
theorem strncat_exact_iff (held : Holds b1 t) (held' : Holds b2 s) (small : n < 2 ^ 32)
    : (∃ stores, StrncatExact b1 b2 t s n stores) ↔ n ≠ 0 ∨ s = [] := by
  constructor
  · rintro ⟨stores, exact'⟩
    by_contra neither
    obtain ⟨zero, nonempty⟩ := not_or.mp neither
    obtain rfl := not_not.mp zero
    obtain ⟨c, s, rfl⟩ := List.exists_cons_of_ne_nil nonempty
    obtain ⟨nonzero, behind, rfl, -⟩ := held'.of_cons
    have stored := exact'.stored
    rw [strncat_eq held, strncatFrom, if_neg nonzero, if_pos dec_zero] at stored
    obtain ⟨_, whole, rfl⟩ := Option.map_eq_some_iff.mp stored
    obtain ⟨rest, copied, rfl⟩ := Option.map_eq_some_iff.mp whole
    -- The second character is stored too.
    have second : Touches (((t.length, c) :: rest.1) ++ [(rest.2, 0)]) (t.length + 1) :=
      (touches_append _ _ _ _).mpr (.inl (List.mem_cons_of_mem _ (touches_strncatFrom copied)))
    have bounds := (exact'.touches (t.length + 1)).mp second
    rw [Nat.zero_min] at bounds
    omega
  · intro either
    rcases Nat.eq_zero_or_pos n with rfl | positive
    · obtain rfl := either.resolve_left (fun nonzero => nonzero rfl)
      obtain ⟨rest, rfl⟩ := held'.of_nil
      refine ⟨[(t.length, 0), (t.length, 0)], ?_, fun d => ?_, fun m i inside => ?_⟩
      · rw [strncat_eq held, strncatFrom, if_pos rfl]
        rfl
      · rw [Nat.zero_min, Nat.add_zero]
        simp [Touches]
        omega
      · obtain rfl : i = 0 := by simpa using inside
        simp [storeAll]
    · have stored := strncat_eq held b2 n
      rw [strncatFrom_eq held' positive small, Option.map_some] at stored
      dsimp only at stored
      refine ⟨_, stored, fun d => ?_, fun m i inside => ?_⟩
      · rw [touches_append, touches_rangeStores]
        omega
      · rw [storeAll_append]
        rcases Nat.eq_or_lt_of_le inside with rfl | before
        · rw [Function.update_self, List.getD_eq_getElem?_getD, List.getElem?_eq_none]
          · rfl
          · rw [List.length_take]
        · rw [Function.update_of_ne (by omega), storeAll_rangeStores, if_pos (by omega),
            Nat.add_sub_cancel_left, List.getD_eq_getElem?_getD, List.getD_eq_getElem?_getD,
            List.getElem?_take_of_lt (by omega)]

/-- Both copy as they should for a positive `n`, and `strncat` also when there is nothing to copy.
Both loops store before they test `n`, so for 0 a byte is stored and the count wraps around.
-/
theorem bounded_copies_exact_iff (held : Holds b1 t) (held' : Holds b2 s) (small : n < 2 ^ 32)
    : ((∃ stores, StrncpyExact b2 s n stores) ↔ n ≠ 0)
      ∧ ((∃ stores, StrncatExact b1 b2 t s n stores) ↔ n ≠ 0 ∨ s = []) :=
  ⟨strncpy_exact_iff held' small, strncat_exact_iff held held' small⟩

/-- Two characters behind one. -/
theorem bounded_copies_exact_iff_two
    : (∃ stores, StrncpyExact [98, 99, 0] [98, 99] 2 stores)
      ∧ ∃ stores, StrncatExact [97, 0] [98, 99, 0] [97] [98, 99] 2 stores := by
  obtain ⟨copy, append⟩ := bounded_copies_exact_iff (show Holds [97, 0] [97] by decide)
    (show Holds [98, 99, 0] [98, 99] by decide) (show 2 < 2 ^ 32 by decide)
  exact ⟨copy.mpr (by decide), append.mpr (by decide)⟩

/-- With `n` zero both store characters. -/
theorem bounded_copies_not_exact
    : ¬ (∀ b2 s n, Holds b2 s → n < 2 ^ 32 → ∃ stores, StrncpyExact b2 s n stores)
      ∧ ¬ ∀ b1 b2 t s n, Holds b1 t → Holds b2 s → n < 2 ^ 32
        → ∃ stores, StrncatExact b1 b2 t s n stores := by
  refine ⟨fun always => ?_, fun always => ?_⟩
  · have copied := always [97, 0] [97] 0 (by decide) (by decide)
    exact (strncpy_exact_iff (by decide) (by decide)).mp copied rfl
  · have copied := always [0] [97, 0] [] [97] 0 (by decide) (by decide) (by decide)
    have either := (strncat_exact_iff (by decide) (by decide) (by decide)).mp copied
    exact absurd either (by decide)

end Libc

end Hydrangea
