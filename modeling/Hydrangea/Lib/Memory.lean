import Mathlib.Tactic

/-! A byte-addressed memory of 4 GiB with little-endian 32-bit words, at any alignment, and a
stack of words in it that grows downwards. Addresses wrap.
-/

abbrev Memory := BitVec 32 → BitVec 8

namespace Memory

def load (m : Memory) (a : BitVec 32) : BitVec 32 :=
  m (a + 3) ++ m (a + 2) ++ m (a + 1) ++ m a

def store (m : Memory) (a v : BitVec 32) : Memory :=
  fun x =>
    if x = a then v.extractLsb' 0 8
    else if x = a + 1 then v.extractLsb' 8 8
    else if x = a + 2 then v.extractLsb' 16 8
    else if x = a + 3 then v.extractLsb' 24 8
    else m x

@[simp]
theorem load_store (m : Memory) (a v : BitVec 32) : (m.store a v).load a = v := by
  have one : a + 1 ≠ a := by bv_omega
  have two : a + 2 ≠ a ∧ a + 2 ≠ a + 1 := by
    constructor <;> bv_omega
  have three : a + 3 ≠ a ∧ a + 3 ≠ a + 1 ∧ a + 3 ≠ a + 2 := by
    refine ⟨?_, ?_, ?_⟩ <;> bv_omega
  simp only [load, store, one, two, three, if_true, if_false]
  rw [BitVec.extractLsb'_append_extractLsb'_eq_extractLsb' (by decide),
    BitVec.extractLsb'_append_extractLsb'_eq_extractLsb' (by decide),
    BitVec.extractLsb'_append_extractLsb'_eq_extractLsb' (by decide)]
  exact BitVec.extractLsb'_eq_self

/-- An interval of addresses. -/
structure Region where
  start : Nat
  stop : Nat

def Region.Has (r : Region) (a : BitVec 32) : Prop :=
  r.start ≤ a.toNat ∧ a.toNat < r.stop

def Region.Apart (r r' : Region) : Prop :=
  r.stop ≤ r'.start ∨ r'.stop ≤ r.start

instance (r r' : Region) : Decidable (r.Apart r') :=
  inferInstanceAs (Decidable (_ ∨ _))

def Region.Within (r r' : Region) : Prop :=
  r'.start ≤ r.start ∧ r.stop ≤ r'.stop

def wordAt (a : BitVec 32) : Region :=
  ⟨a.toNat, a.toNat + 4⟩

/-- A word that ends inside the address space. -/
def Fits (a : BitVec 32) : Prop :=
  a.toNat + 4 ≤ 2 ^ 32

instance (a : BitVec 32) : Decidable (Fits a) :=
  inferInstanceAs (Decidable (_ ≤ _))

theorem Region.Apart.symm {r r' : Region} (apart : r.Apart r') : r'.Apart r :=
  Or.symm apart

theorem Region.Apart.within {r r' inner : Region} (apart : r.Apart r')
    (within : inner.Within r)
    : inner.Apart r' := by
  obtain ⟨low, high⟩ := within
  rcases apart with before | behind
  · exact .inl (Nat.le_trans high before)
  · exact .inr (Nat.le_trans behind low)

/-- Two memories hold the same bytes in a region. -/
def AgreeOn (r : Region) (m m' : Memory) : Prop :=
  ∀ a, r.Has a → m' a = m a

theorem AgreeOn.refl (r : Region) (m : Memory) : AgreeOn r m m :=
  fun _ _ => rfl

theorem AgreeOn.trans {r : Region} {m m' m'' : Memory} (first : AgreeOn r m m')
    (second : AgreeOn r m' m'')
    : AgreeOn r m m'' :=
  fun a inside => (second a inside).trans (first a inside)

theorem AgreeOn.symm {r : Region} {m m' : Memory} (agree : AgreeOn r m m') : AgreeOn r m' m :=
  fun a inside => (agree a inside).symm

/-- Memories that agree on a region agree on what lies within it. -/
theorem AgreeOn.within {r inner : Region} {m m' : Memory} (agree : AgreeOn r m m')
    (within : inner.Within r)
    : AgreeOn inner m m' := by
  intro a inside
  exact agree a ⟨Nat.le_trans within.1 inside.1, Nat.lt_of_lt_of_le inside.2 within.2⟩

/-- The bytes of a word by their positions. -/
theorem toNat_add_of_fits {a : BitVec 32} (fits : Fits a) (i : Nat) (small : i < 4)
    : (a + BitVec.ofNat 32 i).toNat = a.toNat + i := by
  rw [Fits] at fits
  rw [BitVec.toNat_add, BitVec.toNat_ofNat, Nat.mod_eq_of_lt (by omega : i < 2 ^ 32),
    Nat.mod_eq_of_lt (by omega)]

/-- The same bytes make the same word. -/
theorem AgreeOn.load {a : BitVec 32} {m m' : Memory} (agree : AgreeOn (wordAt a) m m')
    (fits : Fits a)
    : m'.load a = m.load a := by
  have byte (i : Nat) (small : i < 4) : m' (a + BitVec.ofNat 32 i) = m (a + BitVec.ofNat 32 i) := by
    have position := toNat_add_of_fits fits i small
    refine agree _ ⟨?_, ?_⟩
    · rw [position]
      exact Nat.le_add_right ..
    · rw [position]
      exact Nat.add_lt_add_left small _
  have first := byte 0 (by decide)
  rw [BitVec.add_zero] at first
  rw [Memory.load, Memory.load, first]
  exact congrArg₂ _ (congrArg₂ _ (congrArg₂ _ (byte 3 (by decide)) (byte 2 (by decide)))
    (byte 1 (by decide))) rfl

/-- A store into one word is not seen in a region apart from it. -/
theorem agreeOn_store {r : Region} {a : BitVec 32} (m : Memory) (v : BitVec 32) (fits : Fits a)
    (apart : (wordAt a).Apart r)
    : AgreeOn r m (m.store a v) := by
  intro x inside
  have away (i : Nat) (small : i < 4) : x ≠ a + BitVec.ofNat 32 i := by
    rintro rfl
    have position := toNat_add_of_fits fits i small
    obtain ⟨low, high⟩ := inside
    rw [position] at low high
    rcases apart with before | behind
    · have start : a.toNat + 4 ≤ r.start := before
      omega
    · have stop : r.stop ≤ a.toNat := behind
      omega
  have first := away 0 (by decide)
  rw [BitVec.add_zero] at first
  have second : x ≠ a + 1 := away 1 (by decide)
  have third : x ≠ a + 2 := away 2 (by decide)
  have fourth : x ≠ a + 3 := away 3 (by decide)
  rw [store, if_neg first, if_neg second, if_neg third, if_neg fourth]

/-- A store into one word is not seen in another one. -/
theorem load_store_of_apart {a b : BitVec 32} (m : Memory) (v : BitVec 32) (fits : Fits a)
    (fits' : Fits b) (apart : (wordAt a).Apart (wordAt b))
    : (m.store a v).load b = m.load b :=
  (agreeOn_store m v fits apart).load fits'

-----------------------------------------------------------------------------------------
-- Words that are pushed
-----------------------------------------------------------------------------------------

/-- Pushing words one after another, the first one right below `sp`. -/
def pushWords (m : Memory) (sp : BitVec 32) : List (BitVec 32) → Memory
  | [] => m
  | v :: vs => (m.store (sp - 4) v).pushWords (sp - 4) vs

/-- The word below an address that has room for it. -/
theorem toNat_sub_four {sp : BitVec 32} (room : 4 ≤ sp.toNat) : (sp - 4).toNat = sp.toNat - 4 := by
  bv_omega

/-- The place of a word that fits below an address. -/
theorem fits_sub_four {sp : BitVec 32} (room : 4 ≤ sp.toNat) : Fits (sp - 4) := by
  have inWord := sp.isLt
  rw [Fits, toNat_sub_four room]
  omega

/-- Words that are pushed change nothing outside their place, by induction on them. -/
theorem agreeOn_pushWords {r : Region} {m : Memory} {sp : BitVec 32} {vs : List (BitVec 32)}
    (room : 4 * vs.length ≤ sp.toNat)
    (apart : (Region.mk (sp.toNat - 4 * vs.length) sp.toNat).Apart r)
    : AgreeOn r m (m.pushWords sp vs) := by
  induction vs generalizing m sp with
  | nil => exact AgreeOn.refl r m
  | cons v vs ih =>
      rw [List.length_cons] at room apart
      have position := toNat_sub_four (show 4 ≤ sp.toNat by omega)
      have fits := fits_sub_four (show 4 ≤ sp.toNat by omega)
      have first : AgreeOn r m (m.store (sp - 4) v) := by
        refine agreeOn_store m v fits (apart.within ⟨?_, ?_⟩)
        · simp only [wordAt, position]
          omega
        · simp only [wordAt, position]
          omega
      refine first.trans (ih ?_ (apart.within ⟨?_, ?_⟩))
      · omega
      · simp only [position]
        omega
      · simp only [position]
        omega

/-- The words below an address, the first one right below it. -/
def Holds (m : Memory) (sp : BitVec 32) (vs : List (BitVec 32)) : Prop :=
  ∀ i (inside : i < vs.length), m.load (sp - BitVec.ofNat 32 (4 * (i + 1))) = vs[i]

/-- Words that were pushed are there, by induction on them. -/
theorem holds_pushWords {m : Memory} {sp : BitVec 32} {vs : List (BitVec 32)}
    (room : 4 * vs.length ≤ sp.toNat)
    : (m.pushWords sp vs).Holds sp vs := by
  induction vs generalizing m sp with
  | nil => exact fun i inside => absurd inside (Nat.not_lt_zero i)
  | cons v vs ih =>
      rw [List.length_cons] at room
      have position := toNat_sub_four (show 4 ≤ sp.toNat by omega)
      have fits := fits_sub_four (show 4 ≤ sp.toNat by omega)
      intro i inside
      cases i with
      | zero =>
          have agree : AgreeOn (wordAt (sp - 4)) (m.store (sp - 4) v)
              ((m.store (sp - 4) v).pushWords (sp - 4) vs) := by
            refine agreeOn_pushWords (by omega) (.inl ?_)
            exact Nat.le_refl _
          have top : sp - BitVec.ofNat 32 (4 * (0 + 1)) = sp - 4 := rfl
          rw [top, pushWords, agree.load fits, load_store]
          rfl
      | succ i =>
          have below : sp - BitVec.ofNat 32 (4 * (i + 1 + 1))
              = sp - 4 - BitVec.ofNat 32 (4 * (i + 1)) := by
            rw [Nat.mul_add 4 (i + 1) 1, BitVec.ofNat_add]
            bv_omega
          rw [below, pushWords]
          exact ih (by omega) i (Nat.lt_of_succ_lt_succ inside)

/-- Words below an address are still there in a memory that agrees on their place. -/
theorem Holds.agree {m m' : Memory} {sp : BitVec 32} {vs : List (BitVec 32)} {r : Region}
    (holds : m.Holds sp vs) (agree : AgreeOn r m m')
    (low : r.start + 4 * vs.length ≤ sp.toNat) (high : sp.toNat ≤ r.stop)
    : m'.Holds sp vs := by
  intro i inside
  have inWord := sp.isLt
  have position : (sp - BitVec.ofNat 32 (4 * (i + 1))).toNat = sp.toNat - 4 * (i + 1) := by
    bv_omega
  have word : AgreeOn (wordAt (sp - BitVec.ofNat 32 (4 * (i + 1)))) m m' := by
    refine agree.within ⟨?_, ?_⟩
    · simp only [wordAt, position]
      omega
    · simp only [wordAt, position]
      omega
  have fits : Fits (sp - BitVec.ofNat 32 (4 * (i + 1))) := by
    rw [Fits, position]
    omega
  rw [word.load fits]
  exact holds i inside

/-- The words behind the first ones. -/
theorem Holds.drop {m : Memory} {sp : BitVec 32} {vs : List (BitVec 32)} (holds : m.Holds sp vs)
    (n : Nat)
    : m.Holds (sp - BitVec.ofNat 32 (4 * n)) (vs.drop n) := by
  intro i inside
  rw [List.length_drop] at inside
  have below : sp - BitVec.ofNat 32 (4 * n) - BitVec.ofNat 32 (4 * (i + 1))
      = sp - BitVec.ofNat 32 (4 * (n + i + 1)) := by
    rw [Nat.add_assoc n, Nat.mul_add 4 n, BitVec.ofNat_add]
    bv_omega
  rw [below, List.getElem_drop]
  exact holds (n + i) (by omega)

/-- The first ones of some words. -/
theorem Holds.left {m : Memory} {sp : BitVec 32} {vs ws : List (BitVec 32)}
    (holds : m.Holds sp (vs ++ ws))
    : m.Holds sp vs := by
  intro i inside
  rw [holds i (by rw [List.length_append]; omega), List.getElem_append_left inside]

/-- Words come off the stack in the reverse order. -/
theorem Holds.load_at {m : Memory} {sp esp : BitVec 32} {words : List (BitVec 32)}
    (holds : m.Holds sp words) (place : esp = sp - BitVec.ofNat 32 (4 * words.length)) (k : Nat)
    (inside : k < words.length)
    : m.load (esp + BitVec.ofNat 32 (4 * k)) = words[words.length - 1 - k] := by
  have same : esp + BitVec.ofNat 32 (4 * k)
      = sp - BitVec.ofNat 32 (4 * (words.length - 1 - k + 1)) := by
    have all : 4 * words.length = 4 * (words.length - 1 - k + 1) + 4 * k := by omega
    rw [place, all, BitVec.ofNat_add]
    bv_omega
  rw [same]
  exact holds _ (by omega)

/-- Words are on a stack if they come off it in the reverse order. -/
theorem holds_of_load {m : Memory} {sp esp : BitVec 32} {words : List (BitVec 32)}
    (place : esp = sp - BitVec.ofNat 32 (4 * words.length))
    (word : ∀ k (inside : k < words.length),
      m.load (esp + BitVec.ofNat 32 (4 * k)) = words[words.length - 1 - k])
    : m.Holds sp words := by
  intro i inside
  have all : 4 * words.length = 4 * (i + 1) + 4 * (words.length - 1 - i) := by omega
  have same : sp - BitVec.ofNat 32 (4 * (i + 1))
      = esp + BitVec.ofNat 32 (4 * (words.length - 1 - i)) := by
    rw [place, all, BitVec.ofNat_add]
    bv_omega
  have index : words.length - 1 - (words.length - 1 - i) = i := by omega
  rw [same, word _ (by omega)]
  simp only [index]

/-- Words are pushed in parts, by induction on the first part. -/
theorem pushWords_append (m : Memory) (sp : BitVec 32) (vs ws : List (BitVec 32))
    : m.pushWords sp (vs ++ ws)
      = (m.pushWords sp vs).pushWords (sp - BitVec.ofNat 32 (4 * vs.length)) ws := by
  induction vs generalizing m sp with
  | nil => rw [List.nil_append, List.length_nil, Nat.mul_zero, BitVec.sub_zero, pushWords]
  | cons v vs ih =>
      have below : sp - 4 - BitVec.ofNat 32 (4 * vs.length)
          = sp - BitVec.ofNat 32 (4 * (v :: vs).length) := by
        rw [List.length_cons, Nat.mul_add 4, BitVec.ofNat_add]
        bv_omega
      rw [List.cons_append, pushWords, pushWords, ih, below]

end Memory
