import Mathlib.Data.List.Basic
import Mathlib.Tactic

/-! Strings that end with a zero byte, in buffers of bytes. A pointer into a buffer is the
part of the buffer from there to its end.
-/

namespace CString

/-- The buffer begins with the string, ended by a zero. -/
def Holds (buffer s : List UInt8) : Prop :=
  0 ∉ s ∧ ∃ rest, buffer = s ++ 0 :: rest

/-- The value of a byte as a `char`, which is signed. -/
def charValue (c : UInt8) : Int :=
  c.toInt8.toInt

theorem charValue_inj {c d : UInt8} : charValue c = charValue d ↔ c = d := by
  rw [charValue, charValue, Int8.toInt_inj]
  exact ⟨fun same => congrArg Int8.toUInt8 same, congrArg UInt8.toInt8⟩

theorem charValue_eq (c : UInt8)
    : charValue c = if c < 128 then (c.toNat : Int) else c.toNat - 256 := by
  have bits : charValue c = c.toBitVec.toInt := rfl
  have small : c < 128 ↔ 2 * c.toNat < 2 ^ 8 := by
    rw [UInt8.lt_iff_toNat_lt, show (128 : UInt8).toNat = 128 from rfl]
    omega
  rw [bits, BitVec.toInt_eq_toNat_cond, UInt8.toNat_toBitVec]
  simp only [small]
  rfl

/-- A buffer holds a string if it begins with it and a zero. -/
theorem holds_iff {buffer s : List UInt8}
    : Holds buffer s ↔ 0 ∉ s ∧ s ++ [0] <+: buffer := by
  refine and_congr_right (fun _ => exists_congr (fun rest => ?_))
  rw [List.append_assoc, List.singleton_append, eq_comm]

instance (buffer s : List UInt8) : Decidable (Holds buffer s) :=
  decidable_of_iff _ holds_iff.symm

/-- A buffer with a zero in front holds the empty string. -/
theorem holds_nil (rest : List UInt8) : Holds (0 :: rest) [] :=
  ⟨List.not_mem_nil, rest, rfl⟩

/-- A string in front of a zero is held. -/
theorem holds_append {s : List UInt8} (nonzero : 0 ∉ s) (rest : List UInt8)
    : Holds (s ++ 0 :: rest) s :=
  ⟨nonzero, rest, rfl⟩

/-- A string is shorter than the buffer that holds it. -/
theorem Holds.length_lt {buffer s : List UInt8} (h : Holds buffer s)
    : s.length < buffer.length := by
  obtain ⟨-, rest, rfl⟩ := h
  simp

/-- A buffer that holds the empty string begins with a zero. -/
theorem Holds.of_nil {buffer : List UInt8} (h : Holds buffer []) : ∃ rest, buffer = 0 :: rest := by
  obtain ⟨-, rest, same⟩ := h
  exact ⟨rest, same⟩

/-- A buffer that holds a string begins with its first byte and holds the rest behind. -/
theorem Holds.of_cons {buffer s : List UInt8} {c : UInt8} (h : Holds buffer (c :: s))
    : c ≠ 0 ∧ ∃ behind, buffer = c :: behind ∧ Holds behind s := by
  obtain ⟨nonzero, rest, same⟩ := h
  rw [List.mem_cons, not_or] at nonzero
  exact ⟨Ne.symm nonzero.1, s ++ 0 :: rest, same, nonzero.2, rest, rfl⟩

/-- What is held in front of a zero does not depend on what is behind it, by induction on what is in
front.
-/
theorem holds_zero_iff {x s : List UInt8} (rest rest' : List UInt8)
    : Holds (x ++ 0 :: rest) s ↔ Holds (x ++ 0 :: rest') s := by
  induction x generalizing s with
  | nil =>
      cases s with
      | nil => exact iff_of_true (holds_nil rest) (holds_nil rest')
      | cons c s =>
          refine iff_of_false (fun h => ?_) (fun h => ?_)
          · obtain ⟨nonzero, behind, same, -⟩ := h.of_cons
            exact nonzero (List.cons.inj same).1.symm
          · obtain ⟨nonzero, behind, same, -⟩ := h.of_cons
            exact nonzero (List.cons.inj same).1.symm
  | cons b x ih =>
      cases s with
      | nil => simp [Holds]
      | cons c s =>
          have further : Holds (x ++ 0 :: rest) s ↔ Holds (x ++ 0 :: rest') s := ih
          simp only [Holds, List.mem_cons, not_or, List.cons_append, List.cons.injEq] at further ⊢
          constructor
          · rintro ⟨⟨first, nonzero⟩, behind, rfl, same⟩
            obtain ⟨-, behind', same'⟩ := further.mp ⟨nonzero, behind, same⟩
            exact ⟨⟨first, nonzero⟩, behind', rfl, same'⟩
          · rintro ⟨⟨first, nonzero⟩, behind, rfl, same⟩
            obtain ⟨-, behind', same'⟩ := further.mpr ⟨nonzero, behind, same⟩
            exact ⟨⟨first, nonzero⟩, behind', rfl, same'⟩

/-- What a buffer holds is its part up to the first zero. -/
theorem Holds.takeWhile_eq {buffer s : List UInt8} (h : Holds buffer s)
    : buffer.takeWhile (· ≠ 0) = s := by
  obtain ⟨nonzero, rest, rfl⟩ := h
  rw [List.takeWhile_append_of_pos, List.takeWhile_cons_of_neg (by simp), List.append_nil]
  intro c member
  have other : c ≠ 0 := fun zero => nonzero (zero ▸ member)
  simpa using other

theorem Holds.append {buffer s : List UInt8} (h : Holds buffer s) (behind : List UInt8)
    : Holds (buffer ++ behind) s := by
  obtain ⟨nonzero, rest, rfl⟩ := h
  exact ⟨nonzero, rest ++ behind, by rw [List.append_assoc, List.cons_append]⟩

/-- A pointer into a string points to the rest of it. -/
theorem Holds.drop {buffer s : List UInt8} (h : Holds buffer s) {k : Nat} (inside : k ≤ s.length)
    : Holds (buffer.drop k) (s.drop k) := by
  obtain ⟨nonzero, rest, rfl⟩ := h
  refine ⟨fun zero => nonzero (List.mem_of_mem_drop zero), rest, ?_⟩
  exact List.drop_append_of_le_length inside

/-- A buffer cut off behind the end of its string holds it. -/
theorem Holds.take {buffer s : List UInt8} (h : Holds buffer s) {k : Nat} (room : s.length < k)
    : Holds (buffer.take k) s := by
  obtain ⟨nonzero, rest, rfl⟩ := h
  obtain ⟨k, rfl⟩ := Nat.exists_eq_add_of_lt room
  rw [Nat.add_assoc, List.take_length_add_append]
  exact ⟨nonzero, _, rfl⟩

/-- Components joined to a path, a separator in front of each. -/
def joined (sep : UInt8) (names : List (List UInt8)) : List UInt8 :=
  names.flatMap (fun name => sep :: name)

@[simp]
theorem joined_nil (sep : UInt8) : joined sep [] = [] :=
  rfl

@[simp]
theorem joined_cons (sep : UInt8) (name : List UInt8) (names : List (List UInt8))
    : joined sep (name :: names) = sep :: name ++ joined sep names :=
  List.flatMap_cons

@[simp]
theorem joined_append (sep : UInt8) (names names' : List (List UInt8))
    : joined sep (names ++ names') = joined sep names ++ joined sep names' :=
  List.flatMap_append

end CString
