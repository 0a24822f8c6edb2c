import Hydrangea.Lib.Memory

/-! The `memmove` of `libk/string.c`, which chooses a direction, and the one of
`libc/string/string.c`, which copies through an array of its own. Pointers wrap.
-/

namespace Hydrangea

/-- The loop of `memmove` upwards, from its round `i` on. -/
def moveUp (d s : BitVec 32) (size i : Nat) (m : Memory) : Memory :=
  if i < size then
    moveUp d s size (i + 1)
      (Function.update m (d + BitVec.ofNat 32 i) (m (s + BitVec.ofNat 32 i)))
  else
    m
termination_by size - i

/-- The loop of `memmove` downwards, which has `i` rounds left. -/
def moveDown (d s : BitVec 32) : (i : Nat) → (m : Memory) → Memory
  | 0, m => m
  | i + 1, m =>
      moveDown d s i (Function.update m (d + BitVec.ofNat 32 i) (m (s + BitVec.ofNat 32 i)))

def memmove (m : Memory) (dest src : BitVec 32) (size : Nat) : Memory :=
  if dest < src then moveUp dest src size 0 m else moveDown dest src size m

namespace Libc

/-- The bytes that `memmove` works on: those of the memory, and those of its array `tmp`. -/
inductive Place where
  | mem (a : BitVec 32)
  | tmp (i : Nat)
deriving DecidableEq

def Place.next : Place → Place
  | .mem a => .mem (a + 1)
  | .tmp i => .tmp (i + 1)

/-- A memory next to the array `tmp`. -/
def withTmp (m : Memory) (tmp : Nat → BitVec 8) : Place → BitVec 8
  | .mem a => m a
  | .tmp i => tmp i

def memcpy (m : Place → BitVec 8) (d s : Place) : (n : Nat) → Place → BitVec 8
  | 0 => m
  | n + 1 => memcpy (Function.update m d (m s)) d.next s.next n

/-- `memmove` of the user's library; the array `tmp` holds any bytes before. -/
def memmove (m : Memory) (tmp : Nat → BitVec 8) (s1 s2 : BitVec 32) (n : Nat) : Memory :=
  let saved := memcpy (withTmp m tmp) (.tmp 0) (.mem s2) n
  let copied := memcpy saved (.mem s1) (.tmp 0) n
  fun a => copied (.mem a)

end Libc

def moved (m : Memory) (dest src : BitVec 32) (n : Nat) : Memory :=
  fun a =>
    if dest.toNat ≤ a.toNat ∧ a.toNat < dest.toNat + n then m (src + (a - dest)) else m a

variable {d s : BitVec 32} {size i : Nat} {m : Memory}

/-- The places of a range that does not wrap. -/
theorem toNat_add_ofNat {a : BitVec 32} {n : Nat} (fits : a.toNat + n < 2 ^ 32)
    : (a + BitVec.ofNat 32 n).toNat = a.toNat + n := by
  rw [BitVec.toNat_add, BitVec.toNat_ofNat]
  omega

theorem eq_add_ofNat_iff {a x : BitVec 32} {n : Nat} (fits : a.toNat + n < 2 ^ 32)
    : x = a + BitVec.ofNat 32 n ↔ x.toNat = a.toNat + n := by
  rw [← BitVec.toNat_inj, toNat_add_ofNat fits]

/-- A round stores the byte of its place. -/
theorem round_apply (fits : d.toNat + i < 2 ^ 32) (a : BitVec 32)
    : Function.update m (d + BitVec.ofNat 32 i) (m (s + BitVec.ofNat 32 i)) a
      = if a.toNat = d.toNat + i then m (s + (a - d)) else m a := by
  by_cases written : a.toNat = d.toNat + i
  · obtain rfl : a = d + BitVec.ofNat 32 i := (eq_add_ofNat_iff fits).mpr written
    rw [if_pos written, Function.update_self]
    congr 1
    bv_omega
  · rw [if_neg written, Function.update_of_ne]
    exact fun same => written ((eq_add_ofNat_iff fits).mp same)

/-- Moving upwards is right when the destination lies below the source: what is read later has not
been written. By induction on the rounds left.
-/
theorem moveUp_apply (below : d.toNat < s.toNat) (fits : s.toNat + size ≤ 2 ^ 32) (a : BitVec 32)
    : moveUp d s size i m a
      = if d.toNat + i ≤ a.toNat ∧ a.toNat < d.toNat + size then m (s + (a - d)) else m a := by
  fun_induction moveUp d s size i m with
  | case1 i m further ih =>
      have inMemory : d.toNat + i < 2 ^ 32 := by omega
      rw [ih, round_apply inMemory, round_apply inMemory]
      by_cases rest : d.toNat + (i + 1) ≤ a.toNat ∧ a.toNat < d.toNat + size
      · have source : (s + (a - d)).toNat ≠ d.toNat + i := by
          rw [BitVec.toNat_add, BitVec.toNat_sub]
          omega
        rw [if_pos rest, if_neg source, if_pos ⟨by omega, rest.2⟩]
      · rw [if_neg rest]
        exact if_congr (by omega) rfl rfl
  | case2 i m ends => rw [if_neg (by omega)]

/-- Moving downwards is right when the destination does not lie below the source, by induction on
the rounds left.
-/
theorem moveDown_apply (above : s.toNat ≤ d.toNat) (fits : d.toNat + i ≤ 2 ^ 32) (a : BitVec 32)
    : moveDown d s i m a
      = if d.toNat ≤ a.toNat ∧ a.toNat < d.toNat + i then m (s + (a - d)) else m a := by
  induction i generalizing m with
  | zero => rw [moveDown, if_neg (by omega)]
  | succ i ih =>
      have inMemory : d.toNat + i < 2 ^ 32 := by omega
      rw [moveDown, ih (by omega), round_apply inMemory, round_apply inMemory]
      by_cases rest : d.toNat ≤ a.toNat ∧ a.toNat < d.toNat + i
      · have source : (s + (a - d)).toNat ≠ d.toNat + i := by
          rw [BitVec.toNat_add, BitVec.toNat_sub]
          omega
        rw [if_pos rest, if_neg source, if_pos ⟨rest.1, by omega⟩]
      · rw [if_neg rest]
        exact if_congr (by omega) rfl rfl

/-- The kernel's `memmove` moves a range. -/
theorem memmove_eq (m : Memory) {dest src : BitVec 32} (fits : dest.toNat + size ≤ 2 ^ 32)
    (fits' : src.toNat + size ≤ 2 ^ 32)
    : memmove m dest src size = moved m dest src size := by
  funext a
  rw [memmove, moved]
  split
  · next below => exact (moveUp_apply (BitVec.lt_def.mp below) fits' a).trans (by simp)
  · next notBelow => exact moveDown_apply (Nat.not_lt.mp (mt BitVec.lt_def.mpr notBelow)) fits a

namespace Libc

/-- Copying memory to the array, by induction on the bytes. -/
theorem memcpy_to_tmp (m : Place → BitVec 8) (a : BitVec 32) (j n : Nat)
    : (∀ x, memcpy m (.tmp j) (.mem a) n (.mem x) = m (.mem x))
      ∧ ∀ k, memcpy m (.tmp j) (.mem a) n (.tmp k)
        = if j ≤ k ∧ k < j + n then m (.mem (a + BitVec.ofNat 32 (k - j))) else m (.tmp k) := by
  induction n generalizing m a j with
  | zero => exact ⟨fun x => rfl, fun k => (if_neg (by omega)).symm⟩
  | succ n ih =>
      obtain ⟨memory, array⟩ := ih (Function.update m (.tmp j) (m (.mem a))) (a + 1) (j + 1)
      refine ⟨fun x => (memory x).trans (Function.update_of_ne (by simp) _ _), fun k => ?_⟩
      refine (array k).trans ?_
      rcases Nat.lt_trichotomy k j with before | rfl | behind
      · rw [if_neg (by omega), if_neg (by omega), Function.update_of_ne]
        rw [Ne, Place.tmp.injEq]
        omega
      · rw [if_neg (by omega), if_pos (by omega), Function.update_self, Nat.sub_self]
        simp
      · have next : a + 1 + BitVec.ofNat 32 (k - (j + 1)) = a + BitVec.ofNat 32 (k - j) := by
          obtain ⟨i, rfl⟩ := Nat.exists_eq_add_of_lt behind
          rw [show j + i + 1 - (j + 1) = i by omega, show j + i + 1 - j = i + 1 by omega,
            BitVec.ofNat_add]
          bv_omega
        rw [Function.update_of_ne (by simp), Function.update_of_ne (by simp; omega), next]
        simp only [show j + 1 ≤ k ∧ k < j + 1 + n ↔ j ≤ k ∧ k < j + (n + 1) by omega]

/-- Copying the array to memory that does not wrap, by induction on the bytes. -/
theorem memcpy_of_tmp (m : Place → BitVec 8) {a : BitVec 32} (j : Nat) {n : Nat}
    (fits : a.toNat + n ≤ 2 ^ 32) (x : BitVec 32)
    : memcpy m (.mem a) (.tmp j) n (.mem x)
      = if a.toNat ≤ x.toNat ∧ x.toNat < a.toNat + n then m (.tmp (j + (x.toNat - a.toNat)))
        else m (.mem x) := by
  induction n generalizing m a j with
  | zero => rw [memcpy, if_neg (by omega)]
  | succ n ih =>
      -- The address behind the last byte may wrap, but nothing is stored there.
      have next : (a + 1).toNat + n ≤ 2 ^ 32 ∧ (n ≠ 0 → (a + 1).toNat = a.toNat + 1) := by
        bv_omega
      have rest := ih (m := Function.update m (.mem a) (m (.tmp j))) (j + 1) next.1
      refine rest.trans ?_
      rw [Function.update_of_ne (by simp)]
      by_cases first : x = a
      · subst first
        rw [if_neg (by omega), if_pos (by omega), Function.update_self, Nat.sub_self]
        rfl
      · have apart : x.toNat ≠ a.toNat := fun same => first (BitVec.eq_of_toNat_eq same)
        rw [Function.update_of_ne (by simpa using first)]
        by_cases inside : a.toNat ≤ x.toNat ∧ x.toNat < a.toNat + (n + 1)
        · rw [if_pos (by omega), if_pos inside]
          congr 2
          omega
        · rw [if_neg (by omega), if_neg inside]

/-- The user's `memmove` moves a range. -/
theorem memmove_eq (m : Memory) (tmp : Nat → BitVec 8) {s1 : BitVec 32} (s2 : BitVec 32) {n : Nat}
    (fits : s1.toNat + n ≤ 2 ^ 32)
    : memmove m tmp s1 s2 n = moved m s1 s2 n := by
  funext a
  rw [memmove, moved]
  dsimp only
  rw [memcpy_of_tmp _ 0 fits, (memcpy_to_tmp _ _ _ _).1, (memcpy_to_tmp _ _ _ _).2]
  split
  · next inside =>
      rw [if_pos (by omega), withTmp]
      congr 1
      bv_omega
  · rfl

end Libc

/-- Both `memmove` move a range, however it overlaps with the other one. The kernel's one chooses
its direction by the addresses, the user's one copies through an array.
-/
theorem memmove_moved (m : Memory) (tmp : Nat → BitVec 8) (dest src : BitVec 32) (n : Nat)
    (fits : dest.toNat + n ≤ 2 ^ 32) (fits' : src.toNat + n ≤ 2 ^ 32)
    : memmove m dest src n = moved m dest src n
      ∧ Libc.memmove m tmp dest src n = moved m dest src n :=
  ⟨memmove_eq m fits fits', Libc.memmove_eq m tmp src fits⟩

/-- Three bytes moved up by one. -/
theorem memmove_moved_three
    : memmove (fun a => a.truncate 8) 4097 4096 3 = moved (fun a => a.truncate 8) 4097 4096 3
      ∧ Libc.memmove (fun a => a.truncate 8) (fun _ => 0) 4097 4096 3
        = moved (fun a => a.truncate 8) 4097 4096 3 :=
  memmove_moved _ (fun _ => 0) 4097 4096 3 (by decide) (by decide)

end Hydrangea
