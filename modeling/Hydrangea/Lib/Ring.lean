import Mathlib.Logic.Function.Basic
import Mathlib.Tactic

/-! The elements of a circular buffer: a number of consecutive slots from a start on, where
the slot behind the last one is the first one again.
-/

namespace Ring

variable {α : Type*}

/-- The contents of `n` slots from `start` on, in a buffer of `size` slots. -/
def contents (slots : Nat → α) (size start n : Nat) : List α :=
  (List.range n).map (fun k => slots ((start + k) % size))

variable {slots : Nat → α} {size start n : Nat}

/-- The start may be taken modulo the size. -/
theorem contents_mod (slots : Nat → α) (size start n : Nat)
    : contents slots size (start % size) n = contents slots size start n := by
  simp only [contents, Nat.mod_add_mod]

/-- The first slot, and the others from the next one on. -/
theorem contents_succ (slots : Nat → α) (size start n : Nat)
    : contents slots size start (n + 1)
      = slots (start % size) :: contents slots size (start + 1) n := by
  rw [contents, List.range_succ_eq_map, List.map_cons, List.map_map]
  refine List.cons_eq_cons.mpr ⟨rfl, ?_⟩
  apply List.map_congr_left
  intro k _
  have position : start + (k + 1) = start + 1 + k := by omega
  simp only [Function.comp_apply, Nat.succ_eq_add_one, position]

/-- Two positions less than a round apart are different slots. -/
theorem slot_ne (start : Nat) {k : Nat} (before : k < n) (room : n < size)
    : (start + k) % size ≠ (start + n) % size := by
  intro same
  have apart : (start + n - (start + k)) % size = 0 := Nat.sub_mod_eq_zero_of_mod_eq same.symm
  have distance : start + n - (start + k) = n - k := by omega
  rw [distance, Nat.mod_eq_of_lt (by omega)] at apart
  omega

/-- Storing an element behind the others, where there is room, adds it to them. -/
theorem contents_push (room : n < size) (x : α)
    : contents (Function.update slots ((start + n) % size) x) size start (n + 1)
      = contents slots size start n ++ [x] := by
  simp only [contents, List.range_succ, List.map_append, List.map_cons, List.map_nil,
    Function.update_self]
  congr 1
  apply List.map_congr_left
  intro k inside
  exact Function.update_of_ne (slot_ne start (List.mem_range.mp inside) room) ..

end Ring
