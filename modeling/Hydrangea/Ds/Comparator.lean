import Mathlib.Order.Defs.LinearOrder
import Mathlib.Tactic.Common

/-! The comparators of `kernel/ds/comparator.h`. -/

namespace Hydrangea

/-- `comparator_t`, on pointers as addresses. -/
abbrev ComparatorT := Nat → Nat → Int

def defaultComparator : ComparatorT := fun x y =>
  if x = y then 0 else if x > y then 1 else -1

namespace ComparatorT

variable {cmp : ComparatorT}

/-- `x` is not greater than `y`. -/
abbrev Le (cmp : ComparatorT) (x y : Nat) : Prop :=
  cmp x y ≠ 1

/-- A comparator that returns 1 if and only if its first argument is greater, in a total preorder.
-/
structure IsPreorder (cmp : ComparatorT) : Prop where
  total : ∀ x y, cmp.Le x y ∨ cmp.Le y x
  trans : ∀ x y z, cmp.Le x y → cmp.Le y z → cmp.Le x z

theorem IsPreorder.toTotal (preorder : cmp.IsPreorder) : Std.Total cmp.Le :=
  ⟨preorder.total⟩

theorem IsPreorder.toIsTrans (preorder : cmp.IsPreorder) : IsTrans Nat cmp.Le :=
  ⟨preorder.trans⟩

/-- A comparator that returns -1, 0 or 1 when its first argument is less, equal or greater, in a
total order.
-/
structure IsTotalOrder (cmp : ComparatorT) : Prop where
  range : ∀ x y, cmp x y = -1 ∨ cmp x y = 0 ∨ cmp x y = 1
  equal : ∀ x y, cmp x y = 0 ↔ x = y
  swap : ∀ x y, cmp x y = 1 ↔ cmp y x = -1
  trans : ∀ x y z, cmp x y = -1 → cmp y z = -1 → cmp x z = -1

def ordering (cmp : ComparatorT) (x y : Nat) : Ordering :=
  if cmp x y = 1 then .gt else if cmp x y = -1 then .lt else .eq

theorem ordering_eq_gt {x y : Nat} : cmp.ordering x y = .gt ↔ cmp x y = 1 := by
  rw [ordering]
  grind

theorem ordering_eq_lt {x y : Nat} : cmp.ordering x y = .lt ↔ cmp x y = -1 := by
  rw [ordering]
  grind

theorem ordering_eq_eq {x y : Nat} : cmp.ordering x y = .eq ↔ cmp x y ≠ 1 ∧ cmp x y ≠ -1 := by
  rw [ordering]
  grind

/-- In a total order, only equal keys compare as equal. -/
theorem IsTotalOrder.eq_iff (order : cmp.IsTotalOrder) {x y : Nat}
    : cmp.ordering x y = .eq ↔ x = y := by
  have range := order.range x y
  rw [← order.equal, ordering]
  grind

theorem IsTotalOrder.ordering_swap (order : cmp.IsTotalOrder) (x y : Nat)
    : cmp.ordering x y = (cmp.ordering y x).swap := by
  cases swapped : cmp.ordering y x with
  | lt => exact ordering_eq_gt.mpr ((order.swap x y).mpr (ordering_eq_lt.mp swapped))
  | eq => exact order.eq_iff.mpr (order.eq_iff.mp swapped).symm
  | gt => exact ordering_eq_lt.mpr ((order.swap y x).mp (ordering_eq_gt.mp swapped))

theorem IsTotalOrder.toTransCmp (order : cmp.IsTotalOrder) : Std.TransCmp cmp.ordering where
  eq_swap := order.ordering_swap _ _
  isLE_trans {x y z} := by
    simp only [Ordering.isLE_iff_eq_lt_or_eq_eq, order.eq_iff, ordering_eq_lt]
    rintro (less | rfl) (less' | rfl)
    · exact .inl (order.trans _ _ _ less less')
    · exact .inl less
    · exact .inl less'
    · exact .inr rfl

/-- Nothing else compares as equal. -/
theorem IsTotalOrder.toLawfulEqCmp (order : cmp.IsTotalOrder) : Std.LawfulEqCmp cmp.ordering where
  compare_self := order.eq_iff.mpr rfl
  eq_of_compare := order.eq_iff.mp

end ComparatorT

/-- The default comparator returns 1 exactly for a greater address. -/
theorem defaultComparator_eq_one {x y : Nat} : defaultComparator x y = 1 ↔ y < x := by
  rw [defaultComparator]
  grind

theorem defaultComparator_isPreorder : defaultComparator.IsPreorder where
  total x y := by
    simp only [ne_eq, defaultComparator_eq_one]
    omega
  trans x y z := by
    simp only [ne_eq, defaultComparator_eq_one]
    omega

theorem defaultComparator_isTotalOrder : defaultComparator.IsTotalOrder where
  range x y := by
    rw [defaultComparator]
    grind
  equal x y := by
    rw [defaultComparator]
    grind
  swap x y := by
    rw [defaultComparator, defaultComparator]
    grind
  trans x y z := by
    simp only [defaultComparator]
    grind

end Hydrangea
