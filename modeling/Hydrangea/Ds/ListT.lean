import Hydrangea.Lib.Transition
import Mathlib.Data.List.Range
import Mathlib.Logic.Function.Basic

/-! The growing arrays of pointers of `kernel/ds/list.c`. A pointer is its address, NULL is 0.
The array is a function from indices, so an index beyond it reads what lies behind it.
-/

namespace Hydrangea

structure ListT where
  data : Nat → Nat
  used : Nat
  size : Nat

namespace ListT

/-- `make_list`; `junk` is what the new array holds. -/
def makeList (junk : Nat → Nat) (size : Nat) : ListT :=
  { data := junk, used := 0, size }

/-- `list_push`: the index returned and the new list. When the array moves, `krealloc` copies
the old one and whatever lies behind it, `junk`.
-/
def listPush (junk : Nat → Nat) (list : ListT) (element : Nat) : Nat × ListT :=
  let list :=
    if list.used = list.size then
      { list with
        size := list.size * 2 % 2 ^ 32
        data := fun i => if i < list.size then list.data i else junk i }
    else
      list
  (list.used,
    { list with
      data := Function.update list.data list.used element
      used := (list.used + 1) % 2 ^ 32 })

/-- The loop of `list_delete`, which moves `n` elements down by one from `index` on. -/
def moveDown (data : Nat → Nat) (index n : Nat) : Nat → Nat :=
  (List.range' index n).foldl (fun data i => Function.update data i (data (i + 1))) data

/-- `list_delete`: the code returned and the new list. -/
def listDelete (list : ListT) (index : Nat) : Nat × ListT :=
  if list.used < index then
    (1, list)
  else
    (0,
      { list with
        data := moveDown list.data index (list.used - index)
        used := (list.used + (2 ^ 32 - 1)) % 2 ^ 32 })

def listGet (list : ListT) (index : Nat) : Nat :=
  if list.used < index then 0 else list.data index

/-- Moving down changes exactly the elements it moves, by induction on their number. -/
theorem moveDown_apply (data : Nat → Nat) (index n j : Nat)
    : moveDown data index n j
      = if index ≤ j ∧ j < index + n then data (j + 1) else data j := by
  induction n generalizing j with
  | zero =>
      rw [if_neg (by omega)]
      rfl
  | succ n ih =>
      rw [moveDown, List.range'_1_concat, List.foldl_append]
      change Function.update (moveDown data index n) (index + n)
        (moveDown data index n (index + n + 1)) j = _
      rcases eq_or_ne j (index + n) with rfl | other
      · rw [Function.update_self, ih, if_neg (by omega), if_pos (by omega)]
      · rw [Function.update_of_ne other, ih]
        have same : (index ≤ j ∧ j < index + n) ↔ (index ≤ j ∧ j < index + (n + 1)) := by
          omega
        simp only [same]

/-- Deleting the last element moves only what lies behind it. -/
theorem listDelete_last {list : ListT} {index : Nat} (last : index + 1 = list.used)
    (small : list.used < 2 ^ 32)
    : (list.listDelete index).2
      = { list with data := moveDown list.data index 1, used := index } := by
  have left : list.used - index = 1 := by omega
  have count : (list.used + (2 ^ 32 - 1)) % 2 ^ 32 = index := by omega
  rw [listDelete, if_neg (by omega), left, count]

/-- A push appends its element and keeps the others. -/
theorem listPush_eq (junk : Nat → Nat) {list : ListT} (element : Nat)
    (small : list.used + 1 < 2 ^ 32)
    : (list.listPush junk element).1 = list.used
      ∧ (list.listPush junk element).2.used = list.used + 1
      ∧ (list.listPush junk element).2.data list.used = element
      ∧ ∀ i < list.used, (list.listPush junk element).2.data i = list.data i := by
  have count : (list.used + 1) % 2 ^ 32 = list.used + 1 := Nat.mod_eq_of_lt small
  unfold listPush
  split
  · next full =>
      refine ⟨rfl, count, Function.update_self .., fun i below => ?_⟩
      have inside : i < list.size := full ▸ below
      simp only
      rw [Function.update_of_ne (Nat.ne_of_lt below), if_pos inside]
  · exact ⟨rfl, count, Function.update_self .., fun i below =>
      Function.update_of_ne (Nat.ne_of_lt below) ..⟩

-----------------------------------------------------------------------------------------
-- A list as a finite sequence
-----------------------------------------------------------------------------------------

/-- A call; `junk` is what lies behind the block that `krealloc` moves. -/
inductive Call where
  | push (junk : Nat → Nat) (element : Nat)
  | get (index : Nat)
  | delete (index : Nat)

def call (list : ListT) : Call → Nat × ListT
  | .push junk element => list.listPush junk element
  | .get index => (list.listGet index, list)
  | .delete index => list.listDelete index

/-- The indices at which a call reads and writes the array; moving element `i + 1` down reads it and
writes element `i`.
-/
def accesses (list : ListT) : Call → List Nat
  | .push _ _ => [list.used]
  | .get index => if list.used < index then [] else [index]
  | .delete index =>
      if list.used < index then []
      else (List.range' index (list.used - index)).flatMap (fun i => [i + 1, i])

def Call.apply (xs : List Nat) : Call → Nat × List Nat
  | .push _ element => (xs.length, xs ++ [element])
  | .get index => (xs[index]?.getD 0, xs)
  | .delete index => if index < xs.length then (0, xs.eraseIdx index) else (1, xs)

/-- Calls in any order on a list from `make_list`, with 32-bit indices. -/
def system (size : Nat) : TransitionSystem ListT Call where
  init list := ∃ junk, list = makeList junk size
  step list c list' :=
    (match c with
      | .push _ _ => True
      | .get index => index < 2 ^ 32
      | .delete index => index < 2 ^ 32)
    ∧ list' = (list.call c).2

def sequence : List (ListT × Call) → List Nat
  | [] => []
  | (_, c) :: steps => (c.apply (sequence steps)).2

/-- The elements of the list are those of a sequence. -/
structure Represents (list : ListT) (xs : List Nat) : Prop where
  used : list.used = xs.length
  element : ∀ i, ∀ x ∈ xs[i]?, list.data i = x

/-- A call returns what it returns on a sequence, leaves the elements of the sequence after it in
the list, and stays in the array.
-/
structure Correct (list : ListT) (xs : List Nat) (c : Call) : Prop where
  result : (list.call c).1 = (c.apply xs).1
  represents : (list.call c).2.Represents (c.apply xs).2
  inside : ∀ i ∈ list.accesses c, i < (list.call c).2.size

/-- The calls were correct, latest first, from the empty sequence on. -/
def Refines : List (ListT × Call) → Prop
  | [] => True
  | (list, c) :: steps => Refines steps ∧ list.Correct (sequence steps) c

/-- The call does not double a size of 2 ^ 31 or more, does not get the element behind the last one,
unless there is room for it and it is NULL, and deletes neither this one nor any from a full list.
-/
def Bounded (list : ListT) : Call → Prop
  | .push _ _ => list.used = list.size → list.size < 2 ^ 31
  | .get index => index = list.used → list.used < list.size ∧ list.data list.used = 0
  | .delete index => index ≠ list.used ∧ (index < list.used → list.used < list.size)

/-- What the list holds fits the array. -/
structure Roomy (list : ListT) : Prop where
  fits : list.used ≤ list.size
  positive : 0 < list.size
  small : list.size < 2 ^ 32

variable {list list' : ListT} {xs : List Nat}

theorem Represents.data_eq (h : list.Represents xs) {i : Nat} (inside : i < list.used)
    : xs[i]? = some (list.data i) := by
  have bound : i < xs.length := h.used ▸ inside
  rw [List.getElem?_eq_getElem bound, h.element i _ (List.getElem?_eq_getElem bound)]

/-- A push is correct, and leaves room, if and only if it can double the size. With room behind the
last element it is stored there; without, it lies in an array of twice the size, unless that does
not fit 32 bits.
-/
theorem Roomy.push_iff (roomy : list.Roomy) (h : list.Represents xs) (junk : Nat → Nat)
    (element : Nat)
    : (list.Correct xs (.push junk element) ↔ list.Bounded (.push junk element))
      ∧ (list.Bounded (.push junk element) → (list.call (.push junk element)).2.Roomy) := by
  obtain ⟨fits, positive, small⟩ := roomy
  -- the size after the call
  have size : (list.call (.push junk element)).2.size
      = if list.used = list.size then list.size * 2 % 2 ^ 32 else list.size := by
    rw [call, listPush]
    split <;> rfl
  have count : (list.call (.push junk element)).2.used = (list.used + 1) % 2 ^ 32 := by
    rw [call, listPush]
    split <;> rfl
  constructor
  · constructor
    · intro correct full
      have inside := correct.inside list.used (List.mem_singleton_self _)
      rw [size, if_pos full] at inside
      omega
    · intro bounded
      have few : list.used + 1 < 2 ^ 32 := by
        by_cases full : list.used = list.size
        · have := bounded full
          omega
        · omega
      obtain ⟨place, used, last, kept⟩ := listPush_eq junk element few
      refine ⟨place.trans h.used, ⟨?_, fun i x at_i => ?_⟩, fun i member => ?_⟩
      · rw [call, used, h.used, Call.apply, List.length_append, List.length_singleton]
      · rw [Call.apply, Option.mem_def, List.getElem?_append] at at_i
        split at at_i
        · next inside =>
            rw [call, kept i (h.used ▸ inside)]
            exact h.element i x at_i
        · next behind =>
            rw [List.getElem?_singleton] at at_i
            obtain ⟨zero, same⟩ := Option.ite_none_right_eq_some.mp at_i
            obtain rfl : i = list.used := by
              rw [h.used]
              omega
            rw [call, last, Option.some.inj same]
      · obtain rfl := List.mem_singleton.mp member
        rw [size]
        split
        · next full =>
            have := bounded full
            omega
        · omega
  · intro bounded
    refine ⟨?_, ?_, ?_⟩ <;> rw [size]
    · rw [count]
      split
      · next full =>
          have := bounded full
          omega
      · omega
    · split
      · next full =>
          have := bounded full
          omega
      · exact positive
    · split <;> omega

/-- A get is correct if and only if it does not go behind the sequence, or finds NULL there. -/
theorem Roomy.get_iff (roomy : list.Roomy) (h : list.Represents xs) (index : Nat)
    : list.Correct xs (.get index) ↔ list.Bounded (.get index) := by
  rcases Nat.lt_trichotomy index list.used with inside | rfl | behind
  · have found : list.listGet index = list.data index := if_neg (by omega)
    refine iff_of_true ⟨?_, h, fun i member => ?_⟩ (fun same => absurd same (by omega))
    · rw [call, Call.apply, found, h.data_eq inside, Option.getD_some]
    · rw [accesses, if_neg (by omega)] at member
      rw [List.mem_singleton.mp member]
      exact Nat.lt_of_lt_of_le inside roomy.fits
  · have found : list.listGet list.used = list.data list.used := if_neg (Nat.lt_irrefl _)
    have none : xs[list.used]? = none := by
      rw [h.used]
      exact List.getElem?_eq_none (Nat.le_refl _)
    constructor
    · rintro ⟨result, -, stays⟩ -
      rw [accesses, if_neg (Nat.lt_irrefl _)] at stays
      rw [call, Call.apply, found, none, Option.getD_none] at result
      exact ⟨stays _ (List.mem_singleton_self _), result⟩
    · intro bounded
      obtain ⟨room, null⟩ := bounded rfl
      refine ⟨?_, h, fun i member => ?_⟩
      · rw [call, Call.apply, found, none, Option.getD_none, null]
      · rw [accesses, if_neg (Nat.lt_irrefl _)] at member
        rwa [List.mem_singleton.mp member]
  · have found : list.listGet index = 0 := if_pos behind
    refine iff_of_true ⟨?_, h, fun i member => ?_⟩ (fun same => absurd same (by omega))
    · have none : xs[index]? = none := List.getElem?_eq_none (by rw [← h.used]; omega)
      rw [call, Call.apply, found, none, Option.getD_none]
    · rw [accesses, if_pos behind] at member
      cases member

/-- A delete is correct if and only if it is not of the element behind the last one, nor from a full
list.
-/
theorem Roomy.delete_iff (roomy : list.Roomy) (h : list.Represents xs) (index : Nat)
    : list.Correct xs (.delete index) ↔ list.Bounded (.delete index) := by
  obtain ⟨fits, -, small⟩ := roomy
  rcases Nat.lt_trichotomy index list.used with inside | rfl | behind
  · have bound : index < xs.length := h.used ▸ inside
    have moves : list.accesses (.delete index)
        = (List.range' index (list.used - index)).flatMap (fun i => [i + 1, i]) :=
      if_neg (by omega)
    have deleted : list.listDelete index
        = (0, { list with
            data := moveDown list.data index (list.used - index)
            used := (list.used + (2 ^ 32 - 1)) % 2 ^ 32 }) :=
      if_neg (by omega)
    have erased : (Call.delete index).apply xs = (0, xs.eraseIdx index) := if_pos bound
    constructor
    · intro correct
      refine ⟨Nat.ne_of_lt inside, fun _ => ?_⟩
      have last : list.used ∈ list.accesses (.delete index) := by
        rw [moves, List.mem_flatMap]
        refine ⟨list.used - 1, List.mem_range'_1.mpr (by omega), ?_⟩
        have same : list.used - 1 + 1 = list.used := by omega
        rw [same]
        exact List.mem_cons_self ..
      have size := correct.inside _ last
      rwa [call, deleted] at size
    · rintro ⟨-, room⟩
      have room := room inside
      refine ⟨?_, ⟨?_, fun i x at_i => ?_⟩, fun i member => ?_⟩
      · rw [call, deleted, erased]
      · rw [call, deleted, erased, List.length_eraseIdx_of_lt bound, ← h.used]
        dsimp only
        omega
      · rw [erased, Option.mem_def, List.getElem?_eraseIdx] at at_i
        rw [call, deleted]
        dsimp only
        rw [moveDown_apply]
        split at at_i
        · next before =>
            rw [if_neg (by omega)]
            exact h.element i x at_i
        · next after =>
            have short : i + 1 < list.used := by
              rw [h.used]
              exact (List.getElem?_eq_some_iff.mp at_i).1
            rw [if_pos (by omega)]
            exact h.element (i + 1) x at_i
      · rw [moves, List.mem_flatMap] at member
        obtain ⟨j, range, either⟩ := member
        have last := List.mem_range'_1.mp range
        have size : (list.call (.delete index)).2.size = list.size := by
          rw [call, deleted]
        rw [size]
        simp only [List.mem_cons, List.not_mem_nil, or_false] at either
        omega
  · refine iff_of_false (fun correct => ?_) (fun bounded => bounded.1 rfl)
    have result := correct.result
    have deleted : (list.listDelete list.used).1 = 0 := by
      rw [listDelete, if_neg (Nat.lt_irrefl _)]
    rw [call, deleted, Call.apply, if_neg (by rw [h.used]; exact Nat.lt_irrefl _)] at result
    cases result
  · have kept : list.listDelete index = (1, list) := if_pos behind
    have same : (Call.delete index).apply xs = (1, xs) := if_neg (by rw [← h.used]; omega)
    refine iff_of_true ⟨?_, ?_, fun i member => ?_⟩ ⟨by omega, fun inside => by omega⟩
    · rw [call, kept, same]
    · rw [call, kept, same]
      exact h
    · rw [accesses, if_pos behind] at member
      cases member

theorem Roomy.delete (roomy : list.Roomy) (h : list.Represents xs) {index : Nat}
    (bounded : list.Bounded (.delete index))
    : (list.call (.delete index)).2.Roomy := by
  have represents := ((roomy.delete_iff h index).mpr bounded).represents
  have size : (list.call (.delete index)).2.size = list.size := by
    rw [call, listDelete]
    split <;> rfl
  have shorter : ((Call.delete index).apply xs).2.length ≤ xs.length := by
    rw [Call.apply]
    split
    · exact List.length_eraseIdx_le ..
    · exact Nat.le_refl _
  have fits := roomy.fits
  refine ⟨?_, ?_, ?_⟩ <;> rw [size]
  · rw [represents.used]
    rw [h.used] at fits
    exact Nat.le_trans shorter fits
  · exact roomy.positive
  · exact roomy.small

/-- A call is correct if and only if it is bounded, and then the list has room again. -/
theorem Roomy.correct_iff (roomy : list.Roomy) (h : list.Represents xs) (c : Call)
    : (list.Correct xs c ↔ list.Bounded c) ∧ (list.Bounded c → (list.call c).2.Roomy) := by
  cases c with
  | push junk element => exact roomy.push_iff h junk element
  | get index => exact ⟨roomy.get_iff h index, fun _ => roomy⟩
  | delete index => exact ⟨roomy.delete_iff h index, roomy.delete h⟩

/-- A run refines the sequences as long as its calls are bounded, by induction on the run. -/
theorem run_represents {size : Nat} (positive : 1 ≤ size) (small : size < 2 ^ 32)
    {steps : List (ListT × Call)} (run : (system size).Run list steps)
    : (Refines steps ↔ ∀ taken ∈ steps, taken.1.Bounded taken.2)
      ∧ (Refines steps → list.Roomy ∧ list.Represents (sequence steps)) := by
  induction run with
  | start initial =>
      obtain ⟨junk, rfl⟩ := initial
      refine ⟨iff_of_true trivial (List.forall_mem_nil _), fun _ => ⟨⟨?_, positive, small⟩, rfl, ?_⟩⟩
      · exact Nat.zero_le size
      · exact fun _ _ none => (Option.not_mem_none _ none).elim
  | @next list c list' steps _ taken ih =>
      obtain ⟨-, rfl⟩ := taken
      obtain ⟨same, invariant⟩ := ih
      rw [List.forall_mem_cons, Refines, ← same, and_comm (a := list.Bounded c)]
      refine ⟨and_congr_right (fun refines => ?_), fun both => ?_⟩
      · obtain ⟨roomy, represents⟩ := invariant refines
        exact (roomy.correct_iff represents c).1
      · obtain ⟨refines, correct⟩ := both
        obtain ⟨roomy, represents⟩ := invariant refines
        obtain ⟨iff, after⟩ := roomy.correct_iff represents c
        exact ⟨after (iff.mp correct), correct.represents⟩

/-- A run refines the finite sequences if and only if its calls are bounded. By induction on the
run, each bounded call does to the array what it does to the sequence, and the first call that is
not bounded returns or leaves something else.
-/
theorem run_refines_iff {size : Nat} (positive : 1 ≤ size) (small : size < 2 ^ 32)
    {steps : List (ListT × Call)} (run : (system size).Run list steps)
    : Refines steps ↔ ∀ taken ∈ steps, taken.1.Bounded taken.2 :=
  (run_represents positive small run).1

instance (list : ListT) (c : Call) : Decidable (list.Bounded c) :=
  match c with
  | .push _ _ =>
      inferInstanceAs (Decidable (list.used = list.size → list.size < 2 ^ 31))
  | .get index =>
      inferInstanceAs (Decidable
        (index = list.used → list.used < list.size ∧ list.data list.used = 0))
  | .delete index =>
      inferInstanceAs (Decidable (index ≠ list.used ∧ (index < list.used → list.used < list.size)))

def oneElement : ListT :=
  makeList (fun _ => 0) 1

/-- The first of three elements is deleted from a list that has grown to size 4. -/
theorem run_refines_grown
    : ∃ list steps, (system 1).Run list steps ∧ sequence steps = [20, 30] ∧ Refines steps := by
  let pushed := (oneElement.call (.push (fun _ => 0) 10)).2
  let pushed' := (pushed.call (.push (fun _ => 0) 20)).2
  let pushed'' := (pushed'.call (.push (fun _ => 0) 30)).2
  have start : (system 1).Run oneElement [] := .start ⟨_, rfl⟩
  have first : (system 1).Run pushed _ := start.next ⟨trivial, rfl⟩
  have second : (system 1).Run pushed' _ := first.next ⟨trivial, rfl⟩
  have third : (system 1).Run pushed'' _ := second.next ⟨trivial, rfl⟩
  have run : (system 1).Run (pushed''.call (.delete 0)).2 _ := third.next ⟨by decide, rfl⟩
  refine ⟨_, _, run, rfl, (run_refines_iff (Nat.le_refl 1) (by decide) run).mpr ?_⟩
  decide

/-- Deleting from an empty list returns 0. -/
theorem run_not_refines
    : ¬ ∀ size, 1 ≤ size → size < 2 ^ 32 → ∀ list steps, (system size).Run list steps
        → Refines steps := by
  intro always
  have start : (system 1).Run oneElement [] := .start ⟨_, rfl⟩
  have run : (system 1).Run (oneElement.call (.delete 0)).2 _ := start.next ⟨by decide, rfl⟩
  have result := (always 1 (Nat.le_refl 1) (by decide) _ _ run).2.result
  revert result
  decide

end ListT

end Hydrangea
