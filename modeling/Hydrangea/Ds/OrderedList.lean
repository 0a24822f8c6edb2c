import Hydrangea.Ds.Comparator
import Hydrangea.Mem.Pmm
import Mathlib.Data.List.Sort

/-! The ordered arrays of pointers of `kernel/ds/ordered_list.c`. An insertion and a removal
also return the indices at which they read and write the array.
-/

namespace Hydrangea

structure OrderedListT where
  items : Nat → Nat
  size : Nat
  maxSize : Nat

namespace OrderedListT

def sizeofPointer : Nat := 4

/-- `ol_place_at`, in a memory of pointers. The count of `memset` is an `int`: a product of `2 ^ 31` or
more is negative there, and nothing is cleared.
-/
def olPlaceAt (memory : Nat → Nat) (addr maxSize : Nat) : OrderedListT :=
  let n := maxSize * sizeofPointer % 2 ^ 32
  { items := fun i =>
      if n < 2 ^ 31 ∧ i < n / sizeofPointer then 0 else memory (addr + sizeofPointer * i)
    size := 0
    maxSize := maxSize % 2 ^ 32 }

/-- `ol_create`: the list, and the `placement_addr` that `pmalloc` leaves. -/
def olCreate (memory : Nat → Nat) (placementAddr maxSize : Nat) : OrderedListT × Nat :=
  let items := pmalloc placementAddr (maxSize * sizeofPointer % 2 ^ 32)
  (olPlaceAt memory items.1 maxSize, items.2)

/-- The first loop of `ol_insert`: the indices it reads and the last `i`. It reads an item before
it looks at the bound.
-/
def findIndex (ol : OrderedListT) (item : Nat) (cmp : ComparatorT) (i : Nat) : List Nat × Nat :=
  if cmp item (ol.items i) = 1 ∧ i < ol.size then
    let rest := ol.findIndex item cmp (i + 1)
    (i :: rest.1, rest.2)
  else
    ([i], i)
termination_by ol.size - i

/-- The second loop of `ol_insert`, which reads an item before it writes the one it carries:
the indices and the items after it.
-/
def carry (size : Nat) (items : Nat → Nat) (i tmp : Nat) : List Nat × (Nat → Nat) :=
  if i < size then
    let rest := carry size (Function.update items (i + 1) tmp) (i + 1) (items (i + 1))
    ((i + 1) :: (i + 1) :: rest.1, rest.2)
  else
    ([], items)
termination_by size - i

/-- `ol_insert`: the indices at which it reads and writes, and the list after it. -/
def olInsert (ol : OrderedListT) (item : Nat) (cmp : ComparatorT) : List Nat × OrderedListT :=
  let found := ol.findIndex item cmp 0
  let i := found.2
  if i = ol.size then
    (found.1 ++ [ol.size],
      { ol with
        items := Function.update ol.items ol.size item
        size := (ol.size + 1) % 2 ^ 32 })
  else
    let carried := carry ol.size (Function.update ol.items i item) i (ol.items i)
    (found.1 ++ i :: i :: carried.1,
      { ol with
        items := carried.2
        size := (ol.size + 1) % 2 ^ 32 })

/-- Insert items one after another: all indices used, and the list after them. -/
def insertAll (cmp : ComparatorT) (ol : OrderedListT) : List Nat → List Nat × OrderedListT
  | [] => ([], ol)
  | item :: items =>
      let first := ol.olInsert item cmp
      let rest := insertAll cmp first.2 items
      (first.1 ++ rest.1, rest.2)

/-- `ol_find`: the item, or null. -/
def olFind (ol : OrderedListT) (index : Nat) : Nat :=
  if index ≥ ol.size then 0 else ol.items index

/-- The loop of `ol_remove`, which writes at an index what it reads at the next one: the indices
and the items after it.
-/
def shift (size : Nat) (items : Nat → Nat) (index : Nat) : List Nat × (Nat → Nat) :=
  if index < size then
    let rest := shift size (Function.update items index (items (index + 1))) (index + 1)
    ((index + 1) :: index :: rest.1, rest.2)
  else
    ([], items)
termination_by size - index

/-- `ol_remove`: the indices at which it reads and writes, and the list after it. The size is
counted down whatever the index is.
-/
def olRemove (ol : OrderedListT) (index : Nat) : List Nat × OrderedListT :=
  let shifted := shift ol.size ol.items index
  (shifted.1, { ol with
    items := shifted.2
    size := (ol.size + (2 ^ 32 - 1)) % 2 ^ 32 })

/-- A list as `ol_create` and `ol_place_at` make it. -/
inductive Made (maxSize : Nat) : OrderedListT → Prop where
  | created (memory : Nat → Nat) (placementAddr : Nat)
    : Made maxSize (olCreate memory placementAddr maxSize).1
  | placed (memory : Nat → Nat) (addr : Nat) : Made maxSize (olPlaceAt memory addr maxSize)

/-- `items[0..size)`. -/
def toList (ol : OrderedListT) : List Nat :=
  (List.range ol.size).map ol.items

variable {ol : OrderedListT} {cmp : ComparatorT} {item maxSize : Nat}

-----------------------------------------------------------------------------------------
-- The two loops
-----------------------------------------------------------------------------------------

/-- Where the first loop ends, from `i` on: it has passed smaller items only, and has read no index
behind the size.
-/
structure Found (ol : OrderedListT) (item : Nat) (cmp : ComparatorT) (i : Nat)
    (found : List Nat × Nat)
    : Prop where
  start : i ≤ found.2
  inside : found.2 ≤ ol.size
  passed : ∀ j, i ≤ j → j < found.2 → cmp item (ol.items j) = 1
  ended : found.2 < ol.size → cmp item (ol.items found.2) ≠ 1
  reads : ∀ j ∈ found.1, j ≤ ol.size

/-- What the first loop finds, by induction on the items left. -/
theorem findIndex_found (ol : OrderedListT) (item : Nat) (cmp : ComparatorT) {i : Nat}
    (inside : i ≤ ol.size)
    : Found ol item cmp i (ol.findIndex item cmp i) := by
  fun_induction findIndex ol item cmp i with
  | case1 i goes rest ih =>
      obtain ⟨start, inside', passed, ended, reads⟩ := ih (by omega)
      refine ⟨by simp only [rest]; omega, inside', fun j low high => ?_, ended, ?_⟩
      · rcases Nat.eq_or_lt_of_le low with rfl | after
        · exact goes.1
        · exact passed j after high
      · exact List.forall_mem_cons.mpr ⟨inside, reads⟩
  | case2 i ends =>
      refine ⟨le_refl i, inside, fun j low high => ?_, fun below same => ?_, ?_⟩
      · exact absurd high (Nat.not_lt.mpr low)
      · exact ends ⟨same, below⟩
      · simpa using inside

/-- The second loop moves the items behind `i` up by one, by induction on their number. -/
theorem carry_apply {size i : Nat} {items : Nat → Nat} {tmp : Nat} (inside : i ≤ size) (j : Nat)
    : (carry size items i tmp).2 j
      = if j ≤ i ∨ size < j then items j
        else if j = i + 1 then tmp
        else items (j - 1) := by
  fun_induction carry size items i tmp with
  | case1 items i tmp below rest ih =>
      rw [ih below]
      grind
  | case2 items i tmp ends => grind

/-- The second loop stays within the size, by induction on the items left. -/
theorem carry_indices {size i : Nat} {items : Nat → Nat} {tmp : Nat}
    : ∀ j ∈ (carry size items i tmp).1, j ≤ size := by
  fun_induction carry size items i tmp with
  | case1 items i tmp below rest ih =>
      exact List.forall_mem_cons.mpr ⟨below, List.forall_mem_cons.mpr ⟨below, ih⟩⟩
  | case2 => simp

/-- The items after an insertion: the ones from where the first loop ends on have moved up by one.
-/
theorem olInsert_items (ol : OrderedListT) (item : Nat) (cmp : ComparatorT) {j : Nat}
    (inside : j ≤ ol.size)
    : (ol.olInsert item cmp).2.items j
      = if j < (ol.findIndex item cmp 0).2 then ol.items j
        else if j = (ol.findIndex item cmp 0).2 then item
        else ol.items (j - 1) := by
  obtain ⟨-, bound, -, -, -⟩ := findIndex_found ol item cmp (Nat.zero_le ol.size)
  rw [olInsert]
  split
  · next last =>
      simp only
      grind
  · next before =>
      simp only
      rw [carry_apply bound]
      grind

/-- An insertion uses no index behind the size. -/
theorem olInsert_indices (ol : OrderedListT) (item : Nat) (cmp : ComparatorT)
    : ∀ j ∈ (ol.olInsert item cmp).1, j ≤ ol.size := by
  obtain ⟨-, bound, -, -, reads⟩ := findIndex_found ol item cmp (Nat.zero_le ol.size)
  rw [olInsert]
  split
  · exact List.forall_mem_append.mpr ⟨reads, by simp⟩
  · refine List.forall_mem_append.mpr ⟨reads, ?_⟩
    exact List.forall_mem_cons.mpr
      ⟨bound, List.forall_mem_cons.mpr ⟨bound, carry_indices⟩⟩

theorem olInsert_size (ol : OrderedListT) (item : Nat) (cmp : ComparatorT)
    : (ol.olInsert item cmp).2.size = (ol.size + 1) % 2 ^ 32
      ∧ (ol.olInsert item cmp).2.maxSize = ol.maxSize := by
  rw [olInsert]
  split <;> exact ⟨rfl, rfl⟩

-----------------------------------------------------------------------------------------
-- Insertion in order
-----------------------------------------------------------------------------------------

/-- Insertion in order goes behind the elements that are smaller, by induction on them. -/
theorem orderedInsert_append {α : Type*} {r : α → α → Prop} [DecidableRel r] {a : α}
    {pre post : List α} (smaller : ∀ b ∈ pre, ¬ r a b) (ended : ∀ b ∈ post.head?, r a b)
    : (pre ++ post).orderedInsert r a = pre ++ a :: post := by
  induction pre with
  | nil =>
      cases post with
      | nil => rfl
      | cons b post => exact List.orderedInsert_cons_of_le _ _ (ended b rfl)
  | cons b pre ih =>
      obtain ⟨first, rest⟩ := List.forall_mem_cons.mp smaller
      rw [List.cons_append, List.orderedInsert_of_not_le _ _ first, ih rest]
      rfl

theorem toList_olInsert (item : Nat) (cmp : ComparatorT) (small : ol.size + 1 < 2 ^ 32)
    : (ol.olInsert item cmp).2.toList = ol.toList.orderedInsert cmp.Le item := by
  obtain ⟨-, bound, passed, ended, -⟩ := findIndex_found ol item cmp (Nat.zero_le ol.size)
  generalize place : (ol.findIndex item cmp 0).2 = i at bound passed ended
  have smaller : ∀ b ∈ ol.toList.take i, ¬ cmp.Le item b := by
    intro b member
    obtain ⟨j, below, rfl⟩ := List.mem_iff_getElem.mp member
    have before : j < i := by
      rw [List.length_take] at below
      omega
    simpa [toList] using passed j (Nat.zero_le j) before
  have stopped : ∀ b ∈ (ol.toList.drop i).head?, cmp.Le item b := by
    intro b member
    rw [List.head?_drop, toList, List.getElem?_map] at member
    obtain ⟨j, at', rfl⟩ := Option.map_eq_some_iff.mp member
    obtain ⟨below, rfl⟩ := List.getElem?_eq_some_iff.mp at'
    rw [List.getElem_range]
    exact ended (by simpa using below)
  have parts := orderedInsert_append smaller stopped
  rw [List.take_append_drop] at parts
  have count := (olInsert_size ol item cmp).1
  rw [Nat.mod_eq_of_lt small] at count
  rw [parts, toList, count]
  refine List.ext_getElem ?_ (fun j below below' => ?_)
  · simp [toList]
    omega
  · have inside : j ≤ ol.size := by simpa using Nat.lt_succ_iff.mp (by simpa using below)
    have length : (ol.toList.take i).length = i := by simpa [toList] using bound
    rw [List.getElem_map, List.getElem_range, olInsert_items ol item cmp inside, place,
      List.getElem_append]
    simp only [length]
    split
    · simp [toList]
    · next behind =>
        rw [List.getElem_cons]
        split
        · rw [dif_pos (by omega)]
        · rw [dif_neg (by omega)]
          simp only [toList, List.getElem_drop, List.getElem_map, List.getElem_range]
          congr 1
          omega

/-- The list holds exactly some items, in order, in an array of a given size. -/
structure Holds (cmp : ComparatorT) (maxSize : Nat) (ol : OrderedListT) (items : List Nat)
    : Prop where
  sorted : ol.toList.Pairwise cmp.Le
  perm : ol.toList.Perm items
  count : ol.size = items.length
  capacity : ol.maxSize = maxSize

/-- A new list holds nothing. -/
theorem Made.holds (made : Made maxSize ol) (cmp : ComparatorT)
    : Holds cmp (maxSize % 2 ^ 32) ol [] := by
  cases made <;> exact ⟨.nil, .nil, rfl, rfl⟩

/-- An insertion into a list with room for it adds the item in order, and stays in the array. -/
theorem Holds.olInsert (preorder : cmp.IsPreorder) {items : List Nat}
    (h : Holds cmp maxSize ol items) (room : items.length < maxSize) (small : maxSize < 2 ^ 32)
    (item : Nat)
    : Holds cmp maxSize (ol.olInsert item cmp).2 (item :: items)
      ∧ ∀ i ∈ (ol.olInsert item cmp).1, i < maxSize := by
  obtain ⟨sorted, perm, count, capacity⟩ := h
  have inserted : (ol.olInsert item cmp).2.toList = ol.toList.orderedInsert cmp.Le item :=
    toList_olInsert item cmp (by omega)
  have := preorder.toTotal
  have := preorder.toIsTrans
  refine ⟨⟨?_, ?_, ?_, ?_⟩, fun i member => ?_⟩
  · rw [inserted]
    exact sorted.orderedInsert item _
  · rw [inserted]
    exact (List.perm_orderedInsert cmp.Le item _).trans (perm.cons item)
  · rw [(olInsert_size ol item cmp).1, count, Nat.mod_eq_of_lt (by omega), List.length_cons]
  · exact (olInsert_size ol item cmp).2.trans capacity
  · have bound := olInsert_indices ol item cmp i member
    omega

/-- Insertions for which there is room add their items in order, and stay in the array, by
induction on the items.
-/
theorem Holds.insertAll (preorder : cmp.IsPreorder) {items before : List Nat}
    (h : Holds cmp maxSize ol before) (room : before.length + items.length ≤ maxSize)
    (small : maxSize < 2 ^ 32)
    : Holds cmp maxSize (insertAll cmp ol items).2 (items.reverse ++ before)
      ∧ ∀ i ∈ (insertAll cmp ol items).1, i < maxSize := by
  induction items generalizing ol before with
  | nil => exact ⟨h, by simp [OrderedListT.insertAll]⟩
  | cons item items ih =>
      rw [List.length_cons] at room
      obtain ⟨first, inside⟩ := h.olInsert preorder (by omega) small item
      obtain ⟨rest, inside'⟩ := ih first (by rw [List.length_cons]; omega)
      refine ⟨?_, List.forall_mem_append.mpr ⟨inside, inside'⟩⟩
      rw [List.reverse_cons, List.append_assoc]
      exact rest

/-- After at most as many insertions as there is capacity, the items of a new list are sorted and
are those inserted, the size counts them, and every index used lies in the array. By induction on
the items, where each insertion keeps the sorted front and shifts what is behind the new item.
-/
theorem insertAll_sorted (preorder : cmp.IsPreorder) (made : Made maxSize ol) (items : List Nat)
    (fits : items.length ≤ ol.maxSize)
    : (insertAll cmp ol items).2.toList.Pairwise cmp.Le
      ∧ (insertAll cmp ol items).2.toList.Perm items
      ∧ (insertAll cmp ol items).2.size = items.length
      ∧ ∀ i ∈ (insertAll cmp ol items).1, i < ol.maxSize := by
  have empty := made.holds cmp
  have capacity := empty.capacity
  have small : ol.maxSize < 2 ^ 32 := by
    rw [capacity]
    exact Nat.mod_lt _ (by decide)
  rw [← capacity] at empty
  have room : ([] : List Nat).length + items.length ≤ ol.maxSize := by simpa using fits
  obtain ⟨⟨sorted, perm, count, -⟩, inside⟩ := empty.insertAll preorder room small
  rw [List.append_nil] at perm count
  rw [List.length_reverse] at count
  exact ⟨sorted, perm.trans items.reverse_perm, count, inside⟩

/-- Three insertions fill a list of three pointers. -/
theorem insertAll_sorted_three
    : ∃ ol, Made 3 ol
      ∧ (insertAll defaultComparator ol [7, 9, 7]).2.toList.Perm [7, 9, 7]
      ∧ ∀ i ∈ (insertAll defaultComparator ol [7, 9, 7]).1, i < 3 := by
  have made : Made 3 (olCreate (fun _ => 5) 4096 3).1 := .created _ _
  obtain ⟨-, perm, -, inside⟩ :=
    insertAll_sorted defaultComparator_isPreorder made [7, 9, 7] (by decide)
  exact ⟨_, made, perm, inside⟩

-----------------------------------------------------------------------------------------
-- Removal
-----------------------------------------------------------------------------------------

/-- The loop moves the items behind the index down by one, by induction on their number. -/
theorem shift_apply (size : Nat) (items : Nat → Nat) (index j : Nat)
    : (shift size items index).2 j
      = if index ≤ j ∧ j < size then items (j + 1) else items j := by
  fun_induction shift size items index with
  | case1 items index below rest ih =>
      rw [ih]
      grind
  | case2 items index ends => grind

/-- The loop stays within the size, by induction on the items left. -/
theorem shift_indices (size : Nat) (items : Nat → Nat) (index : Nat)
    : ∀ j ∈ (shift size items index).1, j ≤ size := by
  fun_induction shift size items index with
  | case1 items index below rest ih =>
      exact List.forall_mem_cons.mpr ⟨below, List.forall_mem_cons.mpr ⟨below.le, ih⟩⟩
  | case2 => simp

/-- The loop reads the place behind the last item, by induction on the items left. -/
theorem size_mem_shift {size index : Nat} (items : Nat → Nat) (inside : index < size)
    : size ∈ (shift size items index).1 := by
  fun_induction shift size items index with
  | case1 items index below rest ih =>
      rcases Nat.eq_or_lt_of_le (Nat.succ_le_of_lt below) with last | further
      · exact last ▸ List.mem_cons_self ..
      · exact List.mem_cons_of_mem _ (List.mem_cons_of_mem _ (ih further))
  | case2 items index ends => exact absurd inside ends

theorem toList_olRemove {index : Nat} (inWord : ol.size < 2 ^ 32) (inside : index < ol.size)
    : (ol.olRemove index).2.toList = ol.toList.eraseIdx index := by
  have count : (ol.olRemove index).2.size = ol.size - 1 := by
    rw [olRemove]
    dsimp only
    omega
  have length : ol.toList.length = ol.size := by simp [toList]
  have items (j : Nat) : (ol.olRemove index).2.items j
      = if index ≤ j ∧ j < ol.size then ol.items (j + 1) else ol.items j :=
    shift_apply ol.size ol.items index j
  refine List.ext_getElem ?_ (fun j below below' => ?_)
  · rw [List.length_eraseIdx_of_lt (length ▸ inside), length, toList, List.length_map,
      List.length_range, count]
  · have small : j < ol.size - 1 := by simpa [toList, count] using below
    rw [List.getElem_eraseIdx]
    simp only [toList, List.getElem_map, List.getElem_range, items]
    split
    · next behind => rw [dif_neg (by omega)]
    · next front => rw [dif_pos (by omega)]

/-- What a removal is for: it removes the item at the index, or nothing when there is none, and
uses no index behind the array.
-/
structure RemovesAt (ol : OrderedListT) (index : Nat) : Prop where
  removed : index < ol.size → (ol.olRemove index).2.toList = ol.toList.eraseIdx index
  unchanged : ol.size ≤ index → ol.olFind index = 0 ∧ (ol.olRemove index).2 = ol
  inArray : ∀ i ∈ (ol.olRemove index).1, i < ol.maxSize

/-- `ol_remove` does this for the items of a list that is not full, and for no others. An index
behind the end still makes `size` less, and with a full array the last round of the shift reads
behind it; in all other cases the shift is a removal.
-/
theorem olRemove_removesAt_iff (ol : OrderedListT) (index : Nat) (inWord : ol.size < 2 ^ 32)
    : RemovesAt ol index ↔ index < ol.size ∧ ol.size < ol.maxSize := by
  constructor
  · intro h
    have inside : index < ol.size := by
      by_contra outside
      have same := congrArg size (h.unchanged (Nat.le_of_not_lt outside)).2
      rw [olRemove] at same
      dsimp only at same
      omega
    exact ⟨inside, h.inArray ol.size (size_mem_shift ol.items inside)⟩
  · rintro ⟨inside, room⟩
    refine ⟨toList_olRemove inWord, fun outside => ?_, fun i used => ?_⟩
    · exact absurd inside (Nat.not_lt.mpr outside)
    · exact Nat.lt_of_le_of_lt (shift_indices _ _ _ i used) room

/-- Two items in an array of three. -/
theorem olRemove_removesAt_iff_two : RemovesAt ⟨fun i => i + 7, 2, 3⟩ 0 :=
  (olRemove_removesAt_iff ⟨fun i => i + 7, 2, 3⟩ 0 (by decide)).mpr (by decide)

/-- A removal from a full list reads behind the array. -/
theorem olRemove_not_removesAt
    : ¬ ∀ (ol : OrderedListT) (index : Nat), ol.size ≤ ol.maxSize → ol.maxSize < 2 ^ 32
      → index < 2 ^ 32 → RemovesAt ol index := by
  intro always
  have full := (always ⟨fun i => i + 7, 1, 1⟩ 0 (by decide) (by decide) (by decide)).inArray
  refine absurd (full 1 ?_) (by decide)
  exact size_mem_shift _ Nat.zero_lt_one

end OrderedListT

end Hydrangea
