import Mathlib

/-! First-fit allocation from an ordered list of free blocks.
Blocks are half-open intervals of addresses; an arena holds the free blocks and the blocks
handed out, and keeps them inside its bounds and apart from each other.
-/

/-- A block of `size` addresses from `addr` on. -/
structure Block where
  addr : Nat
  size : Nat
  deriving DecidableEq

namespace Block

def bytes (b : Block) : Set Nat :=
  Set.Ico b.addr (b.addr + b.size)

/-- The block lies between two addresses. -/
def Within (lo hi : Nat) (b : Block) : Prop :=
  lo ≤ b.addr ∧ b.addr + b.size ≤ hi

/-- The first block ends before the second one starts. -/
def Before (b c : Block) : Prop :=
  b.addr + b.size ≤ c.addr

/-- A block that ends before another starts has no address in common with it. -/
theorem Before.disjoint {b c : Block} (h : b.Before c) : Disjoint b.bytes c.bytes :=
  Set.Ico_disjoint_Ico.mpr (le_trans (min_le_left _ _) (le_trans h (le_max_right _ _)))

/-- Blocks in order of their ends and starts are in order of their addresses. -/
theorem Before.addr_le {b c : Block} (h : b.Before c) : b.addr ≤ c.addr :=
  le_trans (Nat.le_add_right _ _) h

end Block

/-- The free blocks, in list order, and the blocks handed out, oldest first. -/
structure Arena where
  free : List Block
  allocated : List Block

namespace Arena

/-- First fit: the block taken from the free list and what remains of the list. -/
def take (size : Nat) : List Block → Option (Block × List Block)
  | [] => none
  | b :: bs =>
      if b.size < size then
        (take size bs).map (fun r => (r.1, b :: r.2))
      else if size < b.size then
        some (⟨b.addr, size⟩, ⟨b.addr + size, b.size - size⟩ :: bs)
      else
        some (⟨b.addr, size⟩, bs)

/-- An arena serves a request from its free list, or refuses it and stays as it is. -/
def alloc (a : Arena) (size : Nat) : Option Nat × Arena :=
  match take size a.free with
  | none => (none, a)
  | some (b, rest) => (some b.addr, ⟨rest, a.allocated ++ [b]⟩)

/-- The free list is ordered, everything lies between `lo` and `hi`, and no two blocks
overlap.
-/
structure WellFormed (a : Arena) (lo hi : Nat) : Prop where
  ordered : a.free.Pairwise Block.Before
  freeWithin : ∀ b ∈ a.free, b.Within lo hi
  allocatedWithin : ∀ b ∈ a.allocated, b.Within lo hi
  allocatedApart : a.allocated.Pairwise (fun b c => Disjoint b.bytes c.bytes)
  freeApart : ∀ b ∈ a.allocated, ∀ c ∈ a.free, Disjoint b.bytes c.bytes

/-- An arena whose only free block fills its bounds is well-formed. -/
theorem WellFormed.initial (lo size : Nat) : WellFormed ⟨[⟨lo, size⟩], []⟩ lo (lo + size) where
  ordered := List.pairwise_singleton _ _
  freeWithin := by simp [Block.Within]
  allocatedWithin := by simp
  allocatedApart := .nil
  freeApart := by simp

/-- First fit fails exactly when every free block is too small, by induction on the list. -/
theorem take_eq_none {size : Nat} {free : List Block}
    : take size free = none ↔ ∀ b ∈ free, b.size < size := by
  induction free with
  | nil => simp [take]
  | cons b bs ih =>
      by_cases small : b.size < size
      · simp [take, small, ih]
      · by_cases split : size < b.size <;> simp [take, small, split]

/-- First fit passes over the blocks that are too small. -/
theorem take_append {size : Nat} {pre post : List Block} (small : ∀ b ∈ pre, b.size < size)
    : take size (pre ++ post) = (take size post).map (fun r => (r.1, pre ++ r.2)) := by
  induction pre with
  | nil => simp
  | cons b bs ih =>
      rw [List.cons_append, take, if_pos (small b (by simp)),
        ih (fun c member => small c (by simp [member])), Option.map_map]
      rfl

/-- What first fit takes and what it leaves: the block taken and every block left lie in an
old free block, the block taken is apart from those left, and the order is kept.
-/
theorem take_spec {size : Nat} {free rest : List Block} {b : Block}
    (h : take size free = some (b, rest)) (ordered : free.Pairwise Block.Before)
    : b.size = size
      ∧ (∃ c ∈ free, b.addr = c.addr ∧ b.size ≤ c.size)
      ∧ (∀ d ∈ rest, ∃ c ∈ free, c.addr ≤ d.addr ∧ d.addr + d.size = c.addr + c.size)
      ∧ (∀ d ∈ rest, Disjoint b.bytes d.bytes)
      ∧ rest.Pairwise Block.Before := by
  induction free generalizing rest with
  | nil => simp [take] at h
  | cons c cs ih =>
      obtain ⟨first, later⟩ := List.pairwise_cons.mp ordered
      have apart {d e : Block} (inside : e.addr = c.addr) (small : e.size ≤ c.size)
          (member : d ∈ cs)
          : Disjoint e.bytes d.bytes := by
        refine Block.Before.disjoint ?_
        have := first d member
        simp only [Block.Before] at *
        omega
      by_cases small : c.size < size
      · rw [take, if_pos small] at h
        obtain ⟨⟨b', rest'⟩, found, same⟩ := Option.map_eq_some_iff.mp h
        obtain ⟨rfl, rfl⟩ := Prod.mk.inj same
        obtain ⟨sized, ⟨d, member, addr, le⟩, kept, separate, sorted⟩ := ih found later
        refine ⟨sized, ⟨d, by simp [member], addr, le⟩, ?_, ?_, ?_⟩
        · intro e inRest
          rcases List.mem_cons.mp inRest with rfl | tail
          · exact ⟨e, by simp, Nat.le_refl _, rfl⟩
          · obtain ⟨f, inOld, bounds⟩ := kept e tail
            exact ⟨f, by simp [inOld], bounds⟩
        · intro e inRest
          rcases List.mem_cons.mp inRest with rfl | tail
          · refine (Block.Before.disjoint ?_).symm
            have := first d member
            simp only [Block.Before] at *
            omega
          · exact separate e tail
        · refine List.pairwise_cons.mpr ⟨?_, sorted⟩
          intro e tail
          obtain ⟨f, inOld, lower, _⟩ := kept e tail
          exact le_trans (first f inOld) lower
      · by_cases split : size < c.size
        · rw [take, if_neg small, if_pos split] at h
          obtain ⟨rfl, rfl⟩ := Prod.mk.inj (Option.some.inj h)
          refine ⟨rfl, ⟨c, by simp, rfl, by simpa using split.le⟩, ?_, ?_, ?_⟩
          · intro e inRest
            rcases List.mem_cons.mp inRest with rfl | tail
            · exact ⟨c, by simp, by simp, by simp only; omega⟩
            · exact ⟨e, by simp [tail], Nat.le_refl _, rfl⟩
          · intro e inRest
            rcases List.mem_cons.mp inRest with rfl | tail
            · exact Block.Before.disjoint (Nat.le_refl _)
            · exact apart rfl split.le tail
          · refine List.pairwise_cons.mpr ⟨fun e tail => ?_, later⟩
            have := first e tail
            simp only [Block.Before] at *
            omega
        · rw [take, if_neg small, if_neg split] at h
          obtain ⟨rfl, rfl⟩ := Prod.mk.inj (Option.some.inj h)
          refine ⟨rfl, ⟨c, by simp, rfl, by simp only; omega⟩, ?_, ?_, later⟩
          · exact fun e tail => ⟨e, by simp [tail], Nat.le_refl _, rfl⟩
          · exact fun e tail => apart rfl (by simp only; omega) tail

def bytes (blocks : List Block) : Set Nat :=
  {x | ∃ b ∈ blocks, x ∈ b.bytes}

/-- The addresses of a block and those of the others. -/
theorem bytes_cons (b : Block) (bs : List Block) : bytes (b :: bs) = b.bytes ∪ bytes bs := by
  ext x
  simp [bytes]

/-- First fit takes from the first block that is large enough, by induction on the list. -/
theorem take_addr (size : Nat) (free : List Block)
    : (take size free).map (fun r => r.1.addr)
      = (free.find? (fun b => size ≤ b.size)).map Block.addr := by
  induction free with
  | nil => rfl
  | cons b bs ih =>
      rw [take]
      by_cases small : b.size < size
      · rw [if_pos small, List.find?_cons_of_neg (by simpa using small), ← ih, Option.map_map]
        rfl
      · rw [if_neg small, List.find?_cons_of_pos (by simpa using small)]
        split <;> rfl

/-- What is left of a block has addresses if all blocks had, by induction on the list. -/
theorem take_positive {size : Nat} {free rest : List Block} {b : Block}
    (h : take size free = some (b, rest)) (positive : ∀ c ∈ free, 0 < c.size)
    : ∀ c ∈ rest, 0 < c.size := by
  induction free generalizing rest with
  | nil => cases h
  | cons c cs ih =>
      obtain ⟨first, others⟩ := List.forall_mem_cons.mp positive
      rw [take] at h
      split at h
      · obtain ⟨⟨b', rest'⟩, found, same⟩ := Option.map_eq_some_iff.mp h
        obtain ⟨rfl, rfl⟩ := Prod.mk.inj same
        exact List.forall_mem_cons.mpr ⟨first, ih found others⟩
      · split at h
        · next cut =>
            obtain ⟨-, rfl⟩ := Prod.mk.inj (Option.some.inj h)
            exact List.forall_mem_cons.mpr ⟨Nat.sub_pos_of_lt cut, others⟩
        · obtain ⟨-, rfl⟩ := Prod.mk.inj (Option.some.inj h)
          exact others

/-- The addresses left are the old ones but for those of the block taken, by induction on the list.
-/
theorem take_bytes {size : Nat} {free rest : List Block} {b : Block}
    (h : take size free = some (b, rest)) (ordered : free.Pairwise Block.Before)
    : bytes rest = bytes free \ b.bytes := by
  induction free generalizing rest with
  | nil => cases h
  | cons c cs ih =>
      obtain ⟨first, later⟩ := List.pairwise_cons.mp ordered
      have apart : Disjoint c.bytes (bytes cs) := by
        refine Set.disjoint_right.mpr ?_
        rintro x ⟨d, member, inside⟩
        exact Set.disjoint_right.mp (first d member).disjoint inside
      rw [take] at h
      split at h
      · obtain ⟨⟨b', rest'⟩, found, same⟩ := Option.map_eq_some_iff.mp h
        obtain ⟨rfl, rfl⟩ := Prod.mk.inj same
        obtain ⟨-, ⟨d, member, addr, le⟩, -, -, -⟩ := take_spec found later
        have inside : b'.bytes ⊆ bytes cs := fun x inB =>
          ⟨d, member, by rw [Block.bytes, ← addr]; exact ⟨inB.1, by have := inB.2; omega⟩⟩
        have outside : c.bytes \ b'.bytes = c.bytes := (apart.mono_right inside).sdiff_eq_left
        rw [bytes_cons, bytes_cons, ih found later, Set.union_sdiff_distrib, outside]
      · next large =>
          have cutOff (b' : Block) (start : b'.addr = c.addr) (small : b'.size ≤ c.size)
              : bytes cs \ b'.bytes = bytes cs := by
            refine (apart.mono_left ?_).symm.sdiff_eq_left
            intro x inB
            rw [Block.bytes, start] at inB
            exact ⟨inB.1, by have := inB.2; omega⟩
          split at h
          · next cut =>
              obtain ⟨rfl, rfl⟩ := Prod.mk.inj (Option.some.inj h)
              rw [bytes_cons, bytes_cons, Set.union_sdiff_distrib,
                cutOff ⟨c.addr, size⟩ rfl (Nat.le_of_lt cut)]
              congr 1
              ext x
              simp only [Block.bytes, Set.mem_Ico, Set.mem_sdiff]
              omega
          · next used =>
              obtain ⟨rfl, rfl⟩ := Prod.mk.inj (Option.some.inj h)
              have whole : size = c.size := by omega
              rw [bytes_cons, Set.union_sdiff_distrib,
                cutOff ⟨c.addr, size⟩ rfl (Nat.le_of_eq whole), whole, Set.sdiff_self, Set.empty_union]

/-- The blocks handed out are apart from those left. -/
theorem take_apart {size : Nat} {free rest allocated : List Block} {b : Block}
    (h : take size free = some (b, rest)) (ordered : free.Pairwise Block.Before)
    (apart : ∀ d ∈ allocated, ∀ c ∈ free, Disjoint d.bytes c.bytes)
    : ∀ d ∈ allocated ++ [b], ∀ e ∈ rest, Disjoint d.bytes e.bytes := by
  obtain ⟨-, -, kept, separate, -⟩ := take_spec h ordered
  intro d member e left
  rcases List.mem_append.mp member with old | new
  · obtain ⟨f, inOld, lower, upper⟩ := kept e left
    refine (apart d old f inOld).mono_right ?_
    intro x inside
    simp only [Block.bytes, Set.mem_Ico] at *
    omega
  · rw [List.mem_singleton.mp new]
    exact separate e left

/-- Serving a request keeps an arena well-formed: everything moved stays inside the free
block it came from.
-/
theorem WellFormed.alloc {a : Arena} {lo hi : Nat} (h : a.WellFormed lo hi) (size : Nat)
    : (a.alloc size).2.WellFormed lo hi := by
  unfold Arena.alloc
  cases found : take size a.free with
  | none => exact h
  | some r =>
      obtain ⟨b, rest⟩ := r
      obtain ⟨-, ⟨c, inFree, addr, le⟩, kept, -, sorted⟩ := take_spec found h.ordered
      have inside : b.bytes ⊆ c.bytes := by
        intro x hx
        simp only [Block.bytes, Set.mem_Ico] at *
        omega
      refine ⟨sorted, ?_, ?_, ?_, ?_⟩
      · intro d member
        obtain ⟨e, inOld, lower, upper⟩ := kept d member
        have := h.freeWithin e inOld
        simp only [Block.Within] at *
        omega
      · intro d member
        rcases List.mem_append.mp member with old | new
        · exact h.allocatedWithin d old
        · have := h.freeWithin c inFree
          rw [List.mem_singleton.mp new]
          simp only [Block.Within] at *
          omega
      · refine List.pairwise_append.mpr ⟨h.allocatedApart, List.pairwise_singleton _ _, ?_⟩
        intro d old e new
        rw [List.mem_singleton.mp new]
        exact (h.freeApart d old c inFree).mono_right inside
      · exact take_apart found h.ordered h.freeApart

end Arena
