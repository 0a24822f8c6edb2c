import Hydrangea.Mem.HeapFrees

/-! `krealloc` of `kernel/mem/heap.c`, with the bytes of the heap. The list nodes lie outside of it.
-/

namespace Hydrangea

namespace Kmem

-----------------------------------------------------------------------------------------
-- The functions
-----------------------------------------------------------------------------------------

def memcpy (mem : Nat → UInt8) (dest src : Nat) : (size : Nat) → (Nat → UInt8)
  | 0 => mem
  | size + 1 =>
      memcpy (Function.update mem dest (mem src)) ((dest + 1) % 2 ^ 32) ((src + 1) % 2 ^ 32) size

/-- What a call of `krealloc` leaves: the pointer that it returns, the heap and its bytes, and the
addresses of the bytes that it has read.
-/
structure Reallocated where
  returned : Nat
  heap : Kmem
  mem : Nat → UInt8
  reads : List Nat

def krealloc (s : Kmem) (mem : Nat → UInt8) (ptr newSize : Nat) : Option Reallocated :=
  if ptr = 0 then
    some { returned := 0, heap := s, mem, reads := [] }
  else do
    let (addr, s) ← s.heapAlloc newSize
    let newPtr := addr.getD 0
    if newPtr = 0 then
      return { returned := 0, heap := s, mem, reads := [] }
    else
      let mem := memcpy mem newPtr ptr newSize
      let heap ← s.heapFree ptr
      let reads := (List.range newSize).map (fun i => (ptr + i) % 2 ^ 32)
      return { returned := newPtr, heap, mem, reads }

-----------------------------------------------------------------------------------------
-- The property
-----------------------------------------------------------------------------------------

/-- What `krealloc` is to leave of a live block `b`. -/
structure Keeps (live : List Block) (mem : Nat → UInt8) (b : Block) (n : Nat) (r : Reallocated)
    : Prop where
  reads : ∀ a ∈ r.reads, a ∈ b.bytes
  others : ∀ c ∈ live.erase b, ∀ a ∈ c.bytes, r.mem a = mem a
  result : r.returned = 0 ∧ (∃ live', r.heap.LiveBlocks live' ∧ b ∈ live') ∧ (∀ a ∈ b.bytes, r.mem a = mem a)
    ∨ r.returned ≠ 0
      ∧ (∃ live', r.heap.LiveBlocks live' ∧ live'.Perm (live.erase b ++ [⟨r.returned, n⟩]))
      ∧ ∀ i < min b.size n, r.mem (r.returned + i) = mem (b.addr + i)

/-- `krealloc` returns, with a new block that has the bytes of the old one, or with null. -/
def Reallocates (s : Kmem) (live : List Block) (mem : Nat → UInt8) (b : Block) (n : Nat) : Prop :=
  ∃ r, s.krealloc mem b.addr n = some r ∧ Keeps live mem b n r

/-- The free block that `n` bytes are taken from. -/
def fit (free : List Block) (n : Nat) : Option Block :=
  free.find? (fun c => n ≤ c.size)

def leftOver (free : List Block) (n : Nat) : List Block :=
  free.filter (fun c => ¬ (fit free n = some c ∧ c.size = n))

/-- After that, `heap_free` can free a live block: there are free blocks on both sides of it, and
it is the first one that is recorded with its address, and not the first one of all.
-/
structure Removable (free live : List Block) (b : Block) (n : Nat) : Prop where
  below : ∃ c ∈ leftOver free n, c.addr < b.addr
  above : ∃ c ∈ leftOver free n, b.addr ≤ c.addr
  first : live.find? (fun c => c.addr = b.addr) = some b
  later : ∀ c ∈ live.head?, c.addr ≠ b.addr

/-- The pointer is null, or there is no new block, or the new block is not larger and the old one
can be freed.
-/
def Movable (free live : List Block) (b : Block) (n : Nat) : Prop :=
  b.addr = 0 ∨ (∀ c ∈ fit free n, c.addr = 0) ∨ (n ≤ b.size ∧ Removable free live b n)

-----------------------------------------------------------------------------------------
-- Copying
-----------------------------------------------------------------------------------------

/-- `memcpy` between areas that do not overlap, by induction on the size. -/
theorem memcpy_eq (mem : Nat → UInt8) {dest src size : Nat} (destFits : dest + size ≤ 2 ^ 32)
    (srcFits : src + size ≤ 2 ^ 32) (apart : 0 < size → dest + size ≤ src ∨ src + size ≤ dest) (a : Nat)
    : memcpy mem dest src size a
      = if dest ≤ a ∧ a < dest + size then mem (src + (a - dest)) else mem a := by
  induction size generalizing mem dest src with
  | zero => rw [memcpy, if_neg (by omega)]
  | succ size ih =>
      have apart := apart (Nat.succ_pos size)
      rw [memcpy]
      rcases Nat.eq_zero_or_pos size with rfl | more
      · rw [memcpy, Function.update_apply]
        by_cases here : a = dest
        · rw [if_pos here, if_pos (by omega), here, Nat.sub_self, Nat.add_zero]
        · rw [if_neg here, if_neg (by omega)]
      · rw [Nat.mod_eq_of_lt (show dest + 1 < 2 ^ 32 by omega),
          Nat.mod_eq_of_lt (show src + 1 < 2 ^ 32 by omega),
          ih _ (by omega) (by omega) (fun _ => by omega)]
        by_cases inside : dest ≤ a ∧ a < dest + (size + 1)
        · rw [if_pos inside]
          rcases Nat.eq_or_lt_of_le inside.1 with rfl | behind
          · rw [if_neg (by omega), Function.update_self, Nat.sub_self, Nat.add_zero]
          · have position : src + 1 + (a - (dest + 1)) = src + (a - dest) := by omega
            rw [if_pos (by omega), position, Function.update_of_ne (by omega)]
        · rw [if_neg inside, if_neg (by omega), Function.update_of_ne (by omega)]

-----------------------------------------------------------------------------------------
-- What is taken and what is left
-----------------------------------------------------------------------------------------

variable {s : Kmem} {fl al : List Nat} {b c : Block} {n : Nat} {free live pre post : List Block}

theorem leftOver_eq (sorted : (pre ++ c :: post).Pairwise Block.Before)
    (positive : ∀ d ∈ pre ++ c :: post, 0 < d.size)
    (found : fit (pre ++ c :: post) n = some c)
    : leftOver (pre ++ c :: post) n = pre ++ ((if c.size = n then [] else [c]) ++ post) := by
  have sizeC : 0 < c.size := positive c (by simp)
  have other : ∀ d, d ∈ pre ∨ d ∈ post → d ≠ c := by
    rintro d member rfl
    have ends : d.addr + d.size ≤ d.addr := by
      obtain ⟨-, behind, across⟩ := List.pairwise_append.mp sorted
      rcases member with before | after
      · exact across d before d (List.mem_cons_self ..)
      · exact (List.pairwise_cons.mp behind).1 d after
    omega
  have kept (ds : List Block) (part : ∀ d ∈ ds, d ∈ pre ∨ d ∈ post)
      : ds.filter (fun d => ¬ (fit (pre ++ c :: post) n = some d ∧ d.size = n)) = ds := by
    rw [List.filter_eq_self]
    intro d member
    rw [decide_eq_true_eq, found]
    rintro ⟨same, -⟩
    exact other d (part d member) (Option.some.inj same).symm
  rw [leftOver, List.filter_append, List.filter_cons, kept pre (fun d => .inl),
    kept post (fun d => .inr), found]
  by_cases whole : c.size = n
  · simp [whole]
  · simp [whole]

/-- A free block apart from a live one that is not smaller than what is taken is on the same side
of it with what is left.
-/
theorem addr_lt_iff (apart : Disjoint b.bytes c.bytes) (smaller : n < c.size) (le : n ≤ b.size)
    : c.addr + n < b.addr ↔ c.addr < b.addr := by
  constructor
  · intro below
    omega
  · intro below
    rcases Nat.eq_zero_or_pos b.size with empty | some
    · omega
    · by_contra inside
      have inB : b.addr ∈ b.bytes := ⟨Nat.le_refl _, by omega⟩
      exact Set.disjoint_left.mp apart inB ⟨below.le, by omega⟩

/-- What is left of a block is where the block was, as far as a condition on addresses goes that
holds of both its start and the first address left or of none.
-/
theorem exists_left_iff (sorted : (pre ++ c :: post).Pairwise Block.Before)
    (positive : ∀ d ∈ pre ++ c :: post, 0 < d.size) (found : fit (pre ++ c :: post) n = some c)
    (cond : Nat → Prop) (same : n < c.size → (cond (c.addr + n) ↔ cond c.addr))
    : (∃ d ∈ pre ++ ((if n < c.size then [⟨c.addr + n, c.size - n⟩] else []) ++ post), cond d.addr)
      ↔ ∃ d ∈ leftOver (pre ++ c :: post) n, cond d.addr := by
  have fits : n ≤ c.size := by
    simpa using List.find?_some found
  rw [leftOver_eq sorted positive found]
  simp only [List.mem_append, or_and_right, exists_or]
  rcases Nat.lt_or_eq_of_le fits with cut | used
  · rw [if_pos cut, if_neg (Nat.ne_of_gt cut)]
    simp only [List.mem_singleton, exists_eq_left, same cut]
  · rw [if_neg (by omega), if_pos used.symm]

/-- What `heap_alloc` has done when it has taken `n` bytes from the free block `c`. -/
structure Taken (s t : Kmem) (fl al fl' : List Nat) (n : Nat) (c : Block) : Prop where
  called : s.heapAlloc n = some (some c.addr, t)
  lists : t.Lists fl' (al ++ [s.nextNode])
  room : t.Room
  sorted : (fl'.map t.block).Pairwise Block.Before
  left : ∃ pre post, fl.map s.block = pre ++ c :: post
    ∧ fl'.map t.block
      = pre ++ ((if n < c.size then [⟨c.addr + n, c.size - n⟩] else []) ++ post)
  recorded : ∀ q ∈ al, t.block q = s.block q
  new : t.block s.nextNode = ⟨c.addr, n⟩

/-- `heap_alloc` takes from the first free block that is large enough. -/
theorem WellFormed.taken (h : s.WellFormed fl al)
    (room : s.pmm.placementAddr + 2 * sizeofFreeLl < 2 ^ 32)
    (found : fit (fl.map s.block) n = some c)
    : ∃ t fl', s.Taken t fl al fl' n c := by
  obtain ⟨t, fl', served⟩ := h.tidy.takes h.below found
  have room1 : s.Room := by
    rw [Room]
    omega
  rcases exists_firstFit s.node n fl with small | ⟨pre, p, post, rfl, small, large⟩
  · have none : fit (fl.map s.block) n = none := by
      rw [fit, List.find?_eq_none]
      intro d member
      obtain ⟨q, listed, rfl⟩ := List.mem_map.mp member
      exact fun fits => absurd (of_decide_eq_true fits) (Nat.not_le.mpr (small q listed))
    rw [none] at found
    cases found
  have first : fit ((pre ++ p :: post).map s.block) n = some (s.block p) := by
    rw [fit, List.find?_eq_some_iff_append]
    refine ⟨decide_eq_true large, pre.map s.block, post.map s.block, List.map_append, ?_⟩
    intro d member
    obtain ⟨q, listed, rfl⟩ := List.mem_map.mp member
    have less : ¬ n ≤ (s.block q).size := Nat.not_le.mpr (small q listed)
    simpa using less
  obtain rfl : s.block p = c := Option.some.inj (first.symm.trans found)
  obtain ⟨t', fl'', called, lists, blocks, records, part, value, pushed⟩ := h.lists.heapAlloc_some
    small large (h.tidy.bounded (s.block p) (List.mem_map_of_mem (by simp)))
  obtain rfl : t' = t := (Prod.mk.inj (Option.some.inj (called.symm.trans served.called))).2
  obtain rfl : fl'' = fl' :=
    lists.free.links.chain.unique served.tidy.lists.free.links.chain
  have placed : t'.pmm.placementAddr = s.pmm.placementAddr + sizeofFreeLl := by
    rw [pushed, room1.placementAddr]
  obtain ⟨old, new⟩ := List.append_inj' (List.map_append.symm.trans records) rfl
  refine ⟨t', fl'', called, ⟨lists.free, lists.alloc, lists.apart, fun q member => ?_⟩, ?_,
    served.tidy.ordered, ⟨pre.map s.block, post.map s.block, List.map_append, blocks⟩,
    List.map_inj_left.mp old, List.head_eq_of_cons_eq new⟩
  · rw [placed]
    exact h.lists.below_new q (member.imp_left (part.subset ·))
  · rw [Room, placed]
    omega

/-- The first record with the address of a block, as `heap_forget_allocated_block` finds it. -/
structure FirstRecord (s : Kmem) (al : List Nat) (b : Block) (front : List Nat) (r : Nat)
    (back : List Nat)
    : Prop where
  split : al = front ++ r :: back
  passed : ∀ q ∈ front, (s.node q).addr ≠ b.addr
  here : (s.node r).addr = b.addr
  found : (al.map s.block).find? (fun c => c.addr = b.addr) = some (s.block r)

theorem exists_firstRecord (live : b ∈ al.map s.block)
    : ∃ front r back, s.FirstRecord al b front r back := by
  obtain ⟨q, member, rfl⟩ := List.mem_map.mp live
  obtain ⟨r, found⟩ : ∃ r, al.find? (fun q' => (s.node q').addr = (s.block q).addr) = some r :=
    Option.isSome_iff_exists.mp (List.find?_isSome.mpr ⟨q, member, by simp [block]⟩)
  have mapped : (al.map s.block).find? (fun c => c.addr = (s.block q).addr) = some (s.block r) := by
    rw [List.find?_map]
    exact congrArg (Option.map s.block) found
  obtain ⟨here, front, back, split, passed⟩ := List.find?_eq_some_iff_append.mp found
  exact ⟨front, r, back, split, by simpa using passed, by simpa using here, mapped⟩

section record

variable {front back : List Nat} {r : Nat}

theorem FirstRecord.blocks (record : s.FirstRecord al b front r back)
    : al.map s.block = front.map s.block ++ s.block r :: back.map s.block := by
  rw [record.split, List.map_append, List.map_cons]

/-- The blocks in front of it start elsewhere. -/
theorem FirstRecord.addr_ne (record : s.FirstRecord al b front r back)
    : ∀ d ∈ front.map s.block, d.addr ≠ b.addr := by
  intro d member
  obtain ⟨q, inFront, rfl⟩ := List.mem_map.mp member
  exact record.passed q inFront

/-- It is not the first record of all if the first live block starts elsewhere. -/
theorem FirstRecord.later_iff (record : s.FirstRecord al b front r back)
    : front ≠ [] ↔ ∀ d ∈ (al.map s.block).head?, d.addr ≠ b.addr := by
  rw [record.blocks]
  cases front with
  | nil => exact iff_of_false (fun h => h rfl) (fun h => h _ rfl record.here)
  | cons q front =>
      refine iff_of_true (List.cons_ne_nil q front) (fun d head => ?_)
      exact record.addr_ne d (List.mem_of_mem_head? head)

end record

/-- A live block without its first occurrence. -/
theorem erase_first {front back : List Block} (passed : ∀ c ∈ front, c.addr ≠ b.addr)
    : (front ++ b :: back).erase b = front ++ back := by
  have absent : b ∉ front := fun member => passed b member rfl
  rw [List.erase_append_right _ absent, List.erase_cons_head]

/-- If removing one of two occurrences and removing the other leave the same, the two are the same.
-/
theorem eq_of_perm_erase {front back : List Block} (member : b ∈ front ++ c :: back)
    (same : (front ++ back).Perm ((front ++ c :: back).erase b))
    : c = b := by
  have counts := (List.perm_cons_erase member).count_eq b
  have others := same.count_eq b
  rw [List.count_cons_self] at counts
  rw [List.count_append] at others
  rw [List.count_append] at counts
  by_contra other
  rw [List.count_cons_of_ne other] at counts
  omega

section result

variable {t : Kmem} {fl' : List Nat} {mem : Nat → UInt8}

/-- `krealloc` of a pointer that is not null, where `heap_alloc` gives a block. -/
theorem Taken.krealloc (taken : s.Taken t fl al fl' n c) {ptr : Nat} (notNull : ptr ≠ 0)
    (notZero : c.addr ≠ 0)
    : s.krealloc mem ptr n
      = (t.heapFree ptr).map (fun heap =>
          { returned := c.addr
            heap
            mem := memcpy mem c.addr ptr n
            reads := (List.range n).map (fun i => (ptr + i) % 2 ^ 32) }) := by
  simp only [Kmem.krealloc, if_neg notNull, taken.called, Option.bind_eq_bind, Option.bind_some,
    Option.getD_some, if_neg notZero]
  cases t.heapFree ptr <;> rfl

/-- Null leaves a live block as it is. -/
theorem keeps_null {live live' : List Block} {heap : Kmem} (blocks : heap.LiveBlocks live')
    (member : b ∈ live')
    : Keeps live mem b n { returned := 0, heap, mem, reads := [] } :=
  ⟨fun _ none => absurd none List.not_mem_nil, fun _ _ _ _ => rfl,
    .inl ⟨rfl, ⟨live', blocks, member⟩, fun _ _ => rfl⟩⟩

theorem Taken.liveBlocks (taken : s.Taken t fl al fl' n c)
    : t.LiveBlocks (al.map s.block ++ [⟨c.addr, n⟩]) := by
  refine ⟨al ++ [s.nextNode], taken.lists.alloc.links.chain, ?_⟩
  rw [List.map_append, List.map_singleton, taken.new, List.map_congr_left taken.recorded]

/-- Copying to a free block changes no live one and copies what is not longer than a live one. -/
theorem WellFormed.copies (h : s.WellFormed fl al) (mem : Nat → UInt8) (live : b ∈ al.map s.block)
    (found : fit (fl.map s.block) n = some c) (le : n ≤ b.size)
    : (∀ d ∈ al.map s.block, ∀ a ∈ d.bytes, memcpy mem c.addr b.addr n a = mem a)
      ∧ ∀ i < n, memcpy mem c.addr b.addr n (c.addr + i) = mem (b.addr + i) := by
  have free : c ∈ fl.map s.block := List.mem_of_find?_eq_some found
  have fits : n ≤ c.size := by
    simpa using List.find?_some found
  have boundC := h.tidy.bounded c free
  have boundB := h.recorded b live
  have apart : 0 < n → c.addr + n ≤ b.addr ∨ b.addr + n ≤ c.addr := by
    intro some
    have disjoint := Set.Ico_disjoint_Ico.mp (h.tidy.apart b live c free)
    omega
  have copied := memcpy_eq mem (show c.addr + n ≤ 2 ^ 32 by omega) (show b.addr + n ≤ 2 ^ 32 by omega)
    apart
  constructor
  · intro d member a inside
    have outside : ¬ (c.addr ≤ a ∧ a < c.addr + n) := by
      rintro ⟨low, high⟩
      exact Set.disjoint_left.mp (h.tidy.apart d member c free) inside ⟨low, by omega⟩
    rw [copied, if_neg outside]
  · intro i below
    rw [copied, if_pos (by omega), Nat.add_sub_cancel_left]

/-- Reading more than a block has leaves it. -/
theorem not_reads_more (notNull : b.addr ≠ 0) (bound : b.addr + b.size ≤ 2 ^ 32)
    (more : b.size < n)
    : ¬ ∀ a ∈ (List.range n).map (fun i => (b.addr + i) % 2 ^ 32), a ∈ b.bytes := by
  intro reads
  obtain ⟨low, high⟩ := reads ((b.addr + b.size) % 2 ^ 32)
    (List.mem_map.mpr ⟨b.size, List.mem_range.mpr more, rfl⟩)
  omega

/-- Where free blocks lie on both sides of a pointer, the first of them that is not below it has
one in front of it.
-/
theorem Taken.place (taken : s.Taken t fl al fl' n c) {ptr : Nat}
    (below : ∃ d ∈ fl'.map t.block, d.addr < ptr) (above : ∃ d ∈ fl'.map t.block, ptr ≤ d.addr)
    : ∃ pre w p post, fl' = pre ++ w :: p :: post ∧ (∀ q ∈ pre ++ [w], (t.node q).addr < ptr)
        ∧ ptr ≤ (t.node p).addr := by
  obtain ⟨d, member, above⟩ := above
  obtain ⟨q, inFree, rfl⟩ := List.mem_map.mp member
  obtain ⟨p, found⟩ : ∃ p, fl'.find? (fun q => ptr ≤ (t.node q).addr) = some p :=
    Option.isSome_iff_exists.mp (List.find?_isSome.mpr ⟨q, inFree, decide_eq_true above⟩)
  obtain ⟨here, pre, post, split, passed⟩ := List.find?_eq_some_iff_append.mp found
  have here : ptr ≤ (t.node p).addr := by
    simpa using here
  -- the free blocks are sorted, so a first one that is not below the pointer has none below it
  have notHead : pre ≠ [] := by
    rintro rfl
    obtain ⟨e, member, low⟩ := below
    have sorted := taken.sorted
    rw [split, List.nil_append, List.map_cons] at sorted member
    rcases List.mem_cons.mp member with rfl | behind
    · exact absurd low (Nat.not_lt.mpr here)
    · have ordered := ((List.pairwise_cons.mp sorted).1 e behind).addr_le
      exact absurd (Nat.lt_of_le_of_lt ordered low) (Nat.not_lt.mpr here)
  obtain ⟨pre, w, rfl⟩ := (List.eq_nil_or_concat' pre).resolve_left notHead
  rw [List.append_assoc] at split
  exact ⟨pre, w, p, post, split, by simpa using passed, here⟩

/-- The records after `heap_alloc`, with the first one of a block that was live before. -/
theorem Taken.firstRecord (taken : s.Taken t fl al fl' n c) {front back : List Nat} {r : Nat}
    (record : s.FirstRecord al b front r back)
    : al ++ [s.nextNode] = front ++ r :: (back ++ [s.nextNode])
      ∧ (∀ q ∈ front, (t.node q).addr ≠ b.addr) ∧ (t.node r).addr = b.addr := by
  have addr : ∀ q ∈ al, (t.node q).addr = (s.node q).addr :=
    fun q member => congrArg Block.addr (taken.recorded q member)
  refine ⟨?_, fun q member => ?_, ?_⟩
  · rw [record.split, List.append_assoc]
    rfl
  · rw [addr q (by rw [record.split]; simp [member])]
    exact record.passed q member
  · rw [addr r (by rw [record.split]; simp)]
    exact record.here

/-- The blocks of the records that are left, if `heap_free` leaves every record as it is. -/
theorem Taken.blocks_left (taken : s.Taken t fl al fl' n c) {front back : List Nat} {r : Nat}
    (recorded : al = front ++ r :: back) {t' : Kmem}
    (blocks : ∀ q ∈ al ++ [s.nextNode], t'.block q = t.block q)
    : (front ++ (back ++ [s.nextNode])).map t'.block
      = (front.map s.block ++ back.map s.block) ++ [⟨c.addr, n⟩] := by
  have old : ∀ q ∈ al, t'.block q = s.block q := fun q member =>
    (blocks q (List.mem_append_left _ member)).trans (taken.recorded q member)
  have fresh : t'.block s.nextNode = ⟨c.addr, n⟩ := (blocks s.nextNode (by simp)).trans taken.new
  have before : front.map t'.block = front.map s.block :=
    List.map_congr_left (fun q member =>
      old q (by rw [recorded]; exact List.mem_append_left _ member))
  have after : back.map t'.block = back.map s.block :=
    List.map_congr_left (fun q member => old q (by rw [recorded]; simp [member]))
  rw [List.map_append, List.map_append, before, after, List.map_singleton, fresh, List.append_assoc]

/-- With free blocks left on both sides of the pointer and a record in front of its own, `heap_free`
returns.
-/
theorem Taken.heapFree_returns (taken : s.Taken t fl al fl' n c) {front back : List Nat} {r : Nat}
    (record : s.FirstRecord al b front r back) (notFirst : front ≠ [])
    (below : ∃ d ∈ fl'.map t.block, d.addr < b.addr)
    (above : ∃ d ∈ fl'.map t.block, b.addr ≤ d.addr)
    : ∃ t', t.heapFree b.addr = some t' ∧ t'.LiveBlocks
        ((front.map s.block ++ back.map s.block) ++ [⟨c.addr, n⟩]) := by
  obtain ⟨listed, first, match'⟩ := taken.firstRecord record
  obtain ⟨pre, w, p, post, split, passed, here⟩ := taken.place below above
  obtain ⟨front, v, rfl⟩ := (List.eq_nil_or_concat' front).resolve_left notFirst
  obtain ⟨x, behind, next⟩ : ∃ x behind, back ++ [s.nextNode] = x :: behind :=
    List.exists_cons_of_ne_nil (by simp)
  rw [next, List.append_assoc] at listed
  obtain ⟨t', returned, chain, blocks⟩ := taken.lists.heapFree_unlinks taken.room split passed here
    listed first match'
  refine ⟨t', returned, front ++ v :: x :: behind, chain, ?_⟩
  have nodes : front ++ v :: x :: behind = (front ++ [v]) ++ (back ++ [s.nextNode]) := by
    rw [next, List.append_assoc]
    rfl
  rw [nodes]
  exact taken.blocks_left record.split blocks

/-- `heap_free` of a live block after `heap_alloc` returns exactly if there are free blocks left on
both sides of the pointer and its first record is not the first one of all. Then the blocks that
are live are those without this record, and the new one.
-/
theorem Taken.heapFree_iff (taken : s.Taken t fl al fl' n c) {front back : List Nat} {r : Nat}
    (record : s.FirstRecord al b front r back)
    : ((t.heapFree b.addr).isSome
        ↔ front ≠ [] ∧ (∃ d ∈ fl'.map t.block, d.addr < b.addr)
          ∧ ∃ d ∈ fl'.map t.block, b.addr ≤ d.addr)
      ∧ ∀ t' ∈ t.heapFree b.addr, t'.LiveBlocks
          ((front.map s.block ++ back.map s.block) ++ [⟨c.addr, n⟩]) := by
  have inverse {t' : Kmem} (returned : t.heapFree b.addr = some t')
      : front ≠ [] ∧ (∃ d ∈ fl'.map t.block, d.addr < b.addr)
        ∧ ∃ d ∈ fl'.map t.block, b.addr ≤ d.addr := by
    obtain ⟨listed, first, match'⟩ := taken.firstRecord record
    obtain ⟨notFirst, -, ⟨q, listedQ, below⟩, ⟨q', listedQ', above⟩⟩ :=
      taken.lists.heapFree_recorded taken.room listed first match' returned
    exact ⟨notFirst, ⟨_, List.mem_map_of_mem listedQ, below⟩, ⟨_, List.mem_map_of_mem listedQ', above⟩⟩
  constructor
  · constructor
    · intro some
      obtain ⟨t', returned⟩ := Option.isSome_iff_exists.mp some
      exact inverse returned
    · rintro ⟨notFirst, below, above⟩
      obtain ⟨t', returned, -⟩ := taken.heapFree_returns record notFirst below above
      rw [returned]
      rfl
  · intro t' returned
    obtain ⟨notFirst, below, above⟩ := inverse returned
    obtain ⟨t'', again, blocks⟩ := taken.heapFree_returns record notFirst below above
    obtain rfl : t'' = t' := Option.some.inj (again.symm.trans returned)
    exact blocks

/-- Beside a live block that is not smaller than what is taken, there are free blocks left if there
were such blocks before.
-/
theorem Taken.sides (taken : s.Taken t fl al fl' n c) (h : s.WellFormed fl al)
    (live : b ∈ al.map s.block) (found : fit (fl.map s.block) n = some c) (le : n ≤ b.size)
    : ((∃ d ∈ fl'.map t.block, d.addr < b.addr)
        ↔ ∃ d ∈ leftOver (fl.map s.block) n, d.addr < b.addr)
      ∧ ((∃ d ∈ fl'.map t.block, b.addr ≤ d.addr)
        ↔ ∃ d ∈ leftOver (fl.map s.block) n, b.addr ≤ d.addr) := by
  obtain ⟨pre, post, whole, left⟩ := taken.left
  have sorted := h.tidy.ordered
  have positive := h.tidy.positive
  have apart := h.tidy.apart b live c (List.mem_of_find?_eq_some found)
  rw [whole] at sorted positive found
  rw [left, whole]
  have below (smaller : n < c.size) : c.addr + n < b.addr ↔ c.addr < b.addr :=
    addr_lt_iff apart smaller le
  constructor
  · exact exists_left_iff sorted positive found (fun a => a < b.addr) below
  · refine exists_left_iff sorted positive found (fun a => b.addr ≤ a) (fun smaller => ?_)
    rw [← Nat.not_lt, below smaller, Nat.not_lt]

/-- Where `krealloc` keeps the bytes, the new block is not larger and the old one could be freed. -/
theorem Taken.removable (taken : s.Taken t fl al fl' n c) (h : s.WellFormed fl al)
    (live : b ∈ al.map s.block) (found : fit (fl.map s.block) n = some c) (notNull : b.addr ≠ 0)
    (notZero : c.addr ≠ 0) (reallocates : s.Reallocates (al.map s.block) mem b n)
    : n ≤ b.size ∧ Removable (fl.map s.block) (al.map s.block) b n := by
  obtain ⟨front, r, back, record⟩ := exists_firstRecord live
  obtain ⟨returns, leaves⟩ := taken.heapFree_iff record
  obtain ⟨result, returned, keeps⟩ := reallocates
  rw [taken.krealloc notNull notZero] at returned
  obtain ⟨heap, freed, rfl⟩ := Option.map_eq_some_iff.mp returned
  have le : n ≤ b.size := by
    by_contra more
    exact not_reads_more notNull (h.recorded b live) (Nat.not_le.mp more) keeps.reads
  obtain ⟨later, below, above⟩ := returns.mp (Option.isSome_iff_exists.mpr ⟨heap, freed⟩)
  obtain ⟨sideBelow, sideAbove⟩ := taken.sides h live found le
  -- Of the live blocks, the one that is gone is the one with the first record.
  have isFirst : s.block r = b := by
    obtain ⟨-, ⟨live', ⟨al', chain, rfl⟩, same⟩, -⟩ :=
      keeps.result.resolve_left (fun null => notZero null.1)
    obtain ⟨al'', chain', blocks⟩ := leaves heap freed
    obtain rfl := chain'.unique chain
    rw [blocks, List.perm_append_right_iff, record.blocks] at same
    rw [record.blocks] at live
    exact eq_of_perm_erase live same
  have first := record.found
  rw [isFirst] at first
  exact ⟨le, sideBelow.mp below, sideAbove.mp above, first, record.later_iff.mp later⟩

theorem Taken.reallocates (taken : s.Taken t fl al fl' n c) (h : s.WellFormed fl al)
    (live : b ∈ al.map s.block) (found : fit (fl.map s.block) n = some c) (notNull : b.addr ≠ 0)
    (notZero : c.addr ≠ 0) (le : n ≤ b.size)
    (removable : Removable (fl.map s.block) (al.map s.block) b n)
    : s.Reallocates (al.map s.block) mem b n := by
  obtain ⟨front, r, back, record⟩ := exists_firstRecord live
  obtain ⟨returns, leaves⟩ := taken.heapFree_iff record
  obtain ⟨sideBelow, sideAbove⟩ := taken.sides h live found le
  obtain ⟨heap, freed⟩ := Option.isSome_iff_exists.mp (returns.mpr
    ⟨record.later_iff.mpr removable.later, sideBelow.mpr removable.below,
      sideAbove.mpr removable.above⟩)
  have isFirst : s.block r = b := Option.some.inj (record.found.symm.trans removable.first)
  obtain ⟨others, contents⟩ := h.copies mem live found le
  refine ⟨_, (taken.krealloc notNull notZero).trans (congrArg _ freed), ?_, ?_,
    .inr ⟨notZero, ?_, ?_⟩⟩
  · intro a read
    obtain ⟨i, below, rfl⟩ := List.mem_map.mp read
    have below := List.mem_range.mp below
    have bound := h.recorded b live
    rw [Nat.mod_eq_of_lt (by omega)]
    exact ⟨Nat.le_add_right .., by omega⟩
  · intro d other a inside
    exact others d (List.mem_of_mem_erase other) a inside
  · refine ⟨_, leaves heap freed, ?_⟩
    rw [record.blocks, isFirst, erase_first record.addr_ne]
  · intro i below
    exact contents i (by omega)

/-- `krealloc` returns a block with the bytes of the old one, or null, exactly if the pointer is
null, or no block is given, or the new block is not larger than the old one and the old one can be
freed. The cases are those of `krealloc`: the null pointer, a request that is not served, and a
block that is copied into and then freed, where the copy takes the new size and the free must find
the old block.
-/
theorem reallocates_iff (h : s.WellFormed fl al)
    (room : s.pmm.placementAddr + 2 * sizeofFreeLl < 2 ^ 32) (mem : Nat → UInt8)
    (live : b ∈ al.map s.block) (n : Nat)
    : s.Reallocates (al.map s.block) mem b n ↔ Movable (fl.map s.block) (al.map s.block) b n := by
  have now : s.LiveBlocks (al.map s.block) := ⟨al, h.lists.alloc.links.chain, rfl⟩
  by_cases null : b.addr = 0
  · refine iff_of_true ⟨_, ?_, keeps_null now live⟩ (.inl null)
    rw [krealloc, if_pos null]
  cases found : fit (fl.map s.block) n with
  | none =>
      refine iff_of_true ⟨_, ?_, keeps_null now live⟩ (.inr (.inl ?_))
      · have small : ∀ q ∈ fl, (s.node q).size < n := by
          intro q member
          have less := List.find?_eq_none.mp found (s.block q) (List.mem_map_of_mem member)
          exact Nat.not_le.mp (fun fits => less (decide_eq_true fits))
        rw [krealloc, if_neg null, h.lists.heapAlloc_none small]
        rfl
      · rw [found]
        exact fun c none => nomatch none
  | some c =>
      obtain ⟨t, fl', taken⟩ := h.taken room found
      by_cases zero : c.addr = 0
      · refine iff_of_true ⟨_, ?_, keeps_null taken.liveBlocks (List.mem_append_left _ live)⟩
          (.inr (.inl ?_))
        · rw [krealloc, if_neg null, taken.called]
          simp only [Option.bind_eq_bind, Option.bind_some, Option.getD_some, if_pos zero]
          rfl
        · rw [found]
          intro d same
          rwa [← Option.some.inj same]
      constructor
      · exact fun reallocates =>
          .inr (.inr (taken.removable h live found null zero reallocates))
      · intro movable
        obtain ⟨le, removable⟩ := (movable.resolve_left null).resolve_left
          (fun all => zero (all c found))
        exact taken.reallocates h live found null zero le removable

end result

section Examples

/-- A heap with a free block on both sides of the second of two live blocks. -/
def twoLive : Kmem where
  pmm := { placementAddr := 80, framesBmp := fun _ => 0, memorySize := 0 }
  node p :=
    if p = 16 then ⟨100, 10, none, some 32⟩
    else if p = 32 then ⟨200, 50, some 16, none⟩
    else if p = 48 then ⟨110, 8, none, some 64⟩
    else ⟨120, 8, some 48, none⟩
  kheap :=
    { start := 100, size := 150, maxSize := 150, usr := 0, freeLl := some 16, allocLl := some 48 }

theorem wellFormed_twoLive
    : twoLive.WellFormed [16, 32] [48, 64] := by
  refine ⟨⟨⟨⟨⟨by decide, ?_⟩, by decide⟩, ⟨⟨by decide, ?_⟩, by decide⟩, by simp⟩, ?_, by decide,
    by decide, ?_⟩, fun p member => ?_, by decide⟩
  · exact List.isChain_pair.mpr rfl
  · exact List.isChain_pair.mpr rfl
  · exact List.pairwise_pair.mpr (by unfold Block.Before; decide)
  · intro b recorded c free
    rcases List.mem_pair.mp recorded with rfl | rfl <;>
      rcases List.mem_pair.mp free with rfl | rfl <;>
        exact Set.Ico_disjoint_Ico.mpr (by decide)
  · simp only [List.mem_cons, List.not_mem_nil, or_false] at member
    rcases member with (rfl | rfl) | rfl | rfl <;> decide

/-- The second live block can be made smaller. -/
theorem reallocates_twoLive
    : twoLive.Reallocates [⟨110, 8⟩, ⟨120, 8⟩] (fun _ => 0) ⟨120, 8⟩ 4 :=
  (reallocates_iff wellFormed_twoLive (by decide) (fun _ => 0) (by decide) 4).mpr
    (.inr (.inr ⟨by decide, ⟨⟨100, 10⟩, by decide, by decide⟩, ⟨⟨200, 50⟩, by decide, by decide⟩,
      by decide, by decide⟩))

/-- Making it larger reads what lies behind it, and the first live block cannot be freed at all. -/
theorem not_reallocates_twoLive
    : ¬ twoLive.Reallocates [⟨110, 8⟩, ⟨120, 8⟩] (fun _ => 0) ⟨120, 8⟩ 16
      ∧ ¬ twoLive.Reallocates [⟨110, 8⟩, ⟨120, 8⟩] (fun _ => 0) ⟨110, 8⟩ 4 := by
  constructor
  · rintro ⟨r, returned, keeps⟩
    have reads : ((twoLive.krealloc (fun _ => 0) 120 16).map Reallocated.reads)
        = some ((List.range 16).map (fun i => (120 + i) % 2 ^ 32)) := by
      decide
    rw [returned] at reads
    have inside := keeps.reads 128 (by rw [Option.some.inj reads]; decide)
    exact absurd inside.2 (by decide)
  · rintro ⟨r, returned, -⟩
    have stuck : (twoLive.krealloc (fun _ => 0) 110 4).isNone := by
      decide
    rw [returned] at stuck
    cases stuck

end Examples

end Kmem

end Hydrangea
