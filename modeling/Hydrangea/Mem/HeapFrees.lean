import Hydrangea.Mem.HeapSafety

/-! What `heap_free` of `kernel/mem/heap.c` does to the two lists, for any pointer.
-/

namespace Hydrangea

namespace Kmem

-----------------------------------------------------------------------------------------
-- The parts of heap_free
-----------------------------------------------------------------------------------------

/-- The state in which `heap_free` calls `heap_forget_allocated_block`. -/
def withNew (s : Kmem) (ptr : Nat) : Kmem :=
  s.pushNode { addr := ptr, size := 0, prev := none, next := none }

/-- The stores that put the new node of `heap_free` in front of the node `p`. -/
def linkBefore (s : Kmem) (new p size : Nat) : Kmem :=
  let before := (s.node p).prev
  let s := s.setNode new (fun n => { n with size, next := some p, prev := before })
  let s :=
    match before with
    | some b => s.setNode b (fun n => { n with next := some new })
    | none => s.setFreeLl (some new)
  s.setNode p (fun n => { n with prev := some new })

/-- `heap_free` looks for a free block, forgets the allocated one, links the new node and merges. -/
theorem heapFree_eq (s : Kmem) (ptr : Nat)
    : s.heapFree ptr
      = (s.seekFree ptr).bind (fun p =>
          ((s.withNew ptr).heapForgetAllocatedBlock ptr).bind (fun r =>
            ((r.2.linkBefore s.nextNode p r.1).mergeForward s.nextNode).bind (fun t =>
              t.mergeBackward s.nextNode))) :=
  rfl

-----------------------------------------------------------------------------------------
-- Looking for the place
-----------------------------------------------------------------------------------------

variable {s s' : Kmem} {fl al : List Nat} {ptr : Nat}

/-- The search stops at the first free block that does not start below the pointer. -/
theorem Lists.seekFree_eq (h : s.Lists fl al) (ptr : Nat)
    : s.seekFree ptr = fl.find? (fun q => ptr ≤ (s.node q).addr) := by
  rw [seekFree]
  cases found : fl.find? (fun q => ptr ≤ (s.node q).addr) with
  | none =>
      have chain : Linked.Chain s.next s.kheap.freeLl (fl ++ []) := by
        rw [List.append_nil]
        exact h.free.links.chain
      have passed : ∀ q ∈ fl, decide (ptr ≤ (s.node q).addr) = false := by
        simpa using List.find?_eq_none.mp found
      rw [Linked.find_eq chain passed (fun x none => nomatch none) h.free_length]
      rfl
  | some p =>
      obtain ⟨here, pre, post, rfl, passed⟩ := List.find?_eq_some_iff_append.mp found
      have length := h.free_length
      rw [List.length_append] at length
      have passed : ∀ q ∈ pre, decide (ptr ≤ (s.node q).addr) = false := by
        simpa using passed
      have met : ∀ x ∈ (p :: post).head?, decide (ptr ≤ (s.node x).addr) = true := by
        intro x first
        obtain rfl : p = x := Option.some.inj first
        exact here
      rw [Linked.find_eq h.free.links.chain passed met (by omega)]
      rfl

/-- What `heap_free` leaves of a place: the free blocks below the pointer, the first other one, and
the rest.
-/
theorem Lists.seekFree_split (h : s.Lists fl al) {p : Nat} (sought : s.seekFree ptr = some p)
    : ptr ≤ (s.node p).addr
      ∧ ∃ pre post, fl = pre ++ p :: post ∧ ∀ q ∈ pre, (s.node q).addr < ptr := by
  rw [h.seekFree_eq] at sought
  obtain ⟨here, pre, post, split, passed⟩ := List.find?_eq_some_iff_append.mp sought
  exact ⟨by simpa using here, pre, post, split, by simpa using passed⟩

-----------------------------------------------------------------------------------------
-- Forgetting the allocated block
-----------------------------------------------------------------------------------------

/-- The walk over the recorded blocks stops at the first one with the address, by induction on those
before it.
-/
theorem findRecord_eq {node : Nat → FreeLl} {fuel p r : Nat} {front back : List Nat}
    (h : Linked.Chain (fun q => (node q).next) (some p) (front ++ r :: back))
    (passed : ∀ q ∈ front, (node q).addr ≠ ptr) (here : (node r).addr = ptr)
    (enough : front.length < fuel)
    : findRecord node ptr fuel p = some r := by
  induction front generalizing fuel p with
  | nil =>
      obtain ⟨fuel, rfl⟩ := Nat.exists_eq_succ_of_ne_zero (Nat.ne_of_gt enough)
      obtain rfl : p = r := Option.some.inj h.1
      rw [findRecord, if_pos here]
  | cons q front ih =>
      obtain ⟨fuel, rfl⟩ := Nat.exists_eq_succ_of_ne_zero (Nat.ne_of_gt (Nat.zero_lt_of_lt enough))
      obtain ⟨start, rest⟩ := h
      obtain rfl : p = q := Option.some.inj start
      obtain ⟨first, others⟩ := List.forall_mem_cons.mp passed
      obtain ⟨n, following⟩ : ∃ n, (node p).next = some n := by
        have head := Linked.Chain.head rest
        cases front with
        | nil => exact ⟨r, head⟩
        | cons n front => exact ⟨n, head⟩
      dsimp only at rest
      rw [following] at rest
      rw [findRecord, if_neg first, following]
      exact ih rest others (Nat.lt_of_succ_lt_succ enough)

/-- An address that is not recorded: all bits set, or no result. -/
theorem NodeList.forget_unrecorded (h : s.NodeList s.kheap.allocLl al)
    (unrecorded : ∀ q ∈ al, (s.node q).addr ≠ ptr) {r : Nat × Kmem}
    (forgot : s.heapForgetAllocatedBlock ptr = some r)
    : r = (2 ^ 32 - 1, s) := by
  simp only [Kmem.heapForgetAllocatedBlock, Option.bind_eq_bind, Option.pure_def,
    Option.bind_eq_some_iff] at forgot
  obtain ⟨first, start, q, found, forgot⟩ := forgot
  have chain : Linked.Chain s.next (some first) al := start ▸ h.links.chain
  have other := unrecorded q (findRecord_mem chain found)
  rw [if_pos other] at forgot
  exact (Option.some.inj forgot).symm

/-- The first record with the address is unlinked if it has a neighbour on both sides. Without one
of them, a NULL is followed instead.
-/
theorem NodeList.forget_recorded {front back : List Nat} {r : Nat}
    (h : s.NodeList s.kheap.allocLl (front ++ r :: back)) (enough : front.length < s.walkFuel)
    (passed : ∀ q ∈ front, (s.node q).addr ≠ ptr) (here : (s.node r).addr = ptr)
    : s.heapForgetAllocatedBlock ptr
      = back.head?.bind (fun x => front.getLast?.bind (fun v =>
          some ((s.node r).size,
            (s.setNode x (fun n => { n with prev := some v })).setNode v
              (fun n => { n with next := some x })))) := by
  obtain ⟨first, start⟩ : ∃ first, s.kheap.allocLl = some first := by
    have head := h.links.chain.head
    cases front with
    | nil => exact ⟨r, head⟩
    | cons q front => exact ⟨q, head⟩
  have chain : Linked.Chain s.next (some first) (front ++ r :: back) := start ▸ h.links.chain
  have found := findRecord_eq chain passed here enough
  have after : (s.node r).next = back.head? := h.links.chain.next_eq
  have before : (s.node r).prev = front.getLast? := by
    rcases List.eq_nil_or_concat' front with rfl | ⟨front, v, rfl⟩
    · exact h.head r rfl
    · have links : Linked.Doubly s.next s.prev s.kheap.allocLl (front ++ v :: r :: back) := by
        simpa using h.links
      rw [List.getLast?_concat]
      exact links.prev_eq
  simp only [Kmem.heapForgetAllocatedBlock, start, found, Option.bind_eq_bind, Option.bind_some,
    here, ne_eq, not_true_eq_false, if_false, after, Option.pure_def]
  cases follows : back.head? with
  | none => rfl
  | some x =>
      have member : x ∈ back := List.mem_of_mem_head? follows
      have other : r ≠ x := by
        rintro rfl
        exact (List.nodup_cons.mp (List.nodup_append.mp h.links.chain.nodup).2.1).1 member
      simp only [Option.bind_some, setNode_node, if_neg other, before]
      cases precedes : front.getLast? with
      | none => rfl
      | some v =>
          have notLast : r ≠ v := by
            rintro rfl
            exact (List.nodup_append.mp h.links.chain.nodup).2.2 r
              (List.mem_of_getLast? precedes) r (List.mem_cons_self ..) rfl
          simp only [Option.bind_some, after, follows, if_neg notLast]

-----------------------------------------------------------------------------------------
-- Linking and merging
-----------------------------------------------------------------------------------------

variable {new p w size : Nat}

theorem linkBefore_allocLl
    : (s.linkBefore new p size).kheap.allocLl = s.kheap.allocLl := by
  rw [linkBefore]
  cases (s.node p).prev <;> rfl

/-- In front of the first node, the new node has no predecessor. -/
theorem linkBefore_orphan (size : Nat) (orphan : (s.node p).prev = none) (other : new ≠ p)
    : ((s.linkBefore new p size).node new).prev = none := by
  simp only [linkBefore, orphan, setNode_node, setFreeLl_node, if_neg other, if_true]

/-- In front of another node, the new node and its neighbours are linked. -/
theorem linkBefore_node (size : Nat) (back : (s.node p).prev = some w) (notP : new ≠ p)
    (notW : new ≠ w) (apart : w ≠ p) (q : Nat)
    : (s.linkBefore new p size).node q
      = if q = p then { s.node p with prev := some new }
        else if q = w then { s.node w with next := some new }
        else if q = new then { s.node new with size, next := some p, prev := some w }
        else s.node q := by
  simp only [linkBefore, back, setNode_node, if_neg notP.symm, if_neg notW.symm, if_neg apart.symm]

/-- Behind another node, `free_ll` starts where it did. -/
theorem linkBefore_kheap (back : (s.node p).prev = some w)
    : (s.linkBefore new p size).kheap = s.kheap := by
  rw [linkBefore, back]
  rfl

theorem mergeForward_eq (next : (s.node new).next = some p)
    : s.mergeForward new
      = some (if ((s.node new).addr + (s.node new).size) % 2 ^ 32 = (s.node p).addr then
            s.setNode new (fun n =>
              { n with size := (n.size + (s.node p).size) % 2 ^ 32, next := (s.node p).next })
          else
            s) := by
  simp only [mergeForward, next, Option.bind_eq_bind, Option.bind_some]
  split <;> rfl

theorem mergeBackward_eq (prev : (s.node new).prev = some w)
    : s.mergeBackward new
      = some (if ((s.node w).addr + (s.node w).size) % 2 ^ 32 = (s.node new).addr then
            s.setNode w (fun b =>
              { b with
                size := (b.size + (s.node new).size) % 2 ^ 32
                next := (s.node new).next })
          else
            s) := by
  simp only [mergeBackward, prev, Option.bind_eq_bind, Option.bind_some]
  split <;> rfl

/-- The merges of a node with two neighbours return and change only it and its predecessor. -/
theorem merges_return (next : (s.node new).next = some p) (prev : (s.node new).prev = some w)
    : ∃ s', ((s.mergeForward new).bind (fun t => t.mergeBackward new)) = some s'
        ∧ s'.kheap = s.kheap ∧ ∀ q, q ≠ new → q ≠ w → s'.node q = s.node q := by
  rw [mergeForward_eq next, Option.bind_some]
  split
  · rw [mergeBackward_eq (by rwa [setNode_node, if_pos rfl])]
    refine ⟨_, rfl, ?_, fun q notNew notW => ?_⟩
    · split <;> rfl
    · split <;> simp only [setNode_node, if_neg notNew, if_neg notW]
  · rw [mergeBackward_eq prev]
    refine ⟨_, rfl, ?_, fun q _ notW => ?_⟩
    · split <;> rfl
    · split <;> simp only [setNode_node, if_neg notW]

-----------------------------------------------------------------------------------------
-- Freeing
-----------------------------------------------------------------------------------------

theorem Lists.withNew_node (h : s.Lists fl al) (ptr : Nat) {q : Nat} (member : q ∈ fl ∨ q ∈ al)
    : (s.withNew ptr).node q = s.node q := by
  rw [withNew, pushNode_node, if_neg (h.fresh member)]

theorem Lists.withNew_alloc (h : s.Lists fl al) (ptr : Nat)
    : (s.withNew ptr).NodeList (s.withNew ptr).kheap.allocLl al :=
  h.alloc.congr (fun _ member => h.withNew_node ptr (.inr member))

/-- `heap_free` returns only if there are free blocks on both sides of the pointer. -/
theorem Lists.heapFree_place (h : s.Lists fl al) (returned : s.heapFree ptr = some s')
    : ∃ front w p post r, fl = front ++ w :: p :: post
        ∧ (∀ q ∈ front ++ [w], (s.node q).addr < ptr) ∧ ptr ≤ (s.node p).addr
        ∧ (s.withNew ptr).heapForgetAllocatedBlock ptr = some r
        ∧ ((r.2.linkBefore s.nextNode p r.1).mergeForward s.nextNode).bind
            (fun t => t.mergeBackward s.nextNode) = some s' := by
  rw [heapFree_eq] at returned
  obtain ⟨p, sought, returned⟩ := Option.bind_eq_some_iff.mp returned
  obtain ⟨r, forgot, merged⟩ := Option.bind_eq_some_iff.mp returned
  obtain ⟨here, pre, post, split, passed⟩ := h.seekFree_split sought
  have member : p ∈ fl := by
    rw [split]
    exact List.mem_append_right _ (List.mem_cons_self ..)
  have kept : (r.2.node p) = s.node p :=
    ((h.withNew_alloc ptr).heapForgetAllocatedBlock forgot (h.apart member)).trans
      (h.withNew_node ptr (.inl member))
  rcases List.eq_nil_or_concat' pre with rfl | ⟨front, w, rfl⟩
  · have head : (r.2.node p).prev = none := by
      rw [kept]
      exact h.free.head p (by rw [split]; rfl)
    have stuck := merge_eq_none
      (linkBefore_orphan r.1 head (h.fresh (.inl member)).symm)
    rw [stuck] at merged
    cases merged
  · rw [List.append_assoc] at split
    exact ⟨front, w, p, post, r, split, passed, here, forgot, merged⟩

/-- Two neighbours in the list of free blocks, and the new node between them. -/
structure Between (s : Kmem) (fl al : List Nat) (front : List Nat) (w p : Nat) (post : List Nat)
    : Prop where
  split : fl = front ++ w :: p :: post
  back : (s.node p).prev = some w
  notP : s.nextNode ≠ p
  notW : s.nextNode ≠ w
  apart : w ≠ p
  listed : w ∉ al ∧ p ∉ al

/-- What follows from the lists about two neighbours. -/
theorem Lists.between (h : s.Lists fl al) {front post : List Nat}
    (split : fl = front ++ w :: p :: post)
    : s.Between fl al front w p post := by
  have memberW : w ∈ fl := by
    rw [split]
    exact List.mem_append_right _ (List.mem_cons_self ..)
  have memberP : p ∈ fl := by
    rw [split]
    exact List.mem_append_right _ (List.mem_cons_of_mem _ (List.mem_cons_self ..))
  have links := h.free.links
  have nodup := h.free.links.chain.nodup
  rw [split] at links nodup
  have distinct := (List.nodup_append.mp nodup).2.1
  refine ⟨split, links.prev_eq, (h.fresh (.inl memberP)).symm, (h.fresh (.inl memberW)).symm, ?_,
    h.apart memberW, h.apart memberP⟩
  rintro rfl
  exact (List.nodup_cons.mp distinct).1 (List.mem_cons_self ..)

-----------------------------------------------------------------------------------------
-- A pointer that is not live
-----------------------------------------------------------------------------------------

def FreeBlocks (s : Kmem) (blocks : List Block) : Prop :=
  ∃ fl, Linked.Chain s.next s.kheap.freeLl fl ∧ fl.map s.block = blocks

/-- The blocks of `alloc_ll`, which are the live ones. -/
def LiveBlocks (s : Kmem) (blocks : List Block) : Prop :=
  ∃ al, Linked.Chain s.next s.kheap.allocLl al ∧ al.map s.block = blocks

/-- `heap_free` returns and leaves both lists as they were. -/
def FreeIgnored (s : Kmem) (ptr : Nat) : Prop :=
  ∃ s', s.heapFree ptr = some s' ∧ (∀ blocks, s.FreeBlocks blocks → s'.FreeBlocks blocks)
    ∧ ∀ blocks, s.LiveBlocks blocks → s'.LiveBlocks blocks

/-- A well-formed heap: tidy lists of nodes below the placement pointer, and live blocks in 32
bits.
-/
structure WellFormed (s : Kmem) (fl al : List Nat) : Prop where
  tidy : s.Tidy fl al
  below : ∀ p, p ∈ fl ∨ p ∈ al → p < s.pmm.placementAddr
  recorded : ∀ b ∈ al.map s.block, b.addr + b.size ≤ 2 ^ 32

theorem WellFormed.lists (h : s.WellFormed fl al)
    : s.Lists fl al :=
  ⟨h.tidy.lists.free, h.tidy.lists.alloc, h.tidy.lists.apart, h.below⟩

/-- The state after `heap_free` has linked a new node of size -1 between the nodes `w` and `p`. -/
structure Inserted (s t : Kmem) (fl : List Nat) (ptr w p : Nat) : Prop where
  kheap : t.kheap = s.kheap
  new : t.node s.nextNode = { addr := ptr, size := 2 ^ 32 - 1, prev := some w, next := some p }
  behind : t.node p = { s.node p with prev := some s.nextNode }
  before : t.node w = { s.node w with next := some s.nextNode }
  others : ∀ q ∈ fl, q ≠ w → q ≠ p → t.node q = s.node q

theorem Between.mem {front post : List Nat} (between : s.Between fl al front w p post)
    : w ∈ fl ∧ p ∈ fl := by
  rw [between.split]
  constructor <;> simp

/-- What `heap_free` links for an address that is not recorded. -/
theorem Lists.inserted (h : s.Lists fl al) (ptr : Nat) {front post : List Nat}
    (between : s.Between fl al front w p post)
    : s.Inserted ((s.withNew ptr).linkBefore s.nextNode p (2 ^ 32 - 1)) fl ptr w p := by
  obtain ⟨memberW, memberP⟩ := between.mem
  have kept : ∀ q ∈ fl, (s.withNew ptr).node q = s.node q :=
    fun q member => h.withNew_node ptr (.inl member)
  have back : ((s.withNew ptr).node p).prev = some w := by
    rw [kept p memberP]
    exact between.back
  have node (q : Nat) := linkBefore_node (2 ^ 32 - 1) back between.notP between.notW
    between.apart q
  refine ⟨linkBefore_kheap back, ?_, ?_, ?_, fun q member notW notP => ?_⟩
  · rw [node, if_neg between.notP, if_neg between.notW, if_pos rfl, withNew, pushNode_node,
      if_pos rfl]
  · rw [node, if_pos rfl, kept p memberP]
  · rw [node, if_neg between.apart, if_pos rfl, kept w memberW]
  · rw [node, if_neg notP, if_neg notW, if_neg (h.fresh (.inl member)), kept q member]

/-- Only the predecessor of the new node points somewhere else. -/
theorem Inserted.next_eq {t : Kmem} (inserted : s.Inserted t fl ptr w p) {q : Nat}
    (member : q ∈ fl) (notW : q ≠ w)
    : t.next q = s.next q := by
  rw [Kmem.next]
  by_cases isP : q = p
  · rw [isP, inserted.behind]
  · rw [inserted.others q member notW isP]

/-- The free list with the new node. -/
theorem Inserted.longer {t : Kmem} {front post : List Nat}
    (inserted : s.Inserted t (front ++ w :: p :: post) ptr w p)
    (chain : Linked.Chain s.next s.kheap.freeLl (front ++ w :: p :: post))
    : Linked.Chain t.next s.kheap.freeLl (front ++ w :: s.nextNode :: p :: post) := by
  have nodup := chain.nodup
  have cells : Linked.Chain s.next s.kheap.freeLl (front ++ w :: ([] ++ p :: post)) := chain
  have rewired : Linked.Path t.next (t.next w) [s.nextNode] (p :: post).head? := by
    refine ⟨?_, ?_⟩
    · rw [Kmem.next, inserted.before]
    · rw [Kmem.next, inserted.new]
      rfl
  refine cells.splice rewired (fun x member => ?_)
  · have notW : x ≠ w := by
      rintro rfl
      rcases member with before | behind
      · exact (List.nodup_append.mp nodup).2.2 x before x (List.mem_cons_self ..) rfl
      · exact (List.nodup_cons.mp (List.nodup_append.mp nodup).2.1).1 behind
    refine inserted.next_eq ?_ notW
    rcases member with before | behind
    · exact List.mem_append_left _ before
    · exact List.mem_append_right _ (List.mem_cons_of_mem _ behind)

/-- The free list after a backward merge, which takes the new node out again. -/
theorem Inserted.merged {t : Kmem} {front post : List Nat} (f : FreeLl → Nat)
    (inserted : s.Inserted t (front ++ w :: p :: post) ptr w p)
    (chain : Linked.Chain s.next s.kheap.freeLl (front ++ w :: p :: post))
    : Linked.Chain (t.setNode w (fun b => { b with size := f b, next := some p })).next s.kheap.freeLl
        (front ++ w :: p :: post) := by
  refine chain.congr (fun x member => ?_)
  rw [Kmem.next, setNode_node]
  by_cases isW : x = w
  · rw [if_pos isW, isW]
    exact chain.next_eq.symm
  · rw [if_neg isW]
    exact inserted.next_eq member isW

/-- The merges behind an insertion of a block of size -1: there is none, or the free block that
ends at the pointer loses a byte.
-/
theorem Inserted.merge_cases {t : Kmem} (inserted : s.Inserted t fl ptr w p)
    (below : (s.node w).addr < ptr) (behind : ptr ≤ (s.node p).addr)
    (returned : (t.mergeForward s.nextNode).bind (fun t => t.mergeBackward s.nextNode) = some s')
    : s' = t ∨ s' = t.setNode w (fun b =>
        { b with size := (b.size + (2 ^ 32 - 1)) % 2 ^ 32, next := some p }) := by
  -- the block of size -1 ends right below the pointer, so not at the free block behind it
  have notForward : ¬ ((t.node s.nextNode).addr + (t.node s.nextNode).size) % 2 ^ 32
      = (t.node p).addr := by
    rw [inserted.new, inserted.behind]
    dsimp only
    omega
  rw [mergeForward_eq (p := p) (by rw [inserted.new]), if_neg notForward, Option.bind_some,
    mergeBackward_eq (w := w) (by rw [inserted.new])] at returned
  split at returned
  · refine .inr ((Option.some.inj returned).symm.trans ?_)
    rw [inserted.new]
  · exact .inl (Option.some.inj returned).symm

/-- `heap_free` of a pointer that is not the address of a live block never leaves both lists as
they were: it follows NULL, or it puts a block of size -1 into the free list, or it takes a byte
off the free block that ends at the pointer. The search for the neighbours ends in NULL, or between
two free blocks. There a new node of size -1 is linked in, which merges with the block in front of
it or not: the lists have one block more or one size less by one.
-/
theorem heapFree_not_ignored (h : s.WellFormed fl al)
    (notLive : ∀ b ∈ al.map s.block, b.addr ≠ ptr)
    : ¬ s.FreeIgnored ptr := by
  rintro ⟨s', returned, free, -⟩
  have lists := h.lists
  obtain ⟨front, w, p, post, r, split, passed, here, forgot, merges⟩ :=
    lists.heapFree_place returned
  have between := lists.between split
  obtain ⟨memberW, -⟩ := between.mem
  have unrecorded : ∀ q ∈ al, ((s.withNew ptr).node q).addr ≠ ptr := by
    intro q member
    rw [lists.withNew_node ptr (.inr member)]
    exact notLive (s.block q) (List.mem_map_of_mem member)
  obtain rfl := (lists.withNew_alloc ptr).forget_unrecorded unrecorded forgot
  dsimp only at merges
  have inserted := lists.inserted ptr between
  have chain := lists.free.links.chain
  obtain ⟨fl', chain', same⟩ := free _ ⟨fl, chain, rfl⟩
  have sizeW : 0 < (s.node w).size := h.tidy.positive (s.block w) (List.mem_map_of_mem memberW)
  have boundW : (s.node w).addr + (s.node w).size ≤ 2 ^ 32 :=
    h.tidy.bounded (s.block w) (List.mem_map_of_mem memberW)
  have cases := inserted.merge_cases (passed w (by simp)) here merges
  generalize (s.withNew ptr).linkBefore s.nextNode p (2 ^ 32 - 1) = t at cases inserted
  subst split
  rcases cases with rfl | rfl
  · rw [inserted.kheap] at chain'
    obtain rfl := (inserted.longer chain).unique chain'
    have lengths := congrArg List.length same
    simp only [List.length_map, List.length_append, List.length_cons] at lengths
    omega
  · rw [setNode_kheap, inserted.kheap] at chain'
    have same' := inserted.merged (fun b => (b.size + (2 ^ 32 - 1)) % 2 ^ 32) chain
    obtain rfl := same'.unique chain'
    have shorter := congrArg Block.size (List.map_inj_left.mp same w memberW)
    simp only [Kmem.block, setNode_node, if_true, inserted.before] at shorter
    omega

-----------------------------------------------------------------------------------------
-- The first block recorded at a pointer
-----------------------------------------------------------------------------------------

/-- With room for a node, a walk over `alloc_ll` has enough rounds when there is a new node too. -/
theorem Lists.withNew_walkFuel (h : s.Lists fl al) (room : s.Room) (ptr : Nat)
    : al.length < (s.withNew ptr).walkFuel := by
  have length := h.alloc_length
  have placed : (s.withNew ptr).pmm.placementAddr = s.pmm.placementAddr + sizeofFreeLl :=
    room.placementAddr _
  rw [walkFuel] at length ⊢
  omega

/-- `heap_free` finds its place when there are free blocks on both sides of the pointer. -/
theorem Lists.seekFree_between (h : s.Lists fl al) {front post : List Nat}
    (split : fl = front ++ w :: p :: post) (passed : ∀ q ∈ front ++ [w], (s.node q).addr < ptr)
    (here : ptr ≤ (s.node p).addr)
    : s.seekFree ptr = some p := by
  rw [h.seekFree_eq, List.find?_eq_some_iff_append]
  refine ⟨by simpa using here, front ++ [w], post, ?_, by simpa using passed⟩
  rw [split, List.append_assoc]
  rfl

/-- What `heap_forget_allocated_block` makes of the first record with the address. -/
theorem Lists.forget_first (h : s.Lists fl al) (room : s.Room) {front back : List Nat} {r : Nat}
    (recorded : al = front ++ r :: back) (first : ∀ q ∈ front, (s.node q).addr ≠ ptr)
    (match' : (s.node r).addr = ptr)
    : (s.withNew ptr).heapForgetAllocatedBlock ptr
      = back.head?.bind (fun x => front.getLast?.bind (fun v =>
          some ((s.node r).size,
            ((s.withNew ptr).setNode x (fun n => { n with prev := some v })).setNode v
              (fun n => { n with next := some x })))) := by
  subst recorded
  have kept : ∀ q ∈ front ++ r :: back, (s.withNew ptr).node q = s.node q :=
    fun q member => h.withNew_node ptr (.inr member)
  have record : (s.withNew ptr).node r = s.node r := kept r (by simp)
  have length := h.withNew_walkFuel room ptr
  rw [List.length_append] at length
  have passed : ∀ q ∈ front, ((s.withNew ptr).node q).addr ≠ ptr := by
    intro q member
    rw [kept q (by simp [member])]
    exact first q member
  have here : ((s.withNew ptr).node r).addr = ptr := by
    rw [record]
    exact match'
  have forgot := (h.withNew_alloc ptr).forget_recorded (by omega) passed here
  rwa [record] at forgot

/-- `heap_free` of a live pointer returns only if there are free blocks on both sides of the
pointer and its record is neither the first nor the last one.
-/
theorem Lists.heapFree_recorded (h : s.Lists fl al) (room : s.Room) {front back : List Nat} {r : Nat}
    (recorded : al = front ++ r :: back) (first : ∀ q ∈ front, (s.node q).addr ≠ ptr)
    (match' : (s.node r).addr = ptr) (returned : s.heapFree ptr = some s')
    : front ≠ [] ∧ back ≠ [] ∧ (∃ q ∈ fl, (s.node q).addr < ptr)
      ∧ ∃ q ∈ fl, ptr ≤ (s.node q).addr := by
  obtain ⟨pre, w, p, post, t, split, passed, here, forgot, -⟩ := h.heapFree_place returned
  rw [h.forget_first room recorded first match'] at forgot
  obtain ⟨x, follows, forgot⟩ := Option.bind_eq_some_iff.mp forgot
  obtain ⟨v, precedes, -⟩ := Option.bind_eq_some_iff.mp forgot
  refine ⟨?_, ?_, ⟨w, ?_, passed w (by simp)⟩, ⟨p, ?_, here⟩⟩
  · rintro rfl
    cases precedes
  · rintro rfl
    cases follows
  · rw [split]
    simp
  · rw [split]
    simp

/-- The record between `v` and `x` has been taken out of the list of live blocks. -/
structure Unlinked (s t : Kmem) (fl al : List Nat) (v x : Nat) : Prop where
  free : ∀ q ∈ fl, t.node q = s.node q
  next : ∀ q ∈ al, t.next q = if q = v then some x else s.next q
  blocks : ∀ q ∈ al, t.block q = s.block q
  start : t.kheap.allocLl = s.kheap.allocLl

/-- What `heap_forget_allocated_block` assigns unlinks a record. -/
theorem Lists.unlinked (h : s.Lists fl al) (ptr : Nat) {v x : Nat} (memberV : v ∈ al)
    (memberX : x ∈ al) (distinct : v ≠ x)
    : s.Unlinked (((s.withNew ptr).setNode x (fun n => { n with prev := some v })).setNode v
        (fun n => { n with next := some x })) fl al v x := by
  have records (q : Nat) (member : q ∈ al) :=
    h.withNew_node ptr (.inr member)
  refine ⟨fun q member => ?_, fun q member => ?_, fun q member => ?_, rfl⟩
  · have notV : q ≠ v := fun same => h.apart member (same ▸ memberV)
    have notX : q ≠ x := fun same => h.apart member (same ▸ memberX)
    rw [setNode_node, if_neg notV, setNode_node, if_neg notX, h.withNew_node ptr (.inl member)]
  · have kept := records q member
    by_cases isV : q = v
    · subst isV
      simp only [Kmem.next, setNode_node, if_true]
    · by_cases isX : q = x
      · subst isX
        simp only [Kmem.next, setNode_node, if_true, if_neg isV, kept]
      · simp only [Kmem.next, setNode_node, if_neg isV, if_neg isX, kept]
  · have kept := records q member
    by_cases isV : q = v
    · subst isV
      simp only [Kmem.block, setNode_node, if_true, if_neg distinct, kept]
    · by_cases isX : q = x
      · subst isX
        simp only [Kmem.block, setNode_node, if_true, if_neg isV, kept]
      · simp only [Kmem.block, setNode_node, if_neg isV, if_neg isX, kept]

/-- The list of live blocks without the record. -/
theorem Unlinked.chain {t : Kmem} {front back : List Nat} {v r x : Nat}
    (unlinked : s.Unlinked t fl (front ++ v :: r :: x :: back) v x)
    (chain : Linked.Chain s.next s.kheap.allocLl (front ++ v :: r :: x :: back))
    : Linked.Chain t.next t.kheap.allocLl (front ++ v :: x :: back) := by
  have nodup := chain.nodup
  rw [unlinked.start]
  have rewired : Linked.Path t.next (t.next v) [] (x :: back).head? := by
    rw [Linked.path_nil, unlinked.next v (by simp), if_pos rfl]
    rfl
  have cells : Linked.Chain s.next s.kheap.allocLl (front ++ v :: ([r] ++ x :: back)) := chain
  refine cells.splice rewired (fun q member => ?_)
  have listed : q ∈ front ++ v :: r :: x :: back := by
    rcases member with before | behind
    · exact List.mem_append_left _ before
    · exact List.mem_append_right _ (List.mem_cons_of_mem _ (List.mem_cons_of_mem _ behind))
  have notV : q ≠ v := by
    rintro rfl
    rcases member with before | behind
    · exact (List.nodup_append.mp nodup).2.2 q before q (List.mem_cons_self ..) rfl
    · exact (List.nodup_cons.mp (List.nodup_append.mp nodup).2.1).1
        (List.mem_cons_of_mem _ behind)
  rw [unlinked.next q listed, if_neg notV]

/-- The new node is linked and merged, and the records stay as they are. -/
theorem Lists.merged (h : s.Lists fl al) {front post : List Nat}
    (between : s.Between fl al front w p post) {t : Kmem} (kept : ∀ q ∈ fl, t.node q = s.node q)
    (size : Nat)
    : ∃ s', ((t.linkBefore s.nextNode p size).mergeForward s.nextNode).bind
          (fun t => t.mergeBackward s.nextNode) = some s'
        ∧ s'.kheap.allocLl = t.kheap.allocLl ∧ ∀ q ∈ al, s'.node q = t.node q := by
  obtain ⟨-, memberP⟩ := between.mem
  have back : (t.node p).prev = some w := by
    rw [kept p memberP]
    exact between.back
  have linked (q : Nat) := linkBefore_node size back between.notP between.notW between.apart q
  have new := linked s.nextNode
  rw [if_neg between.notP, if_neg between.notW, if_pos rfl] at new
  obtain ⟨s', merged, kheap, others⟩ := merges_return
    (s := t.linkBefore s.nextNode p size) (by rw [new]) (by rw [new])
  refine ⟨s', merged, ?_, fun q member => ?_⟩
  · rw [kheap, linkBefore_allocLl]
  · have notNew : q ≠ s.nextNode := h.fresh (.inr member)
    have notW : q ≠ w := fun same => between.listed.1 (same ▸ member)
    have notP : q ≠ p := fun same => between.listed.2 (same ▸ member)
    rw [others q notNew notW, linked, if_neg notP, if_neg notW, if_neg notNew]

/-- Then it returns, and exactly the record has left the list of the live blocks. -/
theorem Lists.heapFree_unlinks (h : s.Lists fl al) (room : s.Room) {pre post : List Nat}
    (split : fl = pre ++ w :: p :: post) (passed : ∀ q ∈ pre ++ [w], (s.node q).addr < ptr)
    (here : ptr ≤ (s.node p).addr) {front back : List Nat} {v r x : Nat}
    (recorded : al = front ++ v :: r :: x :: back)
    (first : ∀ q ∈ front ++ [v], (s.node q).addr ≠ ptr) (match' : (s.node r).addr = ptr)
    : ∃ s', s.heapFree ptr = some s'
        ∧ Linked.Chain s'.next s'.kheap.allocLl (front ++ v :: x :: back)
        ∧ ∀ q ∈ al, s'.block q = s.block q := by
  have recorded' : al = (front ++ [v]) ++ r :: (x :: back) := by
    rw [recorded, List.append_assoc]
    rfl
  have forgot := h.forget_first room recorded' first match'
  rw [List.head?_cons, List.getLast?_concat, Option.bind_some, Option.bind_some] at forgot
  have chain := h.alloc.links.chain
  have nodup := chain.nodup
  have distinct : v ≠ x := by
    rw [recorded] at nodup
    rintro rfl
    exact (List.nodup_cons.mp (List.nodup_append.mp nodup).2.1).1 (by simp)
  have unlinked := h.unlinked ptr (show v ∈ al by simp [recorded]) (show x ∈ al by simp [recorded])
    distinct
  obtain ⟨s', merged, start, kept⟩ :=
    h.merged (h.between split) unlinked.free (s.node r).size
  refine ⟨s', ?_, ?_, fun q member => ?_⟩
  · rw [heapFree_eq, h.seekFree_between split passed here, Option.bind_some, forgot,
      Option.bind_some]
    exact merged
  · rw [start]
    subst recorded
    refine (unlinked.chain chain).congr (fun q member => ?_)
    rw [Kmem.next, Kmem.next, kept q]
    rcases List.mem_append.mp member with before | behind
    · exact List.mem_append_left _ before
    · rcases List.mem_cons.mp behind with rfl | behind
      · simp
      · exact List.mem_append_right _ (List.mem_cons_of_mem _ (List.mem_cons_of_mem _ behind))
  · rw [Kmem.block, kept q member]
    exact unlinked.blocks q member

section Examples

theorem wellFormed_twoBlocks
    : twoBlocks.WellFormed [16, 32] [48] := by
  refine ⟨tidy_twoBlocks, fun p member => ?_, by decide⟩
  simp only [List.mem_cons, List.not_mem_nil, or_false] at member
  rcases member with (rfl | rfl) | rfl <;> decide

/-- A pointer between the free blocks. -/
theorem twoBlocks_not_ignored
    : ¬ twoBlocks.FreeIgnored 150 :=
  heapFree_not_ignored wellFormed_twoBlocks (by decide)

/-- A pointer into the live block makes a free block of size -1 of it, from which `heap_alloc` then
gives out what no block had room for.
-/
theorem twoBlocks_interior
    : ¬ twoBlocks.FreeIgnored 124
      ∧ (twoBlocks.heapAlloc 1000).map Prod.fst = some none
      ∧ ((twoBlocks.heapFree 124).bind (fun s => s.heapAlloc 1000)).map Prod.fst
        = some (some 124) := by
  have before : (twoBlocks.heapAlloc 1000).map Prod.fst = some none := by
    decide
  have after : ((twoBlocks.heapFree 124).bind (fun s => s.heapAlloc 1000)).map Prod.fst
      = some (some 124) := by
    decide
  refine ⟨?_, before, after⟩
  rintro ⟨s', returned, free, -⟩
  obtain ⟨fl', chain, same⟩ := free [⟨100, 10⟩, ⟨200, 50⟩] ⟨[16, 32], by decide, by decide⟩
  have three : (twoBlocks.heapFree 124).any
      (fun s => decide (Linked.Chain s.next s.kheap.freeLl [16, 64, 32])) = true := by
    decide
  rw [returned] at three
  have nodes := chain.unique (of_decide_eq_true three)
  subst nodes
  exact absurd (congrArg List.length same) (by simp)

end Examples

end Kmem

end Hydrangea
