import Hydrangea.Lib.FirstFit
import Hydrangea.Lib.Linked
import Hydrangea.Mem.Heap

/-! The two lists of a heap are doubly linked, and on such lists `heap_alloc` is first-fit
allocation from an arena.
-/

namespace Hydrangea.Kmem

-----------------------------------------------------------------------------------------
-- Field access through stores
-----------------------------------------------------------------------------------------

@[simp]
theorem setNode_node (s : Kmem) (p q : Nat) (f : FreeLl → FreeLl)
    : (s.setNode p f).node q = if q = p then f (s.node p) else s.node q := by
  simp only [setNode, Function.update_apply]

@[simp]
theorem setNode_kheap (s : Kmem) (p : Nat) (f : FreeLl → FreeLl)
    : (s.setNode p f).kheap = s.kheap :=
  rfl

@[simp]
theorem setNode_pmm (s : Kmem) (p : Nat) (f : FreeLl → FreeLl)
    : (s.setNode p f).pmm = s.pmm :=
  rfl

@[simp]
theorem pushNode_node (s : Kmem) (value : FreeLl) (q : Nat)
    : (s.pushNode value).node q = if q = s.nextNode then value else s.node q := by
  simp only [pushNode, Function.update_apply]

@[simp]
theorem pushNode_kheap (s : Kmem) (value : FreeLl) : (s.pushNode value).kheap = s.kheap :=
  rfl

@[simp]
theorem setFreeLl_node (s : Kmem) (p : Option Nat) : (s.setFreeLl p).node = s.node :=
  rfl

@[simp]
theorem setFreeLl_pmm (s : Kmem) (p : Option Nat) : (s.setFreeLl p).pmm = s.pmm :=
  rfl

@[simp]
theorem setFreeLl_kheap (s : Kmem) (p : Option Nat)
    : (s.setFreeLl p).kheap = { s.kheap with freeLl := p } :=
  rfl

@[simp]
theorem setAllocLl_node (s : Kmem) (p : Option Nat) : (s.setAllocLl p).node = s.node :=
  rfl

@[simp]
theorem setAllocLl_pmm (s : Kmem) (p : Option Nat) : (s.setAllocLl p).pmm = s.pmm :=
  rfl

@[simp]
theorem setAllocLl_kheap (s : Kmem) (p : Option Nat)
    : (s.setAllocLl p).kheap = { s.kheap with allocLl := p } :=
  rfl

/-- Leaving `free_ll` allocates nothing. -/
@[simp]
theorem unlinkFree_pmm (s : Kmem) (p : Nat) : (s.unlinkFree p).pmm = s.pmm := by
  unfold unlinkFree
  cases (s.node p).prev <;> dsimp only <;> split <;> rfl

/-- A recorded block needs one list node. -/
theorem heapSaveAllocatedBlock_pmm {s s' : Kmem} {addr size : Nat}
    (saved : s.heapSaveAllocatedBlock addr size = some s')
    : s'.pmm = (s.pushNode { addr, size, prev := none, next := none }).pmm := by
  rw [heapSaveAllocatedBlock] at saved
  split at saved
  · rw [← Option.some.inj saved]
    rfl
  · obtain ⟨last, -, rest⟩ := Option.bind_eq_some_iff.mp saved
    rw [← Option.some.inj rest]
    rfl

/-- `heap_alloc` allocates at most one list node. -/
theorem heapAlloc_pmm {s s' : Kmem} {size : Nat} {addr : Option Nat}
    (called : s.heapAlloc size = some (addr, s'))
    : s'.pmm = s.pmm ∨ ∃ value, s'.pmm = (s.pushNode value).pmm := by
  obtain ⟨fit, -, rest⟩ := Option.bind_eq_some_iff.mp called
  cases fit with
  | none =>
      obtain ⟨-, rfl⟩ := Prod.mk.inj (Option.some.inj rest)
      exact Or.inl rfl
  | some p =>
      obtain ⟨s₁, saved, rest⟩ := Option.bind_eq_some_iff.mp rest
      refine Or.inr ⟨_, Eq.trans ?_ (heapSaveAllocatedBlock_pmm saved)⟩
      split at rest
      · obtain ⟨-, rfl⟩ := Prod.mk.inj (Option.some.inj rest)
        rfl
      · obtain ⟨-, rfl⟩ := Prod.mk.inj (Option.some.inj rest)
        exact unlinkFree_pmm s₁ p

/-- The placement allocator has room for one more list node. -/
def Room (s : Kmem) : Prop :=
  s.pmm.placementAddr + sizeofFreeLl < 2 ^ 32

/-- With room, a new node moves the placement pointer past itself. -/
theorem Room.placementAddr {s : Kmem} (room : s.Room) (value : FreeLl)
    : (s.pushNode value).pmm.placementAddr = s.pmm.placementAddr + sizeofFreeLl :=
  Nat.mod_eq_of_lt room

def block (s : Kmem) (p : Nat) : Block :=
  ⟨(s.node p).addr, (s.node p).size⟩

-----------------------------------------------------------------------------------------
-- Well-linked heaps and their arenas
-----------------------------------------------------------------------------------------

/-- The nodes `xs` form a doubly linked list from `start`, ended by NULL on both sides. -/
structure NodeList (s : Kmem) (start : Option Nat) (xs : List Nat) : Prop where
  links : Linked.Doubly s.next s.prev start xs
  head : ∀ p ∈ xs.head?, s.prev p = none

/-- A node list depends on its own nodes only. -/
theorem NodeList.congr {s s' : Kmem} {start : Option Nat} {xs : List Nat}
    (h : s.NodeList start xs) (same : ∀ p ∈ xs, s'.node p = s.node p)
    : s'.NodeList start xs := by
  have nexts : ∀ p ∈ xs, s'.next p = s.next p := fun p member => by rw [next, same p member]
  have prevs : ∀ p ∈ xs, s'.prev p = s.prev p := fun p member => by rw [prev, same p member]
  refine ⟨h.links.congr nexts prevs, fun p first => ?_⟩
  rw [prevs p (List.mem_of_mem_head? first)]
  exact h.head p first

/-- A node list with stores into `addr` and `size` only is the same list. -/
theorem NodeList.congr_links {s s' : Kmem} {start : Option Nat} {xs : List Nat}
    (h : s.NodeList start xs) (nexts : ∀ p, s'.next p = s.next p)
    (prevs : ∀ p, s'.prev p = s.prev p)
    : s'.NodeList start xs := by
  refine ⟨h.links.congr (fun p _ => nexts p) (fun p _ => prevs p), fun p first => ?_⟩
  rw [prevs p]
  exact h.head p first

/-- `free_ll` runs through the nodes `fl` and `alloc_ll` through the nodes `al`; they share
no node and lie below the placement pointer.
-/
structure Lists (s : Kmem) (fl al : List Nat) : Prop where
  free : s.NodeList s.kheap.freeLl fl
  alloc : s.NodeList s.kheap.allocLl al
  apart : List.Disjoint fl al
  below : ∀ p, p ∈ fl ∨ p ∈ al → p < s.pmm.placementAddr

/-- `free_ll` and `alloc_ll` run through nodes of their own. -/
structure TwoLists (s : Kmem) (fl al : List Nat) : Prop where
  free : s.NodeList s.kheap.freeLl fl
  alloc : s.NodeList s.kheap.allocLl al
  apart : List.Disjoint fl al

/-- The lists, wherever the placement pointer is. -/
theorem Lists.twoLists {s : Kmem} {fl al : List Nat} (h : s.Lists fl al) : s.TwoLists fl al :=
  ⟨h.free, h.alloc, h.apart⟩

def arena (s : Kmem) (fl al : List Nat) : Arena :=
  ⟨fl.map s.block, al.map s.block⟩

/-- Distinct nodes below the placement pointer are no more than `walkFuel` allows. -/
theorem length_lt_walkFuel {s : Kmem} {xs : List Nat} (nodup : xs.Nodup)
    (below : ∀ p ∈ xs, p < s.pmm.placementAddr)
    : xs.length < s.walkFuel :=
  Nat.lt_succ_of_le (Linked.length_le_of_nodup nodup below)

/-- The walk over `free_ll` has enough rounds. -/
theorem Lists.free_length {s : Kmem} {fl al : List Nat} (h : s.Lists fl al)
    : fl.length < s.walkFuel :=
  length_lt_walkFuel h.free.links.chain.nodup (fun p member => h.below p (Or.inl member))

/-- The walk over `alloc_ll` has enough rounds. -/
theorem Lists.alloc_length {s : Kmem} {fl al : List Nat} (h : s.Lists fl al)
    : al.length < s.walkFuel :=
  length_lt_walkFuel h.alloc.links.chain.nodup (fun p member => h.below p (Or.inr member))

/-- The next node to be allocated is on neither list. -/
theorem Lists.fresh {s : Kmem} {fl al : List Nat} (h : s.Lists fl al) {p : Nat}
    (member : p ∈ fl ∨ p ∈ al)
    : p ≠ s.nextNode :=
  Nat.ne_of_lt (h.below p member)

-----------------------------------------------------------------------------------------
-- Recording an allocated block
-----------------------------------------------------------------------------------------

/-- The first recorded block becomes the only node of `alloc_ll`. -/
theorem heapSaveAllocatedBlock_first {s : Kmem} (addr size : Nat)
    (empty : s.kheap.allocLl = none)
    : s.heapSaveAllocatedBlock addr size
      = some ((s.pushNode { addr, size, prev := none, next := none }).setAllocLl
          (some s.nextNode)) := by
  simp [heapSaveAllocatedBlock, empty]

/-- A later block becomes a node behind the last node of `alloc_ll`. -/
theorem heapSaveAllocatedBlock_later {s : Kmem} {front : List Nat} {last : Nat}
    (addr size : Nat) (h : Linked.Chain s.next s.kheap.allocLl (front ++ [last]))
    (enough : front.length < s.walkFuel)
    : s.heapSaveAllocatedBlock addr size
      = some ((s.pushNode { addr, size, prev := some last, next := none }).setNode last
          (fun n => { n with next := some s.nextNode })) := by
  obtain ⟨first, start⟩ : ∃ first, s.kheap.allocLl = some first := by
    have := h.head
    cases front <;> simp_all
  have found : Linked.last s.next s.walkFuel first = some last :=
    Linked.last_eq (by rw [← start]; exact h) enough
  simp [heapSaveAllocatedBlock, start, found]

/-- `heap_save_allocated_block` appends one node to `alloc_ll`; it changes no node of
`free_ll` and no recorded block.
-/
theorem Lists.saves {s : Kmem} {fl al : List Nat} (h : s.Lists fl al) (addr size : Nat)
    : ∃ s', s.heapSaveAllocatedBlock addr size = some s'
        ∧ s'.TwoLists fl (al ++ [s.nextNode])
        ∧ (∀ p ∈ fl, s'.node p = s.node p)
        ∧ (al ++ [s.nextNode]).map s'.block = al.map s.block ++ [⟨addr, size⟩] := by
  have apart : List.Disjoint fl (al ++ [s.nextNode]) := by
    refine List.disjoint_append_right.mpr ⟨h.apart, ?_⟩
    intro p member new
    exact h.fresh (Or.inl member) (List.mem_singleton.mp new)
  rcases List.eq_nil_or_concat' al with rfl | ⟨front, last, rfl⟩
  · have same : ∀ p ∈ fl, ((s.pushNode { addr, size, prev := none, next := none }).setAllocLl
        (some s.nextNode)).node p = s.node p := by
      intro p member
      simp [h.fresh (Or.inl member)]
    refine ⟨_, heapSaveAllocatedBlock_first addr size h.alloc.links.chain, ?_, same, ?_⟩
    · refine ⟨h.free.congr same, ⟨Linked.Doubly.singleton ?_, ?_⟩, apart⟩
      · simp [next]
      · simp [prev]
    · simp [block]
  · have lastMem : last ∈ front ++ [last] := by simp
    have lastFresh := h.fresh (Or.inr lastMem)
    have frontFresh {p : Nat} (member : p ∈ front) : p ≠ last ∧ p ≠ s.nextNode := by
      have distinct := (List.nodup_append.mp h.alloc.links.chain.nodup).2.2
      exact ⟨distinct p member last (by simp),
        h.fresh (Or.inr (List.mem_append_left [last] member))⟩
    have same : ∀ p ∈ fl, ((s.pushNode { addr, size, prev := some last, next := none }).setNode
        last (fun n => { n with next := some s.nextNode })).node p = s.node p := by
      intro p member
      have notLast : p ≠ last := by
        rintro rfl
        exact h.apart member lastMem
      simp [h.fresh (Or.inl member), notLast]
    refine ⟨_, heapSaveAllocatedBlock_later addr size h.alloc.links.chain ?_, ?_, same, ?_⟩
    · have := h.alloc_length
      simp only [List.length_append, List.length_singleton] at this
      omega
    · refine ⟨h.free.congr same, ⟨?_, ?_⟩, apart⟩
      · rw [List.append_assoc]
        refine h.alloc.links.push_last ?_ ?_ ?_ ?_ ?_
        · simp [next]
        · simp [next, Ne.symm lastFresh]
        · simp [prev, Ne.symm lastFresh]
        · intro p member
          simp [next, (frontFresh member).1, (frontFresh member).2]
        · intro p member
          have := h.fresh (Or.inr member)
          by_cases eq : p = last <;> simp [prev, eq, lastFresh, this]
      · intro p first
        have old : p ∈ (front ++ [last]).head? := by
          cases front <;> simpa using first
        have was := h.alloc.head p old
        have := h.fresh (Or.inr (List.mem_of_mem_head? old))
        by_cases eq : p = last
        · subst eq
          simpa [prev, this] using was
        · simpa [prev, eq, this] using was
    · rw [List.map_append, List.map_singleton]
      refine congrArg₂ _ (List.map_congr_left (fun p member => ?_))
        (congrArg (fun b => [b]) ?_)
      · have := h.fresh (Or.inr member)
        by_cases eq : p = last <;> simp [block, eq, lastFresh, this]
      · simp [block, Ne.symm lastFresh]

/-- The nodes of the lists and the new one lie below the next one. -/
theorem Lists.below_new {s : Kmem} {fl al : List Nat} (h : s.Lists fl al) (p : Nat)
    (member : p ∈ fl ∨ p ∈ al ++ [s.nextNode])
    : p < s.pmm.placementAddr + sizeofFreeLl := by
  have old (listed : p ∈ fl ∨ p ∈ al) : p < s.pmm.placementAddr + sizeofFreeLl :=
    Nat.lt_add_right _ (h.below p listed)
  rcases member with free | allocated
  · exact old (Or.inl free)
  · rcases List.mem_append.mp allocated with recorded | new
    · exact old (Or.inr recorded)
    · rw [List.mem_singleton.mp new]
      exact Nat.lt_add_of_pos_right (by decide)

/-- With room for it, the new node lies below the placement pointer, too. -/
theorem Lists.heapSaveAllocatedBlock {s : Kmem} {fl al : List Nat} (h : s.Lists fl al)
    (room : s.Room) (addr size : Nat)
    : ∃ s', s.heapSaveAllocatedBlock addr size = some s'
        ∧ s'.Lists fl (al ++ [s.nextNode])
        ∧ (∀ p ∈ fl, s'.node p = s.node p)
        ∧ (al ++ [s.nextNode]).map s'.block = al.map s.block ++ [⟨addr, size⟩]
        ∧ s'.pmm.placementAddr = s.pmm.placementAddr + sizeofFreeLl := by
  obtain ⟨s', saved, lists, same, records⟩ := h.saves addr size
  have placement : s'.pmm.placementAddr = s.pmm.placementAddr + sizeofFreeLl := by
    rw [heapSaveAllocatedBlock_pmm saved]
    exact room.placementAddr _
  refine ⟨s', saved, ⟨lists.free, lists.alloc, lists.apart, ?_⟩, same, records, placement⟩
  rw [placement]
  exact h.below_new

-----------------------------------------------------------------------------------------
-- Taking a block from the free list
-----------------------------------------------------------------------------------------

theorem next_setNext (s : Kmem) (w : Nat) (after : Option Nat) (q : Nat)
    : (s.setNode w (fun n => { n with next := after })).next q
      = if q = w then after else s.next q := by
  rw [next, setNode_node]
  split <;> rfl

theorem next_setPrev (s : Kmem) (w : Nat) (before : Option Nat) (q : Nat)
    : (s.setNode w (fun n => { n with prev := before })).next q = s.next q := by
  rw [next, setNode_node]
  split
  · next same => rw [same, next]
  · rfl

theorem prev_setPrev (s : Kmem) (w : Nat) (before : Option Nat) (q : Nat)
    : (s.setNode w (fun n => { n with prev := before })).prev q
      = if q = w then before else s.prev q := by
  rw [prev, setNode_node]
  split <;> rfl

theorem prev_setNext (s : Kmem) (w : Nat) (after : Option Nat) (q : Nat)
    : (s.setNode w (fun n => { n with next := after })).prev q = s.prev q := by
  rw [prev, setNode_node]
  split
  · next same => rw [same, prev]
  · rfl

/-- The heap after the first store of a node that leaves `free_ll`: the node before it, or
`free_ll`, goes on with the one behind it.
-/
def linkOver (s : Kmem) (p : Nat) : Kmem :=
  match s.prev p with
  | none => s.setFreeLl (s.next p)
  | some before => s.setNode before (fun n => { n with next := s.next p })

theorem linkOver_next (s : Kmem) (p q : Nat)
    : (s.linkOver p).next q = if s.prev p = some q then s.next p else s.next q := by
  rw [linkOver]
  cases s.prev p with
  | none => rfl
  | some before =>
      dsimp only
      rw [next_setNext]
      exact if_congr (by rw [Option.some.injEq, eq_comm]) rfl rfl

theorem linkOver_prev (s : Kmem) (p q : Nat) : (s.linkOver p).prev q = s.prev q := by
  rw [linkOver]
  cases s.prev p with
  | none => rfl
  | some before => exact prev_setNext s before _ q

/-- The node behind it points back at the node before it. -/
theorem unlinkFree_eq (s : Kmem) (p : Nat)
    : s.unlinkFree p
      = (s.next p).elim (s.linkOver p)
          (fun after => (s.linkOver p).setNode after (fun n => { n with prev := s.prev p })) := by
  have same : s.unlinkFree p
      = ((s.linkOver p).next p).elim (s.linkOver p) (fun after =>
          (s.linkOver p).setNode after (fun n => { n with prev := (s.linkOver p).prev p })) := by
    rw [linkOver, unlinkFree, prev]
    cases (s.node p).prev <;> dsimp only <;> split
    all_goals
      rename_i found
      rw [next, found]
      rfl
  rw [same, linkOver_next, linkOver_prev, ite_self]

theorem unlinkFree_next (s : Kmem) (p q : Nat)
    : (s.unlinkFree p).next q = if s.prev p = some q then s.next p else s.next q := by
  rw [unlinkFree_eq, ← linkOver_next]
  cases s.next p with
  | none => rfl
  | some after => exact next_setPrev _ after _ q

theorem unlinkFree_prev (s : Kmem) (p q : Nat)
    : (s.unlinkFree p).prev q = if s.next p = some q then s.prev p else s.prev q := by
  rw [unlinkFree_eq, ← linkOver_prev s p q]
  cases s.next p with
  | none => rfl
  | some after =>
      refine (prev_setPrev _ after _ q).trans ?_
      exact if_congr (by rw [Option.some.injEq, eq_comm]) rfl rfl

theorem unlinkFree_kheap (s : Kmem) (p : Nat) : (s.unlinkFree p).kheap = (s.linkOver p).kheap := by
  rw [unlinkFree_eq]
  cases s.next p <;> rfl

/-- A node that is neither before it nor behind it is left alone. -/
theorem unlinkFree_node {s : Kmem} {p q : Nat} (notBefore : s.prev p ≠ some q)
    (notAfter : s.next p ≠ some q)
    : (s.unlinkFree p).node q = s.node q := by
  have forward : (s.linkOver p).node q = s.node q := by
    rw [linkOver]
    cases before : s.prev p with
    | none => rfl
    | some w =>
        dsimp only
        rw [setNode_node, if_neg]
        rintro rfl
        exact notBefore before
  rw [unlinkFree_eq]
  cases after : s.next p with
  | none => exact forward
  | some w =>
      rw [Option.elim_some, setNode_node, if_neg, forward]
      rintro rfl
      exact notAfter after

theorem setNode_block (s : Kmem) (w : Nat) {f : FreeLl → FreeLl}
    (kept : ∀ n, (f n).addr = n.addr ∧ (f n).size = n.size) (q : Nat)
    : (s.setNode w f).block q = s.block q := by
  rw [block, setNode_node]
  split
  · next same => rw [(kept _).1, (kept _).2, same, block]
  · rfl

theorem unlinkFree_block (s : Kmem) (p q : Nat) : (s.unlinkFree p).block q = s.block q := by
  have forward : (s.linkOver p).block q = s.block q := by
    rw [linkOver]
    cases s.prev p with
    | none => rfl
    | some w =>
        dsimp only
        rw [setNode_block]
        exact fun _ => ⟨rfl, rfl⟩
  rw [unlinkFree_eq]
  cases s.next p with
  | none => exact forward
  | some w =>
      rw [Option.elim_some, setNode_block, forward]
      exact fun _ => ⟨rfl, rfl⟩

theorem NodeList.unlinkFirst {s : Kmem} {start : Option Nat} {p : Nat} {post : List Nat}
    (h : s.NodeList start (p :: post))
    : (s.unlinkFree p).NodeList (s.next p) post := by
  have first : s.prev p = none := h.head p rfl
  have after : s.next p = post.head? := by
    have cells : Linked.Chain s.next start ([] ++ p :: post) := h.links.chain
    exact cells.next_eq
  have nodup : post.Nodup := h.links.chain.nodup.of_cons
  refine ⟨h.links.unlink_head (fun q _ => ?_) (fun q member => ?_), fun q isHead => ?_⟩
  · rw [unlinkFree_next, first, if_neg nofun]
  · rw [unlinkFree_prev, after, if_neg (Linked.head?_ne_of_mem_tail nodup member)]
  · rw [unlinkFree_prev, after, if_pos (Option.mem_def.mp isHead), first]

theorem NodeList.unlinkInner {s : Kmem} {start : Option Nat} {w p : Nat} {front post : List Nat}
    (h : s.NodeList start (front ++ w :: p :: post))
    : (s.unlinkFree p).NodeList start (front ++ w :: post) := by
  have before : s.prev p = some w := h.links.prev_eq
  have after : s.next p = post.head? := by
    have cells : Linked.Chain s.next start ((front ++ [w]) ++ p :: post) := by
      simpa using h.links.chain
    exact cells.next_eq
  obtain ⟨-, rest, frontApart⟩ := List.nodup_append.mp h.links.chain.nodup
  obtain ⟨wApart, rest⟩ := List.nodup_cons.mp rest
  have nodup : post.Nodup := rest.of_cons
  -- The nodes in front of the one that leaves are not the one behind it.
  have notHead {q : Nat} (inFront : q ∈ front ∨ q = w) : post.head? ≠ some q := by
    intro same
    have member := List.mem_of_mem_head? same
    rcases inFront with inFront | rfl
    · exact frontApart q inFront q (by simp [member]) rfl
    · exact wApart (List.mem_cons_of_mem p member)
  refine ⟨h.links.unlink ?_ (fun q member => ?_) (fun q isHead => ?_) (fun q member => ?_),
    fun q first => ?_⟩
  · rw [unlinkFree_next, before, if_pos rfl]
  · rw [unlinkFree_next, before, if_neg]
    intro same
    obtain rfl := Option.some.inj same
    rcases member with inFront | inPost
    · exact frontApart w inFront w (List.mem_cons_self ..) rfl
    · exact wApart (List.mem_cons_of_mem p inPost)
  · rw [unlinkFree_prev, after, if_pos (Option.mem_def.mp isHead), before]
  · rw [unlinkFree_prev, after, if_neg]
    rcases member with inFront | isW | inTail
    · exact notHead (.inl inFront)
    · exact notHead (.inr isW)
    · exact Linked.head?_ne_of_mem_tail nodup inTail
  · have old : q ∈ (front ++ w :: p :: post).head? := by
      cases front <;> simpa using first
    have inFront : q ∈ front ∨ q = w := by
      cases front with
      | nil => exact .inr (by simpa [eq_comm] using first)
      | cons r front => exact .inl (by simp [show r = q by simpa using first])
    rw [unlinkFree_prev, after, if_neg (notHead inFront)]
    exact h.head q old

/-- Leaving `free_ll` touches no block and no node of `alloc_ll`; the free
list loses that one node. The node before it is found in its `prev`, or it was the first.
-/
theorem TwoLists.unlinkFree {s : Kmem} {pre post al : List Nat} {p : Nat}
    (h : s.TwoLists (pre ++ p :: post) al)
    : (s.unlinkFree p).TwoLists (pre ++ post) al
      ∧ ∀ q, (s.unlinkFree p).block q = s.block q := by
  have after : s.next p = post.head? := h.free.links.chain.next_eq
  have apart : List.Disjoint (pre ++ post) al := fun q member other =>
    h.apart (by simp only [List.mem_append, List.mem_cons] at *; tauto) other
  have notAfter {q : Nat} (member : q ∈ al) : s.next p ≠ some q := by
    intro same
    rw [after] at same
    exact h.apart (by simp [List.mem_of_mem_head? same]) member
  refine ⟨?_, s.unlinkFree_block p⟩
  rcases List.eq_nil_or_concat' pre with rfl | ⟨front, w, rfl⟩
  · have first : s.prev p = none := h.free.head p rfl
    have kheap : (s.unlinkFree p).kheap = { s.kheap with freeLl := s.next p } := by
      rw [unlinkFree_kheap, linkOver, first]
      rfl
    refine ⟨?_, ?_, apart⟩
    · rw [kheap]
      exact NodeList.unlinkFirst h.free
    · rw [kheap]
      exact h.alloc.congr (fun q member => unlinkFree_node (by simp [first]) (notAfter member))
  · have free : s.NodeList s.kheap.freeLl (front ++ w :: p :: post) := by simpa using h.free
    have before : s.prev p = some w := free.links.prev_eq
    have kheap : (s.unlinkFree p).kheap = s.kheap := by
      rw [unlinkFree_kheap, linkOver, before]
      rfl
    refine ⟨?_, ?_, apart⟩
    · rw [kheap, List.append_assoc]
      exact free.unlinkInner
    · rw [kheap]
      refine h.alloc.congr (fun q member => unlinkFree_node ?_ (notAfter member))
      rintro same
      obtain rfl := Option.some.inj (before.symm.trans same)
      exact h.apart (by simp) member

-----------------------------------------------------------------------------------------
-- Serving a request
-----------------------------------------------------------------------------------------

/-- A list of blocks splits at its first block that is large enough. -/
theorem exists_firstFit (node : Nat → FreeLl) (size : Nat) (fl : List Nat)
    : (∀ q ∈ fl, (node q).size < size)
      ∨ ∃ pre p post, fl = pre ++ p :: post ∧ (∀ q ∈ pre, (node q).size < size)
          ∧ size ≤ (node p).size := by
  induction fl with
  | nil => simp
  | cons q fl ih =>
      rcases Nat.lt_or_ge (node q).size size with small | large
      · rcases ih with all | ⟨pre, p, post, rfl, passed, fits⟩
        · exact Or.inl (by simpa [small] using all)
        · exact Or.inr ⟨q :: pre, p, post, rfl, by simpa [small] using passed, fits⟩
      · exact Or.inr ⟨[], q, fl, rfl, by simp, large⟩

/-- `heap_alloc` refuses a request that no free block can serve, and changes nothing. -/
theorem Lists.heapAlloc_none {s : Kmem} {fl al : List Nat} (h : s.Lists fl al) {size : Nat}
    (small : ∀ q ∈ fl, (s.node q).size < size)
    : s.heapAlloc size = some (none, s) := by
  have chain : Linked.Chain s.next s.kheap.freeLl (fl ++ []) := by
    simpa using h.free.links.chain
  have search : s.heapFirstFit size = some none :=
    Linked.find_eq chain (by simpa using small) (by simp) h.free_length
  simp [heapAlloc, search]

/-- The first block that is large enough is recorded; then it is cut, or it leaves the free
list when nothing remains of it.
-/
theorem Lists.heapAlloc_some {s : Kmem} {pre post al : List Nat} {p size : Nat}
    (h : s.Lists (pre ++ p :: post) al)
    (small : ∀ q ∈ pre, (s.node q).size < size) (large : size ≤ (s.node p).size)
    (bounded : (s.node p).addr + (s.node p).size ≤ 2 ^ 32)
    : ∃ s' fl', s.heapAlloc size = some (some (s.node p).addr, s')
        ∧ s'.TwoLists fl' (al ++ [s.nextNode])
        ∧ fl'.map s'.block
          = pre.map s.block
            ++ ((if size < (s.node p).size then
                [⟨(s.node p).addr + size, (s.node p).size - size⟩] else [])
              ++ post.map s.block)
        ∧ (al ++ [s.nextNode]).map s'.block = al.map s.block ++ [⟨(s.node p).addr, size⟩]
        ∧ fl'.Sublist (pre ++ p :: post) ∧ ∃ value, s'.pmm = (s.pushNode value).pmm := by
  have search : s.heapFirstFit size = some (some p) := by
    refine Linked.find_eq h.free.links.chain (by simpa using small) (by simpa using large) ?_
    have := h.free_length
    simp only [List.length_append] at this
    omega
  obtain ⟨s₁, saved, lists, same, records⟩ := h.saves (s.node p).addr size
  have pushed : ∃ value, s₁.pmm = (s.pushNode value).pmm := ⟨_, heapSaveAllocatedBlock_pmm saved⟩
  have node : s₁.node p = s.node p := same p (by simp)
  have blocks : ∀ q ∈ pre ++ p :: post, s₁.block q = s.block q := by
    intro q member
    rw [block, same q member, block]
  have inPre : pre.map s₁.block = pre.map s.block :=
    List.map_congr_left (fun q member => blocks q (by simp [member]))
  have inPost : post.map s₁.block = post.map s.block :=
    List.map_congr_left (fun q member => blocks q (by simp [member]))
  rcases Nat.lt_or_ge size (s.node p).size with cut | used
  · have nodup := h.free.links.chain.nodup
    have others : ∀ q, q ≠ p → (s₁.setNode p (fun n =>
        { n with addr := (n.addr + size) % 2 ^ 32, size := n.size - size })).block q
          = s₁.block q := by
      intro q other
      simp [block, other]
    have notPre : ∀ q ∈ pre, q ≠ p := fun q member =>
      (List.nodup_append.mp nodup).2.2 q member p (by simp)
    have notPost : ∀ q ∈ post, q ≠ p := by
      rintro q member rfl
      exact (List.nodup_cons.mp (List.nodup_append.mp nodup).2.1).1 member
    have notRecords : ∀ q ∈ al ++ [s.nextNode], q ≠ p := by
      rintro q member rfl
      exact lists.apart (by simp) member
    have noWrap : ((s.node p).addr + size) % 2 ^ 32 = (s.node p).addr + size :=
      Nat.mod_eq_of_lt (by omega)
    refine ⟨s₁.setNode p (fun n =>
      { n with addr := (n.addr + size) % 2 ^ 32, size := n.size - size }), pre ++ p :: post,
      ?_, ⟨?_, ?_, lists.apart⟩, ?_, ?_, .refl _, pushed⟩
    · simp [heapAlloc, search, saved, node, cut]
    · refine lists.free.congr_links (fun q => ?_) (fun q => ?_)
      · by_cases same : q = p <;> simp [next, same]
      · by_cases same : q = p <;> simp [prev, same]
    · exact lists.alloc.congr (fun q member => by simp [notRecords q member])
    · have here : (s₁.setNode p (fun n =>
          { n with addr := (n.addr + size) % 2 ^ 32, size := n.size - size })).block p
            = ⟨(s.node p).addr + size, (s.node p).size - size⟩ := by
        simp only [block, setNode_node, if_true, node, noWrap]
      rw [List.map_append, List.map_cons, here, if_pos cut, ← inPre, ← inPost,
        List.map_congr_left (fun q member => others q (notPre q member)),
        List.map_congr_left (fun q member => others q (notPost q member))]
      rfl
    · rw [← records]
      exact List.map_congr_left (fun q member => others q (notRecords q member))
  · obtain ⟨unlinked, kept⟩ := lists.unlinkFree
    refine ⟨s₁.unlinkFree p, pre ++ post, ?_, unlinked, ?_, ?_,
      (List.sublist_cons_self p post).append_left pre,
      by rwa [unlinkFree_pmm]⟩
    · simp [heapAlloc, search, saved, node, Nat.not_lt.mpr used]
    · rw [List.map_append, if_neg (Nat.not_lt.mpr used), List.nil_append, ← inPre, ← inPost]
      exact congrArg₂ _ (List.map_congr_left (fun q _ => kept q))
        (List.map_congr_left (fun q _ => kept q))
    · rw [← records]
      exact List.map_congr_left (fun q _ => kept q)

/-- `heap_alloc` is first fit on the arena of its lists: it answers as the arena does and
leaves lists that describe the arena left.
-/
theorem Lists.serves {s : Kmem} {fl al : List Nat} (h : s.Lists fl al) (size : Nat)
    (bounded : ∀ p ∈ fl, (s.node p).addr + (s.node p).size ≤ 2 ^ 32)
    : ∃ s' fl' al', s.heapAlloc size = some (((s.arena fl al).alloc size).1, s')
        ∧ s'.TwoLists fl' al' ∧ s'.arena fl' al' = ((s.arena fl al).alloc size).2
        ∧ fl'.Sublist fl
        ∧ (((s.arena fl al).alloc size).1 = none ∧ al' = al ∧ s' = s
          ∨ ((s.arena fl al).alloc size).1 ≠ none ∧ al' = al ++ [s.nextNode]
            ∧ ∃ value, s'.pmm = (s.pushNode value).pmm) := by
  rcases exists_firstFit s.node size fl with small | ⟨pre, p, post, rfl, small, large⟩
  · have refused : Arena.take size (fl.map s.block) = none :=
      Arena.take_eq_none.mpr (by simpa [block] using small)
    refine ⟨s, fl, al, ?_, h.twoLists, ?_, .refl _, .inl ⟨?_, rfl, rfl⟩⟩
    · simp [h.heapAlloc_none small, arena, Arena.alloc, refused]
    · simp [arena, Arena.alloc, refused]
    · simp [arena, Arena.alloc, refused]
  · have taken : Arena.take size ((pre ++ p :: post).map s.block)
        = some (⟨(s.node p).addr, size⟩, pre.map s.block
            ++ ((if size < (s.node p).size then
                [⟨(s.node p).addr + size, (s.node p).size - size⟩] else [])
              ++ post.map s.block)) := by
      rw [List.map_append, Arena.take_append (by simpa [block] using small), List.map_cons,
        Arena.take, block, if_neg (Nat.not_lt.mpr large)]
      split <;> rfl
    obtain ⟨s', fl', served, lists, free, allocated, part, pushed⟩ :=
      h.heapAlloc_some small large (bounded p (by simp))
    refine ⟨s', fl', _, ?_, lists, ?_, part, .inr ⟨?_, rfl, pushed⟩⟩
    · rw [served]
      simp only [arena, Arena.alloc, taken]
    · simp only [arena, Arena.alloc, taken, free, allocated]
    · simp only [arena, Arena.alloc, taken]
      exact Option.some_ne_none _

/-- With room for the list node that it needs, the lists lie below the placement pointer again. -/
theorem Lists.heapAlloc {s : Kmem} {fl al : List Nat} (h : s.Lists fl al) (room : s.Room)
    (size : Nat) (bounded : ∀ p ∈ fl, (s.node p).addr + (s.node p).size ≤ 2 ^ 32)
    : ∃ s' fl' al', s.heapAlloc size = some (((s.arena fl al).alloc size).1, s')
        ∧ s'.Lists fl' al' ∧ s'.arena fl' al' = ((s.arena fl al).alloc size).2
        ∧ fl'.length ≤ fl.length
        ∧ s'.pmm.placementAddr ≤ s.pmm.placementAddr + sizeofFreeLl := by
  obtain ⟨s', fl', al', served, lists, arena, part, answer⟩ := h.serves size bounded
  refine ⟨s', fl', al', served, ⟨lists.free, lists.alloc, lists.apart, ?_⟩, arena, part.length_le, ?_⟩
  · rintro p member
    rcases answer with ⟨-, rfl, rfl⟩ | ⟨-, rfl, value, pushed⟩
    · exact h.below p (member.imp_left (part.subset ·))
    · rw [pushed, room.placementAddr]
      exact h.below_new p (member.imp_left (part.subset ·))
  · rcases answer with ⟨-, -, rfl⟩ | ⟨-, -, value, pushed⟩
    · exact Nat.le_add_right _ _
    · rw [pushed, room.placementAddr]

-----------------------------------------------------------------------------------------
-- First fit from a sorted list
-----------------------------------------------------------------------------------------

/-- Both lists are linked both ways, and the free blocks are sorted, not empty, in 32 bits and apart
from each other and from the recorded ones.
-/
structure Tidy (s : Kmem) (fl al : List Nat) : Prop where
  lists : s.TwoLists fl al
  ordered : (fl.map s.block).Pairwise Block.Before
  positive : ∀ b ∈ fl.map s.block, 0 < b.size
  bounded : ∀ b ∈ fl.map s.block, b.addr + b.size ≤ 2 ^ 32
  apart : ∀ b ∈ al.map s.block, ∀ c ∈ fl.map s.block, Disjoint b.bytes c.bytes

/-- `heap_alloc` has taken `size` bytes from the start of the free block `b`; no block that is left
starts below the one it is what is left of.
-/
structure Takes (s s' : Kmem) (fl al fl' : List Nat) (size : Nat) (b : Block) : Prop where
  called : s.heapAlloc size = some (some b.addr, s')
  tidy : s'.Tidy fl' (al ++ [s.nextNode])
  recorded : (al ++ [s.nextNode]).map s'.block = al.map s.block ++ [⟨b.addr, size⟩]
  covered : Arena.bytes (fl'.map s'.block)
    = Arena.bytes (fl.map s.block) \ Block.bytes ⟨b.addr, size⟩
  nodes : fl' ⊆ fl
  starts : ∀ d ∈ fl'.map s'.block, ∃ c ∈ fl.map s.block, c.addr ≤ d.addr

/-- From tidy lists `heap_alloc` takes the start of the first block that is large enough. First fit
on the arena of the lists says which block that is and what is left of the others.
-/
theorem Tidy.takes {s : Kmem} {fl al : List Nat} (tidy : s.Tidy fl al)
    (below : ∀ p, p ∈ fl ∨ p ∈ al → p < s.pmm.placementAddr) {size : Nat} {b : Block}
    (found : (fl.map s.block).find? (fun b => size ≤ b.size) = some b)
    : ∃ s' fl', Takes s s' fl al fl' size b := by
  have lists : s.Lists fl al := ⟨tidy.lists.free, tidy.lists.alloc, tidy.lists.apart, below⟩
  obtain ⟨s', fl', al', called, lists', arena, part, answer⟩ := lists.serves size
    (fun p member => tidy.bounded _ (List.mem_map_of_mem member))
  have first := Arena.take_addr size (fl.map s.block)
  cases taken : Arena.take size (fl.map s.block) with
  | none =>
      have less := Arena.take_eq_none.mp taken b (List.mem_of_find?_eq_some found)
      have fits : size ≤ b.size := by simpa using List.find?_some found
      omega
  | some r =>
      obtain ⟨taken₁, rest⟩ := r
      have served : (s.arena fl al).alloc size
          = (some taken₁.addr, ⟨rest, al.map s.block ++ [taken₁]⟩) := by
        simp only [Kmem.arena, Arena.alloc, taken]
      rw [served] at called arena answer
      obtain ⟨free, allocated⟩ := Arena.mk.inj arena
      obtain ⟨sized, -, kept, -, sorted⟩ := Arena.take_spec taken tidy.ordered
      have apart := Arena.take_apart taken tidy.ordered tidy.apart
      have positive := Arena.take_positive taken tidy.positive
      have covered := Arena.take_bytes taken tidy.ordered
      rw [taken, found] at first
      have start : taken₁.addr = b.addr := Option.some.inj first
      have whole : taken₁ = ⟨b.addr, size⟩ := by rw [← start, ← sized]
      rw [start] at called
      rw [whole] at covered allocated apart
      rcases answer with ⟨null, -, -⟩ | ⟨-, rfl, -⟩
      · cases null
      refine ⟨s', fl', called, ⟨lists', ?_, ?_, ?_, ?_⟩, allocated, ?_, part.subset, ?_⟩
      · rwa [free]
      · rwa [free]
      · rw [free]
        intro d left
        obtain ⟨c, inFree, -, upper⟩ := kept d left
        rw [upper]
        exact tidy.bounded c inFree
      · rwa [free, allocated]
      · rwa [free]
      · rw [free]
        intro d left
        obtain ⟨c, inFree, lower, -⟩ := kept d left
        exact ⟨c, inFree, lower⟩

/-- Neither a list node nor a free block lies at address 0, which is NULL. -/
structure NonNull (s : Kmem) (fl al : List Nat) : Prop where
  nodes : ∀ p, p ∈ fl ∨ p ∈ al → p ≠ 0
  blocks : ∀ b ∈ fl.map s.block, b.addr ≠ 0

/-- What is left of blocks that are not at address 0 is not there either. -/
theorem Takes.nonNull {s s' : Kmem} {fl al fl' : List Nat} {size : Nat} {b : Block}
    (takes : Takes s s' fl al fl' size b) (nonNull : s.NonNull fl al)
    (new : s.pmm.placementAddr ≠ 0)
    : s'.NonNull fl' (al ++ [s.nextNode]) := by
  constructor
  · intro p listed
    rcases listed with inFree | recorded
    · exact nonNull.nodes p (.inl (takes.nodes inFree))
    · rcases List.mem_append.mp recorded with old | isNew
      · exact nonNull.nodes p (.inr old)
      · rw [List.mem_singleton.mp isNew]
        exact new
  · intro d left
    obtain ⟨c, inFree, lower⟩ := takes.starts d left
    have start := nonNull.blocks c inFree
    omega

/-- `heap_alloc` with the pointer that its caller sees: the address of a block at 0 is NULL. -/
def heapAllocPtr (s : Kmem) (size : Nat) : Option (Nat × Kmem) :=
  (s.heapAlloc size).map (fun r => (r.1.getD 0, r.2))

/-- `heap_alloc` has given the start of the free block `b` to its caller, and the lists are as
well formed as they were.
-/
structure Serves (s s' : Kmem) (fl al fl' : List Nat) (size : Nat) (b : Block) : Prop where
  called : s.heapAllocPtr size = some (b.addr, s')
  tidy : s'.Tidy fl' (al ++ [s.nextNode])
  nonNull : s'.NonNull fl' (al ++ [s.nextNode])
  recorded : (al ++ [s.nextNode]).map s'.block = al.map s.block ++ [⟨b.addr, size⟩]
  covered : Arena.bytes (fl'.map s'.block)
    = Arena.bytes (fl.map s.block) \ Block.bytes ⟨b.addr, size⟩

/-- `heap_alloc` returns NULL if and only if no free block is large enough, and changes nothing
then. Otherwise it takes from the first block that is. The loop skips the blocks that are too
small, by induction on the free list, and what it does to the first other one is said once for all
cases in `Tidy.takes`.
-/
theorem heapAlloc_firstFit {s : Kmem} {fl al : List Nat} (tidy : s.Tidy fl al)
    (nonNull : s.NonNull fl al) (below : ∀ p, p ∈ fl ∨ p ∈ al → p < s.pmm.placementAddr)
    (size : Nat)
    : ((∃ s', s.heapAllocPtr size = some (0, s')) ↔ ∀ b ∈ fl.map s.block, b.size < size)
      ∧ (∀ s', s.heapAllocPtr size = some (0, s') → s' = s)
      ∧ ∀ b, (fl.map s.block).find? (fun b => size ≤ b.size) = some b
        → ∃ s' fl', Serves s s' fl al fl' size b := by
  cases found : (fl.map s.block).find? (fun b => size ≤ b.size) with
  | none =>
      have small : ∀ b ∈ fl.map s.block, b.size < size := by
        simpa using List.find?_eq_none.mp found
      have lists : s.Lists fl al := ⟨tidy.lists.free, tidy.lists.alloc, tidy.lists.apart, below⟩
      have null : s.heapAllocPtr size = some (0, s) := by
        have refused := lists.heapAlloc_none (fun p member => small _ (List.mem_map_of_mem member))
        rw [heapAllocPtr, refused]
        rfl
      refine ⟨⟨fun _ => small, fun _ => ⟨s, null⟩⟩, fun s' again => ?_, fun b none => ?_⟩
      · exact (Prod.mk.inj (Option.some.inj (again.symm.trans null))).2
      · cases none
  | some b =>
      obtain ⟨s', fl', takes⟩ := tidy.takes below found
      have member := List.mem_of_find?_eq_some found
      have fits : size ≤ b.size := by simpa using List.find?_some found
      have returned : s.heapAllocPtr size = some (b.addr, s') := by
        rw [heapAllocPtr, takes.called]
        rfl
      have notNull (s'' : Kmem) : s.heapAllocPtr size ≠ some (0, s'') := by
        intro null
        exact nonNull.blocks b member (Prod.mk.inj (Option.some.inj (returned.symm.trans null))).1
      refine ⟨⟨fun null => ?_, fun small => ?_⟩, fun s'' null => ?_, fun b' same => ?_⟩
      · obtain ⟨s'', null⟩ := null
        exact absurd null (notNull s'')
      · exact absurd fits (Nat.not_le.mpr (small b member))
      · exact absurd null (notNull s'')
      · obtain rfl := Option.some.inj same
        have new : s.pmm.placementAddr ≠ 0 := by
          obtain ⟨p, listed, -⟩ := List.mem_map.mp member
          exact Nat.ne_of_gt (Nat.zero_lt_of_lt (below p (.inl listed)))
        exact ⟨s', fl', returned, takes.tidy, takes.nonNull nonNull new, takes.recorded,
          takes.covered⟩

section Examples

def twoBlocks : Kmem where
  pmm := { placementAddr := 64, framesBmp := fun _ => 0, memorySize := 0 }
  node p :=
    if p = 16 then ⟨100, 10, none, some 32⟩
    else if p = 32 then ⟨200, 50, some 16, none⟩
    else ⟨120, 8, none, none⟩
  kheap :=
    { start := 100, size := 150, maxSize := 150, usr := 0, freeLl := some 16, allocLl := some 48 }

theorem tidy_twoBlocks : twoBlocks.Tidy [16, 32] [48] := by
  refine ⟨⟨⟨⟨by decide, ?_⟩, by decide⟩, ⟨⟨by decide, .singleton 48⟩, by decide⟩, by simp⟩, ?_,
    by decide, by decide, ?_⟩
  · exact List.isChain_pair.mpr rfl
  · exact List.pairwise_pair.mpr (by unfold Block.Before; decide)
  · intro b recorded c free
    obtain rfl := List.mem_singleton.mp recorded
    rcases List.mem_pair.mp free with rfl | rfl <;>
      exact Set.Ico_disjoint_Ico.mpr (by decide)

/-- Twenty bytes are taken from the second free block. -/
theorem heapAlloc_twoBlocks : ∃ s' fl', Serves twoBlocks s' [16, 32] [48] fl' 20 ⟨200, 50⟩ := by
  have nodes (p : Nat) (member : p ∈ [16, 32] ∨ p ∈ [48])
      : p ≠ 0 ∧ p < twoBlocks.pmm.placementAddr := by
    simp only [List.mem_cons, List.not_mem_nil, or_false] at member
    rcases member with (rfl | rfl) | rfl <;> decide
  have nonNull : twoBlocks.NonNull [16, 32] [48] :=
    ⟨fun p member => (nodes p member).1, by decide⟩
  have below (p : Nat) (member : p ∈ [16, 32] ∨ p ∈ [48]) : p < twoBlocks.pmm.placementAddr :=
    (nodes p member).2
  exact (heapAlloc_firstFit tidy_twoBlocks nonNull below 20).2.2 ⟨200, 50⟩ rfl

def blockAtNull : Kmem where
  pmm := { placementAddr := 32, framesBmp := fun _ => 0, memorySize := 0 }
  node _ := ⟨0, 50, none, none⟩
  kheap :=
    { start := 0, size := 50, maxSize := 50, usr := 0, freeLl := some 16, allocLl := none }

/-- Twenty bytes of it are recorded as allocated, but the address returned is NULL. -/
theorem heapAlloc_blockAtNull
    : blockAtNull.Tidy [16] [] ∧ (∀ p, p ∈ [16] ∨ p ∈ ([] : List Nat) → p ≠ 0)
      ∧ (∃ b ∈ [16].map blockAtNull.block, 20 ≤ b.size)
      ∧ ∃ s', blockAtNull.heapAllocPtr 20 = some (0, s') ∧ s' ≠ blockAtNull := by
  refine ⟨⟨⟨⟨⟨by decide, .singleton 16⟩, by decide⟩, ⟨⟨by decide, .nil⟩, by decide⟩, by simp⟩,
    List.pairwise_singleton .., by decide, by decide, by simp⟩, by simp, by decide, ?_⟩
  have facts : ∀ r ∈ blockAtNull.heapAllocPtr 20, r.1 = 0 ∧ r.2.pmm.placementAddr = 48 := by
    decide
  have returns : (blockAtNull.heapAllocPtr 20).isSome := by decide
  obtain ⟨⟨addr, s'⟩, returned⟩ := Option.isSome_iff_exists.mp returns
  obtain ⟨rfl, placement⟩ := facts _ returned
  refine ⟨s', returned, ?_⟩
  rintro rfl
  exact absurd placement (by decide)

end Examples

end Hydrangea.Kmem
