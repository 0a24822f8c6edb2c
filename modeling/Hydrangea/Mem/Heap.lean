import Hydrangea.Lib.Linked
import Hydrangea.Mem.Pmm

/-! The kernel heap of `kernel/mem/heap.c`: a list of free blocks and a list of allocated
blocks, both made of nodes that the placement allocator hands out and never takes back.
A pointer to a node is its address and NULL is `none`; a step that follows a NULL node has
no result. No node is at address 0: `placement_addr` starts behind the kernel.
-/

namespace Hydrangea

/-- `free_ll_t`, which is also `alloc_ll_t`. -/
structure FreeLl where
  addr : Nat
  size : Nat
  prev : Option Nat
  next : Option Nat

structure Heap where
  start : Nat
  size : Nat
  maxSize : Nat
  usr : Nat
  freeLl : Option Nat
  allocLl : Option Nat

/-- The memory-management globals: those of `pmm.c`, the list nodes, and `*kheap`. -/
structure Kmem where
  pmm : Pmm
  node : Nat → FreeLl
  kheap : Heap

namespace Kmem

/-- `sizeof(heap_t)`. -/
def sizeofHeap : Nat := 24

/-- `sizeof(free_ll_t)`. -/
def sizeofFreeLl : Nat := 16

def heapCreate (pmm : Pmm) (node : Nat → FreeLl) (start size maxSize usr : Nat) : Kmem :=
  let heap := pmalloc pmm.placementAddr sizeofHeap
  let first := pmalloc heap.2 sizeofFreeLl
  { pmm := { pmm with placementAddr := first.2 }
    node := Function.update node first.1 { addr := start, size, prev := none, next := none }
    kheap :=
      { start, size, maxSize, usr, freeLl := some first.1, allocLl := none } }

/-- The address that the next `pmalloc(sizeof(free_ll_t))` returns. -/
def nextNode (s : Kmem) : Nat :=
  (pmalloc s.pmm.placementAddr sizeofFreeLl).1

/-- `pmalloc(sizeof(free_ll_t))`, storing `value` in the new node. -/
def pushNode (s : Kmem) (value : FreeLl) : Kmem :=
  { s with
    pmm :=
      { s.pmm with placementAddr := (pmalloc s.pmm.placementAddr sizeofFreeLl).2 }
    node := Function.update s.node s.nextNode value }

/-- A store into fields of the node at `p`. -/
def setNode (s : Kmem) (p : Nat) (f : FreeLl → FreeLl) : Kmem :=
  { s with node := Function.update s.node p (f (s.node p)) }

/-- `heap->free_ll = p`. -/
def setFreeLl (s : Kmem) (p : Option Nat) : Kmem :=
  { s with kheap := { s.kheap with freeLl := p } }

/-- `heap->alloc_ll = p`. -/
def setAllocLl (s : Kmem) (p : Option Nat) : Kmem :=
  { s with kheap := { s.kheap with allocLl := p } }

abbrev next (s : Kmem) (p : Nat) : Option Nat :=
  (s.node p).next

abbrev prev (s : Kmem) (p : Nat) : Option Nat :=
  (s.node p).prev

/-- A walk over distinct nodes takes no more rounds than there are addresses below the
placement pointer.
-/
def walkFuel (s : Kmem) : Nat :=
  s.pmm.placementAddr + 1

def heapSaveAllocatedBlock (s : Kmem) (addr size : Nat) : Option Kmem :=
  match s.kheap.allocLl with
  | none =>
      let new := s.nextNode
      some ((s.pushNode { addr, size, prev := none, next := none }).setAllocLl (some new))
  | some first => do
      let last ← Linked.last s.next s.walkFuel first
      let new := s.nextNode
      let s := s.pushNode { addr, size, prev := some last, next := none }
      return s.setNode last (fun n => { n with next := some new })

/-- The walk of `heap_forget_allocated_block`: the first node that records `addr`, or else
the last node.
-/
def findRecord (node : Nat → FreeLl) (addr : Nat) : (fuel p : Nat) → Option Nat
  | 0, _ => none
  | fuel + 1, p =>
      if (node p).addr = addr then
        some p
      else
        match (node p).next with
        | none => some p
        | some q => findRecord node addr fuel q

/-- `heap_forget_allocated_block`: the size of the forgotten block, `(size_t)-1` when the
address is not recorded.
-/
def heapForgetAllocatedBlock (s : Kmem) (addr : Nat) : Option (Nat × Kmem) := do
  let first ← s.kheap.allocLl
  let r ← findRecord s.node addr s.walkFuel first
  if (s.node r).addr ≠ addr then
    return (2 ^ 32 - 1, s)
  let after ← (s.node r).next
  let s := s.setNode after (fun n => { n with prev := (s.node r).prev })
  let before ← (s.node r).prev
  let s := s.setNode before (fun n => { n with next := (s.node r).next })
  return ((s.node r).size, s)

/-- `heap_first_fit`; the inner `none` is the NULL result. -/
def heapFirstFit (s : Kmem) (size : Nat) : Option (Option Nat) :=
  Linked.find s.next (fun p => size ≤ (s.node p).size) s.walkFuel s.kheap.freeLl

/-- The end of `heap_alloc`, where a block that is used up leaves `free_ll`. -/
def unlinkFree (s : Kmem) (p : Nat) : Kmem :=
  let s :=
    match (s.node p).prev with
    | some before => s.setNode before (fun n => { n with next := (s.node p).next })
    | none => s.setFreeLl (s.node p).next
  match (s.node p).next with
  | some after => s.setNode after (fun n => { n with prev := (s.node p).prev })
  | none => s

/-- `heap_alloc`: the address of the block taken, `none` for no block, and the new state. A block
at address 0 is taken like any other, though what is then returned is NULL for the caller.
-/
def heapAlloc (s : Kmem) (size : Nat) : Option (Option Nat × Kmem) := do
  let fit ← s.heapFirstFit size
  match fit with
  | none => return (none, s)
  | some p =>
      let addr := (s.node p).addr
      let s ← s.heapSaveAllocatedBlock addr size
      if size < (s.node p).size then
        let s := s.setNode p (fun n =>
          { n with addr := (n.addr + size) % 2 ^ 32, size := n.size - size })
        return (some addr, s)
      return (some addr, s.unlinkFree p)

/-- The loop `while (ptr > free_ll->addr) free_ll = free_ll->next`. -/
def seekFree (s : Kmem) (ptr : Nat) : Option Nat :=
  (Linked.find s.next (fun p => ptr ≤ (s.node p).addr) s.walkFuel s.kheap.freeLl).join

/-- The forward merge of `heap_free`: the new node takes over its successor when the blocks
touch.
-/
def mergeForward (s : Kmem) (new : Nat) : Option Kmem := do
  let n := s.node new
  let after ← n.next
  if (n.addr + n.size) % 2 ^ 32 = (s.node after).addr then
    return s.setNode new (fun n =>
      { n with size := (n.size + (s.node after).size) % 2 ^ 32, next := (s.node after).next })
  return s

/-- The backward merge of `heap_free`: the predecessor takes over the new node when the
blocks touch.
-/
def mergeBackward (s : Kmem) (new : Nat) : Option Kmem := do
  let n := s.node new
  let before ← n.prev
  if ((s.node before).addr + (s.node before).size) % 2 ^ 32 = n.addr then
    return s.setNode before (fun b =>
      { b with size := (b.size + n.size) % 2 ^ 32, next := n.next })
  return s

def heapFree (s : Kmem) (ptr : Nat) : Option Kmem := do
  let p ← s.seekFree ptr
  let new := s.nextNode
  let s := s.pushNode { addr := ptr, size := 0, prev := none, next := none }
  let (size, s) ← s.heapForgetAllocatedBlock ptr
  let before := (s.node p).prev
  let s := s.setNode new (fun n => { n with size, next := some p, prev := before })
  let s :=
    match before with
    | some b => s.setNode b (fun n => { n with next := some new })
    | none => s.setFreeLl (some new)
  let s := s.setNode p (fun n => { n with prev := some new })
  let s ← s.mergeForward new
  s.mergeBackward new

end Kmem

end Hydrangea
