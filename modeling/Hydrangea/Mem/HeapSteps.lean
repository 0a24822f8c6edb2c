import Hydrangea.Mem.HeapSafety
import Mathlib.Logic.Relation

/-! `heap_alloc` of `kernel/mem/heap.c`, one statement of C a step, and what it does when nothing
comes between its steps.
-/

namespace Hydrangea

/-- The next statement of a call of `heap_alloc`. Those of `heap_first_fit` start with `fit`, those
of `heap_save_allocated_block` with `first` if `alloc_ll` is NULL, and else with `later`.
-/
inductive AllocPc where
  | fitStart
  | fitTest
  | fitNext
  | fitCheck
  | test
  | addr
  | saveTest
  | firstPmalloc
  | firstStore
  | firstAddr
  | firstSize
  | firstPrev
  | firstNext
  | laterStart
  | laterTest
  | laterWalk
  | laterPmalloc
  | laterStore
  | laterAddr
  | laterSize
  | laterPrev
  | laterNext
  | splitTest
  | splitAddr
  | splitSize
  | unlinkTest
  | unlinkPrev
  | unlinkHead
  | unlinkNextTest
  | unlinkNext
  | ret
  deriving DecidableEq

/-- A call of `heap_alloc`: its argument, and the local variables of it and of the functions that it
calls. Before it returns, `addr` is its result.
-/
structure AllocCall where
  pc : AllocPc
  size : Nat
  freeLl : Option Nat
  addr : Option Nat
  allocLl : Option Nat

namespace Kmem

/-- `placement_addr += sizeof(free_ll_t)`. -/
def movePlacement (s : Kmem) : Kmem :=
  { s with
    pmm := { s.pmm with placementAddr := (s.pmm.placementAddr + sizeofFreeLl) % 2 ^ 32 } }

/-- `placement_addr - sizeof(free_ll_t)`. -/
def placed (s : Kmem) : Nat :=
  (s.pmm.placementAddr + (2 ^ 32 - sizeofFreeLl)) % 2 ^ 32

/-- One statement of a call. `none` if it follows NULL. -/
def exec (s : Kmem) (c : AllocCall) : Option (Kmem × AllocCall) :=
  match c.pc with
  | .fitStart => some (s, { c with pc := .fitTest, freeLl := s.kheap.freeLl })
  | .fitTest =>
      match c.freeLl with
      | none => some (s, { c with pc := .test })
      | some p =>
          if (s.node p).size < c.size then some (s, { c with pc := .fitNext })
          else some (s, { c with pc := .test })
  | .fitNext => do
      let p ← c.freeLl
      return (s, { c with pc := .fitCheck, freeLl := (s.node p).next })
  | .fitCheck =>
      if c.freeLl = none then some (s, { c with pc := .test })
      else some (s, { c with pc := .fitTest })
  | .test =>
      if c.freeLl = none then some (s, { c with pc := .ret, addr := none })
      else some (s, { c with pc := .addr })
  | .addr => do
      let p ← c.freeLl
      return (s, { c with pc := .saveTest, addr := some (s.node p).addr })
  | .saveTest =>
      if s.kheap.allocLl = none then some (s, { c with pc := .firstPmalloc })
      else some (s, { c with pc := .laterStart })
  | .firstPmalloc => some (s.movePlacement, { c with pc := .firstStore })
  | .firstStore => some (s.setAllocLl (some s.placed), { c with pc := .firstAddr })
  | .firstAddr => do
      let q ← s.kheap.allocLl
      let addr ← c.addr
      return (s.setNode q (fun n => { n with addr }), { c with pc := .firstSize })
  | .firstSize => do
      let q ← s.kheap.allocLl
      return (s.setNode q (fun n => { n with size := c.size }), { c with pc := .firstPrev })
  | .firstPrev => do
      let q ← s.kheap.allocLl
      return (s.setNode q (fun n => { n with prev := none }), { c with pc := .firstNext })
  | .firstNext => do
      let q ← s.kheap.allocLl
      return (s.setNode q (fun n => { n with next := none }), { c with pc := .splitTest })
  | .laterStart => some (s, { c with pc := .laterTest, allocLl := s.kheap.allocLl })
  | .laterTest => do
      let q ← c.allocLl
      if (s.node q).next = none then return (s, { c with pc := .laterPmalloc })
      else return (s, { c with pc := .laterWalk })
  | .laterWalk => do
      let q ← c.allocLl
      return (s, { c with pc := .laterTest, allocLl := (s.node q).next })
  | .laterPmalloc => some (s.movePlacement, { c with pc := .laterStore })
  | .laterStore => do
      let q ← c.allocLl
      return (s.setNode q (fun n => { n with next := some s.placed }), { c with pc := .laterAddr })
  | .laterAddr => do
      let q ← c.allocLl
      let new ← (s.node q).next
      let addr ← c.addr
      return (s.setNode new (fun n => { n with addr }), { c with pc := .laterSize })
  | .laterSize => do
      let q ← c.allocLl
      let new ← (s.node q).next
      return (s.setNode new (fun n => { n with size := c.size }), { c with pc := .laterPrev })
  | .laterPrev => do
      let q ← c.allocLl
      let new ← (s.node q).next
      return (s.setNode new (fun n => { n with prev := some q }), { c with pc := .laterNext })
  | .laterNext => do
      let q ← c.allocLl
      let new ← (s.node q).next
      return (s.setNode new (fun n => { n with next := none }), { c with pc := .splitTest })
  | .splitTest => do
      let p ← c.freeLl
      if c.size < (s.node p).size then return (s, { c with pc := .splitAddr })
      else return (s, { c with pc := .unlinkTest })
  | .splitAddr => do
      let p ← c.freeLl
      return (s.setNode p (fun n => { n with addr := (n.addr + c.size) % 2 ^ 32 }),
        { c with pc := .splitSize })
  | .splitSize => do
      let p ← c.freeLl
      return (s.setNode p (fun n => { n with size := (n.size + (2 ^ 32 - c.size)) % 2 ^ 32 }),
        { c with pc := .ret })
  | .unlinkTest => do
      let p ← c.freeLl
      if (s.node p).prev = none then return (s, { c with pc := .unlinkHead })
      else return (s, { c with pc := .unlinkPrev })
  | .unlinkPrev => do
      let p ← c.freeLl
      let before ← (s.node p).prev
      return (s.setNode before (fun n => { n with next := (s.node p).next }),
        { c with pc := .unlinkNextTest })
  | .unlinkHead => do
      let p ← c.freeLl
      return (s.setFreeLl (s.node p).next, { c with pc := .unlinkNextTest })
  | .unlinkNextTest => do
      let p ← c.freeLl
      if (s.node p).next = none then return (s, { c with pc := .ret })
      else return (s, { c with pc := .unlinkNext })
  | .unlinkNext => do
      let p ← c.freeLl
      let after ← (s.node p).next
      return (s.setNode after (fun n => { n with prev := (s.node p).prev }),
        { c with pc := .ret })
  | .ret => none

def Next (a b : Kmem × AllocCall) : Prop :=
  a.1.exec a.2 = some b

abbrev Reaches : Kmem × AllocCall → Kmem × AllocCall → Prop :=
  Relation.ReflTransGen Next

theorem reaches_step {s : Kmem} {c : AllocCall} {b d : Kmem × AllocCall} (next : s.exec c = some b)
    (rest : Reaches b d)
    : Reaches (s, c) d :=
  .head next rest

/-- `heap_alloc` is called. -/
def allocStart (size : Nat) : AllocCall where
  pc := .fitStart
  size
  freeLl := none
  addr := none
  allocLl := none

variable {s s' : Kmem} {c : AllocCall} {fl al : List Nat}

-----------------------------------------------------------------------------------------
-- The search
-----------------------------------------------------------------------------------------

/-- The loop of `heap_first_fit` passes over the blocks that are too small, by induction on them. -/
theorem reaches_fit {q : Option Nat} {pre rest : List Nat}
    (chain : Linked.Chain s.next q (pre ++ rest)) (small : ∀ p ∈ pre, (s.node p).size < c.size)
    (fits : ∀ p ∈ rest.head?, c.size ≤ (s.node p).size) (pc : c.pc = .fitTest)
    (here : c.freeLl = q)
    : Reaches (s, c) (s, { c with pc := .test, freeLl := rest.head? }) := by
  induction pre generalizing c q with
  | nil =>
      have start : q = rest.head? := Linked.Chain.head chain
      rw [← start]
      refine reaches_step ?_ .refl
      cases q with
      | none => simp only [exec, pc, here]
      | some p =>
          have enough : ¬ (s.node p).size < c.size := Nat.not_lt.mpr (fits p start.symm)
          simp only [exec, pc, here, if_neg enough]
  | cons p pre ih =>
      obtain ⟨rfl, next⟩ := chain
      have tooSmall : (s.node p).size < c.size := small p (List.mem_cons_self ..)
      have tested : s.exec c = some (s, { c with pc := .fitNext }) := by
        simp only [exec, pc, here, if_pos tooSmall]
      have advanced : s.exec { c with pc := .fitNext }
          = some (s, { c with pc := .fitCheck, freeLl := (s.node p).next }) := by
        simp only [exec, here]
        rfl
      refine reaches_step tested (reaches_step advanced ?_)
      · cases following : (s.node p).next with
        | none =>
            replace next : Linked.Chain s.next ((s.node p).next) (pre ++ rest) := next
            rw [following] at next
            have empty := List.head?_eq_none_iff.mp (Linked.Chain.head next).symm
            rw [(List.append_eq_nil_iff.mp empty).2]
            exact reaches_step rfl .refl
        | some r =>
            refine reaches_step rfl (ih ?_ (fun x member => small x (List.mem_cons_of_mem _ member))
              fits rfl rfl)
            rw [← following]
            exact next

-----------------------------------------------------------------------------------------
-- The record
-----------------------------------------------------------------------------------------

/-- What `pmalloc` returns, while there is room. -/
theorem placed_movePlacement (room : s.Room) : s.movePlacement.placed = s.nextNode := by
  rw [Room, sizeofFreeLl] at room
  have moved : s.movePlacement.pmm.placementAddr = s.pmm.placementAddr + 16 :=
    Nat.mod_eq_of_lt room
  have next : s.nextNode = s.pmm.placementAddr := rfl
  rw [placed, moved, next, sizeofFreeLl]
  omega

theorem eq_of_node {s s' : Kmem} (pmm : s.pmm = s'.pmm) (kheap : s.kheap = s'.kheap)
    (node : ∀ q, s.node q = s'.node q)
    : s = s' := by
  cases s
  cases s'
  obtain rfl := pmm
  obtain rfl := kheap
  obtain rfl := funext node
  rfl

/-- Storing into a node again replaces what was stored. -/
theorem setNode_setNode (s : Kmem) (p : Nat) (f g : FreeLl → FreeLl)
    : (s.setNode p f).setNode p g = s.setNode p (fun n => g (f n)) := by
  refine eq_of_node rfl rfl (fun q => ?_)
  simp only [setNode_node]
  split <;> rfl

theorem reaches_first (room : s.Room) (empty : s.kheap.allocLl = none) {addr : Nat}
    (pc : c.pc = .saveTest) (here : c.addr = some addr)
    : Reaches (s, c)
      ((s.pushNode { addr, size := c.size, prev := none, next := none }).setAllocLl
        (some s.nextNode), { c with pc := .splitTest }) := by
  have placed := placed_movePlacement room
  have tested : s.exec c = some (s, { c with pc := .firstPmalloc }) := by
    simp only [exec, pc, if_pos empty]
  have moved : s.exec { c with pc := .firstPmalloc }
      = some (s.movePlacement, { c with pc := .firstStore }) := by
    simp only [exec]
  set t := s.movePlacement.setAllocLl (some s.nextNode) with isT
  have listed : s.movePlacement.exec { c with pc := .firstStore }
      = some (t, { c with pc := .firstAddr }) := by
    simp only [exec, placed, isT]
  have first (f : FreeLl → FreeLl) : (t.setNode s.nextNode f).kheap.allocLl = some s.nextNode := rfl
  have storedAddr : t.exec { c with pc := .firstAddr }
      = some (t.setNode s.nextNode (fun n => { n with addr }), { c with pc := .firstSize }) := by
    simp only [exec, here]
    rfl
  have storedSize : (t.setNode s.nextNode (fun n => { n with addr })).exec { c with pc := .firstSize }
      = some (t.setNode s.nextNode (fun n => { n with addr, size := c.size }),
        { c with pc := .firstPrev }) := by
    simp only [exec, first, Option.bind_eq_bind, Option.bind_some, setNode_setNode]
    rfl
  have storedPrev : (t.setNode s.nextNode (fun n => { n with addr, size := c.size })).exec
      { c with pc := .firstPrev }
      = some (t.setNode s.nextNode (fun n => { n with addr, size := c.size, prev := none }),
        { c with pc := .firstNext }) := by
    simp only [exec, first, Option.bind_eq_bind, Option.bind_some, setNode_setNode]
    rfl
  have storedNext : (t.setNode s.nextNode (fun n => { n with addr, size := c.size, prev := none })).exec
      { c with pc := .firstNext }
      = some ((s.pushNode { addr, size := c.size, prev := none, next := none }).setAllocLl
        (some s.nextNode), { c with pc := .splitTest }) := by
    simp only [exec, first, Option.bind_eq_bind, Option.bind_some, setNode_setNode]
    refine congrArg some (congrArg (·, _) (eq_of_node rfl rfl (fun q => ?_)))
    simp only [setNode_node, setAllocLl_node, pushNode_node]
    split <;> rfl
  exact reaches_step tested (reaches_step moved (reaches_step listed (reaches_step storedAddr
    (reaches_step storedSize (reaches_step storedPrev (reaches_step storedNext .refl))))))

/-- The walk over `alloc_ll` ends at its last node, by induction on the nodes in front of it. -/
theorem reaches_walk {q : Nat} {front : List Nat} {last : Nat}
    (chain : Linked.Chain s.next (some q) (front ++ [last])) (pc : c.pc = .laterTest)
    (here : c.allocLl = some q)
    : Reaches (s, c) (s, { c with pc := .laterPmalloc, allocLl := some last }) := by
  induction front generalizing c q with
  | nil =>
      obtain ⟨start, ends⟩ := chain
      obtain rfl : q = last := Option.some.inj start
      have none : (s.node q).next = none := ends
      refine reaches_step ?_ .refl
      simp only [exec, pc, here, Option.bind_eq_bind, Option.bind_some, if_pos none]
      rfl
  | cons x front ih =>
      obtain ⟨start, next⟩ := chain
      obtain rfl : q = x := Option.some.inj start
      cases following : (s.node q).next with
      | none =>
          have stop := Linked.Chain.head next
          have link : s.next q = none := following
          rw [link] at stop
          have none := List.head?_eq_none_iff.mp stop.symm
          exact absurd none (by simp)
      | some r =>
          have further : (s.node q).next ≠ none := by
            rw [following]
            exact Option.some_ne_none r
          have tested : s.exec c = some (s, { c with pc := .laterWalk }) := by
            simp only [exec, pc, here, Option.bind_eq_bind, Option.bind_some, if_neg further]
            rfl
          have walked : s.exec { c with pc := .laterWalk }
              = some (s, { c with pc := .laterTest, allocLl := some r }) := by
            simp only [exec, here, Option.bind_eq_bind, Option.bind_some, following]
            rfl
          refine reaches_step tested (reaches_step walked (ih ?_ rfl rfl))
          rw [← following]
          exact next

theorem reaches_later (room : s.Room) {first last : Nat} {front : List Nat}
    (chain : Linked.Chain s.next s.kheap.allocLl (front ++ [last]))
    (start : s.kheap.allocLl = some first) (other : last ≠ s.nextNode) {addr : Nat}
    (pc : c.pc = .saveTest) (here : c.addr = some addr)
    : Reaches (s, c)
      ((s.pushNode { addr, size := c.size, prev := some last, next := none }).setNode last
        (fun n => { n with next := some s.nextNode }),
        { c with pc := .splitTest, allocLl := some last }) := by
  have placed := placed_movePlacement room
  have nonempty : s.kheap.allocLl ≠ none := by
    rw [start]
    exact Option.some_ne_none first
  have tested : s.exec c = some (s, { c with pc := .laterStart }) := by
    simp only [exec, pc, if_neg nonempty]
  have started : s.exec { c with pc := .laterStart }
      = some (s, { c with pc := .laterTest, allocLl := s.kheap.allocLl }) := by
    simp only [exec]
  rw [start] at started chain
  have walk : Reaches (s, { c with pc := .laterTest, allocLl := some first })
      (s, { c with pc := .laterPmalloc, allocLl := some last }) :=
    reaches_walk chain rfl rfl
  have moved : s.exec { c with pc := .laterPmalloc, allocLl := some last }
      = some (s.movePlacement, { c with pc := .laterStore, allocLl := some last }) := by
    simp only [exec]
  set t := s.movePlacement.setNode last (fun n => { n with next := some s.nextNode }) with isT
  have linked : s.movePlacement.exec { c with pc := .laterStore, allocLl := some last }
      = some (t, { c with pc := .laterAddr, allocLl := some last }) := by
    simp only [exec, Option.bind_eq_bind, Option.bind_some, placed, isT]
    rfl
  -- the new node is another one, so the link to it stays
  have new (f : FreeLl → FreeLl)
      : ((t.setNode s.nextNode f).node last).next = some s.nextNode := by
    rw [setNode_node, if_neg other, isT, setNode_node, if_pos rfl]
  have new₀ : (t.node last).next = some s.nextNode := by
    rw [isT, setNode_node, if_pos rfl]
  have storedAddr : t.exec { c with pc := .laterAddr, allocLl := some last }
      = some (t.setNode s.nextNode (fun n => { n with addr }),
        { c with pc := .laterSize, allocLl := some last }) := by
    simp only [exec, here, new₀, Option.bind_eq_bind, Option.bind_some]
    rfl
  have storedSize : (t.setNode s.nextNode (fun n => { n with addr })).exec
      { c with pc := .laterSize, allocLl := some last }
      = some (t.setNode s.nextNode (fun n => { n with addr, size := c.size }),
        { c with pc := .laterPrev, allocLl := some last }) := by
    simp only [exec, new, Option.bind_eq_bind, Option.bind_some, setNode_setNode]
    rfl
  have storedPrev : (t.setNode s.nextNode (fun n => { n with addr, size := c.size })).exec
      { c with pc := .laterPrev, allocLl := some last }
      = some (t.setNode s.nextNode (fun n => { n with addr, size := c.size, prev := some last }),
        { c with pc := .laterNext, allocLl := some last }) := by
    simp only [exec, new, Option.bind_eq_bind, Option.bind_some, setNode_setNode]
    rfl
  have storedNext : (t.setNode s.nextNode
      (fun n => { n with addr, size := c.size, prev := some last })).exec
      { c with pc := .laterNext, allocLl := some last }
      = some ((s.pushNode { addr, size := c.size, prev := some last, next := none }).setNode last
        (fun n => { n with next := some s.nextNode }),
        { c with pc := .splitTest, allocLl := some last }) := by
    simp only [exec, new, Option.bind_eq_bind, Option.bind_some, setNode_setNode]
    refine congrArg some (congrArg (·, _) (eq_of_node rfl rfl (fun q => ?_)))
    simp only [isT, setNode_node, pushNode_node]
    by_cases isLast : q = last
    · simp only [isLast, if_pos, if_neg other]
      rfl
    · simp only [if_neg isLast]
      split <;> rfl
  refine reaches_step tested (reaches_step started (walk.trans (reaches_step moved ?_)))
  exact reaches_step linked (reaches_step storedAddr (reaches_step storedSize
    (reaches_step storedPrev (reaches_step storedNext .refl))))

theorem Lists.reaches_save (h : s.Lists fl al) (room : s.Room) {addr : Nat}
    (saved : s.heapSaveAllocatedBlock addr c.size = some s') (pc : c.pc = .saveTest)
    (here : c.addr = some addr)
    : ∃ q, Reaches (s, c) (s', { c with pc := .splitTest, allocLl := q }) := by
  rcases List.eq_nil_or_concat' al with rfl | ⟨front, last, rfl⟩
  · have empty : s.kheap.allocLl = none := h.alloc.links.chain
    rw [heapSaveAllocatedBlock_first addr c.size empty] at saved
    obtain rfl := Option.some.inj saved
    exact ⟨c.allocLl, reaches_first room empty pc here⟩
  · have chain := h.alloc.links.chain
    have enough : front.length < s.walkFuel := by
      have := h.alloc_length
      rw [List.length_append] at this
      omega
    rw [heapSaveAllocatedBlock_later addr c.size chain enough] at saved
    obtain rfl := Option.some.inj saved
    cases start : s.kheap.allocLl with
    | none =>
        rw [start] at chain
        exact absurd (List.head?_eq_none_iff.mp (Linked.Chain.head chain).symm) (by simp)
    | some first =>
        exact ⟨some last, reaches_later room chain start (h.fresh (.inr (by simp))) pc here⟩

-----------------------------------------------------------------------------------------
-- The free block
-----------------------------------------------------------------------------------------

/-- A larger block is cut. -/
theorem reaches_split {p : Nat} (larger : c.size < (s.node p).size)
    (small : (s.node p).size < 2 ^ 32) (pc : c.pc = .splitTest) (here : c.freeLl = some p)
    : Reaches (s, c)
      (s.setNode p (fun n => { n with addr := (n.addr + c.size) % 2 ^ 32, size := n.size - c.size }),
        { c with pc := .ret }) := by
  have tested : s.exec c = some (s, { c with pc := .splitAddr }) := by
    simp only [exec, pc, here, Option.bind_eq_bind, Option.bind_some, if_pos larger]
    rfl
  have moved : s.exec { c with pc := .splitAddr }
      = some (s.setNode p (fun n => { n with addr := (n.addr + c.size) % 2 ^ 32 }),
        { c with pc := .splitSize }) := by
    simp only [exec, here, Option.bind_eq_bind, Option.bind_some]
    rfl
  have cut : (s.setNode p (fun n => { n with addr := (n.addr + c.size) % 2 ^ 32 })).exec
      { c with pc := .splitSize }
      = some (s.setNode p
          (fun n => { n with addr := (n.addr + c.size) % 2 ^ 32, size := n.size - c.size }),
        { c with pc := .ret }) := by
    have size : ((s.node p).size + (2 ^ 32 - c.size)) % 2 ^ 32 = (s.node p).size - c.size := by
      omega
    simp only [exec, here, Option.bind_eq_bind, Option.bind_some, setNode_setNode]
    refine congrArg some (congrArg (·, _) (eq_of_node rfl rfl (fun q => ?_)))
    simp only [setNode_node, size]
  exact reaches_step tested (reaches_step moved (reaches_step cut .refl))

/-- What `free_ll` is after the node in front of a block, or the head of the list, points behind
it.
-/
def skipFree (s : Kmem) (p : Nat) : Kmem :=
  match (s.node p).prev with
  | some before => s.setNode before (fun n => { n with next := (s.node p).next })
  | none => s.setFreeLl (s.node p).next

theorem reaches_skip {p : Nat} (pc : c.pc = .unlinkTest) (here : c.freeLl = some p)
    : Reaches (s, c) (s.skipFree p, { c with pc := .unlinkNextTest }) := by
  rw [skipFree]
  cases prev : (s.node p).prev with
  | none =>
      have tested : s.exec c = some (s, { c with pc := .unlinkHead }) := by
        simp only [exec, pc, here, Option.bind_eq_bind, Option.bind_some, if_pos prev]
        rfl
      have skipped : s.exec { c with pc := .unlinkHead }
          = some (s.setFreeLl (s.node p).next, { c with pc := .unlinkNextTest }) := by
        simp only [exec, here, Option.bind_eq_bind, Option.bind_some]
        rfl
      exact reaches_step tested (reaches_step skipped .refl)
  | some before =>
      have some : (s.node p).prev ≠ none := by
        rw [prev]
        exact Option.some_ne_none before
      have tested : s.exec c = .some (s, { c with pc := .unlinkPrev }) := by
        simp only [exec, pc, here, Option.bind_eq_bind, Option.bind_some, if_neg some]
        rfl
      have skipped : s.exec { c with pc := .unlinkPrev }
          = .some (s.setNode before (fun n => { n with next := (s.node p).next }),
            { c with pc := .unlinkNextTest }) := by
        simp only [exec, here, prev, Option.bind_eq_bind, Option.bind_some]
        rfl
      exact reaches_step tested (reaches_step skipped .refl)

/-- A block that is used up leaves `free_ll`. -/
theorem reaches_unlink {p : Nat} (notLarger : ¬ c.size < (s.node p).size)
    (pc : c.pc = .splitTest) (here : c.freeLl = some p)
    : Reaches (s, c) (s.unlinkFree p, { c with pc := .ret }) := by
  have tested : s.exec c = some (s, { c with pc := .unlinkTest }) := by
    simp only [exec, pc, here, Option.bind_eq_bind, Option.bind_some, if_neg notLarger]
    rfl
  have skip : Reaches (s, { c with pc := .unlinkTest })
      (s.skipFree p, { c with pc := .unlinkNextTest }) :=
    reaches_skip rfl here
  have unlinked : s.unlinkFree p = match ((s.skipFree p).node p).next with
      | some after =>
          (s.skipFree p).setNode after (fun n => { n with prev := ((s.skipFree p).node p).prev })
      | none => s.skipFree p := by
    unfold unlinkFree skipFree
    cases (s.node p).prev <;> rfl
  refine reaches_step tested (skip.trans ?_)
  rw [unlinked]
  cases next : ((s.skipFree p).node p).next with
  | none =>
      refine reaches_step ?_ .refl
      simp only [exec, here, Option.bind_eq_bind, Option.bind_some, if_pos next]
      rfl
  | some after =>
      have some : ((s.skipFree p).node p).next ≠ none := by
        rw [next]
        exact Option.some_ne_none after
      have further : (s.skipFree p).exec { c with pc := .unlinkNextTest }
          = .some (s.skipFree p, { c with pc := .unlinkNext }) := by
        simp only [exec, here, Option.bind_eq_bind, Option.bind_some, if_neg some]
        rfl
      refine reaches_step further (reaches_step ?_ .refl)
      simp only [exec, here, next, Option.bind_eq_bind, Option.bind_some]
      rfl

-----------------------------------------------------------------------------------------
-- The whole call
-----------------------------------------------------------------------------------------

theorem Lists.reaches_start (h : s.Lists fl al) {size : Nat} {pre rest : List Nat}
    (split : fl = pre ++ rest) (small : ∀ p ∈ pre, (s.node p).size < size)
    (fits : ∀ p ∈ rest.head?, size ≤ (s.node p).size)
    : Reaches (s, allocStart size)
      (s, { allocStart size with pc := .test, freeLl := rest.head? }) := by
  have started : s.exec (allocStart size)
      = some (s, { allocStart size with pc := .fitTest, freeLl := s.kheap.freeLl }) := by
    simp only [exec, allocStart]
  have chain := h.free.links.chain
  rw [split] at chain
  have search : Reaches (s, { allocStart size with pc := .fitTest, freeLl := s.kheap.freeLl })
      (s, { allocStart size with pc := .test, freeLl := rest.head? }) :=
    reaches_fit chain small fits rfl rfl
  exact reaches_step started search

/-- Without other statements between its own, a call ends with the result of `heap_alloc`. -/
theorem Lists.reaches_heapAlloc (h : s.Lists fl al) (room : s.Room) {size : Nat}
    (bounded : ∀ p ∈ fl, (s.node p).size < 2 ^ 32) {addr : Option Nat}
    (served : s.heapAlloc size = some (addr, s'))
    : ∃ c, Reaches (s, allocStart size) (s', c) ∧ c.pc = .ret ∧ c.size = size
        ∧ c.addr = addr := by
  rcases exists_firstFit s.node size fl with small | ⟨pre, p, post, split, small, large⟩
  · rw [h.heapAlloc_none small] at served
    obtain ⟨rfl, rfl⟩ := Prod.mk.inj (Option.some.inj served)
    have search := h.reaches_start (List.append_nil fl).symm small (by simp)
    refine ⟨{ allocStart size with pc := .ret }, search.trans ?_, rfl, rfl, rfl⟩
    exact reaches_step rfl .refl
  · subst split
    have search := h.reaches_start rfl small (by simpa using large)
    have found : s.heapFirstFit size = some (some p) := by
      refine Linked.find_eq h.free.links.chain (by simpa using small) (by simpa using large) ?_
      have := h.free_length
      simp only [List.length_append] at this
      omega
    obtain ⟨s₁, saved, -, same, -⟩ := h.heapSaveAllocatedBlock room (s.node p).addr size
    have node : s₁.node p = s.node p := same p (by simp)
    obtain ⟨q, save⟩ := h.reaches_save room (c := { allocStart size with
      pc := .saveTest, freeLl := some p, addr := some (s.node p).addr }) saved rfl rfl
    have recorded := search.trans (reaches_step rfl (reaches_step rfl save))
    by_cases cut : size < (s.node p).size
    · have result : s.heapAlloc size = some (some (s.node p).addr, s₁.setNode p (fun n =>
          { n with addr := (n.addr + size) % 2 ^ 32, size := n.size - size })) := by
        simp [Kmem.heapAlloc, found, saved, node, cut]
      rw [result] at served
      obtain ⟨rfl, rfl⟩ := Prod.mk.inj (Option.some.inj served)
      refine ⟨_, recorded.trans (reaches_split ?_ ?_ rfl rfl), rfl, rfl, rfl⟩
      · rw [node]
        exact cut
      · rw [node]
        exact bounded p (by simp)
    · have result : s.heapAlloc size = some (some (s.node p).addr, s₁.unlinkFree p) := by
        simp [Kmem.heapAlloc, found, saved, node, cut]
      rw [result] at served
      obtain ⟨rfl, rfl⟩ := Prod.mk.inj (Option.some.inj served)
      refine ⟨_, recorded.trans (reaches_unlink ?_ rfl rfl), rfl, rfl, rfl⟩
      rw [node]
      exact cut

end Kmem

end Hydrangea
