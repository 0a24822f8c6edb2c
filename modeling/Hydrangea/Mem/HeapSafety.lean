import Hydrangea.Mem.HeapLists

/-! Runs of calls on a heap: what holds of the blocks handed out after every call, and the
runs in which it does.
-/

namespace Hydrangea

inductive HeapCall where
  | alloc (size : Nat)
  | free (ptr : Nat)

/-- A heap together with its live blocks: those returned by `heap_alloc` and not yet freed. -/
structure Served where
  heap : Kmem
  live : List Block

namespace Served

/-- One call; `none` when it follows a NULL list node. -/
def call (s : Served) : HeapCall → Option Served
  | .alloc size => do
      let (addr, heap) ← s.heap.heapAlloc size
      match addr with
      | none => return { s with heap }
      | some addr => return { heap, live := s.live ++ [⟨addr, size⟩] }
  | .free ptr => do
      let heap ← s.heap.heapFree ptr
      return { heap, live := s.live.eraseP (fun b => b.addr = ptr) }

def calls (s : Served) (cs : List HeapCall) : Option Served :=
  cs.foldlM call s

/-- A heap just made by `heap_create`. -/
def create (pmm : Pmm) (node : Nat → FreeLl) (start size maxSize usr : Nat) : Served :=
  { heap := Kmem.heapCreate pmm node start size maxSize usr, live := [] }

/-- The live blocks lie inside the heap and overlap neither each other nor a block of
`free_ll`, which is sorted by address and without overlaps.
-/
structure Sound (s : Served) (start size : Nat) : Prop where
  inside : ∀ b ∈ s.live, b.Within start (start + size)
  apart : s.live.Pairwise (fun b c => Disjoint b.bytes c.bytes)
  free : ∃ fl, Linked.Chain s.heap.next s.heap.kheap.freeLl fl
    ∧ (fl.map s.heap.block).Pairwise (fun b c => b.addr ≤ c.addr ∧ Disjoint b.bytes c.bytes)
    ∧ ∀ b ∈ s.live, ∀ c ∈ fl.map s.heap.block, Disjoint b.bytes c.bytes

end Served

-----------------------------------------------------------------------------------------
-- Freeing into a list of at most one block
-----------------------------------------------------------------------------------------

namespace Kmem

/-- The walk over the recorded blocks stops at one of them, by induction on the nodes. -/
theorem findRecord_mem {node : Nat → FreeLl} {addr fuel p r : Nat} {xs : List Nat}
    (h : Linked.Chain (fun q => (node q).next) (some p) xs)
    (found : findRecord node addr fuel p = some r)
    : r ∈ xs := by
  induction xs generalizing fuel p with
  | nil => simp at h
  | cons x xs ih =>
      obtain ⟨start, rest⟩ := h
      obtain rfl : p = x := Option.some.inj start
      cases fuel with
      | zero => simp [findRecord] at found
      | succ fuel =>
          simp only [findRecord] at found
          split at found
          · obtain rfl : p = r := Option.some.inj found
            simp
          · cases following : (node p).next with
            | none =>
                rw [following] at found
                obtain rfl : p = r := Option.some.inj found
                simp
            | some q =>
                rw [following] at found
                replace rest : Linked.Chain (fun q => (node q).next) (node p).next xs := rest
                rw [following] at rest
                exact List.mem_cons_of_mem p (ih rest found)

theorem NodeList.prev_mem {s : Kmem} {start : Option Nat} {xs : List Nat}
    (h : s.NodeList start xs) {p q : Nat} (member : p ∈ xs) (link : s.prev p = some q)
    : q ∈ xs := by
  obtain ⟨pre, post, rfl⟩ := List.append_of_mem member
  rcases List.eq_nil_or_concat' pre with rfl | ⟨front, w, rfl⟩
  · have before := h.head p rfl
    rw [before] at link
    cases link
  · have links : Linked.Doubly s.next s.prev start (front ++ w :: p :: post) := by
      simpa using h.links
    have before := links.prev_eq
    rw [before] at link
    obtain rfl : w = q := Option.some.inj link
    simp

/-- `heap_forget_allocated_block` stores into nodes of `alloc_ll` only. -/
theorem NodeList.heapForgetAllocatedBlock {s s' : Kmem} {al : List Nat} {addr size : Nat}
    (h : s.NodeList s.kheap.allocLl al)
    (forgot : s.heapForgetAllocatedBlock addr = some (size, s')) {q : Nat} (other : q ∉ al)
    : s'.node q = s.node q := by
  simp only [Kmem.heapForgetAllocatedBlock, Option.bind_eq_bind, Option.pure_def,
    Option.bind_eq_some_iff] at forgot
  obtain ⟨first, start, r, found, forgot⟩ := forgot
  have chain : Linked.Chain s.next (some first) al := start ▸ h.links.chain
  have record : r ∈ al := findRecord_mem chain found
  split at forgot
  · obtain ⟨-, rfl⟩ := Prod.mk.inj (Option.some.inj forgot)
    rfl
  · obtain ⟨after, succ, forgot⟩ := Option.bind_eq_some_iff.mp forgot
    obtain ⟨before, pred, result⟩ := Option.bind_eq_some_iff.mp forgot
    obtain ⟨-, rfl⟩ := Prod.mk.inj (Option.some.inj result)
    have afterMem : after ∈ al := h.links.chain.next_mem record succ
    have beforeMem : before ∈ al := by
      refine h.prev_mem record ?_
      by_cases same : r = after <;> simpa [same] using pred
    have notAfter : q ≠ after := fun same => other (same ▸ afterMem)
    have notBefore : q ≠ before := fun same => other (same ▸ beforeMem)
    simp [notAfter, notBefore]

/-- Merging follows NULL at a new node without predecessor. -/
theorem merge_eq_none {s : Kmem} {new : Nat} (orphan : (s.node new).prev = none)
    : (s.mergeForward new).bind (fun s => s.mergeBackward new) = none := by
  cases merged : s.mergeForward new with
  | none => rfl
  | some s' =>
      have still : (s'.node new).prev = none := by
        simp only [mergeForward, Option.bind_eq_bind, Option.bind_eq_some_iff] at merged
        obtain ⟨after, -, merged⟩ := merged
        split at merged
        · obtain rfl := Option.some.inj merged
          simpa using orphan
        · obtain rfl := Option.some.inj merged
          exact orphan
      simp [mergeBackward, still]

/-- `heap_free` follows NULL whenever `free_ll` has fewer than two nodes: the search runs off
the list, or it stops at the first node, whose missing predecessor the backward merge reads.
-/
theorem Lists.heapFree_eq_none {s : Kmem} {fl al : List Nat} (h : s.Lists fl al)
    (single : fl.length ≤ 1) (ptr : Nat)
    : s.heapFree ptr = none := by
  rw [heapFree]
  cases sought : s.seekFree ptr with
  | none => rfl
  | some p =>
      have found := Option.join_eq_some_iff.mp sought
      have member : p ∈ fl :=
        ((Linked.find_eq_some h.free.links.chain found).1 p rfl).1
      have first : fl = [p] := by
        match fl, single, member with
        | [q], _, member => rw [List.mem_singleton.mp member]
      have head : (s.node p).prev = none := h.free.head p (by simp [first])
      have notNew : p ≠ s.nextNode := h.fresh (Or.inl member)
      have notRecord : p ∉ al := h.apart member
      cases forgot : (s.pushNode { addr := ptr, size := 0, prev := none, next := none })
          |>.heapForgetAllocatedBlock ptr with
      | none => simp [forgot]
      | some r =>
          obtain ⟨size, s'⟩ := r
          have records : (s.pushNode { addr := ptr, size := 0, prev := none, next := none })
              |>.NodeList s.kheap.allocLl al := by
            refine h.alloc.congr (fun q member => ?_)
            simp [h.fresh (Or.inr member)]
          have kept := records.heapForgetAllocatedBlock forgot notRecord
          have pred : (s'.node p).prev = none := by
            rw [kept]
            simp [notNew, head]
          have notSelf : s.nextNode ≠ p := Ne.symm notNew
          simp only [Option.bind_eq_bind, Option.bind_some, forgot, pred]
          refine merge_eq_none ?_
          simp [notSelf]

end Kmem

-----------------------------------------------------------------------------------------
-- Runs of calls
-----------------------------------------------------------------------------------------

namespace Served

/-- What every state of a run satisfies: the lists describe a well-formed arena whose
allocated blocks are the live ones, and `free_ll` has at most one node.
-/
structure Ready (s : Served) (start size : Nat) : Prop where
  lists : ∃ fl al, s.heap.Lists fl al ∧ (s.heap.arena fl al).WellFormed start (start + size)
    ∧ s.live = (s.heap.arena fl al).allocated ∧ fl.length ≤ 1

/-- With room for them, `heap_create` lays out the heap and its first node one after the
other.
-/
theorem create_eq {pmm : Pmm} (node : Nat → FreeLl) (start size maxSize usr : Nat)
    (room : pmm.placementAddr + 40 < 2 ^ 32)
    : create pmm node start size maxSize usr
      = { heap :=
            { pmm := { pmm with placementAddr := pmm.placementAddr + 40 }
              node := Function.update node (pmm.placementAddr + 24) ⟨start, size, none, none⟩
              kheap :=
                { start, size, maxSize, usr, freeLl := some (pmm.placementAddr + 24),
                  allocLl := none } }
          live := [] } := by
  have heap : pmalloc pmm.placementAddr 24 = (pmm.placementAddr, pmm.placementAddr + 24) :=
    pmalloc_eq (by omega)
  have first : pmalloc (pmm.placementAddr + 24) 16
      = (pmm.placementAddr + 24, pmm.placementAddr + 40) :=
    pmalloc_eq (by omega)
  simp only [create, Kmem.heapCreate, Kmem.sizeofHeap, Kmem.sizeofFreeLl, heap, first]

/-- A heap is made with one free block that fills it. -/
theorem Ready.create (pmm : Pmm) (node : Nat → FreeLl) {start size : Nat} (maxSize usr : Nat)
    (room : pmm.placementAddr + 40 < 2 ^ 32)
    : (create pmm node start size maxSize usr).Ready start size := by
  rw [create_eq node start size maxSize usr room]
  refine ⟨[pmm.placementAddr + 24], [], ⟨⟨?_, ?_⟩, ⟨?_, ?_⟩, ?_, ?_⟩, ?_, rfl, Nat.le_refl _⟩
  · exact Linked.Doubly.singleton (by simp [Kmem.next])
  · simp [Kmem.prev]
  · exact Linked.Doubly.nil
  · simp
  · simp
  · simp
  · simp only [Kmem.arena, List.map_cons, List.map_nil, Kmem.block, Function.update_self]
    exact Arena.WellFormed.initial start size

theorem Ready.sound {s : Served} {start size : Nat} (h : s.Ready start size)
    : s.Sound start size := by
  obtain ⟨fl, al, lists, wf, live, -⟩ := h.lists
  refine ⟨?_, ?_, fl, lists.free.links.chain, ?_, ?_⟩
  · rw [live]
    exact wf.allocatedWithin
  · rw [live]
    exact wf.allocatedApart
  · exact wf.ordered.imp (fun before => ⟨before.addr_le, before.disjoint⟩)
  · rw [live]
    exact wf.freeApart

/-- `heap_alloc` returns and keeps a heap ready. -/
theorem Ready.alloc {s : Served} {start size : Nat} (h : s.Ready start size)
    (fits : start + size ≤ 2 ^ 32) (room : s.heap.Room) (n : Nat)
    : ∃ s', s.call (.alloc n) = some s' ∧ s'.Ready start size
        ∧ s'.heap.pmm.placementAddr ≤ s.heap.pmm.placementAddr + Kmem.sizeofFreeLl := by
  obtain ⟨fl, al, lists, wf, live, single⟩ := h.lists
  have bounded : ∀ p ∈ fl, (s.heap.node p).addr + (s.heap.node p).size ≤ 2 ^ 32 := by
    intro p member
    exact le_trans (wf.freeWithin (s.heap.block p) (List.mem_map_of_mem member)).2 fits
  obtain ⟨heap, fl', al', served, lists', arena, shorter, placement⟩ :=
    lists.heapAlloc room n bounded
  have wf' := wf.alloc n
  rw [← arena] at wf'
  have recorded := congrArg Arena.allocated arena
  cases answer : ((s.heap.arena fl al).alloc n).1 with
  | none =>
      refine ⟨⟨heap, s.live⟩, by simp [call, served, answer],
        ⟨fl', al', lists', wf', ?_, le_trans shorter single⟩, placement⟩
      rw [recorded, live]
      simp only [Arena.alloc] at answer ⊢
      split <;> simp_all
  | some addr =>
      refine ⟨⟨heap, s.live ++ [⟨addr, n⟩]⟩, by simp [call, served, answer],
        ⟨fl', al', lists', wf', ?_, le_trans shorter single⟩, placement⟩
      rw [recorded, live]
      simp only [Arena.alloc] at answer ⊢
      cases taken : Arena.take n (s.heap.arena fl al).free with
      | none => simp [taken] at answer
      | some r =>
          obtain ⟨b, rest⟩ := r
          have sized : b.size = n := (Arena.take_spec taken wf.ordered).1
          obtain rfl : b.addr = addr := by simpa [taken] using answer
          simp [← sized]

/-- `heap_free` never returns on a ready heap. -/
theorem Ready.free {s : Served} {start size : Nat} (h : s.Ready start size) (ptr : Nat)
    : s.call (.free ptr) = none := by
  obtain ⟨fl, al, lists, -, -, single⟩ := h.lists
  simp [call, lists.heapFree_eq_none single ptr]

/-- A run without `heap_free` returns, and any run that returns leaves the heap ready, by
induction on the calls.
-/
theorem Ready.calls {s : Served} {start size : Nat} (h : s.Ready start size)
    (fits : start + size ≤ 2 ^ 32) {cs : List HeapCall}
    (room : s.heap.pmm.placementAddr + Kmem.sizeofFreeLl * cs.length < 2 ^ 32)
    : (∀ s', s.calls cs = some s' → s'.Ready start size)
      ∧ ((∀ ptr, HeapCall.free ptr ∉ cs) → (s.calls cs).isSome) := by
  induction cs generalizing s with
  | nil =>
      refine ⟨fun s' done => ?_, fun _ => rfl⟩
      obtain rfl : s = s' := Option.some.inj done
      exact h
  | cons c cs ih =>
      cases c with
      | free ptr =>
          refine ⟨fun s' done => ?_, fun none => absurd (by simp) (none ptr)⟩
          simp [Served.calls, h.free ptr] at done
      | alloc n =>
          rw [List.length_cons, Kmem.sizeofFreeLl] at room
          obtain ⟨s₁, called, ready, placement⟩ :=
            h.alloc fits (n := n) (by rw [Kmem.Room, Kmem.sizeofFreeLl]; omega)
          rw [Kmem.sizeofFreeLl] at placement
          have rest := ih ready (by rw [Kmem.sizeofFreeLl]; omega)
          have unfold : s.calls (.alloc n :: cs) = s₁.calls cs := by
            simp [Served.calls, called]
          rw [unfold]
          exact ⟨rest.1, fun none => rest.2 (fun ptr member => none ptr (by simp [member]))⟩

/-- A run of calls on a new heap stays sound, with every call returning, exactly when it frees
nothing: every `heap_free` follows a NULL list node. A new heap has one free node at most, so the
search of `heap_free` runs into the NULL behind it, or the merge into the one in front of it.
Allocations alone keep the invariant `Ready`.
-/
theorem calls_sound_iff (pmm : Pmm) (node : Nat → FreeLl) (start size maxSize usr : Nat)
    (cs : List HeapCall) (fits : start + size ≤ 2 ^ 32)
    (fresh : pmm.placementAddr + Kmem.sizeofHeap + Kmem.sizeofFreeLl * (cs.length + 1) < 2 ^ 32)
    : (∀ front, front <+: cs →
        ∃ s, (create pmm node start size maxSize usr).calls front = some s
          ∧ s.Sound start size)
      ↔ ∀ ptr, HeapCall.free ptr ∉ cs := by
  rw [Kmem.sizeofHeap, Kmem.sizeofFreeLl] at fresh
  have ready : (create pmm node start size maxSize usr).Ready start size :=
    Ready.create pmm node maxSize usr (by omega)
  have placement : (create pmm node start size maxSize usr).heap.pmm.placementAddr
      = pmm.placementAddr + 40 := by
    rw [create_eq node start size maxSize usr (by omega)]
  have room {front : List HeapCall} (part : front <+: cs)
      : (create pmm node start size maxSize usr).heap.pmm.placementAddr
        + Kmem.sizeofFreeLl * front.length < 2 ^ 32 := by
    have := part.length_le
    rw [placement, Kmem.sizeofFreeLl]
    omega
  constructor
  · intro sound ptr member
    obtain ⟨front, back, rfl⟩ := List.append_of_mem member
    have part : front <+: front ++ .free ptr :: back := List.prefix_append _ _
    obtain ⟨s, returned, -⟩ := sound front part
    obtain ⟨s', stuck, -⟩ := sound (front ++ [.free ptr]) ⟨back, by simp⟩
    have ended := (ready.calls fits (room part)).1 s returned
    rw [calls] at returned
    simp [calls, returned, ended.free ptr] at stuck
  · intro noFree front part
    have run := ready.calls fits (room part)
    obtain ⟨s, returned⟩ := Option.isSome_iff_exists.mp
      (run.2 (fun ptr member => noFree ptr (part.subset member)))
    exact ⟨s, returned, (run.1 s returned).sound⟩

/-- Three requests from a heap of 64 KiB, the last one too large. -/
theorem calls_sound_three
    : ∃ s, (create ⟨0x120000, fun _ => 0, 0⟩ (fun _ => ⟨0, 0, none, none⟩)
            0x800000 0x10000 0x10000 0).calls [.alloc 16, .alloc 0, .alloc 0x20000] = some s
        ∧ s.Sound 0x800000 0x10000 :=
  (calls_sound_iff _ _ _ _ _ _ _ (by decide) (by decide)).mpr (by simp) _
    (List.prefix_refl _)

/-- The only block handed out cannot be given back. -/
theorem calls_free_stuck
    : ((create ⟨0x120000, fun _ => 0, 0⟩ (fun _ => ⟨0, 0, none, none⟩)
          0x800000 0x100000 0x100000 0).calls [.alloc 16]).map live = some [⟨0x800000, 16⟩]
      ∧ ¬ ∀ front, front <+: [HeapCall.alloc 16, .free 0x800000] →
          ∃ s, (create ⟨0x120000, fun _ => 0, 0⟩ (fun _ => ⟨0, 0, none, none⟩)
              0x800000 0x100000 0x100000 0).calls front = some s
            ∧ s.Sound 0x800000 0x100000 := by
  refine ⟨by decide +kernel, fun sound => ?_⟩
  obtain ⟨s, returned, -⟩ := sound _ (List.prefix_refl _)
  have stuck : ((create ⟨0x120000, fun _ => 0, 0⟩ (fun _ => ⟨0, 0, none, none⟩)
      0x800000 0x100000 0x100000 0).calls [.alloc 16, .free 0x800000]).isSome = false := by
    decide +kernel
  rw [returned] at stuck
  cases stuck

end Served

end Hydrangea
