import Hydrangea.Lib.Transition
import Hydrangea.Mem.HeapSteps

/-! Tasks that call `heap_alloc` on one heap, where the timer can switch to another task between any
two statements.
-/

namespace Hydrangea

/-- The heap, the call that each task is in, and the blocks returned so far. -/
structure HeapTasks (ι : Type) where
  heap : Kmem
  task : ι → Option AllocCall
  live : List Block

/-- A task calls `heap_alloc`, or executes the next statement of its call. -/
inductive HeapEvent (ι : Type) where
  | call (i : ι) (size : Nat)
  | run (i : ι)

namespace HeapTasks

open Kmem

variable {ι : Type} [DecidableEq ι]

def returned (c : AllocCall) : List Block :=
  match c.addr with
  | none => []
  | some addr => [⟨addr, c.size⟩]

def next (s : HeapTasks ι) : HeapEvent ι → Option (HeapTasks ι)
  | .call i size =>
      if s.task i = none ∧ size < 2 ^ 32 then
        some { s with task := Function.update s.task i (some (allocStart size)) }
      else
        none
  | .run i => do
      let c ← s.task i
      if c.pc = .ret then
        return { s with task := Function.update s.task i none, live := s.live ++ returned c }
      else
        let (heap, c) ← s.heap.exec c
        return { s with heap, task := Function.update s.task i (some c) }

/-- All interleavings on a heap from `heap_create`, which lies in the address space as the two nodes
for it do.
-/
def system (pmm : Pmm) (node : Nat → FreeLl) (start size maxSize usr : Nat)
    : TransitionSystem (HeapTasks ι) (HeapEvent ι) where
  init s := start + size ≤ 2 ^ 32 ∧ size < 2 ^ 32
    ∧ pmm.placementAddr + sizeofHeap + sizeofFreeLl < 2 ^ 32
    ∧ s = { heap := heapCreate pmm node start size maxSize usr, task := fun _ => none, live := [] }
  step s event s' := s.next event = some s'

/-- The blocks returned have no byte in common, and whenever no call is under way, they and the
blocks of `free_ll`, which is sorted and without overlaps, lie apart in the heap.
-/
structure Kept (s : HeapTasks ι) (start size : Nat) : Prop where
  disjoint : s.live.Pairwise (fun b c => Disjoint b.bytes c.bytes)
  free : (∀ i, s.task i = none) → (Served.mk s.heap s.live).Sound start size

/-- `heap_alloc` is called while no other call is under way, and there is room for another node. -/
def Alone (s : HeapTasks ι) : HeapEvent ι → Prop
  | .call _ _ => (∀ j, s.task j = none) ∧ s.heap.Room
  | .run _ => True

variable {s s' : HeapTasks ι} {start size : Nat}

/-- No call is under way and the heap is ready, or the heap was ready when the only call under way
started, and nothing has come between its statements.
-/
inductive OneCall (start size : Nat) (s : HeapTasks ι) : Prop where
  | idle (none : ∀ i, s.task i = none) (ready : (Served.mk s.heap s.live).Ready start size)
  | busy {i : ι} {c : AllocCall} {heap : Kmem} {n : Nat} (others : ∀ j, j ≠ i → s.task j = none)
      (here : s.task i = some c) (ready : (Served.mk heap s.live).Ready start size)
      (room : heap.Room) (reaches : Reaches (heap, allocStart n) (s.heap, c))

/-- The invariant: one call at a time on a heap in the address space. -/
structure Inv (start size : Nat) (s : HeapTasks ι) : Prop where
  fits : start + size ≤ 2 ^ 32
  small : size < 2 ^ 32
  oneCall : OneCall start size s

omit [DecidableEq ι] in
theorem OneCall.kept (h : OneCall start size s) : s.Kept start size := by
  cases h with
  | idle none ready => exact ⟨ready.sound.apart, fun _ => ready.sound⟩
  | busy _ here ready _ _ =>
      refine ⟨ready.sound.apart, fun none => ?_⟩
      rw [none] at here
      cases here

theorem next_rightUnique : Relator.RightUnique Next :=
  fun _ _ _ first second => Option.some.inj (first.symm.trans second)

omit [DecidableEq ι] in
/-- A call that nothing came between returns what `heap_alloc` returns. -/
theorem ready_of_ret {heap heap' : Kmem} {live : List Block} {c : AllocCall} {n : Nat}
    (fits : start + size ≤ 2 ^ 32) (small : size < 2 ^ 32)
    (ready : (Served.mk heap live).Ready start size) (room : heap.Room)
    (reaches : Reaches (heap, allocStart n) (heap', c)) (ret : c.pc = .ret)
    : (Served.mk heap' (live ++ returned c)).Ready start size := by
  obtain ⟨s', called, ready', -⟩ := ready.alloc fits room n
  obtain ⟨⟨addr, heap₁⟩, served, called⟩ := Option.bind_eq_some_iff.mp called
  obtain ⟨fl, al, lists, wf, -, -⟩ := ready.lists
  have bounded : ∀ p ∈ fl, (heap.node p).size < 2 ^ 32 := by
    intro p member
    have within := wf.freeWithin (heap.block p) (List.mem_map_of_mem member)
    have low : start ≤ (heap.node p).addr := within.1
    have high : (heap.node p).addr + (heap.node p).size ≤ start + size := within.2
    omega
  obtain ⟨c₁, whole, ret₁, size₁, addr₁⟩ := lists.reaches_heapAlloc room bounded served
  -- both ends are the end of the call
  have same : (heap', c) = (heap₁, c₁) := by
    rcases Relation.ReflTransGen.total_of_right_unique next_rightUnique reaches whole with on | on
    · rcases Relation.ReflTransGen.cases_head on with same | ⟨b, step, -⟩
      · exact same
      · rw [Next, exec, ret] at step
        cases step
    · rcases Relation.ReflTransGen.cases_head on with same | ⟨b, step, -⟩
      · exact same.symm
      · rw [Next, exec, ret₁] at step
        cases step
  obtain ⟨rfl, rfl⟩ := Prod.mk.inj same
  rw [returned, addr₁, size₁]
  cases addr with
  | none =>
      obtain rfl := Option.some.inj called
      rw [List.append_nil]
      exact ready'
  | some a =>
      obtain rfl := Option.some.inj called
      exact ready'

/-- A step keeps the invariant, if calls start alone. A call starts from an idle heap, and a
statement is one of the only call under way; at its return the heap is idle again.
-/
theorem Inv.next (h : Inv start size s) {event : HeapEvent ι} (alone : s.Alone event)
    (taken : s.next event = some s')
    : Inv start size s' := by
  obtain ⟨fits, small, h⟩ := h
  refine ⟨fits, small, ?_⟩
  cases event with
  | call i n =>
      obtain ⟨none, room⟩ := alone
      obtain ⟨-, result⟩ := Option.ite_none_right_eq_some.mp taken
      obtain rfl := Option.some.inj result
      cases h with
      | idle _ ready =>
          refine .busy (fun j other => ?_) (Function.update_self ..) ready room .refl
          exact (Function.update_of_ne other ..).trans (none j)
      | busy _ here _ _ _ =>
          rw [none] at here
          cases here
  | run i =>
      obtain ⟨c, mine, taken⟩ := Option.bind_eq_some_iff.mp taken
      cases h with
      | idle none _ =>
          rw [none] at mine
          cases mine
      | @busy j c' heap n others here ready room reaches =>
          -- it is the task whose call is under way
          have same : i = j := by
            by_contra other
            rw [others i other] at mine
            cases mine
          subst same
          obtain rfl := Option.some.inj (mine.symm.trans here)
          split at taken
          · next ret =>
              obtain rfl := Option.some.inj taken
              refine .idle (fun j => ?_) (ready_of_ret fits small ready room reaches ret)
              by_cases other : j = i
              · subst other
                exact Function.update_self ..
              · exact (Function.update_of_ne other ..).trans (others j other)
          · obtain ⟨⟨heap', c'⟩, executed, taken⟩ := Option.bind_eq_some_iff.mp taken
            obtain rfl := Option.some.inj taken
            refine .busy (fun j other => ?_) (Function.update_self ..) ready room
              (reaches.tail executed)
            exact (Function.update_of_ne other ..).trans (others j other)

/-- In every state of every run in which calls of `heap_alloc` start alone and with room for a
node, the blocks returned are disjoint and the free list is well formed. Under the condition at
most one call is between its statements at a time, so each behaves as if it were alone; the
invariant says which statement it is at.
-/
theorem run_kept {pmm : Pmm} {node : Nat → FreeLl} {maxSize usr : Nat}
    {steps : List (HeapTasks ι × HeapEvent ι)}
    (run : (system pmm node start size maxSize usr).Run s steps)
    (alone : ∀ taken ∈ steps, taken.1.Alone taken.2)
    : s.Kept start size := by
  have inv : Inv start size s := by
    refine (run.restrict alone).invariant ?_ ?_
    · rintro s ⟨fits, small, room, rfl⟩
      refine ⟨fits, small, .idle (fun _ => rfl) ?_⟩
      exact Served.Ready.create pmm node maxSize usr room
    · rintro s event s' inv ⟨alone, taken⟩
      exact inv.next alone taken
  exact inv.oneCall.kept

-----------------------------------------------------------------------------------------
-- Two tasks
-----------------------------------------------------------------------------------------

section Examples

/-- A task calls `heap_alloc(16)` and takes `k` steps, latest first. -/
def allocSteps (i : Bool) (k : Nat) : List (HeapEvent Bool) :=
  List.replicate k (.run i) ++ [.call i 16]

def smallSystem : TransitionSystem (HeapTasks Bool) (HeapEvent Bool) :=
  system ⟨0x120000, fun _ => 0, 0⟩ (fun _ => ⟨0, 0, none, none⟩) 0x800000 0x10000 0x10000 0

def smallHeap : HeapTasks Bool where
  heap := heapCreate ⟨0x120000, fun _ => 0, 0⟩ (fun _ => ⟨0, 0, none, none⟩) 0x800000 0x10000 0x10000 0
  task _ := none
  live := []

theorem smallHeap_run {events : List (HeapEvent Bool)}
    {r : HeapTasks Bool × List (HeapTasks Bool × HeapEvent Bool)}
    (played : TransitionSystem.play next smallHeap events = some r)
    : smallSystem.Run r.1 r.2 := by
  have initial : smallSystem.init smallHeap := ⟨by decide, by decide, by decide, rfl⟩
  have sound (s : HeapTasks Bool) (event : HeapEvent Bool) (s' : HeapTasks Bool) (_ : True)
      (taken : s.next event = some s')
      : smallSystem.step s event s' ∧ True :=
    ⟨taken, trivial⟩
  exact (TransitionSystem.Run.of_play sound initial trivial played).1

instance (s : HeapTasks Bool) (event : HeapEvent Bool) : Decidable (s.Alone event) :=
  match event with
  | .call _ _ =>
      inferInstanceAs (Decidable ((∀ j, s.task j = none)
        ∧ s.heap.pmm.placementAddr + sizeofFreeLl < 2 ^ 32))
  | .run _ => inferInstanceAs (Decidable True)

/-- One task calls `heap_alloc` and then the other. -/
theorem run_kept_oneByOne
    : ∃ s steps, smallSystem.Run s steps ∧ s.live = [⟨0x800000, 16⟩, ⟨0x800010, 16⟩]
        ∧ s.Kept 0x800000 0x10000 := by
  have returns : (TransitionSystem.play next smallHeap
      (allocSteps true 17 ++ allocSteps false 15)).isSome = true := by
    decide +kernel
  obtain ⟨⟨s, steps⟩, played⟩ := Option.isSome_iff_exists.mp returns
  have facts : ∀ r ∈ TransitionSystem.play next smallHeap
      (allocSteps true 17 ++ allocSteps false 15),
      r.1.live = [⟨0x800000, 16⟩, ⟨0x800010, 16⟩] ∧ ∀ taken ∈ r.2, taken.1.Alone taken.2 := by
    decide +kernel
  obtain ⟨live, alone⟩ := facts _ played
  exact ⟨s, steps, smallHeap_run played, live, run_kept (smallHeap_run played) alone⟩

/-- A task that is stopped before it records its block gets the same block as the other one. -/
theorem run_not_kept
    : ¬ ∀ (pmm : Pmm) (node : Nat → FreeLl) (start size maxSize usr : Nat) (s : HeapTasks Bool)
        (steps : List (HeapTasks Bool × HeapEvent Bool)),
        (system pmm node start size maxSize usr).Run s steps → s.Kept start size := by
  intro always
  have returns : (TransitionSystem.play next smallHeap
      (List.replicate 13 (.run false) ++ allocSteps true 15 ++ allocSteps false 4)).isSome
        = true := by
    decide +kernel
  obtain ⟨⟨s, steps⟩, played⟩ := Option.isSome_iff_exists.mp returns
  have facts : ∀ r ∈ TransitionSystem.play next smallHeap
      (List.replicate 13 (.run false) ++ allocSteps true 15 ++ allocSteps false 4),
      r.1.live = [⟨0x800000, 16⟩, ⟨0x800000, 16⟩] := by
    decide +kernel
  have run : (system _ _ 0x800000 0x10000 _ _).Run s steps := smallHeap_run played
  have disjoint := (always _ _ _ _ _ _ s steps run).disjoint
  rw [facts _ played] at disjoint
  have apart := (List.pairwise_cons.mp disjoint).1 _ (List.mem_singleton_self _)
  have shared : 0x800000 ∈ Block.bytes ⟨0x800000, 16⟩ := ⟨Nat.le_refl _, by decide⟩
  exact Set.disjoint_left.mp apart shared shared

end Examples

end HeapTasks

end Hydrangea
