import Hydrangea.Fs.FileDescriptor

/-! Locking the entries of the global file table of `kernel/fs/file_descriptor.c`. -/

namespace Hydrangea

namespace Files

/-- A store into the `locked_by` of an entry. -/
def setLockedBy (s : Files) (e pid : Nat) : Files :=
  { s with entry := Function.update s.entry e { s.entry e with lockedBy := pid } }

/-- `gft_lock`, called by the task with the given pid. -/
def gftLock (s : Files) (pid index : Nat) : Nat × Files :=
  (0, s.setLockedBy (s.gft.listGet index) pid)

/-- `gft_unlock`, called by the task with the given pid. -/
def gftUnlock (s : Files) (pid index : Nat) : Nat × Files :=
  let e := s.gft.listGet index
  if (s.entry e).lockedBy ≠ pid then (1, s) else (0, s.setLockedBy e 0)

abbrev entryAt (s : Files) (index : Nat) : GftEntry :=
  s.entry (s.gft.listGet index)

-----------------------------------------------------------------------------------------
-- Runs
-----------------------------------------------------------------------------------------

/-- A call of `gft_lock` or `gft_unlock` by the task with the given pid. -/
inductive LockCall where
  | lock (pid index : Nat)
  | unlock (pid index : Nat)

def lockCall (s : Files) : LockCall → Nat × Files
  | .lock pid index => s.gftLock pid index
  | .unlock pid index => s.gftUnlock pid index

def LockCall.pid : LockCall → Nat
  | .lock pid _ => pid
  | .unlock pid _ => pid

def LockCall.index : LockCall → Nat
  | .lock _ index => index
  | .unlock _ index => index

/-- Locks and unlocks in any order, of entries that `gft_add` has put into the table. The first
place has none.
-/
def lockSystem : TransitionSystem Files LockCall where
  init s := ∀ index < s.gft.used, 0 < index → (s.entryAt index).lockedBy = 0
  step s c s' :=
    c.pid ≠ 0 ∧ 0 < c.index ∧ c.index < s.gft.used ∧ s' = (s.lockCall c).2

def Unlocks (pid e : Nat) (s : Files) : LockCall → Prop
  | .lock _ _ => False
  | .unlock p index => p = pid ∧ s.gft.listGet index = e

/-- From each of the earlier states on, the entry stays locked by the task that has locked it there,
until this task unlocks it.
-/
def StaysLocked (s : Files) (steps : List (Files × LockCall)) : Prop :=
  ∀ later t c earlier, steps = later ++ (t, c) :: earlier → ∀ e, (t.entry e).lockedBy ≠ 0
    → (∀ taken ∈ later ++ [(t, c)], ¬ Unlocks (t.entry e).lockedBy e taken.1 taken.2)
    → (s.entry e).lockedBy = (t.entry e).lockedBy

def RespectsLocks : Files → List (Files × LockCall) → Prop
  | s, [] => s.StaysLocked []
  | s, (t, c) :: steps => RespectsLocks t steps ∧ s.StaysLocked ((t, c) :: steps)

/-- The entry is not locked by another task, if the call locks it. -/
def Free (s : Files) : LockCall → Prop
  | .lock pid index => (s.entryAt index).lockedBy = 0 ∨ (s.entryAt index).lockedBy = pid
  | .unlock _ _ => True

variable {s s' : Files} {c : LockCall} {e : Nat}

/-- What a store into an entry does to the entries. -/
theorem setLockedBy_lockedBy (s : Files) (e pid e' : Nat)
    : ((s.setLockedBy e pid).entry e').lockedBy
      = if e' = e then pid else (s.entry e').lockedBy := by
  simp only [setLockedBy, Function.update_apply]
  split <;> rfl

/-- A call keeps the lock of another entry, or of its own entry by a task that does not unlock it,
if it does not lock an entry that another task has locked.
-/
theorem lockCall_keeps (free : s.Free c) (locked : (s.entry e).lockedBy ≠ 0)
    (kept : ¬ Unlocks (s.entry e).lockedBy e s c)
    : ((s.lockCall c).2.entry e).lockedBy = (s.entry e).lockedBy := by
  cases c with
  | lock pid index =>
      rw [lockCall, gftLock, setLockedBy_lockedBy]
      split
      · next same =>
          subst same
          exact (free.resolve_left locked).symm
      · rfl
  | unlock pid index =>
      rw [lockCall, gftUnlock]
      split
      · rfl
      · next owner =>
          rw [setLockedBy_lockedBy]
          split
          · next same =>
              subst same
              exact absurd ⟨(not_not.mp owner).symm, rfl⟩ kept
          · rfl

/-- The lock is kept over several calls, by induction on them. -/
theorem run_keeps {steps : List (Files × LockCall)} (run : lockSystem.Run s steps)
    (free : ∀ taken ∈ steps, taken.1.Free taken.2)
    : s.StaysLocked steps := by
  induction run with
  | start => exact fun later t c earlier split => by simp at split
  | @next t c s' steps _ taken ih =>
      obtain ⟨-, -, -, rfl⟩ := taken
      obtain ⟨freeHere, freeBefore⟩ := List.forall_mem_cons.mp free
      have before := ih freeBefore
      intro later u c' earlier split e locked noUnlock
      cases later with
      | nil =>
          obtain ⟨same, -⟩ := List.cons.inj split
          obtain ⟨rfl, rfl⟩ := Prod.mk.inj same
          exact lockCall_keeps freeHere locked (noUnlock _ (List.mem_cons_self ..))
      | cons last later =>
          obtain ⟨rfl, rest⟩ := List.cons.inj split
          have here := noUnlock (t, c) (List.mem_cons_self ..)
          have kept := before later u c' earlier rest e locked
            (fun taken member => noUnlock taken (List.mem_cons_of_mem _ member))
          rw [← kept] at locked here ⊢
          exact lockCall_keeps freeHere locked here

/-- The states of a run respect the locks if and only if no call locks an entry that another task
has locked, by induction on the run.
-/
theorem run_respectsLocks_iff {steps : List (Files × LockCall)} (run : lockSystem.Run s steps)
    : RespectsLocks s steps ↔ ∀ taken ∈ steps, taken.1.Free taken.2 := by
  induction run with
  | start initial =>
      refine iff_of_true ?_ (List.forall_mem_nil _)
      exact run_keeps (.start initial) (List.forall_mem_nil _)
  | @next t c s' steps earlier taken ih =>
      have run := earlier.next taken
      obtain ⟨-, -, -, rfl⟩ := taken
      rw [RespectsLocks, List.forall_mem_cons, ih, and_comm]
      refine ⟨fun both => ⟨?_, both.2⟩, fun both => ⟨?_, both.2⟩⟩
      · cases c with
        | unlock pid index => trivial
        | lock pid index =>
            by_contra other
            obtain ⟨locked, owner⟩ := not_or.mp other
            have kept := both.1 [] t _ steps rfl _ locked (fun taken member => by
              rw [List.mem_singleton.mp member]
              exact not_false)
            rw [lockCall, gftLock, setLockedBy_lockedBy, if_pos rfl] at kept
            exact owner kept.symm
      · exact run_keeps run (List.forall_mem_cons.mpr both)

-----------------------------------------------------------------------------------------
-- Two tasks
-----------------------------------------------------------------------------------------

section Examples

def twoPlaces : Files where
  gft := { data := fun _ => 0x2000, used := 2, size := 1024 }
  entry _ := { node := 0xA0, lockedBy := 0, refCount := 1 }
  fd _ := { gftIndex := 0, offset := 0, read := false, write := false }

/-- Task 1 locks the entry, and task 2 does not unlock it. -/
theorem run_respectsLocks_unlock
    : ∃ s steps, lockSystem.Run s steps ∧ (s.entry 0x2000).lockedBy = 1
        ∧ RespectsLocks s steps := by
  have start : lockSystem.Run twoPlaces [] := .start (fun _ _ _ => rfl)
  have locked : lockSystem.Run (twoPlaces.lockCall (.lock 1 1)).2 _ :=
    start.next ⟨by decide, by decide, by decide, rfl⟩
  have run : lockSystem.Run ((twoPlaces.lockCall (.lock 1 1)).2.lockCall (.unlock 2 1)).2 _ :=
    locked.next ⟨by decide, by decide, by decide, rfl⟩
  refine ⟨_, _, run, by decide, (run_respectsLocks_iff run).mpr ?_⟩
  exact List.forall_mem_cons.mpr ⟨trivial, List.forall_mem_cons.mpr ⟨.inl rfl, by simp⟩⟩

/-- Task 1 locks the entry, and task 2 locks it, too. -/
theorem run_not_respectsLocks
    : ¬ ∀ s steps, lockSystem.Run s steps → RespectsLocks s steps := by
  intro always
  have start : lockSystem.Run twoPlaces [] := .start (fun _ _ _ => rfl)
  have locked : lockSystem.Run (twoPlaces.lockCall (.lock 1 1)).2 _ :=
    start.next ⟨by decide, by decide, by decide, rfl⟩
  have run : lockSystem.Run ((twoPlaces.lockCall (.lock 1 1)).2.lockCall (.lock 2 1)).2 _ :=
    locked.next ⟨by decide, by decide, by decide, rfl⟩
  have kept := (always _ _ run).2 [] _ _ _ rfl 0x2000 (by decide) (fun taken member => by
    rw [List.mem_singleton.mp member]
    exact not_false)
  revert kept
  decide

end Examples

end Files

end Hydrangea
