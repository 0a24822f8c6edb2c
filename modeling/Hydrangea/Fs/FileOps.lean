import Hydrangea.Fs.FileDescriptor

/-! The descriptor numbers of a task, as `kernel/fs/file_ops.c` gives them out. A number is a
position in the list `file_descriptors` of the task. The node that `vfs_node_from_path` finds
and the blocks that `kmalloc` returns are arguments.
-/

namespace Hydrangea

/-- A descriptor number and the descriptor that was opened under it. -/
structure Numbered where
  number : Nat
  fd : Nat

/-- What `open` and `close` work on: the files, the descriptors of the task, and the numbers
given out and not closed, latest first.
-/
structure TaskFiles where
  files : Files
  fileDescriptors : ListT
  opened : List Numbered

namespace TaskFiles

/-- `open`: the number returned and the new state; `e` and `fd` are the blocks that `fd_open`
allocates.
-/
def openNode (s : TaskFiles) (junk : Nat → Nat) (e fd node flags : Nat) : Nat × TaskFiles :=
  let files := s.files.fdOpen junk e fd node flags
  let (i, fileDescriptors) := s.fileDescriptors.listPush junk fd
  (i, { files, fileDescriptors, opened := { number := i, fd } :: s.opened })

/-- `close`: what it returns and the new state. -/
def close (s : TaskFiles) (number : Nat) : Int × TaskFiles :=
  let d := s.fileDescriptors.listGet number
  if d = 0 then
    (-1, s)
  else
    let files := s.files.fdClose d
    let fileDescriptors := (s.fileDescriptors.listDelete number).2
    (0, { files, fileDescriptors, opened := s.opened.filter (fun d => d.number ≠ number) })

/-- The descriptor that `read`, `write` and `close` take a number for. -/
def denoted (s : TaskFiles) (number : Nat) : Nat :=
  s.fileDescriptors.listGet number

-----------------------------------------------------------------------------------------
-- Runs of opens and closes
-----------------------------------------------------------------------------------------

/-- A call of a task. `ktask_create` itself opens the descriptors 0, 1 and 2. -/
inductive Call where
  | openNode (junk : Nat → Nat) (e fd node flags : Nat)
  | close (number : Nat)

/-- One call. A new descriptor gets a block in the 32-bit address space that no open descriptor
has; only open numbers are closed.
-/
def step (s : TaskFiles) : Call → Option TaskFiles
  | .openNode junk e fd node flags =>
      if 0 < fd ∧ fd + Files.sizeofFileDescriptor ≤ 2 ^ 32
          ∧ fd ∉ s.opened.map Numbered.fd then
        some (s.openNode junk e fd node flags).2
      else
        none
  | .close number =>
      if number ∈ s.opened.map Numbered.number then
        some (s.close number).2
      else
        none

/-- Opens and closes of a task, from the `make_list` of `ktask_create` on. -/
def system : TransitionSystem TaskFiles Call where
  init s := ∃ files junk,
    s = { files, fileDescriptors := ListT.makeList junk 8, opened := [] }
  step s call s' := s.step call = some s'

def ClosesLast (s : TaskFiles) : Call → Prop
  | .openNode .. => True
  | .close number => number + 1 = s.fileDescriptors.used

/-- What every state of a run that closes last numbers satisfies: the open numbers are the
positions of the list, from the last one down, and each has its descriptor.
-/
structure InPlace (s : TaskFiles) : Prop where
  numbers : s.opened.map Numbered.number = (List.range s.fileDescriptors.used).reverse
  data : ∀ d ∈ s.opened, s.fileDescriptors.data d.number = d.fd
  distinct : (s.opened.map Numbered.fd).Nodup
  addresses : ∀ d ∈ s.opened, 0 < d.fd ∧ d.fd + Files.sizeofFileDescriptor ≤ 2 ^ 32

variable {s : TaskFiles}

/-- Open numbers are positions of the list. -/
theorem InPlace.inside (h : s.InPlace) {d : Numbered} (member : d ∈ s.opened)
    : d.number < s.fileDescriptors.used := by
  have number : d.number ∈ s.opened.map Numbered.number := List.mem_map_of_mem member
  rw [h.numbers] at number
  simpa using number

/-- There are as many open numbers as positions. -/
theorem InPlace.used (h : s.InPlace) : s.fileDescriptors.used = s.opened.length := by
  have lengths := congrArg List.length h.numbers
  simpa using lengths.symm

/-- Open numbers denote their descriptors. -/
theorem InPlace.denoted (h : s.InPlace) {d : Numbered} (member : d ∈ s.opened)
    : s.denoted d.number = d.fd := by
  have inside := h.inside member
  rw [TaskFiles.denoted, ListT.listGet, if_neg (by omega)]
  exact h.data d member

/-- Descriptors at distinct addresses are fewer than there are addresses. -/
theorem InPlace.few (h : s.InPlace) : s.fileDescriptors.used + 1 < 2 ^ 32 := by
  have below : ∀ p ∈ s.opened.map Numbered.fd,
      p < 2 ^ 32 - Files.sizeofFileDescriptor + 1 := by
    intro p member
    obtain ⟨d, isOpen, rfl⟩ := List.mem_map.mp member
    have := (h.addresses d isOpen).2
    rw [Files.sizeofFileDescriptor] at this ⊢
    omega
  have count := Linked.length_le_of_nodup h.distinct below
  rw [List.length_map, Files.sizeofFileDescriptor, ← h.used] at count
  omega

/-- An open adds the next position. -/
theorem InPlace.openNode (h : s.InPlace) (junk : Nat → Nat) (e : Nat) {fd : Nat}
    (node flags : Nat) (address : 0 < fd ∧ fd + Files.sizeofFileDescriptor ≤ 2 ^ 32)
    (fresh : fd ∉ s.opened.map Numbered.fd)
    : (s.openNode junk e fd node flags).2.InPlace := by
  obtain ⟨place, used, last, kept⟩ := ListT.listPush_eq junk fd h.few
  refine ⟨?_, ?_, List.nodup_cons.mpr ⟨fresh, h.distinct⟩, ?_⟩
  · simp only [TaskFiles.openNode, List.map_cons, place, used, List.range_succ,
      List.reverse_append, List.reverse_singleton, List.singleton_append, h.numbers]
  · intro d member
    rcases List.mem_cons.mp member with rfl | old
    · exact (congrArg (s.fileDescriptors.listPush junk fd).2.data place).trans last
    · exact (kept _ (h.inside old)).trans (h.data d old)
  · intro d member
    rcases List.mem_cons.mp member with rfl | old
    · exact address
    · exact h.addresses d old

/-- Closing the last number removes the last position. The number with the last position is the
latest one, and the delete moves nothing, as nothing is behind it.
-/
theorem InPlace.close (h : s.InPlace) {number : Nat}
    (last : number + 1 = s.fileDescriptors.used)
    : (s.close number).2.InPlace := by
  obtain ⟨d, rest, same⟩ : ∃ d rest, s.opened = d :: rest := by
    apply List.exists_cons_of_length_pos
    rw [← h.used, ← last]
    exact Nat.succ_pos number
  have numbers := h.numbers
  rw [same, ← last, List.range_succ, List.reverse_append, List.reverse_singleton,
    List.singleton_append, List.map_cons] at numbers
  obtain ⟨first, others⟩ := List.cons.inj numbers
  have below : ∀ c ∈ rest, c.number < number := by
    intro c member
    have inside : c.number ∈ rest.map Numbered.number := List.mem_map_of_mem member
    rw [others] at inside
    simpa using inside
  have found : s.fileDescriptors.listGet number = d.fd := by
    rw [← first]
    exact h.denoted (by simp [same])
  have nonzero : d.fd ≠ 0 := (h.addresses d (by simp [same])).1.ne'
  have left : s.opened.filter (fun c => c.number ≠ number) = rest := by
    rw [same, List.filter_cons_of_neg (by simp [first]), List.filter_eq_self]
    intro c member
    simpa using (below c member).ne
  have closed : (s.close number).2
      = {
          files := s.files.fdClose d.fd,
          fileDescriptors :=
            { s.fileDescriptors with
              data := ListT.moveDown s.fileDescriptors.data number 1
              used := number },
          opened := rest
        } := by
    have few := h.few
    rw [TaskFiles.close, found, if_neg nonzero, left, ListT.listDelete_last last (by omega)]
  have distinct := h.distinct
  rw [same, List.map_cons] at distinct
  rw [closed]
  refine ⟨others, ?_, distinct.of_cons, ?_⟩
  · intro c member
    have kept := below c member
    show ListT.moveDown s.fileDescriptors.data number 1 c.number = c.fd
    rw [ListT.moveDown_apply, if_neg (by omega)]
    exact h.data c (by simp [same, member])
  · intro c member
    exact h.addresses c (by simp [same, member])

/-- Every state of a run that closes last numbers has its descriptors in place, by induction on
the run.
-/
theorem InPlace.reachable (reached : (system.restrict ClosesLast).Reachable s)
    : s.InPlace := by
  refine reached.invariant ?_ ?_
  · intro s start
    obtain ⟨files, junk, rfl⟩ := start
    exact ⟨rfl, by simp, List.nodup_nil, by simp⟩
  · intro s call s' inPlace taken
    obtain ⟨last, taken⟩ := taken
    cases call with
    | openNode junk e fd node flags =>
        obtain ⟨⟨pos, inside, fresh⟩, result⟩ := Option.ite_none_right_eq_some.mp taken
        obtain rfl := Option.some.inj result
        exact inPlace.openNode junk e node flags ⟨pos, inside⟩ fresh
    | close number =>
        obtain ⟨-, result⟩ := Option.ite_none_right_eq_some.mp taken
        obtain rfl := Option.some.inj result
        exact inPlace.close last

/-- In every run whose closes are of the last number, every open number denotes the descriptor that
was opened under it. Restricted to such closes, runs keep every descriptor in the place of its
number, because nothing behind it is moved up.
-/
theorem denoted_of_closesLast {steps : List (TaskFiles × Call)} (run : system.Run s steps)
    (last : ∀ taken ∈ steps, taken.1.ClosesLast taken.2)
    : ∀ d ∈ s.opened, s.denoted d.number = d.fd :=
  fun _ member => (InPlace.reachable (run.restrict last)).denoted member

instance (s : TaskFiles) (call : Call) : Decidable (s.ClosesLast call) :=
  match call with
  | .openNode .. => inferInstanceAs (Decidable True)
  | .close number => inferInstanceAs (Decidable (number + 1 = s.fileDescriptors.used))

/-- A task before its first descriptor, in memory filled with zeros. -/
def zeroed : TaskFiles where
  files := FileRun.zeroed.files
  fileDescriptors := ListT.makeList (fun _ => 0) 8
  opened := []

theorem zeroed_run {calls : List Call} {r : TaskFiles × List (TaskFiles × Call)}
    (played : TransitionSystem.play step zeroed calls = some r)
    : system.Run r.1 r.2 := by
  have sound (s : TaskFiles) (call : Call) (s' : TaskFiles) (_ : True)
      (taken : s.step call = some s')
      : system.step s call s' ∧ True :=
    ⟨taken, trivial⟩
  exact (TransitionSystem.Run.of_play sound ⟨_, _, rfl⟩ trivial played).1

/-- A task with the descriptors that `ktask_create` opens and with 3 and 4, latest first. -/
def fiveOpen : List Call :=
  [.openNode (fun _ => 0) 0x6000 0x6010 0xB0 Files.oRdonly,
    .openNode (fun _ => 0) 0x5000 0x5010 0xA0 Files.oRdwr,
    .openNode (fun _ => 0) 0x4000 0x4010 0xC0 Files.oWronly,
    .openNode (fun _ => 0) 0x3000 0x3010 0xC0 Files.oWronly,
    .openNode (fun _ => 0) 0x2000 0x2010 0xD0 Files.oRdwr]

/-- After 4 is closed, 3 still denotes its descriptor. -/
theorem denoted_of_last_closed
    : ∃ s steps, TransitionSystem.play step zeroed (.close 4 :: fiveOpen) = some (s, steps)
        ∧ (3, 0x5010) ∈ s.opened.map (fun d => (d.number, d.fd))
        ∧ ∀ d ∈ s.opened, s.denoted d.number = d.fd := by
  have returns : (TransitionSystem.play step zeroed (.close 4 :: fiveOpen)).isSome = true := by
    decide +kernel
  obtain ⟨⟨s, steps⟩, played⟩ := Option.isSome_iff_exists.mp returns
  have facts : ∀ r ∈ TransitionSystem.play step zeroed (.close 4 :: fiveOpen),
      (3, 0x5010) ∈ r.1.opened.map (fun d => (d.number, d.fd))
        ∧ ∀ taken ∈ r.2, taken.1.ClosesLast taken.2 := by
    decide +kernel
  obtain ⟨kept, last⟩ := facts _ played
  exact ⟨s, steps, played, kept, denoted_of_closesLast (zeroed_run played) last⟩

/-- After 3 is closed, 4 denotes nothing, and 3 would have been the descriptor of 4. -/
theorem denoted_of_earlier_closed
    : ¬ ∀ s steps, system.Run s steps → ∀ d ∈ s.opened, s.denoted d.number = d.fd := by
  intro sound
  have returns : (TransitionSystem.play step zeroed (.close 3 :: fiveOpen)).isSome = true := by
    decide +kernel
  obtain ⟨⟨s, steps⟩, played⟩ := Option.isSome_iff_exists.mp returns
  have wrong : ∀ r ∈ TransitionSystem.play step zeroed (.close 3 :: fiveOpen),
      r.1.denoted 3 = 0x6010
        ∧ ∃ d ∈ r.1.opened, d.number = 4 ∧ r.1.denoted d.number ≠ d.fd := by
    decide +kernel
  obtain ⟨-, d, isOpen, -, other⟩ := wrong _ played
  exact other (sound s steps (zeroed_run played) d isOpen)

end TaskFiles

end Hydrangea
