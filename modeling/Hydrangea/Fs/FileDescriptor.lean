import Hydrangea.Ds.ListT
import Hydrangea.Lib.Linked
import Hydrangea.Lib.Transition

/-! The global file table and the descriptors of `kernel/fs/file_descriptor.c`. Blocks that
`kmalloc` returns are arguments; `kfree` leaves the other blocks alone.
-/

namespace Hydrangea

structure GftEntry where
  node : Nat
  lockedBy : Nat
  refCount : Nat

structure FileDescriptor where
  gftIndex : Nat
  offset : Nat
  read : Bool
  write : Bool

/-- `gft` with the table entries and the descriptors by their addresses. -/
structure Files where
  gft : ListT
  entry : Nat → GftEntry
  fd : Nat → FileDescriptor

namespace Files

/-- `O_RDONLY`, `O_WRONLY` and `O_RDWR`. -/
def oRdonly : Nat := 1 <<< 0

def oWronly : Nat := 1 <<< 1

def oRdwr : Nat := 1 <<< 2

/-- `sizeof(file_descriptor_t)`. -/
def sizeofFileDescriptor : Nat := 12

/-- `gft_init`; the table starts with its first place taken. -/
def gftInit (s : Files) (junk : Nat → Nat) : Files :=
  { s with gft := { ListT.makeList junk 1024 with used := 1 } }

/-- `gft_entry_exists`, whose search stands behind a `return 0`. -/
def gftEntryExists (_ : Files) (_node : Nat) : Nat :=
  0

def setRefCount (s : Files) (index : Nat) (f : Nat → Nat) : Files :=
  let e := s.gft.listGet index
  { s with
    entry := Function.update s.entry e { s.entry e with refCount := f (s.entry e).refCount } }

def gftIncRefCount (s : Files) (index : Nat) : Files :=
  s.setRefCount index (fun n => (n + 1) % 2 ^ 32)

def gftDecRefCount (s : Files) (index : Nat) : Files :=
  s.setRefCount index (fun n => (n + (2 ^ 32 - 1)) % 2 ^ 32)

def gftGetRefCount (s : Files) (index : Nat) : Nat :=
  (s.entry (s.gft.listGet index)).refCount

/-- `gft_add`; `e` is the block for a new entry. -/
def gftAdd (s : Files) (junk : Nat → Nat) (e node : Nat) : Nat × Files :=
  let i := s.gftEntryExists node
  if i ≠ 0 then
    (i, s.gftIncRefCount i)
  else
    let (i, gft) := s.gft.listPush junk e
    (i, { s with
      gft
      entry := Function.update s.entry e { node, lockedBy := 0, refCount := 1 } })

def gftDelete (s : Files) (index : Nat) : Files :=
  { s with gft := (s.gft.listDelete index).2 }

/-- `fd_open`; `e` and `fd` are the blocks for a new entry and the descriptor. -/
def fdOpen (s : Files) (junk : Nat → Nat) (e fd node flags : Nat) : Files :=
  let read := flags &&& oRdwr ≠ 0 ∨ flags &&& oRdonly ≠ 0
  let write := flags &&& oRdwr ≠ 0 ∨ flags &&& oWronly ≠ 0
  let (index, s) := s.gftAdd junk e node
  { s with fd := Function.update s.fd fd { gftIndex := index, offset := 0, read, write } }

def fdClose (s : Files) (fd : Nat) : Files :=
  let s := s.gftDecRefCount (s.fd fd).gftIndex
  if s.gftGetRefCount (s.fd fd).gftIndex = 0 then s.gftDelete (s.fd fd).gftIndex else s

def fdToNode (s : Files) (fd : Nat) : Nat :=
  (s.entry (s.gft.listGet (s.fd fd).gftIndex)).node

end Files

-----------------------------------------------------------------------------------------
-- Runs of opens and closes
-----------------------------------------------------------------------------------------

/-- An open descriptor and the node it was opened on. -/
structure Opened where
  fd : Nat
  node : Nat

/-- The files and the descriptors open on them, latest first. -/
structure FileRun where
  files : Files
  opened : List Opened

namespace FileRun

/-- A call; an open comes with the blocks that `kmalloc` returns. -/
inductive Call where
  | fdOpen (junk : Nat → Nat) (e fd node flags : Nat)
  | fdClose (fd : Nat)

/-- One call. A new entry gets a block that no entry in the table has, a new descriptor one
in the 32-bit address space that no open descriptor has; only open descriptors are closed.
-/
def step (s : FileRun) : Call → Option FileRun
  | .fdOpen junk e fd node flags =>
      if (∀ i < s.files.gft.used, 0 < i → s.files.gft.data i ≠ e) ∧ 0 < fd
          ∧ fd + Files.sizeofFileDescriptor ≤ 2 ^ 32 ∧ fd ∉ s.opened.map Opened.fd then
        some
          { files := s.files.fdOpen junk e fd node flags
            opened := { fd, node } :: s.opened }
      else
        none
  | .fdClose fd =>
      if fd ∈ s.opened.map Opened.fd then
        some
          { files := s.files.fdClose fd
            opened := s.opened.filter (fun d => d.fd ≠ fd) }
      else
        none

/-- Opens and closes, from `gft_init` on. -/
def system : TransitionSystem FileRun Call where
  init s := ∃ files junk, s = { files := Files.gftInit files junk, opened := [] }
  step s call s' := s.step call = some s'

def ClosesLast (s : FileRun) : Call → Prop
  | .fdOpen .. => True
  | .fdClose fd => (s.files.fd fd).gftIndex + 1 = s.files.gft.used

/-- The open descriptors have the entries of the table from the last one down, each an entry
of its own with its node and one reference.
-/
def Backed (files : Files) : List Opened → Prop
  | [] => True
  | d :: rest =>
      (files.fd d.fd).gftIndex = rest.length + 1
      ∧ (files.entry (files.gft.data (rest.length + 1))).node = d.node
      ∧ (files.entry (files.gft.data (rest.length + 1))).refCount = 1
      ∧ (∀ i < rest.length + 1, 0 < i → files.gft.data i ≠ files.gft.data (rest.length + 1))
      ∧ Backed files rest

/-- What every state of a run that closes last entries satisfies. -/
structure Stacked (s : FileRun) : Prop where
  used : s.files.gft.used = s.opened.length + 1
  distinct : (s.opened.map Opened.fd).Nodup
  addresses : ∀ d ∈ s.opened, 0 < d.fd ∧ d.fd + Files.sizeofFileDescriptor ≤ 2 ^ 32
  backed : Backed s.files s.opened

/-- Backing depends on the descriptors, on the first entries of the table and on what they
point to, by induction on the descriptors.
-/
theorem Backed.congr {files files' : Files} {opened : List Opened} (h : Backed files opened)
    (fds : ∀ d ∈ opened, files'.fd d.fd = files.fd d.fd)
    (data : ∀ i, i ≤ opened.length → files'.gft.data i = files.gft.data i)
    (entries : ∀ i, 0 < i → i ≤ opened.length →
      files'.entry (files.gft.data i) = files.entry (files.gft.data i))
    : Backed files' opened := by
  induction opened with
  | nil => trivial
  | cons d rest ih =>
      obtain ⟨index, node, count, own, below⟩ := h
      have last : files'.gft.data (rest.length + 1) = files.gft.data (rest.length + 1) :=
        data _ (Nat.le_refl _)
      have entry := entries (rest.length + 1) (Nat.succ_pos _) (Nat.le_refl _)
      refine ⟨?_, ?_, ?_, ?_, ?_⟩
      · rw [fds d (by simp), index]
      · rw [last, entry, node]
      · rw [last, entry, count]
      · intro i small pos
        rw [last, data i (Nat.le_of_lt small)]
        exact own i small pos
      · exact ih below (fun d member => fds d (by simp [member]))
          (fun i small => data i (Nat.le_succ_of_le small))
          (fun i pos small => entries i pos (Nat.le_succ_of_le small))

/-- A backed descriptor has the index of its place among the descriptors, by induction on
them.
-/
theorem Backed.index {files : Files} {front rest : List Opened} {d : Opened}
    (h : Backed files (front ++ d :: rest))
    : (files.fd d.fd).gftIndex = rest.length + 1
      ∧ (files.entry (files.gft.data (rest.length + 1))).node = d.node := by
  induction front with
  | nil => exact ⟨h.1, h.2.1⟩
  | cons c front ih => exact ih h.2.2.2.2

/-- In a stacked state every open descriptor leads to its node. -/
theorem Stacked.fdToNode {s : FileRun} (h : s.Stacked) {d : Opened} (member : d ∈ s.opened)
    : s.files.fdToNode d.fd = d.node := by
  obtain ⟨front, rest, same⟩ := List.append_of_mem member
  have backed := h.backed
  have used := h.used
  rw [same] at backed used
  obtain ⟨index, node⟩ := backed.index
  have inside : ¬ s.files.gft.used < rest.length + 1 := by
    simp only [List.length_append, List.length_cons] at used
    omega
  rw [Files.fdToNode, ListT.listGet, index, if_neg inside, node]

/-- Descriptors at distinct addresses are fewer than there are addresses. -/
theorem Stacked.few {s : FileRun} (h : s.Stacked) : s.opened.length + 2 < 2 ^ 32 := by
  have below : ∀ p ∈ s.opened.map Opened.fd, p < 2 ^ 32 - Files.sizeofFileDescriptor + 1 := by
    intro p member
    obtain ⟨d, inside, rfl⟩ := List.mem_map.mp member
    have := (h.addresses d inside).2
    rw [Files.sizeofFileDescriptor] at this ⊢
    omega
  have count := Linked.length_le_of_nodup h.distinct below
  rw [List.length_map, Files.sizeofFileDescriptor] at count
  omega

/-- An open adds a last entry and keeps the state stacked. -/
theorem Stacked.fdOpen {s : FileRun} (h : s.Stacked) (junk : Nat → Nat) {e fd node : Nat}
    (flags : Nat) (newEntry : ∀ i < s.files.gft.used, 0 < i → s.files.gft.data i ≠ e)
    (address : 0 < fd ∧ fd + Files.sizeofFileDescriptor ≤ 2 ^ 32)
    (newFd : fd ∉ s.opened.map Opened.fd)
    : Stacked
        { files := s.files.fdOpen junk e fd node flags
          opened := { fd, node } :: s.opened } := by
  have used := h.used
  have small : s.files.gft.used + 1 < 2 ^ 32 := by
    have := h.few
    omega
  obtain ⟨place, used', last, kept⟩ := ListT.listPush_eq junk e small
  have elsewhere : ∀ d ∈ s.opened, d.fd ≠ fd := by
    rintro d member rfl
    exact newFd (List.mem_map_of_mem member)
  refine ⟨?_, List.nodup_cons.mpr ⟨newFd, h.distinct⟩, ?_, ?_⟩
  · exact used'.trans (congrArg (· + 1) used)
  · rintro d member
    rcases List.mem_cons.mp member with rfl | old
    · exact address
    · exact h.addresses d old
  · rw [used] at last kept newEntry
    refine ⟨?_, ?_, ?_, ?_, ?_⟩
    · simpa [Files.fdOpen, Files.gftAdd, Files.gftEntryExists, used] using place
    · simp [Files.fdOpen, Files.gftAdd, Files.gftEntryExists, last]
    · simp [Files.fdOpen, Files.gftAdd, Files.gftEntryExists, last]
    · intro i below pos
      simpa [Files.fdOpen, Files.gftAdd, Files.gftEntryExists, last, kept i below] using
        newEntry i below pos
    · refine h.backed.congr (fun d member => ?_) (fun i below => ?_) (fun i pos below => ?_)
      · simp [Files.fdOpen, Files.gftAdd, Files.gftEntryExists,
          Function.update_of_ne (elsewhere d member)]
      · exact kept i (Nat.lt_succ_of_le below)
      · simp [Files.fdOpen, Files.gftAdd, Files.gftEntryExists,
          Function.update_of_ne (newEntry i (Nat.lt_succ_of_le below) pos)]

/-- Closing the descriptor of the last entry removes both and keeps the state stacked. The last
entry has the latest descriptor, and the delete moves nothing, as nothing is behind it.
-/
theorem Stacked.fdClose {s : FileRun} (h : s.Stacked) {fd : Nat}
    (isOpen : fd ∈ s.opened.map Opened.fd)
    (last : (s.files.fd fd).gftIndex + 1 = s.files.gft.used)
    : Stacked
        { files := s.files.fdClose fd
          opened := s.opened.filter (fun d => d.fd ≠ fd) } := by
  have used := h.used
  have few := h.few
  obtain ⟨d, member, rfl⟩ := List.mem_map.mp isOpen
  obtain ⟨front, rest, same⟩ := List.append_of_mem member
  have backed := h.backed
  have distinct := h.distinct
  have addresses := h.addresses
  rw [same] at backed used distinct addresses few
  -- a descriptor behind others has a smaller index, so this is the latest one
  have first : front = [] := by
    have index := backed.index.1
    rw [index] at last
    simp only [List.length_append, List.length_cons] at used
    exact List.eq_nil_of_length_eq_zero (by omega)
  subst first
  rw [List.nil_append] at same backed used distinct addresses few
  obtain ⟨index, -, count, own, below⟩ := backed
  obtain ⟨fresh, distinct'⟩ := List.nodup_cons.mp distinct
  have others : ∀ c ∈ rest, c.fd ≠ d.fd := by
    intro c inside clash
    exact fresh (clash ▸ List.mem_map_of_mem inside)
  have left : s.opened.filter (fun c => c.fd ≠ d.fd) = rest := by
    rw [same, List.filter_cons_of_neg (by simp), List.filter_eq_self.mpr (by simpa using others)]
  rw [left]
  rw [List.length_cons] at used few
  have found : s.files.gft.listGet (rest.length + 1) = s.files.gft.data (rest.length + 1) := by
    rw [ListT.listGet, if_neg (by omega)]
  have closed : s.files.fdClose d.fd
      = (s.files.gftDecRefCount (rest.length + 1)).gftDelete (rest.length + 1) := by
    have zero : (s.files.gftDecRefCount (rest.length + 1)).gftGetRefCount (rest.length + 1)
        = 0 := by
      simp [Files.gftGetRefCount, Files.gftDecRefCount, Files.setRefCount, found, count]
    have kept : ((s.files.gftDecRefCount (rest.length + 1)).fd d.fd).gftIndex
        = rest.length + 1 :=
      index
    simp only [Files.fdClose, index, kept, zero, if_true]
  have table : (s.files.fdClose d.fd).gft = (s.files.gft.listDelete (rest.length + 1)).2 := by
    rw [closed]
    rfl
  have deleted : (s.files.gft.listDelete (rest.length + 1)).2
      = { s.files.gft with
          data := ListT.moveDown s.files.gft.data (rest.length + 1) 1
          used := rest.length + 1 } :=
    ListT.listDelete_last (by omega) (by omega)
  refine ⟨?_, distinct', fun c inside => addresses c (by simp [inside]), ?_⟩
  · simp only [table, deleted]
  · refine below.congr (fun c _ => ?_) (fun i small => ?_) (fun i pos small => ?_)
    · rw [closed]
      rfl
    · simp only [table, deleted, ListT.moveDown_apply]
      rw [if_neg (by omega)]
    · have distinctEntry := own i (by omega) pos
      rw [closed]
      simp [Files.gftDelete, Files.gftDecRefCount, Files.setRefCount, found,
        Function.update_of_ne distinctEntry]

/-- Every state of a run that closes last entries is stacked, by induction on the run. -/
theorem Stacked.reachable {s : FileRun} (reached : (system.restrict ClosesLast).Reachable s)
    : s.Stacked := by
  refine reached.invariant ?_ ?_
  · rintro s ⟨files, junk, rfl⟩
    exact ⟨rfl, List.nodup_nil, by simp, trivial⟩
  · rintro s call s' stacked ⟨last, taken⟩
    cases call with
    | fdOpen junk e fd node flags =>
        obtain ⟨⟨newEntry, pos, end', newFd⟩, result⟩ := Option.ite_none_right_eq_some.mp taken
        obtain rfl := Option.some.inj result
        exact stacked.fdOpen junk flags newEntry ⟨pos, end'⟩ newFd
    | fdClose fd =>
        obtain ⟨isOpen, result⟩ := Option.ite_none_right_eq_some.mp taken
        obtain rfl := Option.some.inj result
        exact stacked.fdClose isOpen last

/-- In every run whose closes are of the descriptor with the last entry, every open descriptor
leads to the node it was opened on. Restricted to such closes, runs keep the descriptors stacked in
the order of the entries, so no entry moves to another index.
-/
theorem fdToNode_of_closesLast {s : FileRun} {steps : List (FileRun × Call)}
    (run : system.Run s steps) (last : ∀ taken ∈ steps, taken.1.ClosesLast taken.2)
    : ∀ d ∈ s.opened, s.files.fdToNode d.fd = d.node :=
  fun _ member => (Stacked.reachable (run.restrict last)).fdToNode member

instance (s : FileRun) (call : Call) : Decidable (s.ClosesLast call) :=
  match call with
  | .fdOpen .. => inferInstanceAs (Decidable True)
  | .fdClose fd => inferInstanceAs (Decidable ((s.files.fd fd).gftIndex + 1 = s.files.gft.used))

/-- The files right after `gft_init`, in memory filled with zeros. -/
def zeroed : FileRun where
  files := Files.gftInit ⟨⟨fun _ => 0, 0, 0⟩, fun _ => ⟨0, 0, 0⟩, fun _ => ⟨0, 0, false, false⟩⟩
    (fun _ => 0)
  opened := []

theorem zeroed_run {calls : List Call} {r : FileRun × List (FileRun × Call)}
    (played : TransitionSystem.play step zeroed calls = some r)
    : system.Run r.1 r.2 := by
  have sound (s : FileRun) (call : Call) (s' : FileRun) (_ : True)
      (taken : s.step call = some s')
      : system.step s call s' ∧ True :=
    ⟨taken, trivial⟩
  exact (TransitionSystem.Run.of_play sound ⟨_, _, rfl⟩ trivial played).1

/-- Two descriptors on two nodes, latest first. -/
def twoOpen : List Call :=
  [.fdOpen (fun _ => 0) 0x3000 0x3010 0xB0 Files.oRdonly,
    .fdOpen (fun _ => 0) 0x2000 0x2010 0xA0 Files.oRdwr]

/-- After the later one is closed, the earlier one still leads to its node. -/
theorem fdToNode_of_later_closed
    : ∃ s steps, TransitionSystem.play step zeroed (.fdClose 0x3010 :: twoOpen) = some (s, steps)
        ∧ s.opened.map Opened.fd = [0x2010]
        ∧ ∀ d ∈ s.opened, s.files.fdToNode d.fd = d.node := by
  have returns : (TransitionSystem.play step zeroed (.fdClose 0x3010 :: twoOpen)).isSome
      = true := by
    decide +kernel
  obtain ⟨⟨s, steps⟩, played⟩ := Option.isSome_iff_exists.mp returns
  have facts : ∀ r ∈ TransitionSystem.play step zeroed (.fdClose 0x3010 :: twoOpen),
      r.1.opened.map Opened.fd = [0x2010] ∧ ∀ taken ∈ r.2, taken.1.ClosesLast taken.2 := by
    decide +kernel
  obtain ⟨left, last⟩ := facts _ played
  exact ⟨s, steps, played, left, fdToNode_of_closesLast (zeroed_run played) last⟩

/-- After the earlier one is closed, the later one leads to whatever lies behind the table. -/
theorem fdToNode_of_earlier_closed
    : ¬ ∀ s steps, system.Run s steps → ∀ d ∈ s.opened, s.files.fdToNode d.fd = d.node := by
  intro sound
  have returns : (TransitionSystem.play step zeroed (.fdClose 0x2010 :: twoOpen)).isSome
      = true := by
    decide +kernel
  obtain ⟨⟨s, steps⟩, played⟩ := Option.isSome_iff_exists.mp returns
  have wrong : ∀ r ∈ TransitionSystem.play step zeroed (.fdClose 0x2010 :: twoOpen),
      ∃ d ∈ r.1.opened, r.1.files.fdToNode d.fd ≠ d.node := by
    decide +kernel
  obtain ⟨d, isOpen, other⟩ := wrong _ played
  exact other (sound s steps (zeroed_run played) d isOpen)

end FileRun

end Hydrangea
