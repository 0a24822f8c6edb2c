import Hydrangea.Fs.VfsPartitions

/-! What `vfs_mount_partition` of `kernel/fs/vfs.c` leaves behind on the heap when it fails. `none`
is a call that does not return.
-/

namespace Hydrangea

-----------------------------------------------------------------------------------------
-- The heap
-----------------------------------------------------------------------------------------

/-- The heap, for the functions that call it: the blocks that are live, and what the next calls of
`kmalloc` return, which is null or the address of a block.
-/
structure KernelHeap where
  live : List Nat
  given : List (Option Nat)

namespace KernelHeap

def kmalloc (h : KernelHeap) : Option (Option Nat × KernelHeap) :=
  match h.given with
  | [] => none
  | ptr :: given => some (ptr, { live := ptr.toList ++ h.live, given })

/-- `kmalloc` of a block that is written to next. -/
def kmallocUsed (h : KernelHeap) : Option (Nat × KernelHeap) := do
  let (ptr, h) ← h.kmalloc
  let ptr ← ptr
  return (ptr, h)

def kfree (h : KernelHeap) (ptr : Nat) : KernelHeap :=
  { h with live := h.live.erase ptr }

/-- The size of the table of the groups in `ext2_init`. -/
def groupsSize (drv : Nat → UInt8) (partitionNumber : Nat) : Nat :=
  let offset := (partitionAt (mbrParse drv) partitionNumber).lbaStart * 512 % 2 ^ 32
  let superblock := ataReadB drv (offset + 1024) sizeofSuperblock
  let a := divideUp (field superblock 4 4) (field superblock 32 4)
  let b := divideUp (field superblock 0 4) (field superblock 40 4)
  (if a > b then a else b) * sizeofGroup % 2 ^ 32

/-- `ext2_init`, with its blocks: `ext2_infos`, the superblock, the groups and the `fs_t`. -/
def ext2Init (drv : Nat → UInt8) (partitionNumber : Nat) (heap : Nat → Nat) (h : KernelHeap)
    : Option (Option Ext2Fs × KernelHeap) := do
  let (ext2Infos, h) ← h.kmallocUsed
  let (superblock, h) ← h.kmallocUsed
  match ← Hydrangea.ext2Init drv partitionNumber heap with
  | none => return (none, (h.kfree superblock).kfree ext2Infos)
  | some fs =>
      let (gd, h) ← h.kmalloc
      -- Nothing is written to an empty table.
      if gd = none ∧ groupsSize drv partitionNumber ≠ 0 then
        none
      else do
        let (_, h) ← h.kmallocUsed
        return (some fs, h)

/-- `vfs_node_from_path`, with the block for its copy of the path. -/
def vfsNodeFromPath {δ α : Type} (vfs : VfsState α) (fuel : Nat) (c : MountCall δ α)
    (h : KernelHeap)
    : Option (Option α × KernelHeap) := do
  let (_, h) ← h.kmallocUsed
  let node ← Vfs.vfsNodeFromPath vfs.mem vfs.vfsRoot c.kmalloc fuel c.i c.rel c.path
  return (node, h)

-----------------------------------------------------------------------------------------
-- What is allocated
-----------------------------------------------------------------------------------------

variable {h h' : KernelHeap} {drv : Nat → UInt8} {partitionNumber : Nat} {heap : Nat → Nat}

/-- `kmalloc` gives null or a block more. -/
theorem kmalloc_eq_some {ptr : Option Nat}
    : h.kmalloc = some (ptr, h') ↔ h.given = ptr :: h'.given ∧ h'.live = ptr.toList ++ h.live := by
  obtain ⟨live, given⟩ := h
  obtain ⟨live', given'⟩ := h'
  cases given with
  | nil => simp [kmalloc]
  | cons first given =>
      simp only [kmalloc, Option.some.injEq, Prod.mk.injEq, KernelHeap.mk.injEq, List.cons.injEq,
        and_assoc, eq_comm (a := live'), and_comm (a := given = given')]
      refine and_congr_right (fun same => ?_)
      rw [same]

/-- A block that is written to is not null. -/
theorem kmallocUsed_eq_some {ptr : Nat}
    : h.kmallocUsed = some (ptr, h')
      ↔ h.given = some ptr :: h'.given ∧ h'.live = ptr :: h.live := by
  constructor
  · intro used
    obtain ⟨⟨ptr', h₁⟩, gives, used⟩ := Option.bind_eq_some_iff.mp used
    obtain ⟨ptr'', notNull, used⟩ := Option.bind_eq_some_iff.mp used
    obtain rfl : ptr' = some ptr'' := notNull
    obtain ⟨rfl, rfl⟩ := Prod.mk.inj (Option.some.inj used)
    exact kmalloc_eq_some.mp gives
  · intro gives
    have given : h.kmalloc = some (some ptr, h') := kmalloc_eq_some.mpr gives
    rw [kmallocUsed, given]
    rfl

/-- When it returns null, `ext2_init` has freed both blocks that it has allocated. -/
theorem ext2Init_null (ran : h.ext2Init drv partitionNumber heap = some (none, h'))
    : Hydrangea.ext2Init drv partitionNumber heap = some none ∧ h'.live = h.live := by
  obtain ⟨⟨ext2Infos, h₁⟩, first, ran⟩ := Option.bind_eq_some_iff.mp ran
  obtain ⟨⟨superblock, h₂⟩, second, ran⟩ := Option.bind_eq_some_iff.mp ran
  obtain ⟨fs, init, ran⟩ := Option.bind_eq_some_iff.mp ran
  obtain ⟨-, live₁⟩ := kmallocUsed_eq_some.mp first
  obtain ⟨-, live₂⟩ := kmallocUsed_eq_some.mp second
  cases fs with
  | none =>
      obtain ⟨-, rfl⟩ := Prod.mk.inj (Option.some.inj ran)
      refine ⟨init, ?_⟩
      simp only [kfree, live₂, live₁, List.erase_cons_head]
  | some fs =>
      obtain ⟨⟨gd, h₃⟩, -, ran⟩ := Option.bind_eq_some_iff.mp ran
      dsimp only at ran
      split at ran
      · cases ran
      · obtain ⟨⟨block, h₄⟩, -, ran⟩ := Option.bind_eq_some_iff.mp ran
        cases ran

/-- Otherwise it keeps all four. -/
theorem ext2Init_eq_some {fs : Ext2Fs}
    : h.ext2Init drv partitionNumber heap = some (some fs, h')
      ↔ Hydrangea.ext2Init drv partitionNumber heap = some (some fs)
        ∧ ∃ ext2Infos superblock gd block,
          h.given = some ext2Infos :: some superblock :: gd :: some block :: h'.given
            ∧ (gd = none → groupsSize drv partitionNumber = 0)
            ∧ h'.live = block :: (gd.toList ++ superblock :: ext2Infos :: h.live) := by
  constructor
  · intro ran
    obtain ⟨⟨ext2Infos, h₁⟩, first, ran⟩ := Option.bind_eq_some_iff.mp ran
    obtain ⟨⟨superblock, h₂⟩, second, ran⟩ := Option.bind_eq_some_iff.mp ran
    obtain ⟨found, init, ran⟩ := Option.bind_eq_some_iff.mp ran
    obtain ⟨given₁, live₁⟩ := kmallocUsed_eq_some.mp first
    obtain ⟨given₂, live₂⟩ := kmallocUsed_eq_some.mp second
    cases found with
    | none => cases ran
    | some fs' =>
        obtain ⟨⟨gd, h₃⟩, third, ran⟩ := Option.bind_eq_some_iff.mp ran
        dsimp only at ran
        split at ran
        · cases ran
        · next written =>
            obtain ⟨⟨block, h₄⟩, fourth, ran⟩ := Option.bind_eq_some_iff.mp ran
            obtain ⟨same, rfl⟩ := Prod.mk.inj (Option.some.inj ran)
            obtain rfl := Option.some.inj same
            obtain ⟨given₄, live₄⟩ := kmallocUsed_eq_some.mp fourth
            obtain ⟨given₃, live₃⟩ := kmalloc_eq_some.mp third
            refine ⟨init, ext2Infos, superblock, gd, block, ?_, fun null => ?_, ?_⟩
            · rw [given₁, given₂, given₃, given₄]
            · by_contra size
              exact written ⟨null, size⟩
            · rw [live₄, live₃, live₂, live₁]
  · rintro ⟨init, ext2Infos, superblock, gd, block, given, empty, live⟩
    let h₁ : KernelHeap :=
      { live := ext2Infos :: h.live, given := some superblock :: gd :: some block :: h'.given }
    let h₂ : KernelHeap := { live := superblock :: h₁.live, given := gd :: some block :: h'.given }
    let h₃ : KernelHeap := { live := gd.toList ++ h₂.live, given := some block :: h'.given }
    have first : h.kmallocUsed = some (ext2Infos, h₁) := kmallocUsed_eq_some.mpr ⟨given, rfl⟩
    have second : h₁.kmallocUsed = some (superblock, h₂) := kmallocUsed_eq_some.mpr ⟨rfl, rfl⟩
    have third : h₂.kmalloc = some (gd, h₃) := kmalloc_eq_some.mpr ⟨rfl, rfl⟩
    have fourth : h₃.kmallocUsed = some (block, h') := kmallocUsed_eq_some.mpr ⟨rfl, live⟩
    have written : ¬ (gd = none ∧ groupsSize drv partitionNumber ≠ 0) :=
      fun ⟨null, size⟩ => size (empty null)
    simp only [ext2Init, first, second, init, third, fourth, Option.bind_eq_bind, Option.bind_some,
      if_neg written, Option.pure_def]

theorem vfsNodeFromPath_eq_some {δ α : Type} {vfs : VfsState α} {fuel : Nat} {c : MountCall δ α}
    {node : Option α}
    : h.vfsNodeFromPath vfs fuel c = some (node, h')
      ↔ Vfs.vfsNodeFromPath vfs.mem vfs.vfsRoot c.kmalloc fuel c.i c.rel c.path = some node
        ∧ ∃ ap, h.given = some ap :: h'.given ∧ h'.live = ap :: h.live := by
  constructor
  · intro ran
    obtain ⟨⟨ap, h₁⟩, first, ran⟩ := Option.bind_eq_some_iff.mp ran
    obtain ⟨node', found, ran⟩ := Option.bind_eq_some_iff.mp ran
    obtain ⟨rfl, rfl⟩ := Prod.mk.inj (Option.some.inj ran)
    exact ⟨found, ap, kmallocUsed_eq_some.mp first⟩
  · rintro ⟨found, ap, used⟩
    rw [vfsNodeFromPath, kmallocUsed_eq_some.mpr used, Option.bind_eq_bind, Option.bind_some]
    dsimp only
    rw [found]
    rfl

end KernelHeap

/-- The virtual file system, the `mtpts` of the drives and the heap. -/
structure DrivesHeap (δ α : Type) extends VfsDrives δ α where
  heap : KernelHeap

namespace DrivesHeap

open VfsState

variable {δ α : Type} [DecidableEq δ] [DecidableEq α]

/-- `vfs_mount_partition`, with its result. `mounting` is what `vfs_mount_ext2` makes of the heap.
-/
def vfsMountPartition (s : DrivesHeap δ α) (disk : δ → Nat → UInt8)
    (mounting : KernelHeap → KernelHeap) (fuel : Nat) (c : MountCall δ α)
    : Option (Nat × DrivesHeap δ α) :=
  if s.mtpts c.drv c.partitionNum ≠ none then
    some (255, s)
  else if (partitionAt (mbrParse (disk c.drv)) c.partitionNum).type ≠ mbrPartTypeLinux then
    some (1, s)
  else do
    let (fs, heap) ← s.heap.ext2Init (disk c.drv) c.partitionNum c.heap
    match fs with
    | none => return (1, { s with heap })
    | some fs =>
        let (mtpt, heap) ← heap.vfsNodeFromPath s.vfs fuel c
        match mtpt with
        | none => return (2, { s with heap })
        | some mtpt =>
            if (s.vfs.node mtpt).childs ≠ none then
              return (3, { s with heap })
            else do
              let (vfs, _) ← s.vfs.vfsMountExt2 fuel fs mtpt c.blocks
              let vfs := vfs.setFile mtpt (fun file => { file with type := vfsMtpt })
              let drives := { s.toVfsDrives with vfs }.setMtpt c.drv c.partitionNum (some mtpt)
              return (0, { drives with heap := mounting heap })

-----------------------------------------------------------------------------------------
-- The property
-----------------------------------------------------------------------------------------

/-- The tree, the mount points and the live blocks are the same. -/
structure Unchanged (s s' : DrivesHeap δ α) : Prop where
  vfs : s'.vfs = s.vfs
  mtpts : s'.mtpts = s.mtpts
  live : s'.heap.live.Perm s.heap.live

/-- A call that returns an error has changed nothing. -/
def UndoesErrors (s : DrivesHeap δ α) (disk : δ → Nat → UInt8)
    (mounting : KernelHeap → KernelHeap) (c : MountCall δ α)
    : Prop :=
  ∀ fuel result s', s.vfsMountPartition disk mounting fuel c = some (result, s') → result ≠ 0
    → Unchanged s s'

/-- The partition can be mounted, there are blocks, and the path leads nowhere or to a node that has
children.
-/
structure FailsLate (s : DrivesHeap δ α) (disk : δ → Nat → UInt8) (c : MountCall δ α) : Prop where
  free : s.mtpts c.drv c.partitionNum = none
  linux : (partitionAt (mbrParse (disk c.drv)) c.partitionNum).type = mbrPartTypeLinux
  init : ∃ fs, ext2Init (disk c.drv) c.partitionNum c.heap = some (some fs)
  given : ∃ ext2Infos superblock gd fs ap rest,
    s.heap.given = some ext2Infos :: some superblock :: gd :: some fs :: some ap :: rest
      ∧ (gd = none → KernelHeap.groupsSize (disk c.drv) c.partitionNum = 0)
  found : ∃ fuel mtpt,
    Vfs.vfsNodeFromPath s.vfs.mem s.vfs.vfsRoot c.kmalloc fuel c.i c.rel c.path = some mtpt
      ∧ ∀ n, mtpt = some n → (s.vfs.node n).childs ≠ none

variable {disk : δ → Nat → UInt8} {mounting : KernelHeap → KernelHeap} {fuel : Nat}
  {s s' : DrivesHeap δ α} {c : MountCall δ α} {result : Nat}

-----------------------------------------------------------------------------------------
-- Failing
-----------------------------------------------------------------------------------------

/-- Without the heap, it is the call of the other drives. -/
theorem vfsMountPartition_drives
    (ran : s.vfsMountPartition disk mounting fuel c = some (result, s'))
    : s.toVfsDrives.vfsMountPartition disk fuel c = some (result, s'.toVfsDrives) := by
  rw [vfsMountPartition] at ran
  rw [VfsDrives.vfsMountPartition]
  split at ran
  · next mounted =>
      obtain ⟨rfl, rfl⟩ := Prod.mk.inj (Option.some.inj ran)
      rw [if_pos mounted]
  next unmounted =>
  rw [if_neg unmounted]
  split at ran
  · next other =>
      obtain ⟨rfl, rfl⟩ := Prod.mk.inj (Option.some.inj ran)
      rw [if_pos other]
  next linux =>
  rw [if_neg linux]
  obtain ⟨⟨fs, heap⟩, init, ran⟩ := Option.bind_eq_some_iff.mp ran
  cases fs with
  | none =>
      obtain ⟨rfl, rfl⟩ := Prod.mk.inj (Option.some.inj ran)
      rw [(KernelHeap.ext2Init_null init).1]
      rfl
  | some fs =>
      obtain ⟨⟨mtpt, heap'⟩, path, ran⟩ := Option.bind_eq_some_iff.mp ran
      obtain ⟨made, -⟩ := KernelHeap.ext2Init_eq_some.mp init
      obtain ⟨found, -⟩ := KernelHeap.vfsNodeFromPath_eq_some.mp path
      simp only [made, found, Option.bind_eq_bind, Option.bind_some]
      cases mtpt with
      | none =>
          obtain ⟨rfl, rfl⟩ := Prod.mk.inj (Option.some.inj ran)
          rfl
      | some n =>
          dsimp only at ran
          dsimp only
          split at ran
          · next full =>
              obtain ⟨rfl, rfl⟩ := Prod.mk.inj (Option.some.inj ran)
              rw [if_pos full]
              rfl
          · next empty =>
              obtain ⟨⟨vfs, rest⟩, mounted, ran⟩ := Option.bind_eq_some_iff.mp ran
              obtain ⟨rfl, rfl⟩ := Prod.mk.inj (Option.some.inj ran)
              rw [if_neg empty, mounted]
              rfl

/-- A call that returns has changed nothing, has succeeded or fails late. -/
theorem vfsMountPartition_cases
    (ran : s.vfsMountPartition disk mounting fuel c = some (result, s'))
    : Unchanged s s' ∨ result = 0 ∨ s.FailsLate disk c := by
  rw [vfsMountPartition] at ran
  split at ran
  · obtain ⟨rfl, rfl⟩ := Prod.mk.inj (Option.some.inj ran)
    exact .inl ⟨rfl, rfl, .refl _⟩
  next unmounted =>
  split at ran
  · obtain ⟨rfl, rfl⟩ := Prod.mk.inj (Option.some.inj ran)
    exact .inl ⟨rfl, rfl, .refl _⟩
  next linux =>
  obtain ⟨⟨fs, heap⟩, init, ran⟩ := Option.bind_eq_some_iff.mp ran
  cases fs with
  | none =>
      obtain ⟨rfl, rfl⟩ := Prod.mk.inj (Option.some.inj ran)
      exact .inl ⟨rfl, rfl, .of_eq (KernelHeap.ext2Init_null init).2⟩
  | some fs =>
      obtain ⟨⟨mtpt, heap'⟩, path, ran⟩ := Option.bind_eq_some_iff.mp ran
      obtain ⟨made, ext2Infos, superblock, gd, block, given, empty, -⟩ :=
        KernelHeap.ext2Init_eq_some.mp init
      obtain ⟨found, ap, given', -⟩ := KernelHeap.vfsNodeFromPath_eq_some.mp path
      rw [given'] at given
      have late (full : ∀ n, mtpt = some n → (s.vfs.node n).childs ≠ none) : s.FailsLate disk c :=
        { free := not_not.mp unmounted
          linux := not_not.mp linux
          init := ⟨fs, made⟩
          given := ⟨ext2Infos, superblock, gd, block, ap, heap'.given, given, empty⟩
          found := ⟨fuel, mtpt, found, full⟩ }
      cases mtpt with
      | none => exact .inr (.inr (late (fun n null => by cases null)))
      | some n =>
          dsimp only at ran
          split at ran
          · next full =>
              refine .inr (.inr (late (fun m same => ?_)))
              obtain rfl := Option.some.inj same
              exact full
          · obtain ⟨⟨vfs, rest⟩, -, ran⟩ := Option.bind_eq_some_iff.mp ran
            obtain ⟨rfl, -⟩ := Prod.mk.inj (Option.some.inj ran)
            exact .inr (.inl rfl)

/-- Failing late leaves at least four blocks behind. -/
theorem FailsLate.leaks (late : s.FailsLate disk c) (mounting : KernelHeap → KernelHeap)
    : ∃ fuel result s', s.vfsMountPartition disk mounting fuel c = some (result, s') ∧ result ≠ 0
      ∧ s.heap.live.length + 4 ≤ s'.heap.live.length := by
  obtain ⟨free, linux, ⟨fs, made⟩, ⟨ext2Infos, superblock, gd, block, ap, rest, given, empty⟩,
    fuel, mtpt, found, full⟩ := late
  let heap : KernelHeap :=
    { live := block :: (gd.toList ++ superblock :: ext2Infos :: s.heap.live)
      given := some ap :: rest }
  let heap' : KernelHeap := { live := ap :: heap.live, given := rest }
  have init : s.heap.ext2Init (disk c.drv) c.partitionNum c.heap = some (some fs, heap) :=
    KernelHeap.ext2Init_eq_some.mpr ⟨made, ext2Infos, superblock, gd, block, given, empty, rfl⟩
  have path : heap.vfsNodeFromPath s.vfs fuel c = some (mtpt, heap') :=
    KernelHeap.vfsNodeFromPath_eq_some.mpr ⟨found, ap, rfl, rfl⟩
  have more : s.heap.live.length + 4 ≤ heap'.live.length := by
    simp only [heap', heap, List.length_cons, List.length_append]
    omega
  have ran : s.vfsMountPartition disk mounting fuel c
      = some (if mtpt = none then 2 else 3, { s with heap := heap' }) := by
    simp only [vfsMountPartition, if_neg (not_not.mpr free), if_neg (not_not.mpr linux), init, path,
      Option.bind_eq_bind, Option.bind_some]
    cases mtpt with
    | none => rfl
    | some n =>
        dsimp only
        rw [if_pos (full n rfl)]
        rfl
  refine ⟨fuel, _, _, ran, ?_, more⟩
  split <;> decide

/-- `vfs_mount_partition` undoes what it has done when it fails exactly if it does not fail after
`ext2_init`. The failures before `ext2_init` allocate nothing. Those behind it return without a
`kfree` of what was allocated.
-/
theorem undoesErrors_iff (disk : δ → Nat → UInt8) (mounting : KernelHeap → KernelHeap)
    (s : DrivesHeap δ α) (c : MountCall δ α)
    : s.UndoesErrors disk mounting c ↔ ¬ s.FailsLate disk c := by
  constructor
  · intro undoes late
    obtain ⟨fuel, result, s', ran, error, more⟩ := late.leaks mounting
    have same := (undoes fuel result s' ran error).live.length_eq
    omega
  · intro early fuel result s' ran error
    rcases vfsMountPartition_cases ran with same | success | late
    · exact same
    · exact absurd success error
    · exact absurd late early

/-- The root alone, with a drive that is not mounted and five blocks to give. -/
def rootDrives : DrivesHeap Unit Nat where
  vfs := rootState
  mtpts _ _ := none
  heap := { live := [], given := [some 16, some 32, some 512, some 1024, some 2048] }

/-- The path `x`, from the root. -/
def mountX : MountCall Unit Nat where
  drv := ()
  partitionNum := 0
  path := [0x78, 0]
  rel := 0
  heap _ := 0
  kmalloc := Vfs.zeros
  i := none
  blocks := { nodes := [], dirs := [] }

/-- Mounting a good partition at `x`, which does not exist, leaves five blocks behind. -/
theorem not_undoesErrors_missing
    : ¬ ∀ (disk : Unit → Nat → UInt8) (mounting : KernelHeap → KernelHeap) (s : DrivesHeap Unit Nat)
        (c : MountCall Unit Nat), c.partitionNum < 4 → s.UndoesErrors disk mounting c := by
  intro claim
  have made : (ext2Init twoDirs 0 (fun _ => 0)).join.isSome := by decide +kernel
  obtain ⟨fs, joined⟩ := Option.isSome_iff_exists.mp made
  have late : rootDrives.FailsLate (fun _ => twoDirs) mountX :=
    { free := rfl
      linux := by decide +kernel
      init := ⟨fs, Option.join_eq_some_iff.mp joined⟩
      given := ⟨16, 32, some 512, 1024, 2048, [], rfl, fun null => by cases null⟩
      found := ⟨5, none, by decide +kernel, fun n null => by cases null⟩ }
  obtain ⟨fuel, result, s', ran, error, more⟩ := late.leaks id
  have same := (claim _ id rootDrives mountX (by decide) fuel result s' ran error).live.length_eq
  omega

end DrivesHeap

end Hydrangea
