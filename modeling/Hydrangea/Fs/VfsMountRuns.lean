import Hydrangea.Fs.VfsPartitions

/-! Runs of `vfs_mount_partition` and `vfs_umount_partition` that keep the mount points apart. -/

namespace Hydrangea.VfsDrives

open Linked LinkedTree Vfs VfsState

variable {δ α : Type} [DecidableEq δ] [DecidableEq α] {disk : δ → Nat → UInt8}
  {s s' : VfsDrives δ α} {kids : α → List α} {n m : α}

-----------------------------------------------------------------------------------------
-- One call
-----------------------------------------------------------------------------------------

omit [DecidableEq α] in
/-- The mount point of a partition after one of them was set. -/
theorem setMtpt_mtpts (s : VfsDrives δ α) (drv drv' : δ) (p p' : Nat) (mtpt : Option α)
    : (s.setMtpt drv p mtpt).mtpts drv' p'
      = if drv' = drv ∧ p' = p then mtpt else s.mtpts drv' p' := by
  rw [setMtpt]
  by_cases same : drv' = drv
  · subst same
    by_cases same' : p' = p
    · subst same'
      simp
    · simp [same']
  · simp [same]

/-- A successful mount at `n`, where `populated` is what `vfs_mount_ext2` makes of the tree. -/
structure Mounts (disk : δ → Nat → UInt8) (s s' : VfsDrives δ α) (c : MountCall δ α) (n : α)
    (populated : VfsState α)
    : Prop where
  here : s.MountsAt disk c n
  made : ∃ fuel fs rest, s.vfs.vfsMountExt2 fuel fs n c.blocks = some (populated, rest)
  vfs : s'.vfs = populated.setFile n (fun file => { file with type := vfsMtpt })
  mtpts : ∀ drv p, s'.mtpts drv p
    = if drv = c.drv ∧ p = c.partitionNum then some n else s.mtpts drv p

/-- A mount fails and changes nothing, or it succeeds. -/
theorem vfsMountPartition_cases {fuel result : Nat} {c : MountCall δ α}
    (ran : s.vfsMountPartition disk fuel c = some (result, s'))
    : (result ≠ 0 ∧ s' = s) ∨ (result = 0 ∧ ∃ n populated, Mounts disk s s' c n populated) := by
  rw [vfsMountPartition] at ran
  split at ran
  · obtain ⟨rfl, rfl⟩ := Prod.mk.inj (Option.some.inj ran)
    exact .inl ⟨by decide, rfl⟩
  next free =>
  split at ran
  · obtain ⟨rfl, rfl⟩ := Prod.mk.inj (Option.some.inj ran)
    exact .inl ⟨by decide, rfl⟩
  next linux =>
  obtain ⟨init, made, ran⟩ := Option.bind_eq_some_iff.mp ran
  cases init with
  | none =>
      obtain ⟨rfl, rfl⟩ := Prod.mk.inj (Option.some.inj ran)
      exact .inl ⟨by decide, rfl⟩
  | some fs =>
      obtain ⟨mtpt, found, ran⟩ := Option.bind_eq_some_iff.mp ran
      cases mtpt with
      | none =>
          obtain ⟨rfl, rfl⟩ := Prod.mk.inj (Option.some.inj ran)
          exact .inl ⟨by decide, rfl⟩
      | some n =>
          dsimp only at ran
          split at ran
          · obtain ⟨rfl, rfl⟩ := Prod.mk.inj (Option.some.inj ran)
            exact .inl ⟨by decide, rfl⟩
          next empty =>
          obtain ⟨⟨populated, rest⟩, mounted, ran⟩ := Option.bind_eq_some_iff.mp ran
          obtain ⟨rfl, rfl⟩ := Prod.mk.inj (Option.some.inj ran)
          refine .inr ⟨rfl, n, populated, ⟨not_not.mp free, not_not.mp linux, ⟨fs, made⟩, ⟨fuel, found⟩,
            not_not.mp empty⟩, ⟨fuel, fs, rest, mounted⟩, rfl, fun drv p => ?_⟩
          exact setMtpt_mtpts _ _ _ _ _ _

/-- An unmount of `n`, where `freed` is what `vfs_free_child_nodes` makes of the tree. -/
structure Umounts (s s' : VfsDrives δ α) (drv : δ) (p : Nat) (n : α) (freed : VfsState α) : Prop where
  here : s.mtpts drv p = some n
  made : ∃ fuel, s.vfs.vfsFreeChildNodes fuel n = some freed
  vfs : s'.vfs = freed.setFile n (fun file => { file with type := vfsDir })
  mtpts : ∀ drv' p', s'.mtpts drv' p' = if drv' = drv ∧ p' = p then none else s.mtpts drv' p'

/-- There is nothing to unmount, or it succeeds. -/
theorem vfsUmountPartition_cases {fuel result : Nat} {drv : δ} {p : Nat}
    (ran : s.vfsUmountPartition fuel drv p = some (result, s'))
    : (s.mtpts drv p = none ∧ s' = s) ∨ ∃ n freed, Umounts s s' drv p n freed := by
  rw [vfsUmountPartition] at ran
  split at ran
  · next none =>
      obtain ⟨-, rfl⟩ := Prod.mk.inj (Option.some.inj ran)
      exact .inl ⟨none, rfl⟩
  · next n mounted =>
      obtain ⟨freed, made, ran⟩ := Option.bind_eq_some_iff.mp ran
      obtain ⟨-, rfl⟩ := Prod.mk.inj (Option.some.inj ran)
      exact .inr ⟨n, freed, mounted, ⟨fuel, made⟩, rfl, fun drv' p' => setMtpt_mtpts _ _ _ _ _ _⟩

-----------------------------------------------------------------------------------------
-- What a call keeps
-----------------------------------------------------------------------------------------

/-- The nodes are a tree, and the mount points are nodes of their own in it. -/
structure Apart (s : VfsDrives δ α) (kids : α → List α) : Prop where
  tree : IsTree s.vfs.links s.vfs.vfsRoot kids
  inside : ∀ drv p n, s.mtpts drv p = some n → s.vfs.Inside kids n
  type : ∀ drv p n, s.mtpts drv p = some n → (s.vfs.node n).file.type = vfsMtpt
  distinct : ∀ drv p drv' p' n, s.mtpts drv p = some n → s.mtpts drv' p' = some n
    → drv' = drv ∧ p' = p

omit [DecidableEq δ] [DecidableEq α] in
theorem Apart.valid (h : s.Apart kids) : s.MountsValid :=
  ⟨fun drv p n mounted => ⟨h.tree.reachable_iff.mpr (h.inside drv p n mounted),
    h.type drv p n mounted⟩, h.distinct⟩

omit [DecidableEq δ] in
/-- The file of a node after one was assigned to. -/
theorem setFile_file (v : VfsState α) (n m : α) (f : VfsFile → VfsFile)
    : ((v.setFile n f).node m).file = if m = n then f (v.node n).file else (v.node m).file := by
  rw [setFile, setNode_node]
  split
  · rfl
  · rfl

omit [DecidableEq δ] in
theorem setFile_name (v : VfsState α) (n m : α) (f : VfsFile → VfsFile)
    : ((v.setFile n f).node m).name = (v.node m).name := by
  rw [setFile, setNode_node]
  split
  · next same => rw [same]
  · rfl

/-- A mount adds nodes below its mount point, which has had no children. -/
theorem Mounts.grows {c : MountCall δ α} {populated : VfsState α}
    (h : Mounts disk s s' c n populated) (tree : IsTree s.vfs.links s.vfs.vfsRoot kids)
    (rel : s.vfs.Inside kids c.rel) (unused : s.vfs.Unused c.blocks.nodes)
    : s.vfs.Inside kids n ∧ kids n = []
      ∧ ∃ kids', Grows s.vfs populated kids kids' n := by
  obtain ⟨fuel, found⟩ := h.here.found
  obtain ⟨fuel', fs, rest, mounted⟩ := h.made
  have inside := inside_of_fromPath tree rel found
  have fresh : Fresh s.vfs kids c.blocks.nodes :=
    ⟨unused.nodup, fun block member there => unused.apart block member (tree.reachable_iff.mpr there)⟩
  obtain ⟨kids', grows, -⟩ := vfsMountExt2_grows tree inside fresh mounted
  have childless := tree.chain n inside
  rw [show s.vfs.links.childs n = none from h.here.empty] at childless
  exact ⟨inside, childless.unique rfl, kids', grows⟩

/-- A mount of a directory keeps the mount points apart. -/
theorem Apart.mount (h : s.Apart kids) {c : MountCall δ α} {populated : VfsState α}
    (mounts : Mounts disk s s' c n populated) (rel : s.vfs.Inside kids c.rel)
    (unused : s.vfs.Unused c.blocks.nodes) (isDir : (s.vfs.node n).file.type = vfsDir)
    : ∃ kids', Grows s.vfs populated kids kids' n ∧ s'.Apart kids' := by
  obtain ⟨inside, -, kids', grows⟩ := mounts.grows h.tree rel unused
  have links : s'.vfs.links = populated.links := by
    rw [mounts.vfs, setFile_links]
  have root : s'.vfs.vfsRoot = populated.vfsRoot := by
    rw [mounts.vfs]
    rfl
  have other {drv : δ} {p : Nat} {m : α} (mounted : s.mtpts drv p = some m) : m ≠ n := by
    rintro rfl
    have type := h.type drv p m mounted
    rw [isDir] at type
    cases type
  have file {m : α} (there : s.vfs.Inside kids m) (ne : m ≠ n)
      : (s'.vfs.node m).file = (s.vfs.node m).file := by
    rw [mounts.vfs, setFile_file, if_neg ne, (grows.kept m there).2]
  have cases' {drv : δ} {p : Nat} {m : α} (mounted : s'.mtpts drv p = some m)
      : (drv = c.drv ∧ p = c.partitionNum ∧ m = n) ∨ s.mtpts drv p = some m := by
    rw [mounts.mtpts] at mounted
    split at mounted
    · next same => exact .inl ⟨same.1, same.2, (Option.some.inj mounted).symm⟩
    · exact .inr mounted
  refine ⟨kids', grows, ?_, fun drv p m mounted => ?_, fun drv p m mounted => ?_,
    fun drv p drv' p' m mounted mounted' => ?_⟩
  · rw [links, root]
    exact grows.tree
  · rw [VfsState.Inside, root]
    rcases cases' mounted with ⟨-, -, rfl⟩ | before
    · exact grows.inside inside
    · exact grows.inside (h.inside drv p m before)
  · rcases cases' mounted with ⟨-, -, rfl⟩ | before
    · rw [mounts.vfs, setFile_file, if_pos rfl]
    · rw [file (h.inside drv p m before) (other before)]
      exact h.type drv p m before
  · rcases cases' mounted with ⟨rfl, rfl, rfl⟩ | before <;>
      rcases cases' mounted' with ⟨rfl, rfl, same⟩ | before'
    · exact ⟨rfl, rfl⟩
    · exact absurd rfl (other before')
    · exact absurd same (other before)
    · exact h.distinct drv p drv' p' m before before'

/-- An unmount keeps the mount points apart if there are none below the one it unmounts. -/
theorem Apart.umount (h : s.Apart kids) {drv : δ} {p : Nat} {freed : VfsState α}
    (umounts : Umounts s s' drv p n freed)
    (alone : ∀ drv' p' n', s.mtpts drv' p' = some n' → Below kids n n' → drv' = drv ∧ p' = p)
    : Freed s.vfs freed (Below kids n) ∧ s'.Apart (dropKids kids n) := by
  obtain ⟨fuel, made⟩ := umounts.made
  have inside := h.inside drv p n umounts.here
  have freed' := vfsFreeChildNodes_freed h.tree inside made
  have links : s'.vfs.links = freed.links := by
    rw [umounts.vfs, setFile_links]
  have root : s'.vfs.vfsRoot = freed.vfsRoot := by
    rw [umounts.vfs]
    rfl
  have before {drv' : δ} {p' : Nat} {m : α} (mounted : s'.mtpts drv' p' = some m)
      : s.mtpts drv' p' = some m ∧ ¬ (drv' = drv ∧ p' = p) := by
    rw [umounts.mtpts] at mounted
    split at mounted
    · cases mounted
    · next other => exact ⟨mounted, other⟩
  refine ⟨freed', ?_, fun drv' p' m mounted => ?_, fun drv' p' m mounted => ?_,
    fun drv' p' drv'' p'' m mounted mounted' => ?_⟩
  · rw [links, root]
    exact freed'.isTree h.tree inside
  · obtain ⟨was, other⟩ := before mounted
    rw [VfsState.Inside, root, freed'.roots.vfsRoot]
    refine h.tree.below_dropKids inside (h.inside drv' p' m was) (.inl (fun under => ?_))
    exact other (alone drv' p' m was under)
  · obtain ⟨was, other⟩ := before mounted
    have ne : m ≠ n := by
      rintro rfl
      exact other (alone drv' p' m was .refl)
    obtain ⟨childs, entry⟩ := freed'.entry m
    rw [umounts.vfs, setFile_file, if_neg ne, entry]
    exact h.type drv' p' m was
  · exact h.distinct drv' p' drv'' p'' m (before mounted).1 (before mounted').1

/-- A step that keeps mount points apart does so. -/
theorem Apart.step (h : s.Apart kids) {event : MountEvent δ α} (meets : s.MountsApart disk event)
    (taken : MountStep disk s event s')
    : ∃ kids', s'.Apart kids' := by
  cases event with
  | mount c result =>
      obtain ⟨-, rel, unused, fuel, ran⟩ := taken
      rcases vfsMountPartition_cases ran with ⟨-, rfl⟩ | ⟨-, n, populated, mounts⟩
      · exact ⟨kids, h⟩
      · obtain ⟨kids', -, apart⟩ :=
          h.mount mounts (h.tree.reachable_iff.mp rel) unused (meets n mounts.here)
        exact ⟨kids', apart⟩
  | umount drv p result =>
      obtain ⟨-, fuel, ran⟩ := taken
      rcases vfsUmountPartition_cases ran with ⟨-, rfl⟩ | ⟨n, freed, umounts⟩
      · exact ⟨kids, h⟩
      · have alone (drv' : δ) (p' : Nat) (n' : α) (mounted : s.mtpts drv' p' = some n')
            (under : Below kids n n')
            : drv' = drv ∧ p' = p :=
          meets n drv' p' n' umounts.here mounted ⟨kids, h.tree, under⟩
        exact ⟨_, (h.umount umounts alone).2⟩

/-- So does every run of such steps. -/
theorem apart_reachable
    (reached : ((mountSystem disk).restrict (MountsApart disk)).Reachable s)
    : ∃ kids, s.Apart kids := by
  have start (s : VfsDrives δ α)
      (initial : ((mountSystem disk).restrict (MountsApart disk)).init s)
      : ∃ kids, s.Apart kids := by
    obtain ⟨⟨kids, tree⟩, none⟩ := initial
    have absurd' {drv : δ} {p : Nat} {n : α} (mounted : s.mtpts drv p = some n) : False := by
      rw [none drv p] at mounted
      cases mounted
    exact ⟨kids, tree, fun _ _ _ mounted => (absurd' mounted).elim,
      fun _ _ _ mounted => (absurd' mounted).elim, fun _ _ _ _ _ mounted => (absurd' mounted).elim⟩
  have next (s : VfsDrives δ α) (event : MountEvent δ α) (s' : VfsDrives δ α)
      (apart : ∃ kids, s.Apart kids)
      (taken : ((mountSystem disk).restrict (MountsApart disk)).step s event s')
      : ∃ kids, s'.Apart kids := by
    obtain ⟨kids, apart⟩ := apart
    exact apart.step taken.1 taken.2
  exact reached.invariant start next

-----------------------------------------------------------------------------------------
-- An unmount behind a mount
-----------------------------------------------------------------------------------------

omit [DecidableEq α] in
/-- The children of a node, read off its links. -/
theorem chain_iff {v : VfsState α} (tree : IsTree v.links v.vfsRoot kids) (inside : v.Inside kids m)
    (xs : List α)
    : Chain (fun m => (v.node m).next) (v.node m).childs xs ↔ xs = kids m := by
  have chain : Chain (fun m => (v.node m).next) (v.node m).childs (kids m) := tree.chain m inside
  constructor
  · intro chain'
    exact chain'.unique chain
  · rintro rfl
    exact chain

/-- The unmount of the partition that was mounted last leaves the tree as it was before the mount.
-/
theorem Apart.restores {s₁ : VfsDrives δ α} (h : s.Apart kids) {c : MountCall δ α} {n' : α}
    {populated freed : VfsState α} (mounts : Mounts disk s s₁ c n populated)
    (umounts : Umounts s₁ s' c.drv c.partitionNum n' freed) (rel : s.vfs.Inside kids c.rel)
    (unused : s.vfs.Unused c.blocks.nodes) (isDir : (s.vfs.node n).file.type = vfsDir)
    : SameTree s.vfs s'.vfs := by
  obtain ⟨inside, childless, -⟩ := mounts.grows h.tree rel unused
  obtain ⟨kids', grows, apart⟩ := h.mount mounts rel unused isDir
  have mounted : s₁.mtpts c.drv c.partitionNum = some n := by
    rw [mounts.mtpts, if_pos ⟨rfl, rfl⟩]
  obtain rfl : n' = n := Option.some.inj (umounts.here.symm.trans mounted)
  obtain ⟨fuel, made⟩ := umounts.made
  have here := apart.inside _ _ _ mounted
  have freed' := vfsFreeChildNodes_freed apart.tree here made
  have root : s₁.vfs.vfsRoot = s.vfs.vfsRoot := by
    rw [mounts.vfs]
    exact grows.roots.vfsRoot
  have root' : s'.vfs.vfsRoot = s.vfs.vfsRoot := by
    rw [umounts.vfs]
    exact freed'.roots.vfsRoot.trans root
  have tree : IsTree s'.vfs.links s'.vfs.vfsRoot (dropKids kids' n') := by
    rw [umounts.vfs, setFile_links]
    exact freed'.isTree apart.tree here
  have wasBelow {m : α} (there : s.vfs.Inside kids m) (under : Below kids' n' m) : m = n' :=
    (grows.below_old inside there under).of_nil childless
  -- what is left are the nodes that there were before the mount
  have nodes (m : α) : s'.vfs.Inside (dropKids kids' n') m ↔ s.vfs.Inside kids m := by
    rw [VfsState.Inside, root']
    constructor
    · intro left
      have there : populated.Inside kids' m := by
        rw [VfsState.Inside, grows.roots.vfsRoot]
        exact left.of_dropKids
      rcases grows.new m there with before | under
      · exact before
      · rw [← root] at left
        rw [apart.tree.outside_of_dropKids here left under]
        exact inside
    · intro there
      rw [← root]
      have there' : s₁.vfs.Inside kids' m := by
        rw [VfsState.Inside, root, ← grows.roots.vfsRoot]
        exact grows.inside there
      refine apart.tree.below_dropKids here there' ?_
      by_cases under : Below kids' n' m
      · exact .inr (wasBelow there under)
      · exact .inl under
  have entry (m : α) (there : s.vfs.Inside kids m)
      : (s'.vfs.node m).name = (s.vfs.node m).name
        ∧ (s'.vfs.node m).file = (s.vfs.node m).file := by
    obtain ⟨childs, entry⟩ := freed'.entry m
    obtain ⟨name, file⟩ := grows.kept m there
    constructor
    · rw [umounts.vfs, setFile_name, entry, mounts.vfs, setFile_name, name]
    · rw [umounts.vfs, setFile_file]
      split
      · next same =>
          obtain ⟨childs', entry'⟩ := freed'.entry n'
          obtain ⟨-, file'⟩ := grows.kept n' inside
          rw [same, entry', mounts.vfs, setFile_file, if_pos rfl, file', ← isDir]
      · next other => rw [entry, mounts.vfs, setFile_file, if_neg other, file]
  refine ⟨fun m => ?_, fun m there => ?_, fun m there => ?_, fun m there xs => ?_⟩
  · exact tree.reachable_iff.trans ((nodes m).trans h.tree.reachable_iff.symm)
  · exact (entry m (h.tree.reachable_iff.mp there)).1
  · exact (entry m (h.tree.reachable_iff.mp there)).2
  · have inside' := h.tree.reachable_iff.mp there
    rw [chain_iff h.tree inside', chain_iff tree ((nodes m).mpr inside'), dropKids]
    split
    · next same => rw [same, childless]
    · next other => rw [grows.others m inside' other]

/-- In every run of calls that keep the mount points apart they are nodes of their own in the tree,
and an unmount right behind the mount of the same partition leaves the tree as it was before the
mount. The invariant has the tree with the mounted nodes in it, none below another one. The unmount
finds the node of the mount, whose children are then those that the mount added.
-/
theorem run_mountsValid {steps : List (VfsDrives δ α × MountEvent δ α)}
    (run : (mountSystem disk).Run s steps)
    (apart : ∀ taken ∈ steps, taken.1.MountsApart disk taken.2)
    : s.MountsValid ∧ s.UmountRestores steps := by
  obtain ⟨kids, now⟩ := apart_reachable (run.restrict apart)
  refine ⟨now.valid, ?_⟩
  rintro s₁ s₀ c result earlier rfl
  cases run with
  | next before umount =>
      cases before with
      | next earlier mount =>
          have meets := apart (s₀, .mount c 0) (by simp)
          obtain ⟨kids, h⟩ := apart_reachable
            (earlier.restrict (fun taken member => apart taken (by simp [member])))
          obtain ⟨-, rel, unused, fuel, ran⟩ := mount
          obtain ⟨-, fuel', ran'⟩ := umount
          have inside := h.tree.reachable_iff.mp rel
          rcases vfsMountPartition_cases ran with ⟨failed, -⟩ | ⟨-, n, populated, mounts⟩
          · exact absurd rfl failed
          rcases vfsUmountPartition_cases ran' with ⟨none, -⟩ | ⟨n', freed, umounts⟩
          · rw [mounts.mtpts, if_pos ⟨rfl, rfl⟩] at none
            cases none
          · exact h.restores mounts umounts inside unused (meets n mounts.here)

section Examples

def twoPartitions (a : Nat) : UInt8 :=
  if a = 466 then 0x83
  else if a = 471 then 8
  else twoDirs a

/-- The root alone, which is a directory, and no partition that is mounted. -/
def bareDrives : VfsDrives Unit Nat where
  vfs := rootState.setFile 0 (fun file => { file with type := vfsDir })
  mtpts _ _ := none

def mountAt (partitionNum : Nat) (path : List UInt8) (nodes : List Nat) : MountCall Unit Nat where
  drv := ()
  partitionNum
  path
  rel := 0
  heap _ := 0
  kmalloc := zeros
  i := none
  blocks := { nodes := nodes.map zeroBlock, dirs := [Ext2Fs.junkDir 0, Ext2Fs.junkDir 0] }

/-- Mounting the first partition at `/`. -/
def mountRoot : MountCall Unit Nat :=
  mountAt 0 [slash, 0] [1]

theorem isTree_bareDrives : IsTree bareDrives.vfs.links bareDrives.vfs.vfsRoot (fun _ => []) := by
  rw [bareDrives, setFile_links]
  exact isTree_rootState

theorem init_bareDrives (disk : Unit → Nat → UInt8) : (mountSystem disk).init bareDrives :=
  ⟨⟨_, isTree_bareDrives⟩, fun _ _ => rfl⟩

def Only (v : VfsState Nat) (xs : List Nat) : Prop :=
  v.vfsRoot ∈ xs
    ∧ ∀ n ∈ xs, (∀ c ∈ (v.node n).childs, c ∈ xs) ∧ ∀ c ∈ (v.node n).next, c ∈ xs

instance (v : VfsState Nat) (xs : List Nat) : Decidable (Only v xs) :=
  inferInstanceAs (Decidable (_ ∧ _))

/-- What is reached is one of them, by induction on the way. -/
theorem Only.mem {v : VfsState Nat} {xs : List Nat} {n : Nat} (h : Only v xs) (reached : v.Node n)
    : n ∈ xs := by
  induction reached with
  | root => exact h.1
  | child _ link ih => exact (h.2 _ ih).1 _ link
  | sibling _ link ih => exact (h.2 _ ih).2 _ link

/-- A block with another number is not used. -/
theorem Only.unused {v : VfsState Nat} {xs : List Nat} {n : Nat} (h : Only v xs) (other : n ∉ xs)
    : v.Unused [zeroBlock n] := by
  refine ⟨List.nodup_singleton _, fun block member reached => ?_⟩
  obtain rfl := List.mem_singleton.mp member
  exact other (h.mem reached)

/-- One block for a mount from the root, which is not used. -/
theorem Only.mountStep {disk : Unit → Nat → UInt8} {s s' : VfsDrives Unit Nat} {xs : List Nat}
    {p n fuel result : Nat} {path : List UInt8} (h : Only s.vfs xs) (small : p < 4)
    (root : s.vfs.vfsRoot = 0) (other : n ∉ xs)
    (ran : s.vfsMountPartition disk fuel (mountAt p path [n]) = some (result, s'))
    : MountStep disk s (.mount (mountAt p path [n]) result) s' := by
  refine ⟨small, ?_, h.unused other, fuel, ran⟩
  rw [show (mountAt p path [n]).rel = s.vfs.vfsRoot from root.symm]
  exact .root

/-- The nodes of the tree with the root alone. -/
theorem only_bareDrives : Only bareDrives.vfs [0] := by
  decide

/-- Mounting a partition at the root and unmounting it again leaves the tree as it was. -/
theorem run_mountsValid_root
    : ∃ (s₀ s : VfsDrives Unit Nat) (result : Nat),
        (mountSystem (fun _ => twoPartitions)).Run s
          [(s₀, .umount () 0 result), (bareDrives, .mount mountRoot 0)]
        ∧ s.MountsValid ∧ SameTree bareDrives.vfs s.vfs := by
  have mounted : ∃ r ∈ bareDrives.vfsMountPartition (fun _ => twoPartitions) 30 mountRoot, r.1 = 0 := by
    decide +kernel
  obtain ⟨⟨result, s₀⟩, ran, rfl⟩ := mounted
  have mount := only_bareDrives.mountStep (by decide) rfl (by decide) ran
  have single {n : Nat} (inside : bareDrives.vfs.Inside (fun _ => []) n) : n = 0 :=
    Below.of_nil inside rfl
  have isDir (n : Nat) (here : bareDrives.MountsAt (fun _ => twoPartitions) mountRoot n)
      : (bareDrives.vfs.node n).file.type = vfsDir := by
    obtain ⟨fuel, found⟩ := here.found
    rw [single (inside_of_fromPath isTree_bareDrives .refl found)]
    rfl
  rcases vfsMountPartition_cases ran with ⟨failed, -⟩ | ⟨-, n, populated, mounts⟩
  · exact absurd rfl failed
  have bare : bareDrives.Apart (fun _ => []) :=
    ⟨isTree_bareDrives, fun _ _ _ none => (nomatch none), fun _ _ _ none => (nomatch none),
      fun _ _ _ _ _ none => (nomatch none)⟩
  obtain ⟨kids, -, apart⟩ :=
    bare.mount mounts .refl (only_bareDrives.unused (by decide)) (isDir n mounts.here)
  have first : s₀.mtpts () 0 = some n := by
    rw [mounts.mtpts, if_pos ⟨rfl, rfl⟩]
  obtain ⟨fuel, v, freed⟩ := vfsFreeChildNodes_returns apart.tree (apart.inside _ _ _ first)
  have umounted : s₀.vfsUmountPartition fuel () 0
      = some (0, { s₀ with vfs := v.setFile n (fun file => { file with type := vfsDir }) }.setMtpt
          () 0 none) := by
    simp only [vfsUmountPartition, first, freed fuel le_rfl, Option.bind_eq_bind, Option.bind_some]
    rfl
  have only (p : Nat) (m : Nat) (mounted : s₀.mtpts () p = some m) : p = 0 := by
    rw [mounts.mtpts] at mounted
    split at mounted
    · next same => exact same.2
    · cases mounted
  have run : (mountSystem (fun _ => twoPartitions)).Run _
      [(s₀, .umount () 0 0), (bareDrives, .mount mountRoot 0)] :=
    .next (.next (.start (init_bareDrives _)) mount) ⟨by decide, fuel, umounted⟩
  have meets : ∀ taken ∈ [(s₀, MountEvent.umount () 0 0), (bareDrives, .mount mountRoot 0)],
      taken.1.MountsApart (fun _ => twoPartitions) taken.2 := by
    intro taken member
    rcases List.mem_pair.mp member with rfl | rfl
    · exact fun _ _ p m _ mounted _ => ⟨rfl, only p m mounted⟩
    · exact isDir
  obtain ⟨valid, restores⟩ := run_mountsValid run meets
  exact ⟨s₀, _, 0, run, valid, restores s₀ bareDrives mountRoot 0 [] rfl⟩

/-- Unmounting a partition in which another one is mounted leaves the mount point of that one,
which is freed, in `mtpts`.
-/
theorem not_mountsValid_nested
    : ¬ ∀ (disk : Unit → Nat → UInt8) (s : VfsDrives Unit Nat)
        (steps : List (VfsDrives Unit Nat × MountEvent Unit Nat)),
        (mountSystem disk).Run s steps → s.MountsValid ∧ s.UmountRestores steps := by
  intro claim
  have scene : ∃ r₁ ∈ bareDrives.vfsMountPartition (fun _ => twoPartitions) 30 mountRoot,
      (Only r₁.2.vfs [0, 1] ∧ r₁.2.vfs.vfsRoot = 0)
        ∧ ∃ r₂ ∈ r₁.2.vfsMountPartition (fun _ => twoPartitions) 30 (mountAt 1 [slash, 0x64, 0] [2]),
            ∃ r₃ ∈ r₂.2.vfsUmountPartition 30 () 0,
              Only r₃.2.vfs [0] ∧ r₃.2.mtpts () 1 = some 1 := by
    decide +kernel
  obtain ⟨⟨result₁, s₁⟩, ran₁, ⟨only₁, root₁⟩, ⟨result₂, s₂⟩, ran₂, ⟨result₃, s₃⟩, ran₃, only₃,
    mounted⟩ := scene
  have run : (mountSystem (fun _ => twoPartitions)).Run s₃
      [(s₂, .umount () 0 result₃), (s₁, .mount (mountAt 1 [slash, 0x64, 0] [2]) result₂),
        (bareDrives, .mount mountRoot result₁)] := by
    refine .next (.next (.next (.start (init_bareDrives _)) ?_) ?_) ⟨by decide, 30, ran₃⟩
    · exact only_bareDrives.mountStep (by decide) rfl (by decide) ran₁
    · exact only₁.mountStep (by decide) root₁ (by decide) ran₂
  have freed : 1 ∈ [0] := only₃.mem ((claim _ _ _ run).1.node () 1 1 mounted).1
  exact absurd freed (by decide)

end Examples

end Hydrangea.VfsDrives
