import Hydrangea.Fs.Ext2Init
import Hydrangea.Fs.VfsTrees

/-! `vfs_mount_ext2` of `kernel/fs/vfs.c`, which makes nodes of the entries of an ext2 file system.
`none` is a call that does not return: an access through null or behind the end of a buffer, or too
little fuel or too few blocks for `kmalloc` to give.
-/

namespace Hydrangea

/-- The blocks that `kmalloc` gives for nodes and for directories. -/
structure MountBlocks (α : Type) where
  nodes : List (NodeBlock α)
  dirs : List Ext2Dir

namespace VfsState

open Linked LinkedTree Vfs

def vfsSymlnk : Nat := 4

def vfsPipe : Nat := 5

def vfsSocket : Nat := 7

def ext2TypeTranslate : (type : Nat) → Nat
  | 2 => vfsDir
  | 3 => vfsCdev
  | 4 => vfsBdev
  | 5 => vfsPipe
  | 6 => vfsSocket
  | 7 => vfsSymlnk
  | _ => vfsFile

/-- `ext2_opendir` of a directory that `ext2_readdir` is called with next, which reads through the
pointer.
-/
def openForReading (fs : Ext2Fs) (inodeNumber : Nat) : List Ext2Dir → Option (Ext2Dir × List Ext2Dir)
  | [] => none
  | block :: dirs =>
      match fs.opendir inodeNumber block with
      | some (some dir) => some (dir, dirs)
      | _ => none

variable {α : Type} [DecidableEq α]

/-- `vfs_add_child` for an entry, and the assignments to the file of the new node. -/
def addEntry (fuel : Nat) (s : VfsState α) (root : α) (entry : Dirent) (nodes : List (NodeBlock α))
    : Option (α × VfsState α × List (NodeBlock α)) := do
  let (n, s, nodes) ← s.addNext fuel root entry.name (ext2TypeTranslate entry.type) nodes
  let s := s.setFile n (fun file =>
    { file with
      permissions := entry.permissions
      inode := entry.inodeNumber
      size := entry.size })
  return (n, s, nodes)

/-- The part of `vfs_ext2_populate` that populates a sub-directory, with that function. -/
def populateSub (populate : VfsState α → α → Ext2Dir → MountBlocks α
      → Option (VfsState α × MountBlocks α))
    (fs : Ext2Fs) (s : VfsState α) (n : α) (entry : Dirent) (blocks : MountBlocks α)
    : Option (VfsState α × MountBlocks α) :=
  if ext2TypeTranslate entry.type = vfsDir then do
    let (dir, dirs) ← openForReading fs entry.inodeNumber blocks.dirs
    populate s n dir { blocks with dirs }
  else
    some (s, blocks)

def vfsExt2Populate (fs : Ext2Fs) : (fuel : Nat) → VfsState α → (root : α) → (dir : Ext2Dir)
    → MountBlocks α → Option (VfsState α × MountBlocks α)
  | 0, _, _, _, _ => none
  | fuel + 1, s, root, dir, blocks => do
      let (entry, dir) ← fs.readdir fuel dir
      match entry with
      | none => some (s, blocks)
      | some entry => do
          let isDot ← strcmp [dot, 0] entry.name
          let isDotDot ← strcmp [dot, dot, 0] entry.name
          if isDot = 0 ∨ isDotDot = 0 then
            vfsExt2Populate fs fuel s root dir blocks
          else do
            let (n, s, nodes) ← s.addEntry fuel root entry blocks.nodes
            let (s, blocks) ←
              populateSub (vfsExt2Populate fs fuel) fs s n entry { blocks with nodes }
            vfsExt2Populate fs fuel s root dir blocks

/-- `vfs_mount_ext2`, which always returns 0. -/
def vfsMountExt2 (fuel : Nat) (s : VfsState α) (fs : Ext2Fs) (mtpt : α) (blocks : MountBlocks α)
    : Option (VfsState α × MountBlocks α) := do
  let (dir, dirs) ← openForReading fs 2 blocks.dirs
  vfsExt2Populate fs fuel s mtpt dir { blocks with dirs }

-----------------------------------------------------------------------------------------
-- What grows
-----------------------------------------------------------------------------------------

/-- New nodes have been added below a node, and nothing else has happened to the tree. -/
structure Grows (s s' : VfsState α) (kids kids' : α → List α) (p : α) : Prop where
  tree : IsTree s'.links s'.vfsRoot kids'
  roots : SameRoots s s'
  kept : KeepsNodes s s' kids
  others : ∀ n, s.Inside kids n → n ≠ p → kids' n = kids n
  first : kids p <+: kids' p
  new : ∀ n, s'.Inside kids' n → s.Inside kids n ∨ Below kids' p n

variable {s s' s'' : VfsState α} {kids kids' kids'' : α → List α} {n p q c : α}

omit [DecidableEq α] in
theorem Grows.refl (tree : IsTree s.links s.vfsRoot kids) (p : α) : Grows s s kids kids p :=
  ⟨tree, ⟨rfl, rfl, rfl⟩, fun _ _ => ⟨rfl, rfl⟩, fun _ _ _ => rfl, List.prefix_rfl,
    fun _ inside => .inl inside⟩

omit [DecidableEq α] in
/-- The children of a node stay its children. -/
theorem Grows.mem (h : Grows s s' kids kids' p) (inside : s.Inside kids n) (member : c ∈ kids n)
    : c ∈ kids' n := by
  by_cases same : n = p
  · subst same
    exact h.first.subset member
  · rwa [h.others n inside same]

omit [DecidableEq α] in
/-- What was below a node stays below it, by induction on the way down. -/
theorem Grows.below (h : Grows s s' kids kids' p) (inside : s.Inside kids q) (below : Below kids q n)
    : Below kids' q n := by
  induction below with
  | refl => exact .refl
  | tail under member ih => exact ih.child (h.mem (inside.trans under) member)

omit [DecidableEq α] in
/-- The nodes of the tree stay in it. -/
theorem Grows.inside (h : Grows s s' kids kids' p) (inside : s.Inside kids n)
    : s'.Inside kids' n := by
  rw [Inside, h.roots.vfsRoot]
  exact h.below .refl inside

omit [DecidableEq α] in
/-- A node that was in the tree and is below the node now was below it before, by induction on the
way down from the root.
-/
theorem Grows.below_old (h : Grows s s' kids kids' p) (here : s.Inside kids p)
    (inside : s.Inside kids n) (below : Below kids' p n)
    : Below kids p n := by
  induction inside with
  | refl =>
      rcases below.last with same | ⟨m, under, member⟩
      · rw [same]
        exact .refl
      · have root := h.tree.notRoot m ((h.inside here).trans under)
        rw [h.roots.vfsRoot] at root
        exact absurd member root
  | @tail b n above member ih =>
      rcases below.last with same | ⟨m, under, member'⟩
      · rw [same]
        exact .refl
      · have parent := h.tree.parent_unique (h.inside above) ((h.inside here).trans under)
          (h.mem above member) member'
        subst parent
        exact (ih under).child member

omit [DecidableEq α] in
/-- First one node has grown, and then the same one or one of the new nodes below it. -/
theorem Grows.trans (h : Grows s s' kids kids' p) (h' : Grows s' s'' kids' kids'' q)
    (here : s.Inside kids p)
    (place : q = p ∨ ¬ s.Inside kids q ∧ Below kids' p q)
    : Grows s s'' kids kids'' p := by
  have under : Below kids' p q := by
    rcases place with rfl | ⟨-, under⟩
    · exact .refl
    · exact under
  have old {m : α} (inside : s.Inside kids m) (other : m ≠ p) : m ≠ q := by
    rcases place with rfl | ⟨outside, -⟩
    · exact other
    · rintro rfl
      exact outside inside
  refine ⟨h'.tree, h.roots.trans h'.roots, fun m inside => ?_, fun m inside other => ?_, ?_,
    fun m inside => ?_⟩
  · obtain ⟨name, file⟩ := h.kept m inside
    obtain ⟨name', file'⟩ := h'.kept m (h.inside inside)
    exact ⟨name'.trans name, file'.trans file⟩
  · rw [h'.others m (h.inside inside) (old inside other), h.others m inside other]
  · refine h.first.trans ?_
    by_cases same : p = q
    · subst same
      exact h'.first
    · rw [h'.others p (h.inside here) same]
  · rcases h'.new m inside with before | below
    · rcases h.new m before with first | below
      · exact .inl first
      · exact .inr (h'.below (h.inside here) below)
    · exact .inr ((h'.below (h.inside here) under).trans below)

/-- A node is added below another one. -/
theorem Adds.grows {block : NodeBlock α} {name : List UInt8} {type : Nat}
    (adds : Adds s s' kids p block name type) (here : s.Inside kids p)
    (fresh : ¬ s.Inside kids block.addr)
    : Grows s s' kids (addKid kids p block.addr) p := by
  have ne : p ≠ block.addr := fun same => fresh (same ▸ here)
  refine ⟨?_, adds.roots, adds.kept, fun n inside other => ?_, ?_, fun n inside => ?_⟩
  · rw [adds.roots.vfsRoot]
    exact adds.tree
  · have notNew : n ≠ block.addr := fun same => fresh (same ▸ inside)
    rw [addKid, if_neg notNew, if_neg other]
  · rw [addKid, if_neg ne, if_pos rfl]
    exact List.prefix_append _ _
  · rw [Inside, adds.roots.vfsRoot, below_addKid_iff here fresh] at inside
    rcases inside with old | rfl
    · exact .inl old
    · refine .inr (below_of_mem ?_)
      rw [addKid, if_neg ne, if_pos rfl]
      exact List.mem_append_right _ (List.mem_singleton_self _)

/-- The file of a new node is assigned to. -/
theorem Grows.setFile (h : Grows s s' kids kids' p) (new : ¬ s.Inside kids c)
    (f : VfsFile → VfsFile)
    : Grows s (s'.setFile c f) kids kids' p := by
  have links := setFile_links s' c f
  refine ⟨?_, ⟨h.roots.vfsRoot, h.roots.tmpfsRoot, h.roots.devfsRoot⟩, fun n inside => ?_, h.others,
    h.first, h.new⟩
  · rw [links]
    exact h.tree
  · have other : n ≠ c := fun same => new (same ▸ inside)
    rw [VfsState.setFile, setNode_node, if_neg other]
    exact h.kept n inside

theorem addEntry_grows (tree : IsTree s.links s.vfsRoot kids) (here : s.Inside kids p)
    {nodes rest : List (NodeBlock α)} (fresh : Fresh s kids nodes) {fuel : Nat} {entry : Dirent}
    (added : s.addEntry fuel p entry nodes = some (c, s', rest))
    : ¬ s.Inside kids c ∧ Grows s s' kids (addKid kids p c) p
        ∧ s'.Inside (addKid kids p c) c ∧ Below (addKid kids p c) p c
        ∧ Fresh s' (addKid kids p c) rest := by
  obtain ⟨⟨n, s₁, nodes₁⟩, called, result⟩ := Option.bind_eq_some_iff.mp added
  obtain ⟨rfl, states⟩ := Prod.mk.inj (Option.some.inj result)
  obtain ⟨rfl, rfl⟩ := Prod.mk.inj states
  obtain ⟨block, rfl, rfl, adds⟩ := addNext_adds tree here fresh called
  have apart := fresh.apart block (List.mem_cons_self ..)
  have ne : p ≠ block.addr := fun same => apart (same ▸ here)
  have member : block.addr ∈ addKid kids p block.addr p := by
    rw [addKid, if_neg ne, if_pos rfl]
    exact List.mem_append_right _ (List.mem_singleton_self _)
  have grows := (adds.grows here apart).setFile apart (fun file =>
    { file with
      permissions := entry.permissions
      inode := entry.inodeNumber
      size := entry.size })
  refine ⟨apart, grows, (grows.inside here).child member, below_of_mem member, ?_⟩
  obtain ⟨nodup, others⟩ := fresh.adds here adds.roots
  exact ⟨nodup, others⟩

/-- Populating a node adds nodes below it, by induction on the fuel. -/
theorem vfsExt2Populate_grows {fs : Ext2Fs} {fuel : Nat} {dir : Ext2Dir}
    {blocks rest : MountBlocks α} (tree : IsTree s.links s.vfsRoot kids) (here : s.Inside kids p)
    (fresh : Fresh s kids blocks.nodes)
    (populated : vfsExt2Populate fs fuel s p dir blocks = some (s', rest))
    : ∃ kids', Grows s s' kids kids' p ∧ Fresh s' kids' rest.nodes := by
  induction fuel generalizing s s' kids p dir blocks rest with
  | zero => cases populated
  | succ fuel ih =>
      obtain ⟨⟨entry, dir'⟩, -, populated⟩ := Option.bind_eq_some_iff.mp populated
      cases entry with
      | none =>
          obtain ⟨rfl, rfl⟩ := Prod.mk.inj (Option.some.inj populated)
          exact ⟨kids, Grows.refl tree p, fresh⟩
      | some entry =>
          obtain ⟨isDot, -, populated⟩ := Option.bind_eq_some_iff.mp populated
          obtain ⟨isDotDot, -, populated⟩ := Option.bind_eq_some_iff.mp populated
          split at populated
          · exact ih tree here fresh populated
          obtain ⟨⟨c, s₁, nodes⟩, added, populated⟩ := Option.bind_eq_some_iff.mp populated
          obtain ⟨⟨s₂, blocks₂⟩, inner, populated⟩ := Option.bind_eq_some_iff.mp populated
          obtain ⟨new, grows₁, here₁, below₁, fresh₁⟩ := addEntry_grows tree here fresh added
          have sub : ∃ kids₂, Grows s₁ s₂ (addKid kids p c) kids₂ c ∧ Fresh s₂ kids₂ blocks₂.nodes := by
            rw [populateSub] at inner
            split at inner
            · obtain ⟨⟨dir₁, dirs⟩, -, inner⟩ := Option.bind_eq_some_iff.mp inner
              have kept : Fresh s₁ (addKid kids p c) (MountBlocks.mk nodes dirs).nodes := fresh₁
              exact ih grows₁.tree here₁ kept inner
            · obtain ⟨rfl, rfl⟩ := Prod.mk.inj (Option.some.inj inner)
              exact ⟨_, Grows.refl grows₁.tree c, fresh₁⟩
          obtain ⟨kids₂, grows₂, fresh₂⟩ := sub
          have before := grows₁.trans grows₂ here (.inr ⟨new, below₁⟩)
          obtain ⟨kids', grows', fresh'⟩ := ih before.tree (before.inside here) fresh₂ populated
          exact ⟨kids', before.trans grows' here (.inl rfl), fresh'⟩

/-- Mounting adds nodes below the mount point. -/
theorem vfsMountExt2_grows {fs : Ext2Fs} {fuel : Nat} {blocks rest : MountBlocks α}
    (tree : IsTree s.links s.vfsRoot kids) (here : s.Inside kids p)
    (fresh : Fresh s kids blocks.nodes)
    (mounted : s.vfsMountExt2 fuel fs p blocks = some (s', rest))
    : ∃ kids', Grows s s' kids kids' p ∧ Fresh s' kids' rest.nodes := by
  obtain ⟨⟨dir, dirs⟩, -, mounted⟩ := Option.bind_eq_some_iff.mp mounted
  have kept : Fresh s kids (MountBlocks.mk blocks.nodes dirs).nodes := fresh
  exact vfsExt2Populate_grows tree here kept mounted

end VfsState

end Hydrangea
