import Hydrangea.Fs.VfsAbsPaths
import Hydrangea.Lib.Transition

/-! Whole runs of the functions that create nodes of the virtual file system. -/

namespace Hydrangea.VfsState

open Linked LinkedTree Vfs

variable {α : Type} [DecidableEq α]

-----------------------------------------------------------------------------------------
-- The system
-----------------------------------------------------------------------------------------

/-- The calls that create nodes, with what the buffers of `kmalloc` for their copies of paths and
the static `i` of `strtok` hold, and the calls that set `tmpfs_root` and `devfs_root`.
-/
inductive Call (α : Type) where
  | addChild (parent : α) (name : List UInt8) (type : Nat)
  | makeNode (kmalloc : Buffer256) (i : Option Nat) (root : α) (path : List UInt8)
      (type inode : Nat)
  | tmpfsInit (kmalloc : Buffer256) (i : Option Nat) (path : List UInt8)
  | devfsInit (kmalloc : Buffer256) (i : Option Nat) (path : List UInt8)
  | tmpfsCreate (kmalloc : Buffer256) (i : Option Nat) (before : UInt8) (path : List UInt8)
      (type : Nat)
  | devfsRegisterDev (name : List UInt8) (type deviceSpecific : Nat)

/-- Make a call: the state after it, and the blocks that `kmalloc` still has to give. -/
def call (fuel : Nat) (s : VfsState α) (blocks : List (NodeBlock α))
    : Call α → Option (VfsState α × List (NodeBlock α))
  | .addChild parent name type => (s.addNext fuel parent name type blocks).map Prod.snd
  | .makeNode kmalloc i root path type inode =>
      (s.vfsMakeNode fuel kmalloc i root path type inode blocks).map Prod.snd
  | .tmpfsInit kmalloc i path =>
      (s.tmpfsInit fuel kmalloc i path).map (fun r => (r.2, blocks))
  | .devfsInit kmalloc i path =>
      (s.devfsInit fuel kmalloc i path).map (fun r => (r.2, blocks))
  | .tmpfsCreate kmalloc i before path type =>
      (s.tmpfsCreate fuel kmalloc i before path type blocks).map Prod.snd
  | .devfsRegisterDev name type deviceSpecific =>
      (s.devfsRegisterDev fuel name type deviceSpecific blocks).map Prod.snd

/-- The nodes that are reached from `vfs_root`. -/
abbrev Node (s : VfsState α) : α → Prop :=
  LinkedTree.Reachable s.links s.vfsRoot

def Call.Valid (s : VfsState α) : Call α → Prop
  | .addChild parent _ _ => s.Node parent
  | .makeNode _ _ root _ _ _ => s.Node root
  | _ => True

/-- Blocks that `kmalloc` may give. -/
structure Unused (s : VfsState α) (blocks : List (NodeBlock α)) : Prop where
  nodup : (blocks.map NodeBlock.addr).Nodup
  apart : ∀ block ∈ blocks, ¬ s.Node block.addr

/-- Calls in any order after `vfs_dummy`, which is called with the memory of `s₀` and gets the
blocks `blocks₀`. The label of a step has the blocks that the call gets.
-/
def vfsSystem (s₀ : VfsState α) (blocks₀ : List (NodeBlock α))
    : TransitionSystem (VfsState α) (Call α × List (NodeBlock α)) where
  init s := s₀.tmpfsRoot = none ∧ s₀.devfsRoot = none ∧ (blocks₀.map NodeBlock.addr).Nodup
    ∧ ∃ fuel, s₀.vfsDummy fuel blocks₀ = some (s, [])
  step s label s' := label.1.Valid s ∧ s.Unused label.2
    ∧ ∃ fuel, s.call fuel label.2 label.1 = some (s', [])

/-- The addresses of the blocks that became nodes, in the order of their creation. -/
def created (blocks₀ : List (NodeBlock α)) (steps : List (VfsState α × Call α × List (NodeBlock α)))
    : List α :=
  (blocks₀ ++ steps.reverse.flatMap (fun taken => taken.2.2)).map NodeBlock.addr

-----------------------------------------------------------------------------------------
-- The property
-----------------------------------------------------------------------------------------

/-- `vfs_abs_path_to` returns a path for a node, whatever the buffers of `kmalloc` hold. -/
def PathEnds (s : VfsState α) (n : α) : Prop :=
  ∃ enough, ∀ fuel, enough ≤ fuel → ∀ kmalloc : Nat → Buffer256,
    ∃ path, vfsAbsPathTo s.mem kmalloc fuel (some n) = some (some path)

/-- The nodes reached from `vfs_root` form a finite tree, in which `kids` lists the children of each
node in the order of their creation.
-/
structure FiniteTree (s : VfsState α) (created : List α) (kids : α → List α) : Prop where
  rootParent : (s.node s.vfsRoot).parent = some s.vfsRoot
  finite : {n | s.Node n}.Finite
  siblings : ∀ p, s.Node p → Chain (fun n => (s.node n).next) (s.node p).childs (kids p)
  nodup : ∀ p, s.Node p → (kids p).Nodup
  ordered : ∀ p, s.Node p → (kids p).Sublist created.dedup
  rootApart : ∀ p, s.Node p → s.vfsRoot ∉ kids p
  owner : ∀ n, s.Node n → n ≠ s.vfsRoot → ∃ p, s.Node p ∧ n ∈ kids p
    ∧ (s.node n).parent = some p ∧ ∀ q, s.Node q → n ∈ kids q → q = p

/-- The roots of `tmpfs` and `devfs`, where they are used, are nodes of the tree. -/
def RootsLive (s : VfsState α) : Call α → Prop
  | .tmpfsCreate .. => ∀ r ∈ s.tmpfsRoot, s.Node r
  | .devfsRegisterDev .. => ∀ r ∈ s.devfsRoot, s.Node r
  | _ => True

variable {s s' s₀ : VfsState α} {kids : α → List α} {created : List α}

theorem Shape.finiteTree (shape : Shape s kids created) : FiniteTree s created kids := by
  have tree := shape.tree
  have inside {n : α} (node : s.Node n) : s.Inside kids n := tree.reachable_iff.mp node
  refine ⟨tree.rootParent, ?_, fun p node => tree.chain p (inside node),
    fun p node => tree.kids_nodup (inside node), fun p node => shape.ordered p (inside node),
    fun p node => tree.notRoot p (inside node), fun n node other => ?_⟩
  · exact tree.finite.subset (fun n node => inside node)
  · obtain ⟨p, parent, below, member⟩ := tree.parent_below (inside node)
    refine ⟨p, tree.reachable_iff.mpr below, member other, parent, fun q there member' => ?_⟩
    exact tree.parent_unique (inside there) below member' (member other)

/-- The names in a tree end: each is the string in front of its first zero. -/
theorem Shape.named (shape : Shape s kids created) : Named s kids := by
  intro n inside
  obtain ⟨x, rest, split, nonzero⟩ := List.eq_append_cons_of_mem (shape.ends n inside)
  have held : CString.Holds (s.node n).name x := ⟨nonzero, rest, split⟩
  rw [nameOf, held.takeWhile_eq]
  exact held

/-- In a tree `vfs_abs_path_to` returns for exactly the nodes whose path has room. -/
theorem Shape.pathEnds_iff (shape : Shape s kids created) {n : α} {path : List UInt8}
    (abs : AbsolutePath s kids n path)
    : s.PathEnds n ↔ path.length ≤ 255 := by
  constructor
  · intro ends
    obtain ⟨enough, returns⟩ := ends
    obtain ⟨result, returned⟩ := returns enough (Nat.le_refl _) (fun _ => zeros)
    exact vfsAbsPathTo_some shape.tree shape.named abs returned
  · intro short
    obtain ⟨enough, returns⟩ := vfsAbsPathTo_returns shape.tree shape.named abs short
    refine ⟨enough, fun fuel more kmalloc => ?_⟩
    obtain ⟨result, returned, -⟩ := returns fuel more kmalloc
    exact ⟨result, returned⟩

-----------------------------------------------------------------------------------------
-- Runs
-----------------------------------------------------------------------------------------

/-- A call from a tree whose roots of `tmpfs` and `devfs` are its nodes makes a tree. -/
theorem Shape.call (shape : Shape s kids created) {c : Call α} (valid : c.Valid s)
    (live : RootsLive s c) {blocks rest : List (NodeBlock α)} (unused : s.Unused blocks)
    {fuel : Nat} (called : s.call fuel blocks c = some (s', rest))
    : Creates s s' created blocks rest := by
  have inside {n : α} (node : s.Node n) : s.Inside kids n := shape.tree.reachable_iff.mp node
  have fresh : Fresh s kids blocks := by
    refine ⟨unused.nodup, fun block member below => unused.apart block member ?_⟩
    exact shape.tree.reachable_iff.mpr below
  cases c with
  | addChild parent name type =>
      obtain ⟨⟨child, s₁, blocks₁⟩, added, same⟩ := Option.map_eq_some_iff.mp called
      obtain ⟨rfl, rfl⟩ := Prod.mk.inj same
      obtain ⟨block, rfl, rfl, shape', -, -, roots⟩ := shape.addNext (inside valid) fresh added
      exact ⟨[block], _, rfl, shape', roots.vfsRoot⟩
  | makeNode kmalloc i root path type inode =>
      obtain ⟨⟨node, s₁, blocks₁⟩, made, same⟩ := Option.map_eq_some_iff.mp called
      obtain ⟨rfl, rfl⟩ := Prod.mk.inj same
      exact shape.vfsMakeNode (inside valid) fresh made
  | tmpfsInit kmalloc i path =>
      obtain ⟨⟨result, s₁⟩, made, same⟩ := Option.map_eq_some_iff.mp called
      obtain ⟨rfl, rfl⟩ := Prod.mk.inj same
      obtain ⟨shape', root⟩ := shape.tmpfsInit made
      obtain ⟨used, kids', split, shape'', -⟩ := shape'.creates blocks
      exact ⟨used, kids', split, shape'', root⟩
  | devfsInit kmalloc i path =>
      obtain ⟨⟨result, s₁⟩, made, same⟩ := Option.map_eq_some_iff.mp called
      obtain ⟨rfl, rfl⟩ := Prod.mk.inj same
      obtain ⟨shape', root⟩ := shape.devfsInit made
      obtain ⟨used, kids', split, shape'', -⟩ := shape'.creates blocks
      exact ⟨used, kids', split, shape'', root⟩
  | tmpfsCreate kmalloc i before path type =>
      obtain ⟨⟨result, s₁, blocks₁⟩, made, same⟩ := Option.map_eq_some_iff.mp called
      obtain ⟨rfl, rfl⟩ := Prod.mk.inj same
      exact shape.tmpfsCreate (fun r isRoot => inside (live r isRoot)) fresh made
  | devfsRegisterDev name type deviceSpecific =>
      obtain ⟨⟨result, s₁, blocks₁⟩, made, same⟩ := Option.map_eq_some_iff.mp called
      obtain ⟨rfl, rfl⟩ := Prod.mk.inj same
      exact shape.devfsRegisterDev (fun r isRoot => inside (live r isRoot)) fresh made

/-- Every run makes a tree, if `tmpfs_create` and `devfs_register_dev` are called while their roots
are nodes of it, by induction on the run.
-/
theorem run_shape {blocks₀ : List (NodeBlock α)}
    {steps : List (VfsState α × Call α × List (NodeBlock α))}
    (run : (vfsSystem s₀ blocks₀).Run s steps)
    (live : ∀ taken ∈ steps, RootsLive taken.1 taken.2.1)
    : ∃ kids, Shape s kids (VfsState.created blocks₀ steps) := by
  induction run with
  | start initial =>
      obtain ⟨-, -, nodup, fuel, made⟩ := initial
      obtain ⟨used, kids, split, shape, -⟩ := vfsDummy_shape nodup made
      rw [List.append_nil] at split
      subst split
      refine ⟨kids, ?_⟩
      rw [VfsState.created, List.reverse_nil, List.flatMap_nil, List.append_nil]
      exact shape
  | @next s label s' steps _ taken ih =>
      obtain ⟨valid, unused, fuel, called⟩ := taken
      obtain ⟨kids, shape⟩ := ih (fun step member => live step (List.mem_cons_of_mem _ member))
      have here := live (s, label) (List.mem_cons_self ..)
      obtain ⟨used, kids', split, shape', -⟩ := shape.call valid here unused called
      rw [List.append_nil] at split
      refine ⟨kids', ?_⟩
      rw [VfsState.created, ← split, ← List.map_append, List.append_assoc] at shape'
      rw [VfsState.created, List.reverse_cons, List.flatMap_append, List.flatMap_singleton]
      exact shape'

/-- In every state of every run in which `tmpfs_create` and `devfs_register_dev` are called while
their roots are nodes of the tree, the nodes are a finite tree, and `vfs_abs_path_to` returns for
exactly the nodes whose absolute path has at most 255 characters. Each call keeps the shape of the
tree, and in a finite tree every node has a path from the root, which `vfs_abs_path_to` copies into
its 256 bytes.
-/
theorem run_finiteTree {blocks₀ : List (NodeBlock α)}
    {steps : List (VfsState α × Call α × List (NodeBlock α))}
    (run : (vfsSystem s₀ blocks₀).Run s steps)
    (live : ∀ taken ∈ steps, RootsLive taken.1 taken.2.1)
    : ∃ kids, FiniteTree s (VfsState.created blocks₀ steps) kids
        ∧ (∀ n, s.Node n → ∃ path, AbsolutePath s kids n path)
        ∧ ∀ n path, AbsolutePath s kids n path → (s.PathEnds n ↔ path.length ≤ 255) := by
  obtain ⟨kids, shape⟩ := run_shape run live
  refine ⟨kids, shape.finiteTree, fun n node => ?_, fun n path abs => shape.pathEnds_iff abs⟩
  exact exists_absolutePath (shape.tree.reachable_iff.mp node)

-----------------------------------------------------------------------------------------
-- A root of tmpfs that has been freed
-----------------------------------------------------------------------------------------

section Examples

/-- The nodes that are reached over at most `k` links. -/
def reached (s : VfsState Nat) : (k : Nat) → List Nat
  | 0 => [s.vfsRoot]
  | k + 1 =>
      (s.reached k ++ (s.reached k).filterMap s.links.childs
        ++ (s.reached k).filterMap s.links.next).dedup

def zeroBlock (addr : Nat) : NodeBlock Nat where
  addr
  contents := { name := [], parent := none, childs := none, next := none, prev := none,
                file := { type := 0, permissions := 0, inode := 0, size := 0 } }
  name := zeros

/-- The memory before `vfs_dummy`. -/
def zeroState : VfsState Nat where
  node _ := (zeroBlock 0).contents
  vfsRoot := 0
  tmpfsRoot := none
  devfsRoot := none

def Call.FromRoot (s : VfsState Nat) : Call Nat → Bool
  | .addChild parent _ _ => parent = s.vfsRoot
  | .makeNode _ _ root _ _ _ => root = s.vfsRoot
  | _ => true

/-- A call in a tree of which all nodes are reached over twelve links. -/
def callNext (s : VfsState Nat) (label : Call Nat × List (NodeBlock Nat))
    : Option (VfsState Nat) :=
  let nodes := s.reached 12
  if (∀ n ∈ nodes, (∀ c ∈ s.links.childs n, c ∈ nodes) ∧ ∀ c ∈ s.links.next n, c ∈ nodes)
      ∧ (label.2.map NodeBlock.addr).Nodup ∧ (∀ block ∈ label.2, block.addr ∉ nodes)
      ∧ label.1.FromRoot s ∧ s.vfsRoot ∈ nodes then
    match s.call 20 label.2 label.1 with
    | some (s', []) => some s'
    | _ => none
  else
    none

/-- The blocks that `vfs_dummy` gets. -/
def tenBlocks : List (NodeBlock Nat) :=
  (List.range 10).map zeroBlock

/-- The calls of a list after `vfs_dummy`, latest first. -/
def scene (labels : List (Call Nat × List (NodeBlock Nat)))
    : Option (VfsState Nat × List (VfsState Nat × Call Nat × List (NodeBlock Nat))) :=
  (zeroState.vfsDummy 20 tenBlocks).bind (fun r =>
    if r.2.length = 0 then TransitionSystem.play callNext r.1 labels else none)

/-- Nodes that are reached over some links are nodes of the tree, by induction on the number of
links.
-/
theorem reached_node {s : VfsState Nat} {k n : Nat} (member : n ∈ s.reached k) : s.Node n := by
  induction k generalizing n with
  | zero =>
      obtain rfl := List.mem_singleton.mp member
      exact .root
  | succ k ih =>
      rw [reached, List.mem_dedup, List.mem_append, List.mem_append, List.mem_filterMap,
        List.mem_filterMap] at member
      rcases member with (before | ⟨p, inside, link⟩) | ⟨p, inside, link⟩
      · exact ih before
      · exact .child (ih inside) link
      · exact .sibling (ih inside) link

theorem callNext_call {s s' : VfsState Nat} {label : Call Nat × List (NodeBlock Nat)}
    (next : callNext s label = some s')
    : label.1.Valid s ∧ s.Unused label.2 ∧ s.call 20 label.2 label.1 = some (s', []) := by
  rw [callNext] at next
  split at next
  · next allowed =>
      obtain ⟨closed, nodup, apart, valid, root⟩ := allowed
      have bounded {n : Nat} (node : s.Node n) : n ∈ s.reached 12 := by
        induction node with
        | root => exact root
        | child _ link ih => exact (closed _ ih).1 _ link
        | sibling _ link ih => exact (closed _ ih).2 _ link
      refine ⟨?_, ⟨nodup, fun block member node => apart block member (bounded node)⟩, ?_⟩
      · obtain ⟨call, blocks⟩ := label
        cases call with
        | addChild parent _ _ =>
            obtain rfl : parent = s.vfsRoot := of_decide_eq_true valid
            exact .root
        | makeNode _ _ root _ _ _ =>
            obtain rfl : root = s.vfsRoot := of_decide_eq_true valid
            exact .root
        | tmpfsInit | devfsInit | tmpfsCreate | devfsRegisterDev => trivial
      · split at next
        · next made =>
            obtain rfl := Option.some.inj next
            exact made
        · cases next
  · cases next

theorem callNext_step {s₀ s s' : VfsState Nat} {blocks₀ : List (NodeBlock Nat)}
    {label : Call Nat × List (NodeBlock Nat)} (next : callNext s label = some s')
    : (vfsSystem s₀ blocks₀).step s label s' := by
  obtain ⟨valid, unused, made⟩ := callNext_call next
  exact ⟨valid, unused, 20, made⟩

/-- A list of calls that can be made is a run. -/
theorem scene_run {labels : List (Call Nat × List (NodeBlock Nat))}
    {r : VfsState Nat × List (VfsState Nat × Call Nat × List (NodeBlock Nat))}
    (played : scene labels = some r)
    : (vfsSystem zeroState tenBlocks).Run r.1 r.2 := by
  obtain ⟨⟨s, rest⟩, start, played⟩ := Option.bind_eq_some_iff.mp played
  dsimp only at played
  split at played
  · next none =>
      obtain rfl := List.length_eq_zero_iff.mp none
      have initial : (vfsSystem zeroState tenBlocks).init s :=
        ⟨rfl, rfl, by decide, 20, start⟩
      have sound (s : VfsState Nat) (label : Call Nat × List (NodeBlock Nat)) (s' : VfsState Nat)
          (_ : True) (next : callNext s label = some s')
          : (vfsSystem zeroState tenBlocks).step s label s' ∧ True :=
        ⟨callNext_step next, trivial⟩
      exact (TransitionSystem.Run.of_play sound initial trivial played).1
  · cases played

/-- `tmpfs_init("/tmp")` and `tmpfs_create("x", VFS_FILE)`, latest first. -/
def createX : List (Call Nat × List (NodeBlock Nat)) :=
  [(.tmpfsCreate zeros none 0 [0x78, 0] vfsFile, [zeroBlock 10]),
    (.tmpfsInit zeros none [0x2F, 0x74, 0x6D, 0x70, 0], [])]

/-- After these calls the nodes are a finite tree, and `vfs_abs_path_to` returns for the new file,
whose path is `/tmp/x`.
-/
theorem run_finiteTree_createX
    : ∃ s steps kids, (vfsSystem zeroState tenBlocks).Run s steps
        ∧ FiniteTree s (VfsState.created tenBlocks steps) kids
        ∧ AbsolutePath s kids 10 [0x2F, 0x74, 0x6D, 0x70, 0x2F, 0x78] ∧ s.PathEnds 10 := by
  have returns : (scene createX).isSome = true := by decide +kernel
  obtain ⟨⟨s, steps⟩, played⟩ := Option.isSome_iff_exists.mp returns
  have facts : ∀ r ∈ scene createX,
      (∀ taken ∈ r.2, (∀ n ∈ taken.1.tmpfsRoot, n ∈ taken.1.reached 12)
        ∧ ∀ n ∈ taken.1.devfsRoot, n ∈ taken.1.reached 12)
      ∧ r.1.vfsRoot = 0 ∧ 6 ∈ r.1.reached 12
      ∧ Chain (fun n => (r.1.node n).next) (r.1.node 0).childs [1, 2, 3, 4, 5, 6]
      ∧ Chain (fun n => (r.1.node n).next) (r.1.node 6).childs [10]
      ∧ r.1.nameOf 0 = [0x2F] ∧ r.1.nameOf 6 = [0x74, 0x6D, 0x70] ∧ r.1.nameOf 10 = [0x78] := by
    decide +kernel
  obtain ⟨roots, root, tmp, childs, files, rootName, tmpName, name⟩ := facts _ played
  have run := scene_run played
  have live : ∀ taken ∈ steps, RootsLive taken.1 taken.2.1 := by
    rintro ⟨before, call, blocks⟩ member
    obtain ⟨tmpfs, devfs⟩ := roots _ member
    cases call with
    | tmpfsCreate => exact fun n isRoot => reached_node (tmpfs n isRoot)
    | devfsRegisterDev => exact fun n isRoot => reached_node (devfs n isRoot)
    | addChild | makeNode | tmpfsInit | devfsInit => trivial
  obtain ⟨kids, tree, -, ends⟩ := run_finiteTree run live
  have zero : s.Node 0 := by
    rw [← root]
    exact .root
  have tmpKid : 6 ∈ kids s.vfsRoot := by
    rw [root, Chain.unique (tree.siblings 0 zero) childs]
    decide
  have fileKid : 10 ∈ kids 6 := by
    rw [Chain.unique (tree.siblings 6 (reached_node tmp)) files]
    decide
  have path : AbsolutePath s kids 10 [0x2F, 0x74, 0x6D, 0x70, 0x2F, 0x78] := by
    have abs := (AbsolutePath.root.child tmpKid).child fileKid
    rw [root, rootName, tmpName, name] at abs
    exact abs
  exact ⟨s, steps, kids, run, tree, path, (ends 10 _ path).mpr (by decide)⟩

/-- `tmpfs_init("/tmp")`, `vfs_make_node(vfs_root, ".", VFS_FILE, 0)`, which frees the root of
`tmpfs`, `tmpfs_create("x", VFS_FILE)`, which adds a child to the node that was freed,
`vfs_add_child(vfs_root, "w", VFS_FILE)`, which gets the block of that child, because no node of the
tree is there, and `tmpfs_create("v", VFS_FILE)`, latest first.
-/
def createInFreed : List (Call Nat × List (NodeBlock Nat)) :=
  [(.tmpfsCreate zeros none 0 [0x76, 0] vfsFile, [zeroBlock 11]),
    (.addChild 0 [0x77, 0] vfsFile, [zeroBlock 10]),
    (.tmpfsCreate zeros none 0 [0x78, 0] vfsFile, [zeroBlock 10]),
    (.makeNode zeros none 0 [0x2E, 0] vfsFile 0, []),
    (.tmpfsInit zeros none [0x2F, 0x74, 0x6D, 0x70, 0], [])]

/-- After these calls the second child of the root has another parent. -/
theorem run_not_finiteTree
    : ¬ ∀ (s₀ : VfsState Nat) (blocks₀ : List (NodeBlock Nat)) (s : VfsState Nat)
        (steps : List (VfsState Nat × Call Nat × List (NodeBlock Nat))),
        (vfsSystem s₀ blocks₀).Run s steps
          → ∃ kids, FiniteTree s (VfsState.created blocks₀ steps) kids := by
  intro always
  have returns : (scene createInFreed).isSome = true := by decide +kernel
  obtain ⟨⟨s, steps⟩, played⟩ := Option.isSome_iff_exists.mp returns
  have facts : ∀ r ∈ scene createInFreed, r.1.vfsRoot = 0 ∧ (r.1.node 0).childs = some 10
      ∧ (r.1.node 10).next = some 11 ∧ (r.1.node 11).next = none
      ∧ (r.1.node 11).parent = some 6 := by
    decide +kernel
  obtain ⟨root, first, second, last, parent⟩ := facts _ played
  obtain ⟨kids, tree⟩ := always _ _ _ _ (scene_run played)
  have zero : s.Node 0 := by
    rw [← root]
    exact .root
  have node : s.Node 11 := .sibling (.child zero first) second
  have chain : Chain (fun n => (s.node n).next) (s.node 0).childs [10, 11] :=
    ⟨first, second, last⟩
  have member : 11 ∈ kids 0 := by
    rw [Chain.unique (tree.siblings 0 zero) chain]
    decide
  have other : 11 ≠ s.vfsRoot := by
    rw [root]
    decide
  obtain ⟨p, -, -, isParent, only⟩ := tree.owner 11 node other
  obtain rfl := only 0 zero member
  rw [parent] at isParent
  cases isParent

end Examples

end Hydrangea.VfsState
