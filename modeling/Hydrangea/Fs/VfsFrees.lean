import Hydrangea.Fs.VfsTrees
import Hydrangea.Lib.Traced

/-! What `vfs_free_child_nodes` and `vfs_free_node` of `kernel/fs/vfs.c` read and free, when
`kfree` may change what the block holds that it is given.
-/

namespace Hydrangea

open Linked LinkedTree VfsState

-----------------------------------------------------------------------------------------
-- The functions
-----------------------------------------------------------------------------------------

/-- The fields of `vfs_node_t` that freeing reads: the blocks of the name and the file, and the
links.
-/
structure NodeFields (α : Type) where
  name : α
  file : α
  childs : Option α
  next : Option α

/-- A use of a block: its fields are read or written, or it is freed. -/
inductive BlockUse (α : Type) where
  | read (block : α)
  | write (block : α)
  | kfree (block : α)

/-- A computation on the nodes in memory. It stops when it does not return. -/
abbrev Freeing (α β : Type) : Type :=
  Traced (BlockUse α) (α → NodeFields α) β

namespace Freeing

variable {α : Type} [DecidableEq α]

def fields (node : α) : Freeing α (NodeFields α) := do
  Traced.emit (.read node)
  let m ← Traced.state
  return m node

/-- `node->childs = childs`. -/
def setChilds (node : α) (childs : Option α) : Freeing α Unit := do
  Traced.emit (.write node)
  let m ← Traced.state
  Traced.enter (Function.update m node { m node with childs })

/-- `kfree`; `junk` is what the block holds then. -/
def kfree (junk : (α → NodeFields α) → α → NodeFields α) (block : α) : Freeing α Unit := do
  Traced.emit (.kfree block)
  let m ← Traced.state
  Traced.enter (Function.update m block (junk m block))

/-- `vfs_free_child_nodes`, with its loop. -/
def freeChildsWith (loop : Option α → Freeing α Unit) (node : α) : Freeing α Unit := do
  let n ← fields node
  loop n.childs
  setChilds node none

/-- `vfs_free_node`, with the loop of `vfs_free_child_nodes`. -/
def freeNodeWith (junk : (α → NodeFields α) → α → NodeFields α) (loop : Option α → Freeing α Unit)
    (node : α)
    : Freeing α Unit := do
  let n ← fields node
  kfree junk n.name
  let n ← fields node
  kfree junk n.file
  freeChildsWith loop node
  kfree junk node

/-- The loop of `vfs_free_child_nodes`. -/
def freeLoop (junk : (α → NodeFields α) → α → NodeFields α)
    : (fuel : Nat) → (n : Option α) → Freeing α Unit
  | _, none => return ()
  | 0, some _ => Traced.stop
  | fuel + 1, some n => do
      freeNodeWith junk (freeLoop junk fuel) n
      let freed ← fields n
      freeLoop junk fuel freed.next

def vfsFreeChildNodes (junk : (α → NodeFields α) → α → NodeFields α) (fuel : Nat) (node : α)
    : Freeing α Unit :=
  freeChildsWith (freeLoop junk fuel) node

def vfsFreeNode (junk : (α → NodeFields α) → α → NodeFields α) (fuel : Nat) (node : α)
    : Freeing α Unit :=
  freeNodeWith junk (freeLoop junk fuel) node

-----------------------------------------------------------------------------------------
-- The property
-----------------------------------------------------------------------------------------

/-- Where the blocks for the names and the files of the nodes are. -/
structure NodeBlocks (α : Type) where
  name : α → α
  file : α → α

def NodeBlocks.Has (blocks : NodeBlocks α) (node block : α) : Prop :=
  block = node ∨ block = blocks.name node ∨ block = blocks.file node

def memory (s : VfsState α) (blocks : NodeBlocks α) : α → NodeFields α :=
  fun n =>
    { name := blocks.name n
      file := blocks.file n
      childs := (s.node n).childs
      next := (s.node n).next }

def freed : List (BlockUse α) → List α
  | [] => []
  | .kfree block :: uses => block :: freed uses
  | _ :: uses => freed uses

/-- The call has freed the blocks of the proper descendants of a node once each and nothing else,
and the node has no children.
-/
structure FreesOnce (kids : α → List α) (blocks : NodeBlocks α) (node : α)
    (o : Traced.Outcome (BlockUse α) (α → NodeFields α) Unit)
    : Prop where
  returns : o.result = some ()
  once : (freed o.events).Nodup
  exactly : ∀ block, block ∈ freed o.events ↔ ∃ n, Below kids node n ∧ n ≠ node ∧ blocks.Has n block
  childs : (o.state node).childs = none

def NoReadFreed (uses : List (BlockUse α)) : Prop :=
  ∀ before after block, uses = before ++ .kfree block :: after → .read block ∉ after

/-- `vfs_free_child_nodes` frees what is below a node, and reads nothing that has been freed. -/
def FreesSubtree (junk : (α → NodeFields α) → α → NodeFields α) (s : VfsState α)
    (kids : α → List α) (blocks : NodeBlocks α) (node : α)
    : Prop :=
  ∃ fuel, FreesOnce kids blocks node (vfsFreeChildNodes junk fuel node (memory s blocks))
    ∧ NoReadFreed (vfsFreeChildNodes junk fuel node (memory s blocks)).events

variable {junk : (α → NodeFields α) → α → NodeFields α} {s : VfsState α} {kids : α → List α}
  {blocks : NodeBlocks α} {node : α}

-----------------------------------------------------------------------------------------
-- Reading behind the end of a block's life
-----------------------------------------------------------------------------------------

omit [DecidableEq α] in
/-- Both parts of a computation that returns, and the uses that they make. -/
theorem bind_returns {β γ : Type} {x : Freeing α β} {f : β → Freeing α γ} {m : α → NodeFields α} {c : γ}
    (returns : ((x >>= f) m).result = some c)
    : ∃ b, (x m).result = some b ∧ (f b (x m).state).result = some c
        ∧ ((x >>= f) m).events = (x m).events ++ (f b (x m).state).events := by
  obtain ⟨b, first⟩ := Traced.returned_of_bind returns
  exact ⟨b, first, (Traced.result_bind first).1.symm.trans returns, Traced.events_bind first⟩

/-- `vfs_free_node` frees the node at last, whatever its loop does and the memory holds. -/
theorem freeNodeWith_last {loop : Option α → Freeing α Unit} {n : α} {m : α → NodeFields α}
    (returns : (freeNodeWith junk loop n m).result = some ())
    : [.kfree n] <:+ (freeNodeWith junk loop n m).events := by
  obtain ⟨_, _, afterName, name⟩ := bind_returns returns
  obtain ⟨_, _, freedName, kfreeName⟩ := bind_returns afterName
  obtain ⟨_, _, afterFile, file⟩ := bind_returns freedName
  obtain ⟨_, _, freedFile, kfreeFile⟩ := bind_returns afterFile
  obtain ⟨_, _, _, childs⟩ := bind_returns freedFile
  rw [freeNodeWith, name]
  apply List.suffix_append_of_suffix
  rw [kfreeName]
  apply List.suffix_append_of_suffix
  rw [file]
  apply List.suffix_append_of_suffix
  rw [kfreeFile]
  apply List.suffix_append_of_suffix
  rw [childs]
  exact List.suffix_append_of_suffix List.suffix_rfl

theorem freeLoop_reads {n : α} {m : α → NodeFields α} {fuel : Nat}
    (returns : (freeLoop junk fuel (some n) m).result = some ())
    : ¬ NoReadFreed (freeLoop junk fuel (some n) m).events := by
  cases fuel with
  | zero => cases returns
  | succ fuel =>
      obtain ⟨_, freedFirst, returns', events⟩ := bind_returns returns
      obtain ⟨next, readNext, rest, events'⟩ := bind_returns returns'
      obtain ⟨before, last⟩ := freeNodeWith_last freedFirst
      have split
          : (freeLoop junk (fuel + 1) (some n) m).events
            = before ++ .kfree n :: (.read n :: (freeLoop junk fuel next.next
                (freeNodeWith junk (freeLoop junk fuel) n m).state).events) := by
        rw [freeLoop, events, ← last, events', List.append_assoc]
        rfl
      intro noRead
      exact noRead before _ n split (List.mem_cons_self ..)

omit [DecidableEq α] in
/-- If no block is read after it has been freed, then not in a part of the uses. -/
theorem NoReadFreed.of_append {front uses back : List (BlockUse α)}
    (noRead : NoReadFreed (front ++ (uses ++ back)))
    : NoReadFreed uses := by
  rintro before after block rfl read
  refine noRead (front ++ before) (after ++ back) block ?_ (List.mem_append_left _ read)
  simp only [List.append_assoc, List.cons_append]

/-- `vfs_free_child_nodes` reads the fields of the node, runs the loop from its first child and then
clears its children.
-/
theorem vfsFreeChildNodes_events {fuel : Nat} {m : α → NodeFields α}
    (returns : (vfsFreeChildNodes junk fuel node m).result = some ())
    : (freeLoop junk fuel (m node).childs m).result = some ()
      ∧ (vfsFreeChildNodes junk fuel node m).events
        = [.read node] ++ ((freeLoop junk fuel (m node).childs m).events ++ [.write node]) := by
  obtain ⟨n, first, returns', events⟩ := bind_returns returns
  cases first
  obtain ⟨_, loop, clear, events'⟩ := bind_returns returns'
  refine ⟨loop, ?_⟩
  rw [vfsFreeChildNodes, freeChildsWith, events, events']
  rfl

theorem vfsFreeChildNodes_childless (junk : (α → NodeFields α) → α → NodeFields α) (fuel : Nat)
    {m : α → NodeFields α} (childless : (m node).childs = none)
    : vfsFreeChildNodes junk fuel node m
      = ⟨[.read node, .write node], Function.update m node { m node with childs := none }, some ()⟩ := by
  have read : fields node m = ⟨[.read node], m, some (m node)⟩ := rfl
  have loop : freeLoop junk fuel (m node).childs m = ⟨[], m, some ()⟩ := by
    rw [childless]
    cases fuel <;> rfl
  rw [vfsFreeChildNodes, freeChildsWith, Traced.bind_of_returned read, Traced.bind_of_returned loop]
  rfl

/-- `vfs_free_child_nodes` frees what is below a node and reads nothing that has been freed exactly
if there is nothing: behind each child that it frees it reads the `next` of that child. With a
first child the loop frees it and reads its `next` then; without one it does nothing.
-/
theorem freesSubtree_iff (junk : (α → NodeFields α) → α → NodeFields α) (blocks : NodeBlocks α)
    (tree : IsTree s.links s.vfsRoot kids) (here : s.Inside kids node)
    : FreesSubtree junk s kids blocks node ↔ (s.node node).childs = none := by
  constructor
  · rintro ⟨fuel, frees, noRead⟩
    obtain ⟨loop, events⟩ := vfsFreeChildNodes_events frees.returns
    rw [events] at noRead
    cases first : (s.node node).childs with
    | none => rfl
    | some n =>
        have link : (memory s blocks node).childs = some n := first
        rw [link] at loop noRead
        exact absurd noRead.of_append (freeLoop_reads loop)
  · intro childless
    have noKids : kids node = [] := by
      have chain := tree.chain node here
      have link : s.links.childs node = none := childless
      rw [link] at chain
      exact List.head?_eq_none_iff.mp (Chain.head chain).symm
    have unlinked : (memory s blocks node).childs = none := childless
    have ran := vfsFreeChildNodes_childless junk 0 unlinked
    refine ⟨0, ?_, ?_⟩
    · rw [ran]
      refine ⟨rfl, List.nodup_nil, fun block => ?_, ?_⟩
      · constructor
        · exact fun member => (List.not_mem_nil member).elim
        · rintro ⟨n, below, other, -⟩
          exact absurd (below.of_nil noKids) other
      · simp only [Function.update_self]
    · rw [ran]
      rintro before after block split read
      have member : BlockUse.kfree block ∈ [BlockUse.read node, .write node] := by
        have split : [BlockUse.read node, .write node] = before ++ .kfree block :: after := split
        rw [split]
        exact List.mem_append_right _ (List.mem_cons_self ..)
      simp at member

/-- The directory `/` with the file `/y`: the nodes are in the first two blocks. -/
def oneFile : VfsState (Fin 6) where
  node n :=
    { name := if n = 0 then [Vfs.slash, 0] else [0x79, 0]
      parent := some 0
      childs := if n = 0 then some 1 else none
      next := none
      prev := none
      file :=
        { type := if n = 0 then vfsDir else vfsFile, permissions := 0, inode := 0, size := 0 } }
  vfsRoot := 0
  tmpfsRoot := none
  devfsRoot := none

def oneFileKids (n : Fin 6) : List (Fin 6) :=
  if n = 0 then [1] else []

def oneFileBlocks : NodeBlocks (Fin 6) where
  name n := n + 2
  file n := n + 4

theorem isTree_oneFile : IsTree oneFile.links oneFile.vfsRoot oneFileKids where
  rootParent := rfl
  rootNext := rfl
  chain n _ :=
    (show ∀ n, Chain oneFile.links.next (oneFile.links.childs n) (oneFileKids n) by decide) n
  parent n _ := (show ∀ n, ∀ c ∈ oneFileKids n, oneFile.links.parent c = some n by decide) n
  notRoot n _ := (show ∀ n, (0 : Fin 6) ∉ oneFileKids n by decide) n
  finite := Set.toFinite _

def unlinkedJunk (m : Fin 6 → NodeFields (Fin 6)) (block : Fin 6) : NodeFields (Fin 6) :=
  { m block with childs := none, next := none }

/-- Below the file there is nothing to free. -/
theorem freesSubtree_file : FreesSubtree unlinkedJunk oneFile oneFileKids oneFileBlocks 1 :=
  (freesSubtree_iff unlinkedJunk oneFileBlocks isTree_oneFile
    (below_of_mem (show (1 : Fin 6) ∈ oneFileKids 0 from List.mem_singleton_self 1))).mpr rfl

/-- Below the directory there is the file, which is read after it has been freed. -/
theorem not_freesSubtree_dir
    : ¬ ∀ (junk : (Fin 6 → NodeFields (Fin 6)) → Fin 6 → NodeFields (Fin 6)) (s : VfsState (Fin 6))
        (kids : Fin 6 → List (Fin 6)) (blocks : NodeBlocks (Fin 6)) (node : Fin 6),
        IsTree s.links s.vfsRoot kids → s.Inside kids node → FreesSubtree junk s kids blocks node := by
  intro all
  obtain ⟨fuel, frees, noRead⟩ :=
    all unlinkedJunk oneFile oneFileKids oneFileBlocks 0 isTree_oneFile .refl
  obtain ⟨loop, events⟩ := vfsFreeChildNodes_events frees.returns
  rw [events] at noRead
  exact freeLoop_reads loop noRead.of_append

end Freeing

end Hydrangea
