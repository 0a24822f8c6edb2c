import Hydrangea.Fs.TmpfsCreates

/-! Names of siblings in runs of `tmpfs_create`, `devfs_register_dev` and `vfs_make_node`. -/

namespace Hydrangea.VfsState

open CString Linked LinkedTree Vfs

variable {α : Type} [DecidableEq α]

-----------------------------------------------------------------------------------------
-- The system
-----------------------------------------------------------------------------------------

/-- The result that a call reports, which is 0 for `vfs_make_node`. `vfs_add_child` is not called.
-/
def report (fuel : Nat) (s : VfsState α) (blocks : List (NodeBlock α)) : Call α → Option Nat
  | .addChild .. => none
  | .makeNode .. => some 0
  | .tmpfsInit kmalloc i path => (s.tmpfsInit fuel kmalloc i path).map Prod.fst
  | .devfsInit kmalloc i path => (s.devfsInit fuel kmalloc i path).map Prod.fst
  | .tmpfsCreate kmalloc i before path type =>
      (s.tmpfsCreate fuel kmalloc i before path type blocks).map Prod.fst
  | .devfsRegisterDev name type deviceSpecific =>
      (s.devfsRegisterDev fuel name type deviceSpecific blocks).map Prod.fst

/-- Calls in any order after `vfs_dummy` that report success. -/
def createSystem (s₀ : VfsState α) (blocks₀ : List (NodeBlock α))
    : TransitionSystem (VfsState α) (Call α × List (NodeBlock α)) where
  init := (vfsSystem s₀ blocks₀).init
  step s label s' := label.1.Valid s ∧ s.Unused label.2
    ∧ ∃ fuel, s.call fuel label.2 label.1 = some (s', []) ∧ s.report fuel label.2 label.1 = some 0

def UniqueNames (s : VfsState α) : Prop :=
  ∀ p, s.Node p → ∀ cs, Chain (fun n => (s.node n).next) (s.node p).childs cs
    → (cs.map s.nameOf).Nodup

/-- After `tmpfs_create` the path leads from `tmpfs_root` to the new node. -/
def FindsCreated (s : VfsState α) : Call α × List (NodeBlock α) → Prop
  | (.tmpfsCreate _ _ _ path _, blocks) => ∀ t, Holds path t
      → ∃ root block, s.tmpfsRoot = some root ∧ blocks = [block] ∧ s.Resolves root t (some block.addr)
  | _ => True

/-- The root that a call uses is a node of the tree. The path that `tmpfs_create` gets is a string
of at most 255 characters which leads nowhere from `tmpfs_root`, and no child of `devfs_root` has
the name of the device.
-/
def NewName (s : VfsState α) : Call α → Prop
  | .tmpfsCreate _ _ _ path _ => ∃ root t, s.tmpfsRoot = some root ∧ s.Node root ∧ Holds path t
      ∧ t.length ≤ 255 ∧ s.Resolves root t none
  | .devfsRegisterDev name _ _ => ∃ root t, s.devfsRoot = some root ∧ s.Node root ∧ Holds name t
      ∧ ∀ cs, Chain (fun n => (s.node n).next) (s.node root).childs cs → t ∉ cs.map s.nameOf
  | _ => True

/-- A tree in which siblings have different names. -/
structure UniqueTree (s : VfsState α) (kids : α → List α) : Prop where
  tree : IsTree s.links s.vfsRoot kids
  named : Named s kids
  distinct : Distinct s kids

variable {s s' s₀ s₁ : VfsState α} {kids kids' : α → List α} {n p c root : α}
  {path t name : List UInt8}

-----------------------------------------------------------------------------------------
-- Adding a child
-----------------------------------------------------------------------------------------

omit [DecidableEq α] in
/-- Siblings in such a tree have different names. -/
theorem UniqueTree.uniqueNames (h : UniqueTree s kids) : UniqueNames s := by
  intro p node cs chain
  have inside := h.tree.reachable_iff.mp node
  rw [Chain.unique chain (h.tree.chain p inside)]
  exact h.distinct p inside

/-- A child with a new name is added. -/
theorem UniqueTree.addsLast (h : UniqueTree s kids) (adds : AddsLast s s' kids p c name)
    (new : name ∉ (kids p).map s.nameOf)
    : UniqueTree s' (addKid kids p c) := by
  have ext := Extends.addsLast (.refl h.tree h.named) adds
  exact ⟨ext.tree, ext.named, h.distinct.addsLast adds h.tree h.named new⟩

/-- A path that led nowhere leads to the node that is added with its last component in the
directory of its other components.
-/
theorem LeadsTo.found (leads : LeadsTo s kids root t p name) (nonempty : name ≠ [])
    (adds : AddsLast s s' kids p c name) (h : UniqueTree s kids) (here : s.Inside kids root)
    (nowhere : s.lookup kids root t = none)
    : name ∉ (kids p).map s.nameOf ∧ s'.lookup (addKid kids p c) root t = some c := by
  have ext := Extends.addsLast (.refl h.tree h.named) adds
  cases leads with
  | whole free =>
      rw [lookup_component s kids _ free nonempty] at nowhere
      rw [lookup_component s' _ _ free nonempty]
      exact adds.child_eq h.tree h.named nowhere
  | @behind front _ _ free nonemptyFront led _ =>
      have relative : name.head? ≠ some slash := fun first => free (List.mem_of_mem_head? first)
      rw [lookup_append s kids root nonemptyFront relative, led, Option.bind_some,
        lookup_component s kids p free nonempty] at nowhere
      rw [lookup_append s' _ root nonemptyFront relative, ext.lookup_eq h.tree here led,
        Option.bind_some, lookup_component s' _ p free nonempty]
      exact adds.child_eq h.tree h.named nowhere

/-- A call of `tmpfs_create` with a path that leads nowhere adds a child with a new name, and then
the path leads to it.
-/
theorem UniqueTree.tmpfsCreate (h : UniqueTree s kids) (isRoot : s.tmpfsRoot = some root)
    (here : s.Inside kids root) {blocks : List (NodeBlock α)} (fresh : Fresh s kids blocks)
    (held : Holds path t) (short : t.length ≤ 255) (nowhere : s.Resolves root t none) {fuel : Nat}
    {kmalloc : Buffer256} {i : Option Nat} {before : UInt8} {type : Nat}
    (made : s.tmpfsCreate fuel kmalloc i before path type blocks = some (0, s', []))
    : ∃ block kids', blocks = [block] ∧ UniqueTree s' kids' ∧ s'.tmpfsRoot = some root
        ∧ s'.Resolves root t (some block.addr) := by
  obtain ⟨first, split, -⟩ := tmpfsCreate_file made
  have lookup := (resolves_lookup h.tree h.named here short).unique held.1 nowhere
  have nonempty : t ≠ [] := by
    rintro rfl
    cases lookup
  obtain ⟨enough, result, s₁, rest, returns, outcome⟩ := tmpfsCreate_creates h.tree h.named isRoot here
    fresh (split ▸ List.cons_ne_nil first []) held nonempty short kmalloc i before type
  have both := (returns (max fuel enough) (le_max_right ..)).symm.trans
    (tmpfsCreate_mono (le_max_left fuel enough) made)
  obtain ⟨rfl, same⟩ := Prod.mk.inj (Option.some.inj both)
  obtain ⟨rfl, rfl⟩ := Prod.mk.inj same
  cases outcome with
  | refused nonzero => exact absurd rfl nonzero
  | @created block _ p name split' leads nonemptyName adds =>
      obtain ⟨rfl, -⟩ := List.cons.inj (split'.symm.trans split)
      have ext := Extends.addsLast (.refl h.tree h.named) adds
      obtain ⟨new, found⟩ := leads.found nonemptyName adds h here lookup
      have after := resolves_lookup ext.tree ext.named (ext.inside here) short
      rw [found] at after
      exact ⟨block, _, split, h.addsLast adds new, adds.roots.tmpfsRoot.trans isRoot, after⟩

/-- A call of `vfs_make_node` adds children with new names only. -/
theorem UniqueTree.vfsMakeNode (h : UniqueTree s kids) (here : s.Inside kids n)
    {blocks rest : List (NodeBlock α)} (fresh : Fresh s kids blocks) {fuel : Nat}
    {kmalloc : Buffer256} {i : Option Nat} {type inode : Nat}
    (made : s.vfsMakeNode fuel kmalloc i n path type inode blocks = some (c, s', rest))
    : ∃ kids', UniqueTree s' kids' := by
  obtain ⟨ap, copied, -⟩ := Option.bind_eq_some_iff.mp made
  obtain ⟨t, held, -⟩ := holds_of_strcpy copied
  obtain ⟨s₁, kids₁, kids', grown, -, fin⟩ := vfsMakeNode_goes h.tree here h.named fresh held made
  refine ⟨kids', fin.tree, fin.named, fun p inside => ?_⟩
  have names : s'.nameOf = s₁.nameOf := funext fin.nameOf_eq
  rw [names]
  rcases fin.kids_cases p with same | ⟨-, -, none⟩
  · rw [same]
    exact grown.distinct h.distinct p (fin.inside_of inside)
  · rw [none]
    exact List.nodup_nil

-----------------------------------------------------------------------------------------
-- The tree of `vfs_dummy`
-----------------------------------------------------------------------------------------

/-- A child has been added with a name, and some blocks are left. -/
structure NameAdded (s s' : VfsState α) (kids kids' : α → List α) (p c : α) (name : List UInt8)
    (rest : List (NodeBlock α)) : Prop where
  unique : UniqueTree s' kids'
  fresh : Fresh s' kids' rest
  root : s'.vfsRoot = s.vfsRoot
  inside : ∀ n, s.Inside kids n → s'.Inside kids' n
  here : s'.Inside kids' c
  other : ∀ n, s.Inside kids n → n ≠ c
  childless : kids' c = []
  names : ∀ n, s.Inside kids n
    → (kids' n).map s'.nameOf = (kids n).map s.nameOf ++ if n = p then [name] else []

/-- `vfs_add_child` adds a child with a new name. -/
theorem UniqueTree.addNext (h : UniqueTree s kids) (here : s.Inside kids p)
    {blocks rest : List (NodeBlock α)} (fresh : Fresh s kids blocks) (held : Holds path name)
    {names : List (List UInt8)} (before : (kids p).map s.nameOf = names) (new : name ∉ names)
    {fuel type : Nat} (added : s.addNext fuel p path type blocks = some (c, s', rest))
    : ∃ kids', NameAdded s s' kids kids' p c name rest := by
  obtain ⟨block, rfl, rfl, adds⟩ := addNext_adds h.tree here fresh added
  have apart := fresh.apart block (List.mem_cons_self ..)
  have last := adds.addsLast here apart held
  have ext := Extends.addsLast (.refl h.tree h.named) last
  refine ⟨_, h.addsLast last (before ▸ new), fresh.adds here adds.roots, adds.roots.vfsRoot,
    fun n inside => ext.inside inside, ?_, fun n inside same => apart (same ▸ inside), if_pos rfl,
    fun n inside => last.names h.tree h.named inside⟩
  rw [Inside, adds.roots.vfsRoot, below_addKid_iff here apart]
  exact .inr rfl

omit [DecidableEq α] in
/-- The names below the root, when a child has been added to it. -/
theorem NameAdded.rootNames [DecidableEq α] {rest : List (NodeBlock α)}
    (h : NameAdded s s' kids kids' s.vfsRoot c name rest) {names : List (List UInt8)}
    (before : (kids s.vfsRoot).map s.nameOf = names)
    : (kids' s'.vfsRoot).map s'.nameOf = names ++ [name] := by
  rw [h.root, h.names _ .refl, before, if_pos rfl]

theorem createRoot_named {block : NodeBlock α} (made : s.createRoot block path = some s')
    (held : Holds path name)
    : Holds (s'.node block.addr).name name := by
  obtain ⟨s₁, root, made⟩ := Option.bind_eq_some_iff.mp made
  obtain ⟨stored, copied, rfl⟩ := vfsCreateNode_eq root
  obtain rfl := Option.some.inj made
  simpa [setParent, setNode] using held_of_strcpy copied held

/-- `vfs_dummy` gives the children of each directory different names. The names are constants, and
each directory is added before its children.
-/
theorem vfsDummy_unique {fuel : Nat} {blocks rest : List (NodeBlock α)}
    (nodup : (blocks.map NodeBlock.addr).Nodup) (made : s.vfsDummy fuel blocks = some (s', rest))
    : ∃ kids, UniqueTree s' kids := by
  cases blocks with
  | nil => cases made
  | cons block blocks =>
      obtain ⟨s₁, root, made⟩ := Option.bind_eq_some_iff.mp made
      obtain ⟨shape₁, isRoot, -, -⟩ := createRoot_shape root
      obtain ⟨first, others⟩ := List.nodup_cons.mp nodup
      have alone {n : α} (inside : s₁.Inside (fun _ => []) n) : n = block.addr :=
        isRoot ▸ inside.of_nil rfl
      have fresh₁ : Fresh s₁ (fun _ => []) blocks :=
        ⟨others, fun other member inside =>
          first (List.mem_map.mpr ⟨other, member, alone inside⟩)⟩
      have unique₁ : UniqueTree s₁ (fun _ => []) := by
        refine ⟨shape₁.tree, fun n inside => ?_, fun _ _ => List.nodup_nil⟩
        obtain rfl := alone inside
        have held : Holds [0x2F, 0] [0x2F] := by decide
        have heldRoot := createRoot_named root held
        rw [nameOf, heldRoot.takeWhile_eq]
        exact heldRoot
      have names₁ : ([] : List α).map s₁.nameOf = [] := rfl
      obtain ⟨⟨bin, s₂, blocks₂⟩, added₂, made⟩ := Option.bind_eq_some_iff.mp made
      obtain ⟨⟨etc, s₃, blocks₃⟩, added₃, made⟩ := Option.bind_eq_some_iff.mp made
      obtain ⟨⟨mnt, s₄, blocks₄⟩, added₄, made⟩ := Option.bind_eq_some_iff.mp made
      obtain ⟨⟨home, s₅, blocks₅⟩, added₅, made⟩ := Option.bind_eq_some_iff.mp made
      obtain ⟨⟨dev, s₆, blocks₆⟩, added₆, made⟩ := Option.bind_eq_some_iff.mp made
      obtain ⟨⟨tmp, s₇, blocks₇⟩, added₇, made⟩ := Option.bind_eq_some_iff.mp made
      obtain ⟨⟨ys, s₈, blocks₈⟩, added₈, made⟩ := Option.bind_eq_some_iff.mp made
      obtain ⟨⟨document, s₉, blocks₉⟩, added₉, made⟩ := Option.bind_eq_some_iff.mp made
      obtain ⟨⟨program, s₀, blocks₀⟩, added₀, made⟩ := Option.bind_eq_some_iff.mp made
      obtain ⟨rfl, rfl⟩ := Prod.mk.inj (Option.some.inj made)
      have binHeld : Holds [0x62, 0x69, 0x6E, 0] [0x62, 0x69, 0x6E] := by decide
      have etcHeld : Holds [0x65, 0x74, 0x63, 0] [0x65, 0x74, 0x63] := by decide
      have mntHeld : Holds [0x6D, 0x6E, 0x74, 0] [0x6D, 0x6E, 0x74] := by decide
      have homeHeld : Holds [0x68, 0x6F, 0x6D, 0x65, 0] [0x68, 0x6F, 0x6D, 0x65] := by decide
      have devHeld : Holds [0x64, 0x65, 0x76, 0] [0x64, 0x65, 0x76] := by decide
      have tmpHeld : Holds [0x74, 0x6D, 0x70, 0] [0x74, 0x6D, 0x70] := by decide
      have ysHeld : Holds [0x79, 0x75, 0x75, 0x6E, 0] [0x79, 0x75, 0x75, 0x6E] := by decide
      have documentHeld : Holds
          [0x64, 0x6F, 0x63, 0x75, 0x6D, 0x65, 0x6E, 0x74, 0x2E, 0x74, 0x78, 0x74, 0]
          [0x64, 0x6F, 0x63, 0x75, 0x6D, 0x65, 0x6E, 0x74, 0x2E, 0x74, 0x78, 0x74] := by decide
      have programHeld : Holds [0x70, 0x72, 0x6F, 0x67, 0x72, 0x61, 0x6D, 0x2E, 0x63, 0]
          [0x70, 0x72, 0x6F, 0x67, 0x72, 0x61, 0x6D, 0x2E, 0x63] := by decide
      obtain ⟨kids₂, a₂⟩ := unique₁.addNext .refl fresh₁ binHeld names₁ (by decide) added₂
      have names₂ := a₂.rootNames names₁
      obtain ⟨kids₃, a₃⟩ := a₂.unique.addNext .refl a₂.fresh etcHeld names₂ (by decide) added₃
      have names₃ := a₃.rootNames names₂
      obtain ⟨kids₄, a₄⟩ := a₃.unique.addNext .refl a₃.fresh mntHeld names₃ (by decide) added₄
      have names₄ := a₄.rootNames names₃
      obtain ⟨kids₅, a₅⟩ := a₄.unique.addNext .refl a₄.fresh homeHeld names₄ (by decide) added₅
      have names₅ := a₅.rootNames names₄
      obtain ⟨kids₆, a₆⟩ := a₅.unique.addNext .refl a₅.fresh devHeld names₅ (by decide) added₆
      have names₆ := a₆.rootNames names₅
      obtain ⟨kids₇, a₇⟩ := a₆.unique.addNext .refl a₆.fresh tmpHeld names₆ (by decide) added₇
      have homeNames : (kids₇ home).map s₇.nameOf = [] := by
        have ne : home ≠ s₅.vfsRoot := by
          rw [a₅.root]
          exact (a₅.other _ .refl).symm
        rw [a₇.names _ (a₆.inside _ a₅.here), a₆.root, if_neg ne, a₆.names _ a₅.here, if_neg ne,
          a₅.childless]
        rfl
      have homeHere := a₇.inside _ (a₆.inside _ a₅.here)
      obtain ⟨kids₈, a₈⟩ := a₇.unique.addNext homeHere a₇.fresh ysHeld homeNames (by decide) added₈
      have ysNames : (kids₈ ys).map s₈.nameOf = [] := congrArg (List.map s₈.nameOf) a₈.childless
      obtain ⟨kids₉, a₉⟩ := a₈.unique.addNext a₈.here a₈.fresh documentHeld ysNames (by decide) added₉
      have ysNames' := a₉.names ys a₈.here
      rw [ysNames, if_pos rfl] at ysNames'
      obtain ⟨kids₀, a₀⟩ := a₉.unique.addNext (a₉.inside _ a₈.here) a₉.fresh programHeld ysNames'
        (by decide) added₀
      exact ⟨kids₀, a₀.unique⟩

-----------------------------------------------------------------------------------------
-- Runs
-----------------------------------------------------------------------------------------

/-- A call that reports success and uses a new name leaves a tree in which siblings have different
names.
-/
theorem UniqueTree.step (h : UniqueTree s kids) {c : Call α} {blocks : List (NodeBlock α)}
    (valid : c.Valid s) (unused : s.Unused blocks) (new : NewName s c) {fuel : Nat}
    (called : s.call fuel blocks c = some (s', [])) (reported : s.report fuel blocks c = some 0)
    : (∃ kids', UniqueTree s' kids') ∧ FindsCreated s' (c, blocks) := by
  have inside {n : α} (node : s.Node n) : s.Inside kids n := h.tree.reachable_iff.mp node
  have fresh : Fresh s kids blocks := by
    refine ⟨unused.nodup, fun block member below => unused.apart block member ?_⟩
    exact h.tree.reachable_iff.mpr below
  cases c with
  | addChild => cases reported
  | makeNode kmalloc i root path type inode =>
      obtain ⟨⟨node, s₁, rest⟩, made, same⟩ := Option.map_eq_some_iff.mp called
      obtain ⟨rfl, rfl⟩ := Prod.mk.inj same
      exact ⟨h.vfsMakeNode (inside valid) fresh made, trivial⟩
  | tmpfsInit kmalloc i path =>
      obtain ⟨⟨result, s₁⟩, made, same⟩ := Option.map_eq_some_iff.mp called
      obtain ⟨rfl, -⟩ := Prod.mk.inj same
      refine ⟨⟨kids, ?_⟩, trivial⟩
      rw [VfsState.tmpfsInit] at made
      split at made
      · obtain ⟨-, rfl⟩ := Prod.mk.inj (Option.some.inj made)
        exact h
      · obtain ⟨root, -, made⟩ := Option.bind_eq_some_iff.mp made
        obtain ⟨-, rfl⟩ := Prod.mk.inj (Option.some.inj made)
        exact ⟨h.tree, h.named, h.distinct⟩
  | devfsInit kmalloc i path =>
      obtain ⟨⟨result, s₁⟩, made, same⟩ := Option.map_eq_some_iff.mp called
      obtain ⟨rfl, -⟩ := Prod.mk.inj same
      refine ⟨⟨kids, ?_⟩, trivial⟩
      rw [VfsState.devfsInit] at made
      split at made
      · obtain ⟨-, rfl⟩ := Prod.mk.inj (Option.some.inj made)
        exact h
      · obtain ⟨root, -, made⟩ := Option.bind_eq_some_iff.mp made
        obtain ⟨-, rfl⟩ := Prod.mk.inj (Option.some.inj made)
        exact ⟨h.tree, h.named, h.distinct⟩
  | tmpfsCreate kmalloc i before path type =>
      obtain ⟨⟨result, s₁, rest⟩, made, same⟩ := Option.map_eq_some_iff.mp called
      obtain ⟨rfl, rfl⟩ := Prod.mk.inj same
      obtain ⟨⟨_, _, _⟩, made', zero⟩ := Option.map_eq_some_iff.mp reported
      obtain ⟨rfl, -⟩ := Prod.mk.inj (Option.some.inj (made.symm.trans made'))
      obtain rfl : result = 0 := zero
      obtain ⟨root, t, isRoot, here, held, short, nowhere⟩ := new
      obtain ⟨block, kids', split, unique, isRoot', found⟩ :=
        h.tmpfsCreate isRoot (inside here) fresh held short nowhere made
      refine ⟨⟨kids', unique⟩, fun t' held' => ⟨root, block, isRoot', split, ?_⟩⟩
      obtain rfl : t = t' := held.takeWhile_eq.symm.trans held'.takeWhile_eq
      exact found
  | devfsRegisterDev name type deviceSpecific =>
      obtain ⟨⟨result, s₁, rest⟩, made, same⟩ := Option.map_eq_some_iff.mp called
      obtain ⟨rfl, rfl⟩ := Prod.mk.inj same
      obtain ⟨root, t, isRoot, here, held, absent⟩ := new
      rw [VfsState.devfsRegisterDev, isRoot] at made
      dsimp only at made
      split at made
      · obtain ⟨-, same⟩ := Prod.mk.inj (Option.some.inj made)
        obtain ⟨rfl, -⟩ := Prod.mk.inj same
        exact ⟨⟨kids, h⟩, trivial⟩
      · obtain ⟨block, -, adds⟩ := createFile_addsLast h.tree (inside here) fresh held made
        have new := absent (kids root) (h.tree.chain root (inside here))
        exact ⟨⟨_, h.addsLast adds new⟩, trivial⟩

/-- Every run in which every call uses a new name leaves a tree in which siblings have different
names, by induction on the run.
-/
theorem run_uniqueTree {blocks₀ : List (NodeBlock α)}
    {steps : List (VfsState α × Call α × List (NodeBlock α))}
    (run : (createSystem s₀ blocks₀).Run s steps) (new : ∀ taken ∈ steps, NewName taken.1 taken.2.1)
    : (∃ kids, UniqueTree s kids) ∧ ∀ taken ∈ steps.head?, FindsCreated s taken.2 := by
  induction run with
  | start initial =>
      obtain ⟨-, -, nodup, fuel, made⟩ := initial
      exact ⟨vfsDummy_unique nodup made, fun _ none => by cases none⟩
  | @next s label s' steps earlier taken ih =>
      obtain ⟨valid, unused, fuel, called, reported⟩ := taken
      obtain ⟨⟨kids, unique⟩, -⟩ := ih (fun step member => new step (List.mem_cons_of_mem _ member))
      have here := new (s, label) (List.mem_cons_self ..)
      obtain ⟨unique', found⟩ := unique.step valid unused here called reported
      refine ⟨unique', fun taken first => ?_⟩
      obtain rfl := Option.some.inj first
      exact found

/-- In every state of every run in which every call uses a new name, siblings have different names,
and after `tmpfs_create` the path leads to the new node. The invariant is a tree in which no two
children of a node have the same name; a new name keeps it, and the lookup of the path then has
only one child to choose.
-/
theorem run_uniqueNames {blocks₀ : List (NodeBlock α)}
    {steps : List (VfsState α × Call α × List (NodeBlock α))}
    (run : (createSystem s₀ blocks₀).Run s steps) (new : ∀ taken ∈ steps, NewName taken.1 taken.2.1)
    : UniqueNames s ∧ ∀ taken ∈ steps.head?, FindsCreated s taken.2 := by
  obtain ⟨⟨kids, unique⟩, found⟩ := run_uniqueTree run new
  exact ⟨unique.uniqueNames, found⟩

/-- A call that reports success, as `callNext` makes it. -/
def createNext (s : VfsState Nat) (label : Call Nat × List (NodeBlock Nat)) : Option (VfsState Nat) :=
  if s.report 20 label.2 label.1 = some 0 then callNext s label else none

/-- The calls of a list after `vfs_dummy`, latest first, all of which report success. -/
def createScene (labels : List (Call Nat × List (NodeBlock Nat)))
    : Option (VfsState Nat × List (VfsState Nat × Call Nat × List (NodeBlock Nat))) :=
  (zeroState.vfsDummy 20 tenBlocks).bind (fun r =>
    if r.2.length = 0 then TransitionSystem.play createNext r.1 labels else none)

/-- A list of calls that report success is a run. -/
theorem createScene_run {labels : List (Call Nat × List (NodeBlock Nat))}
    {r : VfsState Nat × List (VfsState Nat × Call Nat × List (NodeBlock Nat))}
    (played : createScene labels = some r)
    : (createSystem zeroState tenBlocks).Run r.1 r.2 := by
  obtain ⟨⟨s, rest⟩, start, played⟩ := Option.bind_eq_some_iff.mp played
  dsimp only at played
  split at played
  · next nothing =>
      obtain rfl := List.length_eq_zero_iff.mp nothing
      have initial : (createSystem zeroState tenBlocks).init s :=
        ⟨rfl, rfl, by decide, 20, start⟩
      have sound (s : VfsState Nat) (label : Call Nat × List (NodeBlock Nat)) (s' : VfsState Nat)
          (_ : True) (next : createNext s label = some s')
          : (createSystem zeroState tenBlocks).step s label s' ∧ True := by
        rw [createNext] at next
        split at next
        · next reported =>
            obtain ⟨valid, unused, made⟩ := callNext_call next
            exact ⟨⟨valid, unused, 20, made, reported⟩, trivial⟩
        · cases next
      exact (TransitionSystem.Run.of_play sound initial trivial played).1
  · cases played

/-- The calls are those of the list. -/
theorem createScene_labels {labels : List (Call Nat × List (NodeBlock Nat))}
    {r : VfsState Nat × List (VfsState Nat × Call Nat × List (NodeBlock Nat))}
    (played : createScene labels = some r)
    : r.2.map Prod.snd = labels := by
  obtain ⟨⟨s, rest⟩, -, played⟩ := Option.bind_eq_some_iff.mp played
  dsimp only at played
  split at played
  · exact TransitionSystem.play_labels played
  · cases played

omit [DecidableEq α] in
/-- What a path resolves to when it is looked up once. -/
theorem UniqueTree.resolves (h : UniqueTree s kids) (here : s.Inside kids root) (short : t.length ≤ 255)
    {fuel : Nat} {kmalloc : Buffer256} {i : Option Nat} {found : Option α} (held : Holds path t)
    (looked : vfsNodeFromPath s.mem s.vfsRoot kmalloc fuel i root path = some found)
    : s.Resolves root t found := by
  have lookup := resolves_lookup h.tree h.named here short
  obtain ⟨enough, returns⟩ := lookup
  have both := (returns (max fuel enough) (le_max_right ..) kmalloc i path held).symm.trans
    (vfsNodeFromPath_mono (le_max_left ..) looked)
  obtain rfl := Option.some.inj both
  exact ⟨enough, returns⟩

/-- After `tmpfs_init("/tmp")` and `tmpfs_create("x", VFS_FILE)`. -/
theorem run_uniqueNames_createX
    : ∃ s steps, (createSystem zeroState tenBlocks).Run s steps ∧ steps.length = 2
        ∧ UniqueNames s ∧ ∀ taken ∈ steps.head?, FindsCreated s taken.2 := by
  have returns : (createScene createX).isSome = true := by decide +kernel
  obtain ⟨⟨s, steps⟩, played⟩ := Option.isSome_iff_exists.mp returns
  have facts : ∀ r ∈ createScene createX, ∀ taken ∈ r.2.head?, taken.1.tmpfsRoot = some 6
      ∧ 6 ∈ taken.1.reached 12
      ∧ vfsNodeFromPath taken.1.mem taken.1.vfsRoot zeros 20 none 6 [0x78, 0] = some none := by
    decide +kernel
  have labels := createScene_labels played
  have before := facts _ played
  have run := createScene_run played
  dsimp only at labels before run
  have new : ∀ taken ∈ steps, NewName taken.1 taken.2.1 := by
    cases run with
    | start => cases labels
    | @next a label s steps earlier taken =>
        obtain ⟨rfl, later⟩ := List.cons.inj labels
        obtain ⟨isRoot, here, nowhere⟩ := before _ rfl
        have first : ∀ taken ∈ steps, NewName taken.1 taken.2.1 := by
          rintro ⟨b, label⟩ member
          have known := List.mem_map_of_mem (f := Prod.snd) member
          rw [later, List.mem_singleton] at known
          obtain rfl := known
          trivial
        obtain ⟨⟨kids, unique⟩, -⟩ := run_uniqueTree earlier first
        have inside := unique.tree.reachable_iff.mp (reached_node here)
        have resolves : a.Resolves 6 [0x78] none :=
          unique.resolves inside (by decide) (by decide) nowhere
        exact List.forall_mem_cons.mpr
          ⟨⟨6, [0x78], isRoot, reached_node here, by decide, by decide, resolves⟩, first⟩
  have size := congrArg List.length labels
  rw [List.length_map] at size
  exact ⟨s, steps, run, size, run_uniqueNames run new⟩

/-- `tmpfs_init("/tmp")` and twice `tmpfs_create("x", VFS_FILE)`, latest first. -/
def createTwice : List (Call Nat × List (NodeBlock Nat)) :=
  (.tmpfsCreate zeros none 0 [0x78, 0] vfsFile, [zeroBlock 11]) :: createX

/-- After these calls, which all report success, the directory `/tmp` has two children with the name
`x`.
-/
theorem run_not_uniqueNames
    : ∃ s steps, (createSystem zeroState tenBlocks).Run s steps ∧ ¬ UniqueNames s := by
  have returns : (createScene createTwice).isSome = true := by decide +kernel
  obtain ⟨⟨s, steps⟩, played⟩ := Option.isSome_iff_exists.mp returns
  have facts : ∀ r ∈ createScene createTwice, 6 ∈ r.1.reached 12
      ∧ Chain (fun n => (r.1.node n).next) (r.1.node 6).childs [10, 11]
      ∧ r.1.nameOf 10 = r.1.nameOf 11 := by
    decide +kernel
  obtain ⟨here, chain, same⟩ := facts _ played
  refine ⟨s, steps, createScene_run played, fun unique => ?_⟩
  have distinct := unique 6 (reached_node here) [10, 11] chain
  rw [List.map_cons, List.map_singleton, same] at distinct
  exact absurd distinct (by simp)

end Hydrangea.VfsState
