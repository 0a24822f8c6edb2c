import Hydrangea.Fs.VfsNodes
import Hydrangea.Lib.LinkedTree

/-! What the functions of the virtual file system do to the tree of its nodes. -/

namespace Hydrangea.VfsState

open Linked LinkedTree Vfs

variable {α : Type}

def links (s : VfsState α) : Links α where
  parent n := (s.node n).parent
  childs n := (s.node n).childs
  next n := (s.node n).next

/-- The nodes are a tree, siblings are listed in the order in which they were created, and the
names of the nodes end.
-/
structure Shape (s : VfsState α) (kids : α → List α) [DecidableEq α] (created : List α) : Prop where
  tree : IsTree s.links s.vfsRoot kids
  ordered : ∀ n, Below kids s.vfsRoot n → (kids n).Sublist created.dedup
  ends : ∀ n, Below kids s.vfsRoot n → 0 ∈ (s.node n).name

abbrev Inside (s : VfsState α) (kids : α → List α) (n : α) : Prop :=
  Below kids s.vfsRoot n

/-- The static variables are the same. -/
structure SameRoots (s s' : VfsState α) : Prop where
  vfsRoot : s'.vfsRoot = s.vfsRoot
  tmpfsRoot : s'.tmpfsRoot = s.tmpfsRoot
  devfsRoot : s'.devfsRoot = s.devfsRoot

def KeepsNodes (s s' : VfsState α) (kids : α → List α) : Prop :=
  ∀ n, s.Inside kids n → (s'.node n).name = (s.node n).name ∧ (s'.node n).file = (s.node n).file

/-- The blocks are none of the nodes of the tree. -/
structure Fresh (s : VfsState α) (kids : α → List α) (blocks : List (NodeBlock α)) : Prop where
  nodup : (blocks.map NodeBlock.addr).Nodup
  apart : ∀ block ∈ blocks, ¬ s.Inside kids block.addr

variable [DecidableEq α] {s s' s'' : VfsState α} {kids kids' : α → List α} {n p c : α}
  {created : List α}

-----------------------------------------------------------------------------------------
-- Searching
-----------------------------------------------------------------------------------------

omit [DecidableEq α] in
/-- The walk over the children stops at one of them, by induction on the fuel. -/
theorem findChild_mem {name : List UInt8} {fuel : Nat} {xs : List α}
    (chain : Chain (fun n => (s.node n).next) (some n) xs)
    (found : findChild s.mem name fuel n = some c)
    : c ∈ xs := by
  induction fuel generalizing n xs with
  | zero => cases found
  | succ fuel ih =>
      cases xs with
      | nil => cases chain
      | cons x xs =>
          obtain ⟨start, rest⟩ := chain
          obtain rfl : n = x := Option.some.inj start
          obtain ⟨differs, -, rest'⟩ := Option.bind_eq_some_iff.mp found
          split at rest'
          · cases following : (s.mem n).next with
            | none =>
                rw [following] at rest'
                obtain rfl := Option.some.inj rest'
                exact List.mem_cons_self ..
            | some y =>
                rw [following] at rest'
                have link : (s.node n).next = some y := following
                replace rest : Chain (fun n => (s.node n).next) ((s.node n).next) xs := rest
                rw [link] at rest
                exact List.mem_cons_of_mem _ (ih rest rest')
          · obtain rfl := Option.some.inj rest'
            exact List.mem_cons_self ..

omit [DecidableEq α] in
/-- What `vfs_get_child_by_name` finds for a node of the tree is one, too. -/
theorem inside_of_getChild (tree : IsTree s.links s.vfsRoot kids) (here : s.Inside kids n)
    {fuel : Nat} {name : List UInt8}
    (found : vfsGetChildByName s.mem fuel n name = some (some c))
    : s.Inside kids c := by
  obtain ⟨dot, -, found⟩ := Option.bind_eq_some_iff.mp found
  split at found
  · obtain rfl := Option.some.inj (Option.some.inj found)
    exact here
  · obtain ⟨up, -, found⟩ := Option.bind_eq_some_iff.mp found
    split at found
    · obtain ⟨p, parent, below, -⟩ := tree.parent_below here
      have same : (s.node n).parent = some c := Option.some.inj found
      obtain rfl := Option.some.inj (parent.symm.trans same)
      exact below
    · cases first : (s.mem n).childs with
      | none =>
          rw [first] at found
          cases Option.some.inj found
      | some x =>
          rw [first] at found
          obtain ⟨y, walked, found⟩ := Option.bind_eq_some_iff.mp found
          obtain ⟨differs, -, found⟩ := Option.bind_eq_some_iff.mp found
          have chain := tree.chain n here
          have link : s.links.childs n = some x := first
          rw [link] at chain
          have member := findChild_mem chain walked
          replace found := Option.some.inj found
          split at found
          · cases found
          · obtain rfl := Option.some.inj found
            exact here.child member

omit [DecidableEq α] in
/-- So is what the loop of `vfs_node_from_path` ends at, by induction on the fuel. -/
theorem inside_of_followTokens (tree : IsTree s.links s.vfsRoot kids) (here : s.Inside kids n)
    {fuel : Nat} {token i : Option Nat} {ap : List UInt8}
    (found : followTokens s.mem fuel n token i ap = some (some c))
    : s.Inside kids c := by
  induction fuel generalizing n token i ap with
  | zero => cases found
  | succ fuel ih =>
      cases token with
      | none =>
          obtain rfl := Option.some.inj (Option.some.inj found)
          exact here
      | some token =>
          obtain ⟨child, search, found⟩ := Option.bind_eq_some_iff.mp found
          cases child with
          | none => cases Option.some.inj found
          | some child =>
              obtain ⟨⟨token', i', ap'⟩, -, found⟩ := Option.bind_eq_some_iff.mp found
              exact ih (inside_of_getChild tree here search) found

omit [DecidableEq α] in
/-- A path from a node of the tree leads to one. -/
theorem inside_of_fromPath (tree : IsTree s.links s.vfsRoot kids) (here : s.Inside kids n)
    {kmalloc : Buffer256} {fuel : Nat} {i : Option Nat} {path : List UInt8}
    (found : vfsNodeFromPath s.mem s.vfsRoot kmalloc fuel i n path = some (some c))
    : s.Inside kids c := by
  obtain ⟨ap, -, found⟩ := Option.bind_eq_some_iff.mp found
  obtain ⟨⟨token, i', ap'⟩, -, found⟩ := Option.bind_eq_some_iff.mp found
  obtain ⟨first, -, found⟩ := Option.bind_eq_some_iff.mp found
  refine inside_of_followTokens tree ?_ found
  split
  · exact .refl
  · exact here

-----------------------------------------------------------------------------------------
-- Adding a child
-----------------------------------------------------------------------------------------

theorem setNode_node (s : VfsState α) (n : α) (entry : VfsEntry α) (m : α)
    : (s.setNode n entry).node m = if m = n then entry else s.node m :=
  Function.update_apply ..

theorem vfsCreateNode_eq {block : NodeBlock α} {name : List UInt8} {type : Nat}
    (made : s.vfsCreateNode block name type = some s')
    : ∃ stored, strcpy block.name name = some stored
      ∧ s' = s.setNode block.addr
        { block.contents with
          name := stored, childs := none, next := none
          file := { block.contents.file with type, permissions := newPermissions type } } := by
  obtain ⟨stored, copied, rest⟩ := Option.bind_eq_some_iff.mp made
  exact ⟨stored, copied, (Option.some.inj rest).symm⟩

/-- What `vfs_add_child` has done: a new node is the last child, and the other nodes keep their
names and files.
-/
structure Adds (s s' : VfsState α) (kids : α → List α) (p : α) (block : NodeBlock α)
    (name : List UInt8) (type : Nat) : Prop where
  tree : IsTree s'.links s.vfsRoot (addKid kids p block.addr)
  roots : SameRoots s s'
  kept : KeepsNodes s s' kids
  name : strcpy block.name name = some (s'.node block.addr).name
  file : (s'.node block.addr).file
    = { block.contents.file with type, permissions := newPermissions type }

/-- `vfs_add_child` under a node of the tree. -/
theorem vfsAddChild_adds (tree : IsTree s.links s.vfsRoot kids) (here : s.Inside kids p)
    {block : NodeBlock α} (fresh : ¬ s.Inside kids block.addr) {fuel : Nat} {name : List UInt8}
    {type : Nat} {r : Option α} (added : s.vfsAddChild fuel (some p) name type block = some (r, s'))
    : r = some block.addr ∧ Adds s s' kids p block name type := by
  have chain := tree.chain p here
  have old {n : α} (inside : s.Inside kids n) : n ≠ block.addr :=
    fun same => fresh (same ▸ inside)
  have ne := old here
  rw [vfsAddChild] at added
  cases first : (s.node p).childs with
  | none =>
      rw [first] at added
      obtain ⟨s₁, made, rest⟩ := Option.bind_eq_some_iff.mp added
      obtain ⟨stored, copied, rfl⟩ := vfsCreateNode_eq made
      obtain ⟨rfl, rfl⟩ := Prod.mk.inj (Option.some.inj rest)
      have link : s.links.childs p = none := first
      rw [link] at chain
      have none : kids p = [] := List.head?_eq_none_iff.mp (Chain.head chain).symm
      refine ⟨rfl, ⟨?_, ⟨rfl, rfl, rfl⟩, ?_, ?_, ?_⟩⟩
      · refine tree.addKid here fresh ?_ ?_ ?_ ?_ ?_ ?_
        · intro n inside
          have other := old inside
          by_cases same : n = p <;>
            simp [links, setParent, setChilds, setNode_node, same, ne, other]
        · intro n inside
          have other := old inside
          by_cases same : n = p <;>
            simp [links, setParent, setChilds, setNode_node, same, ne, other, none]
        · intro n inside
          have other := old inside
          by_cases same : n = p <;>
            simp [links, setParent, setChilds, setNode_node, same, ne, other, none]
        · simp [links, setParent, setNode_node]
        · simp [links, setParent, setChilds, setNode_node, ne.symm]
        · simp [links, setParent, setChilds, setNode_node, ne.symm]
      · intro n inside
        have other := old inside
        by_cases same : n = p <;>
          simp [setParent, setChilds, setNode_node, same, ne, other]
      · simp [setParent, setChilds, setNode_node, ne.symm, copied]
      · simp [setParent, setChilds, setNode_node, ne.symm]
  | some x =>
      rw [first] at added
      obtain ⟨child, walked, added⟩ := Option.bind_eq_some_iff.mp added
      obtain ⟨s₁, made, rest⟩ := Option.bind_eq_some_iff.mp added
      obtain ⟨stored, copied, rfl⟩ := vfsCreateNode_eq made
      obtain ⟨rfl, rfl⟩ := Prod.mk.inj (Option.some.inj rest)
      have link : s.links.childs p = some x := first
      rw [link] at chain
      obtain ⟨front, split⟩ := last_eq_some chain walked
      have member : child ∈ kids p := by
        rw [split]
        exact List.mem_append_right _ (List.mem_singleton_self _)
      have neChild := old (here.child member)
      have nonempty : kids p ≠ [] := List.ne_nil_of_mem member
      have last : (kids p).getLast? = some child := by
        rw [split, List.getLast?_concat]
      refine ⟨rfl, ⟨?_, ⟨rfl, rfl, rfl⟩, ?_, ?_, ?_⟩⟩
      · refine tree.addKid here fresh ?_ ?_ ?_ ?_ ?_ ?_
        · intro n inside
          have other := old inside
          by_cases same : n = child <;>
            simp [links, setParent, setNext, setPrev, setNode_node, same, neChild, other]
        · intro n inside
          have other := old inside
          by_cases same : n = child <;>
            simp [links, setParent, setNext, setPrev, setNode_node, same, neChild, other, nonempty]
        · intro n inside
          have other := old inside
          by_cases same : n = child
          · simp [links, setParent, setNext, setPrev, setNode_node, same, neChild, last]
          · have notLast : ¬ child = n := fun equal => same equal.symm
            simp [links, setParent, setNext, setPrev, setNode_node, same, other, last, notLast]
        · simp [links, setParent, setPrev, setNode_node]
        · simp [links, setParent, setNext, setPrev, setNode_node, neChild.symm]
        · simp [links, setParent, setNext, setPrev, setNode_node, neChild.symm]
      · intro n inside
        have other := old inside
        by_cases same : n = child <;>
          simp [setParent, setNext, setPrev, setNode_node, same, neChild, other]
      · simp [setParent, setNext, setPrev, setNode_node, neChild.symm, copied]
      · simp [setParent, setNext, setPrev, setNode_node, neChild.symm]

/-- What is created last is the last of what was created. -/
theorem dedup_concat (created : List α) (c : α)
    : (created ++ [c]).dedup = created.dedup.filter (· ≠ c) ++ [c] := by
  induction created with
  | nil => rfl
  | cons x xs ih =>
      by_cases again : x ∈ xs ++ [c]
      · rw [List.cons_append, List.dedup_cons_of_mem again, ih]
        rcases List.mem_append.mp again with later | last
        · rw [List.dedup_cons_of_mem later]
        · obtain rfl := List.mem_singleton.mp last
          by_cases later : x ∈ xs
          · rw [List.dedup_cons_of_mem later]
          · rw [List.dedup_cons_of_notMem later, List.filter_cons_of_neg (by simp)]
      · have later : x ∉ xs := fun member => again (List.mem_append_left _ member)
        have other : x ≠ c := fun same =>
          again (List.mem_append_right _ (List.mem_singleton.mpr same))
        rw [List.cons_append, List.dedup_cons_of_notMem again, ih,
          List.dedup_cons_of_notMem later, List.filter_cons_of_pos (by simpa using other)]
        rfl

/-- A list in the order of creation stays one when another node is created. -/
theorem sublist_concat {xs : List α} (ordered : xs.Sublist created.dedup) (new : c ∉ xs)
    : xs.Sublist (created.dedup.filter (· ≠ c)) := by
  have filtered := ordered.filter (· ≠ c)
  rwa [List.filter_eq_self.mpr] at filtered
  intro x member
  rw [decide_eq_true_eq]
  rintro rfl
  exact new member

/-- The tree with the new node keeps the order. -/
theorem Shape.adds (shape : Shape s kids created) (here : s.Inside kids p) {block : NodeBlock α}
    (fresh : ¬ s.Inside kids block.addr) {name : List UInt8} {type : Nat}
    (adds : Adds s s' kids p block name type)
    : Shape s' (addKid kids p block.addr) (created ++ [block.addr]) := by
  refine ⟨?_, fun n inside => ?_, fun n inside => ?_⟩
  · rw [adds.roots.vfsRoot]
    exact adds.tree
  · rw [adds.roots.vfsRoot] at inside
    rw [dedup_concat, addKid]
    split
    · exact List.nil_sublist _
    · next other =>
        have old := ((below_addKid_iff here fresh).mp inside).resolve_right other
        have new {m : α} (below : s.Inside kids m) : block.addr ∉ kids m :=
          fun member => fresh (below.child member)
        split
        · next same =>
            exact (sublist_concat (shape.ordered p here) (new here)).append (List.Sublist.refl _)
        · refine (sublist_concat (shape.ordered n old) (new old)).trans ?_
          exact List.sublist_append_left _ _
  · rw [adds.roots.vfsRoot] at inside
    rcases (below_addKid_iff here fresh).mp inside with old | rfl
    · rw [(adds.kept n old).1]
      exact shape.ends n old
    · exact zero_mem_of_strcpy adds.name

/-- The other blocks are still none of the nodes. -/
theorem Fresh.adds {block : NodeBlock α} {blocks : List (NodeBlock α)} (here : s.Inside kids p)
    (fresh : Fresh s kids (block :: blocks)) (roots : SameRoots s s')
    : Fresh s' (addKid kids p block.addr) blocks := by
  obtain ⟨nodup, apart⟩ := fresh
  obtain ⟨first, rest⟩ := List.nodup_cons.mp nodup
  refine ⟨rest, fun other member inside => ?_⟩
  rw [Inside, roots.vfsRoot, below_addKid_iff here (apart block (List.mem_cons_self ..))] at inside
  rcases inside with old | same
  · exact apart other (List.mem_cons_of_mem _ member) old
  · exact first (List.mem_map.mpr ⟨other, member, same⟩)

theorem addNext_adds (tree : IsTree s.links s.vfsRoot kids) (here : s.Inside kids p)
    {blocks rest : List (NodeBlock α)} (fresh : Fresh s kids blocks) {fuel : Nat}
    {name : List UInt8} {type : Nat} (added : s.addNext fuel p name type blocks = some (c, s', rest))
    : ∃ block, blocks = block :: rest ∧ c = block.addr ∧ Adds s s' kids p block name type := by
  cases blocks with
  | nil => cases added
  | cons block blocks =>
      obtain ⟨⟨r, s₁⟩, called, added⟩ := Option.bind_eq_some_iff.mp added
      obtain ⟨child, result, added⟩ := Option.bind_eq_some_iff.mp added
      obtain ⟨rfl, rest'⟩ := Prod.mk.inj (Option.some.inj added)
      obtain ⟨rfl, rfl⟩ := Prod.mk.inj rest'
      obtain ⟨rfl, adds⟩ :=
        vfsAddChild_adds tree here (fresh.apart block (List.mem_cons_self ..)) called
      exact ⟨block, rfl, (Option.some.inj result).symm, adds⟩

/-- `vfs_add_child` returns for a name that has room, when there is fuel for the children. -/
theorem addNext_returns (tree : IsTree s.links s.vfsRoot kids) (here : s.Inside kids p)
    {name t : List UInt8} (holds : CString.Holds name t) (room : t.length < 256) (type : Nat)
    (block : NodeBlock α) (blocks : List (NodeBlock α))
    : ∃ s', ∀ fuel, (kids p).length ≤ fuel
        → s.addNext fuel p name type (block :: blocks) = some (block.addr, s', blocks) := by
  obtain ⟨stored, copied, -⟩ := strcpy_holds block.name.val holds (by rwa [block.name.property])
  have made : ∃ s₁, s.vfsCreateNode block name type = some s₁ := by
    rw [vfsCreateNode, copied]
    exact ⟨_, rfl⟩
  obtain ⟨s₁, made⟩ := made
  have chain := tree.chain p here
  cases first : (s.node p).childs with
  | none =>
      let s' := (s₁.setChilds p (some block.addr)).setParent block.addr (some p)
      refine ⟨s', fun fuel _ => ?_⟩
      rw [addNext, vfsAddChild]
      simp only [first, made]
      rfl
  | some x =>
      have link : s.links.childs p = some x := first
      rw [link] at chain
      rcases List.eq_nil_or_concat (kids p) with none | ⟨front, y, split⟩
      · rw [none] at chain
        cases chain
      rw [List.concat_eq_append] at split
      rw [split] at chain
      let s' := ((s₁.setNext y (some block.addr)).setParent block.addr (some p)).setPrev block.addr
        (some y)
      refine ⟨s', fun fuel enough => ?_⟩
      rw [split, List.length_append, List.length_singleton] at enough
      have walked : last (fun n => (s.node n).next) fuel x = some y := last_eq chain enough
      rw [addNext, vfsAddChild]
      simp only [first, walked, made]
      rfl

-----------------------------------------------------------------------------------------
-- Freeing nodes
-----------------------------------------------------------------------------------------

/-- What freeing nodes does: they have no first child any more. -/
structure Freed (s s' : VfsState α) (gone : α → Prop) : Prop where
  roots : SameRoots s s'
  entry : ∀ n, ∃ childs, s'.node n = { s.node n with childs }
  cleared : ∀ n, gone n → (s'.node n).childs = none
  kept : ∀ n, ¬ gone n → (s'.node n).childs = (s.node n).childs

omit [DecidableEq α] in
theorem Freed.refl (s : VfsState α) : Freed s s (fun _ => False) :=
  ⟨⟨rfl, rfl, rfl⟩, fun _ => ⟨_, rfl⟩, fun _ none => none.elim, fun _ _ => rfl⟩

omit [DecidableEq α] in
/-- The same nodes, described differently. -/
theorem Freed.congr {gone gone' : α → Prop} (h : Freed s s' gone) (same : ∀ n, gone n ↔ gone' n)
    : Freed s s' gone' :=
  ⟨h.roots, h.entry, fun n there => h.cleared n ((same n).mpr there),
    fun n outside => h.kept n (fun there => outside ((same n).mp there))⟩

theorem Freed.setChilds {gone : α → Prop} (h : Freed s s' gone) (n : α)
    : Freed s (s'.setChilds n none) (fun m => gone m ∨ m = n) := by
  refine ⟨⟨h.roots.vfsRoot, h.roots.tmpfsRoot, h.roots.devfsRoot⟩, fun m => ?_, fun m there => ?_,
    fun m outside => ?_⟩
  · obtain ⟨childs, entry⟩ := h.entry m
    rw [VfsState.setChilds, setNode_node]
    split
    · next same =>
        rw [← same, entry]
        exact ⟨none, rfl⟩
    · exact ⟨childs, entry⟩
  · rw [VfsState.setChilds, setNode_node]
    split
    · rfl
    · next other => exact h.cleared m (there.resolve_right other)
  · obtain ⟨notGone, other⟩ := not_or.mp outside
    rw [VfsState.setChilds, setNode_node, if_neg other]
    exact h.kept m notGone

/-- The siblings from a node on and what lies below them are freed, by induction on the fuel: first
what is below a node, then the node, then the siblings behind it. None of these was freed before,
so their links are still those of the tree.
-/
theorem freeNodes_freed {s₀ : VfsState α} (tree : IsTree s₀.links s₀.vfsRoot kids)
    (here : s₀.Inside kids p) {before xs : List α} (siblings : kids p = before ++ xs)
    {q : Option α} (chain : Chain s₀.links.next q xs) {gone : α → Prop} (earlier : Freed s₀ s gone)
    (apart : ∀ x ∈ xs, ∀ n, Below kids x n → ¬ gone n) {fuel : Nat}
    (freed : s.freeNodes fuel q = some s')
    : Freed s₀ s' (fun n => gone n ∨ ∃ x ∈ xs, Below kids x n) := by
  induction fuel generalizing s s' p before xs q gone with
  | zero =>
      cases xs with
      | nil =>
          obtain rfl : q = none := chain
          obtain rfl := Option.some.inj freed
          exact earlier.congr (fun n => by simp)
      | cons x xs =>
          obtain ⟨rfl, -⟩ := chain
          cases freed
  | succ fuel ih =>
      cases xs with
      | nil =>
          obtain rfl : q = none := chain
          obtain rfl := Option.some.inj freed
          exact earlier.congr (fun n => by simp)
      | cons x xs =>
          obtain ⟨rfl, rest⟩ := chain
          have member : x ∈ kids p := by
            rw [siblings]
            exact List.mem_append_right _ (List.mem_cons_self ..)
          have hereX := here.child member
          obtain ⟨s₁, below, freed⟩ := Option.bind_eq_some_iff.mp freed
          -- First the children of the node.
          have link : (s.node x).childs = (s₀.node x).childs :=
            earlier.kept x (apart x (List.mem_cons_self ..) x .refl)
          rw [link] at below
          have whole : kids x = [] ++ kids x := rfl
          have inner := ih hereX whole (tree.chain x hereX) earlier
            (fun c inside n under =>
              apart x (List.mem_cons_self ..) n ((below_of_mem inside).trans under)) below
          -- Then its siblings.
          have outer : Freed s₀ (s₁.setChilds x none) (fun n => gone n ∨ Below kids x n) := by
            refine (inner.setChilds x).congr (fun n => ?_)
            rw [below_iff (p := x), or_assoc, or_comm (a := n = x)]
          have next : ((s₁.setChilds x none).node x).next = s₀.links.next x := by
            obtain ⟨childs, entry⟩ := outer.entry x
            rw [entry]
            rfl
          replace freed : freeNodes fuel (s₁.setChilds x none)
              ((s₁.setChilds x none).node x).next = some s' := freed
          rw [next] at freed
          have nodup := tree.kids_nodup here
          rw [siblings] at nodup
          have siblings' : kids p = (before ++ [x]) ++ xs := by
            rw [siblings, List.append_assoc]
            rfl
          have all := ih here siblings' rest outer (fun y later n under => ?_) freed
          · refine all.congr (fun n => ?_)
            rw [List.exists_mem_cons_iff, or_assoc]
          · rintro (before' | under')
            · exact apart y (List.mem_cons_of_mem _ later) n under before'
            · have other : x ≠ y := by
                rintro rfl
                exact (List.nodup_cons.mp (List.nodup_append.mp nodup).2.1).1 later
              have memberY : y ∈ kids p := by
                rw [siblings']
                exact List.mem_append_right _ later
              exact tree.siblings_apart here member memberY other under' under

/-- Freeing children of a node returns, after other nodes have been freed. -/
def FreeReturns (s₀ : VfsState α) (kids : α → List α) (p : α) : Prop :=
  ∀ before xs, kids p = before ++ xs → ∀ q, Chain s₀.links.next q xs
    → ∀ (s : VfsState α) (gone : α → Prop), Freed s₀ s gone
    → (∀ x ∈ xs, ∀ n, Below kids x n → ¬ gone n)
    → ∃ enough s', ∀ fuel, enough ≤ fuel → s.freeNodes fuel q = some s'

/-- Freeing children of a node of the tree returns, by induction on the tree and on the children. A
round needs the fuel for what is below its node or for the rounds behind it, whichever is more.
-/
theorem freeReturns {s₀ : VfsState α} (tree : IsTree s₀.links s₀.vfsRoot kids)
    (here : s₀.Inside kids p)
    : FreeReturns s₀ kids p := by
  refine tree.induct (fun p here below => ?_) here
  intro before xs siblings q chain s gone earlier apart
  induction xs generalizing before q s gone with
  | nil =>
      obtain rfl : q = none := chain
      refine ⟨0, s, fun fuel _ => ?_⟩
      cases fuel <;> rfl
  | cons x xs ih =>
      obtain ⟨rfl, rest⟩ := chain
      have member : x ∈ kids p := by
        rw [siblings]
        exact List.mem_append_right _ (List.mem_cons_self ..)
      have hereX := here.child member
      have link : (s.node x).childs = (s₀.node x).childs :=
        earlier.kept x (apart x (List.mem_cons_self ..) x .refl)
      have apartX (c : α) (inside : c ∈ kids x) (n : α) (under : Below kids c n) : ¬ gone n :=
        apart x (List.mem_cons_self ..) n ((below_of_mem inside).trans under)
      have whole : kids x = [] ++ kids x := rfl
      obtain ⟨enough, s₁, inner⟩ := below x member _ _ whole _ (tree.chain x hereX) s gone earlier apartX
      have freed := freeNodes_freed tree hereX whole (tree.chain x hereX) earlier apartX
        (inner enough le_rfl)
      have outer : Freed s₀ (s₁.setChilds x none) (fun n => gone n ∨ Below kids x n) := by
        refine (freed.setChilds x).congr (fun n => ?_)
        rw [below_iff (p := x), or_assoc, or_comm (a := n = x)]
      have next : ((s₁.setChilds x none).node x).next = s₀.links.next x := by
        obtain ⟨childs, entry⟩ := outer.entry x
        rw [entry]
        rfl
      have nodup := tree.kids_nodup here
      rw [siblings] at nodup
      have siblings' : kids p = (before ++ [x]) ++ xs := by
        rw [siblings, List.append_assoc]
        rfl
      obtain ⟨enough', s', later⟩ := ih _ siblings' _ rest _ _ outer (fun y behind n under => by
        rintro (before' | under')
        · exact apart y (List.mem_cons_of_mem _ behind) n under before'
        · have other : x ≠ y := by
            rintro rfl
            exact (List.nodup_cons.mp (List.nodup_append.mp nodup).2.1).1 behind
          have memberY : y ∈ kids p := by
            rw [siblings']
            exact List.mem_append_right _ behind
          exact tree.siblings_apart here member memberY other under' under)
      refine ⟨max enough enough' + 1, s', fun fuel bound => ?_⟩
      obtain ⟨fuel, rfl⟩ := Nat.exists_eq_add_of_le' (Nat.le_trans (Nat.le_add_left 1 _) bound)
      have bounds := max_le_iff.mp (Nat.le_of_succ_le_succ bound)
      have linked : (s.node x).childs = s₀.links.childs x := link
      rw [freeNodes, linked, inner fuel bounds.1, Option.bind_eq_bind, Option.bind_some]
      dsimp only
      rw [next]
      exact later fuel bounds.2

theorem vfsFreeChildNodes_freed (tree : IsTree s.links s.vfsRoot kids) (here : s.Inside kids p)
    {fuel : Nat} (freed : s.vfsFreeChildNodes fuel p = some s')
    : Freed s s' (Below kids p) := by
  obtain ⟨s₁, below, rest⟩ := Option.bind_eq_some_iff.mp freed
  obtain rfl := Option.some.inj rest
  have whole : kids p = [] ++ kids p := rfl
  have inner := freeNodes_freed tree here whole (tree.chain p here) (.refl s)
    (fun _ _ _ _ none => none) below
  refine (inner.setChilds p).congr (fun n => ?_)
  rw [below_iff (p := p), false_or, or_comm]

theorem vfsFreeChildNodes_returns (tree : IsTree s.links s.vfsRoot kids) (here : s.Inside kids p)
    : ∃ enough s', ∀ fuel, enough ≤ fuel → s.vfsFreeChildNodes fuel p = some s' := by
  have whole : kids p = [] ++ kids p := rfl
  obtain ⟨enough, s₁, freed⟩ := freeReturns tree here _ _ whole _ (tree.chain p here) s _ (.refl s)
    (fun _ _ _ _ none => none)
  refine ⟨enough, s₁.setChilds p none, fun fuel bound => ?_⟩
  have linked : (s.node p).childs = s.links.childs p := rfl
  rw [vfsFreeChildNodes, linked, freed fuel bound]
  rfl

theorem Freed.isTree (freed : Freed s s' (Below kids p)) (tree : IsTree s.links s.vfsRoot kids)
    (here : s.Inside kids p)
    : IsTree s'.links s'.vfsRoot (dropKids kids p) := by
  have entry (n : α) : (s'.node n).parent = (s.node n).parent
      ∧ (s'.node n).next = (s.node n).next := by
    obtain ⟨childs, entry⟩ := freed.entry n
    rw [entry]
    exact ⟨rfl, rfl⟩
  rw [freed.roots.vfsRoot]
  exact tree.dropKids here (fun n _ => (entry n).1) (freed.cleared p .refl)
    (fun n _ outside => freed.kept n outside) (fun n _ => (entry n).2)

/-- What is left keeps the order. -/
theorem Shape.freed (shape : Shape s kids created) (here : s.Inside kids p)
    (freed : Freed s s' (Below kids p))
    : Shape s' (dropKids kids p) created := by
  refine ⟨freed.isTree shape.tree here, fun n left => ?_, fun n left => ?_⟩
  · rw [freed.roots.vfsRoot] at left
    rw [dropKids]
    split
    · exact List.nil_sublist _
    · exact shape.ordered n left.of_dropKids
  · rw [freed.roots.vfsRoot] at left
    obtain ⟨childs, entry⟩ := freed.entry n
    rw [entry]
    exact shape.ends n left.of_dropKids

-----------------------------------------------------------------------------------------
-- Whole calls
-----------------------------------------------------------------------------------------

omit [DecidableEq α] in
/-- The same static variables twice. -/
theorem SameRoots.trans (h : SameRoots s s') (h' : SameRoots s' s'') : SameRoots s s'' :=
  ⟨h'.vfsRoot.trans h.vfsRoot, h'.tmpfsRoot.trans h.tmpfsRoot, h'.devfsRoot.trans h.devfsRoot⟩

/-- The nodes are a tree after a call that has used some of its blocks for new nodes. -/
def Creates (s s' : VfsState α) (created : List α) (blocks rest : List (NodeBlock α)) : Prop :=
  ∃ used kids', blocks = used ++ rest ∧ Shape s' kids' (created ++ used.map NodeBlock.addr)
    ∧ s'.vfsRoot = s.vfsRoot

/-- A call that changes nothing. -/
theorem Shape.creates (shape : Shape s kids created) (blocks : List (NodeBlock α))
    : Creates s s created blocks blocks := by
  refine ⟨[], kids, rfl, ?_, rfl⟩
  rw [List.map_nil, List.append_nil]
  exact shape

/-- The shape depends on the links and the names only. -/
theorem Shape.congr (shape : Shape s kids created) (links : s'.links = s.links)
    (root : s'.vfsRoot = s.vfsRoot) (names : ∀ n, (s'.node n).name = (s.node n).name)
    : Shape s' kids created := by
  refine ⟨?_, ?_, fun n inside => ?_⟩
  · rw [links, root]
    exact shape.tree
  · rw [root]
    exact shape.ordered
  · rw [root] at inside
    rw [names]
    exact shape.ends n inside

theorem setFile_links (s : VfsState α) (n : α) (f : VfsFile → VfsFile)
    : (s.setFile n f).links = s.links := by
  have same (m : α) : ((s.setFile n f).node m).toVfsNode = (s.node m).toVfsNode := by
    rw [setFile, setNode_node]
    split
    · next equal => rw [equal]
    · rfl
  simp only [links, same]

theorem setFile_name (s : VfsState α) (n : α) (f : VfsFile → VfsFile) (m : α)
    : ((s.setFile n f).node m).name = (s.node m).name := by
  rw [setFile, setNode_node]
  split
  · next equal => rw [equal]
  · rfl

theorem Shape.addNext (shape : Shape s kids created) (here : s.Inside kids p)
    {blocks rest : List (NodeBlock α)} (fresh : Fresh s kids blocks) {fuel : Nat}
    {name : List UInt8} {type : Nat} (added : s.addNext fuel p name type blocks = some (c, s', rest))
    : ∃ block, blocks = block :: rest ∧ c = block.addr
        ∧ Shape s' (addKid kids p c) (created ++ [c])
        ∧ (∀ n, s.Inside kids n ∨ n = c → s'.Inside (addKid kids p c) n)
        ∧ Fresh s' (addKid kids p c) rest ∧ SameRoots s s' := by
  obtain ⟨block, rfl, rfl, adds⟩ := addNext_adds shape.tree here fresh added
  have apart := fresh.apart block (List.mem_cons_self ..)
  refine ⟨block, rfl, rfl, shape.adds here apart adds, fun n either => ?_,
    fresh.adds here adds.roots, adds.roots⟩
  rwa [Inside, adds.roots.vfsRoot, below_addKid_iff here apart]

/-- A child is added and its file assigned to. -/
theorem Shape.createFile (shape : Shape s kids created) (here : s.Inside kids p)
    {blocks rest : List (NodeBlock α)} (fresh : Fresh s kids blocks) {fuel result : Nat}
    {name : List UInt8} {type inode : Nat}
    (made : s.createFile fuel p name type inode blocks = some (result, s', rest))
    : Creates s s' created blocks rest := by
  obtain ⟨⟨node, s₁, blocks₁⟩, added, made⟩ := Option.bind_eq_some_iff.mp made
  obtain ⟨-, same⟩ := Prod.mk.inj (Option.some.inj made)
  obtain ⟨rfl, rfl⟩ := Prod.mk.inj same
  obtain ⟨block, rfl, rfl, shape', -, -, roots⟩ := shape.addNext here fresh added
  exact ⟨[block], _, rfl, shape'.congr (setFile_links _ _ _) rfl (setFile_name _ _ _),
    roots.vfsRoot⟩

/-- The loop of `vfs_make_node` goes on inside the tree, by induction on the fuel. -/
theorem Shape.makeTokens {type fuel : Nat} {token i : Option Nat} {ap : List UInt8}
    {blocks rest : List (NodeBlock α)} (shape : Shape s kids created) (here : s.Inside kids n)
    (fresh : Fresh s kids blocks)
    (made : s.makeTokens type fuel n token i ap blocks = some (c, s', rest))
    : ∃ used kids', blocks = used ++ rest ∧ Shape s' kids' (created ++ used.map NodeBlock.addr)
        ∧ s'.Inside kids' c ∧ SameRoots s s' := by
  induction fuel generalizing s kids created n token i ap blocks with
  | zero => cases made
  | succ fuel ih =>
      cases token with
      | none =>
          obtain ⟨rfl, same⟩ := Prod.mk.inj (Option.some.inj made)
          obtain ⟨rfl, rfl⟩ := Prod.mk.inj same
          refine ⟨[], kids, rfl, ?_, here, rfl, rfl, rfl⟩
          rw [List.map_nil, List.append_nil]
          exact shape
      | some token =>
          obtain ⟨found, search, made⟩ := Option.bind_eq_some_iff.mp made
          obtain ⟨⟨node, s₁, blocks₁⟩, stepped, made⟩ := Option.bind_eq_some_iff.mp made
          obtain ⟨⟨token', i', ap'⟩, -, made⟩ := Option.bind_eq_some_iff.mp made
          cases found with
          | some child =>
              obtain ⟨rfl, same⟩ := Prod.mk.inj (Option.some.inj stepped)
              obtain ⟨rfl, rfl⟩ := Prod.mk.inj same
              exact ih shape (inside_of_getChild shape.tree here search) fresh made
          | none =>
              obtain ⟨block, rfl, rfl, shape₁, inside₁, fresh₁, roots₁⟩ :=
                shape.addNext here fresh stepped
              obtain ⟨used, kids', rfl, shape', inside', roots'⟩ :=
                ih shape₁ (inside₁ _ (.inr rfl)) fresh₁ made
              refine ⟨block :: used, kids', rfl, ?_, inside', roots₁.trans roots'⟩
              rwa [List.append_assoc] at shape'

theorem Shape.vfsMakeNode {type inode fuel : Nat} {i : Option Nat} {kmalloc : Buffer256}
    {path : List UInt8} {blocks rest : List (NodeBlock α)} (shape : Shape s kids created)
    (here : s.Inside kids n) (fresh : Fresh s kids blocks)
    (made : s.vfsMakeNode fuel kmalloc i n path type inode blocks = some (c, s', rest))
    : Creates s s' created blocks rest := by
  obtain ⟨ap, -, made⟩ := Option.bind_eq_some_iff.mp made
  obtain ⟨⟨token, i', ap'⟩, -, made⟩ := Option.bind_eq_some_iff.mp made
  obtain ⟨⟨node, s₁, blocks₁⟩, looped, done⟩ := Option.bind_eq_some_iff.mp made
  obtain ⟨used, kids', rfl, shape₁, inside₁, roots₁⟩ := shape.makeTokens here fresh looped
  have shape₂ := shape₁.congr (setFile_links s₁ node (fun file => { file with type, inode })) rfl
    (setFile_name s₁ node _)
  dsimp only at done
  split at done
  · obtain ⟨s₂, freed, done⟩ := Option.bind_eq_some_iff.mp done
    obtain ⟨rfl, same⟩ := Prod.mk.inj (Option.some.inj done)
    obtain ⟨rfl, rfl⟩ := Prod.mk.inj same
    have gone := vfsFreeChildNodes_freed shape₂.tree inside₁ freed
    exact ⟨used, _, rfl, shape₂.freed inside₁ gone, gone.roots.vfsRoot.trans roots₁.vfsRoot⟩
  · obtain ⟨rfl, same⟩ := Prod.mk.inj (Option.some.inj done)
    obtain ⟨rfl, rfl⟩ := Prod.mk.inj same
    exact ⟨used, kids', rfl, shape₂, roots₁.vfsRoot⟩

omit [DecidableEq α] in
theorem isTree_alone {links : Links α} {root : α} (self : links.parent root = some root)
    (childs : links.childs root = none) (next : links.next root = none)
    : IsTree links root (fun _ => []) := by
  have only {n : α} (below : Below (fun _ => []) root n) : n = root := below.of_nil rfl
  refine ⟨self, next, fun n below => ?_, fun _ _ _ none => (List.not_mem_nil none).elim,
    fun _ _ => List.not_mem_nil, ?_⟩
  · rw [only below]
    exact childs
  · exact (Set.finite_singleton root).subset (fun n below => only below)

theorem createRoot_shape {block : NodeBlock α} {name : List UInt8}
    (made : s.createRoot block name = some s')
    : Shape s' (fun _ => []) [block.addr] ∧ s'.vfsRoot = block.addr
        ∧ s'.tmpfsRoot = s.tmpfsRoot ∧ s'.devfsRoot = s.devfsRoot := by
  obtain ⟨s₁, root, made⟩ := Option.bind_eq_some_iff.mp made
  obtain ⟨stored, copied, rfl⟩ := vfsCreateNode_eq root
  obtain rfl := Option.some.inj made
  refine ⟨⟨isTree_alone ?_ ?_ ?_, fun _ _ => List.nil_sublist _, fun n inside => ?_⟩,
    rfl, rfl, rfl⟩
  · simp [links, setParent, setNode]
  · simp [links, setParent, setNode]
  · simp [links, setParent, setNode]
  · obtain rfl : n = block.addr := inside.of_nil rfl
    simp [setParent, setNode, zero_mem_of_strcpy copied]

/-- `vfs_dummy` makes a tree of its blocks. -/
theorem vfsDummy_shape {fuel : Nat} {blocks rest : List (NodeBlock α)}
    (nodup : (blocks.map NodeBlock.addr).Nodup) (made : s.vfsDummy fuel blocks = some (s', rest))
    : ∃ used kids, blocks = used ++ rest ∧ Shape s' kids (used.map NodeBlock.addr)
        ∧ s'.tmpfsRoot = s.tmpfsRoot ∧ s'.devfsRoot = s.devfsRoot := by
  cases blocks with
  | nil => cases made
  | cons block blocks =>
      obtain ⟨s₁, root, made⟩ := Option.bind_eq_some_iff.mp made
      obtain ⟨shape₁, isRoot, tmpfs₁, devfs₁⟩ := createRoot_shape root
      obtain ⟨first, others⟩ := List.nodup_cons.mp nodup
      have fresh₁ : Fresh s₁ (fun _ => []) blocks := by
        refine ⟨others, fun other member inside => first ?_⟩
        rw [Inside, isRoot] at inside
        exact List.mem_map.mpr ⟨other, member, inside.of_nil rfl⟩
      obtain ⟨⟨bin, s₂, blocks₂⟩, added₂, made⟩ := Option.bind_eq_some_iff.mp made
      obtain ⟨⟨etc, s₃, blocks₃⟩, added₃, made⟩ := Option.bind_eq_some_iff.mp made
      obtain ⟨⟨mnt, s₄, blocks₄⟩, added₄, made⟩ := Option.bind_eq_some_iff.mp made
      obtain ⟨⟨home, s₅, blocks₅⟩, added₅, made⟩ := Option.bind_eq_some_iff.mp made
      obtain ⟨⟨dev, s₆, blocks₆⟩, added₆, made⟩ := Option.bind_eq_some_iff.mp made
      obtain ⟨⟨tmp, s₇, blocks₇⟩, added₇, made⟩ := Option.bind_eq_some_iff.mp made
      obtain ⟨⟨ys, s₈, blocks₈⟩, added₈, made⟩ := Option.bind_eq_some_iff.mp made
      obtain ⟨⟨document, s₉, blocks₉⟩, added₉, made⟩ := Option.bind_eq_some_iff.mp made
      obtain ⟨⟨program, s₀, blocks₀⟩, added₀, made⟩ := Option.bind_eq_some_iff.mp made
      obtain ⟨rfl, rfl⟩ := Prod.mk.inj (Option.some.inj made)
      obtain ⟨b₂, rfl, rfl, shape₂, -, fresh₂, roots₂⟩ := shape₁.addNext .refl fresh₁ added₂
      obtain ⟨b₃, rfl, rfl, shape₃, -, fresh₃, roots₃⟩ := shape₂.addNext .refl fresh₂ added₃
      obtain ⟨b₄, rfl, rfl, shape₄, -, fresh₄, roots₄⟩ := shape₃.addNext .refl fresh₃ added₄
      obtain ⟨b₅, rfl, rfl, shape₅, in₅, fresh₅, roots₅⟩ := shape₄.addNext .refl fresh₄ added₅
      obtain ⟨b₆, rfl, rfl, shape₆, in₆, fresh₆, roots₆⟩ := shape₅.addNext .refl fresh₅ added₆
      obtain ⟨b₇, rfl, rfl, shape₇, in₇, fresh₇, roots₇⟩ := shape₆.addNext .refl fresh₆ added₇
      have homeHere := in₇ _ (.inl (in₆ _ (.inl (in₅ _ (.inr rfl)))))
      obtain ⟨b₈, rfl, rfl, shape₈, in₈, fresh₈, roots₈⟩ := shape₇.addNext homeHere fresh₇ added₈
      have ysHere := in₈ _ (.inr rfl)
      obtain ⟨b₉, rfl, rfl, shape₉, in₉, fresh₉, roots₉⟩ := shape₈.addNext ysHere fresh₈ added₉
      have ysHere' := in₉ _ (.inl ysHere)
      obtain ⟨b₀, rfl, rfl, shape₀, -, -, roots₀⟩ := shape₉.addNext ysHere' fresh₉ added₀
      have roots := ((((((((roots₂.trans roots₃).trans roots₄).trans roots₅).trans roots₆).trans
        roots₇).trans roots₈).trans roots₉).trans roots₀)
      exact ⟨[block, b₂, b₃, b₄, b₅, b₆, b₇, b₈, b₉, b₀], _, rfl, shape₀,
        roots.tmpfsRoot.trans tmpfs₁, roots.devfsRoot.trans devfs₁⟩

/-- `tmpfs_init` assigns to `tmpfs_root` only. -/
theorem Shape.tmpfsInit (shape : Shape s kids created) {kmalloc : Buffer256} {fuel result : Nat}
    {i : Option Nat} {path : List UInt8}
    (made : s.tmpfsInit fuel kmalloc i path = some (result, s'))
    : Shape s' kids created ∧ s'.vfsRoot = s.vfsRoot := by
  rw [VfsState.tmpfsInit] at made
  split at made
  · obtain ⟨-, rfl⟩ := Prod.mk.inj (Option.some.inj made)
    exact ⟨shape, rfl⟩
  · obtain ⟨root, -, made⟩ := Option.bind_eq_some_iff.mp made
    obtain ⟨-, rfl⟩ := Prod.mk.inj (Option.some.inj made)
    exact ⟨shape.congr rfl rfl (fun _ => rfl), rfl⟩

/-- `devfs_init` assigns to `devfs_root` only. -/
theorem Shape.devfsInit (shape : Shape s kids created) {kmalloc : Buffer256} {fuel result : Nat}
    {i : Option Nat} {path : List UInt8}
    (made : s.devfsInit fuel kmalloc i path = some (result, s'))
    : Shape s' kids created ∧ s'.vfsRoot = s.vfsRoot := by
  rw [VfsState.devfsInit] at made
  split at made
  · obtain ⟨-, rfl⟩ := Prod.mk.inj (Option.some.inj made)
    exact ⟨shape, rfl⟩
  · obtain ⟨root, -, made⟩ := Option.bind_eq_some_iff.mp made
    obtain ⟨-, rfl⟩ := Prod.mk.inj (Option.some.inj made)
    exact ⟨shape.congr rfl rfl (fun _ => rfl), rfl⟩

/-- `tmpfs_create`, if the root of the file system is a node of the tree. -/
theorem Shape.tmpfsCreate {type fuel result : Nat} {i : Option Nat} {kmalloc : Buffer256}
    {before : UInt8} {path : List UInt8} {blocks rest : List (NodeBlock α)}
    (shape : Shape s kids created) (root : ∀ r ∈ s.tmpfsRoot, s.Inside kids r)
    (fresh : Fresh s kids blocks)
    (made : s.tmpfsCreate fuel kmalloc i before path type blocks = some (result, s', rest))
    : Creates s s' created blocks rest := by
  have unchanged {code : Nat}
      (same : some (code, s, blocks) = some (result, s', rest))
      : Creates s s' created blocks rest := by
    obtain ⟨-, same⟩ := Prod.mk.inj (Option.some.inj same)
    obtain ⟨rfl, rfl⟩ := Prod.mk.inj same
    exact shape.creates blocks
  rw [VfsState.tmpfsCreate] at made
  cases isRoot : s.tmpfsRoot with
  | none =>
      rw [isRoot] at made
      exact unchanged made
  | some tmpfsRoot =>
      have here := root tmpfsRoot isRoot
      rw [isRoot] at made
      dsimp only at made
      split at made
      · exact unchanged made
      split at made
      · exact unchanged made
      obtain ⟨up, -, made⟩ := Option.bind_eq_some_iff.mp made
      obtain ⟨n, -, made⟩ := Option.bind_eq_some_iff.mp made
      obtain ⟨last, -, made⟩ := Option.bind_eq_some_iff.mp made
      split at made
      · exact unchanged made
      split at made
      · exact unchanged made
      split at made
      · exact shape.createFile here fresh made
      obtain ⟨parent, found, made⟩ := Option.bind_eq_some_iff.mp made
      cases parent with
      | none => exact unchanged made
      | some parent =>
          exact shape.createFile (inside_of_fromPath shape.tree here found) fresh made

/-- `devfs_register_dev`, if the root of the file system is a node of the tree. -/
theorem Shape.devfsRegisterDev {type deviceSpecific fuel result : Nat} {name : List UInt8}
    {blocks rest : List (NodeBlock α)} (shape : Shape s kids created)
    (root : ∀ r ∈ s.devfsRoot, s.Inside kids r) (fresh : Fresh s kids blocks)
    (made : s.devfsRegisterDev fuel name type deviceSpecific blocks = some (result, s', rest))
    : Creates s s' created blocks rest := by
  have unchanged {code : Nat}
      (same : some (code, s, blocks) = some (result, s', rest))
      : Creates s s' created blocks rest := by
    obtain ⟨-, same⟩ := Prod.mk.inj (Option.some.inj same)
    obtain ⟨rfl, rfl⟩ := Prod.mk.inj same
    exact shape.creates blocks
  rw [VfsState.devfsRegisterDev] at made
  cases isRoot : s.devfsRoot with
  | none =>
      rw [isRoot] at made
      exact unchanged made
  | some devfsRoot =>
      have here := root devfsRoot isRoot
      rw [isRoot] at made
      dsimp only at made
      split at made
      · exact unchanged made
      · exact shape.createFile here fresh made

-----------------------------------------------------------------------------------------
-- The file of a new node
-----------------------------------------------------------------------------------------

/-- Assigning to the links of a node changes no file. -/
theorem setChilds_file (s : VfsState α) (n : α) (childs : Option α) (m : α)
    : ((s.setChilds n childs).node m).file = (s.node m).file := by
  rw [setChilds, setNode_node]
  split
  · next same => rw [same]
  · rfl

theorem setParent_file (s : VfsState α) (n : α) (parent : Option α) (m : α)
    : ((s.setParent n parent).node m).file = (s.node m).file := by
  rw [setParent, setNode_node]
  split
  · next same => rw [same]
  · rfl

theorem setNext_file (s : VfsState α) (n : α) (next : Option α) (m : α)
    : ((s.setNext n next).node m).file = (s.node m).file := by
  rw [setNext, setNode_node]
  split
  · next same => rw [same]
  · rfl

theorem setPrev_file (s : VfsState α) (n : α) (prev : Option α) (m : α)
    : ((s.setPrev n prev).node m).file = (s.node m).file := by
  rw [setPrev, setNode_node]
  split
  · next same => rw [same]
  · rfl

/-- The file that `vfs_create_node` makes of what its block held. -/
def newFile (held : VfsFile) (type : Nat) : VfsFile :=
  { held with type, permissions := newPermissions type }

/-- The files behind `vfs_add_child`: the new node has that of its block, and no other changes. -/
theorem vfsAddChild_files {block : NodeBlock α} {fuel : Nat} {name : List UInt8} {type : Nat}
    {r : Option α} (added : s.vfsAddChild fuel (some p) name type block = some (r, s'))
    : r = some block.addr
      ∧ ∀ n, (s'.node n).file
        = if n = block.addr then newFile block.contents.file type else (s.node n).file := by
  rw [vfsAddChild] at added
  cases first : (s.node p).childs with
  | none =>
      rw [first] at added
      obtain ⟨s₁, made, rest⟩ := Option.bind_eq_some_iff.mp added
      obtain ⟨stored, -, rfl⟩ := vfsCreateNode_eq made
      obtain ⟨rfl, rfl⟩ := Prod.mk.inj (Option.some.inj rest)
      refine ⟨rfl, fun n => ?_⟩
      rw [setParent_file, setChilds_file, setNode_node]
      split <;> rfl
  | some x =>
      rw [first] at added
      obtain ⟨child, -, added⟩ := Option.bind_eq_some_iff.mp added
      obtain ⟨s₁, made, rest⟩ := Option.bind_eq_some_iff.mp added
      obtain ⟨stored, -, rfl⟩ := vfsCreateNode_eq made
      obtain ⟨rfl, rfl⟩ := Prod.mk.inj (Option.some.inj rest)
      refine ⟨rfl, fun n => ?_⟩
      rw [setPrev_file, setParent_file, setNext_file, setNode_node]
      split <;> rfl

theorem vfsAddChild_file {block : NodeBlock α} {fuel : Nat} {name : List UInt8} {type : Nat}
    {r : Option α} (added : s.vfsAddChild fuel (some p) name type block = some (r, s'))
    : r = some block.addr ∧ (s'.node block.addr).file = newFile block.contents.file type := by
  obtain ⟨new, files⟩ := vfsAddChild_files added
  exact ⟨new, (files block.addr).trans (if_pos rfl)⟩

/-- The file of the node that `tmpfs_create` and `devfs_register_dev` create. -/
theorem createFile_file {blocks rest : List (NodeBlock α)} {fuel result : Nat} {name : List UInt8}
    {type inode : Nat} (made : s.createFile fuel p name type inode blocks = some (result, s', rest))
    : ∃ block, blocks = block :: rest
        ∧ (s'.node block.addr).file = { newFile block.contents.file type with inode } := by
  obtain ⟨⟨node, s₁, blocks₁⟩, added, made⟩ := Option.bind_eq_some_iff.mp made
  obtain ⟨-, same⟩ := Prod.mk.inj (Option.some.inj made)
  obtain ⟨rfl, rfl⟩ := Prod.mk.inj same
  cases blocks with
  | nil => cases added
  | cons block blocks =>
      obtain ⟨⟨r, s₂⟩, called, added⟩ := Option.bind_eq_some_iff.mp added
      obtain ⟨child, isChild, ends⟩ := Option.bind_eq_some_iff.mp added
      obtain ⟨rfl, after⟩ := Prod.mk.inj (Option.some.inj ends)
      obtain ⟨rfl, rfl⟩ := Prod.mk.inj after
      obtain ⟨rfl, file⟩ := vfsAddChild_file called
      obtain rfl := Option.some.inj isChild
      refine ⟨block, rfl, ?_⟩
      rw [setFile, setNode_node, if_pos rfl, file]

/-- The file that `tmpfs_create` creates has no block and the size that its own block held. -/
theorem tmpfsCreate_file {type fuel : Nat} {i : Option Nat} {kmalloc : Buffer256}
    {before : UInt8} {path : List UInt8} {blocks rest : List (NodeBlock α)}
    (made : s.tmpfsCreate fuel kmalloc i before path type blocks = some (0, s', rest))
    : ∃ block, blocks = block :: rest
        ∧ (s'.node block.addr).file = { newFile block.contents.file type with inode := 0 } := by
  rw [VfsState.tmpfsCreate] at made
  cases isRoot : s.tmpfsRoot with
  | none =>
      rw [isRoot] at made
      cases made
  | some tmpfsRoot =>
      rw [isRoot] at made
      dsimp only at made
      split at made
      · cases made
      split at made
      · cases made
      obtain ⟨up, -, made⟩ := Option.bind_eq_some_iff.mp made
      obtain ⟨n, -, made⟩ := Option.bind_eq_some_iff.mp made
      obtain ⟨last, -, made⟩ := Option.bind_eq_some_iff.mp made
      split at made
      · cases made
      split at made
      · cases made
      split at made
      · exact createFile_file made
      obtain ⟨parent, -, made⟩ := Option.bind_eq_some_iff.mp made
      cases parent with
      | none => cases made
      | some parent => exact createFile_file made

end Hydrangea.VfsState
