import Hydrangea.Ds.Comparator
import Hydrangea.Lib.SearchTree
import Hydrangea.Mem.Pmm

/-! The binary search trees of `kernel/ds/BST.c`. A pointer is its address, NULL is 0. The functions
take fuel for the nodes on their way down, and return none without it.
-/

namespace Hydrangea

open SearchTree BinaryTree

/-- The fields of every `BST_node_t` by its address, and `placement_addr`. -/
structure BSTMemory where
  left : Nat → Nat
  right : Nat → Nat
  key : Nat → Nat
  placementAddr : Nat

namespace BSTMemory

/-- The size of a `BST_node_t`. -/
def sizeofBSTNode : Nat := 12

/-- The stores of `BST_add` into a new node. -/
def initNode (m : BSTMemory) (node key : Nat) : BSTMemory :=
  { m with
    left := Function.update m.left node 0
    right := Function.update m.right node 0
    key := Function.update m.key node key }

/-- `BST_add` at NULL: only its local variable points to the new node. -/
def addAtNull (m : BSTMemory) (key : Nat) : BSTMemory :=
  let node := pmalloc m.placementAddr sizeofBSTNode
  { m with placementAddr := node.2 }.initNode node.1 key

/-- `BST_add` at a node without a right child. -/
def addRight (m : BSTMemory) (root key : Nat) : BSTMemory :=
  let node := pmalloc m.placementAddr sizeofBSTNode
  let m := { m with placementAddr := node.2, right := Function.update m.right root node.1 }
  m.initNode (m.right root) key

/-- `BST_add` at a node without a left child. -/
def addLeft (m : BSTMemory) (root key : Nat) : BSTMemory :=
  let node := pmalloc m.placementAddr sizeofBSTNode
  let m := { m with placementAddr := node.2, left := Function.update m.left root node.1 }
  m.initNode (m.left root) key

def bstAdd (cmp : ComparatorT) : Nat → BSTMemory → Nat → Nat → Option BSTMemory
  | 0, _, _, _ => none
  | fuel + 1, m, root, key =>
      if root = 0 then
        some (m.addAtNull key)
      else if cmp key (m.key root) = 1 then
        if m.right root ≠ 0 then bstAdd cmp fuel m (m.right root) key
        else some (m.addRight root key)
      else if cmp key (m.key root) = -1 then
        if m.left root ≠ 0 then bstAdd cmp fuel m (m.left root) key
        else some (m.addLeft root key)
      else
        some m

/-- The loop of `BST_remove` that goes down to the in-order successor. -/
def inorderSuccessor : Nat → BSTMemory → Nat → Option Nat
  | 0, _, _ => none
  | fuel + 1, m, inorderS =>
      if m.left inorderS ≠ 0 then inorderSuccessor fuel m (m.left inorderS) else some inorderS

/-- `root->left = left`. -/
def setLeft (m : BSTMemory) (root left : Nat) : BSTMemory :=
  { m with left := Function.update m.left root left }

/-- `root->right = right`. -/
def setRight (m : BSTMemory) (root right : Nat) : BSTMemory :=
  { m with right := Function.update m.right root right }

/-- `BST_remove`: the memory after it and the pointer returned. -/
def bstRemove (cmp : ComparatorT) : Nat → BSTMemory → Nat → Nat → Option (BSTMemory × Nat)
  | 0, _, _, _ => none
  | fuel + 1, m, root, key =>
      if root = 0 then
        some (m, root)
      else if cmp key (m.key root) = 1 then
        if m.right root ≠ 0 then
          (bstRemove cmp fuel m (m.right root) key).map (fun r => (r.1.setRight root r.2, root))
        else
          some (m, root)
      else if cmp key (m.key root) = -1 then
        if m.left root ≠ 0 then
          (bstRemove cmp fuel m (m.left root) key).map (fun r => (r.1.setLeft root r.2, root))
        else
          some (m, root)
      else if m.right root ≠ 0 ∧ m.left root ≠ 0 then
        (inorderSuccessor fuel m (m.right root)).bind (fun inorderS =>
          let m := { m with key := Function.update m.key root (m.key inorderS) }
          -- the key that is removed is still the one of the caller, not the successor's
          (bstRemove cmp fuel m (m.right root) key).map (fun r => (r.1.setRight root r.2, root)))
      else if m.right root ≠ 0 then
        some (m, m.left root)
      else
        some (m, m.right root)

def bstFind (cmp : ComparatorT) : Nat → BSTMemory → Nat → Nat → Option Nat
  | 0, _, _, _ => none
  | fuel + 1, m, root, key =>
      if root = 0 then
        some 0
      else if cmp key (m.key root) = 1 then
        if m.right root ≠ 0 then bstFind cmp fuel m (m.right root) key else some 0
      else if cmp key (m.key root) = -1 then
        if m.left root ≠ 0 then bstFind cmp fuel m (m.left root) key else some 0
      else
        some root

/-- The nodes from `root` on are those of `t`. -/
abbrev HasShape (m : BSTMemory) (root : Nat) (t : BinaryTree Nat) : Prop :=
  Shape 0 m.left m.right root t

/-- The nodes from `root` on are those of `t`, with keys that grow strictly from left to right. -/
structure IsSearchTree (m : BSTMemory) (cmp : ComparatorT) (root : Nat) (t : BinaryTree Nat)
    : Prop where
  shape : m.HasShape root t
  ordered : Ordered cmp.ordering m.key t

/-- The memory of the next node lies outside a tree. -/
structure Fresh (m : BSTMemory) (t : BinaryTree Nat) : Prop where
  positive : m.placementAddr ≠ 0
  outside : m.placementAddr ∉ inorder t

/-- The subtree that `BST_add` leaves where its search ends. -/
def added (node : Nat) : BinaryTree Nat → BinaryTree Nat
  | nil => BinaryTree.node node nil nil
  | t => t

/-- The subtree that `BST_remove` leaves where its search ends: all of it below two children, none
otherwise.
-/
def cut : BinaryTree Nat → BinaryTree Nat
  | node x (node y a b) (node z c d) => node x (node y a b) (node z c d)
  | _ => nil

abbrev toward (m : BSTMemory) (cmp : ComparatorT) (key : Nat) : Nat → Ordering :=
  fun x => cmp.ordering key (m.key x)

variable {m : BSTMemory} {cmp : ComparatorT} {root key fuel : Nat} {t : BinaryTree Nat}

-----------------------------------------------------------------------------------------
-- Searching
-----------------------------------------------------------------------------------------

/-- Searching below NULL finds NULL, so the tests for a child do not matter. -/
theorem bstFind_child (positive : 0 < fuel) (child : Nat)
    : (if child ≠ 0 then bstFind cmp fuel m child key else some 0) = bstFind cmp fuel m child key := by
  split
  · rfl
  · next null =>
      obtain ⟨fuel, rfl⟩ := Nat.exists_eq_succ_of_ne_zero (Nat.ne_of_gt positive)
      rw [bstFind, if_pos (not_not.mp null)]

/-- `BST_find` returns the root of the subtree at which the search ends, by induction on the tree.
-/
theorem bstFind_eq (cmp : ComparatorT) (shape : m.HasShape root t) (key : Nat)
    (enough : t.height < fuel)
    : ∃ p, bstFind cmp fuel m root key = some p ∧ m.HasShape p (locate (m.toward cmp key) t) := by
  obtain ⟨fuel, rfl⟩ := Nat.exists_eq_succ_of_ne_zero (Nat.ne_of_gt (Nat.zero_lt_of_lt enough))
  induction t generalizing root fuel with
  | nil =>
      obtain rfl : root = 0 := shape
      exact ⟨0, by rw [bstFind, if_pos rfl], rfl⟩
  | node x l r ihl ihr =>
      obtain ⟨rfl, there, inl, inr⟩ := shape
      rw [BinaryTree.height] at enough
      obtain ⟨fuel, rfl⟩ := Nat.exists_eq_succ_of_ne_zero (n := fuel) (by omega)
      have positive := Nat.succ_pos fuel
      rw [bstFind, if_neg there, bstFind_child positive, bstFind_child positive, locate]
      cases side : m.toward cmp key root with
      | gt =>
          rw [if_pos (ComparatorT.ordering_eq_gt.mp side)]
          exact ihr inr fuel (by omega)
      | lt =>
          have less := ComparatorT.ordering_eq_lt.mp side
          rw [if_neg (by omega), if_pos less]
          exact ihl inl fuel (by omega)
      | eq =>
          obtain ⟨notGreater, notLess⟩ := ComparatorT.ordering_eq_eq.mp side
          rw [if_neg notGreater, if_neg notLess]
          exact ⟨root, rfl, rfl, there, inl, inr⟩

-----------------------------------------------------------------------------------------
-- Adding a key
-----------------------------------------------------------------------------------------

/-- What an addition leaves as it was: the keys of all nodes but the new one, and the links outside
the tree.
-/
structure Spares (m m' : BSTMemory) (t : BinaryTree Nat) : Prop where
  key : ∀ x, x ≠ m.placementAddr → m'.key x = m.key x
  links : ∀ x, x ∉ inorder t → x ≠ m.placementAddr
    → m'.left x = m.left x ∧ m'.right x = m.right x

/-- Fresh memory is fresh for the subtrees of a node, and is not the node's. -/
theorem Fresh.of_node {x : Nat} {l r : BinaryTree Nat} (fresh : m.Fresh (node x l r))
    : m.Fresh l ∧ m.Fresh r ∧ x ≠ m.placementAddr := by
  obtain ⟨positive, outside⟩ := fresh
  rw [inorder_node, List.mem_append, List.mem_cons, not_or, not_or] at outside
  exact ⟨⟨positive, outside.1⟩, ⟨positive, outside.2.2⟩, Ne.symm outside.2.1⟩

/-- A node whose right subtree alone has changed. -/
theorem HasShape.right {m' : BSTMemory} {x : Nat} {l r : BinaryTree Nat} (there : x ≠ 0)
    (inl : m.HasShape (m.left x) l) (root : m'.left x = m.left x)
    (same : ∀ y ∈ inorder l, m'.left y = m.left y ∧ m'.right y = m.right y)
    (new : m'.HasShape (m'.right x) r)
    : m'.HasShape x (node x l r) := by
  refine ⟨rfl, there, ?_, new⟩
  rw [root]
  exact Shape.congr inl same

/-- A node whose left subtree alone has changed. -/
theorem HasShape.left {m' : BSTMemory} {x : Nat} {l r : BinaryTree Nat} (there : x ≠ 0)
    (inr : m.HasShape (m.right x) r) (root : m'.right x = m.right x)
    (same : ∀ y ∈ inorder r, m'.left y = m.left y ∧ m'.right y = m.right y)
    (new : m'.HasShape (m'.left x) l)
    : m'.HasShape x (node x l r) := by
  refine ⟨rfl, there, new, ?_⟩
  rw [root]
  exact Shape.congr inr same

/-- A memory with a new node alone in it, all else but the links of `root` unchanged. -/
structure Allocated (m : BSTMemory) (root key : Nat) (m' : BSTMemory) : Prop where
  alone : m'.HasShape m.placementAddr (node m.placementAddr nil nil)
  held : m'.key m.placementAddr = key
  key : ∀ x, x ≠ m.placementAddr → m'.key x = m.key x
  links : ∀ x, x ≠ root → x ≠ m.placementAddr → m'.left x = m.left x ∧ m'.right x = m.right x

/-- The new right child of a node. -/
theorem addRight_allocated (positive : m.placementAddr ≠ 0) (other : root ≠ m.placementAddr)
    (key : Nat)
    : m.Allocated root key (m.addRight root key)
      ∧ (m.addRight root key).left root = m.left root
      ∧ (m.addRight root key).right root = m.placementAddr := by
  simp only [addRight, initNode, pmalloc, Function.update_self, Function.update_of_ne other]
  refine ⟨⟨⟨rfl, positive, ?_, ?_⟩, ?_, fun x ne => ?_, fun x away ne => ?_⟩, trivial, trivial⟩
  · exact Function.update_self ..
  · exact Function.update_self ..
  · exact Function.update_self ..
  · exact Function.update_of_ne ne ..
  · simp only [Function.update_of_ne ne, Function.update_of_ne away, and_self]

/-- The new left child of a node. -/
theorem addLeft_allocated (positive : m.placementAddr ≠ 0) (other : root ≠ m.placementAddr)
    (key : Nat)
    : m.Allocated root key (m.addLeft root key)
      ∧ (m.addLeft root key).right root = m.right root
      ∧ (m.addLeft root key).left root = m.placementAddr := by
  simp only [addLeft, initNode, pmalloc, Function.update_self, Function.update_of_ne other]
  refine ⟨⟨⟨rfl, positive, ?_, ?_⟩, ?_, fun x ne => ?_, fun x away ne => ?_⟩, trivial, trivial⟩
  · exact Function.update_self ..
  · exact Function.update_self ..
  · exact Function.update_self ..
  · exact Function.update_of_ne ne ..
  · simp only [Function.update_of_ne ne, Function.update_of_ne away, and_self]

/-- An allocation below a node spares all that lies outside the tree. -/
theorem Allocated.spares {m' : BSTMemory} (allocated : m.Allocated root key m')
    (member : root ∈ inorder t)
    : m.Spares m' t where
  key := allocated.key
  links x outside ne := allocated.links x (fun same => outside (same ▸ member)) ne

/-- What spares all outside a part of a tree spares all outside the tree. -/
theorem Spares.mono {m' : BSTMemory} {t' : BinaryTree Nat} (spares : m.Spares m' t)
    (part : inorder t ⊆ inorder t')
    : m.Spares m' t' where
  key := spares.key
  links x outside ne := spares.links x (fun member => outside (part member)) ne

/-- `BST_add` grafts a new node where its search ends without a node, by induction on the tree. The
subtree on the other side has other nodes, which the stores spare, as all nodes are distinct.
-/
theorem bstAdd_eq (cmp : ComparatorT) (shape : m.HasShape root t) (distinct : (inorder t).Nodup)
    (there : root ≠ 0) (fresh : m.Fresh t) (key : Nat) (enough : t.height < fuel)
    : ∃ m', bstAdd cmp fuel m root key = some m'
      ∧ m'.HasShape root (graft (m.toward cmp key) (added m.placementAddr) t)
      ∧ m.Spares m' t
      ∧ (locate (m.toward cmp key) t = nil → m'.key m.placementAddr = key) := by
  obtain ⟨fuel, rfl⟩ := Nat.exists_eq_succ_of_ne_zero (Nat.ne_of_gt (Nat.zero_lt_of_lt enough))
  induction t generalizing root fuel with
  | nil => exact absurd shape there
  | node x l r ihl ihr =>
      obtain ⟨rfl, -, inl, inr⟩ := shape
      obtain ⟨freshL, freshR, other⟩ := fresh.of_node
      rw [inorder_node, List.nodup_middle, List.nodup_cons, List.mem_append, not_or] at distinct
      obtain ⟨⟨notInL, notInR⟩, distinct⟩ := distinct
      obtain ⟨distinctL, distinctR, apart⟩ := List.nodup_append'.mp distinct
      have neL : ∀ y ∈ inorder l, y ≠ root ∧ y ≠ m.placementAddr :=
        fun y member => ⟨fun same => notInL (same ▸ member), fun same => freshL.2 (same ▸ member)⟩
      have neR : ∀ y ∈ inorder r, y ≠ root ∧ y ≠ m.placementAddr :=
        fun y member => ⟨fun same => notInR (same ▸ member), fun same => freshR.2 (same ▸ member)⟩
      rw [BinaryTree.height] at enough
      obtain ⟨fuel, rfl⟩ := Nat.exists_eq_succ_of_ne_zero (n := fuel) (by omega)
      rw [bstAdd, if_neg there, locate, graft]
      cases side : m.toward cmp key root with
      | gt =>
          rw [if_pos (ComparatorT.ordering_eq_gt.mp side)]
          split
          · next child =>
              obtain ⟨m', ran, shape, spares, held⟩ :=
                ihr inr distinctR child freshR fuel (by omega)
              obtain ⟨left, right⟩ := spares.links root notInR other
              refine ⟨m', ran, .right there inl left (fun y member => ?_) ?_, ?_, held⟩
              · exact spares.links y (apart member) (neL y member).2
              · rw [right]
                exact shape
              · exact spares.mono (by simp)
          · next child =>
              obtain rfl := Shape.eq_nil inr (not_not.mp child)
              obtain ⟨allocated, left, right⟩ := addRight_allocated fresh.positive other key
              refine ⟨_, rfl, .right there inl left (fun y member => ?_) ?_, ?_, ?_⟩
              · exact allocated.links y (neL y member).1 (neL y member).2
              · rw [right]
                exact allocated.alone
              · exact allocated.spares (by simp)
              · exact fun _ => allocated.held
      | lt =>
          have less := ComparatorT.ordering_eq_lt.mp side
          rw [if_neg (by omega), if_pos less]
          split
          · next child =>
              obtain ⟨m', ran, shape, spares, held⟩ :=
                ihl inl distinctL child freshL fuel (by omega)
              obtain ⟨left, right⟩ := spares.links root notInL other
              refine ⟨m', ran, .left there inr right (fun y member => ?_) ?_, ?_, held⟩
              · exact spares.links y (apart.symm member) (neR y member).2
              · rw [left]
                exact shape
              · exact spares.mono (by simp)
          · next child =>
              obtain rfl := Shape.eq_nil inl (not_not.mp child)
              obtain ⟨allocated, right, left⟩ := addLeft_allocated fresh.positive other key
              refine ⟨_, rfl, .left there inr right (fun y member => ?_) ?_, ?_, ?_⟩
              · exact allocated.links y (neR y member).1 (neR y member).2
              · rw [left]
                exact allocated.alone
              · exact allocated.spares (by simp)
              · exact fun _ => allocated.held
      | eq =>
          obtain ⟨notGreater, notLess⟩ := ComparatorT.ordering_eq_eq.mp side
          rw [if_neg notGreater, if_neg notLess]
          refine ⟨m, rfl, ⟨rfl, there, inl, inr⟩, ⟨fun _ _ => rfl, fun _ _ _ => ⟨rfl, rfl⟩⟩, ?_⟩
          exact fun none => absurd none (by simp)

/-- On a search tree, `BST_add` leaves a search tree with the key added to its keys and every node
still in it, and `BST_find` returns a node with a key if and only if the tree has the key. Both
walk to the place that `locate` finds: the walk returns the node there or stores the new one there,
and the order of the tree says what lies there.
-/
theorem bstAdd_bstFind (order : cmp.IsTotalOrder) (tree : m.IsSearchTree cmp root t)
    (there : root ≠ 0) (fresh : m.Fresh t) (enough : t.height < fuel) (key : Nat)
    : (∃ m' t', bstAdd cmp fuel m root key = some m'
        ∧ m'.IsSearchTree cmp root t'
        ∧ keys m'.key t' = insert key (keys m.key t)
        ∧ ∀ x ∈ inorder t, x ∈ inorder t' ∧ m'.key x = m.key x)
      ∧ ∀ key', ∃ p, bstFind cmp fuel m root key' = some p
        ∧ (p ∈ inorder t ∧ m.key p = key' ↔ key' ∈ keys m.key t)
        ∧ (p = 0 ↔ key' ∉ keys m.key t) := by
  obtain ⟨shape, ordered⟩ := tree
  have := order.toTransCmp
  have := order.toLawfulEqCmp
  refine ⟨?_, fun key' => ?_⟩
  · obtain ⟨m', ran, shape', spares, held⟩ :=
      bstAdd_eq cmp shape ordered.nodup there fresh key enough
    have same : ∀ x ∈ inorder t, m'.key x = m.key x :=
      fun x member => spares.key x (fun here => fresh.outside (here ▸ member))
    cases found : locate (m.toward cmp key) t with
    | nil =>
        obtain ⟨ordered', grown, part⟩ :=
          ordered.graft_new (f := added m.placementAddr) rfl found (held found) same
        exact ⟨m', _, ran, ⟨shape', ordered'⟩, grown, fun x member => ⟨part member, same x member⟩⟩
    | node x l r =>
        have kept : graft (m.toward cmp key) (added m.placementAddr) t = t :=
          graft_self (by rw [found]; rfl)
        rw [kept] at shape'
        refine ⟨m', t, ran, ⟨shape', ordered.congr same⟩, ?_, fun x member => ⟨member, same x member⟩⟩
        rw [keys_congr same, Set.insert_eq_of_mem]
        exact ⟨x, ordered.mem_of_locate found⟩
  · obtain ⟨p, ran, shape'⟩ := bstFind_eq cmp shape key' enough
    refine ⟨p, ran, ⟨fun here => ⟨p, here⟩, fun member => ?_⟩, ?_⟩
    · cases found : locate (m.toward cmp key') t with
      | nil => exact absurd member (ordered.not_mem_keys found)
      | node x l r =>
          rw [found] at shape'
          obtain rfl := shape'.1
          exact ordered.mem_of_locate found
    · cases found : locate (m.toward cmp key') t with
      | nil =>
          rw [found] at shape'
          exact ⟨fun _ => ordered.not_mem_keys found, fun _ => shape'⟩
      | node x l r =>
          rw [found] at shape'
          obtain rfl := shape'.1
          exact ⟨fun null => absurd null shape'.2.1,
            fun missing => absurd ⟨p, ordered.mem_of_locate found⟩ missing⟩

def twoNodes : BSTMemory where
  left _ := 0
  right x := if x = 16 then 32 else 0
  key x := if x = 16 then 5 else 7
  placementAddr := 64

theorem twoNodes_isSearchTree
    : twoNodes.IsSearchTree defaultComparator 16 (node 16 nil (node 32 nil nil)) where
  shape := ⟨rfl, by decide, rfl, rfl, by decide, rfl, rfl⟩
  ordered := by
    unfold Ordered
    decide

/-- Adding a key between the two. -/
theorem bstAdd_bstFind_twoNodes
    : (∃ m' t', bstAdd defaultComparator 3 twoNodes 16 6 = some m'
        ∧ m'.IsSearchTree defaultComparator 16 t'
        ∧ keys m'.key t' = insert 6 (keys twoNodes.key (node 16 nil (node 32 nil nil)))
        ∧ ∀ x ∈ [16, 32], x ∈ inorder t' ∧ m'.key x = twoNodes.key x)
      ∧ ∀ key', ∃ p, bstFind defaultComparator 3 twoNodes 16 key' = some p
        ∧ (p ∈ [16, 32] ∧ twoNodes.key p = key'
          ↔ key' ∈ keys twoNodes.key (node 16 nil (node 32 nil nil)))
        ∧ (p = 0 ↔ key' ∉ keys twoNodes.key (node 16 nil (node 32 nil nil))) :=
  bstAdd_bstFind defaultComparator_isTotalOrder twoNodes_isSearchTree (by decide)
    ⟨by decide, by decide⟩ (by decide) 6

-----------------------------------------------------------------------------------------
-- Removing a key
-----------------------------------------------------------------------------------------

@[simp]
theorem setLeft_self : m.setLeft root (m.left root) = m := by
  rw [setLeft, Function.update_eq_self]

@[simp]
theorem setRight_self : m.setRight root (m.right root) = m := by
  rw [setRight, Function.update_eq_self]

/-- Removing below NULL changes nothing, so the tests for a child do not matter. -/
theorem bstRemove_right (positive : 0 < fuel)
    : (if m.right root ≠ 0 then
        (bstRemove cmp fuel m (m.right root) key).map (fun r => (r.1.setRight root r.2, root))
      else some (m, root))
      = (bstRemove cmp fuel m (m.right root) key).map (fun r => (r.1.setRight root r.2, root)) := by
  split
  · rfl
  · next null =>
      obtain ⟨fuel, rfl⟩ := Nat.exists_eq_succ_of_ne_zero (Nat.ne_of_gt positive)
      rw [bstRemove, if_pos (not_not.mp null), Option.map_some, setRight_self]

theorem bstRemove_left (positive : 0 < fuel)
    : (if m.left root ≠ 0 then
        (bstRemove cmp fuel m (m.left root) key).map (fun r => (r.1.setLeft root r.2, root))
      else some (m, root))
      = (bstRemove cmp fuel m (m.left root) key).map (fun r => (r.1.setLeft root r.2, root)) := by
  split
  · rfl
  · next null =>
      obtain ⟨fuel, rfl⟩ := Nat.exists_eq_succ_of_ne_zero (Nat.ne_of_gt positive)
      rw [bstRemove, if_pos (not_not.mp null), Option.map_some, setLeft_self]

/-- The loop ends at the last node down the left side, by induction on the left subtree. -/
theorem inorderSuccessor_eq {l r : BinaryTree Nat} (shape : m.HasShape root (node root l r))
    (enough : l.height < fuel)
    : inorderSuccessor fuel m root = some (leftmost root l) := by
  obtain ⟨fuel, rfl⟩ := Nat.exists_eq_succ_of_ne_zero (Nat.ne_of_gt (Nat.zero_lt_of_lt enough))
  induction l generalizing root r fuel with
  | nil =>
      have none : m.left root = 0 := shape.2.2.1
      rw [inorderSuccessor, if_neg (not_not.mpr none)]
      rfl
  | node y a b iha _ =>
      obtain ⟨-, -, shape, -⟩ := shape
      obtain rfl := shape.1
      rw [BinaryTree.height] at enough
      obtain ⟨fuel, rfl⟩ := Nat.exists_eq_succ_of_ne_zero (n := fuel) (by omega)
      rw [inorderSuccessor, if_pos shape.2.1, iha shape fuel (by omega)]
      rfl

/-- `BST_remove` of a key that its search does not find changes nothing, by induction on the tree.
-/
theorem bstRemove_absent (shape : m.HasShape root t) (absent : locate (m.toward cmp key) t = nil)
    (enough : t.height < fuel)
    : bstRemove cmp fuel m root key = some (m, root) := by
  obtain ⟨fuel, rfl⟩ := Nat.exists_eq_succ_of_ne_zero (Nat.ne_of_gt (Nat.zero_lt_of_lt enough))
  induction t generalizing root fuel with
  | nil =>
      obtain rfl : root = 0 := shape
      rw [bstRemove, if_pos rfl]
  | node x l r ihl ihr =>
      obtain ⟨rfl, there, inl, inr⟩ := shape
      rw [BinaryTree.height] at enough
      obtain ⟨fuel, rfl⟩ := Nat.exists_eq_succ_of_ne_zero (n := fuel) (by omega)
      have positive := Nat.succ_pos fuel
      rw [bstRemove, if_neg there, bstRemove_right positive, bstRemove_left positive]
      rw [locate] at absent
      cases side : m.toward cmp key root with
      | gt =>
          rw [side] at absent
          rw [if_pos (ComparatorT.ordering_eq_gt.mp side), ihr inr absent fuel (by omega),
            Option.map_some, setRight_self]
      | lt =>
          rw [side] at absent
          have less := ComparatorT.ordering_eq_lt.mp side
          rw [if_neg (by omega), if_pos less, ihl inl absent fuel (by omega), Option.map_some,
            setLeft_self]
      | eq =>
          rw [side] at absent
          cases absent

/-- What `BST_remove` leaves of a tree: the subtree where its search ends is cut, the links outside
the tree are as they were, and so are the keys, except at a node with two children, which gets the
key of its successor.
-/
structure Removed (m : BSTMemory) (cmp : ComparatorT) (key : Nat) (t : BinaryTree Nat) (m' : BSTMemory)
    (root' : Nat)
    : Prop where
  shape : m'.HasShape root' (graft (m.toward cmp key) cut t)
  links : ∀ x, x ∉ inorder t → m'.left x = m.left x ∧ m'.right x = m.right x
  unmoved : ∀ x, (∀ l r, locate (m.toward cmp key) t ≠ node x l r) → m'.key x = m.key x
  successor : ∀ x l y a b, locate (m.toward cmp key) t = node x l (node y a b) → l ≠ nil
    → m'.key x = m.key (leftmost y a)

/-- `BST_remove` of the key of a node without two children returns NULL. -/
theorem Removed.null {l r : BinaryTree Nat} (here : m.toward cmp key root = .eq)
    (either : l = nil ∨ r = nil)
    : m.Removed cmp key (node root l r) m 0 where
  shape := by
    rw [graft, here]
    rcases either with rfl | rfl
    · rfl
    · cases l <;> rfl
  links _ _ := ⟨rfl, rfl⟩
  unmoved _ _ := rfl
  successor x l' y a b found other := by
    rw [locate, here] at found
    obtain ⟨-, rfl, rfl⟩ := BinaryTree.node.inj found
    rcases either with none | none
    · exact absurd none other
    · cases none

/-- `BST_remove` of the key of a node with two children moves the key of its successor there, and
then finds the key that it removes nowhere below.
-/
theorem bstRemove_two (order : cmp.IsTotalOrder) {l a b : BinaryTree Nat} {y : Nat}
    (tree : m.IsSearchTree cmp root (node root l (node y a b))) (other : l ≠ nil)
    (here : m.toward cmp key root = .eq) (enough : (node y a b).height < fuel)
    : ∃ m', (inorderSuccessor fuel m (m.right root)).bind (fun inorderS =>
          let m := { m with key := Function.update m.key root (m.key inorderS) }
          (bstRemove cmp fuel m (m.right root) key).map (fun r => (r.1.setRight root r.2, root)))
        = some (m', root)
      ∧ m.Removed cmp key (node root l (node y a b)) m' root := by
  have := order.toTransCmp
  have := order.toLawfulEqCmp
  obtain ⟨shape, ordered⟩ := tree
  obtain ⟨-, there, inl, inr⟩ := id shape
  obtain ⟨-, orderedR, -, above, -⟩ := ordered_node.mp ordered
  obtain rfl : key = m.key root := order.eq_iff.mp here
  have apart : ∀ x ∈ inorder (node y a b), x ≠ root := by
    rintro x member rfl
    exact ne_of_compare_lt (above x member) rfl
  have absent : locate (m.toward cmp (m.key root)) (node y a b) = nil := by
    cases found : locate (m.toward cmp (m.key root)) (node y a b) with
    | nil => rfl
    | node x c d =>
        obtain ⟨member, same⟩ := orderedR.mem_of_locate found
        exact absurd same.symm (ne_of_compare_lt (above x member))
  obtain rfl : m.right root = y := inr.1
  have height : a.height < fuel := by
    rw [BinaryTree.height] at enough
    omega
  rw [inorderSuccessor_eq inr height, Option.bind_some]
  generalize moved : ({ m with
    key := Function.update m.key root (m.key (leftmost (m.right root) a)) } : BSTMemory) = m'
  have keysOff : ∀ x, x ≠ root → m'.key x = m.key x := by
    rintro x other
    rw [← moved]
    exact Function.update_of_ne other ..
  have linksSame : m'.left = m.left ∧ m'.right = m.right := by
    rw [← moved]
    exact ⟨rfl, rfl⟩
  obtain ⟨sameL, sameR⟩ := linksSame
  have inr' : m'.HasShape (m'.right root) (node (m.right root) a b) := by
    rw [HasShape, sameL, sameR]
    exact inr
  have sameToward : ∀ x ∈ inorder (node (m.right root) a b),
      m'.toward cmp (m.key root) x = m.toward cmp (m.key root) x := by
    intro x member
    rw [toward, keysOff x (apart x member)]
  have absent' : locate (m'.toward cmp (m.key root)) (node (m.right root) a b) = nil :=
    (locate_congr sameToward).trans absent
  have removed := bstRemove_absent inr' absent' enough
  refine ⟨m', by simp only [removed, Option.map_some, setRight_self], ?_, ?_, ?_, ?_⟩
  · rw [graft, here, HasShape, sameL, sameR]
    cases l with
    | nil => exact absurd rfl other
    | node z c d => exact shape
  · intro x _
    rw [sameL, sameR]
    exact ⟨rfl, rfl⟩
  · intro x away
    refine keysOff x ?_
    rintro rfl
    exact away l (node (m.right x) a b) (by rw [locate, here])
  · intro x l' z c d found _
    rw [locate, here] at found
    obtain ⟨rfl, rfl, rest⟩ := BinaryTree.node.inj found
    obtain ⟨rfl, rfl, rfl⟩ := BinaryTree.node.inj rest
    rw [← moved]
    exact Function.update_self ..

/-- A cut leaves no new nodes. -/
theorem cut_subset (t : BinaryTree Nat) : inorder (cut t) ⊆ inorder t := by
  rw [cut.eq_def]
  split
  · exact List.Subset.refl _
  · exact List.nil_subset _

/-- `BST_remove` in the right subtree of a node. -/
theorem Removed.right {m' : BSTMemory} {l r : BinaryTree Nat} {root' : Nat}
    (removed : m.Removed cmp key r m' root') (shape : m.HasShape root (node root l r))
    (distinct : (inorder (node root l r)).Nodup) (side : m.toward cmp key root = .gt)
    : m.Removed cmp key (node root l r) (m'.setRight root root') root := by
  obtain ⟨shapeR, links, unmoved, successor⟩ := removed
  obtain ⟨-, there, inl, -⟩ := shape
  rw [inorder_node, List.nodup_middle, List.nodup_cons, List.mem_append, not_or] at distinct
  obtain ⟨⟨notInL, notInR⟩, distinct⟩ := distinct
  obtain ⟨-, -, apart⟩ := List.nodup_append'.mp distinct
  have linksOff : ∀ x, x ≠ root → (m'.setRight root root').left x = m'.left x
      ∧ (m'.setRight root root').right x = m'.right x :=
    fun x other => ⟨rfl, Function.update_of_ne other ..⟩
  refine ⟨?_, fun x outside => ?_, fun x away => ?_, fun x z y a b found => ?_⟩
  · rw [graft, side]
    refine .right there inl (links root notInR).1 (fun y member => ?_) ?_
    · have off := links y (apart member)
      have other : y ≠ root := fun same => notInL (same ▸ member)
      exact ⟨off.1, (linksOff y other).2.trans off.2⟩
    · have here : (m'.setRight root root').right root = root' := Function.update_self ..
      rw [here]
      refine Shape.congr shapeR (fun y member => linksOff y (fun same => notInR ?_))
      exact graft_subset cut_subset r (same ▸ member)
  · rw [inorder_node, List.mem_append, List.mem_cons, not_or, not_or] at outside
    have off := links x outside.2.2
    exact ⟨off.1, (linksOff x outside.2.1).2.trans off.2⟩
  · refine unmoved x (fun l' r' found => away l' r' ?_)
    rw [locate, side]
    exact found
  · rw [locate, side] at found
    exact successor x z y a b found

/-- `BST_remove` in the left subtree of a node. -/
theorem Removed.left {m' : BSTMemory} {l r : BinaryTree Nat} {root' : Nat}
    (removed : m.Removed cmp key l m' root') (shape : m.HasShape root (node root l r))
    (distinct : (inorder (node root l r)).Nodup) (side : m.toward cmp key root = .lt)
    : m.Removed cmp key (node root l r) (m'.setLeft root root') root := by
  obtain ⟨shapeL, links, unmoved, successor⟩ := removed
  obtain ⟨-, there, -, inr⟩ := shape
  rw [inorder_node, List.nodup_middle, List.nodup_cons, List.mem_append, not_or] at distinct
  obtain ⟨⟨notInL, notInR⟩, distinct⟩ := distinct
  obtain ⟨-, -, apart⟩ := List.nodup_append'.mp distinct
  have linksOff : ∀ x, x ≠ root → (m'.setLeft root root').left x = m'.left x
      ∧ (m'.setLeft root root').right x = m'.right x :=
    fun x other => ⟨Function.update_of_ne other .., rfl⟩
  refine ⟨?_, fun x outside => ?_, fun x away => ?_, fun x z y a b found => ?_⟩
  · rw [graft, side]
    refine .left there inr (links root notInL).2 (fun y member => ?_) ?_
    · have off := links y (apart.symm member)
      have other : y ≠ root := fun same => notInR (same ▸ member)
      exact ⟨(linksOff y other).1.trans off.1, off.2⟩
    · have here : (m'.setLeft root root').left root = root' := Function.update_self ..
      rw [here]
      refine Shape.congr shapeL (fun y member => linksOff y (fun same => notInL ?_))
      exact graft_subset cut_subset l (same ▸ member)
  · rw [inorder_node, List.mem_append, List.mem_cons, not_or, not_or] at outside
    have off := links x outside.1
    exact ⟨(linksOff x outside.2.1).1.trans off.1, off.2⟩
  · refine unmoved x (fun l' r' found => away l' r' ?_)
    rw [locate, side]
    exact found
  · rw [locate, side] at found
    exact successor x z y a b found

/-- `BST_remove` cuts the subtree where its search ends, by induction on the tree. At the node with
the key the four cases are those of its children; above it the new subtree is linked in.
-/
theorem bstRemove_eq (order : cmp.IsTotalOrder) (tree : m.IsSearchTree cmp root t) (key : Nat)
    (enough : t.height < fuel)
    : ∃ m' root', bstRemove cmp fuel m root key = some (m', root')
      ∧ m.Removed cmp key t m' root' := by
  obtain ⟨fuel, rfl⟩ := Nat.exists_eq_succ_of_ne_zero (Nat.ne_of_gt (Nat.zero_lt_of_lt enough))
  induction t generalizing root fuel with
  | nil =>
      obtain rfl : root = 0 := tree.shape
      refine ⟨m, 0, by rw [bstRemove, if_pos rfl], rfl, fun _ _ => ⟨rfl, rfl⟩, fun _ _ => rfl, ?_⟩
      exact fun _ _ _ _ _ found _ => nomatch found
  | node x l r ihl ihr =>
      have := order.toTransCmp
      obtain ⟨shape, ordered⟩ := id tree
      obtain ⟨rfl, there, inl, inr⟩ := id shape
      obtain ⟨orderedL, orderedR, -, -, cross⟩ := ordered_node.mp ordered
      have height := enough
      rw [BinaryTree.height] at height
      obtain ⟨fuel, rfl⟩ := Nat.exists_eq_succ_of_ne_zero (n := fuel) (by omega)
      have positive := Nat.succ_pos fuel
      rw [bstRemove, if_neg there, bstRemove_right positive, bstRemove_left positive]
      cases side : m.toward cmp key root with
      | gt =>
          rw [if_pos (ComparatorT.ordering_eq_gt.mp side)]
          obtain ⟨m', root', ran, removed⟩ := ihr ⟨inr, orderedR⟩ fuel (by omega)
          rw [ran]
          exact ⟨_, root, rfl, removed.right shape ordered.nodup side⟩
      | lt =>
          have less := ComparatorT.ordering_eq_lt.mp side
          rw [if_neg (by omega), if_pos less]
          obtain ⟨m', root', ran, removed⟩ := ihl ⟨inl, orderedL⟩ fuel (by omega)
          rw [ran]
          exact ⟨_, root, rfl, removed.left shape ordered.nodup side⟩
      | eq =>
          obtain ⟨notGreater, notLess⟩ := ComparatorT.ordering_eq_eq.mp side
          rw [if_neg notGreater, if_neg notLess]
          cases l with
          | nil =>
              have null : m.left root = 0 := inl
              rw [if_neg (fun both => both.2 null), null]
              refine ⟨m, 0, ?_, .null side (.inl rfl)⟩
              split
              · rfl
              · next none => rw [not_not.mp none]
          | node y a b =>
              cases r with
              | nil =>
                  have null : m.right root = 0 := inr
                  rw [if_neg (fun both => both.1 null), if_neg (not_not.mpr null), null]
                  exact ⟨m, 0, rfl, .null side (.inr rfl)⟩
              | node z c d =>
                  have both : m.right root ≠ 0 ∧ m.left root ≠ 0 := by
                    rw [inl.1, inr.1]
                    exact ⟨inr.2.1, inl.2.1⟩
                  rw [if_pos both]
                  have below : (node z c d).height < fuel.succ := by omega
                  obtain ⟨m', ran, removed⟩ := bstRemove_two order tree (by simp) side below
                  exact ⟨m', root, ran, removed⟩

theorem Removed.of_leaf (order : cmp.IsTotalOrder) {m' : BSTMemory} {root' x : Nat}
    (removed : m.Removed cmp key t m' root') (ordered : Ordered cmp.ordering m.key t)
    (found : locate (m.toward cmp key) t = node x nil nil)
    : ∃ t', m'.IsSearchTree cmp root' t' ∧ keys m'.key t' = keys m.key t \ {key} := by
  have := order.toTransCmp
  have := order.toLawfulEqCmp
  obtain ⟨pre, post, whole, replaced, smaller, greater⟩ := ordered.around key
  have held := (ordered.mem_of_locate found).2
  have nodes := replaced cut
  rw [found] at whole nodes
  have around : ∀ y ∈ pre ++ post, m.key y ≠ key := by
    intro y member
    rcases List.mem_append.mp member with before | behind
    · exact ne_of_compare_lt (smaller y before)
    · exact (ne_of_compare_lt (greater y behind)).symm
  have same : ∀ y ∈ pre ++ post, m'.key y = m.key y := by
    intro y member
    refine removed.unmoved y (fun l r there => ?_)
    obtain ⟨rfl, -⟩ := BinaryTree.node.inj (found.symm.trans there)
    exact around x member held
  have nodes' : inorder (graft (m.toward cmp key) cut t) = pre ++ post := by simpa [cut] using nodes
  have whole' : inorder t = pre ++ x :: post := by simpa using whole
  refine ⟨_, ⟨removed.shape, ?_⟩, ?_⟩
  · rw [← nodes'] at same
    refine Ordered.congr ?_ same
    rw [Ordered, nodes']
    rw [Ordered, whole'] at ordered
    exact ordered.sublist ((List.sublist_cons_self x post).append_left pre)
  · ext k
    simp only [keys, nodes', whole', Set.mem_sdiff, Set.mem_ofPred_eq, Set.mem_singleton_iff]
    constructor
    · rintro ⟨y, member, rfl⟩
      rw [same y member]
      refine ⟨⟨y, ?_, rfl⟩, around y member⟩
      rw [List.mem_append] at member
      simpa [or_left_comm] using Or.inr member
    · rintro ⟨⟨y, member, rfl⟩, other⟩
      have away : y ∈ pre ++ post := by
        rw [List.mem_append, List.mem_cons] at member
        rcases member with before | rfl | behind
        · exact List.mem_append_left _ before
        · exact absurd held other
        · exact List.mem_append_right _ behind
      exact ⟨y, away, same y away⟩

/-- The removal of a key whose node has one child loses the other keys below it. -/
theorem Removed.loses (order : cmp.IsTotalOrder) {m' : BSTMemory} {root' x y : Nat}
    {l r : BinaryTree Nat} (removed : m.Removed cmp key t m' root')
    (ordered : Ordered cmp.ordering m.key t)
    (found : locate (m.toward cmp key) t = node x l r) (gone : cut (node x l r) = nil)
    (below : y ∈ inorder l ++ inorder r)
    : m.key y ∈ keys m.key t \ {key}
      ∧ m.key y ∉ keys m'.key (graft (m.toward cmp key) cut t) := by
  have := order.toTransCmp
  have := order.toLawfulEqCmp
  obtain ⟨pre, post, around⟩ := ordered.around key
  have nodes := around.replaced cut
  rw [found, gone, inorder_nil, List.append_nil] at nodes
  obtain ⟨member, held⟩ := ordered.mem_of_locate found
  obtain ⟨inside, other, outside⟩ := (around.distinct ordered found).2 y below
  refine ⟨⟨⟨y, inside, rfl⟩, fun same => other ?_⟩, ?_⟩
  · exact ordered.injective inside member (Eq.trans same held.symm)
  · rintro ⟨z, there, same⟩
    rw [nodes] at there
    obtain ⟨inside', notX, notY⟩ := outside z there
    have kept : m'.key z = m.key z := by
      refine removed.unmoved z (fun l' r' at' => notX ?_)
      exact (BinaryTree.node.inj (found.symm.trans at')).1.symm
    exact notY (ordered.injective inside' inside (kept.symm.trans same))

/-- The removal of a key whose node has two children leaves the successor's key twice. -/
theorem Removed.twice (order : cmp.IsTotalOrder) {m' : BSTMemory} {root' x y : Nat}
    {l a b : BinaryTree Nat} (removed : m.Removed cmp key t m' root')
    (ordered : Ordered cmp.ordering m.key t)
    (found : locate (m.toward cmp key) t = node x l (node y a b)) (other : l ≠ nil)
    : ¬ Ordered cmp.ordering m'.key t := by
  have := order.toTransCmp
  intro ordered'
  obtain ⟨pre, post, around⟩ := ordered.around key
  have below : leftmost y a ∈ inorder l ++ inorder (node y a b) := by
    refine List.mem_append_right _ ?_
    rcases leftmost_mem y a with same | inside
    · simp [same]
    · simp [inside]
  obtain ⟨member, rest⟩ := around.distinct ordered found
  obtain ⟨inside, ne, -⟩ := rest _ below
  have moved := removed.successor x l y a b found other
  have kept : m'.key (leftmost y a) = m.key (leftmost y a) := by
    refine removed.unmoved _ (fun l' r' there => ne ?_)
    exact (BinaryTree.node.inj (found.symm.trans there)).1.symm
  exact ne (ordered'.injective inside member (kept.trans moved.symm))

/-- The removal of a key whose node has a child does not leave a search tree with the other keys. -/
theorem Removed.not_of_child (order : cmp.IsTotalOrder) {m' : BSTMemory} {root' x : Nat}
    {l r : BinaryTree Nat} (removed : m.Removed cmp key t m' root')
    (ordered : Ordered cmp.ordering m.key t)
    (found : locate (m.toward cmp key) t = node x l r) (child : l ≠ nil ∨ r ≠ nil)
    : ¬ ∃ t', m'.IsSearchTree cmp root' t' ∧ keys m'.key t' = keys m.key t \ {key} := by
  rintro ⟨t', ⟨shape', ordered'⟩, left⟩
  obtain rfl := Shape.unique removed.shape shape'
  have lost : ∀ y ∈ inorder l ++ inorder r, cut (node x l r) ≠ nil := by
    intro y below gone
    obtain ⟨kept, missing⟩ := removed.loses order ordered found gone below
    exact missing (left ▸ kept)
  cases l with
  | nil =>
      cases r with
      | nil => simp at child
      | node z c d => exact lost z (by simp) rfl
  | node y a b =>
      cases r with
      | nil => exact lost y (by simp) rfl
      | node z c d =>
          have kept : graft (m.toward cmp key) cut t = t := graft_self (by rw [found]; rfl)
          rw [kept] at ordered'
          exact removed.twice order ordered found (by simp) ordered'

/-- `BST_remove` on a search tree leaves a search tree without the key and with all others if and
only if the key is not there or its node has no child. A node with a child takes its whole subtree
along, so one of the other keys is lost or the key itself stays; a leaf is replaced by NULL.
-/
theorem bstRemove_iff (order : cmp.IsTotalOrder) (tree : m.IsSearchTree cmp root t)
    (enough : t.height < fuel) (key : Nat)
    : ∃ m' root', bstRemove cmp fuel m root key = some (m', root')
      ∧ ((∃ t', m'.IsSearchTree cmp root' t' ∧ keys m'.key t' = keys m.key t \ {key})
        ↔ ∀ x ∈ inorder t, m.key x = key → m.left x = 0 ∧ m.right x = 0) := by
  have := order.toTransCmp
  have := order.toLawfulEqCmp
  obtain ⟨shape, ordered⟩ := id tree
  cases found : locate (m.toward cmp key) t with
  | nil =>
      have missing := ordered.not_mem_keys found
      refine ⟨m, root, bstRemove_absent shape found enough, ?_⟩
      refine ⟨fun _ x member held => absurd ⟨x, member, held⟩ missing, fun _ => ⟨t, tree, ?_⟩⟩
      exact (Set.sdiff_singleton_eq_self missing).symm
  | node x l r =>
      obtain ⟨member, held⟩ := ordered.mem_of_locate found
      obtain ⟨p, -, here⟩ := bstFind_eq cmp shape key enough
      rw [found] at here
      obtain ⟨rfl, -, inl, inr⟩ := here
      obtain ⟨m', root', ran, removed⟩ := bstRemove_eq order tree key enough
      refine ⟨m', root', ran, fun left y inside same => ?_, fun leaf => ?_⟩
      · obtain rfl := ordered.injective inside member (same.trans held.symm)
        by_contra other
        refine removed.not_of_child order ordered found ?_ left
        by_contra none
        simp only [not_or, not_not] at none
        obtain ⟨rfl, rfl⟩ := none
        exact other ⟨inl, inr⟩
      · obtain ⟨none, none'⟩ := leaf p member held
        obtain rfl := Shape.eq_nil inl none
        obtain rfl := Shape.eq_nil inr none'
        exact removed.of_leaf order ordered found

/-- Removing the key of the leaf. -/
theorem bstRemove_iff_twoNodes
    : ∃ m' root', bstRemove defaultComparator 3 twoNodes 16 7 = some (m', root')
      ∧ ∃ t', m'.IsSearchTree defaultComparator root' t'
        ∧ keys m'.key t' = keys twoNodes.key (node 16 nil (node 32 nil nil)) \ {7} := by
  have enough : (node 16 nil (node 32 nil nil)).height < 3 := by decide
  obtain ⟨m', root', ran, holds⟩ :=
    bstRemove_iff defaultComparator_isTotalOrder twoNodes_isSearchTree enough 7
  exact ⟨m', root', ran, holds.mpr (by decide)⟩

/-- Removing the key of the other node returns NULL, and loses the leaf. -/
theorem not_bstRemove_twoNodes
    : twoNodes.IsSearchTree defaultComparator 16 (node 16 nil (node 32 nil nil))
      ∧ bstRemove defaultComparator 3 twoNodes 16 5 = some (twoNodes, 0)
      ∧ ¬ ∃ t', twoNodes.IsSearchTree defaultComparator 0 t'
        ∧ keys twoNodes.key t' = keys twoNodes.key (node 16 nil (node 32 nil nil)) \ {5} := by
  refine ⟨twoNodes_isSearchTree, rfl, ?_⟩
  rintro ⟨t', tree, left⟩
  obtain rfl := Shape.eq_nil tree.shape rfl
  have kept : 7 ∈ keys twoNodes.key (node 16 nil (node 32 nil nil)) \ {5} :=
    ⟨⟨32, by decide, rfl⟩, by decide⟩
  rw [← left] at kept
  obtain ⟨x, member, -⟩ := kept
  cases member

end BSTMemory

end Hydrangea
