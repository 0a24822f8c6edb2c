import Mathlib.Data.List.Nodup
import Mathlib.Data.Set.Insert
import Mathlib.Data.Tree.Basic
import Mathlib.Tactic.Common

/-! Binary search trees of nodes with keys: their order, the search for a key, and what becomes of
the nodes from left to right when the subtree at which the search ends is replaced. A tree in memory
is followed through the links of its nodes.
-/

namespace SearchTree

open BinaryTree

variable {α κ : Type*}

/-- The nodes of a tree, from left to right. -/
def inorder : BinaryTree α → List α
  | nil => []
  | node x l r => inorder l ++ x :: inorder r

/-- Following the links from `p` finds the nodes of a tree. -/
def Shape (null : α) (left right : α → α) : α → BinaryTree α → Prop
  | p, nil => p = null
  | p, node x l r => p = x ∧ x ≠ null ∧ Shape null left right (left x) l
      ∧ Shape null left right (right x) r

/-- The keys grow strictly from left to right. -/
def Ordered (cmp : κ → κ → Ordering) (key : α → κ) (t : BinaryTree α) : Prop :=
  (inorder t).Pairwise (fun x y => cmp (key x) (key y) = .lt)

def keys (key : α → κ) (t : BinaryTree α) : Set κ :=
  {k | ∃ x ∈ inorder t, key x = k}

/-- The subtree at which a search ends, `toward` comparing what is searched with a node. -/
def locate (toward : α → Ordering) : BinaryTree α → BinaryTree α
  | nil => nil
  | node x l r =>
      match toward x with
      | .lt => locate toward l
      | .eq => node x l r
      | .gt => locate toward r

def graft (toward : α → Ordering) (f : BinaryTree α → BinaryTree α) : BinaryTree α → BinaryTree α
  | nil => f nil
  | node x l r =>
      match toward x with
      | .lt => node x (graft toward f l) r
      | .eq => f (node x l r)
      | .gt => node x l (graft toward f r)

/-- The last node down the left side of a tree, and `x` if it has none. -/
def leftmost (x : α) : BinaryTree α → α
  | nil => x
  | node y l _ => leftmost y l

@[simp]
theorem inorder_nil : inorder (nil : BinaryTree α) = [] :=
  rfl

@[simp]
theorem inorder_node {x : α} {l r : BinaryTree α}
    : inorder (node x l r) = inorder l ++ x :: inorder r :=
  rfl

-----------------------------------------------------------------------------------------
-- Trees in memory
-----------------------------------------------------------------------------------------

section Memory

variable {null p : α} {left right left' right' : α → α} {t t' : BinaryTree α}

/-- The pointer to an empty tree is null. -/
@[simp]
theorem shape_nil : Shape null left right p nil ↔ p = null :=
  Iff.rfl

@[simp]
theorem shape_node {x : α} {l r : BinaryTree α}
    : Shape null left right p (node x l r)
      ↔ p = x ∧ x ≠ null ∧ Shape null left right (left x) l ∧ Shape null left right (right x) r :=
  Iff.rfl

/-- A shape depends on the links of its own nodes only, by induction on it. -/
theorem Shape.congr (h : Shape null left right p t)
    (same : ∀ x ∈ inorder t, left' x = left x ∧ right' x = right x)
    : Shape null left' right' p t := by
  induction t generalizing p with
  | nil => exact h
  | node x l r ihl ihr =>
      obtain ⟨rfl, there, inl, inr⟩ := h
      obtain ⟨sameLeft, sameRight⟩ := same p (by simp)
      refine ⟨rfl, there, ?_, ?_⟩
      · rw [sameLeft]
        exact ihl inl (fun y member => same y (by simp [member]))
      · rw [sameRight]
        exact ihr inr (fun y member => same y (by simp [member]))

/-- Memory holds one tree at a pointer, by induction on it. -/
theorem Shape.unique (h : Shape null left right p t) (h' : Shape null left right p t')
    : t = t' := by
  induction t generalizing p t' with
  | nil =>
      cases t' with
      | nil => rfl
      | node y l' r' => exact absurd (h'.1.symm.trans h) h'.2.1
  | node x l r ihl ihr =>
      obtain ⟨rfl, there, inl, inr⟩ := h
      cases t' with
      | nil => exact absurd h' there
      | node y l' r' =>
          obtain ⟨rfl, -, inl', inr'⟩ := h'
          rw [ihl inl inl', ihr inr inr']

/-- The tree at a null pointer is empty. -/
theorem Shape.eq_nil (h : Shape null left right p t) (none : p = null) : t = nil :=
  h.unique none

end Memory

/-- The last node down the left side of a tree is one of its nodes, by induction on it. -/
theorem leftmost_mem (x : α) (t : BinaryTree α) : leftmost x t = x ∨ leftmost x t ∈ inorder t := by
  induction t generalizing x with
  | nil => exact .inl rfl
  | node y l r ihl _ =>
      rw [leftmost, inorder_node, List.mem_append, List.mem_cons]
      rcases ihl y with same | inside
      · exact .inr (.inr (.inl same))
      · exact .inr (.inl inside)

-----------------------------------------------------------------------------------------
-- Searching
-----------------------------------------------------------------------------------------

/-- A search ends at a node that it is for, if at any, by induction on the tree. -/
theorem locate_root {toward : α → Ordering} {t l r : BinaryTree α} {x : α}
    (found : locate toward t = node x l r)
    : toward x = .eq := by
  induction t with
  | nil => cases found
  | node y l' r' ihl ihr =>
      rw [locate] at found
      split at found
      · exact ihl found
      · next here =>
          obtain ⟨rfl, -, -⟩ := BinaryTree.node.inj found
          exact here
      · exact ihr found

/-- A search depends on its comparisons with the tree's own nodes only, by induction on the tree. -/
theorem locate_congr {toward toward' : α → Ordering} {t : BinaryTree α}
    (same : ∀ x ∈ inorder t, toward' x = toward x)
    : locate toward' t = locate toward t := by
  induction t with
  | nil => rfl
  | node x l r ihl ihr =>
      rw [locate, locate, same x (by simp), ihl (fun y member => same y (by simp [member])),
        ihr (fun y member => same y (by simp [member]))]

/-- Replacing a subtree by itself changes nothing, by induction on the tree. -/
theorem graft_self {toward : α → Ordering} {f : BinaryTree α → BinaryTree α} {t : BinaryTree α}
    (same : f (locate toward t) = locate toward t)
    : graft toward f t = t := by
  induction t with
  | nil => exact same
  | node x l r ihl ihr =>
      rw [locate] at same
      rw [graft]
      split at same
      · rw [ihl same]
      · rw [same]
      · rw [ihr same]

/-- When the subtree that is put in has no new nodes, neither has the tree, by induction on it. -/
theorem graft_subset {toward : α → Ordering} {f : BinaryTree α → BinaryTree α}
    (part : ∀ s, inorder (f s) ⊆ inorder s) (t : BinaryTree α)
    : inorder (graft toward f t) ⊆ inorder t := by
  induction t with
  | nil => exact part nil
  | node x l r ihl ihr =>
      rw [graft]
      split
      · exact List.append_subset.mpr ⟨List.subset_append_of_subset_left _ ihl, by simp⟩
      · exact part _
      · refine List.append_subset.mpr ⟨by simp, ?_⟩
        exact List.subset_append_of_subset_right _ (List.cons_subset_cons x ihr)

variable {cmp : κ → κ → Ordering} {key key' : α → κ} {t l r : BinaryTree α} {x : α} {k : κ}

theorem ordered_node
    : Ordered cmp key (node x l r)
      ↔ Ordered cmp key l ∧ Ordered cmp key r
        ∧ (∀ y ∈ inorder l, cmp (key y) (key x) = .lt)
        ∧ (∀ y ∈ inorder r, cmp (key x) (key y) = .lt)
        ∧ ∀ y ∈ inorder l, ∀ z ∈ inorder r, cmp (key y) (key z) = .lt := by
  simp only [Ordered, inorder_node, List.pairwise_append, List.pairwise_cons, List.mem_cons,
    forall_eq_or_imp]
  constructor
  · rintro ⟨hl, ⟨above, hr⟩, cross⟩
    exact ⟨hl, hr, fun y member => (cross y member).1, above, fun y member => (cross y member).2⟩
  · rintro ⟨hl, hr, below, above, cross⟩
    exact ⟨hl, ⟨above, hr⟩, fun y member => ⟨below y member, cross y member⟩⟩

/-- The order depends on the keys of the tree's own nodes only. -/
theorem Ordered.congr (h : Ordered cmp key t) (same : ∀ x ∈ inorder t, key' x = key x)
    : Ordered cmp key' t := by
  refine List.Pairwise.imp_of_mem (fun {x y} inx iny less => ?_) h
  rw [same x inx, same y iny]
  exact less

theorem keys_congr (same : ∀ x ∈ inorder t, key' x = key x) : keys key' t = keys key t := by
  ext k
  constructor
  · rintro ⟨x, member, rfl⟩
    exact ⟨x, member, (same x member).symm⟩
  · rintro ⟨x, member, rfl⟩
    exact ⟨x, member, same x member⟩

/-- What lies around the subtree at which the search for `k` ends, from left to right: smaller keys
before it and greater ones behind it, whatever takes its place.
-/
structure Around (cmp : κ → κ → Ordering) (key : α → κ) (k : κ) (t : BinaryTree α)
    (pre post : List α)
    : Prop where
  whole : inorder t = pre ++ inorder (locate (fun x => cmp k (key x)) t) ++ post
  replaced : ∀ f, inorder (graft (fun x => cmp k (key x)) f t)
    = pre ++ inorder (f (locate (fun x => cmp k (key x)) t)) ++ post
  smaller : ∀ y ∈ pre, cmp (key y) k = .lt
  greater : ∀ y ∈ post, cmp k (key y) = .lt

variable [Std.TransCmp cmp]

theorem ne_of_compare_lt {k k' : κ} (less : cmp k k' = .lt) : k ≠ k' := by
  rintro rfl
  have self : cmp k k = .eq := Std.ReflCmp.compare_self
  rw [self] at less
  cases less

/-- In an ordered tree, a search has the smaller keys on its left and the greater ones on its right,
by induction on the tree.
-/
theorem Ordered.around (h : Ordered cmp key t) (k : κ) : ∃ pre post, Around cmp key k t pre post := by
  induction t with
  | nil => exact ⟨[], [], rfl, fun f => by simp [graft, locate], by simp, by simp⟩
  | node x l r ihl ihr =>
      obtain ⟨hl, hr, below, above, -⟩ := ordered_node.mp h
      cases toward : cmp k (key x) with
      | lt =>
          obtain ⟨pre, post, whole, replaced, smaller, greater⟩ := ihl hl
          refine ⟨pre, post ++ x :: inorder r, ?_, fun f => ?_, smaller, ?_⟩
          · rw [locate, toward, inorder_node, whole]
            simp only [List.append_assoc]
          · rw [locate, graft, toward]
            simp only [inorder_node, replaced f, List.append_assoc]
          · refine List.forall_mem_append.mpr ⟨greater, List.forall_mem_cons.mpr ⟨toward, ?_⟩⟩
            exact fun y member => Std.TransCmp.lt_trans toward (above y member)
      | eq =>
          refine ⟨[], [], ?_, fun f => ?_, by simp, by simp⟩
          · simp [locate, toward]
          · simp [locate, graft, toward]
      | gt =>
          have upper : cmp (key x) k = .lt := Std.OrientedCmp.gt_iff_lt.mp toward
          obtain ⟨pre, post, whole, replaced, smaller, greater⟩ := ihr hr
          refine ⟨inorder l ++ x :: pre, post, ?_, fun f => ?_, ?_, greater⟩
          · rw [locate, toward, inorder_node, whole]
            simp only [List.append_assoc, List.cons_append]
          · rw [locate, graft, toward]
            simp only [inorder_node, replaced f, List.append_assoc, List.cons_append]
          · refine List.forall_mem_append.mpr ⟨?_, List.forall_mem_cons.mpr ⟨upper, smaller⟩⟩
            exact fun y member => Std.TransCmp.lt_trans (below y member) upper

theorem Ordered.injective (h : Ordered cmp key t) {x y : α} (inx : x ∈ inorder t)
    (iny : y ∈ inorder t) (same : key x = key y)
    : x = y := by
  refine List.inj_on_of_nodup_map (List.pairwise_map.mpr ?_) inx iny same
  exact List.Pairwise.imp ne_of_compare_lt h

/-- The nodes of a tree whose keys are in order are distinct. -/
theorem Ordered.nodup (h : Ordered cmp key t) : (inorder t).Nodup := by
  exact List.Pairwise.imp (fun less same => ne_of_compare_lt less (congrArg key same)) h

/-- A search that ends without a node is for a key that the tree does not have. -/
theorem Ordered.not_mem_keys (h : Ordered cmp key t)
    (none : locate (fun x => cmp k (key x)) t = nil)
    : k ∉ keys key t := by
  rintro ⟨x, member, rfl⟩
  obtain ⟨pre, post, whole, -, smaller, greater⟩ := h.around (key x)
  rw [none, inorder_nil, List.append_nil] at whole
  rw [whole, List.mem_append] at member
  rcases member with before | behind
  · exact ne_of_compare_lt (smaller x before) rfl
  · exact ne_of_compare_lt (greater x behind) rfl

/-- Where the search ends at a node, the nodes around its subtree are others than those in it, and
the node is none of those below it.
-/
theorem Around.distinct {pre post : List α} (h : Around cmp key k t pre post)
    (ordered : Ordered cmp key t) (found : locate (fun x => cmp k (key x)) t = node x l r)
    : x ∈ inorder t ∧ ∀ y ∈ inorder l ++ inorder r,
        y ∈ inorder t ∧ y ≠ x ∧ ∀ z ∈ pre ++ post, z ∈ inorder t ∧ z ≠ x ∧ z ≠ y := by
  have nodup := ordered.nodup
  have whole := h.whole
  rw [found, inorder_node] at whole
  rw [whole] at nodup ⊢
  grind [List.nodup_append, List.nodup_cons]

/-- A new node where the search for its key ends without one: the tree stays ordered, and gains the
key.
-/
theorem Ordered.graft_new (h : Ordered cmp key t) {f : BinaryTree α → BinaryTree α} {a : α}
    (new : f nil = node a nil nil) (none : locate (fun x => cmp k (key x)) t = nil)
    (held : key' a = k) (same : ∀ x ∈ inorder t, key' x = key x)
    : Ordered cmp key' (graft (fun x => cmp k (key x)) f t)
      ∧ keys key' (graft (fun x => cmp k (key x)) f t) = insert k (keys key t)
      ∧ inorder t ⊆ inorder (graft (fun x => cmp k (key x)) f t) := by
  subst held
  obtain ⟨pre, post, whole, replaced, smaller, greater⟩ := h.around (key' a)
  rw [none, inorder_nil, List.append_nil] at whole
  have nodes : inorder (graft (fun x => cmp (key' a) (key x)) f t) = pre ++ a :: post := by
    rw [replaced f, none, new]
    simp
  have sorted := h.congr same
  rw [Ordered, whole, List.pairwise_append] at sorted
  obtain ⟨sortedPre, sortedPost, cross⟩ := sorted
  have samePre : ∀ y ∈ pre, key' y = key y :=
    fun y member => same y (by rw [whole]; exact List.mem_append_left _ member)
  have samePost : ∀ y ∈ post, key' y = key y :=
    fun y member => same y (by rw [whole]; exact List.mem_append_right _ member)
  refine ⟨?_, ?_, ?_⟩
  · rw [Ordered, nodes]
    refine List.pairwise_append.mpr ⟨sortedPre, List.pairwise_cons.mpr ⟨?_, sortedPost⟩, ?_⟩
    · intro y member
      rw [samePost y member]
      exact greater y member
    · intro y member
      refine List.forall_mem_cons.mpr ⟨?_, fun z member' => cross y member z member'⟩
      rw [samePre y member]
      exact smaller y member
  · rw [← keys_congr same]
    ext z
    rw [Set.mem_insert_iff]
    simp only [keys, nodes, whole, List.mem_append, List.mem_cons, Set.mem_ofPred_eq]
    constructor
    · rintro ⟨x, before | rfl | behind, rfl⟩
      · exact .inr ⟨x, .inl before, rfl⟩
      · exact .inl rfl
      · exact .inr ⟨x, .inr behind, rfl⟩
    · rintro (rfl | ⟨x, before | behind, rfl⟩)
      · exact ⟨a, .inr (.inl rfl), rfl⟩
      · exact ⟨x, .inl before, rfl⟩
      · exact ⟨x, .inr (.inr behind), rfl⟩
  · rw [whole, nodes]
    exact List.append_subset.mpr ⟨List.subset_append_left _ _,
      fun y member => List.mem_append_right _ (List.mem_cons_of_mem _ member)⟩

/-- A search that ends at a node is for its key. -/
theorem Ordered.mem_of_locate [Std.LawfulEqCmp cmp] (h : Ordered cmp key t)
    (found : locate (fun x => cmp k (key x)) t = node x l r)
    : x ∈ inorder t ∧ key x = k := by
  obtain ⟨pre, post, whole, -⟩ := h.around k
  have here := locate_root found
  refine ⟨?_, (Std.LawfulEqCmp.eq_of_compare here).symm⟩
  rw [whole, found]
  simp

end SearchTree
