import Hydrangea.Lib.Linked
import Mathlib.Logic.Relation

/-! Trees threaded through a memory: every node has its first child in `childs`, its next sibling
in `next` and its parent in `parent`.
-/

namespace LinkedTree

open Linked

variable {α : Type*}

/-- The link fields of the nodes in memory. -/
structure Links (α : Type*) where
  parent : α → Option α
  childs : α → Option α
  next : α → Option α

/-- The nodes that are reached through first children and next siblings. -/
inductive Reachable (links : Links α) (root : α) : α → Prop where
  | root : Reachable links root root
  | child {n c : α} (reached : Reachable links root n) (link : links.childs n = some c)
    : Reachable links root c
  | sibling {n c : α} (reached : Reachable links root n) (link : links.next n = some c)
    : Reachable links root c

/-- The nodes of the subtree of a node, when every node has the given children. -/
def Below (kids : α → List α) : α → α → Prop :=
  Relation.ReflTransGen (fun p c => c ∈ kids p)

/-- The links form a finite tree in which every node has the given children. -/
structure IsTree (links : Links α) (root : α) (kids : α → List α) : Prop where
  rootParent : links.parent root = some root
  rootNext : links.next root = none
  chain : ∀ n, Below kids root n → Chain links.next (links.childs n) (kids n)
  parent : ∀ n, Below kids root n → ∀ c ∈ kids n, links.parent c = some n
  notRoot : ∀ n, Below kids root n → root ∉ kids n
  finite : {n | Below kids root n}.Finite

variable {links links' : Links α} {root n p c : α} {kids kids' : α → List α}

-----------------------------------------------------------------------------------------
-- Going down and up
-----------------------------------------------------------------------------------------

/-- A node of a subtree is its root or a child of another node of it. -/
theorem Below.last (h : Below kids p n)
    : n = p ∨ ∃ m, Below kids p m ∧ n ∈ kids m := by
  rcases Relation.ReflTransGen.cases_tail h with same | ⟨m, below, member⟩
  · exact .inl same
  · exact .inr ⟨m, below, member⟩

/-- The children of a node of a subtree lie in it. -/
theorem Below.child (h : Below kids p n) (member : c ∈ kids n) : Below kids p c :=
  Relation.ReflTransGen.tail h member

/-- A child lies in the subtree of its parent. -/
theorem below_of_mem (member : c ∈ kids p) : Below kids p c :=
  Relation.ReflTransGen.single member

theorem Below.trans (h : Below kids p n) (h' : Below kids n c) : Below kids p c :=
  Relation.ReflTransGen.trans h h'

/-- The subtree of a node without children. -/
theorem Below.of_nil (h : Below kids p n) (none : kids p = []) : n = p := by
  rcases Relation.ReflTransGen.cases_head h with same | ⟨m, member, -⟩
  · exact same.symm
  · rw [none] at member
    cases member

/-- A subtree depends on the children of its own nodes only, by induction on the way down. -/
theorem Below.congr (same : ∀ m, Below kids p m → kids' m = kids m) (h : Below kids p n)
    : Below kids' p n := by
  induction h with
  | refl => exact .refl
  | tail below member ih =>
      refine ih.child ?_
      rw [same _ below]
      exact member

/-- A node of the tree has a parent in the tree: the root has itself, and any other node is one of
its parent's children.
-/
theorem IsTree.parent_below (h : IsTree links root kids) (here : Below kids root n)
    : ∃ p, links.parent n = some p ∧ Below kids root p ∧ (n ≠ root → n ∈ kids p) := by
  rcases here.last with rfl | ⟨p, below, member⟩
  · exact ⟨n, h.rootParent, here, fun other => absurd rfl other⟩
  · exact ⟨p, h.parent p below n member, below, fun _ => member⟩

theorem IsTree.parent_unique (h : IsTree links root kids) (here : Below kids root n)
    (there : Below kids root p) (member : c ∈ kids n) (member' : c ∈ kids p)
    : n = p := by
  have first := h.parent n here c member
  rw [h.parent p there c member'] at first
  exact (Option.some.inj first).symm

/-- Siblings are listed once. -/
theorem IsTree.kids_nodup (h : IsTree links root kids) (here : Below kids root n)
    : (kids n).Nodup :=
  (h.chain n here).nodup

/-- Only the root is its own parent, by induction on the way down. -/
theorem IsTree.parent_ne (h : IsTree links root kids) (here : Below kids root n)
    (other : n ≠ root)
    : links.parent n ≠ some n := by
  induction here with
  | refl => exact absurd rfl other
  | @tail b c below member ih =>
      intro self
      have parent := h.parent b below c member
      obtain rfl : b = c := Option.some.inj (parent.symm.trans self)
      exact ih other self

/-- The nodes on the way up from a node to the root, the parent first. -/
def Climb (links : Links α) (root : α) : α → List α → Prop
  | n, [] => n = root
  | n, p :: ups => n ≠ root ∧ links.parent n = some p ∧ p ≠ n ∧ Climb links root p ups

/-- The way up from every node of the tree ends at the root, by induction on the way down. -/
theorem IsTree.climb (h : IsTree links root kids) (here : Below kids root n)
    : ∃ ups, Climb links root n ups ∧ ∀ p ∈ ups, Below kids root p := by
  induction here with
  | refl => exact ⟨[], rfl, by simp⟩
  | @tail b c below member ih =>
      obtain ⟨ups, climb, inside⟩ := ih
      have parent := h.parent b below c member
      have other : c ≠ root := fun same => h.notRoot b below (same ▸ member)
      have ne : b ≠ c := by
        rintro rfl
        exact h.parent_ne below other parent
      exact ⟨b :: ups, ⟨other, parent, ne, climb⟩, List.forall_mem_cons.mpr ⟨below, inside⟩⟩

/-- No node lies in the subtree of one of its own children, by induction on the way down from the
root.
-/
theorem IsTree.not_below_child (h : IsTree links root kids) (here : Below kids root n)
    (member : c ∈ kids n)
    : ¬ Below kids c n := by
  induction here generalizing c with
  | refl =>
      intro under
      rcases under.last with rfl | ⟨m, below, inside⟩
      · exact h.notRoot _ .refl member
      · exact h.notRoot m ((below_of_mem member).trans below) inside
  | @tail b n above inside ih =>
      intro under
      have here : Below kids root n := Below.child above inside
      rcases under.last with rfl | ⟨m, below, inside'⟩
      · have same := h.parent_unique above here inside member
        subst same
        exact ih inside .refl
      · have reached : Below kids root m := (here.child member).trans below
        obtain rfl := h.parent_unique above reached inside inside'
        exact ih inside ((below_of_mem member).trans below)

/-- The subtrees of siblings have no node in common, by induction on the way down in the first. -/
theorem IsTree.siblings_apart (h : IsTree links root kids) (here : Below kids root n) {c' m : α}
    (member : c ∈ kids n) (member' : c' ∈ kids n) (other : c ≠ c') (under : Below kids c m)
    : ¬ Below kids c' m := by
  induction under with
  | refl =>
      intro under'
      rcases under'.last with same | ⟨b, below, inside⟩
      · exact other same
      · have reached : Below kids root b := (here.child member').trans below
        obtain rfl := h.parent_unique here reached member inside
        exact h.not_below_child here member' below
  | @tail b m below inside ih =>
      intro under'
      have reached : Below kids root b := (here.child member).trans below
      rcases under'.last with rfl | ⟨b', below', inside'⟩
      · obtain rfl := h.parent_unique here reached member' inside
        exact h.not_below_child here member below
      · have reached' : Below kids root b' := (here.child member').trans below'
        obtain rfl := h.parent_unique reached reached' inside inside'
        exact ih below'

/-- A subtree is its root and the subtrees of the root's children. -/
theorem below_iff : Below kids p n ↔ n = p ∨ ∃ c ∈ kids p, Below kids c n := by
  constructor
  · intro under
    rcases Relation.ReflTransGen.cases_head under with same | ⟨c, member, below⟩
    · exact .inl same.symm
    · exact .inr ⟨c, member, below⟩
  · intro either
    rcases either with rfl | ⟨c, member, below⟩
    · exact .refl
    · exact (below_of_mem member).trans below

/-- What holds of a node when it holds of its children holds of all nodes of the tree, by induction
on the number of nodes below.
-/
theorem IsTree.induct (h : IsTree links root kids) {motive : α → Prop}
    (step : ∀ n, Below kids root n → (∀ c ∈ kids n, motive c) → motive n)
    (here : Below kids root n)
    : motive n := by
  have finite (m : α) (inside : Below kids root m) : {x | Below kids m x}.Finite :=
    h.finite.subset (fun x under => inside.trans under)
  induction size : {x | Below kids n x}.ncard using Nat.strong_induction_on generalizing n with
  | _ size ih =>
      refine step n here (fun c member => ?_)
      have fewer : {x | Below kids c x} ⊂ {x | Below kids n x} := by
        refine Set.ssubset_iff_subset_ne.mpr ⟨fun x under => (below_of_mem member).trans under, ?_⟩
        intro same
        have under : n ∈ {x | Below kids n x} := .refl
        rw [← same] at under
        exact h.not_below_child here member under
      subst size
      exact ih _ (Set.ncard_lt_ncard fewer (finite n here)) (here.child member) rfl

-----------------------------------------------------------------------------------------
-- What the links reach
-----------------------------------------------------------------------------------------

/-- The links reach the cells of a chain that starts at a cell they reach, by induction on the
chain.
-/
theorem Reachable.chain {q : Option α} {xs : List α} (start : ∀ x ∈ q, Reachable links root x)
    (chain : Chain links.next q xs)
    : ∀ x ∈ xs, Reachable links root x := by
  induction xs generalizing q with
  | nil => exact fun _ member => (List.not_mem_nil member).elim
  | cons x xs ih =>
      obtain ⟨rfl, rest⟩ := chain
      have first := start x rfl
      refine List.forall_mem_cons.mpr ⟨first, ih (fun y link => ?_) rest⟩
      exact .sibling first link

/-- The links reach the nodes of the tree, by induction on the way down, and no others, by
induction on the links followed.
-/
theorem IsTree.reachable_iff (h : IsTree links root kids)
    : Reachable links root n ↔ Below kids root n := by
  constructor
  · intro reached
    induction reached with
    | root => exact .refl
    | @child n c _ link ih =>
        have chain := h.chain n ih
        rw [link] at chain
        exact ih.child (List.mem_of_mem_head? (Chain.head chain).symm)
    | @sibling n c _ link ih =>
        rcases ih.last with rfl | ⟨p, below, member⟩
        · rw [h.rootNext] at link
          cases link
        · exact below.child ((h.chain p below).next_mem member link)
  · intro below
    induction below with
    | refl => exact .root
    | @tail b c below member ih =>
        refine Reachable.chain (fun x first => ?_) (h.chain b below) c member
        exact .child ih first

/-- The links determine the children. -/
theorem IsTree.kids_eq (h : IsTree links root kids) (h' : IsTree links root kids')
    (here : Below kids root n)
    : kids' n = kids n := by
  have here' : Below kids' root n := h'.reachable_iff.mp (h.reachable_iff.mpr here)
  exact Chain.unique (h'.chain n here') (h.chain n here)

/-- A tree depends on the links of its own nodes only. -/
theorem IsTree.congr (h : IsTree links root kids)
    (parent : ∀ n, Below kids root n → links'.parent n = links.parent n)
    (childs : ∀ n, Below kids root n → links'.childs n = links.childs n)
    (next : ∀ n, Below kids root n → links'.next n = links.next n)
    : IsTree links' root kids := by
  refine ⟨?_, ?_, fun n here => ?_, fun n here c member => ?_, h.notRoot, h.finite⟩
  · rw [parent root .refl, h.rootParent]
  · rw [next root .refl, h.rootNext]
  · rw [childs n here]
    exact (h.chain n here).congr (fun x member => next x (here.child member))
  · rw [parent c (here.child member)]
    exact h.parent n here c member

-----------------------------------------------------------------------------------------
-- A new last child
-----------------------------------------------------------------------------------------

variable [DecidableEq α]

/-- The children after a new node became the last child of a node. -/
def addKid (kids : α → List α) (p c : α) : α → List α :=
  fun n => if n = c then [] else if n = p then kids p ++ [c] else kids n

/-- The nodes of the tree with a new one, by induction on the way down. -/
theorem below_addKid_iff (here : Below kids root p) (new : ¬ Below kids root c)
    : Below (addKid kids p c) root n ↔ Below kids root n ∨ n = c := by
  have ne : p ≠ c := fun same => new (same ▸ here)
  have old {m : α} (below : Below kids root m) : Below (addKid kids p c) root m := by
    induction below with
    | refl => exact .refl
    | @tail b m below member ih =>
        refine ih.child ?_
        have other : b ≠ c := fun same => new (same ▸ below)
        rw [addKid, if_neg other]
        split
        · next same =>
            rw [← same]
            exact List.mem_append_left _ member
        · exact member
  constructor
  · intro below
    induction below with
    | refl => exact .inl .refl
    | @tail b n _ member ih =>
        rw [addKid] at member
        split at member
        · cases member
        · next other =>
            have below := ih.resolve_right other
            split at member
            · rcases List.mem_append.mp member with before | last
              · exact .inl (here.child before)
              · exact .inr (List.mem_singleton.mp last)
            · exact .inl (below.child member)
  · intro either
    rcases either with below | rfl
    · exact old below
    · refine (old here).child ?_
      rw [addKid, if_neg ne, if_pos rfl]
      exact List.mem_append_right _ (List.mem_singleton_self _)

/-- A new node becomes the last child of a node of the tree. Three fields change: the first child
of the parent or the `next` of its last child, and those of the new node.
-/
theorem IsTree.addKid (h : IsTree links root kids) (here : Below kids root p)
    (new : ¬ Below kids root c)
    (parent : ∀ n, Below kids root n → links'.parent n = links.parent n)
    (childs : ∀ n, Below kids root n
      → links'.childs n = if n = p ∧ kids p = [] then some c else links.childs n)
    (next : ∀ n, Below kids root n
      → links'.next n = if (kids p).getLast? = some n then some c else links.next n)
    (newParent : links'.parent c = some p) (newChilds : links'.childs c = none)
    (newNext : links'.next c = none)
    : IsTree links' root (addKid kids p c) := by
  have ne : p ≠ c := fun same => new (same ▸ here)
  have rootNe : root ≠ c := fun same => new (same ▸ .refl)
  have fresh {m : α} (below : Below kids root m) : c ∉ kids m :=
    fun member => new (below.child member)
  have mem_addKid {m x : α} (member : x ∈ LinkedTree.addKid kids p c m)
      : m ≠ c ∧ (x ∈ kids m ∨ (m = p ∧ x = c)) := by
    rw [LinkedTree.addKid] at member
    split at member
    · cases member
    · next other =>
        refine ⟨other, ?_⟩
        split at member
        · next same =>
            rcases List.mem_append.mp member with before | last
            · exact .inl (same ▸ before)
            · exact .inr ⟨same, List.mem_singleton.mp last⟩
        · exact .inl member
  have kept {m x : α} (below : Below kids root m) (member : x ∈ kids m)
      (notLast : (kids p).getLast? ≠ some x)
      : links'.next x = links.next x := by
    rw [next x (below.child member), if_neg notLast]
  refine ⟨?_, ?_, ?_, ?_, ?_, ?_⟩
  · rw [parent root .refl, h.rootParent]
  · have notLast : (kids p).getLast? ≠ some root :=
      fun last => h.notRoot p here (List.mem_of_getLast? last)
    rw [next root .refl, if_neg notLast, h.rootNext]
  · intro n below
    rcases (below_addKid_iff here new).mp below with old | rfl
    · have other : n ≠ c := fun same => new (same ▸ old)
      rw [LinkedTree.addKid, if_neg other, childs n old]
      have chain := h.chain n old
      by_cases same : n = p
      · subst same
        rw [if_pos rfl]
        rcases List.eq_nil_or_concat' (kids n) with none | ⟨front, w, split⟩
        · rw [none, if_pos ⟨rfl, rfl⟩]
          exact ⟨rfl, newNext⟩
        · rw [if_neg (fun both => List.concat_ne_nil w front (split ▸ both.2)), split]
          have nodup := h.kids_nodup old
          rw [split] at chain nodup
          have last : links'.next w = some c := by
            have inside : w ∈ kids n := by
              rw [split]
              exact List.mem_append_right _ (List.mem_singleton_self _)
            rw [next w (old.child inside), split, if_pos List.getLast?_concat]
          have rewired : Path links'.next (links'.next w) [c] [].head? := ⟨last, newNext⟩
          have cells : Chain links.next (links.childs n) (front ++ w :: ([] ++ [])) := chain
          rw [List.append_assoc]
          refine cells.splice rewired (fun x member => ?_)
          have before : x ∈ front := member.resolve_right (List.not_mem_nil)
          refine kept old ?_ ?_
          · rw [split]
            exact List.mem_append_left _ before
          · rw [split, List.getLast?_concat]
            rintro ⟨rfl⟩
            exact (List.nodup_append.mp nodup).2.2 _ before _ (List.mem_singleton_self _) rfl
      · rw [if_neg same, if_neg (fun both => same both.1)]
        refine chain.congr (fun x member => kept old member (fun last => same ?_))
        exact h.parent_unique old here member (List.mem_of_getLast? last)
    · rw [LinkedTree.addKid, if_pos rfl, newChilds]
      exact chain_nil.mpr rfl
  · intro n below x member
    obtain ⟨other, inside⟩ := mem_addKid member
    have old := ((below_addKid_iff here new).mp below).resolve_right other
    rcases inside with before | ⟨rfl, rfl⟩
    · rw [parent x (old.child before), h.parent n old x before]
    · exact newParent
  · intro n below member
    obtain ⟨other, inside⟩ := mem_addKid member
    have old := ((below_addKid_iff here new).mp below).resolve_right other
    rcases inside with before | ⟨-, same⟩
    · exact h.notRoot n old before
    · exact rootNe same
  · refine (h.finite.insert c).subset (fun n below => ?_)
    exact ((below_addKid_iff here new).mp below).symm

-----------------------------------------------------------------------------------------
-- A node that loses its children
-----------------------------------------------------------------------------------------

def dropKids (kids : α → List α) (p : α) : α → List α :=
  fun n => if n = p then [] else kids n

/-- What is left was there, by induction on the way down. -/
theorem Below.of_dropKids (h : Below (dropKids kids p) root n) : Below kids root n := by
  induction h with
  | refl => exact .refl
  | @tail b n _ member ih =>
      refine ih.child ?_
      rw [dropKids] at member
      split at member
      · cases member
      · exact member

/-- What is left lies outside the subtree, but for its root, by induction on the way down. -/
theorem IsTree.outside_of_dropKids (h : IsTree links root kids) (here : Below kids root p)
    (left : Below (dropKids kids p) root n) (under : Below kids p n)
    : n = p := by
  induction left with
  | refl =>
      rcases under.last with same | ⟨m, below, member⟩
      · exact same
      · exact absurd member (h.notRoot m (here.trans below))
  | @tail b n left member ih =>
      rw [dropKids] at member
      split at member
      · cases member
      · next other =>
          rcases under.last with same | ⟨m, below, member'⟩
          · exact same
          · have inside : Below kids root b := Below.of_dropKids left
            obtain rfl := h.parent_unique inside (here.trans below) member member'
            exact absurd (ih below) other

/-- The nodes outside a subtree are left. -/
theorem IsTree.below_dropKids (h : IsTree links root kids) (here : Below kids root p)
    (below : Below kids root n) (outside : ¬ Below kids p n ∨ n = p)
    : Below (dropKids kids p) root n := by
  induction below with
  | refl => exact .refl
  | @tail b n below member ih =>
      have other : b ≠ p := by
        rintro rfl
        rcases outside with none | rfl
        · exact none (below_of_mem member)
        · exact h.not_below_child below member .refl
      have notUnder : ¬ Below kids p b := by
        intro under
        rcases outside with none | rfl
        · exact none (under.child member)
        · exact h.not_below_child below member under
      refine (ih (.inl notUnder)).child ?_
      rw [dropKids, if_neg other]
      exact member

/-- A node of the tree loses its children. -/
theorem IsTree.dropKids (h : IsTree links root kids) (here : Below kids root p)
    (parent : ∀ n, Below kids root n → links'.parent n = links.parent n)
    (cleared : links'.childs p = none)
    (childs : ∀ n, Below kids root n → ¬ Below kids p n → links'.childs n = links.childs n)
    (next : ∀ n, Below kids root n → links'.next n = links.next n)
    : IsTree links' root (LinkedTree.dropKids kids p) := by
  have inside {m x : α} (member : x ∈ LinkedTree.dropKids kids p m) : m ≠ p ∧ x ∈ kids m := by
    rw [LinkedTree.dropKids] at member
    split at member
    · cases member
    · next other => exact ⟨other, member⟩
  refine ⟨?_, ?_, ?_, ?_, ?_, ?_⟩
  · rw [parent root .refl, h.rootParent]
  · rw [next root .refl, h.rootNext]
  · intro n left
    have below := left.of_dropKids
    rw [LinkedTree.dropKids]
    split
    · next same =>
        rw [same, cleared]
        exact chain_nil.mpr rfl
    · next other =>
        rw [childs n below (fun under => other (h.outside_of_dropKids here left under))]
        exact (h.chain n below).congr (fun x member => next x (below.child member))
  · intro n left x member
    obtain ⟨-, member⟩ := inside member
    have below := left.of_dropKids
    rw [parent x (below.child member), h.parent n below x member]
  · exact fun n left member => h.notRoot n left.of_dropKids (inside member).2
  · exact h.finite.subset (fun n left => left.of_dropKids)

end LinkedTree
