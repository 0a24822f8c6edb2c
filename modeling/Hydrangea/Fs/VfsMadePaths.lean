import Hydrangea.Fs.VfsMakeNodes
import Hydrangea.Fs.VfsRuns

/-! For which paths `vfs_make_node` of `kernel/fs/vfs.c` makes the node that `vfs_node_from_path`
finds under the path.
-/

namespace Hydrangea.VfsState

open CString Linked LinkedTree Vfs

variable {α : Type}

def firstComponent (path : List UInt8) : List UInt8 :=
  path.takeWhile (· ≠ slash)

def behindSlash (path : List UInt8) : List UInt8 :=
  (path.dropWhile (· ≠ slash)).drop 1

/-- A path from `r` goes through a node below `c`. -/
def GoesBelow (s : VfsState α) (kids : α → List α) (r : α) (path : List UInt8) (c : α) : Prop :=
  s.Inside kids c ∧ ∃ ws m, ws <+: words slash path ∧ s.follow kids (s.startOf r path) ws = some m
    ∧ m ≠ c ∧ Below kids c m

/-- The new node is found under its path and has its type and inode, every proper prefix of the
path leads to a node, which is a directory unless one was there, and every path leads to the node
that it led to, unless it goes below a node that has become a file.
-/
structure MakesPath (s s' : VfsState α) (kids : α → List α) (r : α) (path : List UInt8)
    (type inode : Nat) (c : α) : Prop where
  found : s'.Resolves r path (some c)
  file : (s'.node c).file.type = type ∧ (s'.node c).file.inode = inode
  front : ∀ p q, path = p ++ slash :: q → words slash q ≠ []
    → ∃ m, s'.Resolves r p (some m) ∧ (s.Resolves r p none → (s'.node m).file.type = vfsDir)
  older : ∀ other : List UInt8, other.length ≤ 255 → ∀ m, s.Resolves r other (some m)
    → ¬ (type = vfsFile ∧ GoesBelow s kids r other c) → s'.Resolves r other (some m)

/-- A path of one component, and one of two components without a space in the second, if the new
node is a directory or the first component was there.
-/
def Makeable (s : VfsState α) (r : α) (path : List UInt8) (type : Nat) : Prop :=
  behindSlash path = []
    ∨ slash ∉ behindSlash path ∧ 0x20 ∉ behindSlash path
      ∧ (type = vfsDir ∨ ∃ m, s.Resolves r (firstComponent path) (some m))

def Distinct (s : VfsState α) (kids : α → List α) : Prop :=
  ∀ p, s.Inside kids p → ((kids p).map s.nameOf).Nodup

/-- New nodes have been added where no child had their names, and they have the type. -/
structure Grown (s s' : VfsState α) (kids kids' : α → List α) (type : Nat) : Prop
    extends Extends s s' kids kids' where
  typed : ∀ n, s'.Inside kids' n → ¬ s.Inside kids n → (s'.node n).file.type = type
  distinct : Distinct s kids → Distinct s' kids'

variable {s s₀ s₁ s' : VfsState α} {kids kids₀ kids₁ kids' : α → List α} {n r c m : α}
  {word : List UInt8}

-----------------------------------------------------------------------------------------
-- Words that are not dots
-----------------------------------------------------------------------------------------

/-- A component other than `.` and `..`. -/
abbrev Plain (word : List UInt8) : Prop :=
  word ≠ [dot] ∧ word ≠ [dot, dot]

/-- A plain component leads to a child with the name. -/
theorem child_plain (plain : Plain word) (led : s.child kids n word = some c)
    : c ∈ kids n ∧ s.nameOf c = word := by
  rw [child, if_neg plain.1, if_neg plain.2] at led
  exact ⟨List.mem_of_find?_eq_some led, by simpa using List.find?_some led⟩

/-- The last word leads on from the node that the others lead to. -/
theorem follow_concat {ws : List (List UInt8)} (led : s.follow kids n (ws ++ [word]) = some c)
    : ∃ m, s.follow kids n ws = some m ∧ s.child kids m word = some c := by
  obtain ⟨m, first, last⟩ := Option.bind_eq_some_iff.mp ((follow_append ..).symm.trans led)
  obtain ⟨x, stepped, rest⟩ := Option.bind_eq_some_iff.mp ((follow_cons ..).symm.trans last)
  obtain rfl := Option.some.inj rest
  exact ⟨m, first, stepped⟩

theorem follow_single (s : VfsState α) (kids : α → List α) (n : α) (word : List UInt8)
    : s.follow kids n [word] = s.child kids n word := by
  rw [follow_cons]
  exact Option.bind_fun_some _

/-- A path without slashes is one word. -/
theorem lookup_component (s : VfsState α) (kids : α → List α) (r : α) {name : List UInt8}
    (free : slash ∉ name) (nonempty : name ≠ [])
    : s.lookup kids r name = s.child kids r name := by
  have start : s.startOf r name = r := if_neg (fun first => free (List.mem_of_mem_head? first))
  rw [lookup, start, words_of_not_mem free nonempty, follow_single]

/-- Nodes of a tree that lie below each other are the same. -/
theorem below_antisymm (tree : IsTree s.links s.vfsRoot kids) (here : s.Inside kids c)
    (below : Below kids c m) (above : Below kids m c)
    : m = c := by
  rcases below.last with same | ⟨p, down, member⟩
  · exact same
  · exact absurd (above.trans down) (tree.not_below_child (here.trans down) member)

/-- The nodes above a node, and those below them whose names have no spaces. -/
inductive Spaceless (s : VfsState α) (kids : α → List α) (d : α) : α → Prop
  | above {n : α} (below : Below kids n d) : Spaceless s kids d n
  | down {p n : α} (parent : Spaceless s kids d p) (here : s.Inside kids p) (member : n ∈ kids p)
      (free : 0x20 ∉ s.nameOf n)
    : Spaceless s kids d n

/-- A word without spaces leads from one of these nodes to another one. -/
theorem Spaceless.child (tree : IsTree s.links s.vfsRoot kids) {d : α}
    (here : s.Inside kids n) (h : Spaceless s kids d n) (free : 0x20 ∉ word)
    (led : s.child kids n word = some c)
    : Spaceless s kids d c := by
  by_cases isDot : word = [dot]
  · rw [VfsState.child, if_pos isDot] at led
    obtain rfl := Option.some.inj led
    exact h
  by_cases isUp : word = [dot, dot]
  · rw [VfsState.child, if_neg isDot, if_pos isUp] at led
    cases h with
    | above below =>
        rcases here.last with rfl | ⟨p, inside, member⟩
        · obtain rfl := Option.some.inj (tree.rootParent.symm.trans led)
          exact .above below
        · obtain rfl := Option.some.inj ((tree.parent p inside n member).symm.trans led)
          exact .above ((below_of_mem member).trans below)
    | @down p _ parent inside member _ =>
        obtain rfl := Option.some.inj ((tree.parent p inside n member).symm.trans led)
        exact parent
  · obtain ⟨member, name⟩ := child_plain ⟨isDot, isUp⟩ led
    exact .down h here member (by rwa [name])

/-- Words without spaces lead from one of these nodes to another one, by induction on them. -/
theorem Spaceless.follow (tree : IsTree s.links s.vfsRoot kids) {d : α}
    (here : s.Inside kids n) (h : Spaceless s kids d n) {ws : List (List UInt8)}
    (free : ∀ word ∈ ws, 0x20 ∉ word) (led : s.follow kids n ws = some c)
    : Spaceless s kids d c := by
  induction ws generalizing n with
  | nil =>
      obtain rfl := Option.some.inj led
      exact h
  | cons word ws ih =>
      obtain ⟨first, others⟩ := List.forall_mem_cons.mp free
      obtain ⟨m, stepped, rest⟩ := Option.bind_eq_some_iff.mp ((follow_cons ..).symm.trans led)
      exact ih (child_inside tree here stepped) (h.child tree here first stepped) others rest

/-- If a string leads to the same node when it is cut at slashes and when it is cut at spaces, it
has neither.
-/
theorem free_of_follow_eq (tree : IsTree s.links s.vfsRoot kids) (here : s.Inside kids n)
    {t : List UInt8} (nonempty : t ≠ []) (plain : ∀ word ∈ words slash t, Plain word)
    (slashes : s.follow kids n (words slash t) = some c)
    (spaces : s.follow kids n (words 0x20 t) = some c)
    : slash ∉ t ∧ 0x20 ∉ t := by
  have differ : slash ≠ 0x20 := by decide
  rcases List.eq_nil_or_concat' (words slash t) with none | ⟨front, ℓ, last⟩
  · have all := eq_of_words_nil none
    have free : 0x20 ∉ t := fun member => differ (all _ member).symm
    have notDot : dot ∉ t := fun member => (by decide : dot ≠ slash) (all _ member)
    have plainT : Plain t := by
      refine ⟨fun same => notDot ?_, fun same => notDot ?_⟩ <;> rw [same] <;> exact List.mem_cons_self ..
    rw [none] at slashes
    obtain rfl := Option.some.inj slashes
    rw [words_of_not_mem free nonempty] at spaces
    have single : s.follow kids n ([] ++ [t]) = some n := spaces
    obtain ⟨m, first, stepped⟩ := follow_concat single
    obtain rfl := Option.some.inj first
    exact absurd Relation.ReflTransGen.refl (tree.not_below_child here (child_plain plainT stepped).1)
  · rw [last] at slashes
    have memberℓ : ℓ ∈ words slash t := last ▸ List.mem_append_right _ (List.mem_singleton_self ℓ)
    obtain ⟨p, first, stepped⟩ := follow_concat slashes
    obtain ⟨member, name⟩ := child_plain (plain ℓ memberℓ) stepped
    have down : Below kids n p :=
      follow_below (fun word inside => (plain word (last ▸ List.mem_append_left _ inside)).2) first
    have below : ¬ Below kids c n := fun above =>
      tree.not_below_child (here.trans down) member (above.trans down)
    rcases List.eq_nil_or_concat' (words 0x20 t) with none | ⟨front', v, last'⟩
    · rw [none] at spaces
      obtain rfl := Option.some.inj spaces
      exact absurd .refl below
    · have memberV : v ∈ words 0x20 t := last' ▸ List.mem_append_right _ (List.mem_singleton_self v)
      have freeℓ : 0x20 ∉ ℓ := by
        have reached := Spaceless.follow tree here (.above .refl)
          (fun word inside => (of_mem_words inside).1) spaces
        cases reached with
        | above above => exact absurd above below
        | down _ _ _ free => rwa [name] at free
      have freeV : slash ∉ v := by
        intro inside
        have plainV : Plain v := by
          refine ⟨fun same => ?_, fun same => ?_⟩ <;> rw [same] at inside <;> revert inside <;> decide
        rw [last'] at spaces
        obtain ⟨p', -, stepped'⟩ := follow_concat spaces
        obtain rfl : ℓ = v := name.symm.trans (child_plain plainV stepped').2
        exact (of_mem_words memberℓ).1 inside
      exact ⟨not_mem_of_last_words differ last last' freeℓ freeV,
        not_mem_of_last_words differ.symm last' last freeV freeℓ⟩

-----------------------------------------------------------------------------------------
-- Going along the words and adding nodes
-----------------------------------------------------------------------------------------

/-- A word leads to the same node when nodes have been added. -/
theorem Extends.child_eq (h : Extends s₀ s kids₀ kids) (tree₀ : IsTree s₀.links s₀.vfsRoot kids₀)
    (old : s₀.Inside kids₀ n) (led : s₀.child kids₀ n word = some c)
    : s.child kids n word = some c := by
  rw [child] at led ⊢
  split at led
  · next isDot =>
      rw [if_pos isDot]
      exact led
  · next notDot =>
      rw [if_neg notDot]
      split at led
      · next isUp =>
          rw [if_pos isUp, h.parent_eq tree₀ old]
          exact led
      · next notUp =>
          rw [if_neg notUp]
          exact h.find?_eq old led

/-- Words lead to the same node when nodes have been added, by induction on them. -/
theorem Extends.follow_eq (h : Extends s₀ s kids₀ kids) (tree₀ : IsTree s₀.links s₀.vfsRoot kids₀)
    (old : s₀.Inside kids₀ n) {ws : List (List UInt8)} (led : s₀.follow kids₀ n ws = some c)
    : s.follow kids n ws = some c := by
  induction ws generalizing n with
  | nil => exact led
  | cons word ws ih =>
      obtain ⟨m, stepped, rest⟩ := Option.bind_eq_some_iff.mp ((follow_cons ..).symm.trans led)
      rw [follow_cons, h.child_eq tree₀ old stepped, Option.bind_some]
      exact ih (child_inside tree₀ old stepped) rest

/-- A path leads to the same node when nodes have been added. -/
theorem Extends.lookup_eq (h : Extends s₀ s kids₀ kids) (tree₀ : IsTree s₀.links s₀.vfsRoot kids₀)
    (old : s₀.Inside kids₀ r) {path : List UInt8} (led : s₀.lookup kids₀ r path = some c)
    : s.lookup kids r path = some c := by
  have start : s.startOf r path = s₀.startOf r path := by
    rw [startOf, startOf, h.roots.vfsRoot]
  rw [lookup, start]
  exact h.follow_eq tree₀ (startOf_inside old path) led

/-- Where a plain component leads to only when nodes have been added, it leads to one of them. -/
theorem Extends.new_of_child (h : Extends s₀ s kids₀ kids) (plain : Plain word)
    (old : s₀.Inside kids₀ n) (nowhere : s₀.child kids₀ n word = none)
    (led : s.child kids n word = some c)
    : ¬ s₀.Inside kids₀ c := by
  intro oldC
  obtain ⟨member, name⟩ := child_plain plain led
  have member₀ := (h.parent_old (h.inside old) member oldC).2
  rw [child, if_neg plain.1, if_neg plain.2] at nowhere
  rw [h.nameOf_eq oldC] at name
  simpa [name] using List.find?_eq_none.mp nowhere c member₀

/-- Nodes are added, and then more nodes. -/
theorem Extends.trans (h : Extends s₀ s kids₀ kids) (h' : Extends s s' kids kids')
    : Extends s₀ s' kids₀ kids' := by
  refine ⟨h'.tree, h.roots.trans h'.roots, fun n old => ?_, h'.named, fun n old => ?_⟩
  · obtain ⟨name, file⟩ := h.kept n old
    obtain ⟨name', file'⟩ := h'.kept n (h.inside old)
    exact ⟨name'.trans name, file'.trans file⟩
  · exact (h.older n old).trans (h'.older n (h.inside old))

/-- Nodes are added, and then more nodes. -/
theorem Grown.trans {type : Nat} (h : Grown s₀ s kids₀ kids type) (h' : Grown s s' kids kids' type)
    : Grown s₀ s' kids₀ kids' type := by
  refine ⟨h.toExtends.trans h'.toExtends, fun n inside new => ?_,
    fun none => h'.distinct (h.distinct none)⟩
  by_cases before : s.Inside kids n
  · rw [(h'.kept n before).2]
    exact h.typed n before new
  · exact h'.typed n inside before

variable [DecidableEq α]

theorem AddsLast.nameOf_eq (adds : AddsLast s s' kids n c word) : s'.nameOf c = word :=
  adds.named.takeWhile_eq

/-- Where a word led to nothing, no child had the name, and it leads to a child that is added with
it.
-/
theorem AddsLast.child_eq (adds : AddsLast s s' kids n c word) (tree : IsTree s.links s.vfsRoot kids)
    (named : Named s kids) (nowhere : s.child kids n word = none)
    : word ∉ (kids n).map s.nameOf ∧ s'.child (addKid kids n c) n word = some c := by
  have ext := Extends.addsLast (.refl tree named) adds
  have ne : n ≠ c := fun same => adds.new (same ▸ adds.here)
  rw [child] at nowhere
  split at nowhere
  · cases nowhere
  next notDot =>
  split at nowhere
  · obtain ⟨p, parent, -, -⟩ := tree.parent_below adds.here
    cases parent.symm.trans nowhere
  next notUp =>
  have nobody : ∀ x ∈ kids n, s.nameOf x ≠ word := fun x member => by
    simpa using List.find?_eq_none.mp nowhere x member
  have before : (kids n).find? (fun c => s'.nameOf c = word) = none := by
    refine List.find?_eq_none.mpr (fun x member => ?_)
    rw [ext.nameOf_eq (adds.here.child member)]
    simpa using nobody x member
  refine ⟨fun member => ?_, ?_⟩
  · obtain ⟨x, inside, same⟩ := List.mem_map.mp member
    exact nobody x inside same
  · rw [child, if_neg notDot, if_neg notUp, addKid, if_neg ne, if_pos rfl, List.find?_append, before,
      List.find?_cons_of_pos (by simpa using adds.nameOf_eq)]
    rfl

/-- The names of the children of a node, when one has been added. -/
theorem AddsLast.names (adds : AddsLast s s' kids n c word) (tree : IsTree s.links s.vfsRoot kids)
    (named : Named s kids) {p : α} (inside : s.Inside kids p)
    : (addKid kids n c p).map s'.nameOf = (kids p).map s.nameOf ++ if p = n then [word] else [] := by
  have ext := Extends.addsLast (.refl tree named) adds
  have old : (kids p).map s'.nameOf = (kids p).map s.nameOf :=
    List.map_congr_left (fun x member => ext.nameOf_eq (inside.child member))
  have other : p ≠ c := fun same => adds.new (same ▸ inside)
  rw [addKid, if_neg other]
  split
  · next same =>
      subst same
      rw [List.map_append, old, List.map_singleton, adds.nameOf_eq]
  · rw [old, List.append_nil]

/-- A child with a new name is added. -/
theorem Distinct.addsLast (h : Distinct s kids) (adds : AddsLast s s' kids n c word)
    (tree : IsTree s.links s.vfsRoot kids) (named : Named s kids)
    (new : word ∉ (kids n).map s.nameOf)
    : Distinct s' (addKid kids n c) := by
  intro p inside
  rw [Inside, adds.roots.vfsRoot, below_addKid_iff adds.here adds.new] at inside
  rcases inside with old | rfl
  · rw [adds.names tree named old]
    split
    · next same =>
        subst same
        rw [List.nodup_append]
        refine ⟨h p old, List.nodup_singleton _, fun a member b isNew same => ?_⟩
        rw [same, List.mem_singleton.mp isNew] at member
        exact new member
    · rw [List.append_nil]
      exact h p old
  · rw [addKid, if_pos rfl]
    exact List.nodup_nil

/-- A round of the loop of `vfs_make_node` goes to the node that the word leads to, which it adds
if there is none.
-/
theorem childOrNew_grown (tree : IsTree s.links s.vfsRoot kids) (named : Named s kids)
    (here : s.Inside kids n) {blocks rest : List (NodeBlock α)} (fresh : Fresh s kids blocks)
    {buffer : List UInt8} (wanted : Holds buffer word) {fuel type : Nat} {found : Option α}
    (searched : vfsGetChildByName s.mem fuel n buffer = some found)
    (stepped : s.childOrNew fuel n buffer type blocks found = some (c, s', rest))
    : ∃ kids', Grown s s' kids kids' type ∧ Fresh s' kids' rest ∧ s'.child kids' n word = some c := by
  have led : found = s.child kids n word := by
    have search := vfsGetChildByName_child tree here named wanted (le_max_right fuel (kids n).length)
    exact Option.some.inj ((vfsGetChildByName_mono (le_max_left ..) searched).symm.trans search)
  cases found with
  | some x =>
      obtain ⟨rfl, same⟩ := Prod.mk.inj (Option.some.inj stepped)
      obtain ⟨rfl, rfl⟩ := Prod.mk.inj same
      exact ⟨kids, ⟨.refl tree named, fun m inside new => absurd inside new, id⟩, fresh, led.symm⟩
  | none =>
      obtain ⟨block, rfl, rfl, adds⟩ := addNext_adds tree here fresh stepped
      have apart := fresh.apart block (List.mem_cons_self ..)
      have addsLast := adds.addsLast here apart wanted
      obtain ⟨new, led'⟩ := addsLast.child_eq tree named led.symm
      refine ⟨_, ⟨.addsLast (.refl tree named) addsLast, fun m inside outside => ?_, fun distinct => ?_⟩,
        fresh.adds here adds.roots, led'⟩
      · rw [Inside, adds.roots.vfsRoot, below_addKid_iff here apart] at inside
        obtain rfl := inside.resolve_left outside
        rw [adds.file]
      · exact distinct.addsLast addsLast tree named new

/-- The loop of `vfs_make_node` goes to the node that the words lead to then, by induction on the
fuel.
-/
theorem makeTokens_grown {ws : List (List UInt8)} (tree : IsTree s.links s.vfsRoot kids)
    (named : Named s kids) (here : s.Inside kids n) {blocks rest : List (NodeBlock α)}
    (fresh : Fresh s kids blocks) {type fuel : Nat} {token i : Option Nat} {ap : List UInt8}
    (pending : Pending ap token i ws)
    (looped : s.makeTokens type fuel n token i ap blocks = some (c, s', rest))
    : ∃ kids', Grown s s' kids kids' type ∧ s'.follow kids' n ws = some c := by
  induction fuel generalizing s kids n blocks token i ap ws with
  | zero => cases looped
  | succ fuel ih =>
      cases ws with
      | nil =>
          obtain rfl : token = none := pending
          obtain ⟨rfl, same⟩ := Prod.mk.inj (Option.some.inj looped)
          obtain ⟨rfl, rfl⟩ := Prod.mk.inj same
          exact ⟨kids, ⟨.refl tree named, fun m inside new => absurd inside new, id⟩, rfl⟩
      | cons word ws =>
          obtain ⟨q, t, rfl, held, left, rfl⟩ := pending
          obtain ⟨found, searched, looped⟩ := Option.bind_eq_some_iff.mp looped
          obtain ⟨⟨x, s₁, rest₁⟩, stepped, looped⟩ := Option.bind_eq_some_iff.mp looped
          obtain ⟨⟨token', i', ap'⟩, cut, looped⟩ := Option.bind_eq_some_iff.mp looped
          obtain ⟨_, _, _, cut', pending'⟩ := pending_next left
          obtain ⟨rfl, same⟩ := Prod.mk.inj (Option.some.inj (cut.symm.trans cut'))
          obtain ⟨rfl, rfl⟩ := Prod.mk.inj same
          obtain ⟨kids₁, grown₁, fresh₁, led⟩ :=
            childOrNew_grown tree named here fresh held searched stepped
          have here₁ := grown₁.inside here
          obtain ⟨kids', grown, led'⟩ := ih grown₁.tree grown₁.named
            (child_inside grown₁.tree here₁ led) fresh₁ pending' looped
          refine ⟨kids', grown₁.trans grown, ?_⟩
          rw [follow_cons, grown.child_eq grown₁.tree here₁ led, Option.bind_some]
          exact led'

-----------------------------------------------------------------------------------------
-- The end of `vfs_make_node`
-----------------------------------------------------------------------------------------

/-- What `vfs_make_node` does with the node that it has gone to: it sets the type and the inode
and, if the node is a file, frees its children.
-/
structure Finishes (s s' : VfsState α) (kids kids' : α → List α) (type inode : Nat) (c : α) :
    Prop where
  tree : IsTree s'.links s'.vfsRoot kids'
  root : s'.vfsRoot = s.vfsRoot
  named : Named s' kids'
  kids_eq : kids' = if type = vfsFile then dropKids kids c else kids
  entry : ∀ n, (s'.node n).name = (s.node n).name ∧ (s'.node n).parent = (s.node n).parent
  file : ∀ n, (s'.node n).file
    = if n = c then { (s.node n).file with type, inode } else (s.node n).file
  cleared : type = vfsFile → ∀ n, Below kids c n → (s'.node n).childs = none

section Finishes

variable {type inode : Nat} (h : Finishes s s' kids kids' type inode c)
include h

theorem Finishes.nameOf_eq (n : α) : s'.nameOf n = s.nameOf n := by
  rw [nameOf, (h.entry n).1]
  rfl

/-- A node keeps its children, or it has none any more and is the new file. -/
theorem Finishes.kids_cases (n : α) : kids' n = kids n ∨ type = vfsFile ∧ n = c ∧ kids' n = [] := by
  rw [h.kids_eq]
  split
  · next isFile =>
      by_cases same : n = c
      · exact .inr ⟨isFile, same, if_pos same⟩
      · exact .inl (if_neg same)
  · exact .inl rfl

/-- A word leads to a node that it led to before. -/
theorem Finishes.child_of (led : s'.child kids' n word = some m) : s.child kids n word = some m := by
  rw [child] at led ⊢
  rw [(h.entry n).2] at led
  have names : (fun c => decide (s'.nameOf c = word)) = fun c => decide (s.nameOf c = word) := by
    funext c
    rw [h.nameOf_eq c]
  rw [names] at led
  rcases h.kids_cases n with same | ⟨-, -, none⟩
  · rw [same] at led
    exact led
  · rw [none, List.find?_nil] at led
    split at led
    · next isDot =>
        rw [if_pos isDot]
        exact led
    · next notDot =>
        rw [if_neg notDot]
        split at led
        · next isUp =>
            rw [if_pos isUp]
            exact led
        · cases led

/-- Words lead to a node that they led to before, by induction on them. -/
theorem Finishes.follow_of {ws : List (List UInt8)} (led : s'.follow kids' n ws = some m)
    : s.follow kids n ws = some m := by
  induction ws generalizing n with
  | nil => exact led
  | cons word ws ih =>
      obtain ⟨x, stepped, rest⟩ := Option.bind_eq_some_iff.mp ((follow_cons ..).symm.trans led)
      rw [follow_cons, h.child_of stepped, Option.bind_some]
      exact ih rest

/-- A word leads to the same node as before, unless that lies below the new file. -/
theorem Finishes.child_eq (tree : IsTree s.links s.vfsRoot kids) (here : s.Inside kids c)
    (led : s.child kids n word = some m)
    (outside : ¬ (type = vfsFile ∧ m ≠ c ∧ Below kids c m))
    : s'.child kids' n word = some m := by
  rw [child] at led ⊢
  rw [(h.entry n).2]
  split at led
  · next isDot =>
      rw [if_pos isDot]
      exact led
  · next notDot =>
      rw [if_neg notDot]
      split at led
      · next isUp =>
          rw [if_pos isUp]
          exact led
      · next notUp =>
          have names : (fun c => decide (s'.nameOf c = word)) = fun c => decide (s.nameOf c = word) := by
            funext c
            rw [h.nameOf_eq c]
          rw [if_neg notUp, names]
          rcases h.kids_cases n with same | ⟨isFile, rfl, -⟩
          · rw [same]
            exact led
          · have member := List.mem_of_find?_eq_some led
            refine absurd ⟨isFile, ?_, below_of_mem member⟩ outside
            rintro rfl
            exact tree.not_below_child here member .refl

/-- Words lead to the same node as before, unless they lead through one below the new file, by
induction on them.
-/
theorem Finishes.follow_eq (tree : IsTree s.links s.vfsRoot kids) (here : s.Inside kids c)
    {ws : List (List UInt8)} (led : s.follow kids n ws = some m)
    (outside : type = vfsFile → ∀ front, front <+: ws → ∀ x, s.follow kids n front = some x
      → ¬ (x ≠ c ∧ Below kids c x))
    : s'.follow kids' n ws = some m := by
  induction ws generalizing n with
  | nil => exact led
  | cons word ws ih =>
      obtain ⟨x, stepped, rest⟩ := Option.bind_eq_some_iff.mp ((follow_cons ..).symm.trans led)
      have longer {front : List (List UInt8)} (y : α) (led' : s.follow kids x front = some y)
          : s.follow kids n (word :: front) = some y := by
        rw [follow_cons, stepped, Option.bind_some]
        exact led'
      have first := h.child_eq tree here stepped (fun both =>
        outside both.1 [word] (List.prefix_cons_inj word |>.mpr (List.nil_prefix)) x (longer x rfl)
          both.2)
      rw [follow_cons, first, Option.bind_some]
      refine ih rest (fun isFile front part y led' => ?_)
      exact outside isFile (word :: front) ((List.prefix_cons_inj word).mpr part) y (longer y led')

/-- A node is still in the tree, unless it lies below the new file. -/
theorem Finishes.inside (tree : IsTree s.links s.vfsRoot kids) (here : s.Inside kids c)
    (inside : s.Inside kids n) (outside : ¬ (type = vfsFile ∧ n ≠ c ∧ Below kids c n))
    : s'.Inside kids' n := by
  rw [Inside, h.root, h.kids_eq]
  split
  · next isFile =>
      refine tree.below_dropKids here inside ?_
      by_cases same : n = c
      · exact .inr same
      · exact .inl (fun below => outside ⟨isFile, same, below⟩)
  · exact inside

/-- A node that is still in the tree was in it. -/
theorem Finishes.inside_of (inside : s'.Inside kids' n) : s.Inside kids n := by
  rw [Inside, h.root, h.kids_eq] at inside
  split at inside
  · exact inside.of_dropKids
  · exact inside

theorem Finishes.file_of_new (grown : Grown s₀ s kids₀ kids type) (inside : s.Inside kids n)
    (outside : ¬ s₀.Inside kids₀ n)
    : (s'.node n).file.type = type := by
  rw [h.file n]
  split
  · rfl
  · exact grown.typed n inside outside

end Finishes

/-- `vfs_make_node` goes along the words of the path. The loop adds nodes and steps down to them,
and what is behind it stores into the node that it ends at and frees the nodes below a file.
-/
theorem vfsMakeNode_goes (tree : IsTree s.links s.vfsRoot kids) (here : s.Inside kids n)
    (named : Named s kids) {blocks rest : List (NodeBlock α)} (fresh : Fresh s kids blocks)
    {path t : List UInt8} (held : Holds path t) {kmalloc : Buffer256} {i : Option Nat}
    {fuel type inode : Nat}
    (made : s.vfsMakeNode fuel kmalloc i n path type inode blocks = some (c, s', rest))
    : ∃ s₁ kids₁ kids', Grown s s₁ kids kids₁ type ∧ s₁.follow kids₁ n (pathWords t) = some c
        ∧ Finishes s₁ s' kids₁ kids' type inode c := by
  obtain ⟨ap, copied, made⟩ := Option.bind_eq_some_iff.mp made
  obtain ⟨⟨token, i', ap'⟩, cut, made⟩ := Option.bind_eq_some_iff.mp made
  obtain ⟨⟨c', s₁, blocks₁⟩, looped, made⟩ := Option.bind_eq_some_iff.mp made
  have heldCopy := held_of_strcpy copied held
  obtain ⟨_, _, _, cut', pending⟩ := pending_first heldCopy i
  obtain ⟨rfl, same⟩ := Prod.mk.inj (Option.some.inj (cut.symm.trans cut'))
  obtain ⟨rfl, rfl⟩ := Prod.mk.inj same
  obtain ⟨kids₁, grown, led⟩ := makeTokens_grown tree named here fresh pending looped
  have inside := follow_inside grown.tree (grown.inside here) led
  let f (file : VfsFile) : VfsFile := { file with type, inode }
  have tree₁ : IsTree (s₁.setFile c' f).links (s₁.setFile c' f).vfsRoot kids₁ := by
    rw [setFile_links s₁ c' f]
    exact grown.tree
  have named₁ := grown.named.setFile c' f
  have entry₁ (n : α) : ((s₁.setFile c' f).node n).name = (s₁.node n).name
      ∧ ((s₁.setFile c' f).node n).parent = (s₁.node n).parent
      ∧ ((s₁.setFile c' f).node n).file
        = if n = c' then { (s₁.node n).file with type, inode } else (s₁.node n).file := by
    rw [VfsState.setFile, setNode_node]
    split
    · next same =>
        rw [same]
        exact ⟨rfl, rfl, rfl⟩
    · exact ⟨rfl, rfl, rfl⟩
  dsimp only at made
  split at made
  · next isFile =>
      obtain ⟨s₂, returned, made⟩ := Option.bind_eq_some_iff.mp made
      obtain ⟨rfl, same⟩ := Prod.mk.inj (Option.some.inj made)
      obtain ⟨rfl, rfl⟩ := Prod.mk.inj same
      have freed := vfsFreeChildNodes_freed tree₁ inside returned
      refine ⟨s₁, kids₁, dropKids kids₁ c', grown, led, freed.isTree tree₁ inside, freed.roots.vfsRoot,
        freed.named named₁, (if_pos isFile).symm, fun n => ?_, fun n => ?_,
        fun _ n below => freed.cleared n below⟩
      · obtain ⟨childs, entry⟩ := freed.entry n
        obtain ⟨name, parent, -⟩ := entry₁ n
        rw [entry]
        exact ⟨name, parent⟩
      · obtain ⟨childs, entry⟩ := freed.entry n
        rw [entry]
        exact (entry₁ n).2.2
  · next notFile =>
      obtain ⟨rfl, same⟩ := Prod.mk.inj (Option.some.inj made)
      obtain ⟨rfl, rfl⟩ := Prod.mk.inj same
      exact ⟨s₁, kids₁, kids₁, grown, led, tree₁, rfl, named₁, (if_neg notFile).symm,
        fun n => ⟨(entry₁ n).1, (entry₁ n).2.1⟩, fun n => (entry₁ n).2.2,
        fun isFile => absurd isFile notFile⟩

-----------------------------------------------------------------------------------------
-- Relative paths
-----------------------------------------------------------------------------------------

section Relative

variable {t : List UInt8} (relative : t.head? ≠ some slash) (nonempty : t ≠ [])
include relative nonempty

omit [DecidableEq α]

/-- The first word of a relative path is its first component. -/
theorem cutWord_relative : cutWord slash t = some (firstComponent t, behindSlash t) := by
  obtain ⟨b, t, rfl⟩ := List.exists_cons_of_ne_nil nonempty
  have first : b ≠ slash := fun same => relative (congrArg some same)
  rw [cutWord, List.dropWhile_cons_of_neg (by simpa using first)]
  rfl

/-- The first component of a relative path is not empty. -/
theorem firstComponent_ne_nil : firstComponent t ≠ [] := by
  obtain ⟨b, t, rfl⟩ := List.exists_cons_of_ne_nil nonempty
  have first : b ≠ slash := fun same => relative (congrArg some same)
  rw [firstComponent, List.takeWhile_cons_of_pos (by simpa using first)]
  exact List.cons_ne_nil _ _

/-- The words of a relative path, as `vfs_node_from_path` cuts it up. -/
theorem words_relative : words slash t = firstComponent t :: words slash (behindSlash t) := by
  rw [words_eq, cutWord_relative relative nonempty]

/-- The words of a relative path, as `vfs_make_node` cuts it up. -/
theorem pathWords_relative : pathWords t = firstComponent t :: words 0x20 (behindSlash t) := by
  rw [pathWords, cutWord_relative relative nonempty]

/-- The first component of a relative path is one word. -/
theorem lookup_firstComponent (s : VfsState α) (kids : α → List α) (r : α)
    : s.lookup kids r (firstComponent t) = s.child kids r (firstComponent t) := by
  refine lookup_component s kids r (fun member => ?_) (firstComponent_ne_nil relative nonempty)
  simpa using List.mem_takeWhile_imp member

omit relative nonempty in
/-- A path goes on behind its first slash. -/
theorem eq_of_behindSlash (more : behindSlash t ≠ [])
    : t = firstComponent t ++ slash :: behindSlash t := by
  have split := List.takeWhile_append_dropWhile (p := (· ≠ slash)) (l := t)
  rw [behindSlash] at more ⊢
  cases rest : t.dropWhile (· ≠ slash) with
  | nil =>
      rw [rest] at more
      exact absurd rfl more
  | cons b behind =>
      have stop := List.head?_dropWhile_not (fun x => decide (x ≠ slash)) t
      rw [rest] at stop
      obtain rfl : b = slash := by simpa using stop
      rw [rest] at split
      exact split.symm

end Relative

-----------------------------------------------------------------------------------------
-- Finding the new node
-----------------------------------------------------------------------------------------

section Finding

variable {t : List UInt8} {type inode : Nat}

/-- A path that can be cut up in either way has the same words for both. -/
theorem words_of_makeable (relative : t.head? ≠ some slash)
    (both : behindSlash t = [] ∨ slash ∉ behindSlash t ∧ 0x20 ∉ behindSlash t)
    : words slash t = pathWords t := by
  rcases eq_or_ne t [] with rfl | nonempty
  · rfl
  rw [words_relative relative nonempty, pathWords_relative relative nonempty]
  rcases eq_or_ne (behindSlash t) [] with none | more
  · rw [none]
    rfl
  · obtain ⟨slashes, spaces⟩ := both.resolve_left more
    rw [words_of_not_mem slashes more, words_of_not_mem spaces more]

/-- What a path led to it leads to, unless it goes below the new file. -/
theorem Finishes.lookup_older (fin : Finishes s₁ s' kids₁ kids' type inode c)
    (ext : Extends s s₁ kids kids₁) (tree : IsTree s.links s.vfsRoot kids) (here : s.Inside kids r)
    (inside : s₁.Inside kids₁ c) {path : List UInt8} (led : s.lookup kids r path = some m)
    (outside : ¬ (type = vfsFile ∧ GoesBelow s kids r path c))
    : s'.lookup kids' r path = some m := by
  have start : s'.startOf r path = s.startOf r path := by
    rw [startOf, startOf, fin.root, ext.roots.vfsRoot]
  have begins := startOf_inside here path
  rw [lookup, start]
  refine fin.follow_eq ext.tree inside (ext.follow_eq tree begins led)
    (fun isFile front part x led₁ below => outside ⟨isFile, ?_⟩)
  obtain ⟨rest, split⟩ := part
  have whole := led
  rw [lookup, ← split, follow_append] at whole
  obtain ⟨y, reached, -⟩ := Option.bind_eq_some_iff.mp whole
  obtain rfl := Option.some.inj ((ext.follow_eq tree begins reached).symm.trans led₁)
  have oldX := follow_inside tree begins reached
  have oldC : s.Inside kids c := by
    by_contra new
    exact ext.below_new inside new below.2 oldX
  exact ⟨oldC, front, y, ⟨rest, split⟩, reached, below.1, (ext.below_iff oldC oldX).mp below.2⟩

omit [DecidableEq α] in
/-- On the way down to the new file no node lies below it. -/
theorem follow_not_below (tree : IsTree s.links s.vfsRoot kids) (here : s.Inside kids n)
    {ws front : List (List UInt8)} (plain : ∀ word ∈ ws, Plain word)
    (led : s.follow kids n ws = some c) (part : front <+: ws) (reached : s.follow kids n front = some m)
    : ¬ (m ≠ c ∧ Below kids c m) := by
  rintro ⟨other, below⟩
  obtain ⟨rest, rfl⟩ := part
  rw [follow_append, reached, Option.bind_some] at led
  have above := follow_below (fun word member => (plain word (List.mem_append_right _ member)).2) led
  have inside := follow_below (fun word member => (plain word (List.mem_append_left _ member)).2) reached
  exact other (below_antisymm tree ((here.trans inside).trans above) below above)

/-- `vfs_make_node` makes such a path. Such a path has the same words for both lookups, so the
lookup goes the way of the loop; the nodes freed are below the one made.
-/
theorem Finishes.makesPath (fin : Finishes s₁ s' kids₁ kids' type inode c)
    (grown : Grown s s₁ kids kids₁ type)
    (tree : IsTree s.links s.vfsRoot kids) (named : Named s kids) (here : s.Inside kids r)
    (led : s₁.follow kids₁ r (pathWords t) = some c) (short : t.length ≤ 255) (nonzero : 0 ∉ t)
    (relative : t.head? ≠ some slash) (plain : ∀ word ∈ words slash t, Plain word)
    (makeable : Makeable s r t type)
    : MakesPath s s' kids r t type inode c := by
  have same : words slash t = pathWords t :=
    words_of_makeable relative (makeable.imp_right (fun both => ⟨both.1, both.2.1⟩))
  rw [← same] at led
  have here₁ := grown.inside here
  have inside := follow_inside grown.tree here₁ led
  have below := follow_below (fun word member => (plain word member).2) led
  have start : s'.startOf r t = r := if_neg relative
  have found : s'.follow kids' r (words slash t) = some c :=
    fin.follow_eq grown.tree inside led (fun _ front part x reached =>
      follow_not_below grown.tree here₁ plain led part reached)
  have here' : s'.Inside kids' r := fin.inside grown.tree inside here₁ (fun both =>
    both.2.1 (below_antisymm grown.tree inside both.2.2 below))
  refine ⟨?_, ⟨?_, ?_⟩, fun p q split more => ?_, fun other size m resolves outside => ?_⟩
  · have lookup := resolves_lookup fin.tree fin.named here' short
    rwa [VfsState.lookup, start, found] at lookup
  · rw [fin.file c, if_pos rfl]
  · rw [fin.file c, if_pos rfl]
  · have nonempty : t ≠ [] := by
      rintro rfl
      cases p <;> cases split
    have relativeP : p.head? ≠ some slash := by
      cases p with
      | nil => exact absurd (congrArg List.head? split) relative
      | cons b p => rwa [split] at relative
    have nonemptyP : p ≠ [] := by
      rintro rfl
      exact relative (congrArg List.head? split)
    have wordsT := words_relative relative nonempty
    have wordsP := words_relative relativeP nonemptyP
    have parts : words slash t = words slash p ++ words slash q := by
      rw [split, words_append_cons]
    rw [wordsT, wordsP, List.cons_append] at parts
    obtain ⟨first, behind⟩ := List.cons.inj parts
    rcases eq_or_ne (behindSlash t) [] with last | another
    · rw [last] at behind
      exact absurd (List.append_eq_nil_iff.mp behind.symm).2 more
    · obtain ⟨slashes, -, isDir⟩ := makeable.resolve_left another
      rw [words_of_not_mem slashes another] at behind wordsT
      have alone : words slash (behindSlash p) = [] := by
        rcases List.append_eq_singleton_iff.mp behind.symm with ⟨none, -⟩ | ⟨-, none⟩
        · exact none
        · exact absurd none more
      rw [wordsT] at led plain
      obtain ⟨d, stepped, -⟩ := Option.bind_eq_some_iff.mp ((follow_cons ..).symm.trans led)
      have single : s₁.follow kids₁ r [firstComponent t] = some d := by
        rw [follow_single, stepped]
      have part : [firstComponent t] <+: [firstComponent t, behindSlash t] := ⟨_, rfl⟩
      have stepped' := fin.child_eq grown.tree inside stepped (fun both =>
        follow_not_below grown.tree here₁ plain led part single both.2)
      have lookupP (s : VfsState α) (kids : α → List α)
          : s.lookup kids r p = s.child kids r (firstComponent t) := by
        have startP : s.startOf r p = r := if_neg relativeP
        rw [VfsState.lookup, startP, wordsP, alone, ← first, follow_single]
      have sizeP : p.length ≤ 255 := by
        rw [split, List.length_append] at short
        omega
      have nonzeroP : 0 ∉ p := fun zero => nonzero (split ▸ List.mem_append_left _ zero)
      refine ⟨d, ?_, fun nowhere => ?_⟩
      · have lookup := resolves_lookup fin.tree fin.named here' sizeP
        rwa [lookupP, stepped'] at lookup
      · have before := (resolves_lookup tree named here sizeP).unique nonzeroP nowhere
        rw [lookupP] at before
        have isNew := grown.new_of_child (plain _ (List.mem_cons_self ..)) here before stepped
        rcases isDir with rfl | ⟨m, there⟩
        · exact fin.file_of_new grown (child_inside grown.tree here₁ stepped) isNew
        · have sizeFirst : (firstComponent t).length ≤ 255 :=
            Nat.le_trans (List.takeWhile_prefix _).length_le short
          have nonzeroFirst : 0 ∉ firstComponent t :=
            fun zero => nonzero ((List.takeWhile_subset _) zero)
          have lookup := (resolves_lookup tree named here sizeFirst).unique nonzeroFirst there
          rw [lookup_firstComponent relative nonempty, before] at lookup
          cases lookup
  · by_cases zero : 0 ∈ other
    · exact ⟨0, fun _ _ _ _ _ held => absurd zero held.1⟩
    · have led' := (resolves_lookup tree named here size).unique zero resolves
      have lookup := resolves_lookup fin.tree fin.named here' size
      rwa [fin.lookup_older grown.toExtends tree here inside led' outside] at lookup

omit [DecidableEq α] in
/-- A path does not lead on from a node without children. -/
theorem resolves_none {s : VfsState α} (relative : t.head? ≠ some slash) (nonempty : t ≠ [])
    (plain : Plain (firstComponent t)) (short : t.length ≤ 255) (childless : (s.node r).childs = none)
    : s.Resolves r t none := by
  refine ⟨1, fun fuel enough kmalloc i buffer held => ?_⟩
  obtain ⟨fuel, rfl⟩ := Nat.exists_eq_add_of_le' enough
  obtain ⟨token, i', ap, called, tokens⟩ := vfsNodeFromPath_tokens held short s r kmalloc (fuel + 1) i
  have start : s.startOf r t = r := if_neg relative
  rw [words_relative relative nonempty] at tokens
  obtain ⟨q, t', rfl, heldFirst, -, -⟩ := tokens
  have dotHeld : Holds [dot, 0] [dot] := by decide
  have upHeld : Holds [dot, dot, 0] [dot, dot] := by decide
  have link : (s.mem r).childs = none := childless
  have search : vfsGetChildByName s.mem fuel r (ap.drop q) = some none := by
    rw [vfsGetChildByName, strcmp_eq heldFirst dotHeld, strcmp_eq heldFirst upHeld, if_neg plain.1,
      if_neg plain.2, link]
    rfl
  rw [called, start, followTokens, search]
  rfl

/-- `vfs_make_node` makes such a path only. A second component with a slash or a space behind it is
not the name that was given to the node, so the lookup misses it.
-/
theorem Finishes.makeable (fin : Finishes s₁ s' kids₁ kids' type inode c)
    (grown : Grown s s₁ kids kids₁ type)
    (tree : IsTree s.links s.vfsRoot kids) (named : Named s kids) (here : s.Inside kids r)
    (led : s₁.follow kids₁ r (pathWords t) = some c) (short : t.length ≤ 255) (nonzero : 0 ∉ t)
    (relative : t.head? ≠ some slash) (plain : ∀ word ∈ words slash t, Plain word)
    (makes : MakesPath s s' kids r t type inode c)
    : Makeable s r t type := by
  by_cases last : behindSlash t = []
  · exact .inl last
  have nonempty : t ≠ [] := by
    rintro rfl
    exact last rfl
  have here₁ := grown.inside here
  have inside := follow_inside grown.tree here₁ led
  have start (s : VfsState α) : s.startOf r t = r := if_neg relative
  rw [words_relative relative nonempty] at plain
  obtain ⟨plainFirst, plainRest⟩ := List.forall_mem_cons.mp plain
  have here' : s'.Inside kids' r := by
    by_contra gone
    obtain ⟨isFile, -, under⟩ :=
      not_not.mp (fun outside => gone (fin.inside grown.tree inside here₁ outside))
    have nothing := fin.cleared isFile r under
    cases (resolves_none relative nonempty plainFirst short nothing).unique nonzero makes.found
  have found := (resolves_lookup fin.tree fin.named here' short).unique nonzero makes.found
  rw [VfsState.lookup, start, words_relative relative nonempty] at found
  have slashes := fin.follow_of found
  rw [pathWords_relative relative nonempty] at led
  obtain ⟨d, stepped, spaces⟩ := Option.bind_eq_some_iff.mp ((follow_cons ..).symm.trans led)
  rw [follow_cons, stepped, Option.bind_some] at slashes
  have free := free_of_follow_eq grown.tree (child_inside grown.tree here₁ stepped) last plainRest
    slashes spaces
  refine .inr ⟨free.1, free.2, ?_⟩
  by_contra neither
  obtain ⟨notDir, nowhere⟩ := not_or.mp neither
  have sizeFirst : (firstComponent t).length ≤ 255 :=
    Nat.le_trans (List.takeWhile_prefix _).length_le short
  have nonzeroFirst : 0 ∉ firstComponent t := fun zero => nonzero ((List.takeWhile_subset _) zero)
  have before := resolves_lookup tree named here sizeFirst
  have missing : s.lookup kids r (firstComponent t) = none :=
    Option.eq_none_iff_forall_ne_some.mpr (fun m found => nowhere ⟨m, found ▸ before⟩)
  rw [missing] at before
  rw [lookup_firstComponent relative nonempty] at missing
  have more : words slash (behindSlash t) ≠ [] := by
    rw [words_of_not_mem free.1 last]
    exact List.cons_ne_nil _ _
  obtain ⟨m, resolves, isDir⟩ := makes.front _ _ (eq_of_behindSlash last) more
  have after := (resolves_lookup fin.tree fin.named here' sizeFirst).unique nonzeroFirst resolves
  rw [lookup_firstComponent relative nonempty] at after
  have stepped' := fin.child_of after
  have isNew := grown.new_of_child plainFirst here missing stepped'
  have typed := fin.file_of_new grown (child_inside grown.tree here₁ stepped') isNew
  exact notDir (typed.symm.trans (isDir before))

end Finding

/-- For which paths without dots `vfs_make_node` makes the node that `vfs_node_from_path` finds
under the path: those of one component with at most one slash behind it, and those of two
components without a space in the second, if the new node is a directory or the first component was
there. The second `strtok` is told to cut at spaces instead of slashes and so takes the rest of the
path as a name. Followed word by word, the loop makes the node under its path in these cases and
another one otherwise.
-/
theorem vfsMakeNode_makesPath_iff (tree : IsTree s.links s.vfsRoot kids) (here : s.Inside kids r)
    (named : Named s kids) {blocks : List (NodeBlock α)} (fresh : Fresh s kids blocks)
    {path t : List UInt8} (held : Holds path t) (short : t.length ≤ 255)
    (room : t.length ≤ blocks.length) (relative : t.head? ≠ some slash)
    (plain : ∀ word ∈ words slash t, Plain word) (kmalloc : Buffer256) (i : Option Nat)
    (type inode : Nat)
    : ∃ enough c s' rest,
        (∀ fuel, enough ≤ fuel
          → s.vfsMakeNode fuel kmalloc i r path type inode blocks = some (c, s', rest))
        ∧ (MakesPath s s' kids r t type inode c ↔ Makeable s r t type) := by
  obtain ⟨enough, c, s', kids₂, rest, returns, -⟩ := vfsMakeNode_returns tree here named fresh held
    (Nat.lt_succ_of_le short) room kmalloc i type inode
  obtain ⟨s₁, kids₁, kids', grown, led, fin⟩ :=
    vfsMakeNode_goes tree here named fresh held (returns enough le_rfl)
  refine ⟨enough, c, s', rest, returns, fun makes => ?_, fun makeable => ?_⟩
  · exact fin.makeable grown tree named here led short held.1 relative plain makes
  · exact fin.makesPath grown tree named here led short held.1 relative plain makeable

/-- The directory `/` alone. -/
def loneState : VfsState Nat where
  node _ :=
    { name := [slash, 0], parent := some 0, childs := none, next := none, prev := none,
      file := { type := vfsDir, permissions := 0, inode := 0, size := 0 } }
  vfsRoot := 0
  tmpfsRoot := none
  devfsRoot := none

theorem isTree_loneState : IsTree loneState.links loneState.vfsRoot (fun _ => []) :=
  isTree_alone rfl rfl rfl

theorem named_loneState : Named loneState (fun _ => []) :=
  fun _ _ => (show Holds [slash, 0] ([slash, 0].takeWhile (· ≠ 0)) by decide)

theorem inside_loneState {n : Nat} (inside : loneState.Inside (fun _ => []) n) : n = 0 :=
  inside.of_nil rfl

def fiveBlocks : List (NodeBlock Nat) :=
  [zeroBlock 1, zeroBlock 2, zeroBlock 3, zeroBlock 4, zeroBlock 5]

theorem fresh_fiveBlocks : Fresh loneState (fun _ => []) fiveBlocks := by
  have positive : ∀ block ∈ fiveBlocks, block.addr ≠ 0 := by decide
  exact ⟨by decide, fun block member inside => positive block member (inside_loneState inside)⟩

/-- The path `a/b` for a directory. -/
theorem vfsMakeNode_makesPath_iff_root
    : ∃ enough c s' rest,
        (∀ fuel, enough ≤ fuel → loneState.vfsMakeNode fuel zeros none 0 [0x61, slash, 0x62, 0] vfsDir 0
          fiveBlocks = some (c, s', rest))
        ∧ (MakesPath loneState s' (fun _ => []) 0 [0x61, slash, 0x62] vfsDir 0 c
          ↔ Makeable loneState 0 [0x61, slash, 0x62] vfsDir) := by
  exact vfsMakeNode_makesPath_iff isTree_loneState .refl named_loneState fresh_fiveBlocks
    (by decide) (by decide) (by decide) (by decide) (by decide) zeros none vfsDir 0

/-- For the path `a/b/c` the directory `a` gets a child with the name `b/c`, and the path leads
nowhere.
-/
theorem vfsMakeNode_not_makesPath
    : ∃ c s' rest,
        (∀ fuel, 8 ≤ fuel → loneState.vfsMakeNode fuel zeros none 0 [0x61, slash, 0x62, slash, 0x63, 0]
          vfsDir 0 fiveBlocks = some (c, s', rest))
        ∧ ¬ MakesPath loneState s' (fun _ => []) 0 [0x61, slash, 0x62, slash, 0x63] vfsDir 0 c := by
  have facts : ∀ r ∈ loneState.vfsMakeNode 8 zeros none 0 [0x61, slash, 0x62, slash, 0x63, 0] vfsDir 0
      fiveBlocks, vfsNodeFromPath r.2.1.mem r.2.1.vfsRoot zeros 8 none 0
        [0x61, slash, 0x62, slash, 0x63, 0] = some none := by
    decide +kernel
  have returns : (loneState.vfsMakeNode 8 zeros none 0 [0x61, slash, 0x62, slash, 0x63, 0] vfsDir 0
      fiveBlocks).isSome = true := by
    decide +kernel
  obtain ⟨⟨c, s', rest⟩, made⟩ := Option.isSome_iff_exists.mp returns
  have missing := facts _ made
  refine ⟨c, s', rest, fun fuel enough => vfsMakeNode_mono enough made, fun makes => ?_⟩
  obtain ⟨enough, resolves⟩ := makes.found
  have found := resolves (max enough 8) (le_max_left ..) zeros none [0x61, slash, 0x62, slash, 0x63, 0]
    (by decide)
  cases found.symm.trans (vfsNodeFromPath_mono (le_max_right enough 8) missing)

end Hydrangea.VfsState
