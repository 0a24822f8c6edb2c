import Hydrangea.Fs.VfsLookups

/-! That `vfs_make_node` of `kernel/fs/vfs.c` returns, and where the path leads it. -/

namespace Hydrangea.VfsState

open CString Linked LinkedTree Vfs

variable {α : Type}

/-- Where a path leads: to a node that was there, or so many new nodes below it. -/
structure Place (α : Type) where
  base : α
  levels : Nat

def Place.step (s : VfsState α) (kids : α → List α) (place : Place α) (word : List UInt8) : Place α :=
  if word = [dot] then
    place
  else if word = [dot, dot] then
    match place.levels with
    | 0 => ⟨((s.node place.base).parent).getD place.base, 0⟩
    | levels + 1 => ⟨place.base, levels⟩
  else
    match place.levels with
    | 0 =>
        match (kids place.base).find? (fun c => s.nameOf c = word) with
        | some c => ⟨c, 0⟩
        | none => ⟨place.base, 1⟩
    | levels + 1 => ⟨place.base, levels + 2⟩

/-- The words of a path, as `vfs_make_node` cuts it up. -/
def pathWords (path : List UInt8) : List (List UInt8) :=
  match cutWord slash path with
  | none => []
  | some (word, behind) => word :: words 0x20 behind

/-- Where `vfs_make_node` is led from a node. -/
def place (s : VfsState α) (kids : α → List α) (n : α) (path : List UInt8) : Place α :=
  (pathWords path).foldl (Place.step s kids) ⟨n, 0⟩

-----------------------------------------------------------------------------------------
-- Trees with new nodes
-----------------------------------------------------------------------------------------

/-- Nodes have been added to a tree. -/
structure Extends (s₀ s : VfsState α) (kids₀ kids : α → List α) : Prop where
  tree : IsTree s.links s.vfsRoot kids
  roots : SameRoots s₀ s
  kept : KeepsNodes s₀ s kids₀
  named : Named s kids
  older : ∀ n, s₀.Inside kids₀ n → kids₀ n <+: kids n

/-- One node has been added, as the last child of `p`. -/
structure AddsLast [DecidableEq α] (s s' : VfsState α) (kids : α → List α) (p c : α)
    (name : List UInt8) : Prop where
  new : ¬ s.Inside kids c
  here : s.Inside kids p
  tree : IsTree s'.links s'.vfsRoot (addKid kids p c)
  roots : SameRoots s s'
  kept : KeepsNodes s s' kids
  named : Holds (s'.node c).name name

inductive Placed (s₀ : VfsState α) (kids₀ kids : α → List α) : Place α → α → Prop
  | base {b : α} (old : s₀.Inside kids₀ b) : Placed s₀ kids₀ kids ⟨b, 0⟩ b
  | down {b m c : α} {levels : Nat} (above : Placed s₀ kids₀ kids ⟨b, levels⟩ m) (member : c ∈ kids m)
    (new : ¬ s₀.Inside kids₀ c)
    : Placed s₀ kids₀ kids ⟨b, levels + 1⟩ c

variable {s₀ s s' : VfsState α} {kids₀ kids : α → List α} {n m c : α}

/-- No node has been added. -/
theorem Extends.refl (tree : IsTree s.links s.vfsRoot kids) (named : Named s kids)
    : Extends s s kids kids :=
  ⟨tree, ⟨rfl, rfl, rfl⟩, fun _ _ => ⟨rfl, rfl⟩, named, fun _ _ => List.prefix_rfl⟩

/-- The nodes of the tree stay in it, by induction on the way down. -/
theorem Extends.inside (h : Extends s₀ s kids₀ kids) (inside : s₀.Inside kids₀ n)
    : s.Inside kids n := by
  rw [Inside, h.roots.vfsRoot]
  induction inside with
  | refl => exact .refl
  | tail above member ih => exact ih.child ((h.older _ above).subset member)

/-- A node that was in the tree has the parent that it had. -/
theorem Extends.parent_old (h : Extends s₀ s kids₀ kids)
    (here : s.Inside kids n) (member : c ∈ kids n) (old : s₀.Inside kids₀ c)
    : s₀.Inside kids₀ n ∧ c ∈ kids₀ n := by
  rcases old.last with rfl | ⟨p, above, member₀⟩
  · have root := h.tree.notRoot n here
    rw [h.roots.vfsRoot] at root
    exact absurd member root
  · obtain rfl := h.tree.parent_unique here (h.inside above) member ((h.older p above).subset member₀)
    exact ⟨above, member₀⟩

/-- A node that was in the tree is below those it was below, and no others that were in the tree, by
induction on the way down.
-/
theorem Extends.below_iff (h : Extends s₀ s kids₀ kids)
    (old : s₀.Inside kids₀ m) (old' : s₀.Inside kids₀ n)
    : Below kids m n ↔ Below kids₀ m n := by
  constructor
  · intro below
    induction below with
    | refl => exact .refl
    | @tail b n below member ih =>
        obtain ⟨oldB, member₀⟩ := h.parent_old ((h.inside old).trans below) member old'
        exact (ih oldB).child member₀
  · intro below
    clear old'
    induction below with
    | refl => exact .refl
    | tail below member ih => exact ih.child ((h.older _ (old.trans below)).subset member)

/-- What is below a new node is new, by induction on the way down. -/
theorem Extends.below_new (h : Extends s₀ s kids₀ kids)
    (here : s.Inside kids m) (new : ¬ s₀.Inside kids₀ m) (below : Below kids m n)
    : ¬ s₀.Inside kids₀ n := by
  induction below with
  | refl => exact new
  | @tail b n below member ih =>
      exact fun old => ih (h.parent_old (here.trans below) member old).1

/-- A node that was in the tree keeps its parent. -/
theorem Extends.parent_eq (h : Extends s₀ s kids₀ kids) (tree₀ : IsTree s₀.links s₀.vfsRoot kids₀)
    (old : s₀.Inside kids₀ n)
    : (s.node n).parent = (s₀.node n).parent := by
  rcases old.last with rfl | ⟨p, above, member⟩
  · have root := h.tree.rootParent
    rw [h.roots.vfsRoot] at root
    exact root.trans tree₀.rootParent.symm
  · have parent := h.tree.parent p (h.inside above) n ((h.older p above).subset member)
    exact parent.trans (tree₀.parent p above n member).symm

/-- A node that was in the tree keeps its name. -/
theorem Extends.nameOf_eq (h : Extends s₀ s kids₀ kids) (old : s₀.Inside kids₀ n)
    : s.nameOf n = s₀.nameOf n := by
  rw [nameOf, (h.kept n old).1]
  rfl

/-- The first child with a name was there, if there was one. -/
theorem Extends.find?_eq (h : Extends s₀ s kids₀ kids) (old : s₀.Inside kids₀ n) {word : List UInt8}
    (found : (kids₀ n).find? (fun c => s₀.nameOf c = word) = some c)
    : (kids n).find? (fun c => s.nameOf c = word) = some c := by
  obtain ⟨added, split⟩ := h.older n old
  have same : (kids₀ n).find? (fun c => s.nameOf c = word)
      = (kids₀ n).find? (fun c => s₀.nameOf c = word) := by
    refine List.find?_congr (fun c member => ?_)
    rw [h.nameOf_eq (old.child member)]
  rw [← split, List.find?_append, same, found]
  rfl

theorem Placed.inside (h : Extends s₀ s kids₀ kids) {place : Place α}
    (placed : Placed s₀ kids₀ kids place m)
    : s.Inside kids m := by
  induction placed with
  | base old => exact h.inside old
  | down _ member _ ih => exact ih.child member

/-- The node of a place without new levels is the one that was there. -/
theorem Placed.eq_base {place : Place α} (placed : Placed s₀ kids₀ kids place m)
    (old : s₀.Inside kids₀ m)
    : place = ⟨m, 0⟩ := by
  cases placed with
  | base => rfl
  | down _ _ new => exact absurd old new

/-- A place without new levels is a node that was there. -/
theorem Placed.old {place : Place α} (placed : Placed s₀ kids₀ kids place m)
    (level : place.levels = 0)
    : s₀.Inside kids₀ m := by
  cases placed with
  | base old => exact old
  | down _ _ _ => cases level

/-- A place is found in a larger tree, too, by induction on the levels. -/
theorem Placed.mono {kids' : α → List α} {place : Place α} (h : Placed s₀ kids₀ kids place m)
    (larger : ∀ n, s.Inside kids n → ∀ c ∈ kids n, c ∈ kids' n) (ext : Extends s₀ s kids₀ kids)
    : Placed s₀ kids₀ kids' place m := by
  induction h with
  | base old => exact .base old
  | down above member new ih => exact .down ih (larger _ (above.inside ext) _ member) new

variable [DecidableEq α]

/-- A node more has been added. -/
theorem Extends.addsLast (h : Extends s₀ s kids₀ kids) {p : α} {name : List UInt8}
    (adds : AddsLast s s' kids p c name)
    : Extends s₀ s' kids₀ (addKid kids p c) := by
  refine ⟨?_, h.roots.trans adds.roots, fun n old => ?_, fun n inside => ?_, fun n old => ?_⟩
  · exact adds.tree
  · obtain ⟨name, file⟩ := h.kept n old
    obtain ⟨name', file'⟩ := adds.kept n (h.inside old)
    exact ⟨name'.trans name, file'.trans file⟩
  · rw [Inside, adds.roots.vfsRoot, below_addKid_iff adds.here adds.new] at inside
    rcases inside with before | rfl
    · rw [nameOf, (adds.kept n before).1]
      exact h.named n before
    · rw [nameOf, adds.named.takeWhile_eq]
      exact adds.named
  · have other : n ≠ c := fun same => adds.new (same ▸ h.inside old)
    rw [addKid, if_neg other]
    split
    · next same =>
        subst same
        exact (h.older n old).trans (List.prefix_append _ _)
    · exact h.older n old

/-- The new node is the last child of its parent. -/
theorem Adds.addsLast {p : α} (here : s.Inside kids p) {block : NodeBlock α}
    (fresh : ¬ s.Inside kids block.addr) {name word : List UInt8} {type : Nat}
    (wanted : Holds name word) (adds : Adds s s' kids p block name type)
    : AddsLast s s' kids p block.addr word :=
  ⟨fresh, here, adds.roots.vfsRoot.symm ▸ adds.tree, adds.roots, adds.kept,
    held_of_strcpy adds.name wanted⟩

theorem Placed.adds {place : Place α} {p : α} (placed : Placed s₀ kids₀ kids place p)
    (ext : Extends s₀ s kids₀ kids) {block : NodeBlock α} (fresh : ¬ s.Inside kids block.addr)
    : Placed s₀ kids₀ (addKid kids p block.addr) ⟨place.base, place.levels + 1⟩ block.addr := by
  have here := placed.inside ext
  have ne : p ≠ block.addr := fun same => fresh (same ▸ here)
  have larger (n : α) (inside : s.Inside kids n) (c : α) (member : c ∈ kids n)
      : c ∈ addKid kids p block.addr n := by
    have other : n ≠ block.addr := fun same => fresh (same ▸ inside)
    rw [addKid, if_neg other]
    split
    · next same =>
        subst same
        exact List.mem_append_left _ member
    · exact member
  refine .down (placed.mono larger ext) ?_ (fun old => fresh (ext.inside old))
  rw [addKid, if_neg ne, if_pos rfl]
  exact List.mem_append_right _ (List.mem_singleton_self _)

-----------------------------------------------------------------------------------------
-- Going along a path
-----------------------------------------------------------------------------------------

/-- The loop of `vfs_make_node` at a place: what it has added, and the blocks that are left. -/
structure Making (s₀ s : VfsState α) (kids₀ kids : α → List α) (place : Place α) (n : α)
    (blocks : List (NodeBlock α)) : Prop where
  extends' : Extends s₀ s kids₀ kids
  placed : Placed s₀ kids₀ kids place n
  fresh : Fresh s kids blocks

/-- A word of a path leads from a place to the next one. Either the word names a child of the node,
or a node with that name is added as its last child.
-/
theorem Making.step {place : Place α} {blocks : List (NodeBlock α)} {word buffer : List UInt8}
    (h : Making s₀ s kids₀ kids place n blocks) (tree₀ : IsTree s₀.links s₀.vfsRoot kids₀)
    (wanted : Holds buffer word) (room : word.length < 256) (nonempty : blocks ≠ []) (type : Nat)
    : ∃ enough c s' kids' rest, (∀ fuel, enough ≤ fuel
          → ∃ found, vfsGetChildByName s.mem fuel n buffer = some found
            ∧ s.childOrNew fuel n buffer type blocks found = some (c, s', rest))
        ∧ Making s₀ s' kids₀ kids' (place.step s₀ kids₀ word) c rest
        ∧ blocks.length ≤ rest.length + 1 := by
  obtain ⟨ext, placed, fresh⟩ := h
  have here := placed.inside ext
  rw [Place.step]
  by_cases isDot : word = [dot]
  · subst isDot
    refine ⟨0, n, s, kids, blocks, fun fuel _ => ⟨some n, vfsGetChildByName_dot wanted fuel, rfl⟩, ?_,
      Nat.le_succ _⟩
    rw [if_pos rfl]
    exact ⟨ext, placed, fresh⟩
  by_cases isUp : word = [dot, dot]
  · subst isUp
    obtain ⟨p, parent, above, -⟩ := ext.tree.parent_below here
    replace parent : (s.node n).parent = some p := parent
    refine ⟨0, p, s, kids, blocks, fun fuel _ => ⟨some p, ?_, rfl⟩, ?_, Nat.le_succ _⟩
    · rw [vfsGetChildByName_up wanted, parent]
    · rw [if_neg isDot, if_pos rfl]
      refine ⟨ext, ?_, fresh⟩
      cases placed with
      | base old =>
          obtain ⟨p₀, parent₀, above₀, -⟩ := tree₀.parent_below old
          replace parent₀ : (s₀.node n).parent = some p₀ := parent₀
          rw [← ext.parent_eq tree₀ old, parent] at parent₀
          obtain rfl := Option.some.inj parent₀
          rw [ext.parent_eq tree₀ old] at parent
          simp only [parent, Option.getD_some]
          exact .base above₀
      | @down b m c levels placed' member new =>
          have climbed := ext.tree.parent m (placed'.inside ext) n member
          obtain rfl : m = p := Option.some.inj (climbed.symm.trans parent)
          exact placed'
  rw [if_neg isDot, if_neg isUp]
  have search (fuel : Nat) (enough : (kids n).length ≤ fuel) :=
    vfsGetChildByName_find ext.tree here ext.named wanted isDot isUp enough
  cases found : (kids n).find? (fun c => s.nameOf c = word) with
  | some c =>
      have member : c ∈ kids n := List.mem_of_find?_eq_some found
      have name : s.nameOf c = word := by simpa using List.find?_some found
      refine ⟨(kids n).length, c, s, kids, blocks, fun fuel enough => ⟨some c, ?_, rfl⟩, ?_,
        Nat.le_succ _⟩
      · rw [search fuel enough, found]
      refine ⟨ext, ?_, fresh⟩
      cases placed with
      | base old =>
          dsimp only
          cases found₀ : (kids₀ n).find? (fun c => s₀.nameOf c = word) with
          | some c₀ =>
              obtain rfl := Option.some.inj ((ext.find?_eq old found₀).symm.trans found)
              exact .base (old.child (List.mem_of_find?_eq_some found₀))
          | none =>
              refine .down (.base old) member (fun oldC => ?_)
              have member₀ := (ext.parent_old here member oldC).2
              rw [ext.nameOf_eq oldC] at name
              simpa [name] using List.find?_eq_none.mp found₀ c member₀
      | down above inner new =>
          exact .down (.down above inner new) member
            (ext.below_new here new (below_of_mem member))
  | none =>
      cases blocks with
      | nil => exact absurd rfl nonempty
      | cons block blocks =>
          have apart := fresh.apart block (List.mem_cons_self ..)
          obtain ⟨s', added⟩ := addNext_returns ext.tree here wanted room type block blocks
          obtain ⟨_, same, -, adds⟩ := addNext_adds ext.tree here fresh (added _ le_rfl)
          obtain ⟨rfl, -⟩ := List.cons.inj same
          refine ⟨(kids n).length, block.addr, s', _, blocks,
            fun fuel enough => ⟨none, ?_, added fuel enough⟩,
            ⟨ext.addsLast (adds.addsLast here apart wanted), ?_, fresh.adds here adds.roots⟩, le_rfl⟩
          · rw [search fuel enough, found]
          have there := placed.adds ext apart
          cases placed with
          | base old =>
              dsimp only
              cases found₀ : (kids₀ n).find? (fun c => s₀.nameOf c = word) with
              | some c₀ => cases (ext.find?_eq old found₀).symm.trans found
              | none => exact there
          | down _ _ _ => exact there

/-- The token is the first of some words, and `strtok` has yet to cut the others. -/
def Pending (ap : List UInt8) (token i : Option Nat) : List (List UInt8) → Prop
  | [] => token = none
  | word :: rest =>
      ∃ q t, token = some q ∧ Holds (ap.drop q) word ∧ Left ap i t ∧ rest = words 0x20 t

omit [DecidableEq α] in
theorem pending_next {ap t : List UInt8} {i : Option Nat} (left : Left ap i t)
    : ∃ token i' ap', strtok ap i none [0x20, 0] = some (token, i', ap')
        ∧ Pending ap' token i' (words 0x20 t) := by
  have space : (0x20 : UInt8) ≠ 0 := by decide
  have next := strtok_left space left
  rw [words_eq]
  cases cut : cutWord 0x20 t with
  | none =>
      rw [cut] at next
      exact ⟨none, none, ap, next, rfl⟩
  | some pair =>
      obtain ⟨word, behind⟩ := pair
      rw [cut] at next
      obtain ⟨q, i', ap', called, held, left'⟩ := next
      exact ⟨some q, i', ap', called, q, behind, rfl, held, left', rfl⟩

/-- The loop of `vfs_make_node` goes along the words of the path, by induction on them. -/
theorem makeTokens_returns (tree₀ : IsTree s₀.links s₀.vfsRoot kids₀) (type : Nat)
    {ws : List (List UInt8)} (short : ∀ word ∈ ws, word.length < 256) {place : Place α}
    {blocks : List (NodeBlock α)} {token i : Option Nat} {ap : List UInt8}
    (h : Making s₀ s kids₀ kids place n blocks) (pending : Pending ap token i ws)
    (room : ws.length ≤ blocks.length)
    : ∃ enough c s' kids' rest,
        (∀ fuel, enough ≤ fuel → s.makeTokens type fuel n token i ap blocks = some (c, s', rest))
        ∧ Making s₀ s' kids₀ kids' (ws.foldl (Place.step s₀ kids₀) place) c rest := by
  induction ws generalizing s kids n place blocks token i ap with
  | nil =>
      obtain rfl : token = none := pending
      refine ⟨1, n, s, kids, blocks, fun fuel enough => ?_, h⟩
      obtain ⟨fuel, rfl⟩ := Nat.exists_eq_add_of_le' enough
      rfl
  | cons word ws ih =>
      obtain ⟨q, t, rfl, held, left, rfl⟩ := pending
      obtain ⟨first, others⟩ := List.forall_mem_cons.mp short
      have nonempty : blocks ≠ [] := List.ne_nil_of_length_pos (Nat.lt_of_lt_of_le (Nat.succ_pos _) room)
      obtain ⟨enough, c, s₁, kids₁, rest₁, stepped, h₁, used⟩ := h.step tree₀ held first nonempty type
      obtain ⟨token', i', ap', cut, pending'⟩ := pending_next left
      have room' : (words 0x20 t).length ≤ rest₁.length :=
        Nat.le_of_succ_le_succ (Nat.le_trans room used)
      obtain ⟨enough', c', s', kids', rest, later, h'⟩ := ih others h₁ pending' room'
      refine ⟨max enough enough' + 1, c', s', kids', rest, fun fuel bound => ?_, h'⟩
      obtain ⟨fuel, rfl⟩ := Nat.exists_eq_add_of_le' (Nat.le_trans (Nat.le_add_left 1 _) bound)
      have bounds := max_le_iff.mp (Nat.le_of_succ_le_succ bound)
      obtain ⟨found, search, step⟩ := stepped fuel bounds.1
      rw [makeTokens, search, Option.bind_eq_bind, Option.bind_some, step, Option.bind_eq_bind,
        Option.bind_some]
      dsimp only
      rw [cut, Option.bind_eq_bind, Option.bind_some]
      exact later fuel bounds.2

omit [DecidableEq α] in
theorem pending_first {ap t : List UInt8} (held : Holds ap t) (i : Option Nat)
    : ∃ token i' ap', strtok ap i (some 0) [slash, 0] = some (token, i', ap')
        ∧ Pending ap' token i' (pathWords t) := by
  have nonzero : slash ≠ 0 := by decide
  have start : (some 0 : Option Nat).or i = some 0 := rfl
  have first := strtok_next nonzero start held
  rw [pathWords]
  cases cut : cutWord slash t with
  | none =>
      rw [cut] at first
      exact ⟨none, none, ap, first, rfl⟩
  | some pair =>
      obtain ⟨word, behind⟩ := pair
      rw [cut] at first
      obtain ⟨q, i', ap', called, held', left⟩ := first
      exact ⟨some q, i', ap', called, q, behind, rfl, held', left, rfl⟩

omit [DecidableEq α] in
/-- A path has no more words than characters, and no longer ones. -/
theorem pathWords_length (t : List UInt8)
    : (pathWords t).length ≤ t.length ∧ ∀ word ∈ pathWords t, word.length ≤ t.length := by
  rw [pathWords]
  cases cut : cutWord slash t with
  | none => exact ⟨Nat.zero_le _, fun _ member => (List.not_mem_nil member).elim⟩
  | some pair =>
      obtain ⟨word, behind⟩ := pair
      obtain ⟨positive, parts⟩ := cutWord_length cut
      obtain ⟨count, lengths⟩ := words_length 0x20 behind
      refine ⟨?_, List.forall_mem_cons.mpr ⟨by omega, fun other member => ?_⟩⟩
      · rw [List.length_cons]
        omega
      · exact Nat.le_trans (lengths other member) (by omega)

/-- A path leads from a node to one above another node. -/
def LeadsAbove (s : VfsState α) (kids : α → List α) (n : α) (path : List UInt8) (m : α) : Prop :=
  (s.place kids n path).levels = 0 ∧ (s.place kids n path).base ≠ m
    ∧ Below kids (s.place kids n path).base m

/-- What a call of `vfs_make_node` leaves behind: a tree with the new node, and with the old ones
unless they lie below a node that has become a file.
-/
structure Made (s s' : VfsState α) (kids kids' : α → List α) (n : α) (path : List UInt8) (type : Nat)
    (c : α) : Prop where
  tree : IsTree s'.links s'.vfsRoot kids'
  root : s'.vfsRoot = s.vfsRoot
  named : Named s' kids'
  inside : s'.Inside kids' c
  old : ∀ m, s.Inside kids m → (s'.Inside kids' m ↔ ¬ (type = vfsFile ∧ LeadsAbove s kids n path m))

theorem Freed.named (freed : Freed s s' (Below kids c)) (named : Named s kids)
    : Named s' (dropKids kids c) := by
  intro n left
  rw [Inside, freed.roots.vfsRoot] at left
  obtain ⟨childs, entry⟩ := freed.entry n
  have same : (s'.node n).name = (s.node n).name := by rw [entry]
  rw [nameOf, same]
  exact named n left.of_dropKids

theorem Named.setFile (named : Named s kids) (c : α) (f : VfsFile → VfsFile)
    : Named (s.setFile c f) kids := by
  intro m below
  have same : ((s.setFile c f).node m).name = (s.node m).name := by
    rw [VfsState.setFile, setNode_node]
    split
    · next equal => rw [equal]
    · rfl
  rw [nameOf, same]
  exact named m below

/-- `vfs_make_node` depends on the string that the path points to only. -/
theorem vfsMakeNode_congr {path path' t : List UInt8} (held : Holds path t) (held' : Holds path' t)
    (short : t.length < 256) (fuel : Nat) (kmalloc : Buffer256) (i : Option Nat) (type inode : Nat)
    (blocks : List (NodeBlock α))
    : s.vfsMakeNode fuel kmalloc i n path type inode blocks
      = s.vfsMakeNode fuel kmalloc i n path' type inode blocks := by
  have room : t.length < kmalloc.val.length := by rwa [kmalloc.property]
  rw [vfsMakeNode, vfsMakeNode, strcpy_eq held room, strcpy_eq held' room]

theorem vfsMakeNode_returns (tree : IsTree s.links s.vfsRoot kids) (here : s.Inside kids n)
    (named : Named s kids) {blocks : List (NodeBlock α)} (fresh : Fresh s kids blocks)
    {path t : List UInt8} (held : Holds path t) (short : t.length < 256)
    (room : t.length ≤ blocks.length) (kmalloc : Buffer256) (i : Option Nat) (type inode : Nat)
    : ∃ enough c s' kids' rest,
        (∀ fuel, enough ≤ fuel
          → s.vfsMakeNode fuel kmalloc i n path type inode blocks = some (c, s', rest))
        ∧ Made s s' kids kids' n t type c := by
  obtain ⟨ap, copied, heldCopy, -⟩ := strcpy_holds kmalloc.val held (by rwa [kmalloc.property])
  obtain ⟨token, i', ap', cut, pending⟩ := pending_first heldCopy i
  obtain ⟨count, lengths⟩ := pathWords_length t
  have making : Making s s kids kids ⟨n, 0⟩ n blocks := ⟨.refl tree named, .base here, fresh⟩
  obtain ⟨enough, c, s₁, kids₁, rest, looped, ext, placed, -⟩ := makeTokens_returns tree type
    (fun word member => Nat.lt_of_le_of_lt (lengths word member) short) making pending
    (Nat.le_trans count room)
  have inside := placed.inside ext
  let f (file : VfsFile) : VfsFile := { file with type, inode }
  have links := setFile_links s₁ c f
  have tree₁ : IsTree (s₁.setFile c f).links (s₁.setFile c f).vfsRoot kids₁ := by
    rw [links]
    exact ext.tree
  have named₁ := ext.named.setFile c f
  by_cases isFile : type = vfsFile
  · obtain ⟨enough', s₂, returns⟩ := vfsFreeChildNodes_returns tree₁ inside
    have freed := vfsFreeChildNodes_freed tree₁ inside (returns enough' le_rfl)
    refine ⟨max enough enough', c, s₂, dropKids kids₁ c, rest, fun fuel bound => ?_,
      freed.isTree tree₁ inside, freed.roots.vfsRoot.trans ext.roots.vfsRoot, freed.named named₁, ?_,
      fun m old => ?_⟩
    · have bounds := max_le_iff.mp bound
      rw [vfsMakeNode, copied, Option.bind_eq_bind, Option.bind_some, cut, Option.bind_eq_bind,
        Option.bind_some]
      dsimp only
      rw [looped fuel bounds.1, Option.bind_eq_bind, Option.bind_some]
      dsimp only
      rw [if_pos isFile, returns fuel bounds.2]
      rfl
    · rw [Inside, freed.roots.vfsRoot]
      exact tree₁.below_dropKids inside inside (.inr rfl)
    · have left : s₂.Inside (dropKids kids₁ c) m ↔ ¬ Below kids₁ c m ∨ m = c := by
        rw [Inside, freed.roots.vfsRoot]
        constructor
        · intro left
          exact (em (Below kids₁ c m)).symm.imp_right (tree₁.outside_of_dropKids inside left)
        · exact tree₁.below_dropKids inside (ext.inside old)
      rw [left, and_iff_right isFile]
      by_cases oldC : s.Inside kids c
      · have same : s.place kids n t = ⟨c, 0⟩ := placed.eq_base oldC
        rw [LeadsAbove, same, ext.below_iff oldC old]
        constructor
        · rintro (outside | rfl) ⟨-, other, below⟩
          · exact outside below
          · exact other rfl
        · intro none
          by_contra both
          obtain ⟨below, other⟩ := not_or.mp both
          exact none ⟨rfl, fun equal => other equal.symm, not_not.mp below⟩
      · refine iff_of_true (.inl (fun below => ext.below_new inside oldC below old)) ?_
        rintro ⟨level, -, -⟩
        exact oldC (placed.old level)
  · refine ⟨enough, c, s₁.setFile c f, kids₁, rest, fun fuel bound => ?_, tree₁, ext.roots.vfsRoot,
      named₁, inside, fun m old => iff_of_true (ext.inside old) (fun file => isFile file.1)⟩
    rw [vfsMakeNode, copied, Option.bind_eq_bind, Option.bind_some, cut, Option.bind_eq_bind,
      Option.bind_some]
    dsimp only
    rw [looped fuel bound, Option.bind_eq_bind, Option.bind_some]
    dsimp only
    rw [if_neg isFile]
    rfl

-----------------------------------------------------------------------------------------
-- More fuel
-----------------------------------------------------------------------------------------

section Fuel

variable {fuel more : Nat}

/-- More fuel adds the same child. -/
theorem addNext_mono (enough : fuel ≤ more) {name : List UInt8} {type : Nat}
    {blocks : List (NodeBlock α)} {r : α × VfsState α × List (NodeBlock α)}
    (added : s.addNext fuel n name type blocks = some r)
    : s.addNext more n name type blocks = some r := by
  cases blocks with
  | nil => cases added
  | cons block blocks =>
      obtain ⟨child, called, added⟩ := Option.bind_eq_some_iff.mp added
      have again : s.vfsAddChild more (some n) name type block = some child := by
        rw [vfsAddChild] at called ⊢
        cases first : (s.node n).childs with
        | none =>
            rw [first] at called
            exact called
        | some x =>
            rw [first] at called
            obtain ⟨y, walked, called⟩ := Option.bind_eq_some_iff.mp called
            simp only [last_mono enough walked, Option.bind_eq_bind, Option.bind_some]
            exact called
      rw [addNext, again, Option.bind_eq_bind, Option.bind_some]
      exact added

/-- More fuel frees the same nodes, by induction on the fuel. -/
theorem freeNodes_mono (enough : fuel ≤ more) {q : Option α}
    (freed : s.freeNodes fuel q = some s')
    : s.freeNodes more q = some s' := by
  induction fuel generalizing more s s' q with
  | zero =>
      cases q with
      | none =>
          cases more with
          | zero => exact freed
          | succ more => exact freed
      | some x => cases freed
  | succ fuel ih =>
      obtain ⟨more, rfl⟩ := Nat.exists_eq_add_of_le' (Nat.le_trans (Nat.le_add_left 1 _) enough)
      have rest := Nat.le_of_succ_le_succ enough
      cases q with
      | none => exact freed
      | some x =>
          obtain ⟨s₁, below, freed⟩ := Option.bind_eq_some_iff.mp freed
          rw [freeNodes, ih rest below, Option.bind_eq_bind, Option.bind_some]
          exact ih rest freed

/-- More fuel goes along the path to the same node, by induction on the fuel. -/
theorem makeTokens_mono (enough : fuel ≤ more) {type : Nat} {token i : Option Nat} {ap : List UInt8}
    {blocks : List (NodeBlock α)} {r : α × VfsState α × List (NodeBlock α)}
    (made : s.makeTokens type fuel n token i ap blocks = some r)
    : s.makeTokens type more n token i ap blocks = some r := by
  induction fuel generalizing more s n token i ap blocks with
  | zero => cases made
  | succ fuel ih =>
      obtain ⟨more, rfl⟩ := Nat.exists_eq_add_of_le' (Nat.le_trans (Nat.le_add_left 1 _) enough)
      have rest := Nat.le_of_succ_le_succ enough
      cases token with
      | none => exact made
      | some token =>
          obtain ⟨found, search, made⟩ := Option.bind_eq_some_iff.mp made
          obtain ⟨⟨c, s₁, blocks₁⟩, stepped, made⟩ := Option.bind_eq_some_iff.mp made
          obtain ⟨⟨token', i', ap'⟩, cut, made⟩ := Option.bind_eq_some_iff.mp made
          have again : s.childOrNew more n (ap.drop token) type blocks found
              = some (c, s₁, blocks₁) := by
            cases found with
            | some child => exact stepped
            | none => exact addNext_mono rest stepped
          simp only [makeTokens, vfsGetChildByName_mono rest search, again, cut, Option.bind_eq_bind,
            Option.bind_some]
          exact ih rest made

theorem vfsMakeNode_mono (enough : fuel ≤ more) {kmalloc : Buffer256} {i : Option Nat}
    {path : List UInt8} {type inode : Nat} {blocks : List (NodeBlock α)}
    {r : α × VfsState α × List (NodeBlock α)}
    (made : s.vfsMakeNode fuel kmalloc i n path type inode blocks = some r)
    : s.vfsMakeNode more kmalloc i n path type inode blocks = some r := by
  obtain ⟨ap, copied, made⟩ := Option.bind_eq_some_iff.mp made
  obtain ⟨⟨token, i', ap'⟩, cut, made⟩ := Option.bind_eq_some_iff.mp made
  obtain ⟨⟨c, s₁, rest⟩, looped, made⟩ := Option.bind_eq_some_iff.mp made
  simp only [vfsMakeNode, copied, cut, makeTokens_mono enough looped, Option.bind_eq_bind,
    Option.bind_some]
  dsimp only at made
  split at made
  · next isFile =>
      obtain ⟨s₂, freed, made⟩ := Option.bind_eq_some_iff.mp made
      obtain ⟨s₃, below, cleared⟩ := Option.bind_eq_some_iff.mp freed
      rw [if_pos isFile, vfsFreeChildNodes, freeNodes_mono enough below, Option.bind_eq_bind,
        Option.bind_some, cleared]
      exact made
  · next notFile =>
      rw [if_neg notFile]
      exact made

end Fuel

end Hydrangea.VfsState
