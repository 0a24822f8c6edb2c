import Hydrangea.Fs.Vfs
import Hydrangea.Lib.Linked

/-! The path that `vfs_abs_path_to` prints for a node of the tree leads
`vfs_node_from_path` back to the node.
-/

namespace Hydrangea.Vfs

open CString Linked

variable {α : Type}

/-- Going down from a node, the components of a path lead to another node. -/
inductive Leads (childs : α → List α) (name : α → List UInt8)
    : α → List (List UInt8) → α → Prop
  | stop (n : α) : Leads childs name n [] n
  | down {p c n : α} {names : List (List UInt8)} (member : c ∈ childs p)
      (rest : Leads childs name c names n)
      : Leads childs name p (name c :: names) n

/-- What the name of a node other than the root may be. -/
structure IsName (name : List UInt8) : Prop where
  nonempty : name ≠ []
  noSlash : slash ∉ name
  ne_dot : name ≠ [dot]
  ne_dotDot : name ≠ [dot, dot]

instance (name : List UInt8) : Decidable (IsName name) :=
  decidable_of_iff (name ≠ [] ∧ slash ∉ name ∧ name ≠ [dot] ∧ name ≠ [dot, dot])
    ⟨fun h => ⟨h.1, h.2.1, h.2.2.1, h.2.2.2⟩,
      fun h => ⟨h.nonempty, h.noSlash, h.ne_dot, h.ne_dotDot⟩⟩

/-- A tree of nodes in memory, with the children and the names of its nodes. -/
structure VfsTree (mem : α → VfsNode α) (root : α) where
  childs : α → List α
  name : α → List UInt8
  rootName : name root = [slash]
  rootParent : (mem root).parent = some root
  holds : ∀ {names n}, Leads childs name root names n → Holds (mem n).name (name n)
  chain : ∀ {names n}, Leads childs name root names n
    → Chain (fun c => (mem c).next) (mem n).childs (childs n)
  parent : ∀ {names n}, Leads childs name root names n → ∀ c ∈ childs n,
    (mem c).parent = some n
  isName : ∀ {names n}, Leads childs name root names n → ∀ c ∈ childs n, IsName (name c)
  distinct : ∀ {names n}, Leads childs name root names n → ∀ c ∈ childs n,
    ∀ c' ∈ childs n, name c = name c' → c = c'

/-- The components of a node's path. -/
abbrev VfsTree.At {mem : α → VfsNode α} {root : α} (tree : VfsTree mem root)
    (names : List (List UInt8)) (n : α) : Prop :=
  Leads tree.childs tree.name root names n

def absPath (names : List (List UInt8)) : List UInt8 :=
  if names = [] then [slash] else joined slash names

section Leads

variable {childs : α → List α} {name : α → List UInt8}

/-- A path can be continued, by induction on it. -/
theorem Leads.snoc {p n c : α} {names : List (List UInt8)}
    (h : Leads childs name p names n) (member : c ∈ childs n)
    : Leads childs name p (names ++ [name c]) c := by
  induction h with
  | stop n => exact Leads.down member (Leads.stop c)
  | down inside _ ih => exact Leads.down inside (ih member)

/-- A nonempty path has a last step, by induction on it. -/
theorem Leads.last {p n : α} {names : List (List UInt8)} (h : Leads childs name p names n)
    : (names = [] ∧ p = n)
      ∨ ∃ front m, Leads childs name p front m ∧ n ∈ childs m ∧ names = front ++ [name n] := by
  induction h with
  | stop n => exact Or.inl ⟨rfl, rfl⟩
  | down member rest ih =>
      rename_i p c n names
      right
      rcases ih with ⟨rfl, rfl⟩ | ⟨front, m, leads, inside, rfl⟩
      · exact ⟨[], p, Leads.stop p, member, rfl⟩
      · exact ⟨name c :: front, m, Leads.down member leads, inside, rfl⟩

end Leads

section Tree

variable {mem : α → VfsNode α} {root : α} (tree : VfsTree mem root)

/-- The root is the child of no node, because its name has a slash. -/
theorem VfsTree.root_not_child {names : List (List UInt8)} {n : α} (h : tree.At names n)
    : root ∉ tree.childs n := by
  intro member
  have bad := (tree.isName h root member).noSlash
  rw [tree.rootName] at bad
  exact bad (List.mem_singleton.mpr rfl)

/-- The root has the empty path only. -/
theorem VfsTree.names_of_root {names : List (List UInt8)} (h : tree.At names root)
    : names = [] := by
  rcases h.last with ⟨none, -⟩ | ⟨front, m, leads, member, -⟩
  · exact none
  · exact absurd member (tree.root_not_child leads)

/-- The path of a node other than the root has a last step, from its parent. -/
theorem VfsTree.from_parent {names : List (List UInt8)} {n : α} (h : tree.At names n)
    (other : n ≠ root)
    : ∃ front p, tree.At front p ∧ n ∈ tree.childs p ∧ names = front ++ [tree.name n]
        ∧ (mem n).parent = some p := by
  rcases h.last with ⟨-, same⟩ | ⟨front, p, leads, member, split⟩
  · exact absurd same.symm other
  · exact ⟨front, p, leads, member, split, tree.parent leads n member⟩

/-- Only the root is its own parent, by induction on the path from its end. -/
theorem VfsTree.parent_ne {names : List (List UInt8)} {n : α} (h : tree.At names n)
    (other : n ≠ root)
    : (mem n).parent ≠ some n := by
  induction names using List.reverseRecOn generalizing n with
  | nil =>
      obtain ⟨front, p, -, -, split, -⟩ := tree.from_parent h other
      simp at split
  | append_singleton names x ih =>
      obtain ⟨front, p, leads, member, split, parent⟩ := tree.from_parent h other
      obtain ⟨rfl, -⟩ := List.append_inj' split rfl
      intro self
      obtain rfl : p = n := Option.some.inj (parent.symm.trans self)
      exact ih leads other self

/-- Every component of a path is the name of a node other than the root, by induction on the
path.
-/
theorem VfsTree.names_ok {above names : List (List UInt8)} {p n : α} (h : tree.At above p)
    (path : Leads tree.childs tree.name p names n)
    : ∀ name ∈ names, 0 ∉ name ∧ IsName name := by
  induction path generalizing above with
  | stop n => simp
  | down member rest ih =>
      have below := h.snoc member
      intro name inside
      rcases List.mem_cons.mp inside with rfl | later
      · exact ⟨(tree.holds below).1, tree.isName h _ member⟩
      · exact ih below name later

end Tree

-----------------------------------------------------------------------------------------
-- Printing the path
-----------------------------------------------------------------------------------------

section Printing

theorem holds_slash : Holds [slash, 0] [slash] :=
  ⟨by decide, [], rfl⟩

/-- What a round puts in front of the path: a name and a slash, or only the slash that is
the root's name.
-/
def step (name : List UInt8) : List UInt8 :=
  if name = [slash] then name else name ++ [slash]

/-- A name becomes a step when a slash is added to it, unless it is the root's. -/
theorem addSlash_holds {path x : List UInt8} (held : Holds path x)
    (room : (step x).length < path.length)
    : ∃ path', addSlash path = some path' ∧ Holds path' (step x)
        ∧ path'.length = path.length := by
  rw [addSlash, strcmp_eq held holds_slash, Option.bind_eq_bind, Option.bind_some]
  by_cases isRoot : x = [slash]
  · refine ⟨path, by simp [isRoot], ?_, rfl⟩
    rwa [step, if_pos isRoot]
  · rw [step, if_neg isRoot, List.length_append] at room
    obtain ⟨path', appended, held', size'⟩ := strcat_holds held holds_slash room
    refine ⟨path', by simp [isRoot, appended], ?_, size'⟩
    rwa [step, if_neg isRoot]

/-- One round puts its step in front of the path. -/
theorem prefixName_holds (bak : Buffer256) {path name t x : List UInt8}
    (held : Holds path t) (size : path.length = 256) (hx : Holds name x)
    (room : (step x).length + t.length < 256)
    : ∃ path', prefixName bak path name = some path' ∧ Holds path' (step x ++ t)
      ∧ path'.length = 256 := by
  have shorter : x.length ≤ (step x).length := by
    unfold step
    split <;> simp
  obtain ⟨bak', saved, heldBak, -⟩ :=
    strcpy_holds bak.val held (by rw [bak.property]; omega)
  obtain ⟨path₁, copied, held₁, size₁⟩ := strcpy_holds path hx (by omega)
  obtain ⟨path₂, added, held₂, size₂⟩ := addSlash_holds held₁ (by omega)
  obtain ⟨path', appended, held', size'⟩ := strcat_holds held₂ heldBak (by omega)
  refine ⟨path', ?_, held', by omega⟩
  simp only [prefixName, saved, copied, added, appended, Option.bind_eq_bind,
    Option.bind_some]

/-- The path of a child is the path of its parent, a slash unless that is the root, and the
name.
-/
theorem absPath_snoc (names : List (List UInt8)) (name : List UInt8)
    : absPath (names ++ [name]) = absPath names ++ (if names = [] then [] else [slash]) ++ name := by
  cases names with
  | nil => simp [absPath]
  | cons first names => simp [absPath]

variable {mem : α → VfsNode α} {root : α} (tree : VfsTree mem root)

/-- The step of a node is its name, and a slash unless the node is the root. -/
theorem VfsTree.step_name {names : List (List UInt8)} {n : α} (h : tree.At names n)
    : step (tree.name n) = tree.name n ++ (if names = [] then [] else [slash]) := by
  rcases h.last with ⟨rfl, rfl⟩ | ⟨front, p, leads, member, rfl⟩
  · simp [step, tree.rootName]
  · have notRoot : tree.name n ≠ [slash] := by
      intro same
      have free := (tree.isName leads n member).noSlash
      rw [same] at free
      exact free (List.mem_singleton.mpr rfl)
    simp [step, notRoot]

theorem VfsTree.absPath_ends {names : List (List UInt8)} {n : α} (h : tree.At names n)
    : ∃ before, absPath names = before ++ tree.name n := by
  rcases h.last with ⟨rfl, rfl⟩ | ⟨front, p, -, -, rfl⟩
  · exact ⟨[], by simp [absPath, tree.rootName]⟩
  · exact ⟨_, absPath_snoc front (tree.name n)⟩

variable [DecidableEq α]

/-- The loop of `vfs_abs_path_to` puts the path of the parent in front of the name that it
begins with, by induction on the path from its end.
-/
theorem prefixParents_holds (kmalloc : Nat → Buffer256) {names : List (List UInt8)} {n : α}
    {path behind : List UInt8} {fuel k : Nat} (h : tree.At names n)
    (held : Holds path (tree.name n ++ behind)) (size : path.length = 256)
    (short : (absPath names ++ behind).length < 256) (enough : names.length < fuel)
    : ∃ path', prefixParents mem kmalloc fuel k n path = some path'
      ∧ Holds path' (absPath names ++ behind) := by
  obtain ⟨fuel, rfl⟩ := Nat.exists_eq_succ_of_ne_zero (Nat.ne_of_gt (Nat.zero_lt_of_lt enough))
  induction names using List.reverseRecOn generalizing n path behind fuel k with
  | nil =>
      obtain ⟨-, rfl⟩ := h.last.resolve_right (by simp)
      refine ⟨path, by simp [prefixParents, tree.rootParent], ?_⟩
      rwa [absPath, if_pos rfl, ← tree.rootName]
  | append_singleton names x ih =>
      have other : n ≠ root := by
        rintro rfl
        have none := tree.names_of_root h
        simp at none
      obtain ⟨front, p, leads, member, split, parent⟩ := tree.from_parent h other
      obtain ⟨rfl, last⟩ := List.append_inj' split rfl
      obtain rfl := List.head_eq_of_cons_eq last
      obtain ⟨before, ends⟩ := tree.absPath_ends leads
      rw [absPath_snoc, ends] at short
      simp only [List.length_append] at short
      obtain ⟨path', round, held', size'⟩ :=
        prefixName_holds (kmalloc k) held size (tree.holds leads)
          (by rw [tree.step_name leads]; simp only [List.length_append]; omega)
      rw [tree.step_name leads, List.append_assoc] at held'
      rw [List.length_append, List.length_singleton] at enough
      obtain ⟨fuel, rfl⟩ := Nat.exists_eq_succ_of_ne_zero (by omega : fuel ≠ 0)
      obtain ⟨result, rest, heldResult⟩ := ih leads held' size' (k := k + 1)
        (by rw [ends]; simp only [List.length_append]; omega) fuel (by omega)
      refine ⟨result, ?_, ?_⟩
      · simp only [prefixParents, parent, round, Option.bind_eq_bind, Option.bind_some]
        rw [if_pos (by rw [← parent]; exact tree.parent_ne h other)]
        exact rest
      · rw [absPath_snoc]
        simpa only [List.append_assoc] using heldResult

theorem vfsAbsPathTo_holds (kmalloc : Nat → Buffer256) {names : List (List UInt8)} {n : α}
    {fuel : Nat} (h : tree.At names n) (short : (absPath names).length < 256)
    (enough : names.length < fuel)
    : ∃ path, vfsAbsPathTo mem kmalloc fuel (some n) = some (some path)
      ∧ Holds path (absPath names) := by
  obtain ⟨before, ends⟩ := tree.absPath_ends h
  have shorter : (tree.name n).length ≤ (absPath names).length := by
    rw [ends, List.length_append]
    exact Nat.le_add_left _ _
  obtain ⟨path, copied, held, size⟩ :=
    strcpy_holds (kmalloc 0).val (tree.holds h) (by rw [(kmalloc 0).property]; omega)
  obtain ⟨path', looped, held'⟩ := prefixParents_holds tree kmalloc h (k := 1)
    (by rwa [List.append_nil]) (size.trans (kmalloc 0).property) (by rwa [List.append_nil])
    enough
  refine ⟨path', ?_, by rwa [List.append_nil] at held'⟩
  simp only [vfsAbsPathTo, copied, looped, Option.bind_eq_bind, Option.bind_some]
  rfl

end Printing

-----------------------------------------------------------------------------------------
-- Following the path
-----------------------------------------------------------------------------------------

section Following

variable {mem : α → VfsNode α} {root : α}

/-- The walk over the children stops at the one with the name, by induction on them. -/
theorem findChild_eq {buffer : List UInt8} {name : α → List UInt8} {cs : List α} {x c : α}
    {fuel : Nat} (chain : Chain (fun c => (mem c).next) (some x) cs)
    (holds : ∀ y ∈ cs, Holds (mem y).name (name y))
    (distinct : ∀ y ∈ cs, name y = name c → y = c) (member : c ∈ cs)
    (wanted : Holds buffer (name c)) (enough : cs.length ≤ fuel)
    : findChild mem buffer fuel x = some c := by
  induction cs generalizing x fuel with
  | nil => cases member
  | cons y cs ih =>
      obtain ⟨start, rest⟩ := chain
      obtain rfl : x = y := Option.some.inj start
      obtain ⟨fuel, rfl⟩ := Nat.exists_eq_succ_of_ne_zero
        (Nat.ne_of_gt (Nat.lt_of_lt_of_le (Nat.succ_pos _) enough))
      have compared := strcmp_eq (holds x (by simp)) wanted
      by_cases same : name x = name c
      · obtain rfl := distinct x (by simp) same
        simp [findChild, compared]
      · have later : c ∈ cs := by
          rcases List.mem_cons.mp member with rfl | later
          · exact absurd rfl same
          · exact later
        cases following : (mem x).next with
        | none =>
            have none := Chain.head rest
            simp only [following] at none
            simp [List.head?_eq_none_iff.mp none.symm] at later
        | some y =>
            simp only [following] at rest
            have found := ih rest (fun y inside => holds y (by simp [inside]))
              (fun y inside => distinct y (by simp [inside])) later
              (Nat.le_of_succ_le_succ enough)
            simp [findChild, compared, same, following, found]

/-- `vfs_get_child_by_name` finds the children of a node of the tree. -/
theorem vfsGetChildByName_eq (tree : VfsTree mem root) {names : List (List UInt8)} {p c : α}
    {buffer : List UInt8} {fuel : Nat} (h : tree.At names p) (member : c ∈ tree.childs p)
    (wanted : Holds buffer (tree.name c)) (enough : (tree.childs p).length ≤ fuel)
    : vfsGetChildByName mem fuel p buffer = some (some c) := by
  have isName := tree.isName h c member
  have dotHeld : Holds [dot, 0] [dot] := ⟨by decide, [], rfl⟩
  have dotDotHeld : Holds [dot, dot, 0] [dot, dot] := ⟨by decide, [], rfl⟩
  have childHolds {y : α} (inside : y ∈ tree.childs p) : Holds (mem y).name (tree.name y) :=
    tree.holds (h.snoc inside)
  have chain := tree.chain h
  cases first : (mem p).childs with
  | none =>
      have none := Chain.head chain
      rw [first] at none
      simp [List.head?_eq_none_iff.mp none.symm] at member
  | some x =>
      rw [first] at chain
      have found := findChild_eq chain (fun y inside => childHolds inside)
        (fun y inside => tree.distinct h y inside c member) member wanted enough
      simp [vfsGetChildByName, strcmp_eq wanted dotHeld, strcmp_eq wanted dotDotHeld,
        isName.ne_dot, isName.ne_dotDot, first, found, strcmp_eq (childHolds member) wanted]

/-- What `strtok` has yet to cut: nothing, or a name and the rest of the path behind it. -/
def Remains (ap : List UInt8) (i : Option Nat) : List (List UInt8) → Prop
  | [] => i = none
  | name :: names =>
      ∃ p tail, i = some p ∧ ap.drop p = name ++ (joined slash names ++ 0 :: tail)

/-- The token is the first of the names, and `strtok` has yet to cut the others. -/
def Cut (ap : List UInt8) (token i : Option Nat) : List (List UInt8) → Prop
  | [] => token = none
  | name :: names =>
      ∃ p, token = some p ∧ Holds (ap.drop p) name ∧ Remains ap i names

/-- `strtok` cuts the next name of a path off. -/
theorem strtok_cut {ap lead name tail : List UInt8} {names : List (List UInt8)}
    {i str : Option Nat} {p : Nat} (start : str.or i = some p)
    (here : ap.drop p = lead ++ (name ++ (joined slash names ++ 0 :: tail)))
    (skip : ∀ d ∈ lead, d = slash) (free : 0 ∉ name) (isName : IsName name)
    : ∃ token i' ap', strtok ap i str [slash, 0] = some (token, i', ap')
        ∧ Cut ap' token i' (name :: names) := by
  have skip' : ∀ d ∈ lead, d ≠ 0 ∧ d ∈ [slash] := by
    intro d inside
    rw [skip d inside]
    exact ⟨by decide, by simp⟩
  have pass : ∀ d ∈ name, d ≠ 0 ∧ d ∉ [slash] := by
    intro d inside
    refine ⟨fun zero => free (zero ▸ inside), fun isSlash => ?_⟩
    rw [List.mem_singleton] at isSlash
    exact isName.noSlash (isSlash ▸ inside)
  cases names with
  | nil =>
      have cut := strtok_word holds_slash start here skip' pass isName.nonempty (Or.inl rfl)
      refine ⟨_, _, _, cut, _, rfl, ?_, rfl⟩
      rw [drop_of_drop here]
      exact holds_append free _
  | cons next names =>
      have cut := strtok_word holds_slash start here skip' pass isName.nonempty
        (Or.inr (List.mem_singleton.mpr rfl))
      obtain ⟨before, behind⟩ := drop_set_behind (drop_of_drop here)
      refine ⟨_, _, _, cut, _, rfl, ?_, _, tail, rfl, ?_⟩
      · rw [before]
        exact holds_append free _
      · rw [behind]
        exact List.append_assoc _ _ _

theorem strtok_remains {ap : List UInt8} {names : List (List UInt8)} {i : Option Nat}
    (remains : Remains ap i names) (ok : ∀ name ∈ names, 0 ∉ name ∧ IsName name)
    : ∃ token i' ap', strtok ap i none [slash, 0] = some (token, i', ap')
        ∧ Cut ap' token i' names := by
  cases names with
  | nil =>
      obtain rfl : i = none := remains
      exact ⟨none, none, ap, rfl, rfl⟩
  | cons name names =>
      obtain ⟨p, tail, rfl, here⟩ := remains
      obtain ⟨free, isName⟩ := ok name (by simp)
      have here' : ap.drop p = [] ++ (name ++ (joined slash names ++ 0 :: tail)) := here
      exact strtok_cut rfl here' (by simp) free isName

/-- The loop of `vfs_node_from_path` goes down the names that are cut off, by induction on
the path.
-/
theorem followTokens_eq (tree : VfsTree mem root) {p n : α} {names above : List (List UInt8)}
    (path : Leads tree.childs tree.name p names n) (h : tree.At above p)
    : ∃ enough, ∀ fuel ≥ enough, ∀ token i ap, Cut ap token i names
        → followTokens mem fuel p token i ap = some (some n) := by
  induction path generalizing above with
  | stop n =>
      refine ⟨1, fun fuel some token i ap cut => ?_⟩
      obtain ⟨fuel, rfl⟩ := Nat.exists_eq_succ_of_ne_zero (Nat.ne_of_gt some)
      obtain rfl : token = none := cut
      rfl
  | down member rest ih =>
      rename_i p c n names
      have below := h.snoc member
      obtain ⟨enough, later⟩ := ih below
      refine ⟨max enough (tree.childs p).length + 1, fun fuel some token i ap cut => ?_⟩
      obtain ⟨fuel, rfl⟩ := Nat.exists_eq_succ_of_ne_zero
        (Nat.ne_of_gt (Nat.lt_of_lt_of_le (Nat.succ_pos _) some))
      have room := max_le_iff.mp (Nat.le_of_succ_le_succ some)
      obtain ⟨q, rfl, held, remains⟩ := cut
      have found := vfsGetChildByName_eq tree h member held room.2
      obtain ⟨token, i', ap', cutNext, cut⟩ :=
        strtok_remains remains (tree.names_ok below rest)
      simp only [followTokens, found, cutNext, Option.bind_eq_bind, Option.bind_some]
      exact later fuel room.1 token i' ap' cut

theorem vfsNodeFromPath_eq (tree : VfsTree mem root) {names : List (List UInt8)} {n : α}
    (h : tree.At names n) (short : (absPath names).length < 256) (kmalloc : Buffer256)
    : ∃ enough, ∀ fuel ≥ enough, ∀ path, Holds path (absPath names)
        → ∀ i r, vfsNodeFromPath mem root kmalloc fuel i r path = some (some n) := by
  have rootAt : tree.At [] root := Leads.stop root
  obtain ⟨enough, follow⟩ := followTokens_eq tree h rootAt
  refine ⟨enough, fun fuel more path held i r => ?_⟩
  have room : (absPath names).length < kmalloc.val.length := by rwa [kmalloc.property]
  have copied := strcpy_eq held room
  generalize kmalloc.val.drop ((absPath names).length + 1) = tail at copied
  have first : ∃ token i' ap', strtok (absPath names ++ 0 :: tail) i (some 0) [slash, 0]
        = some (token, i', ap')
      ∧ Cut ap' token i' names := by
    have start : (some 0 : Option Nat).or i = some 0 := rfl
    cases names with
    | nil =>
        have here : (absPath [] ++ 0 :: tail).drop 0 = [slash] ++ 0 :: tail := rfl
        exact ⟨_, _, _, strtok_end holds_slash start here (by simp [slash]), rfl⟩
    | cons name names =>
        have here : (absPath (name :: names) ++ 0 :: tail).drop 0
            = [slash] ++ (name ++ (joined slash names ++ 0 :: tail)) := by
          simp [absPath]
        obtain ⟨free, isName⟩ := tree.names_ok rootAt h name (by simp)
        exact strtok_cut start here (by simp) free isName
  obtain ⟨token, i', ap', cutFirst, cut⟩ := first
  have absolute : path[0]? = some slash := by
    obtain ⟨-, rest, rfl⟩ := held
    cases names <;> simp [absPath]
  simp only [vfsNodeFromPath, copied, cutFirst, absolute, Option.bind_eq_bind,
    Option.bind_some, if_true]
  exact follow fuel more token i' ap' cut

end Following

-----------------------------------------------------------------------------------------
-- More fuel
-----------------------------------------------------------------------------------------

section Fuel

variable {mem : α → VfsNode α} {fuel more : Nat}

/-- More fuel finds the same child, by induction on the fuel. -/
theorem findChild_mono {name : List UInt8} (enough : fuel ≤ more) {child c : α}
    (found : findChild mem name fuel child = some c)
    : findChild mem name more child = some c := by
  induction fuel generalizing more child with
  | zero => cases found
  | succ fuel ih =>
      obtain ⟨more, rfl⟩ := Nat.exists_eq_succ_of_ne_zero (Nat.ne_of_gt (Nat.zero_lt_of_lt enough))
      obtain ⟨differs, compared, found⟩ := Option.bind_eq_some_iff.mp found
      simp only [findChild, compared, Option.bind_eq_bind, Option.bind_some]
      by_cases stop : differs ≠ 0
      · rw [if_pos stop] at found ⊢
        cases next : (mem child).next with
        | none =>
            rw [next] at found
            exact found
        | some y =>
            rw [next] at found
            exact ih (Nat.le_of_succ_le_succ enough) found
      · rw [if_neg stop] at found ⊢
        exact found

/-- More fuel gives the same child. -/
theorem vfsGetChildByName_mono {name : List UInt8} (enough : fuel ≤ more) {parent : α}
    {child : Option α} (found : vfsGetChildByName mem fuel parent name = some child)
    : vfsGetChildByName mem more parent name = some child := by
  obtain ⟨here, isDot, found⟩ := Option.bind_eq_some_iff.mp found
  simp only [vfsGetChildByName, isDot, Option.bind_eq_bind, Option.bind_some]
  by_cases stay : here = 0
  · rw [if_pos stay] at found ⊢
    exact found
  · rw [if_neg stay] at found ⊢
    obtain ⟨up, isDotDot, found⟩ := Option.bind_eq_some_iff.mp found
    simp only [isDotDot, Option.bind_some]
    by_cases leave : up = 0
    · rw [if_pos leave] at found ⊢
      exact found
    · rw [if_neg leave] at found ⊢
      cases first : (mem parent).childs with
      | none =>
          rw [first] at found
          exact found
      | some x =>
          rw [first] at found
          obtain ⟨y, walked, found⟩ := Option.bind_eq_some_iff.mp found
          simp only [findChild_mono enough walked, Option.bind_some]
          exact found

/-- More fuel follows the tokens to the same end, by induction on the fuel. -/
theorem followTokens_mono (enough : fuel ≤ more) {node : α} {token i : Option Nat}
    {ap : List UInt8} {r : Option α} (followed : followTokens mem fuel node token i ap = some r)
    : followTokens mem more node token i ap = some r := by
  induction fuel generalizing more node token i ap with
  | zero => cases followed
  | succ fuel ih =>
      obtain ⟨more, rfl⟩ := Nat.exists_eq_succ_of_ne_zero (Nat.ne_of_gt (Nat.zero_lt_of_lt enough))
      have rest := Nat.le_of_succ_le_succ enough
      cases token with
      | none => exact followed
      | some token =>
          obtain ⟨child, found, followed⟩ := Option.bind_eq_some_iff.mp followed
          simp only [followTokens, vfsGetChildByName_mono rest found, Option.bind_eq_bind,
            Option.bind_some]
          cases child with
          | none => exact followed
          | some c =>
              obtain ⟨⟨token, i, ap⟩, cut, followed⟩ := Option.bind_eq_some_iff.mp followed
              simp only [cut, Option.bind_some]
              exact ih rest followed

/-- More fuel leads a path to the same node. -/
theorem vfsNodeFromPath_mono {vfsRoot root : α} {kmalloc : Buffer256} {i : Option Nat}
    {path : List UInt8} (enough : fuel ≤ more) {r : Option α}
    (found : vfsNodeFromPath mem vfsRoot kmalloc fuel i root path = some r)
    : vfsNodeFromPath mem vfsRoot kmalloc more i root path = some r := by
  obtain ⟨ap, copied, found⟩ := Option.bind_eq_some_iff.mp found
  obtain ⟨⟨token, i', ap'⟩, cut, found⟩ := Option.bind_eq_some_iff.mp found
  obtain ⟨first, absolute, found⟩ := Option.bind_eq_some_iff.mp found
  simp only [vfsNodeFromPath, copied, cut, absolute, Option.bind_eq_bind, Option.bind_some]
  exact followTokens_mono enough found

end Fuel

/-- The path printed for a node of the tree leads back to the node, from any other node and
whatever `strtok` was used for before, if it has at most 255 characters. The path is printed
upwards, parent by parent, and its words lead down the same nodes again.
-/
theorem vfsNodeFromPath_vfsAbsPathTo [DecidableEq α] {mem : α → VfsNode α} {root n : α}
    (tree : VfsTree mem root) {names : List (List UInt8)} (h : tree.At names n)
    (short : (absPath names).length ≤ 255) (kmalloc : Nat → Buffer256) (ap : Buffer256)
    : ∃ enough, ∀ fuel ≥ enough, ∃ path,
        vfsAbsPathTo mem kmalloc fuel (some n) = some (some path)
          ∧ Holds path (absPath names)
          ∧ ∀ i r, vfsNodeFromPath mem root ap fuel i r path = some (some n) := by
  have room : (absPath names).length < 256 := Nat.lt_succ_of_le short
  obtain ⟨enough, back⟩ := vfsNodeFromPath_eq tree h room ap
  refine ⟨max enough (names.length + 1), fun fuel more => ?_⟩
  obtain ⟨moreBack, moreUp⟩ := max_le_iff.mp more
  obtain ⟨path, printed, held⟩ := vfsAbsPathTo_holds tree kmalloc h room moreUp
  exact ⟨path, printed, held, back fuel moreBack path held⟩

/-- The nodes `/`, `/h` and `/h/y` in memory. -/
def homeNodes : Fin 3 → VfsNode (Fin 3)
  | 0 => { name := [slash, 0], parent := some 0, childs := some 1, next := none }
  | 1 => { name := [0x68, 0], parent := some 0, childs := some 2, next := none }
  | 2 => { name := [0x79, 0], parent := some 1, childs := none, next := none }

abbrev homeRoot : Fin 3 := 0

/-- The node `/h/y`. -/
abbrev homeFile : Fin 3 := 2

def homeName : Fin 3 → List UInt8
  | 0 => [slash]
  | 1 => [0x68]
  | 2 => [0x79]

def homeChilds : Fin 3 → List (Fin 3)
  | 0 => [1]
  | 1 => [2]
  | 2 => []

def homeTree : VfsTree homeNodes 0 where
  childs := homeChilds
  name := homeName
  rootName := rfl
  rootParent := rfl
  holds _ := (show ∀ n, Holds (homeNodes n).name (homeName n) by decide) _
  chain _ :=
    (show ∀ n, Chain (fun c => (homeNodes c).next) (homeNodes n).childs (homeChilds n) by decide) _
  parent _ := (show ∀ n, ∀ c ∈ homeChilds n, (homeNodes c).parent = some n by decide) _
  isName _ := (show ∀ n, ∀ c ∈ homeChilds n, IsName (homeName c) by decide) _
  distinct _ :=
    (show ∀ n, ∀ c ∈ homeChilds n, ∀ c' ∈ homeChilds n, homeName c = homeName c' → c = c' by
      decide) _

def zeros : Buffer256 :=
  ⟨List.replicate 256 0, List.length_replicate⟩

/-- The path of the node `/h/y` leads back to it. -/
theorem vfsNodeFromPath_home
    : ∃ enough, ∀ fuel ≥ enough, ∃ path,
        vfsAbsPathTo homeNodes (fun _ => zeros) fuel (some 2) = some (some path)
          ∧ Holds path [slash, 0x68, slash, 0x79]
          ∧ ∀ i r, vfsNodeFromPath homeNodes 0 zeros fuel i r path = some (some 2) :=
  vfsNodeFromPath_vfsAbsPathTo homeTree
    (Leads.down (List.mem_singleton.mpr rfl) (Leads.down (List.mem_singleton.mpr rfl)
      (Leads.stop 2)))
    (by decide) (fun _ => zeros) zeros

end Hydrangea.Vfs
