import Hydrangea.Fs.VfsLookups

/-! The absolute paths of the nodes of a tree, and that `vfs_abs_path_to` of `kernel/fs/vfs.c`
returns them when they have room in its buffers. Names of nodes may be any strings here.
-/

namespace Hydrangea

open CString Linked LinkedTree Vfs

-----------------------------------------------------------------------------------------
-- What has room where it was copied
-----------------------------------------------------------------------------------------

theorem room_of_strcat {dest src dest' s t : List UInt8} (appended : strcat dest src = some dest')
    (hs : Holds dest s) (ht : Holds src t)
    : s.length + t.length < dest.length := by
  rw [strcat, strlen_eq hs, Option.bind_eq_bind, Option.bind_some] at appended
  obtain ⟨copied, behind, -⟩ := Option.bind_eq_some_iff.mp appended
  have room := length_lt_of_strcpy behind ht
  rw [List.length_drop] at room
  omega

namespace Vfs

theorem room_of_addSlash {path path' x : List UInt8} (added : addSlash path = some path')
    (held : Holds path x)
    : (step x).length < path.length := by
  rw [addSlash, strcmp_eq held holds_slash, Option.bind_eq_bind, Option.bind_some] at added
  by_cases isRoot : x = [slash]
  · rw [step, if_pos isRoot]
    exact held.length_lt
  · rw [if_neg isRoot, if_pos (by decide)] at added
    rw [step, if_neg isRoot, List.length_append]
    exact room_of_strcat added held holds_slash

/-- The step has room that a round puts in front of the path. -/
theorem room_of_prefixName {bak : Buffer256} {path name path' t x : List UInt8}
    (prefixed : prefixName bak path name = some path') (held : Holds path t)
    (size : path.length = 256) (hx : Holds name x)
    : (step x).length + t.length < 256 := by
  obtain ⟨bak', saved, prefixed⟩ := Option.bind_eq_some_iff.mp prefixed
  obtain ⟨path₁, copied, prefixed⟩ := Option.bind_eq_some_iff.mp prefixed
  obtain ⟨path₂, added, appended⟩ := Option.bind_eq_some_iff.mp prefixed
  obtain ⟨path₁', copied', held₁, size₁⟩ := strcpy_holds path hx (length_lt_of_strcpy copied hx)
  obtain rfl := Option.some.inj (copied.symm.trans copied')
  obtain ⟨path₂', added', held₂, size₂⟩ := addSlash_holds held₁ (room_of_addSlash added held₁)
  obtain rfl := Option.some.inj (added.symm.trans added')
  have room := room_of_strcat appended held₂ (held_of_strcpy saved held)
  omega

end Vfs

namespace VfsState

-----------------------------------------------------------------------------------------
-- Absolute paths
-----------------------------------------------------------------------------------------

variable {α : Type}

/-- The absolute path of a node: that of its parent, a slash unless this is the parent's name, and
its name.
-/
inductive AbsolutePath (s : VfsState α) (kids : α → List α) : α → List UInt8 → Prop where
  | root : AbsolutePath s kids s.vfsRoot (s.nameOf s.vfsRoot)
  | child {p c : α} {path : List UInt8} (above : AbsolutePath s kids p path) (member : c ∈ kids p)
    : AbsolutePath s kids c
        (path ++ ((if s.nameOf p = [slash] then [] else [slash]) ++ s.nameOf c))

variable {s : VfsState α} {kids : α → List α} {n : α} {path : List UInt8}

/-- Nodes with an absolute path are in the tree, by induction on the way down. -/
theorem AbsolutePath.inside (abs : AbsolutePath s kids n path) : s.Inside kids n := by
  induction abs with
  | root => exact .refl
  | child _ member ih => exact ih.child member

theorem AbsolutePath.ends (abs : AbsolutePath s kids n path)
    : ∃ before, path = before ++ s.nameOf n := by
  cases abs with
  | root => exact ⟨[], rfl⟩
  | child _ _ => exact ⟨_, (List.append_assoc ..).symm⟩

/-- No character of an absolute path is zero, by induction on the way down. -/
theorem AbsolutePath.nonzero (abs : AbsolutePath s kids n path) (named : Named s kids) : 0 ∉ path := by
  induction abs with
  | root => exact (named s.vfsRoot .refl).1
  | @child p c path above member ih =>
      have own := (named c (above.inside.child member)).1
      have notSlash : (0 : UInt8) ≠ slash := by decide
      split <;> simp [ih, own, notSlash]

/-- The step of a node is its name and the slash that follows it in the paths of its children. -/
theorem step_nameOf (s : VfsState α) (n : α)
    : step (s.nameOf n) = s.nameOf n ++ (if s.nameOf n = [slash] then [] else [slash]) := by
  rw [step]
  split <;> simp [*]

/-- A child of a node of the tree has it as its parent, and is another node. -/
theorem child_parent (tree : IsTree s.links s.vfsRoot kids) {p c : α} (here : s.Inside kids p)
    (member : c ∈ kids p)
    : (s.mem c).parent = some p ∧ p ≠ c := by
  have parent : (s.mem c).parent = some p := tree.parent p here c member
  have notRoot : c ≠ s.vfsRoot := fun same => tree.notRoot p here (same ▸ member)
  refine ⟨parent, ?_⟩
  rintro rfl
  exact tree.parent_ne here notRoot parent

variable [DecidableEq α]

/-- The loop of `vfs_abs_path_to` puts the path of the parent in front, where it has room, by
induction on the way down.
-/
theorem prefixParents_returns (tree : IsTree s.links s.vfsRoot kids) (named : Named s kids)
    (abs : AbsolutePath s kids n path)
    : ∃ enough, ∀ fuel, enough ≤ fuel → ∀ (kmalloc : Nat → Buffer256) (k : Nat)
        (buffer behind : List UInt8), Holds buffer (s.nameOf n ++ behind) → buffer.length = 256
        → (path ++ behind).length < 256
        → ∃ result, prefixParents s.mem kmalloc fuel k n buffer = some result
          ∧ Holds result (path ++ behind) := by
  induction abs with
  | root =>
      refine ⟨1, fun fuel enough kmalloc k buffer behind held size short => ?_⟩
      obtain ⟨fuel, rfl⟩ := Nat.exists_eq_add_of_le' enough
      have parent : (s.mem s.vfsRoot).parent = some s.vfsRoot := tree.rootParent
      exact ⟨buffer, by simp [prefixParents, parent], held⟩
  | @child p c path above member ih =>
      obtain ⟨enough, prefixes⟩ := ih
      obtain ⟨parent, other⟩ := child_parent tree above.inside member
      obtain ⟨before, ends⟩ := above.ends
      refine ⟨enough + 1, fun fuel more kmalloc k buffer behind held size short => ?_⟩
      obtain ⟨fuel, rfl⟩ := Nat.exists_eq_add_of_le' (Nat.le_trans (Nat.le_add_left 1 _) more)
      have fits : (step (s.nameOf p)).length + (s.nameOf c ++ behind).length < 256 := by
        rw [step_nameOf]
        rw [ends] at short
        simp only [List.length_append] at short ⊢
        omega
      obtain ⟨buffer', prefixed, held', size'⟩ :=
        prefixName_holds (kmalloc k) held size (named p above.inside) fits
      rw [step_nameOf, List.append_assoc] at held'
      have all : path ++ ((if s.nameOf p = [slash] then [] else [slash]) ++ s.nameOf c) ++ behind
          = path ++ ((if s.nameOf p = [slash] then [] else [slash]) ++ (s.nameOf c ++ behind)) := by
        simp only [List.append_assoc]
      rw [all] at short ⊢
      obtain ⟨result, rest, heldResult⟩ :=
        prefixes fuel (Nat.le_of_succ_le_succ more) kmalloc (k + 1) buffer' _ held' size' short
      refine ⟨result, ?_, heldResult⟩
      have climbs : some p ≠ some c := by simpa using other
      have prefixed' : prefixName (kmalloc k) buffer (s.mem p).name = some buffer' := prefixed
      simp only [prefixParents, parent, prefixed', Option.bind_eq_bind, Option.bind_some]
      rw [if_pos climbs]
      exact rest

/-- What the loop of `vfs_abs_path_to` leaves in its buffer, if it ends, by induction on the way
down.
-/
theorem prefixParents_some (tree : IsTree s.links s.vfsRoot kids) (named : Named s kids)
    (abs : AbsolutePath s kids n path) {kmalloc : Nat → Buffer256} {fuel k : Nat}
    {buffer result : List UInt8} (behind : List UInt8)
    (held : Holds buffer (s.nameOf n ++ behind)) (size : buffer.length = 256)
    (returned : prefixParents s.mem kmalloc fuel k n buffer = some result)
    : Holds result (path ++ behind) ∧ result.length = 256 := by
  induction abs generalizing fuel k buffer behind with
  | root =>
      cases fuel with
      | zero => cases returned
      | succ fuel =>
          have parent : (s.mem s.vfsRoot).parent = some s.vfsRoot := tree.rootParent
          rw [prefixParents, if_neg (by simp [parent])] at returned
          obtain rfl := Option.some.inj returned
          exact ⟨held, size⟩
  | @child p c path above member ih =>
      cases fuel with
      | zero => cases returned
      | succ fuel =>
          obtain ⟨parent, other⟩ := child_parent tree above.inside member
          have climbs : some p ≠ some c := by simpa using other
          rw [prefixParents, parent, if_pos climbs, Option.bind_eq_bind, Option.bind_some] at returned
          obtain ⟨buffer', prefixed, rest⟩ := Option.bind_eq_some_iff.mp returned
          have name := named p above.inside
          obtain ⟨buffer₁, prefixed', held', size'⟩ := prefixName_holds (kmalloc k) held size name
            (room_of_prefixName prefixed held size name)
          obtain rfl := Option.some.inj (prefixed.symm.trans prefixed')
          rw [step_nameOf, List.append_assoc] at held'
          have all := ih _ held' size' rest
          rw [← List.append_assoc, ← List.append_assoc] at all
          rw [← List.append_assoc]
          exact all

/-- `vfs_abs_path_to` returns the absolute path of a node if that has at most 255 characters. -/
theorem vfsAbsPathTo_returns (tree : IsTree s.links s.vfsRoot kids) (named : Named s kids)
    (abs : AbsolutePath s kids n path) (short : path.length ≤ 255)
    : ∃ enough, ∀ fuel, enough ≤ fuel → ∀ kmalloc : Nat → Buffer256,
        ∃ result, vfsAbsPathTo s.mem kmalloc fuel (some n) = some (some result)
          ∧ Holds result path := by
  obtain ⟨enough, prefixes⟩ := prefixParents_returns tree named abs
  obtain ⟨before, ends⟩ := abs.ends
  refine ⟨enough, fun fuel more kmalloc => ?_⟩
  have room : (s.nameOf n).length < (kmalloc 0).val.length := by
    rw [ends, List.length_append] at short
    rw [(kmalloc 0).property]
    omega
  obtain ⟨buffer, copied, held, size⟩ :=
    strcpy_holds (kmalloc 0).val (named n abs.inside) room
  obtain ⟨result, prefixed, held'⟩ := prefixes fuel more kmalloc 1 buffer []
    (by rwa [List.append_nil]) (size.trans (kmalloc 0).property)
    (by rw [List.append_nil]; omega)
  rw [List.append_nil] at held'
  refine ⟨result, ?_, held'⟩
  have name : (s.mem n).name = (s.node n).name := rfl
  rw [vfsAbsPathTo, name, copied, Option.bind_eq_bind, Option.bind_some, prefixed]
  rfl

/-- `vfs_abs_path_to` returns nothing else, and only for a path of at most 255 characters. -/
theorem vfsAbsPathTo_some (tree : IsTree s.links s.vfsRoot kids) (named : Named s kids)
    (abs : AbsolutePath s kids n path) {kmalloc : Nat → Buffer256} {fuel : Nat}
    {result : Option (List UInt8)}
    (returned : vfsAbsPathTo s.mem kmalloc fuel (some n) = some result)
    : path.length ≤ 255 := by
  obtain ⟨buffer, copied, returned⟩ := Option.bind_eq_some_iff.mp returned
  obtain ⟨printed, prefixed, -⟩ := Option.bind_eq_some_iff.mp returned
  have name : Holds (s.mem n).name (s.nameOf n) := named n abs.inside
  obtain ⟨buffer', copied', held, size⟩ :=
    strcpy_holds (kmalloc 0).val name (length_lt_of_strcpy copied name)
  obtain rfl := Option.some.inj (copied.symm.trans copied')
  obtain ⟨heldAll, sizeAll⟩ := prefixParents_some tree named abs []
    (by rwa [List.append_nil]) (size.trans (kmalloc 0).property) prefixed
  have shorter := heldAll.length_lt
  rw [List.append_nil] at shorter
  omega

omit [DecidableEq α] in
/-- Every node of the tree has an absolute path, by induction on the way down. -/
theorem exists_absolutePath {s : VfsState α} {kids : α → List α} {n : α} (inside : s.Inside kids n)
    : ∃ path, AbsolutePath s kids n path := by
  induction inside with
  | refl => exact ⟨_, .root⟩
  | tail _ member ih =>
      obtain ⟨path, above⟩ := ih
      exact ⟨_, .child above member⟩

end VfsState

end Hydrangea
