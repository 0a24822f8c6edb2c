import Hydrangea.Fs.VfsMadePaths

/-! Where `tmpfs_create` of `kernel/fs/tmpfs/tmpfs.c` adds its node. -/

namespace Hydrangea.VfsState

open CString Linked LinkedTree Vfs

variable {α : Type}

/-- A path goes on with a name in a directory: below the root of the file system, where its part
before the last slash leads, or in the root if it has no slash.
-/
inductive LeadsTo (s : VfsState α) (kids : α → List α) (root : α) : List UInt8 → α → List UInt8 → Prop
  | whole {name : List UInt8} (free : slash ∉ name) : LeadsTo s kids root name root name
  | behind {front name : List UInt8} {p : α} (free : slash ∉ name) (nonempty : front ≠ [])
      (led : s.lookup kids root front = some p) (below : Below kids root p)
    : LeadsTo s kids root (front ++ slash :: name) p name

/-- What `tmpfs_create` does: it refuses the path, or it makes a node of the first block. -/
inductive TmpfsCreates [DecidableEq α] (s s' : VfsState α) (kids : α → List α) (root : α)
    (t : List UInt8) (blocks : List (NodeBlock α)) : Nat → Prop
  | refused {result : Nat} (nonzero : result ≠ 0) (same : s' = s)
    : TmpfsCreates s s' kids root t blocks result
  | created {block : NodeBlock α} {rest : List (NodeBlock α)} {p : α} {name : List UInt8}
      (first : blocks = block :: rest) (leads : LeadsTo s kids root t p name) (nonempty : name ≠ [])
      (adds : AddsLast s s' kids p block.addr name)
    : TmpfsCreates s s' kids root t blocks 0

variable {s s' : VfsState α} {kids : α → List α} {root p c : α} {path t : List UInt8}

-----------------------------------------------------------------------------------------
-- The last slash
-----------------------------------------------------------------------------------------

/-- The search passes over characters other than slashes, by induction on their number. -/
theorem lastSlashIndex_skip {k : Nat} (n : Nat)
    (skip : ∀ j, k ≤ j → j < k + n → path[j]? ≠ some slash)
    : lastSlashIndex path (k + n) = lastSlashIndex path k := by
  induction n with
  | zero => rfl
  | succ n ih =>
      rw [← Nat.add_assoc, lastSlashIndex, if_neg (skip (k + n) (by omega) (by omega))]
      exact ih (fun j above below => skip j above (by omega))

theorem lastSlashIndex_none (held : Holds path t) (free : slash ∉ t)
    : lastSlashIndex path t.length = 0 := by
  obtain ⟨-, rest, rfl⟩ := held
  have whole : t.length = 0 + t.length := (Nat.zero_add _).symm
  rw [whole]
  refine lastSlashIndex_skip t.length (fun j _ below same => free ?_)
  rw [List.getElem?_append_left (by omega)] at same
  exact List.mem_of_getElem? same

theorem lastSlashIndex_behind {front name : List UInt8} (held : Holds path (front ++ slash :: name))
    (free : slash ∉ name)
    : lastSlashIndex path (front ++ slash :: name).length = front.length := by
  obtain ⟨-, rest, rfl⟩ := held
  have size : (front ++ slash :: name).length = front.length + 1 + name.length := by
    rw [List.length_append, List.length_cons]
    omega
  rw [size, lastSlashIndex_skip name.length (fun j above below same => free ?_), lastSlashIndex,
    if_pos ?_]
  · rw [List.append_assoc, List.cons_append, List.getElem?_append_right (by omega)]
    simp
  · rw [List.append_assoc, List.cons_append, List.getElem?_append_right (by omega),
      List.getElem?_cons, if_neg (by omega), List.getElem?_append_left (by omega)] at same
    exact List.mem_of_getElem? same

/-- The byte in front of the end of a path is its last character. -/
theorem lastByte_eq (held : Holds path t) (nonempty : t ≠ []) (before : UInt8)
    : ∃ last, lastByte before path t.length = some last
        ∧ ∀ front name, t = front ++ slash :: name → name = [] → last = slash := by
  rcases List.eq_nil_or_concat' t with none | ⟨front, last, rfl⟩
  · exact absurd none nonempty
  · obtain ⟨-, rest, rfl⟩ := held
    refine ⟨last, ?_, fun front' name split none => ?_⟩
    · rw [List.length_append, List.length_singleton, lastByte, List.append_assoc,
        List.getElem?_append_right le_rfl, Nat.sub_self]
      rfl
    · rw [none] at split
      exact List.head_eq_of_cons_eq (List.append_inj' split rfl).2

-----------------------------------------------------------------------------------------
-- Adding the node
-----------------------------------------------------------------------------------------

variable [DecidableEq α]

/-- The file of the new node is assigned to. -/
theorem AddsLast.setFile {name : List UInt8} (h : AddsLast s s' kids p c name) (f : VfsFile → VfsFile)
    : AddsLast s (s'.setFile c f) kids p c name := by
  have other (n : α) (differ : n ≠ c) : (s'.setFile c f).node n = s'.node n := by
    rw [VfsState.setFile, setNode_node, if_neg differ]
  refine ⟨h.new, h.here, ?_, ⟨h.roots.vfsRoot, h.roots.tmpfsRoot, h.roots.devfsRoot⟩, fun n inside => ?_,
    ?_⟩
  · rw [setFile_links]
    exact h.tree
  · rw [other n (fun same => h.new (same ▸ inside))]
    exact h.kept n inside
  · rw [VfsState.setFile, setNode_node, if_pos rfl]
    exact h.named

/-- `vfs_add_child` under a node of the tree, and the assignment to the `inode`. -/
theorem createFile_addsLast (tree : IsTree s.links s.vfsRoot kids) (here : s.Inside kids p)
    {blocks rest : List (NodeBlock α)} (fresh : Fresh s kids blocks) {name : List UInt8}
    (held : Holds path name) {fuel type inode result : Nat}
    (made : s.createFile fuel p path type inode blocks = some (result, s', rest))
    : ∃ block, blocks = block :: rest ∧ AddsLast s s' kids p block.addr name := by
  obtain ⟨⟨node, s₁, blocks₁⟩, added, made⟩ := Option.bind_eq_some_iff.mp made
  obtain ⟨-, same⟩ := Prod.mk.inj (Option.some.inj made)
  obtain ⟨rfl, rfl⟩ := Prod.mk.inj same
  obtain ⟨block, rfl, rfl, adds⟩ := addNext_adds tree here fresh added
  exact ⟨block, rfl,
    (adds.addsLast here (fresh.apart block (List.mem_cons_self ..)) held).setFile _⟩

/-- `vfs_add_child` under a node of the tree, and the assignment to the `inode`, return. -/
theorem createFile_returns (tree : IsTree s.links s.vfsRoot kids) (here : s.Inside kids p)
    (block : NodeBlock α) (blocks : List (NodeBlock α)) {name : List UInt8} (held : Holds path name)
    (room : name.length < 256) (type inode : Nat)
    : ∃ s', ∀ fuel, (kids p).length ≤ fuel
        → s.createFile fuel p path type inode (block :: blocks) = some (0, s', blocks) := by
  obtain ⟨s₁, added⟩ := addNext_returns tree here held room type block blocks
  refine ⟨s₁.setFile block.addr (fun file => { file with inode }), fun fuel enough => ?_⟩
  rw [createFile, added fuel enough]
  rfl

theorem createFile_creates (tree : IsTree s.links s.vfsRoot kids) (here : s.Inside kids p)
    {block : NodeBlock α} {blocks : List (NodeBlock α)} (fresh : Fresh s kids (block :: blocks))
    {name : List UInt8} (held : Holds path name) (room : name.length < 256) (type inode : Nat)
    : ∃ s', (∀ fuel, (kids p).length ≤ fuel
          → s.createFile fuel p path type inode (block :: blocks) = some (0, s', blocks))
        ∧ AddsLast s s' kids p block.addr name := by
  obtain ⟨s', returns⟩ := createFile_returns tree here block blocks held room type inode
  obtain ⟨_, same, adds⟩ := createFile_addsLast tree here fresh held (returns _ le_rfl)
  obtain ⟨rfl, -⟩ := List.cons.inj same
  exact ⟨s', returns, adds⟩

/-- What is copied of a path up to a slash. -/
theorem holds_beforeSlash {front name : List UInt8} (held : Holds path (front ++ slash :: name))
    : Holds (path.take front.length ++ [0]) front := by
  obtain ⟨nonzero, rest, rfl⟩ := held
  rw [List.append_assoc, List.take_left]
  exact holds_append (fun zero => nonzero (List.mem_append_left _ zero)) []

theorem holds_behindSlash {front name : List UInt8} (held : Holds path (front ++ slash :: name))
    : Holds ((path.drop (front.length + 1)).take
        ((front ++ slash :: name).length - front.length + 1) ++ [0]) name := by
  have behind : (front ++ slash :: name).drop (front.length + 1) = name := by
    rw [← List.drop_drop, List.drop_left]
    rfl
  have size : front.length + 1 ≤ (front ++ slash :: name).length := by
    rw [List.length_append, List.length_cons]
    omega
  refine Holds.append (Holds.take (behind ▸ held.drop size) ?_) [0]
  rw [List.length_append, List.length_cons]
  omega

/-- What `tmpfs_create` does behind the checks of the type and of a slash at the start. -/
theorem tmpfsCreate_relative (isRoot : s.tmpfsRoot = some root) {type : Nat}
    (goodType : ¬ (type ≠ vfsFile ∧ type ≠ vfsDir)) (held : Holds path t)
    (relative : path[0]? ≠ some slash) {up : Option Nat}
    (searched : strstr path [dot, dot, 0] = some up) {before last : UInt8}
    (atLast : lastByte before path t.length = some last) (fuel : Nat) (kmalloc : Buffer256)
    (i : Option Nat) (blocks : List (NodeBlock α))
    : s.tmpfsCreate fuel kmalloc i before path type blocks
      = if up ≠ none then
          some (2, s, blocks)
        else if last = slash then
          some (3, s, blocks)
        else if lastSlashIndex path t.length = 0 then
          s.createFile fuel root path type 0 blocks
        else
          (vfsNodeFromPath s.mem s.vfsRoot kmalloc fuel i root
            (path.take (lastSlashIndex path t.length) ++ [0])).bind (fun parent =>
              parent.elim (some (4, s, blocks)) (fun parent => s.createFile fuel parent
                ((path.drop (lastSlashIndex path t.length + 1)).take
                  (t.length - lastSlashIndex path t.length + 1) ++ [0])
                type 0 blocks)) := by
  simp only [tmpfsCreate, isRoot, if_neg goodType, if_neg relative, searched, strlen_eq held, atLast,
    Option.bind_eq_bind, Option.bind_some]
  congr 4
  funext parent
  cases parent <;> rfl

/-- The node behind the last slash is added where the front of the path leads, which is below the
root, since the path does not go up. If the front leads nowhere, nothing is added.
-/
theorem createBehind (tree : IsTree s.links s.vfsRoot kids) (named : Named s kids)
    (here : s.Inside kids root) {block : NodeBlock α} {blocks : List (NodeBlock α)}
    (fresh : Fresh s kids (block :: blocks)) {front name : List UInt8}
    (held : Holds path (front ++ slash :: name)) (free : slash ∉ name)
    (relative : front.head? ≠ some slash) (nonemptyFront : front ≠ []) (nonemptyName : name ≠ [])
    (notUp : ¬ [dot, dot] <:+: front ++ slash :: name)
    (short : (front ++ slash :: name).length ≤ 255) (kmalloc : Buffer256) (i : Option Nat)
    (type : Nat)
    : ∃ enough result s' rest,
        (∀ fuel, enough ≤ fuel
          → (vfsNodeFromPath s.mem s.vfsRoot kmalloc fuel i root
              (path.take front.length ++ [0])).bind (fun parent =>
                parent.elim (some (4, s, block :: blocks)) (fun parent => s.createFile fuel parent
                  ((path.drop (front.length + 1)).take
                    ((front ++ slash :: name).length - front.length + 1) ++ [0])
                  type 0 (block :: blocks)))
            = some (result, s', rest))
        ∧ TmpfsCreates s s' kids root (front ++ slash :: name) (block :: blocks) result := by
  have sizes : front.length + 1 + name.length ≤ 255 := by
    rw [List.length_append, List.length_cons] at short
    omega
  have heldFront := holds_beforeSlash held
  have heldName := holds_behindSlash held
  obtain ⟨enough, resolves⟩ :=
    resolves_lookup tree named here (Nat.le_trans (by omega) sizes : front.length ≤ 255)
  cases led : s.lookup kids root front with
  | none =>
      refine ⟨enough, 4, s, block :: blocks, fun fuel bound => ?_, .refused (by decide) rfl⟩
      rw [resolves fuel bound kmalloc i _ heldFront, led]
      rfl
  | some p =>
      have inside := lookup_inside tree here led
      obtain ⟨s', returns, adds⟩ := createFile_creates tree inside fresh heldName (by omega) type 0
      have below : Below kids root p := by
        have start : s.startOf root front = root := if_neg relative
        rw [lookup, start] at led
        refine follow_below (fun word member same => ?_) led
        have part : [dot, dot] <:+: front := same ▸ infix_of_mem_words member
        exact notUp (part.trans (List.prefix_append _ _).isInfix)
      refine ⟨max enough (kids p).length, 0, s', blocks, fun fuel bound => ?_,
        .created rfl (.behind free nonemptyFront led below) nonemptyName adds⟩
      have bounds := max_le_iff.mp bound
      rw [resolves fuel bounds.1 kmalloc i _ heldFront, led, Option.bind_some]
      exact returns fuel bounds.2

/-- `tmpfs_create` returns: it refuses the path, or it adds the node where the path leads. The
checks of the path come first, each with its own result; what is left is a path that is cut at its
last slash, or not at all.
-/
theorem tmpfsCreate_creates (tree : IsTree s.links s.vfsRoot kids) (named : Named s kids)
    (isRoot : s.tmpfsRoot = some root) (here : s.Inside kids root) {blocks : List (NodeBlock α)}
    (fresh : Fresh s kids blocks) (more : blocks ≠ []) (held : Holds path t) (nonempty : t ≠ [])
    (short : t.length ≤ 255) (kmalloc : Buffer256) (i : Option Nat) (before : UInt8) (type : Nat)
    : ∃ enough result s' rest,
        (∀ fuel, enough ≤ fuel
          → s.tmpfsCreate fuel kmalloc i before path type blocks = some (result, s', rest))
        ∧ TmpfsCreates s s' kids root t blocks result := by
  obtain ⟨block, blocks, rfl⟩ := List.exists_cons_of_ne_nil more
  have upHeld : Holds [dot, dot, 0] [dot, dot] := by decide
  obtain ⟨up, searched, absent, -⟩ := strstr_eq held upHeld (by omega)
  obtain ⟨last, atLast, isLast⟩ := lastByte_eq held nonempty before
  have first : path[0]? = t.head? := by
    obtain ⟨-, rest, rfl⟩ := held
    obtain ⟨b, t, rfl⟩ := List.exists_cons_of_ne_nil nonempty
    rfl
  have refuse (result : Nat) (nonzero : result ≠ 0)
      (called : ∀ fuel, s.tmpfsCreate fuel kmalloc i before path type (block :: blocks)
        = some (result, s, block :: blocks))
      : ∃ enough result s' rest,
        (∀ fuel, enough ≤ fuel
          → s.tmpfsCreate fuel kmalloc i before path type (block :: blocks) = some (result, s', rest))
        ∧ TmpfsCreates s s' kids root t (block :: blocks) result :=
    ⟨0, result, s, block :: blocks, fun fuel _ => called fuel, .refused nonzero rfl⟩
  by_cases badType : type ≠ vfsFile ∧ type ≠ vfsDir
  · refine refuse 254 (by decide) (fun fuel => ?_)
    simp only [tmpfsCreate, isRoot, if_pos badType]
  by_cases absolute : path[0]? = some slash
  · refine refuse 1 (by decide) (fun fuel => ?_)
    simp only [tmpfsCreate, isRoot, if_neg badType, if_pos absolute]
  have begins := tmpfsCreate_relative isRoot badType held absolute searched atLast
  by_cases isUp : up ≠ none
  · refine refuse 2 (by decide) (fun fuel => ?_)
    rw [begins, if_pos isUp]
  by_cases trailing : last = slash
  · refine refuse 3 (by decide) (fun fuel => ?_)
    rw [begins, if_neg isUp, if_pos trailing]
  simp only [begins, if_neg isUp, if_neg trailing]
  by_cases member : slash ∈ t
  · obtain ⟨front, name, rfl, free⟩ := exists_last_delimiter member
    rw [first] at absolute
    have nonemptyFront : front ≠ [] := by
      rintro rfl
      exact absolute rfl
    have nonemptyName : name ≠ [] := fun none => trailing (isLast front name rfl none)
    have positive : front.length ≠ 0 := List.length_eq_zero_iff.not.mpr nonemptyFront
    have relative : front.head? ≠ some slash := by
      obtain ⟨b, front, rfl⟩ := List.exists_cons_of_ne_nil nonemptyFront
      exact absolute
    simp only [lastSlashIndex_behind held free, if_neg positive]
    exact createBehind tree named here fresh held free relative nonemptyFront nonemptyName
      (absent.mp (not_not.mp isUp)) short kmalloc i type
  · obtain ⟨s', returns, adds⟩ :=
      createFile_creates tree here fresh held (Nat.lt_succ_of_le short) type 0
    refine ⟨(kids root).length, 0, s', blocks, fun fuel bound => ?_,
      .created rfl (.whole member) nonempty adds⟩
    rw [lastSlashIndex_none held member, if_pos rfl]
    exact returns fuel bound

theorem createFile_mono {fuel more : Nat} (enough : fuel ≤ more) {type inode : Nat}
    {blocks : List (NodeBlock α)} {r : Nat × VfsState α × List (NodeBlock α)}
    (made : s.createFile fuel p path type inode blocks = some r)
    : s.createFile more p path type inode blocks = some r := by
  obtain ⟨⟨node, s₁, blocks₁⟩, added, made⟩ := Option.bind_eq_some_iff.mp made
  rw [createFile, addNext_mono enough added, Option.bind_eq_bind, Option.bind_some]
  exact made

/-- More fuel makes the same call of `tmpfs_create`. -/
theorem tmpfsCreate_mono {fuel more : Nat} (enough : fuel ≤ more) {kmalloc : Buffer256}
    {i : Option Nat} {before : UInt8} {type : Nat} {blocks : List (NodeBlock α)}
    {r : Nat × VfsState α × List (NodeBlock α)}
    (made : s.tmpfsCreate fuel kmalloc i before path type blocks = some r)
    : s.tmpfsCreate more kmalloc i before path type blocks = some r := by
  rw [tmpfsCreate] at made ⊢
  cases isRoot : s.tmpfsRoot with
  | none =>
      rw [isRoot] at made
      exact made
  | some root =>
      rw [isRoot] at made
      dsimp only at made ⊢
      split at made
      · next badType =>
          rw [if_pos badType]
          exact made
      next goodType =>
      split at made
      · next absolute =>
          rw [if_neg goodType, if_pos absolute]
          exact made
      next relative =>
      obtain ⟨up, searched, made⟩ := Option.bind_eq_some_iff.mp made
      obtain ⟨n, counted, made⟩ := Option.bind_eq_some_iff.mp made
      obtain ⟨last, atLast, made⟩ := Option.bind_eq_some_iff.mp made
      rw [if_neg goodType, if_neg relative, searched, Option.bind_eq_bind, Option.bind_some, counted,
        Option.bind_eq_bind, Option.bind_some, atLast, Option.bind_eq_bind, Option.bind_some]
      split at made
      · next isUp =>
          rw [if_pos isUp]
          exact made
      next notUp =>
      split at made
      · next trailing =>
          rw [if_neg notUp, if_pos trailing]
          exact made
      next ends =>
      split at made
      · next whole =>
          rw [if_neg notUp, if_neg ends, if_pos whole]
          exact createFile_mono enough made
      next behind =>
      obtain ⟨parent, found, made⟩ := Option.bind_eq_some_iff.mp made
      rw [if_neg notUp, if_neg ends, if_neg behind, vfsNodeFromPath_mono enough found,
        Option.bind_eq_bind, Option.bind_some]
      cases parent with
      | none => exact made
      | some parent => exact createFile_mono enough made

/-- A call of `tmpfs_create` that returns 0 has added one node, as the last child of the node that
the part of the path before its last slash leads to, or of the root of `tmpfs` if the path has no
slash. That node is the root of `tmpfs` or below it. Any other call has changed nothing. The cases
are those of `tmpfs_create`: refused, added below the root, or added below what the lookup of the
front finds.
-/
theorem tmpfsCreate_confined (tree : IsTree s.links s.vfsRoot kids) (named : Named s kids)
    (isRoot : s.tmpfsRoot = some root) (here : s.Inside kids root) {blocks : List (NodeBlock α)}
    (fresh : Fresh s kids blocks) (more : blocks ≠ []) (held : Holds path t) (nonempty : t ≠ [])
    (short : t.length ≤ 255) (kmalloc : Buffer256) (i : Option Nat) (before : UInt8) (type : Nat)
    : ∃ enough result s' rest,
        (∀ fuel, enough ≤ fuel
          → s.tmpfsCreate fuel kmalloc i before path type blocks = some (result, s', rest))
        ∧ (result ≠ 0 → s' = s)
        ∧ (result = 0 → ∃ p c name, Below kids root p ∧ AddsLast s s' kids p c name
          ∧ (slash ∉ t → p = root ∧ name = t)
          ∧ ∀ front behind, t = front ++ slash :: behind → slash ∉ behind
            → s.Resolves root front (some p) ∧ name = behind) := by
  obtain ⟨enough, result, s', rest, returns, outcome⟩ :=
    tmpfsCreate_creates tree named isRoot here fresh more held nonempty short kmalloc i before type
  refine ⟨enough, result, s', rest, returns, ?_⟩
  cases outcome with
  | refused nonzero same => exact ⟨fun _ => same, fun zero => absurd zero nonzero⟩
  | @created block _ p name _ leads _ adds =>
      refine ⟨fun nonzero => absurd rfl nonzero, fun _ => ⟨p, block.addr, name, ?_, adds, ?_⟩⟩
      · cases leads with
        | whole => exact .refl
        | behind _ _ _ below => exact below
      · cases leads with
        | whole free =>
            refine ⟨fun _ => ⟨rfl, rfl⟩, fun front behind split _ => ?_⟩
            exact absurd (split ▸ List.mem_append_right _ (List.mem_cons_self ..)) free
        | @behind before' _ _ free _ led _ =>
            refine ⟨fun none => ?_, fun front behind split free' => ?_⟩
            · exact absurd (List.mem_append_right _ (List.mem_cons_self ..)) none
            · obtain ⟨rfl, rfl⟩ := last_delimiter_unique split free free'
              have size : before'.length ≤ 255 :=
                Nat.le_trans (List.prefix_append _ _).length_le short
              exact ⟨led ▸ resolves_lookup tree named here size, rfl⟩

/-- The directory `/` alone, which is the root of `tmpfs`. -/
def loneTmpfs : VfsState Nat :=
  { loneState with tmpfsRoot := some 0 }

/-- `tmpfs_create("./x", VFS_FILE)` with a slash behind the end of the path. -/
theorem tmpfsCreate_confined_lone
    : ∃ enough result s' rest,
        (∀ fuel, enough ≤ fuel → loneTmpfs.tmpfsCreate fuel zeros none 0
          [dot, slash, 0x78, 0, slash] vfsFile fiveBlocks = some (result, s', rest))
        ∧ (result ≠ 0 → s' = loneTmpfs)
        ∧ (result = 0 → ∃ p c name, Below (fun _ => []) 0 p
          ∧ AddsLast loneTmpfs s' (fun _ => []) p c name
          ∧ (slash ∉ [dot, slash, 0x78] → p = 0 ∧ name = [dot, slash, 0x78])
          ∧ ∀ front behind, [dot, slash, 0x78] = front ++ slash :: behind → slash ∉ behind
            → loneTmpfs.Resolves 0 front (some p) ∧ name = behind) := by
  have tree : IsTree loneTmpfs.links loneTmpfs.vfsRoot (fun _ => []) := isTree_loneState
  have fresh : Fresh loneTmpfs (fun _ => []) fiveBlocks :=
    ⟨fresh_fiveBlocks.nodup, fresh_fiveBlocks.apart⟩
  exact tmpfsCreate_confined tree named_loneState rfl .refl fresh (by decide) (by decide) (by decide)
    (by decide) zeros none 0 vfsFile

end Hydrangea.VfsState
