import Hydrangea.Fs.VfsPaths
import Hydrangea.Fs.VfsTrees

/-! What `vfs_node_from_path` of `kernel/fs/vfs.c` returns in a tree: the node that the words of
the path lead to.
-/

namespace Hydrangea.VfsState

open CString Linked LinkedTree Vfs

variable {α : Type}

def nameOf (s : VfsState α) (n : α) : List UInt8 :=
  (s.node n).name.takeWhile (· ≠ 0)

def Named (s : VfsState α) (kids : α → List α) : Prop :=
  ∀ n, s.Inside kids n → Holds (s.node n).name (s.nameOf n)

def child (s : VfsState α) (kids : α → List α) (n : α) (word : List UInt8) : Option α :=
  if word = [dot] then
    some n
  else if word = [dot, dot] then
    (s.node n).parent
  else
    (kids n).find? (fun c => s.nameOf c = word)

def follow (s : VfsState α) (kids : α → List α) (n : α) (ws : List (List UInt8)) : Option α :=
  ws.foldlM (s.child kids) n

def startOf (s : VfsState α) (r : α) (path : List UInt8) : α :=
  if path.head? = some slash then s.vfsRoot else r

def lookup (s : VfsState α) (kids : α → List α) (r : α) (path : List UInt8) : Option α :=
  s.follow kids (s.startOf r path) (words slash path)

/-- `vfs_node_from_path` returns a node, or null, for a path from `r`, whatever the buffer of
`kmalloc` for its copy and the static `i` of `strtok` hold.
-/
def Resolves (s : VfsState α) (r : α) (path : List UInt8) (found : Option α) : Prop :=
  ∃ enough, ∀ fuel, enough ≤ fuel → ∀ (kmalloc : Buffer256) (i : Option Nat) (buffer : List UInt8),
    Holds buffer path → vfsNodeFromPath s.mem s.vfsRoot kmalloc fuel i r buffer = some found

/-- The token is the first of some words, and `strtok` has yet to cut the others at slashes. -/
def Tokens (ap : List UInt8) (token i : Option Nat) : List (List UInt8) → Prop
  | [] => token = none
  | word :: rest =>
      ∃ q t, token = some q ∧ Holds (ap.drop q) word ∧ Left ap i t ∧ rest = words slash t

variable {s : VfsState α} {kids : α → List α} {n r c : α}

-----------------------------------------------------------------------------------------
-- Searching
-----------------------------------------------------------------------------------------

/-- The walk over the children stops at the first one with the name or else at the last one, by
induction on them.
-/
theorem findChild_find {buffer word : List UInt8} {cs : List α} {x : α} {fuel : Nat}
    (chain : Chain s.links.next (some x) cs)
    (named : ∀ c ∈ cs, Holds (s.node c).name (s.nameOf c)) (wanted : Holds buffer word)
    (enough : cs.length ≤ fuel)
    : ∃ c, findChild s.mem buffer fuel x = some c ∧ c ∈ cs
        ∧ cs.find? (fun c => s.nameOf c = word) = if s.nameOf c = word then some c else none := by
  induction cs generalizing x fuel with
  | nil => cases chain
  | cons y cs ih =>
      obtain ⟨start, rest⟩ := chain
      obtain rfl : x = y := Option.some.inj start
      obtain ⟨fuel, rfl⟩ := Nat.exists_eq_add_of_le' (Nat.le_trans (Nat.le_add_left 1 _) enough)
      obtain ⟨first, others⟩ := List.forall_mem_cons.mp named
      have compared : strcmp (s.mem x).name buffer = some (if s.nameOf x = word then 0 else 1) :=
        strcmp_eq first wanted
      rw [findChild, compared, Option.bind_eq_bind, Option.bind_some]
      by_cases same : s.nameOf x = word
      · refine ⟨x, ?_, List.mem_cons_self .., ?_⟩
        · simp [same]
        · rw [List.find?_cons_of_pos (by simpa using same), if_pos same]
      · rw [List.find?_cons_of_neg (by simpa using same)]
        have link : (s.mem x).next = s.links.next x := rfl
        cases following : s.links.next x with
        | none =>
            rw [following] at rest
            have nothing : cs = [] := by simpa using (Chain.head rest).symm
            refine ⟨x, ?_, List.mem_cons_self .., ?_⟩
            · simp [same, link, following]
            · rw [nothing, if_neg same]
              rfl
        | some y =>
            rw [following] at rest
            obtain ⟨c, found, member, first'⟩ := ih rest others (Nat.le_of_succ_le_succ enough)
            refine ⟨c, ?_, List.mem_cons_of_mem _ member, first'⟩
            simp [same, link, following, found]

theorem vfsGetChildByName_find (tree : IsTree s.links s.vfsRoot kids) (here : s.Inside kids n)
    (named : Named s kids) {buffer word : List UInt8} (wanted : Holds buffer word)
    (notDot : word ≠ [dot]) (notUp : word ≠ [dot, dot]) {fuel : Nat}
    (enough : (kids n).length ≤ fuel)
    : vfsGetChildByName s.mem fuel n buffer
        = some ((kids n).find? (fun c => s.nameOf c = word)) := by
  have dotHeld : Holds [dot, 0] [dot] := by decide
  have upHeld : Holds [dot, dot, 0] [dot, dot] := by decide
  have chain := tree.chain n here
  have link : (s.mem n).childs = s.links.childs n := rfl
  rw [vfsGetChildByName, strcmp_eq wanted dotHeld, strcmp_eq wanted upHeld, if_neg notDot,
    if_neg notUp, link]
  cases first : s.links.childs n with
  | none =>
      rw [first] at chain
      have nothing : kids n = [] := by simpa using (Chain.head chain).symm
      simp [nothing]
  | some x =>
      rw [first] at chain
      obtain ⟨c, found, member, find⟩ :=
        findChild_find chain (fun c member => named c (here.child member)) wanted enough
      have compared : strcmp (s.mem c).name buffer = some (if s.nameOf c = word then 0 else 1) :=
        strcmp_eq (named c (here.child member)) wanted
      rw [find]
      by_cases same : s.nameOf c = word <;> simp [found, compared, same]

theorem vfsGetChildByName_dot {buffer : List UInt8} (wanted : Holds buffer [dot]) (fuel : Nat)
    : vfsGetChildByName s.mem fuel n buffer = some (some n) := by
  have dotHeld : Holds [dot, 0] [dot] := by decide
  rw [vfsGetChildByName, strcmp_eq wanted dotHeld]
  rfl

theorem vfsGetChildByName_up {buffer : List UInt8} (wanted : Holds buffer [dot, dot]) (fuel : Nat)
    : vfsGetChildByName s.mem fuel n buffer = some (s.node n).parent := by
  have dotHeld : Holds [dot, 0] [dot] := by decide
  have upHeld : Holds [dot, dot, 0] [dot, dot] := by decide
  rw [vfsGetChildByName, strcmp_eq wanted dotHeld, strcmp_eq wanted upHeld]
  rfl

-----------------------------------------------------------------------------------------
-- Words
-----------------------------------------------------------------------------------------

/-- No words lead to the node itself. -/
@[simp]
theorem follow_nil (s : VfsState α) (kids : α → List α) (n : α) : s.follow kids n [] = some n :=
  rfl

/-- One word more in front. -/
@[simp]
theorem follow_cons (s : VfsState α) (kids : α → List α) (n : α) (word : List UInt8)
    (ws : List (List UInt8))
    : s.follow kids n (word :: ws) = (s.child kids n word).bind (fun c => s.follow kids c ws) :=
  List.foldlM_cons

theorem follow_append (s : VfsState α) (kids : α → List α) (n : α) (front behind : List (List UInt8))
    : s.follow kids n (front ++ behind)
      = (s.follow kids n front).bind (fun m => s.follow kids m behind) :=
  List.foldlM_append

/-- A path behind another one and a slash is looked up from the node that the other one leads to. -/
theorem lookup_append (s : VfsState α) (kids : α → List α) (r : α) {p q : List UInt8}
    (nonempty : p ≠ []) (relative : q.head? ≠ some slash)
    : s.lookup kids r (p ++ slash :: q) = (s.lookup kids r p).bind (fun n => s.lookup kids n q) := by
  have first : s.startOf r (p ++ slash :: q) = s.startOf r p := by
    obtain ⟨c, p, rfl⟩ := List.exists_cons_of_ne_nil nonempty
    rfl
  have second (n : α) : s.startOf n q = n := if_neg relative
  simp only [lookup, first, second]
  rw [words_append_cons, follow_append]

-----------------------------------------------------------------------------------------
-- Going along the words
-----------------------------------------------------------------------------------------

/-- A word leads to a node of the tree. -/
theorem child_inside (tree : IsTree s.links s.vfsRoot kids) (here : s.Inside kids n)
    {word : List UInt8} (found : s.child kids n word = some c)
    : s.Inside kids c := by
  rw [child] at found
  split at found
  · obtain rfl := Option.some.inj found
    exact here
  · split at found
    · obtain ⟨p, parent, above, -⟩ := tree.parent_below here
      obtain rfl : p = c := Option.some.inj (parent.symm.trans found)
      exact above
    · exact here.child (List.mem_of_find?_eq_some found)

/-- Words lead to a node of the tree, by induction on them. -/
theorem follow_inside (tree : IsTree s.links s.vfsRoot kids) (here : s.Inside kids n)
    {ws : List (List UInt8)} (found : s.follow kids n ws = some c)
    : s.Inside kids c := by
  induction ws generalizing n with
  | nil =>
      obtain rfl := Option.some.inj found
      exact here
  | cons word ws ih =>
      obtain ⟨m, stepped, rest⟩ := Option.bind_eq_some_iff.mp ((follow_cons ..).symm.trans found)
      exact ih (child_inside tree here stepped) rest

/-- A word other than `..` leads down. -/
theorem child_below {word : List UInt8} (notUp : word ≠ [dot, dot])
    (led : s.child kids n word = some c)
    : Below kids n c := by
  rw [child] at led
  split at led
  · obtain rfl := Option.some.inj led
    exact .refl
  · exact below_of_mem (List.mem_of_find?_eq_some led)

/-- Words other than `..` lead down, by induction on them. -/
theorem follow_below {ws : List (List UInt8)} (notUp : ∀ word ∈ ws, word ≠ [dot, dot])
    (led : s.follow kids n ws = some c)
    : Below kids n c := by
  induction ws generalizing n with
  | nil =>
      obtain rfl := Option.some.inj led
      exact .refl
  | cons word ws ih =>
      obtain ⟨first, others⟩ := List.forall_mem_cons.mp notUp
      obtain ⟨m, stepped, rest⟩ := Option.bind_eq_some_iff.mp ((follow_cons ..).symm.trans led)
      exact (child_below first stepped).trans (ih others rest)

/-- A path begins at a node of the tree. -/
theorem startOf_inside (here : s.Inside kids r) (path : List UInt8)
    : s.Inside kids (s.startOf r path) := by
  rw [startOf]
  split
  · exact .refl
  · exact here

/-- A path leads to a node of the tree. -/
theorem lookup_inside (tree : IsTree s.links s.vfsRoot kids) (here : s.Inside kids r)
    {path : List UInt8} (found : s.lookup kids r path = some c)
    : s.Inside kids c :=
  follow_inside tree (startOf_inside here path) found

/-- `vfs_get_child_by_name` returns the node that the word leads to. -/
theorem vfsGetChildByName_child (tree : IsTree s.links s.vfsRoot kids) (here : s.Inside kids n)
    (named : Named s kids) {buffer word : List UInt8} (wanted : Holds buffer word) {fuel : Nat}
    (enough : (kids n).length ≤ fuel)
    : vfsGetChildByName s.mem fuel n buffer = some (s.child kids n word) := by
  rw [child]
  by_cases isDot : word = [dot]
  · subst isDot
    rw [if_pos rfl]
    exact vfsGetChildByName_dot wanted fuel
  · rw [if_neg isDot]
    by_cases isUp : word = [dot, dot]
    · subst isUp
      rw [if_pos rfl]
      exact vfsGetChildByName_up wanted fuel
    · rw [if_neg isUp]
      exact vfsGetChildByName_find tree here named wanted isDot isUp enough

/-- The words that a call of `strtok` has yet to cut off are its token and the rest. -/
theorem tokens_cut {t : List UInt8} {call : Option (Option Nat × Option Nat × List UInt8)}
    {ap : List UInt8}
    (cut : match cutWord slash t with
      | none => call = some (none, none, ap)
      | some (word, behind) => ∃ q i' ap', call = some (some q, i', ap') ∧ Holds (ap'.drop q) word
          ∧ Left ap' i' behind)
    : ∃ token i' ap', call = some (token, i', ap') ∧ Tokens ap' token i' (words slash t) := by
  rw [words_eq]
  cases first : cutWord slash t with
  | none =>
      rw [first] at cut
      exact ⟨none, none, ap, cut, rfl⟩
  | some pair =>
      obtain ⟨word, behind⟩ := pair
      rw [first] at cut
      obtain ⟨q, i', ap', called, held, left⟩ := cut
      exact ⟨some q, i', ap', called, q, behind, rfl, held, left, rfl⟩

/-- The loop of `vfs_node_from_path` follows the words, by induction on them. -/
theorem followTokens_follow (tree : IsTree s.links s.vfsRoot kids) (named : Named s kids)
    (ws : List (List UInt8)) (here : s.Inside kids n)
    : ∃ enough, ∀ fuel, enough ≤ fuel → ∀ token i ap, Tokens ap token i ws
        → followTokens s.mem fuel n token i ap = some (s.follow kids n ws) := by
  have nonzero : slash ≠ 0 := by decide
  induction ws generalizing n with
  | nil =>
      refine ⟨1, fun fuel enough token i ap tokens => ?_⟩
      obtain ⟨fuel, rfl⟩ := Nat.exists_eq_add_of_le' enough
      obtain rfl : token = none := tokens
      rfl
  | cons word ws ih =>
      rw [follow_cons]
      cases stepped : s.child kids n word with
      | none =>
          refine ⟨(kids n).length + 1, fun fuel enough token i ap tokens => ?_⟩
          obtain ⟨fuel, rfl⟩ := Nat.exists_eq_add_of_le' (Nat.le_trans (Nat.le_add_left 1 _) enough)
          obtain ⟨q, t, rfl, held, -, -⟩ := tokens
          have search := vfsGetChildByName_child tree here named held (Nat.le_of_succ_le_succ enough)
          rw [followTokens, search, stepped]
          rfl
      | some c =>
          obtain ⟨enough, later⟩ := ih (child_inside tree here stepped)
          refine ⟨max enough (kids n).length + 1, fun fuel more token i ap tokens => ?_⟩
          obtain ⟨fuel, rfl⟩ := Nat.exists_eq_add_of_le' (Nat.le_trans (Nat.le_add_left 1 _) more)
          have bounds := max_le_iff.mp (Nat.le_of_succ_le_succ more)
          obtain ⟨q, t, rfl, held, left, rfl⟩ := tokens
          have search := vfsGetChildByName_child tree here named held bounds.2
          obtain ⟨token, i', ap', cut, tokens⟩ := tokens_cut (strtok_left nonzero left)
          rw [followTokens, search, stepped, Option.bind_eq_bind, Option.bind_some]
          dsimp only
          rw [cut, Option.bind_eq_bind, Option.bind_some]
          exact later fuel bounds.1 token i' ap' tokens

/-- `vfs_node_from_path` follows the words of a path of at most 255 characters. -/
theorem vfsNodeFromPath_tokens {buffer path : List UInt8} (held : Holds buffer path)
    (short : path.length ≤ 255) (s : VfsState α) (r : α) (kmalloc : Buffer256) (fuel : Nat)
    (i : Option Nat)
    : ∃ token i' ap, vfsNodeFromPath s.mem s.vfsRoot kmalloc fuel i r buffer
          = followTokens s.mem fuel (s.startOf r path) token i' ap
        ∧ Tokens ap token i' (words slash path) := by
  have nonzero : slash ≠ 0 := by decide
  obtain ⟨ap, copied, heldCopy, -⟩ :=
    strcpy_holds kmalloc.val held (by rw [kmalloc.property]; exact Nat.lt_succ_of_le short)
  have start : (some 0 : Option Nat).or i = some 0 := rfl
  obtain ⟨token, i', ap', cut, tokens⟩ := tokens_cut (strtok_next nonzero start heldCopy)
  have first : ∃ b, buffer[0]? = some b
      ∧ (if b = slash then s.vfsRoot else r) = s.startOf r path := by
    obtain ⟨-, rest, rfl⟩ := held
    cases path with
    | nil => exact ⟨0, rfl, rfl⟩
    | cons b path => exact ⟨b, rfl, by simp [startOf]⟩
  obtain ⟨b, atFirst, begins⟩ := first
  refine ⟨token, i', ap', ?_, tokens⟩
  rw [vfsNodeFromPath, copied, Option.bind_eq_bind, Option.bind_some, cut, Option.bind_eq_bind,
    Option.bind_some]
  dsimp only
  rw [atFirst, Option.bind_eq_bind, Option.bind_some, begins]

/-- A path of at most 255 characters resolves to the node that it leads to. -/
theorem resolves_lookup (tree : IsTree s.links s.vfsRoot kids) (named : Named s kids)
    (here : s.Inside kids r) {path : List UInt8} (short : path.length ≤ 255)
    : s.Resolves r path (s.lookup kids r path) := by
  obtain ⟨enough, follows⟩ :=
    followTokens_follow tree named (words slash path) (startOf_inside here path)
  refine ⟨enough, fun fuel more kmalloc i buffer held => ?_⟩
  obtain ⟨token, i', ap, called, tokens⟩ := vfsNodeFromPath_tokens held short s r kmalloc fuel i
  rw [called]
  exact follows fuel more token i' ap tokens

/-- A path resolves to one node only. -/
theorem Resolves.unique {path : List UInt8} {found found' : Option α} (nonzero : 0 ∉ path)
    (h : s.Resolves r path found) (h' : s.Resolves r path found')
    : found = found' := by
  obtain ⟨enough, returns⟩ := h
  obtain ⟨enough', returns'⟩ := h'
  have held := holds_append nonzero []
  have first := returns (max enough enough') (le_max_left ..) zeros none _ held
  have second := returns' (max enough enough') (le_max_right ..) zeros none _ held
  exact Option.some.inj (first.symm.trans second)

/-- A path behind another one and a slash resolves to null if the other one does, and otherwise to
what it resolves to from the node of the other one. `vfs_node_from_path` goes through the words of
a path, and the words of the whole path are those of its two parts.
-/
theorem resolves_append (tree : IsTree s.links s.vfsRoot kids) (named : Named s kids)
    (here : s.Inside kids r) {p q : List UInt8} (nonempty : p ≠ []) (relative : q.head? ≠ some slash)
    (short : (p ++ slash :: q).length ≤ 255)
    : ∃ found found', s.Resolves r p found ∧ s.Resolves r (p ++ slash :: q) found'
        ∧ (found = none → found' = none) ∧ ∀ n, found = some n → s.Resolves n q found' := by
  have sizes : p.length ≤ 255 ∧ q.length ≤ 255 := by
    rw [List.length_append, List.length_cons] at short
    omega
  have both := resolves_lookup tree named here short
  rw [lookup_append s kids r nonempty relative] at both
  refine ⟨_, _, resolves_lookup tree named here sizes.1, both, fun none => ?_, fun n isNode => ?_⟩
  · rw [none, Option.bind_none]
  · rw [isNode, Option.bind_some]
    exact resolves_lookup tree named (lookup_inside tree here isNode) sizes.2

/-- The directories `/` and `/h` with the file `/h/y`. -/
def homeState : VfsState (Fin 3) where
  node n :=
    { homeNodes n with
      prev := none
      file :=
        { type := if n = homeFile then vfsFile else vfsDir, permissions := 0, inode := 0, size := 0 } }
  vfsRoot := homeRoot
  tmpfsRoot := none
  devfsRoot := none

theorem isTree_homeState : IsTree homeState.links homeState.vfsRoot homeChilds where
  rootParent := rfl
  rootNext := rfl
  chain n _ :=
    (show ∀ n, Chain homeState.links.next (homeState.links.childs n) (homeChilds n) by decide) n
  parent n _ := (show ∀ n, ∀ c ∈ homeChilds n, homeState.links.parent c = some n by decide) n
  notRoot n _ := (show ∀ n, (0 : Fin 3) ∉ homeChilds n by decide) n
  finite := Set.toFinite _

theorem named_homeState : Named homeState homeChilds :=
  fun n _ => (show ∀ n, Holds (homeState.node n).name (homeState.nameOf n) by decide) n

/-- The path `./y` and the path `..` behind it, from `/h`. -/
theorem resolves_append_home
    : ∃ found found', homeState.Resolves 1 [dot, slash, 0x79] found
        ∧ homeState.Resolves 1 ([dot, slash, 0x79] ++ slash :: [dot, dot]) found'
        ∧ (found = none → found' = none)
        ∧ ∀ n, found = some n → homeState.Resolves n [dot, dot] found' :=
  resolves_append isTree_homeState named_homeState
    (below_of_mem (show (1 : Fin 3) ∈ homeChilds 0 from List.mem_singleton_self 1)) (by decide)
    (by decide) (by decide)

end Hydrangea.VfsState
