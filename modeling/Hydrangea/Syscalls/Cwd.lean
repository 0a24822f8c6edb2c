import Hydrangea.Fs.VfsAbsPaths

/-! The calls `getcwd` and `setcwd` of `kernel/syscalls/syscall.c`: what `getcwd` leaves in the
buffer of the task, and whether `setcwd` leads back with it. Names of nodes may be any strings
here.
-/

namespace Hydrangea

open CString Linked LinkedTree Vfs

namespace VfsState

variable {α : Type} {s : VfsState α} {kids : α → List α} {n : α} {path : List UInt8}

variable [DecidableEq α]

-----------------------------------------------------------------------------------------
-- The calls
-----------------------------------------------------------------------------------------

/-- `sys_getcwd` for a task with the directory `cwdNode`: the buffer, and what lies behind it,
afterwards.
-/
def sysGetcwd (s : VfsState α) (kmalloc : Nat → Buffer256) (fuel : Nat) (cwdNode : α)
    (buffer : List UInt8) (bufferSize : Nat) : Option (List UInt8) := do
  let cwd ← vfsAbsPathTo s.mem kmalloc fuel (some cwdNode)
  let cwd ← cwd
  let len ← strlen cwd
  let toCopy := if bufferSize < len then bufferSize else len
  return cwd.take toCopy ++ buffer.drop toCopy

omit [DecidableEq α] in
/-- `sys_setcwd` for a task with the directory `cwdNode`: its directory afterwards. -/
def sysSetcwd (s : VfsState α) (kmalloc : Buffer256) (fuel : Nat) (i : Option Nat) (cwdNode : α)
    (path : List UInt8) : Option α := do
  let node ← vfsNodeFromPath s.mem s.vfsRoot kmalloc fuel i cwdNode path
  return node.getD cwdNode

/-- `sys_getcwd` on a buffer returns and writes nothing behind it, and where the path and a zero
have room they are there, and `sys_setcwd` on the buffer leaves the directory as it is.
-/
def GetsCwd (s : VfsState α) (n : α) (path buffer behind : List UInt8) : Prop :=
  ∃ enough, ∀ fuel, enough ≤ fuel
    → ∀ (kmalloc : Nat → Buffer256) (ap : Buffer256) (i : Option Nat),
        ∃ buffer', s.sysGetcwd kmalloc fuel n (buffer ++ behind) buffer.length
            = some (buffer' ++ behind)
          ∧ buffer'.length = buffer.length
          ∧ (path.length < buffer.length
            → Holds buffer' path ∧ s.sysSetcwd ap fuel i n (buffer' ++ behind) = some n)

/-- `sys_getcwd` copies the path without the zero behind it, as far as it has room. -/
theorem sysGetcwd_returns (tree : IsTree s.links s.vfsRoot kids) (named : Named s kids)
    (abs : AbsolutePath s kids n path) (short : path.length ≤ 255)
    : ∃ enough, ∀ fuel, enough ≤ fuel → ∀ (kmalloc : Nat → Buffer256) (buffer behind : List UInt8),
        s.sysGetcwd kmalloc fuel n (buffer ++ behind) buffer.length
          = some (path.take buffer.length ++ buffer.drop path.length ++ behind) := by
  obtain ⟨enough, prints⟩ := vfsAbsPathTo_returns tree named abs short
  refine ⟨enough, fun fuel more kmalloc buffer behind => ?_⟩
  obtain ⟨cwd, printed, held⟩ := prints fuel more kmalloc
  have length := strlen_eq held
  obtain ⟨-, rest, rfl⟩ := held
  simp only [sysGetcwd, printed, length, Option.bind_eq_bind, Option.bind_some]
  by_cases cut : buffer.length < path.length
  · rw [if_pos cut, List.take_append_of_le_length (Nat.le_of_lt cut), List.drop_left,
      List.drop_eq_nil_of_le (Nat.le_of_lt cut), List.append_nil]
    rfl
  · have room : path.length ≤ buffer.length := Nat.le_of_not_lt cut
    rw [if_neg cut, List.take_left, List.take_of_length_le room,
      List.drop_append_of_le_length room, List.append_assoc]
    rfl

omit [DecidableEq α] in
/-- `sys_setcwd` keeps the directory if the path leads nowhere or to it. -/
theorem sysSetcwd_returns (tree : IsTree s.links s.vfsRoot kids) (named : Named s kids)
    (here : s.Inside kids n) (short : path.length ≤ 255)
    : ∃ enough, ∀ fuel, enough ≤ fuel → ∀ (ap : Buffer256) (i : Option Nat) (buffer : List UInt8),
        Holds buffer path
          → s.sysSetcwd ap fuel i n buffer = some ((s.lookup kids n path).getD n) := by
  obtain ⟨enough, resolves⟩ := resolves_lookup tree named here short
  refine ⟨enough, fun fuel more ap i buffer held => ?_⟩
  rw [sysSetcwd, resolves fuel more ap i buffer held]
  rfl

/-- A zero behind the path is one that was in the buffer before. -/
theorem holds_copied {path buffer : List UInt8} (nonzero : 0 ∉ path)
    (room : path.length < buffer.length)
    : Holds (path.take buffer.length ++ buffer.drop path.length) path
      ↔ buffer[path.length]? = some 0 := by
  rw [List.take_of_length_le (Nat.le_of_lt room), ← List.head?_drop]
  constructor
  · rintro ⟨-, rest, same⟩
    rw [List.append_cancel_left same, List.head?_cons]
  · intro zero
    obtain ⟨rest, behind⟩ := List.head?_eq_some_iff.mp zero
    rw [behind]
    exact holds_append nonzero rest

/-- Where the calls do so, the path has at most 255 characters, and if it has room with a zero, the
buffer has a zero there already and the path leads to no other node.
-/
theorem GetsCwd.conditions {buffer behind : List UInt8} (gets : s.GetsCwd n path buffer behind)
    (tree : IsTree s.links s.vfsRoot kids) (named : Named s kids) (abs : AbsolutePath s kids n path)
    : path.length ≤ 255
      ∧ (path.length < buffer.length
        → buffer[path.length]? = some 0 ∧ ∀ m, s.lookup kids n path = some m → m = n) := by
  obtain ⟨enough, gets⟩ := gets
  have short : path.length ≤ 255 := by
    obtain ⟨buffer', got, -⟩ := gets enough le_rfl (fun _ => zeros) zeros none
    obtain ⟨cwd, printed, -⟩ := Option.bind_eq_some_iff.mp got
    exact vfsAbsPathTo_some tree named abs printed
  refine ⟨short, fun room => ?_⟩
  obtain ⟨enough₁, copies⟩ := sysGetcwd_returns tree named abs short
  obtain ⟨enough₂, sets⟩ := sysSetcwd_returns tree named abs.inside short
  obtain ⟨buffer', got, -, back⟩ :=
    gets (max enough (max enough₁ enough₂)) (by omega) (fun _ => zeros) zeros none
  have copied := copies (max enough (max enough₁ enough₂)) (by omega) (fun _ => zeros) buffer behind
  obtain rfl := List.append_cancel_right (Option.some.inj (got.symm.trans copied))
  obtain ⟨held, kept⟩ := back room
  have set := sets (max enough (max enough₁ enough₂)) (by omega) zeros none _ (held.append behind)
  have same := Option.some.inj (kept.symm.trans set)
  refine ⟨(holds_copied held.1 room).mp held, fun m leads => ?_⟩
  rw [leads] at same
  exact same.symm

/-- Under these conditions the calls do so. -/
theorem getsCwd_of_conditions (tree : IsTree s.links s.vfsRoot kids) (named : Named s kids)
    (abs : AbsolutePath s kids n path) (buffer behind : List UInt8) (short : path.length ≤ 255)
    (terminated : path.length < buffer.length
      → buffer[path.length]? = some 0 ∧ ∀ m, s.lookup kids n path = some m → m = n)
    : s.GetsCwd n path buffer behind := by
  obtain ⟨enough₁, copies⟩ := sysGetcwd_returns tree named abs short
  obtain ⟨enough₂, sets⟩ := sysSetcwd_returns tree named abs.inside short
  refine ⟨max enough₁ enough₂, fun fuel more kmalloc ap i => ?_⟩
  refine ⟨_, copies fuel (by omega) kmalloc buffer behind, ?_, fun room => ?_⟩
  · simp only [List.length_append, List.length_take, List.length_drop]
    omega
  · obtain ⟨zero, leads⟩ := terminated room
    have held := (holds_copied (abs.nonzero named) room).mpr zero
    refine ⟨held, ?_⟩
    rw [sets fuel (by omega) ap i _ (held.append behind)]
    cases found : s.lookup kids n path with
    | none => rfl
    | some m => rw [leads m found]; rfl

/-- The calls do so exactly if the path has at most 255 characters and, where it has room with a
zero, the buffer has a zero there already and the path leads to no other node. `memcpy` leaves out
the zero behind the path, so the buffer must have one there. Names are any strings here, so the
path need not lead back.
-/
theorem getsCwd_iff (tree : IsTree s.links s.vfsRoot kids) (named : Named s kids)
    (abs : AbsolutePath s kids n path) (buffer behind : List UInt8)
    : s.GetsCwd n path buffer behind
      ↔ path.length ≤ 255
        ∧ (path.length < buffer.length
          → buffer[path.length]? = some 0 ∧ ∀ m, s.lookup kids n path = some m → m = n) :=
  ⟨fun gets => gets.conditions tree named abs,
    fun conditions => getsCwd_of_conditions tree named abs buffer behind conditions.1 conditions.2⟩

theorem absolutePath_home : AbsolutePath homeState homeChilds 1 [slash, 0x68] :=
  .child .root (show (1 : Fin 3) ∈ homeChilds 0 from List.mem_singleton_self 1)

/-- There, with a buffer of three zeros. -/
theorem getsCwd_home
    : homeState.GetsCwd 1 [slash, 0x68] [0, 0, 0] []
      ↔ [slash, 0x68].length ≤ 255
        ∧ ([slash, 0x68].length < [(0 : UInt8), 0, 0].length
          → [(0 : UInt8), 0, 0][[slash, 0x68].length]? = some 0
            ∧ ∀ m, homeState.lookup homeChilds 1 [slash, 0x68] = some m → m = 1) :=
  getsCwd_iff isTree_homeState named_homeState absolutePath_home [0, 0, 0] []

/-- With a buffer of other bytes, there is no zero behind the path. -/
theorem not_getsCwd_home : ¬ homeState.GetsCwd 1 [slash, 0x68] [1, 1, 1] [] := by
  intro gets
  obtain ⟨-, terminated⟩ := gets.conditions isTree_homeState named_homeState absolutePath_home
  exact absurd (terminated (by decide)).1 (by decide)

-----------------------------------------------------------------------------------------
-- Names without slashes
-----------------------------------------------------------------------------------------

/-- The root is `/`, and the names of the other nodes are file names, different among siblings. -/
structure ProperNames (s : VfsState α) (kids : α → List α) : Prop where
  rootName : s.nameOf s.vfsRoot = [slash]
  isName : ∀ n, s.Inside kids n → ∀ c ∈ kids n, IsName (s.nameOf c)
  distinct : ∀ n, s.Inside kids n → ∀ c ∈ kids n, ∀ c' ∈ kids n, s.nameOf c = s.nameOf c' → c = c'

omit [DecidableEq α] in
/-- What the components of a path lead to lies in the subtree, by induction on them. -/
theorem below_of_leads {p m : α} {names : List (List UInt8)} (leads : Leads kids s.nameOf p names m)
    : Below kids p m := by
  induction leads with
  | stop n => exact .refl
  | down member _ ih => exact (below_of_mem member).trans ih

omit [DecidableEq α] in
def ProperNames.vfsTree (proper : s.ProperNames kids) (tree : IsTree s.links s.vfsRoot kids)
    (named : Named s kids) : VfsTree s.mem s.vfsRoot where
  childs := kids
  name := s.nameOf
  rootName := proper.rootName
  rootParent := tree.rootParent
  holds leads := named _ (below_of_leads leads)
  chain leads := tree.chain _ (below_of_leads leads)
  parent leads := tree.parent _ (below_of_leads leads)
  isName leads := proper.isName _ (below_of_leads leads)
  distinct leads := proper.distinct _ (below_of_leads leads)

omit [DecidableEq α] in
/-- The absolute path of a node with proper names has its components, by induction on the way down.
-/
theorem AbsolutePath.leads (abs : AbsolutePath s kids n path) (proper : s.ProperNames kids)
    : ∃ names, Leads kids s.nameOf s.vfsRoot names n ∧ path = absPath names := by
  induction abs with
  | root => exact ⟨[], .stop _, proper.rootName⟩
  | @child p c path above member ih =>
      obtain ⟨names, leads, rfl⟩ := ih
      refine ⟨names ++ [s.nameOf c], leads.snoc member, ?_⟩
      have separator : (if s.nameOf p = [slash] then [] else [slash])
          = if names = [] then [] else [slash] := by
        rcases leads.last with ⟨rfl, rfl⟩ | ⟨front, m, leads', child, rfl⟩
        · rw [if_pos proper.rootName, if_pos rfl]
        · have noSlash := (proper.isName m (below_of_leads leads') p child).noSlash
          have notRoot : s.nameOf p ≠ [slash] := by
            intro same
            rw [same] at noSlash
            exact noSlash (List.mem_singleton_self slash)
          rw [if_neg notRoot, if_neg (by simp)]
      rw [absPath_snoc, separator, List.append_assoc]

omit [DecidableEq α] in
/-- With proper names, the absolute path of a node leads to the node. -/
theorem lookup_absolutePath (proper : s.ProperNames kids) (tree : IsTree s.links s.vfsRoot kids)
    (named : Named s kids) (abs : AbsolutePath s kids n path) (short : path.length ≤ 255)
    : s.lookup kids n path = some n := by
  obtain ⟨enough, resolves⟩ := resolves_lookup tree named abs.inside short
  obtain ⟨names, leads, rfl⟩ := abs.leads proper
  obtain ⟨enough', returns⟩ :=
    vfsNodeFromPath_eq (proper.vfsTree tree named) leads (by omega) zeros
  have held := holds_append (abs.nonzero named) []
  have resolved := resolves (max enough enough') (le_max_left ..) zeros none _ held
  have returned := returns (max enough enough') (le_max_right ..) _ held none n
  exact Option.some.inj (resolved.symm.trans returned)

/-- With proper names the calls do so exactly if the path has at most 255 characters and, where it
has room with a zero, the buffer has a zero there already.
-/
theorem ProperNames.getsCwd_iff_zero (proper : s.ProperNames kids)
    (tree : IsTree s.links s.vfsRoot kids) (named : Named s kids) (abs : AbsolutePath s kids n path)
    (buffer behind : List UInt8)
    : s.GetsCwd n path buffer behind
      ↔ path.length ≤ 255 ∧ (path.length < buffer.length → buffer[path.length]? = some 0) := by
  constructor
  · intro gets
    obtain ⟨short, terminated⟩ := gets.conditions tree named abs
    exact ⟨short, fun room => (terminated room).1⟩
  · rintro ⟨short, zero⟩
    refine getsCwd_of_conditions tree named abs buffer behind short (fun room => ⟨zero room, ?_⟩)
    intro m leads
    rw [lookup_absolutePath proper tree named abs short] at leads
    exact (Option.some.inj leads).symm

end VfsState

end Hydrangea
