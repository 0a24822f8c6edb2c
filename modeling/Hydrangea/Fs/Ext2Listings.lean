import Hydrangea.Fs.Ext2Dirs
import Hydrangea.Lib.CString

/-! Which directories are listed as the ext2 format has them. -/

namespace Hydrangea

open CString

namespace Ext2Fs

-----------------------------------------------------------------------------------------
-- There is one listing
-----------------------------------------------------------------------------------------

section Unique

variable {fs : Ext2Fs} {inodeNumber k p : Nat} {bytes : List UInt8} {es es' : List DirEntry}
  {unused unused' : Bool}

/-- A block is walked in one way, by induction on its entries. -/
theorem Walk.unique (h : Walk bytes p es unused) (h' : Walk bytes p es' unused')
    : es' = es ∧ unused' = unused := by
  induction h generalizing es' with
  | unused inside zero =>
      cases h' with
      | unused => exact ⟨rfl, rfl⟩
      | finish behind => exact absurd inside (Nat.not_lt.mpr behind)
      | entry _ here used _ =>
          rw [fieldAt_of_entryAt here] at zero
          exact absurd (Option.some.inj zero) used
  | finish behind =>
      cases h' with
      | unused inside _ => exact absurd inside (Nat.not_lt.mpr behind)
      | finish => exact ⟨rfl, rfl⟩
      | entry inside _ _ _ => exact absurd inside (Nat.not_lt.mpr behind)
  | entry inside here used _ ih =>
      cases h' with
      | unused _ zero =>
          rw [fieldAt_of_entryAt here] at zero
          exact absurd (Option.some.inj zero) used
      | finish behind => exact absurd inside (Nat.not_lt.mpr behind)
      | entry _ here' _ rest' =>
          obtain rfl := Option.some.inj (here.symm.trans here')
          obtain ⟨rfl, rfl⟩ := ih rest'
          exact ⟨rfl, rfl⟩

/-- Blocks are listed in one way, by induction on them. -/
theorem Blocks.unique (h : Blocks fs inodeNumber k es) (h' : Blocks fs inodeNumber k es')
    : es' = es := by
  induction h generalizing es' with
  | missing none =>
      cases h' with
      | missing => rfl
      | unused block _ => exact absurd none block
      | finish block _ _ => exact absurd none block
  | unused block walk =>
      cases h' with
      | missing none => exact absurd none block
      | unused _ walk' => exact (walk.unique walk').1
      | finish _ walk' _ => cases (walk.unique walk').2
  | finish block walk _ ih =>
      cases h' with
      | missing none => exact absurd none block
      | unused _ walk' => cases (walk.unique walk').2
      | finish _ walk' rest' =>
          obtain ⟨rfl, -⟩ := walk.unique walk'
          rw [ih rest']

theorem From.unique (h : fs.From inodeNumber k bytes p es) (h' : fs.From inodeNumber k bytes p es')
    : es' = es := by
  rcases h with walk | ⟨front, behind, walk, blocks, rfl⟩
  · rcases h' with walk' | ⟨_, _, walk', _, rfl⟩
    · exact (walk.unique walk').1
    · cases (walk.unique walk').2
  · rcases h' with walk' | ⟨front', behind', walk', blocks', rfl⟩
    · cases (walk.unique walk').2
    · obtain ⟨rfl, -⟩ := walk.unique walk'
      rw [blocks.unique blocks']

end Unique

-----------------------------------------------------------------------------------------
-- Directories as the format has them
-----------------------------------------------------------------------------------------

/-- A block with the slots from a position on: their lengths are multiples of 4 and fill the block.
-/
def BlockHolds (bytes : List UInt8) : (position : Nat) → List DirEntry → Prop
  | p, [] => p = bytes.length
  | p, e :: es =>
      entryAt bytes p = some e ∧ 8 + e.name.length ≤ e.entrySize ∧ e.entrySize % 4 = 0
        ∧ BlockHolds bytes (p + e.entrySize) es

def storedBlock (fs : Ext2Fs) (block : Nat) : List UInt8 :=
  (List.range fs.ext2.blockSize).map
    (fun i => fs.drv (fs.pOffset + block * fs.ext2.blockSize + i))

/-- An inode is a directory with the slots of each of its direct blocks. A slot with inode number 0
is unused.
-/
structure IsDirectory (fs : Ext2Fs) (inodeNumber : Nat) (blocks : List (List DirEntry)) : Prop where
  wellFormed : fs.WellFormed
  type : (fs.storedInode inodeNumber).typePermissions &&& 0xF000 = ext2InodeTypeDir
  size : (fs.storedInode inodeNumber).size = blocks.length * fs.ext2.blockSize
  nonempty : blocks ≠ []
  direct : blocks.length ≤ 12
  holds : ∀ k, ∀ slots ∈ blocks[k]?, (fs.storedInode inodeNumber).directBlockPointer k ≠ 0
    ∧ BlockHolds (fs.storedBlock ((fs.storedInode inodeNumber).directBlockPointer k)) 0 slots
  others : ∀ k, blocks.length ≤ k → k < 12
    → (fs.storedInode inodeNumber).directBlockPointer k = 0
  indirect : (fs.storedInode inodeNumber).singlyIndirectBlockPointer = 0
    ∧ (fs.storedInode inodeNumber).doublyIndirectBlockPointer = 0
    ∧ (fs.storedInode inodeNumber).triplyIndirectBlockPointer = 0
  names : ∀ e ∈ blocks.flatten, e.inodeNumber ≠ 0 → e.name ≠ [] ∧ 0 ∉ e.name

def used (slots : List DirEntry) : List DirEntry :=
  slots.filter (·.inodeNumber ≠ 0)

/-- The name, inode number and type of an entry. -/
structure Shows (ent : Dirent) (e : DirEntry) : Prop where
  inodeNumber : ent.inodeNumber = e.inodeNumber
  type : ent.type = e.type
  name : Holds ent.name e.name

/-- `ext2_opendir`, which gets the given block for its `DIR`, and `ext2_readdir` until it returns
null list the entries in use.
-/
def Lists (fs : Ext2Fs) (inodeNumber : Nat) (block : Ext2Dir) (slots : List DirEntry) : Prop :=
  ∃ dir fuel ents, fs.opendir inodeNumber block = some (some dir)
    ∧ fs.readAll fuel dir = some ents ∧ List.Forall₂ Shows ents (used slots)

/-- An entry that is listed as another one. -/
structure Same (e e' : DirEntry) : Prop where
  inodeNumber : e.inodeNumber = e'.inodeNumber
  type : e.type = e'.type
  name : Holds (e.name ++ [0]) e'.name

/-- The block with an index is missing, or begins with an unused slot. -/
def EndsAt (fs : Ext2Fs) (inodeNumber k : Nat) : Prop :=
  fs.getBlockOffset inodeNumber k = 0 ∨ fieldAt (fs.blockAt inodeNumber k) 0 4 = some 0

/-- The block that `ext2_opendir` reads has all of the entries in use: up to an unused slot, or
else up to its end, and then no index leads to a block with further entries.
-/
def FirstHasAll (fs : Ext2Fs) (inodeNumber : Nat) (slots : List DirEntry) : Prop :=
  (fs.getInode inodeNumber).typePermissions &&& ext2InodeTypeDir ≠ 0
    ∧ ∃ es, List.Forall₂ Same es (used slots)
      ∧ (Walk (fs.firstBlock inodeNumber) 0 es true
        ∨ Walk (fs.firstBlock inodeNumber) 0 es false ∧ ∀ k < 2 ^ 32, fs.EndsAt inodeNumber k)

/-- The inode table and the blocks of the directory lie in the first 4 GiB of the partition. -/
def DirBelow (fs : Ext2Fs) (inodeNumber : Nat) (blocks : List (List DirEntry)) : Prop :=
  fs.TableBelow inodeNumber ∧ ∀ k < blocks.length,
    (fs.storedInode inodeNumber).directBlockPointer k * fs.ext2.blockSize < 2 ^ 32

/-- No slot in use is behind an unused one, and there is an unused one or the listing ends behind
the last block.
-/
def Packed (fs : Ext2Fs) (inodeNumber : Nat) (blocks : List (List DirEntry)) : Prop :=
  blocks.flatten.Pairwise (fun e e' => e.inodeNumber = 0 → e'.inodeNumber = 0)
    ∧ ((∃ e ∈ blocks.flatten, e.inodeNumber = 0) ∨ fs.EndsAt inodeNumber blocks.length)

variable {fs : Ext2Fs} {inodeNumber k p : Nat} {bytes : List UInt8} {e : DirEntry}
  {es slots : List DirEntry} {blocks : List (List DirEntry)} {block : Ext2Dir}

/-- What is copied from an entry shows another one if the two are listed the same. -/
theorem Copied.shows_iff {ent : Dirent} {e' : DirEntry} (h : Copied fs ent e)
    : Shows ent e' ↔ Same e e' := by
  obtain ⟨junk, name⟩ := h.name
  have sameName : Holds ent.name e'.name ↔ Holds (e.name ++ [0]) e'.name := by
    rw [name]
    exact holds_zero_iff junk []
  constructor
  · intro shows
    exact ⟨h.inodeNumber.symm.trans shows.inodeNumber, h.type.symm.trans shows.type,
      sameName.mp shows.name⟩
  · intro same
    exact ⟨h.inodeNumber.trans same.inodeNumber, h.type.trans same.type, sameName.mpr same.name⟩

/-- Entries that are copied show others if and only if they are listed the same, by induction on
them.
-/
theorem forall_shows_iff {ents : List Dirent} (all : List.Forall₂ (Copied fs) ents es)
    : List.Forall₂ Shows ents slots ↔ List.Forall₂ Same es slots := by
  induction all generalizing slots with
  | nil => cases slots <;> simp
  | cons copied _ ih =>
      cases slots with
      | nil => simp
      | cons e' slots => rw [List.forall₂_cons, List.forall₂_cons, copied.shows_iff, ih]

/-- The entries in use are listed if and only if the listing is the same as they are. -/
theorem lists_iff (size : ¬ fs.ext2.inodeSize < sizeofExt2Inode)
    : fs.Lists inodeNumber block slots
      ↔ (fs.getInode inodeNumber).typePermissions &&& ext2InodeTypeDir ≠ 0
        ∧ ∃ es, fs.Listing inodeNumber block.bpIndex es ∧ List.Forall₂ Same es (used slots) := by
  constructor
  · rintro ⟨dir, fuel, ents, opened, read, shown⟩
    have start := opendir_eq_some opened
    obtain ⟨es, listed, all⟩ := start.from_readAll read
    refine ⟨?_, es, listed, (forall_shows_iff all).mp shown⟩
    intro notDir
    rw [opendir, if_neg size] at opened
    cases Option.some.inj (opened.symm.trans (if_pos notDir))
  · rintro ⟨isDir, es, listed, same⟩
    have opened : ∃ dir, fs.opendir inodeNumber block = some (some dir) := by
      rw [opendir, if_neg size]
      exact ⟨_, if_neg isDir⟩
    obtain ⟨dir, opened⟩ := opened
    obtain ⟨fuel, ents, read, all⟩ := (opendir_eq_some opened).readAll_from listed
    exact ⟨dir, fuel, ents, opened, read, (forall_shows_iff all).mpr same⟩

-----------------------------------------------------------------------------------------
-- Whatever the block for the directory holds
-----------------------------------------------------------------------------------------

/-- A block for a `DIR` that holds an index. -/
def junkDir (bpIndex : Nat) : Ext2Dir where
  inodeNumber := 0
  blockBuffer := []
  bpIndex
  soFar := 0
  next := 0
  ent := { inodeNumber := 0, size := 0, type := 0, permissions := 0, name := [] }

theorem getBlockOffset_max (small : fs.ext2.blockSize < 2 ^ 32)
    : fs.getBlockOffset inodeNumber (2 ^ 32 - 1) = 0 := by
  have bound (n : Nat) : ¬ 2 ^ 32 - 1 < n % 2 ^ 32 := by
    have := Nat.mod_lt n (Nat.two_pow_pos 32)
    omega
  rw [getBlockOffset, if_neg (by decide), if_neg (by omega), if_neg (bound _), if_neg (bound _)]

/-- From an index on nothing is listed if and only if the listing ends there. -/
theorem blocks_nil_iff (positive : 0 < fs.ext2.blockSize)
    : fs.Blocks inodeNumber k [] ↔ fs.EndsAt inodeNumber k := by
  constructor
  · intro blocks
    generalize nothing : ([] : List DirEntry) = es at blocks
    cases blocks with
    | missing none => exact .inl none
    | unused _ walk =>
        subst nothing
        cases walk with
        | unused _ zero => exact .inr zero
    | finish _ walk _ =>
        obtain ⟨rfl, -⟩ := List.append_eq_nil_iff.mp nothing.symm
        cases walk with
        | finish behind =>
            rw [length_blockAt] at behind
            exact absurd positive (Nat.not_lt.mpr behind)
  · intro ends
    by_cases missing : fs.getBlockOffset inodeNumber k = 0
    · exact .missing missing
    · refine .unused missing (.unused ?_ (ends.resolve_left missing))
      rwa [length_blockAt]

/-- A directory is listed right whatever the block for its `DIR` holds if and only if its first
block has all of the entries in use.
-/
theorem lists_always_iff (wellFormed : fs.WellFormed)
    : (∀ block : Ext2Dir, block.bpIndex < 2 ^ 32 → fs.Lists inodeNumber block slots)
      ↔ fs.FirstHasAll inodeNumber slots := by
  have inodeSize : ¬ fs.ext2.inodeSize < sizeofExt2Inode := Nat.not_lt.mpr wellFormed.inodeSize
  have blockSize := wellFormed.blockSize
  have positive : 0 < fs.ext2.blockSize := by omega
  have small : fs.ext2.blockSize < 2 ^ 32 := by omega
  simp only [lists_iff inodeSize]
  constructor
  · intro always
    -- first with an index behind which there is no block
    obtain ⟨isDir, es, listed, same⟩ := always (junkDir (2 ^ 32 - 2)) (by decide)
    refine ⟨isDir, ?_⟩
    rcases listed with walk | ⟨front, behind, walk, blocks, rfl⟩
    · exact ⟨es, same, .inl walk⟩
    · have none : fs.Blocks inodeNumber (2 ^ 32 - 1) [] := .missing (getBlockOffset_max small)
      obtain rfl := blocks.unique none
      rw [List.append_nil] at same
      refine ⟨front, same, .inr ⟨walk, fun k index => ?_⟩⟩
      -- then with one behind which there is the block `k`
      have follows : ((k + (2 ^ 32 - 1)) % 2 ^ 32 + 1) % 2 ^ 32 = k := by omega
      obtain ⟨-, es', listed', same'⟩ := always (junkDir ((k + (2 ^ 32 - 1)) % 2 ^ 32))
        (Nat.mod_lt _ (Nat.two_pow_pos 32))
      rcases listed' with walk' | ⟨front', behind', walk', blocks', rfl⟩
      · cases (walk.unique walk').2
      · obtain ⟨rfl, -⟩ := walk.unique walk'
        have all := same'.length_eq.trans same.length_eq.symm
        rw [List.length_append, Nat.add_eq_left] at all
        obtain rfl := List.length_eq_zero_iff.mp all
        replace blocks' : fs.Blocks inodeNumber
          (((k + (2 ^ 32 - 1)) % 2 ^ 32 + 1) % 2 ^ 32) [] := blocks'
        rw [follows] at blocks'
        exact (blocks_nil_iff positive).mp blocks'
  · rintro ⟨isDir, es, same, walk | ⟨walk, ends⟩⟩ block -
    · exact ⟨isDir, es, .inl walk, same⟩
    · refine ⟨isDir, es, .inr ⟨es, [], walk, ?_, (List.append_nil es).symm⟩, same⟩
      exact (blocks_nil_iff positive).mpr (ends _ (Nat.mod_lt _ (Nat.two_pow_pos 32)))

-----------------------------------------------------------------------------------------
-- With an index of zero
-----------------------------------------------------------------------------------------

/-- Slots in use are walked to the end of their block, by induction on them. -/
theorem BlockHolds.walk (h : BlockHolds bytes p slots) (inUse : ∀ e ∈ slots, e.inodeNumber ≠ 0)
    : Walk bytes p slots false := by
  induction slots generalizing p with
  | nil => exact .finish (Nat.le_of_eq h.symm)
  | cons e slots ih =>
      obtain ⟨here, -, -, rest⟩ := h
      obtain ⟨first, others⟩ := List.forall_mem_cons.mp inUse
      obtain ⟨fits, -⟩ := Option.ite_none_right_eq_some.mp here
      exact .entry (by omega) here first (ih rest others)

/-- They are walked up to an unused slot, by induction on them. -/
theorem BlockHolds.walk_unused {behind : List DirEntry}
    (h : BlockHolds bytes p (slots ++ e :: behind)) (inUse : ∀ e ∈ slots, e.inodeNumber ≠ 0)
    (unused : e.inodeNumber = 0)
    : Walk bytes p slots true := by
  induction slots generalizing p with
  | nil =>
      obtain ⟨here, -, -, -⟩ := h
      obtain ⟨fits, -⟩ := Option.ite_none_right_eq_some.mp here
      refine .unused (by omega) ?_
      rw [fieldAt_of_entryAt here, unused]
  | cons e' slots ih =>
      obtain ⟨here, -, -, rest⟩ := h
      obtain ⟨first, others⟩ := List.forall_mem_cons.mp inUse
      obtain ⟨fits, -⟩ := Option.ite_none_right_eq_some.mp here
      exact .entry (by omega) here first (ih rest others)

/-- A directory has the flag that `ext2_opendir` tests. -/
theorem IsDirectory.flag (dir : fs.IsDirectory inodeNumber blocks) (below : fs.TableBelow inodeNumber)
    : (fs.getInode inodeNumber).typePermissions &&& ext2InodeTypeDir ≠ 0 := by
  have flag := congrArg (· &&& ext2InodeTypeDir) dir.type
  rw [Nat.and_assoc] at flag
  rw [below.getInode_eq]
  intro none
  exact absurd (flag.symm.trans none) (by decide)

theorem DirBelow.getBlockOffset_eq (below : fs.DirBelow inodeNumber blocks) (index : k < blocks.length)
    (direct : blocks.length ≤ 12)
    : fs.getBlockOffset inodeNumber k
      = (fs.storedInode inodeNumber).directBlockPointer k * fs.ext2.blockSize := by
  rw [getBlockOffset, if_pos (Nat.lt_of_lt_of_le index direct), below.1.getInode_eq,
    Nat.mod_eq_of_lt (below.2 k index)]

theorem IsDirectory.blockAt (dir : fs.IsDirectory inodeNumber blocks)
    (below : fs.DirBelow inodeNumber blocks) (here : blocks[k]? = some slots)
    : fs.getBlockOffset inodeNumber k ≠ 0 ∧ BlockHolds (Ext2Fs.blockAt fs inodeNumber k) 0 slots := by
  obtain ⟨index, -⟩ := List.getElem?_eq_some_iff.mp here
  obtain ⟨pointer, holds⟩ := dir.holds k slots here
  have blockSize := dir.wellFormed.blockSize
  have offset := below.getBlockOffset_eq index dir.direct
  constructor
  · rw [offset]
    exact Nat.mul_ne_zero pointer (by omega)
  · rw [Ext2Fs.blockAt, offset, ataReadB_eq]
    exact holds

/-- `ext2_opendir` reads the first of the blocks. -/
theorem DirBelow.firstBlock_eq (below : fs.DirBelow inodeNumber blocks) (nonempty : blocks ≠ [])
    (direct : blocks.length ≤ 12)
    : fs.firstBlock inodeNumber = fs.blockAt inodeNumber 0 := by
  have index := List.length_pos_iff.mpr nonempty
  rw [firstBlock, blockAt, below.getBlockOffset_eq index direct, below.1.getInode_eq,
    Nat.mod_eq_of_lt (below.2 0 index)]

/-- Blocks whose slots are in use are listed, and what is behind them, by induction on them. -/
theorem IsDirectory.blocks_iff (dir : fs.IsDirectory inodeNumber blocks)
    (below : fs.DirBelow inodeNumber blocks) {front tail : List (List DirEntry)}
    (split : blocks = front ++ tail) (inUse : ∀ e ∈ tail.flatten, e.inodeNumber ≠ 0)
    : fs.Blocks inodeNumber front.length es
      ↔ ∃ rest, es = tail.flatten ++ rest ∧ fs.Blocks inodeNumber blocks.length rest := by
  induction tail generalizing front es with
  | nil =>
      rw [List.append_nil] at split
      subst split
      simp
  | cons slots tail ih =>
      have here : blocks[front.length]? = some slots := by
        rw [split, List.getElem?_append_right (Nat.le_refl _), Nat.sub_self]
        rfl
      have next : (front.length + 1) % 2 ^ 32 = (front ++ [slots]).length := by
        have direct := dir.direct
        rw [split, List.length_append, List.length_cons] at direct
        rw [List.length_append, List.length_singleton]
        omega
      have split' : blocks = (front ++ [slots]) ++ tail := by
        rw [split, List.append_assoc]
        rfl
      rw [List.flatten_cons] at inUse ⊢
      obtain ⟨block, holds⟩ := dir.blockAt below here
      have walk := holds.walk (fun e member => inUse e (List.mem_append_left _ member))
      have further (es : List DirEntry) := @ih es (front ++ [slots]) split'
        (fun e member => inUse e (List.mem_append_right _ member))
      constructor
      · intro listed
        cases listed with
        | missing none => exact absurd none block
        | unused _ walk' => cases (walk.unique walk').2
        | finish _ walk' later =>
            obtain ⟨rfl, -⟩ := walk.unique walk'
            rw [next] at later
            obtain ⟨rest, rfl, last⟩ := (further _).mp later
            exact ⟨rest, (List.append_assoc ..).symm, last⟩
      · rintro ⟨rest, rfl, last⟩
        rw [List.append_assoc]
        refine .finish block walk ?_
        rw [next]
        exact (further _).mpr ⟨rest, rfl, last⟩

/-- Blocks are listed up to the first unused slot, by induction on them. -/
theorem IsDirectory.blocks_unused (dir : fs.IsDirectory inodeNumber blocks)
    (below : fs.DirBelow inodeNumber blocks) {front tail : List (List DirEntry)}
    {behind : List DirEntry} (split : blocks = front ++ tail)
    (found : tail.flatten = slots ++ e :: behind) (inUse : ∀ e ∈ slots, e.inodeNumber ≠ 0)
    (unused : e.inodeNumber = 0)
    : fs.Blocks inodeNumber front.length slots := by
  induction tail generalizing front slots with
  | nil => simp at found
  | cons first tail ih =>
      have here : blocks[front.length]? = some first := by
        rw [split, List.getElem?_append_right (Nat.le_refl _), Nat.sub_self]
        rfl
      obtain ⟨block, holds⟩ := dir.blockAt below here
      rw [List.flatten_cons] at found
      have place : (∃ later, slots = first ++ later ∧ tail.flatten = later ++ e :: behind)
          ∨ ∃ others, first = slots ++ e :: others := by
        rcases List.append_eq_append_iff.mp found with ⟨later, split, rest⟩ | ⟨others, split, rest⟩
        · exact .inl ⟨later, split, rest⟩
        · cases others with
          | nil =>
              rw [List.append_nil] at split
              exact .inl ⟨[], by rw [split, List.append_nil], rest.symm⟩
          | cons x others =>
              obtain ⟨rfl, -⟩ := List.cons.inj rest
              exact .inr ⟨others, split⟩
      rcases place with ⟨later, rfl, found'⟩ | ⟨others, rfl⟩
      · have next : (front.length + 1) % 2 ^ 32 = (front ++ [first]).length := by
          have direct := dir.direct
          rw [split, List.length_append, List.length_cons] at direct
          rw [List.length_append, List.length_singleton]
          omega
        have split' : blocks = (front ++ [first]) ++ tail := by
          rw [split, List.append_assoc]
          rfl
        have walk := holds.walk (fun e member => inUse e (List.mem_append_left _ member))
        refine .finish block walk ?_
        rw [next]
        exact ih split' found' (fun e member => inUse e (List.mem_append_right _ member))
      · exact .unused block (holds.walk_unused inUse unused)

/-- With an index of zero a directory lists its blocks from the first one on. -/
theorem IsDirectory.listing_iff (dir : fs.IsDirectory inodeNumber blocks)
    (below : fs.DirBelow inodeNumber blocks)
    : fs.Listing inodeNumber 0 es ↔ fs.Blocks inodeNumber 0 es := by
  obtain ⟨slots, tail, split⟩ := List.exists_cons_of_ne_nil dir.nonempty
  have here : blocks[0]? = some slots := by
    rw [split]
    rfl
  obtain ⟨block, -⟩ := dir.blockAt below here
  rw [Listing, below.firstBlock_eq dir.nonempty dir.direct]
  constructor
  · rintro (walk | ⟨front, behind, walk, later, rfl⟩)
    · exact .unused block walk
    · exact .finish block walk later
  · intro listed
    cases listed with
    | missing none => exact absurd none block
    | unused _ walk => exact .inl walk
    | finish _ walk later => exact .inr ⟨_, _, walk, later, rfl⟩

/-- An entry is listed as itself. -/
theorem Same.refl (name : 0 ∉ e.name) : Same e e :=
  ⟨rfl, rfl, holds_append name []⟩

/-- The entries in use are listed as themselves. -/
theorem IsDirectory.same_used (dir : fs.IsDirectory inodeNumber blocks)
    : List.Forall₂ Same (used blocks.flatten) (used blocks.flatten) := by
  rw [List.forall₂_same]
  intro e member
  obtain ⟨inside, inUse⟩ := List.mem_filter.mp member
  exact Same.refl (dir.names e inside (of_decide_eq_true inUse)).2

/-- If the block for the `DIR` happens to hold an index of zero, and the directory lies in the first
4 GiB, it is listed right if and only if it is packed.
-/
theorem IsDirectory.lists_zero_iff (dir : fs.IsDirectory inodeNumber blocks)
    (below : fs.DirBelow inodeNumber blocks) (zero : block.bpIndex = 0)
    : fs.Lists inodeNumber block blocks.flatten ↔ fs.Packed inodeNumber blocks := by
  have inodeSize : ¬ fs.ext2.inodeSize < sizeofExt2Inode := Nat.not_lt.mpr dir.wellFormed.inodeSize
  have blockSize := dir.wellFormed.blockSize
  have whole : blocks = [] ++ blocks := rfl
  rw [lists_iff inodeSize, zero]
  simp only [dir.listing_iff below]
  cases found : blocks.flatten.find? (fun e => decide (e.inodeNumber = 0)) with
  | some e =>
      obtain ⟨isUnused, front, behind, split, inUse⟩ := List.find?_eq_some_iff_append.mp found
      have unused : e.inodeNumber = 0 := of_decide_eq_true isUnused
      replace inUse : ∀ e ∈ front, e.inodeNumber ≠ 0 := fun e member => by simpa using inUse e member
      have listed := dir.blocks_unused below whole split inUse unused
      have frontUsed : used front = front := by
        refine List.filter_eq_self.mpr (fun e member => ?_)
        simpa using inUse e member
      have all : used blocks.flatten = front ++ used behind := by
        rw [split, used, List.filter_append, List.filter_cons_of_neg (by simp [unused])]
        exact congrArg (· ++ used behind) frontUsed
      have packed : fs.Packed inodeNumber blocks ↔ used behind = [] := by
        rw [Packed, and_iff_left (.inl ⟨e, List.mem_of_find?_eq_some found, unused⟩), split,
          List.pairwise_append, List.pairwise_cons, used, List.filter_eq_nil_iff]
        constructor
        · rintro ⟨-, ⟨later, -⟩, -⟩ e' member
          simpa using later e' member unused
        · intro none
          have zero : ∀ e' ∈ behind, e'.inodeNumber = 0 := fun e' member => by
            simpa using none e' member
          refine ⟨?_, ⟨fun e' member _ => zero e' member, ?_⟩, ?_⟩
          · exact List.pairwise_of_forall_mem_list (fun e member _ _ isZero =>
              absurd isZero (inUse e member))
          · exact List.pairwise_of_forall_mem_list (fun _ _ e' member _ => zero e' member)
          · exact fun e member _ _ isZero => absurd isZero (inUse e member)
      rw [packed]
      constructor
      · rintro ⟨-, es, listed', same⟩
        obtain rfl := listed.unique listed'
        have lengths := same.length_eq
        rw [all, List.length_append, Nat.left_eq_add] at lengths
        exact List.length_eq_zero_iff.mp lengths
      · intro none
        refine ⟨dir.flag below.1, front, listed, ?_⟩
        have same := dir.same_used
        rw [all, none, List.append_nil] at same ⊢
        exact same
  | none =>
      have inUse : ∀ e ∈ blocks.flatten, e.inodeNumber ≠ 0 := fun e member => by
        simpa using List.find?_eq_none.mp found e member
      have all : used blocks.flatten = blocks.flatten := by
        refine List.filter_eq_self.mpr (fun e member => ?_)
        simpa using inUse e member
      have packed : fs.Packed inodeNumber blocks ↔ fs.EndsAt inodeNumber blocks.length := by
        rw [Packed, and_iff_right]
        · refine or_iff_right ?_
          rintro ⟨e, member, isZero⟩
          exact inUse e member isZero
        · exact List.pairwise_of_forall_mem_list (fun e member _ _ isZero =>
            absurd isZero (inUse e member))
      have listings (es : List DirEntry)
          : fs.Blocks inodeNumber 0 es
            ↔ ∃ rest, es = blocks.flatten ++ rest ∧ fs.Blocks inodeNumber blocks.length rest :=
        dir.blocks_iff below whole inUse
      have positive : 0 < fs.ext2.blockSize := by omega
      have same := dir.same_used
      rw [all] at same ⊢
      rw [packed, ← blocks_nil_iff positive]
      constructor
      · rintro ⟨-, es, listed, same'⟩
        obtain ⟨rest, rfl, last⟩ := (listings es).mp listed
        have lengths := same'.length_eq
        rw [List.length_append, Nat.add_eq_left] at lengths
        obtain rfl := List.length_eq_zero_iff.mp lengths
        exact last
      · intro last
        refine ⟨dir.flag below.1, blocks.flatten, (listings _).mpr ⟨[], ?_, last⟩, same⟩
        exact (List.append_nil _).symm

/-- A directory is listed right whatever the block for its `DIR` holds if and only if its first
block has all of the entries in use. If the block happens to hold an index of zero and the
directory lies in the first 4 GiB, it is if and only if the directory is packed. `ext2_readdir`
reads the block that the index in the `DIR` selects and stops at the first unused entry, so an
index that is anything fails on all directories but those with everything in front.
-/
theorem lists_iff_firstHasAll (dir : fs.IsDirectory inodeNumber blocks)
    : ((∀ block : Ext2Dir, block.bpIndex < 2 ^ 32 → fs.Lists inodeNumber block blocks.flatten)
        ↔ fs.FirstHasAll inodeNumber blocks.flatten)
      ∧ (fs.DirBelow inodeNumber blocks → ∀ block : Ext2Dir, block.bpIndex = 0
        → (fs.Lists inodeNumber block blocks.flatten ↔ fs.Packed inodeNumber blocks)) :=
  ⟨lists_always_iff dir.wellFormed, fun below _ zero => dir.lists_zero_iff below zero⟩

-----------------------------------------------------------------------------------------
-- A directory of one block
-----------------------------------------------------------------------------------------

section Examples

/-- An image with blocks of 1024 bytes at 1 MiB. Its inode 2 is a directory with the bytes in block
5.
-/
def dirImage (bytes : List UInt8) : Ext2Fs where
  drv :=
    fun a =>
      if a = 0x100000 + 4 * 1024 + 129 then 0x41
      else if a = 0x100000 + 4 * 1024 + 133 then 4
      else if a = 0x100000 + 4 * 1024 + 168 then 5
      else if 0x100000 + 5 * 1024 ≤ a ∧ a < 0x100000 + 6 * 1024 then
        (bytes[a - (0x100000 + 5 * 1024)]?).getD 0
      else 0
  pOffset := 0x100000
  ext2 :=
    {
      inodeSize := 128,
      inodesPerGroup := 8,
      inodeTable := fun _ => 4,
      blockSize := 1024
    }

/-- The directory `.`, and an unused slot behind it. -/
def dotImage : Ext2Fs :=
  dirImage [2, 0, 0, 0, 12, 0, 1, 2, 0x2E, 0, 0, 0, 0, 0, 0, 0, 0xF4, 3, 0, 0]

def dotSlots : List DirEntry :=
  [⟨2, 12, 2, [0x2E]⟩, ⟨0, 1012, 0, []⟩]

/-- The directory `.`, an unused slot and the file `b`. -/
def gapImage : Ext2Fs :=
  dirImage [2, 0, 0, 0, 12, 0, 1, 2, 0x2E, 0, 0, 0, 0, 0, 0, 0, 12, 0, 1, 0, 0x61, 0, 0, 0,
    11, 0, 0, 0, 0xE8, 3, 1, 1, 0x62]

def gapSlots : List DirEntry :=
  [⟨2, 12, 2, [0x2E]⟩, ⟨0, 12, 0, [0x61]⟩, ⟨11, 1000, 1, [0x62]⟩]

instance decidableBlockHolds (bytes : List UInt8)
    : (p : Nat) → (slots : List DirEntry) → Decidable (BlockHolds bytes p slots)
  | p, [] => inferInstanceAs (Decidable (p = bytes.length))
  | p, e :: es =>
      have : Decidable (BlockHolds bytes (p + e.entrySize) es) := decidableBlockHolds bytes _ es
      inferInstanceAs (Decidable (_ ∧ _ ∧ _ ∧ _))

def OneBlock (fs : Ext2Fs) (slots : List DirEntry) : Prop :=
  (fs.storedInode 2).typePermissions &&& 0xF000 = ext2InodeTypeDir
    ∧ (fs.storedInode 2).size = fs.ext2.blockSize
    ∧ (fs.storedInode 2).directBlockPointer 0 ≠ 0
    ∧ BlockHolds (fs.storedBlock ((fs.storedInode 2).directBlockPointer 0)) 0 slots
    ∧ (∀ k < 12, 0 < k → (fs.storedInode 2).directBlockPointer k = 0)
    ∧ (fs.storedInode 2).singlyIndirectBlockPointer = 0
    ∧ (fs.storedInode 2).doublyIndirectBlockPointer = 0
    ∧ (fs.storedInode 2).triplyIndirectBlockPointer = 0
    ∧ ∀ e ∈ slots, e.inodeNumber ≠ 0 → e.name ≠ [] ∧ 0 ∉ e.name

instance (fs : Ext2Fs) (slots : List DirEntry) : Decidable (fs.OneBlock slots) :=
  inferInstanceAs (Decidable (_ ∧ _ ∧ _ ∧ _ ∧ _ ∧ _ ∧ _ ∧ _ ∧ _))

theorem OneBlock.isDirectory (wellFormed : fs.WellFormed) (h : fs.OneBlock slots)
    : fs.IsDirectory 2 [slots] := by
  obtain ⟨type, size, pointer, holds, others, singly, doubly, triply, names⟩ := h
  refine ⟨wellFormed, type, ?_, List.cons_ne_nil _ _, ?_, fun k slots' here => ?_, fun k => ?_,
    ⟨singly, doubly, triply⟩, ?_⟩
  · rw [size, List.length_singleton, Nat.one_mul]
  · exact Nat.succ_le_succ (Nat.zero_le 11)
  · cases k with
    | zero =>
        obtain rfl := Option.some.inj here
        exact ⟨pointer, holds⟩
    | succ k => cases here
  · exact fun positive below => others k below positive
  · rw [List.flatten_singleton]
    exact names

/-- `.` is listed, whatever the block for the `DIR` holds. -/
theorem lists_dotImage
    : dotImage.IsDirectory 2 [dotSlots]
      ∧ ∀ block : Ext2Dir, block.bpIndex < 2 ^ 32 → dotImage.Lists 2 block [dotSlots].flatten := by
  have wellFormed : dotImage.WellFormed := ⟨by decide, by decide, by decide⟩
  have oneBlock : dotImage.OneBlock dotSlots := by decide +kernel
  have walk : Walk (dotImage.firstBlock 2) 0 [⟨2, 12, 2, [0x2E]⟩] true := by
    have first : entryAt (dotImage.firstBlock 2) 0 = some ⟨2, 12, 2, [0x2E]⟩ := by decide +kernel
    have second : fieldAt (dotImage.firstBlock 2) 12 4 = some 0 := by decide +kernel
    have size : (dotImage.firstBlock 2).length = 1024 := length_firstBlock ..
    exact .entry (by omega) first (by decide) (.unused (by rw [size]; decide) second)
  have dir := oneBlock.isDirectory wellFormed
  refine ⟨dir, ((lists_iff_firstHasAll dir).1).mpr ⟨by decide +kernel, ?_⟩⟩
  exact ⟨_, .cons (Same.refl (by decide)) .nil, .inl walk⟩

/-- `b` is not listed, because there is an unused slot in front of it. -/
theorem not_lists_gapImage
    : ¬ ∀ (fs : Ext2Fs) (inodeNumber : Nat) (blocks : List (List DirEntry)),
        fs.IsDirectory inodeNumber blocks → ∀ block : Ext2Dir, block.bpIndex < 2 ^ 32
          → fs.Lists inodeNumber block blocks.flatten := by
  intro lists
  have wellFormed : gapImage.WellFormed := ⟨by decide, by decide, by decide⟩
  have oneBlock : gapImage.OneBlock gapSlots := by decide +kernel
  obtain ⟨dir, fuel, ents, opened, read, shown⟩ :=
    lists gapImage 2 [gapSlots] (oneBlock.isDirectory wellFormed) (junkDir 0) (by decide)
  have facts : ∀ r ∈ gapImage.opendir 2 (junkDir 0), ∀ dir ∈ r,
      (gapImage.readAll 3 dir).map List.length = some 1 := by
    decide +kernel
  obtain ⟨ents', read', one⟩ := Option.map_eq_some_iff.mp (facts _ opened dir rfl)
  have same := readAll_mono (le_max_left fuel 3) read
  rw [readAll_mono (le_max_right fuel 3) read'] at same
  obtain rfl := Option.some.inj same
  have two := shown.length_eq
  rw [one] at two
  exact absurd two (by decide)

end Examples

end Ext2Fs

end Hydrangea
