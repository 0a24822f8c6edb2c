import Hydrangea.Fs.Ext2Blocks

/-! Reading directories with `ext2_opendir` and `ext2_readdir` of `kernel/fs/ext2fs/ext2.c`. `none`
is a call that does not return: an access behind the end of a buffer, or too little fuel. The blocks
of `kmalloc` hold anything.
-/

namespace Hydrangea

structure Dirent where
  inodeNumber : Nat
  size : Nat
  type : Nat
  permissions : Nat
  name : List UInt8

/-- `DIR`, but for the pointer to the file system. `next` is the position of the next entry in the
block buffer. No position wraps, as a block has at most `2 ^ 31` bytes.
-/
structure Ext2Dir where
  inodeNumber : Nat
  blockBuffer : List UInt8
  bpIndex : Nat
  soFar : Nat
  next : Nat
  ent : Dirent

/-- `ext2_directory_entry_t`, with as many bytes of the name as `name_length_lo` says. -/
structure DirEntry where
  inodeNumber : Nat
  entrySize : Nat
  type : Nat
  name : List UInt8
  deriving DecidableEq

def ext2InodeTypeDir : Nat := 0x4000

/-- `sizeof(ext2_inode_t)`. -/
def sizeofExt2Inode : Nat := 128

def fieldAt (buffer : List UInt8) (offset size : Nat) : Option Nat :=
  if offset + size ≤ buffer.length then some (field buffer offset size) else none

def entryAt (buffer : List UInt8) (e : Nat) : Option DirEntry :=
  let nameLengthLo := field buffer (e + 6) 1
  if e + 8 + nameLengthLo ≤ buffer.length then
    some {
      inodeNumber := field buffer e 4
      entrySize := field buffer (e + 4) 2
      type := field buffer (e + 7) 1
      name := (buffer.drop (e + 8)).take nameLengthLo
    }
  else
    none

namespace Ext2Fs

/-- `ext2_opendir`, with the block for the `DIR`: the directory, or null. The `memset` of the block
clears the pointer to the file system only. The block for the inode has `inode_size` bytes, which
may be too few for an `ext2_inode_t`.
-/
def opendir (fs : Ext2Fs) (inodeNumber : Nat) (block : Ext2Dir) : Option (Option Ext2Dir) :=
  if fs.ext2.inodeSize < sizeofExt2Inode then
    none
  else
    let inode := fs.getInode inodeNumber
    if inode.typePermissions &&& ext2InodeTypeDir = 0 then
      some none
    else
      let offset := fs.pOffset + inode.directBlockPointer 0 * fs.ext2.blockSize % 2 ^ 32
      let blockBuffer := ataReadB fs.drv offset fs.ext2.blockSize
      some (some { block with inodeNumber, blockBuffer, soFar := 0, next := 0 })

/-- `ext2_make_dirent`. -/
def makeDirent (fs : Ext2Fs) (dir : Ext2Dir) (e : Nat) : Option Ext2Dir := do
  let entry ← entryAt dir.blockBuffer e
  let inode := fs.getInode entry.inodeNumber
  let ent := {
    inodeNumber := entry.inodeNumber
    size := inode.size
    type := entry.type
    permissions := inode.typePermissions
    name := entry.name ++ 0 :: dir.ent.name.drop (entry.name.length + 1)
  }
  return { dir with next := e + entry.entrySize, soFar := dir.soFar + entry.entrySize, ent }

/-- `ext2_readdir`: the entry, or null, and the directory afterwards. -/
def readdir (fs : Ext2Fs) : (fuel : Nat) → (dir : Ext2Dir) → Option (Option Dirent × Ext2Dir)
  | 0, _ => none
  | fuel + 1, dir =>
      if dir.soFar < fs.ext2.blockSize then do
        let inodeNumber ← fieldAt dir.blockBuffer dir.next 4
        if inodeNumber = 0 then
          return (none, dir)
        else
          let dir ← fs.makeDirent dir dir.next
          return (some dir.ent, dir)
      else
        let bpIndex := (dir.bpIndex + 1) % 2 ^ 32
        let bOffset := fs.getBlockOffset dir.inodeNumber bpIndex
        if bOffset = 0 then
          some (none, { dir with bpIndex })
        else
          let blockBuffer := ataReadB fs.drv (fs.pOffset + bOffset) fs.ext2.blockSize
          readdir fs fuel { dir with bpIndex, blockBuffer, next := 0, soFar := 0 }

/-- Call `ext2_readdir` until it returns null. -/
def readAll (fs : Ext2Fs) : (fuel : Nat) → (dir : Ext2Dir) → Option (List Dirent)
  | 0, _ => none
  | fuel + 1, dir => do
      let (entry, dir) ← fs.readdir fuel dir
      match entry with
      | none => some []
      | some entry => (readAll fs fuel dir).map (entry :: ·)

-----------------------------------------------------------------------------------------
-- The entries that are listed
-----------------------------------------------------------------------------------------

/-- The block that `ext2_opendir` reads. -/
def firstBlock (fs : Ext2Fs) (inodeNumber : Nat) : List UInt8 :=
  ataReadB fs.drv (fs.pOffset
    + (fs.getInode inodeNumber).directBlockPointer 0 * fs.ext2.blockSize % 2 ^ 32) fs.ext2.blockSize

/-- The block with an index that `ext2_readdir` reads. -/
def blockAt (fs : Ext2Fs) (inodeNumber k : Nat) : List UInt8 :=
  ataReadB fs.drv (fs.pOffset + fs.getBlockOffset inodeNumber k) fs.ext2.blockSize

@[simp]
theorem length_firstBlock (fs : Ext2Fs) (inodeNumber : Nat)
    : (fs.firstBlock inodeNumber).length = fs.ext2.blockSize :=
  length_ataReadB ..

@[simp]
theorem length_blockAt (fs : Ext2Fs) (inodeNumber k : Nat)
    : (fs.blockAt inodeNumber k).length = fs.ext2.blockSize :=
  length_ataReadB ..

/-- The entries from a position of a block on, up to an unused one or to the end of the block. -/
inductive Walk (bytes : List UInt8) : (position : Nat) → List DirEntry → (unused : Bool) → Prop
  | unused {p : Nat} (inside : p < bytes.length) (zero : fieldAt bytes p 4 = some 0)
    : Walk bytes p [] true
  | finish {p : Nat} (behind : bytes.length ≤ p) : Walk bytes p [] false
  | entry {p : Nat} {e : DirEntry} {es : List DirEntry} {unused : Bool}
      (inside : p < bytes.length) (here : entryAt bytes p = some e) (used : e.inodeNumber ≠ 0)
      (rest : Walk bytes (p + e.entrySize) es unused)
    : Walk bytes p (e :: es) unused

/-- The entries of the blocks of an inode from an index on, up to an unused entry or to an index
without a block.
-/
inductive Blocks (fs : Ext2Fs) (inodeNumber : Nat) : (k : Nat) → List DirEntry → Prop
  | missing {k : Nat} (none : fs.getBlockOffset inodeNumber k = 0) : Blocks fs inodeNumber k []
  | unused {k : Nat} {es : List DirEntry} (block : fs.getBlockOffset inodeNumber k ≠ 0)
      (walk : Walk (fs.blockAt inodeNumber k) 0 es true)
    : Blocks fs inodeNumber k es
  | finish {k : Nat} {es es' : List DirEntry} (block : fs.getBlockOffset inodeNumber k ≠ 0)
      (walk : Walk (fs.blockAt inodeNumber k) 0 es false)
      (rest : Blocks fs inodeNumber ((k + 1) % 2 ^ 32) es')
    : Blocks fs inodeNumber k (es ++ es')

/-- The entries from a position of the block with index `k` on. -/
def From (fs : Ext2Fs) (inodeNumber k : Nat) (bytes : List UInt8) (p : Nat) (es : List DirEntry)
    : Prop :=
  Walk bytes p es true
    ∨ ∃ front behind, Walk bytes p front false
      ∧ fs.Blocks inodeNumber ((k + 1) % 2 ^ 32) behind ∧ es = front ++ behind

/-- The entries that a directory lists when its `DIR` begins with index `k`. -/
def Listing (fs : Ext2Fs) (inodeNumber k : Nat) (es : List DirEntry) : Prop :=
  fs.From inodeNumber k (fs.firstBlock inodeNumber) 0 es

/-- What `ext2_make_dirent` makes of an entry. -/
structure Copied (fs : Ext2Fs) (ent : Dirent) (e : DirEntry) : Prop where
  inodeNumber : ent.inodeNumber = e.inodeNumber
  type : ent.type = e.type
  size : ent.size = (fs.getInode e.inodeNumber).size
  permissions : ent.permissions = (fs.getInode e.inodeNumber).typePermissions
  name : ∃ junk, ent.name = e.name ++ 0 :: junk
  short : e.name.length < 256

/-- The state of a `DIR` at a position of a block. -/
structure At (fs : Ext2Fs) (inodeNumber k : Nat) (bytes : List UInt8) (p : Nat) (dir : Ext2Dir)
    : Prop where
  inodeNumber : dir.inodeNumber = inodeNumber
  blockBuffer : dir.blockBuffer = bytes
  bpIndex : dir.bpIndex = k
  soFar : dir.soFar = p
  next : dir.next = p
  size : bytes.length = fs.ext2.blockSize

variable {fs : Ext2Fs} {inodeNumber k p fuel : Nat} {bytes : List UInt8} {dir dir' : Ext2Dir}
  {e : DirEntry} {es : List DirEntry} {ents : List Dirent}

/-- A directory is opened at the start of its first block. -/
theorem opendir_eq_some {block : Ext2Dir} (opened : fs.opendir inodeNumber block = some (some dir))
    : At fs inodeNumber block.bpIndex (fs.firstBlock inodeNumber) 0 dir := by
  rw [opendir] at opened
  split at opened
  · cases opened
  · dsimp only at opened
    split at opened
    · cases Option.some.inj opened
    · obtain rfl := Option.some.inj (Option.some.inj opened)
      exact ⟨rfl, rfl, rfl, rfl, rfl, length_firstBlock fs inodeNumber⟩

/-- Null is returned for an unused entry. -/
theorem At.unused (h : At fs inodeNumber k bytes p dir) (inside : p < bytes.length)
    (zero : fieldAt bytes p 4 = some 0) (fuel : Nat)
    : fs.readdir (fuel + 1) dir = some (none, dir) := by
  rw [readdir, h.soFar, h.next, h.blockBuffer, if_pos (h.size ▸ inside), zero]
  rfl

/-- What an entry begins with is its inode number. -/
theorem fieldAt_of_entryAt (here : entryAt bytes p = some e)
    : fieldAt bytes p 4 = some e.inodeNumber := by
  obtain ⟨fits, same⟩ := Option.ite_none_right_eq_some.mp here
  obtain rfl := Option.some.inj same
  rw [fieldAt, if_pos (by omega)]

/-- The length of a name is stored in one byte. -/
theorem length_lt_of_entryAt (here : entryAt bytes p = some e) : e.name.length < 256 := by
  obtain ⟨fits, same⟩ := Option.ite_none_right_eq_some.mp here
  obtain rfl := Option.some.inj same
  have byte : field bytes (p + 6) 1 < 256 := by
    rw [field]
    cases bytes.drop (p + 6) with
    | nil => decide
    | cons b behind =>
        have small := b.toNat_lt
        simpa [littleEndian] using small
  exact Nat.lt_of_le_of_lt (List.length_take_le _ _) byte

/-- `ext2_make_dirent` copies an entry and moves behind it. -/
theorem At.makeDirent (h : At fs inodeNumber k bytes p dir) (here : entryAt bytes p = some e)
    : ∃ dir', fs.makeDirent dir p = some dir' ∧ Copied fs dir'.ent e
        ∧ At fs inodeNumber k bytes (p + e.entrySize) dir' := by
  obtain ⟨rfl, rfl, rfl, soFar, -, size⟩ := h
  rw [Ext2Fs.makeDirent, here]
  refine ⟨_, rfl, ⟨rfl, rfl, rfl, rfl, ⟨_, rfl⟩, length_lt_of_entryAt here⟩, ?_⟩
  exact ⟨rfl, rfl, rfl, congrArg (· + e.entrySize) soFar, rfl, size⟩

theorem At.entry (h : At fs inodeNumber k bytes p dir) (inside : p < bytes.length)
    (here : entryAt bytes p = some e) (used : e.inodeNumber ≠ 0)
    : ∃ ent dir', (∀ fuel, fs.readdir (fuel + 1) dir = some (some ent, dir')) ∧ Copied fs ent e
        ∧ At fs inodeNumber k bytes (p + e.entrySize) dir' := by
  obtain ⟨dir', made, copied, at'⟩ := h.makeDirent here
  refine ⟨dir'.ent, dir', fun fuel => ?_, copied, at'⟩
  rw [readdir, h.soFar, h.next, h.blockBuffer, if_pos (h.size ▸ inside), fieldAt_of_entryAt here,
    Option.bind_eq_bind, Option.bind_some, if_neg used, made]
  rfl

/-- Behind a block nothing is returned if there is no next one. -/
theorem At.missing (h : At fs inodeNumber k bytes p dir) (behind : bytes.length ≤ p)
    (missing : fs.getBlockOffset inodeNumber ((k + 1) % 2 ^ 32) = 0) (fuel : Nat)
    : fs.readdir (fuel + 1) dir = some (none, { dir with bpIndex := (k + 1) % 2 ^ 32 }) := by
  obtain ⟨rfl, rfl, rfl, rfl, -, size⟩ := h
  rw [size] at behind
  rw [readdir, if_neg (Nat.not_lt.mpr behind)]
  exact if_pos missing

/-- Behind a block the next one is read. -/
theorem At.finish (h : At fs inodeNumber k bytes p dir) (behind : bytes.length ≤ p)
    (block : fs.getBlockOffset inodeNumber ((k + 1) % 2 ^ 32) ≠ 0)
    : ∃ dir', (∀ fuel, fs.readdir (fuel + 1) dir = fs.readdir fuel dir')
        ∧ At fs inodeNumber ((k + 1) % 2 ^ 32) (fs.blockAt inodeNumber ((k + 1) % 2 ^ 32)) 0
          dir' := by
  obtain ⟨rfl, rfl, rfl, rfl, -, size⟩ := h
  rw [size] at behind
  let dir' := { dir with
    bpIndex := (dir.bpIndex + 1) % 2 ^ 32
    blockBuffer := fs.blockAt dir.inodeNumber ((dir.bpIndex + 1) % 2 ^ 32)
    next := 0
    soFar := 0 }
  refine ⟨dir', fun fuel => ?_, rfl, rfl, rfl, rfl, rfl, length_blockAt ..⟩
  rw [readdir, if_neg (Nat.not_lt.mpr behind)]
  exact if_neg block

-----------------------------------------------------------------------------------------
-- What is read
-----------------------------------------------------------------------------------------

/-- More fuel returns the same, by induction on the fuel. -/
theorem readdir_mono {more : Nat} (enough : fuel ≤ more) {r : Option Dirent × Ext2Dir}
    (read : fs.readdir fuel dir = some r)
    : fs.readdir more dir = some r := by
  induction fuel generalizing more dir with
  | zero => cases read
  | succ fuel ih =>
      obtain ⟨more, rfl⟩ := Nat.exists_eq_succ_of_ne_zero (Nat.ne_of_gt (Nat.zero_lt_of_lt enough))
      rw [readdir] at read ⊢
      split at read
      · next inside => rwa [if_pos inside]
      · next outside =>
          rw [if_neg outside]
          dsimp only at read ⊢
          split at read
          · next missing => rwa [if_pos missing]
          · next block =>
              rw [if_neg block]
              exact ih (Nat.le_of_succ_le_succ enough) read

/-- More fuel lists the same, by induction on the fuel. -/
theorem readAll_mono {more : Nat} (enough : fuel ≤ more) (read : fs.readAll fuel dir = some ents)
    : fs.readAll more dir = some ents := by
  induction fuel generalizing more dir ents with
  | zero => cases read
  | succ fuel ih =>
      obtain ⟨more, rfl⟩ := Nat.exists_eq_succ_of_ne_zero (Nat.ne_of_gt (Nat.zero_lt_of_lt enough))
      have rest := Nat.le_of_succ_le_succ enough
      obtain ⟨⟨entry, dir'⟩, first, read⟩ := Option.bind_eq_some_iff.mp read
      rw [readAll, readdir_mono rest first, Option.bind_eq_bind, Option.bind_some]
      cases entry with
      | none => exact read
      | some entry =>
          obtain ⟨behind, later, same⟩ := Option.map_eq_some_iff.mp read
          exact Option.map_eq_some_iff.mpr ⟨behind, ih rest later, same⟩

/-- The last call of `ext2_readdir`. -/
theorem readAll_none (read : fs.readdir fuel dir = some (none, dir'))
    : fs.readAll (fuel + 1) dir = some [] := by
  rw [readAll, read]
  rfl

/-- Reading on from a `DIR` that `ext2_readdir` gets to without returning. -/
theorem readAll_of_readdir (same : ∀ fuel, fs.readdir (fuel + 1) dir = fs.readdir fuel dir')
    (read : fs.readAll fuel dir' = some ents)
    : fs.readAll (fuel + 1) dir = some ents := by
  obtain ⟨fuel, rfl⟩ : ∃ k, fuel = k + 1 := by
    cases fuel with
    | zero => cases read
    | succ fuel => exact ⟨fuel, rfl⟩
  rw [readAll, same]
  obtain ⟨⟨r, dir''⟩, first, read⟩ := Option.bind_eq_some_iff.mp read
  rw [first, Option.bind_eq_bind, Option.bind_some]
  cases r with
  | none => exact read
  | some ent =>
      obtain ⟨behind, later, rfl⟩ := Option.map_eq_some_iff.mp read
      exact Option.map_eq_some_iff.mpr ⟨behind, readAll_mono (Nat.le_succ fuel) later, rfl⟩

/-- A call of `ext2_readdir` before others. -/
theorem readAll_some {ent : Dirent} (read : fs.readdir fuel dir = some (some ent, dir'))
    (rest : fs.readAll fuel dir' = some ents)
    : fs.readAll (fuel + 1) dir = some (ent :: ents) := by
  rw [readAll, read, Option.bind_eq_bind, Option.bind_some]
  exact Option.map_eq_some_iff.mpr ⟨ents, rest, rfl⟩

/-- The entries from a position of a block on are read one after the other, by induction on them. -/
theorem At.walk (h : At fs inodeNumber k bytes p dir) {unused : Bool}
    (walk : Walk bytes p es unused)
    : ∃ front dir' q, List.Forall₂ (Copied fs) front es ∧ At fs inodeNumber k bytes q dir'
        ∧ Walk bytes q [] unused
        ∧ ∀ fuel ents, fs.readAll fuel dir' = some ents
          → ∃ fuel', fs.readAll fuel' dir = some (front ++ ents) := by
  induction walk generalizing dir with
  | unused inside zero =>
      exact ⟨[], dir, _, .nil, h, .unused inside zero, fun fuel ents read => ⟨fuel, read⟩⟩
  | finish behind =>
      exact ⟨[], dir, _, .nil, h, .finish behind, fun fuel ents read => ⟨fuel, read⟩⟩
  | entry inside here used _ ih =>
      obtain ⟨ent, dir₁, first, copied, at₁⟩ := h.entry inside here used
      obtain ⟨front, dir', q, all, at', stop, continued⟩ := ih at₁
      refine ⟨ent :: front, dir', q, .cons copied all, at', stop, fun fuel ents read => ?_⟩
      obtain ⟨fuel', later⟩ := continued fuel ents read
      refine ⟨fuel' + 2, readAll_some (first fuel') ?_⟩
      exact readAll_mono (Nat.le_succ fuel') later

theorem At.readAll_unused (h : At fs inodeNumber k bytes p dir) (stop : Walk bytes p [] true)
    : fs.readAll 2 dir = some [] := by
  cases stop with
  | unused inside zero => exact readAll_none (h.unused inside zero 0)

/-- The blocks from an index on are read one after the other, by induction on them. -/
theorem At.readAll_blocks {j : Nat} (blocks : Blocks fs inodeNumber j es)
    (h : At fs inodeNumber k bytes p dir) (behind : bytes.length ≤ p) (next : (k + 1) % 2 ^ 32 = j)
    : ∃ fuel ents, fs.readAll fuel dir = some ents ∧ List.Forall₂ (Copied fs) ents es := by
  induction blocks generalizing k bytes p dir with
  | missing none =>
      subst next
      exact ⟨2, [], readAll_none (h.missing behind none 0), .nil⟩
  | unused block walk =>
      subst next
      obtain ⟨dir₁, first, at₁⟩ := h.finish behind block
      obtain ⟨front, dir', q, all, at', stop, continued⟩ := at₁.walk walk
      obtain ⟨fuel, read⟩ := continued 2 [] (at'.readAll_unused stop)
      rw [List.append_nil] at read
      exact ⟨_, front, readAll_of_readdir first read, all⟩
  | finish block walk _ ih =>
      subst next
      obtain ⟨dir₁, first, at₁⟩ := h.finish behind block
      obtain ⟨front, dir', q, all, at', stop, continued⟩ := at₁.walk walk
      cases stop with
      | finish behind' =>
          obtain ⟨fuel', ents, later, others⟩ := ih at' behind' rfl
          obtain ⟨fuel, read⟩ := continued fuel' ents later
          exact ⟨_, front ++ ents, readAll_of_readdir first read, List.rel_append all others⟩

theorem At.readAll_from (h : At fs inodeNumber k bytes p dir)
    (listed : fs.From inodeNumber k bytes p es)
    : ∃ fuel ents, fs.readAll fuel dir = some ents ∧ List.Forall₂ (Copied fs) ents es := by
  rcases listed with walk | ⟨es₁, es₂, walk, blocks, rfl⟩
  · obtain ⟨front, dir', q, all, at', stop, continued⟩ := h.walk walk
    obtain ⟨fuel, read⟩ := continued 2 [] (at'.readAll_unused stop)
    rw [List.append_nil] at read
    exact ⟨fuel, front, read, all⟩
  · obtain ⟨front, dir', q, all, at', stop, continued⟩ := h.walk walk
    cases stop with
    | finish behind =>
        obtain ⟨fuel', ents, later, others⟩ := at'.readAll_blocks blocks behind rfl
        obtain ⟨fuel, read⟩ := continued fuel' ents later
        exact ⟨fuel, front ++ ents, read, List.rel_append all others⟩

-----------------------------------------------------------------------------------------
-- Only listings are read
-----------------------------------------------------------------------------------------

theorem From.entry (inside : p < bytes.length) (here : entryAt bytes p = some e)
    (used : e.inodeNumber ≠ 0) (rest : fs.From inodeNumber k bytes (p + e.entrySize) es)
    : fs.From inodeNumber k bytes p (e :: es) := by
  rcases rest with walk | ⟨front, behind, walk, blocks, rfl⟩
  · exact .inl (.entry inside here used walk)
  · exact .inr ⟨e :: front, behind, .entry inside here used walk, blocks, rfl⟩

/-- A listing goes on in the next block. -/
theorem From.finish (behind : bytes.length ≤ p)
    (block : fs.getBlockOffset inodeNumber ((k + 1) % 2 ^ 32) ≠ 0)
    (rest : fs.From inodeNumber ((k + 1) % 2 ^ 32)
      (fs.blockAt inodeNumber ((k + 1) % 2 ^ 32)) 0 es)
    : fs.From inodeNumber k bytes p es := by
  refine .inr ⟨[], es, .finish behind, ?_, rfl⟩
  rcases rest with walk | ⟨front, later, walk, blocks, rfl⟩
  · exact .unused block walk
  · exact .finish block walk blocks

/-- What a call of `ext2_readdir` returns is the next entry of every listing from there on, by
induction on the fuel.
-/
theorem At.readdir_cases (h : At fs inodeNumber k bytes p dir) {r : Option Dirent}
    (read : fs.readdir fuel dir = some (r, dir'))
    : (r = none ∧ fs.From inodeNumber k bytes p [])
      ∨ ∃ ent e j bytes' q, r = some ent ∧ Copied fs ent e ∧ At fs inodeNumber j bytes' q dir'
        ∧ ∀ es, fs.From inodeNumber j bytes' q es → fs.From inodeNumber k bytes p (e :: es) := by
  induction fuel generalizing k bytes p dir with
  | zero => cases read
  | succ fuel ih =>
      by_cases inside : p < bytes.length
      · rw [readdir, h.soFar, h.next, h.blockBuffer, if_pos (h.size ▸ inside)] at read
        obtain ⟨inode, isInode, read⟩ := Option.bind_eq_some_iff.mp read
        by_cases zero : inode = 0
        · rw [if_pos zero] at read
          obtain ⟨rfl, -⟩ := Prod.mk.inj (Option.some.inj read)
          exact .inl ⟨rfl, .inl (.unused inside (zero ▸ isInode))⟩
        · rw [if_neg zero] at read
          obtain ⟨dir₁, made, read⟩ := Option.bind_eq_some_iff.mp read
          obtain ⟨rfl, rfl⟩ := Prod.mk.inj (Option.some.inj read)
          have parsed := made
          rw [Ext2Fs.makeDirent, h.blockBuffer] at parsed
          obtain ⟨e, here, -⟩ := Option.bind_eq_some_iff.mp parsed
          obtain ⟨dir₂, made', copied, at₂⟩ := h.makeDirent here
          obtain rfl := Option.some.inj (made'.symm.trans made)
          have used : e.inodeNumber ≠ 0 := by
            rw [fieldAt_of_entryAt here] at isInode
            rwa [Option.some.inj isInode]
          exact .inr ⟨_, e, _, _, _, rfl, copied, at₂, fun es => From.entry inside here used⟩
      · have behind := Nat.not_lt.mp inside
        by_cases missing : fs.getBlockOffset inodeNumber ((k + 1) % 2 ^ 32) = 0
        · rw [h.missing behind missing] at read
          obtain ⟨rfl, -⟩ := Prod.mk.inj (Option.some.inj read)
          exact .inl ⟨rfl, .inr ⟨[], [], .finish behind, .missing missing, rfl⟩⟩
        · obtain ⟨dir₁, first, at₁⟩ := h.finish behind missing
          rw [first] at read
          rcases ih at₁ read with ⟨rfl, rest⟩ | ⟨ent, e, j, bytes', q, rfl, copied, at', rest⟩
          · exact .inl ⟨rfl, rest.finish behind missing⟩
          · exact .inr ⟨ent, e, j, bytes', q, rfl, copied, at',
              fun es listed => (rest es listed).finish behind missing⟩

/-- What is read is a listing, by induction on the fuel. -/
theorem At.from_readAll (h : At fs inodeNumber k bytes p dir)
    (read : fs.readAll fuel dir = some ents)
    : ∃ es, fs.From inodeNumber k bytes p es ∧ List.Forall₂ (Copied fs) ents es := by
  induction fuel generalizing k bytes p dir ents with
  | zero => cases read
  | succ fuel ih =>
      obtain ⟨⟨r, dir'⟩, first, read⟩ := Option.bind_eq_some_iff.mp read
      rcases h.readdir_cases first with
        ⟨rfl, rest⟩ | ⟨ent, e, j, bytes', q, rfl, copied, at', rest⟩
      · obtain rfl := Option.some.inj read
        exact ⟨[], rest, .nil⟩
      · obtain ⟨behind, later, rfl⟩ := Option.map_eq_some_iff.mp read
        obtain ⟨es, listed, all⟩ := ih at' later
        exact ⟨e :: es, rest es listed, .cons copied all⟩

end Ext2Fs

end Hydrangea
