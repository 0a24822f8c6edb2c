import Hydrangea.Fs.VfsMakeNodes
import Hydrangea.Fs.VfsRuns

/-! `tar_parse` of `kernel/fs/initrd/initrd.c` on an archive in memory. Addresses wrap. `none` is a
call that does not return.
-/

namespace Hydrangea

open CString Linked LinkedTree Vfs VfsState

/-- A number as a `size_t`. -/
def wrap (n : Nat) : Nat :=
  n % 2 ^ 32

def byteAt (mem : Nat → UInt8) (a : Nat) : UInt8 :=
  mem (wrap a)

def bytesFrom (mem : Nat → UInt8) (a : Nat) : (n : Nat) → List UInt8
  | 0 => []
  | n + 1 => byteAt mem a :: bytesFrom mem (a + 1) n

def stringAt (mem : Nat → UInt8) (a : Nat) : List UInt8 :=
  bytesFrom mem a (2 ^ 32)

def charToSize (c : UInt8) : Nat :=
  if c < 128 then c.toNat else 2 ^ 32 - 256 + c.toNat

def digitToSize (c : UInt8) : Nat :=
  wrap (charToSize c + (2 ^ 32 - 0x30))

def tarGetSizeLoop (input : Nat → UInt8) : (j : Nat) → (count size : Nat) → Nat
  | 0 => fun _ size => size
  | j + 1 => fun count size =>
      tarGetSizeLoop input j (wrap (count * 8)) (wrap (size + digitToSize (input j) * count))

def tarGetSize (input : Nat → UInt8) : Nat :=
  tarGetSizeLoop input 11 1 0

/-- `header->offset = addr`, which stores at 160 bytes behind the start of the header. -/
def setOffset (mem : Nat → UInt8) (addr : Nat) : Nat → UInt8 :=
  fun a =>
    let k := wrap (a + 2 ^ 32 - wrap (addr + 160))
    if k < 4 then UInt8.ofNat (addr / 256 ^ k) else mem a

/-- What the calls of `vfs_make_node` get: the buffers of `kmalloc` for their copies of paths, what
the static `i` of `strtok` holds, and the blocks for nodes.
-/
structure TarHeap (α : Type) where
  kmalloc : Nat → Buffer256
  strtok : Nat → Option Nat
  blocks : Nat → VfsState α → List (NodeBlock α)

/-- The bytes that a header and its content take, as `tar_parse` moves `addr`. -/
def tarStride (size : Nat) : Nat :=
  (size / 512 + 1) * 512 + if size % 512 ≠ 0 then 512 else 0

def tarType (typeflag : UInt8) : Nat :=
  if typeflag = 53 then vfsDir else vfsFile

variable {α : Type} [DecidableEq α]

def tarParseLoop (heap : TarHeap α) (node : α) : (fuel i : Nat) → VfsState α → (mem : Nat → UInt8)
    → (addr : Nat) → Option (Nat × VfsState α × (Nat → UInt8))
  | 0, _, _, _, _ => none
  | fuel + 1, i, s, mem, addr => do
      let length ← strlen (stringAt mem addr)
      if length = 0 then
        return (i, s, mem)
      else
        let offset := wrap (addr + 512)
        let type := tarType (byteAt mem (addr + 156))
        let (n, s, _) ← s.vfsMakeNode fuel (heap.kmalloc i) (heap.strtok i) node
          (stringAt mem (addr + 2)) type offset (heap.blocks i s)
        let size := tarGetSize (fun j => byteAt mem (addr + 124 + j))
        let s := s.setFile n (fun file => { file with size })
        let addr' := wrap (addr + tarStride size)
        tarParseLoop heap node fuel (wrap (i + 1)) s (setOffset mem addr) addr'

/-- `tar_parse`: its result, the nodes and the memory. -/
def tarParse (fuel : Nat) (heap : TarHeap α) (s : VfsState α) (mem : Nat → UInt8) (node : α)
    (addr : Nat)
    : Option (Nat × VfsState α × (Nat → UInt8)) :=
  tarParseLoop heap node fuel 0 s mem addr

-----------------------------------------------------------------------------------------
-- Archives
-----------------------------------------------------------------------------------------

structure TarEntry where
  name : List UInt8
  typeflag : UInt8
  content : List UInt8
  nonzero : 0 ∉ name
  long : 2 ≤ name.length
  short : name.length ≤ 99

def TarEntry.path (e : TarEntry) : List UInt8 :=
  e.name.drop 2

/-- The bytes of an entry, padded to whole blocks. -/
def TarEntry.stride (e : TarEntry) : Nat :=
  512 + (e.content.length + 511) / 512 * 512

def octal (size : Nat) : List UInt8 :=
  (List.range 11).map (fun j => UInt8.ofNat (0x30 + size / 8 ^ (10 - j) % 8))

/-- A header and its content at an address. -/
structure HeaderAt (mem : Nat → UInt8) (addr : Nat) (e : TarEntry) : Prop where
  name : Holds (bytesFrom mem addr 100) e.name
  size : bytesFrom mem (addr + 124) 11 = octal e.content.length
  typeflag : byteAt mem (addr + 156) = e.typeflag
  content : bytesFrom mem (addr + 512) e.content.length = e.content

/-- An archive at an address, which ends with a header with an empty name. -/
inductive Archive (mem : Nat → UInt8) : (addr : Nat) → List TarEntry → Prop
  | nil {addr : Nat} (fits : addr + 512 ≤ 2 ^ 32) (empty : Holds (bytesFrom mem addr 100) [])
    : Archive mem addr []
  | cons {addr : Nat} {e : TarEntry} {es : List TarEntry} (header : HeaderAt mem addr e)
      (rest : Archive mem (addr + e.stride) es)
    : Archive mem addr (e :: es)

/-- The calls of `vfs_make_node` for the entries of an archive, and the sizes set for their nodes.
Each call gets a node that is in the tree.
-/
inductive MakesNodes (heap : TarHeap α) (node : α) : (i : Nat) → VfsState α → (addr : Nat)
    → List TarEntry → VfsState α → Prop
  | nil {i : Nat} {s : VfsState α} {addr : Nat} : MakesNodes heap node i s addr [] s
  | cons {i addr fuel : Nat} {s s₁ s' : VfsState α} {e : TarEntry} {es : List TarEntry} {n : α}
      {rest : List (NodeBlock α)} (live : s.Node node)
      (called : s.vfsMakeNode fuel (heap.kmalloc i) (heap.strtok i) node (e.path ++ [0])
        (tarType e.typeflag) (addr + 512) (heap.blocks i s) = some (n, s₁, rest))
      (later : MakesNodes heap node (i + 1)
        (s₁.setFile n (fun file => { file with size := e.content.length })) (addr + e.stride) es s')
    : MakesNodes heap node i s addr (e :: es) s'

/-- `tar_parse` of an archive makes the nodes for its entries, leaves the archive as it was and
returns the number of entries.
-/
def Parses (heap : TarHeap α) (s : VfsState α) (mem : Nat → UInt8) (node : α) (addr : Nat)
    (entries : List TarEntry)
    : Prop :=
  ∃ fuel s' mem', tarParse fuel heap s mem node addr = some (entries.length, s', mem')
    ∧ MakesNodes heap node 0 s addr entries s' ∧ Archive mem' addr entries

/-- No entry but the last one is a file whose path leads above the node, in the tree as it is then.
-/
def StaysBelow (heap : TarHeap α) (i : Nat) (s : VfsState α) (node : α) (addr : Nat)
    (entries : List TarEntry)
    : Prop :=
  ∀ front e behind s₁ kids, entries = front ++ e :: behind → behind ≠ []
    → MakesNodes heap node i s addr front s₁ → IsTree s₁.links s₁.vfsRoot kids
    → tarType e.typeflag = vfsFile → ¬ s₁.LeadsAbove kids node e.path node

/-- The blocks for nodes are none of the nodes of the tree, and there are enough. -/
def TarHeap.Gives (heap : TarHeap α) : Prop :=
  ∀ i s kids, IsTree s.links s.vfsRoot kids
    → Fresh s kids (heap.blocks i s) ∧ 97 ≤ (heap.blocks i s).length

-----------------------------------------------------------------------------------------
-- Reading a header
-----------------------------------------------------------------------------------------

section Reading

variable {mem mem' : Nat → UInt8} {a n : Nat}

theorem bytesFrom_eq_map (mem : Nat → UInt8) (a n : Nat)
    : bytesFrom mem a n = (List.range n).map (fun k => byteAt mem (a + k)) := by
  induction n generalizing a with
  | zero => rfl
  | succ n ih =>
      rw [bytesFrom, ih, List.range_succ_eq_map, List.map_cons, List.map_map]
      refine congrArg (byteAt mem a :: ·) (List.map_congr_left (fun k _ => ?_))
      rw [Function.comp_apply, Nat.succ_eq_add_one, Nat.add_right_comm, Nat.add_assoc]

theorem bytesFrom_congr (same : ∀ k < n, byteAt mem' (a + k) = byteAt mem (a + k))
    : bytesFrom mem' a n = bytesFrom mem a n := by
  rw [bytesFrom_eq_map, bytesFrom_eq_map]
  exact List.map_congr_left (fun k inside => same k (List.mem_range.mp inside))

theorem bytesFrom_add (mem : Nat → UInt8) (a m n : Nat)
    : bytesFrom mem a (m + n) = bytesFrom mem a m ++ bytesFrom mem (a + m) n := by
  rw [bytesFrom_eq_map, bytesFrom_eq_map, bytesFrom_eq_map, List.range_add, List.map_append,
    List.map_map]
  refine congrArg (_ ++ ·) (List.map_congr_left (fun k _ => ?_))
  rw [Function.comp_apply, Nat.add_assoc]

/-- A pointer into a name points to the rest of it. -/
theorem holds_stringAt {s : List UInt8} {k : Nat} (h : Holds (bytesFrom mem a 100) s)
    (inside : k ≤ s.length)
    : Holds (stringAt mem (a + k)) (s.drop k) := by
  have short : s.length < 100 := by
    have less := h.length_lt
    rwa [bytesFrom_eq_map, List.length_map, List.length_range] at less
  have split : bytesFrom mem a 100 = bytesFrom mem a k ++ bytesFrom mem (a + k) (100 - k) := by
    rw [← bytesFrom_add]
    congr 1
    omega
  have all : stringAt mem (a + k)
      = bytesFrom mem (a + k) (100 - k) ++ bytesFrom mem (a + k + (100 - k)) (2 ^ 32 - (100 - k)) := by
    rw [stringAt, ← bytesFrom_add]
    congr 1
    omega
  have rest := h.drop inside
  rw [split, List.drop_left' (by rw [bytesFrom_eq_map, List.length_map, List.length_range])] at rest
  rw [all]
  exact rest.append _

theorem digitToSize_digit : ∀ d < 8, digitToSize (UInt8.ofNat (0x30 + d)) = d := by
  decide +kernel

/-- A digit more is added to a number that wraps. -/
theorem add_digit (size m : Nat)
    : wrap (wrap (size % 8 ^ m) + size / 8 ^ m % 8 * wrap (8 ^ m)) = wrap (size % 8 ^ (m + 1)) := by
  have next : size % 8 ^ (m + 1) = size % 8 ^ m + size / 8 ^ m % 8 * 8 ^ m := by
    rw [Nat.mul_comm]
    exact Nat.mod_pow_succ
  have low : wrap (size % 8 ^ m) ≡ size % 8 ^ m [MOD 2 ^ 32] := Nat.mod_modEq _ _
  have power : wrap (8 ^ m) ≡ 8 ^ m [MOD 2 ^ 32] := Nat.mod_modEq _ _
  rw [next]
  exact low.add (power.mul_left (size / 8 ^ m % 8))

/-- The weight of the next digit. -/
theorem wrap_mul_eight (m : Nat) : wrap (wrap (8 ^ m) * 8) = wrap (8 ^ (m + 1)) := by
  rw [wrap, wrap, wrap, Nat.mod_mul_mod, pow_succ 8 m]

/-- The digits are added up from the last one on, by induction on those that are left. -/
theorem tarGetSizeLoop_eq {input : Nat → UInt8} {size : Nat}
    (digits : ∀ j < 11, input j = UInt8.ofNat (0x30 + size / 8 ^ (10 - j) % 8)) {j m : Nat}
    (left : j + m = 11)
    : tarGetSizeLoop input j (wrap (8 ^ m)) (wrap (size % 8 ^ m)) = wrap (size % 8 ^ 11) := by
  induction j generalizing m with
  | zero =>
      rw [Nat.zero_add] at left
      rw [tarGetSizeLoop, left]
  | succ j ih =>
      have here : 10 - j = m := by omega
      have digit := digitToSize_digit _ (Nat.mod_lt (size / 8 ^ (10 - j)) (Nat.succ_pos 7))
      rw [← digits j (by omega), here] at digit
      rw [tarGetSizeLoop, digit]
      beta_reduce
      rw [add_digit, wrap_mul_eight]
      exact ih (by omega)

/-- A number that a `size_t` holds. -/
theorem wrap_of_lt {n : Nat} (small : n < 2 ^ 32) : wrap n = n :=
  Nat.mod_eq_of_lt small

/-- `tar_get_size` returns a size that was written with eleven digits. -/
theorem tarGetSize_eq {size : Nat} (written : bytesFrom mem a 11 = octal size)
    (small : size < 2 ^ 32)
    : tarGetSize (fun j => byteAt mem (a + j)) = size := by
  rw [bytesFrom_eq_map, octal, List.map_inj_left] at written
  have digits : ∀ j < 11, byteAt mem (a + j) = UInt8.ofNat (0x30 + size / 8 ^ (10 - j) % 8) :=
    fun j inside => written j (List.mem_range.mpr inside)
  have all := tarGetSizeLoop_eq digits (Nat.add_zero 11)
  have one : wrap (8 ^ 0) = 1 := by decide
  have start : wrap (size % 8 ^ 0) = 0 := by
    rw [pow_zero, Nat.mod_one]
    rfl
  have bound : size < 8 ^ 11 := Nat.lt_trans small (by decide)
  rw [one, start, Nat.mod_eq_of_lt bound, wrap_of_lt small] at all
  exact all

/-- `tar_parse` moves to the next header. -/
theorem tarStride_eq (e : TarEntry) : tarStride e.content.length = e.stride := by
  rw [tarStride, TarEntry.stride]
  split <;> omega

/-- Headers have 512 bytes, and the content is behind them. -/
theorem TarEntry.stride_le (e : TarEntry) : 512 + e.content.length ≤ e.stride := by
  rw [TarEntry.stride]
  omega

end Reading

-----------------------------------------------------------------------------------------
-- Archives stay as they are
-----------------------------------------------------------------------------------------

section Keeping

variable {mem mem' : Nat → UInt8} {addr : Nat} {e : TarEntry} {es : List TarEntry}

/-- An archive ends below 4 GiB, by induction on its entries. -/
theorem Archive.fits (h : Archive mem addr es) : addr + 512 ≤ 2 ^ 32 := by
  induction h with
  | nil fits _ => exact fits
  | cons _ _ ih => exact Nat.le_trans (Nat.add_le_add_right (Nat.le_add_right _ _) 512) ih

/-- Every header takes 512 bytes, by induction on the entries. -/
theorem Archive.length_le (h : Archive mem addr es) : addr + es.length * 512 ≤ 2 ^ 32 := by
  induction h with
  | nil fits _ => exact Nat.le_trans (Nat.le_add_right _ _) fits
  | @cons addr e es _ _ ih =>
      have stride : 512 ≤ e.stride := Nat.le_trans (Nat.le_add_right _ _) e.stride_le
      calc addr + (es.length + 1) * 512
          = addr + 512 + es.length * 512 := by
            rw [Nat.succ_mul, Nat.add_comm (es.length * 512), Nat.add_assoc]
        _ ≤ addr + e.stride + es.length * 512 :=
            Nat.add_le_add_right (Nat.add_le_add_left stride addr) _
        _ ≤ 2 ^ 32 := ih

/-- Only the field `offset` of a header is written to. -/
theorem setOffset_other {a : Nat} (fits : addr + 512 ≤ 2 ^ 32) (small : a < 2 ^ 32)
    (other : a < addr + 160 ∨ addr + 164 ≤ a)
    : setOffset mem addr a = mem a := by
  have position : wrap (addr + 160) = addr + 160 := wrap_of_lt (by omega)
  have far : ¬ wrap (a + 2 ^ 32 - wrap (addr + 160)) < 4 := by
    rw [position, wrap]
    omega
  rw [setOffset]
  exact if_neg far

/-- A header and its content do not depend on the field `offset`. -/
theorem HeaderAt.congr (h : HeaderAt mem addr e) (fits : addr + e.stride ≤ 2 ^ 32)
    (same : ∀ a, addr ≤ a → a < addr + e.stride → a < addr + 160 ∨ addr + 164 ≤ a → mem' a = mem a)
    : HeaderAt mem' addr e := by
  have stride := e.stride_le
  have bytes (k n : Nat) (inside : k + n ≤ e.stride) (other : k + n ≤ 160 ∨ 164 ≤ k)
      : bytesFrom mem' (addr + k) n = bytesFrom mem (addr + k) n := by
    refine bytesFrom_congr (fun i small => ?_)
    have position : wrap (addr + k + i) = addr + k + i := wrap_of_lt (by omega)
    rw [byteAt, byteAt, position]
    exact same _ (by omega) (by omega) (by omega)
  refine ⟨?_, ?_, ?_, ?_⟩
  · have unchanged := bytes 0 100 (by omega) (.inl (by decide))
    rw [Nat.add_zero] at unchanged
    rw [unchanged]
    exact h.name
  · rw [bytes 124 11 (by omega) (.inl (by decide))]
    exact h.size
  · have unchanged := bytes 156 1 (by omega) (.inl (by decide))
    rw [← h.typeflag]
    exact (List.cons.inj unchanged).1
  · rw [bytes 512 _ (by omega) (.inr (by decide))]
    exact h.content

/-- An archive depends on the memory from its address on only, by induction on its entries. -/
theorem Archive.congr (h : Archive mem addr es)
    (same : ∀ a, addr ≤ a → a < 2 ^ 32 → mem' a = mem a)
    : Archive mem' addr es := by
  induction h with
  | @nil addr fits empty =>
      refine .nil fits ?_
      have unchanged : bytesFrom mem' addr 100 = bytesFrom mem addr 100 := by
        refine bytesFrom_congr (fun k small => ?_)
        have position : wrap (addr + k) = addr + k := wrap_of_lt (by omega)
        rw [byteAt, byteAt, position]
        exact same _ (Nat.le_add_right _ _) (by omega)
      rwa [unchanged]
  | @cons addr e es header rest ih =>
      have fits := rest.fits
      have stride := e.stride_le
      refine .cons (header.congr (by omega) (fun a from' to' _ => same a from' (by omega))) ?_
      exact ih (fun a from' => same a (by omega))

end Keeping

-----------------------------------------------------------------------------------------
-- All entries of an archive
-----------------------------------------------------------------------------------------

section Entries

variable {heap : TarHeap α} {node : α} {i : Nat} {s s' : VfsState α} {kids : α → List α}
  {mem : Nat → UInt8} {addr : Nat} {e : TarEntry} {es : List TarEntry}

omit [DecidableEq α] in
theorem Archive.of_cons (h : Archive mem addr (e :: es))
    : HeaderAt mem addr e ∧ Archive mem (addr + e.stride) es := by
  cases h with
  | cons header rest => exact ⟨header, rest⟩

/-- The path of an entry is what the pointer behind `./` points to. -/
theorem HeaderAt.path (h : HeaderAt mem addr e) : Holds (stringAt mem (addr + 2)) e.path :=
  holds_stringAt h.name e.long

theorem TarEntry.path_length (e : TarEntry) : e.path.length ≤ 97 := by
  rw [TarEntry.path, List.length_drop]
  exact Nat.sub_le_sub_right e.short 2

theorem TarEntry.path_holds (e : TarEntry) : Holds (e.path ++ [0]) e.path :=
  holds_append (fun zero => e.nonzero (List.mem_of_mem_drop zero)) []

/-- The nodes are still a tree when a file is assigned to. -/
theorem isTree_setFile (tree : IsTree s.links s.vfsRoot kids) (n : α) (f : VfsFile → VfsFile)
    : IsTree (s.setFile n f).links (s.setFile n f).vfsRoot kids := by
  rw [setFile_links]
  exact tree

/-- The call for an entry, with enough fuel. -/
theorem entry_returns (gives : heap.Gives) (tree : IsTree s.links s.vfsRoot kids)
    (here : s.Inside kids node) (named : Named s kids) (i : Nat) (addr : Nat) (e : TarEntry)
    : ∃ enough n s₁ kids₁ rest,
        (∀ fuel, enough ≤ fuel → s.vfsMakeNode fuel (heap.kmalloc i) (heap.strtok i) node
          (e.path ++ [0]) (tarType e.typeflag) (addr + 512) (heap.blocks i s) = some (n, s₁, rest))
        ∧ Made s s₁ kids kids₁ node e.path (tarType e.typeflag) n := by
  obtain ⟨fresh, room⟩ := gives i s kids tree
  have short := e.path_length
  exact vfsMakeNode_returns tree here named fresh e.path_holds (by omega) (Nat.le_trans short room)
    _ _ _ _

/-- What `StaysBelow` says about the entries behind the first one. -/
theorem StaysBelow.tail (h : StaysBelow heap i s node addr (e :: es)) {fuel : Nat} {n : α}
    {s₁ : VfsState α} {rest : List (NodeBlock α)} (live : s.Node node)
    (called : s.vfsMakeNode fuel (heap.kmalloc i) (heap.strtok i) node (e.path ++ [0])
      (tarType e.typeflag) (addr + 512) (heap.blocks i s) = some (n, s₁, rest))
    : StaysBelow heap (i + 1) (s₁.setFile n (fun file => { file with size := e.content.length })) node
        (addr + e.stride) es := by
  intro front e' behind s₂ kids split nonempty makes
  refine h (e :: front) e' behind s₂ kids ?_ nonempty (.cons live called makes)
  rw [split, List.cons_append]

theorem tarParseLoop_cons (header : HeaderAt mem addr e) (fits : addr + e.stride < 2 ^ 32) (fuel : Nat)
    : tarParseLoop heap node (fuel + 1) i s mem addr
      = (s.vfsMakeNode fuel (heap.kmalloc i) (heap.strtok i) node (e.path ++ [0])
          (tarType e.typeflag) (addr + 512) (heap.blocks i s)).bind (fun r =>
          tarParseLoop heap node fuel (wrap (i + 1))
            (r.2.1.setFile r.1 (fun file => { file with size := e.content.length }))
            (setOffset mem addr) (addr + e.stride)) := by
  have stride := e.stride_le
  have whole : Holds (stringAt mem addr) e.name := holds_stringAt header.name (Nat.zero_le _)
  have long : e.name.length ≠ 0 := Nat.ne_of_gt (Nat.lt_of_lt_of_le Nat.two_pos e.long)
  have short := e.path_length
  have same := vfsMakeNode_congr (s := s) (n := node) header.path e.path_holds (by omega) fuel
    (heap.kmalloc i) (heap.strtok i) (tarType e.typeflag) (addr + 512) (heap.blocks i s)
  rw [tarParseLoop, strlen_eq whole, Option.bind_eq_bind, Option.bind_some, if_neg long]
  dsimp only
  rw [header.typeflag, wrap_of_lt (n := addr + 512) (by omega), same,
    tarGetSize_eq header.size (by omega), tarStride_eq, wrap_of_lt (n := addr + e.stride) fits,
    Option.bind_eq_bind]

/-- The loop of `tar_parse` from a header on, by induction on the entries. An entry changes the
tree and the offset in its own header, so the archive behind it is what it was.
-/
theorem tarParseLoop_returns (gives : heap.Gives) (tree : IsTree s.links s.vfsRoot kids)
    (here : es ≠ [] → s.Inside kids node) (named : Named s kids) (archive : Archive mem addr es)
    (stays : StaysBelow heap i s node addr es) (count : i + es.length < 2 ^ 32)
    : ∃ enough s' mem',
        (∀ fuel, enough ≤ fuel
          → tarParseLoop heap node fuel i s mem addr = some (i + es.length, s', mem'))
        ∧ MakesNodes heap node i s addr es s' ∧ Archive mem' addr es
        ∧ ∀ a < addr, mem' a = mem a := by
  induction es generalizing i s kids mem addr with
  | nil =>
      cases archive with
      | nil fits empty =>
          have ends : Holds (stringAt mem addr) [] := holds_stringAt empty (Nat.zero_le _)
          refine ⟨1, s, mem, fun fuel enough => ?_, .nil, .nil fits empty, fun _ _ => rfl⟩
          obtain ⟨fuel, rfl⟩ := Nat.exists_eq_add_of_le' enough
          rw [tarParseLoop, strlen_eq ends]
          rfl
  | cons e es ih =>
      obtain ⟨header, rest⟩ := archive.of_cons
      have inside := here (List.cons_ne_nil e es)
      have live : s.Node node := tree.reachable_iff.mpr inside
      obtain ⟨enough, n, s₁, kids₁, blocks, called, made⟩ :=
        entry_returns gives tree inside named i addr e
      have called₁ := called enough le_rfl
      have tree₁ := isTree_setFile made.tree n (fun file => { file with size := e.content.length })
      have named₁ := made.named.setFile n (fun file => { file with size := e.content.length })
      have here₁ (more : es ≠ []) : s₁.Inside kids₁ node :=
        (made.old node inside).mpr (fun above =>
          stays [] e es s kids rfl more .nil tree above.1 above.2)
      have fits := rest.fits
      have stride := e.stride_le
      have stays₁ := stays.tail live called₁
      -- The later headers are as they were.
      have kept : Archive (setOffset mem addr) (addr + e.stride) es :=
        rest.congr (fun a from' small => setOffset_other (by omega) small (.inr (by omega)))
      rw [List.length_cons] at count
      obtain ⟨enough', s', mem', later, makes, archive', below⟩ :=
        ih tree₁ here₁ named₁ kept stays₁ (by omega)
      refine ⟨max enough enough' + 1, s', mem', fun fuel bound => ?_, .cons live called₁ makes,
        .cons ?_ archive', fun a before => ?_⟩
      · obtain ⟨fuel, rfl⟩ := Nat.exists_eq_add_of_le' (Nat.le_trans (Nat.le_add_left 1 _) bound)
        have bounds := max_le_iff.mp (Nat.le_of_succ_le_succ bound)
        rw [tarParseLoop_cons header (by omega), called fuel bounds.1, Option.bind_some,
          wrap_of_lt (n := i + 1) (by omega), later fuel bounds.2]
        rw [List.length_cons, Nat.add_right_comm, Nat.add_assoc]
      · refine header.congr (by omega) (fun a from' before other => ?_)
        rw [below a before]
        exact setOffset_other (by omega) (by omega) other
      · rw [below a (by omega)]
        exact setOffset_other (by omega) (by omega) (.inl (by omega))

theorem entry_unique {fuel fuel' : Nat} {r r' : α × VfsState α × List (NodeBlock α)}
    (called : s.vfsMakeNode fuel (heap.kmalloc i) (heap.strtok i) node (e.path ++ [0])
      (tarType e.typeflag) (addr + 512) (heap.blocks i s) = some r)
    (called' : s.vfsMakeNode fuel' (heap.kmalloc i) (heap.strtok i) node (e.path ++ [0])
      (tarType e.typeflag) (addr + 512) (heap.blocks i s) = some r')
    : r = r' := by
  have more := vfsMakeNode_mono (le_max_left fuel fuel') called
  have more' := vfsMakeNode_mono (le_max_right fuel fuel') called'
  exact Option.some.inj (more.symm.trans more')

theorem entry_made (gives : heap.Gives) (tree : IsTree s.links s.vfsRoot kids)
    (live : s.Node node) (named : Named s kids) {fuel : Nat} {n : α} {s₁ : VfsState α}
    {rest : List (NodeBlock α)}
    (called : s.vfsMakeNode fuel (heap.kmalloc i) (heap.strtok i) node (e.path ++ [0])
      (tarType e.typeflag) (addr + 512) (heap.blocks i s) = some (n, s₁, rest))
    : ∃ kids₁, Made s s₁ kids kids₁ node e.path (tarType e.typeflag) n := by
  have inside := tree.reachable_iff.mp live
  obtain ⟨enough, n', s₁', kids₁, rest', calls, made⟩ :=
    entry_returns gives tree inside named i addr e
  obtain ⟨rfl, same⟩ := Prod.mk.inj (entry_unique called (calls enough le_rfl))
  obtain ⟨rfl, -⟩ := Prod.mk.inj same
  exact ⟨kids₁, made⟩

omit [DecidableEq α] in
/-- Names do not depend on how the tree is described. -/
theorem named_of_isTree {kids' : α → List α} (tree : IsTree s.links s.vfsRoot kids)
    (tree' : IsTree s.links s.vfsRoot kids') (named : Named s kids)
    : Named s kids' :=
  fun n inside => named n (tree.reachable_iff.mp (tree'.reachable_iff.mpr inside))

/-- The nodes are a tree with names after the calls for some entries, by induction on them. -/
theorem MakesNodes.tree (gives : heap.Gives) (h : MakesNodes heap node i s addr es s')
    (tree : IsTree s.links s.vfsRoot kids) (named : Named s kids)
    : ∃ kids', IsTree s'.links s'.vfsRoot kids' ∧ Named s' kids' := by
  induction h generalizing kids with
  | nil => exact ⟨kids, tree, named⟩
  | cons live called _ ih =>
      obtain ⟨kids₁, made⟩ := entry_made gives tree live named called
      exact ih (isTree_setFile made.tree _ _) (made.named.setFile _ _)

/-- The calls for the entries behind some others, by induction on those. -/
theorem MakesNodes.behind {front behind : List TarEntry} {s₁ : VfsState α}
    (all : MakesNodes heap node i s addr (front ++ behind) s')
    (first : MakesNodes heap node i s addr front s₁)
    : ∃ j addr', MakesNodes heap node j s₁ addr' behind s' := by
  induction first with
  | nil => exact ⟨_, _, all⟩
  | cons _ called _ ih =>
      cases all with
      | cons _ called' later =>
          obtain ⟨rfl, same⟩ := Prod.mk.inj (entry_unique called called')
          obtain ⟨rfl, -⟩ := Prod.mk.inj same
          exact ih later

/-- The node is one of the tree when there is an entry left. -/
theorem MakesNodes.live (h : MakesNodes heap node i s addr es s') (more : es ≠ []) : s.Node node := by
  cases h with
  | nil => exact absurd rfl more
  | cons live _ _ => exact live

/-- `tar_parse` parses every archive in which no file but the last entry has a path that leads
above the node, and no others. By induction on the entries, the nodes stay a tree with the node in
it as long as no file is made above the node: making one frees all that is below it, and the next
entry would be added there.
-/
theorem parses_iff_staysBelow (gives : heap.Gives) (tree : IsTree s.links s.vfsRoot kids)
    (here : s.Inside kids node) (named : Named s kids) (archive : Archive mem addr es)
    : Parses heap s mem node addr es ↔ StaysBelow heap 0 s node addr es := by
  constructor
  · rintro ⟨-, s', -, -, makes, -⟩ front e behind s₁ kids₁ rfl more first tree₁ isFile above
    obtain ⟨j, addr', left⟩ := makes.behind first
    obtain ⟨kids₁', tree₁', named₁'⟩ := first.tree gives tree named
    have named₁ := named_of_isTree tree₁' tree₁ named₁'
    cases left with
    | @cons _ _ _ _ _ _ _ _ n _ live called later =>
        obtain ⟨kids₂, made⟩ := entry_made gives tree₁ live named₁ called
        have tree₂ := isTree_setFile made.tree n (fun file => { file with size := e.content.length })
        have inside := tree₂.reachable_iff.mp (later.live more)
        exact (made.old node (tree₁.reachable_iff.mp live)).mp inside ⟨isFile, above⟩
  · intro stays
    have count : 0 + es.length < 2 ^ 32 := by
      have bound := archive.length_le
      omega
    obtain ⟨enough, s', mem', parsed, makes, archive', -⟩ :=
      tarParseLoop_returns gives tree (fun _ => here) named archive stays count
    rw [Nat.zero_add] at parsed
    exact ⟨enough, s', mem', parsed enough le_rfl, makes, archive'⟩

end Entries

-----------------------------------------------------------------------------------------
-- Two archives
-----------------------------------------------------------------------------------------

section Examples

def headerBytes (e : TarEntry) (k : Nat) : UInt8 :=
  if k < 100 then (e.name[k]?).getD 0
  else if 124 ≤ k ∧ k < 135 then ((octal e.content.length)[k - 124]?).getD 0
  else if k = 156 then e.typeflag
  else if 512 ≤ k then (e.content[k - 512]?).getD 0
  else 0

def archiveBytes : List TarEntry → Nat → UInt8
  | [] => fun _ => 0
  | e :: es => fun a => if a < e.stride then headerBytes e a else archiveBytes es (a - e.stride)

def dirEntry : TarEntry where
  name := [dot, slash, 0x64]
  typeflag := 53
  content := []
  nonzero := by decide
  long := by decide
  short := by decide

def fileEntry (content : List UInt8) : TarEntry where
  name := [dot, slash, 0x61]
  typeflag := 48
  content
  nonzero := by decide
  long := by decide
  short := by decide

def upEntry : TarEntry where
  name := [dot, slash, dot, dot]
  typeflag := 48
  content := []
  nonzero := by decide
  long := by decide
  short := by decide

/-- The directory `/` with the directory `b`. -/
def pairState : VfsState Nat where
  node n :=
    { (zeroBlock n).contents with
      name := if n = 0 then [slash, 0] else [0x62, 0]
      parent := some 0
      childs := if n = 0 then some 1 else none }
  vfsRoot := 0
  tmpfsRoot := none
  devfsRoot := none

def pairKids (n : Nat) : List Nat :=
  if n = 0 then [1] else []

theorem below_pairKids {n : Nat} (below : Below pairKids 0 n) : n = 0 ∨ n = 1 := by
  induction below with
  | refl => exact .inl rfl
  | tail _ member ih =>
      rcases ih with rfl | rfl
      · exact .inr (List.mem_singleton.mp member)
      · cases member

theorem isTree_pairState : IsTree pairState.links pairState.vfsRoot pairKids := by
  refine ⟨rfl, rfl, fun n below => ?_, fun n below c member => ?_, fun n below member => ?_, ?_⟩
  · rcases below_pairKids below with rfl | rfl
    · exact ⟨rfl, rfl⟩
    · rfl
  · rcases below_pairKids below with rfl | rfl
    · rfl
    · cases member
  · rcases below_pairKids below with rfl | rfl
    · cases List.mem_singleton.mp member
    · cases member
  · exact (Set.toFinite {0, 1}).subset (fun n below => below_pairKids below)

theorem named_pairState : Named pairState pairKids := by
  intro n below
  rcases below_pairKids below with rfl | rfl <;> decide

/-- There are blocks that are none of the nodes of a tree, and they begin with a given one if that
is none of them.
-/
theorem exists_blocks (s : VfsState Nat) (x : Nat)
    : ∃ blocks : List (NodeBlock Nat), ∀ kids, IsTree s.links s.vfsRoot kids
        → (Fresh s kids blocks ∧ 97 ≤ blocks.length)
          ∧ (¬ s.Node x → ∃ rest, blocks = zeroBlock x :: rest) := by
  by_cases some : ∃ kids, IsTree s.links s.vfsRoot kids
  · obtain ⟨kids, tree⟩ := some
    obtain ⟨unused, apart, count⟩ :=
      (tree.finite.union (Set.finite_singleton x)).infinite_compl.exists_subset_card_eq 97
    have outside (a : Nat) (member : a ∈ unused) : ¬ s.Inside kids a ∧ a ≠ x :=
      not_or.mp (apart member)
    have addrs : (unused.toList.map zeroBlock).map NodeBlock.addr = unused.toList := by
      rw [List.map_map]
      exact List.map_id _
    have fresh : Fresh s kids (unused.toList.map zeroBlock) := by
      refine ⟨?_, fun block member => ?_⟩
      · rw [addrs]
        exact unused.nodup_toList
      · obtain ⟨a, among, rfl⟩ := List.mem_map.mp member
        exact (outside a (Finset.mem_toList.mp among)).1
    have room : 97 ≤ (unused.toList.map zeroBlock).length := by
      rw [List.length_map, Finset.length_toList, count]
    have other {kids' : Nat → List Nat} (tree' : IsTree s.links s.vfsRoot kids')
        {blocks : List (NodeBlock Nat)} (h : Fresh s kids blocks)
        : Fresh s kids' blocks :=
      ⟨h.nodup, fun block member inside =>
        h.apart block member (tree.reachable_iff.mp (tree'.reachable_iff.mpr inside))⟩
    by_cases live : s.Node x
    · exact ⟨_, fun kids' tree' => ⟨⟨other tree' fresh, room⟩, fun gone => absurd live gone⟩⟩
    · refine ⟨zeroBlock x :: unused.toList.map zeroBlock, fun kids' tree' =>
        ⟨⟨other tree' ⟨?_, List.forall_mem_cons.mpr ⟨?_, fresh.apart⟩⟩, Nat.le_succ_of_le room⟩,
          fun _ => ⟨_, rfl⟩⟩⟩
      · rw [List.map_cons, addrs]
        refine List.nodup_cons.mpr ⟨fun member => ?_, unused.nodup_toList⟩
        exact (outside x (Finset.mem_toList.mp member)).2 rfl
      · exact fun inside => live (tree.reachable_iff.mpr inside)
  · exact ⟨[], fun kids tree => absurd ⟨kids, tree⟩ some⟩

/-- There is a heap that gives a freed block again. -/
theorem exists_heap (x : Nat)
    : ∃ heap : TarHeap Nat, heap.Gives ∧ (∀ i, heap.kmalloc i = zeros ∧ heap.strtok i = none)
        ∧ ∀ i s kids, IsTree s.links s.vfsRoot kids → ¬ s.Node x
          → ∃ rest, heap.blocks i s = zeroBlock x :: rest := by
  choose blocks gives using fun s => exists_blocks s x
  exact ⟨⟨fun _ => zeros, fun _ => none, fun _ s => blocks s⟩,
    fun _ s kids tree => (gives s kids tree).1, fun _ => ⟨rfl, rfl⟩,
    fun _ s kids tree => (gives s kids tree).2⟩

theorem archive_dir
    : Archive (archiveBytes [dirEntry, fileEntry [0x68, 0x69]]) 0
        [dirEntry, fileEntry [0x68, 0x69]] := by
  refine .cons ⟨?_, ?_, ?_, ?_⟩ (.cons ⟨?_, ?_, ?_, ?_⟩ (.nil ?_ ?_)) <;> decide +kernel

theorem parses_dir
    : ∃ heap : TarHeap Nat, heap.Gives
        ∧ Parses heap pairState (archiveBytes [dirEntry, fileEntry [0x68, 0x69]]) 1 0
          [dirEntry, fileEntry [0x68, 0x69]] := by
  obtain ⟨heap, gives, -⟩ := exists_heap 0
  have here : pairState.Inside pairKids 1 := below_of_mem (List.mem_singleton_self 1)
  refine ⟨heap, gives, (parses_iff_staysBelow gives isTree_pairState here named_pairState
    archive_dir).mpr ?_⟩
  intro front e behind s₁ kids split more _ _ isFile
  cases front with
  | nil =>
      obtain ⟨rfl, -⟩ := List.cons.inj split
      cases isFile
  | cons _ front =>
      have last := congrArg List.length split
      have positive := List.length_pos_iff.mpr more
      simp only [List.length_cons, List.length_append, List.length_nil] at last
      omega

/-- Freeing a node that is its own child does not return. -/
theorem freeNodes_self {s : VfsState Nat} {n : Nat} (self : (s.node n).childs = some n) (fuel : Nat)
    : s.freeNodes fuel (some n) = none := by
  induction fuel with
  | zero => rfl
  | succ fuel ih =>
      rw [freeNodes, self, ih]
      rfl

/-- After `..` has become a file, the file `a` is put into its own block. -/
theorem pairState_stuck
    : ∃ s₁ : VfsState Nat,
        (∀ blocks, pairState.vfsMakeNode 8 zeros none 1 [dot, dot, 0] vfsFile 512 blocks
          = some (0, s₁, blocks))
        ∧ s₁.vfsRoot = 0 ∧ IsTree s₁.links s₁.vfsRoot (fun _ => [])
        ∧ ∀ fuel rest, (s₁.setFile 0 (fun file => { file with size := 0 })).vfsMakeNode fuel zeros none 1
          [0x61, 0] vfsFile 1024 (zeroBlock 1 :: rest) = none := by
  refine ⟨_, fun _ => rfl, rfl, isTree_alone rfl rfl rfl, fun fuel rest => ?_⟩
  match fuel with
  | 0 => rfl
  | 1 => rfl
  | fuel + 2 =>
      change (vfsFreeChildNodes (fuel + 2) _ 1).bind _ = none
      rw [vfsFreeChildNodes]
      change ((freeNodes (fuel + 2) _ (some 1)).bind _).bind _ = none
      rw [freeNodes_self rfl]
      rfl

theorem archive_up : Archive (archiveBytes [upEntry, fileEntry []]) 0 [upEntry, fileEntry []] := by
  refine .cons ⟨?_, ?_, ?_, ?_⟩ (.cons ⟨?_, ?_, ?_, ?_⟩ (.nil ?_ ?_)) <;> decide +kernel

/-- Parsing it does not return. -/
theorem not_parses
    : ¬ ∀ (heap : TarHeap Nat) (s : VfsState Nat) (kids : Nat → List Nat) (mem : Nat → UInt8)
        (node addr : Nat) (entries : List TarEntry),
        heap.Gives → IsTree s.links s.vfsRoot kids → s.Inside kids node → Named s kids
          → Archive mem addr entries
          → ∃ fuel s' mem', tarParse fuel heap s mem node addr = some (entries.length, s', mem') := by
  intro claim
  obtain ⟨heap, gives, buffers, reuses⟩ := exists_heap 1
  have here : pairState.Inside pairKids 1 := below_of_mem (List.mem_singleton_self 1)
  obtain ⟨fuel, s', mem', parsed⟩ := claim heap pairState pairKids _ 1 0 _ gives isTree_pairState here
    named_pairState archive_up
  obtain ⟨s₁, up, first, alone, stuck⟩ := pairState_stuck
  obtain ⟨header, rest⟩ := archive_up.of_cons
  obtain ⟨header', -⟩ := rest.of_cons
  cases fuel with
  | zero => cases parsed
  | succ fuel =>
      rw [tarParse, tarParseLoop_cons header (by decide)] at parsed
      obtain ⟨r, called, parsed⟩ := Option.bind_eq_some_iff.mp parsed
      obtain ⟨kmalloc, strtok⟩ := buffers 0
      -- The first entry frees the node.
      have known := up (heap.blocks 0 pairState)
      rw [← kmalloc, ← strtok] at known
      obtain rfl := entry_unique (e := upEntry) known called
      cases fuel with
      | zero => cases parsed
      | succ fuel =>
          have kept : HeaderAt (setOffset (archiveBytes [upEntry, fileEntry []]) 0)
              (0 + upEntry.stride) (fileEntry []) :=
            header'.congr (by decide) (fun a from' small _ =>
              setOffset_other (by decide) (Nat.lt_trans small (by decide))
                (.inr (Nat.le_trans (by decide) from')))
          rw [tarParseLoop_cons kept (by decide)] at parsed
          obtain ⟨r', called', -⟩ := Option.bind_eq_some_iff.mp parsed
          -- Its block is given again.
          have alone' := isTree_setFile alone 0 (fun file => { file with size := 0 })
          have gone : ¬ (s₁.setFile 0 (fun file => { file with size := 0 })).Node 1 := by
            intro live
            have root : 1 = s₁.vfsRoot := (alone'.reachable_iff.mp live).of_nil rfl
            cases root.trans first
          obtain ⟨rest', reused⟩ := reuses (wrap (0 + 1)) _ _ alone' gone
          obtain ⟨kmalloc', strtok'⟩ := buffers (wrap (0 + 1))
          have never := stuck fuel rest'
          rw [← reused, ← kmalloc', ← strtok'] at never
          cases never.symm.trans called'

end Examples

end Hydrangea
