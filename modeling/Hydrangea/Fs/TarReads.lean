import Hydrangea.Fs.Initrd
import Hydrangea.Lib.Traced

/-! The bytes of headers that `tar_parse` of `kernel/fs/initrd/initrd.c` reads in a boot module. -/

namespace Hydrangea

open CString Linked LinkedTree Vfs VfsState

-----------------------------------------------------------------------------------------
-- The functions
-----------------------------------------------------------------------------------------

structure BootModule where
  modStart : Nat
  modEnd : Nat
  ordered : modStart ≤ modEnd
  small : modEnd < 2 ^ 32

/-- The nodes and the memory. -/
structure TarState (α : Type) where
  vfs : VfsState α
  mem : Nat → UInt8

/-- A computation that leaves the addresses of the bytes of headers that it reads. It stops when it
does not return.
-/
abbrev TarReads (α β : Type) : Type :=
  Traced Nat (TarState α) β

namespace TarReads

variable {α : Type} [DecidableEq α]

def readByte (a : Nat) : TarReads α UInt8 := do
  Traced.emit (wrap a)
  let s ← Traced.state
  return byteAt s.mem a

def readString : (fuel a : Nat) → TarReads α Nat
  | 0, _ => Traced.stop
  | fuel + 1, a => do
      let c ← readByte a
      if c = 0 then
        return 0
      else do
        let length ← readString fuel (a + 1)
        return length + 1

/-- The loop of `tar_get_size`, for an input in a header. -/
def readSizeLoop (input : Nat) : (j : Nat) → (count size : Nat) → TarReads α Nat
  | 0, _, size => return size
  | j + 1, count, size => do
      let c ← readByte (input + j)
      readSizeLoop input j (wrap (count * 8)) (wrap (size + digitToSize c * count))

/-- `tar_get_size`. -/
def readSize (input : Nat) : TarReads α Nat :=
  readSizeLoop input 11 1 0

/-- `vfs_make_node` for the header at `addr`: it copies the path from there. -/
def makeNode (heap : TarHeap α) (node : α) (fuel i addr type : Nat) : TarReads α α := do
  let _ ← readString (2 ^ 32) (addr + 2)
  let s ← Traced.state
  match s.vfs.vfsMakeNode fuel (heap.kmalloc i) (heap.strtok i) node (stringAt s.mem (addr + 2)) type
      (wrap (addr + 512)) (heap.blocks i s.vfs) with
  | none => Traced.stop
  | some (n, vfs, _) => do
      Traced.enter { s with vfs }
      return n

def tarParseLoop (heap : TarHeap α) (node : α) : (fuel i addr : Nat) → TarReads α Nat
  | 0, _, _ => Traced.stop
  | fuel + 1, i, addr => do
      let length ← readString (2 ^ 32) addr
      if length = 0 then
        return i
      else do
        let typeflag ← readByte (addr + 156)
        let n ← makeNode heap node fuel i addr (tarType typeflag)
        let size ← readSize (addr + 124)
        let s ← Traced.state
        Traced.enter
          { vfs := s.vfs.setFile n (fun file => { file with size }), mem := setOffset s.mem addr }
        tarParseLoop heap node fuel (wrap (i + 1)) (wrap (addr + tarStride size))

def tarParse (heap : TarHeap α) (node : α) (fuel addr : Nat) : TarReads α Nat :=
  tarParseLoop heap node fuel 0 addr

end TarReads

-----------------------------------------------------------------------------------------
-- The property
-----------------------------------------------------------------------------------------

def BootModule.Inside (m : BootModule) (a : Nat) : Prop :=
  m.modStart ≤ a ∧ a < m.modEnd

/-- `tar_parse` of a module returns, and every byte of a header that it reads is in the module. -/
def ParsesInside {α : Type} [DecidableEq α] (heap : TarHeap α) (s : VfsState α) (mem : Nat → UInt8)
    (node : α) (m : BootModule)
    : Prop :=
  ∃ fuel count s', (TarReads.tarParse heap node fuel m.modStart).Ends ⟨s, mem⟩ m.Inside count s'

def nextHeader (mem : Nat → UInt8) (addr : Nat) : Nat :=
  wrap (addr + tarStride (tarGetSize (fun j => byteAt mem (addr + 124 + j))))

namespace BootModule

def header (m : BootModule) (mem : Nat → UInt8) (k : Nat) : Nat :=
  (nextHeader mem)^[k] m.modStart

def StringInside (m : BootModule) (mem : Nat → UInt8) (a : Nat) : Prop :=
  ∃ k < 2 ^ 32, byteAt mem (a + k) = 0 ∧ ∀ j ≤ k, m.Inside (wrap (a + j))

/-- The fields of the header at an address are in the module. -/
structure HeaderInside (m : BootModule) (mem : Nat → UInt8) (addr : Nat) : Prop where
  name : m.StringInside mem addr
  path : m.StringInside mem (addr + 2)
  typeflag : m.Inside (wrap (addr + 156))
  size : ∀ j < 11, m.Inside (wrap (addr + 124 + j))

/-- The first headers have names and are in the module, and so is the next one, which has none. -/
structure EndsInside (m : BootModule) (mem : Nat → UInt8) (n : Nat) : Prop where
  named : ∀ k < n, byteAt mem (m.header mem k) ≠ 0
  inside : ∀ k < n, m.HeaderInside mem (m.header mem k)
  empty : byteAt mem (m.header mem n) = 0
  last : m.Inside (m.header mem n)

def blocks (m : BootModule) : Nat :=
  (m.modEnd - m.modStart + 511) / 512

end BootModule

section

variable {α : Type} [DecidableEq α]

def headerNode (heap : TarHeap α) (node : α) (fuel i : Nat) (s : VfsState α) (mem : Nat → UInt8)
    (addr : Nat)
    : Option (VfsState α) := do
  let (n, s, _) ← s.vfsMakeNode fuel (heap.kmalloc i) (heap.strtok i) node (stringAt mem (addr + 2))
    (tarType (byteAt mem (addr + 156))) (wrap (addr + 512)) (heap.blocks i s)
  return s.setFile n (fun file =>
    { file with size := tarGetSize (fun j => byteAt mem (addr + 124 + j)) })

/-- The calls of `vfs_make_node` for some headers return. -/
inductive NodesMade (heap : TarHeap α) (node : α) (mem : Nat → UInt8)
    : (n i : Nat) → VfsState α → (addr : Nat) → Prop
  | nil {i : Nat} {s : VfsState α} {addr : Nat} : NodesMade heap node mem 0 i s addr
  | cons {n i fuel : Nat} {s s₁ : VfsState α} {addr : Nat}
      (made : headerNode heap node fuel i s mem addr = some s₁)
      (later : NodesMade heap node mem n (wrap (i + 1)) s₁ (nextHeader mem addr))
    : NodesMade heap node mem (n + 1) i s addr

end

-----------------------------------------------------------------------------------------
-- What is read
-----------------------------------------------------------------------------------------

namespace TarReads

variable {α : Type} {st st' : TarState α} {inside : Nat → Prop} {a : Nat}

theorem ends_readByte {c : UInt8}
    : (readByte a).Ends st inside c st' ↔ inside (wrap a) ∧ c = byteAt st.mem a ∧ st' = st := by
  rw [readByte, Traced.ends_bind]
  simp only [Traced.ends_bind, Traced.ends_emit, Traced.ends_state, Traced.ends_pure]
  constructor
  · rintro ⟨_, _, ⟨here, rfl⟩, _, _, ⟨rfl, rfl⟩, rfl, rfl⟩
    exact ⟨here, rfl, rfl⟩
  · rintro ⟨here, rfl, rfl⟩
    exact ⟨(), _, ⟨here, rfl⟩, _, _, ⟨rfl, rfl⟩, rfl, rfl⟩

/-- Reading a string reads the bytes up to the first zero, by induction on the fuel. -/
theorem ends_readString {fuel length : Nat}
    : (readString fuel a).Ends st inside length st'
      ↔ length < fuel ∧ (∀ j < length, byteAt st.mem (a + j) ≠ 0) ∧ byteAt st.mem (a + length) = 0
        ∧ (∀ j ≤ length, inside (wrap (a + j))) ∧ st' = st := by
  induction fuel generalizing a length st st' with
  | zero => exact iff_of_false Traced.not_ends_stop (fun none => Nat.not_lt_zero _ none.1)
  | succ fuel ih =>
      rw [readString, Traced.ends_bind]
      constructor
      · rintro ⟨c, st₁, byte, rest⟩
        obtain ⟨here, rfl, rfl⟩ := ends_readByte.mp byte
        split at rest
        · next zero =>
            obtain ⟨rfl, rfl⟩ := Traced.ends_pure.mp rest
            refine ⟨Nat.succ_pos _, fun j small => absurd small (Nat.not_lt_zero j), zero, ?_, rfl⟩
            intro j small
            rwa [Nat.le_zero.mp small]
        · next nonzero =>
            obtain ⟨behind, st₂, string, returned⟩ := Traced.ends_bind.mp rest
            obtain ⟨enough, nonzeros, zero, insides, rfl⟩ := ih.mp string
            obtain ⟨rfl, rfl⟩ := Traced.ends_pure.mp returned
            refine ⟨Nat.succ_lt_succ enough, fun j small => ?_, ?_, fun j small => ?_, rfl⟩
            · cases j with
              | zero => exact nonzero
              | succ j =>
                  rw [← Nat.add_assoc, Nat.add_right_comm]
                  exact nonzeros j (Nat.lt_of_succ_lt_succ small)
            · rw [← Nat.add_assoc, Nat.add_right_comm]
              exact zero
            · cases j with
              | zero => exact here
              | succ j =>
                  rw [← Nat.add_assoc, Nat.add_right_comm]
                  exact insides j (Nat.le_of_succ_le_succ small)
      · rintro ⟨enough, nonzeros, zero, insides, rfl⟩
        refine ⟨byteAt st'.mem a, st', ends_readByte.mpr ⟨insides 0 (Nat.zero_le _), rfl, rfl⟩, ?_⟩
        cases length with
        | zero =>
            rw [Nat.add_zero] at zero
            rw [if_pos zero]
            exact Traced.ends_pure.mpr ⟨rfl, rfl⟩
        | succ length =>
            have nonzero : byteAt st'.mem a ≠ 0 := nonzeros 0 (Nat.succ_pos _)
            rw [if_neg nonzero, Traced.ends_bind]
            refine ⟨length, st', ih.mpr ?_, Traced.ends_pure.mpr ⟨rfl, rfl⟩⟩
            have shift (j : Nat) : a + 1 + j = a + (j + 1) := by
              rw [Nat.add_assoc, Nat.add_comm 1]
            simp only [shift]
            exact ⟨Nat.lt_of_succ_lt_succ enough, fun j small => nonzeros _ (Nat.succ_lt_succ small),
              zero, fun j small => insides _ (Nat.succ_le_succ small), trivial⟩

/-- `strlen` is what it returns, by induction on the fuel. -/
theorem returned_readString (fuel a : Nat) (st : TarState α)
    : (readString fuel a st).returned = (strlen (bytesFrom st.mem a fuel)).map (fun n => (n, st)) := by
  induction fuel generalizing a with
  | zero => rfl
  | succ fuel ih =>
      have byte : (readByte a st).returned = some (byteAt st.mem a, st) := rfl
      rw [readString, Traced.returned_bind, byte, Option.bind_some, bytesFrom, strlen]
      dsimp only
      by_cases zero : byteAt st.mem a = 0
      · rw [if_pos zero, if_pos zero]
        rfl
      · rw [if_neg zero, if_neg zero, Traced.returned_bind, ih]
        cases strlen (bytesFrom st.mem (a + 1) fuel) <;> rfl

attribute [irreducible] readString

theorem ends_readString_iff {m : BootModule}
    : (∃ length st', (readString (2 ^ 32) a).Ends st m.Inside length st')
      ↔ m.StringInside st.mem a := by
  constructor
  · rintro ⟨length, st', string⟩
    obtain ⟨enough, -, zero, insides, -⟩ := ends_readString.mp string
    exact ⟨length, enough, zero, insides⟩
  · rintro ⟨k, enough, zero, insides⟩
    have found : ∃ k, byteAt st.mem (a + k) = 0 := ⟨k, zero⟩
    have first : Nat.find found ≤ k := Nat.find_min' found zero
    refine ⟨Nat.find found, st, ends_readString.mpr ⟨Nat.lt_of_le_of_lt first enough,
      fun j small => Nat.find_min found small, Nat.find_spec found,
      fun j small => insides j (Nat.le_trans small first), rfl⟩⟩

/-- Reading a size, by induction on the digits that are left. -/
theorem ends_readSizeLoop {input j count size total : Nat}
    : (readSizeLoop input j count size).Ends st inside total st'
      ↔ total = tarGetSizeLoop (fun k => byteAt st.mem (input + k)) j count size
        ∧ (∀ k < j, inside (wrap (input + k))) ∧ st' = st := by
  induction j generalizing count size st with
  | zero =>
      rw [readSizeLoop, Traced.ends_pure, tarGetSizeLoop]
      constructor
      · rintro ⟨rfl, rfl⟩
        exact ⟨rfl, fun k none => absurd none (Nat.not_lt_zero k), rfl⟩
      · rintro ⟨rfl, -, rfl⟩
        exact ⟨rfl, rfl⟩
  | succ j ih =>
      rw [readSizeLoop, Traced.ends_bind, tarGetSizeLoop, Nat.forall_lt_succ_right]
      beta_reduce
      constructor
      · rintro ⟨c, st₁, byte, rest⟩
        obtain ⟨here, rfl, rfl⟩ := ends_readByte.mp byte
        obtain ⟨sum, insides, same⟩ := ih.mp rest
        exact ⟨sum, ⟨insides, here⟩, same⟩
      · rintro ⟨sum, ⟨insides, here⟩, same⟩
        exact ⟨_, st, ends_readByte.mpr ⟨here, rfl, rfl⟩, ih.mpr ⟨sum, insides, same⟩⟩

/-- `tar_get_size` reads eleven digits. -/
theorem ends_readSize {input size : Nat}
    : (readSize input).Ends st inside size st'
      ↔ size = tarGetSize (fun k => byteAt st.mem (input + k))
        ∧ (∀ k < 11, inside (wrap (input + k))) ∧ st' = st :=
  ends_readSizeLoop

variable [DecidableEq α] {heap : TarHeap α} {node : α}

theorem ends_makeNode {m : BootModule} {fuel i addr type : Nat} {n : α}
    : (makeNode heap node fuel i addr type).Ends st m.Inside n st'
      ↔ m.StringInside st.mem (addr + 2)
        ∧ ∃ vfs rest, st.vfs.vfsMakeNode fuel (heap.kmalloc i) (heap.strtok i) node
            (stringAt st.mem (addr + 2)) type (wrap (addr + 512)) (heap.blocks i st.vfs)
              = some (n, vfs, rest)
          ∧ st' = { st with vfs } := by
  rw [makeNode, Traced.ends_bind]
  constructor
  · rintro ⟨length, st₁, string, rest⟩
    obtain ⟨_, _, _, _, rfl⟩ := ends_readString.mp string
    obtain ⟨_, _, read, making⟩ := Traced.ends_bind.mp rest
    obtain ⟨rfl, rfl⟩ := Traced.ends_state.mp read
    refine ⟨ends_readString_iff.mp ⟨length, _, string⟩, ?_⟩
    split at making
    · exact absurd making Traced.not_ends_stop
    · next n' vfs blocks called =>
        obtain ⟨_, _, entered, returned⟩ := Traced.ends_bind.mp making
        obtain rfl := Traced.ends_enter.mp entered
        obtain ⟨rfl, rfl⟩ := Traced.ends_pure.mp returned
        exact ⟨vfs, blocks, called, rfl⟩
  · rintro ⟨string, vfs, blocks, called, rfl⟩
    obtain ⟨length, st₁, string⟩ := ends_readString_iff.mpr string
    obtain ⟨_, _, _, _, rfl⟩ := ends_readString.mp string
    refine ⟨length, _, string, Traced.ends_bind.mpr ⟨_, _, Traced.ends_state.mpr ⟨rfl, rfl⟩, ?_⟩⟩
    rw [called]
    exact Traced.ends_bind.mpr ⟨(), _, Traced.ends_enter.mpr rfl, Traced.ends_pure.mpr ⟨rfl, rfl⟩⟩

/-- One round of the loop of `tar_parse`: it returns at a header without a name, and goes on behind
any other one.
-/
theorem ends_tarParseLoop {m : BootModule} {fuel i addr count : Nat} (small : addr < 2 ^ 32)
    : (tarParseLoop heap node (fuel + 1) i addr).Ends st m.Inside count st'
      ↔ (byteAt st.mem addr = 0 ∧ m.Inside addr ∧ count = i ∧ st' = st)
        ∨ byteAt st.mem addr ≠ 0 ∧ m.HeaderInside st.mem addr
          ∧ ∃ s₁, headerNode heap node fuel i st.vfs st.mem addr = some s₁
            ∧ (tarParseLoop heap node fuel (wrap (i + 1)) (nextHeader st.mem addr)).Ends
              ⟨s₁, setOffset st.mem addr⟩ m.Inside count st' := by
  rw [tarParseLoop, Traced.ends_bind]
  constructor
  · rintro ⟨length, st₁, string, rest⟩
    have name : m.StringInside st.mem addr := ends_readString_iff.mp ⟨length, _, string⟩
    obtain ⟨-, nonzeros, zero, insides, same⟩ := ends_readString.mp string
    subst same
    split at rest
    · next empty =>
        obtain ⟨rfl, rfl⟩ := Traced.ends_pure.mp rest
        subst empty
        have here := insides 0 le_rfl
        rw [Nat.add_zero, wrap_of_lt small] at here
        exact .inl ⟨zero, here, rfl, rfl⟩
    · next nonempty =>
        obtain ⟨typeflag, st₂, flag, rest₁⟩ := Traced.ends_bind.mp rest
        obtain ⟨flagInside, rfl, rfl⟩ := ends_readByte.mp flag
        obtain ⟨n, st₃, made, rest₂⟩ := Traced.ends_bind.mp rest₁
        obtain ⟨path, vfs, blocks, called, rfl⟩ := ends_makeNode.mp made
        obtain ⟨size, st₄, sized, rest₃⟩ := Traced.ends_bind.mp rest₂
        obtain ⟨total, sizes, rfl⟩ := ends_readSize.mp sized
        obtain ⟨_, _, read, rest₄⟩ := Traced.ends_bind.mp rest₃
        obtain ⟨rfl, rfl⟩ := Traced.ends_state.mp read
        obtain ⟨_, _, entered, rest₅⟩ := Traced.ends_bind.mp rest₄
        obtain rfl := Traced.ends_enter.mp entered
        rw [total] at rest₅
        refine .inr ⟨nonzeros 0 (Nat.pos_of_ne_zero nonempty), ⟨name, path, flagInside, sizes⟩, _, ?_,
          rest₅⟩
        rw [headerNode, called]
        rfl
  · rintro (⟨zero, here, rfl, rfl⟩ | ⟨nonzero, header, s₁, made, rest⟩)
    · refine ⟨0, st', ends_readString.mpr ⟨Nat.two_pow_pos 32, ?_, zero, ?_, rfl⟩, ?_⟩
      · exact fun j none => absurd none (Nat.not_lt_zero j)
      · intro j none
        rw [Nat.le_zero.mp none, Nat.add_zero, wrap_of_lt small]
        exact here
      · exact Traced.ends_pure.mpr ⟨rfl, rfl⟩
    · obtain ⟨length, st₁, string⟩ := ends_readString_iff.mpr header.name
      obtain ⟨-, -, zero, -, same⟩ := ends_readString.mp string
      subst same
      have nonempty : length ≠ 0 := by
        rintro rfl
        exact nonzero zero
      obtain ⟨⟨n, vfs, blocks⟩, called, sized⟩ := Option.bind_eq_some_iff.mp made
      obtain rfl := Option.some.inj sized
      refine ⟨length, _, string, ?_⟩
      rw [if_neg nonempty]
      refine Traced.ends_bind.mpr ⟨_, _, ends_readByte.mpr ⟨header.typeflag, rfl, rfl⟩, ?_⟩
      refine Traced.ends_bind.mpr ⟨n, _, ends_makeNode.mpr ⟨header.path, vfs, blocks, called, rfl⟩, ?_⟩
      refine Traced.ends_bind.mpr ⟨_, _, ends_readSize.mpr ⟨rfl, header.size, rfl⟩, ?_⟩
      refine Traced.ends_bind.mpr ⟨_, _, Traced.ends_state.mpr ⟨rfl, rfl⟩, ?_⟩
      exact Traced.ends_bind.mpr ⟨(), _, Traced.ends_enter.mpr rfl, rest⟩

omit [DecidableEq α] in
/-- `tar_get_size` is what it returns, by induction on the digits that are left. -/
theorem returned_readSizeLoop (input j count size : Nat) (st : TarState α)
    : (readSizeLoop input j count size st).returned
      = some (tarGetSizeLoop (fun k => byteAt st.mem (input + k)) j count size, st) := by
  induction j generalizing count size with
  | zero => rfl
  | succ j ih =>
      have byte : (readByte (input + j) st).returned = some (byteAt st.mem (input + j), st) := rfl
      rw [readSizeLoop, Traced.returned_bind, byte, Option.bind_some]
      dsimp only
      rw [ih, tarGetSizeLoop]

theorem returned_makeNode (fuel i addr type : Nat) (st : TarState α)
    : (makeNode heap node fuel i addr type st).returned
      = (st.vfs.vfsMakeNode fuel (heap.kmalloc i) (heap.strtok i) node (stringAt st.mem (addr + 2)) type
          (wrap (addr + 512)) (heap.blocks i st.vfs)).map (fun r => (r.1, { st with vfs := r.2.1 })) := by
  have string := returned_readString (2 ^ 32) (addr + 2) st
  rw [makeNode, Traced.returned_bind, string]
  change ((strlen (stringAt st.mem (addr + 2))).map _).bind _ = _
  cases made : st.vfs.vfsMakeNode fuel (heap.kmalloc i) (heap.strtok i) node
      (stringAt st.mem (addr + 2)) type (wrap (addr + 512)) (heap.blocks i st.vfs) with
  | none =>
      cases strlen (stringAt st.mem (addr + 2)) with
      | none => rfl
      | some length =>
          have read : (Traced.state st : Traced.Outcome Nat (TarState α) _).returned
              = some (st, st) :=
            rfl
          rw [Option.map_some, Option.bind_some, Traced.returned_bind, read, Option.bind_some]
          dsimp only
          rw [made]
          rfl
  | some r =>
      obtain ⟨ap, copied, -⟩ := Option.bind_eq_some_iff.mp made
      obtain ⟨path, held, -⟩ := holds_of_strcpy copied
      have read : (Traced.state st : Traced.Outcome Nat (TarState α) _).returned = some (st, st) := rfl
      rw [strlen_eq held, Option.map_some, Option.bind_some, Traced.returned_bind, read,
        Option.bind_some]
      dsimp only
      rw [made]
      rfl

/-- Without the bytes that are read, it is the loop of `tar_parse`, by induction on the fuel. -/
theorem returned_tarParseLoop (fuel i addr : Nat) (st : TarState α)
    : (tarParseLoop heap node fuel i addr st).returned
      = (Hydrangea.tarParseLoop heap node fuel i st.vfs st.mem addr).map
          (fun r => (r.1, ⟨r.2.1, r.2.2⟩)) := by
  induction fuel generalizing i addr st with
  | zero => rfl
  | succ fuel ih =>
      have string := returned_readString (2 ^ 32) addr st
      rw [tarParseLoop, Traced.returned_bind, string, Hydrangea.tarParseLoop]
      change ((strlen (stringAt st.mem addr)).map _).bind _ = _
      cases strlen (stringAt st.mem addr) with
      | none => rfl
      | some length =>
          rw [Option.map_some, Option.bind_some, Option.bind_eq_bind, Option.bind_some]
          dsimp only
          split
          · rfl
          · have byte : (readByte (addr + 156) st).returned
                = some (byteAt st.mem (addr + 156), st) :=
              rfl
            rw [Traced.returned_bind, byte, Option.bind_some, Traced.returned_bind, returned_makeNode]
            dsimp only
            cases made : st.vfs.vfsMakeNode fuel (heap.kmalloc i) (heap.strtok i) node
                (stringAt st.mem (addr + 2)) (tarType (byteAt st.mem (addr + 156))) (wrap (addr + 512))
                (heap.blocks i st.vfs) with
            | none => rfl
            | some r =>
                obtain ⟨n, vfs, blocks⟩ := r
                have sized := returned_readSizeLoop (addr + 124) 11 1 0 { st with vfs }
                rw [Option.map_some, Option.bind_some, Traced.returned_bind, readSize, sized,
                  Option.bind_some]
                exact ih _ _ _

end TarReads

-----------------------------------------------------------------------------------------
-- The headers of a module
-----------------------------------------------------------------------------------------

namespace BootModule

variable {m : BootModule} {mem mem' : Nat → UInt8} {a addr k n : Nat}

/-- The next header behind the first ones. -/
theorem header_succ (m : BootModule) (mem : Nat → UInt8) (k : Nat)
    : m.header mem (k + 1) = nextHeader mem (m.header mem k) :=
  Function.iterate_succ_apply' ..

theorem header_lt (m : BootModule) (mem : Nat → UInt8) (k : Nat) : m.header mem k < 2 ^ 32 := by
  cases k with
  | zero => exact Nat.lt_of_le_of_lt m.ordered m.small
  | succ k =>
      rw [header_succ]
      exact Nat.mod_lt _ (Nat.two_pow_pos 32)

/-- Headers are whole blocks apart, by induction on their number. -/
theorem header_mod (m : BootModule) (mem : Nat → UInt8) (k : Nat)
    : m.header mem k % 512 = m.modStart % 512 := by
  induction k with
  | zero => rfl
  | succ k ih =>
      rw [header_succ, nextHeader, wrap, tarStride]
      split <;> omega

/-- Until the first header without a name, no header comes twice: behind its second place,
everything would come again.
-/
theorem header_ne (named : ∀ k < n, byteAt mem (m.header mem k) ≠ 0)
    (empty : byteAt mem (m.header mem n) = 0) {j : Nat} (before : j < k) (within : k ≤ n)
    : m.header mem j ≠ m.header mem k := by
  intro same
  have later : m.header mem (j + (n - k)) = m.header mem n := by
    have behind (i d : Nat) : m.header mem (i + d) = (nextHeader mem)^[d] (m.header mem i) := by
      rw [header, header, Nat.add_comm, Function.iterate_add_apply]
    rw [behind, same, ← behind, Nat.add_sub_cancel' within]
  have again := named (j + (n - k)) (by omega)
  rw [later] at again
  exact again empty

/-- So there are no more of them than blocks. -/
theorem lt_blocks (named : ∀ k < n, byteAt mem (m.header mem k) ≠ 0)
    (empty : byteAt mem (m.header mem n) = 0) (inside : ∀ k ≤ n, m.Inside (m.header mem k))
    : n < m.blocks := by
  have places : Set.MapsTo (fun k => (m.header mem k - m.modStart) / 512) (Finset.range (n + 1))
      (Finset.range m.blocks) := by
    intro k member
    have here := inside k (Nat.le_of_lt_succ (Finset.mem_range.mp member))
    have bounds : m.modStart ≤ m.header mem k ∧ m.header mem k < m.modEnd := here
    refine Finset.mem_coe.mpr (Finset.mem_range.mpr ?_)
    change (m.header mem k - m.modStart) / 512 < _
    rw [blocks]
    omega
  have apart : Set.InjOn (fun k => (m.header mem k - m.modStart) / 512) (Finset.range (n + 1)) := by
    have differ {i j : Nat} (before : i < j) (within : j ≤ n)
        : (m.header mem i - m.modStart) / 512 ≠ (m.header mem j - m.modStart) / 512 := by
      have ne := header_ne named empty before within
      have first := header_mod m mem i
      have second := header_mod m mem j
      have here : m.modStart ≤ m.header mem i := (inside i (by omega)).1
      have there : m.modStart ≤ m.header mem j := (inside j within).1
      omega
    intro i memberI j memberJ same
    have withinI := Nat.le_of_lt_succ (Finset.mem_range.mp memberI)
    have withinJ := Nat.le_of_lt_succ (Finset.mem_range.mp memberJ)
    rcases Nat.lt_trichotomy i j with less | equal | more
    · exact absurd same (differ less withinJ)
    · exact equal
    · exact absurd same.symm (differ more withinI)
  have count := Finset.card_le_card_of_injOn _ places apart
  rw [Finset.card_range, Finset.card_range] at count
  exact count

-----------------------------------------------------------------------------------------
-- What `tar_parse` writes
-----------------------------------------------------------------------------------------

/-- The memory after the first headers have got their `offset`. -/
def Rewritten (m : BootModule) (mem mem' : Nat → UInt8) (k : Nat) : Prop :=
  ∀ a, byteAt mem' a = byteAt mem a
    ∨ ∃ j < k, ∃ d < 4, wrap a = wrap (m.header mem j + 160 + d)

/-- Before the first header, nothing is written. -/
theorem rewritten_zero (m : BootModule) (mem : Nat → UInt8) : m.Rewritten mem mem 0 :=
  fun _ => .inl rfl

/-- Another header gets its `offset`. -/
theorem Rewritten.succ (h : m.Rewritten mem mem' k)
    : m.Rewritten mem (setOffset mem' (m.header mem k)) (k + 1) := by
  intro a
  by_cases written : wrap (wrap a + 2 ^ 32 - wrap (m.header mem k + 160)) < 4
  · refine .inr ⟨k, Nat.lt_succ_self k, _, written, ?_⟩
    simp only [wrap]
    omega
  · have kept : byteAt (setOffset mem' (m.header mem k)) a = byteAt mem' a := if_neg written
    rw [kept]
    rcases h a with same | ⟨j, before, d, small, place⟩
    · exact .inl same
    · exact .inr ⟨j, Nat.lt_succ_of_lt before, d, small, place⟩

/-- The fields in front of `offset` are as they were, and in a header that is reached for the first
time so are those behind it.
-/
theorem Rewritten.byteAt_eq (h : m.Rewritten mem mem' k) {x : Nat} (small : x < 258)
    (first : x < 160 ∨ ∀ j < k, m.header mem j ≠ m.header mem k)
    : byteAt mem' (m.header mem k + x) = byteAt mem (m.header mem k + x) := by
  rcases h (m.header mem k + x) with same | ⟨j, before, d, field, place⟩
  · exact same
  · exfalso
    have blocks := (header_mod m mem j).trans (header_mod m mem k).symm
    have bound := header_lt m mem j
    have bound' := header_lt m mem k
    simp only [wrap] at place
    rcases first with front | new
    · omega
    · have ne := new j before
      omega

/-- The size depends on its digits, by induction on those that are left. -/
theorem tarGetSizeLoop_congr {input input' : Nat → UInt8} {j : Nat}
    (same : ∀ k < j, input' k = input k) (count size : Nat)
    : tarGetSizeLoop input' j count size = tarGetSizeLoop input j count size := by
  induction j generalizing count size with
  | zero => rfl
  | succ j ih =>
      rw [tarGetSizeLoop, tarGetSizeLoop, same j (Nat.lt_succ_self j)]
      exact ih (fun k small => same k (Nat.lt_succ_of_lt small)) _ _

theorem tarGetSize_congr {input input' : Nat → UInt8} (same : ∀ k < 11, input' k = input k)
    : tarGetSize input' = tarGetSize input :=
  tarGetSizeLoop_congr same 1 0

theorem Rewritten.nextHeader_eq (h : m.Rewritten mem mem' k)
    : nextHeader mem' (m.header mem k) = m.header mem (k + 1) := by
  have size (j : Nat) (digit : j < 11)
      : byteAt mem' (m.header mem k + 124 + j) = byteAt mem (m.header mem k + 124 + j) := by
    rw [Nat.add_assoc]
    exact h.byteAt_eq (by omega) (.inl (by omega))
  rw [header_succ, nextHeader, nextHeader, tarGetSize_congr size]

-----------------------------------------------------------------------------------------
-- Headers that are reached for the first time
-----------------------------------------------------------------------------------------

/-- Where a string is known to end, it ends in the module or not whatever is behind it. -/
theorem StringInside.congr (h : m.StringInside mem a) (length : Nat)
    (ends : byteAt mem (a + length) = 0)
    (same : ∀ j ≤ length, byteAt mem' (a + j) = byteAt mem (a + j))
    : m.StringInside mem' a := by
  obtain ⟨k, small, zero, insides⟩ := h
  rcases Nat.le_total k length with within | behind
  · exact ⟨k, small, (same k within).trans zero, insides⟩
  · exact ⟨length, Nat.lt_of_le_of_lt behind small, (same length le_rfl).trans ends,
      fun j before => insides j (Nat.le_trans before behind)⟩

/-- A short string is held by the bytes in which it ends. -/
theorem holds_bytesFrom_iff {path : List UInt8} (short : path.length < 256)
    : Holds (stringAt mem a) path ↔ Holds (bytesFrom mem a 256) path := by
  have split : stringAt mem a = bytesFrom mem a 256 ++ bytesFrom mem (a + 256) (2 ^ 32 - 256) := by
    rw [stringAt, ← bytesFrom_add]
    congr 1
  constructor
  · intro held
    have first := held.take short
    rwa [split, List.take_left' (by rw [bytesFrom_eq_map, List.length_map, List.length_range])] at first
  · intro held
    rw [split]
    exact held.append _

theorem byteAt_of_holds {path : List UInt8} (held : Holds (stringAt mem a) path)
    (short : path.length < 256)
    : byteAt mem (a + path.length) = 0 := by
  obtain ⟨-, rest, bytes⟩ := (holds_bytesFrom_iff short).mp held
  have here : (bytesFrom mem a 256)[path.length]? = some (byteAt mem (a + path.length)) := by
    rw [bytesFrom_eq_map, List.getElem?_map, List.getElem?_range short]
    rfl
  rw [bytes, List.getElem?_append_right le_rfl, Nat.sub_self] at here
  exact (Option.some.inj here).symm

variable {α : Type} [DecidableEq α] {heap : TarHeap α} {node : α} {fuel i : Nat} {s s₁ : VfsState α}

/-- A header for which a node is made has a path of less than 256 characters. -/
theorem path_of_headerNode (made : headerNode heap node fuel i s mem addr = some s₁)
    : ∃ path, Holds (stringAt mem (addr + 2)) path ∧ path.length < 256 := by
  obtain ⟨r, called, -⟩ := Option.bind_eq_some_iff.mp made
  obtain ⟨ap, copied, -⟩ := Option.bind_eq_some_iff.mp called
  obtain ⟨path, held, room⟩ := holds_of_strcpy copied
  rw [(heap.kmalloc i).property] at room
  exact ⟨path, held, room⟩

/-- The node for a header depends on its first 258 bytes. -/
theorem headerNode_congr (same : ∀ x < 258, byteAt mem' (addr + x) = byteAt mem (addr + x))
    (made : headerNode heap node fuel i s mem addr = some s₁)
    : headerNode heap node fuel i s mem' addr = some s₁ := by
  obtain ⟨path, held, room⟩ := path_of_headerNode made
  have held' : Holds (stringAt mem' (addr + 2)) path := by
    have bytes (k : Nat) (inside : k < 256)
        : byteAt mem' (addr + 2 + k) = byteAt mem (addr + 2 + k) := by
      rw [Nat.add_assoc]
      exact same _ (by omega)
    rw [holds_bytesFrom_iff room, bytesFrom_congr bytes]
    exact (holds_bytesFrom_iff room).mp held
  have size (j : Nat) (digit : j < 11)
      : byteAt mem' (addr + 124 + j) = byteAt mem (addr + 124 + j) := by
    rw [Nat.add_assoc]
    exact same _ (by omega)
  rw [headerNode, vfsMakeNode_congr held' held room, same 156 (by decide), tarGetSize_congr size]
  exact made

/-- So does whether it is in the module. -/
theorem HeaderInside.congr (h : m.HeaderInside mem addr)
    (same : ∀ x < 258, byteAt mem' (addr + x) = byteAt mem (addr + x))
    (made : headerNode heap node fuel i s mem addr = some s₁)
    : m.HeaderInside mem' addr := by
  obtain ⟨path, held, room⟩ := path_of_headerNode made
  have ends := byteAt_of_holds held room
  refine ⟨h.name.congr (2 + path.length) ?_ ?_, h.path.congr _ ends ?_, h.typeflag, h.size⟩
  · rwa [← Nat.add_assoc]
  · exact fun j within => same j (by omega)
  · intro j within
    rw [Nat.add_assoc]
    exact same _ (by omega)

theorem HeaderInside.start (h : m.HeaderInside mem addr) (small : addr < 2 ^ 32) : m.Inside addr := by
  obtain ⟨length, -, -, bytes⟩ := h.name
  have first := bytes 0 (Nat.zero_le _)
  rwa [Nat.add_zero, wrap_of_lt small] at first

/-- More fuel makes the same node. -/
theorem headerNode_mono {more : Nat} (enough : fuel ≤ more)
    (made : headerNode heap node fuel i s mem addr = some s₁)
    : headerNode heap node more i s mem addr = some s₁ := by
  obtain ⟨r, called, sized⟩ := Option.bind_eq_some_iff.mp made
  rw [headerNode, vfsMakeNode_mono enough called]
  exact sized

/-- More fuel parses the same, by induction on the fuel. -/
theorem ends_mono {more count : Nat} (enough : fuel ≤ more) (small : addr < 2 ^ 32)
    {st st' : TarState α}
    (ends : (TarReads.tarParseLoop heap node fuel i addr).Ends st m.Inside count st')
    : (TarReads.tarParseLoop heap node more i addr).Ends st m.Inside count st' := by
  induction fuel generalizing more i addr st with
  | zero => exact absurd ends Traced.not_ends_stop
  | succ fuel ih =>
      obtain ⟨more, rfl⟩ := Nat.exists_eq_add_of_le' (Nat.le_trans (Nat.le_add_left 1 _) enough)
      have rest := Nat.le_of_succ_le_succ enough
      rw [TarReads.ends_tarParseLoop small] at ends ⊢
      rcases ends with empty | ⟨named, header, s₁, made, later⟩
      · exact .inl empty
      · exact .inr ⟨named, header, s₁, headerNode_mono rest made,
          ih rest (Nat.mod_lt _ (Nat.two_pow_pos 32)) later⟩

/-- If the loop returns, there is a header without a name behind, by induction on the fuel. -/
theorem exists_empty {count : Nat} {st' : TarState α} (written : m.Rewritten mem mem' k)
    (ends : (TarReads.tarParseLoop heap node fuel i (m.header mem k)).Ends ⟨s, mem'⟩ m.Inside count st')
    : ∃ n, k ≤ n ∧ (∀ j, k ≤ j → j < n → byteAt mem (m.header mem j) ≠ 0)
      ∧ byteAt mem (m.header mem n) = 0 := by
  induction fuel generalizing k i s mem' with
  | zero => exact absurd ends Traced.not_ends_stop
  | succ fuel ih =>
      have here := written.byteAt_eq (x := 0) (by decide) (.inl (by decide))
      rw [Nat.add_zero] at here
      rw [TarReads.ends_tarParseLoop (header_lt m mem k)] at ends
      dsimp only at ends
      rw [here, written.nextHeader_eq] at ends
      rcases ends with ⟨empty, -⟩ | ⟨named, -, s₁, -, later⟩
      · exact ⟨k, le_rfl, fun j from' before => absurd from' (Nat.not_le.mpr before), empty⟩
      · obtain ⟨n, behind, names, empty⟩ := ih written.succ later
        refine ⟨n, Nat.le_of_succ_le behind, fun j from' before => ?_, empty⟩
        rcases Nat.eq_or_lt_of_le from' with rfl | after
        · exact named
        · exact names j after before

/-- The loop returns from a header on, by induction on the number of headers that are left. The
only stores are to the offset field of headers passed, which no later header shares.
-/
theorem loop_ends_iff (named : ∀ k < n, byteAt mem (m.header mem k) ≠ 0)
    (empty : byteAt mem (m.header mem n) = 0) {left : Nat} (position : k + left = n)
    (written : m.Rewritten mem mem' k)
    : (∃ fuel count st',
        (TarReads.tarParseLoop heap node fuel i (m.header mem k)).Ends ⟨s, mem'⟩ m.Inside count st')
      ↔ (∀ j, k ≤ j → j < n → m.HeaderInside mem (m.header mem j)) ∧ m.Inside (m.header mem n)
        ∧ NodesMade heap node mem left i s (m.header mem k) := by
  induction left generalizing k i s mem' with
  | zero =>
      rw [Nat.add_zero] at position
      subst position
      have here := written.byteAt_eq (x := 0) (by decide) (.inl (by decide))
      rw [Nat.add_zero, empty] at here
      constructor
      · rintro ⟨fuel, count, st', ends⟩
        cases fuel with
        | zero => exact absurd ends Traced.not_ends_stop
        | succ fuel =>
            rw [TarReads.ends_tarParseLoop (header_lt m mem k)] at ends
            rcases ends with ⟨-, inside, -⟩ | ⟨nonzero, -⟩
            · exact ⟨fun j from' before => absurd from' (Nat.not_le.mpr before), inside, .nil⟩
            · exact absurd here nonzero
      · rintro ⟨-, inside, -⟩
        exact ⟨1, i, _, (TarReads.ends_tarParseLoop (header_lt m mem k)).mpr
          (.inl ⟨here, inside, rfl, rfl⟩)⟩
  | succ left ih =>
      have before : k < n := by omega
      have here := written.byteAt_eq (x := 0) (by decide) (.inl (by decide))
      rw [Nat.add_zero] at here
      have nonzero : byteAt mem' (m.header mem k) ≠ 0 := by
        rw [here]
        exact named k before
      have bytes (x : Nat) (small : x < 258)
          : byteAt mem' (m.header mem k + x) = byteAt mem (m.header mem k + x) :=
        written.byteAt_eq small (.inr (fun j earlier =>
          header_ne named empty earlier (Nat.le_of_lt before)))
      have later (i : Nat) (s : VfsState α) := ih (i := i) (s := s)
        (show k + 1 + left = n by omega) written.succ
      constructor
      · rintro ⟨fuel, count, st', ends⟩
        cases fuel with
        | zero => exact absurd ends Traced.not_ends_stop
        | succ fuel =>
            rw [TarReads.ends_tarParseLoop (header_lt m mem k)] at ends
            dsimp only at ends
            rw [written.nextHeader_eq] at ends
            rcases ends with ⟨zero, -⟩ | ⟨-, header, s₁, made, rest⟩
            · exact absurd zero nonzero
            · obtain ⟨insides, last, makes⟩ := (later _ _).mp ⟨fuel, count, st', rest⟩
              have bytes' (x : Nat) (small : x < 258) := (bytes x small).symm
              rw [header_succ] at makes
              refine ⟨fun j from' within => ?_, last, .cons (headerNode_congr bytes' made) makes⟩
              rcases Nat.eq_or_lt_of_le from' with rfl | after
              · exact header.congr bytes' made
              · exact insides j after within
      · rintro ⟨insides, last, makes⟩
        cases makes with
        | @cons _ _ fuel _ s₁ _ made makes =>
            rw [← header_succ] at makes
            obtain ⟨fuel', count, st', rest⟩ :=
              (later _ _).mpr ⟨fun j from' => insides j (Nat.le_of_succ_le from'), last, makes⟩
            refine ⟨max fuel fuel' + 1, count, st', ?_⟩
            rw [TarReads.ends_tarParseLoop (header_lt m mem k)]
            dsimp only
            rw [written.nextHeader_eq]
            refine .inr ⟨nonzero, (insides k le_rfl before).congr bytes made, s₁,
              headerNode_mono (le_max_left ..) (headerNode_congr bytes made), ?_⟩
            exact ends_mono (le_max_right ..) (header_lt m mem _) rest

/-- `tar_parse` of a module with this many headers that have a name. -/
theorem parses_iff {node : α} (named : ∀ k < n, byteAt mem (m.header mem k) ≠ 0)
    (empty : byteAt mem (m.header mem n) = 0)
    : ParsesInside heap s mem node m
      ↔ (∀ j < n, m.HeaderInside mem (m.header mem j)) ∧ m.Inside (m.header mem n)
        ∧ NodesMade heap node mem n 0 s m.modStart := by
  refine (loop_ends_iff named empty (Nat.zero_add n) (m.rewritten_zero mem)).trans ?_
  refine and_congr_left (fun _ => forall_congr' (fun j => ?_))
  exact ⟨fun insides => insides (Nat.zero_le j), fun insides _ => insides⟩

end BootModule

-----------------------------------------------------------------------------------------
-- Archives in a module
-----------------------------------------------------------------------------------------

section Archives

variable {α : Type} [DecidableEq α] {heap : TarHeap α} {node : α} {s s' : VfsState α}
  {mem : Nat → UInt8} {addr i : Nat} {e : TarEntry} {es : List TarEntry} {m : BootModule}

theorem HeaderAt.nextHeader_eq (header : HeaderAt mem addr e) (fits : addr + e.stride < 2 ^ 32)
    : nextHeader mem addr = addr + e.stride := by
  have stride := e.stride_le
  rw [nextHeader, tarGetSize_eq header.size (by omega), tarStride_eq, wrap_of_lt fits]

/-- The fields of a header of an archive are in the first 256 bytes of its block. -/
theorem HeaderAt.inside (header : HeaderAt mem addr e) (start : m.modStart ≤ addr)
    (fits : addr + 512 ≤ m.modEnd)
    : m.HeaderInside mem addr := by
  have small := m.small
  have bytes (x : Nat) (within : x < 512) : m.Inside (wrap (addr + x)) := by
    rw [wrap_of_lt (by omega)]
    exact ⟨by omega, by omega⟩
  have string (x : Nat) {path : List UInt8} (held : Holds (stringAt mem (addr + x)) path)
      (short : x + path.length < 256)
      : m.StringInside mem (addr + x) := by
    refine ⟨path.length, by omega, BootModule.byteAt_of_holds held (by omega), fun j within => ?_⟩
    rw [Nat.add_assoc]
    exact bytes _ (by omega)
  have short := e.short
  have pathShort := e.path_length
  have name : Holds (stringAt mem (addr + 0)) e.name := holds_stringAt header.name (Nat.zero_le _)
  refine ⟨string 0 name (by omega), string 2 header.path (by omega), bytes 156 (by decide), ?_⟩
  intro j digit
  rw [Nat.add_assoc]
  exact bytes _ (by omega)

theorem HeaderAt.named (header : HeaderAt mem addr e) : byteAt mem addr ≠ 0 := by
  obtain ⟨-, rest, bytes⟩ := header.name
  obtain ⟨c, name, split⟩ := List.exists_cons_of_length_pos (Nat.lt_of_lt_of_le Nat.two_pos e.long)
  rw [split, List.cons_append] at bytes
  have first : byteAt mem addr = c := (List.cons.inj bytes).1
  intro zero
  refine e.nonzero ?_
  rw [split, ← zero, first]
  exact List.mem_cons_self

/-- The headers of an archive in a module, from one of them on, by induction on the entries. -/
theorem Archive.headers {k : Nat} (archive : Archive mem (m.header mem k) es)
    (start : m.modStart ≤ m.header mem k)
    (fits : m.header mem k + (es.map TarEntry.stride).sum + 512 ≤ m.modEnd)
    : (∀ j, k ≤ j → j < k + es.length
        → byteAt mem (m.header mem j) ≠ 0 ∧ m.HeaderInside mem (m.header mem j))
      ∧ byteAt mem (m.header mem (k + es.length)) = 0 ∧ m.Inside (m.header mem (k + es.length)) := by
  have small := m.small
  induction es generalizing k with
  | nil =>
      cases archive with
      | nil _ empty =>
          obtain ⟨-, rest, bytes⟩ := empty
          have first : byteAt mem (m.header mem k) = 0 := (List.cons.inj bytes).1
          rw [List.map_nil, List.sum_nil] at fits
          have below : m.header mem k < m.modEnd := by
            omega
          exact ⟨fun j from' before => absurd from' (Nat.not_le.mpr before), first, start, below⟩
  | cons e es ih =>
      obtain ⟨header, rest⟩ := archive.of_cons
      rw [List.map_cons, List.sum_cons] at fits
      have stride := e.stride_le
      have next : m.header mem (k + 1) = m.header mem k + e.stride := by
        rw [m.header_succ mem k, header.nextHeader_eq (by omega)]
      rw [← next] at rest
      obtain ⟨insides, empty, last⟩ := ih rest (by omega) (by omega)
      have position : k + (es.length + 1) = k + 1 + es.length := by
        omega
      rw [List.length_cons, position]
      refine ⟨fun j from' before => ?_, empty, last⟩
      rcases Nat.eq_or_lt_of_le from' with rfl | after
      · exact ⟨header.named, header.inside start (by omega)⟩
      · exact insides j after before

/-- The nodes for an archive, by induction on its entries. -/
theorem MakesNodes.nodesMade (makes : MakesNodes heap node i s addr es s')
    (archive : Archive mem addr es) (fits : addr + (es.map TarEntry.stride).sum + 512 ≤ m.modEnd)
    (count : i + es.length < 2 ^ 32)
    : NodesMade heap node mem es.length i s addr := by
  have small := m.small
  induction makes with
  | nil => exact .nil
  | @cons i addr fuel s s₁ s' e es n rest live called later ih =>
      obtain ⟨header, behind⟩ := archive.of_cons
      rw [List.map_cons, List.sum_cons] at fits
      rw [List.length_cons] at count
      have stride := e.stride_le
      have short := e.path_length
      have same := vfsMakeNode_congr (s := s) (n := node) header.path e.path_holds (by omega) fuel
        (heap.kmalloc i) (heap.strtok i) (tarType e.typeflag) (addr + 512) (heap.blocks i s)
      have made : headerNode heap node fuel i s mem addr
          = some (s₁.setFile n (fun file => { file with size := e.content.length })) := by
        rw [headerNode, header.typeflag, wrap_of_lt (n := addr + 512) (by omega), same, called,
          tarGetSize_eq header.size (by omega)]
        rfl
      refine .cons made ?_
      rw [header.nextHeader_eq (by omega), wrap_of_lt (n := i + 1) (by omega)]
      exact ih behind (by omega) (by omega)

/-- An archive that is in the module with the header that ends it is parsed inside it, if no file
but the last entry has a path that leads above the node.
-/
theorem Archive.parsesInside {kids : α → List α} (gives : heap.Gives)
    (tree : IsTree s.links s.vfsRoot kids) (here : s.Inside kids node) (named : Named s kids)
    (archive : Archive mem m.modStart es)
    (fits : m.modStart + (es.map TarEntry.stride).sum + 512 ≤ m.modEnd)
    (stays : StaysBelow heap 0 s node m.modStart es)
    : ParsesInside heap s mem node m := by
  have count : 0 + es.length < 2 ^ 32 := by
    have bound := archive.length_le
    omega
  obtain ⟨-, s', -, -, makes, -, -⟩ :=
    tarParseLoop_returns gives tree (fun _ => here) named archive stays count
  obtain ⟨insides, empty, last⟩ := archive.headers (k := 0) le_rfl fits
  rw [Nat.zero_add] at insides empty last
  have names (k : Nat) (before : k < es.length) := (insides k (Nat.zero_le k) before).1
  exact (BootModule.parses_iff names empty).mpr
    ⟨fun k before => (insides k (Nat.zero_le k) before).2, last, makes.nodesMade archive fits count⟩

end Archives

-----------------------------------------------------------------------------------------
-- All modules
-----------------------------------------------------------------------------------------

/-- `tar_parse` returns and reads headers only inside the module exactly if the headers of the
module are in it, up to one without a name, and the calls of `vfs_make_node` for them return. The
loop has no bound but the name of a header. If it returns, it has read headers up to one without a
name, and all of these are then in the module.
-/
theorem parsesInside_iff {α : Type} [DecidableEq α] (heap : TarHeap α) (s : VfsState α)
    (mem : Nat → UInt8) (node : α) (m : BootModule)
    : ParsesInside heap s mem node m
      ↔ ∃ n < m.blocks, m.EndsInside mem n ∧ NodesMade heap node mem n 0 s m.modStart := by
  constructor
  · intro parses
    obtain ⟨fuel, count, st', ends⟩ := id parses
    obtain ⟨n, -, names, empty⟩ := BootModule.exists_empty (m.rewritten_zero mem) ends
    have named (k : Nat) (before : k < n) := names k (Nat.zero_le k) before
    obtain ⟨insides, last, makes⟩ := (BootModule.parses_iff named empty).mp parses
    have starts (k : Nat) (within : k ≤ n) : m.Inside (m.header mem k) := by
      rcases Nat.eq_or_lt_of_le within with rfl | before
      · exact last
      · exact (insides k before).start (m.header_lt mem k)
    exact ⟨n, BootModule.lt_blocks named empty starts, ⟨named, insides, empty, last⟩, makes⟩
  · rintro ⟨n, -, ends, makes⟩
    exact (BootModule.parses_iff ends.named ends.empty).mpr ⟨ends.inside, ends.last, makes⟩

/-- A header for the file `./a`, which is to have 4294966784 bytes. -/
def hugeHeader (a : Nat) : UInt8 :=
  if a < 3 then ([dot, slash, 0x61][a]?).getD 0
  else if 124 ≤ a ∧ a < 135 then ((octal 4294966784)[a - 124]?).getD 0
  else 0

def hugeModule : BootModule where
  modStart := 0
  modEnd := 1024
  ordered := by decide
  small := by decide

theorem nextHeader_hugeHeader : nextHeader hugeHeader 0 = 0 := by
  have size : tarGetSize (fun j => byteAt hugeHeader (0 + 124 + j)) = 4294966784 :=
    tarGetSize_eq (by decide +kernel) (by decide)
  rw [nextHeader, size]
  decide +kernel

/-- `tar_parse` reads it forever. -/
theorem not_parsesInside
    : ¬ ∀ (heap : TarHeap Nat) (s : VfsState Nat) (kids : Nat → List Nat) (mem : Nat → UInt8)
        (node : Nat) (m : BootModule),
        heap.Gives → IsTree s.links s.vfsRoot kids → s.Inside kids node → Named s kids
          → ParsesInside heap s mem node m := by
  intro inside
  obtain ⟨heap, gives, -⟩ := exists_heap 2
  have here : pairState.Inside pairKids 1 := below_of_mem (List.mem_singleton_self 1)
  have parses := inside heap pairState pairKids hugeHeader 1 hugeModule gives isTree_pairState here
    named_pairState
  obtain ⟨n, -, ends, -⟩ := (parsesInside_iff heap pairState hugeHeader 1 hugeModule).mp parses
  have same : hugeModule.header hugeHeader n = 0 := Function.iterate_fixed nextHeader_hugeHeader n
  have empty := ends.empty
  rw [same] at empty
  exact absurd empty (by decide)

end Hydrangea
