import Hydrangea.Lib.Memory

/-! The part of the 32-bit x86 instruction set that straight-line ring-0 code for stacks and
calls needs. Segments are flat.
-/

namespace X86

/-- The general-purpose registers. -/
inductive Reg where
  | eax
  | ecx
  | edx
  | ebx
  | esp
  | ebp
  | esi
  | edi
  deriving DecidableEq

/-- The data segment registers that can be popped. -/
inductive Seg where
  | ds
  | es
  | fs
  | gs
  deriving DecidableEq

/-- The flags that `popf` and `iret` load in ring 0. The bits of virtual-8086 mode and the
resume flag are left out.
-/
def loadedFlags : BitVec 32 := 0x247FD5

/-- A flags register: reserved bits are zero, except bit 1. -/
def Eflags :=
  { word : BitVec 32 // word &&& loadedFlags ||| 2 = word }

namespace Eflags

def ofWord (word : BitVec 32) : Eflags := by
  refine ⟨word &&& loadedFlags ||| 2, ?_⟩
  refine BitVec.eq_of_getLsbD_eq (fun i _ => ?_)
  simp only [BitVec.getLsbD_or, BitVec.getLsbD_and]
  cases word.getLsbD i <;> cases loadedFlags.getLsbD i <;> cases (2#32).getLsbD i <;> rfl

/-- The flags that are stored are loaded again. -/
@[simp]
theorem ofWord_val (flags : Eflags) : ofWord flags.val = flags :=
  Subtype.ext flags.property

def interrupts (flags : Eflags) : Bool :=
  flags.val.getLsbD 9

end Eflags

/-- The registers and memory. `eip` is the address of the next instruction. -/
structure Machine where
  gpr : Reg → BitVec 32
  seg : Seg → BitVec 16
  cs : BitVec 16
  eip : BitVec 32
  eflags : Eflags
  mem : Memory

namespace Machine

def set (m : Machine) (r : Reg) (v : BitVec 32) : Machine :=
  { m with gpr := Function.update m.gpr r v }

def push (m : Machine) (v : BitVec 32) : Machine :=
  { m.set .esp (m.gpr .esp - 4) with mem := m.mem.store (m.gpr .esp - 4) v }

def top (m : Machine) : BitVec 32 :=
  m.mem.load (m.gpr .esp)

def drop (m : Machine) : Machine :=
  m.set .esp (m.gpr .esp + 4)

end Machine

def flagBit (n : Nat) (set : Bool) : BitVec 32 :=
  if set then 1#32 <<< n else 0

/-- The arithmetic flags after an addition: carry, parity, adjust, zero, sign, overflow. -/
def addFlags (flags : Eflags) (a b : BitVec 32) : Eflags :=
  let sum := a + b
  let ones := ((List.range 8).filter (fun i => sum.getLsbD i)).length
  Eflags.ofWord (flags.val &&& ~~~0x8D5#32
    ||| flagBit 0 (decide (2 ^ 32 ≤ a.toNat + b.toNat))
    ||| flagBit 2 (decide (ones % 2 = 0))
    ||| flagBit 4 (decide (16 ≤ a.toNat % 16 + b.toNat % 16))
    ||| flagBit 6 (decide (sum = 0))
    ||| flagBit 7 sum.msb
    ||| flagBit 11 (decide (a.msb = b.msb ∧ sum.msb ≠ a.msb)))

/-- Instructions, with their operands in the order of the source: `mov %src, %dst`,
`movl disp(base), %dst` and `movl %src, disp(base)`, where an absolute address has no base.
-/
inductive Instr where
  | push (r : Reg)
  | pop (r : Reg)
  | pushf
  | popf
  | popSeg (s : Seg)
  | mov (src dst : Reg)
  | movFrom (disp : BitVec 32) (base : Option Reg) (dst : Reg)
  | movTo (src : Reg) (disp : BitVec 32) (base : Option Reg)
  | add (value : BitVec 32) (r : Reg)
  | ret
  | iret

def Machine.operand (m : Machine) (disp : BitVec 32) (base : Option Reg) : BitVec 32 :=
  base.elim disp (fun r => m.gpr r + disp)

/-- Executing one instruction. `iret` stays in ring 0. -/
def exec (m : Machine) : Instr → Machine
  | .push r => m.push (m.gpr r)
  | .pop r => m.drop.set r m.top
  | .pushf => m.push m.eflags.val
  | .popf => { m.drop with eflags := Eflags.ofWord m.top }
  | .popSeg s => { m.drop with seg := Function.update m.seg s (m.top.setWidth 16) }
  | .mov src dst => m.set dst (m.gpr src)
  | .movFrom disp base dst => m.set dst (m.mem.load (m.operand disp base))
  | .movTo src disp base => { m with mem := m.mem.store (m.operand disp base) (m.gpr src) }
  | .add value r => { m.set r (m.gpr r + value) with eflags := addFlags m.eflags (m.gpr r) value }
  | .ret => { m.drop with eip := m.top }
  | .iret =>
      { m.drop.drop.drop with
        eip := m.top
        cs := m.drop.top.setWidth 16
        eflags := Eflags.ofWord m.drop.drop.top }

def run (m : Machine) (code : List Instr) : Machine :=
  code.foldl exec m

@[simp]
theorem run_nil (m : Machine) : run m [] = m :=
  rfl

@[simp]
theorem run_cons (m : Machine) (i : Instr) (code : List Instr)
    : run m (i :: code) = run (exec m i) code :=
  rfl

theorem run_append (m : Machine) (code code' : List Instr)
    : run m (code ++ code') = run (run m code) code' :=
  List.foldl_append

/-- Calling code that ends in `ret`, from the instruction before `eip`. -/
def call (m : Machine) (code : List Instr) : Machine :=
  run (m.push m.eip) code

end X86
