import Hydrangea.Lib.Descriptors
import Hydrangea.Lib.X86

/-! Interrupts of a 32-bit x86 processor, through a gate into a more privileged ring and back, and
the instructions that their handlers begin with. Segments that pass the checks are flat. Tasks of
the processor, virtual-8086 mode and faults in the middle of a push are left out.
-/

namespace X86

/-- The registers and memory, with the stack segment. -/
structure Cpu extends Machine where
  ss : BitVec 16

/-- What the processor finds through its table registers. -/
structure Tables where
  segments : List Segment
  gate : BitVec 8 → Gate
  tss : Segment

/-- The faults that take the place of an interrupt or a return. -/
inductive Fault where
  | invalidTss
  | notPresent
  | stack
  | protection
  deriving DecidableEq

namespace Segment

def isCode (s : Segment) : Bool :=
  !s.system && s.kind.getLsbD 3

def conforming (s : Segment) : Bool :=
  s.isCode && s.kind.getLsbD 2

def runsIn (code : Segment) (ring : BitVec 2) : Bool :=
  code.isCode && code.present
    && (if code.conforming then !decide (ring < code.dpl) else code.dpl == ring)

def isWritable (s : Segment) : Bool :=
  !s.system && !s.kind.getLsbD 3 && s.kind.getLsbD 1

end Segment

def rpl (selector : BitVec 16) : BitVec 2 :=
  selector.extractLsb' 0 2

def Cpu.cpl (c : Cpu) : BitVec 2 :=
  rpl c.cs

def Eflags.without (flags : Eflags) (mask : BitVec 32) : Eflags :=
  Eflags.ofWord (flags.val &&& ~~~mask)

/-- The words that an interrupt pushes for its return, the first one pushed first. -/
def Cpu.returnWords (c : Cpu) (inner : Bool) : List (BitVec 32) :=
  (if inner then [c.ss.setWidth 32, c.gpr .esp] else [])
    ++ [c.eflags.val, c.cs.setWidth 32, c.eip]

/-- The flags that a gate clears: those of single steps, nested tasks, resuming and virtual-8086
mode, and at an interrupt gate that of interrupts.
-/
def GateKind.clears : GateKind → BitVec 32
  | .interrupt => 0x34300
  | .trap => 0x34100

/-- Going through a gate into a ring, with the stack of that ring if it is another one. -/
def Cpu.enter (c : Cpu) (ring : BitVec 2) (gate : Gate) (kind : GateKind)
    (stack : Option (BitVec 32 × BitVec 16)) (error : Option (BitVec 32))
    : Cpu :=
  let sp := stack.elim (c.gpr .esp) Prod.fst
  let words := c.returnWords stack.isSome ++ error.toList
  { gpr := Function.update c.gpr .esp (sp - BitVec.ofNat 32 (4 * words.length))
    seg := c.seg
    cs := gate.selector &&& ~~~3#16 ||| ring.setWidth 16
    eip := gate.offset
    eflags := c.eflags.without kind.clears
    mem := c.mem.pushWords sp words
    ss := stack.elim c.ss Prod.snd }

/-- A gate leads into its ring. -/
theorem Cpu.enter_cpl (c : Cpu) (ring : BitVec 2) (gate : Gate) (kind : GateKind)
    (stack : Option (BitVec 32 × BitVec 16)) (error : Option (BitVec 32))
    : (c.enter ring gate kind stack error).cpl = ring := by
  refine BitVec.eq_of_getLsbD_eq (fun i low => ?_)
  change ((gate.selector &&& ~~~3#16 ||| ring.setWidth 16).extractLsb' 0 2).getLsbD i = _
  rw [BitVec.getLsbD_extractLsb', BitVec.getLsbD_or, BitVec.getLsbD_and, BitVec.getLsbD_setWidth]
  interval_cases i <;> simp

/-- The words that a machine finds on its stack. -/
theorem top_drops (m : Machine)
    : m.top = m.mem.load (m.gpr .esp + BitVec.ofNat 32 (4 * 0))
      ∧ m.drop.top = m.mem.load (m.gpr .esp + BitVec.ofNat 32 (4 * 1))
      ∧ m.drop.drop.top = m.mem.load (m.gpr .esp + BitVec.ofNat 32 (4 * 2))
      ∧ m.drop.drop.drop.top = m.mem.load (m.gpr .esp + BitVec.ofNat 32 (4 * 3))
      ∧ m.drop.drop.drop.drop.top = m.mem.load (m.gpr .esp + BitVec.ofNat 32 (4 * 4)) := by
  simp [Machine.top, Machine.drop, Machine.set, BitVec.add_assoc]

theorem esp_drops (m : Machine)
    : m.drop.drop.drop.gpr .esp = m.gpr .esp + 12 := by
  simp [Machine.drop, Machine.set, BitVec.add_assoc]

namespace Tables

variable (t : Tables)

def segment (selector : BitVec 16) : Option Segment :=
  let index := (selector >>> 3).toNat
  if selector.getLsbD 2 || index == 0 then none else t.segments[index]?

def codeOf (c : Cpu) (gate : Gate) : Except Fault Segment :=
  match t.segment gate.selector with
  | none => .error .protection
  | some code =>
      if !code.isCode || c.cpl < code.dpl then .error .protection
      else if !code.present then .error .notPresent
      else .ok code

/-- The stack of a ring, from the task state segment. -/
def stackOf (m : Memory) (ring : BitVec 2) : Except Fault (BitVec 32 × BitVec 16) :=
  let place := 8 * ring.toNat + 4
  if t.tss.limit.toNat < place + 5 then .error .invalidTss
  else
    let esp := m.load (t.tss.base + BitVec.ofNat 32 place)
    let ss := (m.load (t.tss.base + BitVec.ofNat 32 (place + 4))).setWidth 16
    match t.segment ss with
    | none => .error .invalidTss
    | some stack =>
        if rpl ss ≠ ring || stack.dpl ≠ ring || !stack.isWritable then .error .invalidTss
        else if !stack.present then .error .stack
        else .ok (esp, ss)

/-- An interrupt with a vector, and an error code if the processor gives one. -/
def interrupt (c : Cpu) (vector : BitVec 8) (software : Bool) (error : Option (BitVec 32))
    : Except Fault Cpu :=
  let gate := t.gate vector
  match gate.kind with
  | none => .error .protection
  | some kind =>
      if software && gate.dpl < c.cpl then .error .protection
      else if !gate.present then .error .notPresent
      else
        match t.codeOf c gate with
        | .error fault => .error fault
        | .ok code =>
            if code.conforming || code.dpl == c.cpl then
              .ok (c.enter c.cpl gate kind none error)
            else
              (t.stackOf c.mem code.dpl).map (fun stack =>
                c.enter code.dpl gate kind (some stack) error)

/-- Whether code in a ring may keep a selector in a data segment register. -/
def keeps (ring : BitVec 2) (selector : BitVec 16) : Bool :=
  match t.segment selector with
  | none => false
  | some s => s.conforming || !decide (s.dpl < ring)

def isStack (ring : BitVec 2) (ss : BitVec 16) : Bool :=
  rpl ss == ring
    && (t.segment ss).any (fun s => s.dpl == ring && s.isWritable && s.present)

/-- Returning from an interrupt, in ring 0. A return to another ring takes its stack too, and leaves
no selector that the ring may not use.
-/
def iret (c : Cpu) : Except Fault Cpu :=
  let m := c.toMachine
  let eip := m.top
  let cs := m.drop.top.setWidth 16
  let eflags := Eflags.ofWord m.drop.drop.top
  let m := m.drop.drop.drop
  if rpl cs < c.cpl || !(t.segment cs).any (·.runsIn (rpl cs)) then .error .protection
  else if rpl cs = c.cpl then .ok { c with toMachine := { m with eip, cs, eflags } }
  else
    let esp := m.top
    let ss := m.drop.top.setWidth 16
    if !t.isStack (rpl cs) ss then .error .protection
    else
      .ok { m.set .esp esp with
        eip, cs, eflags, ss
        seg := fun s => if t.keeps (rpl cs) (m.seg s) then m.seg s else 0 }

/-- What the processor keeps true of the segments of code that it runs. -/
structure Runs (c : Cpu) : Prop where
  code : (t.segment c.cs).any (·.runsIn c.cpl) = true
  stack : t.isStack c.cpl c.ss = true
  data : ∀ s, c.seg s = 0 ∨ t.keeps c.cpl (c.seg s) = true

variable {t}

/-- What a return takes from the stack: the words for it, whether or not the ring changes. -/
theorem return_of_holds {c : Cpu} {m : Machine} {inner : Bool} {sp : BitVec 32}
    (holds : m.mem.Holds sp (c.returnWords inner))
    (place : m.gpr .esp = sp - BitVec.ofNat 32 (4 * (c.returnWords inner).length))
    : m.top = c.eip ∧ m.drop.top.setWidth 16 = c.cs ∧ Eflags.ofWord m.drop.drop.top = c.eflags
      ∧ (inner = true → m.drop.drop.drop.top = c.gpr .esp
        ∧ m.drop.drop.drop.drop.top.setWidth 16 = c.ss)
      ∧ (inner = false → m.drop.drop.drop.gpr .esp = sp) := by
  have word := holds.load_at place
  obtain ⟨first, second, third, fourth, fifth⟩ := top_drops m
  have narrow (v : BitVec 16) : (v.setWidth 32).setWidth 16 = v := by
    rw [BitVec.setWidth_setWidth_of_le _ (by decide), BitVec.setWidth_eq]
  cases inner with
  | false =>
      refine ⟨first.trans (word 0 (show 0 < 3 by decide)), ?_, ?_, nofun, fun _ => ?_⟩
      · rw [second, word 1 (show 1 < 3 by decide)]
        exact narrow c.cs
      · rw [third, word 2 (show 2 < 3 by decide)]
        exact Eflags.ofWord_val c.eflags
      · rw [esp_drops, place]
        exact BitVec.sub_add_cancel ..
  | true =>
      refine ⟨first.trans (word 0 (show 0 < 5 by decide)), ?_, ?_, fun _ => ⟨?_, ?_⟩, nofun⟩
      · rw [second, word 1 (show 1 < 5 by decide)]
        exact narrow c.cs
      · rw [third, word 2 (show 2 < 5 by decide)]
        exact Eflags.ofWord_val c.eflags
      · exact fourth.trans (word 3 (show 3 < 5 by decide))
      · rw [fifth, word 4 (show 4 < 5 by decide)]
        exact narrow c.ss

/-- A return from ring 0 to code that was interrupted, with its words on the stack, goes on with it:
the registers that the words do not give are those at the return.
-/
theorem iret_of_holds {c c' : Cpu} {sp : BitVec 32} (runs : t.Runs c) (ring : c'.cpl = 0)
    (holds : c'.mem.Holds sp (c.returnWords (c.cpl ≠ 0)))
    (place : c'.gpr .esp = sp - BitVec.ofNat 32 (4 * (c.returnWords (c.cpl ≠ 0)).length))
    (stack : c.cpl = 0 → sp = c.gpr .esp ∧ c'.ss = c.ss) (seg : c'.seg = c.seg)
    : t.iret c'
      = .ok { c with gpr := Function.update c'.gpr .esp (c.gpr .esp), mem := c'.mem } := by
  obtain ⟨eip, cs, eflags, inner, same⟩ := return_of_holds holds place
  have gpr : c'.drop.drop.drop.gpr
      = Function.update c'.gpr .esp (c'.drop.drop.drop.gpr .esp) := by
    simp [Machine.drop, Machine.set]
  have code : (t.segment c.cs).any (·.runsIn (rpl c.cs)) = true := runs.code
  have zero : ¬ rpl c.cs < c'.cpl := by
    rw [ring]
    exact BitVec.not_lt_zero
  rw [iret]
  simp only [eip, cs, eflags, code, zero, decide_false, Bool.not_true, Bool.or_self,
    Bool.false_eq_true, if_false]
  by_cases out : c.cpl = 0
  · have back : rpl c.cs = c'.cpl := out.trans ring.symm
    obtain ⟨start, ss⟩ := stack out
    have esp := same (decide_eq_false (not_not_intro out))
    rw [if_pos back, gpr, esp, start, ss]
    change Except.ok (Cpu.mk (Machine.mk _ c'.seg _ _ _ c'.mem) _) = _
    rw [seg]
  · have away : rpl c.cs ≠ c'.cpl := by
      rw [ring]
      exact out
    obtain ⟨esp, ss⟩ := inner (decide_eq_true out)
    have kept : (fun s => if t.keeps (rpl c.cs) (c'.drop.drop.drop.seg s)
        then c'.drop.drop.drop.seg s else 0) = c.seg := by
      funext s
      change (if t.keeps (rpl c.cs) (c'.seg s) then c'.seg s else 0) = c.seg s
      rw [seg]
      rcases runs.data s with none | some
      · rw [none, ite_self]
      · exact if_pos some
    have own : t.isStack (rpl c.cs) c.ss = true := runs.stack
    simp only [if_neg away, esp, ss, own, kept, Bool.not_true, Bool.false_eq_true, if_false]
    rw [Machine.set, gpr, Function.update_idem]
    rfl

/-- A return changes nothing in memory. -/
theorem iret_mem {c c' : Cpu} (returns : t.iret c = .ok c') : c'.mem = c.mem := by
  rw [iret] at returns
  simp only at returns
  split at returns
  · cases returns
  · split at returns
    · obtain rfl := Except.ok.inj returns
      rfl
    · split at returns
      · cases returns
      · obtain rfl := Except.ok.inj returns
        rfl

end Tables

-----------------------------------------------------------------------------------------
-- Code of handlers
-----------------------------------------------------------------------------------------

/-- The instructions around interrupts: those that need no segments, `cli`, `cld`, `push $value`,
`pushl disp(base)` and `push %seg`, which pushes a word, `mov $value, %ax` and `mov %ax, %seg`.
-/
inductive HandlerInstr where
  | basic (i : Instr)
  | cli
  | cld
  | pushImm (value : BitVec 32)
  | pushFrom (disp : BitVec 32) (base : Reg)
  | pushSeg (s : Seg)
  | movAx (value : BitVec 16)
  | movSeg (s : Seg)

namespace Cpu

def exec (c : Cpu) : HandlerInstr → Cpu
  | .basic i => { c with toMachine := X86.exec c.toMachine i }
  | .cli => { c with eflags := c.eflags.without 0x200 }
  | .cld => { c with eflags := c.eflags.without 0x400 }
  | .pushImm value => { c with toMachine := c.toMachine.push value }
  | .pushFrom disp base =>
      { c with toMachine := c.toMachine.push (c.mem.load (c.operand disp (some base))) }
  | .pushSeg s => { c with toMachine := c.toMachine.push ((c.seg s).setWidth 32) }
  | .movAx value =>
      { c with toMachine := c.toMachine.set .eax ((c.gpr .eax).extractLsb' 16 16 ++ value) }
  | .movSeg s => { c with seg := Function.update c.seg s ((c.gpr .eax).setWidth 16) }

def run (c : Cpu) (code : List HandlerInstr) : Cpu :=
  code.foldl exec c

theorem run_cons (c : Cpu) (i : HandlerInstr) (code : List HandlerInstr)
    : c.run (i :: code) = (c.exec i).run code :=
  rfl

theorem run_append (c : Cpu) (code code' : List HandlerInstr)
    : c.run (code ++ code') = (c.run code).run code' :=
  List.foldl_append

end Cpu

end X86
