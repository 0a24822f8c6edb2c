import Hydrangea.Cpu.Idt

/-! What the handlers of interrupts in `kernel/cpu/isr_as.s` and `kernel/cpu/irq_as.s` save of the
code that they interrupt, and how it goes on behind them.
-/

namespace Hydrangea

open X86 Memory

/-- The vectors whose interrupts come with an error code, for `isr_werr`. -/
def errorVectors : List Nat :=
  [8, 10, 11, 12, 13, 14, 17, 30]

def Stub.code : Stub → List HandlerInstr
  | .isr num =>
      if num = 32 then [.pushImm 0, .pushImm 32]
      else if num ∈ errorVectors then [.cli, .pushImm (BitVec.ofNat 32 num)]
      else [.cli, .pushImm 0, .pushImm (BitVec.ofNat 32 num)]
  | .irq num => [.cli, .pushImm 0, .pushImm (BitVec.ofNat 32 (num + 32))]

/-- `isr_common_handler_wrapper` up to the call, and `irq_common_handler_wrapper` behind its `cli`.
-/
def handlerSave : List HandlerInstr :=
  [.basic (.push .edi), .basic (.push .esi), .basic (.push .ebp), .basic (.push .ebx),
    .basic (.push .edx), .basic (.push .ecx), .basic (.push .eax),
    .pushSeg .ds, .pushSeg .es, .pushSeg .fs, .pushSeg .gs,
    .movAx 0x10, .movSeg .ds, .movSeg .es, .movSeg .fs, .movSeg .gs,
    .cld, .basic (.push .esp)]

/-- Both wrappers from the call up to the `iret`. -/
def handlerRestore : List HandlerInstr :=
  [.basic (.add 4 .esp),
    .basic (.popSeg .gs), .basic (.popSeg .fs), .basic (.popSeg .es), .basic (.popSeg .ds),
    .basic (.pop .eax), .basic (.pop .ecx), .basic (.pop .edx), .basic (.pop .ebx),
    .basic (.pop .ebp), .basic (.pop .esi), .basic (.pop .edi),
    .basic (.add 8 .esp)]

def Stub.entry : Stub → List HandlerInstr
  | .isr num => (Stub.isr num).code ++ handlerSave
  | .irq num => (Stub.irq num).code ++ .cli :: handlerSave

def Stub.intNum : Stub → BitVec 32
  | .isr num => BitVec.ofNat 32 num
  | .irq num => BitVec.ofNat 32 (num + 32)

structure Registers where
  gs : BitVec 32
  fs : BitVec 32
  es : BitVec 32
  ds : BitVec 32
  eax : BitVec 32
  ecx : BitVec 32
  edx : BitVec 32
  ebx : BitVec 32
  ebp : BitVec 32
  esi : BitVec 32
  edi : BitVec 32
  intNum : BitVec 32
  errCode : BitVec 32
  eip : BitVec 32
  cs : BitVec 32
  eflags : BitVec 32
  esp : BitVec 32
  ss : BitVec 32

namespace Registers

def load (m : Memory) (a : BitVec 32) : Registers where
  gs := m.load (a + BitVec.ofNat 32 (4 * 0))
  fs := m.load (a + BitVec.ofNat 32 (4 * 1))
  es := m.load (a + BitVec.ofNat 32 (4 * 2))
  ds := m.load (a + BitVec.ofNat 32 (4 * 3))
  eax := m.load (a + BitVec.ofNat 32 (4 * 4))
  ecx := m.load (a + BitVec.ofNat 32 (4 * 5))
  edx := m.load (a + BitVec.ofNat 32 (4 * 6))
  ebx := m.load (a + BitVec.ofNat 32 (4 * 7))
  ebp := m.load (a + BitVec.ofNat 32 (4 * 8))
  esi := m.load (a + BitVec.ofNat 32 (4 * 9))
  edi := m.load (a + BitVec.ofNat 32 (4 * 10))
  intNum := m.load (a + BitVec.ofNat 32 (4 * 11))
  errCode := m.load (a + BitVec.ofNat 32 (4 * 12))
  eip := m.load (a + BitVec.ofNat 32 (4 * 13))
  cs := m.load (a + BitVec.ofNat 32 (4 * 14))
  eflags := m.load (a + BitVec.ofNat 32 (4 * 15))
  esp := m.load (a + BitVec.ofNat 32 (4 * 16))
  ss := m.load (a + BitVec.ofNat 32 (4 * 17))

def of (c : Cpu) (intNum errCode : BitVec 32) : Registers where
  gs := (c.seg .gs).setWidth 32
  fs := (c.seg .fs).setWidth 32
  es := (c.seg .es).setWidth 32
  ds := (c.seg .ds).setWidth 32
  eax := c.gpr .eax
  ecx := c.gpr .ecx
  edx := c.gpr .edx
  ebx := c.gpr .ebx
  ebp := c.gpr .ebp
  esi := c.gpr .esi
  edi := c.gpr .edi
  intNum := intNum
  errCode := errCode
  eip := c.eip
  cs := c.cs.setWidth 32
  eflags := c.eflags.val
  esp := c.gpr .esp
  ss := c.ss.setWidth 32

def above (r : Registers) (c : Cpu) : Registers :=
  { r with
    esp := if c.cpl = 0 then c.gpr .esp else r.esp
    ss := if c.cpl = 0 then c.ss.setWidth 32 else r.ss }

def withGpr (r : Registers) (g : Reg → BitVec 32) : Registers :=
  { r with
    eax := g .eax, ecx := g .ecx, edx := g .edx, ebx := g .ebx, ebp := g .ebp, esi := g .esi
    edi := g .edi }

end Registers

def savedRegs : List Reg :=
  [.edi, .esi, .ebp, .ebx, .edx, .ecx, .eax]

def savedSegs : List Seg :=
  [.ds, .es, .fs, .gs]

def savedWords (c : Cpu) : List (BitVec 32) :=
  savedRegs.map c.gpr ++ savedSegs.map (fun s => (c.seg s).setWidth 32)

/-- The words below the stack pointer of the interrupted code, or of ring 0, that make up a
`registers_t`, the first one pushed first.
-/
def frameWords (c : Cpu) (intNum errCode : BitVec 32) : List (BitVec 32) :=
  c.returnWords (c.cpl ≠ 0) ++ [errCode, intNum] ++ savedWords c

def frameTop (tss : BitVec 32) (c : Cpu) : BitVec 32 :=
  if c.cpl = 0 then c.gpr .esp else c.mem.load (tss + 4)

/-- Where a `registers_t` lies. -/
def frameAt (tss : BitVec 32) (c : Cpu) : BitVec 32 :=
  frameTop tss c - (if c.cpl = 0 then 64 else 72)

def Stub.leavesCode : Stub → Bool
  | .isr num => num ∈ errorVectors
  | .irq _ => false

/-- What the processor keeps while a handler pushes words. -/
structure Pushed (c c' : Cpu) (words : List (BitVec 32)) : Prop where
  mem : c'.mem = c.mem.pushWords (c.gpr .esp) words
  esp : c'.gpr .esp = c.gpr .esp - BitVec.ofNat 32 (4 * words.length)
  gpr : ∀ r, r ≠ .esp → c'.gpr r = c.gpr r
  seg : c'.seg = c.seg
  cs : c'.cs = c.cs
  ss : c'.ss = c.ss

theorem Pushed.refl (c : Cpu) : Pushed c c [] where
  mem := rfl
  esp := (BitVec.sub_zero _).symm
  gpr _ _ := rfl
  seg := rfl
  cs := rfl
  ss := rfl

theorem Pushed.trans {c c' c'' : Cpu} {vs ws : List (BitVec 32)} (first : Pushed c c' vs)
    (second : Pushed c' c'' ws)
    : Pushed c c'' (vs ++ ws) where
  mem := by
    rw [second.mem, first.mem, first.esp, pushWords_append]
  esp := by
    rw [second.esp, first.esp, List.length_append, Nat.mul_add, BitVec.ofNat_add]
    bv_omega
  gpr r ne := (second.gpr r ne).trans (first.gpr r ne)
  seg := second.seg.trans first.seg
  cs := second.cs.trans first.cs
  ss := second.ss.trans first.ss

theorem Pushed.push (c : Cpu) (v : BitVec 32)
    : Pushed c { c with toMachine := c.toMachine.push v } [v] where
  mem := rfl
  esp := rfl
  gpr _ ne := Function.update_of_ne ne ..
  seg := rfl
  cs := rfl
  ss := rfl

theorem Pushed.flags (c : Cpu) (eflags : Eflags) : Pushed c { c with eflags } [] where
  mem := rfl
  esp := (BitVec.sub_zero _).symm
  gpr _ _ := rfl
  seg := rfl
  cs := rfl
  ss := rfl

/-- A stub pushes its number, behind an error code if the processor gives none. -/
theorem Stub.run_code (stub : Stub) (c : Cpu)
    : Pushed c (c.run stub.code)
        ((if stub.leavesCode then [] else [0]) ++ [stub.intNum]) := by
  have pair (c : Cpu) (v : BitVec 32) : Pushed c (c.run [.pushImm 0, .pushImm v]) ([0] ++ [v]) :=
    (Pushed.push c 0).trans (Pushed.push _ v)
  cases stub with
  | isr num =>
      rw [Stub.code]
      by_cases call : num = 32
      · subst call
        exact pair c 32
      · rw [if_neg call]
        by_cases coded : num ∈ errorVectors
        · have leaves : (Stub.isr num).leavesCode = true := decide_eq_true coded
          rw [if_pos coded, leaves, if_pos rfl]
          exact (Pushed.flags c _).trans (Pushed.push _ _)
        · have leaves : (Stub.isr num).leavesCode = false := decide_eq_false coded
          rw [if_neg coded, leaves, if_neg Bool.false_ne_true]
          exact (Pushed.flags c _).trans (pair _ _)
  | irq num => exact (Pushed.flags c _).trans (pair _ _)

/-- Registers are pushed one after another, by induction on them. -/
theorem Pushed.registers (c : Cpu) (rs : List Reg) (general : Reg.esp ∉ rs)
    : Pushed c (c.run (rs.map (fun r => .basic (.push r)))) (rs.map c.gpr) := by
  induction rs generalizing c with
  | nil => exact Pushed.refl c
  | cons r rs ih =>
      rw [List.mem_cons, not_or] at general
      have first : Pushed c (c.exec (.basic (.push r))) [c.gpr r] := Pushed.push c _
      have rest := ih (c.exec (.basic (.push r))) general.2
      have same : rs.map (c.exec (.basic (.push r))).gpr = rs.map c.gpr := by
        refine List.map_congr_left (fun r' member => first.gpr r' ?_)
        rintro rfl
        exact general.2 member
      rw [same] at rest
      exact first.trans rest

/-- Segment registers are pushed one after another, by induction on them. -/
theorem Pushed.segments (c : Cpu) (ss : List Seg)
    : Pushed c (c.run (ss.map .pushSeg)) (ss.map (fun s => (c.seg s).setWidth 32)) := by
  induction ss generalizing c with
  | nil => exact Pushed.refl c
  | cons s ss ih =>
      have first : Pushed c (c.exec (.pushSeg s)) [(c.seg s).setWidth 32] := Pushed.push c _
      have rest := ih (c.exec (.pushSeg s))
      rw [first.seg] at rest
      exact first.trans rest

def handlerSegments : List HandlerInstr :=
  [.movAx 0x10, .movSeg .ds, .movSeg .es, .movSeg .fs, .movSeg .gs, .cld]

theorem handlerSave_eq
    : handlerSave
      = savedRegs.map (fun r => .basic (.push r)) ++ savedSegs.map .pushSeg ++ handlerSegments
        ++ [.basic (.push .esp)] :=
  rfl

/-- Saving pushes the registers, and then where they are. -/
theorem run_handlerSave (c : Cpu)
    : (c.run handlerSave).mem
        = c.mem.pushWords (c.gpr .esp) (savedWords c ++ [c.gpr .esp - 44])
      ∧ (c.run handlerSave).gpr .esp = c.gpr .esp - 48
      ∧ (c.run handlerSave).cs = c.cs ∧ (c.run handlerSave).ss = c.ss
      ∧ ∀ s, (c.run handlerSave).seg s = 0x10 := by
  have saved : Pushed c ((c.run (savedRegs.map (fun r => .basic (.push r)))).run
      (savedSegs.map .pushSeg)) (savedWords c) := by
    have regs := Pushed.registers c savedRegs (by decide)
    have segs := Pushed.segments (c.run (savedRegs.map (fun r => .basic (.push r)))) savedSegs
    rw [regs.seg] at segs
    exact regs.trans segs
  rw [handlerSave_eq, Cpu.run_append, Cpu.run_append, Cpu.run_append]
  generalize (c.run (savedRegs.map (fun r => .basic (.push r)))).run (savedSegs.map .pushSeg) = c'
    at saved ⊢
  have esp : c'.gpr .esp = c.gpr .esp - 44 := saved.esp
  refine ⟨?_, ?_, saved.cs, saved.ss, fun s => ?_⟩
  · rw [pushWords_append, ← saved.mem]
    change c'.mem.pushWords (c'.gpr .esp) [c'.gpr .esp] = _
    rw [esp]
    rfl
  · change c'.gpr .esp - 4 = _
    rw [esp]
    bv_omega
  · have ax (v : BitVec 16) : (v ++ 0x10#16).setWidth 16 = 0x10#16 :=
      BitVec.setWidth_append_eq_right
    cases s <;>
      (simp only [handlerSegments, Cpu.run, Cpu.exec, X86.exec, Machine.push, Machine.set,
        List.foldl_cons, List.foldl_nil, Function.update_apply, reduceCtorEq, if_true, if_false]
       exact ax _)

theorem Pushed.savedWords {c c' : Cpu} {words : List (BitVec 32)} (pushed : Pushed c c' words)
    : savedWords c' = savedWords c := by
  have regs : savedRegs.map c'.gpr = savedRegs.map c.gpr := by
    refine List.map_congr_left (fun r member => pushed.gpr r ?_)
    rintro rfl
    exact absurd member (by decide)
  rw [Hydrangea.savedWords, regs, pushed.seg, Hydrangea.savedWords]

def stubWords (stub : Stub) (c : Cpu) : List (BitVec 32) :=
  (if stub.leavesCode then [] else [0]) ++ [stub.intNum] ++ savedWords c

def stubPlace (stub : Stub) (c : Cpu) : BitVec 32 :=
  c.gpr .esp - BitVec.ofNat 32 (4 * (stubWords stub c).length)

/-- A stub and its wrapper push the number and the registers, and then where they are. -/
theorem Stub.run_entry (stub : Stub) (c : Cpu)
    : (c.run stub.entry).mem
        = c.mem.pushWords (c.gpr .esp) (stubWords stub c ++ [stubPlace stub c])
      ∧ (c.run stub.entry).gpr .esp = stubPlace stub c - 4
      ∧ (c.run stub.entry).cs = c.cs ∧ (c.run stub.entry).ss = c.ss
      ∧ ∀ s, (c.run stub.entry).seg s = 0x10 := by
  have before : ∃ c', c.run stub.entry = c'.run handlerSave
      ∧ Pushed c c' ((if stub.leavesCode then [] else [0]) ++ [stub.intNum]) := by
    cases stub with
    | isr num =>
        refine ⟨c.run (Stub.isr num).code, ?_, Stub.run_code (.isr num) c⟩
        rw [Stub.entry, Cpu.run_append]
    | irq num =>
        refine ⟨(c.run (Stub.irq num).code).exec .cli, ?_, ?_⟩
        · rw [Stub.entry, Cpu.run_append, Cpu.run_cons]
        · have pushed : Pushed c ((c.run (Stub.irq num).code).exec .cli) (_ ++ []) :=
            (Stub.run_code (.irq num) c).trans (Pushed.flags _ _)
          rwa [List.append_nil] at pushed
  obtain ⟨c', run, pushed⟩ := before
  obtain ⟨mem, esp, cs, ss, seg⟩ := run_handlerSave c'
  have length : (stubWords stub c).length
      = ((if stub.leavesCode then [] else [0]) ++ [stub.intNum]).length + 11 := List.length_append
  have place : c'.gpr .esp - 44 = stubPlace stub c := by
    rw [pushed.esp, stubPlace, length, Nat.mul_add, BitVec.ofNat_add]
    bv_omega
  rw [run]
  refine ⟨?_, ?_, cs.trans pushed.cs, ss.trans pushed.ss, seg⟩
  · rw [mem, pushed.savedWords, place, pushed.mem, pushed.esp, ← pushWords_append,
      ← List.append_assoc]
    rfl
  · rw [esp, ← place]
    bv_omega

section

variable (address : Stub → BitVec 32) (tss : BitVec 32)

def entered (c : Cpu) (vector : BitVec 8) (error : Option (BitVec 32)) : Cpu :=
  c.enter 0 (idtGate address vector) (gateKind vector)
    (if c.cpl = 0 then none else some (c.mem.load (tss + 4), 0x10)) error

/-- An interrupt pushes the words of its return, and its error code. -/
theorem entered_eq (c : Cpu) (vector : BitVec 8) (error : Option (BitVec 32))
    : (entered address tss c vector error).mem
        = c.mem.pushWords (frameTop tss c) (c.returnWords (c.cpl ≠ 0) ++ error.toList)
      ∧ (entered address tss c vector error).gpr .esp
        = frameTop tss c
          - BitVec.ofNat 32 (4 * (c.returnWords (c.cpl ≠ 0) ++ error.toList).length)
      ∧ (entered address tss c vector error).ss = (if c.cpl = 0 then c.ss else 0x10)
      ∧ savedWords (entered address tss c vector error) = savedWords c := by
  have saved : savedWords (entered address tss c vector error) = savedWords c := by
    have regs : savedRegs.map (entered address tss c vector error).gpr = savedRegs.map c.gpr := by
      refine List.map_congr_left (fun r member => Function.update_of_ne ?_ ..)
      rintro rfl
      exact absurd member (by decide)
    rw [savedWords, regs]
    rfl
  by_cases inside : c.cpl = 0
  · have outer : decide (c.cpl ≠ 0) = false := decide_eq_false (not_not_intro inside)
    refine ⟨?_, ?_, ?_, saved⟩
    · rw [entered, if_pos inside, frameTop, if_pos inside, outer]
      rfl
    · rw [entered, if_pos inside, frameTop, if_pos inside, outer]
      exact Function.update_self Reg.esp _ c.gpr
    · rw [entered, if_pos inside, if_pos inside]
      rfl
  · have outer : decide (c.cpl ≠ 0) = true := decide_eq_true inside
    refine ⟨?_, ?_, ?_, saved⟩
    · rw [entered, if_neg inside, frameTop, if_neg inside, outer]
      rfl
    · rw [entered, if_neg inside, frameTop, if_neg inside, outer]
      exact Function.update_self Reg.esp _ c.gpr
    · rw [entered, if_neg inside, if_neg inside]
      rfl

/-- The number of words of a `registers_t`. -/
theorem frameWords_length (c : Cpu) (intNum errCode : BitVec 32)
    : 4 * (frameWords c intNum errCode).length = if c.cpl = 0 then 64 else 72 := by
  rw [frameWords, Cpu.returnWords]
  by_cases inside : c.cpl = 0
  · rw [decide_eq_false (not_not_intro inside), if_pos inside]
    rfl
  · rw [decide_eq_true inside, if_neg inside]
    rfl

theorem frameWords_inside {c : Cpu} (inside : c.cpl = 0) (intNum errCode : BitVec 32)
    : frameWords c intNum errCode
      = [c.eflags.val, c.cs.setWidth 32, c.eip, errCode, intNum, c.gpr .edi, c.gpr .esi,
        c.gpr .ebp, c.gpr .ebx, c.gpr .edx, c.gpr .ecx, c.gpr .eax, (c.seg .ds).setWidth 32,
        (c.seg .es).setWidth 32, (c.seg .fs).setWidth 32, (c.seg .gs).setWidth 32] := by
  rw [frameWords, decide_eq_false (not_not_intro inside)]
  rfl

/-- The words of a frame of another ring, whose stack pointer comes first. -/
theorem frameWords_outside {c : Cpu} (outside : c.cpl ≠ 0) (intNum errCode : BitVec 32)
    : frameWords c intNum errCode
      = [c.ss.setWidth 32, c.gpr .esp, c.eflags.val, c.cs.setWidth 32, c.eip, errCode, intNum,
        c.gpr .edi, c.gpr .esi, c.gpr .ebp, c.gpr .ebx, c.gpr .edx, c.gpr .ecx, c.gpr .eax,
        (c.seg .ds).setWidth 32, (c.seg .es).setWidth 32, (c.seg .fs).setWidth 32,
        (c.seg .gs).setWidth 32] := by
  rw [frameWords, decide_eq_true outside]
  rfl

/-- The handler is called with a `registers_t` on the stack, and where it is. -/
theorem run_entered {c : Cpu} {vector : BitVec 8} {error : Option (BitVec 32)} {stub : Stub}
    (coded : error.isSome = stub.leavesCode)
    : ((entered address tss c vector error).run stub.entry).mem
        = c.mem.pushWords (frameTop tss c)
            (frameWords c stub.intNum (error.getD 0) ++ [frameAt tss c])
      ∧ ((entered address tss c vector error).run stub.entry).gpr .esp = frameAt tss c - 4
      ∧ ((entered address tss c vector error).run stub.entry).ss
        = (if c.cpl = 0 then c.ss else 0x10)
      ∧ ((entered address tss c vector error).run stub.entry).cpl = 0 := by
  obtain ⟨mem, esp, ss, saved⟩ := entered_eq address tss c vector error
  obtain ⟨mem', esp', cs', ss', -⟩ := stub.run_entry (entered address tss c vector error)
  have code : error.toList ++ (if stub.leavesCode then [] else [0]) = [error.getD 0] := by
    rw [← coded]
    cases error <;> rfl
  have words : c.returnWords (c.cpl ≠ 0) ++ error.toList
      ++ stubWords stub (entered address tss c vector error)
      = frameWords c stub.intNum (error.getD 0) := by
    rw [stubWords, saved, frameWords, ← List.append_assoc, ← List.append_assoc,
      List.append_assoc _ error.toList, code, List.append_assoc _ [error.getD 0]]
    rfl
  have place : stubPlace stub (entered address tss c vector error) = frameAt tss c := by
    have total : 4 * (c.returnWords (c.cpl ≠ 0) ++ error.toList).length
        + 4 * (stubWords stub (entered address tss c vector error)).length
        = if c.cpl = 0 then 64 else 72 := by
      rw [← frameWords_length c stub.intNum (error.getD 0), ← words, ← Nat.mul_add]
      exact congrArg (4 * ·) List.length_append.symm
    have below (a b : Nat) : frameTop tss c - BitVec.ofNat 32 a - BitVec.ofNat 32 b
        = frameTop tss c - BitVec.ofNat 32 (a + b) := by
      rw [BitVec.ofNat_add]
      bv_omega
    rw [stubPlace, esp, below, total, frameAt]
    split <;> rfl
  refine ⟨?_, ?_, ss'.trans ss, ?_⟩
  · rw [mem', place, mem, esp, ← pushWords_append, ← List.append_assoc, words]
  · rw [esp', place]
  · rw [Cpu.cpl, cs']
    exact Cpu.enter_cpl ..

/-- The words of a frame in memory are a `registers_t` with the registers of the interrupted code.
-/
theorem load_frame {c : Cpu} {m : Memory} {intNum errCode : BitVec 32}
    (holds : m.Holds (frameTop tss c) (frameWords c intNum errCode))
    : (Registers.load m (frameAt tss c)).above c = Registers.of c intNum errCode := by
  have length := frameWords_length c intNum errCode
  have place : frameAt tss c
      = frameTop tss c - BitVec.ofNat 32 (4 * (frameWords c intNum errCode).length) := by
    rw [length, frameAt]
    split <;> rfl
  have word := holds.load_at place
  by_cases inside : c.cpl = 0
  · rw [frameWords_inside inside] at word
    have word (k : Nat) (inside : k < 16) := word k inside
    rw [Registers.above, if_pos inside, if_pos inside, Registers.load, word 0 (by decide),
      word 1 (by decide), word 2 (by decide), word 3 (by decide), word 4 (by decide),
      word 5 (by decide), word 6 (by decide), word 7 (by decide), word 8 (by decide),
      word 9 (by decide), word 10 (by decide), word 11 (by decide), word 12 (by decide),
      word 13 (by decide), word 14 (by decide), word 15 (by decide)]
    rfl
  · rw [frameWords_outside inside] at word
    have word (k : Nat) (inside : k < 18) := word k inside
    rw [Registers.above, if_neg inside, if_neg inside, Registers.load, word 0 (by decide),
      word 1 (by decide), word 2 (by decide), word 3 (by decide), word 4 (by decide),
      word 5 (by decide), word 6 (by decide), word 7 (by decide), word 8 (by decide),
      word 9 (by decide), word 10 (by decide), word 11 (by decide), word 12 (by decide),
      word 13 (by decide), word 14 (by decide), word 15 (by decide), word 16 (by decide),
      word 17 (by decide)]
    rfl

end

/-- Restoring takes the registers from the frame above the stack pointer. -/
theorem run_handlerRestore (c : Cpu)
    : (c.run handlerRestore).mem = c.mem
      ∧ (c.run handlerRestore).cs = c.cs ∧ (c.run handlerRestore).ss = c.ss
      ∧ (c.run handlerRestore).gpr .esp = c.gpr .esp + 56
      ∧ let r := Registers.load c.mem (c.gpr .esp + 4)
        (c.run handlerRestore).seg .gs = r.gs.setWidth 16
          ∧ (c.run handlerRestore).seg .fs = r.fs.setWidth 16
          ∧ (c.run handlerRestore).seg .es = r.es.setWidth 16
          ∧ (c.run handlerRestore).seg .ds = r.ds.setWidth 16
          ∧ (c.run handlerRestore).gpr .eax = r.eax
          ∧ (c.run handlerRestore).gpr .ecx = r.ecx
          ∧ (c.run handlerRestore).gpr .edx = r.edx
          ∧ (c.run handlerRestore).gpr .ebx = r.ebx
          ∧ (c.run handlerRestore).gpr .ebp = r.ebp
          ∧ (c.run handlerRestore).gpr .esi = r.esi
          ∧ (c.run handlerRestore).gpr .edi = r.edi := by
  simp [handlerRestore, Cpu.run, Cpu.exec, X86.exec, Machine.set, Machine.drop, Machine.top,
    Registers.load, BitVec.add_assoc]

/-- Interrupted code with other general-purpose registers, on the same stack. -/
def withResults (c : Cpu) (g : Reg → BitVec 32) : Cpu :=
  { c with gpr := Function.update g .esp (c.gpr .esp) }

/-- A handler in C returns to the wrapper. It may have written other general-purpose registers into
the `registers_t`.
-/
structure Serves (frame : BitVec 32) (c c' : Cpu) (g : Reg → BitVec 32) : Prop where
  registers : Registers.load c'.mem frame = (Registers.load c.mem frame).withGpr g
  esp : c'.gpr .esp = c.gpr .esp
  cs : c'.cs = c.cs
  ss : c'.ss = c.ss

section

variable {tss : BitVec 32} {c c' : Cpu} {g : Reg → BitVec 32} {intNum errCode : BitVec 32}

/-- A `registers_t` with the registers of the interrupted code is the words of its frame. -/
theorem holds_frame {m : Memory}
    (frame : (Registers.load m (frameAt tss c)).above c = Registers.of c intNum errCode)
    : m.Holds (frameTop tss c) (frameWords c intNum errCode) := by
  have length := frameWords_length c intNum errCode
  have place : frameAt tss c
      = frameTop tss c - BitVec.ofNat 32 (4 * (frameWords c intNum errCode).length) := by
    rw [length, frameAt]
    split <;> rfl
  refine holds_of_load place (fun k low => ?_)
  by_cases inside : c.cpl = 0
  · have shape := frameWords_inside inside intNum errCode
    have low : k < 16 := by
      rwa [shape] at low
    simp only [shape]
    interval_cases k
    · exact congrArg Registers.gs frame
    · exact congrArg Registers.fs frame
    · exact congrArg Registers.es frame
    · exact congrArg Registers.ds frame
    · exact congrArg Registers.eax frame
    · exact congrArg Registers.ecx frame
    · exact congrArg Registers.edx frame
    · exact congrArg Registers.ebx frame
    · exact congrArg Registers.ebp frame
    · exact congrArg Registers.esi frame
    · exact congrArg Registers.edi frame
    · exact congrArg Registers.intNum frame
    · exact congrArg Registers.errCode frame
    · exact congrArg Registers.eip frame
    · exact congrArg Registers.cs frame
    · exact congrArg Registers.eflags frame
  · have shape := frameWords_outside inside intNum errCode
    have low : k < 18 := by
      rwa [shape] at low
    rw [Registers.above, if_neg inside, if_neg inside] at frame
    simp only [shape]
    interval_cases k
    · exact congrArg Registers.gs frame
    · exact congrArg Registers.fs frame
    · exact congrArg Registers.es frame
    · exact congrArg Registers.ds frame
    · exact congrArg Registers.eax frame
    · exact congrArg Registers.ecx frame
    · exact congrArg Registers.edx frame
    · exact congrArg Registers.ebx frame
    · exact congrArg Registers.ebp frame
    · exact congrArg Registers.esi frame
    · exact congrArg Registers.edi frame
    · exact congrArg Registers.intNum frame
    · exact congrArg Registers.errCode frame
    · exact congrArg Registers.eip frame
    · exact congrArg Registers.cs frame
    · exact congrArg Registers.eflags frame
    · exact congrArg Registers.esp frame
    · exact congrArg Registers.ss frame

/-- The words of the return are among those of the frame. -/
theorem holds_return
    (frame : (Registers.load c'.mem (frameAt tss c)).above c
      = (Registers.of c intNum errCode).withGpr g)
    : c'.mem.Holds (frameTop tss c) (c.returnWords (c.cpl ≠ 0)) := by
  have all : c'.mem.Holds (frameTop tss (withResults c g))
      (frameWords (withResults c g) intNum errCode) :=
    holds_frame frame
  exact all.left.left

/-- Behind a frame, the interrupted code goes on with the general-purpose registers in it. -/
theorem iret_handlerRestore {t : Tables} (runs : t.Runs c)
    (frame : (Registers.load c'.mem (frameAt tss c)).above c
      = (Registers.of c intNum errCode).withGpr g)
    (esp : c'.gpr .esp = frameAt tss c - 4) (ring : c'.cpl = 0)
    (ss : c.cpl = 0 → c'.ss = c.ss)
    : t.iret (c'.run handlerRestore)
      = .ok { c with gpr := Function.update g .esp (c.gpr .esp), mem := c'.mem } := by
  obtain ⟨mem', cs', ss', esp', gs, fs, es, ds, eax, ecx, edx, ebx, ebp, esi, edi⟩ :=
    run_handlerRestore c'
  have back : c'.gpr .esp + 4 = frameAt tss c := by
    rw [esp]
    exact BitVec.sub_add_cancel ..
  rw [back] at gs fs es ds eax ecx edx ebx ebp esi edi
  have narrow {v : BitVec 32} {w : BitVec 16} (same : v = w.setWidth 32) : v.setWidth 16 = w := by
    rw [same, BitVec.setWidth_setWidth_of_le _ (by decide), BitVec.setWidth_eq]
  have seg : (c'.run handlerRestore).seg = c.seg := by
    funext s
    cases s with
    | ds => exact ds.trans (narrow (congrArg Registers.ds frame))
    | es => exact es.trans (narrow (congrArg Registers.es frame))
    | fs => exact fs.trans (narrow (congrArg Registers.fs frame))
    | gs => exact gs.trans (narrow (congrArg Registers.gs frame))
  have gpr : Function.update (c'.run handlerRestore).gpr .esp (c.gpr .esp)
      = Function.update g .esp (c.gpr .esp) := by
    funext r
    cases r with
    | esp => rw [Function.update_self, Function.update_self]
    | eax => exact eax.trans (congrArg Registers.eax frame)
    | ecx => exact ecx.trans (congrArg Registers.ecx frame)
    | edx => exact edx.trans (congrArg Registers.edx frame)
    | ebx => exact ebx.trans (congrArg Registers.ebx frame)
    | ebp => exact ebp.trans (congrArg Registers.ebp frame)
    | esi => exact esi.trans (congrArg Registers.esi frame)
    | edi => exact edi.trans (congrArg Registers.edi frame)
  have holds := holds_return frame
  rw [← mem'] at holds
  have place : (c'.run handlerRestore).gpr .esp
      = frameTop tss c - BitVec.ofNat 32 (4 * (c.returnWords (c.cpl ≠ 0)).length) := by
    rw [esp', esp, frameAt]
    by_cases inside : c.cpl = 0
    · rw [if_pos inside, decide_eq_false (not_not_intro inside)]
      change frameTop tss c - 64 - 4 + 56 = frameTop tss c - 12
      bv_omega
    · rw [if_neg inside, decide_eq_true inside]
      change frameTop tss c - 72 - 4 + 56 = frameTop tss c - 20
      bv_omega
  have out := Tables.iret_of_holds runs ((congrArg rpl cs').trans ring) holds place
    (fun inside => ⟨if_pos inside, ss'.trans (ss inside)⟩) seg
  rw [out, gpr, mem']

end

section

variable (address : Stub → BitVec 32) (tss : BitVec 32) (m : Memory)

/-- What the kernel sets up for interrupts of some code: the stack of ring 0 in `tss`, as far as the
processor takes the segment, and room on it.
-/
structure Prepared (c : Cpu) : Prop where
  ss0 : (c.mem.load (tss + 8)).setWidth 16 = 0x10#16
  limit : c.cpl ≠ 0 → 9 ≤ (tss.toNat + 104) % 2 ^ 20
  room : 76 ≤ (frameTop tss c).toNat

/-- A program of ring 3, with `tss` at 64 KiB and the stack of ring 0 at 512 KiB. -/
def userCpu : Cpu where
  gpr _ := 0x400000
  seg _ := 0x23
  cs := 0x1B
  eip := 0x300000
  eflags := Eflags.ofWord 0x202
  mem a := if a = 0x10006 then 0x08 else if a = 0x10008 then 0x10 else 0
  ss := 0x23

theorem prepared_userCpu : Prepared 0x10000 userCpu := by
  constructor
  · decide
  · intro _
    decide
  · decide

variable {c : Cpu} {vector : BitVec 8} {stub : Stub} {software : Bool} {error : Option (BitVec 32)}

theorem interrupt_prepared (prepared : Prepared tss c) (found : stubOf vector.toNat = some stub)
    (allowed : software = true → c.cpl = 0 ∨ vector = 128)
    : (kernelTables address tss m).interrupt c vector software error
      = .ok (entered address tss c vector error) := by
  rw [interrupt_entered address tss m found allowed prepared.ss0, entered]
  by_cases inside : c.cpl = 0
  · rw [if_pos inside, if_pos inside]
  · rw [if_neg inside, if_neg inside, if_neg (Nat.not_lt.mpr (prepared.limit inside))]

theorem entered_eip (found : stubOf vector.toNat = some stub)
    : (entered address tss c vector error).eip = address stub := by
  change (idtGate address vector).offset = address stub
  rw [idtGate_eq, found, Option.elim_some]

/-- The handler runs with the selectors of the kernel. -/
theorem runs_entered (found : stubOf vector.toNat = some stub) (ss : c.cpl = 0 → c.ss = 0x10)
    : (kernelTables address tss m).Runs ((entered address tss c vector error).run stub.entry)
      ∧ ((entered address tss c vector error).run stub.entry).ss = 0x10 := by
  obtain ⟨-, -, stack, -⟩ := entered_eq address tss c vector error
  obtain ⟨-, -, cs, ss', seg⟩ := stub.run_entry (entered address tss c vector error)
  have selector : (entered address tss c vector error).cs = 0x08 := by
    change (idtGate address vector).selector &&& ~~~3#16 ||| (0 : BitVec 2).setWidth 16 = 0x08#16
    rw [idtGate_eq, found]
    exact (show 0x08#16 &&& ~~~3#16 ||| (0 : BitVec 2).setWidth 16 = 0x08#16 by decide)
  have ring0 : ((entered address tss c vector error).run stub.entry).ss = 0x10 := by
    rw [ss', stack]
    split
    next inside => exact ss inside
    next => rfl
  exact ⟨runs_kernel address tss m (cs.trans selector) ring0 seg, ring0⟩

/-- The stub leaves a `registers_t` of the interrupted code and its address on the stack. -/
theorem frame_entered (prepared : Prepared tss c) (coded : error.isSome = stub.leavesCode)
    : ((entered address tss c vector error).run stub.entry).top = frameAt tss c
      ∧ (Registers.load ((entered address tss c vector error).run stub.entry).mem
          (frameAt tss c)).above c
        = Registers.of c stub.intNum (error.getD 0) := by
  obtain ⟨mem, esp, -, -⟩ := run_entered address tss (c := c) coded
  have holds : ((entered address tss c vector error).run stub.entry).mem.Holds (frameTop tss c)
      (frameWords c stub.intNum (error.getD 0) ++ [frameAt tss c]) := by
    rw [mem]
    refine holds_pushWords ?_
    have length := frameWords_length c stub.intNum (error.getD 0)
    have room := prepared.room
    rw [List.length_append, Nat.mul_add, length]
    split <;> simp only [List.length_singleton] <;> omega
  refine ⟨?_, load_frame tss holds.left⟩
  have last := holds (frameWords c stub.intNum (error.getD 0)).length (by simp)
  rw [List.getElem_append_right (Nat.le_refl _)] at last
  have place : frameTop tss c
      - BitVec.ofNat 32 (4 * ((frameWords c stub.intNum (error.getD 0)).length + 1))
      = frameAt tss c - 4 := by
    rw [Nat.mul_add, frameWords_length, frameAt, BitVec.ofNat_add]
    split <;> bv_omega
  rw [Machine.top, esp, ← place, last]
  simp

/-- Behind its handler, the interrupted code goes on. -/
theorem resumes_entered (runs : (kernelTables address tss m).Runs c) (prepared : Prepared tss c)
    (coded : error.isSome = stub.leavesCode) {c' : Cpu} {g : Reg → BitVec 32}
    (serves : Serves (frameAt tss c) ((entered address tss c vector error).run stub.entry) c' g)
    : (kernelTables address tss m).iret (c'.run handlerRestore)
      = .ok { c with gpr := Function.update g .esp (c.gpr .esp), mem := c'.mem } := by
  obtain ⟨-, esp, ss, cpl⟩ := run_entered address tss (c := c) coded
  have frame : (Registers.load c'.mem (frameAt tss c)).above c
      = (Registers.of c stub.intNum (error.getD 0)).withGpr g := by
    rw [serves.registers, ← (frame_entered address tss prepared coded).2]
    rfl
  refine iret_handlerRestore runs frame (serves.esp.trans esp) ?_ ?_
  · exact (congrArg rpl serves.cs).trans cpl
  · intro inside
    rw [serves.ss, ss, if_pos inside]

/-- An interrupt calls its handler with a `registers_t` of the interrupted code, which goes on
behind the handler with the general-purpose registers that this leaves there, and all others as
before. The words that the processor, the stub and the wrapper push are the structure that the
handler reads, and the same words in the other direction are what the wrapper and `iret` pop.
-/
theorem interrupt_resumes (runs : (kernelTables address tss m).Runs c)
    (prepared : Prepared tss c) (found : stubOf vector.toNat = some stub)
    (allowed : software = true → c.cpl = 0 ∨ vector = 128)
    (coded : error.isSome = stub.leavesCode)
    : ∃ c₁, (kernelTables address tss m).interrupt c vector software error = .ok c₁
        ∧ c₁.eip = address stub
        ∧ (c₁.run stub.entry).top = frameAt tss c
        ∧ (Registers.load (c₁.run stub.entry).mem (frameAt tss c)).above c
          = Registers.of c stub.intNum (error.getD 0)
        ∧ ∀ c' g, Serves (frameAt tss c) (c₁.run stub.entry) c' g →
          (kernelTables address tss m).iret (c'.run handlerRestore)
            = .ok { c with gpr := Function.update g .esp (c.gpr .esp), mem := c'.mem } := by
  obtain ⟨top, frame⟩ := frame_entered address tss prepared coded
  exact ⟨_, interrupt_prepared address tss m prepared found allowed,
    entered_eip address tss found, top, frame,
    fun _ _ serves => resumes_entered address tss m runs prepared coded serves⟩

theorem interrupt_resumes_timer
    : ∃ c₁, (kernelTables (fun _ => 0x100000) 0x10000 (fun _ => 0)).interrupt userCpu 0x20 false
          none = .ok c₁
        ∧ c₁.eip = 0x100000
        ∧ (Registers.load (c₁.run (Stub.irq 0).entry).mem (frameAt 0x10000 userCpu)).above userCpu
          = Registers.of userCpu (Stub.irq 0).intNum 0 := by
  have found : stubOf (0x20#8).toNat = some (.irq 0) := rfl
  have coded : (none : Option (BitVec 32)).isSome = (Stub.irq 0).leavesCode := rfl
  obtain ⟨c₁, entered, eip, -, frame, -⟩ :=
    interrupt_resumes (fun _ => 0x100000) 0x10000 (fun _ => 0)
      (runs_user _ _ _ rfl rfl (fun _ => rfl)) prepared_userCpu found
      (fun software : false = true => by cases software) coded
  exact ⟨c₁, entered, eip, frame⟩

/-- From ring 3, `int` reaches `isr32` and nothing else of the kernel. The gates of `idt_init` are
for ring 0 but this one, and a vector without a gate faults as well.
-/
theorem userInt_enters_iff (user : c.cpl ≠ 0) (prepared : Prepared tss c) (vector : BitVec 8)
    : (kernelTables address tss m).interrupt c vector true none
      = if vector = 128 then .ok (entered address tss c 128 none) else .error .protection := by
  split
  next call =>
    rw [call]
    exact interrupt_prepared address tss m prepared
      (show stubOf (128#8).toNat = some (.isr 32) from rfl) (fun _ => .inr rfl)
  next other => exact interrupt_protected address tss m user other none

theorem userInt_enters_iff_timer
    : (kernelTables (fun _ => 0x100000) 0x10000 (fun _ => 0)).interrupt userCpu 0x20 true none
      = .error .protection :=
  userInt_enters_iff (fun _ => 0x100000) 0x10000 (fun _ => 0) (by decide) prepared_userCpu 0x20

end

-----------------------------------------------------------------------------------------
-- User programs
-----------------------------------------------------------------------------------------

/-- The part of `go_usermode` that sets the segments. -/
def goSegments : List HandlerInstr :=
  [.cli, .movAx 0x23, .movSeg .ds, .movSeg .es, .movSeg .fs, .movSeg .gs,
    .basic (.mov .esp .eax)]

/-- `go_usermode` up to its `iret`. -/
def goUsermode : List HandlerInstr :=
  goSegments ++ [.pushImm 0x23, .basic (.push .eax), .pushImm 0x200, .pushImm 0x1B]
    ++ [.pushFrom 20 .esp]

section

variable (address : Stub → BitVec 32) (tss : BitVec 32) (m : Memory)

theorem run_goSegments (c : Cpu)
    : (c.run goSegments).mem = c.mem ∧ (c.run goSegments).gpr .esp = c.gpr .esp
      ∧ (c.run goSegments).gpr .eax = c.gpr .esp ∧ (c.run goSegments).cs = c.cs
      ∧ ∀ s, (c.run goSegments).seg s = 0x23 := by
  have ax (v : BitVec 16) : (v ++ 0x23#16).setWidth 16 = 0x23#16 := BitVec.setWidth_append_eq_right
  refine ⟨rfl, ?_, ?_, rfl, fun s => ?_⟩
  · simp [goSegments, Cpu.run, Cpu.exec, X86.exec, Machine.set]
  · simp [goSegments, Cpu.run, Cpu.exec, X86.exec, Machine.set]
  · cases s <;>
      (simp only [goSegments, Cpu.run, Cpu.exec, X86.exec, Machine.set, List.foldl_cons,
        List.foldl_nil, Function.update_apply, reduceCtorEq, if_true, if_false]
       exact ax _)

/-- What `go_usermode` pushes: the words of a return to its argument, in ring 3. -/
theorem run_goUsermode (c : Cpu)
    : (c.run goUsermode).mem
        = c.mem.pushWords (c.gpr .esp)
          [0x23, c.gpr .esp, 0x200, 0x1B,
            (c.mem.pushWords (c.gpr .esp) [0x23, c.gpr .esp, 0x200, 0x1B]).load (c.gpr .esp + 4)]
      ∧ (c.run goUsermode).gpr .esp = c.gpr .esp - 20
      ∧ (c.run goUsermode).cs = c.cs ∧ ∀ s, (c.run goUsermode).seg s = 0x23 := by
  obtain ⟨mem, esp, eax, cs, seg⟩ := run_goSegments c
  rw [goUsermode, Cpu.run_append, Cpu.run_append]
  generalize c.run goSegments = c' at mem esp eax cs seg ⊢
  have four : Pushed c'
      (c'.run [.pushImm 0x23, .basic (.push .eax), .pushImm 0x200, .pushImm 0x1B])
      ([0x23] ++ [c'.gpr .eax] ++ [0x200] ++ [0x1B]) :=
    (((Pushed.push c' _).trans (Pushed.push _ _)).trans (Pushed.push _ _)).trans (Pushed.push _ _)
  generalize c'.run [.pushImm 0x23, .basic (.push .eax), .pushImm 0x200, .pushImm 0x1B] = c''
    at four ⊢
  have argument : c''.gpr .esp + 20 = c.gpr .esp + 4 := by
    rw [four.esp, esp]
    change c.gpr .esp - 16 + 20 = _
    bv_omega
  have five : Pushed c' (c''.run [.pushFrom 20 .esp]) _ :=
    four.trans (Pushed.push c'' (c''.mem.load (c''.gpr .esp + 20)))
  rw [argument, four.mem, eax, mem, esp] at five
  refine ⟨?_, ?_, five.cs.trans cs, fun s => ?_⟩
  · rw [five.mem, mem, esp]
    rfl
  · rw [five.esp, esp]
    rfl
  · rw [five.seg, seg]

/-- What `iret` finds on the stack after `go_usermode`: the address that it was called with, the
user code selector, the flags, the stack that it was called on and the user data selector.
-/
theorem goUsermode_frame {c : Cpu} (room : 20 ≤ (c.gpr .esp).toNat)
    (fits : (c.gpr .esp).toNat + 8 ≤ 2 ^ 32)
    : (c.run goUsermode).mem.Holds (c.gpr .esp)
        [0x23, c.gpr .esp, 0x200, 0x1B, c.mem.load (c.gpr .esp + 4)]
      ∧ (c.run goUsermode).gpr .esp = c.gpr .esp - 20 := by
  obtain ⟨mem, esp, -, -⟩ := run_goUsermode c
  have argument : (c.mem.pushWords (c.gpr .esp) [0x23, c.gpr .esp, 0x200, 0x1B]).load
      (c.gpr .esp + 4) = c.mem.load (c.gpr .esp + 4) := by
    have position : (c.gpr .esp + 4).toNat = (c.gpr .esp).toNat + 4 := by bv_omega
    have below : 4 * [0x23, c.gpr .esp, 0x200, 0x1B].length ≤ (c.gpr .esp).toNat := by
      change 16 ≤ _
      omega
    refine (agreeOn_pushWords below (.inl ?_)).load ?_
    · simp only [wordAt, position]
      omega
    · rw [Fits, position]
      omega
  rw [argument] at mem
  refine ⟨?_, esp⟩
  rw [mem]
  exact holds_pushWords room

/-- `iret` from ring 0 into the user segments, with the user data selector in the data segment
registers: they keep it, and the five words become the new context.
-/
theorem iret_userFrame {c : Cpu} {stack eip flags esp : BitVec 32} (ring : c.cpl = 0)
    (seg : ∀ s, c.seg s = 0x23) (holds : c.mem.Holds stack [0x23, esp, flags, 0x1B, eip])
    (top : c.gpr .esp = stack - 20)
    : ∃ c', (kernelTables address tss m).iret c = .ok c'
        ∧ (kernelTables address tss m).Runs c'
        ∧ c'.cs = 0x1B ∧ c'.ss = 0x23 ∧ (∀ s, c'.seg s = 0x23)
        ∧ c'.eip = eip ∧ c'.eflags = .ofWord flags ∧ c'.gpr .esp = esp := by
  have word (k : Nat) (inside : k < 5) := holds.load_at top k inside
  obtain ⟨first, second, third, fourth, fifth⟩ := top_drops c.toMachine
  have eip' : c.top = eip := first.trans (word 0 (by decide))
  have cs' : c.drop.top.setWidth 16 = 0x1B#16 := by
    rw [second, word 1 (by decide)]
    rfl
  have flags' : c.drop.drop.top = flags := third.trans (word 2 (by decide))
  have esp' : c.drop.drop.drop.top = esp := fourth.trans (word 3 (by decide))
  have ss : c.drop.drop.drop.drop.top.setWidth 16 = 0x23#16 := by
    rw [fifth, word 4 (by decide)]
    rfl
  rw [Tables.iret]
  simp only [eip', cs', flags', esp', ss, ring]
  obtain ⟨code, data⟩ := kernelTables_segment_user address tss m
  have target : (((kernelTables address tss m).segment 0x1B#16).any (·.runsIn (rpl 0x1B#16)))
      = true := by
    rw [show (0x1B#16 : BitVec 16) = 0x1B from rfl, code]
    decide
  have isStack : (kernelTables address tss m).isStack (rpl 0x1B#16) 0x23#16 = true := by
    rw [Tables.isStack, show (0x23#16 : BitVec 16) = 0x23 from rfl, data]
    decide
  have up : decide (rpl 0x1B#16 < 0) = false := by decide
  have away : ¬ rpl 0x1B#16 = 0 := by decide
  simp only [target, isStack, up, if_neg away, Bool.not_true, Bool.or_self, Bool.false_eq_true,
    if_false]
  have kept (s : Seg)
      : (if (kernelTables address tss m).keeps (rpl 0x1B#16) (c.seg s) then c.seg s else 0)
        = 0x23 := by
    rw [seg, Tables.keeps, data]
    rfl
  refine ⟨_, rfl, runs_user address tss m rfl rfl kept, rfl, rfl, kept, rfl, rfl, ?_⟩
  exact Function.update_self Reg.esp esp c.drop.drop.drop.gpr

/-- `go_usermode` enters ring 3 at the address that it is called with, with the user selectors in
every segment register, with interrupts on, and on the stack that it is called on. The five
words that it pushes are what `iret` takes for a change of ring, the argument first.
-/
theorem goUsermode_enters {c : Cpu} (ring : c.cpl = 0) (room : 20 ≤ (c.gpr .esp).toNat)
    (fits : (c.gpr .esp).toNat + 8 ≤ 2 ^ 32)
    : ∃ c', (kernelTables address tss m).iret (c.run goUsermode) = .ok c'
        ∧ (kernelTables address tss m).Runs c' ∧ c'.cpl = 3
        ∧ c'.cs = 0x1B ∧ c'.ss = 0x23 ∧ (∀ s, c'.seg s = 0x23)
        ∧ c'.eip = c.mem.load (c.gpr .esp + 4) ∧ c'.eflags.interrupts = true
        ∧ c'.gpr .esp = c.gpr .esp := by
  obtain ⟨-, -, cs, seg⟩ := run_goUsermode c
  obtain ⟨holds, top⟩ := goUsermode_frame room fits
  have inside : (c.run goUsermode).cpl = 0 := (congrArg rpl cs).trans ring
  obtain ⟨c', returns, runs, code, ss, segs, eip, flags, esp⟩ :=
    iret_userFrame address tss m inside seg holds top
  refine ⟨c', returns, runs, ?_, code, ss, segs, eip, ?_, esp⟩
  · exact (congrArg rpl code).trans (by decide)
  · rw [flags]
    decide

/-- From a kernel context, with `0x10` in the data segment registers. -/
theorem goUsermode_enters_kernel
    : ∃ c', (kernelTables (fun _ => 0x100000) 0x10000 (fun _ => 0)).iret
          (Cpu.run { userCpu with cs := 0x08, ss := 0x10, seg := fun _ => 0x10 } goUsermode)
          = .ok c'
        ∧ c'.cpl = 3 ∧ c'.cs = 0x1B ∧ c'.ss = 0x23 ∧ ∀ s, c'.seg s = 0x23 := by
  have ring : Cpu.cpl { userCpu with cs := 0x08, ss := 0x10, seg := fun _ => 0x10 } = 0 := by decide
  obtain ⟨c', returns, -, cpl, cs, ss, seg, -⟩ :=
    goUsermode_enters (fun _ => 0x100000) 0x10000 (fun _ => 0) ring (by decide) (by decide)
  exact ⟨c', returns, cpl, cs, ss, seg⟩

end

end Hydrangea
