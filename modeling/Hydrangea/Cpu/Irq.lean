import Hydrangea.Cpu.InterruptFrames
import Hydrangea.Cpu.Pic

/-! The interrupts of devices, from their lines through the controllers and the gates to the
handlers that `kernel/cpu/irq.c` calls, and what of it the devices and their drivers see.
-/

namespace Hydrangea

open Pic8259

variable {H : Type}

/-- The controllers, `irq_handlers`, and the handlers called so far with their lines, latest first;
no step reads the latter.
-/
structure Irqs (H : Type) where
  pics : PicPair
  irqHandlers : Nat → Option H
  calls : List (Nat × H)

def Irqs.call (s : Irqs H) (irq : Nat) : Irqs H :=
  match s.irqHandlers irq with
  | some handler => { s with calls := (irq, handler) :: s.calls }
  | none => s

/-- `irq_common_handler`, with the number in its `registers_t`. -/
def irqCommonHandler (s : Irqs H) (intNum : BitVec 32) : Irqs H :=
  let irq := ((intNum - 32).setWidth 8).toNat
  let (sus, pics) := if irq = 7 then picIsIrq7Sus s.pics else (0, s.pics)
  if irq = 7 ∧ sus ≠ 0 then { s with pics }
  else
    let (sus, pics) := if irq = 15 then picIsIrq15Sus pics else (0, pics)
    if irq = 15 ∧ sus ≠ 0 then { s with pics }
    else Irqs.call { s with pics := picEoi pics irq } irq

/-- What happens: a line goes up or down, the processor accepts an interrupt, during which requests
at the slave may go away, or a driver masks a line, unmasks it or registers its handler.
-/
inductive IrqEvent (H : Type) where
  | raise (line : Nat)
  | lower (line : Nat)
  | accept (withdrawn : BitVec 8)
  | mask (irq : Nat)
  | unmask (irq : Nat)
  | register (irq : Nat) (handler : H)

/-- Whether an event can happen: devices have all lines but that of the slave. -/
def IrqEvent.valid : IrqEvent H → Bool
  | .raise line => line < 16 && line ≠ 2
  | .lower line => line < 16 && line ≠ 2
  | .accept _ => true
  | .mask irq => irq < 16
  | .unmask irq => irq < 16
  | .register irq _ => irq < 16

/-- An interrupt that the processor accepts goes through the gate of its vector to the stub, which
has to be one for a line.
-/
def Irqs.accept (s : Irqs H) (withdrawn : BitVec 8) : Option (Irqs H) :=
  let (vector, pics) := s.pics.acknowledge withdrawn
  match stubOf vector.toNat with
  | some (.irq num) => some (irqCommonHandler { s with pics } (Stub.irq num).intNum)
  | _ => none

def Irqs.step (s : Irqs H) (event : IrqEvent H) : Option (Irqs H) :=
  if event.valid then
    match event with
    | .raise line => some { s with pics := s.pics.raise line }
    | .lower line => some { s with pics := s.pics.lower line }
    | .accept withdrawn => s.accept withdrawn
    | .mask irq => some { s with pics := picMask s.pics irq }
    | .unmask irq => some { s with pics := picUnmask s.pics irq }
    | .register irq handler =>
        some { s with irqHandlers := Function.update s.irqHandlers irq (some handler) }
  else none

-----------------------------------------------------------------------------------------
-- Lines as devices and drivers see them
-----------------------------------------------------------------------------------------

/-- The lines by themselves: which are up, request an interrupt and are masked, and which are stuck,
since an interrupt of them never ended.
-/
@[ext]
structure Lines (H : Type) where
  up : Nat → Bool
  requested : Nat → Bool
  masked : Nat → Bool
  stuck : Nat → Bool
  irqHandlers : Nat → Option H
  calls : List (Nat × H)

namespace Lines

def slaveLines : List Nat :=
  [8, 9, 10, 11, 12, 13, 14, 15]

/-- All lines of devices, the most urgent one first. -/
def urgency : List Nat :=
  [0, 1] ++ slaveLines ++ [3, 4, 5, 6, 7]

/-- A line that waits at its controller, those of the slave behind the mask of line 2. -/
def ready (s : Lines H) (line : Nat) : Bool :=
  s.requested line && !s.masked line && !s.stuck line

def waits (s : Lines H) (line : Nat) : Bool :=
  s.ready line && (line < 8 || !s.masked 2)

def next (s : Lines H) : Option Nat :=
  urgency.find? s.waits

def call (s : Lines H) (line : Nat) : Lines H :=
  match s.irqHandlers line with
  | some handler => { s with calls := (line, handler) :: s.calls }
  | none => s

/-- Serving a line calls its handler, but lines 7 and 15 get stuck instead. -/
def serve (s : Lines H) (line : Nat) : Lines H :=
  let s := { s with requested := Function.update s.requested line false }
  if line = 7 ∨ line = 15 then { s with stuck := Function.update s.stuck line true }
  else s.call line

/-- An interrupt without a request calls the handler of line 7 or 15, unless the line is stuck. -/
def spurious (s : Lines H) (line : Nat) : Lines H :=
  if s.stuck line then s else s.call line

def withdraw (s : Lines H) (withdrawn : BitVec 8) : Lines H :=
  { s with
    up := fun line => s.up line && !(8 ≤ line && withdrawn.getLsbD (line - 8))
    requested := fun line => s.requested line && !(8 ≤ line && withdrawn.getLsbD (line - 8)) }

def accept (s : Lines H) (withdrawn : BitVec 8) : Lines H :=
  match s.next with
  | none => s.spurious 7
  | some line =>
      if line < 8 then s.serve line
      else
        let s := s.withdraw withdrawn
        match slaveLines.find? s.ready with
        | none => s.spurious 15
        | some line => s.serve line

def step (s : Lines H) (event : IrqEvent H) : Option (Lines H) :=
  if event.valid then
    match event with
    | .raise line =>
        if s.up line then some s
        else
          some { s with
            up := Function.update s.up line true
            requested := Function.update s.requested line true }
    | .lower line =>
        some { s with
          up := Function.update s.up line false
          requested := Function.update s.requested line false }
    | .accept withdrawn => some (s.accept withdrawn)
    | .mask irq => some { s with masked := Function.update s.masked irq true }
    | .unmask irq => some { s with masked := Function.update s.masked irq false }
    | .register irq handler =>
        some { s with irqHandlers := Function.update s.irqHandlers irq (some handler) }
  else none

end Lines

theorem Lines.serve_stuck (s : Lines H) {line : Nat} (which : line = 7 ∨ line = 15)
    : s.serve line
      = { s with
          requested := Function.update s.requested line false
          stuck := Function.update s.stuck line true } := by
  rw [Lines.serve, if_pos which]

/-- Once one of these lines is stuck, its interrupts call no handler. -/
theorem Lines.spurious_serve (s : Lines H) {line : Nat} (which : line = 7 ∨ line = 15)
    : (s.serve line).spurious line = s.serve line := by
  rw [Lines.spurious, s.serve_stuck which]
  exact if_pos (Function.update_self line true s.stuck)

def Irqs.lines (s : Irqs H) : Lines H where
  up := bitAt s.pics.master.lines s.pics.slave.lines
  requested line := line ≠ 2 && bitAt s.pics.master.irr s.pics.slave.irr line
  masked := bitAt s.pics.master.imr s.pics.slave.imr
  stuck := bitAt s.pics.master.isr s.pics.slave.isr
  irqHandlers := s.irqHandlers
  calls := s.calls

/-- Between two interrupts, the controllers are set up, and nothing is in service but line 7 of
each.
-/
structure Irqs.Inv (s : Irqs H) : Prop where
  initialized : Initialized s.pics
  master : ∀ n, s.pics.master.isr.getLsbD n = true → n = 7
  slave : ∀ n, s.pics.slave.isr.getLsbD n = true → n = 7

-----------------------------------------------------------------------------------------
-- Which line is next
-----------------------------------------------------------------------------------------

/-- With nothing in service but line 7, a line is blocked only by itself. -/
theorem unblocked_eq {p : Pic8259} (served : ∀ n, p.isr.getLsbD n = true → n = 7) {n : Nat}
    (low : n < 8)
    : p.unblocked n = !p.isr.getLsbD n := by
  rw [unblocked]
  cases least : first p.isr with
  | none =>
      rw [first_eq_none.mp least]
      simp
  | some k =>
      have set := (first_eq_some.mp least).1
      obtain rfl := served k set
      rw [Option.all_some]
      rcases Nat.lt_or_eq_of_le (Nat.le_of_lt_succ low) with less | rfl
      · have clear : p.isr.getLsbD n = false := by
          by_contra other
          have := served n (Bool.eq_true_of_not_eq_false other)
          omega
        rw [decide_eq_true less, clear]
        rfl
      · rw [set]
        rfl

/-- Then the request is the first one that is neither masked nor in service. -/
theorem request_served {p : Pic8259} (served : ∀ n, p.isr.getLsbD n = true → n = 7)
    : p.request = (List.range 8).find?
        (fun n => p.irr.getLsbD n && !p.imr.getLsbD n && !p.isr.getLsbD n) := by
  rw [request_eq]
  refine List.find?_congr (fun n member => ?_)
  rw [unblocked_eq served (List.mem_range.mp member)]

/-- The lines of the master look the same through the cascade. -/
theorem cascaded_irr (p : PicPair) {n : Nat} (other : n ≠ 2)
    : p.cascaded.irr.getLsbD n = p.master.irr.getLsbD n := by
  rw [PicPair.cascaded]
  split
  · rw [getLsbD_setBit, decide_eq_false (by omega), Bool.or_false]
  · rw [getLsbD_clearBit, decide_eq_false other, Bool.not_false, Bool.and_true]

theorem cascaded_irr_two (p : PicPair) : p.cascaded.irr.getLsbD 2 = p.slave.int := by
  rw [PicPair.cascaded]
  split
  next asks => rw [getLsbD_setBit, decide_eq_true (by omega), Bool.or_true, asks]
  next quiet =>
    rw [getLsbD_clearBit, decide_eq_true rfl, Bool.not_true, Bool.and_false]
    exact (Bool.eq_false_of_not_eq_true quiet).symm

namespace Irqs

variable {s : Irqs H}

/-- The first line of the slave that is ready is the one that the slave requests. -/
theorem find?_slaveLines (slave : ∀ n, s.pics.slave.isr.getLsbD n = true → n = 7)
    : Lines.slaveLines.find? s.lines.ready = s.pics.slave.request.map (· + 8) := by
  have lines : Lines.slaveLines = (List.range 8).map (· + 8) := rfl
  have same : s.lines.ready ∘ (· + 8)
      = fun n => s.pics.slave.irr.getLsbD n && !s.pics.slave.imr.getLsbD n
          && !s.pics.slave.isr.getLsbD n := by
    funext n
    have high : ¬ n + 8 < 8 := by omega
    have other : decide (n + 8 ≠ 2) = true := decide_eq_true (by omega)
    simp only [Function.comp, Lines.ready, Irqs.lines, bitAt, if_neg high, Nat.add_sub_cancel,
      other, Bool.true_and]
  rw [lines, List.find?_map, request_served slave, same]

/-- What the master requests is the line that is next, with 2 for one of the slave. As nothing is
in service but line 7, every line waits by its own bits; the order of urgency is the one of the
master with the lines of the slave in the place of 2.
-/
theorem next_eq (inv : s.Inv)
    : s.lines.next
      = s.pics.cascaded.request.bind (fun n =>
          if n = 2 then s.pics.slave.request.map (· + 8) else some n) := by
  have served : ∀ n, s.pics.cascaded.isr.getLsbD n = true → n = 7 := inv.master
  have clear : s.pics.cascaded.isr.getLsbD 2 = false := by
    by_contra set
    have := served 2 (Bool.eq_true_of_not_eq_false set)
    omega
  have own (l : List Nat) (low : ∀ n ∈ l, n < 8 ∧ n ≠ 2)
      : l.find? s.lines.waits
        = l.find? (fun n => s.pics.cascaded.irr.getLsbD n && !s.pics.cascaded.imr.getLsbD n
          && !s.pics.cascaded.isr.getLsbD n) := by
    refine List.find?_congr (fun n member => ?_)
    obtain ⟨small, other⟩ := low n member
    rw [Lines.waits, cascaded_irr s.pics other, decide_eq_true small, Bool.true_or, Bool.and_true]
    simp only [Lines.ready, Irqs.lines, bitAt, if_pos small, decide_eq_true other, Bool.true_and]
    rfl
  have two : [2].find? (fun n => s.pics.cascaded.irr.getLsbD n && !s.pics.cascaded.imr.getLsbD n
      && !s.pics.cascaded.isr.getLsbD n)
      = if s.pics.slave.int && !s.lines.masked 2 then some 2 else none := by
    have mask : s.pics.cascaded.imr.getLsbD 2 = s.lines.masked 2 := rfl
    rw [List.find?_singleton, cascaded_irr_two, mask, clear, Bool.not_false, Bool.and_true]
  have behind : Lines.slaveLines.find? s.lines.waits
      = if s.lines.masked 2 then none else s.pics.slave.request.map (· + 8) := by
    have high (n : Nat) (member : n ∈ Lines.slaveLines) : 8 ≤ n := by
      have all : ∀ n ∈ Lines.slaveLines, 8 ≤ n := by decide
      exact all n member
    rw [← find?_slaveLines inv.slave]
    cases masked : s.lines.masked 2 with
    | true =>
        refine List.find?_eq_none.mpr (fun n member => ?_)
        rw [Lines.waits, decide_eq_false (Nat.not_lt.mpr (high n member))]
        simp [masked]
    | false =>
        refine List.find?_congr (fun n _ => ?_)
        rw [Lines.waits, masked, Bool.not_false, Bool.or_true, Bool.and_true]
  have split' : List.range 8 = [0, 1] ++ [2] ++ [3, 4, 5, 6, 7] := rfl
  rw [Lines.next, Lines.urgency, List.find?_append, List.find?_append, request_served served,
    split', List.find?_append, List.find?_append, own [0, 1] (by decide),
    own [3, 4, 5, 6, 7] (by decide), two, behind]
  have low {l : List Nat} {g : Nat → Bool} {n : Nat} (found : l.find? g = some n) (away : 2 ∉ l)
      : n ≠ 2 := by
    rintro rfl
    exact away (List.mem_of_find?_eq_some found)
  generalize first : [0, 1].find? _ = a
  generalize last : [3, 4, 5, 6, 7].find? _ = b
  rw [Pic8259.int]
  cases a with
  | some n => simp [low first (by decide)]
  | none =>
      cases s.lines.masked 2 with
      | true =>
          cases b with
          | none => simp
          | some n => simp [low last (by decide)]
      | false =>
          cases s.pics.slave.request with
          | some m => simp
          | none =>
              cases b with
              | none => simp
              | some n => simp [low last (by decide)]

end Irqs

-----------------------------------------------------------------------------------------
-- What events do to the lines
-----------------------------------------------------------------------------------------

/-- A change of a line of a device, seen past line 2. -/
theorem requested_update (f : Nat → Bool) {line : Nat} (other : line ≠ 2) (b : Bool)
    : (fun l => decide (l ≠ 2) && Function.update f line b l)
      = Function.update (fun l => decide (l ≠ 2) && f l) line b := by
  funext l
  rw [Function.update_apply, Function.update_apply]
  split
  next same => rw [same, decide_eq_true other, Bool.true_and]
  next => rfl

namespace Irqs

variable {s : Irqs H}

theorem lines_eq {s' : Irqs H} {l : Lines H}
    (up : bitAt s'.pics.master.lines s'.pics.slave.lines = l.up)
    (requested : (fun line => decide (line ≠ 2)
      && bitAt s'.pics.master.irr s'.pics.slave.irr line) = l.requested)
    (masked : bitAt s'.pics.master.imr s'.pics.slave.imr = l.masked)
    (stuck : bitAt s'.pics.master.isr s'.pics.slave.isr = l.stuck)
    (irqHandlers : s'.irqHandlers = l.irqHandlers) (calls : s'.calls = l.calls)
    : s'.lines = l := by
  rw [Irqs.lines]
  exact Lines.ext up requested masked stuck irqHandlers calls

theorem lines_raise {line : Nat} (valid : line < 16) (other : line ≠ 2)
    : Irqs.lines { s with pics := s.pics.raise line }
      = if s.lines.up line then s.lines
        else
          { s.lines with
            up := Function.update s.lines.up line true
            requested := Function.update s.lines.requested line true } := by
  rw [PicPair.raise]
  by_cases low : line < 8
  · have level : s.lines.up line = s.pics.master.lines.getLsbD line := if_pos low
    rw [if_pos low, Pic8259.raise, level]
    split
    · rfl
    · refine lines_eq (bitAt_setBit_master _ _ low) ?_ rfl rfl rfl rfl
      rw [bitAt_setBit_master _ _ low]
      exact requested_update _ other true
  · have level : s.lines.up line = s.pics.slave.lines.getLsbD (line - 8) := if_neg low
    rw [if_neg low, Pic8259.raise, level]
    split
    · rfl
    · refine lines_eq (bitAt_setBit_slave _ _ (by omega) valid) ?_ rfl rfl rfl rfl
      rw [bitAt_setBit_slave _ _ (by omega) valid]
      exact requested_update _ other true

theorem lines_lower {line : Nat} (other : line ≠ 2)
    : Irqs.lines { s with pics := s.pics.lower line }
      = { s.lines with
          up := Function.update s.lines.up line false
          requested := Function.update s.lines.requested line false } := by
  rw [PicPair.lower]
  by_cases low : line < 8
  · rw [if_pos low]
    refine lines_eq (bitAt_clearBit_master _ _ low) ?_ rfl rfl rfl rfl
    rw [Pic8259.lower, bitAt_clearBit_master _ _ low]
    exact requested_update _ other false
  · rw [if_neg low]
    refine lines_eq (bitAt_clearBit_slave _ _ (by omega)) ?_ rfl rfl rfl rfl
    rw [Pic8259.lower, bitAt_clearBit_slave _ _ (by omega)]
    exact requested_update _ other false

theorem lines_picMask (inv : s.Inv) {irq : Nat} (valid : irq < 16)
    : Irqs.lines { s with pics := picMask s.pics irq }
      = { s.lines with masked := Function.update s.lines.masked irq true } := by
  rw [picMask_eq]
  by_cases low : irq < 8
  · rw [if_pos low, Pic8259.data, inv.initialized.master]
    exact lines_eq rfl rfl (bitAt_setBit_master _ _ low) rfl rfl rfl
  · rw [if_neg low, Pic8259.data, inv.initialized.slave]
    exact lines_eq rfl rfl (bitAt_setBit_slave _ _ (by omega) valid) rfl rfl rfl

theorem lines_picUnmask (inv : s.Inv) (irq : Nat)
    : Irqs.lines { s with pics := picUnmask s.pics irq }
      = { s.lines with masked := Function.update s.lines.masked irq false } := by
  rw [picUnmask_eq]
  by_cases low : irq < 8
  · rw [if_pos low, Pic8259.data, inv.initialized.master]
    exact lines_eq rfl rfl (bitAt_clearBit_master _ _ low) rfl rfl rfl
  · rw [if_neg low, Pic8259.data, inv.initialized.slave]
    exact lines_eq rfl rfl (bitAt_clearBit_slave _ _ (by omega)) rfl rfl rfl

/-- The invariant only speaks of parts that lines and drivers do not change. -/
theorem Inv.of_same {s' : Irqs H} (inv : s.Inv)
    (master : s'.pics.master.expects = s.pics.master.expects
      ∧ s'.pics.master.icw2 = s.pics.master.icw2 ∧ s'.pics.master.icw3 = s.pics.master.icw3
      ∧ s'.pics.master.icw4 = s.pics.master.icw4)
    (slave : s'.pics.slave.expects = s.pics.slave.expects
      ∧ s'.pics.slave.icw2 = s.pics.slave.icw2 ∧ s'.pics.slave.icw3 = s.pics.slave.icw3
      ∧ s'.pics.slave.icw4 = s.pics.slave.icw4)
    (served : ∀ n, s'.pics.master.isr.getLsbD n = true → n = 7)
    (served' : ∀ n, s'.pics.slave.isr.getLsbD n = true → n = 7)
    : s'.Inv := by
  obtain ⟨expects, icw2, icw3, icw4⟩ := master
  obtain ⟨expects', icw2', icw3', icw4'⟩ := slave
  refine ⟨⟨?_, ?_, ?_, ?_, ?_, ?_, ?_⟩, served, served'⟩
  · rw [expects, inv.initialized.master]
  · rw [expects', inv.initialized.slave]
  · rw [icw2, inv.initialized.first]
  · rw [icw2', inv.initialized.second]
  · rw [PicPair.wired, icw3, icw3']
    exact inv.initialized.wired
  · rw [icw4, inv.initialized.masterEoi]
  · rw [icw4', inv.initialized.slaveEoi]

theorem Inv.raise (inv : s.Inv) (line : Nat)
    : Irqs.Inv { s with pics := s.pics.raise line } := by
  rw [PicPair.raise]
  split
  · rw [Pic8259.raise]
    split
    · exact inv.of_same ⟨rfl, rfl, rfl, rfl⟩ ⟨rfl, rfl, rfl, rfl⟩ inv.master inv.slave
    · exact inv.of_same ⟨rfl, rfl, rfl, rfl⟩ ⟨rfl, rfl, rfl, rfl⟩ inv.master inv.slave
  · rw [Pic8259.raise]
    split
    · exact inv.of_same ⟨rfl, rfl, rfl, rfl⟩ ⟨rfl, rfl, rfl, rfl⟩ inv.master inv.slave
    · exact inv.of_same ⟨rfl, rfl, rfl, rfl⟩ ⟨rfl, rfl, rfl, rfl⟩ inv.master inv.slave

theorem Inv.lower (inv : s.Inv) (line : Nat)
    : Irqs.Inv { s with pics := s.pics.lower line } := by
  rw [PicPair.lower]
  split
  · exact inv.of_same ⟨rfl, rfl, rfl, rfl⟩ ⟨rfl, rfl, rfl, rfl⟩ inv.master inv.slave
  · exact inv.of_same ⟨rfl, rfl, rfl, rfl⟩ ⟨rfl, rfl, rfl, rfl⟩ inv.master inv.slave

/-- Once the controllers are set up, what is written to their data ports is the mask. -/
theorem Inv.data (inv : s.Inv) (mask : BitVec 8)
    : Irqs.Inv { s with pics := { s.pics with master := s.pics.master.data mask } }
      ∧ Irqs.Inv { s with pics := { s.pics with slave := s.pics.slave.data mask } } := by
  rw [Pic8259.data, Pic8259.data, inv.initialized.master, inv.initialized.slave]
  constructor
  · exact inv.of_same ⟨inv.initialized.master.symm, rfl, rfl, rfl⟩ ⟨rfl, rfl, rfl, rfl⟩ inv.master
      inv.slave
  · exact inv.of_same ⟨rfl, rfl, rfl, rfl⟩ ⟨inv.initialized.slave.symm, rfl, rfl, rfl⟩ inv.master
      inv.slave

-----------------------------------------------------------------------------------------
-- Accepting an interrupt
-----------------------------------------------------------------------------------------

/-- `irq_common_handler` knows the line by the number that its stub pushes. -/
theorem irq_intNum {num : Nat} (valid : num < 16)
    : (((Stub.irq num).intNum - 32).setWidth 8).toNat = num := by
  have small : num + 32 < 2 ^ 32 := by omega
  have back : (Stub.irq num).intNum - 32 = BitVec.ofNat 32 num := by
    rw [Stub.intNum, BitVec.ofNat_add]
    exact BitVec.add_sub_cancel ..
  rw [back, BitVec.toNat_setWidth, BitVec.toNat_ofNat]
  omega

/-- Interrupts of most lines end, and then call their handler. -/
theorem irqCommonHandler_plain {num : Nat} (valid : num < 16) (first : num ≠ 7)
    (second : num ≠ 15)
    : irqCommonHandler s (Stub.irq num).intNum
      = Irqs.call { s with pics := picEoi s.pics num } num := by
  rw [irqCommonHandler]
  simp only [irq_intNum valid, first, second, if_false, false_and]

/-- One of line 7 does only if the line is not in service. -/
theorem irqCommonHandler_seven (s : Irqs H)
    : irqCommonHandler s (Stub.irq 7).intNum
      = if s.pics.master.isr.getLsbD 7 then
          { s with pics := { s.pics with master := { s.pics.master with readsIsr := true } } }
        else
          Irqs.call
            { s with
              pics := { s.pics with
                master := Pic8259.eoi { s.pics.master with readsIsr := true } } }
            7 := by
  have other : (7 : Nat) ≠ 15 := by decide
  rw [irqCommonHandler]
  simp only [irq_intNum (show 7 < 16 by decide), if_true, true_and, picIsIrq7Sus_eq,
    and_0x80_ne_zero, other, if_false, false_and, picEoi_eq]
  rfl

/-- Likewise one of line 15, which ends at the master in any case. -/
theorem irqCommonHandler_fifteen (s : Irqs H)
    : irqCommonHandler s (Stub.irq 15).intNum
      = if s.pics.slave.isr.getLsbD 7 then
          { s with
            pics := { master := s.pics.master.eoi
                      slave := { s.pics.slave with readsIsr := true } } }
        else
          Irqs.call
            { s with
              pics := { master := s.pics.master.eoi
                        slave := Pic8259.eoi { s.pics.slave with readsIsr := true } } }
            15 := by
  have other : (15 : Nat) ≠ 7 := by decide
  rw [irqCommonHandler]
  simp only [irq_intNum (show 15 < 16 by decide), if_true, true_and, picIsIrq15Sus_eq,
    and_0x80_ne_zero, other, if_false, false_and, picEoi_eq]
  by_cases sus : s.pics.slave.isr.getLsbD 7 = true
  · simp only [if_pos sus]
  · simp only [if_neg sus]
    rfl

/-- Calling a handler shows in the calls only. -/
theorem lines_call (s : Irqs H) (irq : Nat) : (s.call irq).lines = s.lines.call irq := by
  have same : s.lines.irqHandlers irq = s.irqHandlers irq := rfl
  rw [Irqs.call, Lines.call, same]
  split <;> rfl

theorem Inv.call (inv : s.Inv) (irq : Nat) : (s.call irq).Inv := by
  rw [Irqs.call]
  split
  · exact ⟨inv.initialized, inv.master, inv.slave⟩
  · exact inv

/-- With nothing in service, there is nothing to end. -/
theorem eoi_of_clear {p : Pic8259} (served : ∀ n, p.isr.getLsbD n = true → n = 7)
    (clear : p.isr.getLsbD 7 = false)
    : p.eoi = p := by
  have none : first p.isr = none := by
    cases least : first p.isr with
    | none => rfl
    | some n =>
        have set := (first_eq_some.mp least).1
        rw [served n set, clear] at set
        cases set
  rw [eoi, none]

/-- Line 2 of the master is not seen. -/
theorem requested_congr {master master' slave : BitVec 8}
    (same : ∀ n, n ≠ 2 → master'.getLsbD n = master.getLsbD n)
    : (fun line => decide (line ≠ 2) && bitAt master' slave line)
      = fun line => decide (line ≠ 2) && bitAt master slave line := by
  funext line
  by_cases two : line = 2
  · rw [decide_eq_false (not_not_intro two), Bool.false_and, Bool.false_and]
  · rw [bitAt, same line two, bitAt]

/-- An interrupt goes from its vector to the handler. -/
theorem accept_eq {withdrawn vector : BitVec 8} {pics : PicPair} {num : Nat}
    (acknowledged : s.pics.acknowledge withdrawn = (vector, pics))
    (stub : stubOf vector.toNat = some (.irq num))
    : s.accept withdrawn = some (irqCommonHandler { s with pics } (Stub.irq num).intNum) := by
  rw [accept, acknowledged]
  simp only [stub]

/-- An interrupt of line 7 is one without a request, as the handler sees it. -/
theorem handler_seven (inv : s.Inv)
    : (irqCommonHandler s (Stub.irq 7).intNum).Inv
      ∧ (irqCommonHandler s (Stub.irq 7).intNum).lines = s.lines.spurious 7 := by
  have stuck : s.lines.stuck 7 = s.pics.master.isr.getLsbD 7 := rfl
  rw [irqCommonHandler_seven, Lines.spurious, stuck]
  by_cases set : s.pics.master.isr.getLsbD 7 = true
  · rw [if_pos set, if_pos set]
    exact ⟨inv.of_same ⟨rfl, rfl, rfl, rfl⟩ ⟨rfl, rfl, rfl, rfl⟩ inv.master inv.slave, rfl⟩
  · have clear := Bool.eq_false_of_not_eq_true set
    rw [if_neg set, if_neg set,
      eoi_of_clear (p := { s.pics.master with readsIsr := true }) inv.master clear]
    refine ⟨Inv.call ?_ 7, (lines_call _ 7).trans rfl⟩
    exact inv.of_same ⟨rfl, rfl, rfl, rfl⟩ ⟨rfl, rfl, rfl, rfl⟩ inv.master inv.slave

/-- Likewise one of line 15, once it has ended at the master. -/
theorem handler_fifteen {ended : Irqs H} (inv : ended.Inv)
    (same : ended = { s with pics := { s.pics with master := s.pics.master.eoi } })
    : (irqCommonHandler s (Stub.irq 15).intNum).Inv
      ∧ (irqCommonHandler s (Stub.irq 15).intNum).lines = ended.lines.spurious 15 := by
  subst same
  have stuck : Lines.stuck (Irqs.lines
      { s with pics := { s.pics with master := s.pics.master.eoi } }) 15
      = s.pics.slave.isr.getLsbD 7 := rfl
  rw [irqCommonHandler_fifteen, Lines.spurious, stuck]
  by_cases set : s.pics.slave.isr.getLsbD 7 = true
  · rw [if_pos set, if_pos set]
    exact ⟨inv.of_same ⟨rfl, rfl, rfl, rfl⟩ ⟨rfl, rfl, rfl, rfl⟩ inv.master inv.slave, rfl⟩
  · have clear := Bool.eq_false_of_not_eq_true set
    rw [if_neg set, if_neg set,
      eoi_of_clear (p := { s.pics.slave with readsIsr := true }) inv.slave clear]
    refine ⟨Inv.call ?_ 15, (lines_call _ 15).trans rfl⟩
    exact inv.of_same ⟨rfl, rfl, rfl, rfl⟩ ⟨rfl, rfl, rfl, rfl⟩ inv.master inv.slave

/-- An interrupt without a request calls the handler of line 7, unless it is in service. -/
theorem accept_none (inv : s.Inv) (none : s.pics.cascaded.request = none) (withdrawn : BitVec 8)
    : ∃ s', s.accept withdrawn = some s' ∧ s'.Inv ∧ s'.lines = s.lines.spurious 7 := by
  have vector : s.pics.acknowledge withdrawn = (39, { s.pics with master := s.pics.cascaded }) := by
    have base : s.pics.cascaded.icw2 = 0x20 := inv.initialized.first
    rw [PicPair.acknowledge, acknowledge_none none, none]
    simp only [reduceCtorEq, false_and, if_false, base]
    rfl
  have inv' : Irqs.Inv { s with pics := { s.pics with master := s.pics.cascaded } } :=
    inv.of_same ⟨rfl, rfl, rfl, rfl⟩ ⟨rfl, rfl, rfl, rfl⟩ inv.master inv.slave
  have lines : Irqs.lines { s with pics := { s.pics with master := s.pics.cascaded } } = s.lines :=
    lines_eq rfl (requested_congr (fun _ other => cascaded_irr s.pics other)) rfl rfl rfl rfl
  obtain ⟨kept, seen⟩ := handler_seven inv'
  rw [lines] at seen
  exact ⟨_, accept_eq vector rfl, kept, seen⟩

/-- An interrupt of a line of the master serves it. The acknowledge sets the bit in service and the
handler ends it again, but for line 7, which `irq_common_handler` takes for a spurious one.
-/
theorem accept_master (inv : s.Inv) {n : Nat} (requested : s.pics.cascaded.request = some n)
    (other : n ≠ 2) (withdrawn : BitVec 8)
    : ∃ s', s.accept withdrawn = some s' ∧ s'.Inv ∧ s'.lines = s.lines.serve n := by
  have low : n < 8 := by
    rw [request_eq] at requested
    exact List.mem_range.mp (List.mem_of_find?_eq_some requested)
  have keeps : s.pics.cascaded.icw4.getLsbD 1 = false := inv.initialized.masterEoi
  have acknowledged := acknowledge_some requested keeps
  generalize at' : (Pic8259.mk s.pics.cascaded.lines (clearBit s.pics.cascaded.irr n)
    (setBit s.pics.cascaded.isr n) s.pics.cascaded.imr s.pics.cascaded.expects
    s.pics.cascaded.single s.pics.cascaded.needsIcw4 s.pics.cascaded.icw2 s.pics.cascaded.icw3
    s.pics.cascaded.icw4 s.pics.cascaded.readsIsr) = master at acknowledged
  have vector : s.pics.acknowledge withdrawn
      = (BitVec.ofNat 8 (32 + n), { s.pics with master }) := by
    have base : master.icw2 = 0x20 := by
      subst at'
      exact inv.initialized.first
    rw [PicPair.acknowledge, acknowledged, requested]
    simp only [Option.some.injEq, other, false_and, if_false, base]
    rw [BitVec.ofNat_add]
    rfl
  have stub : stubOf (BitVec.ofNat 8 (32 + n)).toNat = some (.irq n) := by
    interval_cases n <;> rfl
  have ended : master.eoi = { s.pics.cascaded with irr := clearBit s.pics.cascaded.irr n } := by
    subst at'
    exact eoi_acknowledge requested
  have gone : (fun line => decide (line ≠ 2)
      && bitAt (clearBit s.pics.cascaded.irr n) s.pics.slave.irr line)
      = Function.update s.lines.requested n false := by
    rw [bitAt_clearBit_master _ _ low, requested_update _ other,
      requested_congr (fun _ other => cascaded_irr s.pics other)]
    rfl
  rw [accept_eq vector stub]
  by_cases seven : n = 7
  · subst seven
    have isr : master.isr = setBit s.pics.master.isr 7 := by
      subst at'
      rfl
    have inv' : Irqs.Inv { s with pics := { s.pics with master } } := by
      refine inv.of_same ?_ ⟨rfl, rfl, rfl, rfl⟩ (fun k set => ?_) inv.slave
      · subst at'
        exact ⟨rfl, rfl, rfl, rfl⟩
      · rw [isr, getLsbD_setBit, Bool.or_eq_true, decide_eq_true_eq] at set
        exact set.elim (inv.master k) (fun both => both.1)
    have lines : Irqs.lines { s with pics := { s.pics with master } } = s.lines.serve 7 := by
      rw [s.lines.serve_stuck (.inl rfl)]
      refine lines_eq ?_ ?_ ?_ ?_ rfl rfl
      · subst at'
        rfl
      · subst at'
        exact gone
      · subst at'
        rfl
      · rw [isr]
        exact bitAt_setBit_master _ _ low
    obtain ⟨kept, seen⟩ := handler_seven inv'
    refine ⟨_, rfl, kept, ?_⟩
    rw [seen, lines, Lines.spurious_serve _ (.inl rfl)]
  · have plain : irqCommonHandler { s with pics := { s.pics with master } } (Stub.irq n).intNum
        = Irqs.call { s with pics := { s.pics with master := master.eoi } } n := by
      rw [irqCommonHandler_plain (by omega) seven (by omega), picEoi_eq, if_pos low]
    refine ⟨_, rfl, ?_, ?_⟩
    · rw [plain, ended]
      refine Inv.call ?_ n
      exact inv.of_same ⟨rfl, rfl, rfl, rfl⟩ ⟨rfl, rfl, rfl, rfl⟩ inv.master inv.slave
    · rw [plain, ended, lines_call, Lines.serve, if_neg (by omega)]
      refine congrArg (Lines.call · n) (lines_eq rfl gone rfl rfl rfl rfl)

/-- Requests at the slave that go away. -/
theorem lines_withdraw (s : Irqs H) (withdrawn : BitVec 8)
    : Irqs.lines
        { s with pics := { s.pics with slave := PicPair.withdraw s.pics.slave withdrawn } }
      = s.lines.withdraw withdrawn := by
  have bits (master slave : BitVec 8) (line : Nat)
      : bitAt master (slave &&& ~~~withdrawn) line
        = (bitAt master slave line && !(8 ≤ line && withdrawn.getLsbD (line - 8))) := by
    rw [bitAt, bitAt]
    split
    next low =>
      rw [decide_eq_false (Nat.not_le.mpr low), Bool.false_and, Bool.not_false, Bool.and_true]
    next high =>
      rw [BitVec.getLsbD_and, BitVec.getLsbD_not, decide_eq_true (Nat.le_of_not_lt high),
        Bool.true_and]
      by_cases inside : line - 8 < 8
      · rw [decide_eq_true inside, Bool.true_and]
      · rw [BitVec.getLsbD_of_ge _ _ (by omega), Bool.false_and, Bool.false_and]
  refine lines_eq ?_ ?_ rfl rfl rfl rfl
  · funext line
    exact bits _ _ line
  · funext line
    change (_ && bitAt _ (s.pics.slave.irr &&& ~~~withdrawn) line) = _
    rw [bits, ← Bool.and_assoc]
    rfl

/-- An interrupt of the slave for which the master has chosen its line: the words of it that count,
`w` for the slave and `master` for the master, which is to end its own part.
-/
structure Chosen (s : Irqs H) (withdrawn : BitVec 8) (w master : Pic8259) : Prop where
  withdraws : PicPair.withdraw s.pics.slave withdrawn = w
  acknowledged : s.pics.cascaded.acknowledge = (2, master)
  ended : master.eoi = { s.pics.cascaded with irr := clearBit s.pics.cascaded.irr 2 }
  requested : s.pics.cascaded.request = some 2

theorem exists_chosen (inv : s.Inv) (requested : s.pics.cascaded.request = some 2)
    (withdrawn : BitVec 8)
    : ∃ master, Chosen s withdrawn (PicPair.withdraw s.pics.slave withdrawn) master :=
  ⟨_, rfl, acknowledge_some requested inv.initialized.masterEoi, eoi_acknowledge requested,
    requested⟩

namespace Chosen

variable {withdrawn : BitVec 8} {w master : Pic8259}

theorem lines (h : Chosen s withdrawn w master)
    : Irqs.lines { s with pics := { s.pics with slave := w } } = s.lines.withdraw withdrawn := by
  rw [← lines_withdraw, h.withdraws]

/-- Once the master has ended its part, its lines are as they were. -/
theorem lines_ended (h : Chosen s withdrawn w master) (slave : Pic8259)
    : Irqs.lines { s with pics := { master := master.eoi, slave } }
      = Irqs.lines { s with pics := { s.pics with slave } } := by
  rw [h.ended]
  refine lines_eq rfl (requested_congr (fun n other => ?_)) rfl rfl rfl rfl
  rw [getLsbD_clearBit, decide_eq_false other, Bool.not_false, Bool.and_true,
    cascaded_irr s.pics other]

theorem inv_ended (h : Chosen s withdrawn w master) (inv : s.Inv) (slave : Pic8259)
    (same : slave.expects = w.expects ∧ slave.icw2 = w.icw2 ∧ slave.icw3 = w.icw3
      ∧ slave.icw4 = w.icw4)
    (served : ∀ n, slave.isr.getLsbD n = true → n = 7)
    : Irqs.Inv { s with pics := { master := master.eoi, slave } } := by
  obtain ⟨expects, icw2, icw3, icw4⟩ := same
  rw [← h.withdraws] at expects icw2 icw3 icw4
  rw [h.ended]
  exact inv.of_same ⟨rfl, rfl, rfl, rfl⟩ ⟨expects, icw2, icw3, icw4⟩ inv.master served

/-- Without a request left at the slave, the interrupt is one of its line 7. -/
theorem acknowledge_none (h : Chosen s withdrawn w master) (inv : s.Inv) (none : w.request = none)
    : s.pics.acknowledge withdrawn = (47, { master, slave := w }) := by
  have base : w.icw2 = 0x28 := by
    rw [← h.withdraws]
    exact inv.initialized.second
  have wired : s.pics.wired = true := inv.initialized.wired
  rw [PicPair.acknowledge, h.acknowledged, h.requested, h.withdraws,
    Pic8259.acknowledge_none none]
  simp only [wired, and_self, if_true, base]
  rfl

/-- Otherwise it is one of the line that the slave requests. -/
theorem acknowledge_some (h : Chosen s withdrawn w master) (inv : s.Inv) {m : Nat}
    (asks : w.request = some m)
    : s.pics.acknowledge withdrawn
      = (BitVec.ofNat 8 (40 + m),
          { master, slave := { w with irr := clearBit w.irr m, isr := setBit w.isr m } }) := by
  have base : w.icw2 = 0x28 := by
    rw [← h.withdraws]
    exact inv.initialized.second
  have keeps : w.icw4.getLsbD 1 = false := by
    rw [← h.withdraws]
    exact inv.initialized.slaveEoi
  have wired : s.pics.wired = true := inv.initialized.wired
  rw [PicPair.acknowledge, h.acknowledged, h.requested, h.withdraws,
    Pic8259.acknowledge_some asks keeps]
  simp only [wired, and_self, if_true, base]
  rw [BitVec.ofNat_add]
  rfl

theorem requested_ended (s : Irqs H) (w : Pic8259) (m : Nat)
    : (fun line => decide (line ≠ 2) && bitAt s.pics.master.irr (clearBit w.irr m) line)
      = Function.update (fun line => decide (line ≠ 2) && bitAt s.pics.master.irr w.irr line)
          (m + 8) false := by
  have place : m + 8 - 8 = m := Nat.add_sub_cancel ..
  have step := bitAt_clearBit_slave s.pics.master.irr w.irr (show 8 ≤ m + 8 by omega)
  rw [place] at step
  rw [step, requested_update _ (by omega)]

/-- An interrupt of a line of the slave serves it. As for the master: line 15 stays in service, and
the other ones are ended at both controllers.
-/
theorem serves (h : Chosen s withdrawn w master) (inv : s.Inv)
    (served : ∀ n, w.isr.getLsbD n = true → n = 7) {m : Nat} (asks : w.request = some m)
    (low : m < 8)
    : (irqCommonHandler
          { s with
            pics := { master
                      slave := { w with irr := clearBit w.irr m, isr := setBit w.isr m } } }
          (Stub.irq (m + 8)).intNum).Inv
      ∧ (irqCommonHandler
          { s with
            pics := { master
                      slave := { w with irr := clearBit w.irr m, isr := setBit w.isr m } } }
          (Stub.irq (m + 8)).intNum).lines
        = (Irqs.lines { s with pics := { s.pics with slave := w } }).serve (m + 8) := by
  have ended := Pic8259.eoi_acknowledge asks
  by_cases seven : m = 7
  · subst seven
    have served' : ∀ k, (setBit w.isr 7).getLsbD k = true → k = 7 := by
      intro k set
      rw [getLsbD_setBit, Bool.or_eq_true, decide_eq_true_eq] at set
      exact set.elim (served k) (fun both => both.1)
    have inv' := h.inv_ended inv { w with irr := clearBit w.irr 7, isr := setBit w.isr 7 }
      ⟨rfl, rfl, rfl, rfl⟩ served'
    obtain ⟨kept, calls⟩ := handler_fifteen (s := { s with
      pics := { master, slave := { w with irr := clearBit w.irr 7, isr := setBit w.isr 7 } } })
      inv' rfl
    have lines : Irqs.lines { s with pics := { s.pics with
        slave := { w with irr := clearBit w.irr 7, isr := setBit w.isr 7 } } }
        = (Irqs.lines { s with pics := { s.pics with slave := w } }).serve 15 := by
      have stuck := bitAt_setBit_slave s.pics.master.isr w.isr (show 8 ≤ 15 by decide) (by decide)
      rw [Lines.serve_stuck _ (.inr rfl)]
      exact lines_eq rfl (requested_ended s w 7) rfl stuck rfl rfl
    rw [h.lines_ended, lines, Lines.spurious_serve _ (.inr rfl)] at calls
    exact ⟨kept, calls⟩
  · have inv' :=
      h.inv_ended inv { w with irr := clearBit w.irr m } ⟨rfl, rfl, rfl, rfl⟩ served
    have lines : Irqs.lines { s with pics := { s.pics with
        slave := { w with irr := clearBit w.irr m } } }
        = { Irqs.lines { s with pics := { s.pics with slave := w } } with
            requested := Function.update
              (Irqs.lines { s with pics := { s.pics with slave := w } }).requested
              (m + 8) false } :=
      lines_eq rfl (requested_ended s w m) rfl rfl rfl rfl
    rw [← h.lines_ended, ← ended] at lines
    rw [← ended] at inv'
    generalize { w with irr := clearBit w.irr m, isr := setBit w.isr m } = slave at *
    rw [irqCommonHandler_plain (by omega) (by omega) (by omega), picEoi_eq,
      if_neg (show ¬ m + 8 < 8 by omega)]
    refine ⟨Inv.call inv' (m + 8), ?_⟩
    rw [lines_call, lines, Lines.serve, if_neg (by omega)]

end Chosen

/-- An interrupt of the slave serves its most urgent line, or is one without a request. -/
theorem accept_slave (inv : s.Inv) (requested : s.pics.cascaded.request = some 2)
    (withdrawn : BitVec 8)
    : ∃ s', s.accept withdrawn = some s' ∧ s'.Inv
        ∧ s'.lines
          = (((PicPair.withdraw s.pics.slave withdrawn).request).map (· + 8)).elim
              ((s.lines.withdraw withdrawn).spurious 15) (s.lines.withdraw withdrawn).serve := by
  obtain ⟨master, chosen⟩ := exists_chosen inv requested withdrawn
  generalize PicPair.withdraw s.pics.slave withdrawn = w at chosen ⊢
  rw [← chosen.lines]
  have served : ∀ n, w.isr.getLsbD n = true → n = 7 := by
    rw [← chosen.withdraws]
    exact inv.slave
  cases asks : w.request with
  | none =>
      have inv' := chosen.inv_ended inv w ⟨rfl, rfl, rfl, rfl⟩ served
      obtain ⟨kept, calls⟩ :=
        handler_fifteen (s := { s with pics := { master, slave := w } }) inv' rfl
      rw [chosen.lines_ended] at calls
      exact ⟨_, accept_eq (chosen.acknowledge_none inv asks) rfl, kept, calls⟩
  | some m =>
      have low : m < 8 := by
        rw [request_eq] at asks
        exact List.mem_range.mp (List.mem_of_find?_eq_some asks)
      have stub : stubOf (BitVec.ofNat 8 (40 + m)).toNat = some (.irq (m + 8)) := by
        interval_cases m <;> rfl
      exact ⟨_, accept_eq (chosen.acknowledge_some inv asks) stub,
        chosen.serves inv served asks low⟩

/-- The processor gets a vector of a stub at any time, and what the handler does is what the lines
say.
-/
theorem accept_lines (inv : s.Inv) (withdrawn : BitVec 8)
    : ∃ s', s.accept withdrawn = some s' ∧ s'.Inv ∧ s'.lines = s.lines.accept withdrawn := by
  have next := next_eq inv
  rw [Lines.accept, next]
  cases requested : s.pics.cascaded.request with
  | none => exact accept_none inv requested withdrawn
  | some n =>
      rw [Option.bind_some]
      by_cases two : n = 2
      · subst two
        have asks : s.pics.slave.int = true := by
          have found := requested
          rw [request_eq] at found
          have both := List.find?_some found
          simp only [Bool.and_eq_true] at both
          rw [← cascaded_irr_two]
          exact both.1.1
        obtain ⟨m, asked⟩ := Option.isSome_iff_exists.mp asks
        have found := find?_slaveLines (s := { s with
          pics := { s.pics with slave := PicPair.withdraw s.pics.slave withdrawn } }) inv.slave
        rw [lines_withdraw] at found
        rw [if_pos rfl, asked, Option.map_some]
        simp only [show ¬ m + 8 < 8 by omega, if_false, found]
        obtain ⟨s', accepted, kept, seen⟩ := accept_slave inv requested withdrawn
        refine ⟨s', accepted, kept, seen.trans ?_⟩
        cases (PicPair.withdraw s.pics.slave withdrawn).request <;> rfl
      · have low : n < 8 := by
          rw [request_eq] at requested
          exact List.mem_range.mp (List.mem_of_find?_eq_some requested)
        rw [if_neg two]
        simp only [low, if_true]
        exact accept_master inv requested two withdrawn

/-- An event does to the controllers and handlers what it does to the lines. -/
theorem step_lines (inv : s.Inv) (event : IrqEvent H)
    : (s.step event).map Irqs.lines = s.lines.step event
      ∧ ∀ s', s.step event = some s' → s'.Inv := by
  rw [Irqs.step.eq_def, Lines.step.eq_def]
  by_cases valid : event.valid = true
  · rw [if_pos valid, if_pos valid]
    cases event with
    | raise line =>
        simp only [IrqEvent.valid, Bool.and_eq_true, decide_eq_true_eq] at valid
        simp only [Option.map_some, lines_raise valid.1 valid.2, Option.some.injEq, forall_eq']
        refine ⟨?_, inv.raise line⟩
        split <;> rfl
    | lower line =>
        simp only [IrqEvent.valid, Bool.and_eq_true, decide_eq_true_eq] at valid
        simp only [Option.map_some, lines_lower valid.2, Option.some.injEq, forall_eq', true_and]
        exact inv.lower line
    | accept withdrawn =>
        obtain ⟨s', accepted, kept, seen⟩ := accept_lines inv withdrawn
        simp only [accepted, Option.map_some, seen, Option.some.injEq, forall_eq', true_and]
        exact kept
    | mask irq =>
        simp only [Option.map_some, lines_picMask inv (of_decide_eq_true valid), Option.some.injEq,
          forall_eq', true_and]
        rw [picMask_eq]
        split
        · exact (inv.data _).1
        · exact (inv.data _).2
    | unmask irq =>
        simp only [Option.map_some, lines_picUnmask inv, Option.some.injEq, forall_eq', true_and]
        rw [picUnmask_eq]
        split
        · exact (inv.data _).1
        · exact (inv.data _).2
    | register irq handler =>
        simp only [Option.map_some, Option.some.injEq, forall_eq']
        exact ⟨rfl, inv.initialized, inv.master, inv.slave⟩
  · rw [if_neg valid, if_neg valid]
    exact ⟨rfl, fun s' taken => absurd taken.symm (Option.some_ne_none s')⟩

end Irqs

-----------------------------------------------------------------------------------------
-- Runs
-----------------------------------------------------------------------------------------

/-- The state behind `pic_init`, with no handlers. -/
def Irqs.boot (p : PicPair) : Irqs H where
  pics := picInit p
  irqHandlers _ := none
  calls := []

/-- The lines then: all of devices are masked, and none requests an interrupt. -/
def Lines.boot (up : Nat → Bool) : Lines H where
  up := up
  requested _ := false
  masked line := line < 16 && line ≠ 2
  stuck _ := false
  irqHandlers _ := none
  calls := []

theorem Irqs.inv_boot (p : PicPair) : (Irqs.boot p : Irqs H).Inv where
  initialized := initialized_picInit p
  master n set := by
    rw [Irqs.boot, picInit_eq] at set
    simp at set
  slave n set := by
    rw [Irqs.boot, picInit_eq] at set
    simp at set

theorem Irqs.lines_boot (p : PicPair)
    : (Irqs.boot p : Irqs H).lines
      = Lines.boot (bitAt p.master.lines p.slave.lines) := by
  have none (line : Nat) : bitAt 0 0 line = false := by
    rw [bitAt]
    simp
  refine lines_eq rfl ?_ ?_ ?_ rfl rfl
  · funext line
    change (_ && bitAt 0 0 line) = false
    rw [none, Bool.and_false]
  · funext line
    change bitAt 0xFB 0xFF line = (decide (line < 16) && decide (line ≠ 2))
    by_cases valid : line < 16
    · interval_cases line <;> rfl
    · rw [bitAt, if_neg (by omega), BitVec.getLsbD_of_ge _ _ (by omega), decide_eq_false valid,
        Bool.false_and]
  · funext line
    exact none line

/-- From a state between two interrupts, events do to the controllers and handlers what they do to
the lines, by induction on them.
-/
theorem Irqs.run_lines {s : Irqs H} (inv : s.Inv) (events : List (IrqEvent H))
    : (events.foldlM Irqs.step s).map Irqs.lines = events.foldlM Lines.step s.lines
      ∧ ∀ s', events.foldlM Irqs.step s = some s' → s'.Inv := by
  induction events generalizing s with
  | nil =>
      refine ⟨rfl, fun s' same => ?_⟩
      obtain rfl := Option.some.inj same
      exact inv
  | cons event events ih =>
      obtain ⟨lines, kept⟩ := step_lines inv event
      rw [List.foldlM_cons, List.foldlM_cons]
      cases taken : s.step event with
      | none =>
          rw [taken, Option.map_none] at lines
          rw [← lines]
          exact ⟨rfl, fun s' taken => absurd taken.symm (Option.some_ne_none s')⟩
      | some s' =>
          rw [taken, Option.map_some] at lines
          rw [← lines]
          exact ih (kept s' taken)

/-- The controllers, `irq_common_handler` and the driver in `kernel/cpu/pic.c` make up an ideal
controller: whatever happens after `pic_init`, from any state of the controllers before, lines
request and are masked, and handlers are called, as the lines say by themselves. Between two
interrupts nothing is in service but line 7 of each controller. Each event keeps that, and does to
the lines what it does to those of the ideal one; the rest is induction on the events.
-/
theorem irqs_refine_lines (p : PicPair) (events : List (IrqEvent H))
    : (events.foldlM Irqs.step (Irqs.boot p)).map Irqs.lines
      = events.foldlM Lines.step (Lines.boot (bitAt p.master.lines p.slave.lines)) := by
  rw [← Irqs.lines_boot]
  exact (Irqs.run_lines (Irqs.inv_boot p) events).1

end Hydrangea
