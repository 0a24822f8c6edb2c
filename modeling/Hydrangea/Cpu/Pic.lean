import Hydrangea.Lib.Pic8259

/-! The driver of the interrupt controllers in `kernel/cpu/pic.c`. -/

namespace Hydrangea

/-- `PIC_1_CMD`, which is `PIC_1_STATUS` when it is read. -/
def pic1Cmd : Nat := 0x20
/-- `PIC_1_DATA`, which is `PIC_1_MASK`. -/
def pic1Data : Nat := 0x21
def pic2Cmd : Nat := 0xA0
def pic2Data : Nat := 0xA1

def picInit (p : PicPair) : PicPair :=
  let p := p.outb pic1Cmd 0x11
  let p := p.outb pic2Cmd 0x11
  let p := p.outb pic1Data 0x20
  let p := p.outb pic2Data 0x28
  let p := p.outb pic1Data 0x04
  let p := p.outb pic2Data 0x02
  let p := p.outb pic1Data 0x01
  let p := p.outb pic2Data 0x01
  let p := p.outb pic1Data 0xFB
  p.outb pic2Data 0xFF

def picGetMask (p : PicPair) (pic : Nat) : BitVec 8 :=
  if pic ≠ 1 ∧ pic ≠ 2 then 0
  else
    let port := if pic = 1 then pic1Data else pic2Data
    p.inb port

def picSetMask (p : PicPair) (pic : Nat) (mask : BitVec 8) : PicPair :=
  if pic ≠ 1 ∧ pic ≠ 2 then p
  else
    let port := if pic = 1 then pic1Data else pic2Data
    p.outb port mask

def picMask (p : PicPair) (irq : Nat) : PicPair :=
  let pic := if irq < 8 then 1 else 2
  let irq := irq - (if irq < 8 then 0 else 8)
  let mask := picGetMask p pic
  let mask := mask ||| 1#8 <<< irq
  picSetMask p pic mask

def picUnmask (p : PicPair) (irq : Nat) : PicPair :=
  let pic := if irq < 8 then 1 else 2
  let irq := irq - (if irq < 8 then 0 else 8)
  let mask := picGetMask p pic
  let mask := mask &&& ~~~(1#8 <<< irq)
  picSetMask p pic mask

def picEoi (p : PicPair) (irq : Nat) : PicPair :=
  let p := if irq ≥ 8 then p.outb pic2Cmd 0x20 else p
  p.outb pic1Cmd 0x20

def picIsIrq7Sus (p : PicPair) : BitVec 8 × PicPair :=
  let p := p.outb pic1Cmd 0x0B
  let sus := p.inb pic1Cmd &&& 0x80
  (sus, p)

def picIsIrq15Sus (p : PicPair) : BitVec 8 × PicPair :=
  let p := p.outb pic2Cmd 0x0B
  let sus := p.inb pic2Cmd &&& 0x80
  let p := if sus ≠ 0 then p.outb pic1Cmd 0x20 else p
  (sus, p)

/-- What `pic_init` leaves, whatever the state of the controllers was: vectors from 32 and 40 on,
the slave on line 2, every line masked but that one, and nothing requested or in service.
-/
theorem picInit_eq (p : PicPair)
    : picInit p
      = { master :=
            { p.master with
              irr := 0, isr := 0, imr := 0xFB, expects := .ocw1, single := false, needsIcw4 := true
              icw2 := 0x20, icw3 := 0x04, icw4 := 0x01, readsIsr := false }
          slave :=
            { p.slave with
              irr := 0, isr := 0, imr := 0xFF, expects := .ocw1, single := false, needsIcw4 := true
              icw2 := 0x28, icw3 := 0x02, icw4 := 0x01, readsIsr := false } } :=
  rfl

/-- The controllers are set up as `pic_init` does it. -/
structure Initialized (p : PicPair) : Prop where
  master : p.master.expects = .ocw1
  slave : p.slave.expects = .ocw1
  first : p.master.icw2 = 0x20
  second : p.slave.icw2 = 0x28
  wired : p.wired = true
  masterEoi : p.master.icw4.getLsbD 1 = false
  slaveEoi : p.slave.icw4.getLsbD 1 = false

theorem initialized_picInit (p : PicPair) : Initialized (picInit p) := by
  have wired : ((0x04#8).getLsbD 2 && (0x02#8 &&& 7 == 2)) = true := by decide
  have keeps : (0x01#8).getLsbD 1 = false := by decide
  rw [picInit_eq]
  exact ⟨rfl, rfl, rfl, rfl, wired, keeps, keeps⟩

/-- A bit of two bytes, those of the master first. -/
def bitAt (master slave : BitVec 8) (line : Nat) : Bool :=
  if line < 8 then master.getLsbD line else slave.getLsbD (line - 8)

section

variable (master slave : BitVec 8) {line : Nat}

theorem bitAt_setBit_master (low : line < 8)
    : bitAt (Pic8259.setBit master line) slave
      = Function.update (bitAt master slave) line true := by
  funext l
  rw [bitAt, Function.update_apply, bitAt, Pic8259.getLsbD_setBit]
  split
  · by_cases same : l = line
    · rw [if_pos same, decide_eq_true ⟨same, low⟩, Bool.or_true]
    · rw [if_neg same, decide_eq_false (fun both => same both.1), Bool.or_false]
  · rw [if_neg (by omega)]

theorem bitAt_setBit_slave (low : 8 ≤ line) (high : line < 16)
    : bitAt master (Pic8259.setBit slave (line - 8))
      = Function.update (bitAt master slave) line true := by
  funext l
  rw [bitAt, Function.update_apply, bitAt, Pic8259.getLsbD_setBit]
  split
  · rw [if_neg (by omega)]
  · by_cases same : l = line
    · rw [if_pos same, decide_eq_true ⟨by omega, by omega⟩, Bool.or_true]
    · rw [if_neg same, decide_eq_false (fun both => same (by omega)), Bool.or_false]

theorem bitAt_clearBit_master (low : line < 8)
    : bitAt (Pic8259.clearBit master line) slave
      = Function.update (bitAt master slave) line false := by
  funext l
  rw [bitAt, Function.update_apply, bitAt, Pic8259.getLsbD_clearBit]
  split
  · by_cases same : l = line
    · rw [if_pos same, decide_eq_true same, Bool.not_true, Bool.and_false]
    · rw [if_neg same, decide_eq_false same, Bool.not_false, Bool.and_true]
  · rw [if_neg (by omega)]

theorem bitAt_clearBit_slave (low : 8 ≤ line)
    : bitAt master (Pic8259.clearBit slave (line - 8))
      = Function.update (bitAt master slave) line false := by
  funext l
  rw [bitAt, Function.update_apply, bitAt, Pic8259.getLsbD_clearBit]
  split
  · rw [if_neg (by omega)]
  · by_cases same : l = line
    · rw [if_pos same, decide_eq_true (by omega), Bool.not_true, Bool.and_false]
    · rw [if_neg same, decide_eq_false (by omega), Bool.not_false, Bool.and_true]

end

section

variable {p : PicPair}

theorem picMask_eq (p : PicPair) (irq : Nat)
    : picMask p irq
      = if irq < 8 then { p with master := p.master.data (Pic8259.setBit p.master.imr irq) }
        else { p with slave := p.slave.data (Pic8259.setBit p.slave.imr (irq - 8)) } := by
  rw [picMask]
  split <;> rfl

theorem picUnmask_eq (p : PicPair) (irq : Nat)
    : picUnmask p irq
      = if irq < 8 then { p with master := p.master.data (Pic8259.clearBit p.master.imr irq) }
        else { p with slave := p.slave.data (Pic8259.clearBit p.slave.imr (irq - 8)) } := by
  rw [picUnmask]
  split <;> rfl

theorem picEoi_eq (p : PicPair) (irq : Nat)
    : picEoi p irq
      = { master := p.master.eoi, slave := if irq < 8 then p.slave else p.slave.eoi } := by
  rw [picEoi]
  by_cases first : irq < 8
  · rw [if_neg (by omega), if_pos first]
    rfl
  · rw [if_pos (by omega), if_neg first]
    rfl

theorem picIsIrq7Sus_eq (p : PicPair)
    : picIsIrq7Sus p
      = (p.master.isr &&& 0x80, { p with master := { p.master with readsIsr := true } }) :=
  rfl

theorem picIsIrq15Sus_eq (p : PicPair)
    : picIsIrq15Sus p
      = (p.slave.isr &&& 0x80,
          { master := if p.slave.isr &&& 0x80 ≠ 0 then p.master.eoi else p.master
            slave := { p.slave with readsIsr := true } }) := by
  have sus : (p.outb pic2Cmd 0x0B).inb pic2Cmd &&& 0x80 = p.slave.isr &&& 0x80 := rfl
  rw [picIsIrq15Sus]
  simp only [sus]
  split <;> rfl

/-- The highest bit of a byte. -/
theorem and_0x80_ne_zero (b : BitVec 8) : b &&& 0x80 ≠ 0 ↔ b.getLsbD 7 = true := by
  constructor
  · intro ne
    by_contra clear
    refine ne (BitVec.eq_of_getLsbD_eq (fun i low => ?_))
    rw [BitVec.getLsbD_and]
    rcases Nat.lt_or_eq_of_le (Nat.le_of_lt_succ low) with less | rfl
    · have none : (0x80#8).getLsbD i = false := by interval_cases i <;> rfl
      rw [show (0x80 : BitVec 8) = 0x80#8 from rfl, none, Bool.and_false]
      simp
    · rw [Bool.eq_false_of_not_eq_true clear, Bool.false_and]
      rfl
  · intro set zero
    have bit := congrArg (fun b => b.getLsbD 7) zero
    simp only [BitVec.getLsbD_and, set] at bit
    exact absurd bit (by decide)

end

end Hydrangea
