import Mathlib.Tactic

/-! The 8259 interrupt controller in edge-triggered and fully nested mode, and a pair of them with
the output of the slave on line 2 of the master. Rotation of priorities, polling and the special
mask mode are left out.
-/

/-- The word that a controller expects at its data port. -/
inductive Pic8259.Expects where
  | icw2
  | icw3
  | icw4
  | ocw1
  deriving DecidableEq, Inhabited

/-- The levels of the lines, the registers of requests, of interrupts in service and of the mask,
and what the words of initialisation and the selection of a register to read left.
-/
structure Pic8259 where
  lines : BitVec 8
  irr : BitVec 8
  isr : BitVec 8
  imr : BitVec 8
  expects : Pic8259.Expects
  single : Bool
  needsIcw4 : Bool
  icw2 : BitVec 8
  icw3 : BitVec 8
  icw4 : BitVec 8
  readsIsr : Bool
  deriving Inhabited

structure PicPair where
  master : Pic8259
  slave : Pic8259
  deriving Inhabited

namespace Pic8259

def setBit (b : BitVec 8) (n : Nat) : BitVec 8 :=
  b ||| 1#8 <<< n

def clearBit (b : BitVec 8) (n : Nat) : BitVec 8 :=
  b &&& ~~~(1#8 <<< n)

theorem getLsbD_one_shiftLeft (n i : Nat) (low : i < 8)
    : (1#8 <<< n).getLsbD i = decide (i = n) := by
  rw [BitVec.getLsbD_shiftLeft, BitVec.getLsbD_one, Bool.eq_iff_iff]
  simp only [Bool.and_eq_true, decide_eq_true_eq, Bool.not_eq_true', decide_eq_false_iff_not]
  omega

@[simp]
theorem getLsbD_setBit (b : BitVec 8) (n i : Nat)
    : (setBit b n).getLsbD i = (b.getLsbD i || decide (i = n ∧ n < 8)) := by
  rw [setBit, BitVec.getLsbD_or]
  by_cases low : i < 8
  · rw [getLsbD_one_shiftLeft n i low]
    congr 1
    rw [decide_eq_decide]
    omega
  · rw [BitVec.getLsbD_of_ge _ _ (by omega), BitVec.getLsbD_of_ge _ _ (by omega),
      decide_eq_false (by omega)]

@[simp]
theorem getLsbD_clearBit (b : BitVec 8) (n i : Nat)
    : (clearBit b n).getLsbD i = (b.getLsbD i && !decide (i = n)) := by
  rw [clearBit, BitVec.getLsbD_and, BitVec.getLsbD_not]
  by_cases low : i < 8
  · rw [getLsbD_one_shiftLeft n i low, decide_eq_true low, Bool.true_and]
  · rw [BitVec.getLsbD_of_ge _ _ (by omega), Bool.false_and, Bool.false_and]

def first (b : BitVec 8) : Option Nat :=
  (List.range 8).find? (fun n => b.getLsbD n)

/-- Whether a line is more urgent than all that are in service. -/
def unblocked (p : Pic8259) (n : Nat) : Bool :=
  (first p.isr).all (fun m => decide (n < m))

/-- The line whose request interrupts: of those that are not masked the most urgent, if it is more
urgent than all that are in service.
-/
def request (p : Pic8259) : Option Nat :=
  (first (p.irr &&& ~~~p.imr)).filter p.unblocked

def int (p : Pic8259) : Bool :=
  p.request.isSome

/-- The line acknowledged, which then is in service and requests no more; with no request it is
line 7, and nothing changes. With the automatic end of interrupt nothing stays in service.
-/
def acknowledge (p : Pic8259) : Nat × Pic8259 :=
  match p.request with
  | some n =>
      (n, { p with
        irr := clearBit p.irr n
        isr := if p.icw4.getLsbD 1 then p.isr else setBit p.isr n })
  | none => (7, p)

def raise (p : Pic8259) (n : Nat) : Pic8259 :=
  if p.lines.getLsbD n then p
  else { p with lines := setBit p.lines n, irr := setBit p.irr n }

def lower (p : Pic8259) (n : Nat) : Pic8259 :=
  { p with lines := clearBit p.lines n, irr := clearBit p.irr n }

def eoi (p : Pic8259) : Pic8259 :=
  match first p.isr with
  | some n => { p with isr := clearBit p.isr n }
  | none => p

/-- Writing a byte to the command port: it starts the initialisation, selects the register to read,
or ends an interrupt.
-/
def command (p : Pic8259) (value : BitVec 8) : Pic8259 :=
  if value.getLsbD 4 then
    { p with
      irr := 0
      isr := 0
      imr := 0
      expects := .icw2
      single := value.getLsbD 1
      needsIcw4 := value.getLsbD 0
      icw4 := 0
      readsIsr := false }
  else if value.getLsbD 3 then
    if value.getLsbD 1 then { p with readsIsr := value.getLsbD 0 } else p
  else if value.getLsbD 5 then
    if value.getLsbD 6 then { p with isr := clearBit p.isr (value &&& 7).toNat } else p.eoi
  else p

def afterIcw3 (p : Pic8259) : Expects :=
  if p.needsIcw4 then .icw4 else .ocw1

/-- Writing a byte to the data port: the words of the initialisation, then the mask. -/
def data (p : Pic8259) (value : BitVec 8) : Pic8259 :=
  match p.expects with
  | .icw2 =>
      { p with icw2 := value &&& 0xF8, expects := if p.single then p.afterIcw3 else .icw3 }
  | .icw3 => { p with icw3 := value, expects := p.afterIcw3 }
  | .icw4 => { p with icw4 := value, expects := .ocw1 }
  | .ocw1 => { p with imr := value }

def status (p : Pic8259) : BitVec 8 :=
  if p.readsIsr then p.isr else p.irr

/-- Filtering what is found is finding what passes the filter too, if the filter stays closed once
it is; by induction on the list.
-/
theorem find?_filter {α : Type*} {l : List α} {p q : α → Bool}
    (closed : l.Pairwise (fun a b => q b = true → q a = true))
    : (l.find? p).filter q = l.find? (fun a => p a && q a) := by
  induction l with
  | nil => rfl
  | cons a l ih =>
      obtain ⟨later, closed⟩ := List.pairwise_cons.mp closed
      rw [List.find?_cons, List.find?_cons]
      cases found : p a with
      | false => exact ih closed
      | true =>
          rw [Bool.true_and]
          cases passes : q a with
          | true => exact Option.filter_some_pos passes
          | false =>
              have none : l.find? (fun b => p b && q b) = none := by
                refine List.find?_eq_none.mpr (fun b member both => ?_)
                rw [Bool.and_eq_true] at both
                rw [later b member both.2] at passes
                cases passes
              rw [none]
              exact Option.filter_some_neg (by rw [passes])

/-- The line whose request interrupts is the most urgent one that requests, is not masked and is not
blocked.
-/
theorem request_eq (p : Pic8259)
    : p.request = (List.range 8).find?
        (fun n => (p.irr.getLsbD n && !p.imr.getLsbD n) && p.unblocked n) := by
  rw [request, first, find?_filter]
  · refine List.find?_congr (fun n member => ?_)
    rw [BitVec.getLsbD_and, BitVec.getLsbD_not, decide_eq_true (List.mem_range.mp member),
      Bool.true_and]
  · refine List.pairwise_lt_range.imp (fun {a b} less open' => ?_)
    rw [unblocked, Option.all_eq_true] at open' ⊢
    intro m served
    have := of_decide_eq_true (open' m served)
    exact decide_eq_true (less.trans this)

/-- The lowest bit that is set is one, below which none is. -/
theorem first_eq_some {b : BitVec 8} {n : Nat}
    : first b = some n ↔ b.getLsbD n = true ∧ ∀ m < n, b.getLsbD m = false := by
  rw [first]
  constructor
  · intro found
    have set := List.find?_some found
    have low := List.mem_range.mp (List.mem_of_find?_eq_some found)
    refine ⟨set, fun m less => ?_⟩
    rw [List.find?_range_eq_some] at found
    simpa using found.2.2 m less
  · rintro ⟨set, none⟩
    have low : n < 8 := BitVec.lt_of_getLsbD set
    rw [List.find?_range_eq_some]
    exact ⟨set, List.mem_range.mpr low, fun m less => by rw [none m less, Bool.not_false]⟩

theorem first_eq_none {b : BitVec 8} : first b = none ↔ b = 0 := by
  rw [first, List.find?_eq_none]
  constructor
  · intro none
    refine BitVec.eq_of_getLsbD_eq (fun n low => ?_)
    rw [Bool.eq_false_of_not_eq_true (none n (List.mem_range.mpr low))]
    simp
  · rintro rfl n -
    simp

/-- Ending the most urgent interrupt in service undoes its acknowledgement. -/
theorem clearBit_setBit {b : BitVec 8} {n : Nat} (clear : b.getLsbD n = false)
    : clearBit (setBit b n) n = b := by
  refine BitVec.eq_of_getLsbD_eq (fun i _ => ?_)
  rw [getLsbD_clearBit, getLsbD_setBit]
  by_cases same : i = n
  · simp [same, clear]
  · simp [same]

theorem acknowledge_some {p : Pic8259} {n : Nat} (requested : p.request = some n)
    (keeps : p.icw4.getLsbD 1 = false)
    : p.acknowledge = (n, { p with irr := clearBit p.irr n, isr := setBit p.isr n }) := by
  rw [acknowledge, requested]
  simp only [keeps, Bool.false_eq_true, if_false]

/-- Acknowledging a request and ending it leaves in service what was, and the request is gone. -/
theorem eoi_acknowledge {p : Pic8259} {n : Nat} (requested : p.request = some n)
    : Pic8259.eoi { p with irr := clearBit p.irr n, isr := setBit p.isr n }
      = { p with irr := clearBit p.irr n } := by
  have found := requested
  rw [request_eq] at found
  have unblocked' : p.unblocked n = true := by
    have passes := List.find?_some found
    rw [Bool.and_eq_true] at passes
    exact passes.2
  have low : n < 8 := List.mem_range.mp (List.mem_of_find?_eq_some found)
  have clear (m : Nat) (le : m ≤ n) : p.isr.getLsbD m = false := by
    by_contra served
    rw [Bool.not_eq_false] at served
    rw [unblocked] at unblocked'
    cases least : first p.isr with
    | none =>
        rw [first_eq_none.mp least] at served
        simp at served
    | some k =>
        rw [least, Option.all_some, decide_eq_true_eq] at unblocked'
        have below := (first_eq_some.mp least).2 m (by omega)
        rw [served] at below
        cases below
  have most : first (setBit p.isr n) = some n := by
    refine first_eq_some.mpr ⟨?_, fun m less => ?_⟩
    · rw [getLsbD_setBit, decide_eq_true ⟨rfl, low⟩, Bool.or_true]
    · rw [getLsbD_setBit, clear m less.le, decide_eq_false (by omega)]
      rfl
  rw [eoi]
  simp only [most, clearBit_setBit (clear n le_rfl)]

/-- Acknowledging no request changes nothing. -/
theorem acknowledge_none {p : Pic8259} (none : p.request = none) : p.acknowledge = (7, p) := by
  rw [acknowledge, none]

end Pic8259

namespace PicPair

open Pic8259

def cascaded (p : PicPair) : Pic8259 :=
  { p.master with irr := if p.slave.int then setBit p.master.irr 2 else clearBit p.master.irr 2 }

/-- Whether the words of initialisation make the slave give the vectors of line 2. -/
def wired (p : PicPair) : Bool :=
  p.master.icw3.getLsbD 2 && p.slave.icw3 &&& 7 == 2

def withdraw (p : Pic8259) (withdrawn : BitVec 8) : Pic8259 :=
  { p with lines := p.lines &&& ~~~withdrawn, irr := p.irr &&& ~~~withdrawn }

/-- The vector that the processor gets when it acknowledges an interrupt. Between the choice of the
master and that of the slave, requests at the slave may go away.
-/
def acknowledge (p : PicPair) (withdrawn : BitVec 8) : BitVec 8 × PicPair :=
  let (n, master) := p.cascaded.acknowledge
  if p.cascaded.request = some 2 ∧ p.wired = true then
    let (m, slave) := (withdraw p.slave withdrawn).acknowledge
    (slave.icw2 + BitVec.ofNat 8 m, { master, slave })
  else (master.icw2 + BitVec.ofNat 8 n, { p with master })

/-- A line goes up; the first eight are those of the master. -/
def raise (p : PicPair) (line : Nat) : PicPair :=
  if line < 8 then { p with master := p.master.raise line }
  else { p with slave := p.slave.raise (line - 8) }

def lower (p : PicPair) (line : Nat) : PicPair :=
  if line < 8 then { p with master := p.master.lower line }
  else { p with slave := p.slave.lower (line - 8) }

def outb (p : PicPair) (port : Nat) (value : BitVec 8) : PicPair :=
  if port = 0x20 then { p with master := p.master.command value }
  else if port = 0x21 then { p with master := p.master.data value }
  else if port = 0xA0 then { p with slave := p.slave.command value }
  else if port = 0xA1 then { p with slave := p.slave.data value }
  else p

def inb (p : PicPair) (port : Nat) : BitVec 8 :=
  if port = 0x20 then p.cascaded.status
  else if port = 0x21 then p.master.imr
  else if port = 0xA0 then p.slave.status
  else if port = 0xA1 then p.slave.imr
  else 0

end PicPair
