import Mathlib.Order.Filter.AtTopBot.Basic
import Mathlib.Tactic

/-! An ATA device that transfers sectors of 256 words in PIO mode without errors, with 28-bit
addresses and an 8-bit count of sectors, as seen through its registers; and polling of its status.
-/

/-- Whether words come from the drive or go to it. -/
inductive PioDevice.Direction where
  | read
  | write

/-- A transfer under way: its next word on the drive and the number of words left. -/
structure PioDevice.Transfer where
  direction : PioDevice.Direction
  word : Nat
  left : Nat

/-- The bytes of the drive, the registers, the transfer, for how many more reads of the status the
device is busy, and how often it will be busy in the waits to come.
-/
structure PioDevice where
  content : Nat → UInt8
  sectorCount : Nat
  lbaLow : Nat
  lbaMid : Nat
  lbaHigh : Nat
  driveHead : Nat
  transfer : Option PioDevice.Transfer
  busy : Nat
  delays : Nat → Nat

namespace PioDevice

open Filter

def lba (d : PioDevice) : Nat :=
  d.driveHead % 16 * 2 ^ 24 + d.lbaHigh * 2 ^ 16 + d.lbaMid * 2 ^ 8 + d.lbaLow

/-- The number of sectors of a command; 0 stands for 256. -/
def count (d : PioDevice) : Nat :=
  if d.sectorCount = 0 then 256 else d.sectorCount

def wait (d : PioDevice) : PioDevice :=
  { d with busy := d.delays 0, delays := fun k => d.delays (k + 1) }

/-- A transfer of so many words, if any. -/
def transferOf (direction : Direction) (word left : Nat) : Option Transfer :=
  if left = 0 then none else some { direction, word, left }

/-- Go on with a transfer behind its next word, and get ready for the next sector where one ends. -/
def advance (d : PioDevice) (t : Transfer) : PioDevice :=
  let d := { d with transfer := transferOf t.direction (t.word + 1) (t.left - 1) }
  if (t.left - 1) % 256 = 0 then d.wait else d

/-- The status: busy, or ready, with a request for data during a transfer. -/
def status (d : PioDevice) : Nat :=
  if 0 < d.busy then 0x80 else if d.transfer.isSome then 0x48 else 0x40

/-- Read a register: the status at 7, no error at the others. -/
def inb (d : PioDevice) (register : Nat) : Nat × PioDevice :=
  if register = 7 then (d.status, { d with busy := d.busy - 1 }) else (0, d)

/-- Write a byte to a register; the one at 7 takes the commands to read and to write. -/
def outb (d : PioDevice) (register value : Nat) : PioDevice :=
  if register = 2 then { d with sectorCount := value % 256 }
  else if register = 3 then { d with lbaLow := value % 256 }
  else if register = 4 then { d with lbaMid := value % 256 }
  else if register = 5 then { d with lbaHigh := value % 256 }
  else if register = 6 then { d with driveHead := value % 256 }
  else if register = 7 then
    if value % 256 = 0x20 then
      { d with transfer := transferOf .read (d.lba * 256) (d.count * 256) }.wait
    else if value % 256 = 0x30 then
      { d with transfer := transferOf .write (d.lba * 256) (d.count * 256) }.wait
    else d
  else d

/-- Read a word of data, the low byte first on the drive; without a request for data, read nothing.
-/
def inw (d : PioDevice) : Nat × PioDevice :=
  match d.transfer with
  | some { direction := .read, word, left } =>
      if 0 < d.busy then (0xFFFF, d)
      else
        ((d.content (2 * word)).toNat + 256 * (d.content (2 * word + 1)).toNat,
          d.advance { direction := .read, word, left })
  | _ => (0xFFFF, d)

/-- Write a word of data; without a request for data, write nothing. -/
def outw (d : PioDevice) (value : Nat) : PioDevice :=
  match d.transfer with
  | some { direction := .write, word, left } =>
      if 0 < d.busy then d
      else
        { d with
          content := Function.update (Function.update d.content (2 * word) (UInt8.ofNat value))
            (2 * word + 1) (UInt8.ofNat (value / 256)) }.advance { direction := .write, word, left }
  | _ => d

def ready (d : PioDevice) : PioDevice :=
  { d with busy := 0 }

/-- Read the status again and again, at most so many times. -/
def poll (again : Nat → Bool) : Nat → PioDevice → Option PioDevice
  | 0, _ => none
  | fuel + 1, d =>
      let (status, d) := d.inb 7
      if again status then poll again fuel d else some d

variable {d : PioDevice} {again : Nat → Bool}

/-- Polling ends when the device is no longer busy, if then it has the status that is waited for, by
induction on the reads for which the device is busy.
-/
theorem poll_eventually (busy : again 0x80 = true) (ended : again d.ready.status = false)
    : ∀ᶠ fuel in atTop, poll again fuel d = some d.ready := by
  refine eventually_atTop.mpr ⟨d.busy + 1, fun fuel enough => ?_⟩
  obtain ⟨fuel, rfl⟩ := Nat.exists_eq_succ_of_ne_zero (n := fuel) (by omega)
  induction left : d.busy generalizing d fuel with
  | zero =>
      have same : d = d.ready := by
        rw [ready, ← left]
      rw [poll, inb, if_pos rfl, same]
      simp only [ended]
      rfl
  | succ n ih =>
      have now : d.status = 0x80 := by
        rw [status, if_pos (by omega)]
      obtain ⟨fuel, rfl⟩ := Nat.exists_eq_succ_of_ne_zero (n := fuel) (by omega)
      rw [poll, inb, if_pos rfl, now]
      simp only [busy, if_true]
      exact ih (d := { d with busy := d.busy - 1 }) ended fuel (by simp only; omega)
        (by simp only; omega)

/-- Polling does not end if the status that is waited for does not come, by induction on the reads.
-/
theorem poll_never (busy : again 0x80 = true) (ended : again d.ready.status = true) (fuel : Nat)
    : poll again fuel d = none := by
  induction fuel generalizing d with
  | zero => rfl
  | succ fuel ih =>
      have more : again d.status = true := by
        rcases Nat.eq_zero_or_pos d.busy with none | some
        · have same : d = d.ready := by
            rw [ready, ← none]
          rw [same]
          exact ended
        · rw [status, if_pos some]
          exact busy
      rw [poll, inb, if_pos rfl]
      simp only [more, if_true]
      exact ih ended

/-- Polling ends, if it ends, when the device is no longer busy, by induction on the reads. -/
theorem poll_ready (busy : again 0x80 = true) {fuel : Nat} {d' : PioDevice}
    (polled : poll again fuel d = some d')
    : d' = d.ready := by
  induction fuel generalizing d with
  | zero => cases polled
  | succ fuel ih =>
      rw [poll, inb, if_pos rfl] at polled
      by_cases more : again d.status = true
      · simp only [more, if_true] at polled
        exact ih (d := { d with busy := d.busy - 1 }) polled
      · have free : d.busy = 0 := by
          rcases Nat.eq_zero_or_pos d.busy with none | some
          · exact none
          · rw [status, if_pos some] at more
            exact absurd busy more
        simp only [more, Bool.false_eq_true, if_false, Option.some.injEq] at polled
        rw [← polled, ready, free]

theorem not_busy_ready : ¬ 0 < d.ready.busy :=
  Nat.lt_irrefl 0

theorem ready_status {direction : Direction} {word left : Nat}
    (under : d.transfer = transferOf direction word left)
    : d.ready.status = if left = 0 then 0x40 else 0x48 := by
  have there : d.ready.transfer = transferOf direction word left := under
  rw [status, there, transferOf, if_neg not_busy_ready]
  split <;> rfl

/-- A transfer goes on behind its next word, on the same drive. -/
theorem advance_eq (d : PioDevice) (t : Transfer)
    : (d.advance t).transfer = transferOf t.direction (t.word + 1) (t.left - 1)
      ∧ (d.advance t).content = d.content := by
  rw [advance]
  split <;> exact ⟨rfl, rfl⟩

/-- The next word of a transfer from the drive. -/
theorem inw_ready {word left : Nat} (under : d.transfer = transferOf .read word (left + 1))
    : d.ready.inw.1 = (d.content (2 * word)).toNat + 256 * (d.content (2 * word + 1)).toNat
      ∧ d.ready.inw.2.transfer = transferOf .read (word + 1) left
      ∧ d.ready.inw.2.content = d.content := by
  have there : d.ready.transfer = some { direction := .read, word, left := left + 1 } := under
  simp only [inw, there]
  rw [if_neg not_busy_ready]
  exact ⟨rfl, advance_eq ..⟩

/-- The next word of a transfer to the drive. -/
theorem outw_ready {word left : Nat} (under : d.transfer = transferOf .write word (left + 1))
    (value : Nat)
    : (d.ready.outw value).transfer = transferOf .write (word + 1) left
      ∧ (d.ready.outw value).content
        = Function.update (Function.update d.content (2 * word) (UInt8.ofNat value))
            (2 * word + 1) (UInt8.ofNat (value / 256)) := by
  have there : d.ready.transfer = some { direction := .write, word, left := left + 1 } := under
  simp only [outw, there]
  rw [if_neg not_busy_ready]
  exact advance_eq ..

end PioDevice
