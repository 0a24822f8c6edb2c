import Hydrangea.Lib.PioDevice

/-! Reading and writing sectors of a drive through the registers of its device, as in
`kernel/drivers/ata.c`. The loops that poll the status take fuel, and return none without it.
-/

namespace Hydrangea

open PioDevice Filter

/-- `ATA_REG_ERROR`, which is `ATA_REG_FEATURES` when it is written. -/
def ataRegError : Nat := 1
def ataRegSeccount0 : Nat := 2
def ataRegLba0 : Nat := 3
def ataRegLba1 : Nat := 4
def ataRegLba2 : Nat := 5
def ataRegHddevsel : Nat := 6
def ataRegCommand : Nat := 7
def ataRegStatus : Nat := 7
def ataRegSeccount1 : Nat := 8
def ataRegLba3 : Nat := 9
def ataRegLba4 : Nat := 0xA
def ataRegLba5 : Nat := 0xB
def ataRegAltstatus : Nat := 0xC

def ataCmdReadPIO : Nat := 0x20
def ataCmdWritePIO : Nat := 0x30
def ataErrCmdAborted : Nat := 4

/-- `status & ATA_STATUS_BUSY`. -/
def ataBusy (status : Nat) : Bool :=
  status &&& 0x80 ≠ 0

/-- `status & ATA_STATUS_DATA_REQUEST_READY`. -/
def ataRequest (status : Nat) : Bool :=
  status &&& 0x08 ≠ 0

def ataOccupied (status : Nat) : Bool :=
  ataBusy status || ataRequest status

def ataUnready (status : Nat) : Bool :=
  ataBusy status || !ataRequest status

def ata400NanoSec (d : PioDevice) : PioDevice :=
  (List.range 4).foldl (fun d _ => (d.inb ataRegAltstatus).2) d

def ataCheckForErrors (d : PioDevice) : Nat × PioDevice :=
  let (status, d) := d.inb ataRegStatus
  if status &&& 0x01 ≠ 0 then d.inb ataRegError
  else if !ataRequest status then (0xFF, d)
  else (0, d)

/-- `ATA_PIO_prepare`; `ms` is that of the drive. -/
def ataPIOPrepare (fuel : Nat) (d : PioDevice) (ms block size : Nat) : Option PioDevice :=
  let d := d.outb ataRegHddevsel ((if ms ≠ 0 then 0xE0 else 0xF0) ||| (block >>> 24 &&& 0x0F))
  let d := ata400NanoSec d
  (poll ataOccupied fuel d).map (fun d =>
    let d := d.outb ataRegError 0
    let d := d.outb ataRegSeccount0 size
    let d := d.outb ataRegSeccount1 0
    let d := d.outb ataRegLba0 block
    let d := d.outb ataRegLba1 (block >>> 8)
    let d := d.outb ataRegLba2 (block >>> 16)
    let d := d.outb ataRegLba3 0
    let d := d.outb ataRegLba4 0
    d.outb ataRegLba5 0)

/-- A loop over words from word `i` on: `body` transfers one, each time the device requests it. -/
def transferWords (body : Nat → PioDevice × (Nat → UInt8) → PioDevice × (Nat → UInt8)) (fuel : Nat)
    : (n i : Nat) → PioDevice × (Nat → UInt8) → Option (PioDevice × (Nat → UInt8))
  | 0, _, s => some s
  | n + 1, i, (d, buf) =>
      let d := (d.inb ataRegAltstatus).2
      (poll ataUnready fuel d).bind (fun d => transferWords body fuel n (i + 1) (body i (d, buf)))

/-- The body of the loop of `ATA_PIO_read`. -/
def readBody (i : Nat) (s : PioDevice × (Nat → UInt8)) : PioDevice × (Nat → UInt8) :=
  let (word, d) := s.1.inw
  let buf := Function.update s.2 (i * 2) (UInt8.ofNat word)
  (d, Function.update buf (i * 2 + 1) (UInt8.ofNat (word >>> 8)))

/-- The body of the loop of `ATA_PIO_write`. -/
def writeBody (i : Nat) (s : PioDevice × (Nat → UInt8)) : PioDevice × (Nat → UInt8) :=
  let word := (s.2 (i * 2 + 1)).toNat <<< 8 ||| (s.2 (i * 2)).toNat
  (s.1.outw word, s.2)

def ataFinish (d : PioDevice) : PioDevice :=
  let d := (d.inb ataRegAltstatus).2
  (d.inb ataRegStatus).2

/-- `ATA_PIO_read`: what it returns, the device and the buffer. -/
def ataPIORead (fuel : Nat) (d : PioDevice) (ms block size : Nat) (buf : Nat → UInt8)
    : Option (Nat × PioDevice × (Nat → UInt8)) :=
  (ataPIOPrepare fuel d ms block size).bind (fun d =>
    let d := d.outb ataRegCommand ataCmdReadPIO
    let (err, d) := ataCheckForErrors d
    if err = ataErrCmdAborted then
      some (0, d, buf)
    else
      (transferWords readBody fuel (256 * size % 2 ^ 64) 0 (d, buf)).map (fun s =>
        (size % 2 ^ 32, ataFinish s.1, s.2)))

/-- `ATA_PIO_write`: what it returns, and the device. -/
def ataPIOWrite (fuel : Nat) (d : PioDevice) (ms block size : Nat) (buf : Nat → UInt8)
    : Option (Nat × PioDevice) :=
  (ataPIOPrepare fuel d ms block size).bind (fun d =>
    (poll ataOccupied fuel d).bind (fun d =>
      let d := d.outb ataRegCommand ataCmdWritePIO
      let (err, d) := ataCheckForErrors d
      if err = ataErrCmdAborted then
        some (0, d)
      else
        (transferWords writeBody fuel (256 * size % 2 ^ 64) 0 (d, buf)).map (fun s =>
          (size % 2 ^ 32, ataFinish s.1))))

variable {d : PioDevice} {buf : Nat → UInt8}

-----------------------------------------------------------------------------------------
-- The loops over words
-----------------------------------------------------------------------------------------

/-- Reading the alternative status changes nothing. -/
@[simp]
theorem inb_altstatus (d : PioDevice) : (d.inb ataRegAltstatus).2 = d :=
  rfl

/-- A body that transfers the next word of a transfer in some direction. -/
def Transfers (direction : Direction)
    (body : Nat → PioDevice × (Nat → UInt8) → PioDevice × (Nat → UInt8)) : Prop :=
  ∀ (i word left : Nat) (d : PioDevice) (buf : Nat → UInt8),
    d.transfer = transferOf direction word (left + 1)
      → (body i (d.ready, buf)).1.transfer = transferOf direction (word + 1) left

/-- `ATA_PIO_read` transfers words from the drive. -/
theorem readBody_transfers : Transfers .read readBody :=
  fun _ _ _ _ _ under => (inw_ready under).2.1

/-- `ATA_PIO_write` transfers words to the drive. -/
theorem writeBody_transfers : Transfers .write writeBody :=
  fun _ _ _ _ _ under => (outw_ready under _).1

/-- A device with words left requests them, once it is no longer busy. -/
theorem poll_unready {direction : Direction} {word left : Nat}
    (under : d.transfer = transferOf direction word (left + 1))
    : ∀ᶠ fuel in atTop, poll ataUnready fuel d = some d.ready := by
  refine poll_eventually rfl ?_
  rw [ready_status under, if_neg (Nat.succ_ne_zero left)]
  rfl

/-- The loop does not end when the transfer has fewer words, by induction on the words. -/
theorem transferWords_never {direction : Direction}
    {body : Nat → PioDevice × (Nat → UInt8) → PioDevice × (Nat → UInt8)}
    (transfers : Transfers direction body) (fuel : Nat) {n i word left : Nat}
    (under : d.transfer = transferOf direction word left) (more : left < n)
    : transferWords body fuel n i (d, buf) = none := by
  induction n generalizing i word left d buf with
  | zero => cases more
  | succ n ih =>
      simp only [transferWords, inb_altstatus]
      cases left with
      | zero =>
          -- no word is requested any more
          have ended : ataUnready d.ready.status = true := by
            rw [ready_status under, if_pos rfl]
            rfl
          rw [poll_never rfl ended]
          rfl
      | succ left =>
          rcases polled : poll ataUnready fuel d with _ | d'
          · rfl
          · obtain rfl := poll_ready rfl polled
            exact ih (transfers i word left d buf under) (by omega)

@[simp]
theorem ofNat_low (low high : UInt8) : UInt8.ofNat (low.toNat + 256 * high.toNat) = low := by
  have small := low.toNat_lt
  apply UInt8.toNat.inj
  rw [UInt8.toNat_ofNat']
  omega

@[simp]
theorem ofNat_high (low high : UInt8)
    : UInt8.ofNat ((low.toNat + 256 * high.toNat) / 256) = high := by
  have small := low.toNat_lt
  have small' := high.toNat_lt
  apply UInt8.toNat.inj
  rw [UInt8.toNat_ofNat']
  omega

/-- A word of two bytes, as `ATA_PIO_write` makes it. -/
theorem shift_or (low high : UInt8)
    : high.toNat <<< 8 ||| low.toNat = low.toNat + 256 * high.toNat := by
  rw [← Nat.shiftLeft_add_eq_or_of_lt low.toNat_lt, Nat.shiftLeft_eq]
  omega

/-- `ATA_PIO_read` takes the next word to the buffer. -/
theorem readBody_ready {word left : Nat} (under : d.transfer = transferOf .read word (left + 1))
    (i : Nat) (buf : Nat → UInt8)
    : (readBody i (d.ready, buf)).1.transfer = transferOf .read (word + 1) left
      ∧ (readBody i (d.ready, buf)).1.content = d.content
      ∧ (readBody i (d.ready, buf)).2
        = Function.update (Function.update buf (i * 2) (d.content (2 * word)))
            (i * 2 + 1) (d.content (2 * word + 1)) := by
  obtain ⟨read, on, same⟩ := inw_ready under
  refine ⟨on, same, ?_⟩
  rw [readBody]
  simp only [read, Nat.shiftRight_eq_div_pow, Nat.reducePow, ofNat_low, ofNat_high]

/-- `ATA_PIO_write` takes the next word from the buffer. -/
theorem writeBody_ready {word left : Nat} (under : d.transfer = transferOf .write word (left + 1))
    (i : Nat) (buf : Nat → UInt8)
    : (writeBody i (d.ready, buf)).1.transfer = transferOf .write (word + 1) left
      ∧ (writeBody i (d.ready, buf)).1.content
        = Function.update (Function.update d.content (2 * word) (buf (i * 2)))
            (2 * word + 1) (buf (i * 2 + 1))
      ∧ (writeBody i (d.ready, buf)).2 = buf := by
  obtain ⟨on, written⟩ :=
    outw_ready under ((buf (i * 2 + 1)).toNat <<< 8 ||| (buf (i * 2)).toNat)
  refine ⟨on, ?_, rfl⟩
  rw [shift_or, ofNat_low, ofNat_high] at written
  rw [writeBody, shift_or]
  exact written

/-- The bytes `start`, `start + 1`, … of `old`, `n` of them, replaced by those of `new` from `from`
on.
-/
def replaced (old new : Nat → UInt8) (start first n : Nat) : Nat → UInt8 :=
  fun k => if start ≤ k ∧ k < start + n then new (first + (k - start)) else old k

/-- Two bytes, and then the others. -/
theorem replaced_update (old new : Nat → UInt8) (start first n : Nat)
    : replaced
          (Function.update (Function.update old start (new first)) (start + 1) (new (first + 1)))
          new (start + 2) (first + 2) n
      = replaced old new start first (n + 2) := by
  funext k
  simp only [replaced, Function.update_apply]
  split_ifs <;> first | rfl | omega | (congr 1; omega)

theorem replaced_zero (old new : Nat → UInt8) (start first : Nat)
    : replaced old new start first 0 = old := by
  funext k
  rw [replaced, if_neg (by omega)]

/-- The loop of `ATA_PIO_read` ends with the bytes of the drive in the buffer, by induction on the
words.
-/
theorem transferWords_read {n word : Nat} (under : d.transfer = transferOf .read word n) (i : Nat)
    (buf : Nat → UInt8)
    : ∃ d' : PioDevice, d'.transfer = none ∧ d'.content = d.content
        ∧ ∀ᶠ fuel in atTop, transferWords readBody fuel n i (d, buf)
            = some (d', replaced buf d.content (2 * i) (2 * word) (2 * n)) := by
  induction n generalizing d buf i word with
  | zero =>
      refine ⟨d, under, rfl, Eventually.of_forall fun fuel => ?_⟩
      rw [Nat.mul_zero, replaced_zero, transferWords]
  | succ n ih =>
      obtain ⟨on, same, filled⟩ := readBody_ready under i buf
      obtain ⟨d', ended, kept, eventually⟩ :=
        ih on (i + 1) (readBody i (d.ready, buf)).2
      have whole : replaced (readBody i (d.ready, buf)).2 (readBody i (d.ready, buf)).1.content
            (2 * (i + 1)) (2 * (word + 1)) (2 * n)
          = replaced buf d.content (2 * i) (2 * word) (2 * (n + 1)) := by
        rw [filled, same, Nat.mul_comm i 2]
        exact replaced_update ..
      refine ⟨d', ended, kept.trans same, ?_⟩
      filter_upwards [poll_unready under, eventually] with fuel polled rest
      simp only [transferWords, inb_altstatus, polled, Option.bind_some]
      rw [← whole]
      exact rest

/-- The loop of `ATA_PIO_write` ends with the bytes of the buffer on the drive, by induction on the
words.
-/
theorem transferWords_write {n word : Nat} (under : d.transfer = transferOf .write word n) (i : Nat)
    (buf : Nat → UInt8)
    : ∃ d' : PioDevice, d'.transfer = none
        ∧ d'.content = replaced d.content buf (2 * word) (2 * i) (2 * n)
        ∧ ∀ᶠ fuel in atTop, transferWords writeBody fuel n i (d, buf) = some (d', buf) := by
  induction n generalizing d i word with
  | zero =>
      refine ⟨d, under, ?_, Eventually.of_forall fun fuel => ?_⟩
      · rw [Nat.mul_zero, replaced_zero]
      · rw [transferWords]
  | succ n ih =>
      obtain ⟨on, written, same⟩ := writeBody_ready under i buf
      obtain ⟨d', ended, rest, eventually⟩ := ih on (i + 1)
      refine ⟨d', ended, ?_, ?_⟩
      · rw [rest, written, Nat.mul_comm i 2]
        exact replaced_update ..
      · filter_upwards [poll_unready under, eventually] with fuel polled loop
        simp only [transferWords, inb_altstatus, polled, Option.bind_some]
        exact loop

-----------------------------------------------------------------------------------------
-- The command
-----------------------------------------------------------------------------------------

/-- The device as `ATA_PIO_prepare` leaves it. -/
def prepared (d : PioDevice) (ms block size : Nat) : PioDevice :=
  { d with
    sectorCount := size % 256
    lbaLow := block % 256
    lbaMid := (block >>> 8) % 256
    lbaHigh := (block >>> 16) % 256
    driveHead := ((if ms ≠ 0 then 0xE0 else 0xF0) ||| (block >>> 24 &&& 0x0F)) % 256
    busy := 0 }

/-- An idle device requests nothing, once it is no longer busy. -/
theorem poll_occupied (idle : d.transfer = none)
    : ∀ᶠ fuel in atTop, poll ataOccupied fuel d = some d.ready := by
  refine poll_eventually rfl ?_
  have none : d.transfer = transferOf .read 0 0 := idle
  rw [ready_status none, if_pos rfl]
  rfl

/-- `ATA_PIO_prepare` ends on an idle device. -/
theorem ataPIOPrepare_eventually (idle : d.transfer = none) (ms block size : Nat)
    : ∀ᶠ fuel in atTop, ataPIOPrepare fuel d ms block size = some (prepared d ms block size) := by
  let d' := d.outb ataRegHddevsel ((if ms ≠ 0 then 0xE0 else 0xF0) ||| (block >>> 24 &&& 0x0F))
  have idle' : d'.transfer = none := idle
  filter_upwards [poll_occupied idle'] with fuel polled
  rw [ataPIOPrepare]
  simp only [ata400NanoSec]
  have same : (List.range 4).foldl (fun d _ => (d.inb ataRegAltstatus).2) d' = d' := rfl
  rw [same, polled]
  rfl

/-- How `ATA_PIO_prepare` leaves the device, if it ends. -/
theorem ataPIOPrepare_prepared {fuel ms block size : Nat} {d' : PioDevice}
    (ready : ataPIOPrepare fuel d ms block size = some d')
    : d' = prepared d ms block size := by
  obtain ⟨polled, waited, rfl⟩ := Option.map_eq_some_iff.mp ready
  rw [poll_ready rfl waited]
  rfl

/-- The block that is programmed, for an address of 28 bits. -/
theorem prepared_lba {block : Nat} (small : block < 2 ^ 28) (ms size : Nat)
    : (prepared d ms block size).lba = block := by
  have head : ∀ x < 16, (0xE0 ||| x) % 256 % 16 = x ∧ (0xF0 ||| x) % 256 % 16 = x := by
    decide
  have low : block >>> 24 &&& 0x0F = block / 2 ^ 24 % 16 := by
    rw [Nat.shiftRight_eq_div_pow]
    exact Nat.and_two_pow_sub_one_eq_mod _ 4
  have top : ((if ms ≠ 0 then 0xE0 else 0xF0) ||| (block >>> 24 &&& 0x0F)) % 256 % 16
      = block / 2 ^ 24 % 16 := by
    rw [low]
    split
    · exact (head _ (Nat.mod_lt _ (by decide))).1
    · exact (head _ (Nat.mod_lt _ (by decide))).2
  simp only [lba, prepared]
  rw [top]
  simp only [Nat.shiftRight_eq_div_pow]
  omega

/-- The number of sectors that is programmed. -/
theorem prepared_count (ms block size : Nat)
    : (prepared d ms block size).count = if size % 256 = 0 then 256 else size % 256 :=
  rfl

/-- Checking for errors finds no aborted command, and only reads the status. -/
theorem ataCheckForErrors_eq (d : PioDevice)
    : (ataCheckForErrors d).1 ≠ ataErrCmdAborted
      ∧ (ataCheckForErrors d).2.transfer = d.transfer
      ∧ (ataCheckForErrors d).2.content = d.content := by
  have read : d.inb ataRegStatus = (d.status, { d with busy := d.busy - 1 }) := rfl
  have statuses : d.status = 0x80 ∨ d.status = 0x48 ∨ d.status = 0x40 := by
    rw [status]
    split_ifs <;> simp
  rcases statuses with now | now | now
  all_goals
    simp only [ataCheckForErrors, read, now]
    exact ⟨by simp [ataRequest, ataErrCmdAborted], rfl, rfl⟩

/-- The transfer that a command starts, after the check for errors. -/
theorem commanded_transfer {block : Nat} (small : block < 2 ^ 28) (ms size : Nat)
    (direction : Direction) {command : Nat}
    (either : direction = .read ∧ command = ataCmdReadPIO
      ∨ direction = .write ∧ command = ataCmdWritePIO)
    : let d' := (ataCheckForErrors ((prepared d ms block size).outb ataRegCommand command)).2
      d'.transfer
          = transferOf direction (block * 256) ((prepared d ms block size).count * 256)
        ∧ d'.content = d.content := by
  intro d'
  obtain ⟨-, same, kept⟩ := ataCheckForErrors_eq ((prepared d ms block size).outb ataRegCommand command)
  have started : ((prepared d ms block size).outb ataRegCommand command).transfer
        = transferOf direction ((prepared d ms block size).lba * 256)
          ((prepared d ms block size).count * 256)
      ∧ ((prepared d ms block size).outb ataRegCommand command).content = d.content := by
    rcases either with ⟨rfl, rfl⟩ | ⟨rfl, rfl⟩ <;> exact ⟨rfl, rfl⟩
  rw [prepared_lba small] at started
  exact ⟨same.trans started.1, kept.trans started.2⟩

/-- As many sectors are programmed as are requested, from 1 to 256 of them. -/
theorem prepared_count_eq {size : Nat} (positive : 1 ≤ size) (few : size ≤ 256) (ms block : Nat)
    : (prepared d ms block size).count * 256 = 256 * size := by
  rw [prepared_count]
  split <;> omega

/-- `ATA_PIO_read` of 1 to 256 sectors ends, with the bytes of the drive in the buffer. -/
theorem ataPIORead_eventually (idle : d.transfer = none) {block size : Nat} (small : block < 2 ^ 28)
    (positive : 1 ≤ size) (few : size ≤ 256) (ms : Nat) (buf : Nat → UInt8)
    : ∃ d' : PioDevice, d'.transfer = none ∧ d'.content = d.content
        ∧ ∀ᶠ fuel in atTop, ataPIORead fuel d ms block size buf
            = some (size, d', replaced buf d.content 0 (block * 512) (size * 512)) := by
  obtain ⟨noAbort, -, -⟩ :=
    ataCheckForErrors_eq ((prepared d ms block size).outb ataRegCommand ataCmdReadPIO)
  obtain ⟨under, same⟩ :=
    commanded_transfer (d := d) small ms size .read (.inl ⟨rfl, rfl⟩)
  rw [prepared_count_eq positive few] at under
  obtain ⟨d', ended, content, loops⟩ := transferWords_read under 0 buf
  have whole : replaced buf
        (ataCheckForErrors ((prepared d ms block size).outb ataRegCommand ataCmdReadPIO)).2.content
        (2 * 0) (2 * (block * 256)) (2 * (256 * size))
      = replaced buf d.content 0 (block * 512) (size * 512) := by
    rw [same]
    congr 1 <;> omega
  refine ⟨ataFinish d', ended, content.trans same, ?_⟩
  filter_upwards [ataPIOPrepare_eventually idle ms block size, loops] with fuel ready loop
  rw [whole] at loop
  simp only [ataPIORead, ready, Option.bind_some]
  rw [if_neg noAbort, Nat.mod_eq_of_lt (a := 256 * size) (by omega), loop,
    Nat.mod_eq_of_lt (a := size) (by omega)]
  rfl

/-- `ATA_PIO_write` of 1 to 256 sectors ends, with the bytes of the buffer on the drive. -/
theorem ataPIOWrite_eventually (idle : d.transfer = none) {block size : Nat} (small : block < 2 ^ 28)
    (positive : 1 ≤ size) (few : size ≤ 256) (ms : Nat) (buf : Nat → UInt8)
    : ∃ d' : PioDevice, d'.transfer = none
        ∧ d'.content = replaced d.content buf (block * 512) 0 (size * 512)
        ∧ ∀ᶠ fuel in atTop, ataPIOWrite fuel d ms block size buf = some (size, d') := by
  obtain ⟨noAbort, -, -⟩ :=
    ataCheckForErrors_eq ((prepared d ms block size).outb ataRegCommand ataCmdWritePIO)
  obtain ⟨under, same⟩ :=
    commanded_transfer (d := d) small ms size .write (.inr ⟨rfl, rfl⟩)
  rw [prepared_count_eq positive few] at under
  obtain ⟨d', ended, content, loops⟩ := transferWords_write under 0 buf
  have still : (prepared d ms block size).transfer = none := idle
  refine ⟨ataFinish d', ended, ?_, ?_⟩
  · have whole : d'.content = replaced d.content buf (block * 512) 0 (size * 512) := by
      rw [content, same]
      congr 1 <;> omega
    exact whole
  · filter_upwards [ataPIOPrepare_eventually idle ms block size, poll_occupied still, loops]
      with fuel ready polled loop
    have free : (prepared d ms block size).ready = prepared d ms block size := rfl
    rw [free] at polled
    simp only [ataPIOWrite, ready, polled, Option.bind_some]
    rw [if_neg noAbort, Nat.mod_eq_of_lt (a := 256 * size) (by omega), loop,
      Nat.mod_eq_of_lt (a := size) (by omega)]
    rfl

/-- `ATA_PIO_write` of more than 256 sectors polls for ever: the device takes fewer words than the
loop has.
-/
theorem ataPIOWrite_never {block size : Nat} (small : block < 2 ^ 28) (many : 256 < size)
    (fits : size ≤ 2 ^ 28) (ms fuel : Nat)
    : ataPIOWrite fuel d ms block size buf = none := by
  rcases ready : ataPIOPrepare fuel d ms block size with _ | d'
  · rw [ataPIOWrite, ready]
    rfl
  · obtain rfl := ataPIOPrepare_prepared ready
    rcases waited : poll ataOccupied fuel (prepared d ms block size) with _ | d'
    · simp only [ataPIOWrite, ready, waited, Option.bind_some]
      rfl
    · obtain rfl := poll_ready rfl waited
      obtain ⟨noAbort, -, -⟩ :=
        ataCheckForErrors_eq ((prepared d ms block size).outb ataRegCommand ataCmdWritePIO)
      obtain ⟨under, -⟩ :=
        commanded_transfer (d := d) small ms size .write (.inr ⟨rfl, rfl⟩)
      have fewer : (prepared d ms block size).count * 256 < 256 * size := by
        rw [prepared_count]
        split <;> omega
      have free : (prepared d ms block size).ready = prepared d ms block size := rfl
      simp only [ataPIOWrite, ready, waited, Option.bind_some, free]
      rw [if_neg noAbort, Nat.mod_eq_of_lt (a := 256 * size) (by omega),
        transferWords_never writeBody_transfers fuel under fewer]
      rfl

/-- `ATA_PIO_write` of a buffer ends, returns the number of sectors and changes only them, to the
buffer; and `ATA_PIO_read` of them then ends, returns their number and reads the buffer, and
nothing behind it.
-/
def ATARoundTrip (d : PioDevice) (ms block size : Nat) (buf out : Nat → UInt8) : Prop :=
  ∃ d' : PioDevice,
    (∀ᶠ fuel in atTop, ataPIOWrite fuel d ms block size buf = some (size, d'))
      ∧ d'.content = replaced d.content buf (block * 512) 0 (size * 512)
      ∧ ∃ d'' : PioDevice,
          (∀ᶠ fuel in atTop, ataPIORead fuel d' ms block size out
              = some (size, d'', replaced out buf 0 0 (size * 512)))
            ∧ d''.content = d'.content

/-- A write and a read of sectors of the drive are a round trip exactly if they are at most 256.
The sector count is a byte in which 256 is 0: up to 256 sectors the transfers of both directions
are followed word by word, and beyond that the write waits for a request that never comes.
-/
theorem ataRoundTrip_iff (d : PioDevice) (idle : d.transfer = none)
    (sectors : Nat) (addressable : sectors ≤ 2 ^ 28)
    (ms block size : Nat) (positive : 1 ≤ size) (there : block + size ≤ sectors)
    (buf out : Nat → UInt8)
    : ATARoundTrip d ms block size buf out ↔ size ≤ 256 := by
  have small : block < 2 ^ 28 := by omega
  constructor
  · rintro ⟨d', written, -⟩
    by_contra many
    obtain ⟨fuel, ended⟩ := written.exists
    rw [ataPIOWrite_never small (by omega) (by omega)] at ended
    cases ended
  · intro few
    obtain ⟨d', idle', content, written⟩ :=
      ataPIOWrite_eventually idle small positive few ms buf
    obtain ⟨d'', -, same, read⟩ :=
      ataPIORead_eventually idle' small positive few ms out
    have whole : replaced out d'.content 0 (block * 512) (size * 512)
        = replaced out buf 0 0 (size * 512) := by
      funext k
      simp only [content, replaced]
      split_ifs <;> first | rfl | omega | (congr 1; omega)
    rw [whole] at read
    exact ⟨d', written, content, d'', read, same⟩

/-- An empty drive, whose device is never busy. -/
def blankDevice : PioDevice where
  content _ := 0
  sectorCount := 0
  lbaLow := 0
  lbaMid := 0
  lbaHigh := 0
  driveHead := 0
  transfer := none
  busy := 0
  delays _ := 0

/-- Sector 1 of a drive with eight. -/
theorem ataRoundTrip_blankDevice
    : ATARoundTrip blankDevice 0 1 1 (fun k => UInt8.ofNat k) (fun _ => 0) ↔ 1 ≤ 256 :=
  ataRoundTrip_iff blankDevice rfl 8 (by decide) 0 1 1 (by decide) (by decide) _ _

/-- 257 sectors of a drive with 1024 are not written: the loop does not end. -/
theorem not_ataRoundTrip_many
    : ¬ ATARoundTrip blankDevice 0 0 257 (fun _ => 0) (fun _ => 0) := by
  rintro ⟨d', written, -⟩
  obtain ⟨fuel, ended⟩ := written.exists
  rw [ataPIOWrite_never (by decide) (by decide) (by decide)] at ended
  cases ended

end Hydrangea
