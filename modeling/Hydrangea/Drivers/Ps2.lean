import Hydrangea.Lib.Countdown

/-! Writing to the PS/2 controller and commanding its devices, as in `kernel/drivers/ps2.c`. What
the ports return is given in the order of the reads; what is logged is left out.
-/

namespace Hydrangea

inductive PortAccess where
  | inb (port : UInt16) (value : UInt8)
  | outb (port : UInt16) (data : UInt8)

/-- What the ports will return, and the accesses to them so far. -/
structure Ps2 where
  inputs : Nat → UInt8
  accesses : List PortAccess

namespace Ps2

def ps2Data : UInt16 := 0x60
def ps2Status : UInt16 := 0x64
def ps2Cmd : UInt16 := 0x64
def ps2StatusOut : UInt8 := (1 : UInt8) <<< 0
def ps2StatusIn : UInt8 := (1 : UInt8) <<< 1
def ps2CmdPort2In : UInt8 := 0xD4
def ps2DevAck : UInt8 := 0xFA

def ioInb (s : Ps2) (port : UInt16) : UInt8 × Ps2 :=
  (s.inputs 0,
    { inputs := fun n => s.inputs (n + 1)
      accesses := s.accesses ++ [.inb port (s.inputs 0)] })

def ioOutb (s : Ps2) (port : UInt16) (data : UInt8) : Ps2 :=
  { s with accesses := s.accesses ++ [.outb port data] }

def poll (bit : UInt8) (s : Ps2) : Bool × Ps2 :=
  let (status, s) := s.ioInb ps2Status
  (status &&& bit ≠ 0, s)

def ps2Outb (s : Ps2) (port : UInt16) (data : UInt8) : UInt8 × Ps2 :=
  let (t, s) := Countdown.run (poll ps2StatusIn) 512 s
  if t = 0 then (0xFF, s) else (0, s.ioOutb port data)

def ps2Inb (s : Ps2) (port : UInt16) : UInt8 × Ps2 :=
  let (t, s) := Countdown.run (poll ps2StatusOut) 512 s
  if t = 0 then (0xFF, s) else s.ioInb port

def ps2CtrlrCmd (s : Ps2) (cmd : UInt8) : UInt8 × Ps2 :=
  s.ps2Outb ps2Cmd cmd

/-- An attempt of `ps2_dev_cmd`: its `result`. -/
def attempt (dev cmd : UInt8) (s : Ps2) : UInt8 × Ps2 :=
  let s := if dev = 2 then (s.ps2CtrlrCmd ps2CmdPort2In).2 else s
  (s.ps2Outb ps2Data cmd).2.ps2Inb ps2Data

/-- A round of the loop of `ps2_dev_cmd`. -/
def attemptRound (dev cmd : UInt8) (s : Ps2) : Bool × Ps2 :=
  let (result, s) := attempt dev cmd s
  (result ≠ ps2DevAck, s)

def ps2DevCmd (s : Ps2) (dev cmd : UInt8) : UInt8 × Ps2 :=
  let (t, s) := Countdown.run (attemptRound dev cmd) 20 s
  (if t ≠ 0 then 1 else 0, s)

-----------------------------------------------------------------------------------------
-- What a caller sees
-----------------------------------------------------------------------------------------

/-- The status shows that the input buffer is full. -/
def Full (status : UInt8) : Prop :=
  status &&& ps2StatusIn ≠ 0

def reads (port : UInt16) (accesses : List PortAccess) : List UInt8 :=
  accesses.filterMap (fun
    | .inb port' value => if port' = port then some value else none
    | .outb .. => none)

def writes (accesses : List PortAccess) : List (UInt16 × UInt8) :=
  accesses.filterMap (fun
    | .inb .. => none
    | .outb port data => some (port, data))

/-- A call that writes fails, and writes nothing, just when every poll shows a full buffer;
otherwise it writes once, after a poll that shows a free one, and succeeds.
-/
structure Writes (port : UInt16) (data result : UInt8) (accesses : List PortAccess) : Prop where
  fails : result = 0xFF ∧ writes accesses = [] ↔ ∀ status ∈ reads ps2Status accesses, Full status
  succeeds : (∃ status ∈ reads ps2Status accesses, ¬ Full status)
    → result = 0 ∧ ∃ earlier status, ¬ Full status ∧ writes earlier = []
      ∧ accesses = earlier ++ [.inb ps2Status status, .outb port data]

/-- `ps2_outb` does so, for what the ports return. -/
def OutbWrites (inputs : Nat → UInt8) (port : UInt16) (data : UInt8) : Prop :=
  Writes port data (ps2Outb ⟨inputs, []⟩ port data).1 (ps2Outb ⟨inputs, []⟩ port data).2.accesses

/-- `ps2_dev_cmd` reports failure just when no attempt was acknowledged. -/
def DevCmdReports (inputs : Nat → UInt8) (dev cmd : UInt8) : Prop :=
  (ps2DevCmd ⟨inputs, []⟩ dev cmd).1 = 0
    ↔ ps2DevAck ∉ reads ps2Data (ps2DevCmd ⟨inputs, []⟩ dev cmd).2.accesses

def behind (inputs : Nat → UInt8) (k : Nat) : Nat → UInt8 :=
  fun n => inputs (n + k)

def firstClear (bit : UInt8) (inputs : Nat → UInt8) : Nat :=
  (List.range 512).findIdx (fun i => inputs i &&& bit = 0)

def clearLast (bit : UInt8) (inputs : Nat → UInt8) : Bool :=
  firstClear bit inputs = 512 ∧ inputs 512 &&& bit = 0

def commanded (dev : UInt8) (inputs : Nat → UInt8) : Nat → UInt8 :=
  let inputs :=
    if dev = 2 then behind inputs (firstClear ps2StatusIn inputs + 1) else inputs
  behind inputs (firstClear ps2StatusIn inputs + 1)

/-- What is read from the device, from what the ports return then: nothing if the bit of the status
is clear in the 513th poll first.
-/
def answer (inputs : Nat → UInt8) : Option UInt8 :=
  if clearLast ps2StatusOut inputs then none
  else some (inputs (firstClear ps2StatusOut inputs + 1))

def attempted (dev : UInt8) (inputs : Nat → UInt8) : Nat → UInt8 :=
  let inputs := commanded dev inputs
  behind inputs (firstClear ps2StatusOut inputs + 1 + if (answer inputs).isSome then 1 else 0)

/-- The device acknowledges the command in an attempt, the first one being 0. -/
def Acknowledges (inputs : Nat → UInt8) (dev : UInt8) (k : Nat) : Prop :=
  answer (commanded dev ((attempted dev)^[k] inputs)) = some ps2DevAck

variable {bit : UInt8} {inputs : Nat → UInt8}

-----------------------------------------------------------------------------------------
-- Polling
-----------------------------------------------------------------------------------------

def pollReads (inputs : Nat → UInt8) (k : Nat) : List PortAccess :=
  (List.range k).map (fun i => .inb ps2Status (inputs i))

/-- The state after some polls, by induction on them. -/
theorem after_poll (bit : UInt8) (k : Nat) (s : Ps2)
    : Countdown.after (poll bit) k s
      = ⟨fun n => s.inputs (n + k), s.accesses ++ pollReads s.inputs k⟩ := by
  induction k with
  | zero => simp [Countdown.after_zero, pollReads]
  | succ k ih =>
      rw [Countdown.after_succ', ih]
      simp [poll, ioInb, pollReads, List.range_succ, Nat.add_right_comm, Nat.add_assoc]

theorem poll_after (bit : UInt8) (k : Nat) (s : Ps2)
    : (poll bit (Countdown.after (poll bit) k s)).1 = decide (s.inputs k &&& bit ≠ 0) := by
  rw [after_poll]
  simp [poll, ioInb]

theorem reads_append (port : UInt16) (accesses more : List PortAccess)
    : reads port (accesses ++ more) = reads port accesses ++ reads port more :=
  List.filterMap_append

theorem reads_pollReads (inputs : Nat → UInt8) (k : Nat)
    : reads ps2Status (pollReads inputs k) = (List.range k).map inputs := by
  rw [reads, pollReads, List.filterMap_map]
  simp

theorem reads_data_pollReads (inputs : Nat → UInt8) (k : Nat)
    : reads ps2Data (pollReads inputs k) = [] := by
  rw [reads, pollReads, List.filterMap_map]
  simp [Function.comp_def, ps2Status, ps2Data]

theorem writes_pollReads (inputs : Nat → UInt8) (k : Nat) : writes (pollReads inputs k) = [] := by
  rw [writes, pollReads, List.filterMap_map]
  simp

/-- Polling ends with the first poll in which the bit is clear, or after 513 polls. -/
theorem run_poll (bit : UInt8) (s : Ps2)
    : (∃ k ≤ 512, (∀ j < k, s.inputs j &&& bit ≠ 0) ∧ s.inputs k &&& bit = 0
        ∧ Countdown.run (poll bit) 512 s = (512 - k, Countdown.after (poll bit) (k + 1) s))
      ∨ (∀ j ≤ 512, s.inputs j &&& bit ≠ 0)
        ∧ Countdown.run (poll bit) 512 s = (2 ^ 32 - 1, Countdown.after (poll bit) 513 s) := by
  have told := Countdown.run_cases (poll bit) 512 s
  simpa only [poll_after, decide_eq_true_eq, decide_eq_false_iff_not, not_not] using told

/-- The first poll in which a bit is clear, if there is one among 512. -/
theorem firstClear_eq {k : Nat} (inside : k ≤ 512) (set : ∀ j < k, inputs j &&& bit ≠ 0)
    (clear : k < 512 → inputs k &&& bit = 0)
    : firstClear bit inputs = k := by
  rw [firstClear]
  rcases Nat.eq_or_lt_of_le inside with rfl | before
  · have all : ∀ i ∈ List.range 512, decide (inputs i &&& bit = 0) = false :=
      fun i member => decide_eq_false (set i (List.mem_range.mp member))
    exact (List.findIdx_eq_length.mpr all).trans List.length_range
  · rw [List.findIdx_eq (by rwa [List.length_range])]
    simp only [List.getElem_range, decide_eq_true_eq, decide_eq_false_iff_not]
    exact ⟨clear before, set⟩

/-- The counter is zero after polling if the last poll is the first one in which the bit is clear.
-/
theorem run_poll_inputs (bit : UInt8) (s : Ps2)
    : ((Countdown.run (poll bit) 512 s).1 = 0 ↔ clearLast bit s.inputs)
      ∧ (Countdown.run (poll bit) 512 s).2.inputs
        = behind s.inputs (firstClear bit s.inputs + 1) := by
  rw [clearLast, decide_eq_true_eq]
  rcases run_poll bit s with ⟨k, inside, set, clear, ended⟩ | ⟨set, ended⟩
  · rw [ended, after_poll, firstClear_eq inside set (fun _ => clear)]
    refine ⟨?_, rfl⟩
    dsimp only
    constructor
    · intro zero
      obtain rfl : k = 512 := by omega
      exact ⟨rfl, clear⟩
    · rintro ⟨rfl, -⟩
      exact Nat.sub_self 512
  · have all : firstClear bit s.inputs = 512 :=
      firstClear_eq le_rfl (fun j below => set j below.le) (fun below => absurd below (lt_irrefl _))
    rw [ended, after_poll, all]
    refine ⟨iff_of_false ?_ (fun last => set 512 le_rfl last.2), rfl⟩
    dsimp only
    decide

theorem reads_run (bit : UInt8) (s : Ps2)
    : reads ps2Data (Countdown.run (poll bit) 512 s).2.accesses = reads ps2Data s.accesses := by
  have polled (k : Nat)
      : reads ps2Data (Countdown.after (poll bit) k s).accesses = reads ps2Data s.accesses := by
    rw [after_poll, reads_append, reads_data_pollReads, List.append_nil]
  rcases run_poll bit s with ⟨k, -, -, -, ended⟩ | ⟨-, ended⟩
  · rw [ended]
    exact polled (k + 1)
  · rw [ended]
    dsimp only
    apply polled

-----------------------------------------------------------------------------------------
-- Writing
-----------------------------------------------------------------------------------------

/-- `ps2_outb` writes behind its polls, unless the counter is zero then. -/
theorem ps2Outb_cases (inputs : Nat → UInt8) (port : UInt16) (data : UInt8)
    : (∃ k < 512, (∀ j < k, Full (inputs j)) ∧ ¬ Full (inputs k)
        ∧ (ps2Outb ⟨inputs, []⟩ port data).1 = 0
        ∧ (ps2Outb ⟨inputs, []⟩ port data).2.accesses
          = pollReads inputs (k + 1) ++ [.outb port data])
      ∨ (∀ j < 512, Full (inputs j))
        ∧ ((¬ Full (inputs 512) ∧ (ps2Outb ⟨inputs, []⟩ port data).1 = 0xFF
            ∧ (ps2Outb ⟨inputs, []⟩ port data).2.accesses = pollReads inputs 513)
          ∨ (Full (inputs 512) ∧ (ps2Outb ⟨inputs, []⟩ port data).1 = 0
            ∧ (ps2Outb ⟨inputs, []⟩ port data).2.accesses
              = pollReads inputs 513 ++ [.outb port data])) := by
  rw [ps2Outb]
  rcases run_poll ps2StatusIn ⟨inputs, []⟩ with ⟨k, inside, full, free, ended⟩ | ⟨full, ended⟩
  · rw [ended, after_poll]
    dsimp only
    rcases Nat.eq_or_lt_of_le inside with rfl | before
    · rw [if_pos (Nat.sub_self 512)]
      exact .inr ⟨full, .inl ⟨not_not.mpr free, rfl, List.nil_append _⟩⟩
    · rw [if_neg (Nat.sub_ne_zero_of_lt before)]
      exact .inl ⟨k, before, full, not_not.mpr free, rfl, by simp [ioOutb]⟩
  · rw [ended, after_poll]
    dsimp only
    rw [if_neg (by decide)]
    exact .inr ⟨fun j below => full j below.le, .inr ⟨full 512 le_rfl, rfl, by simp [ioOutb]⟩⟩

/-- `ps2_outb` writes as it should just when one of its first 512 polls shows a free buffer. -/
theorem outbWrites_iff (inputs : Nat → UInt8) (port : UInt16) (data : UInt8)
    : OutbWrites inputs port data ↔ ∃ i < 512, ¬ Full (inputs i) := by
  rw [OutbWrites]
  rcases ps2Outb_cases inputs port data with
    ⟨k, before, full, free, result, accesses⟩
      | ⟨full, ⟨free, result, accesses⟩ | ⟨last, result, accesses⟩⟩
  · refine iff_of_true ?_ ⟨k, before, free⟩
    have polled : inputs k ∈ reads ps2Status (pollReads inputs (k + 1) ++ [.outb port data]) := by
      rw [reads_append, reads_pollReads]
      exact List.mem_append_left _ (List.mem_map_of_mem (List.mem_range.mpr (Nat.lt_succ_self k)))
    rw [result, accesses]
    constructor
    · exact iff_of_false (fun failed => absurd failed.1 (by decide))
        (fun all => free (all _ polled))
    · refine fun _ => ⟨rfl, pollReads inputs k, inputs k, free, writes_pollReads inputs k, ?_⟩
      simp [pollReads, List.range_succ]
  · refine iff_of_false (fun right => ?_) (fun ⟨i, below, free'⟩ => free' (full i below))
    rw [result, accesses] at right
    have all := right.fails.mp ⟨rfl, writes_pollReads inputs 513⟩
    rw [reads_pollReads] at all
    exact free (all _ (List.mem_map_of_mem (List.mem_range.mpr (by decide))))
  · refine iff_of_false (fun right => ?_) (fun ⟨i, below, free⟩ => free (full i below))
    rw [result, accesses] at right
    refine absurd (right.fails.mpr (fun status polled => ?_)).1 (by decide)
    rw [reads_append, reads_pollReads] at polled
    obtain ⟨i, inside, rfl⟩ : ∃ i < 513, inputs i = status := by simpa [reads] using polled
    rcases Nat.eq_or_lt_of_le (Nat.le_of_lt_succ inside) with rfl | below
    · exact last
    · exact full i below

-----------------------------------------------------------------------------------------
-- Commands
-----------------------------------------------------------------------------------------

/-- The bytes read from the data port go on with some others, and the ports will return the given
ones.
-/
structure GoesOn (s s' : Ps2) (more : List UInt8) (inputs : Nat → UInt8) : Prop where
  inputs : s'.inputs = inputs
  reads : reads ps2Data s'.accesses = reads ps2Data s.accesses ++ more

/-- Writing polls the status only. -/
theorem ps2Outb_goesOn (s : Ps2) (port : UInt16) (data : UInt8)
    : GoesOn s (s.ps2Outb port data).2 []
        (behind s.inputs (firstClear ps2StatusIn s.inputs + 1)) := by
  obtain ⟨-, later⟩ := run_poll_inputs ps2StatusIn s
  have kept := reads_run ps2StatusIn s
  rw [ps2Outb]
  generalize Countdown.run (poll ps2StatusIn) 512 s = ended at later kept ⊢
  obtain ⟨t, s'⟩ := ended
  dsimp only at later kept ⊢
  split
  · exact ⟨later, by rw [kept, List.append_nil]⟩
  · refine ⟨later, ?_⟩
    rw [ioOutb, reads_append, kept]
    rfl

/-- Reading returns the byte that is read, or 0xFF. -/
theorem ps2Inb_goesOn (s : Ps2)
    : (s.ps2Inb ps2Data).1 = (answer s.inputs).getD 0xFF
      ∧ GoesOn s (s.ps2Inb ps2Data).2 (answer s.inputs).toList
        (behind s.inputs (firstClear ps2StatusOut s.inputs + 1
          + if (answer s.inputs).isSome then 1 else 0)) := by
  obtain ⟨zero, later⟩ := run_poll_inputs ps2StatusOut s
  have kept := reads_run ps2StatusOut s
  rw [ps2Inb, answer]
  generalize Countdown.run (poll ps2StatusOut) 512 s = ended at zero later kept ⊢
  obtain ⟨t, s'⟩ := ended
  dsimp only at zero later kept ⊢
  by_cases last : clearLast ps2StatusOut s.inputs
  · rw [if_pos (zero.mpr last), if_pos last]
    refine ⟨rfl, ?_, ?_⟩
    · rw [Option.isSome_none, if_neg Bool.false_ne_true, Nat.add_zero]
      exact later
    · rw [kept]
      exact (List.append_nil _).symm
  · rw [if_neg (fun empty => last (zero.mp empty)), if_neg last, ioInb, later]
    refine ⟨by simp [behind], ?_, ?_⟩
    · funext n
      simp [behind, Nat.add_assoc, Nat.add_comm 1]
    · rw [reads_append, kept]
      simp [reads, behind]

/-- An attempt reads what the device answers. -/
theorem attempt_goesOn (dev cmd : UInt8) (s : Ps2)
    : (attempt dev cmd s).1 = (answer (commanded dev s.inputs)).getD 0xFF
      ∧ GoesOn s (attempt dev cmd s).2 (answer (commanded dev s.inputs)).toList
        (attempted dev s.inputs) := by
  have chosen : GoesOn s (if dev = 2 then (s.ps2CtrlrCmd ps2CmdPort2In).2 else s) []
      (if dev = 2 then behind s.inputs (firstClear ps2StatusIn s.inputs + 1) else s.inputs) := by
    split
    · exact ps2Outb_goesOn s ps2Cmd ps2CmdPort2In
    · exact ⟨rfl, (List.append_nil _).symm⟩
  rw [attempt, attempted, commanded]
  generalize (if dev = 2 then (s.ps2CtrlrCmd ps2CmdPort2In).2 else s) = s₁ at chosen ⊢
  rw [← chosen.inputs]
  have written := ps2Outb_goesOn s₁ ps2Data cmd
  obtain ⟨result, read⟩ := ps2Inb_goesOn (s₁.ps2Outb ps2Data cmd).2
  rw [written.inputs] at result read
  refine ⟨result, read.inputs, ?_⟩
  rw [read.reads, written.reads, chosen.reads, List.append_nil, List.append_nil]

/-- What the ports return after some attempts, by induction on them. -/
theorem inputs_after (dev cmd : UInt8) (k : Nat) (s : Ps2)
    : (Countdown.after (attemptRound dev cmd) k s).inputs = (attempted dev)^[k] s.inputs := by
  induction k with
  | zero => rfl
  | succ k ih =>
      rw [Countdown.after_succ', Function.iterate_succ_apply', ← ih]
      exact (attempt_goesOn dev cmd _).2.inputs

/-- A round does not go on if the device acknowledges. -/
theorem attemptRound_fst (inputs : Nat → UInt8) (dev cmd : UInt8) (k : Nat)
    : (attemptRound dev cmd (Countdown.after (attemptRound dev cmd) k ⟨inputs, []⟩)).1 = true
      ↔ ¬ Acknowledges inputs dev k := by
  have result := (attempt_goesOn dev cmd
    (Countdown.after (attemptRound dev cmd) k ⟨inputs, []⟩)).1
  rw [inputs_after] at result
  rw [attemptRound, Acknowledges]
  dsimp only
  rw [decide_eq_true_eq, result]
  cases answer (commanded dev ((attempted dev)^[k] inputs)) with
  | none => decide
  | some read => simp

/-- An acknowledgement was read just when one of some attempts was acknowledged, by induction on
them.
-/
theorem mem_reads_after (inputs : Nat → UInt8) (dev cmd : UInt8) (k : Nat)
    : ps2DevAck ∈ reads ps2Data (Countdown.after (attemptRound dev cmd) k ⟨inputs, []⟩).accesses
      ↔ ∃ j < k, Acknowledges inputs dev j := by
  induction k with
  | zero => simp [Countdown.after_zero, reads]
  | succ k ih =>
      have goesOn := (attempt_goesOn dev cmd
        (Countdown.after (attemptRound dev cmd) k ⟨inputs, []⟩)).2
      rw [inputs_after] at goesOn
      have last : (Countdown.after (attemptRound dev cmd) (k + 1) ⟨inputs, []⟩)
          = (attempt dev cmd (Countdown.after (attemptRound dev cmd) k ⟨inputs, []⟩)).2 :=
        Countdown.after_succ' k _
      rw [last, goesOn.reads, List.mem_append, ih, Option.mem_toList, Nat.exists_lt_succ_right]
      rfl

/-- `ps2_dev_cmd` reports as it should just when one of its first 20 attempts is acknowledged. -/
theorem devCmdReports_iff (inputs : Nat → UInt8) (dev cmd : UInt8)
    : DevCmdReports inputs dev cmd ↔ ∃ k < 20, Acknowledges inputs dev k := by
  have read := mem_reads_after inputs dev cmd
  have told := Countdown.run_cases (attemptRound dev cmd) 20 ⟨inputs, []⟩
  simp only [attemptRound_fst, ← Bool.not_eq_true, not_not] at told
  rw [DevCmdReports, ps2DevCmd]
  rcases told with ⟨k, inside, earlier, here, ended⟩ | ⟨never, ended⟩
  · rw [ended]
    dsimp only
    rw [read, iff_false_right (not_not.mpr ⟨k, Nat.lt_succ_self k, here⟩)]
    constructor
    · intro success
      refine ⟨k, ?_, here⟩
      by_contra late
      obtain rfl : k = 20 := by omega
      exact success rfl
    · rintro ⟨j, below, early⟩
      have before : k < 20 := by
        by_contra late
        exact earlier j (by omega) early
      rw [if_pos (by omega)]
      decide
  · rw [ended]
    refine iff_of_false (fun right => ?_) (fun ⟨k, below, early⟩ => never k below.le early)
    have failed := right.mpr (fun member => ?_)
    · dsimp only at failed
      exact absurd failed (by decide)
    · obtain ⟨j, below, early⟩ := (read 21).mp member
      exact never j (Nat.le_of_lt_succ below) early

/-- `ps2_outb` and `ps2_dev_cmd` tell a timeout from a success exactly when the controller, or the
device, answers before their counters reach zero. The two parts are those of the functions: each
runs its polling loop as far as the first answer and compares the counter with what the loop leaves
behind when it gives up.
-/
theorem timeouts_told_iff (inputs : Nat → UInt8) (port : UInt16) (data dev cmd : UInt8)
    : (OutbWrites inputs port data ↔ ∃ i < 512, ¬ Full (inputs i))
      ∧ (DevCmdReports inputs dev cmd ↔ ∃ k < 20, Acknowledges inputs dev k) :=
  ⟨outbWrites_iff inputs port data, devCmdReports_iff inputs dev cmd⟩

/-- No port returns anything but 2. -/
theorem not_acknowledges (k : Nat) : ¬ Acknowledges (fun _ => 2) 1 k := by
  have kept : (attempted 1)^[k] (fun _ => 2) = fun _ => 2 :=
    Function.iterate_fixed rfl k
  rw [Acknowledges, kept, answer]
  split
  · exact fun none => by cases none
  · intro read
    exact absurd (Option.some.inj read) (by decide)

/-- A controller whose input buffer stays full, and a device that never acknowledges. -/
theorem timeouts_not_told
    : ¬ OutbWrites (fun _ => 2) ps2Data 0xF4 ∧ ¬ DevCmdReports (fun _ => 2) 1 0xF4 := by
  have full : (2 : UInt8) &&& ps2StatusIn ≠ 0 := by decide
  constructor
  · rw [outbWrites_iff]
    exact fun ⟨_, _, free⟩ => free full
  · rw [devCmdReports_iff]
    exact fun ⟨k, _, acknowledged⟩ => not_acknowledges k acknowledged

end Ps2

end Hydrangea
