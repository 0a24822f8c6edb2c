import Hydrangea.Lib.Ring
import Hydrangea.Lib.Transition

/-! The ring buffers of `kernel/fs/pipe.c` between one reader, which runs statement by
statement, and the keyboard interrupt, which writes a byte between two of its statements.
-/

namespace Hydrangea

/-- `ring_buffer_t`. The indices are of type `uint8_t`. -/
structure RingBuffer where
  buffer : Nat → UInt8
  readIndex : Nat
  writeIndex : Nat
  size : Nat
  validDataSize : Nat

def RingBuffer.rbWriteByte (rb : RingBuffer) (byte : UInt8) : RingBuffer :=
  let buffer := Function.update rb.buffer rb.writeIndex byte
  let writeIndex := (rb.writeIndex + 1) % 2 ^ 8
  let validDataSize := (rb.validDataSize + 1) % 2 ^ 32
  { rb with
    buffer
    writeIndex := writeIndex % rb.size
    validDataSize := if validDataSize > rb.size then rb.size else validDataSize }

/-- The statement that the reader executes next: none outside `rb_read`, the test of its loop,
the statements of `rb_read_byte`, and the store of the byte that this returns.
-/
inductive ReaderPc where
  | outside
  | test
  | waitForData
  | fetch
  | advance
  | count
  | wrap
  | store
  deriving DecidableEq

/-- The ring buffer, the reader with its variables `i`, `size` and `byte`, the bytes that
`rb_read_byte` returned to it, and the bytes written, both in order.
-/
structure Piped where
  rb : RingBuffer
  pc : ReaderPc
  i : Nat
  size : Nat
  byte : UInt8
  returned : List UInt8
  written : List UInt8

namespace Piped

def rbRead (s : Piped) (size : Nat) : Option Piped :=
  if s.pc = .outside then
    if size = 0 then some s else some { s with pc := .test, i := 0, size }
  else
    none

/-- One statement of `rb_read` and `rb_read_byte`. -/
def readerStep (s : Piped) : Option Piped :=
  match s.pc with
  | .outside => none
  | .test => some { s with pc := if s.i < s.size then .waitForData else .outside }
  | .waitForData => some { s with pc := if s.rb.validDataSize = 0 then .waitForData else .fetch }
  | .fetch => some { s with pc := .advance, byte := s.rb.buffer s.rb.readIndex }
  | .advance =>
      some { s with pc := .count, rb.readIndex := (s.rb.readIndex + 1) % 2 ^ 8 }
  | .count =>
      some
        { s with
          pc := .wrap
          rb.validDataSize := (s.rb.validDataSize + (2 ^ 32 - 1)) % 2 ^ 32 }
  | .wrap => some { s with pc := .store, rb.readIndex := s.rb.readIndex % s.rb.size }
  | .store =>
      some
        { s with pc := .test, i := (s.i + 1) % 2 ^ 32, returned := s.returned ++ [s.byte] }

/-- A write by the interrupt handler. It happens while the buffer is not full. -/
def rbWrite (s : Piped) (byte : UInt8) : Option Piped :=
  if s.rb.validDataSize < s.rb.size then
    some { s with rb := s.rb.rbWriteByte byte, written := s.written ++ [byte] }
  else
    none

/-- What happens next. -/
inductive Event where
  | rbRead (size : Nat)
  | statement
  | rbWrite (byte : UInt8)

def step (s : Piped) : Event → Option Piped
  | .rbRead size => s.rbRead size
  | .statement => s.readerStep
  | .rbWrite byte => s.rbWrite byte

def system (size : Nat) : TransitionSystem Piped Event where
  init s :=
    s.rb.size = size ∧ s.rb.readIndex = 0 ∧ s.rb.writeIndex = 0 ∧ s.rb.validDataSize = 0
      ∧ s.pc = .outside ∧ s.returned = [] ∧ s.written = []
  step s event s' := s.step event = some s'

/-- The read index has been incremented and not yet taken modulo the size. -/
def Incremented (s : Piped) : Prop :=
  s.pc = .count ∨ s.pc = .wrap

instance (s : Piped) : Decidable s.Incremented :=
  inferInstanceAs (Decidable (_ ∨ _))

/-- The number of bytes from the read index on that the reader has not taken. -/
def ahead (s : Piped) : Nat :=
  if s.pc = .count then s.rb.validDataSize - 1 else s.rb.validDataSize

def waiting (s : Piped) : List UInt8 :=
  Ring.contents s.rb.buffer s.rb.size s.rb.readIndex s.ahead

/-- The byte that the reader has taken and not yet returned. -/
def inHand (s : Piped) : List UInt8 :=
  if s.pc = .count ∨ s.pc = .wrap ∨ s.pc = .store then [s.byte] else []

/-- What holds between any two statements of the reader. -/
structure Fifo (size : Nat) (s : Piped) : Prop where
  sized : s.rb.size = size
  bytes : s.written = s.returned ++ s.inHand ++ s.waiting
  valid : s.rb.validDataSize ≤ size
  read : ¬ s.Incremented → s.rb.readIndex < size
  incremented : s.Incremented → s.rb.readIndex = 0 ∧ size = 2 ^ 8
    ∨ 0 < s.rb.readIndex ∧ s.rb.readIndex ≤ size
  write : s.rb.writeIndex = (s.rb.readIndex + s.ahead) % size
  data : s.pc = .fetch ∨ s.pc = .advance ∨ s.pc = .count → 0 < s.rb.validDataSize
  fetched : s.pc = .advance → s.byte = s.rb.buffer s.rb.readIndex

variable {size : Nat} {s : Piped}

/-- An index of at most 8 bits that wraps around at 256 is still right modulo the size. -/
theorem wrap_index {i : Nat} (inside : i < size) (small : size ≤ 2 ^ 8)
    : (i + 1) % 2 ^ 8 % size = (i + 1) % size := by
  rcases Nat.lt_or_ge (i + 1) (2 ^ 8) with below | full
  · rw [Nat.mod_eq_of_lt below]
  · obtain rfl : size = 2 ^ 8 := by omega
    rw [Nat.mod_mod]

/-- There is room for another byte when the counter says so. -/
theorem Fifo.ahead_lt (h : s.Fifo size) (room : s.rb.validDataSize < s.rb.size)
    : s.ahead < size := by
  have same := h.sized
  rw [ahead]
  split <;> omega

theorem Fifo.write_lt (h : s.Fifo size) (positive : 1 ≤ size) : s.rb.writeIndex < size := by
  rw [h.write]
  exact Nat.mod_lt _ positive

/-- A write keeps the invariant wherever the reader stands. The byte goes to the slot behind the
ones that wait. That is none the reader is about to fetch from, as there is room.
-/
theorem Fifo.rbWrite {s' : Piped} {byte : UInt8} (h : s.Fifo size) (positive : 1 ≤ size)
    (small : size ≤ 2 ^ 8) (written : s.rbWrite byte = some s')
    : s'.Fifo size := by
  obtain ⟨room, result⟩ := Option.ite_none_right_eq_some.mp written
  obtain rfl := Option.some.inj result
  have inside := h.ahead_lt room
  have same := h.sized
  have count : (s.rb.rbWriteByte byte).validDataSize = s.rb.validDataSize + 1 := by
    simp only [RingBuffer.rbWriteByte]
    rw [Nat.mod_eq_of_lt (by omega), if_neg (by omega)]
  have more : ahead
      { s with rb := s.rb.rbWriteByte byte, written := s.written ++ [byte] } = s.ahead + 1 := by
    have data := h.data
    simp only [ahead, count]
    split
    next at' =>
      have := data (.inr (.inr at'))
      omega
    next => rfl
  have index : (s.rb.rbWriteByte byte).writeIndex = (s.rb.writeIndex + 1) % size := by
    simp only [RingBuffer.rbWriteByte, same]
    exact wrap_index (h.write_lt positive) small
  refine ⟨same, ?_, ?_, h.read, h.incremented, ?_, ?_, ?_⟩
  · have waits : waiting
        { s with rb := s.rb.rbWriteByte byte, written := s.written ++ [byte] }
        = s.waiting ++ [byte] := by
      rw [waiting, more, waiting, same]
      simp only [RingBuffer.rbWriteByte, same, h.write]
      exact Ring.contents_push inside byte
    show s.written ++ [byte] = s.returned ++ s.inHand ++ _
    rw [waits, h.bytes]
    simp only [List.append_assoc]
  · simp only [count]
    omega
  · rw [more]
    simp only [index, h.write, Nat.mod_add_mod]
    rfl
  · intro _
    simp only [count]
    exact Nat.succ_pos _
  · intro (at' : s.pc = .advance)
    have data := h.data (.inr (.inl at'))
    have notIncremented : ¬ s.Incremented := by
      simp [Incremented, at']
    have other : s.rb.readIndex ≠ s.rb.writeIndex := by
      have here : s.ahead = s.rb.validDataSize := by
        simp [ahead, at']
      have apart := Ring.slot_ne s.rb.readIndex (here ▸ data) inside
      rw [h.write]
      rwa [Nat.add_zero, Nat.mod_eq_of_lt (h.read notIncremented)] at apart
    show s.byte = Function.update s.rb.buffer s.rb.writeIndex byte s.rb.readIndex
    rw [Function.update_of_ne other]
    exact h.fetched at'

/-- The reader holds no byte and has not moved on in the buffer. -/
def Settled (pc : ReaderPc) : Prop :=
  pc ≠ .advance ∧ pc ≠ .count ∧ pc ≠ .wrap ∧ pc ≠ .store

instance (pc : ReaderPc) : Decidable (Settled pc) :=
  inferInstanceAs (Decidable (_ ∧ _))

theorem Settled.facts (settled : Settled s.pc)
    : ¬ s.Incremented ∧ s.inHand = [] ∧ s.ahead = s.rb.validDataSize := by
  obtain ⟨-, notCount, notWrap, notStore⟩ := settled
  simp only [Incremented, inHand, ahead, notCount, notWrap, notStore, or_self, if_false,
    not_false_eq_true, and_self]

/-- Going on without touching the ring buffer keeps the invariant. -/
theorem Fifo.goOn (h : s.Fifo size) (settled : Settled s.pc) (pc : ReaderPc)
    (settled' : Settled pc) (data : pc = .fetch → 0 < s.rb.validDataSize) (i want : Nat)
    : Fifo size { s with pc, i, size := want } := by
  obtain ⟨still, free, all⟩ := settled.facts
  obtain ⟨still', free', all'⟩ :=
    Settled.facts (s := { s with pc, i, size := want }) settled'
  have bytes := h.bytes
  have write := h.write
  rw [free, waiting, all] at bytes
  rw [all] at write
  refine ⟨h.sized, ?_, h.valid, fun _ => h.read still, fun now => absurd now still', ?_, ?_, ?_⟩
  · rw [free', waiting, all']
    exact bytes
  · rw [all']
    exact write
  · intro now
    rcases now with fetching | advancing | counting
    · exact data fetching
    · exact absurd advancing settled'.1
    · exact absurd counting settled'.2.1
  · intro advancing
    exact absurd advancing settled'.1

/-- `byte = rb->buffer[rb->read_index];` -/
theorem Fifo.fetch (h : s.Fifo size) (now : s.pc = .fetch)
    : Fifo size { s with pc := .advance, byte := s.rb.buffer s.rb.readIndex } := by
  have settled : Settled s.pc := by
    rw [now]
    decide
  obtain ⟨still, free, all⟩ := settled.facts
  have bytes := h.bytes
  have write := h.write
  rw [free, waiting, all] at bytes
  rw [all] at write
  refine ⟨h.sized, bytes, h.valid, fun _ => h.read still, ?_, write, fun _ => ?_, fun _ => rfl⟩
  · intro later
    rcases later with later | later <;> cases later
  · exact h.data (.inl now)

/-- `++(rb->read_index);` -/
theorem Fifo.advance (h : s.Fifo size) (small : size ≤ 2 ^ 8) (now : s.pc = .advance)
    : Fifo size { s with pc := .count, rb.readIndex := (s.rb.readIndex + 1) % 2 ^ 8 } := by
  have data := h.data (.inr (.inl now))
  have still : ¬ s.Incremented := by
    simp [Incremented, now]
  have inside := h.read still
  have bytes := h.bytes
  have write := h.write
  have all : s.ahead = s.rb.validDataSize - 1 + 1 := by
    simp only [ahead, now, reduceCtorEq, if_false]
    omega
  have free : s.inHand = [] := by
    simp [inHand, now]
  rw [free, waiting, all, Ring.contents_succ, h.sized, Nat.mod_eq_of_lt inside,
    ← h.fetched now] at bytes
  rw [all] at write
  have next := wrap_index inside small
  refine ⟨h.sized, ?_, h.valid, ?_, ?_, ?_, fun _ => data, ?_⟩
  · show s.written = s.returned ++ [s.byte] ++ Ring.contents s.rb.buffer s.rb.size
      ((s.rb.readIndex + 1) % 2 ^ 8) (s.rb.validDataSize - 1)
    rw [h.sized, ← Ring.contents_mod s.rb.buffer size ((s.rb.readIndex + 1) % 2 ^ 8), next,
      Ring.contents_mod, bytes]
    simp only [List.append_nil, List.append_assoc, List.singleton_append]
  · intro settled
    exact absurd (.inl rfl) settled
  · intro _
    show (s.rb.readIndex + 1) % 2 ^ 8 = 0 ∧ size = 2 ^ 8
      ∨ 0 < (s.rb.readIndex + 1) % 2 ^ 8 ∧ (s.rb.readIndex + 1) % 2 ^ 8 ≤ size
    omega
  · show s.rb.writeIndex = ((s.rb.readIndex + 1) % 2 ^ 8 + (s.rb.validDataSize - 1)) % size
    rw [← Nat.mod_add_mod, next, Nat.mod_add_mod, write]
    congr 1
    omega
  · intro again
    cases again

/-- `--(rb->valid_data_size);` -/
theorem Fifo.count (h : s.Fifo size) (small : size ≤ 2 ^ 8) (now : s.pc = .count)
    : Fifo size
        { s with
          pc := .wrap
          rb.validDataSize := (s.rb.validDataSize + (2 ^ 32 - 1)) % 2 ^ 32 } := by
  have data := h.data (.inr (.inr now))
  have valid := h.valid
  have less : (s.rb.validDataSize + (2 ^ 32 - 1)) % 2 ^ 32 = s.rb.validDataSize - 1 := by omega
  have bytes := h.bytes
  have write := h.write
  have all : s.ahead = s.rb.validDataSize - 1 := by
    simp only [ahead, now, if_true]
  have held : s.inHand = [s.byte] := by
    simp [inHand, now]
  rw [held, waiting, all] at bytes
  rw [all] at write
  rw [less]
  refine ⟨h.sized, bytes, ?_, ?_, fun _ => h.incremented (.inl now), write, ?_, ?_⟩
  · show s.rb.validDataSize - 1 ≤ size
    omega
  · intro settled
    exact absurd (.inr rfl) settled
  · intro again
    rcases again with again | again | again <;> cases again
  · intro again
    cases again

/-- `rb->read_index %= rb->size;` -/
theorem Fifo.wrap (h : s.Fifo size) (positive : 1 ≤ size) (now : s.pc = .wrap)
    : Fifo size { s with pc := .store, rb.readIndex := s.rb.readIndex % s.rb.size } := by
  have bytes := h.bytes
  have write := h.write
  have all : s.ahead = s.rb.validDataSize := by
    simp [ahead, now]
  have held : s.inHand = [s.byte] := by
    simp [inHand, now]
  rw [held, waiting, all] at bytes
  rw [all] at write
  have sized := h.sized
  refine ⟨sized, ?_, h.valid, fun _ => ?_, ?_, ?_, ?_, ?_⟩
  · show s.written = s.returned ++ [s.byte] ++ Ring.contents s.rb.buffer s.rb.size
      (s.rb.readIndex % s.rb.size) s.rb.validDataSize
    rw [Ring.contents_mod]
    exact bytes
  · show s.rb.readIndex % s.rb.size < size
    rw [sized]
    exact Nat.mod_lt _ positive
  · intro again
    rcases again with again | again <;> cases again
  · show s.rb.writeIndex = (s.rb.readIndex % s.rb.size + s.rb.validDataSize) % size
    rw [sized, Nat.mod_add_mod]
    exact write
  · intro again
    rcases again with again | again | again <;> cases again
  · intro again
    cases again

/-- `buffer[i] = rb_read_byte(rb); i++` -/
theorem Fifo.store (h : s.Fifo size) (now : s.pc = .store) (i : Nat)
    : Fifo size { s with pc := .test, i, returned := s.returned ++ [s.byte] } := by
  have bytes := h.bytes
  have write := h.write
  have still : ¬ s.Incremented := by
    simp [Incremented, now]
  have all : s.ahead = s.rb.validDataSize := by
    simp [ahead, now]
  have held : s.inHand = [s.byte] := by
    simp [inHand, now]
  rw [held, waiting, all] at bytes
  rw [all] at write
  refine ⟨h.sized, ?_, h.valid, fun _ => h.read still, ?_, write, ?_, ?_⟩
  · show s.written = s.returned ++ [s.byte] ++ [] ++ Ring.contents s.rb.buffer s.rb.size
      s.rb.readIndex s.rb.validDataSize
    rw [List.append_nil]
    exact bytes
  · intro again
    rcases again with again | again <;> cases again
  · intro again
    rcases again with again | again | again <;> cases again
  · intro again
    cases again

/-- Every statement of the reader keeps the invariant. -/
theorem Fifo.readerStep {s' : Piped} (h : s.Fifo size) (positive : 1 ≤ size)
    (small : size ≤ 2 ^ 8) (taken : s.readerStep = some s')
    : s'.Fifo size := by
  cases now : s.pc <;> rw [Piped.readerStep, now] at taken
  case outside => cases taken
  all_goals obtain rfl := Option.some.inj taken
  case test =>
    have settled : Settled s.pc := by
      rw [now]
      decide
    by_cases more : s.i < s.size
    · rw [if_pos more]
      exact h.goOn settled .waitForData (by decide) (fun other => nomatch other) s.i s.size
    · rw [if_neg more]
      exact h.goOn settled .outside (by decide) (fun other => nomatch other) s.i s.size
  case waitForData =>
    have settled : Settled s.pc := by
      rw [now]
      decide
    by_cases empty : s.rb.validDataSize = 0
    · rw [if_pos empty]
      exact h.goOn settled .waitForData (by decide) (fun other => nomatch other) s.i s.size
    · rw [if_neg empty]
      exact h.goOn settled .fetch (by decide) (fun _ => Nat.pos_of_ne_zero empty) s.i s.size
  case fetch => exact h.fetch now
  case advance => exact h.advance small now
  case count => exact h.count small now
  case wrap => exact h.wrap positive now
  case store => exact h.store now _

/-- A call of `rb_read` keeps it as well. -/
theorem Fifo.rbRead {s' : Piped} {want : Nat} (h : s.Fifo size)
    (called : s.rbRead want = some s')
    : s'.Fifo size := by
  obtain ⟨out, result⟩ := Option.ite_none_right_eq_some.mp called
  split at result
  next =>
    obtain rfl := Option.some.inj result
    exact h
  next =>
    obtain rfl := Option.some.inj result
    have settled : Settled s.pc := by
      rw [out]
      decide
    exact h.goOn settled .test (by decide) (fun other => nomatch other) 0 want

/-- The invariant holds in every state of every run, by induction on the run. -/
theorem Fifo.reachable (positive : 1 ≤ size) (small : size ≤ 2 ^ 8)
    (reached : (system size).Reachable s)
    : s.Fifo size := by
  refine reached.invariant ?_ ?_
  · intro s start
    obtain ⟨sized, read, write, valid, out, returned, written⟩ := start
    have settled : Settled s.pc := by
      rw [out]
      decide
    obtain ⟨still, free, all⟩ := settled.facts
    refine ⟨sized, ?_, ?_, fun _ => ?_, fun now => absurd now still, ?_, ?_, ?_⟩
    · rw [written, returned, free, waiting, all, valid]
      rfl
    · rw [valid]
      exact Nat.zero_le size
    · rw [read]
      exact positive
    · rw [write, read, all, valid, Nat.zero_mod]
    · rw [out]
      intro now
      rcases now with now | now | now <;> cases now
    · rw [out]
      intro now
      cases now
  · intro s event s' fifo taken
    cases event with
    | rbRead want => exact fifo.rbRead taken
    | statement => exact fifo.readerStep positive small taken
    | rbWrite byte => exact fifo.rbWrite positive small taken

/-- In every run the bytes returned are a prefix of the bytes written, and the rest of these is the
byte in hand and the bytes waiting in the buffer. The indices are in the buffer, the read index
except between its increment and the modulo. The invariant `Fifo` relates the slots between the
indices to the bytes not read yet; each statement of the reader and each write keeps it, in any
order.
-/
theorem run_fifo (positive : 1 ≤ size) (small : size ≤ 2 ^ 8)
    {steps : List (Piped × Event)} (run : (system size).Run s steps)
    : s.returned <+: s.written
      ∧ s.written = s.returned ++ s.inHand ++ s.waiting
      ∧ s.rb.writeIndex < size
      ∧ (¬ s.Incremented → s.rb.readIndex < size) := by
  have fifo := Fifo.reachable positive small run.reachable
  refine ⟨?_, fifo.bytes, fifo.write_lt positive, fifo.read⟩
  rw [fifo.bytes, List.append_assoc]
  exact List.prefix_append ..

def emptyPair : Piped where
  rb := ⟨fun _ => 0, 0, 0, 2, 0⟩
  pc := .outside
  i := 0
  size := 0
  byte := 0
  returned := []
  written := []

/-- A read of two bytes, latest event first. Two bytes are written before it gets the first one,
and a third one between the decrement of the counter and the modulo.
-/
def crowded : List Event :=
  [.statement, .statement, .rbWrite 3, .statement, .statement, .statement, .statement,
    .rbWrite 2, .rbWrite 1, .statement, .statement, .rbRead 2]

/-- Then the first byte is returned, and the other two wait. -/
theorem run_fifo_crowded
    : ∃ s steps, TransitionSystem.play step emptyPair crowded = some (s, steps)
        ∧ s.returned = [1] ∧ s.written = [1, 2, 3] ∧ s.returned <+: s.written := by
  have returns : (TransitionSystem.play step emptyPair crowded).isSome = true := by
    decide +kernel
  obtain ⟨⟨s, steps⟩, played⟩ := Option.isSome_iff_exists.mp returns
  have sound (s : Piped) (event : Event) (s' : Piped) (_ : True)
      (taken : s.step event = some s')
      : (system 2).step s event s' ∧ True :=
    ⟨taken, trivial⟩
  have run := (TransitionSystem.Run.of_play sound ⟨rfl, rfl, rfl, rfl, rfl, rfl, rfl⟩ trivial
    played).1
  have facts : ∀ r ∈ TransitionSystem.play step emptyPair crowded,
      r.1.returned = [1] ∧ r.1.written = [1, 2, 3] := by
    decide +kernel
  obtain ⟨returned, written⟩ := facts _ played
  exact ⟨s, steps, played, returned, written, (run_fifo (by decide) (by decide) run).1⟩

end Piped

end Hydrangea
