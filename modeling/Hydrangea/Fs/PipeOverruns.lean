import Hydrangea.Fs.Pipe

/-! What is left of the bytes that are written to a ring buffer of `kernel/fs/pipe.c` while nobody
reads it, from `make_rb` on.
-/

namespace Hydrangea

namespace RingBuffer

-----------------------------------------------------------------------------------------
-- The functions
-----------------------------------------------------------------------------------------

/-- `make_rb`; `junk` is what the blocks of `kmalloc` held. -/
def makeRb (junk : RingBuffer) (size : Nat) : RingBuffer :=
  { junk with size, readIndex := 0, writeIndex := 0 }

/-- `rb_read_byte`. Without data it waits until something is written, which is `none`. -/
def rbReadByte (rb : RingBuffer) : Option (UInt8 × RingBuffer) :=
  if rb.validDataSize = 0 then
    none
  else
    let byte := rb.buffer rb.readIndex
    let readIndex := (rb.readIndex + 1) % 2 ^ 8
    let validDataSize := (rb.validDataSize + (2 ^ 32 - 1)) % 2 ^ 32
    some (byte, { rb with readIndex := readIndex % rb.size, validDataSize })

/-- `rb_read`: the bytes that the buffer gets and the ring buffer. -/
def rbRead (rb : RingBuffer) : (size : Nat) → Option (List UInt8 × RingBuffer)
  | 0 => some ([], rb)
  | size + 1 => do
      let (byte, rb) ← rb.rbReadByte
      let (bytes, rb) ← rb.rbRead size
      return (byte :: bytes, rb)

def rbWrite (rb : RingBuffer) (buffer : List UInt8) : RingBuffer :=
  buffer.foldl rbWriteByte rb

/-- The statements of the reader that no interrupt comes between do what `rb_read_byte` does. -/
theorem readerStep_rbReadByte {s : Piped} {byte : UInt8} {rb : RingBuffer}
    (waits : s.pc = .waitForData) (read : s.rb.rbReadByte = some (byte, rb))
    : (s.readerStep.bind Piped.readerStep >>= Piped.readerStep >>= Piped.readerStep
        >>= Piped.readerStep)
      = some { s with pc := .store, byte, rb } := by
  rw [rbReadByte] at read
  split at read
  · cases read
  · next some =>
      obtain ⟨rfl, rfl⟩ := Prod.mk.inj (Option.some.inj read)
      have first : s.readerStep = Option.some { s with pc := .fetch } := by
        rw [Piped.readerStep, waits]
        simp only [if_neg some]
      rw [first]
      rfl

-----------------------------------------------------------------------------------------
-- The property
-----------------------------------------------------------------------------------------

/-- Of the bytes written, reading returns the last ones that fit the size, in order; then the next
read waits, and a byte that is written then ends its waiting.
-/
def KeepsLast (junk : RingBuffer) (size : Nat) (writes : List (List UInt8)) : Prop :=
  let w := writes.flatten
  let n := min w.length size
  ∃ rb, (writes.foldl rbWrite (makeRb junk size)).rbRead n = some (w.drop (w.length - n), rb)
    ∧ rb.rbReadByte = none ∧ ∀ byte, (rb.rbWriteByte byte).rbReadByte.isSome

/-- The number of bytes that the indices, which are of 8 bits, go around. -/
def slots (size : Nat) : Nat :=
  min size (2 ^ 8)

/-- `valid_data_size`, which `make_rb` leaves at `junk`, is right after `n` bytes: it was 0, or it
has been cut down to the size.
-/
def CountRight (junk size n : Nat) : Prop :=
  if size = 2 ^ 32 - 1 then
    (junk + n) % 2 ^ 32 = min n size
  else
    junk = 0 ∨ size < n ∨ (size = n ∧ junk ≠ 2 ^ 32 - 1)

instance (junk size n : Nat) : Decidable (CountRight junk size n) :=
  inferInstanceAs (Decidable (if size = 2 ^ 32 - 1 then _ else _))

/-- The last bytes that fit the size are, one by one, the last ones that went to the slots from the
first one on.
-/
def SlotsRight (size : Nat) (w : List UInt8) : Prop :=
  ∀ i < min w.length size,
    w[w.length - 1 - (w.length - 1 - i) % slots size]? = w[w.length - min w.length size + i]?

instance (size : Nat) (w : List UInt8) : Decidable (SlotsRight size w) :=
  inferInstanceAs (Decidable (∀ i < _, _))

variable {rb junk : RingBuffer} {size n : Nat} {w : List UInt8}

-----------------------------------------------------------------------------------------
-- Indices and counts
-----------------------------------------------------------------------------------------

/-- An index goes around the slots. -/
theorem index_next {i : Nat} (inside : i < slots size)
    : (i + 1) % 2 ^ 8 % size = (i + 1) % slots size := by
  rw [slots] at inside ⊢
  rcases Nat.le_total size (2 ^ 8) with small | large
  · rw [Nat.min_eq_left small] at inside ⊢
    exact Piped.wrap_index inside small
  · rw [Nat.min_eq_right large] at inside ⊢
    rcases Nat.lt_or_eq_of_le large with larger | rfl
    · exact Nat.mod_eq_of_lt (by omega)
    · exact Nat.mod_mod ..

theorem slots_pos (positive : 1 ≤ size)
    : 0 < slots size := by
  rw [slots]
  omega

/-- `++(rb->valid_data_size)`, cut down to the size. -/
def nextCount (size count : Nat) : Nat :=
  if (count + 1) % 2 ^ 32 > size then size else (count + 1) % 2 ^ 32

theorem nextCount_eq_min (size count : Nat)
    : nextCount size count = min ((count + 1) % 2 ^ 32) size := by
  rw [nextCount]
  split <;> omega

/-- The count of a buffer of the largest size is never cut down, by induction on the number of
bytes.
-/
theorem nextCount_largest {count : Nat} (count32 : count < 2 ^ 32)
    : (nextCount (2 ^ 32 - 1))^[n] count = (count + n) % 2 ^ 32 := by
  induction n with
  | zero => exact (Nat.mod_eq_of_lt count32).symm
  | succ n ih =>
      rw [Function.iterate_succ_apply', ih, nextCount_eq_min]
      omega

/-- The count of another buffer, by induction on the number of bytes. -/
theorem nextCount_iterate {count : Nat} (count32 : count < 2 ^ 32) (smaller : size < 2 ^ 32 - 1)
    : (nextCount size)^[n + 1] count
      = if count = 2 ^ 32 - 1 then min n size else min (count + n + 1) size := by
  induction n with
  | zero =>
      rw [Function.iterate_one, nextCount_eq_min]
      split <;> omega
  | succ n ih =>
      rw [Function.iterate_succ_apply', ih, nextCount_eq_min]
      split <;> omega

theorem nextCount_eq_iff {count : Nat} (count32 : count < 2 ^ 32) (positive : 1 ≤ size)
    (size32 : size < 2 ^ 32)
    : (nextCount size)^[n] count = min n size ↔ CountRight count size n := by
  rw [CountRight]
  split
  · next largest =>
      rw [largest, nextCount_largest count32]
  · next smaller =>
      cases n with
      | zero =>
          rw [Function.iterate_zero_apply]
          omega
      | succ n =>
          rw [nextCount_iterate count32 (by omega)]
          split <;> omega

-----------------------------------------------------------------------------------------
-- Writing
-----------------------------------------------------------------------------------------

/-- What the ring buffer is after some bytes: each slot has the last byte that went there. -/
structure Written (junk : RingBuffer) (size : Nat) (w : List UInt8) (rb : RingBuffer) : Prop where
  sized : rb.size = size
  read : rb.readIndex = 0
  write : rb.writeIndex = w.length % slots size
  count : rb.validDataSize = (nextCount size)^[w.length] junk.validDataSize
  bytes : ∀ i < w.length,
    w[w.length - 1 - (w.length - 1 - i) % slots size]? = some (rb.buffer (i % slots size))

/-- A fresh ring buffer. -/
theorem Written.makeRb (junk : RingBuffer) (size : Nat)
    : Written junk size [] (makeRb junk size) :=
  ⟨rfl, rfl, (Nat.zero_mod _).symm, rfl, fun _ below => absurd below (Nat.not_lt_zero _)⟩

theorem Written.rbWriteByte (h : Written junk size w rb) (positive : 1 ≤ size) (byte : UInt8)
    : Written junk size (w ++ [byte]) (rb.rbWriteByte byte) := by
  have length : (w ++ [byte]).length = w.length + 1 := by
    rw [List.length_append, List.length_singleton]
  have inside : w.length % slots size < slots size := Nat.mod_lt _ (slots_pos positive)
  constructor
  · exact h.sized
  · exact h.read
  · rw [length, RingBuffer.rbWriteByte]
    dsimp only
    rw [h.sized, h.write, index_next inside, Nat.mod_add_mod]
  · rw [length, Function.iterate_succ_apply', ← h.count, RingBuffer.rbWriteByte, nextCount]
    dsimp only
    rw [h.sized]
  · intro i below
    rw [length] at below ⊢
    rw [RingBuffer.rbWriteByte, h.write, Nat.add_sub_cancel]
    dsimp only
    by_cases same : i % slots size = w.length % slots size
    · have apart : (w.length - i) % slots size = 0 := Nat.sub_mod_eq_zero_of_mod_eq same.symm
      rw [same, apart, Function.update_self, Nat.sub_zero, List.getElem?_concat_length]
    · have before : i < w.length := by
        rcases Nat.lt_or_eq_of_le (Nat.lt_succ_iff.mp below) with less | rfl
        · exact less
        · exact absurd rfl same
      -- the distance to the end grows by one, and it does not get to a whole round
      have further : (w.length - i) % slots size = (w.length - 1 - i) % slots size + 1 := by
        have apart : (w.length - i) % slots size ≠ 0 := by
          intro whole
          apply same
          have sum : w.length = w.length - i + i := by omega
          rw [sum, Nat.add_mod, whole, Nat.zero_add, Nat.mod_mod]
        have step : w.length - i = w.length - 1 - i + 1 := by omega
        have pos := slots_pos positive
        have below' := Nat.mod_lt (w.length - 1 - i) pos
        rw [step, Nat.add_mod] at apart ⊢
        rcases Nat.lt_or_ge 1 (slots size) with more | one
        · rw [Nat.mod_eq_of_lt more] at apart ⊢
          rcases Nat.lt_or_ge ((w.length - 1 - i) % slots size + 1) (slots size) with fits | full
          · exact Nat.mod_eq_of_lt fits
          · have whole : (w.length - 1 - i) % slots size + 1 = slots size := by omega
            rw [whole, Nat.mod_self] at apart
            exact absurd rfl apart
        · have single : slots size = 1 := by omega
          rw [single, Nat.mod_one] at apart
          exact absurd rfl apart
      have position : w.length - ((w.length - 1 - i) % slots size + 1)
          = w.length - 1 - (w.length - 1 - i) % slots size := by
        omega
      rw [further, position, Function.update_of_ne same, List.getElem?_append_left (by omega)]
      exact h.bytes i before

/-- Some more bytes, by induction on them. -/
theorem Written.rbWrite (h : Written junk size w rb) (positive : 1 ≤ size) (buffer : List UInt8)
    : Written junk size (w ++ buffer) (rb.rbWrite buffer) := by
  induction buffer generalizing w rb with
  | nil => rwa [List.append_nil]
  | cons byte buffer ih =>
      have rest := ih (h.rbWriteByte positive byte)
      rwa [List.append_assoc, List.singleton_append] at rest

/-- Some more calls of `rb_write`, by induction on them. -/
theorem Written.foldl (h : Written junk size w rb) (positive : 1 ≤ size)
    (writes : List (List UInt8))
    : Written junk size (w ++ writes.flatten) (writes.foldl RingBuffer.rbWrite rb) := by
  induction writes generalizing w rb with
  | nil => rwa [List.flatten_nil, List.append_nil]
  | cons buffer writes ih =>
      have rest := ih (h.rbWrite positive buffer)
      rwa [List.append_assoc, ← List.flatten_cons] at rest

-----------------------------------------------------------------------------------------
-- Reading
-----------------------------------------------------------------------------------------

theorem rbReadByte_eq (inside : rb.readIndex < slots rb.size) {count : Nat}
    (some : rb.validDataSize = count + 1) (count32 : rb.validDataSize < 2 ^ 32)
    : rb.rbReadByte
      = Option.some (rb.buffer rb.readIndex,
          { rb with readIndex := (rb.readIndex + 1) % slots rb.size, validDataSize := count }) := by
  have less : (rb.validDataSize + (2 ^ 32 - 1)) % 2 ^ 32 = count := by omega
  rw [rbReadByte, if_neg (by omega)]
  dsimp only
  rw [index_next inside, less]

/-- A read waits exactly when there is no data. -/
theorem rbReadByte_eq_none
    : rb.rbReadByte = none ↔ rb.validDataSize = 0 := by
  rw [rbReadByte]
  split
  · next empty => exact iff_of_true rfl empty
  · next some => exact iff_of_false (fun h => nomatch h) some

/-- Reading no more than there is returns the bytes of the slots, by induction on their number. -/
theorem rbRead_eq (positive : 1 ≤ rb.size) (inside : rb.readIndex < slots rb.size)
    (count32 : rb.validDataSize < 2 ^ 32) (fits : n ≤ rb.validDataSize)
    : rb.rbRead n
      = some (Ring.contents rb.buffer (slots rb.size) rb.readIndex n,
          { rb with
            readIndex := (rb.readIndex + n) % slots rb.size
            validDataSize := rb.validDataSize - n }) := by
  induction n generalizing rb with
  | zero => rw [rbRead, Nat.add_zero, Nat.mod_eq_of_lt inside, Nat.sub_zero]; rfl
  | succ n ih =>
      obtain ⟨count, some⟩ : ∃ count, rb.validDataSize = count + 1 :=
        Nat.exists_eq_add_one.mpr (by omega)
      have next : (rb.readIndex + 1) % slots rb.size < slots rb.size :=
        Nat.mod_lt _ (slots_pos positive)
      have left : count - n = rb.validDataSize - (n + 1) := by omega
      have rest := @ih
        { rb with readIndex := (rb.readIndex + 1) % slots rb.size, validDataSize := count }
        positive next (show count < _ by omega) (show n ≤ count by omega)
      dsimp only at rest
      rw [rbRead, rbReadByte_eq inside some count32]
      simp only [Option.bind_eq_bind, Option.bind_some, rest, Ring.contents_succ, Ring.contents_mod,
        Nat.mod_eq_of_lt inside, Nat.mod_add_mod, left, Nat.add_assoc, Nat.add_comm 1 n]
      rfl

/-- Reading more than there is waits, by induction on the number. -/
theorem rbRead_eq_none (positive : 1 ≤ rb.size) (inside : rb.readIndex < slots rb.size)
    (count32 : rb.validDataSize < 2 ^ 32) (less : rb.validDataSize < n)
    : rb.rbRead n = none := by
  induction n generalizing rb with
  | zero => exact absurd less (Nat.not_lt_zero _)
  | succ n ih =>
      rw [rbRead]
      rcases Nat.eq_zero_or_pos rb.validDataSize with empty | pos
      · rw [rbReadByte_eq_none.mpr empty]
        rfl
      · obtain ⟨count, some⟩ : ∃ count, rb.validDataSize = count + 1 :=
          Nat.exists_eq_add_one.mpr pos
        have rest := @ih
          { rb with readIndex := (rb.readIndex + 1) % slots rb.size, validDataSize := count }
          positive (Nat.mod_lt _ (slots_pos positive)) (show count < _ by omega)
          (show count < n by omega)
        rw [rbReadByte_eq inside some count32]
        simp only [Option.bind_eq_bind, Option.bind_some, rest, Option.bind_none]

-----------------------------------------------------------------------------------------
-- The result
-----------------------------------------------------------------------------------------

/-- What stands in the slots from the first one on. -/
theorem Written.contents_eq_iff (h : Written junk size w rb) {n : Nat} (all : n ≤ w.length)
    : Ring.contents rb.buffer (slots size) 0 n = w.drop (w.length - n)
      ↔ ∀ i < n, w[w.length - 1 - (w.length - 1 - i) % slots size]? = w[w.length - n + i]? := by
  have slot : ∀ i < n, (Ring.contents rb.buffer (slots size) 0 n)[i]?
      = w[w.length - 1 - (w.length - 1 - i) % slots size]? := by
    intro i below
    rw [h.bytes i (by omega), Ring.contents, List.getElem?_map, List.getElem?_range below,
      Option.map_some, Nat.zero_add]
  constructor
  · intro same i below
    rw [← slot i below, same, List.getElem?_drop]
  · intro same
    apply List.ext_getElem?
    intro i
    rw [List.getElem?_drop]
    rcases Nat.lt_or_ge i n with below | beyond
    · rw [slot i below, same i below]
    · rw [List.getElem?_eq_none, List.getElem?_eq_none (by omega)]
      rw [Ring.contents, List.length_map, List.length_range]
      exact beyond

/-- A ring buffer without data that gets a byte has data. -/
theorem rbWriteByte_isSome (positive : 1 ≤ rb.size) (empty : rb.validDataSize = 0) (byte : UInt8)
    : (rb.rbWriteByte byte).rbReadByte.isSome := by
  rw [Option.isSome_iff_ne_none]
  intro waits
  have none := rbReadByte_eq_none.mp waits
  simp only [rbWriteByte, empty] at none
  split at none <;> omega

/-- A fresh ring buffer keeps the last bytes written exactly when the count is right then and the
bytes in the slots from the first one on are these. The counter stops at the size but the read
index does not move with it: the bytes left are read from the first slot on, whatever has been
written over them.
-/
theorem keepsLast_iff (positive : 1 ≤ size) (size32 : size < 2 ^ 32)
    (junk32 : junk.validDataSize < 2 ^ 32) (writes : List (List UInt8))
    : KeepsLast junk size writes
      ↔ CountRight junk.validDataSize size writes.flatten.length
        ∧ SlotsRight size writes.flatten := by
  have h := (Written.makeRb junk size).foldl positive writes
  rw [List.nil_append] at h
  rw [KeepsLast, SlotsRight]
  generalize writes.flatten = w at h ⊢
  generalize writes.foldl rbWrite (makeRb junk size) = rb at h ⊢
  have counted := nextCount_eq_iff (n := w.length) junk32 positive size32
  have sized := h.sized
  have read := h.read
  rw [← h.count] at counted
  rw [← counted, ← h.contents_eq_iff (Nat.min_le_left ..)]
  have count32 : rb.validDataSize < 2 ^ 32 := by
    rw [h.count]
    cases w with
    | nil => exact junk32
    | cons byte w =>
        rw [List.length_cons, Function.iterate_succ_apply', nextCount]
        split <;> omega
  have pos := slots_pos positive
  have inside : rb.readIndex < slots rb.size := by rwa [sized, read]
  subst sized
  constructor
  · rintro ⟨rb', returned, empty, -⟩
    by_cases fits : min w.length rb.size ≤ rb.validDataSize
    · rw [rbRead_eq positive inside count32 fits, read] at returned
      obtain ⟨bytes, rfl⟩ := Prod.mk.inj (Option.some.inj returned)
      have left : rb.validDataSize - min w.length rb.size = 0 := rbReadByte_eq_none.mp empty
      exact ⟨by omega, bytes⟩
    · rw [rbRead_eq_none positive inside count32 (Nat.not_le.mp fits)] at returned
      cases returned
  · rintro ⟨count, bytes⟩
    have empty : rb.validDataSize - min w.length rb.size = 0 := by omega
    let rb' : RingBuffer :=
      { rb with
        readIndex := (0 + min w.length rb.size) % slots rb.size
        validDataSize := rb.validDataSize - min w.length rb.size }
    refine ⟨rb', ?_, rbReadByte_eq_none.mpr empty, rbWriteByte_isSome positive empty⟩
    rw [rbRead_eq positive inside count32 (by omega), read, bytes]

def zeros : RingBuffer :=
  { buffer := fun _ => 0, readIndex := 0, writeIndex := 0, size := 0, validDataSize := 0 }

/-- Two bytes in a buffer of two. -/
theorem keepsLast_two
    : KeepsLast zeros 2 [[1], [2]] :=
  (keepsLast_iff (by decide) (by decide) (by decide) [[1], [2]]).mpr (by decide)

/-- Of three bytes, a buffer of two returns the last one first. -/
theorem not_keepsLast_three
    : ¬ KeepsLast zeros 2 [[1, 2, 3]] := by
  rintro ⟨rb, returned, -⟩
  have first : ((([[1, 2, 3]].foldl rbWrite (makeRb zeros 2)).rbRead 2).map Prod.fst)
      = some [3, 2] := by
    decide
  change ([[1, 2, 3]].foldl rbWrite (makeRb zeros 2)).rbRead 2 = some ([2, 3], rb) at returned
  rw [returned, Option.map_some] at first
  have order : ([2, 3] : List UInt8) = [3, 2] := Option.some.inj first
  exact absurd order (by decide)

end RingBuffer

end Hydrangea
