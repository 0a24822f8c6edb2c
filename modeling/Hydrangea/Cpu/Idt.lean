import Hydrangea.Cpu.Gdt
import Hydrangea.Lib.X86Rings

/-! The interrupt descriptor table of `kernel/cpu/idt.c`, and the stubs behind its gates in
`kernel/cpu/isr_as.s` and `kernel/cpu/irq_as.s`.
-/

namespace Hydrangea

open X86

def iGatetypeInt32 : BitVec 8 := 0xE
def iGatetypeTrap32 : BitVec 8 := 0xF
def iDpl (r : BitVec 8) : BitVec 8 := r <<< 5
def iPresent : BitVec 8 := 1 <<< 7

structure IdtEntry where
  baseLo : BitVec 16
  segsel : BitVec 16
  zero : BitVec 8
  flags : BitVec 8
  baseHi : BitVec 16

/-- The eight bytes of an entry, the first one lowest. -/
def IdtEntry.bits (e : IdtEntry) : BitVec 64 :=
  e.baseHi ++ (e.flags ++ (e.zero ++ (e.segsel ++ e.baseLo)))

/-- The entries of `idt_entries`, by their index. -/
abbrev IdtEntries := BitVec 8 → IdtEntry

/-- What `idt_set_entry` writes. -/
def idtEntry (base : BitVec 32) (segsel : BitVec 16) (flags : BitVec 8) : IdtEntry where
  baseLo := (base &&& 0xFFFF).setWidth 16
  baseHi := ((base >>> 16) &&& 0xFFFF).setWidth 16
  segsel := segsel
  zero := 0
  flags := flags

def idtSetEntry (entries : IdtEntries) (index : BitVec 8) (base : BitVec 32) (segsel : BitVec 16)
    (flags : BitVec 8)
    : IdtEntries :=
  Function.update entries index (idtEntry base segsel flags)

/-- `idt_entries` behind the `memset` in `idt_init`. -/
def noIdtEntries : IdtEntries :=
  fun _ => { baseLo := 0, segsel := 0, zero := 0, flags := 0, baseHi := 0 }

/-- The stubs: `isr0` to `isr32`, and `irq0` to `irq15`. -/
inductive Stub where
  | isr (num : Nat)
  | irq (num : Nat)
  deriving DecidableEq

def idtSetStubs (address : Stub → BitVec 32) (flags : BitVec 8)
    (stubs : List (BitVec 8 × Stub)) (entries : IdtEntries)
    : IdtEntries :=
  stubs.foldl (fun entries gate => idtSetEntry entries gate.1 (address gate.2) 0x08 flags) entries

/-- The part of `idt_init` that fills `idt_entries`, where the stubs are at some addresses. -/
def idtInit (address : Stub → BitVec 32) : IdtEntries :=
  let entries := noIdtEntries
  let entries := idtSetStubs address (iPresent ||| iGatetypeInt32)
    ((List.range 32).map (fun k => (BitVec.ofNat 8 k, .isr k))) entries
  let entries := idtSetStubs address (iPresent ||| iGatetypeInt32)
    ((List.range 16).map (fun k => (BitVec.ofNat 8 (k + 32), .irq k))) entries
  idtSetEntry entries 128 (address (.isr 32)) 0x08 (iPresent ||| iDpl 3 ||| iGatetypeTrap32)

def stubOf (vector : Nat) : Option Stub :=
  if vector < 32 then some (.isr vector)
  else if vector < 48 then some (.irq (vector - 32))
  else if vector = 128 then some (.isr 32)
  else none

section

variable (base : BitVec 32) (segsel : BitVec 16) (flags : BitVec 8)

theorem idtEntry_baseLo : (idtEntry base segsel flags).baseLo = base.extractLsb' 0 16 := by
  rw [← setWidth_shiftRight_and base 0xFFFF (by decide), BitVec.ushiftRight_zero]
  rfl

theorem idtEntry_baseHi : (idtEntry base segsel flags).baseHi = base.extractLsb' 16 16 := by
  rw [← setWidth_and_shiftRight base 0xFFFF (by decide)]
  rfl

theorem IdtEntry.extract_flags (e : IdtEntry) (start len : Nat) (inside : start + len ≤ 8)
    : e.bits.extractLsb' (40 + start) len = e.flags.extractLsb' start len := by
  rw [bits, BitVec.extractLsb'_append_eq_of_add_le (by omega),
    BitVec.extractLsb'_append_eq_of_le (by omega),
    show 40 + start - (8 + (16 + 16)) = start by omega]

/-- The processor reads back the address and the selector that `idt_set_entry` is given, and the
kind, the ring and the presence in its flags.
-/
theorem decode_idtEntry
    : Gate.decode (idtEntry base segsel flags).bits
      = { offset := base
          selector := segsel
          kind := GateKind.ofType (flags.extractLsb' 0 5)
          dpl := flags.extractLsb' 5 2
          present := flags.getLsbD 7 } := by
  have high : (idtEntry base segsel flags).bits.extractLsb' 48 16 = base.extractLsb' 16 16 :=
    BitVec.extractLsb'_append_eq_left.trans (idtEntry_baseHi base segsel flags)
  have low : (idtEntry base segsel flags).bits.extractLsb' 0 16 = base.extractLsb' 0 16 := by
    rw [IdtEntry.bits, BitVec.extractLsb'_append_eq_of_add_le (by decide),
      BitVec.extractLsb'_append_eq_of_add_le (by decide),
      BitVec.extractLsb'_append_eq_of_add_le (by decide), idtEntry_baseLo]
    exact BitVec.extractLsb'_append_eq_right
  have middle : (idtEntry base segsel flags).bits.extractLsb' 16 16 = segsel := by
    rw [IdtEntry.bits, BitVec.extractLsb'_append_eq_of_add_le (by decide),
      BitVec.extractLsb'_append_eq_of_add_le (by decide),
      BitVec.extractLsb'_append_eq_of_add_le (by decide)]
    exact BitVec.extractLsb'_append_eq_left
  have offset : (idtEntry base segsel flags).bits.extractLsb' 48 16
      ++ (idtEntry base segsel flags).bits.extractLsb' 0 16 = base := by
    rw [high, low, BitVec.extractLsb'_append_extractLsb'_eq_extractLsb' (by rfl)]
    exact BitVec.extractLsb'_eq_self
  have present : (idtEntry base segsel flags).bits.getLsbD 47 = flags.getLsbD 7 := by
    have same := congrArg (fun b => b.getLsbD 0)
      (IdtEntry.extract_flags (idtEntry base segsel flags) 7 1 (by decide))
    simpa [idtEntry] using same
  rw [Gate.decode]
  congr 1
  · exact congrArg GateKind.ofType (IdtEntry.extract_flags _ 0 5 (by decide))
  · exact IdtEntry.extract_flags _ 5 2 (by decide)

end

/-- The gates of stubs with consecutive vectors, by induction on their number. -/
theorem idtSetStubs_range (address : Stub → BitVec 32) (flags : BitVec 8) (stub : Nat → Stub)
    (start n : Nat) (inside : start + n ≤ 256) (entries : IdtEntries) (vector : BitVec 8)
    : idtSetStubs address flags
        ((List.range n).map (fun k => (BitVec.ofNat 8 (k + start), stub k))) entries vector
      = if start ≤ vector.toNat ∧ vector.toNat < start + n then
          idtEntry (address (stub (vector.toNat - start))) 0x08 flags
        else entries vector := by
  induction n with
  | zero =>
      rw [if_neg (by omega)]
      rfl
  | succ n ih =>
      rw [idtSetStubs, List.range_succ, List.map_append, List.foldl_append]
      simp only [List.map_cons, List.map_nil, List.foldl_cons, List.foldl_nil]
      by_cases last : vector = BitVec.ofNat 8 (n + start)
      · have place : vector.toNat = n + start := by
          rw [last, BitVec.toNat_ofNat]
          exact Nat.mod_eq_of_lt (by omega)
        rw [idtSetEntry, if_pos (by omega), ← last, Function.update_self, place,
          Nat.add_sub_cancel]
      · have ne : vector.toNat ≠ n + start := by
          intro same
          exact last (BitVec.eq_of_toNat_eq (by
            rw [same, BitVec.toNat_ofNat, Nat.mod_eq_of_lt (by omega)]))
        rw [idtSetEntry, Function.update_of_ne last]
        refine (ih (by omega)).trans ?_
        by_cases before : start ≤ vector.toNat ∧ vector.toNat < start + n
        · rw [if_pos before, if_pos (by omega)]
        · rw [if_neg before, if_neg (by omega)]

/-- What `idt_init` leaves at a vector: the gate of its stub. -/
theorem idtInit_eq (address : Stub → BitVec 32) (vector : BitVec 8)
    : idtInit address vector
      = (stubOf vector.toNat).elim (noIdtEntries vector) (fun stub =>
          idtEntry (address stub) 0x08
            (if vector = 128 then iPresent ||| iDpl 3 ||| iGatetypeTrap32
             else iPresent ||| iGatetypeInt32)) := by
  rw [idtInit, idtSetEntry]
  by_cases call : vector = 128
  · rw [call, Function.update_self]
    rfl
  · have ne : vector.toNat ≠ 128 := fun same => call (BitVec.eq_of_toNat_eq same)
    rw [Function.update_of_ne call, if_neg call, stubOf]
    refine (idtSetStubs_range address _ .irq 32 16 (by decide) _ vector).trans ?_
    by_cases irq : 32 ≤ vector.toNat ∧ vector.toNat < 32 + 16
    · rw [if_pos irq, if_neg (by omega), if_pos irq.2]
      rfl
    · rw [if_neg irq]
      refine (idtSetStubs_range address _ .isr 0 32 (by decide) _ vector).trans ?_
      by_cases isr : vector.toNat < 32
      · rw [if_pos (by omega), if_pos isr]
        rfl
      · rw [if_neg (by omega), if_neg isr, if_neg (by omega), if_neg ne]
        rfl

def gateKind (vector : BitVec 8) : GateKind :=
  if vector = 128 then .trap else .interrupt

/-- The gate that `idt_init` leaves at a vector, as the processor reads it. -/
def idtGate (address : Stub → BitVec 32) (vector : BitVec 8) : Gate :=
  Gate.decode (idtInit address vector).bits

/-- The gates lead to the stubs of their vectors, in ring 0. Code in ring 3 may use the one of
system calls, which alone leaves interrupts on; at other vectors there is none.
-/
theorem idtGate_eq (address : Stub → BitVec 32) (vector : BitVec 8)
    : idtGate address vector
      = (stubOf vector.toNat).elim ⟨0, 0, none, 0, false⟩ (fun stub =>
          ⟨address stub, 0x08, some (gateKind vector), if vector = 128 then 3 else 0, true⟩) := by
  rw [idtGate, idtInit_eq]
  cases stubOf vector.toNat with
  | none =>
      change Gate.decode (IdtEntry.bits ⟨0, 0, 0, 0, 0⟩) = ⟨0, 0, none, 0, false⟩
      decide
  | some stub =>
      rw [Option.elim_some, Option.elim_some, decode_idtEntry, gateKind]
      split <;> rfl

/-- The tables of the kernel, where `tss` and the stubs are at some addresses. -/
def kernelTables (address : Stub → BitVec 32) (tss : BitVec 32) (m : Memory) : Tables where
  segments := (List.range 6).map (gdtSegment tss m)
  gate := idtGate address
  tss := gdtSegment tss m 5

section

variable (address : Stub → BitVec 32) (tss : BitVec 32) (m : Memory)

theorem kernelTables_segment
    : (kernelTables address tss m).segment 0x08 = some ⟨0, 0xFFFFFFFF, 0xA, false, 0, true, true⟩
      ∧ (kernelTables address tss m).segment 0x10
        = some ⟨0, 0xFFFFFFFF, 0x2, false, 0, true, true⟩ := by
  obtain ⟨code, data, -⟩ := gdtSegment_flat tss m
  exact ⟨congrArg some code, congrArg some data⟩

theorem kernelTables_segment_user
    : (kernelTables address tss m).segment 0x1B = some ⟨0, 0xFFFFFFFF, 0xA, false, 3, true, true⟩
      ∧ (kernelTables address tss m).segment 0x23
        = some ⟨0, 0xFFFFFFFF, 0x2, false, 3, true, true⟩ := by
  obtain ⟨-, -, code, data⟩ := gdtSegment_flat tss m
  exact ⟨congrArg some code, congrArg some data⟩

theorem kernelTables_codeOf (c : Cpu) (gate : Gate) (selector : gate.selector = 0x08)
    : (kernelTables address tss m).codeOf c gate
      = .ok ⟨0, 0xFFFFFFFF, 0xA, false, 0, true, true⟩ := by
  have never : decide (c.cpl < (0 : BitVec 2)) = false := decide_eq_false BitVec.not_lt_zero
  rw [Tables.codeOf, selector, (kernelTables_segment address tss m).1]
  simp only [never]
  rfl

/-- The stack of ring 0, from the task state segment: there is none if `tss` ends in the first nine
bytes behind a multiple of 1 MiB.
-/
theorem kernelTables_stackOf (m' : Memory) (ss0 : (m'.load (tss + 8)).setWidth 16 = 0x10#16)
    : (kernelTables address tss m).stackOf m' 0
      = if (tss.toNat + 104) % 2 ^ 20 < 9 then .error .invalidTss
        else .ok (m'.load (tss + 4), 0x10) := by
  have base : (kernelTables address tss m).tss.base = tss := by
    rw [kernelTables, gdtSegment_tss]
  have limit : (kernelTables address tss m).tss.limit.toNat = (tss.toNat + 104) % 2 ^ 20 :=
    gdtSegment_tss_limit tss m
  have place : 8 * (0 : BitVec 2).toNat + 4 = 4 := rfl
  have ss : (m'.load (tss + BitVec.ofNat 32 (4 + 4))).setWidth 16 = 0x10#16 := ss0
  rw [Tables.stackOf]
  simp only [base, limit, place, ss]
  rw [show (0x10#16 : BitVec 16) = 0x10 from rfl, (kernelTables_segment address tss m).2]
  rfl

/-- Code outside ring 0 can raise no interrupt but that of system calls. -/
theorem interrupt_protected {c : Cpu} {vector : BitVec 8} (outside : c.cpl ≠ 0)
    (other : vector ≠ 128) (error : Option (BitVec 32))
    : (kernelTables address tss m).interrupt c vector true error = .error .protection := by
  have gate : (kernelTables address tss m).gate vector = idtGate address vector := rfl
  rw [Tables.interrupt]
  simp only [gate, idtGate_eq]
  cases stubOf vector.toNat with
  | none => rfl
  | some stub =>
      have above : (0 : BitVec 2) < c.cpl := by bv_omega
      simp only [Option.elim_some, if_neg other, decide_eq_true above, Bool.and_self, if_true]

/-- Any other interrupt with a stub enters ring 0 through its gate. From another ring it takes the
stack in `tss`, which the processor refuses if it takes the segment to end before.
-/
theorem interrupt_entered {c : Cpu} {vector : BitVec 8} {stub : Stub} {software : Bool}
    (found : stubOf vector.toNat = some stub)
    (allowed : software = true → c.cpl = 0 ∨ vector = 128)
    (ss0 : (c.mem.load (tss + 8)).setWidth 16 = 0x10#16) (error : Option (BitVec 32))
    : (kernelTables address tss m).interrupt c vector software error
      = if c.cpl = 0 then .ok (c.enter 0 (idtGate address vector) (gateKind vector) none error)
        else if (tss.toNat + 104) % 2 ^ 20 < 9 then .error .invalidTss
        else
          .ok (c.enter 0 (idtGate address vector) (gateKind vector)
            (some (c.mem.load (tss + 4), 0x10)) error) := by
  have gate : (kernelTables address tss m).gate vector = idtGate address vector := rfl
  have shape := idtGate_eq address vector
  rw [found, Option.elim_some] at shape
  have selector : (idtGate address vector).selector = 0x08 := by rw [shape]
  have kind : (idtGate address vector).kind = some (gateKind vector) := by rw [shape]
  have present : (idtGate address vector).present = true := by rw [shape]
  have dpl : (idtGate address vector).dpl = if vector = 128 then 3 else 0 := by rw [shape]
  have free : (software && decide ((idtGate address vector).dpl < c.cpl)) = false := by
    cases software with
    | false => rfl
    | true =>
        rw [Bool.true_and, dpl]
        refine decide_eq_false ?_
        rcases allowed rfl with inside | call
        · rw [inside]
          exact BitVec.not_lt_zero
        · rw [if_pos call]
          bv_omega
  rw [Tables.interrupt]
  simp only [gate, kind, present, free, kernelTables_codeOf address tss m c _ selector,
    Bool.not_true, Bool.false_eq_true, if_false]
  have plain : Segment.conforming ⟨0, 0xFFFFFFFF, 0xA, false, 0, true, true⟩ = false := rfl
  rw [plain, Bool.false_or]
  by_cases inside : c.cpl = 0
  · rw [if_pos inside, inside, if_pos (beq_self_eq_true _)]
  · have away : ((0 : BitVec 2) == c.cpl) = false := beq_eq_false_iff_ne.mpr (Ne.symm inside)
    rw [if_neg inside, away, if_neg Bool.false_ne_true, kernelTables_stackOf address tss m _ ss0]
    split <;> rfl

/-- The processor takes the selectors of the kernel for ring 0. -/
theorem runs_kernel {c : Cpu} (cs : c.cs = 0x08) (ss : c.ss = 0x10) (seg : ∀ s, c.seg s = 0x10)
    : (kernelTables address tss m).Runs c := by
  obtain ⟨code, data⟩ := kernelTables_segment address tss m
  have ring : c.cpl = 0 := by
    rw [Cpu.cpl, cs]
    decide
  refine ⟨?_, ?_, fun s => .inr ?_⟩
  · rw [cs, code, ring]
    decide
  · rw [ss, Tables.isStack, data, ring]
    decide
  · rw [seg, Tables.keeps, data, ring]
    decide

/-- The processor takes the selectors of `go_usermode` for ring 3. -/
theorem runs_user {c : Cpu} (cs : c.cs = 0x1B) (ss : c.ss = 0x23) (seg : ∀ s, c.seg s = 0x23)
    : (kernelTables address tss m).Runs c := by
  obtain ⟨code, data⟩ := kernelTables_segment_user address tss m
  have ring : c.cpl = 3 := by
    rw [Cpu.cpl, cs]
    decide
  refine ⟨?_, ?_, fun s => .inr ?_⟩
  · rw [cs, code, ring]
    decide
  · rw [ss, Tables.isStack, data, ring]
    decide
  · rw [seg, Tables.keeps, data, ring]
    decide

end

end Hydrangea
