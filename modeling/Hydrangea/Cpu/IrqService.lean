import Hydrangea.Cpu.Irq

/-! When the handlers of `kernel/cpu/irq.c` are called for the lines: how long a line waits, how
often it is served, and that lines 7 and 15 are not served at all.
-/

namespace Hydrangea

variable {H : Type}

/-- What is found first in a list stands in front of everything else that could be found. -/
theorem idxOf_le_of_find? {l : List Nat} {p : Nat → Bool} {m n : Nat} (found : l.find? p = some m)
    (member : n ∈ l) (holds : p n = true)
    : l.idxOf m ≤ l.idxOf n := by
  obtain ⟨first, before, after, rfl, others⟩ := List.find?_eq_some_iff_append.mp found
  have notBefore (k : Nat) (good : p k = true) : k ∉ before := by
    intro inside
    have bad := others k inside
    rw [good] at bad
    cases bad
  rw [List.idxOf_append_of_notMem (notBefore m first), List.idxOf_cons_self,
    List.idxOf_append_of_notMem (notBefore n holds)]
  omega

theorem update_eq_of_eq {f : Nat → Bool} {k i : Nat} {b : Bool} (same : f i = b)
    : Function.update f k b i = b := by
  rw [Function.update_apply]
  split
  · rfl
  · exact same

namespace Lines

variable {s s' : Lines H} {line n m : Nat} {withdrawn : BitVec 8}

def rank (line : Nat) : Nat :=
  urgency.idxOf line

/-- The line that an interrupt serves, if it is not one without a request: the slave chooses once
more.
-/
def served (s : Lines H) (withdrawn : BitVec 8) : Option Nat :=
  s.next.bind (fun line =>
    if line < 8 then some line else slaveLines.find? (s.withdraw withdrawn).ready)

theorem mem_slaveLines (member : line ∈ urgency) (high : 8 ≤ line) : line ∈ slaveLines := by
  have all : ∀ line ∈ urgency, 8 ≤ line → line ∈ slaveLines := by decide
  exact all line member high

theorem rank_slaveLines (member : line ∈ slaveLines) : rank line = slaveLines.idxOf line + 2 := by
  have all : ∀ line ∈ slaveLines, rank line = slaveLines.idxOf line + 2 := by decide
  exact all line member

/-- A line of the master behind one of the slave is behind all of them. -/
theorem rank_lt_of_le (member : n ∈ urgency) (low : n < 8) (slave : m ∈ slaveLines)
    (behind : rank m ≤ rank n) (other : line ∈ slaveLines)
    : rank line < rank n := by
  have all : ∀ n ∈ urgency, n < 8 → ∀ m ∈ slaveLines, rank m ≤ rank n →
      ∀ line ∈ slaveLines, rank line < rank n := by
    decide
  exact all n member low m slave behind line other

theorem rank_injective (left : m ∈ urgency) (right : n ∈ urgency) (same : rank m = rank n)
    : m = n := by
  have all : ∀ m ∈ urgency, ∀ n ∈ urgency, rank m = rank n → m = n := by decide
  exact all m left n right same

@[simp]
theorem call_requested (s : Lines H) (line : Nat) : (s.call line).requested = s.requested := by
  rw [call]
  split <;> rfl

@[simp]
theorem call_masked (s : Lines H) (line : Nat) : (s.call line).masked = s.masked := by
  rw [call]
  split <;> rfl

@[simp]
theorem call_stuck (s : Lines H) (line : Nat) : (s.call line).stuck = s.stuck := by
  rw [call]
  split <;> rfl

@[simp]
theorem call_irqHandlers (s : Lines H) (line : Nat)
    : (s.call line).irqHandlers = s.irqHandlers := by
  rw [call]
  split <;> rfl

theorem call_calls (s : Lines H) (line : Nat)
    : (s.call line).calls = ((s.irqHandlers line).map (line, ·)).toList ++ s.calls := by
  rw [call]
  cases s.irqHandlers line <;> rfl

/-- The state in which a line is served or an interrupt turns out to have no request: requests of
the slave may have gone away.
-/
def settled (s : Lines H) (withdrawn : BitVec 8) : Lines H :=
  match s.next with
  | none => s
  | some line => if line < 8 then s else s.withdraw withdrawn

/-- The line whose handler an interrupt without a request calls. -/
def fallback (s : Lines H) : Nat :=
  match s.next with
  | none => 7
  | some _ => 15

theorem accept_eq (s : Lines H) (withdrawn : BitVec 8)
    : s.accept withdrawn
      = (s.served withdrawn).elim ((s.settled withdrawn).spurious s.fallback)
          (s.settled withdrawn).serve := by
  rw [accept, served, settled, fallback]
  cases s.next with
  | none => rfl
  | some line =>
      by_cases low : line < 8
      · simp only [low, if_true, Option.bind_some, Option.elim]
      · simp only [low, if_false, Option.bind_some]
        cases slaveLines.find? (s.withdraw withdrawn).ready <;> rfl

@[simp]
theorem settled_masked (s : Lines H) (withdrawn : BitVec 8)
    : (s.settled withdrawn).masked = s.masked := by
  rw [settled]
  split
  · rfl
  · split <;> rfl

@[simp]
theorem settled_stuck (s : Lines H) (withdrawn : BitVec 8)
    : (s.settled withdrawn).stuck = s.stuck := by
  rw [settled]
  split
  · rfl
  · split <;> rfl

@[simp]
theorem settled_irqHandlers (s : Lines H) (withdrawn : BitVec 8)
    : (s.settled withdrawn).irqHandlers = s.irqHandlers := by
  rw [settled]
  split
  · rfl
  · split <;> rfl

@[simp]
theorem settled_calls (s : Lines H) (withdrawn : BitVec 8)
    : (s.settled withdrawn).calls = s.calls := by
  rw [settled]
  split
  · rfl
  · split <;> rfl

/-- Requests go away at most. -/
theorem settled_requested (h : (s.settled withdrawn).requested line = true)
    : s.requested line = true := by
  rw [settled] at h
  split at h
  · exact h
  · split at h
    · exact h
    · exact (Bool.and_eq_true _ _ ▸ h).1

theorem requested_settled (requested : s.requested line = true)
    (kept : 8 ≤ line → withdrawn.getLsbD (line - 8) = false)
    : (s.settled withdrawn).requested line = true := by
  have stays : (s.withdraw withdrawn).requested line = true := by
    rw [withdraw]
    by_cases high : 8 ≤ line
    · simp [requested, kept high]
    · simp [requested, high]
  rw [settled]
  split
  · exact requested
  · split
    · exact requested
    · exact stays

theorem serve_requested (s : Lines H) (line : Nat)
    : (s.serve line).requested = Function.update s.requested line false := by
  rw [serve]
  split
  · rfl
  · rw [call_requested]

theorem spurious_requested (s : Lines H) (line : Nat)
    : (s.spurious line).requested = s.requested := by
  rw [spurious]
  split
  · rfl
  · rw [call_requested]

@[simp]
theorem serve_masked (s : Lines H) (line : Nat) : (s.serve line).masked = s.masked := by
  rw [serve]
  split
  · rfl
  · rw [call_masked]

@[simp]
theorem serve_irqHandlers (s : Lines H) (line : Nat)
    : (s.serve line).irqHandlers = s.irqHandlers := by
  rw [serve]
  split
  · rfl
  · rw [call_irqHandlers]

@[simp]
theorem spurious_masked (s : Lines H) (line : Nat) : (s.spurious line).masked = s.masked := by
  rw [spurious]
  split
  · rfl
  · rw [call_masked]

@[simp]
theorem spurious_irqHandlers (s : Lines H) (line : Nat)
    : (s.spurious line).irqHandlers = s.irqHandlers := by
  rw [spurious]
  split
  · rfl
  · rw [call_irqHandlers]

@[simp]
theorem spurious_stuck (s : Lines H) (line : Nat) : (s.spurious line).stuck = s.stuck := by
  rw [spurious]
  split
  · rfl
  · rw [call_stuck]

/-- A line never comes free again. -/
theorem stuck_serve (stuck : s.stuck n = true) (line : Nat) : (s.serve line).stuck n = true := by
  by_cases which : line = 7 ∨ line = 15
  · rw [s.serve_stuck which]
    exact update_eq_of_eq stuck
  · rw [serve, if_neg which, call_stuck]
    exact stuck

theorem serve_calls (s : Lines H) (line : Nat)
    : (s.serve line).calls
      = (if line = 7 ∨ line = 15 then [] else ((s.irqHandlers line).map (line, ·)).toList)
        ++ s.calls := by
  rw [serve]
  split
  · rfl
  · rw [call_calls]

theorem spurious_calls (s : Lines H) (line : Nat)
    : (s.spurious line).calls
      = (if s.stuck line then [] else ((s.irqHandlers line).map (line, ·)).toList) ++ s.calls := by
  rw [spurious]
  split
  · rfl
  · rw [call_calls]

-----------------------------------------------------------------------------------------
-- One interrupt
-----------------------------------------------------------------------------------------

@[simp]
theorem accept_masked (s : Lines H) (withdrawn : BitVec 8)
    : (s.accept withdrawn).masked = s.masked := by
  rw [accept_eq]
  cases s.served withdrawn <;> simp

/-- An interrupt makes no requests, and the line that it serves has none any more. -/
theorem accept_requested (h : (s.accept withdrawn).requested line = true)
    : s.requested line = true ∧ s.served withdrawn ≠ some line := by
  rw [accept_eq] at h
  cases served : s.served withdrawn with
  | none =>
      rw [served, Option.elim, spurious_requested] at h
      exact ⟨settled_requested h, nofun⟩
  | some other =>
      rw [served, Option.elim, serve_requested, Function.update_apply] at h
      split at h
      · cases h
      · next apart => exact ⟨settled_requested h, fun same => apart (Option.some.inj same).symm⟩

theorem stuck_accept (stuck : s.stuck line = true) (withdrawn : BitVec 8)
    : (s.accept withdrawn).stuck line = true := by
  rw [accept_eq]
  cases s.served withdrawn with
  | none =>
      rw [Option.elim, spurious_stuck, settled_stuck]
      exact stuck
  | some other =>
      rw [Option.elim]
      exact stuck_serve (by rw [settled_stuck]; exact stuck) other

def added (s : Lines H) (withdrawn : BitVec 8) : List (Nat × H) :=
  match s.served withdrawn with
  | none =>
      if s.stuck s.fallback then []
      else ((s.irqHandlers s.fallback).map (s.fallback, ·)).toList
  | some line =>
      if line = 7 ∨ line = 15 then [] else ((s.irqHandlers line).map (line, ·)).toList

theorem accept_calls (s : Lines H) (withdrawn : BitVec 8)
    : (s.accept withdrawn).calls = s.added withdrawn ++ s.calls := by
  rw [accept_eq, added]
  cases s.served withdrawn with
  | none =>
      rw [Option.elim, spurious_calls, settled_stuck, settled_irqHandlers, settled_calls]
  | some line => rw [Option.elim, serve_calls, settled_irqHandlers, settled_calls]

/-- These are of the line that is served, or of line 7 or 15 when none is. -/
theorem mem_added {call : Nat × H} (h : call ∈ s.added withdrawn)
    : s.served withdrawn = some call.1 ∧ call.1 ≠ 7 ∧ call.1 ≠ 15
      ∨ s.served withdrawn = none ∧ call.1 = s.fallback ∧ s.stuck call.1 = false := by
  rw [added] at h
  split at h
  next none =>
    split at h
    · cases h
    next free =>
      obtain ⟨handler, -, rfl⟩ := Option.map_eq_some_iff.mp (Option.mem_toList.mp h)
      exact .inr ⟨none, rfl, Bool.eq_false_of_not_eq_true free⟩
  next line served =>
    split at h
    · cases h
    next which =>
      obtain ⟨handler, -, rfl⟩ := Option.map_eq_some_iff.mp (Option.mem_toList.mp h)
      exact .inl ⟨served, not_or.mp which⟩

/-- A line that waits has waited before, and is not the one that was served. -/
theorem accept_waits (h : (s.accept withdrawn).waits line = true)
    : s.waits line = true ∧ s.served withdrawn ≠ some line := by
  rw [waits, ready, accept_masked] at h
  simp only [Bool.and_eq_true] at h
  obtain ⟨⟨⟨requested, unmasked⟩, free⟩, behind⟩ := h
  obtain ⟨before, unserved⟩ := accept_requested requested
  refine ⟨?_, unserved⟩
  have was : s.stuck line = false := by
    by_contra stuck
    rw [stuck_accept (Bool.eq_true_of_not_eq_false stuck) withdrawn] at free
    cases free
  rw [waits, ready, before, unmasked, was, behind]
  rfl

theorem mem_slaveLines_urgency (member : line ∈ slaveLines) : line ∈ urgency := by
  have all : ∀ line ∈ slaveLines, line ∈ urgency := by decide
  exact all line member

theorem settled_slave (withdrawn : BitVec 8) (next : s.next = some m) (high : ¬ m < 8)
    : s.settled withdrawn = s.withdraw withdrawn := by
  rw [Lines.settled, next]
  exact if_neg high

theorem waits_of_served (served : s.served withdrawn = some line)
    : line ∈ urgency ∧ s.waits line = true := by
  rw [Lines.served, Option.bind_eq_some_iff] at served
  obtain ⟨m, next, chosen⟩ := served
  have mWaits : s.waits m = true := List.find?_some next
  by_cases low : m < 8
  · rw [if_pos low] at chosen
    obtain rfl := Option.some.inj chosen
    exact ⟨List.mem_of_find?_eq_some next, mWaits⟩
  · rw [if_neg low] at chosen
    have settled := settled_slave withdrawn next low
    have isReady := List.find?_some chosen
    rw [ready] at isReady
    simp only [Bool.and_eq_true] at isReady
    obtain ⟨⟨requested, unmasked⟩, free⟩ := isReady
    rw [← settled] at requested
    rw [waits, ready] at mWaits
    simp only [Bool.and_eq_true, decide_eq_false low, Bool.false_or] at mWaits
    refine ⟨mem_slaveLines_urgency (List.mem_of_find?_eq_some chosen), ?_⟩
    rw [waits, ready, settled_requested requested, mWaits.2, Bool.or_true, Bool.and_true,
      Bool.true_and, Bool.and_eq_true]
    exact ⟨unmasked, free⟩

/-- A line of the slave that waits is found there, unless its request has gone away. -/
theorem ready_withdraw (waits : s.waits n = true) (next : s.next = some m) (high : ¬ m < 8)
    (kept : 8 ≤ n → withdrawn.getLsbD (n - 8) = false)
    : (s.withdraw withdrawn).ready n = true := by
  rw [Lines.waits, ready] at waits
  simp only [Bool.and_eq_true] at waits
  obtain ⟨⟨⟨requested, unmasked⟩, free⟩, -⟩ := waits
  have stays := requested_settled requested kept
  rw [settled_slave withdrawn next high] at stays
  rw [ready, stays]
  change (true && !s.masked n && !s.stuck n) = true
  rw [unmasked, free]
  rfl

theorem not_waits_of_served (served : s.served withdrawn = some line)
    : (s.accept withdrawn).waits line = false := by
  by_contra still
  exact (accept_waits (Bool.eq_true_of_not_eq_false still)).2 served

/-- While a line waits, another one that is served is more urgent. If the slave chooses it, then
from its own lines, all of which come before those of the master behind line 2.
-/
theorem rank_lt_of_served (member : n ∈ urgency) (waits : s.waits n = true)
    (kept : 8 ≤ n → withdrawn.getLsbD (n - 8) = false)
    (unserved : s.served withdrawn ≠ some n) (served : s.served withdrawn = some line)
    : rank line < rank n := by
  have inside := (waits_of_served served).1
  suffices le : rank line ≤ rank n by
    refine Nat.lt_of_le_of_ne le (fun same => unserved ?_)
    rw [served, rank_injective inside member same]
  obtain ⟨m, next, chosen⟩ := Option.bind_eq_some_iff.mp served
  have least : rank m ≤ rank n := idxOf_le_of_find? next member waits
  by_cases low : m < 8
  · rw [if_pos low] at chosen
    rwa [← Option.some.inj chosen]
  · rw [if_neg low] at chosen
    have mSlave := mem_slaveLines (List.mem_of_find?_eq_some next) (Nat.le_of_not_lt low)
    have slave : line ∈ slaveLines := List.mem_of_find?_eq_some chosen
    by_cases high : 8 ≤ n
    · have nSlave := mem_slaveLines member high
      rw [rank_slaveLines slave, rank_slaveLines nSlave]
      have first := idxOf_le_of_find? chosen nSlave (ready_withdraw waits next low kept)
      exact Nat.add_le_add_right first 2
    · exact (rank_lt_of_le member (Nat.lt_of_not_le high) mSlave least slave).le

/-- While a line waits, an interrupt that serves none is one of the slave, whose requests have gone
away. Then the line is one of the master behind line 2.
-/
theorem unserved_or_less (member : n ∈ urgency) (waits : s.waits n = true)
    (kept : 8 ≤ n → withdrawn.getLsbD (n - 8) = false) (none : s.served withdrawn = none)
    : (∃ m ∈ urgency, rank m < rank n ∧ s.waits m = true ∧ (s.accept withdrawn).waits m = false)
      ∧ rank s.fallback < rank n := by
  obtain ⟨m, next⟩ : ∃ m, s.next = some m :=
    Option.isSome_iff_exists.mp (List.find?_isSome.mpr ⟨n, member, waits⟩)
  have here : m ∈ urgency := List.mem_of_find?_eq_some next
  have mWaits : s.waits m = true := List.find?_some next
  have least : rank m ≤ rank n := idxOf_le_of_find? next member waits
  have nothing := none
  rw [Lines.served, next, Option.bind_some] at nothing
  have high : ¬ m < 8 := by
    intro low
    rw [if_pos low] at nothing
    cases nothing
  rw [if_neg high] at nothing
  have slave := mem_slaveLines here (Nat.le_of_not_lt high)
  have low : n < 8 := by
    by_contra nHigh
    have notReady := List.find?_eq_none.mp nothing n
      (mem_slaveLines member (Nat.le_of_not_lt nHigh))
    exact notReady (ready_withdraw waits next high kept)
  refine ⟨⟨m, here, rank_lt_of_le member low slave least slave, mWaits, ?_⟩, ?_⟩
  · rw [accept_eq, none, Option.elim, settled_slave withdrawn next high, Lines.waits, ready,
      spurious_requested, spurious_masked, spurious_stuck]
    have notReady := List.find?_eq_none.mp nothing m slave
    rw [Bool.not_eq_true, ready] at notReady
    rw [notReady, Bool.false_and]
  · have fallback : s.fallback = 15 := by rw [Lines.fallback, next]
    rw [fallback]
    exact rank_lt_of_le member low slave least (by decide)

/-- While a line waits, an interrupt serves it, or there was a more urgent one that does not wait
any more, and only handlers of more urgent ones are called.
-/
theorem served_or_less (member : n ∈ urgency) (waits : s.waits n = true)
    (kept : 8 ≤ n → withdrawn.getLsbD (n - 8) = false)
    (unserved : s.served withdrawn ≠ some n)
    : (∃ m ∈ urgency, rank m < rank n ∧ s.waits m = true ∧ (s.accept withdrawn).waits m = false)
      ∧ (∀ line, s.served withdrawn = some line → rank line < rank n)
      ∧ (s.served withdrawn = none → rank s.fallback < rank n) := by
  have less {line : Nat} (served : s.served withdrawn = some line) : rank line < rank n :=
    rank_lt_of_served member waits kept unserved served
  refine ⟨?_, fun _ => less, fun none => (unserved_or_less member waits kept none).2⟩
  cases served : s.served withdrawn with
  | none => exact (unserved_or_less member waits kept served).1
  | some line =>
      obtain ⟨inside, was⟩ := waits_of_served served
      exact ⟨line, inside, less served, was, not_waits_of_served served⟩

/-- How many more urgent lines wait. -/
def ahead (s : Lines H) (n : Nat) : Nat :=
  (urgency.filter (fun line => rank line < rank n && s.waits line)).length

/-- An interrupt that does not serve a line leaves fewer of them. -/
theorem ahead_lt (member : n ∈ urgency) (waits : s.waits n = true)
    (kept : 8 ≤ n → withdrawn.getLsbD (n - 8) = false)
    (unserved : s.served withdrawn ≠ some n)
    : (s.accept withdrawn).ahead n < s.ahead n := by
  obtain ⟨⟨m, inside, less, waited, done⟩, -⟩ := served_or_less member waits kept unserved
  have fewer : (urgency.filter (fun line => rank line < rank n && (s.accept withdrawn).waits line))
      = (urgency.filter (fun line => rank line < rank n && s.waits line)).filter
          (s.accept withdrawn).waits := by
    rw [List.filter_filter]
    refine List.filter_congr (fun line _ => ?_)
    cases now : (s.accept withdrawn).waits line with
    | false => rw [Bool.and_false, Bool.false_and]
    | true => rw [(accept_waits now).1, Bool.true_and]
  rw [ahead, ahead, fewer]
  refine List.length_filter_lt_length_iff_exists.mpr ⟨m, List.mem_filter.mpr ⟨inside, ?_⟩, ?_⟩
  · rw [decide_eq_true less, waited]
    rfl
  · rw [done]
    exact Bool.false_ne_true

end Lines

/-- An event that may let a more urgent line come in front of a line. -/
def IrqEvent.delays (line : Nat) : IrqEvent H → Bool
  | .raise l => Lines.rank l < Lines.rank line
  | .unmask irq => Lines.rank irq < Lines.rank line
  | _ => false

/-- An event that leaves a line its request and its handler, and the masks that count for it. -/
def IrqEvent.Leaves (line : Nat) : IrqEvent H → Prop
  | .raise _ => True
  | .lower l => l ≠ line
  | .accept withdrawn => 8 ≤ line → withdrawn.getLsbD (line - 8) = false
  | .mask irq => irq ≠ line ∧ irq ≠ 2
  | .unmask irq => irq ≠ 2
  | .register irq _ => irq ≠ line

namespace Lines

variable {s s' : Lines H} {n : Nat}

/-- The handler calls of a line so far, and its request, which is one to come. -/
def due (s : Lines H) (line : Nat) : Nat :=
  (s.calls.filter (·.1 = line)).length + (s.requested line).toNat

/-- An interrupt takes a call for a request. -/
theorem due_accept (s : Lines H) (withdrawn : BitVec 8) (device : line ≠ 7 ∧ line ≠ 15)
    : (s.accept withdrawn).due line ≤ s.due line := by
  have fewer : ((s.accept withdrawn).requested line).toNat ≤ (s.requested line).toNat := by
    cases later : (s.accept withdrawn).requested line with
    | false => exact Nat.zero_le _
    | true => rw [(accept_requested later).1]
  rw [due, due, accept_calls, List.filter_append, List.length_append]
  by_cases served : s.served withdrawn = some line
  · have requested : s.requested line = true := by
      have waits := (waits_of_served served).2
      rw [Lines.waits, ready] at waits
      simp only [Bool.and_eq_true] at waits
      exact waits.1.1.1
    have ended : (s.accept withdrawn).requested line = false := by
      by_contra still
      exact (accept_requested (Bool.eq_true_of_not_eq_false still)).2 served
    have one : ((s.added withdrawn).filter (·.1 = line)).length ≤ 1 := by
      refine (List.length_filter_le ..).trans ?_
      rw [added, served]
      dsimp only
      split
      · exact Nat.zero_le _
      · cases s.irqHandlers line <;> simp
    rw [requested, ended, Bool.toNat_true, Bool.toNat_false]
    omega
  · have none : (s.added withdrawn).filter (·.1 = line) = [] := by
      refine List.filter_eq_nil_iff.mpr (fun call inside => ?_)
      rw [decide_eq_true_eq]
      rintro rfl
      rcases mem_added inside with ⟨now, -⟩ | ⟨-, which, -⟩
      · exact served now
      · rw [fallback] at which
        split at which
        · exact device.1 which
        · exact device.2 which
    rw [none, List.length_nil]
    omega

end Lines

def IrqEvent.raises (line : Nat) : IrqEvent H → Bool
  | .raise l => l = line
  | _ => false

namespace Lines

variable {s s' : Lines H} {line : Nat}

/-- Only its device makes a line request an interrupt, and at most one at a time. By cases on the
event: raising the line adds one at most, and an accepted interrupt turns a request into a call.
-/
theorem due_step {event : IrqEvent H} (device : line ≠ 7 ∧ line ≠ 15)
    (taken : s.step event = some s')
    : s'.due line ≤ s.due line + (event.raises line).toNat := by
  rw [step.eq_def] at taken
  split at taken
  case isFalse => cases taken
  cases event with
  | raise l =>
      dsimp only at taken
      split at taken
      · obtain rfl := Option.some.inj taken
        exact Nat.le_add_right ..
      · obtain rfl := Option.some.inj taken
        by_cases same : l = line
        · subst same
          have one : (IrqEvent.raises (H := H) l (.raise l)).toNat = 1 := by simp [IrqEvent.raises]
          rw [one, due, due]
          dsimp only
          rw [Function.update_self, Bool.toNat_true]
          omega
        · refine Nat.le_add_right_of_le ?_
          rw [due, due]
          dsimp only
          rw [Function.update_of_ne (Ne.symm same)]
  | lower l =>
      obtain rfl := Option.some.inj taken
      refine Nat.le_add_right_of_le ?_
      rw [due, due]
      dsimp only
      rw [Function.update_apply]
      split
      · exact Nat.add_le_add_left (Nat.zero_le _) _
      · exact le_refl _
  | accept withdrawn =>
      obtain rfl := Option.some.inj taken
      exact Nat.le_add_right_of_le (s.due_accept withdrawn device)
  | mask irq =>
      obtain rfl := Option.some.inj taken
      exact Nat.le_add_right ..
  | unmask irq =>
      obtain rfl := Option.some.inj taken
      exact Nat.le_add_right ..
  | register irq handler =>
      obtain rfl := Option.some.inj taken
      exact Nat.le_add_right ..

/-- By induction on the events. -/
theorem due_run {events : List (IrqEvent H)} (device : line ≠ 7 ∧ line ≠ 15)
    (run : events.foldlM step s = some s')
    : s'.due line ≤ s.due line + events.countP (IrqEvent.raises line) := by
  induction events generalizing s with
  | nil =>
      obtain rfl := Option.some.inj run
      exact Nat.le_add_right ..
  | cons event events ih =>
      rw [List.foldlM_cons] at run
      obtain ⟨between, taken, rest⟩ := Option.bind_eq_some_iff.mp run
      have first := due_step device taken
      have later := ih rest
      rw [List.countP_cons]
      cases raised : event.raises line with
      | false =>
          rw [if_neg Bool.false_ne_true]
          rw [raised, Bool.toNat_false] at first
          omega
      | true =>
          rw [if_pos rfl]
          rw [raised, Bool.toNat_true] at first
          omega

-----------------------------------------------------------------------------------------
-- Lines 7 and 15
-----------------------------------------------------------------------------------------

/-- Once line 7 or 15 is stuck it stays so, and its handler is not called any more. By cases on the
event: none clears the bit in service, and a line in service does not wait.
-/
theorem step_stuck {event : IrqEvent H} (which : line = 7 ∨ line = 15)
    (stuck : s.stuck line = true) (taken : s.step event = some s')
    : s'.stuck line = true
      ∧ s'.calls.filter (·.1 = line) = s.calls.filter (·.1 = line) := by
  rw [step.eq_def] at taken
  split at taken
  case isFalse => cases taken
  cases event with
  | accept withdrawn =>
      obtain rfl := Option.some.inj taken
      refine ⟨stuck_accept stuck withdrawn, ?_⟩
      have none : (s.added withdrawn).filter (·.1 = line) = [] := by
        refine List.filter_eq_nil_iff.mpr (fun call inside => ?_)
        rw [decide_eq_true_eq]
        rintro rfl
        rcases mem_added inside with ⟨-, seven, fifteen⟩ | ⟨-, -, free⟩
        · exact which.elim seven fifteen
        · rw [stuck] at free
          cases free
      rw [accept_calls, List.filter_append, none, List.nil_append]
  | raise l =>
      dsimp only at taken
      split at taken
      all_goals
        obtain rfl := Option.some.inj taken
        exact ⟨stuck, rfl⟩
  | lower l =>
      obtain rfl := Option.some.inj taken
      exact ⟨stuck, rfl⟩
  | mask irq =>
      obtain rfl := Option.some.inj taken
      exact ⟨stuck, rfl⟩
  | unmask irq =>
      obtain rfl := Option.some.inj taken
      exact ⟨stuck, rfl⟩
  | register irq handler =>
      obtain rfl := Option.some.inj taken
      exact ⟨stuck, rfl⟩

/-- By induction on the events. -/
theorem run_stuck {events : List (IrqEvent H)} (which : line = 7 ∨ line = 15)
    (stuck : s.stuck line = true) (run : events.foldlM step s = some s')
    : s'.calls.filter (·.1 = line) = s.calls.filter (·.1 = line) := by
  induction events generalizing s with
  | nil =>
      obtain rfl := Option.some.inj run
      rfl
  | cons event events ih =>
      rw [List.foldlM_cons] at run
      obtain ⟨between, taken, rest⟩ := Option.bind_eq_some_iff.mp run
      obtain ⟨still, same⟩ := step_stuck which stuck taken
      rw [ih still rest, same]

/-- An interrupt that line 7 or 15 requested gets it stuck and calls nothing. -/
theorem accept_lost {withdrawn : BitVec 8} (which : line = 7 ∨ line = 15)
    (served : s.served withdrawn = some line)
    : (s.accept withdrawn).stuck line = true ∧ (s.accept withdrawn).calls = s.calls := by
  constructor
  · rw [accept_eq, served, Option.elim, serve_stuck _ which]
    exact Function.update_self ..
  · rw [accept_calls, added, served]
    dsimp only
    rw [if_pos which, List.nil_append]

end Lines

-----------------------------------------------------------------------------------------
-- The controllers and handlers
-----------------------------------------------------------------------------------------

theorem Irqs.lines_of_run {p : PicPair} {events : List (IrqEvent H)} {s : Irqs H}
    (reached : events.foldlM Irqs.step (Irqs.boot p) = some s)
    : events.foldlM Lines.step (Lines.boot (bitAt p.master.lines p.slave.lines))
      = some s.lines := by
  have run := (Irqs.run_lines (Irqs.inv_boot p) events).1
  rw [reached, Irqs.lines_boot] at run
  exact run.symm

theorem Irqs.inv_of_run {p : PicPair} {events : List (IrqEvent H)} {s : Irqs H}
    (reached : events.foldlM Irqs.step (Irqs.boot p) = some s)
    : s.Inv :=
  (Irqs.run_lines (Irqs.inv_boot p) events).2 s reached

/-- No interrupt is served twice: the handler of a line of a device is called at most as often as
the line was raised. Calls and requests that still wait are counted together: a raised line adds
one to them, and serving it moves one over.
-/
theorem irqs_calls_le_raises {p : PicPair} {events : List (IrqEvent H)} {s : Irqs H}
    (reached : events.foldlM Irqs.step (Irqs.boot p) = some s) {line : Nat}
    (device : line ≠ 7 ∧ line ≠ 15)
    : (s.calls.filter (·.1 = line)).length ≤ events.countP (IrqEvent.raises line) := by
  have due := Lines.due_run device (Irqs.lines_of_run reached)
  have none : (Lines.boot (bitAt p.master.lines p.slave.lines) : Lines H).due line = 0 := rfl
  rw [none, Nat.zero_add] at due
  exact (Nat.le_add_right ..).trans due

theorem irqs_calls_le_raises_keyboard
    : ∃ s, [.register 1 (), .unmask 1, .raise 1, .accept 0, .accept 0].foldlM Irqs.step
          (Irqs.boot default) = some s
        ∧ (s.calls.filter (·.1 = 1)).length ≤ 1 := by
  have reached : [IrqEvent.register 1 (), .unmask 1, .raise 1, .accept 0, .accept 0].foldlM
      Irqs.step (Irqs.boot default) = some _ :=
    rfl
  exact ⟨_, reached, irqs_calls_le_raises reached (show 1 ≠ 7 ∧ 1 ≠ 15 by decide)⟩

/-- The interrupts that line 7 or 15 requests are lost: `irq_common_handler` takes them for ones
without a request, because the line is in service, does not end them, and from then on the handler
of the line is never called. Without an end of interrupt the line stays in service, and no later
event of the ideal controller clears it.
-/
theorem irqs_lost {p : PicPair} {events : List (IrqEvent H)} {s : Irqs H}
    (reached : events.foldlM Irqs.step (Irqs.boot p) = some s) {line : Nat}
    (which : line = 7 ∨ line = 15) {withdrawn : BitVec 8}
    (served : s.lines.served withdrawn = some line) {after : List (IrqEvent H)} {s' : Irqs H}
    (run : (.accept withdrawn :: after).foldlM Irqs.step s = some s')
    : s'.calls.filter (·.1 = line) = s.calls.filter (·.1 = line) := by
  have same := (Irqs.run_lines (Irqs.inv_of_run reached) (.accept withdrawn :: after)).1
  rw [run, List.foldlM_cons] at same
  obtain ⟨stuck, calls⟩ := Lines.accept_lost which served
  have rest : after.foldlM Lines.step (s.lines.accept withdrawn) = some s'.lines := same.symm
  have kept := Lines.run_stuck which stuck rest
  rw [calls] at kept
  exact kept

theorem irqs_lost_seven
    : ∃ s s', [.register 7 (), .unmask 7, .raise 7].foldlM Irqs.step (Irqs.boot default) = some s
        ∧ [.accept 0, .lower 7, .raise 7, .accept 0].foldlM Irqs.step s = some s'
        ∧ s'.calls.filter (·.1 = 7) = s.calls.filter (·.1 = 7) := by
  have reached : [IrqEvent.register 7 (), .unmask 7, .raise 7].foldlM Irqs.step (Irqs.boot default)
      = some _ :=
    rfl
  exact ⟨_, _, reached, rfl, irqs_lost reached (.inl rfl) (show Lines.served _ 0 = some 7 by decide)
    (show [IrqEvent.accept 0, .lower 7, .raise 7, .accept 0].foldlM Irqs.step _ = some _ from rfl)⟩

end Hydrangea
