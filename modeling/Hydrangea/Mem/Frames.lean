import Hydrangea.Lib.Transition
import Hydrangea.Mem.Pmm

/-! Runs of `frame_alloc` and `frame_free` from any bitmap: which frame an allocation returns,
and which frames are live.
-/

namespace Hydrangea

/-- The frame bitmap and the addresses of the frames allocated and not freed, latest first. -/
structure Frames where
  pmm : Pmm
  live : List Nat

namespace Frames

inductive Call where
  | frameAlloc
  | frameFree (addr : Nat)

/-- One call; only live frames are freed. -/
def step (s : Frames) : Call → Option Frames
  | .frameAlloc => s.pmm.frameAlloc.map (fun r => { pmm := r.2, live := r.1 :: s.live })
  | .frameFree addr =>
      if addr ∈ s.live then
        some { pmm := s.pmm.frameFree addr, live := s.live.filter (fun a => a ≠ addr) }
      else
        none

/-- Allocating and freeing, from a bitmap in which no frame is live yet. -/
def system (initial : Pmm) : TransitionSystem Frames Call where
  init s := s = { pmm := initial, live := [] }
  step s call s' := s.step call = some s'

/-- An allocation that returns takes the lowest clear frame of the scanned words. It is not live,
and exactly its bit changes.
-/
def AllocatesLowest (s : Frames) : Prop :=
  ∀ addr pmm, s.pmm.frameAlloc = some (addr, pmm) →
    addr % 4096 = 0
    ∧ addr / 4096 < 32 * s.pmm.scannedWords
    ∧ ¬ s.pmm.Marked (addr / 4096)
    ∧ (∀ frame < addr / 4096, s.pmm.Marked frame)
    ∧ addr ∉ s.live
    ∧ ∀ frame, pmm.Marked frame ↔ frame = addr / 4096 ∨ s.pmm.Marked frame

/-- Freeing a live frame changes exactly its bit, which was set. -/
def FreesOne (s : Frames) : Prop :=
  ∀ addr ∈ s.live,
    s.pmm.Marked (addr / 4096)
    ∧ ∀ frame, (s.pmm.frameFree addr).Marked frame ↔ frame ≠ addr / 4096 ∧ s.pmm.Marked frame

/-- The live frames are distinct, and they are the initially clear frames whose bit is set. -/
structure Exact (initial : Pmm) (s : Frames) : Prop where
  distinct : s.live.Nodup
  live : ∀ addr, addr ∈ s.live ↔
    addr % 4096 = 0 ∧ ¬ initial.Marked (addr / 4096) ∧ s.pmm.Marked (addr / 4096)
  /-- No bit is cleared for good that was set at the start. -/
  marked : ∀ frame, initial.Marked frame → s.pmm.Marked frame
  size : s.pmm.memorySize = initial.memorySize

variable {initial : Pmm} {s : Frames}

/-- Below 1 GiB the scan stays within the frames of 32-bit addresses. -/
theorem Exact.scannedWords_le (h : Exact initial s) (below : initial.memorySize < 2 ^ 30)
    : s.pmm.scannedWords ≤ 2 ^ 15 := by
  rw [Pmm.scannedWords, h.size]
  omega

theorem Exact.frameAlloc {pmm : Pmm} {addr : Nat} (h : Exact initial s)
    (below : initial.memorySize < 2 ^ 30) (alloc : s.pmm.frameAlloc = some (addr, pmm))
    : Exact initial { pmm, live := addr :: s.live } := by
  obtain ⟨aligned, -, clear, -, bits, size⟩ := Pmm.frameAlloc_lowest (h.scannedWords_le below) alloc
  have fresh : addr ∉ s.live := fun member => clear ((h.live addr).mp member).2.2
  have unmarked : ¬ initial.Marked (addr / 4096) := fun set => clear (h.marked _ set)
  refine ⟨List.nodup_cons.mpr ⟨fresh, h.distinct⟩, fun a => ?_, fun frame set => ?_, ?_⟩
  · rw [List.mem_cons, h.live a, bits]
    constructor
    · intro member
      rcases member with same | ⟨aligned', clear', set⟩
      · rw [same]
        exact ⟨aligned, unmarked, .inl rfl⟩
      · exact ⟨aligned', clear', .inr set⟩
    · intro facts
      obtain ⟨aligned', clear', same | set⟩ := facts
      · exact .inl (by omega)
      · exact .inr ⟨aligned', clear', set⟩
  · exact (bits frame).mpr (.inr (h.marked frame set))
  · rw [size, h.size]

theorem Exact.frameFree {addr : Nat} (h : Exact initial s) (member : addr ∈ s.live)
    : Exact initial
        { pmm := s.pmm.frameFree addr, live := s.live.filter (fun a => a ≠ addr) } := by
  obtain ⟨aligned, clear, -⟩ := (h.live addr).mp member
  have bits := Pmm.marked_frameBmpReset s.pmm addr
  refine ⟨h.distinct.filter _, fun a => ?_, fun frame set => ?_, h.size⟩
  · simp only [List.mem_filter, h.live a, Pmm.frameFree, bits, decide_eq_true_eq]
    constructor
    · intro facts
      obtain ⟨⟨aligned', clear', set⟩, other⟩ := facts
      exact ⟨aligned', clear', by omega, set⟩
    · intro facts
      obtain ⟨aligned', clear', other, set⟩ := facts
      exact ⟨⟨aligned', clear', set⟩, fun same => other (by rw [same])⟩
  · refine (bits frame).mpr ⟨fun same => ?_, h.marked frame set⟩
    rw [same] at set
    exact clear set

/-- The live frames are exact in every state of every run, by induction on the run. -/
theorem Exact.reachable (below : initial.memorySize < 2 ^ 30)
    (reached : (system initial).Reachable s)
    : Exact initial s := by
  refine reached.invariant ?_ ?_
  · intro s start
    obtain rfl : s = { pmm := initial, live := [] } := start
    refine ⟨List.nodup_nil, fun addr => ?_, fun _ set => set, rfl⟩
    simp only [List.not_mem_nil, false_iff]
    intro facts
    exact facts.2.1 facts.2.2
  · intro s call s' exact taken
    cases call with
    | frameAlloc =>
        obtain ⟨⟨addr, pmm⟩, alloc, rfl⟩ := Option.map_eq_some_iff.mp taken
        exact exact.frameAlloc below alloc
    | frameFree addr =>
        obtain ⟨member, result⟩ := Option.ite_none_right_eq_some.mp taken
        obtain rfl := Option.some.inj result
        exact exact.frameFree member

/-- In every run from any bitmap of less than 1 GiB an allocation takes the lowest clear frame,
every call changes one bit, and the live frames are distinct and exactly the initially clear ones
whose bit is set. The invariant `Exact` says which frames are live by their bits, initially and
now; a step sets or clears one bit and adds or removes one frame.
-/
theorem run_frames (below : initial.memorySize < 2 ^ 30) {steps : List (Frames × Call)}
    (run : (system initial).Run s steps)
    : s.AllocatesLowest
      ∧ s.FreesOne
      ∧ s.live.Nodup
      ∧ ∀ addr, addr ∈ s.live ↔
          addr % 4096 = 0 ∧ ¬ initial.Marked (addr / 4096) ∧ s.pmm.Marked (addr / 4096) := by
  have exact := Exact.reachable below run.reachable
  refine ⟨fun addr pmm alloc => ?_, fun addr member => ?_, exact.distinct, exact.live⟩
  · obtain ⟨aligned, inside, clear, lowest, bits, -⟩ :=
      Pmm.frameAlloc_lowest (exact.scannedWords_le below) alloc
    refine ⟨aligned, inside, clear, lowest, fun member => ?_, bits⟩
    exact clear ((exact.live addr).mp member).2.2
  · exact ⟨((exact.live addr).mp member).2.2, Pmm.marked_frameBmpReset s.pmm addr⟩

/-- A bitmap for 1 MiB whose lowest clear frames are 33 and 35. -/
def crowded : Pmm where
  placementAddr := 0
  framesBmp i := if i = 0 then 0xFFFFFFFF else if i = 1 then 5 else 0
  memorySize := 0x100000

/-- Two allocations, the first of which is freed and made again, latest first. -/
def again : List Call :=
  [.frameAlloc, .frameFree (33 * 4096), .frameAlloc, .frameAlloc]

/-- Then these two frames are live, and the next allocation takes the lowest clear frame. -/
theorem run_frames_again
    : ∃ s steps, TransitionSystem.play step { pmm := crowded, live := [] } again = some (s, steps)
        ∧ s.live = [33 * 4096, 35 * 4096] ∧ s.live.Nodup ∧ s.AllocatesLowest := by
  have returns : (TransitionSystem.play step { pmm := crowded, live := [] } again).isSome
      = true := by
    decide +kernel
  obtain ⟨⟨s, steps⟩, played⟩ := Option.isSome_iff_exists.mp returns
  have sound (s : Frames) (call : Call) (s' : Frames) (_ : True)
      (taken : s.step call = some s')
      : (system crowded).step s call s' ∧ True :=
    ⟨taken, trivial⟩
  have run := (TransitionSystem.Run.of_play sound rfl trivial played).1
  have live : ∀ r ∈ TransitionSystem.play step { pmm := crowded, live := [] } again,
      r.1.live = [33 * 4096, 35 * 4096] := by
    decide +kernel
  obtain ⟨lowest, -, distinct, -⟩ := run_frames (by decide) run
  exact ⟨s, steps, played, live _ played, distinct, lowest⟩

end Frames

end Hydrangea
