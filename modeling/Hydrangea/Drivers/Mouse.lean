import Hydrangea.Lib.CString

/-! The interrupts of a PS/2 mouse in `kernel/drivers/mouse.c`: one byte of a packet each. -/

namespace Hydrangea

open CString

/-- The globals of `mouse.c`. -/
structure Mouse where
  currentByte : UInt8
  x : Int
  y : Int
  vx : Int
  vy : Int
  xs : UInt32
  ys : UInt32

namespace Mouse

def packetOne : UInt8 := (1 : UInt8) <<< 3
def packetXSign : UInt8 := (1 : UInt8) <<< 4
def packetYSign : UInt8 := (1 : UInt8) <<< 5
def packetXOverflow : UInt8 := (1 : UInt8) <<< 6
def packetYOverflow : UInt8 := (1 : UInt8) <<< 7

/-- `mouse_event`, with the byte `p` that it reads from the port. -/
def mouseEvent (s : Mouse) (p : UInt8) : Mouse :=
  if s.currentByte = 0 then
    if p &&& packetXOverflow ≠ 0 ∨ p &&& packetYOverflow ≠ 0 then
      s
    else
      { s with
        xs := (p &&& packetXSign).toUInt32
        ys := (p &&& packetYSign).toUInt32
        currentByte := s.currentByte + 1 }
  else if s.currentByte = 1 then
    { s with
      vx := if s.xs ≠ 0 then charValue p else p.toNat
      currentByte := s.currentByte + 1 }
  else
    let vy := if s.ys ≠ 0 then charValue p else p.toNat
    let x := s.x + s.vx
    let y := s.y - vy
    let x := if x > 1024 then 1024 else x
    let y := if y > 768 then 768 else y
    { s with
      vy := vy
      x := if x < 0 then 0 else x
      y := if y < 0 then 0 else y
      currentByte := 0 }

def run (s : Mouse) (bytes : List UInt8) : Mouse :=
  bytes.foldl mouseEvent s

-----------------------------------------------------------------------------------------
-- Packets
-----------------------------------------------------------------------------------------

/-- A packet, whose flags have bit 3 set. -/
structure Packet where
  flags : UInt8
  xByte : UInt8
  yByte : UInt8
  one : flags &&& packetOne ≠ 0

def Packet.bytes (packet : Packet) : List UInt8 :=
  [packet.flags, packet.xByte, packet.yByte]

def Overflow (p : UInt8) : Prop :=
  p &&& packetXOverflow ≠ 0 ∨ p &&& packetYOverflow ≠ 0

instance (p : UInt8) : Decidable (Overflow p) :=
  inferInstanceAs (Decidable (_ ∨ _))

/-- A number of nine bits in two's complement: the sign bit, and the other eight. -/
def delta (sign : Bool) (p : UInt8) : Int :=
  if sign then (p.toNat : Int) - 256 else p.toNat

/-- Where a packet without overflow moves the mouse, which stays in its bounds. One with overflow is
dropped.
-/
def move (position : Int × Int) (packet : Packet) : Int × Int :=
  if Overflow packet.flags then
    position
  else
    (max 0 (min 1024 (position.1 + delta (packet.flags &&& packetXSign ≠ 0) packet.xByte)),
      max 0 (min 768 (position.2 - delta (packet.flags &&& packetYSign ≠ 0) packet.yByte)))

def position (s : Mouse) : Int × Int :=
  (s.x, s.y)

/-- When a packet is taken as it should be. Both bytes of one with overflow must look like flags
with overflow; a negative delta must have its highest bit among the eight of its byte, or come at
the edge of the screen where it makes no difference.
-/
structure Taken (position : Int × Int) (packet : Packet) : Prop where
  dropped : Overflow packet.flags → Overflow packet.xByte ∧ Overflow packet.yByte
  left : ¬ Overflow packet.flags → packet.flags &&& packetXSign ≠ 0 → packet.xByte < 128 →
    position.1 + packet.xByte.toNat ≤ 0 ∨ 1280 ≤ position.1 + packet.xByte.toNat
  up : ¬ Overflow packet.flags → packet.flags &&& packetYSign ≠ 0 → packet.yByte < 128 →
    position.2 - packet.yByte.toNat ≤ -256 ∨ 768 ≤ position.2 - packet.yByte.toNat

/-- All packets of a stream are taken as they should be, from a position on. -/
def AllTaken : (position : Int × Int) → List Packet → Prop
  | _, [] => True
  | position, packet :: packets => Taken position packet ∧ AllTaken (move position packet) packets

/-- After some packets, no byte of another one has been read, and the mouse is where they move it.
-/
structure After (s : Mouse) (packets : List Packet) : Prop where
  aligned : (s.run (packets.flatMap Packet.bytes)).currentByte = 0
  moved : (s.run (packets.flatMap Packet.bytes)).position = packets.foldl move s.position

variable {s : Mouse} {packet : Packet}

/-- A negative delta makes the same difference as a byte that is not negative if both end at one
edge.
-/
theorem clamp_eq_iff (x hi k : Int) (wide : 0 < hi) (positive : 0 < k)
    : max 0 (min hi x) = max 0 (min hi (x - k)) ↔ x ≤ 0 ∨ hi + k ≤ x := by
  omega

/-- The bounds of the code are those of the screen. -/
theorem bounded_eq (x hi : Int)
    : (if (if x > hi then hi else x) < 0 then 0 else if x > hi then hi else x)
      = max 0 (min hi x) := by
  split <;> split <;> omega

/-- A sign bit keeps its value as it is widened. -/
theorem toUInt32_ne_zero (b : UInt8) : b.toUInt32 ≠ 0 ↔ b ≠ 0 := by
  rw [Ne, ← UInt32.toNat_inj, UInt8.toNat_toUInt32, Ne, ← UInt8.toNat_inj]
  rfl

/-- The delta of the code, for a byte and its sign bit. -/
theorem delta_eq (sign : UInt8) (p : UInt8)
    : (if sign ≠ 0 then charValue p else (p.toNat : Int))
      = delta (sign ≠ 0) p + (if sign ≠ 0 ∧ p < 128 then 256 else 0) := by
  rw [charValue_eq, delta]
  by_cases negative : sign ≠ 0
  · by_cases small : p < 128 <;> simp [negative, small]
  · simp [negative]

/-- The first byte of a packet. -/
theorem mouseEvent_flags (start : s.currentByte = 0) (p : UInt8)
    : s.mouseEvent p
      = if Overflow p then s
        else { s with
          xs := (p &&& packetXSign).toUInt32
          ys := (p &&& packetYSign).toUInt32
          currentByte := 1 } := by
  rw [mouseEvent, if_pos start, start]
  rfl

/-- A packet without overflow ends with its third byte. -/
theorem run_packet (start : s.currentByte = 0) (fits : ¬ Overflow packet.flags)
    : (s.run packet.bytes).currentByte = 0
      ∧ (s.run packet.bytes).position
        = (max 0 (min 1024 (s.x + (if packet.flags &&& packetXSign ≠ 0
            then charValue packet.xByte else packet.xByte.toNat))),
          max 0 (min 768 (s.y - (if packet.flags &&& packetYSign ≠ 0
            then charValue packet.yByte else packet.yByte.toNat)))) := by
  have packetRun : s.run packet.bytes
      = mouseEvent (mouseEvent (mouseEvent s packet.flags) packet.xByte) packet.yByte := rfl
  have second (x y vx vy : Int) (xs ys : UInt32) (p : UInt8)
      : mouseEvent ⟨1, x, y, vx, vy, xs, ys⟩ p
        = ⟨2, x, y, if xs ≠ 0 then charValue p else p.toNat, vy, xs, ys⟩ := rfl
  rw [packetRun, mouseEvent_flags start, if_neg fits, second]
  refine ⟨rfl, ?_⟩
  simp only [position, mouseEvent, toUInt32_ne_zero, ← bounded_eq]
  rfl

/-- A packet with overflow is dropped if its other bytes are. -/
theorem run_packet_of_overflow (start : s.currentByte = 0) (lost : Overflow packet.flags)
    : (s.run packet.bytes).currentByte = 0 ∧ (s.run packet.bytes).position = s.position
      ↔ Overflow packet.xByte ∧ Overflow packet.yByte := by
  have packetRun : s.run packet.bytes
      = mouseEvent (mouseEvent (mouseEvent s packet.flags) packet.xByte) packet.yByte := rfl
  rw [packetRun, mouseEvent_flags start, if_pos lost, mouseEvent_flags start]
  by_cases lostX : Overflow packet.xByte
  · rw [if_pos lostX, mouseEvent_flags start]
    by_cases lostY : Overflow packet.yByte
    · rw [if_pos lostY]
      exact iff_of_true ⟨start, rfl⟩ ⟨lostX, lostY⟩
    · rw [if_neg lostY]
      exact iff_of_false (fun h => absurd h.1 (by simp)) (fun h => lostY h.2)
  · rw [if_neg lostX]
    exact iff_of_false (fun h => absurd h.1 (by simp [mouseEvent])) (fun h => lostX h.1)

/-- The code moves the mouse sideways as it should, or to an edge that both deltas reach. -/
theorem clamp_add_iff (x : Int) (sign p : UInt8)
    : max 0 (min 1024 (x + (delta (sign ≠ 0) p + (if sign ≠ 0 ∧ p < 128 then 256 else 0))))
        = max 0 (min 1024 (x + delta (sign ≠ 0) p))
      ↔ (sign ≠ 0 → p < 128 → x + p.toNat ≤ 0 ∨ 1280 ≤ x + p.toNat) := by
  by_cases negative : sign ≠ 0 ∧ p < 128
  · have small : delta (sign ≠ 0) p = p.toNat - 256 := if_pos (decide_eq_true negative.1)
    have edges := clamp_eq_iff (x + p.toNat) 1024 256 (by decide) (by decide)
    rw [if_pos negative, small, show x + ((p.toNat : Int) - 256 + 256) = x + p.toNat by omega,
      show x + ((p.toNat : Int) - 256) = x + p.toNat - 256 by omega, edges]
    exact ⟨fun h _ _ => h, fun h => h negative.1 negative.2⟩
  · rw [if_neg negative, Int.add_zero]
    exact iff_of_true rfl (fun isNegative small => absurd ⟨isNegative, small⟩ negative)

/-- The code moves the mouse up and down as it should, or to an edge that both deltas reach. -/
theorem clamp_sub_iff (y : Int) (sign p : UInt8)
    : max 0 (min 768 (y - (delta (sign ≠ 0) p + (if sign ≠ 0 ∧ p < 128 then 256 else 0))))
        = max 0 (min 768 (y - delta (sign ≠ 0) p))
      ↔ (sign ≠ 0 → p < 128 → y - p.toNat ≤ -256 ∨ 768 ≤ y - p.toNat) := by
  by_cases negative : sign ≠ 0 ∧ p < 128
  · have small : delta (sign ≠ 0) p = p.toNat - 256 := if_pos (decide_eq_true negative.1)
    have edges := clamp_eq_iff (y - p.toNat + 256) 768 256 (by decide) (by decide)
    rw [if_pos negative, small,
      show y - ((p.toNat : Int) - 256 + 256) = y - p.toNat + 256 - 256 by omega,
      show y - ((p.toNat : Int) - 256) = y - p.toNat + 256 by omega, eq_comm, edges]
    constructor
    · intro h _ _
      omega
    · intro h
      have := h negative.1 negative.2
      omega
  · rw [if_neg negative, Int.add_zero]
    exact iff_of_true rfl (fun isNegative small => absurd ⟨isNegative, small⟩ negative)

/-- A packet is taken as it should be just when its bytes are as they have to be. -/
theorem run_packet_iff (start : s.currentByte = 0) (packet : Packet)
    : (s.run packet.bytes).currentByte = 0 ∧ (s.run packet.bytes).position = move s.position packet
      ↔ Taken s.position packet := by
  rw [move]
  by_cases lost : Overflow packet.flags
  · rw [if_pos lost, run_packet_of_overflow start lost]
    constructor
    · exact fun dropped => ⟨fun _ => dropped, absurd lost, absurd lost⟩
    · exact fun taken => taken.dropped lost
  · obtain ⟨aligned, moved⟩ := run_packet start lost
    rw [if_neg lost, moved, and_iff_right aligned, delta_eq, delta_eq, Prod.mk.injEq]
    refine (and_congr (clamp_add_iff s.x _ _) (clamp_sub_iff s.y _ _)).trans ?_
    constructor
    · exact fun ⟨left, up⟩ => ⟨(absurd · lost), fun _ => left, fun _ => up⟩
    · exact fun taken => ⟨taken.left lost, taken.up lost⟩

theorem run_cons (s : Mouse) (packet : Packet) (packets : List Packet)
    : s.run ((packet :: packets).flatMap Packet.bytes)
      = (s.run packet.bytes).run (packets.flatMap Packet.bytes) := by
  rw [run, List.flatMap_cons, List.foldl_append]
  rfl

/-- The driver stays aligned with the packets of a stream, and the mouse where they move it, just
when all of them are taken as they should be. By induction on the stream.
-/
theorem run_after_iff (packets : List Packet) (start : s.currentByte = 0)
    : (∀ earlier, earlier <+: packets → After s earlier) ↔ AllTaken s.position packets := by
  induction packets generalizing s with
  | nil =>
      refine iff_of_true (fun earlier inside => ?_) trivial
      obtain rfl := List.prefix_nil.mp inside
      exact ⟨start, rfl⟩
  | cons packet packets ih =>
      have one := run_packet_iff start packet
      have later {earlier : List Packet} (taken : Taken s.position packet)
          : After s (packet :: earlier) ↔ After (s.run packet.bytes) earlier := by
        obtain ⟨aligned, moved⟩ := one.mpr taken
        constructor
        · rintro ⟨aligned', moved'⟩
          rw [run_cons] at aligned' moved'
          exact ⟨aligned', moved'.trans (by rw [moved]; rfl)⟩
        · rintro ⟨aligned', moved'⟩
          refine ⟨by rwa [run_cons], ?_⟩
          rw [run_cons, moved', moved]
          rfl
      constructor
      · intro all
        obtain ⟨aligned, moved⟩ := all [packet] (by simp)
        have taken : Taken s.position packet := one.mp ⟨by simpa using aligned, by simpa using moved⟩
        refine ⟨taken, ?_⟩
        obtain ⟨aligned, moved⟩ := one.mpr taken
        rw [← moved]
        refine (ih aligned).mp (fun earlier inside => (later taken).mp (all _ ?_))
        exact List.cons_prefix_cons.mpr ⟨rfl, inside⟩
      · rintro ⟨taken, rest⟩ earlier inside
        obtain ⟨aligned, moved⟩ := one.mpr taken
        rw [← moved] at rest
        cases earlier with
        | nil => exact ⟨start, rfl⟩
        | cons first earlier =>
            obtain ⟨rfl, further⟩ := List.cons_prefix_cons.mp inside
            exact (later taken).mpr ((ih aligned).mpr rest earlier further)

def initial : Mouse :=
  ⟨0, 0, 0, 0, 0, 1, 1⟩

def rightUp : Packet :=
  ⟨0x08, 5, 3, by decide⟩

def tooFar : Packet :=
  ⟨0x48, 5, 3, by decide⟩

def leftDown : Packet :=
  ⟨0x38, 0xFE, 0xFD, by decide⟩

/-- A packet with overflow whose other bytes look like flags with overflow. -/
def dropped : Packet :=
  ⟨0x48, 0x40, 0x80, by decide⟩

/-- The driver takes the first two packets, drops the third and takes the last one. -/
theorem run_after_iff_mixed
    : (∀ earlier, earlier <+: [rightUp, leftDown, dropped, rightUp] → After initial earlier)
      ∧ [rightUp, leftDown, dropped, rightUp].foldl move initial.position = (8, 0) := by
  have taken : AllTaken initial.position [rightUp, leftDown, dropped, rightUp] := by
    refine ⟨⟨?_, ?_, ?_⟩, ⟨?_, ?_, ?_⟩, ⟨?_, ?_, ?_⟩, ⟨?_, ?_, ?_⟩, trivial⟩
    all_goals decide
  exact ⟨(run_after_iff [rightUp, leftDown, dropped, rightUp] (s := initial) rfl).mpr taken,
    by decide⟩

/-- The packet with overflow is not dropped as a whole. -/
theorem run_not_after
    : ¬ ∀ (s : Mouse) (packets : List Packet), s.currentByte = 0
      → ∀ earlier, earlier <+: packets → After s earlier := by
  intro always
  have after := always initial [tooFar] rfl [tooFar] List.prefix_rfl
  exact absurd after.aligned (by decide)

end Mouse

end Hydrangea
