import Mathlib.Data.Nat.Digits.Lemmas
import Mathlib.Tactic

/-! Reading bytes of a drive through its sectors, as in `kernel/drivers/ata.c`, and the
little-endian numbers among these bytes.
-/

namespace Hydrangea

/-- `ATA_read`, for a drive that returns the sectors asked for. -/
def ataRead (drv : Nat → UInt8) (block size : Nat) : List UInt8 :=
  (List.range (size * 512)).map (fun i => drv (block * 512 + i))

/-- `ATA_read_b`: the bytes it copies into the buffer. -/
def ataReadB (drv : Nat → UInt8) (offset size : Nat) : List UInt8 :=
  let start := offset / 512
  let last := (offset + size) / 512
  let n := last - start + 1
  let wholeSector := ataRead drv start n
  (wholeSector.drop (offset % 512)).take size

/-- `ATA_read_b` returns as many bytes as asked for. -/
@[simp]
theorem length_ataReadB (drv : Nat → UInt8) (offset size : Nat)
    : (ataReadB drv offset size).length = size := by
  simp only [ataReadB, ataRead, List.length_take, List.length_drop, List.length_map,
    List.length_range]
  omega

/-- `ATA_read_b` returns the bytes of the drive from the offset on. -/
theorem ataReadB_eq (drv : Nat → UInt8) (offset size : Nat)
    : ataReadB drv offset size = (List.range size).map (fun i => drv (offset + i)) := by
  refine List.ext_getElem (by simp) (fun i h h' => ?_)
  have position : offset / 512 * 512 + (offset % 512 + i) = offset + i := by omega
  simp only [ataReadB, ataRead, List.getElem_take, List.getElem_drop, List.getElem_map,
    List.getElem_range, position]

def littleEndian (bytes : List UInt8) : Nat :=
  Nat.ofDigits 256 (bytes.map UInt8.toNat)

/-- A `uint32_t` on a drive. -/
def readWord (drv : Nat → UInt8) (offset : Nat) : Nat :=
  littleEndian (ataReadB drv offset 4)

/-- A `uint32_t` is made of four bytes. -/
theorem readWord_eq (drv : Nat → UInt8) (offset : Nat)
    : readWord drv offset
      = (drv offset).toNat + 256 * ((drv (offset + 1)).toNat
        + 256 * ((drv (offset + 2)).toNat + 256 * (drv (offset + 3)).toNat)) := by
  rw [readWord, ataReadB_eq]
  simp [littleEndian, List.range_succ, Nat.ofDigits_cons]

end Hydrangea
