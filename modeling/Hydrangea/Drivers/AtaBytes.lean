import Hydrangea.Drivers.Ata
import Hydrangea.Drivers.AtaPio

/-! The buffers of `ATA_read_b`, as in `kernel/drivers/ata.c`: what it writes to the caller's
buffer, and which indices of its buffer of whole sectors are accessed.
-/

namespace Hydrangea

open PioDevice Filter

/-- What `ATA_read_b` leaves: the bytes that `whole_sector` has, the indices of it that `ATA_read`
and `memcpy` access, the caller's buffer and the returned value.
-/
structure ByteRead where
  capacity : Nat
  accessed : List Nat
  buf : Nat → UInt8
  returned : Nat

/-- The loop of `memcpy`, from index `i` of `src` to index `j` of `dest`. -/
def copyBytes (src : Nat → UInt8) : (size i j : Nat) → (dest : Nat → UInt8) → (Nat → UInt8)
  | 0, _, _, dest => dest
  | size + 1, i, j, dest =>
      copyBytes src size (i + 1) (j + 1) (Function.update dest j (src i))

/-- The number of sectors that `ATA_read_b` reads. -/
def sectorsOf (offset size : Nat) : Nat :=
  (offset + size) / 512 - offset / 512 + 1

/-- `ATA_read_b`, with `ATA_read` on a buffer as a parameter, and `stack` for what `whole_sector`
has before. The size of an array and the sizes of `memcpy` and of the result are 32-bit numbers.
-/
def ataReadBytes (ataRead : (block size : Nat) → (Nat → UInt8) → (Nat → UInt8))
    (stack : Nat → UInt8) (offset size : Nat) (buf : Nat → UInt8) : ByteRead :=
  let start := offset / 512
  let last := (offset + size) % 2 ^ 64 / 512
  let n := (last + 2 ^ 64 - start + 1) % 2 ^ 64
  let wholeSector := ataRead start n stack
  { capacity := n * 512 % 2 ^ 64 % 2 ^ 32
    accessed := List.range (n * 512) ++ (List.range (size % 2 ^ 32)).map (offset % 512 + ·)
    buf := copyBytes wholeSector (size % 2 ^ 32) (offset % 512) 0 buf
    returned := size % 2 ^ 32 }

/-- `ATA_read` delivers the whole sectors asked for, and nothing else. -/
def Delivers (drv : Nat → UInt8) (ataRead : (block size : Nat) → (Nat → UInt8) → (Nat → UInt8))
    (block size : Nat) (buf : Nat → UInt8) : Prop :=
  ataRead block size buf = replaced buf drv 0 (block * 512) (size * 512)

/-- The buffer has the bytes of the drive and nothing is written behind them, no index is outside of
`whole_sector`, and the size is returned.
-/
structure ByteRead.Reads (r : ByteRead) (drv : Nat → UInt8) (offset size : Nat)
    (buf : Nat → UInt8) : Prop where
  filled : ∀ i < size, r.buf i = drv (offset + i)
  kept : ∀ i, size ≤ i → r.buf i = buf i
  inside : ∀ i ∈ r.accessed, i < r.capacity
  returned : r.returned = size

variable {drv stack buf : Nat → UInt8} {offset size : Nat}
  {ataRead : (block size : Nat) → (Nat → UInt8) → (Nat → UInt8)}

/-- `memcpy` replaces a run of bytes, by induction on the size. -/
theorem copyBytes_eq (src : Nat → UInt8) (size i j : Nat) (dest : Nat → UInt8)
    : copyBytes src size i j dest = replaced dest src j i size := by
  induction size generalizing i j dest with
  | zero => rw [copyBytes, replaced_zero]
  | succ size ih =>
      rw [copyBytes, ih]
      funext k
      simp only [replaced, Function.update_apply]
      split_ifs <;> first | rfl | omega | (congr 1; omega)

/-- The number of sectors, as the code computes it. -/
theorem sectorsOf_eq (noWrap : offset + size < 2 ^ 64)
    : ((offset + size) % 2 ^ 64 / 512 + 2 ^ 64 - offset / 512 + 1) % 2 ^ 64
      = sectorsOf offset size := by
  rw [sectorsOf]
  omega

/-- The bytes asked for lie in the sectors read. -/
theorem within_sectors (offset size : Nat)
    : offset % 512 + size < sectorsOf offset size * 512 := by
  rw [sectorsOf]
  omega

/-- Where no index is outside of `whole_sector`, its size is not reduced. -/
theorem ataReadBytes_fits (noWrap : offset + size < 2 ^ 64)
    (inside : ∀ i ∈ (ataReadBytes ataRead stack offset size buf).accessed,
      i < (ataReadBytes ataRead stack offset size buf).capacity)
    : sectorsOf offset size * 512 < 2 ^ 32 := by
  have some := within_sectors offset size
  by_contra large
  have last : sectorsOf offset size * 512 - 1
      ∈ (ataReadBytes ataRead stack offset size buf).accessed := by
    simp only [ataReadBytes, sectorsOf_eq noWrap]
    exact List.mem_append_left _ (List.mem_range.mpr (by omega))
  have bound := inside _ last
  simp only [ataReadBytes, sectorsOf_eq noWrap] at bound
  omega

/-- `ATA_read_b` reads the bytes through whole sectors of fewer than `2 ^ 32` bytes. -/
theorem ataReadBytes_reads (small : sectorsOf offset size * 512 < 2 ^ 32)
    (noWrap : offset + size < 2 ^ 64)
    (delivers : Delivers drv ataRead (offset / 512) (sectorsOf offset size) stack)
    : (ataReadBytes ataRead stack offset size buf).Reads drv offset size buf := by
  have inSectors := within_sectors offset size
  have sizeFits : size % 2 ^ 32 = size := Nat.mod_eq_of_lt (by omega)
  have room : sectorsOf offset size * 512 % 2 ^ 64 % 2 ^ 32 = sectorsOf offset size * 512 := by
    omega
  have copied : (ataReadBytes ataRead stack offset size buf).buf
      = replaced buf (replaced stack drv 0 (offset / 512 * 512) (sectorsOf offset size * 512))
          0 (offset % 512) size := by
    simp only [ataReadBytes, sectorsOf_eq noWrap, copyBytes_eq, sizeFits]
    rw [delivers]
  refine ⟨fun i within => ?filled, fun i beyond => ?kept, fun i access => ?inside, ?returned⟩
  case filled =>
    rw [copied, replaced, if_pos (by omega), replaced, if_pos (by omega)]
    congr 1
    omega
  case kept =>
    rw [copied, replaced, if_neg (by omega)]
  case inside =>
    simp only [ataReadBytes, sectorsOf_eq noWrap, sizeFits, room, List.mem_append,
      List.mem_range, List.mem_map] at access ⊢
    rcases access with direct | ⟨j, within, rfl⟩
    · exact direct
    · omega
  case returned =>
    simp only [ataReadBytes, sizeFits]

/-- `ATA_read_b` reads the bytes exactly if its whole sectors have fewer than `2 ^ 32` bytes. The
array for the sectors has as many bytes as `size_t` can say, so below that bound the sectors fit,
and from it on they do not.
-/
theorem ataReadBytes_iff (noWrap : offset + size < 2 ^ 64)
    (delivers : Delivers drv ataRead (offset / 512) (sectorsOf offset size) stack)
    : (ataReadBytes ataRead stack offset size buf).Reads drv offset size buf
      ↔ sectorsOf offset size * 512 < 2 ^ 32 :=
  ⟨fun reads => ataReadBytes_fits noWrap reads.inside,
    fun small => ataReadBytes_reads small noWrap delivers⟩

/-- Four bytes across two sectors. -/
theorem ataReadBytes_across
    : (ataReadBytes (fun block size buf => replaced buf (fun k => UInt8.ofNat k) 0 (block * 512)
          (size * 512)) (fun _ => 0) 510 4 (fun _ => 0)).Reads (fun k => UInt8.ofNat k) 510 4
          (fun _ => 0)
      ↔ sectorsOf 510 4 * 512 < 2 ^ 32 :=
  ataReadBytes_iff (by decide) rfl

/-- For `2 ^ 32` bytes, `ATA_read_b` returns 0. -/
theorem not_ataReadBytes_large
    : ¬ (ataReadBytes (fun block size buf => replaced buf (fun _ => 1) 0 (block * 512)
          (size * 512)) (fun _ => 0) 0 (2 ^ 32) (fun _ => 0)).Reads (fun _ => 1) 0 (2 ^ 32)
          (fun _ => 0) := by
  intro reads
  have returned : 2 ^ 32 % 2 ^ 32 = 2 ^ 32 := reads.returned
  omega

/-- The bytes read are those that the file system reads. -/
theorem ataReadBytes_ataReadB (small : sectorsOf offset size * 512 < 2 ^ 32)
    (noWrap : offset + size < 2 ^ 64)
    (delivers : Delivers drv ataRead (offset / 512) (sectorsOf offset size) stack)
    : (List.range size).map (ataReadBytes ataRead stack offset size buf).buf
      = ataReadB drv offset size := by
  rw [ataReadB_eq]
  refine List.map_congr_left fun i member => ?_
  exact (ataReadBytes_reads small noWrap delivers).filled i (List.mem_range.mp member)

/-- `ATA_read`, which is `ATA_PIO_read`: the buffer, and as it was if `ATA_PIO_read` does not end.
-/
def ataReadByPio (fuel : Nat) (d : PioDevice) (ms : Nat) (block size : Nat) (buf : Nat → UInt8)
    : Nat → UInt8 :=
  match ataPIORead fuel d ms block size buf with
  | none => buf
  | some (_, _, buf) => buf

/-- From an idle device, `ATA_read_b` reads bytes in at most 256 sectors. -/
theorem ataReadBytes_pio {d : PioDevice} (idle : d.transfer = none) (ms : Nat)
    (there : offset + size < 2 ^ 28 * 512) (few : sectorsOf offset size ≤ 256)
    : ∀ᶠ fuel in atTop,
        (ataReadBytes (ataReadByPio fuel d ms) stack offset size buf).Reads d.content offset size buf := by
  have positive : 1 ≤ sectorsOf offset size := Nat.le_add_left ..
  obtain ⟨d', -, -, ends⟩ := ataPIORead_eventually idle
    (show offset / 512 < 2 ^ 28 by omega) positive few ms stack
  filter_upwards [ends] with fuel ended
  refine ataReadBytes_reads (by omega) (by omega) ?_
  rw [Delivers, ataReadByPio, ended]

end Hydrangea
