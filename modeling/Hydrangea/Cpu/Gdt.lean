import Hydrangea.Lib.Descriptors

/-! The global descriptor table of `kernel/cpu/gdt.c`, and the task state segment of
`kernel/cpu/tss.c` that it describes.
-/

namespace Hydrangea

open X86

def gdtRw : BitVec 8 := 1 <<< 1
def gdtX : BitVec 8 := 1 <<< 3
def gdtS : BitVec 8 := 1 <<< 4
def gdtRg (k : BitVec 8) : BitVec 8 := k <<< 5
def gdtPr : BitVec 8 := 1 <<< 7

structure GdtEntry where
  limitLo : BitVec 16
  baseLo : BitVec 16
  baseMid : BitVec 8
  rights : BitVec 8
  limHiAndFlags : BitVec 8
  baseHi : BitVec 8

/-- The eight bytes of an entry, the first one lowest. -/
def GdtEntry.bits (e : GdtEntry) : BitVec 64 :=
  e.baseHi ++ (e.limHiAndFlags ++ (e.rights ++ (e.baseMid ++ (e.baseLo ++ e.limitLo))))

/-- The entries of `gdt_entries`, by their index. -/
abbrev GdtEntries := Nat → GdtEntry

def noGdtEntries : GdtEntries :=
  fun _ => { limitLo := 0, baseLo := 0, baseMid := 0, rights := 0, limHiAndFlags := 0, baseHi := 0 }

/-- What `gdt_set_entry` writes. -/
def gdtEntry (base limit : BitVec 32) (rights flags : BitVec 8) : GdtEntry where
  baseLo := (base &&& 0x0000FFFF).setWidth 16
  baseMid := ((base &&& 0x00FF0000) >>> 16).setWidth 8
  baseHi := ((base &&& 0xFF000000) >>> 24).setWidth 8
  limitLo := (limit &&& 0x0000FFFF).setWidth 16
  limHiAndFlags :=
    ((((limit &&& 0xFFFF0000) >>> 16) &&& 0x0F) ||| (flags.setWidth 32 &&& 0xF0)).setWidth 8
  rights := rights

def gdtSetEntry (entries : GdtEntries) (index : Nat) (base limit : BitVec 32)
    (rights flags : BitVec 8)
    : GdtEntries :=
  Function.update entries index (gdtEntry base limit rights flags)

/-- `tss_init`, where `tss` is at an address: the fields of the segment and its descriptor. -/
def tssInit (tss : BitVec 32) (m : Memory) (entries : GdtEntries) (index : Nat) (ss0 : BitVec 32)
    : Memory × GdtEntries :=
  let m := m.store (tss + 8) ss0
  let m := m.store (tss + 80) ss0
  let m := m.store (tss + 84) ss0
  let m := m.store (tss + 88) ss0
  let m := m.store (tss + 92) ss0
  let m := m.store (tss + 72) ss0
  let m := m.store (tss + 76) 0x8
  let m := m.store16 (tss + 102) 104
  let base := tss
  let limit := base + 104
  let rights := 1 ||| gdtX ||| gdtPr
  let flags := 0x40
  (m, gdtSetEntry entries index base limit rights flags)

def tssSetEsp0 (tss : BitVec 32) (m : Memory) (esp0 : BitVec 32) : Memory :=
  (m.store (tss + 4) esp0).store (tss + 56) esp0

/-- The part of `gdt_init` that fills `gdt_entries`. -/
def gdtInit (tss : BitVec 32) (m : Memory) : Memory × GdtEntries :=
  let entries := noGdtEntries
  let entries := gdtSetEntry entries 0 0x0 0x0 0 0
  let entries := gdtSetEntry entries 1 0x0 0xFFFFFFFF (gdtRw ||| gdtX ||| gdtS ||| gdtPr) 0xC0
  let entries := gdtSetEntry entries 2 0x0 0xFFFFFFFF (gdtRw ||| gdtS ||| gdtPr) 0xC0
  let entries :=
    gdtSetEntry entries 3 0x0 0xFFFFFFFF (gdtRw ||| gdtX ||| gdtS ||| gdtRg 3 ||| gdtPr) 0xC0
  let entries := gdtSetEntry entries 4 0x0 0xFFFFFFFF (gdtRw ||| gdtS ||| gdtRg 3 ||| gdtPr) 0xC0
  tssInit tss m entries 5 0x10

section

variable (e : GdtEntry)

theorem GdtEntry.extract_limitLo : e.bits.extractLsb' 0 16 = e.limitLo := by
  rw [bits, BitVec.extractLsb'_append_eq_of_add_le (by decide),
    BitVec.extractLsb'_append_eq_of_add_le (by decide),
    BitVec.extractLsb'_append_eq_of_add_le (by decide),
    BitVec.extractLsb'_append_eq_of_add_le (by decide)]
  exact BitVec.extractLsb'_append_eq_right

theorem GdtEntry.extract_baseLo : e.bits.extractLsb' 16 16 = e.baseLo := by
  rw [bits, BitVec.extractLsb'_append_eq_of_add_le (by decide),
    BitVec.extractLsb'_append_eq_of_add_le (by decide),
    BitVec.extractLsb'_append_eq_of_add_le (by decide),
    BitVec.extractLsb'_append_eq_of_add_le (by decide)]
  exact BitVec.extractLsb'_append_eq_left

theorem GdtEntry.extract_baseMid : e.bits.extractLsb' 32 8 = e.baseMid := by
  rw [bits, BitVec.extractLsb'_append_eq_of_add_le (by decide),
    BitVec.extractLsb'_append_eq_of_add_le (by decide),
    BitVec.extractLsb'_append_eq_of_add_le (by decide)]
  exact BitVec.extractLsb'_append_eq_left

theorem GdtEntry.extract_baseHi : e.bits.extractLsb' 56 8 = e.baseHi :=
  BitVec.extractLsb'_append_eq_left

theorem GdtEntry.extract_rights (start len : Nat) (inside : start + len ≤ 8)
    : e.bits.extractLsb' (40 + start) len = e.rights.extractLsb' start len := by
  rw [bits, BitVec.extractLsb'_append_eq_of_add_le (by omega),
    BitVec.extractLsb'_append_eq_of_add_le (by omega),
    BitVec.extractLsb'_append_eq_of_le (by omega),
    show 40 + start - (8 + (16 + 16)) = start by omega]

theorem GdtEntry.extract_limHiAndFlags (start len : Nat) (inside : start + len ≤ 8)
    : e.bits.extractLsb' (48 + start) len = e.limHiAndFlags.extractLsb' start len := by
  rw [bits, BitVec.extractLsb'_append_eq_of_add_le (by omega),
    BitVec.extractLsb'_append_eq_of_le (by omega),
    show 48 + start - (8 + (8 + (16 + 16))) = start by omega]

theorem GdtEntry.getLsbD_rights {i : Nat} (inside : i < 8)
    : e.bits.getLsbD (40 + i) = e.rights.getLsbD i := by
  have same := congrArg (fun b => b.getLsbD 0) (e.extract_rights i 1 (by omega))
  simpa using same

theorem GdtEntry.getLsbD_limHiAndFlags {i : Nat} (inside : i < 8)
    : e.bits.getLsbD (48 + i) = e.limHiAndFlags.getLsbD i := by
  have same := congrArg (fun b => b.getLsbD 0) (e.extract_limHiAndFlags i 1 (by omega))
  simpa using same

end

section

variable (base limit : BitVec 32) (rights flags : BitVec 8)

theorem gdtEntry_baseLo
    : (gdtEntry base limit rights flags).baseLo = base.extractLsb' 0 16 := by
  rw [← setWidth_shiftRight_and base 0x0000FFFF (by decide), BitVec.ushiftRight_zero]
  rfl

theorem gdtEntry_baseMid
    : (gdtEntry base limit rights flags).baseMid = base.extractLsb' 16 8 := by
  rw [← setWidth_shiftRight_and base 0x00FF0000 (by decide)]
  rfl

theorem gdtEntry_baseHi
    : (gdtEntry base limit rights flags).baseHi = base.extractLsb' 24 8 := by
  rw [← setWidth_shiftRight_and base 0xFF000000 (by decide)]
  rfl

theorem gdtEntry_limitLo
    : (gdtEntry base limit rights flags).limitLo = limit.extractLsb' 0 16 := by
  rw [← setWidth_shiftRight_and limit 0x0000FFFF (by decide), BitVec.ushiftRight_zero]
  rfl

/-- The byte of the limit and the flags, bit by bit. -/
theorem gdtEntry_limHiAndFlags {i : Nat} (inside : i < 8)
    : (gdtEntry base limit rights flags).limHiAndFlags.getLsbD i
      = if i < 4 then limit.getLsbD (16 + i) else flags.getLsbD i := by
  have entry : (gdtEntry base limit rights flags).limHiAndFlags
      = ((((limit &&& 0xFFFF0000) >>> 16) &&& 0x0F)
          ||| (flags.setWidth 32 &&& 0xF0)).setWidth 8 := rfl
  rw [entry]
  interval_cases i <;> simp

/-- The processor reads back the base, the rights and the four flags that `gdt_set_entry` is given,
and the low 20 bits of the limit.
-/
theorem decode_gdtEntry
    : Segment.decode (gdtEntry base limit rights flags).bits
      = { base
          limit :=
            if flags.getLsbD 7 then limit.extractLsb' 0 20 ++ 0xFFF#12
            else (limit.extractLsb' 0 20).setWidth 32
          kind := rights.extractLsb' 0 4
          system := !rights.getLsbD 4
          dpl := rights.extractLsb' 5 2
          present := rights.getLsbD 7
          wide := flags.getLsbD 6 } := by
  have low : (gdtEntry base limit rights flags).bits.extractLsb' 16 24
      = base.extractLsb' 0 24 := by
    rw [← BitVec.extractLsb'_append_extractLsb'_eq_extractLsb' (show 32 = 16 + 16 by rfl),
      GdtEntry.extract_baseMid, GdtEntry.extract_baseLo, gdtEntry_baseMid, gdtEntry_baseLo]
    exact BitVec.extractLsb'_append_extractLsb'_eq_extractLsb' rfl
  have base' : (gdtEntry base limit rights flags).bits.extractLsb' 56 8
      ++ (gdtEntry base limit rights flags).bits.extractLsb' 16 24 = base := by
    rw [GdtEntry.extract_baseHi, gdtEntry_baseHi, low,
      BitVec.extractLsb'_append_extractLsb'_eq_extractLsb' (by rfl)]
    exact BitVec.extractLsb'_eq_self
  have high : (gdtEntry base limit rights flags).limHiAndFlags.extractLsb' 0 4
      = limit.extractLsb' 16 4 := by
    refine BitVec.eq_of_getLsbD_eq (fun i inside => ?_)
    rw [BitVec.getLsbD_extractLsb', BitVec.getLsbD_extractLsb', Nat.zero_add,
      gdtEntry_limHiAndFlags _ _ _ _ (by omega), if_pos inside]
  have limit' : (gdtEntry base limit rights flags).bits.extractLsb' 48 4
      ++ (gdtEntry base limit rights flags).bits.extractLsb' 0 16 = limit.extractLsb' 0 20 := by
    rw [GdtEntry.extract_limHiAndFlags _ 0 4 (by decide), GdtEntry.extract_limitLo, high,
      gdtEntry_limitLo]
    exact BitVec.extractLsb'_append_extractLsb'_eq_extractLsb' rfl
  have flag (i : Nat) (inside : 4 ≤ i ∧ i < 8)
      : (gdtEntry base limit rights flags).bits.getLsbD (48 + i) = flags.getLsbD i := by
    rw [GdtEntry.getLsbD_limHiAndFlags _ inside.2, gdtEntry_limHiAndFlags _ _ _ _ inside.2,
      if_neg (by omega)]
  have right (i : Nat) (inside : i < 8)
      : (gdtEntry base limit rights flags).bits.getLsbD (40 + i) = rights.getLsbD i :=
    GdtEntry.getLsbD_rights _ inside
  rw [Segment.decode]
  congr 1
  · simp only [limit', flag 7 (by decide)]
  · exact GdtEntry.extract_rights _ 0 4 (by decide)
  · rw [right 4 (by decide)]
  · exact GdtEntry.extract_rights _ 5 2 (by decide)
  · exact right 7 (by decide)
  · exact flag 6 (by decide)

end

/-- A segment that `gdt_init` describes, as the processor reads it. -/
def gdtSegment (tss : BitVec 32) (m : Memory) (index : Nat) : Segment :=
  Segment.decode ((gdtInit tss m).2 index).bits

/-- The flat segments of `gdt_init`, for the code and the data of rings 0 and 3. -/
theorem gdtSegment_flat (tss : BitVec 32) (m : Memory)
    : gdtSegment tss m 1 = ⟨0, 0xFFFFFFFF, 0xA, false, 0, true, true⟩
      ∧ gdtSegment tss m 2 = ⟨0, 0xFFFFFFFF, 0x2, false, 0, true, true⟩
      ∧ gdtSegment tss m 3 = ⟨0, 0xFFFFFFFF, 0xA, false, 3, true, true⟩
      ∧ gdtSegment tss m 4 = ⟨0, 0xFFFFFFFF, 0x2, false, 3, true, true⟩ := by
  refine ⟨?_, ?_, ?_, ?_⟩
  · exact decode_gdtEntry 0x0 0xFFFFFFFF (gdtRw ||| gdtX ||| gdtS ||| gdtPr) 0xC0
  · exact decode_gdtEntry 0x0 0xFFFFFFFF (gdtRw ||| gdtS ||| gdtPr) 0xC0
  · exact decode_gdtEntry 0x0 0xFFFFFFFF (gdtRw ||| gdtX ||| gdtS ||| gdtRg 3 ||| gdtPr) 0xC0
  · exact decode_gdtEntry 0x0 0xFFFFFFFF (gdtRw ||| gdtS ||| gdtRg 3 ||| gdtPr) 0xC0

/-- The task state segment of `gdt_init`; its limit is where `tss` ends, and not its size. -/
theorem gdtSegment_tss (tss : BitVec 32) (m : Memory)
    : gdtSegment tss m 5
      = ⟨tss, ((tss + 104).extractLsb' 0 20).setWidth 32, 0x9, true, 0, true, true⟩ :=
  decode_gdtEntry tss (tss + 104) (1 ||| gdtX ||| gdtPr) 0x40

/-- The limit of the task state segment as a number. -/
theorem gdtSegment_tss_limit (tss : BitVec 32) (m : Memory)
    : (gdtSegment tss m 5).limit.toNat = (tss.toNat + 104) % 2 ^ 20 := by
  rw [gdtSegment_tss, BitVec.toNat_setWidth, BitVec.extractLsb'_toNat, Nat.shiftRight_zero,
    BitVec.toNat_add, Nat.mod_mod_of_dvd _ (by decide : 2 ^ 20 ∣ 2 ^ 32)]
  exact Nat.mod_eq_of_lt (by omega)

/-- Where `tss_init` leaves the offset of the map of ports: at the end of `tss`. -/
theorem gdtInit_map (tss : BitVec 32) (m : Memory)
    : (gdtInit tss m).1 (tss + 102) = 104 ∧ (gdtInit tss m).1 (tss + 103) = 0 := by
  have next : tss + 103 = tss + 102 + 1 := by
    rw [BitVec.add_assoc]
    rfl
  refine ⟨if_pos rfl, ?_⟩
  rw [next]
  exact (if_neg (by bv_omega)).trans (if_pos rfl)

/-- A task in ring 3 may use a port exactly if the byte with its bit lies below the end of `tss`
modulo 1 MiB, and the bit in the memory behind `tss` is clear. `tss_init` gives `base + limit` as
the limit, which is cut to 20 bits, and puts the permission map behind the end of the structure.
-/
theorem userPort_permitted_iff (tss : BitVec 32) (m m' : Memory) (port : Nat)
    (kept : ∀ a, a = tss + 102 ∨ a = tss + 103 → m' a = (gdtInit tss m).1 a)
    : portPermitted m' (gdtSegment tss m 5) port = true
      ↔ 105 + port / 8 ≤ (tss.toNat + 104) % 2 ^ 20
        ∧ (m' (tss + BitVec.ofNat 32 (104 + port / 8))).getLsbD (port % 8) = false := by
  have low : m' (tss + 102) = 104 := (kept _ (.inl rfl)).trans (gdtInit_map tss m).1
  have high : m' (tss + 103) = 0 := (kept _ (.inr rfl)).trans (gdtInit_map tss m).2
  have base : (gdtSegment tss m 5).base = tss := by
    rw [gdtSegment_tss]
  have map : (m' (tss + 103) ++ m' (tss + 102)).toNat = 104 := by
    rw [low, high]
    rfl
  rw [portPermitted]
  simp only [base, map, gdtSegment_tss_limit, Bool.and_eq_true, decide_eq_true_eq,
    Bool.not_eq_true']
  constructor
  · rintro ⟨⟨-, inside⟩, clear⟩
    exact ⟨by omega, clear⟩
  · rintro ⟨inside, clear⟩
    exact ⟨⟨by omega, by omega⟩, clear⟩

theorem userPort_permitted_iff_serial
    : portPermitted (gdtInit 0x10000 (fun _ => 0)).1 (gdtSegment 0x10000 (fun _ => 0) 5) 0x3F8
        = true
      ↔ 105 + 0x3F8 / 8 ≤ ((0x10000#32).toNat + 104) % 2 ^ 20
        ∧ ((gdtInit 0x10000 (fun _ => 0)).1
            (0x10000#32 + BitVec.ofNat 32 (104 + 0x3F8 / 8))).getLsbD (0x3F8 % 8) = false :=
  userPort_permitted_iff 0x10000 (fun _ => 0) _ 0x3F8 (fun _ _ => rfl)

end Hydrangea
