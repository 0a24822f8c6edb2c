import Hydrangea.Lib.Memory

/-! Descriptors of segments and gates as a 32-bit x86 processor reads them, and the ports that the
task state segment leaves to code outside ring 0.
-/

def Memory.store16 (m : Memory) (a : BitVec 32) (v : BitVec 16) : Memory :=
  fun x => if x = a then v.extractLsb' 0 8 else if x = a + 1 then v.extractLsb' 8 8 else m x

namespace X86

/-- What a segment descriptor says. The limit is the last offset inside. -/
structure Segment where
  base : BitVec 32
  limit : BitVec 32
  kind : BitVec 4
  system : Bool
  dpl : BitVec 2
  present : Bool
  wide : Bool
  deriving DecidableEq

/-- Reading a segment descriptor. With the granularity bit, the limit counts pages. -/
def Segment.decode (d : BitVec 64) : Segment where
  base := d.extractLsb' 56 8 ++ d.extractLsb' 16 24
  limit :=
    let limit := d.extractLsb' 48 4 ++ d.extractLsb' 0 16
    if d.getLsbD 55 then limit ++ 0xFFF#12 else limit.setWidth 32
  kind := d.extractLsb' 40 4
  system := !d.getLsbD 44
  dpl := d.extractLsb' 45 2
  present := d.getLsbD 47
  wide := d.getLsbD 54

/-- The gates to code of 32 bits. -/
inductive GateKind where
  | interrupt
  | trap
  deriving DecidableEq

/-- What a gate descriptor says; the gates to other code have no kind. -/
structure Gate where
  offset : BitVec 32
  selector : BitVec 16
  kind : Option GateKind
  dpl : BitVec 2
  present : Bool
  deriving DecidableEq

def GateKind.ofType (type : BitVec 5) : Option GateKind :=
  if type = 0xE then some .interrupt else if type = 0xF then some .trap else none

def Gate.decode (d : BitVec 64) : Gate where
  offset := d.extractLsb' 48 16 ++ d.extractLsb' 0 16
  selector := d.extractLsb' 16 16
  kind := GateKind.ofType (d.extractLsb' 40 5)
  dpl := d.extractLsb' 45 2
  present := d.getLsbD 47

/-- Whether the task state segment leaves a byte-wide port to code whose ring is above the I/O
privilege level: the two bytes of the map from the one with the bit of the port on lie inside the
segment, and the bit is clear.
-/
def portPermitted (m : Memory) (tss : Segment) (port : Nat) : Bool :=
  let map := (m (tss.base + 103) ++ m (tss.base + 102)).toNat
  103 ≤ tss.limit.toNat && map + port / 8 + 1 ≤ tss.limit.toNat
    && !(m (tss.base + BitVec.ofNat 32 (map + port / 8))).getLsbD (port % 8)

/-- Some bits of a word that a mask leaves. -/
theorem setWidth_shiftRight_and {n s w : Nat} (x mask : BitVec n)
    (ones : ∀ i < w, mask.getLsbD (s + i) = true)
    : ((x &&& mask) >>> s).setWidth w = x.extractLsb' s w := by
  refine BitVec.eq_of_getLsbD_eq (fun i inside => ?_)
  rw [BitVec.getLsbD_setWidth, BitVec.getLsbD_ushiftRight, BitVec.getLsbD_and, ones i inside,
    BitVec.getLsbD_extractLsb', Bool.and_true]

/-- Some bits of a word, shifted before the mask. -/
theorem setWidth_and_shiftRight {n s w : Nat} (x mask : BitVec n)
    (ones : ∀ i < w, mask.getLsbD i = true)
    : ((x >>> s) &&& mask).setWidth w = x.extractLsb' s w := by
  refine BitVec.eq_of_getLsbD_eq (fun i inside => ?_)
  rw [BitVec.getLsbD_setWidth, BitVec.getLsbD_and, BitVec.getLsbD_ushiftRight, ones i inside,
    BitVec.getLsbD_extractLsb', Bool.and_true]

end X86
