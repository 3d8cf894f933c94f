import Mathlib.Data.BitVec
import DataCrystal.Lib.Frames

/-!
# Cyclic Redundancy Checks

The checksum of a byte sequence, and that it can be taken piece by piece: the
checksum of the pieces so far is all the next one needs.

## Main definitions

* `crcByte`: One byte shifted into the register.
* `crc32`: The checksum, from a running one.

## Theorems

* `crc32_append`: The checksum of two pieces, one after the other.
-/

namespace DataCrystal

/-- One bit shifted out of the register, through the reflected polynomial. -/
def crcBit (c : BitVec 32) : BitVec 32 :=
  if c.getLsbD 0 then (c >>> 1) ^^^ 0xEDB88320#32 else c >>> 1

/-- One byte shifted into the register. -/
def crcByte (c : BitVec 32) (b : UInt8) : BitVec 32 :=
  crcBit^[8] (c ^^^ BitVec.ofNat 32 b.toNat)

/-- The checksum of some bytes, continuing a checksum. -/
def crc32 (data : Bytes) (running : BitVec 32) : BitVec 32 :=
  data.foldl crcByte (running ^^^ BitVec.allOnes 32) ^^^ BitVec.allOnes 32

theorem crc32_nil (running : BitVec 32) : crc32 [] running = running := by
  rw [crc32, List.foldl_nil, BitVec.xor_assoc, BitVec.xor_self, BitVec.xor_zero]

/-- The register is complemented at the end of a piece and again at the start of the
    next one. -/
theorem crc32_append (a b : Bytes) (running : BitVec 32) :
    crc32 (a ++ b) running = crc32 b (crc32 a running) := by
  unfold crc32
  rw [List.foldl_append, BitVec.xor_assoc (List.foldl crcByte _ a), BitVec.xor_self,
    BitVec.xor_zero]

end DataCrystal
