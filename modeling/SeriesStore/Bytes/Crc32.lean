import SeriesStore.Bytes

/-!
# The 32-bit cyclic redundancy check

The check of IEEE 802.3 with reflected bits: the register starts with all bits set, takes one
byte after the other, and is complemented at the end.
-/

namespace SeriesStore.Crc32

/-- The generator polynomial, lowest degree in the highest bit. -/
def polynomial : UInt32 := 0xEDB88320

/-- Shifts one bit out of the register. -/
def shift (r : UInt32) : UInt32 :=
  if r &&& 1 = 1 then (r >>> 1) ^^^ polynomial else r >>> 1

/-- Takes one byte into the register. -/
def absorb (r : UInt32) (b : UInt8) : UInt32 :=
  shift (shift (shift (shift (shift (shift (shift (shift (r ^^^ b.toUInt32))))))))

/-- The check of a byte string. -/
def checksum (bs : Bytes) : UInt32 :=
  bs.foldl absorb 0xFFFFFFFF ^^^ 0xFFFFFFFF

end SeriesStore.Crc32
