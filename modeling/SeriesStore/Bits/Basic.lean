import SeriesStore.Bytes

/-!
# Bit strings

A bit string is a list of bits, the most significant bit of a number first. Eight bits make a
byte; the last byte of a string is filled up with zeros.
-/

namespace SeriesStore

/-- A string of bits. -/
abbrev Bits := List Bool

namespace Bits

/-- The `n` low bits of a number. -/
def ofNat : Nat → Nat → Bits
  | 0, _ => []
  | n + 1, v => v.testBit n :: ofNat n v

/-- The number that a bit string denotes. -/
def toNat (bs : Bits) : Nat :=
  bs.foldl (fun v b => 2 * v + b.toNat) 0

@[simp] theorem length_ofNat (n v : Nat) : (ofNat n v).length = n := by
  induction n with
  | zero => rfl
  | succ n ih => simp [ofNat, ih]

/-- The bits of one byte. -/
def ofByte (b : UInt8) : Bits := ofNat 8 b.toNat

/-- The bits of a byte string. -/
def ofBytes (bs : Bytes) : Bits := bs.flatMap ofByte

@[simp] theorem ofBytes_nil : ofBytes [] = [] := rfl

@[simp] theorem ofBytes_cons (b : UInt8) (bs : Bytes) :
    ofBytes (b :: bs) = ofByte b ++ ofBytes bs := rfl

@[simp] theorem ofBytes_append (as bs : Bytes) :
    ofBytes (as ++ bs) = ofBytes as ++ ofBytes bs := by
  simp [ofBytes]

/-- The byte that starts with the given bits and is filled up with zeros. -/
def toByte (bs : Bits) : UInt8 :=
  UInt8.ofNat (toNat (bs ++ List.replicate (8 - bs.length) false))

end Bits

end SeriesStore
