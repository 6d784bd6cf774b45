import SeriesStore.Bits.Reader
import SeriesStore.Bits.Varint
import SeriesStore.Chunk.Damage

/-!
# Reading numbers from a payload

A parser takes numbers from the front of a bit string and reports the first damage it meets.
-/

namespace SeriesStore

/-- A computation that takes bits from a payload. -/
abbrev BitParser := StateT BitReader (Except ChunkDamage)

namespace BitParser

/-- Takes one bit. -/
def bit : BitParser Bool := fun r =>
  match r.next? with
  | some p => .ok p
  | none => .error (.truncated r.position)

/-- Takes `n` bits and appends them to a number. -/
def bitsOnto : Nat → Nat → BitParser Nat
  | 0, v => pure v
  | n + 1, v => do
    let b ← bit
    bitsOnto n (2 * v + b.toNat)

/-- Takes the number that the next `n` bits denote. -/
def bits (n : Nat) : BitParser Nat := bitsOnto n 0

/-- Takes groups of seven bits onto a number, of which the lowest `shift` bits are known. At most
`left` groups may follow; bits that do not fit into a word are dropped. -/
def groups : Nat → Nat → Nat → BitParser Nat
  | 0, _, _ => do
    let _ ← bits 8
    throw .longNumber
  | left + 1, shift, v => do
    let b ← bits 8
    let v := (v + (b % 128) <<< shift) % 0x10000000000000000
    if b < 128 then pure v else groups left (shift + 7) v

/-- Takes a number of variable length. -/
def varint : BitParser Nat := groups 10 0 0

/-- Takes a signed number of variable length. -/
def signedVarint : BitParser Int := do
  let n ← varint
  pure (Varint.unfold n)

end BitParser

end SeriesStore
