import SeriesStore.Chunk.Parser

/-!
# Changes of the sampling interval

From its third sample on a chunk stores how much the interval between two samples differs from
the one before. The difference goes into the first of five buckets that holds it; each bucket has
its own marker.

| marker | payload | holds |
|---|---|---|
| 0 | none | zero |
| 10 | 14 bits | -8191 to 8192 |
| 110 | 17 bits | -65535 to 65536 |
| 1110 | 20 bits | -524287 to 524288 |
| 1111 | 64 bits | everything |
-/

namespace SeriesStore.Interval

/-- Whether a bucket with `n` bits of payload holds a number. -/
def fits (n : Nat) (x : Int) : Bool :=
  let half : Int := (1 <<< (n - 1) : Nat)
  decide (1 - half ≤ x) && decide (x ≤ half)

/-- The `n` low bits of an integer in two's complement. -/
def lowBits (n : Nat) (x : Int) : Bits := Bits.ofNat n (x % (1 <<< n : Nat)).toNat

/-- The stored form of a change of the interval. -/
def encode (change : Int64) : Bits :=
  let x := change.toInt
  if x = 0 then [false]
  else if fits 14 x then [true, false] ++ lowBits 14 x
  else if fits 17 x then [true, true, false] ++ lowBits 17 x
  else if fits 20 x then [true, true, true, false] ++ lowBits 20 x
  else [true, true, true, true] ++ lowBits 64 x

/-- The number in a bucket with `n` bits of payload. The upper half of the codes, without the
middle one, stands for negative numbers. -/
def ofCode (n : Nat) (code : Nat) : Int64 :=
  if 1 <<< (n - 1) < code then Int64.ofInt (code - (1 <<< n : Nat)) else Int64.ofInt code

/-- Counts marker bits up to the first zero, at most four of them. -/
def marker : Nat → BitParser Nat
  | 0 => pure 0
  | n + 1 => do
    if ← BitParser.bit then
      let k ← marker n
      pure (k + 1)
    else pure 0

/-- Takes a change of the interval. -/
def decode : BitParser Int64 := do
  match ← marker 4 with
  | 0 => pure 0
  | 1 => let code ← BitParser.bits 14; pure (ofCode 14 code)
  | 2 => let code ← BitParser.bits 17; pure (ofCode 17 code)
  | 3 => let code ← BitParser.bits 20; pure (ofCode 20 code)
  | _ => let code ← BitParser.bits 64; pure (Int64.ofInt code)

end SeriesStore.Interval
