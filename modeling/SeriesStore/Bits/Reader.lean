import SeriesStore.Bits.Basic

/-!
# Reading bit strings

A reader opens one byte at a time, so that a long payload is never spread out as a whole. Its
view is the bit string still to be read. The only failure is to read past the end.
-/

namespace SeriesStore

/-- A position in a byte string, counted in bits. -/
structure BitReader where
  /-- Bits of the opened byte that have not been read. -/
  opened : Bits
  /-- Bytes that have not been opened. -/
  rest : Bytes
  /-- Number of the next bit, counted from the start of the payload. -/
  position : Nat

namespace BitReader

/-- A reader that starts at byte `n` of a payload. -/
def ofBytes (bs : Bytes) (n : Nat) : BitReader := ⟨[], bs.drop n, 8 * n⟩

/-- The bits still to be read. -/
def toBits (r : BitReader) : Bits := r.opened ++ Bits.ofBytes r.rest

/-- The next bit, or nothing at the end. -/
def next? (r : BitReader) : Option (Bool × BitReader) :=
  match r.opened with
  | b :: bs => some (b, { r with opened := bs, position := r.position + 1 })
  | [] =>
    match r.rest with
    | [] => none
    | c :: cs =>
      match Bits.ofByte c with
      | b :: bs => some (b, ⟨bs, cs, r.position + 1⟩)
      | [] => none

end BitReader

end SeriesStore
