import SeriesStore.Bits.Basic

/-!
# Writing bit strings

A writer keeps the completed bytes and the bits of the byte it has begun. Its view is the bit
string written so far; every operation appends to that view.
-/

namespace SeriesStore

/-- An append-only bit string that is kept as bytes. -/
structure BitWriter where
  /-- Completed bytes. -/
  full : ByteArray := .empty
  /-- Bits of the byte that has been begun, always fewer than eight. -/
  rest : Bits := []

namespace BitWriter

/-- A writer that continues after whole bytes. -/
def ofBytes (bs : Bytes) : BitWriter := ⟨⟨bs.toArray⟩, []⟩

/-- The bits written so far. -/
def toBits (w : BitWriter) : Bits := Bits.ofBytes w.full.data.toList ++ w.rest

/-- Writes one bit. -/
def push (w : BitWriter) (b : Bool) : BitWriter :=
  let begun := w.rest ++ [b]
  if begun.length = 8 then ⟨w.full.push (Bits.toByte begun), []⟩ else ⟨w.full, begun⟩

/-- Writes a bit string. -/
def append (w : BitWriter) (bs : Bits) : BitWriter := bs.foldl push w

/-- Number of bytes that hold the bits written so far. -/
def byteCount (w : BitWriter) : Nat :=
  w.full.size + if w.rest.isEmpty then 0 else 1

/-- The bits written so far as bytes, the last one filled up with zeros. -/
def bytes (w : BitWriter) : Bytes :=
  w.full.data.toList ++ if w.rest.isEmpty then [] else [Bits.toByte w.rest]

end BitWriter

end SeriesStore
