import SeriesStore.Bits.Writer
import SeriesStore.Chunk.Stream

/-!
# Chunks

A chunk is an append-only run of samples. Its payload is the number of samples in two bytes,
most significant first, and then the stream of the samples.
-/

namespace SeriesStore

/-- A chunk that can be appended to. -/
structure Chunk where
  stream : BitWriter := {}
  state : StreamState := {}
  /-- Timestamp of the first sample. -/
  first : Int64 := 0

namespace Chunk

/-- The largest number of samples that the header can say. -/
def capacity : Nat := 65535

/-- A chunk without samples. -/
def empty : Chunk := {}

/-- Number of samples. -/
def size (c : Chunk) : Nat := c.state.count

/-- Whether no sample can be added. -/
def isFull (c : Chunk) : Bool := decide (capacity ≤ c.size)

/-- Adds a sample behind the others, unless the chunk is full. Timestamps may come in any
order. -/
def append? (c : Chunk) (x : Sample) : Option Chunk :=
  if c.isFull then none
  else
    let (bits, state) := c.state.encode x
    some ⟨c.stream.append bits, state, if c.size = 0 then x.time else c.first⟩

/-- The chunk of the leading samples of a list, as many as fit. -/
def ofSamples (xs : List Sample) : Chunk :=
  xs.foldl (fun c x => (c.append? x).getD c) empty

/-- First and last timestamp, in the order of appending. -/
def bounds? (c : Chunk) : Option (Int64 × Int64) :=
  if c.size = 0 then none else some (c.first, c.state.last.time)

/-- The encoded form: number of samples, then their stream. -/
def payload (c : Chunk) : Bytes := Bytes.ofCount c.size ++ c.stream.bytes

/-- Number of bytes in the payload. -/
def payloadSize (c : Chunk) : Nat := 2 + c.stream.byteCount

end Chunk

end SeriesStore
