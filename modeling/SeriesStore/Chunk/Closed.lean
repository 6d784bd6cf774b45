import SeriesStore.Chunk.Basic
import SeriesStore.Chunk.Cursor
import SeriesStore.Error

/-!
# Closed chunks

A closed chunk is the payload of a chunk that is no longer appended to, together with the way in
which it is encoded. Its record is a tag for the encoding and then the payload. In an index each
closed chunk has an entry with its first and last timestamp.
-/

namespace SeriesStore

/-- The ways in which samples can be encoded. -/
inductive Encoding
  /-- Changes of intervals, and values as differences of bit patterns. -/
  | xor
  deriving DecidableEq

namespace Encoding

/-- The tag in front of a record. -/
def tag : Encoding → UInt8
  | xor => 1

/-- The name of an encoding. -/
def name : Encoding → String
  | xor => "xor"

/-- The encoding with a given tag. -/
def ofTag? (t : UInt8) : Except StorageError Encoding :=
  if t = 1 then .ok xor else .error (.unknownEncoding t)

theorem ofTag?_tag (e : Encoding) : ofTag? e.tag = .ok e := by
  cases e; rfl

end Encoding

/-- An encoded chunk that is no longer appended to. -/
structure ClosedChunk where
  encoding : Encoding
  payload : Bytes
  deriving DecidableEq

namespace ClosedChunk

/-- The closed form of a chunk. -/
def ofChunk (c : Chunk) : ClosedChunk := ⟨.xor, c.payload⟩

/-- The stored form: tag, then payload. -/
def record (c : ClosedChunk) : Bytes := c.encoding.tag :: c.payload

/-- The closed chunk in a record. -/
def ofRecord? : Bytes → Except StorageError ClosedChunk
  | [] => .error (.corrupt .emptyRecord)
  | t :: payload => do
    let encoding ← Encoding.ofTag? t
    return ⟨encoding, payload⟩

/-- The position in front of the first sample. -/
def cursor (c : ClosedChunk) : Cursor :=
  match c.encoding with
  | .xor => .ofPayload c.payload

/-- The number of samples that the chunk announces. -/
def size (c : ClosedChunk) : Nat := c.cursor.left

/-- The samples up to the first damage, and that damage. -/
def samples (c : ClosedChunk) : List Sample × Option ChunkDamage :=
  let (xs, stop) := c.cursor.drain
  (xs, stop.damage)

theorem ofRecord?_record (c : ClosedChunk) : ofRecord? c.record = .ok c := by
  obtain ⟨e, p⟩ := c
  simp [record, ofRecord?, Encoding.ofTag?_tag, bind, Except.bind, pure, Except.pure]

end ClosedChunk

/-- A closed chunk with the timestamps of its first and last sample. -/
structure Entry where
  min : Int64
  max : Int64
  chunk : ClosedChunk
  deriving DecidableEq

/-- The entry for a chunk, unless the chunk is empty. -/
def Entry.ofChunk? (c : Chunk) : Option Entry :=
  c.bounds?.map fun b => ⟨b.1, b.2, .ofChunk c⟩

end SeriesStore
