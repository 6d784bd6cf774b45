import SeriesStore.Chunk.Closed
import SeriesStore.Segment.Header

/-!
# Layout of segment files

Behind the header of a segment file stand the records of its chunks, each between its size and
its checksum. A table with the position and the bounds of each chunk follows, then the size of the
table and its checksum.
-/

namespace SeriesStore

/-- Where a chunk stands in a segment file, and its bounds. -/
structure Slot where
  /-- Position of the size in front of the record. -/
  offset : UInt64
  /-- Number of bytes in the record. -/
  size : UInt32
  min : Int64
  max : Int64
  deriving DecidableEq

namespace Slot

/-- Number of bytes in a line of the table. -/
def byteCount : Nat := 28

/-- The written form of a slot. -/
def toBytes (s : Slot) : Bytes :=
  Bytes.ofUInt64 s.offset ++ Bytes.ofUInt32 s.size ++ Bytes.ofInt64 s.min ++ Bytes.ofInt64 s.max

/-- Reads a slot. -/
def ofBytes (bs : Bytes) : Slot :=
  ⟨bs.uint64At 0, bs.uint32At 8, bs.int64At 12, bs.int64At 20⟩

theorem length_toBytes (s : Slot) : s.toBytes.length = byteCount := by
  simp [toBytes, Bytes.ofUInt64, Bytes.ofUInt32, Bytes.ofInt64, byteCount]

end Slot

namespace Layout

/-! ### Writing -/

/-- The bounds in the entries of a file. -/
def bounds (entries : List Entry) : List (Int64 × Int64) := entries.map fun e => (e.min, e.max)

/-- The first record that is too large for its size to be written. -/
def oversized? (entries : List Entry) : Option Nat :=
  (entries.map fun e => e.chunk.record.length).find? fun n => decide (0x100000000 ≤ n)

/-- A record between its size and its checksum. -/
def framed (record : Bytes) : Bytes :=
  Bytes.ofNatLE 4 record.length ++ record ++ Bytes.ofUInt32 (Crc32.checksum record)

/-- The slots of entries whose first record is framed at a position. -/
def slotsFrom : Nat → List Entry → List Slot
  | _, [] => []
  | position, e :: es =>
    let size := e.chunk.record.length
    ⟨UInt64.ofNat position, UInt32.ofNat size, e.min, e.max⟩ :: slotsFrom (position + size + 8) es

/-- The slots of all entries of a file. -/
def slots (entries : List Entry) : List Slot := slotsFrom SegmentHeader.byteCount entries

/-- The table of slots with its size and its checksum. -/
def footer (slots : List Slot) : Bytes :=
  let table := slots.flatMap Slot.toBytes
  table ++ Bytes.ofUInt32 (UInt32.ofNat table.length) ++ Bytes.ofUInt32 (Crc32.checksum table)

/-- The header of the file for some entries. -/
def header (entries : List Entry) : SegmentHeader := .ofBounds (bounds entries)

/-- The contents of the file for some entries. -/
def file (entries : List Entry) : Bytes :=
  (header entries).toBytes ++ entries.flatMap (fun e => framed e.chunk.record)
    ++ footer (slots entries)

/-! ### Reading -/

/-- The first `n` slots of a table. -/
def readSlots : Nat → Bytes → List Slot
  | 0, _ => []
  | n + 1, bs => Slot.ofBytes (bs.take Slot.byteCount) :: readSlots n (bs.drop Slot.byteCount)

/-- Header and slots in the contents of a file. -/
def readTable (content : Bytes) : Except StorageError (SegmentHeader × List Slot) := do
  let total := content.length
  if total < SegmentHeader.byteCount then throw (.io .unexpectedEnd)
  let header ← SegmentHeader.ofBytes? (content.take SegmentHeader.byteCount)
  let size := content.uint32At (total - 8)
  let checksum := content.uint32At (total - 4)
  if size.toNat ≠ header.count.toNat * Slot.byteCount then
    throw (.corrupt (.footerSize size header.count))
  if total < size.toNat + 8 then throw (.io .other)
  let table := content.slice (total - size.toNat - 8) size.toNat
  if checksum ≠ Crc32.checksum table then throw (.corrupt .footerChecksum)
  return (header, readSlots header.count.toNat table)

/-- The record in a slot, which is the slot with the given number in a file. -/
def readRecord (file : Path) (content : Bytes) (number : Nat) (slot : Slot) :
    Except StorageError Bytes := do
  if 0x8000000000000000 ≤ slot.offset.toNat then throw (.io .other)
  let rest : Bytes := content.drop slot.offset.toNat
  if rest.length < 4 then throw (.io .unexpectedEnd)
  let size := rest.uint32At 0
  if size ≠ slot.size then throw (.corrupt (.recordSize number file slot.size size))
  if rest.length < size.toNat + 8 then throw (.io .unexpectedEnd)
  let record := rest.slice 4 size.toNat
  if rest.uint32At (4 + size.toNat) ≠ Crc32.checksum record then
    throw (.corrupt (.recordChecksum number file))
  return record

/-- The entries in slots that are numbered from `number` on. -/
def readEntries (file : Path) (content : Bytes) : Nat → List Slot → Except StorageError (List Entry)
  | _, [] => .ok []
  | number, slot :: slots => do
    let record ← readRecord file content number slot
    let chunk ← ClosedChunk.ofRecord? record
    let rest ← readEntries file content (number + 1) slots
    return ⟨slot.min, slot.max, chunk⟩ :: rest

end Layout

end SeriesStore
