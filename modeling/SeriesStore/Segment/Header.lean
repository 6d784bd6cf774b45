import SeriesStore.Bytes.Crc32
import SeriesStore.Error

/-!
# Headers of segment files

A segment file starts with 64 bytes: four bytes that mark the format, the version, the number of
chunks, the bounds of all timestamps, bytes that are kept free, and a checksum over all of it.
-/

namespace SeriesStore

/-- What the header of a segment file says. -/
structure SegmentHeader where
  version : UInt16
  count : UInt32
  min : Int64
  max : Int64
  deriving DecidableEq

namespace SegmentHeader

/-- Number of bytes in a header. -/
def byteCount : Nat := 64

/-- The bytes that mark a segment file. -/
def magic : Bytes := [0x54, 0x53, 0x43, 0x49]

/-- The version that is written, and the latest that is read. -/
def currentVersion : UInt16 := 1

/-- The header for a list of chunks with the given bounds. Without chunks the bounds are
inverted. -/
def ofBounds (bounds : List (Int64 × Int64)) : SegmentHeader where
  version := currentVersion
  count := UInt32.ofNat bounds.length
  min := bounds.foldl (fun m b => if b.1 < m then b.1 else m) Int64.maxValue
  max := bounds.foldl (fun m b => if m < b.2 then b.2 else m) Int64.minValue

/-- The bytes of a header that the checksum covers. -/
def body (h : SegmentHeader) : Bytes :=
  magic ++ Bytes.ofNatLE 2 h.version.toNat ++ Bytes.ofUInt32 h.count ++ Bytes.ofInt64 h.min
    ++ Bytes.ofInt64 h.max ++ List.replicate 34 0

/-- The written form of a header. -/
def toBytes (h : SegmentHeader) : Bytes := h.body ++ Bytes.ofUInt32 (Crc32.checksum h.body)

/-- Reads a header of 64 bytes. -/
def ofBytes? (bs : Bytes) : Except StorageError SegmentHeader :=
  let stored := bs.uint32At 60
  let computed := Crc32.checksum (bs.take 60)
  if stored ≠ computed then .error (.corrupt (.headerChecksum stored computed))
  else if bs.take 4 ≠ magic then .error (.invalidIndex (.badMagic (bs.take 4)))
  else if currentVersion < bs.uint16At 4 then
    .error (.invalidIndex (.newerVersion (bs.uint16At 4)))
  else .ok ⟨bs.uint16At 4, bs.uint32At 6, bs.int64At 10, bs.int64At 18⟩

theorem length_body (h : SegmentHeader) : h.body.length = 60 := by
  simp [body, magic, Bytes.ofUInt32, Bytes.ofInt64, Bytes.ofUInt64]

theorem length_toBytes (h : SegmentHeader) : h.toBytes.length = byteCount := by
  simp [toBytes, length_body, Bytes.ofUInt32, byteCount]

end SegmentHeader

end SeriesStore
