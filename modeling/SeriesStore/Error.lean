import SeriesStore.Chunk.Damage
import SeriesStore.Compaction.Error
import SeriesStore.Disk.Path
import SeriesStore.Time.Range
import SeriesStore.Uid

/-!
# Errors of the store

What can go wrong when chunks, segment files and indexes are read or written, and the text for
each of it.
-/

namespace SeriesStore

/-- Why a file cannot be read or changed. -/
inductive IoError
  | notFound
  /-- The file ends before what is to be read. -/
  | unexpectedEnd
  /-- The contents are not UTF-8. -/
  | notText
  | other
  deriving DecidableEq

/-- The text that describes a failure of the disk. -/
def IoError.message : IoError → String
  | notFound => "No such file or directory (os error 2)"
  | unexpectedEnd => "failed to fill whole buffer"
  | notText => "stream did not contain valid UTF-8"
  | other => "operation refused"

/-- What is wrong with stored bytes. -/
inductive Corruption
  | chunk (damage : ChunkDamage)
  /-- A record without its encoding tag. -/
  | emptyRecord
  | headerChecksum (stored computed : UInt32)
  | footerSize (size count : UInt32)
  | footerChecksum
  | recordSize (number : Nat) (file : Path) (listed found : UInt32)
  | recordChecksum (number : Nat) (file : Path)
  deriving DecidableEq

/-- The text that describes a corruption. -/
def Corruption.message : Corruption → String
  | chunk damage => damage.message
  | emptyRecord => "empty chunk record"
  | headerChecksum stored computed =>
    s!"Header checksum mismatch: stored={stored.toNat}, computed={computed.toNat}"
  | footerSize size count => s!"Footer size {size.toNat} does not match {count.toNat} chunks"
  | footerChecksum => "Footer checksum mismatch"
  | recordSize number file listed found =>
    s!"Chunk {number} size mismatch in {file.quoted}: footer={listed.toNat}, record={found.toNat}"
  | recordChecksum number file => s!"Chunk {number} checksum mismatch in {file.quoted}"

/-- What does not fit into an index or its segments. -/
inductive IndexFault
  /-- The four bytes in front of a segment file are not the ones of the format. -/
  | badMagic (found : List UInt8)
  | newerVersion (version : UInt16)
  | largeRecord (size : Nat)
  | alreadyExists (dir : Path)
  | invertedBounds (min max : Int64)
  | outsideRange (min max : Int64) (range : TimeRange)
  | outOfOrder (min last : Int64)
  | zeroTarget
  | namelessSegment (file : Path)
  | nothingToCompact
  | uncovered (destination : TimeRange) (source : Uid) (range : TimeRange)
  deriving DecidableEq

/-- A half-open range in messages. -/
def TimeRange.toText (r : TimeRange) : String := s!"[{r.start.toInt}, {r.stop.toInt})"

/-- The text that describes a fault. -/
def IndexFault.message : IndexFault → String
  | badMagic found =>
    "Invalid segment magic: [" ++ ", ".intercalate (found.map fun b => toString b.toNat) ++ "]"
  | newerVersion version => s!"Unsupported segment version: {version.toNat}"
  | largeRecord size => s!"chunk record too large: {size} bytes"
  | alreadyExists dir => s!"index already exists at {dir.quoted}"
  | invertedBounds min max => s!"chunk bounds inverted: min={min.toInt} max={max.toInt}"
  | outsideRange min max range =>
    s!"chunk [{min.toInt}, {max.toInt}] outside index range {range.toText}"
  | outOfOrder min last => s!"chunk out of order: min_time {min.toInt} after {last.toInt}"
  | zeroTarget => "force merge target must be at least one segment"
  | namelessSegment file => s!"segment path has no file name: {file.quoted}"
  | nothingToCompact => "nothing to compact"
  | uncovered destination source range =>
    s!"destination {destination.toText} does not cover source {source.toText} {range.toText}"

/-- Why an operation of the store fails. -/
inductive StorageError
  | io (error : IoError)
  /-- A manifest that cannot be understood. -/
  | malformed
  | corrupt (corruption : Corruption)
  /-- The tag of a record stands for no encoding. -/
  | unknownEncoding (tag : UInt8)
  | chunkFull (size : Nat)
  | invalidIndex (fault : IndexFault)
  | invalidTimeRange
  | config (error : CompactionError)
  deriving DecidableEq

/-- The text that describes an error. -/
def StorageError.message : StorageError → String
  | io error => "IO error: " ++ error.message
  | malformed => "Serialization error: malformed manifest"
  | corrupt corruption => "Corrupt data: " ++ corruption.message
  | unknownEncoding tag => s!"Unsupported chunk version: {tag.toNat}"
  | chunkFull size => s!"Chunk is full: {size} samples"
  | invalidIndex fault => "Invalid index: " ++ fault.message
  | invalidTimeRange => "Invalid time range: start must be less than end"
  | config error => "Configuration error: " ++ error.message

end SeriesStore
