import SeriesStore.Error
import SeriesStore.Json.Printer
import SeriesStore.Json.Reader
import SeriesStore.Time.Instant.Parser
import SeriesStore.Time.Resolution

/-!
# Manifests

The manifest of an index says what the index is and which segment files belong to it, in order.
A segment file that it does not list does not count.
-/

namespace SeriesStore

/-- What is written down about an index. -/
structure Manifest where
  id : Uid
  range : TimeRange
  resolution : Resolution
  createdAt : Instant
  /-- Names of the segment files. -/
  segments : List String
  /-- Number of the next segment file. -/
  nextSegment : UInt64
  deriving DecidableEq

namespace Manifest

/-- The fields of a range. -/
def rangeDatum (r : TimeRange) : Datum :=
  .record [("start", .int r.start.toInt), ("end", .int r.stop.toInt)]

/-- The fields of a manifest. -/
def toDatum (m : Manifest) : Datum :=
  .record
    [("id", .text m.id.toText),
     ("time_range", rangeDatum m.range),
     ("resolution", .text m.resolution.name),
     ("created_at", .text m.createdAt.toText),
     ("segments", .list (m.segments.map .text)),
     ("next_segment", .int m.nextSegment.toNat)]

/-- The text of a manifest. -/
def toText (m : Manifest) : String := Json.pretty m.toDatum

/-- The bounds in a range, which may be inverted. -/
def bounds? (d : Datum) : Option (Int64 × Int64) := do
  let [start, stop] ← d.fields? ["start", "end"] | none
  return (← (← start).int64?, ← (← stop).int64?)

/-- The resolution of an index, which may be left out. -/
def resolution? : Option Datum → Option Resolution
  | none => some .milliseconds
  | some d => d.choice?.bind Resolution.ofName?

/-- Reads a manifest, given that the range may be anything. -/
def fields? (d : Datum) : Option ((Int64 × Int64) × (TimeRange → Manifest)) := do
  let [id, range, resolution, createdAt, segments, nextSegment] ← d.fields?
    ["id", "time_range", "resolution", "created_at", "segments", "next_segment"] | none
  let id ← (← (← id).text?) |> Uid.ofText?
  let bounds ← bounds? (← range)
  let resolution ← resolution? resolution
  let createdAt ← (← (← createdAt).text?) |> Instant.ofText?
  let segments ← (← segments).texts?
  let nextSegment ← (← nextSegment).uint64?
  return (bounds, fun range => ⟨id, range, resolution, createdAt, segments, nextSegment⟩)

/-- The manifest in a text. -/
def ofText? (s : String) : Except StorageError Manifest :=
  match (Json.parse? s).bind fields? with
  | none => .error .malformed
  | some ((start, stop), manifest) =>
    match TimeRange.of? start stop with
    | some range => .ok (manifest range)
    | none => .error .invalidTimeRange

end Manifest

end SeriesStore
