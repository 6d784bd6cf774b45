import SeriesStore.Index.Manifest
import SeriesStore.Segment.Basic

/-!
# Indexes

An index is a directory of segment files for one time range, under a manifest. Every change first
writes what is new beside what is there and then replaces the manifest in one step. An operation
that fails leaves the manifest, and the open index, as they were.
-/

namespace SeriesStore

/-- An open index. -/
structure Index where
  dir : Path
  id : Uid
  range : TimeRange
  resolution : Resolution
  createdAt : Instant
  segments : List Segment
  /-- Number of the next segment file. -/
  nextSegment : UInt64

/-- What makes a new index different from all others. -/
structure Origin where
  id : Uid
  /-- The number in the name of a generated directory. -/
  dirId : Uid
  createdAt : Instant

namespace Index

/-- Name of the manifest in the directory of an index. -/
def manifestName : String := "meta.json"

/-- Name of a segment file. -/
def segmentName (number : UInt64) : String :=
  "seg_" ++ Text.padded 6 number.toNat ++ ".tsc"

/-- Name of a generated directory. -/
def directoryName (id : Uid) : String := "index_" ++ id.simple

/-- Number of chunks in all segments. -/
def chunkCount (ix : Index) : Nat := ix.segments.foldl (fun n s => n + s.size) 0

/-- First timestamp of the last chunk. -/
def lastMin? (ix : Index) : Option Int64 := ix.segments.reverse.findSome? Segment.lastMin?

/-- The path of a segment file. -/
def segmentPath (ix : Index) (number : UInt64) : Path := ix.dir / segmentName number

/-! ### Manifest -/

/-- The manifest of an index. Each segment must have a file name. -/
def manifest (ix : Index) : Except IndexFault Manifest := do
  let names ← ix.segments.mapM fun s =>
    match s.fileName? with
    | some name => .ok name
    | none => .error (.namelessSegment s.path)
  return ⟨ix.id, ix.range, ix.resolution, ix.createdAt, names, ix.nextSegment⟩

/-- Replaces the manifest. -/
def commit (ix : Index) : DiskM Unit := do
  match ix.manifest with
  | .error fault => throw (.invalidIndex fault)
  | .ok manifest => do
    let temporary := ix.dir / (manifestName ++ ".tmp")
    DiskM.write temporary (Bytes.ofText manifest.toText)
    DiskM.rename temporary (ix.dir / manifestName)

/-- Replaces the manifest by one that lists a new segment file. When it fails, that file is
removed. -/
def commitWith (ix : Index) (new : Path) : DiskM Unit := do
  try ix.commit
  catch e => do
    DiskM.attempt (DiskM.remove new)
    throw e

/-! ### Making and opening -/

/-- Makes an index without chunks in a directory that holds none yet. -/
def create (dir : Path) (range : TimeRange) (resolution : Resolution) (id : Uid)
    (createdAt : Instant) : DiskM Index := do
  if (← get).exists? (dir / manifestName) then throw (.invalidIndex (.alreadyExists dir))
  DiskM.makeDirs dir
  let ix : Index := ⟨dir, id, range, resolution, createdAt, [], 1⟩
  ix.commit
  return ix

/-- Makes an index without chunks in a new directory. -/
def createIn (dataDir : Path) (range : TimeRange) (resolution : Resolution) (o : Origin) :
    DiskM Index :=
  create (dataDir / directoryName o.dirId) range resolution o.id o.createdAt

/-- Opens the index in a directory. -/
def «open» (dir : Path) : DiskM Index := do
  let text ← DiskM.readText (dir / manifestName)
  let m ← DiskM.ofExcept (Manifest.ofText? text)
  let segments ← m.segments.mapM fun name => Segment.open (dir / name)
  return ⟨dir, m.id, m.range, m.resolution, m.createdAt, segments, m.nextSegment⟩

/-! ### Chunks -/

/-- Checks that entries have bounds in order and inside a range, and that they start in order,
none before the entry in front of it. -/
def check (range : TimeRange) : Option Int64 → List Entry → Except IndexFault Unit
  | _, [] => .ok ()
  | last, e :: es => do
    if e.max < e.min then throw (.invertedBounds e.min e.max)
    if !range.contains e.min || !range.contains e.max then
      throw (.outsideRange e.min e.max range)
    match last with
    | some t => if e.min < t then throw (.outOfOrder e.min t)
    | none => pure ()
    check range (some e.min) es

/-- Adds entries behind the chunks of an index, as one segment. -/
def addChunks (ix : Index) (entries : List Entry) : DiskM Index := do
  if entries.isEmpty then return ix
  match check ix.range ix.lastMin? entries with
  | .error fault => throw (.invalidIndex fault)
  | .ok () => do
    let path := ix.segmentPath ix.nextSegment
    let segment ← Segment.write path entries
    let new := { ix with
      segments := ix.segments ++ [segment]
      nextSegment := ix.nextSegment + 1 }
    new.commitWith path
    return new

/-- The entries of some segments, in order. -/
def entriesOf (segments : List Segment) : DiskM (List Entry) := do
  return (← segments.mapM Segment.entries).flatten

/-- All chunks, in order. -/
def chunks (ix : Index) : DiskM (List Entry) := entriesOf ix.segments

/-- Merges the first segments into one, so that at most `target` segments remain. Says whether
there was anything to do. -/
def forceMerge (ix : Index) (target : UInt64) : DiskM (Bool × Index) := do
  if target = 0 then throw (.invalidIndex .zeroTarget)
  if ix.segments.length ≤ target.toNat then return (false, ix)
  let count := ix.segments.length - target.toNat + 1
  let old := ix.segments.take count
  let merged ← entriesOf old
  let path := ix.segmentPath ix.nextSegment
  let segment ← Segment.write path merged
  let new := { ix with
    segments := segment :: ix.segments.drop count
    nextSegment := ix.nextSegment + 1 }
  new.commitWith path
  old.forM fun s => DiskM.attempt (DiskM.remove s.path)
  return (true, new)

/-- Removes the directory of an index. -/
def delete (ix : Index) : DiskM Index := do
  DiskM.removeAll ix.dir
  return { ix with segments := [] }

end Index

end SeriesStore
