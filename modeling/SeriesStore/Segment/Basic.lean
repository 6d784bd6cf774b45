import SeriesStore.Disk.Basic
import SeriesStore.Segment.Layout

/-!
# Segments

A segment is one file of chunks, written in full and never changed. It comes into being under a
temporary name and is then moved to its place, so that a file that is only partly written never
stands there.
-/

namespace SeriesStore

/-- A segment file whose header and table are known. -/
structure Segment where
  path : Path
  header : SegmentHeader
  slots : List Slot
  deriving DecidableEq

namespace Segment

/-- Number of chunks. -/
def size (s : Segment) : Nat := s.slots.length

/-- First timestamp of the last chunk. -/
def lastMin? (s : Segment) : Option Int64 := s.slots.getLast?.map (·.min)

/-- The name of the file in its directory. -/
def fileName? (s : Segment) : Option String := s.path.fileName?

/-- The segment with some entries at a path. -/
def ofEntries (path : Path) (entries : List Entry) : Segment :=
  ⟨path, Layout.header entries, Layout.slots entries⟩

/-- Writes a segment file. When it fails, the temporary file is removed. -/
def write (path : Path) (entries : List Entry) : DiskM Segment := do
  try
    match Layout.oversized? entries with
    | some n => do
      DiskM.write path.temporary []
      throw (.invalidIndex (.largeRecord n))
    | none => DiskM.write path.temporary (Layout.file entries)
    DiskM.rename path.temporary path
    return ofEntries path entries
  catch e => do
    DiskM.attempt (DiskM.remove path.temporary)
    throw e

/-- Opens a segment file. Of the chunks only the table is read. -/
def «open» (path : Path) : DiskM Segment := do
  let content ← DiskM.read path
  let (header, slots) ← DiskM.ofExcept (Layout.readTable content)
  return ⟨path, header, slots⟩

/-- Reads and checks all chunks of a segment from its file. -/
def entries (s : Segment) : DiskM (List Entry) := do
  let content ← DiskM.read s.path
  DiskM.ofExcept (Layout.readEntries s.path content 0 s.slots)

end Segment

end SeriesStore
