import SeriesStore.Compaction.Tiers
import SeriesStore.Index.Listing

/-!
# Merging by size tiers

Indexes that overlap are merged first. Otherwise the newest index is left alone, and the others
are looked at through windows of each width in turn: the first window that holds several indexes,
and is either filled or followed by a later index, is merged.
-/

namespace SeriesStore

/-- Merging of indexes into windows of growing widths. -/
structure SizeTiered where
  /-- The widths in hours. -/
  tiers : List UInt64
  /-- Milliseconds between two runs. -/
  frequency : UInt64
  resolution : Resolution
  deriving DecidableEq

namespace SizeTiered

/-! ### Overlaps -/

/-- The later of two timestamps. -/
def later (s t : Int64) : Int64 := if s < t then t else s

/-- The leading indexes of which each starts before a bound, where the bound moves on to the end
of each of them. -/
def chain : Int64 → List Index → List Index
  | _, [] => []
  | reach, ix :: rest =>
    if ix.range.start < reach then ix :: chain (later reach ix.range.stop) rest else []

/-- The first run of overlapping indexes behind `previous`, together with the one in front of it.
All indexes so far end at `reach` or before. -/
def overlapsFrom : Int64 → Index → List Index → List Index
  | _, _, [] => []
  | reach, previous, ix :: rest =>
    let next := later reach ix.range.stop
    if ix.range.start < reach then previous :: ix :: chain next rest
    else overlapsFrom next ix rest

/-- The first run of overlapping indexes in a sorted list. -/
def overlaps : List Index → List Index
  | [] => []
  | ix :: rest => overlapsFrom ix.range.stop ix rest

/-! ### Windows -/

/-- The end of the window of a width in which a timestamp lies. Windows start at multiples of the
width. -/
def windowEnd (width t : Int64) : Int64 :=
  let start := clampInt64 (Int.fdiv t.toInt width.toInt * width.toInt)
  clampInt64 (start.toInt + width.toInt)

/-- The groups of neighbours that end in the window in which their first one starts. An index that
does not end in its own window is in no group. -/
def windows (width : Int64) : List Index → List (List Index)
  | [] => []
  | ix :: rest =>
    let stop := windowEnd width ix.range.start
    let fits (other : Index) : Bool := decide (other.range.stop ≤ stop)
    if fits ix then (ix :: rest.takeWhile fits) :: windows width (rest.dropWhile fits)
    else windows width rest
termination_by ixs => ixs.length
decreasing_by
  · exact Nat.lt_succ_of_le (List.dropWhile_sublist _).length_le
  · simp

/-- Whether a group is worth merging: it has several members, and fills a window or lies before a
given time. -/
def qualifies (width before : Int64) (group : List Index) : Bool :=
  match group.head?, group.getLast? with
  | some first, some last =>
    decide (1 < group.length)
      && (clampInt64 (last.range.stop.toInt - first.range.start.toInt) == width
        || decide (last.range.stop ≤ before))
  | _, _ => false

/-- The group to merge for one width. -/
def groupOfWidth? (width : Int64) (ixs : List Index) : Option (List Index) :=
  match ixs.getLast? with
  | none => none
  | some newest =>
    if width ≤ 0 then none else (windows width ixs).find? (qualifies width newest.range.start)

/-- The group to merge for the first width that has one. The first tier has no width to grow
from. -/
def grouped (s : SizeTiered) (ixs : List Index) : List Index :=
  ((s.tiers.drop 1).findSome? fun tier => groupOfWidth? (s.resolution.ofHours tier) ixs).getD []

/-! ### Planning and merging -/

/-- The indexes to merge next. -/
def plan (s : SizeTiered) (ixs : List Index) : List Index :=
  if s.tiers.isEmpty || decide (ixs.length < 2) then []
  else
    let sorted := Index.sorted ixs
    match overlaps sorted with
    | [] => s.grouped sorted.dropLast
    | run => run

/-- Entries by their first timestamps; those that start together stay in order. -/
def byStart (entries : List Entry) : List Entry :=
  entries.mergeSort fun a b => decide (a.min ≤ b.min)

/-- Adds the chunks of all sources to a destination that covers them. -/
def compact (sources : List Index) (destination : Index) : DiskM Index := do
  if sources.isEmpty then throw (.invalidIndex .nothingToCompact)
  match sources.find? fun ix => !destination.range.covers ix.range with
  | some ix => throw (.invalidIndex (.uncovered destination.range ix.id ix.range))
  | none => do
    let entries ← sources.mapM Index.chunks
    destination.addChunks (byStart entries.flatten)

end SizeTiered

end SeriesStore
