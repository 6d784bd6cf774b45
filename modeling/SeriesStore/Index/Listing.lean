import SeriesStore.Index.Basic

/-!
# Listing indexes

The indexes in a data directory, in the order of their ranges.
-/

namespace SeriesStore.Index

/-- Indexes in the order of their ranges; those with equal ranges stay in order. -/
def sorted (ixs : List Index) : List Index :=
  ixs.mergeSort fun a b => a.range.listedBefore b.range

/-- The smallest range that covers the ranges of all indexes. -/
def hull? (ixs : List Index) : Option TimeRange := TimeRange.hull? (ixs.map (·.range))

/-- Opens the index at a path. What is no index, or cannot be opened, is passed over. -/
def openIfIndex (path : Path) : DiskM (Option Index) := do
  let d ← get
  if d.isDir path && d.exists? (path / manifestName) then
    try return some (← Index.open path) catch _ => return none
  else return none

/-- All indexes in a data directory, in the order of their ranges. -/
def load (dataDir : Path) : DiskM (List Index) := do
  let d ← get
  if d.exists? dataDir then
    let names ← DiskM.ask (·.list dataDir)
    let found ← names.mapM fun name => openIfIndex (dataDir / name)
    return sorted (found.filterMap fun ix => ix)
  else return []

end SeriesStore.Index
