import SeriesStore.Index.Listing

/-!
# Merging of segments

Indexes that end long enough before the newest one no longer change. The first of them with too
many segments gets fewer segments, in place.
-/

namespace SeriesStore

/-- Merging of the segments of old indexes. -/
structure ForceMerge where
  /-- Milliseconds between two runs. -/
  frequency : UInt64
  /-- Number of segments from which on an index is merged in place. -/
  trigger : UInt64
  /-- Number of segments that are left. -/
  target : UInt64
  /-- Milliseconds for which late samples are awaited. -/
  lateness : UInt64
  /-- Milliseconds in a block of samples. -/
  block : UInt64
  resolution : Resolution
  /-- At least one segment is left, and not more than the number that triggers a merge. -/
  bounds : target ≠ 0 ∧ target ≤ trigger
  deriving DecidableEq

namespace ForceMerge

/-- The strategy with given parameters, if the numbers of segments make sense. -/
def of? (frequency trigger target lateness block : UInt64) (resolution : Resolution) :
    Except CompactionError ForceMerge :=
  if h : target ≠ 0 ∧ target ≤ trigger then
    .ok ⟨frequency, trigger, target, lateness, block, resolution, h⟩
  else .error (.invalidBounds trigger target)

/-- The latest end among the ranges of some indexes. -/
def latest? : List Index → Option Int64
  | [] => none
  | ix :: rest =>
    match latest? rest with
    | none => some ix.range.stop
    | some t => some (if t < ix.range.stop then ix.range.stop else t)

/-- The time from which on indexes are too new: the latest end, less the time for late samples and
one block. -/
def cutoff? (s : ForceMerge) (ixs : List Index) : Option Int64 :=
  (latest? ixs).map fun t =>
    let afterLate := clampInt64 (t.toInt - (s.resolution.ofMillis s.lateness).toInt)
    clampInt64 (afterLate.toInt - (s.resolution.ofMillis s.block).toInt)

/-- Whether an index that ends before the cutoff has too many segments. -/
def isEligible (s : ForceMerge) (cutoff : Int64) (ix : Index) : Bool :=
  decide (ix.range.stop < cutoff) && decide (s.trigger.toNat ≤ ix.segments.length)
    && decide (s.target.toNat < ix.segments.length)

/-- The first index in the order of ranges, and of equal ranges the one in front. -/
def earliest? : List Index → Option Index
  | [] => none
  | ix :: rest =>
    match earliest? rest with
    | none => some ix
    | some other => if ix.range.listedBefore other.range then some ix else some other

/-- The index whose segments to merge next. -/
def plan (s : ForceMerge) (ixs : List Index) : List Index :=
  match s.cutoff? ixs with
  | none => []
  | some cutoff => (earliest? (ixs.filter (s.isEligible cutoff))).toList

/-- Merges the segments of an index. -/
def compact (s : ForceMerge) (ix : Index) : DiskM Index := do
  return (← ix.forceMerge s.target).2

end ForceMerge

end SeriesStore
