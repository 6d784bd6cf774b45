/-!
# Time ranges

A time range is half-open: it holds its start and all later timestamps before its stop. Every
range holds at least its start.
-/

namespace SeriesStore

/-- The timestamps from `start` up to and without `stop`. -/
structure TimeRange where
  start : Int64
  stop : Int64
  start_lt_stop : start < stop
  deriving DecidableEq

namespace TimeRange

/-- The range with the given bounds, unless it would be empty. -/
def of? (start stop : Int64) : Option TimeRange :=
  if h : start < stop then some ⟨start, stop, h⟩ else none

/-- Whether a timestamp lies in the range. -/
def contains (r : TimeRange) (t : Int64) : Bool :=
  decide (r.start ≤ t) && decide (t < r.stop)

/-- Whether all of `s` lies in `r`. -/
def covers (r s : TimeRange) : Bool :=
  decide (r.start ≤ s.start) && decide (s.stop ≤ r.stop)

/-- Whether some timestamp lies in both ranges. -/
def overlaps (r s : TimeRange) : Bool :=
  decide (r.start < s.stop) && decide (s.start < r.stop)

/-- Number of timestamps in the range, modulo 2 ^ 64. -/
def width (r : TimeRange) : Int64 := r.stop - r.start

/-- The smallest range that covers both. -/
def hull (r s : TimeRange) : TimeRange where
  start := if r.start ≤ s.start then r.start else s.start
  stop := if r.stop ≤ s.stop then s.stop else r.stop
  start_lt_stop := by
    have hr := r.start_lt_stop
    have hs := s.start_lt_stop
    simp only [Int64.lt_iff_toInt_lt, Int64.le_iff_toInt_le] at *
    split <;> split <;> omega

/-- The smallest range that covers all ranges of a list, if there are any. -/
def hull? : List TimeRange → Option TimeRange
  | [] => none
  | r :: rs => some (rs.foldl hull r)

/-- Ranges are listed by start, and by stop where they start together. -/
def listedBefore (r s : TimeRange) : Bool :=
  decide (r.start < s.start) || (r.start == s.start && decide (r.stop ≤ s.stop))

/-- The bounds that make a range are the bounds of the range. -/
theorem of?_eq_some_iff {a b : Int64} {r : TimeRange} :
    of? a b = some r ↔ r.start = a ∧ r.stop = b := by
  constructor
  · intro h
    unfold of? at h
    split at h
    · cases h; exact ⟨rfl, rfl⟩
    · contradiction
  · rintro ⟨rfl, rfl⟩
    exact dif_pos r.start_lt_stop

end TimeRange

end SeriesStore
