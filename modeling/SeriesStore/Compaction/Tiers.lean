/-!
# Tiers

Indexes are merged into wider and wider ones. The widths, in hours, grow by a factor of three and
stay within a tenth of the time for which data is kept; the last width is 31 days.
-/

namespace SeriesStore.Tiers

/-- The largest width in hours. -/
def largest : Nat := 744

/-- A tenth of a number of hours, which is counted in 64 bits, as a floating-point number. -/
def tenth (hours : Nat) : Float := (UInt64.ofNat hours).toFloat * 0.1

/-- The widths from `tier` on that are below the largest one and within a limit, followed by the
largest width if none of them exceeds the limit. -/
def growing (limit : Option Float) (tier : Nat) (h : 0 < tier) : List Nat :=
  if largest < tier then [largest]
  else if limit.any fun l => decide (l < (UInt64.ofNat tier).toFloat) then []
  else tier :: growing limit (3 * tier) (by omega)
termination_by largest + 1 - tier
decreasing_by simp only [largest] at *; omega

/-- The tiers for a retention in hours, or for data that is kept forever. -/
def forRetention (retention : Option Nat) : List Nat :=
  growing (retention.map tenth) 2 (by decide)

end SeriesStore.Tiers
