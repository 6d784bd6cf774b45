import SeriesStore.Time.Clamp

/-!
# Time resolutions

The unit in which an index counts its timestamps, and the length of a duration in that unit.
-/

namespace SeriesStore

/-- The unit of the timestamps of an index. -/
inductive Resolution
  | seconds | milliseconds | microseconds | nanoseconds
  deriving DecidableEq

namespace Resolution

/-- The name of a resolution. -/
def name : Resolution → String
  | seconds => "seconds"
  | milliseconds => "milliseconds"
  | microseconds => "microseconds"
  | nanoseconds => "nanoseconds"

/-- All resolutions. -/
def all : List Resolution := [seconds, milliseconds, microseconds, nanoseconds]

/-- The resolution with a given name. -/
def ofName? (s : String) : Option Resolution := all.find? fun r => r.name == s

/-- Whole units in a number of milliseconds. -/
def units (r : Resolution) (ms : Nat) : Nat :=
  match r with
  | seconds => ms / 1000
  | milliseconds => ms
  | microseconds => ms * 1000
  | nanoseconds => ms * 1000000

/-- The length of a number of milliseconds as a difference of timestamps; what exceeds the
largest timestamp becomes that timestamp. -/
def ofMillis (r : Resolution) (ms : UInt64) : Int64 := clampInt64 (r.units ms.toNat)

/-- The length of a number of hours as a difference of timestamps. The hours are first brought
into milliseconds, where they are clamped to an unsigned word. -/
def ofHours (r : Resolution) (h : UInt64) : Int64 :=
  r.ofMillis (clampUInt64 (h.toNat * (60 * 60 * 1000)))

theorem ofName?_name (r : Resolution) : ofName? r.name = some r := by
  cases r <;> decide

end Resolution

end SeriesStore
