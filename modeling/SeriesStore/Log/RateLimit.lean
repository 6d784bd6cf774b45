import SeriesStore.Log.Retention
import SeriesStore.Tags

/-!
# Gradual trimming

To close many files of the log at once takes long. A limited policy lets only a share of the files
go that its own policy would let go, but always at least one of them.
-/

namespace SeriesStore

/-- A retention policy that lets go of a share of the files at a time. -/
structure LimitedPolicy where
  policy : RetentionPolicy
  /-- The share of files in percent. -/
  percentage : UInt8
  tags : Tags := {}

namespace LimitedPolicy

/-- Number of files that may go, out of some that could go. -/
def allowance (percentage : UInt8) (eligible : Nat) : Nat :=
  max (eligible * percentage.toNat / 100) 1

/-- Raises no generation, but lowers one so far that only the allowed number of files goes. -/
def limit (percentage : UInt8) (files : List LogFile) (generation : UInt64) : UInt64 :=
  let eligible := (files.filter fun f => decide (f.generation < generation)).length
  let allowed := allowance percentage eligible
  if 100 ≤ percentage ∨ eligible = 0 ∨ eligible ≤ allowed then generation
  else (files[allowed]?.map (·.generation)).getD generation

/-- The oldest generation that must be kept this time. -/
def required (p : LimitedPolicy) (now : Int64) (files : List LogFile) (head : LogHead) : UInt64 :=
  limit p.percentage files (p.policy.required now files head)

/-- What is sent to the meter each time: the number of closed files. -/
def observation (p : LimitedPolicy) (files : List LogFile) : Nat × Tags := (files.length, p.tags)

end LimitedPolicy

end SeriesStore
