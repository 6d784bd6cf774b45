/-!
# Compaction settings that are refused

The reasons why no merge strategy can be made from given settings.
-/

namespace SeriesStore

/-- Why settings of a merge strategy are refused. -/
inductive CompactionError
  | unknownType (name : String)
  /-- The number of segments after a merge is zero or exceeds the number that triggers it. -/
  | invalidBounds (trigger target : UInt64)
  /-- The time between two runs is below a minute. -/
  | invalidFrequency (millis : UInt64)
  deriving DecidableEq

/-- The text that describes a refusal. -/
def CompactionError.message : CompactionError → String
  | unknownType name => "Unknown compaction type: '" ++ name ++ "'"
  | invalidBounds trigger target =>
    "Invalid force merge bounds: max_segments_after_merge (" ++ toString target.toNat
      ++ ") must be between 1 and min_segment_count (" ++ toString trigger.toNat ++ ")"
  | invalidFrequency millis =>
    "Invalid compaction frequency: " ++ toString millis.toNat ++ "ms, must be at least 1m"

end SeriesStore
