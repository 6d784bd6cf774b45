import SeriesStore.Time.Duration
import SeriesStore.Time.Resolution

/-!
# Configurations

What an administrator can choose, with the values for what is left open, and the limits that the
values must keep.
-/

namespace SeriesStore

/-- How indexes are merged. -/
structure CompactionConfig where
  /-- Name of the strategy. -/
  kind : String := "SizeTieredCompaction"
  /-- Time between two runs. -/
  frequency : Duration := .ofMinutes 15
  /-- How long data is kept, or nothing if it is kept forever. -/
  retention : Option Duration := none
  /-- Number of segments from which on an index is merged in place. -/
  trigger : UInt64 := 2
  /-- Number of segments that are left of it. -/
  target : UInt64 := 1
  /-- How long late samples are awaited. -/
  lateness : Duration := .ofMinutes 20
  /-- Length of a block of samples. -/
  block : Duration := .ofHours 2
  resolution : Resolution := .milliseconds
  deriving DecidableEq

/-- How much of the write-ahead log is kept. -/
structure LogConfig where
  /-- Number of bytes, or nothing if the size does not matter. -/
  size : Option UInt64 := some (512 * 1024 * 1024)
  /-- Age, or nothing if it does not matter. -/
  age : Option Duration := some (.ofHours 12)
  /-- Number of files. -/
  files : UInt64 := 64
  /-- Share of the files that may go at a time, in percent. -/
  percentage : UInt8 := 100
  deriving DecidableEq

/-- What is reported about the work. -/
structure ReportConfig where
  level : String := "info"
  format : String := "pretty"
  deriving DecidableEq

/-- All that can be chosen. -/
structure Config where
  /-- The directory of the indexes. -/
  dataDir : String
  compaction : CompactionConfig := {}
  log : LogConfig := {}
  report : ReportConfig := {}
  deriving DecidableEq

/-- Why a value is refused when a configuration is read. -/
inductive ConfigFault
  /-- The text is not well-formed, or a value is of the wrong type. -/
  | malformed
  | duration (text : String)
  | sizeNumber (n : Int)
  | sizeText (text : String)
  | ageNumber (n : Int)
  deriving DecidableEq

/-- Why there is no configuration, or not a usable one. -/
inductive ConfigError
  | unreadable (file : String)
  | malformed (file : String) (fault : ConfigFault)
  /-- A text is no duration. -/
  | duration (text : String)
  | lowFrequency (d : Duration)
  | highPercentage (p : UInt8)
  deriving DecidableEq

/-- The text for a text that is no duration. -/
def Duration.refusal (text : String) : String :=
  "Invalid duration '" ++ text ++ "', expected a number followed by ms, s, m, h or d"

/-- The text for a refused value. For what the format itself forbids there is none. -/
def ConfigFault.message? : ConfigFault → Option String
  | malformed => none
  | duration text => some (Duration.refusal text)
  | sizeNumber n => some s!"invalid retention_size {n}, expected bytes or -1"
  | sizeText text =>
    some ("invalid retention_size '" ++ text ++ "', expected bytes or \"unbounded\"")
  | ageNumber n => some s!"invalid retention_age {n}, expected a duration string or -1"

namespace Config

/-- The shortest time between two runs. -/
def shortestFrequency : UInt64 := 60000

/-- The limits that are checked before a configuration is used. -/
def validate (c : Config) : Except ConfigError Unit := do
  if c.compaction.frequency.millis < shortestFrequency then
    throw (.lowFrequency c.compaction.frequency)
  if 100 < c.log.percentage then throw (.highPercentage c.log.percentage)

end Config

end SeriesStore
