import SeriesStore.Config.Basic
import SeriesStore.Toml.Printer

/-!
# Printing configurations

The tree of a configuration, in which a limit that is taken away has a value of its own, and the
TOML document of that tree.
-/

namespace SeriesStore.Config

/-- A word in a tree. -/
def ofWord (w : UInt64) : Datum := .int w.toNat

/-- The tree of the section on merging. -/
def compactionDatum (c : CompactionConfig) : Datum :=
  .record
    [("type", .text c.kind),
     ("frequency", .text c.frequency.toText),
     ("retention_time", (c.retention.map fun t => .text t.toText).getD .null),
     ("force_merge_min_segment_count", ofWord c.trigger),
     ("force_merge_max_segments_after_merge", ofWord c.target),
     ("ooo_cutoff", .text c.lateness.toText),
     ("block_duration", .text c.block.toText),
     ("time_unit", .text c.resolution.name)]

/-- The tree of the section on the write-ahead log. -/
def logDatum (c : LogConfig) : Datum :=
  .record
    [("retention_size", (c.size.map ofWord).getD (.int (-1))),
     ("retention_age", .text ((c.age.map Duration.toText).getD "unbounded")),
     ("retention_total_files", ofWord c.files),
     ("max_readers_to_close_percentage", .int c.percentage.toNat)]

/-- The tree of the section on reports. -/
def reportDatum (c : ReportConfig) : Datum :=
  .record [("level", .text c.level), ("format", .text c.format)]

/-- The tree of a configuration. -/
def toDatum (c : Config) : Datum :=
  .record
    [("data_dir", .text c.dataDir),
     ("compaction", compactionDatum c.compaction),
     ("translog", logDatum c.log),
     ("logging", reportDatum c.report)]

/-- The TOML document of a configuration. Numbers beyond the range of TOML cannot be written. -/
def toToml? (c : Config) : Option String := Toml.document? c.toDatum

end SeriesStore.Config
