/-!
# The configuration template

A configuration file in which every value is explained and set to what it is without the file.
-/

namespace SeriesStore.Config

/-- The lines of the template. -/
def templateLines : List String :=
  ["# tsdb Configuration",
   "#",
   "# Environment variables override these settings:",
   "# - TSDB_DATA_DIR",
   "# - TSDB_COMPACTION_TYPE",
   "# - TSDB_COMPACTION_FREQUENCY",
   "# - TSDB_RETENTION_TIME (\"unbounded\" clears it)",
   "# - TSDB_TRANSLOG_RATE_LIMIT_PERCENTAGE",
   "# - TSDB_LOG_LEVEL",
   "# - TSDB_LOG_FORMAT",
   "",
   "# Directory holding closed chunk indexes",
   "data_dir = \"~/.local/share/tsdb\"",
   "",
   "[compaction]",
   "# Strategy: SizeTieredCompaction, ForceMergeCompaction or Noop",
   "type = \"SizeTieredCompaction\"",
   "",
   "# How often compaction runs (minimum 1m)",
   "frequency = \"15m\"",
   "",
   "# Data retention; tiers are derived from it. Leave unset for unbounded.",
   "# retention_time = \"30d\"",
   "",
   "# Force merge once an index has this many segments",
   "force_merge_min_segment_count = 2",
   "",
   "# Segments left after a force merge (must not exceed the count above)",
   "force_merge_max_segments_after_merge = 1",
   "",
   "# Trailing window still accepting out-of-order samples",
   "ooo_cutoff = \"20m\"",
   "",
   "# Width of one time-aligned block",
   "block_duration = \"2h\"",
   "",
   "# Unit of index timestamps: seconds, milliseconds, microseconds, nanoseconds",
   "time_unit = \"milliseconds\"",
   "",
   "[translog]",
   "# Bytes of write-ahead log to retain; -1 or \"unbounded\" disables size retention",
   "retention_size = 536870912",
   "",
   "# Age of write-ahead log to retain; -1 or \"unbounded\" disables age retention",
   "retention_age = \"12h\"",
   "",
   "# Number of log files to retain, including the active one",
   "retention_total_files = 64",
   "",
   "# Percent of trimmable generations released per cycle (0-100)",
   "max_readers_to_close_percentage = 100",
   "",
   "[logging]",
   "# Log level: trace, debug, info, warn, error",
   "level = \"info\"",
   "",
   "# Log format: pretty (for development) or json (for production)",
   "format = \"pretty\""]

/-- The text of the template. -/
def template : String := String.join (templateLines.map (· ++ "\n"))

end SeriesStore.Config
