import SeriesStore.Config.Reader
import SeriesStore.Disk.Basic

/-!
# Finding the configuration

A configuration comes from a file and from environment variables, which go before the file. When
no file is named, a user's own file, that of the system and that of the working directory are
tried, in this order.
-/

namespace SeriesStore

/-- Variables with their values. -/
abbrev Environment := List (String × String)

namespace Environment

/-- The variables that matter. -/
def names : List String :=
  ["HOME", "XDG_CONFIG_HOME", "XDG_DATA_HOME", "TSDB_DATA_DIR", "TSDB_COMPACTION_TYPE",
   "TSDB_COMPACTION_FREQUENCY", "TSDB_RETENTION_TIME", "TSDB_TRANSLOG_RATE_LIMIT_PERCENTAGE",
   "TSDB_LOG_LEVEL", "TSDB_LOG_FORMAT"]

/-- The value of a variable. -/
def get? (env : Environment) (name : String) : Option String := env.lookup name

/-- The home directory. -/
def home? (env : Environment) : Option Path :=
  match env.get? "HOME" with
  | some "" | none => none
  | some s => some (.ofText s)

/-- A base directory: the one in a variable, if that is an absolute path, or else one below the
home directory. -/
def baseDir? (env : Environment) (name belowHome : String) : Option Path :=
  match (env.get? name).map Path.ofText with
  | some p => if p.isAbsolute then some p else env.home?.map (· / belowHome)
  | none => env.home?.map (· / belowHome)

/-- The data directory that is used when none is named. -/
def dataDir (env : Environment) : String :=
  match env.baseDir? "XDG_DATA_HOME" ".local/share" with
  | some p => (p / "tsdb").toText
  | none => "./tsdb_data"

/-- The files that are tried when none is named. -/
def configFiles (env : Environment) : List Path :=
  ((env.baseDir? "XDG_CONFIG_HOME" ".config").map fun p => p / "tsdb" / "config.toml").toList
    ++ [.ofText "/etc/tsdb/config.toml", .ofText "./config.toml"]

end Environment

namespace Config

/-- The configuration when nothing is chosen. -/
def standard (env : Environment) : Config := { dataDir := env.dataDir }

/-! ### Variables -/

/-- Changes a configuration if a variable is set and can be understood. -/
def override {α : Type} (env : Environment) (name : String) (parse : String → Option α)
    (set : Config → α → Config) (c : Config) : Config :=
  match (env.get? name).bind parse with
  | some a => set c a
  | none => c

/-- Reads the time for which data is kept. -/
def retention? (s : String) : Option (Option Duration) :=
  if Text.lowerAscii s = "unbounded" then some none else (Duration.ofText? s).map some

/-- Reads a percentage, which may exceed 100. -/
def percentage? (s : String) : Option UInt8 := (Text.decimal? 256 s.toList).map UInt8.ofNat

/-- The configuration with the values of all variables that can be understood. -/
def overridden (env : Environment) (c : Config) : Config :=
  c |> override env "TSDB_DATA_DIR" some (fun c s => { c with dataDir := s })
    |> override env "TSDB_COMPACTION_TYPE" some (fun c s => { c with compaction.kind := s })
    |> override env "TSDB_COMPACTION_FREQUENCY" Duration.ofText?
      (fun c t => { c with compaction.frequency := t })
    |> override env "TSDB_RETENTION_TIME" retention?
      (fun c t => { c with compaction.retention := t })
    |> override env "TSDB_TRANSLOG_RATE_LIMIT_PERCENTAGE" percentage?
      (fun c p => { c with log.percentage := p })
    |> override env "TSDB_LOG_LEVEL" some (fun c s => { c with report.level := s })
    |> override env "TSDB_LOG_FORMAT" some (fun c s => { c with report.format := s })

/-- The configuration from variables alone. -/
def ofEnvironment (env : Environment) : Config := overridden env (standard env)

/-! ### Files -/

/-- The configuration in a file. -/
def load (env : Environment) (disk : Disk) (path : Path) : Except ConfigError Config :=
  match disk.readText path with
  | .error _ => .error (.unreadable path.quoted)
  | .ok s =>
    match ofToml env.dataDir s with
    | .ok c => .ok c
    | .error fault => .error (.malformed path.quoted fault)

/-- The configuration in a file, with the values of variables. -/
def loadOverridden (env : Environment) (disk : Disk) (path : Path) : Except ConfigError Config :=
  (load env disk path).map (overridden env)

/-- The configuration in the first file that has one, or else from variables alone. -/
def search (env : Environment) (disk : Disk) : Config :=
  (env.configFiles.findSome? fun p => (loadOverridden env disk p).toOption).getD
    (ofEnvironment env)

end Config

end SeriesStore
