import SeriesStore.Compaction.Error
import SeriesStore.Config.Basic

/-!
# Settings that change

Some settings can be changed while the store is in use. A change is first tried on a copy of the
settings: the copy must be valid, and each callback that is registered for the changed setting
must accept it. Only then does the copy become current.
-/

namespace SeriesStore

/-- The settings of one store. -/
structure EngineSettings where
  compaction : CompactionConfig := {}
  log : LogConfig := {}
  deriving DecidableEq

/-- The settings in a configuration. -/
def Config.settings (c : Config) : EngineSettings := ⟨c.compaction, c.log⟩

/-- The settings that can be changed. -/
inductive SettingKey
  | kind
  | frequency
  | trigger
  | target
  | percentage
  deriving DecidableEq

/-- The full name of a setting. -/
def SettingKey.name : SettingKey → String
  | kind => "compaction.type"
  | frequency => "compaction.frequency"
  | trigger => "compaction.force_merge_min_segment_count"
  | target => "compaction.force_merge_max_segments_after_merge"
  | percentage => "translog.max_readers_to_close_percentage"

/-- A new value for one setting. -/
inductive SettingUpdate
  | kind (name : String)
  | frequency (d : Duration)
  | trigger (n : UInt64)
  | target (n : UInt64)
  | percentage (p : UInt8)
  deriving DecidableEq

namespace SettingUpdate

/-- The setting that is changed. -/
def key : SettingUpdate → SettingKey
  | kind _ => .kind
  | frequency _ => .frequency
  | trigger _ => .trigger
  | target _ => .target
  | percentage _ => .percentage

/-- The settings with the new value. -/
def apply (u : SettingUpdate) (s : EngineSettings) : EngineSettings :=
  match u with
  | kind name => { s with compaction.kind := name }
  | frequency d => { s with compaction.frequency := d }
  | trigger n => { s with compaction.trigger := n }
  | target n => { s with compaction.target := n }
  | percentage p => { s with log.percentage := p }

end SettingUpdate

/-- Why settings are refused. -/
inductive SettingsError
  | compaction (error : CompactionError)
  | highPercentage (p : UInt8)
  deriving DecidableEq

/-- The text that describes a refusal. -/
def SettingsError.message : SettingsError → String
  | compaction error => error.message
  | highPercentage p =>
    s!"Invalid value for {SettingKey.percentage.name}: {p.toNat} is not between 0 and 100"

/-- The limits that settings must keep. -/
def EngineSettings.validate (s : EngineSettings) : Except SettingsError Unit :=
  if s.compaction.frequency.millis < Config.shortestFrequency then
    .error (.compaction (.invalidFrequency s.compaction.frequency.millis))
  else if 100 < s.log.percentage then .error (.highPercentage s.log.percentage)
  else .ok ()

/-- A callback on settings that are about to become current. It may refuse them, and it may change
the state around it even then. -/
abbrev Consumer (σ : Type) := EngineSettings → ExceptT SettingsError (StateM σ) Unit

/-- Current settings, and the callbacks on their changes in the order of registration. -/
structure IndexSettings (σ : Type) where
  name : String
  current : EngineSettings
  consumers : List (SettingKey × Consumer σ) := []

namespace IndexSettings

variable {σ : Type}

/-- Settings without callbacks, if they keep the limits. -/
def of? (name : String) (s : EngineSettings) : Except SettingsError (IndexSettings σ) := do
  s.validate
  return { name, current := s }

/-- Registers callbacks. -/
def register (s : IndexSettings σ) (cs : List (SettingKey × Consumer σ)) : IndexSettings σ :=
  { s with consumers := s.consumers ++ cs }

/-- The callbacks on changes of one setting. -/
def consumersOf (s : IndexSettings σ) (key : SettingKey) : List (Consumer σ) :=
  (s.consumers.filter fun c => c.1 == key).map (·.2)

/-- Calls one callback after the other, up to the first that refuses. -/
def runAll (candidate : EngineSettings) :
    List (Consumer σ) → ExceptT SettingsError (StateM σ) Unit
  | [] => pure ()
  | c :: cs => do
    c candidate
    runAll candidate cs

/-- Applies an update. -/
def apply (s : IndexSettings σ) (u : SettingUpdate) :
    ExceptT SettingsError (StateM σ) (IndexSettings σ) := do
  let candidate := u.apply s.current
  match candidate.validate with
  | .error e => throw e
  | .ok () => do
    runAll candidate (s.consumersOf u.key)
    return { s with current := candidate }

end IndexSettings

end SeriesStore
