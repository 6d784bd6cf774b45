import SeriesStore.CommandLine.Arguments
import SeriesStore.CommandLine.Output
import SeriesStore.Config.Environment
import SeriesStore.Config.Template

/-!
# Running a command

A command first finds its configuration and checks it, and then does its work. It ends with an
exit code and with texts for the two outputs.
-/

namespace SeriesStore.CommandLine

/-- How a command ends. -/
structure Ending where
  exit : Nat := 0
  output : String := ""
  /-- The text for the second output. -/
  errors : String := ""
  deriving DecidableEq

/-- Where and when a command runs. -/
structure Scene where
  environment : Environment
  /-- What a new index gets. -/
  origin : Origin

/-- A computation of a command, which fails with a message and its causes. -/
abbrev CommandM := ExceptT (List String) (StateM Disk)

namespace CommandM

/-- A computation on the disk, as a part of a command. -/
def ofDisk {α : Type} (f : DiskM α) : CommandM α := fun disk =>
  match (f.run).run disk with
  | (.ok a, disk) => (.ok a, disk)
  | (.error e, disk) => (.error (storageErrorTexts e), disk)

/-- A part of a command that says what it was about when it fails. -/
def about {α : Type} (subject : String) (f : CommandM α) : CommandM α := do
  try f catch causes => throw (subject :: causes)

/-- Writes a file. -/
def write (path : Path) (content : Bytes) : CommandM Unit := fun disk =>
  match ((DiskM.write path content).run).run disk with
  | (.ok (), disk) => (.ok (), disk)
  | (.error (.io cause), disk) => (.error [cause.message], disk)
  | (.error e, disk) => (.error (storageErrorTexts e), disk)

/-- The result of finding or checking a configuration. -/
def ofConfig {α : Type} : Except ConfigError α → CommandM α
  | .ok a => pure a
  | .error e => throw [configErrorText e]

end CommandM

/-- The configuration that a command runs with. -/
def configuration (scene : Scene) (i : Invocation) : CommandM Config := do
  let disk ← get
  let c ←
    match i.config with
    | some file =>
      CommandM.ofConfig (Config.loadOverridden scene.environment disk (.ofText file))
    | none => pure (Config.search scene.environment disk)
  let c := match i.dataDir with
    | some dir => { c with dataDir := dir }
    | none => c
  CommandM.ofConfig c.validate
  return c

/-- The engine that a command works with. -/
def engine (c : Config) : CommandM Engine := do
  match IndexSettings.of? "default" c.settings with
  | .error e => throw [e.message]
  | .ok settings => CommandM.ofDisk (Engine.open (.ofText c.dataDir) settings)

/-- Carries out a command. -/
def perform (scene : Scene) (i : Invocation) : CommandM Ending := do
  let c ← configuration scene i
  let asJson := i.format == "json"
  match i.command with
  | .tiers retention =>
    if Text.lowerAscii retention = "unbounded" then
      return { output := tiersText asJson (Tiers.forRetention none) }
    else
      match Duration.ofText? retention with
      | none => throw [configErrorText (.duration retention)]
      | some d => return { output := tiersText asJson (Tiers.forRetention (some d.hours)) }
  | .inspect dir withSamples => do
    let path := Path.ofText dir
    let ix ← CommandM.about ("opening index " ++ path.quoted)
      (CommandM.ofDisk (Index.open path))
    let entries ← CommandM.ofDisk ix.chunks
    let body := if asJson then json (indexDatum ix entries) else indexText ix entries
    if withSamples then
      return {
        output := body ++ String.join (entries.map samplesText)
        errors := String.join (entries.map damageText) }
    else return { output := body }
  | .plan => do
    let e ← engine c
    let plan ← CommandM.ofDisk e.plan
    return { output := planText asJson e.strategy plan }
  | .compact => do
    let e ← engine c
    let outcome ← CommandM.ofDisk (e.cycle scene.origin)
    return { output := outcomeText asJson outcome }
  | .config output =>
    match output with
    | none => return { output := Config.template }
    | some file => do
      let path := Path.ofText file
      CommandM.about ("writing " ++ path.quoted)
        (CommandM.write path (Bytes.ofText Config.template))
      return { output := line ("Config written to " ++ path.quoted) }

/-- Name and version of the program. -/
def versionText : String := line "tsdb 0.1.0"

/-- How the program is called. -/
def usageText : String :=
  line "Usage: tsdb [OPTIONS] <tiers|inspect|plan|compact|config>"

/-- Runs the command that the arguments ask for. -/
def run (scene : Scene) (args : List String) : StateM Disk Ending := do
  match Invocation.ofArguments args with
  | .error .version => return { output := versionText }
  | .error .help => return { output := usageText }
  | .error .misuse => return { exit := 2, errors := usageText }
  | .ok i => do
    match ← (perform scene i).run with
    | .ok ending => return ending
    | .error e => return { exit := 1, errors := failureText e }

end SeriesStore.CommandLine
