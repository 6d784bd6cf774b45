import SeriesStore.CommandLine.Run

/-!
# What a command looks at

The files and directories that a command may read or change. They are known in two steps, since
the configuration says where the data is.
-/

namespace SeriesStore

/-- The places that a path leads through, as far as that shows without a disk. -/
def Path.route (p : Path) (workDir : Place) : List Place :=
  let start := if p.isAbsolute then [] else workDir
  let step (q : Place) (part : String) : Place :=
    if part = "" ∨ part = "." then q else if part = ".." then q.dropLast else q ++ [part]
  (List.range (start.length + 1)).map start.take
    ++ (List.range p.parts.length).map fun i => (p.parts.take (i + 1)).foldl step start

namespace CommandLine

/-- The files in which a configuration may stand. -/
def configFiles (environment : Environment) (args : List String) : List Path :=
  match Invocation.ofArguments args with
  | .error _ => []
  | .ok i =>
    match i.config with
    | some file => [.ofText file]
    | none => environment.configFiles

/-- The directory that a command works on, or the file that it writes. -/
def subject? (scene : Scene) (args : List String) (disk : Disk) : Option Path :=
  match Invocation.ofArguments args with
  | .error _ => none
  | .ok i =>
    match i.command, ((configuration scene i).run disk).1 with
    | .tiers _, _ => none
    | .inspect dir _, _ => some (.ofText dir)
    | .config file, _ => file.map .ofText
    | _, .ok c => some (.ofText c.dataDir)
    | _, .error _ => none

end CommandLine

end SeriesStore
