import SeriesStore.CommandLine.Reach
import Std.Time.DateTime.Timestamp

/-!
# The program

The program takes a picture of the files that a command looks at, runs the command on the picture,
and then carries out on the real files, one by one, the changes that were made to it.
-/

namespace SeriesStore.Program

/-- The name of a place for the operating system. -/
def nameOf (p : Place) : String := "/" ++ "/".intercalate p

/-- The picture with what stands at a place. -/
def look (t : Tree) (p : Place) : IO Tree := do
  let here ← IO.currentDir
  try
    match (← (here / nameOf p).metadata).type with
    | .dir => return t.put p .dir
    | .file => return t.put p (.file (← IO.FS.readBinFile (nameOf p)).toList)
    | _ => return t
  catch _ => return t

/-- The picture with all that stands below a place. -/
partial def lookBelow (t : Tree) (p : Place) : IO Tree := do
  let here ← IO.currentDir
  if t.node? p == some .dir then
    try
      let mut t := t
      for entry in ← (here / nameOf p).readDir do
        t ← look t (p ++ [entry.fileName])
        t ← lookBelow t (p ++ [entry.fileName])
      return t
    catch _ => return t
  else return t

/-- The picture with what stands on the way along a path. -/
def lookAlong (workDir : Place) (t : Tree) (path : Path) : IO Tree :=
  (path.route workDir).foldlM look t

/-- Carries out a change. -/
def carryOut : Change → IO Unit
  | .write p content => IO.FS.writeBinFile (nameOf p) ⟨content.toArray⟩
  | .rename p q => IO.FS.rename (nameOf p) (nameOf q)
  | .remove p => IO.FS.removeFile (nameOf p)
  | .removeAll p => IO.FS.removeDirAll (nameOf p)
  | .clear p => do
    let here ← IO.currentDir
    for entry in ← (here / nameOf p).readDir do
      if ← entry.path.isDir then IO.FS.removeDirAll entry.path else IO.FS.removeFile entry.path
  | .makeDir p => IO.FS.createDir (nameOf p)

/-- A new random identifier. -/
def newUid : IO Uid := do
  return .ofRandom (Bytes.toNatLE (← IO.getRandomBytes 16).toList)

/-- The start of 1970. -/
def epoch : Instant := ⟨⟨1970, 1, 1⟩, 0, 0, 0, 0, by decide, by decide⟩

/-- The current time. -/
def now : IO Instant := do
  let nanos : Int := (← Std.Time.Timestamp.now).toNanosecondsSinceUnixEpoch.val
  return (Instant.ofUnix? (nanos / 1000000000) (nanos % 1000000000).toNat).getD epoch

/-- The variables that are set. -/
def environment : IO Environment := do
  Environment.names.filterMapM fun name => do
    return (← IO.getEnv name).map fun value => (name, value)

/-- Runs a command, and gives its exit code. -/
def run (args : List String) : IO UInt32 := do
  let environment ← environment
  let workDir : Place := ((← IO.currentDir).toString.splitOn "/").filter (· != "")
  let scene : CommandLine.Scene := ⟨environment, ⟨← newUid, ← newUid, ← now⟩⟩
  let tree ← lookAlong workDir [] (.ofText ".")
  let tree ← (CommandLine.configFiles environment args).foldlM (lookAlong workDir) tree
  let tree ←
    match CommandLine.subject? scene args { tree, workDir } with
    | none => pure tree
    | some path =>
      match (path.route workDir).getLast? with
      | none => pure tree
      | some place => do lookBelow (← lookAlong workDir tree path) place
  let (ending, disk) := (CommandLine.run scene args).run { tree, workDir }
  try
    disk.tried.reverse.forM carryOut
    IO.print ending.output
    IO.eprint ending.errors
    return UInt32.ofNat ending.exit
  catch e =>
    IO.eprintln s!"Error: {e}"
    return 1

end SeriesStore.Program

/-- Runs the command that the arguments ask for. -/
def main (args : List String) : IO UInt32 := SeriesStore.Program.run args
