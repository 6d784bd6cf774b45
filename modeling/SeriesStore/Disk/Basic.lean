import SeriesStore.Disk.Tree
import SeriesStore.Error

/-!
# Disks

A disk holds a directory tree and carries out changes one by one. Each change either happens as a
whole or is refused; only a write can also stop midway and leave a part of the contents. Which
changes fail is a property of the disk, so that a crash is a disk that refuses everything from
some change on.
-/

namespace SeriesStore

/-! ### Changes -/

/-- A single step that alters a tree. -/
inductive Change
  | write (place : Place) (content : Bytes)
  /-- Moves a file to another place, over a file that may stand there. -/
  | rename (source target : Place)
  | remove (place : Place)
  | removeAll (place : Place)
  /-- Removes all in a directory, but not the directory. -/
  | clear (place : Place)
  | makeDir (place : Place)
  deriving DecidableEq

/-- The tree after a change. -/
def Change.apply (c : Change) (t : Tree) : Tree :=
  match c with
  | write p content => t.put p (.file content)
  | rename p q =>
    match t.node? p with
    | some n => (t.erase p).put q n
    | none => t
  | remove p => t.erase p
  | removeAll p => t.eraseAll p
  | clear p => t.clear p
  | makeDir p => t.put p .dir

/-- How a change fails. -/
inductive Fault
  /-- Nothing happens. -/
  | refused
  /-- Of a write, only some leading bytes arrive. -/
  | cut (length : Nat)
  deriving DecidableEq

/-- The tree after a change that fails. -/
def Fault.apply (f : Fault) (c : Change) (t : Tree) : Tree :=
  match f, c with
  | cut n, .write p content => t.put p (.file (content.take n))
  | _, _ => t

/-- A directory tree under a working directory. -/
structure Disk where
  tree : Tree := []
  /-- The place at which relative paths start. -/
  workDir : Place := []
  /-- The changes tried so far, last first. -/
  tried : List Change := []
  /-- How a change fails, given the number of changes tried before it. -/
  faults : Nat → Change → Option Fault := fun _ _ => none

/-- A computation that reads and changes a disk. What it changed before an error stays. -/
abbrev DiskM := ExceptT StorageError (StateM Disk)

namespace Disk

/-! ### Finding places -/

/-- Steps from a place to the next part of a path. Only directories can be left, and no directory
holds a name that is too long. -/
def step (t : Tree) (p : Place) (part : String) : Except IoError Place :=
  match t.node? p with
  | none => .error .notFound
  | some (.file _) => .error .other
  | some .dir =>
    if part = "" ∨ part = "." then .ok p
    else if part = ".." then .ok p.dropLast
    else if Path.maxNameLength < part.utf8ByteSize then .error .other
    else .ok (p ++ [part])

/-- The place at which a path starts. -/
def start (d : Disk) (path : Path) : Except IoError Place :=
  if path.isUnnameable || path.isTooLong then .error .other
  else .ok (if path.isAbsolute then [] else d.workDir)

/-- The place that a path leads to. It need not be occupied, but all on the way to it must be. -/
def locate (d : Disk) (path : Path) : Except IoError Place :=
  if path.isEmpty then .error .notFound
  else do path.parts.foldlM (step d.tree) (← d.start path)

/-- The place of a file that may still have to be made. With a slash behind its name a path can
only stand for a directory, and that is not made. -/
def locateFile (d : Disk) (path : Path) : Except IoError Place :=
  match d.locate path with
  | .error .notFound =>
    if path.parts.getLast? = some "" then do
      let _ ← d.locate path.unslashed
      .error .other
    else .error .notFound
  | r => r

/-- What stands at the end of a path. -/
def find? (d : Disk) (path : Path) : Option Node :=
  match d.locate path with
  | .ok p => d.tree.node? p
  | .error _ => none

/-- Whether a path leads to a file or directory. -/
def exists? (d : Disk) (path : Path) : Bool := (d.find? path).isSome

/-- Whether a path leads to a directory. -/
def isDir (d : Disk) (path : Path) : Bool := d.find? path == some .dir

/-- The contents of a file. -/
def read (d : Disk) (path : Path) : Except IoError Bytes :=
  match d.locate path with
  | .error e => .error e
  | .ok p =>
    match d.tree.node? p with
    | some (.file content) => .ok content
    | some .dir => .error .other
    | none => .error .notFound

/-- The contents of a file as text. -/
def readText (d : Disk) (path : Path) : Except IoError String :=
  match d.read path with
  | .error e => .error e
  | .ok content =>
    match content.toText? with
    | some s => .ok s
    | none => .error .notText

/-- The names in a directory. -/
def list (d : Disk) (path : Path) : Except IoError (List String) :=
  match d.locate path with
  | .error e => .error e
  | .ok p =>
    match d.tree.node? p with
    | some .dir => .ok (d.tree.names p)
    | some (.file _) => .error .other
    | none => .error .notFound

end Disk

/-! ### Computations -/

namespace DiskM

/-- Fails with an error of the disk. -/
def fail {α : Type} (e : IoError) : DiskM α := throw (.io e)

/-- The result of a computation without a disk. -/
def ofExcept {α : Type} (r : Except StorageError α) : DiskM α := ExceptT.mk (pure r)

/-- Asks the disk. -/
def ask {α : Type} (f : Disk → Except IoError α) : DiskM α := do
  match f (← get) with
  | .ok a => pure a
  | .error e => fail e

/-- Tries a change. -/
def change (c : Change) : DiskM Unit := do
  let d ← get
  match d.faults d.tried.length c with
  | none => set { d with tree := c.apply d.tree, tried := c :: d.tried }
  | some f => do
    set { d with tree := f.apply c d.tree, tried := c :: d.tried }
    fail .other

/-- Reads a file. -/
def read (path : Path) : DiskM Bytes := ask (·.read path)

/-- Reads a file of text. -/
def readText (path : Path) : DiskM String := ask (·.readText path)

/-- Writes a file, new or over an old one. -/
def write (path : Path) (content : Bytes) : DiskM Unit := do
  let p ← ask (·.locateFile path)
  if (← get).tree.node? p = some .dir then fail .other
  change (.write p content)

/-- Moves a file. A slash behind the new name is refused. -/
def rename (source target : Path) : DiskM Unit := do
  let p ← ask (·.locate source)
  let q ← ask (·.locateFile target)
  let t := (← get).tree
  if t.node? p = none then fail .notFound
  if t.node? p = some .dir ∨ t.node? q = some .dir then fail .other
  change (.rename p q)

/-- Removes a file. -/
def remove (path : Path) : DiskM Unit := do
  let p ← ask (·.locate path)
  match (← get).tree.node? p with
  | none => fail .notFound
  | some .dir => fail .other
  | some (.file _) => change (.remove p)

/-- Removes a directory and all in it. The directory goes last, and under the given path: it stays
if the path leads through what was in it, and cannot be removed if the path ends in a dot. -/
def removeAll (path : Path) : DiskM Unit := do
  let p ← ask (·.locate path)
  let d ← get
  match d.tree.node? p with
  | none => fail .notFound
  | some (.file _) => fail .other
  | some .dir =>
    match { d with tree := d.tree.clear p }.locate path with
    | .error _ => change (.clear p)
    | .ok _ => do
      if path.endsInDot then
        change (.clear p)
        fail .other
      change (.removeAll p)

/-- Makes the directories on the way along some parts of a path. -/
def makeDirsFrom : Place → List String → DiskM Unit
  | _, [] => pure ()
  | p, part :: parts => do
    match Disk.step (← get).tree p part with
    | .error e => fail e
    | .ok q => do
      match (← get).tree.node? q with
      | none => change (.makeDir q)
      | some (.file _) => fail .other
      | some .dir => pure ()
      makeDirsFrom q parts

/-- Makes a directory and those that it stands in, as far as they are missing. If the path ends in
a dot, the directory in front of the dot has to be there already. -/
def makeDirs (path : Path) : DiskM Unit := do
  let p ← ask (·.start path)
  if path.endsInDot then
    makeDirsFrom p path.trimmed.dropLast
    let _ ← ask (·.locate path)
  else makeDirsFrom p path.parts

/-- Runs a computation for its effect on the disk and drops its error. -/
def attempt (f : DiskM Unit) : DiskM Unit := try f catch _ => pure ()

end DiskM

end SeriesStore
