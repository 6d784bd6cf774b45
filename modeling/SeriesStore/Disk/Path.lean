import SeriesStore.Text.Quoted

/-!
# Paths

A path is kept as the parts between its slashes, so that it can be shown exactly as it was
written. A path that starts with a slash has an empty first part, and one that ends with a slash
has an empty last part. Paths and the names in them have a greatest length, counted in bytes.
-/

namespace SeriesStore

/-- The written form of the way to a file or directory. -/
structure Path where
  parts : List String
  deriving DecidableEq

namespace Path

/-- The path that a text denotes. -/
def ofText (s : String) : Path := ⟨s.splitOn "/"⟩

/-- The text of a path. -/
def toText (p : Path) : String := "/".intercalate p.parts

/-- The form of a path in messages. -/
def quoted (p : Path) : String := Text.quotedName p.toText

/-- Whether a path starts at the root. -/
def isAbsolute (p : Path) : Bool :=
  match p.parts with
  | "" :: _ :: _ => true
  | _ => false

/-- Whether a path has a zero character, which no name can have. -/
def isUnnameable (p : Path) : Bool := p.parts.any fun part => part.toList.contains '\x00'

/-- How many bytes a path may have at most. -/
def maxLength : Nat := 4095

/-- How many bytes a name may have at most. -/
def maxNameLength : Nat := 255

/-- Whether a path is longer than any path may be. -/
def isTooLong (p : Path) : Bool := decide (maxLength < p.toText.utf8ByteSize)

/-- Whether a path is the empty text. -/
def isEmpty (p : Path) : Bool := p.parts == [""] || p.parts == []

/-- The path of `q` as seen from the directory `p`. -/
def join (p q : Path) : Path :=
  if q.isAbsolute || p.isEmpty then q
  else if p.parts.getLast? = some "" then ⟨p.parts.dropLast ++ q.parts⟩
  else ⟨p.parts ++ q.parts⟩

instance : HDiv Path String Path := ⟨fun p name => p.join (ofText name)⟩

/-- The path without the slashes at its end. -/
def unslashed (p : Path) : Path := ⟨(p.parts.reverse.dropWhile (· == "")).reverse⟩

/-- The parts of a path without the ones behind the last name that say nothing. -/
def trimmed (p : Path) : List String :=
  (p.parts.reverse.dropWhile fun part => part == "" || part == ".").reverse

/-- Whether a path ends in a dot that stands for the directory in front of it. -/
def endsInDot (p : Path) : Bool := p.unslashed.parts.getLast? == some "."

/-- The last part of a path, if it names something. -/
def fileName? (p : Path) : Option String :=
  match p.trimmed.getLast? with
  | none | some ".." => none
  | some name => some name

/-- A name without the text behind its last dot. A dot at the start does not count. -/
def stem (name : String) : String :=
  let cs := name.toList
  match cs.reverse.dropWhile (· != '.') with
  | [] | ['.'] => name
  | _ :: front => String.ofList front.reverse

/-- The path next to a file whose name ends in `tmp` instead of its own ending. If only two dots are
left of the name without its ending, the path leads to the directory above and gets no ending. -/
def temporary (p : Path) : Path :=
  match p.fileName? with
  | none => p
  | some name =>
    let dir := p.trimmed.dropLast
    if stem name = "." ∧ p.parts.getLast? = some name then ⟨dir ++ [".."]⟩
    else ⟨dir ++ [stem name ++ ".tmp"]⟩

end Path

end SeriesStore
