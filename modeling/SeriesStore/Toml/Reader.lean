import SeriesStore.Toml.Document
import SeriesStore.Toml.Number
import SeriesStore.Toml.Text

/-!
# Reading TOML

Values, and the lines that a document is made of.
-/

namespace SeriesStore.Toml

/-- The rest behind a comment, which ends where its line ends. -/
def skipComment : List Char → List Char
  | '#' :: r => r.dropWhile isPlain
  | cs => cs

/-- Skips blanks, comments and line breaks. -/
def skipLines : Nat → List Char → List Char
  | 0, cs => cs
  | fuel + 1, cs =>
    let r := skipComment (skipBlanks cs)
    match lineBreak? r with
    | some r => skipLines fuel r
    | none => r

/-- Skips blanks, comments and line breaks as far as they go. -/
def skipSpace (cs : List Char) : List Char := skipLines (cs.length + 1) cs

/-- A value that is neither a list nor a table. -/
def scalar? (cs : List Char) : Option (Datum × List Char) :=
  match cs with
  | 't' :: 'r' :: 'u' :: 'e' :: r => some (.bool true, r)
  | 'f' :: 'a' :: 'l' :: 's' :: 'e' :: r => some (.bool false, r)
  | c :: _ =>
    if c == '"' || c == '\'' then (text? cs).map fun (s, r) => (.text s, r)
    else moment? cs <|> real? cs <|> integer? cs
  | [] => none

mutual

/-- A value of at most the given depth. -/
def value? : Nat → Nat → List Char → Option (Datum × List Char)
  | 0, _, _ => none
  | fuel + 1, depth, cs =>
    match cs with
    | '[' :: r => if depth = 0 then none else items? fuel (depth - 1) r []
    | '\x7b' :: r =>
      if depth = 0 then none
      else
        match skipBlanks r with
        | '\x7d' :: r => some (.record [], r)
        | r => pairs? fuel (depth - 1) r []
    | _ => scalar? cs

/-- The items of a list up to its closing bracket, read onto those in front of them. -/
def items? : Nat → Nat → List Char → List Datum → Option (Datum × List Char)
  | 0, _, _, _ => none
  | fuel + 1, depth, cs, seen =>
    match skipSpace cs with
    | ']' :: r => some (.list seen.reverse, r)
    | r => do
      let (d, r) ← value? fuel depth r
      match skipSpace r with
      | ',' :: r => items? fuel depth r (d :: seen)
      | ']' :: r => some (.list (d :: seen).reverse, r)
      | _ => none

/-- The assignments of a table up to its closing brace, read onto those in front of them. -/
def pairs? : Nat → Nat → List Char → List (List String × Datum) → Option (Datum × List Char)
  | 0, _, _, _ => none
  | fuel + 1, depth, cs, seen => do
    let (key, r) ← key? cs
    let r ← after? '=' r
    let (d, r) ← value? fuel depth (skipBlanks r)
    match skipBlanks r with
    | ',' :: r => pairs? fuel depth r ((key, d) :: seen)
    | '\x7d' :: r => return (← Statement.inlineTable? ((key, d) :: seen).reverse, r)
    | _ => none

end

/-- One statement. -/
def statement? (cs : List Char) : Option (Statement × List Char) :=
  match cs with
  | '[' :: '[' :: r => do
    let (path, r) ← key? r
    let r ← after? ']' (← after? ']' r)
    return (.element path, r)
  | '[' :: r => do
    let (path, r) ← key? r
    let r ← after? ']' r
    return (.table path, r)
  | _ => do
    let (path, r) ← key? cs
    let r ← after? '=' r
    let (d, r) ← value? (2 * r.length + 2) maxDepth (skipBlanks r)
    return (.assign path d, r)

/-- The statements of a document, read onto those in front of them. At most one stands on a
line. -/
def statements? : Nat → List Char → List Statement → Option (List Statement)
  | 0, _, _ => none
  | fuel + 1, cs, seen =>
    match skipSpace cs with
    | [] => some seen.reverse
    | r => do
      let (s, r) ← statement? r
      match skipComment (skipBlanks r) with
      | [] => return (s :: seen).reverse
      | r => statements? fuel (← lineBreak? r) (s :: seen)

/-- The record that a text describes. A byte order mark may stand in front of it. -/
def parse? (s : String) : Option Datum := do
  let cs := match s.toList with
    | '\uFEFF' :: r => r
    | cs => cs
  Statement.document? (← statements? (cs.length + 1) cs [])

end SeriesStore.Toml
