import SeriesStore.Text.Hex

/-!
# Texts in TOML

Texts stand in double quotes, where a backslash starts an escape, or in single quotes, where it
does not. Three quotes start a text that may run over several lines.
-/

namespace SeriesStore.Toml

/-- Blanks inside a line. -/
def isBlank (c : Char) : Bool := c == ' ' || c == '\t'

/-- The text without blanks at its start. -/
def skipBlanks (cs : List Char) : List Char := cs.dropWhile isBlank

/-- Characters that may stand for themselves in a line: all but control characters. -/
def isPlain (c : Char) : Bool := c == '\t' || (0x20 ≤ c.toNat && c.toNat != 0x7F)

/-- The rest behind a line break, if the text starts with one. -/
def lineBreak? : List Char → Option (List Char)
  | '\n' :: r => some r
  | '\r' :: '\n' :: r => some r
  | _ => none

/-- The character with the code that the `n` next hexadecimal digits denote. -/
def codePoint? (n : Nat) (cs : List Char) : Option (Char × List Char) := do
  if cs.length < n then none
  let v ← Text.ofHexDigits? (cs.take n)
  if h : v.isValidChar then return (Char.ofNatAux v h, cs.drop n) else none

/-- The character of an escape whose backslash has been read. -/
def escape? : List Char → Option (Char × List Char)
  | 'b' :: r => some ('\x08', r)
  | 't' :: r => some ('\t', r)
  | 'n' :: r => some ('\n', r)
  | 'f' :: r => some ('\x0c', r)
  | 'r' :: r => some ('\r', r)
  | '"' :: r => some ('"', r)
  | '\\' :: r => some ('\\', r)
  | 'u' :: r => codePoint? 4 r
  | 'U' :: r => codePoint? 8 r
  | _ => none

/-- The text up to the closing double quote, read onto the characters in front of it. -/
def basic? : Nat → List Char → List Char → Option (String × List Char)
  | 0, _, _ => none
  | fuel + 1, cs, seen =>
    match cs with
    | '"' :: r => some (String.ofList seen.reverse, r)
    | '\\' :: r => do
      let (c, r) ← escape? r
      basic? fuel r (c :: seen)
    | c :: r => if isPlain c then basic? fuel r (c :: seen) else none
    | [] => none

/-- The text up to the closing single quote. -/
def literal? (cs : List Char) : Option (String × List Char) :=
  let inside := cs.takeWhile fun c => isPlain c && c != '\''
  match cs.drop inside.length with
  | '\'' :: r => some (String.ofList inside, r)
  | _ => none

/-- What follows a backslash at the end of a line: the next text that is not blank. A line break
must come before it. -/
def continued? (cs : List Char) : Option (List Char) := do
  let r ← lineBreak? (skipBlanks cs)
  return skipAll (r.length + 1) r
where
  /-- Skips blanks and line breaks. -/
  skipAll : Nat → List Char → List Char
    | 0, cs => cs
    | fuel + 1, cs =>
      match lineBreak? (skipBlanks cs) with
      | some r => skipAll fuel r
      | none => skipBlanks cs

/-- Length of the run of a character at the start of a text. -/
def runLength (q : Char) (cs : List Char) : Nat := (cs.takeWhile (· == q)).length

/-- The text up to three closing quotes, read onto the characters in front of it. One or two
quotes directly before the closing ones belong to the text. With `escapes`, a backslash starts
an escape. -/
def multiline? (q : Char) (escapes : Bool) :
    Nat → List Char → List Char → Option (String × List Char)
  | 0, _, _ => none
  | fuel + 1, cs, seen =>
    let run := runLength q cs
    if 6 ≤ run then none
    else if 3 ≤ run then
      some (String.ofList (seen.reverse ++ List.replicate (run - 3) q), cs.drop run)
    else
      match lineBreak? cs with
      | some r => multiline? q escapes fuel r ('\n' :: seen)
      | none =>
        match cs with
        | [] => none
        | c :: r =>
          if escapes && c == '\\' then
            match escape? r with
            | some (c, r) => multiline? q escapes fuel r (c :: seen)
            | none => do multiline? q escapes fuel (← continued? r) seen
          else if isPlain c then multiline? q escapes fuel r (c :: seen)
          else none

/-- The text of three opening quotes on. A line break directly behind them is dropped. -/
def multilineBody? (q : Char) (escapes : Bool) (cs : List Char) : Option (String × List Char) :=
  let r := (lineBreak? cs).getD cs
  multiline? q escapes (r.length + 1) r []

/-- A text in any of the four forms. -/
def text? : List Char → Option (String × List Char)
  | '"' :: '"' :: '"' :: r => multilineBody? '"' true r
  | '\'' :: '\'' :: '\'' :: r => multilineBody? '\'' false r
  | '"' :: r => basic? (r.length + 1) r []
  | '\'' :: r => literal? r
  | _ => none

/-! ### Keys -/

/-- Characters of a key without quotes. -/
def isKeyChar (c : Char) : Bool := c.isAlphanum || c == '_' || c == '-'

/-- One part of a key. -/
def simpleKey? (cs : List Char) : Option (String × List Char) :=
  match cs with
  | '"' :: r => basic? (r.length + 1) r []
  | '\'' :: r => literal? r
  | _ =>
    let name := cs.takeWhile isKeyChar
    if name.isEmpty then none else some (String.ofList name, cs.drop name.length)

/-- The parts of a key with points between them, read onto those in front. -/
def keyParts? : Nat → List Char → List String → Option (List String × List Char)
  | 0, _, _ => none
  | fuel + 1, cs, seen => do
    let (part, r) ← simpleKey? (skipBlanks cs)
    match skipBlanks r with
    | '.' :: r => keyParts? fuel r (part :: seen)
    | r => return ((part :: seen).reverse, r)

/-- The largest number of parts of a key, and the deepest nesting of lists and tables. -/
def maxDepth : Nat := 79

/-- A key with blanks around it. -/
def key? (cs : List Char) : Option (List String × List Char) := do
  let (parts, r) ← keyParts? (cs.length + 1) cs []
  if parts.length ≤ maxDepth then return (parts, r) else none

end SeriesStore.Toml
