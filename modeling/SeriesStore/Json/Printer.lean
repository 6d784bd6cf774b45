import SeriesStore.Datum
import SeriesStore.Text.Hex

/-!
# Printing JSON

Two layouts: on one line without blanks, and indented by two spaces with one item on a line.
-/

namespace SeriesStore.Json

/-- The form of a character inside quotes. -/
def quotedChar (c : Char) : List Char :=
  match c with
  | '"' => ['\\', '"']
  | '\\' => ['\\', '\\']
  | '\x08' => ['\\', 'b']
  | '\x0c' => ['\\', 'f']
  | '\n' => ['\\', 'n']
  | '\r' => ['\\', 'r']
  | '\t' => ['\\', 't']
  | c => if c.toNat < 0x20 then ['\\', 'u'] ++ Text.hexDigits 4 c.toNat else [c]

/-- A text in quotes. -/
def quoted (s : String) : String :=
  String.ofList ('"' :: s.toList.flatMap quotedChar ++ ['"'])

/-- A text that is half of a character. -/
def halfCharacter : String := "\"\\ud800\""

mutual

/-- A value on one line. -/
def compact : Datum → String
  | .null => "null"
  | .bool b => if b then "true" else "false"
  | .int n => toString n
  | .real literal => literal
  | .text s => quoted s
  | .list items => "[" ++ compactItems items ++ "]"
  | .record fields => "\x7b" ++ compactFields fields ++ "\x7d"
  | .broken => halfCharacter

/-- Items with commas between them. -/
def compactItems : List Datum → String
  | [] => ""
  | [d] => compact d
  | d :: ds => compact d ++ "," ++ compactItems ds

/-- Fields with commas between them. -/
def compactFields : List (String × Datum) → String
  | [] => ""
  | [(name, d)] => quoted name ++ ":" ++ compact d
  | (name, d) :: fs => quoted name ++ ":" ++ compact d ++ "," ++ compactFields fs

end

/-- The start of a line at a depth of nesting. -/
def newLine (depth : Nat) : String := "\n" ++ String.ofList (List.replicate (2 * depth) ' ')

mutual

/-- A value whose parts stand on lines of their own. -/
def indented (depth : Nat) : Datum → String
  | .list (d :: ds) => "[" ++ indentedItems (depth + 1) (d :: ds) ++ newLine depth ++ "]"
  | .record (f :: fs) =>
    "\x7b" ++ indentedFields (depth + 1) (f :: fs) ++ newLine depth ++ "\x7d"
  | .list [] => "[]"
  | .record [] => "\x7b\x7d"
  | .null => "null"
  | .bool b => if b then "true" else "false"
  | .int n => toString n
  | .real literal => literal
  | .text s => quoted s
  | .broken => halfCharacter

/-- Items, each on a line of its own. -/
def indentedItems (depth : Nat) : List Datum → String
  | [] => ""
  | [d] => newLine depth ++ indented depth d
  | d :: ds => newLine depth ++ indented depth d ++ "," ++ indentedItems depth ds

/-- Fields, each on a line of its own. -/
def indentedFields (depth : Nat) : List (String × Datum) → String
  | [] => ""
  | [(name, d)] => newLine depth ++ quoted name ++ ": " ++ indented depth d
  | (name, d) :: fs =>
    newLine depth ++ quoted name ++ ": " ++ indented depth d ++ "," ++ indentedFields depth fs

end

/-- The indented form of a value. -/
def pretty (d : Datum) : String := indented 0 d

end SeriesStore.Json
