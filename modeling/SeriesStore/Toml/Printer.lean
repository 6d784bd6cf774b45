import SeriesStore.Datum
import SeriesStore.Text.Hex

/-!
# Printing TOML

A record is printed with its plain values first; each of its records becomes a table with a
header of its own, after an empty line. Absent values are left out. A text is printed in the
first of these forms that shows it without escapes: double quotes, single quotes, three double
quotes, three single quotes.
-/

namespace SeriesStore.Toml

/-- Length of the longest run of a character. -/
def longestRun (q : Char) (cs : List Char) : Nat :=
  (cs.foldl (fun (longest, run) c =>
    if c == q then (max longest (run + 1), run + 1) else (longest, 0)) (0, 0)).1

/-- Whether a character can only be shown by an escape: a control character other than tab and
line break. -/
def needsEscape (c : Char) : Bool :=
  (c.toNat < 0x20 && c != '\t' && c != '\n') || c.toNat == 0x7F

/-- The form of a character between double quotes, of which at most `quotes` may follow each
other, and the number of quotes just printed. Line breaks stand for themselves if `lines`. -/
def escaped (lines : Bool) (quotes run : Nat) (c : Char) : List Char × Nat :=
  match c with
  | '"' => if run < quotes then (['"'], run + 1) else (['\\', '"'], 0)
  | '\\' => (['\\', '\\'], 0)
  | '\x08' => (['\\', 'b'], 0)
  | '\t' => (['\\', 't'], 0)
  | '\n' => if lines then (['\n'], 0) else (['\\', 'n'], 0)
  | '\x0c' => (['\\', 'f'], 0)
  | '\r' => (['\\', 'r'], 0)
  | c =>
    if c.toNat < 0x20 || c.toNat == 0x7F then
      (['\\', 'u'] ++ (Text.hexDigits 4 c.toNat).map Char.toUpper, 0)
    else ([c], 0)

/-- The characters between double quotes. -/
def escapedAll (lines : Bool) (quotes : Nat) : Nat → List Char → List Char
  | _, [] => []
  | run, c :: cs =>
    (escaped lines quotes run c).1 ++ escapedAll lines quotes (escaped lines quotes run c).2 cs

/-- The printed form of a text. -/
def quoted (s : String) : String :=
  let cs := s.toList
  let codes := cs.any needsEscape
  let lines := cs.contains '\n'
  let single := longestRun '\'' cs
  let double := longestRun '"' cs
  let firstLine := if lines then ['\n'] else []
  let body :=
    if !codes && !cs.contains '\\' && double == 0 && !lines then
      ['"'] ++ escapedAll false 0 0 cs ++ ['"']
    else if !codes && single == 0 && !lines then ['\''] ++ cs ++ ['\'']
    else if !codes && !cs.contains '\\' && double ≤ 2 then
      ['"', '"', '"'] ++ firstLine ++ escapedAll true 2 0 cs ++ ['"', '"', '"']
    else if !codes && single ≤ 2 then
      ['\'', '\'', '\''] ++ firstLine ++ cs ++ ['\'', '\'', '\'']
    else if lines then ['"', '"', '"'] ++ firstLine ++ escapedAll true 2 0 cs ++ ['"', '"', '"']
    else ['"'] ++ escapedAll false 0 0 cs ++ ['"']
  String.ofList body

/-- The printed form of a plain value. Integers beyond 64 bits with sign have none. -/
def scalarText? : Datum → Option String
  | .bool b => some (if b then "true" else "false")
  | .int n => if -0x8000000000000000 ≤ n ∧ n < 0x8000000000000000 then some (toString n) else none
  | .real literal => some literal
  | .text s => some (quoted s)
  | _ => none

/-- One line for each plain value of a record. -/
def scalarLines? : List (String × Datum) → Option String
  | [] => some ""
  | (_, .null) :: fs => scalarLines? fs
  | (_, .record _) :: fs => scalarLines? fs
  | (name, d) :: fs => do return name ++ " = " ++ (← scalarText? d) ++ "\n" ++ (← scalarLines? fs)

/-- A table for each record in a record. Tables hold plain values only. -/
def tables? : List (String × Datum) → Option String
  | [] => some ""
  | (name, .record inner) :: fs => do
    return "\n[" ++ name ++ "]\n" ++ (← scalarLines? inner) ++ (← tables? fs)
  | _ :: fs => tables? fs

/-- The document of a record of plain values and of records of plain values, whose names need no
quotes. -/
def document? : Datum → Option String
  | .record fields => do return (← scalarLines? fields) ++ (← tables? fields)
  | _ => none

end SeriesStore.Toml
