import SeriesStore.Datum
import SeriesStore.Text.Decimal
import SeriesStore.Text.Hex

/-!
# Reading JSON

A recursive reader for one JSON value. Fields keep the order of the text, repeated names
included; a number without point and exponent is an integer of any size. Values may be nested as
deep as they like. A text in which half of a character stands alone is broken, but what stands
around it can still be read.
-/

namespace SeriesStore.Json

/-- The text without blanks at its start. -/
def skipBlanks (cs : List Char) : List Char :=
  cs.dropWhile fun c => c == ' ' || c == '\n' || c == '\t' || c == '\r'

/-- The number that the next four digits denote, and the rest. -/
def fourDigits? : List Char → Option (Nat × List Char)
  | a :: b :: c :: d :: r => (Text.ofHexDigits? [a, b, c, d]).map (·, r)
  | _ => none

/-- The character of an escape whose first backslash has been read, and the rest. Characters
beyond the first plane are written as two halves; there is no character for a half alone. -/
def escape? : List Char → Option (Option Char × List Char)
  | '"' :: r => some ('"', r)
  | '\\' :: r => some ('\\', r)
  | '/' :: r => some ('/', r)
  | 'b' :: r => some ('\x08', r)
  | 'f' :: r => some ('\x0c', r)
  | 'n' :: r => some ('\n', r)
  | 'r' :: r => some ('\r', r)
  | 't' :: r => some ('\t', r)
  | 'u' :: r => do
    let (n, r) ← fourDigits? r
    if n < 0xD800 || 0xDFFF < n then return (Char.ofNat n, r)
    if 0xDC00 ≤ n then return (none, r)
    match r with
    | '\\' :: 'u' :: second =>
      let (m, rest) ← fourDigits? second
      if 0xDC00 ≤ m && m ≤ 0xDFFF then
        return (Char.ofNat (0x10000 + (n - 0xD800) * 0x400 + (m - 0xDC00)), rest)
      else return (none, r)
    | _ => return (none, r)
  | _ => none

/-- Reads a text whose opening quote has been read onto the characters in front of it. The rest of
a broken text has to be well-formed too. -/
def text? : Nat → List Char → Option (List Char) → Option (Option String × List Char)
  | 0, _, _ => none
  | fuel + 1, cs, seen =>
    match cs with
    | '"' :: r => some (seen.map fun cs => String.ofList cs.reverse, r)
    | '\\' :: r => do
      let (c, r) ← escape? r
      text? fuel r (seen.bind fun cs => c.map (· :: cs))
    | c :: r => if c.toNat < 0x20 then none else text? fuel r (seen.map (c :: ·))
    | [] => none

/-- Splits off the longest run of digits. -/
def digits (cs : List Char) : List Char × List Char :=
  (cs.takeWhile Char.isDigit, cs.dropWhile Char.isDigit)

/-- The fraction of a number, if one follows. A point must be followed by a digit. -/
def fraction? (cs : List Char) : Option (List Char × List Char) :=
  match cs with
  | '.' :: r =>
    let (ds, r) := digits r
    if ds.isEmpty then none else some ('.' :: ds, r)
  | _ => some ([], cs)

/-- The exponent of a number, if one follows. -/
def exponent? (cs : List Char) : Option (List Char × List Char) :=
  match cs with
  | e :: r =>
    if e == 'e' || e == 'E' then
      let (sign, r) := match r with
        | '+' :: r => (['+'], r)
        | '-' :: r => (['-'], r)
        | _ => ([], r)
      let (ds, r) := digits r
      if ds.isEmpty then none else some (e :: sign ++ ds, r)
    else some ([], cs)
  | [] => some ([], [])

/-- A number. Its digits before the point start with a zero only if they are a single zero; a
zero with a minus sign is no integer. -/
def number? (cs : List Char) : Option (Datum × List Char) := do
  let (negative, r) := match cs with
    | '-' :: r => (true, r)
    | _ => (false, cs)
  let (whole, r) := digits r
  if whole.isEmpty || (whole.head? == some '0' && whole.length != 1) then none
  let (fraction, r) ← fraction? r
  let (exponent, r) ← exponent? r
  let n := Text.digitsValue whole
  if fraction.isEmpty && exponent.isEmpty && !(negative && n == 0) then
    return (.int (if negative then -(n : Int) else n), r)
  let sign := if negative then ['-'] else []
  return (.real (String.ofList (sign ++ whole ++ fraction ++ exponent)), r)

mutual

/-- A value and what follows it. -/
def value? : Nat → List Char → Option (Datum × List Char)
  | 0, _ => none
  | fuel + 1, cs =>
    match skipBlanks cs with
    | 'n' :: 'u' :: 'l' :: 'l' :: r => some (.null, r)
    | 't' :: 'r' :: 'u' :: 'e' :: r => some (.bool true, r)
    | 'f' :: 'a' :: 'l' :: 's' :: 'e' :: r => some (.bool false, r)
    | '"' :: r => (text? fuel r (some [])).map fun (s, r) => (s.elim .broken .text, r)
    | '[' :: r =>
      match skipBlanks r with
      | ']' :: r => some (.list [], r)
      | r => items? fuel r []
    | '\x7b' :: r =>
      match skipBlanks r with
      | '\x7d' :: r => some (.record [], r)
      | r => fields? fuel r (some [])
    | r => number? r

/-- The items of a list, read onto those in front of them, up to the closing bracket. -/
def items? : Nat → List Char → List Datum → Option (Datum × List Char)
  | 0, _, _ => none
  | fuel + 1, cs, seen => do
    let (d, r) ← value? fuel cs
    match skipBlanks r with
    | ',' :: r => items? fuel r (d :: seen)
    | ']' :: r => some (.list (d :: seen).reverse, r)
    | _ => none

/-- The fields of a record, read onto those in front of them, up to the closing brace. -/
def fields? : Nat → List Char → Option (List (String × Datum)) → Option (Datum × List Char)
  | 0, _, _ => none
  | fuel + 1, cs, seen =>
    match skipBlanks cs with
    | '"' :: r => do
      let (name, r) ← text? fuel r (some [])
      match skipBlanks r with
      | ':' :: r =>
        let (d, r) ← value? fuel r
        let seen := seen.bind fun fs => name.map fun name => (name, d) :: fs
        match skipBlanks r with
        | ',' :: r => fields? fuel r seen
        | '\x7d' :: r => some (seen.elim .broken fun fs => .record fs.reverse, r)
        | _ => none
      | _ => none
    | _ => none

end

/-- The value that a text holds, with nothing but blanks around it. A character takes at most two
steps of the reader. -/
def parse? (s : String) : Option Datum := do
  let cs := s.toList
  let (d, r) ← value? (2 * cs.length + 2) cs
  if (skipBlanks r).isEmpty then return d else none

end SeriesStore.Json
