import SeriesStore.Datum
import SeriesStore.Text.Decimal
import SeriesStore.Text.Hex

/-!
# Numbers and dates in TOML

Integers must fit into 64 bits with sign. Of the other numbers only the written form is kept,
and of a date only that it is one.
-/

namespace SeriesStore.Toml

/-- Digits with single underscores between them, read onto those in front, and the rest. -/
def digitRun (isDigit : Char → Bool) : List Char → List Char → List Char × List Char
  | c :: r, seen =>
    if isDigit c then digitRun isDigit r (c :: seen)
    else
      match c, r with
      | '_', d :: r =>
        if !seen.isEmpty && isDigit d then digitRun isDigit r (d :: seen)
        else (seen.reverse, c :: d :: r)
      | _, _ => (seen.reverse, c :: r)
  | [], seen => (seen.reverse, [])

/-- Decimal digits without a zero in front, unless the zero is alone. -/
def wholePart? (cs : List Char) : Option (List Char × List Char) :=
  match cs with
  | '0' :: r => some (['0'], r)
  | _ =>
    let (ds, r) := digitRun Char.isDigit cs []
    if ds.isEmpty then none else some (ds, r)

/-- The sign in front of a number. -/
def sign (cs : List Char) : Bool × List Char :=
  match cs with
  | '-' :: r => (true, r)
  | '+' :: r => (false, r)
  | _ => (false, cs)

/-- An integer in the range of 64 bits with sign. -/
def inRange? (n : Int) : Option Datum :=
  if -0x8000000000000000 ≤ n ∧ n < 0x8000000000000000 then some (.int n) else none

/-- An integer with the given base, two to sixteen, behind its two-letter mark. -/
def based? (base : Nat) (cs : List Char) : Option (Datum × List Char) := do
  let isDigit (c : Char) := (Text.hexValue? c).any (· < base)
  let (ds, r) := digitRun isDigit cs []
  if ds.isEmpty then none
  let n := ds.foldl (fun n c => base * n + (Text.hexValue? c).getD 0) 0
  return (← inRange? n, r)

/-- A decimal integer, or one with another base. -/
def integer? (cs : List Char) : Option (Datum × List Char) := do
  match cs with
  | '0' :: 'x' :: r => based? 16 r
  | '0' :: 'o' :: r => based? 8 r
  | '0' :: 'b' :: r => based? 2 r
  | _ =>
    let (negative, r) := sign cs
    let (ds, r) ← wholePart? r
    let n : Int := Text.digitsValue ds
    return (← inRange? (if negative then -n else n), r)

/-- Whether `n * 10 ^ e` lies beyond the largest 64-bit floating-point number, halfway to the
next power of two included. -/
def overflows (n : Nat) (e : Int) : Bool :=
  let size : Int := (Nat.toDigits 10 n).length + e
  if n == 0 || size < 300 then false
  else if 320 < size then true
  else
    let limit := 1 <<< 1024 - 1 <<< 970
    if 0 ≤ e then decide (limit ≤ n * Nat.pow 10 e.toNat)
    else decide (limit * Nat.pow 10 (-e).toNat ≤ n)

/-- A number with fraction or exponent, or one of the words for infinity and for no number. A
number too large to be finite is refused, but one too far below zero stands for negative
infinity. -/
def real? (cs : List Char) : Option (Datum × List Char) := do
  let (negative, r) := sign cs
  match r with
  | 'i' :: 'n' :: 'f' :: r => return (.real (if negative then "-inf" else "inf"), r)
  | 'n' :: 'a' :: 'n' :: r => return (.real "nan", r)
  | _ =>
    let (whole, r) ← wholePart? r
    let (fraction, r) ← match r with
      | '.' :: r =>
        let (ds, r) := digitRun Char.isDigit r []
        if ds.isEmpty then none else some (ds, r)
      | _ => some ([], r)
    let (exponent, r) ← match r with
      | e :: r' =>
        if e == 'e' || e == 'E' then
          let (down, r) := sign r'
          let (ds, r) := digitRun Char.isDigit r []
          let n : Int := Text.digitsValue ds
          if ds.isEmpty then none else some (some (if down then -n else n), r)
        else some (none, r)
      | [] => some (none, r)
    if fraction.isEmpty && exponent.isNone then none
    let digits := Text.digitsValue (whole ++ fraction)
    if !negative && overflows digits (exponent.getD 0 - fraction.length) then none
    return (.real (String.ofList (cs.take (cs.length - r.length))), r)

/-! ### Dates and times of day -/

/-- A number of exactly `n` digits within bounds. -/
def fixed? (n lo hi : Nat) (cs : List Char) : Option (Nat × List Char) :=
  let ds := cs.take n
  let v := Text.digitsValue ds
  if ds.length == n && ds.all Char.isDigit && decide (lo ≤ v) && decide (v ≤ hi) then
    some (v, cs.drop n)
  else none

/-- The rest behind a character. -/
def after? (c : Char) : List Char → Option (List Char)
  | d :: r => if d == c then some r else none
  | [] => none

/-- Number of days in a month. -/
def daysIn (year month : Nat) : Nat :=
  if month == 2 then
    if year % 4 == 0 && (year % 100 != 0 || year % 400 == 0) then 29 else 28
  else if month == 4 || month == 6 || month == 9 || month == 11 then 30
  else 31

/-- The rest behind a date. -/
def date? (cs : List Char) : Option (List Char) := do
  let (year, r) ← fixed? 4 0 9999 cs
  let (month, r) ← fixed? 2 1 12 (← after? '-' r)
  let (_, r) ← fixed? 2 1 (daysIn year month) (← after? '-' r)
  return r

/-- The rest behind a time of day. -/
def time? (cs : List Char) : Option (List Char) := do
  let (_, r) ← fixed? 2 0 23 cs
  let (_, r) ← fixed? 2 0 59 (← after? ':' r)
  let (_, r) ← fixed? 2 0 60 (← after? ':' r)
  match r with
  | '.' :: c :: r' => return if c.isDigit then r'.dropWhile Char.isDigit else r
  | _ => return r

/-- The rest behind the distance from universal time, if one follows. -/
def offset? (cs : List Char) : Option (List Char) :=
  match cs with
  | c :: r =>
    if c == 'Z' || c == 'z' then some r
    else if c == '+' || c == '-' then do
      let (_, r) ← fixed? 2 0 23 r
      let (_, r) ← fixed? 2 0 59 (← after? ':' r)
      return r
    else some cs
  | [] => some []

/-- A date, a time of day or both, as a record of its written form. -/
def moment? (cs : List Char) : Option (Datum × List Char) := do
  let r ← match date? cs with
    | some r =>
      match r with
      | c :: r' =>
        if c == 'T' || c == 't' || c == ' ' then
          match time? r' with
          | some r => offset? r
          | none => some r
        else some r
      | [] => some []
    | none => time? cs
  return (.record [("datetime", .text (String.ofList (cs.take (cs.length - r.length))))], r)

end SeriesStore.Toml
