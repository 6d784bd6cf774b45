/-!
# Decimal numbers

Natural numbers written in ASCII digits.
-/

namespace SeriesStore.Text

/-- The number that decimal digits denote. -/
def digitsValue (ds : List Char) : Nat :=
  ds.foldl (fun n c => 10 * n + (c.toNat - '0'.toNat)) 0

/-- The number written in decimal digits, if there are any and it is below a bound. A plus sign
may precede the digits. -/
def decimal? (bound : Nat) (cs : List Char) : Option Nat :=
  let digits := match cs with
    | '+' :: r => r
    | r => r
  if digits.isEmpty || !digits.all Char.isDigit then none
  else if digitsValue digits < bound then some (digitsValue digits)
  else none

/-- A number with zeros in front, so that it has at least `width` digits. -/
def padded (width n : Nat) : String :=
  let digits := toString n
  String.ofList (List.replicate (width - digits.length) '0') ++ digits

/-- A text with spaces behind it, so that it has at least `width` characters. -/
def column (width : Nat) (s : String) : String :=
  s ++ String.ofList (List.replicate (width - s.length) ' ')

end SeriesStore.Text
