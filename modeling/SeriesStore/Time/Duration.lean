import SeriesStore.Text.Blank
import SeriesStore.Text.Decimal

/-!
# Durations

A duration is a number of milliseconds. It is written as a number and a unit, and printed in the
largest unit that divides it.
-/

namespace SeriesStore

/-- The units in which a duration can be written. -/
inductive TimeUnit
  | milliseconds | seconds | minutes | hours | days
  deriving DecidableEq

namespace TimeUnit

/-- Length of one unit in milliseconds. -/
def millis : TimeUnit → Nat
  | milliseconds => 1
  | seconds => 1000
  | minutes => 60 * 1000
  | hours => 60 * 60 * 1000
  | days => 24 * 60 * 60 * 1000

/-- The written form of a unit. -/
def symbol : TimeUnit → String
  | milliseconds => "ms"
  | seconds => "s"
  | minutes => "m"
  | hours => "h"
  | days => "d"

/-- The unit with a given written form. -/
def ofSymbol? : List Char → Option TimeUnit
  | ['m', 's'] => some milliseconds
  | ['s'] => some seconds
  | ['m'] => some minutes
  | ['h'] => some hours
  | ['d'] => some days
  | _ => none

end TimeUnit

/-- A span of time with millisecond precision. -/
structure Duration where
  millis : UInt64
  deriving DecidableEq

namespace Duration

/-- `n` units of time, if they fit into the range of durations. -/
def of? (n : Nat) (u : TimeUnit) : Option Duration :=
  if n * u.millis < 0x10000000000000000 then some ⟨UInt64.ofNat (n * u.millis)⟩ else none

/-- `n` units of time, modulo the range of durations. -/
def ofUnits (n : Nat) (u : TimeUnit) : Duration := ⟨UInt64.ofNat (n * u.millis)⟩

/-- A number of minutes. -/
def ofMinutes (n : Nat) : Duration := ofUnits n .minutes

/-- A number of hours. -/
def ofHours (n : Nat) : Duration := ofUnits n .hours

/-- Whole hours in the duration. -/
def hours (d : Duration) : Nat := d.millis.toNat / TimeUnit.hours.millis

/-! ### Written form -/

/-- The largest unit that divides a duration; nothing at all is counted in milliseconds. -/
def displayUnit (d : Duration) : TimeUnit :=
  let divides (u : TimeUnit) : Bool := d.millis != 0 && d.millis.toNat % u.millis == 0
  if divides .days then .days
  else if divides .hours then .hours
  else if divides .minutes then .minutes
  else if divides .seconds then .seconds
  else .milliseconds

/-- The duration as a number of its largest exact unit. -/
def toText (d : Duration) : String :=
  toString (d.millis.toNat / d.displayUnit.millis) ++ d.displayUnit.symbol

/-- Reads a number, then blanks, then a unit, with blanks around it all ignored. The number has
at least one digit, and the whole must fit into 64 bits. -/
def ofText? (s : String) : Option Duration :=
  let text := Text.trim s.toList
  let digits := text.takeWhile Char.isDigit
  let rest := (text.dropWhile Char.isDigit).dropWhile Text.isBlank
  if digits.isEmpty then none
  else (TimeUnit.ofSymbol? rest).bind (of? (Text.digitsValue digits))

end Duration

end SeriesStore
