import SeriesStore.Text.Decimal
import SeriesStore.Time.Calendar

/-!
# Instants

A point of time in universal time, with nanoseconds. It is written as a date and a time with the
letters T and Z.
-/

namespace SeriesStore

/-- A point of universal time. A second numbered 60 is a leap second. -/
structure Instant where
  date : Calendar.Date
  hour : Nat
  minute : Nat
  second : Nat
  nano : Nat
  date_valid : date.isValid = true
  time_valid : hour < 24 ∧ minute < 60 ∧ second < 61 ∧ nano < 1000000000
  deriving DecidableEq

namespace Instant

/-- The instant with the given fields, if there is one. -/
def of? (date : Calendar.Date) (hour minute second nano : Nat) : Option Instant :=
  if h : date.isValid = true then
    if t : hour < 24 ∧ minute < 60 ∧ second < 61 ∧ nano < 1000000000 then
      some ⟨date, hour, minute, second, nano, h, t⟩
    else none
  else none

/-- The instant some seconds and nanoseconds after the start of 1970. -/
def ofUnix? (seconds : Int) (nano : Nat) : Option Instant :=
  let ofDay := (seconds % 86400).toNat
  of? (.ofDays (seconds / 86400)) (ofDay / 3600) (ofDay / 60 % 60) (ofDay % 60) nano

/-! ### Printing -/

/-- A year in four digits; a year that needs more or is negative has a sign. -/
def yearText (year : Int) : String :=
  if 0 ≤ year ∧ year ≤ 9999 then Text.padded 4 year.toNat
  else (if year < 0 then "-" else "+") ++ Text.padded 4 year.natAbs

/-- Date and time up to the second. -/
def secondsText (i : Instant) : String :=
  yearText i.date.year ++ "-" ++ Text.padded 2 i.date.month ++ "-" ++ Text.padded 2 i.date.day
    ++ "T" ++ Text.padded 2 i.hour ++ ":" ++ Text.padded 2 i.minute ++ ":"
    ++ Text.padded 2 i.second

/-- The part of a second in three, six or nine digits, or nothing. -/
def fractionText (nano : Nat) : String :=
  if nano = 0 then ""
  else if nano % 1000000 = 0 then "." ++ Text.padded 3 (nano / 1000000)
  else if nano % 1000 = 0 then "." ++ Text.padded 6 (nano / 1000)
  else "." ++ Text.padded 9 nano

/-- The written form. -/
def toText (i : Instant) : String := i.secondsText ++ fractionText i.nano ++ "Z"

/-- The written form without parts of a second. -/
def briefText (i : Instant) : String := i.secondsText ++ "Z"

end Instant

end SeriesStore
