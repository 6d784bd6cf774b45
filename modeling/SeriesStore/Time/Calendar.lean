/-!
# The Gregorian calendar

Dates, with the lengths of months and years, and the days next to a date.
-/

namespace SeriesStore.Calendar

/-- The years that can be written. -/
def inRange (year : Int) : Bool := decide (-262143 ≤ year) && decide (year ≤ 262142)

/-- Whether a year has a 29th of February. -/
def isLeap (year : Int) : Bool :=
  year % 4 == 0 && (year % 100 != 0 || year % 400 == 0)

/-- Number of days in a month. -/
def daysIn (year : Int) (month : Nat) : Nat :=
  if month = 2 then (if isLeap year then 29 else 28)
  else if month = 4 ∨ month = 6 ∨ month = 9 ∨ month = 11 then 30
  else 31

/-- A day of a year. -/
structure Date where
  year : Int
  month : Nat
  day : Nat
  deriving DecidableEq

namespace Date

/-- Whether the calendar has the date. -/
def isValid (d : Date) : Bool :=
  inRange d.year && decide (1 ≤ d.month) && decide (d.month ≤ 12) && decide (1 ≤ d.day)
    && decide (d.day ≤ daysIn d.year d.month)

/-- The day before. -/
def before (d : Date) : Date :=
  if 1 < d.day then { d with day := d.day - 1 }
  else if 1 < d.month then ⟨d.year, d.month - 1, daysIn d.year (d.month - 1)⟩
  else ⟨d.year - 1, 12, 31⟩

/-- The day after. -/
def after (d : Date) : Date :=
  if d.day < daysIn d.year d.month then { d with day := d.day + 1 }
  else if d.month < 12 then ⟨d.year, d.month + 1, 1⟩
  else ⟨d.year + 1, 1, 1⟩

/-- The date some days after the start of 1970. Days are counted in spans of 400 years, and in years
that start in March, so that a leap day ends its year. -/
def ofDays (n : Int) : Date :=
  let day := n + 719468
  let span := day / 146097
  let ofSpan := (day % 146097).toNat
  let yearOfSpan := (ofSpan - ofSpan / 1460 + ofSpan / 36524 - ofSpan / 146096) / 365
  let ofYear := ofSpan - (365 * yearOfSpan + yearOfSpan / 4 - yearOfSpan / 100)
  let monthFromMarch := (5 * ofYear + 2) / 153
  let month := if monthFromMarch < 10 then monthFromMarch + 3 else monthFromMarch - 9
  let year := (yearOfSpan : Int) + 400 * span + if month ≤ 2 then 1 else 0
  ⟨year, month, ofYear - (153 * monthFromMarch + 2) / 5 + 1⟩

end Date

end SeriesStore.Calendar
