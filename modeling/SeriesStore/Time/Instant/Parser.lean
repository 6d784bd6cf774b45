import SeriesStore.Text.Blank
import SeriesStore.Time.Instant

/-!
# Reading instants

A date, a separator and a time with an offset from universal time. One-digit fields, blanks in
front of fields and separators, and digits beyond the ninth of a second are accepted.
-/

namespace SeriesStore

/-- The instant at a local date and time, where local time is ahead by some minutes. -/
def Instant.ofLocal? (date : Calendar.Date) (hour minute second nano : Nat) (ahead : Int) :
    Option Instant :=
  if date.isValid then
    let minutes : Int := 60 * hour + minute - ahead
    let ofDay := (minutes % 1440).toNat
    let date :=
      if minutes < 0 then date.before else if 1440 ≤ minutes then date.after else date
    if hour < 24 ∧ minute < 60 then Instant.of? date (ofDay / 60) (ofDay % 60) second nano else none
  else none

/-- A computation that takes a value from the front of a text. -/
abbrev InstantParser := StateT (List Char) Option

namespace InstantParser

/-- Drops blanks. -/
def blanks : InstantParser Unit := modify fun cs => cs.dropWhile Text.isBlank

/-- Takes a given character. -/
def literal (c : Char) : InstantParser Unit := fun cs =>
  match cs with
  | d :: r => if c = d then some ((), r) else none
  | [] => none

/-- Takes at least one digit and at most `most`. -/
def digits (most : Nat) : InstantParser (List Char) := fun cs =>
  let ds := (cs.take most).takeWhile Char.isDigit
  if ds.isEmpty then none else some (ds, cs.drop ds.length)

/-- Takes all digits, at least one. -/
def allDigits : InstantParser (List Char) := fun cs => digits cs.length cs

/-- Takes blanks and then a number of at most two digits. -/
def field : InstantParser Nat := do
  blanks
  return Text.digitsValue (← digits 2)

/-- Takes blanks and then a year: up to four digits, or any number of them behind a sign. -/
def year : InstantParser Int := do
  blanks
  match (← get).head? with
  | some '-' => do
    literal '-'
    return -(Text.digitsValue (← allDigits) : Int)
  | some '+' => do
    literal '+'
    return (Text.digitsValue (← allDigits) : Int)
  | _ => return (Text.digitsValue (← digits 4) : Int)

/-- Takes a separator with blanks in front of it. -/
def separator (c : Char) : InstantParser Unit := do
  blanks
  literal c

/-- Takes a date. -/
def date : InstantParser Calendar.Date := do
  let y ← year
  separator '-'
  let m ← field
  separator '-'
  return ⟨y, m, ← field⟩

/-- Takes a part of a second, in nanoseconds. Digits behind the ninth are dropped. -/
def fraction : InstantParser Nat := do
  match (← get).head? with
  | some '.' => do
    literal '.'
    let ds ← digits 9
    modify fun cs => cs.dropWhile Char.isDigit
    return Text.digitsValue (ds ++ List.replicate (9 - ds.length) '0')
  | _ => return 0

/-- Takes two digits. -/
def twoDigits : InstantParser Nat := do
  let ds ← digits 2
  if ds.length = 2 then return Text.digitsValue ds else failure

/-- Takes the offset from universal time in minutes. -/
def offset : InstantParser Int := do
  let cs ← get
  if Text.lowerAscii (String.ofList (cs.take 3)) = "utc" then
    set (cs.drop 3)
    return 0
  else
    let c :: r := cs | failure
    set r
    if c = 'Z' ∨ c = 'z' then return 0
    else
      let sign : Int ←
        if c = '+' then pure 1 else if c = '-' ∨ c = '\u2212' then pure (-1) else failure
      let hours ← twoDigits
      modify fun cs => cs.dropWhile fun c => c == ':' || Text.isBlank c
      let minutes ← twoDigits
      if minutes < 60 ∧ hours < 24 then return sign * (60 * hours + minutes) else failure

/-- Takes an instant. -/
def instant : InstantParser Instant := do
  let d ← date
  match (← get) with
  | 't' :: r | 'T' :: r | ' ' :: r => set r
  | _ => failure
  let hour ← field
  separator ':'
  let minute ← field
  separator ':'
  let second ← field
  let nano ← fraction
  blanks
  let ahead ← offset
  blanks
  unless (← get).isEmpty do failure
  Instant.ofLocal? d hour minute second nano ahead

end InstantParser

/-- The instant that a text denotes. -/
def Instant.ofText? (s : String) : Option Instant :=
  (InstantParser.instant.run s.toList).map (·.1)

end SeriesStore
