/-!
# Shortest decimals

A 64-bit floating-point number is written with the fewest digits that read back as the same
number, and of the decimals with so few digits the nearest one. No exponent is ever written.
-/

namespace SeriesStore.Text

/-! ### The value and its surroundings -/

/-- A magnitude `mantissa * 2 ^ (power - 1074)`, as the bits of a finite number say it. -/
structure Magnitude where
  mantissa : Nat
  power : Nat

namespace Magnitude

/-- The magnitude that is given by the fraction bits and the exponent bits of a number. -/
def ofFields (fraction exponent : Nat) : Magnitude :=
  if exponent = 0 then ⟨fraction, 0⟩ else ⟨0x10000000000000 + fraction, exponent - 1⟩

/-- The value in quarters of the unit of the smallest number. -/
def quarters (m : Magnitude) : Nat := (4 * m.mantissa) <<< m.power

/-- Distance to the middle of the gap above. -/
def gapAbove (m : Magnitude) : Nat := 2 <<< m.power

/-- Distance to the middle of the gap below, which is half as wide where the exponent changes. -/
def gapBelow (m : Magnitude) : Nat :=
  if m.mantissa = 0x10000000000000 ∧ m.power ≠ 0 then 1 <<< m.power else 2 <<< m.power

/-- Whether a fraction, in quarters of the unit, reads back as this magnitude. The middle of a gap
goes to the neighbour with the even mantissa. -/
def readsBack (m : Magnitude) (num den : Nat) : Bool :=
  let low := (m.quarters - m.gapBelow) * den
  let high := (m.quarters + m.gapAbove) * den
  if m.mantissa % 2 = 0 then decide (low ≤ num) && decide (num ≤ high)
  else decide (low < num) && decide (num < high)

end Magnitude

/-! ### Decimal grids -/

/-- A decimal `digits * 10 ^ (scale - 400)`. -/
structure Decimal where
  digits : Nat
  scale : Nat

namespace Decimal

/-- The exponent by which the scale of a decimal is shifted, so that it is a natural number. -/
def shift : Nat := 400

/-- The value of `n * 10 ^ (scale - 400)` as a fraction in quarters of the smallest unit. -/
def fraction (n scale : Nat) : Nat × Nat :=
  if shift ≤ scale then (n * Nat.pow 10 (scale - shift) * 4 <<< 1074, 1)
  else (n * 4 <<< 1074, Nat.pow 10 (shift - scale))

/-- The neighbours of a magnitude on a decimal grid, below and above. -/
def neighbours (m : Magnitude) (scale : Nat) : Nat × Nat :=
  let n :=
    if shift ≤ scale then m.quarters / (4 <<< 1074 * Nat.pow 10 (scale - shift))
    else m.quarters * Nat.pow 10 (shift - scale) / 4 <<< 1074
  (n, n + 1)

/-- Whether the grid point `n` reads back. -/
def hits (m : Magnitude) (n scale : Nat) : Bool :=
  let f := fraction n scale
  m.readsBack f.1 f.2

/-- The point of a grid that is written for a magnitude: of two neighbours that read back the
nearer one, and the upper one if they are equally near. -/
def onGrid? (m : Magnitude) (scale : Nat) : Option Nat :=
  let (low, high) := neighbours m scale
  match hits m low scale, hits m high scale with
  | false, false => none
  | true, false => some low
  | false, true => some high
  | true, true =>
    let middle := fraction (2 * low + 1) scale
    if 2 * m.quarters * middle.2 < middle.1 then some low else some high

/-- The decimal on the coarsest grid that has one, looking at the grids below `scale`. -/
def coarsest (m : Magnitude) : Nat → Decimal
  | 0 => ⟨0, 0⟩
  | scale + 1 =>
    match onGrid? m scale with
    | some n => if n = 0 then coarsest m scale else ⟨n, scale⟩
    | none => coarsest m scale

/-- The shortest decimal of a magnitude that is not zero. -/
def shortest (m : Magnitude) : Decimal := coarsest m (shift + 310)

/-- The decimal without an exponent. -/
def toText (d : Decimal) : String :=
  let ds := (toString d.digits).toList
  if shift ≤ d.scale then String.ofList (ds ++ List.replicate (d.scale - shift) '0')
  else
    let places := shift - d.scale
    let ds := List.replicate (places + 1 - ds.length) '0' ++ ds
    String.ofList (ds.take (ds.length - places) ++ '.' :: ds.drop (ds.length - places))

end Decimal

/-! ### Written form -/

/-- The text of the floating-point number with the given bits. -/
def ofFloatBits (bits : UInt64) : String :=
  let n := bits.toNat
  let sign := if n < 0x8000000000000000 then "" else "-"
  let exponent := n >>> 52 % 0x800
  let fraction := n % 0x10000000000000
  if exponent = 0x7FF then
    if fraction = 0 then sign ++ "inf" else "NaN"
  else if exponent = 0 ∧ fraction = 0 then sign ++ "0"
  else sign ++ (Decimal.shortest (Magnitude.ofFields fraction exponent)).toText

end SeriesStore.Text
