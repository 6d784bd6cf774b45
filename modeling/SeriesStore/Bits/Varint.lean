import SeriesStore.Bits.Basic

/-!
# Numbers of variable length

A natural number is written in groups of seven bits, the lowest group first, each in one byte
whose highest bit says that another group follows. A signed number is first folded onto the
natural numbers: 0, -1, 1, -2, 2, …
-/

namespace SeriesStore.Varint

/-- The groups of a natural number. -/
def encode (v : Nat) : Bits :=
  if v < 128 then Bits.ofNat 8 v
  else Bits.ofNat 8 (v % 128 + 128) ++ encode (v / 128)
termination_by v

/-- The place of an integer in the order 0, -1, 1, -2, 2, … -/
def fold (i : Int) : Nat :=
  if 0 ≤ i then 2 * i.toNat else 2 * (-i).toNat - 1

/-- The integer at a place in the order 0, -1, 1, -2, 2, … -/
def unfold (n : Nat) : Int :=
  if n % 2 = 0 then (n / 2 : Nat) else -((n + 1) / 2 : Nat)

theorem unfold_fold (i : Int) : unfold (fold i) = i := by
  unfold unfold fold
  split <;> split <;> omega

/-- The groups of a signed number. -/
def encodeSigned (i : Int) : Bits := encode (fold i)

end SeriesStore.Varint
