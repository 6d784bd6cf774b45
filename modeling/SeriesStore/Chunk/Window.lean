import SeriesStore.Chunk.Parser

/-!
# Changes of the value

A value is stored as the exclusive or with the value before it. The bits that differ usually lie
close together; a window says how many bits in front of them and behind them are equal. As long
as all differences fall into the window in use, only the bits inside it are stored.
-/

namespace SeriesStore

/-- A run of bits of a 64-bit word, given by the number of bits outside it on either side. -/
structure Window where
  leading : Nat
  trailing : Nat
  deriving DecidableEq

namespace Window

/-- The window that holds the whole word. -/
def whole : Window := ⟨0, 0⟩

/-- Number of bits inside the window. -/
def size (w : Window) : Nat := 64 - w.leading - w.trailing

/-- Number of zero bits in front of a 64-bit word. -/
def leadingZeros (x : UInt64) : Nat :=
  if x = 0 then 64 else 63 - x.toNat.log2

/-- Number of zero bits behind the `n` low bits of a word. -/
def trailingZerosWithin : Nat → UInt64 → Nat
  | 0, _ => 0
  | n + 1, x => if x &&& 1 = 1 then 0 else trailingZerosWithin n (x >>> 1) + 1

/-- Number of zero bits behind a 64-bit word. -/
def trailingZeros (x : UInt64) : Nat := trailingZerosWithin 64 x

/-- The smallest window that holds all set bits of a word and has a leading part of at most 31
bits, the most that its stored form can say. -/
def fitting (x : UInt64) : Window := ⟨min (leadingZeros x) 31, trailingZeros x⟩

/-- Whether all of `v` lies inside `w`. -/
def holds (w v : Window) : Bool :=
  decide (w.leading ≤ v.leading) && decide (w.trailing ≤ v.trailing)

/-- The bits of a word inside a window. -/
def inside (w : Window) (x : UInt64) : Bits := Bits.ofNat w.size (x.toNat >>> w.trailing)

/-- The stored form of the difference of two values, and the window in use afterwards. A window
of 64 bits has the size code 0. -/
def encode (current : Option Window) (x : UInt64) : Bits × Option Window :=
  if x = 0 then ([false], current)
  else
    let new := fitting x
    match current with
    | some w =>
      if w.holds new then ([true, false] ++ w.inside x, current)
      else ([true, true] ++ Bits.ofNat 5 new.leading ++ Bits.ofNat 6 new.size ++ new.inside x,
        some new)
    | none =>
      ([true, true] ++ Bits.ofNat 5 new.leading ++ Bits.ofNat 6 new.size ++ new.inside x, some new)

/-- Takes a new window. -/
def read : BitParser Window := do
  let leading ← BitParser.bits 5
  let code ← BitParser.bits 6
  let significant := if code = 0 then 64 else code
  if 64 < leading + significant then throw (.wideWindow leading significant)
  pure ⟨leading, 64 - (leading + significant)⟩

/-- Takes the difference of two values, and gives the window in use afterwards. Before the first
window is stored the whole word is in use. -/
def decode (current : Option Window) : BitParser (UInt64 × Option Window) := do
  if ← BitParser.bit then
    let w ← if ← BitParser.bit then read else pure (current.getD whole)
    if 64 < w.leading + w.trailing then throw .badWindow
    let code ← BitParser.bits w.size
    pure (UInt64.ofNat (code <<< w.trailing), some w)
  else pure (0, current)

end Window

end SeriesStore
