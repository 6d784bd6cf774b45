/-!
# Clamped 64-bit numbers

Window bounds and cutoffs are computed on exact integers and then brought back into the range of
a signed 64-bit timestamp; what lies beyond an end of that range becomes the end itself. Lengths
and sums of sizes are clamped in the same way to unsigned words.
-/

namespace SeriesStore

/-- The timestamp nearest to an integer. -/
def clampInt64 (x : Int) : Int64 :=
  if x < -0x8000000000000000 then Int64.minValue
  else if 0x8000000000000000 ≤ x then Int64.maxValue
  else Int64.ofInt x

/-- The unsigned word nearest to a natural number. -/
def clampUInt64 (n : Nat) : UInt64 :=
  if n < 0x10000000000000000 then UInt64.ofNat n else UInt64.ofNat 0xFFFFFFFFFFFFFFFF

theorem toInt_clampInt64 (x : Int) :
    (clampInt64 x).toInt = max (-0x8000000000000000) (min x 0x7FFFFFFFFFFFFFFF) := by
  unfold clampInt64
  split
  · simp only [Int64.toInt_minValue]; omega
  · split
    · simp only [Int64.toInt_maxValue]; omega
    · rw [Int64.toInt_ofInt_of_le (by omega) (by omega)]; omega

theorem toNat_clampUInt64 (n : Nat) : (clampUInt64 n).toNat = min n 0xFFFFFFFFFFFFFFFF := by
  unfold clampUInt64
  split
  · rw [UInt64.toNat_ofNat', Nat.mod_eq_of_lt (by omega)]; omega
  · rw [UInt64.toNat_ofNat', Nat.mod_eq_of_lt (by omega)]; omega

end SeriesStore
