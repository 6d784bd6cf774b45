import Mathlib
import SeriesStore.Time.Resolution

/-!
# Durations in units

A duration is brought into a unit exactly, but for a part that is no whole unit and for what exceeds
the largest timestamp. On the way, numbers that do not fit into a word are cut down to the largest
word. Where a unit is a millisecond or less this cannot be seen, because the largest word exceeds
the largest timestamp anyway. But hours are counted in milliseconds first, and a word full of
milliseconds comes to fewer seconds than a timestamp can hold. All longer times come out as that
number of seconds.
-/

namespace SeriesStore.Resolution

variable {r : Resolution} {h h' : UInt64} {n n' : ℕ}

/-! ### Exact lengths -/

/-- Units in a second. -/
def perSecond : Resolution → ℕ
  | seconds => 1
  | milliseconds => 1000
  | microseconds => 1000000
  | nanoseconds => 1000000000

/-- The whole units in an exact number of seconds, as far as a timestamp reaches. -/
def wholeUnits (r : Resolution) (s : ℚ) : ℤ := min ⌊s * r.perSecond⌋ 0x7FFFFFFFFFFFFFFF

lemma wholeUnits_mono (r : Resolution) : Monotone r.wholeUnits := by
  intro s s' hle
  have hunits : s * r.perSecond ≤ s' * r.perSecond :=
    mul_le_mul_of_nonneg_right hle (Nat.cast_nonneg _)
  exact min_le_min_right _ (Int.floor_mono hunits)

lemma units_eq (r : Resolution) (n : ℕ) : r.units n = n * r.perSecond / 1000 := by
  cases r <;> simp only [units, perSecond] <;> omega

/-- The units that are computed are the whole ones of the exact length. -/
lemma floor_length_eq (r : Resolution) (n : ℕ) : ⌊(n / 1000 * r.perSecond : ℚ)⌋ = r.units n := calc
  ⌊(n / 1000 * r.perSecond : ℚ)⌋ = ⌊((n * r.perSecond : ℕ) : ℚ) / (1000 : ℕ)⌋ := by
    push_cast
    rw [div_mul_eq_mul_div]
  _ = ((n * r.perSecond / 1000 : ℕ) : ℤ) := Rat.floor_natCast_div_natCast _ _
  _ = r.units n := by rw [units_eq]

/-! ### Milliseconds -/

/-- The length of a number of milliseconds that need not fit into a word. -/
def ofExactMillis (r : Resolution) (n : ℕ) : Int64 := clampInt64 (r.units n)

lemma ofMillis_eq (r : Resolution) (ms : UInt64) : r.ofMillis ms = r.ofExactMillis ms.toNat := rfl

lemma toInt_ofExactMillis (r : Resolution) (n : ℕ) :
    (r.ofExactMillis n).toInt = r.wholeUnits (n / 1000) := by
  rw [ofExactMillis, toInt_clampInt64, wholeUnits, floor_length_eq]
  omega

lemma ofExactMillis_mono (r : Resolution) (hle : n ≤ n') :
    r.ofExactMillis n ≤ r.ofExactMillis n' := by
  have hseconds : (n / 1000 : ℚ) ≤ n' / 1000 := by gcongr
  rw [Int64.le_iff_toInt_le, toInt_ofExactMillis, toInt_ofExactMillis]
  exact r.wholeUnits_mono hseconds

/-- A millisecond is a unit at least, but in seconds. -/
lemma le_units (hr : r ≠ seconds) (n : ℕ) : n ≤ r.units n := by
  cases r with
  | seconds => exact absurd rfl hr
  | milliseconds => exact le_rfl
  | microseconds | nanoseconds => exact Nat.le_mul_of_pos_right n (by decide)

lemma ofExactMillis_of_large (hr : r ≠ seconds) (hn : 0x7FFFFFFFFFFFFFFF ≤ n) :
    r.ofExactMillis n = Int64.maxValue := by
  have hunits := hn.trans (le_units hr n)
  rw [← Int64.toInt_inj, ofExactMillis, toInt_clampInt64, Int64.toInt_maxValue]
  omega

/-- The units in a word of milliseconds as a word; what does not fit becomes the largest word. -/
def wordUnits (r : Resolution) (ms : UInt64) : UInt64 :=
  match r with
  | seconds => ms / 1000
  | milliseconds => ms
  | microseconds => clampUInt64 (ms.toNat * 1000)
  | nanoseconds => clampUInt64 (ms.toNat * 1000000)

lemma toNat_wordUnits (r : Resolution) (ms : UInt64) :
    (r.wordUnits ms).toNat = min (r.units ms.toNat) 0xFFFFFFFFFFFFFFFF := by
  have hword := ms.toNat_lt
  cases r with
  | seconds =>
    have hdiv : (ms / 1000).toNat = ms.toNat / 1000 := UInt64.toNat_div ms 1000
    rw [wordUnits, units, hdiv, min_eq_left (by omega)]
  | milliseconds => rw [wordUnits, units, min_eq_left (by omega)]
  | microseconds | nanoseconds => exact toNat_clampUInt64 _

/-- Counting in words makes no difference. -/
lemma ofMillis_eq_clampInt64 (r : Resolution) (ms : UInt64) :
    r.ofMillis ms = clampInt64 (r.wordUnits ms).toNat := by
  rw [ofMillis, toNat_wordUnits, ← Int64.toInt_inj, toInt_clampInt64, toInt_clampInt64]
  omega

/-! ### Hours -/

lemma ofHours_eq (r : Resolution) (h : UInt64) :
    r.ofHours h = r.ofExactMillis (min (h.toNat * 3600000) 0xFFFFFFFFFFFFFFFF) := by
  rw [ofHours, ofMillis_eq, toNat_clampUInt64]

lemma ofHours_of_lt (hfit : h.toNat * 3600000 < 2 ^ 64) :
    r.ofHours h = r.ofExactMillis (h.toNat * 3600000) := by
  rw [ofHours_eq, min_eq_left (by omega)]

lemma ofHours_of_le (hexceeds : 2 ^ 64 ≤ h.toNat * 3600000) :
    r.ofHours h = r.ofExactMillis 0xFFFFFFFFFFFFFFFF := by
  rw [ofHours_eq, min_eq_right (by omega)]

lemma ofHours_mono (r : Resolution) (hle : h ≤ h') : r.ofHours h ≤ r.ofHours h' := by
  have hmillis : h.toNat * 3600000 ≤ h'.toNat * 3600000 :=
    Nat.mul_le_mul_right _ (UInt64.le_iff_toNat_le.mp hle)
  rw [ofHours_eq, ofHours_eq]
  exact r.ofExactMillis_mono (min_le_min_right _ hmillis)

/-- In seconds the largest word of milliseconds is shorter than what is cut down to it. -/
lemma ofExactMillis_lt_of_le (hexceeds : 2 ^ 64 ≤ h.toNat * 3600000) :
    seconds.ofExactMillis 0xFFFFFFFFFFFFFFFF < seconds.ofExactMillis (h.toNat * 3600000) := by
  rw [Int64.lt_iff_toInt_lt, ofExactMillis, ofExactMillis, toInt_clampInt64, toInt_clampInt64]
  -- a few milliseconds more than a word could be lost in rounding, but these are full hours
  simp only [units]
  omega

/-- That the milliseconds are cut down to a word can be seen in seconds only. -/
lemma ofHours_eq_ofExactMillis_iff (r : Resolution) (h : UInt64) :
    r.ofHours h = r.ofExactMillis (h.toNat * 3600000)
      ↔ r ≠ seconds ∨ h.toNat * 3600000 < 2 ^ 64 := by
  rcases Nat.lt_or_ge (h.toNat * 3600000) (2 ^ 64) with hfit | hexceeds
  · exact iff_of_true (ofHours_of_lt hfit) (.inr hfit)
  rw [ofHours_of_le hexceeds]
  by_cases hr : r = seconds
  · subst hr
    refine iff_of_false (fun heq => ?_) (not_or.mpr ⟨not_not.mpr rfl, hexceeds.not_gt⟩)
    exact Int64.ne_of_lt (ofExactMillis_lt_of_le hexceeds) heq
  · -- both lengths are cut off at the largest timestamp
    refine iff_of_true ?_ (.inl hr)
    rw [ofExactMillis_of_large hr (by decide), ofExactMillis_of_large hr (by omega)]

/-- The exact length of some hours is that of their milliseconds. -/
lemma toInt_ofHours_eq_iff (r : Resolution) (h : UInt64) :
    (r.ofHours h).toInt = r.wholeUnits (h.toNat * 3600)
      ↔ r.ofHours h = r.ofExactMillis (h.toNat * 3600000) := by
  have hseconds : (h.toNat * 3600 : ℚ) = ((h.toNat * 3600000 : ℕ) : ℚ) / 1000 := by
    push_cast
    ring
  rw [hseconds, ← toInt_ofExactMillis, Int64.toInt_inj]

/-- A number of milliseconds, although it is counted in words, comes out as its exact length,
rounded down and cut off at the largest timestamp. In all units but seconds so does a number of
hours, in agreement with its exact number of milliseconds; in seconds it does so just if these fit
into a word, and all longer times have the length of the largest word. A longer time never comes out
shorter. -/
theorem conversions_exact (r : Resolution) (ms h : UInt64) :
    r.ofMillis ms = clampInt64 (r.wordUnits ms).toNat
    ∧ (r.ofMillis ms).toInt = r.wholeUnits (ms.toNat / 1000)
    ∧ ((r.ofHours h).toInt = r.wholeUnits (h.toNat * 3600)
      ↔ r ≠ seconds ∨ h.toNat * 3600000 < 2 ^ 64)
    ∧ (r.ofHours h = r.ofExactMillis (h.toNat * 3600000)
      ↔ r ≠ seconds ∨ h.toNat * 3600000 < 2 ^ 64)
    ∧ (r = seconds → 2 ^ 64 ≤ h.toNat * 3600000 → r.ofHours h = 18446744073709551)
    ∧ (∀ ms', ms ≤ ms' → r.ofMillis ms ≤ r.ofMillis ms')
    ∧ ∀ h', h ≤ h' → r.ofHours h ≤ r.ofHours h' := by
  refine ⟨r.ofMillis_eq_clampInt64 ms, ?_, ?_, r.ofHours_eq_ofExactMillis_iff h,
    fun hr hexceeds => ?_, fun ms' hle => ?_, fun h' => r.ofHours_mono⟩
  · rw [ofMillis_eq, toInt_ofExactMillis]
  · rw [toInt_ofHours_eq_iff, ofHours_eq_ofExactMillis_iff]
  · rw [hr, ofHours_of_le hexceeds]
    decide +kernel
  · exact r.ofExactMillis_mono (UInt64.le_iff_toNat_le.mp hle)

/-- The last number of hours that is exact in seconds and the first one that is not, and the last
number of milliseconds that is no more than the largest timestamp in nanoseconds and the next. -/
theorem conversions_exact_edges :
    (seconds.ofHours 5124095576030).toInt
      = seconds.wholeUnits ((5124095576030 : UInt64).toNat * 3600)
    ∧ 2 ^ 64 ≤ (5124095576031 : UInt64).toNat * 3600000
    ∧ seconds.ofHours 5124095576031 = 18446744073709551
    ∧ (5124095576030 : UInt64) ≤ 5124095576031
    ∧ seconds.ofHours 5124095576030 ≤ seconds.ofHours 5124095576031
    ∧ (9223372036854 : UInt64) ≤ 9223372036855
    ∧ nanoseconds.ofMillis 9223372036854 ≤ nanoseconds.ofMillis 9223372036855 := by
  obtain ⟨-, -, hexact, -, -, -, hhours⟩ := conversions_exact seconds 0 5124095576030
  obtain ⟨-, -, -, -, hlong, -⟩ := conversions_exact seconds 0 5124095576031
  obtain ⟨-, -, -, -, -, hmillis, -⟩ := conversions_exact nanoseconds 9223372036854 0
  exact ⟨hexact.mpr (.inr (by decide)), by decide, hlong rfl (by decide), by decide,
    hhours _ (by decide), by decide, hmillis _ (by decide)⟩

/-- The first number of hours that is not exact in seconds falls short by more than half an hour. -/
theorem ofHours_falls_short :
    (seconds.ofHours 5124095576031).toInt = 18446744073709551
    ∧ seconds.wholeUnits ((5124095576031 : UInt64).toNat * 3600) = 18446744073711600
    ∧ (seconds.ofHours 5124095576031).toInt
      ≠ seconds.wholeUnits ((5124095576031 : UInt64).toNat * 3600)
    ∧ seconds.ofHours 5124095576031
      ≠ seconds.ofExactMillis ((5124095576031 : UInt64).toNat * 3600000) := by
  have hcut : (seconds.ofHours 5124095576031).toInt = 18446744073709551 := by decide +kernel
  have hexact : seconds.wholeUnits ((5124095576031 : UInt64).toNat * 3600) = 18446744073711600 := by
    have hhours : (5124095576031 : UInt64).toNat = 5124095576031 := rfl
    rw [wholeUnits, perSecond, hhours]
    norm_num
  have hne : (seconds.ofHours 5124095576031).toInt
      ≠ seconds.wholeUnits ((5124095576031 : UInt64).toNat * 3600) := by
    rw [hcut, hexact]
    decide
  exact ⟨hcut, hexact, hne, mt (toInt_ofHours_eq_iff _ _).mpr hne⟩

end SeriesStore.Resolution
