import Mathlib

/-!
# Rounding

A floating-point number of the normal range is a whole number of 53 bits, scaled by a power of two.
What a conversion or a product gives is the exact result rounded to one of its two neighbours, and
the result itself if that is such a number. So rounding keeps the order of a result and any number
that need not be rounded.
-/

namespace SeriesStore.Rounding

open Float.Model Float.Model.UnpackedFloat

/-! ### Numbers of the normal range -/

/-- A floating-point number stands for a positive rational number, with all bits of its mantissa. -/
def StandsFor (x : Float) (v : ℚ) : Prop :=
  ∃ (m : ℕ) (e : ℤ) (pos : 0 < m), x.toModel.unpack = .finite .positive m e pos
    ∧ 2 ^ 52 ≤ m ∧ m < 2 ^ 53 ∧ v = m * 2 ^ e

lemma zpow_pos_two (e : ℤ) : (0 : ℚ) < 2 ^ e := zpow_pos two_pos e

/-- Of two numbers with full mantissas, the one with the smaller exponent is the smaller one. -/
lemma scaled_lt_of_lt {m m' : ℕ} {e e' : ℤ} (hm : m < 2 ^ 53) (hm' : 2 ^ 52 ≤ m') (he : e < e') :
    (m : ℚ) * 2 ^ e < m' * 2 ^ e' := by
  have hfirst : (m : ℚ) < 2 ^ 53 := by exact_mod_cast hm
  have hsecond : (2 ^ 52 : ℚ) ≤ m' := by exact_mod_cast hm'
  have hpow : (2 : ℚ) ^ (e + 1) ≤ 2 ^ e' := zpow_le_zpow_right₀ one_le_two (by omega)
  calc (m : ℚ) * 2 ^ e < 2 ^ 53 * 2 ^ e := mul_lt_mul_of_pos_right hfirst (zpow_pos_two e)
    _ = 2 ^ 52 * 2 ^ (e + 1) := by rw [zpow_add_one₀ two_ne_zero]; ring
    _ ≤ m' * 2 ^ e' := mul_le_mul hsecond hpow (zpow_pos_two _).le (by positivity)

/-- The size of a number, by the bits of its mantissa. -/
lemma scaled_log2 {m : ℕ} (hm : m ≠ 0) (e : ℤ) :
    (2 : ℚ) ^ (m.log2 + e) ≤ m * 2 ^ e ∧ (m : ℚ) * 2 ^ e < 2 ^ (m.log2 + e + 1) := by
  have hself : (2 : ℚ) ^ m.log2 ≤ m := by exact_mod_cast Nat.log2_self_le hm
  have hnext : (m : ℚ) < 2 ^ (m.log2 + 1) := by exact_mod_cast Nat.lt_log2_self
  constructor
  · rw [zpow_add₀ two_ne_zero, zpow_natCast]
    exact mul_le_mul_of_nonneg_right hself (zpow_pos_two e).le
  · rw [add_right_comm, zpow_add₀ two_ne_zero, ← Nat.cast_add_one, zpow_natCast]
    exact mul_lt_mul_of_pos_right hnext (zpow_pos_two e)

/-- Numbers are compared as what they stand for. -/
theorem StandsFor.lt_iff {x y : Float} {v w : ℚ} (hx : StandsFor x v) (hy : StandsFor y w) :
    x < y ↔ v < w := by
  obtain ⟨m, e, hpos, hx, hm, hm', rfl⟩ := hx
  obtain ⟨n, f, hpos', hy, hn, hn', rfl⟩ := hy
  have hlt : x < y ↔ (compare e f).then (compare m n) = .lt := by
    change decide (x.toModel < y.toModel) = true ↔ _
    rw [decide_eq_true_iff]
    change UnpackedFloat.lt x.toModel.unpack y.toModel.unpack = true ↔ _
    rw [hx, hy, UnpackedFloat.lt, beq_iff_eq]
    exact Option.some_inj
  rw [hlt, Ordering.then_eq_lt, compare_lt_iff_lt, compare_eq_iff_eq, compare_lt_iff_lt]
  rcases lt_trichotomy e f with he | rfl | he
  · exact iff_of_true (.inl he) (scaled_lt_of_lt hm' hn he)
  · rw [mul_lt_mul_iff_left₀ (zpow_pos_two e), Nat.cast_lt]
    simp
  · have hle := (scaled_lt_of_lt hn' hm he).le
    exact iff_of_false (by omega) hle.not_gt

/-- Zero is below all of them. -/
lemma StandsFor.zero_lt {x y : Float} {v : ℚ} (hx : x.toModel.unpack = .zero .positive)
    (hy : StandsFor y v) : x < y := by
  obtain ⟨m, e, hpos, hy, -⟩ := hy
  change decide (x.toModel < y.toModel) = true
  rw [decide_eq_true_iff]
  change UnpackedFloat.lt x.toModel.unpack y.toModel.unpack = true
  rw [hx, hy]
  rfl

/-! ### Rounded values -/

/-- A number is one of the two neighbours with full mantissas of another one, and the lower
neighbour if that is the number itself. -/
def Rounded (u v : ℚ) : Prop :=
  ∃ (f : ℕ) (t : ℤ), 2 ^ 52 ≤ f ∧ (f : ℚ) * 2 ^ t ≤ u ∧ u < (f + 1) * 2 ^ t
    ∧ (v = f * 2 ^ t ∨ (f : ℚ) * 2 ^ t < u ∧ v = (f + 1) * 2 ^ t)

namespace Rounded

variable {u v : ℚ} {k f : ℕ} {j t : ℤ}

/-- A number of 53 bits is a whole number of steps, or it is below the numbers with full
mantissas. -/
lemma exists_steps_or_lt (hk : k < 2 ^ 53) (hf : 2 ^ 52 ≤ f) :
    (∃ n : ℕ, (k : ℚ) * 2 ^ j = n * 2 ^ t) ∨ (k : ℚ) * 2 ^ j < f * 2 ^ t := by
  rcases le_or_gt t j with hle | hlt
  · obtain ⟨s, rfl⟩ := Int.exists_add_of_le hle
    refine .inl ⟨k * 2 ^ s, ?_⟩
    rw [zpow_add₀ two_ne_zero, zpow_natCast]
    push_cast
    ring
  · exact .inr (scaled_lt_of_lt hk hf hlt)

/-- Rounding does not lead below a number that need not be rounded. -/
theorem le (h : Rounded u v) (hk : k < 2 ^ 53) (hle : (k : ℚ) * 2 ^ j ≤ u) :
    (k : ℚ) * 2 ^ j ≤ v := by
  obtain ⟨f, t, hf, hlow, hhigh, hv⟩ := h
  have hfloor : (k : ℚ) * 2 ^ j ≤ f * 2 ^ t := by
    rcases exists_steps_or_lt (j := j) (t := t) hk hf with ⟨n, hn⟩ | hlt
    · rw [hn] at hle ⊢
      have hsteps : n < f + 1 := by
        have hlt := lt_of_mul_lt_mul_right (hle.trans_lt hhigh) (zpow_pos_two t).le
        exact_mod_cast hlt
      exact mul_le_mul_of_nonneg_right (by exact_mod_cast Nat.le_of_lt_succ hsteps)
        (zpow_pos_two t).le
    · exact hlt.le
  rcases hv with rfl | ⟨-, rfl⟩
  · exact hfloor
  · linarith [zpow_pos_two t]

/-- Rounding does not lead above a number that need not be rounded. -/
theorem ge (h : Rounded u v) (hk : k < 2 ^ 53) (hle : u ≤ (k : ℚ) * 2 ^ j) :
    v ≤ (k : ℚ) * 2 ^ j := by
  obtain ⟨f, t, hf, hlow, hhigh, rfl | ⟨hlt, rfl⟩⟩ := h
  · exact hlow.trans hle
  · have hbelow := hlt.trans_le hle
    rcases exists_steps_or_lt (j := j) (t := t) hk hf with ⟨n, hn⟩ | hlt'
    · rw [hn] at hbelow ⊢
      have hsteps : f < n := by
        exact_mod_cast lt_of_mul_lt_mul_right hbelow (zpow_pos_two t).le
      exact mul_le_mul_of_nonneg_right (by exact_mod_cast hsteps) (zpow_pos_two t).le
    · exact absurd hbelow hlt'.not_gt

/-- Rounding does not lead below a whole number of 53 bits. -/
theorem natCast_le (h : Rounded u v) (hk : k < 2 ^ 53) (hle : (k : ℚ) ≤ u) : (k : ℚ) ≤ v := by
  simpa using h.le (j := 0) hk (by simpa using hle)

/-- Rounding does not lead above a whole number of 53 bits. -/
theorem le_natCast (h : Rounded u v) (hk : k < 2 ^ 53) (hle : u ≤ k) : v ≤ k := by
  simpa using h.ge (j := 0) hk (by simpa using hle)

/-- A whole number of 53 bits is not rounded. -/
theorem eq_natCast (h : Rounded k v) (hk : k < 2 ^ 53) : v = k :=
  le_antisymm (h.le_natCast hk le_rfl) (h.natCast_le hk le_rfl)

end Rounded

/-! ### Bits that are cut off -/

lemma scaled_add (n k : ℕ) (e : ℤ) : (n : ℚ) * 2 ^ (e + k) = (n * 2 ^ k : ℕ) * 2 ^ e := by
  rw [zpow_add₀ two_ne_zero, zpow_natCast]
  push_cast
  ring

/-- Without its last bits a number is no larger. -/
lemma cut_le (m k : ℕ) (e : ℤ) : ((m / 2 ^ k : ℕ) : ℚ) * 2 ^ (e + k) ≤ m * 2 ^ e := by
  rw [scaled_add]
  exact mul_le_mul_of_nonneg_right (by exact_mod_cast Nat.div_mul_le_self m _) (zpow_pos_two e).le

/-- It is smaller if any of these bits is set. -/
lemma cut_lt {m k : ℕ} (h : m % 2 ^ k ≠ 0) (e : ℤ) :
    ((m / 2 ^ k : ℕ) : ℚ) * 2 ^ (e + k) < m * 2 ^ e := by
  have hlt : m / 2 ^ k * 2 ^ k < m := by
    have hrest := Nat.div_add_mod' m (2 ^ k)
    omega
  rw [scaled_add]
  exact mul_lt_mul_of_pos_right (by exact_mod_cast hlt) (zpow_pos_two e)

/-- The next number without these bits is larger. -/
lemma lt_cut_add_one (m k : ℕ) (e : ℤ) :
    (m : ℚ) * 2 ^ e < ((m / 2 ^ k : ℕ) + 1) * 2 ^ (e + k) := by
  have hlt : m < (m / 2 ^ k + 1) * 2 ^ k := by
    rw [add_one_mul]
    exact Nat.lt_div_mul_add (Nat.two_pow_pos k)
  have hnext := scaled_add (m / 2 ^ k + 1) k e
  rw [Nat.cast_add_one] at hnext
  rw [hnext]
  exact mul_lt_mul_of_pos_right (by exact_mod_cast hlt) (zpow_pos_two e)

/-! ### How numbers are rounded -/

/-- Which bits of a mantissa are left by a shift, and whether the others were all zero. -/
lemma shiftRight_spec (m k : ℕ) :
    ((⟨m, false, false⟩ : ExtendedMantissa) >>> k).mantissa = m / 2 ^ k
      ∧ ((((⟨m, false, false⟩ : ExtendedMantissa) >>> k).roundBit
        || ((⟨m, false, false⟩ : ExtendedMantissa) >>> k).stickyBit) = true ↔ m % 2 ^ k ≠ 0) := by
  induction k with
  | zero => exact ⟨(Nat.div_one m).symm, by simp [HShiftRight.hShiftRight, Nat.repeat, Nat.mod_one]⟩
  | succ k ih =>
    obtain ⟨hmantissa, hbits⟩ := ih
    have hstep : (⟨m, false, false⟩ : ExtendedMantissa) >>> (k + 1)
        = ((⟨m, false, false⟩ : ExtendedMantissa) >>> k).shiftRightOne := rfl
    rw [hstep]
    constructor
    · simp only [ExtendedMantissa.shiftRightOne, hmantissa, Nat.div_div_eq_div_mul, pow_succ]
    · have hsplit : m % 2 ^ (k + 1) = m % 2 ^ k + 2 ^ k * (m / 2 ^ k % 2) := by
        rw [pow_succ, Nat.mod_mul]
      rw [ExtendedMantissa.shiftRightOne, Bool.or_eq_true, hbits, hmantissa, hsplit, bne_iff_ne]
      rcases Nat.mod_two_eq_zero_or_one (m / 2 ^ k) with hbit | hbit <;> simp [hbit]

/-- A mantissa is rounded up only if something is cut off. -/
lemma roundedMantissa_cases (em : ExtendedMantissa) : em.roundedMantissa = em.mantissa
    ∨ (em.roundBit || em.stickyBit) = true ∧ em.roundedMantissa = em.mantissa + 1 := by
  obtain ⟨m, roundBit, stickyBit⟩ := em
  cases roundBit <;> cases stickyBit <;>
    simp [ExtendedMantissa.roundedMantissa, ExtendedMantissa.accuracy,
      Accuracy.roundToNearestEven]
  omega

lemma targetExponent_eq {m : ℕ} {e : ℤ} (hlow : -1022 ≤ m.log2 + e) :
    Format.binary64.targetExponent (totalExponent m e) = m.log2 + e - 52 := by
  simp only [Format.targetExponent, totalExponent, Format.mantissaBits, Format.minExponent]
  norm_num
  omega

lemma shiftToTargetExponent_eq {m k : ℕ} {e : ℤ} (hlow : -1022 ≤ m.log2 + e)
    (hk : m.log2 = 52 + k) : shiftToTargetExponent Format.binary64 m e .exact
      = ((⟨m, false, false⟩ : ExtendedMantissa) >>> k, e + k) := by
  have hshift : (m.log2 + e - 52 - e).toNat = k := by omega
  rw [shiftToTargetExponent, targetExponent_eq hlow]
  simp only [shiftToExponent, hshift]
  rfl

lemma log2_eq {m k : ℕ} (hlow : 2 ^ k ≤ m) (hhigh : m < 2 ^ (k + 1)) : m.log2 = k :=
  (Nat.log2_eq_iff ((Nat.two_pow_pos k).trans_le hlow).ne').mpr ⟨hlow, hhigh⟩

/-- What is packed with a full mantissa is unpacked as the same. -/
lemma unpack_pack {m : ℕ} {e : ℤ} (hpos : 0 < m) (hm : 2 ^ 52 ≤ m) (hm' : m < 2 ^ 53)
    (hlow : -1074 ≤ e) (hhigh : e ≤ 970) :
    (Float.Model.pack (.finite .positive m e hpos)).unpack = .finite .positive m e hpos := by
  have hlog := log2_eq hm hm'
  obtain ⟨b, hb⟩ : ∃ b : ℕ, e = b - 1075 := ⟨(e + 1075).toNat, by omega⟩
  have hexponent : (e + 1023 + 52).toNat = b := by omega
  have htoNat : (BitVec.ofNat 11 b).toNat = b := by
    rw [BitVec.toNat_ofNat, Nat.mod_eq_of_lt (by omega)]
  -- neither of the two exponents with a meaning of their own
  have hnotMax : BitVec.ofNat 11 b ≠ -1#11 := by
    intro heq
    have hval := congrArg BitVec.toNat heq
    rw [htoNat] at hval
    simp at hval
    omega
  have hnotZero : BitVec.ofNat 11 b ≠ 0#11 := by
    intro heq
    have hval := congrArg BitVec.toNat heq
    rw [htoNat] at hval
    simp at hval
    omega
  -- the leading bit is left out and put in front again
  have hmantissa : (1#1 ++ BitVec.ofNat 52 m).toNat = m := by
    rw [BitVec.toNat_append, BitVec.toNat_ofNat, ← Nat.shiftLeft_add_eq_or_of_lt (by omega)]
    simp [Nat.shiftLeft_eq]
    omega
  have hpack : UnpackedFloat.pack Format.binary64 (.finite .positive m e hpos)
      = packComponents Format.binary64 .positive (BitVec.ofNat 11 b) (BitVec.ofNat 52 m) := by
    simp only [UnpackedFloat.pack, Format.exponentBias, Format.mantissaBits, hlog]
    norm_num
    rw [hexponent, if_neg (by omega)]
  change UnpackedFloat.unpack Format.binary64 (UnpackedFloat.pack Format.binary64 _) = _
  rw [hpack]
  simp only [UnpackedFloat.unpack, unpackExponent_packComponents, unpackMantissa_packComponents,
    unpackSign_packComponents, hnotMax, hnotZero, if_false, htoNat]
  simp only [finite.injEq]
  exact ⟨rfl, hmantissa, by rw [hb]; rfl⟩

/-- The mantissa is cut off and rounded, and if it has got another bit it is cut off once more. -/
lemma roundWithAccuracy_eq {m k r j : ℕ} {e : ℤ} (hlow : -1022 ≤ m.log2 + e)
    (hk : m.log2 = 52 + k)
    (hr : ((⟨m, false, false⟩ : ExtendedMantissa) >>> k).roundedMantissa = r)
    (hlow' : -1022 ≤ r.log2 + (e + k)) (hj : r.log2 = 52 + j) (hpos : 0 < r / 2 ^ j) :
    roundWithAccuracy Format.binary64 .positive m e .exact
      = .finite .positive (r / 2 ^ j) (e + k + j) hpos := by
  obtain ⟨hmantissa, -⟩ := shiftRight_spec r j
  simp only [roundWithAccuracy, shiftToTargetExponent_eq hlow hk, hr,
    shiftToTargetExponent_eq hlow' hj, hmantissa, hpos.ne', dite_false]

/-- A product of mantissas, or any other mantissa that is not too short, is rounded to a number that
stands for one of the neighbours of the exact value. -/
theorem exists_standsFor_round {m : ℕ} {e : ℤ} (hm : 2 ^ 52 ≤ m)
    (hlow : 2 ^ (-1022 : ℤ) ≤ (m : ℚ) * 2 ^ e) (hhigh : (m : ℚ) * 2 ^ e < 2 ^ (1022 : ℤ)) :
    ∃ v, StandsFor ⟨Float.Model.pack (roundWithAccuracy Format.binary64 .positive m e .exact)⟩ v
      ∧ Rounded (m * 2 ^ e) v := by
  have hne : m ≠ 0 := by omega
  obtain ⟨hlog, hlog'⟩ := scaled_log2 hne e
  have hlow := Int.lt_add_one_iff.mp
    ((zpow_lt_zpow_iff_right₀ one_lt_two).mp (hlow.trans_lt hlog'))
  have hhigh := (zpow_lt_zpow_iff_right₀ one_lt_two).mp (hlog.trans_lt hhigh)
  -- the mantissa is cut by so many bits that 53 are left
  obtain ⟨k, hk⟩ := Nat.exists_eq_add_of_le ((Nat.le_log2 hne).mpr hm)
  obtain ⟨hself, hnext⟩ := (Nat.log2_eq_iff hne).mp hk
  have hpow : 0 < 2 ^ k := by positivity
  have hf : 2 ^ 52 ≤ m / 2 ^ k := (Nat.le_div_iff_mul_le hpow).mpr (by rwa [← pow_add])
  have hf' : m / 2 ^ k < 2 ^ 53 :=
    (Nat.div_lt_iff_lt_mul hpow).mpr (by rwa [← pow_add, show 53 + k = 52 + k + 1 by omega])
  have hfull {r : ℕ} (hr : 2 ^ 52 ≤ r) (hr' : r < 2 ^ 53)
      (heq : ((⟨m, false, false⟩ : ExtendedMantissa) >>> k).roundedMantissa = r) :
      StandsFor ⟨Float.Model.pack (roundWithAccuracy Format.binary64 .positive m e .exact)⟩
        (r * 2 ^ (e + k)) := by
    have hlog := log2_eq hr hr'
    rw [roundWithAccuracy_eq (j := 0) hlow hk heq (by omega) hlog (by simp; omega)]
    simp only [pow_zero, Nat.div_one, Nat.cast_zero, add_zero]
    exact ⟨r, _, _, unpack_pack _ hr hr' (by omega) (by omega), hr, hr', rfl⟩
  obtain ⟨hmantissa, hbits⟩ := shiftRight_spec m k
  have hfloor := cut_le m k e
  have hceil := lt_cut_add_one m k e
  -- the cut mantissa stays, or the next one is taken
  rcases roundedMantissa_cases ((⟨m, false, false⟩ : ExtendedMantissa) >>> k)
    with hdown | ⟨hcut, hup⟩
  · rw [hmantissa] at hdown
    exact ⟨_, hfull hf hf' hdown, m / 2 ^ k, e + k, hf, hfloor, hceil, .inl rfl⟩
  · rw [hmantissa] at hup
    refine ⟨((m / 2 ^ k : ℕ) + 1) * 2 ^ (e + k), ?_, m / 2 ^ k, e + k, hf, hfloor, hceil,
      .inr ⟨cut_lt (hbits.mp hcut) e, rfl⟩⟩
    rw [← Nat.cast_add_one]
    rcases (Nat.succ_le_of_lt hf').lt_or_eq with hlt | heq
    · exact hfull (by omega) hlt hup
    · -- the mantissa has got another bit
      have hlast : m / 2 ^ k + 1 = 2 ^ 53 := heq
      have hlog : (m / 2 ^ k + 1).log2 = 52 + 1 := by rw [hlast, Nat.log2_two_pow]
      rw [roundWithAccuracy_eq (j := 1) hlow hk hup (by omega) hlog (by rw [hlast]; decide)]
      have hhalf : (m / 2 ^ k + 1) / 2 ^ 1 = 2 ^ 52 := by rw [hlast]; decide
      refine ⟨_, _, _, unpack_pack _ hhalf.ge (by omega) (by omega) (by omega), hhalf.ge, by omega,
        ?_⟩
      rw [hhalf, hlast, Nat.cast_one, zpow_add_one₀ two_ne_zero]
      push_cast
      ring

/-- A product in the normal range is the exact product rounded. -/
theorem StandsFor.exists_mul {x y : Float} {v w : ℚ} (hx : StandsFor x v) (hy : StandsFor y w)
    (hlow : 2 ^ (-1022 : ℤ) ≤ v * w) (hhigh : v * w < 2 ^ (1022 : ℤ)) :
    ∃ u, StandsFor (x * y) u ∧ Rounded (v * w) u := by
  obtain ⟨m, e, hpos, hx, hm, -, rfl⟩ := hx
  obtain ⟨n, f, hpos', hy, hn, -, rfl⟩ := hy
  have hproduct : (m : ℚ) * 2 ^ e * (n * 2 ^ f) = (m * n : ℕ) * 2 ^ (e + f) := by
    rw [zpow_add₀ two_ne_zero]
    push_cast
    ring
  rw [hproduct] at hlow hhigh ⊢
  have hmn : 2 ^ 52 ≤ m * n := hm.trans (Nat.le_mul_of_pos_right m hpos')
  have heq : (x * y).toModel = Float.Model.pack
      (roundWithAccuracy Format.binary64 .positive (m * n) (e + f) .exact) := by
    change Float.Model.pack (UnpackedFloat.mul _ x.toModel.unpack y.toModel.unpack) = _
    rw [hx, hy]
    rfl
  obtain ⟨u, ⟨r, t, hpos'', hunpack, hr⟩, hrounded⟩ :=
    exists_standsFor_round hmn hlow hhigh
  exact ⟨u, ⟨r, t, hpos'', by rw [heq]; exact hunpack, hr⟩, hrounded⟩

/-- A positive number of 64 bits is converted to itself rounded. -/
theorem exists_standsFor_toFloat {n : UInt64} (hn : 0 < n.toNat) :
    ∃ v, StandsFor n.toFloat v ∧ Rounded n.toNat v := by
  have hself := Nat.log2_self_le hn.ne'
  have hbits : n.toNat.log2 < 64 := (Nat.log2_lt hn.ne').mpr n.toNat_lt
  -- the number is shifted until it has 53 bits at least
  obtain ⟨s, hs⟩ : ∃ s, s = 52 - n.toNat.log2 := ⟨_, rfl⟩
  have hm : 2 ^ 52 ≤ n.toNat * 2 ^ s := calc
    2 ^ 52 ≤ 2 ^ (n.toNat.log2 + s) := Nat.pow_le_pow_right two_pos (by omega)
    _ ≤ n.toNat * 2 ^ s := by rw [pow_add]; exact Nat.mul_le_mul_right _ hself
  have heq : n.toFloat.toModel = Float.Model.pack
      (roundWithAccuracy Format.binary64 .positive (n.toNat * 2 ^ s) (-s) .exact) := by
    have hpos : compare (n.toNat : ℤ) 0 = .gt := compare_gt_iff_gt.mpr (by exact_mod_cast hn)
    have htarget : Format.binary64.targetExponent (totalExponent n.toNat 0)
        = n.toNat.log2 + 0 - 52 := targetExponent_eq (by omega)
    have hshift : (-((n.toNat.log2 : ℤ) + 0 - 52)).toNat = s := by omega
    change Float.Model.pack (UnpackedFloat.normalize _ (n.toNat : ℤ) 0 .positive) = _
    rw [UnpackedFloat.normalize, hpos]
    simp only [UnpackedFloat.round, Int.toNat_natCast, htarget, decreaseExponent, zero_sub, hshift,
      Nat.shiftLeft_eq]
  have hexact : (n.toNat : ℚ) = (n.toNat * 2 ^ s : ℕ) * 2 ^ (-s : ℤ) := by
    push_cast
    rw [zpow_neg, zpow_natCast, mul_assoc, mul_inv_cancel₀ (by positivity), mul_one]
  have hlow : (2 : ℚ) ^ (-1022 : ℤ) ≤ n.toNat :=
    (zpow_le_one_of_nonpos₀ one_le_two (by decide)).trans (by exact_mod_cast hn)
  have hhigh : (n.toNat : ℚ) < 2 ^ (1022 : ℤ) := calc
    (n.toNat : ℚ) < 2 ^ 64 := by exact_mod_cast n.toNat_lt
    _ ≤ 2 ^ (1022 : ℤ) := by
      rw [← zpow_natCast]
      exact zpow_le_zpow_right₀ one_le_two (by decide)
  rw [hexact] at hlow hhigh ⊢
  obtain ⟨v, ⟨r, t, hpos, hunpack, hr⟩, hrounded⟩ := exists_standsFor_round hm hlow hhigh
  exact ⟨v, ⟨r, t, hpos, by rw [heq]; exact hunpack, hr⟩, hrounded⟩

end SeriesStore.Rounding
