import SeriesStore.Proofs.Number.Rounding
import SeriesStore.Proofs.Time.Resolution
import SeriesStore.Compaction.Tiers

/-!
# The widths of tiers

Whether a width is within a tenth of the retention is decided with floating-point numbers, where
both a retention and its tenth may have been rounded. It comes out as in whole numbers all the same.
The number that stands for a tenth is a little too large, and a whole number of hours that is not
reached is missed by at least a tenth of an hour, which is more than what rounding adds.
-/

namespace SeriesStore.Tiers

open List Rounding

/-! ### A tenth of the retention -/

/-- The floating-point number for a tenth is a little larger than a tenth. -/
lemma exists_standsFor_tenth : ∃ c, StandsFor 0.1 c ∧ 1 / 10 ≤ c ∧ c ≤ 1 / 10 + 1 / 1000000 := by
  refine ⟨(7205759403792794 : ℕ) * 2 ^ (-56 : ℤ),
    ⟨7205759403792794, -56, by decide, rfl, by decide, by decide, rfl⟩, ?_, ?_⟩ <;> norm_num

/-- A width is converted to itself. -/
lemma standsFor_width {t : ℕ} (ht : 0 < t) (ht' : t ≤ largest) :
    StandsFor (UInt64.ofNat t).toFloat t := by
  have hsmall : t < 2 ^ 53 := by simp only [largest] at ht'; omega
  have hval : (UInt64.ofNat t).toNat = t := by
    rw [UInt64.toNat_ofNat', Nat.mod_eq_of_lt (by omega)]
  obtain ⟨v, hv, hrounded⟩ := exists_standsFor_toFloat (n := UInt64.ofNat t) (by omega)
  rw [hval] at hrounded
  rwa [hrounded.eq_natCast hsmall] at hv

/-- A positive number of hours and its tenth, as they are computed. -/
lemma exists_standsFor_hours {r : ℕ} (hpos : 0 < r) (hr : r < 2 ^ 64) :
    ∃ a c p, Rounded r a ∧ Rounded (a * c) p ∧ StandsFor (tenth r) p
      ∧ 1 / 10 ≤ c ∧ c ≤ 1 / 10 + 1 / 1000000 := by
  have hval : (UInt64.ofNat r).toNat = r := by rw [UInt64.toNat_ofNat', Nat.mod_eq_of_lt hr]
  obtain ⟨a, ha, hrounded⟩ := exists_standsFor_toFloat (n := UInt64.ofNat r) (by omega)
  obtain ⟨c, hc, hclow, hchigh⟩ := exists_standsFor_tenth
  rw [hval] at hrounded
  have hone : 1 ≤ a := by
    exact_mod_cast hrounded.natCast_le (k := 1) (by decide) (by exact_mod_cast hpos)
  have hmost : a ≤ 2 ^ (64 : ℤ) := by
    have hle : (r : ℚ) ≤ (1 : ℕ) * 2 ^ (64 : ℤ) := by
      rw [Nat.cast_one, one_mul]
      exact_mod_cast hr.le
    simpa using hrounded.ge (by decide) hle
  have hlow : (2 : ℚ) ^ (-1022 : ℤ) ≤ a * c := calc
    (2 : ℚ) ^ (-1022 : ℤ) ≤ 2 ^ (-4 : ℤ) := zpow_le_zpow_right₀ one_le_two (by decide)
    _ ≤ c := le_trans (by norm_num) hclow
    _ ≤ a * c := le_mul_of_one_le_left (by linarith) hone
  have hhigh : a * c < 2 ^ (1022 : ℤ) := calc
    a * c ≤ a * 1 := mul_le_mul_of_nonneg_left (by linarith) (by linarith)
    _ ≤ 2 ^ (64 : ℤ) := by rwa [mul_one]
    _ < 2 ^ (1022 : ℤ) := zpow_lt_zpow_right₀ one_lt_two (by decide)
  obtain ⟨p, hp, hproduct⟩ := ha.exists_mul hc hlow hhigh
  exact ⟨a, c, p, hrounded, hproduct, hp, hclow, hchigh⟩

/-- A tenth of the retention is below a width just if it is in whole numbers. -/
theorem tenth_lt_iff {r t : ℕ} (hr : r < 2 ^ 64) (ht : 0 < t) (ht' : t ≤ largest) :
    tenth r < (UInt64.ofNat t).toFloat ↔ r < 10 * t := by
  have hwidth := standsFor_width ht ht'
  have hsmall : (t : ℚ) ≤ 744 := by exact_mod_cast ht'
  rcases Nat.eq_zero_or_pos r with rfl | hpos
  · have hzero : (tenth 0).toModel.unpack = .zero .positive := rfl
    exact iff_of_true (hwidth.zero_lt hzero) (by omega)
  obtain ⟨a, c, p, hrounded, hproduct, hp, hclow, hchigh⟩ := exists_standsFor_hours hpos hr
  rw [hp.lt_iff hwidth]
  simp only [largest] at ht'
  constructor
  · intro hlt
    by_contra hge
    have hten : ((10 * t : ℕ) : ℚ) ≤ a :=
      hrounded.natCast_le (by omega) (by exact_mod_cast Nat.not_lt.mp hge)
    push_cast at hten
    have hle : (t : ℚ) ≤ a * c := by nlinarith
    exact hlt.not_ge (hproduct.natCast_le (by omega) hle)
  · intro hlt
    -- the next number below `t` that has only a few bits is reached at most
    obtain ⟨s, rfl⟩ := Nat.exists_eq_succ_of_ne_zero ht.ne'
    have hten : a ≤ ((10 * s + 9 : ℕ) : ℚ) :=
      hrounded.le_natCast (by omega) (by exact_mod_cast (by omega : r ≤ 10 * s + 9))
    push_cast at hten hsmall
    have hle : a * c ≤ ((16 * s + 15 : ℕ) : ℚ) * 2 ^ (-4 : ℤ) := by
      push_cast
      norm_num
      nlinarith
    have hbelow := hproduct.ge (by omega) hle
    push_cast at hbelow ⊢
    norm_num at hbelow
    linarith

/-! ### The list of widths -/

/-- Ten times a width does not exceed the retention, if there is one. -/
def Within (retention : Option UInt64) (t : ℕ) : Prop := ∀ r ∈ retention, 10 * t ≤ r.toNat

/-- The limit that is computed for a retention. -/
def limit (retention : Option UInt64) : Option Float := (retention.map UInt64.toNat).map tenth

variable {retention : Option UInt64} {t tier : ℕ}

lemma Within.of_le {s : ℕ} (h : Within retention t) (hle : s ≤ t) : Within retention s :=
  fun r hr => (Nat.mul_le_mul_left 10 hle).trans (h r hr)

variable {l l' : Option Float}

/-- A limit is exceeded by a width. -/
def Exceeded (l : Option Float) (t : ℕ) : Prop :=
  l.any (fun l => decide (l < (UInt64.ofNat t).toFloat)) = true

/-- The computed limit is exceeded by what is not within the retention. -/
lemma exceeded_limit_iff (ht : 0 < t) (ht' : t ≤ largest) :
    Exceeded (limit retention) t ↔ ¬ Within retention t := by
  cases retention with
  | none => simp [limit, Exceeded, Within]
  | some r => simp [limit, Exceeded, Within, tenth_lt_iff r.toNat_lt ht ht']

lemma growing_of_large {h : 0 < tier} (hlarge : largest < tier) : growing l tier h = [largest] := by
  rw [growing, if_pos hlarge]

lemma growing_of_exceeded {h : 0 < tier} (hle : tier ≤ largest) (hl : Exceeded l tier) :
    growing l tier h = [] := by
  rw [growing, if_neg hle.not_gt]
  exact if_pos hl

lemma growing_of_not_exceeded {h : 0 < tier} (hle : tier ≤ largest) (hl : ¬ Exceeded l tier) :
    growing l tier h = tier :: growing l (3 * tier) (Nat.mul_pos (Nat.succ_pos 2) h) := by
  rw [growing, if_neg hle.not_gt]
  exact if_neg hl

/-- A width that has been tripled some times is the first one, or the next one has been tripled
less often. -/
lemma exists_eq_mul_pow_iff (tier t : ℕ) :
    (∃ i, t = tier * 3 ^ i) ↔ t = tier ∨ ∃ i, t = 3 * tier * 3 ^ i := by
  constructor
  · rintro ⟨_ | i, rfl⟩
    · exact .inl (by rw [pow_zero, mul_one])
    · exact .inr ⟨i, by rw [pow_succ]; ring⟩
  · rintro (rfl | ⟨i, rfl⟩)
    · exact ⟨0, by rw [pow_zero, mul_one]⟩
    · exact ⟨i + 1, by rw [pow_succ]; ring⟩

/-- The widths from one on are those that triple as long as they are within the retention, and the
largest width follows if none of them was left out. -/
lemma exists_growing_eq (retention : Option UInt64) (tier : ℕ) (h : 0 < tier) :
    ∃ front last, growing (limit retention) tier h = front ++ last ∧ front.SortedLT
      ∧ (∀ t, t ∈ front ↔ (∃ i, t = tier * 3 ^ i) ∧ t ≤ largest ∧ Within retention t)
      ∧ (last = [largest] ∧ (∀ i, tier * 3 ^ i ≤ largest → Within retention (tier * 3 ^ i))
        ∨ last = [] ∧ ∃ i, tier * 3 ^ i ≤ largest ∧ ¬ Within retention (tier * 3 ^ i)) := by
  have hleast (tier i : ℕ) : tier ≤ tier * 3 ^ i := Nat.le_mul_of_pos_right _ (by positivity)
  induction tier, h using growing.induct (limit retention) with
  | case1 tier h hlarge =>
    have hnone (i : ℕ) : ¬ tier * 3 ^ i ≤ largest := (hlarge.trans_le (hleast tier i)).not_ge
    refine ⟨[], [largest], by rw [growing_of_large hlarge, nil_append], Pairwise.nil.sortedLT,
      fun t => iff_of_false not_mem_nil ?_, .inl ⟨rfl, fun i hi => absurd hi (hnone i)⟩⟩
    rintro ⟨⟨i, rfl⟩, hle, -⟩
    exact hnone i hle
  | case2 tier h hlarge hany =>
    have hle := Nat.not_lt.mp hlarge
    have hexceeds := (exceeded_limit_iff h hle).mp hany
    refine ⟨[], [], by rw [growing_of_exceeded hle hany, nil_append], Pairwise.nil.sortedLT,
      fun t => iff_of_false not_mem_nil ?_, .inr ⟨rfl, 0, ?_, ?_⟩⟩
    · rintro ⟨⟨i, rfl⟩, -, hwithin⟩
      exact hexceeds (hwithin.of_le (hleast tier i))
    · rwa [pow_zero, mul_one]
    · rwa [pow_zero, mul_one]
  -- the width is taken, and three times the width comes next
  | case3 tier h hlarge hany ih =>
    have hle := Nat.not_lt.mp hlarge
    have hwithin := not_not.mp (mt (exceeded_limit_iff h hle).mpr hany)
    obtain ⟨front, last, heq, hsorted, hmem, hlast⟩ := ih
    refine ⟨tier :: front, last, by rw [growing_of_not_exceeded hle hany, heq, cons_append],
      ?_, fun t => ?_, ?_⟩
    · refine (pairwise_cons.mpr ⟨fun t ht => ?_, hsorted.pairwise⟩).sortedLT
      obtain ⟨⟨i, rfl⟩, -⟩ := (hmem t).mp ht
      have := hleast (3 * tier) i
      omega
    · rw [mem_cons, hmem, exists_eq_mul_pow_iff tier]
      constructor
      · rintro (rfl | ⟨hi, hrest⟩)
        · exact ⟨.inl rfl, hle, hwithin⟩
        · exact ⟨.inr hi, hrest⟩
      · rintro ⟨rfl | hi, hrest⟩
        · exact .inl rfl
        · exact .inr ⟨hi, hrest⟩
    · have hstep (i : ℕ) : tier * 3 ^ (i + 1) = 3 * tier * 3 ^ i := by rw [pow_succ]; ring
      refine hlast.imp (And.imp_right fun hall i => ?_) (And.imp_right fun ⟨i, hi⟩ => ?_)
      · cases i with
        | zero => exact fun _ => by rwa [pow_zero, mul_one]
        | succ i => exact (hstep i).symm ▸ hall i
      · exact ⟨i + 1, (hstep i).symm ▸ hi⟩

/-- If a limit is exceeded where another one is, its widths are the first ones of the other's. -/
lemma growing_prefix (tier : ℕ) (h : 0 < tier)
    (hexceeded : ∀ t, 0 < t → t ≤ largest → Exceeded l' t → Exceeded l t) :
    growing l tier h <+: growing l' tier h := by
  induction tier, h using growing.induct l with
  | case1 tier h hlarge => rw [growing_of_large hlarge, growing_of_large hlarge]
  | case2 tier h hlarge hany =>
    rw [growing_of_exceeded (Nat.not_lt.mp hlarge) hany]
    exact nil_prefix
  | case3 tier h hlarge hany ih =>
    have hle := Nat.not_lt.mp hlarge
    rw [growing_of_not_exceeded hle hany,
      growing_of_not_exceeded hle (mt (hexceeded tier h hle) hany)]
    exact (prefix_cons_inj tier).mpr ih

/-- The last width that triples from two hours on and is below the largest one. -/
lemma two_mul_pow_le {i : ℕ} (h : 2 * 3 ^ i ≤ largest) : 2 * 3 ^ i ≤ 486 := by
  have hi : i ≤ 5 := by
    by_contra hi
    have hpow : 3 ^ 6 ≤ 3 ^ i := Nat.pow_le_pow_right three_pos (by omega)
    simp only [largest] at h
    omega
  have hpow : 3 ^ i ≤ 3 ^ 5 := Nat.pow_le_pow_right three_pos hi
  omega

/-- The widths from two hours on. -/
lemma exists_forRetention_eq (retention : Option UInt64) :
    ∃ front last, forRetention (retention.map UInt64.toNat) = front ++ last ∧ front.SortedLT
      ∧ (∀ t, t ∈ front ↔ (∃ i, t = 2 * 3 ^ i) ∧ t ≤ largest ∧ Within retention t)
      ∧ (last = [largest] ∧ Within retention 486 ∨ last = [] ∧ ¬ Within retention 486) := by
  obtain ⟨front, last, heq, hsorted, hmem, hlast⟩ :=
    exists_growing_eq retention 2 (by decide)
  refine ⟨front, last, heq, hsorted, hmem, hlast.imp (And.imp_right fun hall => ?_)
    (And.imp_right fun ⟨i, hi, hexceeds⟩ hwithin => ?_)⟩
  · exact hall 5 (by decide)
  · exact hexceeds (hwithin.of_le (two_mul_pow_le hi))

/-- All widths are listed in increasing order. -/
lemma forRetention_sorted (retention : Option UInt64) :
    (forRetention (retention.map UInt64.toNat)).SortedLT
      ∧ ∀ t ∈ forRetention (retention.map UInt64.toNat), t ≤ largest := by
  obtain ⟨front, last, heq, hsorted, hmem, hlast⟩ := exists_forRetention_eq retention
  have hbelow (t : ℕ) (ht : t ∈ front) : t < largest := by
    obtain ⟨⟨i, rfl⟩, hle, -⟩ := (hmem t).mp ht
    exact (two_mul_pow_le hle).trans_lt (by decide)
  rw [heq]
  rcases hlast with ⟨rfl, -⟩ | ⟨rfl, -⟩
  · refine ⟨(pairwise_append.mpr ⟨hsorted.pairwise, pairwise_singleton _ _, ?_⟩).sortedLT,
      forall_mem_append.mpr ⟨fun t ht => (hbelow t ht).le, by simp⟩⟩
    exact fun t ht u hu => (hbelow t ht).trans_eq (mem_singleton.mp hu).symm
  · rw [append_nil]
    exact ⟨hsorted, fun t ht => (hbelow t ht).le⟩

/-- Widths are far from the hours that are cut down, and exact in every unit. -/
theorem toInt_ofHours_width (r : Resolution) (ht : t ∈ forRetention (retention.map UInt64.toNat)) :
    (r.ofHours (UInt64.ofNat t)).toInt = t * 3600 * r.perSecond := by
  have hle : t ≤ 744 := (forRetention_sorted retention).2 t ht
  have hval : (UInt64.ofNat t).toNat = t := by
    rw [UInt64.toNat_ofNat', Nat.mod_eq_of_lt (by omega)]
  rw [Resolution.ofHours_of_lt (by omega), Resolution.ofExactMillis, toInt_clampInt64, hval]
  cases r <;> simp only [Resolution.units, Resolution.perSecond] <;> omega

/-- The widths for a retention are in whole numbers what floating-point numbers are used for: those
that triple from two hours on as long as ten times the width does not exceed the retention, followed
by the largest width if none of them does. So they increase, and a longer retention only adds to
them. -/
theorem forRetention_exact :
    (∀ R : UInt64, ∃ front,
      forRetention (some R.toNat) = front ++ (if 4860 ≤ R.toNat then [largest] else [])
        ∧ front.SortedLT
        ∧ ∀ t, t ∈ front ↔ (∃ i, t = 2 * 3 ^ i) ∧ t ≤ largest ∧ 10 * t ≤ R.toNat)
      ∧ forRetention none = [2, 6, 18, 54, 162, 486, 744]
      ∧ (∀ retention : Option UInt64, (forRetention (retention.map UInt64.toNat)).SortedLT
        ∧ ∀ t ∈ forRetention (retention.map UInt64.toNat), t ≤ 744)
      ∧ ∀ R₁ R₂ : UInt64, R₁ ≤ R₂ →
        forRetention (some R₁.toNat) <+: forRetention (some R₂.toNat) := by
  refine ⟨fun R => ?_, ?_, forRetention_sorted, fun R₁ R₂ hle => ?_⟩
  · obtain ⟨front, last, heq, hsorted, hmem, hlast⟩ := exists_forRetention_eq (some R)
    refine ⟨front, ?_, hsorted, by simpa [Within] using hmem⟩
    rcases hlast with ⟨rfl, hwithin⟩ | ⟨rfl, hexceeds⟩
    · rw [if_pos (by simpa [Within] using hwithin)]
      exact heq
    · rw [if_neg (by simpa [Within] using hexceeds)]
      exact heq
  · simp [forRetention, growing, largest]
  · have hexceeded (t : ℕ) (ht : 0 < t) (ht' : t ≤ largest) :
        Exceeded (limit (some R₂)) t → Exceeded (limit (some R₁)) t := by
      rw [exceeded_limit_iff ht ht', exceeded_limit_iff ht ht']
      refine mt fun hwithin r hr => ?_
      obtain rfl := Option.mem_some.mp hr
      exact (hwithin R₁ rfl).trans (UInt64.le_iff_toNat_le.mp hle)
    exact growing_prefix 2 _ hexceeded

/-- An hour may decide whether the largest width is among them. -/
theorem forRetention_exact_last_hour :
    (4859 : UInt64) ≤ 4860 ∧ forRetention (some 4859) <+: forRetention (some 4860)
      ∧ 744 ∉ forRetention (some 4859) ∧ 744 ∈ forRetention (some 4860) := by
  obtain ⟨hlists, -, -, hprefix⟩ := forRetention_exact
  obtain ⟨front, heq, -, hmem⟩ := hlists 4859
  obtain ⟨front', heq', -⟩ := hlists 4860
  refine ⟨by decide, hprefix 4859 4860 (by decide), fun hlast => ?_, ?_⟩
  · obtain ⟨-, -, hwithin⟩ := (hmem 744).mp (append_nil front ▸ heq ▸ hlast)
    exact absurd hwithin (by decide)
  · exact heq'.symm ▸ mem_append_right _ mem_cons_self

end SeriesStore.Tiers
