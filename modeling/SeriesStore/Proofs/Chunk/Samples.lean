import SeriesStore.Chunk.Stream
import SeriesStore.Proofs.Chunk.Taking

/-!
# Decoding samples

Each piece of the stored form of a sample is taken back as what it was made of: the change of the
interval, the change of the value together with the window in use, and the sample with the state
that is carried on to the next one.
-/

namespace SeriesStore

open BitParser

/-! ### Intervals -/

namespace Interval

lemma takes_marker_lt {j k : Nat} (h : j < k) :
    Takes (marker k) (List.replicate j true ++ [false]) j := by
  induction k generalizing j with
  | zero => omega
  | succ k ih =>
    cases j with
    | zero => exact (takes_bit false).bind (takes_pure 0)
    | succ j =>
      have hrest : Takes (do let k ← marker k; pure (k + 1)) (List.replicate j true ++ [false])
          (j + 1) := (ih (by omega)).map (· + 1)
      exact (takes_bit true).bind hrest

lemma takes_marker_all (k : Nat) : Takes (marker k) (List.replicate k true) k := by
  induction k with
  | zero => exact takes_pure 0
  | succ k ih => exact (takes_bit true).bind (ih.map (· + 1))

lemma cast_one_shiftLeft (n : Nat) : ((1 <<< n : Nat) : Int) = 2 ^ n := by
  rw [Nat.one_shiftLeft]
  push_cast
  rfl

lemma fits_iff {n : Nat} {x : Int} :
    fits n x = true ↔ 1 - 2 ^ (n - 1) ≤ x ∧ x ≤ 2 ^ (n - 1) := by
  simp only [fits, cast_one_shiftLeft, Bool.and_eq_true, decide_eq_true_eq]

lemma ofCode_eq (n code : Nat) : ofCode n code =
    if 2 ^ (n - 1) < code then Int64.ofInt (code - 2 ^ n) else Int64.ofInt code := by
  rw [ofCode, cast_one_shiftLeft, Nat.one_shiftLeft]

lemma takes_lowBits (n : Nat) (x : Int) :
    Takes (bits n) (lowBits n x) (x % 2 ^ n).toNat := by
  rw [lowBits, cast_one_shiftLeft]
  have hpos : (0 : Int) < 2 ^ n := Int.pow_pos (by decide)
  have hlt := Int.emod_lt_of_pos x hpos
  have hnonneg := Int.emod_nonneg x hpos.ne'
  have hcast : ((2 ^ n : Nat) : Int) = 2 ^ n := by push_cast; rfl
  exact takes_bits_of_lt (by omega)

/-- A code of `n` bits stands for the number it was made of, if the bucket holds that number. -/
lemma ofCode_lowBits {n : Nat} (hn : 0 < n) {change : Int64} (h : fits n change.toInt = true) :
    ofCode n (change.toInt % 2 ^ n).toNat = change := by
  obtain ⟨m, rfl⟩ : ∃ m, n = m + 1 := ⟨n - 1, by omega⟩
  have hpow : (2 : Int) ^ (m + 1) = 2 * 2 ^ m := by ring
  have hpos : (0 : Int) < 2 ^ m := Int.pow_pos (by decide)
  have hcast : ((2 ^ m : Nat) : Int) = 2 ^ m := by push_cast; rfl
  rw [fits_iff, Nat.add_sub_cancel] at h
  rw [ofCode_eq, Nat.add_sub_cancel, hpow]
  rcases lt_or_ge change.toInt 0 with hneg | hnonneg
  · have hcode : change.toInt % (2 * 2 ^ m) = change.toInt + 2 * 2 ^ m := by
      rw [← Int.add_emod_right, Int.emod_eq_of_lt (by omega) (by omega)]
    rw [hcode, if_pos (by omega), Int.toNat_of_nonneg (by omega), Int.add_sub_cancel,
      Int64.ofInt_toInt]
  · have hcode : change.toInt % (2 * 2 ^ m) = change.toInt :=
      Int.emod_eq_of_lt hnonneg (by omega)
    rw [hcode, if_neg (by omega), Int.toNat_of_nonneg hnonneg, Int64.ofInt_toInt]

lemma ofInt_lowBits (change : Int64) :
    Int64.ofInt (change.toInt % 2 ^ 64).toNat = change := by
  have hlo := change.le_toInt
  have hhi := change.toInt_lt
  rw [Int.toNat_of_nonneg (Int.emod_nonneg _ (by decide)), ← Int64.toInt_inj, Int64.toInt_ofInt]
  simp only [Int.bmod_def, Int64.size]
  omega

theorem takes_decode (change : Int64) : Takes decode (encode change) change := by
  unfold decode
  simp only [encode]
  split_ifs with h₀ h₁₄ h₁₇ h₂₀
  · have hzero : change = 0 := by rwa [← Int64.toInt_inj]
    rw [hzero]
    exact (takes_marker_lt (j := 0) (k := 4) (by decide)).bind (takes_pure 0)
  · have hcode := (takes_lowBits 14 change.toInt).map (ofCode 14)
    rw [ofCode_lowBits (by decide) h₁₄] at hcode
    exact (takes_marker_lt (j := 1) (k := 4) (by decide)).bind hcode
  · have hcode := (takes_lowBits 17 change.toInt).map (ofCode 17)
    rw [ofCode_lowBits (by decide) h₁₇] at hcode
    exact (takes_marker_lt (j := 2) (k := 4) (by decide)).bind hcode
  · have hcode := (takes_lowBits 20 change.toInt).map (ofCode 20)
    rw [ofCode_lowBits (by decide) h₂₀] at hcode
    exact (takes_marker_lt (j := 3) (k := 4) (by decide)).bind hcode
  · have hcode := (takes_lowBits 64 change.toInt).map (fun code => Int64.ofInt code)
    rw [ofInt_lowBits] at hcode
    exact (takes_marker_all 4).bind hcode

end Interval

/-! ### Windows -/

namespace Window

/-- What the stored form of a window can say: a leading part of at most 31 bits, and at least one
bit inside. -/
def Valid (w : Window) : Prop := w.leading ≤ 31 ∧ w.leading + w.trailing < 64

/-- All set bits of a word lie inside the window. -/
def Contains (w : Window) (x : UInt64) : Prop :=
  x.toNat < 2 ^ (64 - w.leading) ∧ 2 ^ w.trailing ∣ x.toNat

lemma toNat_and_one (x : UInt64) : x &&& 1 = 1 ↔ x.toNat % 2 = 1 := by
  rw [← UInt64.toNat_inj, UInt64.toNat_and]
  simp

lemma two_pow_trailingZerosWithin_dvd (n : Nat) (x : UInt64) :
    2 ^ trailingZerosWithin n x ∣ x.toNat := by
  induction n generalizing x with
  | zero => exact Nat.one_dvd _
  | succ n ih =>
    unfold trailingZerosWithin
    split_ifs with hodd
    · exact Nat.one_dvd _
    · rw [toNat_and_one] at hodd
      have hhalf : x.toNat = (x >>> 1).toNat * 2 := by
        rw [UInt64.toNat_shiftRight]
        simp [Nat.shiftRight_eq_div_pow]
        omega
      rw [hhalf, Nat.pow_succ]
      exact Nat.mul_dvd_mul_right (ih _) 2

lemma toNat_ne_zero {x : UInt64} (hx : x ≠ 0) : x.toNat ≠ 0 := fun h =>
  hx (UInt64.toNat_inj.mp h)

lemma log2_toNat_lt {x : UInt64} (hx : x ≠ 0) : x.toNat.log2 < 64 :=
  (Nat.log2_lt (toNat_ne_zero hx)).mpr x.toNat_lt

lemma trailingZeros_le_log2 {x : UInt64} (hx : x ≠ 0) : trailingZeros x ≤ x.toNat.log2 := by
  have hdvd := two_pow_trailingZerosWithin_dvd 64 x
  exact (Nat.le_log2 (toNat_ne_zero hx)).mpr
    (Nat.le_of_dvd (Nat.pos_of_ne_zero (toNat_ne_zero hx)) hdvd)

lemma leadingZeros_of_ne_zero {x : UInt64} (hx : x ≠ 0) :
    leadingZeros x = 63 - x.toNat.log2 := if_neg hx

lemma valid_fitting {x : UInt64} (hx : x ≠ 0) : (fitting x).Valid := by
  have hlog := log2_toNat_lt hx
  have htrailing := trailingZeros_le_log2 hx
  have hleading := leadingZeros_of_ne_zero hx
  simp only [Valid, fitting]
  omega

lemma contains_fitting {x : UInt64} (hx : x ≠ 0) : (fitting x).Contains x := by
  refine ⟨?_, two_pow_trailingZerosWithin_dvd 64 x⟩
  have hlog := log2_toNat_lt hx
  have hleading := leadingZeros_of_ne_zero hx
  have hlt : x.toNat < 2 ^ (x.toNat.log2 + 1) :=
    (Nat.log2_lt (toNat_ne_zero hx)).mp (Nat.lt_succ_self _)
  exact hlt.trans_le (Nat.pow_le_pow_right (by decide) (by simp only [fitting]; omega))

lemma Contains.of_holds {w v : Window} {x : UInt64} (hv : v.Contains x) (h : w.holds v = true) :
    w.Contains x := by
  simp only [holds, Bool.and_eq_true, decide_eq_true_eq] at h
  exact ⟨hv.1.trans_le (Nat.pow_le_pow_right (by decide) (by omega)),
    (Nat.pow_dvd_pow 2 h.2).trans hv.2⟩

lemma takes_inside {w : Window} {x : UInt64} (h : w.Contains x) (hw : w.Valid) :
    Takes (do let code ← bits w.size; pure (UInt64.ofNat (code <<< w.trailing), some w))
      (w.inside x) (x, some w) := by
  obtain ⟨hlt, hdvd⟩ := h
  obtain ⟨-, hsize⟩ := hw
  have hcode : x.toNat / 2 ^ w.trailing < 2 ^ w.size := by
    rw [Nat.div_lt_iff_lt_mul (Nat.two_pow_pos _), ← Nat.pow_add, size]
    convert hlt using 2
    omega
  have htakes := (takes_bits_of_lt hcode).map
    fun code => (UInt64.ofNat (code <<< w.trailing), some w)
  rw [Nat.shiftLeft_eq, Nat.div_mul_cancel hdvd, UInt64.ofNat_toNat] at htakes
  rwa [inside, Nat.shiftRight_eq_div_pow]

lemma takes_read {w : Window} (hw : w.Valid) :
    Takes read (Bits.ofNat 5 w.leading ++ Bits.ofNat 6 w.size) w := by
  obtain ⟨leading, trailing⟩ := w
  obtain ⟨hleading, hsize⟩ := hw
  simp only [size] at *
  have hcode : Takes (bits 6) (Bits.ofNat 6 (64 - leading - trailing))
      ((64 - leading - trailing) % 64) := takes_bits 6 _
  have hsignificant : (if (64 - leading - trailing) % 64 = 0 then 64
      else (64 - leading - trailing) % 64) = 64 - leading - trailing := by
    split_ifs <;> omega
  refine (takes_bits_of_lt (by omega)).bind (hcode.bind_nil ?_)
  simp only [hsignificant]
  rw [if_neg (by omega), show 64 - (leading + (64 - leading - trailing)) = trailing by omega]
  exact takes_pure _

/-- The window in use, if there is one, is one that was stored. -/
def InUse (current : Option Window) : Prop := ∀ w ∈ current, w.Valid

lemma inUse_encode {current : Option Window} (h : InUse current) (x : UInt64) :
    InUse (encode current x).2 := by
  unfold encode
  split_ifs with hx
  · exact h
  · have hnew : InUse (some (fitting x)) := by simpa [InUse] using valid_fitting hx
    cases current with
    | none => exact hnew
    | some w =>
      dsimp only
      split_ifs
      · exact h
      · exact hnew

lemma takes_new {current : Option Window} {x : UInt64} (hx : x ≠ 0) :
    Takes (decode current)
      ([true, true] ++ Bits.ofNat 5 (fitting x).leading ++ Bits.ofNat 6 (fitting x).size
        ++ (fitting x).inside x) (x, some (fitting x)) := by
  have hvalid := valid_fitting hx
  have hwide : ¬64 < (fitting x).leading + (fitting x).trailing := by
    have := hvalid.2
    omega
  rw [List.append_assoc, List.append_assoc, ← List.append_assoc (Bits.ofNat 5 _)]
  refine (takes_bit true).bind ((takes_bit true).bind ((takes_read hvalid).bind ?_))
  simp only [hwide, if_false]
  exact takes_inside (contains_fitting hx) hvalid

/-- The stored form of a change of the value is taken back together with the window in use. -/
theorem takes_decode {current : Option Window} (h : InUse current) (x : UInt64) :
    Takes (decode current) (encode current x).1 (x, (encode current x).2) := by
  unfold encode
  split_ifs with hx
  · subst hx
    exact (takes_bit false).bind_nil (takes_pure (0, current))
  · cases current with
    | none => exact takes_new hx
    | some w =>
      dsimp only
      split_ifs with hholds
      · have hvalid : w.Valid := h w rfl
        have hwide : ¬64 < w.leading + w.trailing := by
          have := hvalid.2
          omega
        refine (takes_bit true).bind ((takes_bit false).bind ?_)
        simp only [Option.getD_some, pure_bind, Bool.false_eq_true, hwide, if_false]
        exact takes_inside ((contains_fitting hx).of_holds hholds) hvalid
      · exact takes_new hx

end Window

/-! ### States -/

namespace StreamState

@[simp] lemma count_encode (s : StreamState) (x : Sample) : (s.encode x).2.count = s.count + 1 := by
  obtain ⟨count, last, interval, window⟩ := s
  match count with
  | 0 | 1 | n + 2 => rfl

@[simp] lemma last_encode (s : StreamState) (x : Sample) : (s.encode x).2.last = x := by
  obtain ⟨count, last, interval, window⟩ := s
  match count with
  | 0 | 1 | n + 2 => rfl

lemma inUse_encode {s : StreamState} (h : Window.InUse s.window) (x : Sample) :
    Window.InUse (s.encode x).2.window := by
  obtain ⟨count, last, interval, window⟩ := s
  match count with
  | 0 => exact h
  | 1 | n + 2 => exact Window.inUse_encode h _

/-- The second sample and all later ones are given by an interval and a change of the value. -/
private lemma takes_later {γ : Type} {p : BitParser γ} {bs : Bits} {s : StreamState} {x : Sample}
    {f : γ → Int64} {a : γ} (n : Nat) (hp : Takes p bs a) (ha : f a = x.time - s.last.time)
    (hw : Window.InUse s.window) :
    Takes (do
        let interval := f (← p)
        let (change, window) ← Window.decode s.window
        pure (StreamState.mk n ⟨s.last.time + interval, s.last.value ^^^ change⟩ interval window))
      (bs ++ (Window.encode s.window (x.value ^^^ s.last.value)).1)
      ⟨n, x, x.time - s.last.time, (Window.encode s.window (x.value ^^^ s.last.value)).2⟩ := by
  refine hp.bind ((Window.takes_decode hw _).bind_nil ?_)
  have htime : s.last.time + (x.time - s.last.time) = x.time := by
    rw [Int64.add_comm, Int64.sub_add_cancel]
  have hvalue : s.last.value ^^^ (x.value ^^^ s.last.value) = x.value := by
    rw [UInt64.xor_comm x.value, ← UInt64.xor_assoc, UInt64.xor_self, UInt64.zero_xor]
  simp only [ha, htime, hvalue]
  exact takes_pure _

/-- A sample is taken back from its stored form, with the same state behind it. -/
theorem takes_decode {s : StreamState} (h : Window.InUse s.window) (x : Sample) :
    Takes s.decode (s.encode x).1 (s.encode x).2 := by
  obtain ⟨count, last, interval, window⟩ := s
  match count with
  | 0 =>
    have hvalue := (takes_bits_of_lt (n := 64) x.value.toNat_lt).map fun value =>
      StreamState.mk 1 ⟨Int64.ofInt x.time.toInt, UInt64.ofNat value⟩ interval window
    refine (takes_signedVarint x.time).bind ?_
    simp only [Int64.ofInt_toInt, UInt64.ofNat_toNat] at hvalue ⊢
    exact hvalue
  | 1 =>
    have hword := takes_varint (x.time - last.time).toUInt64.toNat_lt
    exact takes_later (s := ⟨1, last, interval, window⟩) (f := fun n => (UInt64.ofNat n).toInt64)
      2 hword (by simp) h
  | n + 2 =>
    have hchange := Interval.takes_decode (x.time - last.time - interval)
    exact takes_later (s := ⟨n + 2, last, interval, window⟩) (f := (interval + ·))
      (n + 3) hchange (by rw [Int64.add_comm, Int64.sub_add_cancel]) h

/-- The state behind a run of samples. -/
def after (s : StreamState) (xs : List Sample) : StreamState :=
  xs.foldl (fun s x => (s.encode x).2) s

end StreamState

end SeriesStore
