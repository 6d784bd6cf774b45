import SeriesStore.Proofs.Chunk.Reading
import SeriesStore.Proofs.Chunk.Words

/-!
# Both decoders side by side

The decoder in words goes the same way as the decoder on numbers: from the same bit of the same
bytes both take the same bits, give values that stand for one another, or stop with the same
damage. An operation on words leaves its range nowhere, as the numbers of the other decoder are
small enough.
-/

namespace SeriesStore

/-- A word reader and a bit reader stand at the same bit of the same bytes. -/
structure WordReader.At (w : WordReader) (r : BitReader) : Prop where
  position : w.position = r.position
  bits : r.toBits = (Bits.ofBytes w.data).drop w.position

namespace WordParser

variable {α β γ δ : Type}

/-- From the same bit on, both parsers go to the same bit with related values, or stop with the same
damage. -/
structure Mirrors (R : β → α → Prop) (q : WordParser β) (p : BitParser α) : Prop where
  ok : ∀ {w r a r'}, w.At r → p r = .ok (a, r') → ∃ b w', q w = .ok (b, w') ∧ w'.At r' ∧ R b a
  error : ∀ {w r d}, w.At r → p r = .error d → q w = .error (.damage d)

lemma mirrors_pure {R : β → α → Prop} {b : β} {a : α} (h : R b a) :
    Mirrors R (pure b) (pure a) where
  ok hw hr := by
    cases hr
    exact ⟨b, _, rfl, hw, h⟩
  error _ hr := nomatch hr

lemma mirrors_throw {R : β → α → Prop} (d : ChunkDamage) :
    Mirrors R (throw (.damage d)) (throw d) where
  ok _ hr := nomatch hr
  error _ hr := by
    cases hr
    rfl

lemma bind_ok {q : WordParser β} {g : β → WordParser δ} {w w' : WordReader} {b : β}
    (h : q w = .ok (b, w')) : (q >>= g) w = g b w' := by
  simp [Bind.bind, StateT.bind, Except.bind, h]

lemma bind_error {q : WordParser β} {g : β → WordParser δ} {w : WordReader} {e : WordStop}
    (h : q w = .error e) : (q >>= g) w = .error e := by
  simp [Bind.bind, StateT.bind, Except.bind, h]

lemma Mirrors.bind {R : β → α → Prop} {S : δ → γ → Prop} {q : WordParser β} {p : BitParser α}
    {g : β → WordParser δ} {f : α → BitParser γ} (hq : Mirrors R q p)
    (hg : ∀ b a, R b a → Mirrors S (g b) (f a)) : Mirrors S (q >>= g) (p >>= f) where
  ok {w r c r'} hw hr := by
    cases hpr : p r with
    | error d => rw [BitParser.bind_error hpr] at hr; contradiction
    | ok v =>
      obtain ⟨a, r₁⟩ := v
      rw [BitParser.bind_ok hpr] at hr
      obtain ⟨b, w₁, hqw, hw₁, hba⟩ := hq.ok hw hpr
      rw [bind_ok hqw]
      exact (hg b a hba).ok hw₁ hr
  error {w r d} hw hr := by
    cases hpr : p r with
    | error d' =>
      rw [BitParser.bind_error hpr] at hr
      cases hr
      exact bind_error (hq.error hw hpr)
    | ok v =>
      obtain ⟨a, r₁⟩ := v
      rw [BitParser.bind_ok hpr] at hr
      obtain ⟨b, w₁, hqw, hw₁, hba⟩ := hq.ok hw hpr
      rw [bind_ok hqw]
      exact (hg b a hba).error hw₁ hr

/-- In its range an operation gives its result, and the run goes on. -/
lemma guarded_of {range : Prop} [Decidable range] (h : range) (a : α) :
    guarded range a = pure a := if_pos h

lemma mirrors_guarded {R : δ → α → Prop} {range : Prop} [Decidable range] {b : β}
    {g : β → WordParser δ} {p : BitParser α} (h : range) (hg : Mirrors R (g b) p) :
    Mirrors R (guarded range b >>= g) p := by
  rwa [guarded_of h, pure_bind]

/-! ### Numbers -/

lemma shiftRight_and_one (byte : UInt8) {n : Nat} (h : n < 8) :
    (byte >>> UInt8.ofNat n &&& 1 == 1) = byte.toNat.testBit n := by
  have hshift : (byte >>> UInt8.ofNat n &&& 1).toNat = byte.toNat / 2 ^ n % 2 := by
    rw [UInt8.toNat_and, UInt8.toNat_shiftRight, UInt8.toNat_ofNat', Nat.shiftRight_eq_div_pow,
      Nat.mod_mod_of_dvd _ (by decide), Nat.mod_eq_of_lt h]
    exact Nat.and_one_is_mod _
  rw [Nat.testBit_eq_decide_div_mod_eq, ← hshift, Bool.eq_iff_iff, beq_iff_eq,
    decide_eq_true_iff, ← UInt8.toNat_inj]
  rfl

/-- A bit that is found by its index is the one that stands there in the bit string. -/
lemma bit_apply (w : WordReader) :
    bit w = match (Bits.ofBytes w.data)[w.position]? with
      | some b => .ok (b, { w with position := w.position + 1 })
      | none => .error (.damage (.truncated w.position)) := by
  rw [bit, Bits.getElem?_ofBytes]
  cases w.data[w.position / 8]? with
  | none => rfl
  | some byte =>
    have hdistance : 7 - w.position % 8 < 8 := by omega
    simp only [shiftRight8, guarded_of hdistance, pure_bind, shiftRight_and_one byte hdistance,
      Option.map_some]
    rfl

lemma mirrors_bit : Mirrors Eq bit BitParser.bit where
  ok {w r b r'} hw hr := by
    cases hbits : r.toBits with
    | nil => simp [BitParser.bit, BitReader.next?_eq_none hbits] at hr
    | cons c bs =>
      obtain ⟨r₁, hnext, hbits₁, hpos₁⟩ := BitReader.next?_eq_some hbits
      obtain ⟨rfl, rfl⟩ : c = b ∧ r₁ = r' := by simpa [BitParser.bit, hnext] using hr
      have hdrop := hw.bits
      rw [hbits] at hdrop
      have hhere : (Bits.ofBytes w.data)[w.position]? = some c := by
        rw [← List.head?_drop, ← hdrop, List.head?_cons]
      refine ⟨c, { w with position := w.position + 1 }, by rw [bit_apply, hhere], ⟨?_, ?_⟩, rfl⟩
      · rw [hpos₁, hw.position]
      · rw [hbits₁, ← List.tail_drop, ← hdrop, List.tail_cons]
  error {w r d} hw hr := by
    cases hbits : r.toBits with
    | nil =>
      have hend : (Bits.ofBytes w.data)[w.position]? = none := by
        rw [← List.head?_drop, ← hw.bits, hbits, List.head?_nil]
      rw [bit_apply, hend, hw.position]
      simpa [BitParser.bit, BitReader.next?_eq_none hbits] using hr
    | cons c bs =>
      obtain ⟨r₁, hnext, -⟩ := BitReader.next?_eq_some hbits
      simp [BitParser.bit, hnext] at hr

/-- A word stands for a number of at most `n` bits. -/
def Denotes (n : Nat) (v : UInt64) (a : Nat) : Prop := v.toNat = a ∧ a < 2 ^ n

lemma Denotes.shiftLeft_or {k a : Nat} {v : UInt64} (h : Denotes k v a) (hk : k < 64) (b : Bool) :
    Denotes (k + 1) (v <<< 1 ||| b.toUInt64) (2 * a + b.toNat) := by
  obtain ⟨rfl, hlt⟩ := h
  have hbit : b.toUInt64.toNat = b.toNat := by cases b <;> rfl
  have hb : b.toNat < 2 ^ 1 := by cases b <;> decide
  have hword : 2 ^ (k + 1) ≤ 2 ^ 64 := Nat.pow_le_pow_right (by decide) (by omega)
  have hnext : 2 * v.toNat + b.toNat < 2 ^ (k + 1) := by
    rw [Nat.pow_succ]
    omega
  have hshift : (v <<< 1).toNat = v.toNat <<< 1 := by
    refine (Bits.toNat_shiftLeft_ofNat v (by decide)).trans (Nat.mod_eq_of_lt ?_)
    rw [Nat.shiftLeft_eq, Nat.pow_one]
    omega
  refine ⟨?_, hnext⟩
  rw [UInt64.toNat_or, hbit, hshift, ← Nat.shiftLeft_add_eq_or_of_lt hb, Nat.shiftLeft_eq]
  omega

lemma mirrors_bitsOnto (n : Nat) {k : Nat} (h : k + n ≤ 64) {v : UInt64} {a : Nat}
    (hv : Denotes k v a) :
    Mirrors (Denotes (k + n)) (bitsOnto n v) (BitParser.bitsOnto n a) := by
  induction n generalizing k v a with
  | zero => exact mirrors_pure hv
  | succ n ih =>
    refine mirrors_bit.bind fun b c hbc => ?_
    subst hbc
    have hrest := ih (k := k + 1) (by omega) (hv.shiftLeft_or (by omega) b)
    rwa [Nat.add_assoc, Nat.add_comm 1 n] at hrest

lemma mirrors_bits {n : Nat} (h : n ≤ 64) : Mirrors (Denotes n) (bits n) (BitParser.bits n) := by
  simpa [bits, BitParser.bits] using
    mirrors_bitsOnto n (k := 0) (by omega) (v := 0) (a := 0) ⟨rfl, by decide⟩

/-! ### Numbers of variable length -/

lemma and_eq_zero_iff_of_lt {b : UInt64} (h : b.toNat < 2 ^ 8) :
    b &&& 0x80 = 0 ↔ b.toNat < 128 := by
  have hbits : ∀ n < 2 ^ 8, (n &&& 128 = 0 ↔ n < 128) := by decide +kernel
  rw [← UInt64.toNat_inj, UInt64.toNat_and]
  exact hbits _ h

/-- A group that is shifted to its place is added there. -/
lemma toNat_or_shiftLeft {v b : UInt64} {shift : Nat} (hv : v.toNat < 2 ^ shift)
    (hshift : shift < 64) :
    (v ||| (b &&& 0x7F) <<< UInt64.ofNat shift).toNat
      = (v.toNat + (b.toNat % 128) <<< shift) % 2 ^ 64 := by
  have hlow : (b &&& 0x7F).toNat = b.toNat % 128 := by
    rw [UInt64.toNat_and]
    exact Nat.and_two_pow_sub_one_eq_mod b.toNat 7
  rw [UInt64.toNat_or, Bits.toNat_shiftLeft_ofNat _ hshift, hlow, Nat.add_comm,
    Nat.shiftLeft_add_eq_or_of_lt hv, Nat.or_mod_two_pow, Nat.mod_eq_of_lt v.toNat_lt,
    Nat.or_comm]

/-- As long as groups are left, the next one has a place in the word. -/
lemma mirrors_groups (left : Nat) {shift : Nat} (hleft : shift + 7 * left = 70) {v : UInt64}
    {a : Nat} (hv : Denotes shift v a) :
    Mirrors (Denotes 64) (groups shift v) (BitParser.groups left shift a) := by
  induction left generalizing shift v a with
  | zero =>
    rw [groups]
    refine (mirrors_bits (by decide)).bind fun b c _ => ?_
    rw [if_pos (by omega)]
    exact mirrors_throw .longNumber
  | succ left ih =>
    obtain ⟨rfl, hlt⟩ := hv
    rw [groups]
    refine (mirrors_bits (by decide)).bind fun b c hbc => ?_
    obtain ⟨rfl, hb⟩ := hbc
    have hshift : shift < 64 := by omega
    rw [if_neg (by omega)]
    refine mirrors_guarded hshift ?_
    have hvalue := toNat_or_shiftLeft (b := b) hlt hshift
    simp only [and_eq_zero_iff_of_lt hb]
    split
    · exact mirrors_pure ⟨hvalue, Nat.mod_lt _ (by decide)⟩
    · refine ih (by omega) ⟨hvalue, (Nat.mod_le _ _).trans_lt ?_⟩
      have hgroup : (b.toNat % 128) <<< shift ≤ 127 * 2 ^ shift := by
        rw [Nat.shiftLeft_eq]
        exact Nat.mul_le_mul_right _ (by omega)
      rw [Nat.pow_add]
      omega

lemma mirrors_varint : Mirrors (Denotes 64) varint BitParser.varint :=
  mirrors_groups 10 rfl ⟨rfl, by decide⟩

lemma toInt64_eq_ofInt (v : UInt64) : v.toInt64 = Int64.ofInt v.toNat := by
  rw [Int64.ofInt_eq_ofNat, ← UInt64.toInt64_ofNat', UInt64.ofNat_toNat]

/-- The sign in the lowest bit turns the other bits around. -/
lemma shiftRight_xor_neg (raw : UInt64) :
    (raw >>> 1).toInt64 ^^^ -(raw &&& 1).toInt64 = Int64.ofInt (Varint.unfold raw.toNat) := by
  have hhalf : (raw >>> 1).toNat = raw.toNat / 2 := by
    rw [UInt64.toNat_shiftRight]
    exact Nat.shiftRight_eq_div_pow _ 1
  have hsign : (raw &&& 1).toNat = raw.toNat % 2 := by
    rw [UInt64.toNat_and]
    exact Nat.and_one_is_mod _
  rw [toInt64_eq_ofInt, toInt64_eq_ofInt, hhalf, hsign, Varint.unfold]
  rcases Nat.mod_two_eq_zero_or_one raw.toNat with heven | hodd
  · rw [heven, if_pos rfl]
    exact Int64.xor_zero
  · have hplace : (raw.toNat + 1) / 2 = raw.toNat / 2 + 1 := by omega
    rw [hodd, if_neg Nat.one_ne_zero, hplace]
    calc _ = ~~~Int64.ofInt (raw.toNat / 2 : Nat) := Int64.xor_neg_one
      _ = Int64.ofInt (-(raw.toNat / 2 : Nat) - 1) := by
        rw [Int64.not_eq_neg_sub, Int64.ofInt_sub, Int64.ofInt_neg]
        rfl
      _ = Int64.ofInt (-(raw.toNat / 2 + 1 : Nat)) := by
        push_cast
        congr 1
        ring

lemma mirrors_signedVarint :
    Mirrors (fun b a => b = Int64.ofInt a) signedVarint BitParser.signedVarint := by
  refine mirrors_varint.bind fun b a hba => mirrors_pure ?_
  rw [← hba.1]
  exact shiftRight_xor_neg b

/-! ### Intervals -/

/-- The byte that marker bits are shifted into, by the number of ones in front of the first zero. -/
def markerByte : Nat → UInt8 → Nat → UInt8
  | 0, m, _ => m
  | _ + 1, m, 0 => m <<< 1
  | n + 1, m, k + 1 => markerByte n (m <<< 1 ||| 1) k

lemma mirrors_marker (n : Nat) (m : UInt8) :
    Mirrors (fun b k => k ≤ n ∧ b = markerByte n m k) (marker n m) (Interval.marker n) := by
  induction n generalizing m with
  | zero => exact mirrors_pure ⟨Nat.le_refl _, rfl⟩
  | succ n ih =>
    refine mirrors_bit.bind fun b c hbc => ?_
    subst hbc
    cases b with
    | false => exact mirrors_pure ⟨Nat.zero_le _, rfl⟩
    | true =>
      rw [if_pos rfl, if_pos rfl, ← bind_pure (marker n _)]
      exact (ih _).bind fun b k h => mirrors_pure ⟨Nat.succ_le_succ h.1, h.2⟩

lemma toNat_one_shiftLeft {n : Nat} (h : n < 64) :
    ((1 : UInt64) <<< UInt64.ofNat n).toNat = 1 <<< n := by
  refine (Bits.toNat_shiftLeft_ofNat 1 h).trans (Nat.mod_eq_of_lt ?_)
  rw [UInt64.toNat_one, Nat.one_shiftLeft]
  exact Nat.pow_lt_pow_right (by decide) h

lemma mirrors_bucket {n : Nat} (h : n < 64) :
    Mirrors Eq (bucket n) (do let code ← BitParser.bits n; pure (Interval.ofCode n code)) := by
  refine (mirrors_bits h.le).bind fun b code hcode => ?_
  obtain ⟨rfl, -⟩ := hcode
  rw [if_neg (by omega)]
  refine mirrors_guarded (by omega) ?_
  simp only [UInt64.lt_iff_toNat_lt, toNat_one_shiftLeft (n := n - 1) (by omega), Interval.ofCode]
  split
  · refine mirrors_guarded h (mirrors_pure ?_)
    rw [toInt64_eq_ofInt, toInt64_eq_ofInt, toNat_one_shiftLeft h, Int64.ofInt_sub]
  · exact mirrors_pure (toInt64_eq_ofInt b)

lemma mirrors_bucket_word :
    Mirrors Eq (bucket 64) (do let code ← BitParser.bits 64; pure (Int64.ofInt code)) := by
  refine (mirrors_bits (Nat.le_refl _)).bind fun b code hcode => mirrors_pure ?_
  rw [← hcode.1]
  exact toInt64_eq_ofInt b

lemma mirrors_interval : Mirrors Eq interval Interval.decode := by
  refine (mirrors_marker 4 0).bind fun b k h => ?_
  obtain ⟨hk, rfl⟩ := h
  match k, hk with
  | 0, _ => exact mirrors_pure rfl
  | 1, _ => exact mirrors_bucket (n := 14) (by decide)
  | 2, _ => exact mirrors_bucket (n := 17) (by decide)
  | 3, _ => exact mirrors_bucket (n := 20) (by decide)
  | 4, _ => exact mirrors_bucket_word

/-! ### Windows -/

/-- Two bytes hold the bounds of a window, one that could have been stored. -/
structure Frames (leading trailing : UInt8) (w : Window) : Prop where
  leading : w.leading = leading.toNat
  trailing : w.trailing = trailing.toNat
  valid : w.Valid

lemma toNat_toUInt8 {n : Nat} (h : n ≤ 8) {v : UInt64} {a : Nat} (hv : Denotes n v a) :
    v.toUInt8.toNat = a := by
  have hbyte : 2 ^ n ≤ 2 ^ 8 := Nat.pow_le_pow_right (by decide) h
  rw [UInt64.toNat_toUInt8, hv.1]
  exact Nat.mod_eq_of_lt (by have := hv.2; omega)

lemma toNat_add_of_lt {a b : UInt8} (h : a.toNat + b.toNat < 256) :
    (a + b).toNat = a.toNat + b.toNat := by
  rw [UInt8.toNat_add]
  exact Nat.mod_eq_of_lt h

lemma toNat_sub_of_not_lt {total : UInt8} (h : ¬64 < total.toNat) :
    (64 - total).toNat = 64 - total.toNat :=
  UInt8.toNat_sub_of_le _ _ (UInt8.le_iff_toNat_le.mpr (Nat.not_lt.mp h))

lemma mirrors_window {leading trailing : UInt8} {w : Window} (h : Frames leading trailing w)
    (new : Bool) :
    Mirrors (fun b w => Frames b.1 b.2 w) (window leading trailing new)
      (if new then Window.read else pure w) := by
  cases new with
  | false => exact mirrors_pure h
  | true =>
    refine (mirrors_bits (by decide)).bind fun b l hl => ?_
    refine (mirrors_bits (by decide)).bind fun code c hc => ?_
    dsimp only
    have hlead := toNat_toUInt8 (by decide) hl
    have hcode := toNat_toUInt8 (by decide) hc
    -- a size of 64 is written as 0
    have hsize : (if code.toUInt8 = 0 then 64 else code.toUInt8).toNat
        = if c = 0 then 64 else c := by
      rw [apply_ite UInt8.toNat, hcode]
      simp only [← UInt8.toNat_inj, hcode]
      rfl
    generalize (if code.toUInt8 = 0 then 64 else code.toUInt8) = significant at hsize ⊢
    have hpos : 0 < significant.toNat ∧ significant.toNat ≤ 64 := by
      rw [hsize]
      have := hc.2
      split <;> omega
    rw [← hsize, ← hlead]
    -- the sum of both parts fits into a byte
    have hrange : b.toUInt8.toNat + significant.toNat < 256 := by
      have := hl.2
      omega
    refine mirrors_guarded hrange ?_
    have htotal := toNat_add_of_lt hrange
    simp only [UInt8.lt_iff_toNat_lt, htotal]
    change Mirrors _ (if 64 < _ then _ else _) _
    split
    · exact mirrors_throw _
    · rename_i hfits
      refine mirrors_pure ⟨rfl, ?_, ?_⟩
      · rw [toNat_sub_of_not_lt (by omega), htotal]
      · have := hl.2
        simp only [Window.Valid]
        omega

/-- What a value parser on words gives, next to what the parser on numbers gives. -/
structure ValuesAgree (v : UInt64 × UInt8 × UInt8) (u : UInt64 × Option Window) : Prop where
  change : v.1 = u.1
  frames : Frames v.2.1 v.2.2 (u.2.getD Window.whole)

lemma ofNat_shiftLeft {v : UInt64} {n : Nat} (h : n < 64) :
    v <<< UInt64.ofNat n = UInt64.ofNat (v.toNat <<< n) := by
  rw [← UInt64.toNat_inj, Bits.toNat_shiftLeft_ofNat v h, UInt64.toNat_ofNat']

/-- The bits inside a window that could have been stored are shifted to a place in the word. -/
lemma mirrors_inside {leading trailing : UInt8} {w : Window} (h : Frames leading trailing w) :
    Mirrors ValuesAgree (inside leading trailing) (do
      if 64 < w.leading + w.trailing then throw .badWindow
      let code ← BitParser.bits w.size
      pure (UInt64.ofNat (code <<< w.trailing), some w)) := by
  have hvalid := h.valid.2
  have hwide : ¬64 < w.leading + w.trailing := by omega
  have hrange : leading.toNat + trailing.toNat < 256 := by
    rw [← h.leading, ← h.trailing]
    omega
  have htotal : (leading + trailing).toNat = w.leading + w.trailing := by
    rw [toNat_add_of_lt hrange, h.leading, h.trailing]
  have hsize : (64 - (leading + trailing)).toNat = w.size := by
    rw [toNat_sub_of_not_lt (by omega), htotal, Window.size, Nat.sub_sub]
  simp only [hwide, if_false]
  refine mirrors_guarded hrange ?_
  rw [if_neg (by rw [UInt8.lt_iff_toNat_lt, htotal]; exact hwide), hsize]
  refine (mirrors_bits (by rw [Window.size]; omega)).bind fun b code hcode => ?_
  obtain ⟨rfl, -⟩ := hcode
  have htrailing : trailing.toNat < 64 := by
    rw [← h.trailing]
    omega
  refine mirrors_guarded htrailing (mirrors_pure ⟨?_, h⟩)
  rw [ofNat_shiftLeft htrailing, h.trailing]

lemma mirrors_value {leading trailing : UInt8} {current : Option Window}
    (h : Frames leading trailing (current.getD Window.whole)) :
    Mirrors ValuesAgree (value leading trailing) (Window.decode current) := by
  refine mirrors_bit.bind fun b c hbc => ?_
  subst hbc
  cases b with
  | false => exact mirrors_pure ⟨rfl, h⟩
  | true =>
    rw [if_pos rfl, if_pos rfl]
    refine mirrors_bit.bind fun new c hbc => ?_
    subst hbc
    have hrest := (mirrors_window h new).bind fun _ _ hv => mirrors_inside hv
    cases new <;> exact hrest

end WordParser

open WordParser

namespace WordState

/-- Words stand for what is known after some samples. -/
structure Agrees (w : WordState) (s : StreamState) : Prop where
  count : w.count.toNat = s.count
  time : w.time = s.last.time
  value : w.value = s.last.value
  interval : w.interval = s.interval
  frames : Frames w.leading w.trailing (s.window.getD Window.whole)

lemma agrees_init : Agrees {} {} where
  count := rfl
  time := rfl
  value := rfl
  interval := rfl
  frames := ⟨rfl, rfl, Window.valid_whole⟩

/-- Below the largest count the next count is a word. -/
lemma mirrors_count {α β : Type} {R : β → α → Prop} {w : WordState} {s : StreamState}
    {g : UInt16 → WordParser β} {p : BitParser α} (h : w.count.toNat = s.count)
    (hroom : s.count < 65535) (hg : ∀ count, count.toNat = s.count + 1 → Mirrors R (g count) p) :
    Mirrors R (add16 w.count 1 >>= g) p := by
  have hrange : w.count.toNat + (1 : UInt16).toNat < 65536 := by
    rw [h]
    exact Nat.succ_lt_succ hroom
  refine mirrors_guarded hrange (hg _ ?_)
  rw [UInt16.toNat_add, Nat.mod_eq_of_lt hrange, h]
  rfl

lemma mirrors_later {w : WordState} {s : StreamState} (h : w.Agrees s) (hroom : s.count < 65535)
    (interval : Int64) :
    Mirrors Agrees (w.later interval) (do
      let (change, window) ← Window.decode s.window
      pure (StreamState.mk (s.count + 1)
        ⟨s.last.time + interval, s.last.value ^^^ change⟩ interval window)) := by
  refine (mirrors_value h.frames).bind fun v u hv => ?_
  refine mirrors_count h.count hroom fun count hcount =>
    mirrors_pure ⟨hcount, ?_, ?_, rfl, hv.frames⟩
  · rw [h.time]
  · rw [h.value, hv.change]

/-- As long as the number of samples is a word, the next sample is the same for both decoders. -/
lemma mirrors_decode {w : WordState} {s : StreamState} (h : w.Agrees s) (hroom : s.count < 65535) :
    Mirrors Agrees w.decode s.decode := by
  have hzero : w.count = 0 ↔ s.count = 0 := by
    rw [← UInt16.toNat_inj, h.count]
    rfl
  have hone : w.count = 1 ↔ s.count = 1 := by
    rw [← UInt16.toNat_inj, h.count]
    rfl
  rw [decode]
  simp only [hzero, hone]
  obtain ⟨count, last, interval, window⟩ := s
  match count with
  | 0 =>
    refine mirrors_signedVarint.bind fun time t ht => ?_
    refine (mirrors_bits (Nat.le_refl 64)).bind fun value v hv => ?_
    refine mirrors_count h.count hroom fun count hcount =>
      mirrors_pure ⟨hcount, ht, ?_, h.interval, h.frames⟩
    exact hv.1 ▸ UInt64.ofNat_toNat.symm
  | 1 =>
    refine mirrors_varint.bind fun interval n hn => ?_
    obtain ⟨rfl, -⟩ := hn
    rw [UInt64.ofNat_toNat]
    exact mirrors_later h hroom _
  | n + 2 =>
    refine mirrors_interval.bind fun change c hc => ?_
    subst hc
    rw [h.interval]
    exact mirrors_later h hroom _

end WordState

namespace WordCursor

/-- A cursor in words stands where a cursor on numbers stands. -/
structure Agrees (w : WordCursor) (c : Cursor) : Prop where
  damage : w.damage = c.damage
  state : c.damage = none → w.state.Agrees c.state
  reader : c.damage = none → w.reader.At c.reader
  left : c.damage = none → c.left + c.state.count = w.total.toNat

lemma toNat_header (hi lo : UInt8) :
    (hi.toUInt16 <<< 8 ||| lo.toUInt16).toNat = hi.toNat * 256 + lo.toNat := by
  have hshift : (hi.toUInt16 <<< 8).toNat = hi.toNat <<< 8 := by
    rw [UInt16.toNat_shiftLeft, UInt8.toNat_toUInt16]
    refine Nat.mod_eq_of_lt ?_
    change hi.toNat <<< 8 < 65536
    rw [Nat.shiftLeft_eq]
    have := hi.toNat_lt
    omega
  rw [UInt16.toNat_or, hshift, UInt8.toNat_toUInt16,
    ← Nat.shiftLeft_add_eq_or_of_lt (b := lo.toNat) lo.toNat_lt, Nat.shiftLeft_eq]

lemma agrees_ofPayload (bs : Bytes) : Agrees (ofPayload bs) (Cursor.ofPayload bs) := by
  match bs with
  | [] | [_] => exact ⟨rfl, nofun, nofun, nofun⟩
  | hi :: lo :: rest =>
    refine ⟨by simp [ofPayload, Cursor.ofPayload], fun _ => WordState.agrees_init,
      fun _ => ⟨rfl, ?_⟩, fun _ => ?_⟩
    · change (BitReader.ofBytes (hi :: lo :: rest) 2).toBits
        = (Bits.ofBytes (hi :: lo :: rest)).drop 16
      rw [BitReader.toBits_ofBytes, Bits.ofBytes_cons, Bits.ofBytes_cons, ← List.append_assoc,
        List.drop_left' (by simp)]
      rfl
    · rw [ofPayload, toNat_header]
      exact Nat.add_zero _

/-- Every step of a cursor in words has a result, and this is the step of the cursor on numbers. -/
lemma next_agrees {w : WordCursor} {c : Cursor} (h : w.Agrees c) :
    ∃ w', w.next = some (c.next.1, w') ∧ w'.Agrees c.next.2 := by
  by_cases hd : c.damage = none
  · have htotal := h.left hd
    have hcount := (h.state hd).count
    cases hleft : c.left with
    | zero =>
      -- no sample is left
      have hend : w.total ≤ w.state.count := by
        rw [UInt16.le_iff_toNat_le]
        omega
      exact ⟨w, by rw [Cursor.next_of_left_eq_zero hleft]; exact if_pos (.inr hend),
        by rwa [Cursor.next_of_left_eq_zero hleft]⟩
    | succ n =>
      -- another sample is announced, and both decoders try it
      have hgoing : ¬(w.damage.isSome = true ∨ w.total ≤ w.state.count) := by
        rw [h.damage, hd, UInt16.le_iff_toNat_le]
        simp
        omega
      have hroom : c.state.count < 65535 := by
        have := w.total.toNat_lt
        omega
      have hmirrors := WordState.mirrors_decode (h.state hd) hroom
      rw [next, if_neg hgoing]
      cases hdecode : c.state.decode c.reader with
      | ok v =>
        obtain ⟨s, r⟩ := v
        obtain ⟨state, reader, hword, hat, hstate⟩ := hmirrors.ok (h.reader hd) hdecode
        have hwindow := Window.inUse_iff_valid_getD.mpr (h.state hd).frames.valid
        have hnumber := ((StreamState.reads_decode hwindow).takes hdecode).1.1
        have hlast : (⟨state.time, state.value⟩ : Sample) = s.last := by
          rw [hstate.time, hstate.value]
        rw [Cursor.next_of_ok hd hleft hdecode, hword, ← hlast]
        refine ⟨_, rfl, h.damage.trans hd, fun _ => hstate, fun _ => hat, fun _ => ?_⟩
        dsimp only
        omega
      | error d =>
        rw [Cursor.next_of_error hd hleft hdecode, hmirrors.error (h.reader hd) hdecode]
        exact ⟨_, rfl, rfl, nofun, nofun, nofun⟩
  · obtain ⟨d, hd⟩ := Option.ne_none_iff_exists'.mp hd
    rw [Cursor.next_of_damage hd]
    exact ⟨w, if_pos (.inl (by rw [h.damage, hd]; rfl)), h⟩

end WordCursor

end SeriesStore
