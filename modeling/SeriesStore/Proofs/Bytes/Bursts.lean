import SeriesStore.Bytes.Crc32
import SeriesStore.Proofs.Bytes.Words

/-!
# Bursts

A burst is damage to a few bytes that stand together. The cyclic redundancy check notices every
burst of up to four bytes, also one that reaches into the stored check.
-/

namespace SeriesStore

/-! ### Damaged byte strings -/

namespace Bytes

variable {n : Nat} {bs bs' x x' y y' z z' : Bytes}

/-- Two byte strings of one length differ at most in `n` bytes that stand together. -/
structure Burst (n : Nat) (bs bs' : Bytes) : Prop where
  length_eq : bs.length = bs'.length
  outside : ∃ start, ∀ i, i < start ∨ start + n ≤ i → bs[i]? = bs'[i]?

/-- What differs lies between what both strings begin with and what both end with. -/
lemma Burst.exists_eq_append (h : Burst n bs bs') : ∃ a u u' c, bs = a ++ (u ++ c)
    ∧ bs' = a ++ (u' ++ c) ∧ u.length = u'.length ∧ u.length ≤ n := by
  obtain ⟨start, hout⟩ := h.outside
  have hfront : bs'.take start = bs.take start := by
    refine List.ext_getElem? fun i => ?_
    rw [List.getElem?_take, List.getElem?_take]
    split_ifs with hi
    · exact (hout i (.inl hi)).symm
    · rfl
  have hback : bs'.drop (start + n) = bs.drop (start + n) := by
    refine List.ext_getElem? fun i => ?_
    rw [List.getElem?_drop, List.getElem?_drop]
    exact (hout _ (.inr (Nat.le_add_right _ _))).symm
  have hsplit (cs : Bytes) :
      cs = cs.take start ++ ((cs.drop start).take n ++ cs.drop (start + n)) := by
    rw [← List.drop_drop, List.take_append_drop, List.take_append_drop]
  refine ⟨bs.take start, (bs.drop start).take n, (bs'.drop start).take n, bs.drop (start + n),
    hsplit bs, ?_, ?_, ?_⟩
  · rw [← hfront, ← hback]
    exact hsplit bs'
  · simp [h.length_eq]
  · simp

/-- Leaving out the same part of both strings brings what differs no farther apart. -/
lemma Burst.skip (h : Burst n (x ++ (y ++ z)) (x' ++ (y' ++ z'))) (hx : x.length = x'.length)
    (hy : y.length = y'.length) : Burst n (x ++ z) (x' ++ z') where
  length_eq := by
    have hlen := h.length_eq
    simp only [List.length_append] at hlen ⊢
    omega
  outside := by
    obtain ⟨start, hout⟩ := h.outside
    have hfront (i) (hi : i < x.length) (hs : i < start ∨ start + n ≤ i) : x[i]? = x'[i]? := by
      have heq := hout i hs
      rwa [List.getElem?_append_left hi, List.getElem?_append_left (hx ▸ hi)] at heq
    have hback (i) (hs : x.length + y.length + i < start ∨ start + n ≤ x.length + y.length + i) :
        z[i]? = z'[i]? := by
      have heq := hout _ hs
      rw [List.getElem?_append_right (by omega), List.getElem?_append_right (by omega),
        List.getElem?_append_right (by omega), List.getElem?_append_right (by omega)] at heq
      simpa [← hx, ← hy, Nat.sub_sub, Nat.add_assoc] using heq
    refine ⟨if start ≤ x.length then start else max x.length (start - y.length), fun i hi => ?_⟩
    by_cases hix : i < x.length
    · rw [List.getElem?_append_left hix, List.getElem?_append_left (hx ▸ hix)]
      exact hfront i hix (by split_ifs at hi <;> omega)
    · rw [List.getElem?_append_right (by omega), List.getElem?_append_right (by omega), ← hx]
      exact hback _ (by split_ifs at hi <;> omega)

lemma Burst.front (h : Burst n (x ++ y) (x' ++ y')) (hx : x.length = x'.length) :
    Burst n x x' := by
  have hy : y.length = y'.length := by
    have hlen := h.length_eq
    simp only [List.length_append] at hlen
    omega
  have hskip : Burst n (x ++ []) (x' ++ []) := Burst.skip (by simpa using h) hx hy
  simpa using hskip

lemma Burst.back (h : Burst n (x ++ y) (x' ++ y')) (hx : x.length = x'.length) : Burst n y y' :=
  (show Burst n ([] ++ (x ++ y)) ([] ++ (x' ++ y')) from h).skip rfl hx

end Bytes

/-! ### Detection -/

namespace Crc32

open Bytes

lemma toNat_shift (r : UInt32) :
    (shift r).toNat = r.toNat / 2 ^^^ if r.toNat % 2 = 1 then polynomial.toNat else 0 := by
  have hlow : r &&& 1 = 1 ↔ r.toNat % 2 = 1 := by
    rw [← UInt32.toNat_inj, UInt32.toNat_and]
    simp [Nat.and_one_is_mod]
  have hhalf : (r >>> 1).toNat = r.toNat / 2 := by
    simp [UInt32.toNat_shiftRight, Nat.shiftRight_eq_div_pow]
  rw [shift]
  split_ifs <;> simp_all

/-- The bit that is shifted out comes back as the highest bit. -/
lemma testBit_shift (r : UInt32) : (shift r).toNat.testBit 31 = decide (r.toNat % 2 = 1) := by
  have hhalf : (r.toNat / 2).testBit 31 = false :=
    Nat.testBit_lt_two_pow (by have := r.toNat_lt; omega)
  have hpolynomial : polynomial.toNat.testBit 31 = true := by decide
  rw [toNat_shift, Nat.testBit_xor, hhalf]
  split_ifs with hodd <;> simp [hodd, hpolynomial]

lemma shift_injective : Function.Injective shift := by
  intro r s h
  have hodd : r.toNat % 2 = 1 ↔ s.toNat % 2 = 1 := by
    simpa [testBit_shift] using congrArg (fun w : UInt32 => w.toNat.testBit 31) h
  have hhalf : r.toNat / 2 = s.toNat / 2 := by
    have hnat := congrArg UInt32.toNat h
    simp only [toNat_shift, hodd] at hnat
    exact Nat.xor_left_inj.mp hnat
  rw [← UInt32.toNat_inj]
  omega

/-- A bit pattern whose lowest bit is clear only moves down. -/
lemma shift_xor_even {v : Nat} (r : UInt32) (h : 2 * v < 2 ^ 32) :
    shift (r ^^^ UInt32.ofNat (2 * v)) = shift r ^^^ UInt32.ofNat v := by
  have hdouble : (UInt32.ofNat (2 * v)).toNat = 2 * v := by
    rw [UInt32.toNat_ofNat', Nat.mod_eq_of_lt h]
  have hword : (UInt32.ofNat v).toNat = v := by
    rw [UInt32.toNat_ofNat', Nat.mod_eq_of_lt (by omega)]
  have hodd : (r.toNat ^^^ 2 * v) % 2 = r.toNat % 2 := by
    rw [Nat.xor_mod_two_eq]
    omega
  have hhalf : (r.toNat ^^^ 2 * v) / 2 = r.toNat / 2 ^^^ v := by
    rw [Nat.xor_div_two, Nat.mul_div_cancel_left v (by decide)]
  rw [← UInt32.toNat_inj, UInt32.toNat_xor, toNat_shift, toNat_shift, UInt32.toNat_xor, hdouble,
    hword, hodd, hhalf, Nat.xor_right_comm]

/-- Bits that are not shifted out yet only move down. -/
lemma iterate_shift_xor (k v : Nat) (r : UInt32) (h : 2 ^ k * v < 2 ^ 32) :
    shift^[k] (r ^^^ UInt32.ofNat (2 ^ k * v)) = shift^[k] r ^^^ UInt32.ofNat v := by
  induction k generalizing r with
  | zero => simp
  | succ k ih =>
    have hpow : 2 ^ (k + 1) * v = 2 * (2 ^ k * v) := by ring
    rw [Function.iterate_succ_apply, Function.iterate_succ_apply, hpow,
      shift_xor_even r (hpow ▸ h), ih]
    omega

lemma ofNat_add_mul (b : UInt8) (v : Nat) :
    UInt32.ofNat (b.toNat + 256 * v) = b.toUInt32 ^^^ UInt32.ofNat (2 ^ 8 * v) := by
  have hb : b.toNat < 2 ^ 8 := b.toNat_lt
  have hxor : b.toNat + 256 * v = b.toNat ^^^ 2 ^ 8 * v := by
    refine Nat.eq_of_testBit_eq fun i => ?_
    have hadd := Nat.testBit_two_pow_mul_add v hb i
    rw [Nat.add_comm] at hadd
    rw [Nat.testBit_xor, Nat.testBit_two_pow_mul]
    refine hadd.trans ?_
    split_ifs with hi
    · simp [Nat.not_le.mpr hi]
    · have hzero : b.toNat.testBit i = false := Nat.testBit_lt_two_pow
        (hb.trans_le (Nat.pow_le_pow_right (by decide) (Nat.not_lt.mp hi)))
      simp [hzero, Nat.not_lt.mp hi]
  rw [hxor, UInt32.ofNat_xor]
  simp

/-- Up to four bytes enter the register as one word. -/
lemma foldl_absorb (r : UInt32) {bs : Bytes} (h : bs.length ≤ 4) :
    bs.foldl absorb r = shift^[8 * bs.length] (r ^^^ UInt32.ofNat (toNatLE bs)) := by
  induction bs generalizing r with
  | nil => simp [toNatLE]
  | cons b bs ih =>
    rw [List.length_cons] at h
    have hlt := toNatLE_lt bs
    have hpow : 256 ^ bs.length ≤ 256 ^ 3 := Nat.pow_le_pow_right (by decide) (by omega)
    have habsorb : absorb r b = shift^[8] (r ^^^ b.toUInt32) := rfl
    rw [List.foldl_cons, ih _ (by omega), habsorb, ← iterate_shift_xor 8 _ _ (by omega),
      ← Function.iterate_add_apply, toNatLE, ofNat_add_mul, UInt32.xor_assoc, List.length_cons,
      Nat.mul_succ]

lemma absorb_injective (b : UInt8) : Function.Injective (absorb · b) := fun _ _ h =>
  (UInt32.xor_left_inj _).mp (shift_injective.iterate 8 h)

lemma foldl_absorb_injective (bs : Bytes) : Function.Injective (bs.foldl absorb) := by
  induction bs with
  | nil => exact Function.injective_id
  | cons b bs ih => exact ih.comp (absorb_injective b)

/-- Different short strings lead from one register to different ones. -/
lemma eq_of_foldl_absorb_eq {r : UInt32} {u u' : Bytes} (hlen : u.length = u'.length)
    (hshort : u.length ≤ 4) (h : u.foldl absorb r = u'.foldl absorb r) : u = u' := by
  have hlt := toNatLE_lt u
  have hlt' := toNatLE_lt u'
  have hpow : 256 ^ u.length ≤ 256 ^ 4 := Nat.pow_le_pow_right (by decide) hshort
  rw [foldl_absorb r hshort, foldl_absorb r (hlen ▸ hshort), ← hlen] at h
  have hword := congrArg UInt32.toNat ((UInt32.xor_right_inj r).mp (shift_injective.iterate _ h))
  rw [UInt32.toNat_ofNat', UInt32.toNat_ofNat', Nat.mod_eq_of_lt (by omega),
    Nat.mod_eq_of_lt (by rw [← hlen] at hlt'; omega)] at hword
  rw [← ofNatLE_toNatLE u, ← ofNatLE_toNatLE u', hlen, hword]

/-- Behind a string and its check, the register does not depend on the string. -/
lemma foldl_absorb_checksum (bs : Bytes) :
    (bs ++ ofUInt32 (checksum bs)).foldl absorb 0xFFFFFFFF = shift^[32] 0xFFFFFFFF := by
  rw [List.foldl_append, foldl_absorb _ (by simp), toNatLE_ofUInt32, UInt32.ofNat_toNat,
    length_ofUInt32, checksum, ← UInt32.xor_assoc, UInt32.xor_self, UInt32.zero_xor]

/-- A string with its check behind it is no burst of up to four bytes away from another one. -/
theorem eq_of_burst {bs bs' : Bytes}
    (h : Burst 4 (bs ++ ofUInt32 (checksum bs)) (bs' ++ ofUInt32 (checksum bs'))) : bs = bs' := by
  obtain ⟨a, u, u', c, heq, heq', hlen, hshort⟩ := h.exists_eq_append
  have hregister := (foldl_absorb_checksum bs).trans (foldl_absorb_checksum bs').symm
  rw [heq, heq'] at hregister
  simp only [List.foldl_append] at hregister
  -- the register in front of `c` is the one behind it, taken back
  obtain rfl := eq_of_foldl_absorb_eq hlen hshort (foldl_absorb_injective c hregister)
  exact List.append_inj_left' (heq.trans heq'.symm) (by simp)

end Crc32

end SeriesStore
