import Mathlib
import SeriesStore.Bits.Basic

/-!
# Bit strings as numbers

A bit string of length `n` and a number below `2 ^ n` are the same thing, and so are a byte and a
bit string of length eight.
-/

namespace SeriesStore.Bits

/-! ### The number of a bit string -/

lemma foldl_eq_mul_add (v : Nat) (bs : Bits) :
    bs.foldl (fun v b => 2 * v + b.toNat) v = v * 2 ^ bs.length + toNat bs := by
  induction bs generalizing v with
  | nil => simp [toNat]
  | cons b bs ih =>
    have hcons : toNat (b :: bs) = b.toNat * 2 ^ bs.length + toNat bs := by
      simpa [toNat] using ih b.toNat
    rw [List.foldl_cons, ih, hcons, List.length_cons, Nat.pow_succ, Nat.add_mul]
    ring_nf

@[simp] lemma toNat_nil : toNat [] = 0 := rfl

@[simp] lemma toNat_cons (b : Bool) (bs : Bits) :
    toNat (b :: bs) = b.toNat * 2 ^ bs.length + toNat bs := by
  simpa [toNat] using foldl_eq_mul_add b.toNat bs

lemma toNat_append (as bs : Bits) :
    toNat (as ++ bs) = toNat as * 2 ^ bs.length + toNat bs := by
  rw [toNat, List.foldl_append, foldl_eq_mul_add]
  rfl

lemma toNat_lt (bs : Bits) : toNat bs < 2 ^ bs.length := by
  induction bs with
  | nil => simp
  | cons b bs ih =>
    have hb : b.toNat ≤ 1 := by cases b <;> decide
    have hmul : b.toNat * 2 ^ bs.length ≤ 2 ^ bs.length := by
      simpa using Nat.mul_le_mul_right (2 ^ bs.length) hb
    rw [toNat_cons, List.length_cons, Nat.pow_succ]
    omega

@[simp] lemma toNat_replicate_false (n : Nat) : toNat (List.replicate n false) = 0 := by
  induction n with
  | zero => rfl
  | succ n ih => simp [List.replicate_succ, ih]

lemma toNat_ofNat (n v : Nat) : toNat (ofNat n v) = v % 2 ^ n := by
  induction n with
  | zero => simp [ofNat, Nat.mod_one]
  | succ n ih =>
    rw [ofNat, toNat_cons, length_ofNat, ih, Nat.mod_pow_succ, Nat.toNat_testBit]
    ring_nf

/-! ### The bit string of a number -/

lemma ofNat_congr_testBit {n v w : Nat} (h : ∀ m < n, v.testBit m = w.testBit m) :
    ofNat n v = ofNat n w := by
  induction n with
  | zero => rfl
  | succ n ih => rw [ofNat, ofNat, h n (by omega), ih fun m hm => h m (by omega)]

/-- The `n` low bits of a number only depend on the number modulo `2 ^ n`. -/
lemma ofNat_mod (n v : Nat) : ofNat n (v % 2 ^ n) = ofNat n v := by
  apply ofNat_congr_testBit
  intro m hm
  simp [hm]

lemma ofNat_toNat (bs : Bits) : ofNat bs.length (toNat bs) = bs := by
  induction bs with
  | nil => rfl
  | cons b bs ih =>
    have hlt := toNat_lt bs
    have hbit : (b.toNat * 2 ^ bs.length + toNat bs).testBit bs.length = b := by
      rw [Nat.mul_comm, Nat.testBit_two_pow_mul_add _ hlt]
      cases b <;> simp
    have hlow : ofNat bs.length (b.toNat * 2 ^ bs.length + toNat bs) = bs := by
      rw [← ofNat_mod, Nat.mul_add_mod_self_right, ofNat_mod, ih]
    rw [List.length_cons, ofNat, toNat_cons, hbit, hlow]

/-- The upper bits of a number come first. -/
lemma ofNat_add (m n v : Nat) : ofNat (m + n) v = ofNat m (v / 2 ^ n) ++ ofNat n v := by
  induction m with
  | zero => simp [ofNat]
  | succ m ih =>
    rw [Nat.add_right_comm, ofNat, ofNat, ih, Nat.testBit_div_two_pow]
    rfl

/-! ### Bytes -/

/-- A byte holds the bits that it was made of, followed by zeros. -/
lemma ofByte_toByte (bs : Bits) (h : bs.length ≤ 8) :
    ofByte (toByte bs) = bs ++ List.replicate (8 - bs.length) false := by
  have hlen : (bs ++ List.replicate (8 - bs.length) false).length = 8 := by simp; omega
  have hlt := toNat_lt (bs ++ List.replicate (8 - bs.length) false)
  have hword := ofNat_toNat (bs ++ List.replicate (8 - bs.length) false)
  rw [hlen] at hlt hword
  rw [ofByte, toByte, UInt8.toNat_ofNat', Nat.mod_eq_of_lt hlt, hword]

@[simp] lemma length_ofByte (b : UInt8) : (ofByte b).length = 8 := length_ofNat ..

@[simp] lemma length_ofBytes (bs : Bytes) : (ofBytes bs).length = 8 * bs.length := by
  induction bs with
  | nil => rfl
  | cons b bs ih => simp [ih]; omega

lemma ofByte_eq_cons (b : UInt8) : ∃ x xs, ofByte b = x :: xs :=
  List.exists_cons_of_length_eq_add_one (length_ofByte b)

/-- The bits behind those that a byte starts with are zero. -/
lemma toNat_toByte (bs : Bits) (h : bs.length ≤ 8) :
    (toByte bs).toNat = 2 ^ (8 - bs.length) * toNat bs := by
  have hlt := toNat_lt (bs ++ List.replicate (8 - bs.length) false)
  have hlen : (bs ++ List.replicate (8 - bs.length) false).length = 8 := by simp; omega
  rw [hlen] at hlt
  rw [toByte, UInt8.toNat_ofNat', Nat.mod_eq_of_lt hlt, toNat_append, toNat_replicate_false,
    List.length_replicate, Nat.mul_comm, Nat.add_zero]

/-- The next bit of a byte is set where the byte has only zeros. -/
lemma toByte_concat (bs : Bits) (b : Bool) (h : bs.length < 8) : toByte (bs ++ [b])
    = if b then toByte bs ||| 1 <<< UInt8.ofNat (7 - bs.length) else toByte bs := by
  obtain ⟨k, hk⟩ : ∃ k, bs.length + k = 7 := ⟨7 - bs.length, by omega⟩
  have hnext : (toByte (bs ++ [b])).toNat = 2 ^ (k + 1) * toNat bs + b.toNat * 2 ^ k := by
    have hrest : 8 - (bs ++ [b]).length = k := by
      rw [List.length_append, List.length_singleton]
      omega
    rw [toNat_toByte _ (by rw [List.length_append, List.length_singleton]; omega), hrest,
      toNat_append, toNat_cons, toNat_nil, List.length_singleton, List.length_nil]
    ring
  have hlast : (toByte bs).toNat = 2 ^ (k + 1) * toNat bs := by
    rw [toNat_toByte bs h.le, show 8 - bs.length = k + 1 by omega]
  have hplace : ((1 : UInt8) <<< UInt8.ofNat (7 - bs.length)).toNat = 2 ^ k := by
    rw [show 7 - bs.length = k by omega]
    have hshift : ∀ k < 8, ((1 : UInt8) <<< UInt8.ofNat k).toNat = 2 ^ k := by decide
    exact hshift k (by omega)
  rw [← UInt8.toNat_inj, hnext]
  cases b with
  | false => simp [hlast]
  | true =>
    have hbit : 2 ^ k < 2 ^ (k + 1) := Nat.pow_lt_pow_right (by decide) (Nat.lt_succ_self k)
    rw [if_pos rfl, UInt8.toNat_or, hlast, hplace, ← Nat.two_pow_add_eq_or_of_lt hbit]
    simp

lemma toByte_ofByte (b : UInt8) : toByte (ofByte b) = b := by
  rw [← UInt8.toNat_inj, toNat_toByte _ (by simp), length_ofByte, ofByte, toNat_ofNat]
  simp [Nat.mod_eq_of_lt b.toNat_lt]

/-! ### Single bits -/

lemma getElem?_ofNat {n i : Nat} (v : Nat) (h : i < n) :
    (ofNat n v)[i]? = some (v.testBit (n - 1 - i)) := by
  induction n generalizing i with
  | zero => omega
  | succ n ih =>
    cases i with
    | zero => simp [ofNat]
    | succ i =>
      rw [ofNat, List.getElem?_cons_succ, ih (by omega)]
      congr 2
      omega

/-- A bit stands in the byte whose number is an eighth of its own. -/
lemma getElem?_ofBytes (bs : Bytes) (i : Nat) :
    (ofBytes bs)[i]? = bs[i / 8]?.map fun b => b.toNat.testBit (7 - i % 8) := by
  induction bs generalizing i with
  | nil => simp
  | cons b bs ih =>
    rw [ofBytes_cons]
    rcases lt_or_ge i 8 with hi | hi
    · rw [List.getElem?_append_left (by simpa using hi), ofByte, getElem?_ofNat _ hi,
        Nat.div_eq_of_lt hi, Nat.mod_eq_of_lt hi]
      rfl
    · obtain ⟨j, rfl⟩ : ∃ j, i = j + 8 := ⟨i - 8, by omega⟩
      rw [List.getElem?_append_right (by simp), length_ofByte, Nat.add_sub_cancel, ih,
        Nat.add_div_right _ (by decide), Nat.add_mod_right, List.getElem?_cons_succ]

/-! ### Shifts -/

/-- A shift by a number below 64 is the shift of the number, cut off at the word's end. -/
lemma toNat_shiftLeft_ofNat (v : UInt64) {n : Nat} (h : n < 64) :
    (v <<< UInt64.ofNat n).toNat = v.toNat <<< n % 2 ^ 64 := by
  have hplace : (UInt64.ofNat n).toNat % 64 = n := by
    rw [UInt64.toNat_ofNat']
    omega
  rw [UInt64.toNat_shiftLeft, hplace]

end SeriesStore.Bits
