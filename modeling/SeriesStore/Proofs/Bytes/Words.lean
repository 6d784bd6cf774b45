import Mathlib
import SeriesStore.Bytes

/-!
# Words inside of bytes

A word of fixed width is read back from where it was put, and any bytes of that width are the
written form of a word.
-/

namespace SeriesStore.Bytes

/-! ### Values -/

lemma toNatLE_ofNatLE (n v : Nat) : toNatLE (ofNatLE n v) = v % 256 ^ n := by
  induction n generalizing v with
  | zero => simp [ofNatLE, toNatLE, Nat.mod_one]
  | succ n ih =>
    have hp : 256 ^ (n + 1) = 256 * 256 ^ n := Nat.pow_succ'
    rw [ofNatLE, toNatLE, ih, UInt8.toNat_ofNat', hp, Nat.mod_mul]

lemma toNatLE_ofUInt32 (w : UInt32) : toNatLE (ofUInt32 w) = w.toNat := by
  rw [ofUInt32, toNatLE_ofNatLE]
  exact Nat.mod_eq_of_lt w.toNat_lt

lemma toNatLE_ofUInt64 (w : UInt64) : toNatLE (ofUInt64 w) = w.toNat := by
  rw [ofUInt64, toNatLE_ofNatLE]
  exact Nat.mod_eq_of_lt w.toNat_lt

@[simp] lemma length_ofUInt32 (w : UInt32) : (ofUInt32 w).length = 4 := length_ofNatLE 4 _

@[simp] lemma length_ofUInt64 (w : UInt64) : (ofUInt64 w).length = 8 := length_ofNatLE 8 _

@[simp] lemma length_ofInt64 (t : Int64) : (ofInt64 t).length = 8 := length_ofNatLE 8 _

lemma toNatLE_lt (bs : Bytes) : toNatLE bs < 256 ^ bs.length := by
  induction bs with
  | nil => simp [toNatLE]
  | cons b bs ih =>
    have hb := b.toNat_lt
    rw [toNatLE, List.length_cons, Nat.pow_succ']
    omega

lemma ofNatLE_toNatLE (bs : Bytes) : ofNatLE bs.length (toNatLE bs) = bs := by
  induction bs with
  | nil => rfl
  | cons b bs ih =>
    have hb := b.toNat_lt
    have hlow : UInt8.ofNat (b.toNat + 256 * toNatLE bs) = b := by
      rw [← UInt8.toNat_inj, UInt8.toNat_ofNat']
      omega
    have hhigh : (b.toNat + 256 * toNatLE bs) / 256 = toNatLE bs := by omega
    rw [toNatLE, List.length_cons, ofNatLE, hlow, hhigh, ih]

/-- Four bytes are the written form of a word. -/
lemma exists_eq_ofUInt32 {bs : Bytes} (h : bs.length = 4) : ∃ w, bs = ofUInt32 w := by
  have hlt := toNatLE_lt bs
  refine ⟨UInt32.ofNat (toNatLE bs), ?_⟩
  rw [ofUInt32, UInt32.toNat_ofNat', Nat.mod_eq_of_lt (by simpa [h] using hlt), ← h,
    ofNatLE_toNatLE]

/-! ### Positions -/

lemma slice_of_eq {bs a b c : Bytes} (h : bs = a ++ (b ++ c)) {i n : Nat} (hi : i = a.length)
    (hn : n = b.length) : bs.slice i n = b := by
  subst h hi hn
  simp [slice]

lemma uint32At_of_eq {bs a c : Bytes} {w : UInt32} (h : bs = a ++ (ofUInt32 w ++ c)) {i : Nat}
    (hi : i = a.length) : bs.uint32At i = w := by
  rw [uint32At, slice_of_eq h hi (length_ofUInt32 w).symm, toNatLE_ofUInt32, UInt32.ofNat_toNat]

lemma uint64At_of_eq {bs a c : Bytes} {w : UInt64} (h : bs = a ++ (ofUInt64 w ++ c)) {i : Nat}
    (hi : i = a.length) : bs.uint64At i = w := by
  rw [uint64At, slice_of_eq h hi (length_ofUInt64 w).symm, toNatLE_ofUInt64, UInt64.ofNat_toNat]

lemma int64At_of_eq {bs a c : Bytes} {t : Int64} (h : bs = a ++ (ofInt64 t ++ c)) {i : Nat}
    (hi : i = a.length) : bs.int64At i = t := by
  rw [int64At, uint64At_of_eq h hi]
  rfl

lemma uint16At_of_eq {bs a c : Bytes} {w : UInt16} (h : bs = a ++ (ofNatLE 2 w.toNat ++ c))
    {i : Nat} (hi : i = a.length) : bs.uint16At i = w := by
  have hlt : w.toNat < 256 ^ 2 := w.toNat_lt
  rw [uint16At, slice_of_eq h hi (length_ofNatLE 2 _).symm, toNatLE_ofNatLE,
    Nat.mod_eq_of_lt hlt, UInt16.ofNat_toNat]

end SeriesStore.Bytes
