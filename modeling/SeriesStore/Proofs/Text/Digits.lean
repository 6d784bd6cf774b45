import Mathlib
import SeriesStore.Bytes
import SeriesStore.Text.Decimal
import SeriesStore.Text.Hex

/-!
# Written numbers

Decimal and hexadecimal digits, and the bytes of a text, denote what they were made of.
-/

namespace SeriesStore

/-! ### UTF-8 -/

private lemma toList_loop (bs : ByteArray) (i : Nat) (seen : List UInt8) :
    ByteArray.toList.loop bs i seen = seen.reverse ++ bs.data.toList.drop i := by
  rw [ByteArray.toList.loop]
  split_ifs with hi
  · have hlen : i < bs.data.toList.length := hi
    have hget : bs.get! i = bs.data.toList[i] := by
      simp [ByteArray.get!, getElem!_pos bs.data i hi]
    rw [toList_loop, List.drop_eq_getElem_cons hlen, hget]
    simp
  · have hlen : bs.data.toList.length ≤ i := not_lt.mp hi
    rw [List.drop_of_length_le hlen, List.append_nil]
termination_by bs.size - i

lemma Bytes.toText?_ofText (s : String) : (Bytes.ofText s).toText? = some s := by
  have hbytes : (⟨(Bytes.ofText s).toArray⟩ : ByteArray) = s.toByteArray := by
    have hlist : Bytes.ofText s = s.toByteArray.data.toList := toList_loop s.toByteArray 0 []
    rw [hlist]
  rw [Bytes.toText?, hbytes, String.fromUTF8?, dif_pos s.isValidUTF8]
  rfl

/-- The bytes of a text are the encoded characters, one behind the other. -/
lemma Bytes.eq_flatMap_of_toText? {bs : Bytes} {s : String} (h : bs.toText? = some s) :
    bs = s.toList.flatMap String.utf8EncodeChar := by
  rw [toText?, String.fromUTF8?] at h
  split at h
  · have hbytes : s.toByteArray = ⟨bs.toArray⟩ := by
      rw [← Option.some.inj h]
      rfl
    have hchars : s.toByteArray = (s.toList.flatMap String.utf8EncodeChar).toByteArray := by
      rw [← String.ofList_toList (s := s), String.toByteArray_ofList, String.toList_ofList]
      rfl
    have hdata := congrArg (fun b : ByteArray => b.data.toList) (hbytes.symm.trans hchars)
    simpa using hdata
  · cases h

/-- The byte of a letter begins the form of no other character. -/
lemma Bytes.eq_of_utf8EncodeChar {c : Char} {bs : Bytes}
    (h : String.utf8EncodeChar c = 0x54 :: bs) : c = 'T' := by
  simp only [String.utf8EncodeChar] at h
  split_ifs at h with hone htwo hthree
  · have hbyte := congrArg UInt8.toNat (List.cons.inj h).1
    rw [UInt8.toNat_ofNat', Nat.mod_eq_of_lt (by omega)] at hbyte
    exact Char.ext (UInt32.toNat_inj.mp hbyte)
  all_goals
    have hbyte := congrArg UInt8.toNat (List.cons.inj h).1
    simp only [UInt8.toNat_ofNat', UInt8.reduceToNat] at hbyte
    omega

namespace Text

/-! ### Decimal digits -/

lemma digitsValue_toDigits (n : Nat) : digitsValue (Nat.toDigits 10 n) = n :=
  Nat.ofDigitChars_ten_toDigits

lemma isDigit_of_mem_toDigits {n : Nat} {c : Char} (h : c ∈ Nat.toDigits 10 n) :
    c.isDigit = true :=
  Nat.isDigit_of_mem_toDigits (by decide) (by decide) h

lemma head?_toDigits_ne_zero {n : Nat} (h : n ≠ 0) : (Nat.toDigits 10 n).head? ≠ some '0' := by
  induction n using Nat.strong_induction_on with
  | h n ih =>
    rw [Nat.toDigits_eq_if (by decide)]
    split_ifs with hsmall
    · have hdigit : ∀ d < 10, d ≠ 0 → Nat.digitChar d ≠ '0' := by decide
      simpa using hdigit n hsmall h
    · rw [List.head?_append]
      have hhead := ih (n / 10) (by omega) (by omega)
      obtain ⟨c, cs, hcs⟩ :=
        List.exists_cons_of_ne_nil (Nat.toDigits_ne_nil (b := 10) (n := n / 10))
      simpa [hcs] using hhead

/-- The digits of a number start with a zero only if they are a single zero. -/
lemma exists_toDigits_eq_cons (n : Nat) :
    ∃ c ds, Nat.toDigits 10 n = c :: ds ∧ c.isDigit = true ∧ (c = '0' → ds = []) := by
  obtain ⟨c, ds, hds⟩ := List.exists_cons_of_ne_nil (Nat.toDigits_ne_nil (b := 10) (n := n))
  refine ⟨c, ds, hds, isDigit_of_mem_toDigits (hds ▸ List.mem_cons_self), ?_⟩
  intro hzero
  by_cases hn : n = 0
  · subst hn
    exact (List.cons.inj hds).2.symm
  · exact absurd (by rw [hds, hzero]; rfl) (head?_toDigits_ne_zero hn)

/-- A written integer starts with a digit or a sign, and only digits follow. -/
lemma exists_toString_eq_cons (n : Int) :
    ∃ c ds, (toString n).toList = c :: ds ∧ (c.isDigit = true ∨ c = '-')
      ∧ ∀ d ∈ ds, d.isDigit = true := by
  rw [Int.toString_eq_repr, Int.repr_eq_if]
  split_ifs with hsign
  · obtain ⟨c, ds, hds, hc, -⟩ := exists_toDigits_eq_cons n.toNat
    refine ⟨c, ds, by rw [Nat.toList_repr, hds], .inl hc, fun d hd => ?_⟩
    exact isDigit_of_mem_toDigits (hds ▸ List.mem_cons_of_mem c hd)
  · refine ⟨'-', _, by rw [String.toList_append, Nat.toList_repr]; rfl, .inr rfl, fun d hd => ?_⟩
    exact isDigit_of_mem_toDigits hd

lemma ne_of_opens_integer {c d : Char} (hc : c.isDigit = true ∨ c = '-') (hd : d.isDigit = false)
    (hminus : d ≠ '-') : c ≠ d := by
  rintro rfl
  exact hc.elim (by simp [hd]) hminus

lemma toList_padded (width n : Nat) : (padded width n).toList
    = List.replicate (width - (Nat.toDigits 10 n).length) '0' ++ Nat.toDigits 10 n := by
  simp [padded, ← String.length_toList]

lemma digitsValue_padded (width n : Nat) : digitsValue (padded width n).toList = n := by
  have hzeros (k : Nat) : (List.replicate k '0').foldl
      (fun n c => 10 * n + (c.toNat - '0'.toNat)) 0 = 0 := Nat.ofDigitChars_replicate_zero
  rw [toList_padded, digitsValue, List.foldl_append, hzeros]
  exact digitsValue_toDigits n

lemma digitsValue_append_zeros (ds : List Char) (k : Nat) :
    digitsValue (ds ++ List.replicate k '0') = digitsValue ds * 10 ^ k := by
  induction k with
  | zero => simp
  | succ k ih =>
    rw [List.replicate_succ', ← List.append_assoc, digitsValue, List.foldl_append, Nat.pow_succ,
      ← Nat.mul_assoc, ← ih, Nat.mul_comm]
    rfl

lemma isDigit_of_mem_padded {width n : Nat} {c : Char} (h : c ∈ (padded width n).toList) :
    c.isDigit = true := by
  rw [toList_padded, List.mem_append] at h
  rcases h with hzero | hdigit
  · rw [List.eq_of_mem_replicate hzero]
    rfl
  · exact isDigit_of_mem_toDigits hdigit

/-- A number that has no more digits than asked for is written with exactly so many. -/
lemma length_padded {width n : Nat} (hwidth : 0 < width) (h : n < 10 ^ width) :
    (padded width n).toList.length = width := by
  have hlen := (Nat.length_toDigits_le_iff (b := 10) (by decide) hwidth).mpr h
  rw [toList_padded, List.length_append, List.length_replicate]
  omega

lemma padded_injective (width : Nat) : Function.Injective (padded width) := by
  intro m n h
  rw [← digitsValue_padded width m, h, digitsValue_padded]

/-! ### Hexadecimal digits -/

lemma foldl_hexDigits (n v k : Nat) :
    (hexDigits n v).foldl (fun n c => do return 16 * (← n) + (← hexValue? c)) (some k)
      = some (k * 16 ^ n + v % 16 ^ n) := by
  induction n generalizing k with
  | zero => simp [hexDigits, Nat.mod_one]
  | succ n ih =>
    have hdigit := hexValue?_hexDigit (v / 16 ^ n % 16) (Nat.mod_lt _ (by decide))
    have hvalue : (16 * k + v / 16 ^ n % 16) * 16 ^ n + v % 16 ^ n
        = k * 16 ^ (n + 1) + v % 16 ^ (n + 1) := by
      rw [Nat.mod_pow_succ]
      ring
    have hshift : v >>> (4 * n) = v / 16 ^ n := by rw [Nat.shiftRight_eq_div_pow, Nat.pow_mul]
    rw [hexDigits, hshift, List.foldl_cons, ← hvalue, ← ih]
    simp [hdigit]

lemma ofHexDigits?_hexDigits (n v : Nat) : ofHexDigits? (hexDigits n v) = some (v % 16 ^ n) := by
  have h := foldl_hexDigits n v 0
  rwa [Nat.zero_mul, Nat.zero_add] at h

@[simp] lemma length_hexDigits (n v : Nat) : (hexDigits n v).length = n := by
  induction n with
  | zero => rfl
  | succ n ih => simp [hexDigits, ih]

end Text

end SeriesStore
