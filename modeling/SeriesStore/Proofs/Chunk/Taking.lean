import SeriesStore.Chunk.Parser
import SeriesStore.Proofs.Bits.Views

/-!
# Parsers that undo printers

A parser takes a bit string as a value if, in front of any further bits, it gives that value and
leaves the further bits to be read. Sequences of parsers take appended bit strings.
-/

namespace SeriesStore

namespace Varint

/-- The place of a timestamp is a word. -/
lemma fold_toInt_lt (t : Int64) : fold t.toInt < 2 ^ 64 := by
  have hlo := t.le_toInt
  have hhi := t.toInt_lt
  unfold fold
  split <;> omega

/-- Behind its lowest group, a number has one group less. -/
lemma div_lt_two_pow {n v : Nat} (h : v < 2 ^ (7 * (n + 1))) : v / 128 < 2 ^ (7 * n) := by
  rw [Nat.div_lt_iff_lt_mul (by decide)]
  calc v < 2 ^ (7 * (n + 1)) := h
    _ = 2 ^ (7 * n) * 128 := by ring

end Varint

namespace BitParser

/-- In front of whatever follows, `p` reads exactly the bits `bs`, as the value `a`. -/
def Takes {α : Type} (p : BitParser α) (bs : Bits) (a : α) : Prop :=
  ∀ (r : BitReader) (rest : Bits), r.toBits = bs ++ rest →
    ∃ r', p r = .ok (a, r') ∧ r'.toBits = rest ∧ r'.position = r.position + bs.length

variable {α β : Type}

/-! ### Sequences -/

lemma takes_pure (a : α) : Takes (pure a : BitParser α) [] a :=
  fun r _ h => ⟨r, rfl, h, rfl⟩

lemma Takes.bind {p : BitParser α} {f : α → BitParser β} {as bs : Bits} {a : α} {b : β}
    (hp : Takes p as a) (hf : Takes (f a) bs b) : Takes (p >>= f) (as ++ bs) b := by
  intro r rest h
  rw [List.append_assoc] at h
  obtain ⟨r₁, hr₁, hbits₁, hpos₁⟩ := hp r _ h
  obtain ⟨r₂, hr₂, hbits₂, hpos₂⟩ := hf r₁ rest hbits₁
  refine ⟨r₂, ?_, hbits₂, ?_⟩
  · simpa [Bind.bind, StateT.bind, Except.bind, hr₁] using hr₂
  · rw [hpos₂, hpos₁, List.length_append, Nat.add_assoc]

lemma Takes.bind_nil {p : BitParser α} {f : α → BitParser β} {bs : Bits} {a : α} {b : β}
    (hp : Takes p bs a) (hf : Takes (f a) [] b) : Takes (p >>= f) bs b := by
  simpa using hp.bind hf

lemma Takes.map {p : BitParser α} {bs : Bits} {a : α} (hp : Takes p bs a) (f : α → β) :
    Takes (do let x ← p; pure (f x)) bs (f a) :=
  hp.bind_nil (takes_pure (f a))

/-! ### Words -/

lemma takes_bit (b : Bool) : Takes bit [b] b := by
  intro r rest h
  obtain ⟨r', hnext, hbits, hpos⟩ := BitReader.next?_eq_some (r := r) (b := b) (by simpa using h)
  exact ⟨r', by simp [bit, hnext], hbits, by simpa using hpos⟩

lemma takes_bitsOnto (bs : Bits) (v : Nat) :
    Takes (bitsOnto bs.length v) bs (v * 2 ^ bs.length + Bits.toNat bs) := by
  induction bs generalizing v with
  | nil => simpa [bitsOnto] using takes_pure v
  | cons b bs ih =>
    have hvalue : (2 * v + b.toNat) * 2 ^ bs.length + Bits.toNat bs
        = v * 2 ^ (b :: bs).length + Bits.toNat (b :: bs) := by
      rw [Bits.toNat_cons, List.length_cons, Nat.pow_succ]
      ring
    rw [← hvalue]
    exact (takes_bit b).bind (ih _)

lemma takes_bits (n v : Nat) : Takes (bits n) (Bits.ofNat n v) (v % 2 ^ n) := by
  simpa [bits, Bits.toNat_ofNat] using takes_bitsOnto (Bits.ofNat n v) 0

lemma takes_bits_of_lt {n v : Nat} (h : v < 2 ^ n) : Takes (bits n) (Bits.ofNat n v) v := by
  simpa [Nat.mod_eq_of_lt h] using takes_bits n v

/-! ### Numbers of variable length -/

lemma takes_groups_succ (left shift known : Nat) {b v : Nat} {bs : Bits} (hb : b < 256)
    (h : Takes (if b < 128 then pure ((known + b % 128 * 2 ^ shift) % 2 ^ 64)
      else groups left (shift + 7) ((known + b % 128 * 2 ^ shift) % 2 ^ 64)) bs v) :
    Takes (groups (left + 1) shift known) (Bits.ofNat 8 b ++ bs) v := by
  rw [← Nat.shiftLeft_eq] at h
  exact (takes_bits_of_lt hb).bind h

/-- The groups of `v` are read onto a number whose bits below `shift` are known, as long as all of
it fits into a word. -/
lemma takes_groups (left shift known : Nat) {v : Nat} (hword : known + v * 2 ^ shift < 2 ^ 64)
    (hleft : v < 2 ^ (7 * left)) (hpos : 0 < left) :
    Takes (groups left shift known) (Varint.encode v) (known + v * 2 ^ shift) := by
  induction left generalizing shift v known with
  | zero => omega
  | succ left ih =>
    rw [Varint.encode]
    split_ifs with hsmall
    · have hlast := takes_groups_succ left shift known
        (show v < 256 by omega) (by rw [if_pos hsmall]; exact takes_pure _)
      rwa [List.append_nil, Nat.mod_eq_of_lt hsmall, Nat.mod_eq_of_lt hword] at hlast
    · have hsplit : known + v % 128 * 2 ^ shift + v / 128 * 2 ^ (shift + 7)
          = known + v * 2 ^ shift := by
        conv_rhs => rw [← Nat.mod_add_div v 128]
        ring
      have hlow : (known + (v % 128 + 128) % 128 * 2 ^ shift) % 2 ^ 64
          = known + v % 128 * 2 ^ shift := by
        rw [Nat.add_mod_right, Nat.mod_mod, Nat.mod_eq_of_lt (by omega)]
      have hpos : 0 < left := by
        rcases Nat.eq_zero_or_pos left with rfl | h
        · omega
        · exact h
      have hrest := ih (shift + 7) (known + v % 128 * 2 ^ shift)
        (by rwa [hsplit]) (Varint.div_lt_two_pow hleft) hpos
      rw [hsplit] at hrest
      apply takes_groups_succ _ _ _ (by omega)
      rwa [if_neg (by omega), hlow]

lemma takes_varint {v : Nat} (h : v < 2 ^ 64) : Takes varint (Varint.encode v) v := by
  have hword : v < 2 ^ (7 * 10) := h.trans (by decide)
  simpa [varint] using takes_groups 10 0 0 (by simpa) hword
    (by decide)

lemma takes_signedVarint (t : Int64) :
    Takes signedVarint (Varint.encodeSigned t.toInt) t.toInt := by
  have h := (takes_varint (Varint.fold_toInt_lt t)).map Varint.unfold
  rwa [Varint.unfold_fold] at h

end BitParser

end SeriesStore
