import SeriesStore.Bits.Varint
import SeriesStore.Proofs.Bits.Views

/-!
# Packing bits into bytes

A machine writes bits into the last byte of a buffer, and keeps how many of its bits are free. Whole
bytes go behind the buffer at once if no bit is free. Numbers are words, whose upper bits are
written first, by shifts. Here the writer is written with such words, where a shift or an index
outside its range ends the run without a result. It holds at each step what the writer of bit
strings holds.
-/

namespace SeriesStore

/-- A buffer of bits, packed into bytes. -/
structure WordWriter where
  bytes : Bytes
  /-- Number of bits of the last byte that are free. -/
  free : UInt8

namespace WordWriter

/-! ### Writing in words -/

/-- A writer behind a header of `n` bytes, which are zero. -/
def withHeader (n : Nat) : WordWriter := ⟨List.replicate n 0, 0⟩

/-- Sets a bit of the last byte. -/
def setLast (bs : Bytes) (n : UInt8) : Option Bytes :=
  match bs.getLast? with
  | some b => if n < 8 then some (bs.dropLast ++ [b ||| 1 <<< n]) else none
  | none => none

/-- Writes one bit. -/
def bit (w : WordWriter) (b : Bool) : Option WordWriter := do
  let (bytes, free) := if w.free = 0 then (w.bytes ++ [0], 8) else (w.bytes, w.free)
  let bytes ← if b then setLast bytes (free - 1) else some bytes
  return ⟨bytes, free - 1⟩

/-- Writes the `n` upper bits of a word one by one. -/
def upper (w : WordWriter) (v : UInt64) : Nat → Option WordWriter
  | 0 => some w
  | n + 1 => do
    let w ← w.bit (v >>> 63 == 1)
    w.upper (v <<< 1) n

/-- Writes the `n` upper bits of a word behind whole bytes. -/
def aligned (w : WordWriter) (v : UInt64) : Nat → Option WordWriter
  | n + 8 => aligned ⟨w.bytes ++ [(v >>> 56).toUInt8], w.free⟩ (v <<< 8) n
  | n => w.upper v n

/-- Writes the `n` lower bits of a word. -/
def bits (w : WordWriter) (v : UInt64) (n : Nat) : Option WordWriter :=
  if n = 0 then some w
  else if 64 < n then none
  else
    let v := v <<< UInt64.ofNat (64 - n)
    if w.free = 0 then w.aligned v n else w.upper v n

/-- Writes a word in groups of seven bits. -/
def uvarint (w : WordWriter) (v : UInt64) : Option WordWriter :=
  if 0x80 ≤ v then do
    let w ← w.bits (v.toUInt8 ||| 0x80).toUInt64 8
    w.uvarint (v >>> 7)
  else w.bits v 8
termination_by v.toNat
decreasing_by
  rename_i h
  have hlarge : 128 ≤ v.toNat := UInt64.le_iff_toNat_le.mp h
  have hshift : (v >>> 7).toNat = v.toNat / 128 := Nat.shiftRight_eq_div_pow v.toNat 7
  omega

/-- Writes a signed word in groups of seven bits, with its sign in the lowest one. -/
def varint (w : WordWriter) (i : Int64) : Option WordWriter :=
  w.uvarint ((i <<< 1) ^^^ (i >>> 63)).toUInt64

/-! ### Single bits -/

/-- The buffer that holds the bits of a writer. -/
def packed (v : BitWriter) : WordWriter := ⟨v.bytes, UInt8.ofNat ((8 - v.rest.length) % 8)⟩

lemma packed_ofBytes (n : Nat) :
    packed (BitWriter.ofBytes (List.replicate n 0)) = withHeader n := by
  simp [packed, withHeader, BitWriter.ofBytes, BitWriter.bytes]

variable {v : BitWriter}

lemma setLast_concat (front : Bytes) (last : UInt8) {n : UInt8} (h : n < 8) :
    setLast (front ++ [last]) n = some (front ++ [last ||| 1 <<< n]) := by
  simp [setLast, h]

/-- Behind some bits in the last byte the next one is set. -/
lemma bit_concat (full : Bytes) {rest : Bits} (h : rest.length < 8) (b : Bool) :
    bit ⟨full ++ [Bits.toByte rest], UInt8.ofNat (8 - rest.length)⟩ b
      = some ⟨full ++ [Bits.toByte (rest ++ [b])], UInt8.ofNat (7 - rest.length)⟩ := by
  have hfree : ∀ k < 8, UInt8.ofNat (8 - k) ≠ 0 ∧ UInt8.ofNat (8 - k) - 1 = UInt8.ofNat (7 - k)
      ∧ UInt8.ofNat (7 - k) < 8 := by decide
  obtain ⟨hsome, hnext, hrange⟩ := hfree rest.length h
  rw [bit, if_neg hsome, Bits.toByte_concat rest b h]
  simp only [hnext]
  cases b with
  | false => rfl
  | true =>
    rw [if_pos rfl, setLast_concat full _ hrange]
    rfl

/-- A bit is written as a writer of bit strings does it. -/
lemma bit_packed (h : v.Valid) (b : Bool) : (packed v).bit b = some (packed (v.push b)) := by
  obtain ⟨full, rest⟩ := v
  have hopened : (packed ⟨full, rest⟩).bit b
      = bit ⟨full.data.toList ++ [Bits.toByte rest], UInt8.ofNat (8 - rest.length)⟩ b := by
    cases rest with
    | nil => simp [packed, BitWriter.bytes, bit]; rfl
    | cons c cs =>
      have hlen : (8 - (c :: cs).length) % 8 = 8 - (c :: cs).length :=
        Nat.mod_eq_of_lt (by rw [List.length_cons]; omega)
      rw [packed, hlen]
      rfl
  rw [hopened, bit_concat _ h]
  by_cases hfull : (rest ++ [b]).length = 8
  · have hlen : rest.length = 7 := by simpa using hfull
    rw [BitWriter.push_of_full hfull, hlen]
    simp [packed, BitWriter.bytes]
  · have hlen : rest.length + 1 < 8 := by
      rw [List.length_append, List.length_singleton] at hfull
      have hvalid : rest.length < 8 := h
      omega
    rw [BitWriter.push_of_not_full hfull]
    have hfree : (7 - rest.length) % 8 = 7 - rest.length := Nat.mod_eq_of_lt (by omega)
    simp [packed, BitWriter.bytes, hfree]

/-! ### Words -/

/-- The upper bits of a word that has been shifted are the next ones of the word. -/
lemma ofNat_shiftLeft (x : UInt64) {n k : Nat} (hk : k < 64) (h : n + k ≤ 64) :
    Bits.ofNat n ((x <<< UInt64.ofNat k).toNat / 2 ^ (64 - n))
      = Bits.ofNat n (x.toNat / 2 ^ (64 - (n + k))) := by
  apply Bits.ofNat_congr_testBit
  intro m hm
  rw [Nat.testBit_div_two_pow, Nat.testBit_div_two_pow, Bits.toNat_shiftLeft_ofNat x hk,
    Nat.testBit_mod_two_pow, Nat.testBit_shiftLeft]
  have hinside : m + (64 - n) < 64 := by omega
  have hshifted : m + (64 - n) ≥ k := by omega
  have hplace : m + (64 - n) - k = m + (64 - (n + k)) := by omega
  simp [hinside, hshifted, hplace]

lemma upper_packed (h : v.Valid) (x : UInt64) {n : Nat} (hn : n ≤ 64) :
    (packed v).upper x n
      = some (packed (v.append (Bits.ofNat n (x.toNat / 2 ^ (64 - n))))) := by
  induction n generalizing v x with
  | zero => rfl
  | succ n ih =>
    have hfirst : (x >>> 63 == 1) = (x.toNat / 2 ^ (64 - (n + 1))).testBit n := by
      have hshift : (x >>> 63).toNat = x.toNat / 2 ^ 63 := Nat.shiftRight_eq_div_pow x.toNat 63
      have hlt := x.toNat_lt
      have hplace : n + (64 - (n + 1)) = 63 := by omega
      rw [Nat.testBit_div_two_pow, hplace, Nat.testBit_eq_decide_div_mod_eq, Bool.eq_iff_iff,
        beq_iff_eq, decide_eq_true_iff, ← UInt64.toNat_inj, hshift, UInt64.toNat_one]
      omega
    have hrest : Bits.ofNat n ((x <<< 1).toNat / 2 ^ (64 - n))
        = Bits.ofNat n (x.toNat / 2 ^ (64 - (n + 1))) := ofNat_shiftLeft x (k := 1) (by decide) hn
    rw [upper, hfirst, bit_packed h]
    exact (ih (h.push _) (x <<< 1) (by omega)).trans (by rw [hrest]; rfl)

lemma aligned_packed (h : v.rest = []) (x : UInt64) {n : Nat} (hn : n ≤ 64) :
    (packed v).aligned x n
      = some (packed (v.append (Bits.ofNat n (x.toNat / 2 ^ (64 - n))))) := by
  induction n using Nat.strongRecOn generalizing v x with
  | ind n ih =>
    rcases lt_or_ge n 8 with hlast | hmore
    · have hupper : (packed v).aligned x n = (packed v).upper x n := by
        rw [aligned]
        omega
      rw [hupper, upper_packed (by simp [BitWriter.Valid, h]) x hn]
    · obtain ⟨n, rfl⟩ : ∃ m, n = m + 8 := ⟨n - 8, by omega⟩
      have hbyte : Bits.ofNat 8 (x.toNat / 2 ^ (64 - (n + 8)) / 2 ^ n)
          = Bits.ofByte (x >>> 56).toUInt8 := by
        have hshift : (x >>> 56).toNat = x.toNat / 2 ^ 56 := Nat.shiftRight_eq_div_pow x.toNat 56
        have hlt := x.toNat_lt
        rw [Bits.ofByte, UInt64.toNat_toUInt8, hshift, Bits.ofNat_mod, Nat.div_div_eq_div_mul,
          ← Nat.pow_add, show 64 - (n + 8) + n = 56 by omega]
      have hpushed : (⟨(packed v).bytes ++ [(x >>> 56).toUInt8], (packed v).free⟩ : WordWriter)
          = packed (v.append (Bits.ofByte (x >>> 56).toUInt8)) := by
        rw [BitWriter.append_ofByte h]
        simp [packed, BitWriter.bytes, h]
      have hrest : Bits.ofNat n ((x <<< 8).toNat / 2 ^ (64 - n))
          = Bits.ofNat n (x.toNat / 2 ^ (64 - (n + 8))) := ofNat_shiftLeft x (k := 8) (by decide) hn
      rw [aligned, hpushed, Nat.add_comm n 8, Bits.ofNat_add, Nat.add_comm 8 n, hbyte,
        BitWriter.append_append]
      refine (ih n (by omega) ?_ (x <<< 8) (by omega)).trans (by rw [hrest])
      rw [BitWriter.append_ofByte h]

/-- The lower bits of a word are written, whether or not they begin a byte. -/
lemma bits_packed (h : v.Valid) (x : UInt64) {n : Nat} (hn : n ≤ 64) :
    (packed v).bits x n = some (packed (v.append (Bits.ofNat n x.toNat))) := by
  rcases Nat.eq_zero_or_pos n with rfl | hpos
  · rfl
  have hlower : Bits.ofNat n ((x <<< UInt64.ofNat (64 - n)).toNat / 2 ^ (64 - n))
      = Bits.ofNat n x.toNat := by
    rw [ofNat_shiftLeft x (by omega) (by omega), show 64 - (n + (64 - n)) = 0 by omega,
      Nat.pow_zero, Nat.div_one]
  rw [bits, if_neg (by omega), if_neg (by omega), ← hlower]
  dsimp only
  split
  · next hfree =>
    refine aligned_packed ?_ _ hn
    have hlen : v.rest.length < 8 := h
    have hzero : ∀ k < 8, UInt8.ofNat ((8 - k) % 8) = 0 → k = 0 := by decide
    exact List.length_eq_zero_iff.mp (hzero _ hlen hfree)
  · exact upper_packed h _ hn

/-! ### Numbers of variable length -/

lemma uvarint_packed (h : v.Valid) (x : UInt64) :
    (packed v).uvarint x = some (packed (v.append (Varint.encode x.toNat))) := by
  induction hx : x.toNat using Nat.strongRecOn generalizing v x with
  | ind n ih =>
    subst hx
    have hsmall : 0x80 ≤ x ↔ 128 ≤ x.toNat := UInt64.le_iff_toNat_le
    rw [uvarint, Varint.encode]
    by_cases hlarge : 128 ≤ x.toNat
    · have hgroup : (x.toUInt8 ||| 0x80).toUInt64.toNat = x.toNat % 128 + 128 := by
        have hbytes : ∀ n < 256, n ||| 128 = n % 128 + 128 := by decide +kernel
        rw [UInt8.toNat_toUInt64, UInt8.toNat_or, UInt64.toNat_toUInt8]
        refine (hbytes _ (Nat.mod_lt _ (by decide))).trans ?_
        omega
      have hshift : (x >>> 7).toNat = x.toNat / 128 := Nat.shiftRight_eq_div_pow x.toNat 7
      have hrest := ih (x >>> 7).toNat (by omega) (h.append (Bits.ofNat 8 (x.toNat % 128 + 128)))
        (x >>> 7) rfl
      rw [if_pos (hsmall.mpr hlarge), if_neg (by omega), bits_packed h _ (by decide), hgroup,
        BitWriter.append_append, ← hshift]
      exact hrest
    · rw [if_neg (by rwa [hsmall]), if_pos (by omega), bits_packed h _ (by decide)]

/-- The sign of a word in all its bits. -/
lemma shiftRight_63 (i : Int64) : i >>> 63 = if i.toInt < 0 then -1 else 0 := by
  have hshift : (i >>> 63).toInt = i.toInt / 2 ^ 63 := by
    rw [← Int64.toInt_toBitVec, Int64.toBitVec_shiftRight]
    exact (BitVec.toInt_sshiftRight (n := 63)).trans (Int.shiftRight_eq_div_pow _ _)
  have hlo := i.le_toInt
  have hhi := i.toInt_lt
  rw [← Int64.toInt_inj, hshift]
  split
  · rw [show (-1 : Int64).toInt = -1 from rfl]
    omega
  · rw [show (0 : Int64).toInt = 0 from rfl]
    omega

/-- The sign turns the doubled word around. -/
lemma toNat_shiftLeft_xor_sign (i : Int64) :
    ((i <<< 1) ^^^ (i >>> 63)).toUInt64.toNat = Varint.fold i.toInt := by
  have hdouble : (i <<< 1).toUInt64.toNat = i.toUInt64.toNat * 2 % 2 ^ 64 :=
    (UInt64.toNat_shiftLeft i.toUInt64 1).trans (by rw [Nat.shiftLeft_eq]; rfl)
  have hword : i.toInt = if 2 * i.toUInt64.toNat < 2 ^ 64 then (i.toUInt64.toNat : Int)
      else i.toUInt64.toNat - 2 ^ 64 := BitVec.toInt_eq_toNat_cond i.toBitVec
  have hlt := i.toUInt64.toNat_lt
  rw [shiftRight_63, Varint.fold]
  by_cases hsign : i.toInt < 0
  · have hnot : ((i <<< 1) ^^^ -1).toUInt64.toNat = 2 ^ 64 - 1 - (i <<< 1).toUInt64.toNat := by
      rw [Int64.xor_neg_one]
      exact UInt64.toNat_not _
    rw [if_pos hsign, if_neg (by omega), hnot, hdouble]
    split at hword <;> omega
  · rw [if_neg hsign, if_pos (by omega), Int64.xor_zero, hdouble]
    split at hword <;> omega

lemma varint_packed (h : v.Valid) (i : Int64) :
    (packed v).varint i = some (packed (v.append (Varint.encodeSigned i.toInt))) := by
  rw [varint, uvarint_packed h, toNat_shiftLeft_xor_sign]
  rfl

end WordWriter

end SeriesStore
