import SeriesStore.Bits.Reader
import SeriesStore.Bits.Writer
import SeriesStore.Proofs.Bits.Words

/-!
# Writers and readers as bit strings

A writer is the bit string written so far and a reader the bit string still to be read. Writing
appends to the one, and reading takes from the front of the other.
-/

namespace SeriesStore

/-! ### Writers -/

namespace BitWriter

/-- Fewer than eight bits of a byte are left open. -/
def Valid (w : BitWriter) : Prop := w.rest.length < 8

lemma valid_empty : Valid {} := by simp [Valid]

lemma valid_ofBytes (bs : Bytes) : (ofBytes bs).Valid := by simp [Valid, ofBytes]

@[simp] lemma toBits_empty : toBits {} = [] := rfl

@[simp] lemma toBits_ofBytes (bs : Bytes) : (ofBytes bs).toBits = Bits.ofBytes bs := by
  simp [toBits, ofBytes]

lemma push_of_full {w : BitWriter} {b : Bool} (h : (w.rest ++ [b]).length = 8) :
    w.push b = ⟨w.full.push (Bits.toByte (w.rest ++ [b])), []⟩ := if_pos h

lemma push_of_not_full {w : BitWriter} {b : Bool} (h : (w.rest ++ [b]).length ≠ 8) :
    w.push b = ⟨w.full, w.rest ++ [b]⟩ := if_neg h

lemma Valid.push {w : BitWriter} (h : w.Valid) (b : Bool) : (w.push b).Valid := by
  unfold Valid at h ⊢
  by_cases hfull : (w.rest ++ [b]).length = 8
  · simp [push_of_full hfull]
  · rw [push_of_not_full hfull]
    simp only [List.length_append, List.length_singleton] at hfull ⊢
    omega

lemma toBits_push (w : BitWriter) (b : Bool) :
    (w.push b).toBits = w.toBits ++ [b] := by
  by_cases hfull : (w.rest ++ [b]).length = 8
  · have hbyte := Bits.ofByte_toByte (w.rest ++ [b]) (by omega)
    rw [hfull, Nat.sub_self, List.replicate_zero, List.append_nil] at hbyte
    simp [push_of_full hfull, toBits, hbyte]
  · simp [push_of_not_full hfull, toBits]

lemma Valid.append {w : BitWriter} (h : w.Valid) (bs : Bits) : (w.append bs).Valid := by
  induction bs generalizing w with
  | nil => exact h
  | cons b bs ih => exact ih (h.push b)

lemma toBits_append (w : BitWriter) (bs : Bits) :
    (w.append bs).toBits = w.toBits ++ bs := by
  induction bs generalizing w with
  | nil => simp [BitWriter.append]
  | cons b bs ih =>
    have hrest : (w.append (b :: bs)).toBits = (w.push b).toBits ++ bs := ih (w.push b)
    rw [hrest, toBits_push, List.append_assoc, List.singleton_append]

/-- The bytes of a writer are its bits, filled up with zeros. -/
lemma ofBytes_bytes {w : BitWriter} (h : w.Valid) :
    ∃ pad < 8, Bits.ofBytes w.bytes = w.toBits ++ List.replicate pad false := by
  unfold Valid at h
  cases hrest : w.rest with
  | nil => exact ⟨0, by omega, by simp [bytes, toBits, hrest]⟩
  | cons b bs =>
    refine ⟨8 - w.rest.length, by simp [hrest]; omega, ?_⟩
    have hbyte := Bits.ofByte_toByte w.rest (by omega)
    simp only [bytes, toBits, hrest] at hbyte ⊢
    simp [hbyte]

lemma append_append (v : BitWriter) (as bs : Bits) :
    v.append (as ++ bs) = (v.append as).append bs := List.foldl_append

/-- Bits that do not fill the byte that has been begun stay open. -/
lemma append_of_lt {v : BitWriter} {bs : Bits} (h : v.rest.length + bs.length < 8) :
    v.append bs = ⟨v.full, v.rest ++ bs⟩ := by
  induction bs generalizing v with
  | nil => simp [append]
  | cons b bs ih =>
    rw [List.length_cons] at h
    have hopen : (v.rest ++ [b]).length ≠ 8 := by
      rw [List.length_append, List.length_singleton]
      omega
    have hpush := push_of_not_full hopen
    have hrest : v.append (b :: bs) = (v.push b).append bs := rfl
    rw [hrest, hpush, ih]
    · simp
    · rw [List.length_append, List.length_singleton]
      omega

/-- Eight bits behind whole bytes are one more byte. -/
lemma append_ofByte {v : BitWriter} (h : v.rest = []) (c : UInt8) :
    v.append (Bits.ofByte c) = ⟨v.full.push c, []⟩ := by
  obtain ⟨bs, b, hbits⟩ : ∃ bs b, Bits.ofByte c = bs ++ [b] := by
    refine ⟨_, _, (List.dropLast_append_getLast (l := Bits.ofByte c) ?_).symm⟩
    intro hnil
    simpa [hnil] using Bits.length_ofByte c
  have hlen : bs.length = 7 := by simpa [hbits] using Bits.length_ofByte c
  have hfull : ([] ++ bs ++ [b]).length = 8 := by simp [hlen]
  rw [hbits, append_append, append_of_lt (v := v) (by simp [h, hlen]), h]
  refine (push_of_full hfull).trans ?_
  rw [List.nil_append, ← hbits, Bits.toByte_ofByte]

/-- Complete bytes stay in front. -/
lemma exists_full_append (v : BitWriter) (bs : Bits) :
    ∃ more, (v.append bs).full.data.toList = v.full.data.toList ++ more := by
  induction bs generalizing v with
  | nil => exact ⟨[], (List.append_nil _).symm⟩
  | cons b bs ih =>
    obtain ⟨more, hmore⟩ := ih (v.push b)
    have happend : v.append (b :: bs) = (v.push b).append bs := rfl
    rw [happend, hmore]
    by_cases hfull : (v.rest ++ [b]).length = 8
    · exact ⟨Bits.toByte (v.rest ++ [b]) :: more, by simp [push_of_full hfull]⟩
    · exact ⟨more, by rw [push_of_not_full hfull]⟩

/-- Bits behind a header stand in the bytes behind it, filled up with zeros. -/
lemma exists_bytes_ofBytes_append (header : Bytes) (bs : Bits) :
    ∃ more, ((ofBytes header).append bs).bytes = header ++ more
      ∧ ∃ pad < 8, Bits.ofBytes more = bs ++ List.replicate pad false := by
  obtain ⟨more, hmore⟩ := exists_full_append (ofBytes header) bs
  obtain ⟨pad, hpad, hbits⟩ := ofBytes_bytes ((valid_ofBytes header).append bs)
  have hheader : (ofBytes header).full.data.toList = header := List.toList_toArray
  have hbytes : ((ofBytes header).append bs).bytes = header ++ (more
      ++ if ((ofBytes header).append bs).rest.isEmpty then []
        else [Bits.toByte ((ofBytes header).append bs).rest]) := by
    rw [bytes, hmore, hheader, List.append_assoc]
  refine ⟨_, hbytes, pad, hpad, ?_⟩
  rw [hbytes, toBits_append, toBits_ofBytes, Bits.ofBytes_append, List.append_assoc] at hbits
  exact List.append_cancel_left hbits

end BitWriter

/-! ### Readers -/

namespace BitReader

@[simp] lemma toBits_ofBytes (bs : Bytes) (n : Nat) :
    (ofBytes bs n).toBits = Bits.ofBytes (bs.drop n) := rfl

@[simp] lemma position_ofBytes (bs : Bytes) (n : Nat) : (ofBytes bs n).position = 8 * n := rfl

lemma next?_eq_some {r : BitReader} {b : Bool} {bs : Bits} (h : r.toBits = b :: bs) :
    ∃ r', r.next? = some (b, r') ∧ r'.toBits = bs ∧ r'.position = r.position + 1 := by
  obtain ⟨opened, rest, position⟩ := r
  cases opened with
  | cons c cs =>
    obtain ⟨rfl, rfl⟩ : c = b ∧ cs ++ Bits.ofBytes rest = bs := by simpa [toBits] using h
    exact ⟨⟨cs, rest, position + 1⟩, rfl, rfl, rfl⟩
  | nil =>
    cases rest with
    | nil => simp [toBits] at h
    | cons byte rest =>
      obtain ⟨c, cs, hbyte⟩ := Bits.ofByte_eq_cons byte
      obtain ⟨rfl, rfl⟩ : c = b ∧ cs ++ Bits.ofBytes rest = bs := by
        simpa [toBits, hbyte] using h
      exact ⟨⟨cs, rest, position + 1⟩, by simp [next?, hbyte], rfl, rfl⟩

lemma next?_eq_none {r : BitReader} (h : r.toBits = []) : r.next? = none := by
  obtain ⟨opened, rest, position⟩ := r
  obtain ⟨rfl, hrest⟩ : opened = [] ∧ Bits.ofBytes rest = [] := by simpa [toBits] using h
  cases rest with
  | nil => rfl
  | cons byte rest => simp [Bits.ofByte, Bits.ofNat] at hrest

end BitReader

end SeriesStore
