import SeriesStore.Proofs.Text.Digits
import SeriesStore.Uid

/-!
# Reading identifiers

An identifier is read back from the form with hyphens that it is written in.
-/

namespace SeriesStore.Uid

open Text

/-- Five groups of digits with hyphens between them. -/
private def grouped (as bs cs ds es : List Char) : List Char :=
  as ++ '-' :: bs ++ '-' :: cs ++ '-' :: ds ++ '-' :: es

private lemma ofGroups?_grouped {as bs cs ds es : List Char} (ha : as.length = 8)
    (hb : bs.length = 4) (hc : cs.length = 4) (hd : ds.length = 4) (he : es.length = 12) :
    ofGroups? (grouped as bs cs ds es) = ofDigits? (as ++ bs ++ cs ++ ds ++ es) := by
  have hlength : (grouped as bs cs ds es).length = 36 := by simp [grouped, ha, hb, hc, hd, he]
  have hyphens : (grouped as bs cs ds es)[8]? = some '-' ∧ (grouped as bs cs ds es)[13]? = some '-'
      ∧ (grouped as bs cs ds es)[18]? = some '-' ∧ (grouped as bs cs ds es)[23]? = some '-' := by
    simp [grouped, List.getElem?_append, ha, hb, hc, hd]
  rw [ofGroups?, if_pos ⟨hlength, hyphens⟩]
  simp [grouped, List.drop_append, ha, hb, hc, hd, List.drop_of_length_le]

private lemma mem_grouped {as bs cs ds es : List Char} {c : Char}
    (h : c ∈ grouped as bs cs ds es) : c = '-' ∨ c ∈ as ++ bs ++ cs ++ ds ++ es := by
  simp only [grouped, List.mem_append, List.mem_cons] at h ⊢
  tauto

private lemma utf8Size_of_mem_hexDigits {n v : Nat} {c : Char} (h : c ∈ hexDigits n v) :
    c.utf8Size = 1 := by
  have hsmall : ∀ d < 16, (hexDigit d).utf8Size = 1 := by decide
  induction n with
  | zero => simp [hexDigits] at h
  | succ n ih =>
    rcases List.mem_cons.mp h with rfl | h
    · exact hsmall _ (Nat.mod_lt _ (by decide))
    · exact ih h

private lemma utf8Len_eq_length {cs : List Char} (h : ∀ c ∈ cs, c.utf8Size = 1) :
    String.utf8Len cs = cs.length := by
  induction cs with
  | nil => rfl
  | cons c cs ih => simp_all

/-- The groups of the digits of an identifier. -/
private lemma toList_toText (u : Uid) :
    u.toText.toList = grouped (u.digits.take 8) ((u.digits.drop 8).take 4)
      ((u.digits.drop 12).take 4) ((u.digits.drop 16).take 4) (u.digits.drop 20) := by
  simp [toText, grouped]

private lemma groups_append (u : Uid) :
    u.digits.take 8 ++ (u.digits.drop 8).take 4 ++ (u.digits.drop 12).take 4
      ++ (u.digits.drop 16).take 4 ++ u.digits.drop 20 = u.digits := by
  have hmid (k : Nat) : (u.digits.drop k).take 4 ++ u.digits.drop (k + 4) = u.digits.drop k := by
    rw [← List.drop_drop, List.take_append_drop]
  simp only [List.append_assoc, hmid, List.take_append_drop]

theorem ofText?_toText (u : Uid) : ofText? u.toText = some u := by
  have hdigits : u.digits.length = 32 := length_hexDigits ..
  have hlength : u.toText.toList.length = 36 := by
    simp [toList_toText, grouped, hdigits]
  have hsize : u.toText.utf8ByteSize = 36 := by
    rw [← String.utf8Len_toList, ← hlength]
    apply utf8Len_eq_length
    intro c hc
    rw [toList_toText] at hc
    rcases mem_grouped hc with rfl | hc
    · decide
    · rw [groups_append] at hc
      exact utf8Size_of_mem_hexDigits hc
  have hgroups : ofGroups? u.toText.toList = ofDigits? u.digits := by
    rw [toList_toText, ofGroups?_grouped, groups_append] <;> simp [hdigits]
  have hvalue : ofHexDigits? u.digits = some u.value.toNat := by
    have hlt : u.value.toNat < 16 ^ 32 := u.value.isLt
    rw [digits, ofHexDigits?_hexDigits, Nat.mod_eq_of_lt hlt]
  simp [ofText?, hsize, hgroups, ofDigits?, hdigits, hvalue]

end SeriesStore.Uid
