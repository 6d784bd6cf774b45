import SeriesStore.Index.Basic
import SeriesStore.Proofs.Disk.Places
import SeriesStore.Proofs.Text.Digits

/-!
# Names of the files of an index

The files of segments, the manifest and the temporary files in front of them never share a name.
-/

namespace SeriesStore.Index

open SeriesStore.Path

/-- Name of the temporary file that becomes a segment file. -/
def temporarySegmentName (number : UInt64) : String :=
  "seg_" ++ Text.padded 6 number.toNat ++ ".tmp"

/-- Name of the temporary file that becomes the manifest. -/
def temporaryManifestName : String := manifestName ++ ".tmp"

lemma toList_segmentName (n : UInt64) : (segmentName n).toList
    = ['s', 'e', 'g', '_'] ++ ((Text.padded 6 n.toNat).toList ++ ['.', 't', 's', 'c']) := by
  simp [segmentName]

lemma toList_temporarySegmentName (n : UInt64) : (temporarySegmentName n).toList
    = ['s', 'e', 'g', '_'] ++ ((Text.padded 6 n.toNat).toList ++ ['.', 't', 'm', 'p']) := by
  simp [temporarySegmentName]

/-- A text with a letter in it is a name if it has no character that no name has. -/
private lemma isName_of_mem {s : String} (he : 'e' ∈ s.toList)
    (h : ∀ c ∈ s.toList, c ≠ '/' ∧ c ≠ '\x00') : IsName s where
  slash hmem := (h _ hmem).1 rfl
  zero hmem := (h _ hmem).2 rfl
  ne_empty := by
    rintro rfl
    simp at he
  ne_dot := by
    rintro rfl
    exact absurd he (by decide)
  ne_dots := by
    rintro rfl
    exact absurd he (by decide)

private lemma ne_of_isDigit {c : Char} (h : c.isDigit = true) : c ≠ '/' ∧ c ≠ '\x00' := by
  constructor <;> rintro rfl <;> exact absurd h (by decide)

lemma isName_segmentName (n : UInt64) : IsName (segmentName n) := by
  refine isName_of_mem (by simp [toList_segmentName]) ?_
  intro c hc
  rw [toList_segmentName, List.mem_append, List.mem_append] at hc
  rcases hc with hc | hc | hc
  · exact (by simp : ∀ c ∈ ['s', 'e', 'g', '_'], c ≠ '/' ∧ c ≠ '\x00') c hc
  · exact ne_of_isDigit (Text.isDigit_of_mem_padded hc)
  · exact (by simp : ∀ c ∈ ['.', 't', 's', 'c'], c ≠ '/' ∧ c ≠ '\x00') c hc

lemma isName_temporarySegmentName (n : UInt64) : IsName (temporarySegmentName n) := by
  refine isName_of_mem (by simp [toList_temporarySegmentName]) ?_
  intro c hc
  rw [toList_temporarySegmentName, List.mem_append, List.mem_append] at hc
  rcases hc with hc | hc | hc
  · exact (by simp : ∀ c ∈ ['s', 'e', 'g', '_'], c ≠ '/' ∧ c ≠ '\x00') c hc
  · exact ne_of_isDigit (Text.isDigit_of_mem_padded hc)
  · exact (by simp : ∀ c ∈ ['.', 't', 'm', 'p'], c ≠ '/' ∧ c ≠ '\x00') c hc

private lemma ne_of_mem_hexDigits {n v : Nat} {c : Char} (h : c ∈ Text.hexDigits n v) :
    c ≠ '/' ∧ c ≠ '\x00' := by
  have hdigit : ∀ d < 16, Text.hexDigit d ≠ '/' ∧ Text.hexDigit d ≠ '\x00' := by decide
  induction n with
  | zero => simp [Text.hexDigits] at h
  | succ n ih =>
    rcases List.mem_cons.mp h with rfl | h
    · exact hdigit _ (Nat.mod_lt _ (by decide))
    · exact ih h

/-- A generated directory can stand in a directory. -/
lemma isName_directoryName (id : Uid) : IsName (directoryName id) := by
  have hlist : (directoryName id).toList = "index_".toList ++ id.digits := by
    simp [directoryName, Uid.simple]
  refine isName_of_mem (by rw [hlist]; exact List.mem_append_left _ (by decide)) ?_
  intro c hc
  rw [hlist, List.mem_append] at hc
  rcases hc with hc | hc
  · exact (by simp : ∀ c ∈ "index_".toList, c ≠ '/' ∧ c ≠ '\x00') c hc
  · exact ne_of_mem_hexDigits hc

lemma isName_manifestName : IsName manifestName :=
  ⟨by decide, by decide, by decide, by decide, by decide⟩

lemma isName_temporaryManifestName : IsName temporaryManifestName :=
  ⟨by decide, by decide, by decide, by decide, by decide⟩

/-! ### Differences -/

lemma segmentName_injective : Function.Injective segmentName := by
  intro m n h
  have hlist := congrArg String.toList h
  rw [toList_segmentName, toList_segmentName, List.append_cancel_left_eq,
    List.append_cancel_right_eq, String.toList_inj] at hlist
  exact UInt64.toNat_inj.mp (Text.padded_injective 6 hlist)

lemma segmentName_ne_manifestName (n : UInt64) : segmentName n ≠ manifestName := by
  intro h
  have hhead := congrArg (List.head? ∘ String.toList) h
  simp [toList_segmentName, manifestName] at hhead

lemma segmentName_ne_temporaryManifestName (n : UInt64) :
    segmentName n ≠ temporaryManifestName := by
  intro h
  have hhead := congrArg (List.head? ∘ String.toList) h
  simp [toList_segmentName, temporaryManifestName, manifestName] at hhead

lemma temporarySegmentName_ne_manifestName (n : UInt64) :
    temporarySegmentName n ≠ manifestName := by
  intro h
  have hhead := congrArg (List.head? ∘ String.toList) h
  simp [toList_temporarySegmentName, manifestName] at hhead

lemma segmentName_ne_temporarySegmentName (m n : UInt64) :
    segmentName m ≠ temporarySegmentName n := by
  intro h
  have hlast := congrArg (List.head? ∘ List.reverse ∘ String.toList) h
  simp [toList_segmentName, toList_temporarySegmentName] at hlast

lemma temporaryManifestName_ne_manifestName : temporaryManifestName ≠ manifestName := by decide

/-! ### Temporary files -/

lemma stem_segmentName (n : UInt64) :
    stem (segmentName n) = "seg_" ++ Text.padded 6 n.toNat := by
  have hdrop : (segmentName n).toList.reverse.dropWhile (· != '.')
      = '.' :: ((Text.padded 6 n.toNat).toList.reverse ++ ['_', 'g', 'e', 's']) := by
    rw [toList_segmentName]
    simp [List.dropWhile]
  simp only [stem, hdrop]
  split
  · next heq => cases heq
  · next heq => simp at heq
  · next heq =>
    obtain ⟨-, rfl⟩ := List.cons.inj heq
    rw [← String.toList_inj]
    simp

/-- A segment file is first written under its temporary name. -/
lemma temporary_div_segmentName (dir : Path) (n : UInt64) :
    (dir / segmentName n).temporary = dir / temporarySegmentName n := by
  have hname := isName_segmentName n
  have hstem : stem (segmentName n) ++ ".tmp" = temporarySegmentName n := by
    rw [stem_segmentName]
    rfl
  have hdot : stem (segmentName n) ≠ "." := by
    rw [stem_segmentName]
    intro h
    have hhead := congrArg (List.head? ∘ String.toList) h
    simp at hhead
  simp [temporary, fileName?_div dir hname, hdot, trimmed_div dir hname, hstem,
    div_eq dir (isName_temporarySegmentName n)]

end SeriesStore.Index
