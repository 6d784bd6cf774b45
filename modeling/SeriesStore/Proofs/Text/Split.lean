import Mathlib
import SeriesStore.Disk.Path

/-!
# Splitting paths at slashes

The parts of a path are the texts between its slashes, so that a text without a slash is a path of
one part.
-/

namespace SeriesStore

open String in
/-- One pass over a text: `l` has been split off, `m` is the part that has been begun. -/
private lemma splitOnAux_slash (l m r : List Char) (acc : List String) :
    splitOnAux (ofList (l ++ m ++ r)) "/" ⟨utf8Len l⟩ ⟨utf8Len l + utf8Len m⟩ 0 acc
      = acc.reverse ++ (List.splitOnPPrepend (· == '/') r m.reverse).map ofList := by
  have hend : Pos.Raw.atEnd (ofList (l ++ m ++ r)) ⟨utf8Len l + utf8Len m⟩ = true ↔ r = [] := by
    simpa using atEnd_of_valid (l ++ m) r
  unfold splitOnAux
  cases r with
  | nil =>
    rw [if_pos (hend.mpr rfl)]
    simpa using extract_of_valid l m []
  | cons c r =>
    have hget : Pos.Raw.get (ofList (l ++ m ++ c :: r)) ⟨utf8Len l + utf8Len m⟩ = c := by
      simpa using get_of_valid (l ++ m) (c :: r)
    have hnext : Pos.Raw.next (ofList (l ++ m ++ c :: r)) ⟨utf8Len l + utf8Len m⟩
        = ⟨utf8Len l + utf8Len m + c.utf8Size⟩ := by
      simpa using next_of_valid (l ++ m) c r
    have hslash : Pos.Raw.get "/" 0 = '/' := by decide
    have hslash' : Pos.Raw.atEnd "/" (Pos.Raw.next "/" 0) = true := by decide
    have hmore : ¬Pos.Raw.atEnd (ofList (l ++ m ++ c :: r)) ⟨utf8Len l + utf8Len m⟩ = true := by
      simpa only [hend] using List.cons_ne_nil c r
    rw [if_neg hmore]
    simp only [hget, hnext, hslash, hslash', if_true]
    by_cases hc : c = '/'
    · subst hc
      -- at a slash a part ends
      have hpart : Pos.Raw.extract (ofList (l ++ m ++ '/' :: r)) ⟨utf8Len l⟩
          ⟨utf8Len l + utf8Len m⟩ = ofList m := extract_of_valid l m ('/' :: r)
      have hstart : Pos.Raw.unoffsetBy ⟨utf8Len l + utf8Len m + '/'.utf8Size⟩ (Pos.Raw.next "/" 0)
          = ⟨utf8Len l + utf8Len m⟩ := by
        simp [Pos.Raw.unoffsetBy, Pos.Raw.next, hslash]
      have h := splitOnAux_slash (l ++ m ++ ['/']) [] r (ofList m :: acc)
      rw [if_pos (by decide), hstart, hpart]
      simpa [-ofList_append, Nat.add_assoc, List.splitOnPPrepend_cons_eq_if] using h
    · -- any other character makes the part longer
      have h := splitOnAux_slash l (m ++ [c]) r acc
      have hnext' : Pos.Raw.unoffsetBy ⟨utf8Len l + utf8Len m⟩ 0
          = (⟨utf8Len l + utf8Len m⟩ : Pos.Raw) := rfl
      rw [if_neg (by simpa using hc), hnext', hnext]
      simpa [-ofList_append, Nat.add_assoc, List.splitOnPPrepend_cons_eq_if, hc] using h
termination_by r.length

namespace Path

/-- The parts of a path are the texts between its slashes. -/
lemma parts_ofText (s : String) :
    (ofText s).parts = (s.toList.splitOn '/').map String.ofList := by
  have h := splitOnAux_slash [] [] s.toList []
  rw [List.nil_append, List.nil_append, String.ofList_toList] at h
  exact h

lemma ofText_of_not_mem {s : String} (h : '/' ∉ s.toList) : ofText s = ⟨[s]⟩ := by
  have hparts := parts_ofText s
  rw [List.splitOn_eq_singleton h, List.map_singleton, String.ofList_toList] at hparts
  exact congrArg Path.mk hparts

end Path

end SeriesStore
