import SeriesStore.Json.Printer
import SeriesStore.Json.Reader
import SeriesStore.Proofs.Text.Digits

/-!
# Reading printed texts and numbers

The quoted form of a text and the written form of an integer are read back, and what follows them
is left alone.
-/

namespace SeriesStore.Json

open Text

/-! ### Texts -/

lemma escape?_of_lt {c : Char} (h : c.toNat < 0x20) (cs : List Char) :
    escape? ('u' :: (hexDigits 4 c.toNat ++ cs)) = some (some c, cs) := by
  have hdigits : fourDigits? (hexDigits 4 c.toNat ++ cs) = some (c.toNat, cs) := by
    have hvalue := ofHexDigits?_hexDigits 4 c.toNat
    rw [Nat.mod_eq_of_lt (by omega)] at hvalue
    simp only [hexDigits, List.cons_append, List.nil_append, fourDigits?] at hvalue ⊢
    rw [hvalue]
    rfl
  have hplane : (c.toNat < 0xD800 || 0xDFFF < c.toNat) = true := by simp; omega
  simp only [escape?, hdigits, Option.bind_eq_bind, Option.bind_some, hplane, if_true,
    Char.ofNat_toNat]
  rfl

/-- The quoted form of a character is read as that character. -/
lemma text?_quotedChar (fuel : Nat) (c : Char) (cs seen : List Char) :
    text? (fuel + 1) (quotedChar c ++ cs) (some seen) = text? fuel cs (some (c :: seen)) := by
  unfold quotedChar
  split
  case h_8 hquote hslash _ _ _ _ _ =>
    split_ifs with hcontrol
    · simp only [List.cons_append, List.nil_append, text?, escape?_of_lt hcontrol,
        Option.bind_eq_bind, Option.bind_some, Option.map_some]
    · rw [List.singleton_append, text?]
      · exact if_neg hcontrol
      · exact fun h => hquote h
      · exact fun h => hslash h
  all_goals simp [text?, escape?]

lemma text?_flatMap (fuel : Nat) (cs seen r : List Char) (h : cs.length < fuel) :
    text? fuel (cs.flatMap quotedChar ++ '"' :: r) (some seen)
      = some (some (String.ofList (seen.reverse ++ cs)), r) := by
  induction cs generalizing fuel seen with
  | nil =>
    obtain ⟨fuel, rfl⟩ : ∃ n, fuel = n + 1 := ⟨fuel - 1, by simp at h; omega⟩
    simp [text?]
  | cons c cs ih =>
    obtain ⟨fuel, rfl⟩ : ∃ n, fuel = n + 1 := ⟨fuel - 1, by simp at h; omega⟩
    rw [List.flatMap_cons, List.append_assoc, text?_quotedChar, ih _ _ (by simpa using h)]
    simp

/-- A text is read back from its quoted form, whose opening quote has been read. -/
lemma text?_quoted (fuel : Nat) {s : String} (h : s.toList.length < fuel) (r : List Char) :
    text? fuel (s.toList.flatMap quotedChar ++ '"' :: r) (some []) = some (some s, r) := by
  simpa using text?_flatMap fuel s.toList [] r h

lemma length_le_length_flatMap_quotedChar (cs : List Char) :
    cs.length ≤ (cs.flatMap quotedChar).length := by
  have hpos (c : Char) : 0 < (quotedChar c).length := by
    unfold quotedChar
    split
    case h_8 => split_ifs <;> simp
    all_goals simp
  induction cs with
  | nil => simp
  | cons c cs ih =>
    have := hpos c
    simp only [List.flatMap_cons, List.length_append, List.length_cons]
    omega

/-! ### Numbers -/

/-- A text that does not go on with a number. -/
def EndsNumber (r : List Char) : Prop :=
  ∀ c ∈ r.head?, c.isDigit = false ∧ c ≠ '.' ∧ c ≠ 'e' ∧ c ≠ 'E'

lemma digits_append {ds r : List Char} (hds : ∀ c ∈ ds, c.isDigit = true)
    (hr : ∀ c ∈ r.head?, c.isDigit = false) : digits (ds ++ r) = (ds, r) := by
  have htake : r.takeWhile Char.isDigit = [] := by
    cases r with
    | nil => rfl
    | cons c r => simp [hr c rfl]
  have hdrop : r.dropWhile Char.isDigit = r := by
    cases r with
    | nil => rfl
    | cons c r => simp [List.dropWhile, hr c rfl]
  rw [digits, List.takeWhile_append_of_pos hds, List.dropWhile_append_of_pos hds, htake, hdrop,
    List.append_nil]

lemma fraction?_eq_nil {r : List Char} (h : EndsNumber r) : fraction? r = some ([], r) := by
  unfold fraction?
  split
  · exact absurd rfl (h '.' rfl).2.1
  · rfl

lemma exponent?_eq_nil {r : List Char} (h : EndsNumber r) : exponent? r = some ([], r) := by
  cases r with
  | nil => rfl
  | cons c r =>
    obtain ⟨-, -, he, hE⟩ := h c rfl
    simp [exponent?, he, hE]

/-- The digits of a number start with a zero only if they are a single zero. -/
lemma leadingZero_toDigits (n : Nat) :
    ((Nat.toDigits 10 n).head? == some '0' && (Nat.toDigits 10 n).length != 1) = false := by
  by_cases h : n = 0
  · subst h
    decide
  · simp [head?_toDigits_ne_zero h]

lemma toDigits_minus (n : Nat) {r : List Char} :
    ¬∃ cs, Nat.toDigits 10 n ++ r = '-' :: cs := by
  rintro ⟨cs, h⟩
  obtain ⟨c, ds, hds⟩ := List.exists_cons_of_ne_nil (Nat.toDigits_ne_nil (b := 10) (n := n))
  have hc : c.isDigit = true :=
    isDigit_of_mem_toDigits (n := n) (hds ▸ List.mem_cons_self)
  rw [hds, List.cons_append, List.cons.injEq] at h
  rw [h.1] at hc
  exact absurd hc (by decide)

/-- An integer is read back from its written form, if no more of a number follows. -/
lemma number?_toString (n : Int) {r : List Char} (hr : EndsNumber r) :
    number? ((toString n).toList ++ r) = some (.int n, r) := by
  have hdigits (k : Nat) : digits (Nat.toDigits 10 k ++ r) = (Nat.toDigits 10 k, r) :=
    digits_append (fun c => isDigit_of_mem_toDigits) fun c hc => (hr c hc).1
  have hzero (k : Nat) : ((Nat.toDigits 10 k).isEmpty
      || ((Nat.toDigits 10 k).head? == some '0' && (Nat.toDigits 10 k).length != 1)) = false := by
    rw [leadingZero_toDigits, Bool.or_false, List.isEmpty_eq_false_iff]
    exact Nat.toDigits_ne_nil
  rw [Int.toString_eq_repr, Int.repr_eq_if]
  split_ifs with hsign
  · have hminus : ∀ cs, Nat.toDigits 10 n.toNat ++ r = '-' :: cs → False := fun cs h =>
      toDigits_minus n.toNat ⟨cs, h⟩
    rw [Nat.toList_repr, number?]
    · simp only [hdigits, hzero, fraction?_eq_nil hr, exponent?_eq_nil hr, digitsValue_toDigits,
        Option.bind_eq_bind, Option.bind_some, Bool.false_eq_true, if_false, List.isEmpty_nil,
        Bool.false_and, Bool.not_false, Bool.and_self, if_true]
      rw [Int.toNat_of_nonneg hsign]
      rfl
    · exact hminus
  · have hnonzero : ((-n).toNat == 0) = false := by
      rw [beq_eq_false_iff_ne]
      omega
    have hvalue : -((-n).toNat : Int) = n := by omega
    rw [String.toList_append, Nat.toList_repr, List.append_assoc]
    change number? ('-' :: (Nat.toDigits 10 (-n).toNat ++ r)) = _
    simp only [number?, hdigits, hzero, fraction?_eq_nil hr, exponent?_eq_nil hr,
      digitsValue_toDigits, Option.bind_eq_bind, Option.bind_some, Bool.false_eq_true, if_false,
      List.isEmpty_nil, hnonzero, Bool.and_false, Bool.not_false, Bool.and_self, if_true]
    rw [hvalue]
    rfl

end SeriesStore.Json
