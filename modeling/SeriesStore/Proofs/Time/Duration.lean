import SeriesStore.Proofs.Text.Instant
import SeriesStore.Time.Duration

/-!
# Reading durations

A duration is read from a number and a unit, with blanks around and between them, if it is not too
long. Its written form is such a text, whatever unit that is in.
-/

namespace SeriesStore

open Text

namespace Text

variable {p : Char → Bool} {cs : List Char}

lemma dropWhile_eq_self (h : ∀ c ∈ cs.head?, p c = false) : cs.dropWhile p = cs := by
  cases cs with
  | nil => rfl
  | cons c cs => simp [h c rfl]

lemma takeWhile_eq_nil (h : ∀ c ∈ cs.head?, p c = false) : cs.takeWhile p = [] := by
  cases cs with
  | nil => rfl
  | cons c cs => simp [h c rfl]

lemma trimEnd_append {after : List Char} (h : ∀ c ∈ cs.getLast?, isBlank c = false)
    (hafter : ∀ c ∈ after, isBlank c = true) : trimEnd (cs ++ after) = cs := by
  rw [trimEnd, List.reverse_append, List.dropWhile_append_of_pos (by simpa using hafter),
    dropWhile_eq_self (by rwa [List.head?_reverse]), List.reverse_reverse]

/-- Blanks around a text that starts and ends with other characters are removed. -/
lemma trim_append {before after : List Char} (hbefore : ∀ c ∈ before, isBlank c = true)
    (hhead : ∀ c ∈ cs.head?, isBlank c = false) (hlast : ∀ c ∈ cs.getLast?, isBlank c = false)
    (hafter : ∀ c ∈ after, isBlank c = true) (hcs : cs ≠ []) :
    trim (before ++ cs ++ after) = cs := by
  obtain ⟨c, rest, rfl⟩ := List.exists_cons_of_ne_nil hcs
  rw [trim, List.append_assoc, List.dropWhile_append_of_pos hbefore,
    dropWhile_eq_self (by simpa using hhead), trimEnd_append hlast hafter]

lemma trim_eq_self (h : ∀ c ∈ cs, isBlank c = false) : trim cs = cs := by
  rw [trim, dropWhile_eq_self fun c hc => h c (List.mem_of_mem_head? hc), ← List.append_nil cs,
    trimEnd_append (fun c hc => h c (List.mem_of_getLast? hc)) (by simp), List.append_nil]

/-- Only blanks are removed. -/
lemma exists_trim (cs : List Char) : ∃ before after, cs = before ++ trim cs ++ after
    ∧ (∀ c ∈ before, isBlank c = true) ∧ ∀ c ∈ after, isBlank c = true := by
  refine ⟨cs.takeWhile isBlank, ((cs.dropWhile isBlank).reverse.takeWhile isBlank).reverse, ?_,
    fun c => List.mem_takeWhile_imp, fun c hc => List.mem_takeWhile_imp (List.mem_reverse.mp hc)⟩
  rw [trim, trimEnd, List.append_assoc, ← List.reverse_append, List.takeWhile_append_dropWhile,
    List.reverse_reverse, List.takeWhile_append_dropWhile]

end Text

namespace TimeUnit

lemma ofSymbol?_eq_some_iff {cs : List Char} {u : TimeUnit} :
    ofSymbol? cs = some u ↔ cs = u.symbol.toList := by
  constructor
  · intro h
    unfold ofSymbol? at h
    split at h <;> cases h <;> rfl
  · rintro rfl
    cases u <;> rfl

/-- A symbol is made of letters. -/
lemma symbol_letters (u : TimeUnit) :
    ∀ c ∈ u.symbol.toList, c.isDigit = false ∧ isBlank c = false := by
  cases u <;> simp [symbol, isBlank]

lemma symbol_ne_nil (u : TimeUnit) : u.symbol.toList ≠ [] := by
  cases u <;> simp [symbol]

lemma millis_pos (u : TimeUnit) : 0 < u.millis := by
  cases u <;> decide

end TimeUnit

namespace Duration

variable {s : String} {d : Duration} {ds : List Char} {u : TimeUnit}

/-! ### Reading -/

/-- A text is a number in a unit. Blanks may stand around it and between the number and the unit. -/
def Written (cs ds : List Char) (u : TimeUnit) : Prop :=
  ∃ before gap after, cs = before ++ (ds ++ gap ++ u.symbol.toList) ++ after
    ∧ (∀ c ∈ before ++ gap ++ after, isBlank c = true) ∧ ds ≠ [] ∧ ∀ c ∈ ds, c.isDigit = true

lemma of?_eq_some_iff {n : ℕ} :
    of? n u = some d ↔ n * u.millis < 2 ^ 64 ∧ d.millis.toNat = n * u.millis := by
  rw [of?]
  split_ifs with hfits
  · rw [Option.some_inj]
    constructor
    · rintro rfl
      exact ⟨hfits, by rw [UInt64.toNat_ofNat', Nat.mod_eq_of_lt hfits]⟩
    · rintro ⟨-, hval⟩
      cases d with
      | mk millis => rw [← hval, UInt64.ofNat_toNat]
  · exact iff_of_false (by simp) fun h => hfits h.1

/-- A number in a unit is read. -/
lemma ofText?_of_written (h : Written s.toList ds u) : ofText? s = of? (digitsValue ds) u := by
  obtain ⟨before, gap, after, htext, hblank, hsome, hdigit⟩ := h
  simp only [List.mem_append, or_imp, forall_and] at hblank
  obtain ⟨⟨hbefore, hgap⟩, hafter⟩ := hblank
  have hsymbol : ∀ c ∈ u.symbol.toList.head?, isBlank c = false := fun c hc =>
    (u.symbol_letters c (List.mem_of_mem_head? hc)).2
  have htrim : trim s.toList = ds ++ gap ++ u.symbol.toList := by
    rw [htext]
    refine trim_append hbefore (fun c hc => ?_) (fun c hc => ?_) hafter (by simp [hsome])
    · rw [List.append_assoc, List.head?_append_of_ne_nil _ hsome] at hc
      exact InstantParser.isBlank_of_isDigit (hdigit c (List.mem_of_mem_head? hc))
    · rw [List.getLast?_append_of_ne_nil _ u.symbol_ne_nil] at hc
      exact (u.symbol_letters c (List.mem_of_getLast? hc)).2
  have hrest : ∀ c ∈ (gap ++ u.symbol.toList).head?, c.isDigit = false := by
    intro c hc
    rcases List.mem_append.mp (List.mem_of_mem_head? hc) with hmem | hmem
    · by_contra hdigit
      have := InstantParser.isBlank_of_isDigit (Bool.of_not_eq_false hdigit)
      exact absurd (hgap c hmem) (by simp [this])
    · exact (u.symbol_letters c hmem).1
  have hnumber : (trim s.toList).takeWhile Char.isDigit = ds := by
    rw [htrim, List.append_assoc, List.takeWhile_append_of_pos hdigit, takeWhile_eq_nil hrest,
      List.append_nil]
  have hunit : ((trim s.toList).dropWhile Char.isDigit).dropWhile isBlank = u.symbol.toList := by
    rw [htrim, List.append_assoc, List.dropWhile_append_of_pos hdigit, dropWhile_eq_self hrest,
      List.dropWhile_append_of_pos hgap, dropWhile_eq_self hsymbol]
  simp only [ofText?, hnumber, hunit, TimeUnit.ofSymbol?_eq_some_iff.mpr rfl, Option.bind_some]
  rw [if_neg (by simpa using hsome)]

/-- What is read is a number in a unit. -/
lemma exists_written (h : ofText? s = some d) :
    ∃ ds u, Written s.toList ds u ∧ of? (digitsValue ds) u = some d := by
  simp only [ofText?] at h
  split_ifs at h with hempty
  obtain ⟨u, hunit, hof⟩ := Option.bind_eq_some_iff.mp h
  obtain ⟨before, after, htext, hbefore, hafter⟩ := exists_trim s.toList
  rw [TimeUnit.ofSymbol?_eq_some_iff] at hunit
  refine ⟨_, u, ⟨before, ((trim s.toList).dropWhile Char.isDigit).takeWhile isBlank, after, ?_,
    ?_, by simpa using hempty, fun c => List.mem_takeWhile_imp⟩, hof⟩
  · rw [← hunit, List.append_assoc _ _ (List.dropWhile _ _), List.takeWhile_append_dropWhile,
      List.takeWhile_append_dropWhile, ← htext]
  · simp only [List.mem_append]
    rintro c ((hc | hc) | hc)
    · exact hbefore c hc
    · exact List.mem_takeWhile_imp hc
    · exact hafter c hc

/-- A text is read just if it is written as the grammar says and its length fits a word. -/
theorem ofText?_eq_some_iff : ofText? s = some d ↔
    ∃ ds u, Written s.toList ds u ∧ digitsValue ds * u.millis < 2 ^ 64
      ∧ d.millis.toNat = digitsValue ds * u.millis := by
  constructor
  · intro h
    obtain ⟨ds, u, hwritten, hof⟩ := exists_written h
    exact ⟨ds, u, hwritten, of?_eq_some_iff.mp hof⟩
  · rintro ⟨ds, u, hwritten, hof⟩
    rw [ofText?_of_written hwritten, of?_eq_some_iff]
    exact hof

/-! ### The written form -/

lemma displayUnit_dvd (d : Duration) : d.displayUnit.millis ∣ d.millis.toNat := by
  have hdvd {u : TimeUnit} (h : (d.millis != 0 && d.millis.toNat % u.millis == 0) = true) :
      u.millis ∣ d.millis.toNat := by
    rw [Bool.and_eq_true, beq_iff_eq] at h
    exact Nat.dvd_of_mod_eq_zero h.2
  simp only [displayUnit]
  split_ifs with hdays hhours hminutes hseconds
  · exact hdvd hdays
  · exact hdvd hhours
  · exact hdvd hminutes
  · exact hdvd hseconds
  · exact one_dvd _

lemma toList_toText (d : Duration) :
    d.toText.toList
      = Nat.toDigits 10 (d.millis.toNat / d.displayUnit.millis) ++ d.displayUnit.symbol.toList := by
  rw [toText, String.toList_append]
  exact congrArg (· ++ _) Nat.toList_repr

lemma trim_toText (d : Duration) : trim d.toText.toList = d.toText.toList := by
  apply trim_eq_self
  intro c hc
  rw [toList_toText, List.mem_append] at hc
  rcases hc with hdigit | hsymbol
  · exact InstantParser.isBlank_of_isDigit (isDigit_of_mem_toDigits hdigit)
  · exact (d.displayUnit.symbol_letters c hsymbol).2

/-- A duration is read back from its written form. -/
theorem ofText?_toText (d : Duration) : ofText? d.toText = some d := by
  refine ofText?_eq_some_iff.mpr ⟨Nat.toDigits 10 (d.millis.toNat / d.displayUnit.millis),
    d.displayUnit, ⟨[], [], [], ?_, by simp, Nat.toDigits_ne_nil,
      fun c => isDigit_of_mem_toDigits⟩, ?_⟩
  · simp [toList_toText]
  · rw [digitsValue_toDigits, Nat.div_mul_cancel d.displayUnit_dvd]
    exact ⟨d.millis.toNat_lt, rfl⟩

/-- Every duration is read back from its written form. And a text is read just if, blanks around it
aside, it is ASCII digits, as many as there may be, then blanks, then a unit, and neither the number
nor what it comes to in milliseconds exceeds 64 bits; what is read is then that product. -/
theorem ofText?_exact :
    (∀ d : Duration, ofText? d.toText = some d)
      ∧ ∀ (s : String) (d : Duration), ofText? s = some d ↔
        ∃ ds u, Written s.toList ds u ∧ digitsValue ds < 2 ^ 64
          ∧ digitsValue ds * u.millis < 2 ^ 64 ∧ d.millis.toNat = digitsValue ds * u.millis := by
  refine ⟨ofText?_toText, fun s d => ofText?_eq_some_iff.trans ?_⟩
  constructor
  · rintro ⟨ds, u, hwritten, hfits, hval⟩
    have hnumber := (Nat.le_mul_of_pos_right (digitsValue ds) u.millis_pos).trans_lt hfits
    exact ⟨ds, u, hwritten, hnumber, hfits, hval⟩
  · rintro ⟨ds, u, hwritten, -, hfits, hval⟩
    exact ⟨ds, u, hwritten, hfits, hval⟩

end Duration

end SeriesStore
