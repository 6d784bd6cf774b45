import SeriesStore.Proofs.Text.Digits
import SeriesStore.Time.Instant.Parser

/-!
# Reading instants

An instant is read back from its written form, nanoseconds, leap seconds and years with signs
included.
-/

namespace SeriesStore

open Text

namespace InstantParser

variable {α β : Type}

lemma bind_apply {p : InstantParser α} {f : α → InstantParser β} {cs r : List Char} {a : α}
    (h : p cs = some (a, r)) : (p >>= f) cs = f a r := by
  simp [Bind.bind, StateT.bind, Option.bind, h]

/-! ### Characters -/

lemma isBlank_of_isDigit {c : Char} (h : c.isDigit = true) : isBlank c = false := by
  simp only [Char.isDigit, Bool.and_eq_true, decide_eq_true_eq, UInt32.le_iff_toNat_le] at h
  change 48 ≤ c.toNat ∧ c.toNat ≤ 57 at h
  simp only [isBlank, Bool.or_eq_false_iff, Bool.and_eq_false_iff, decide_eq_false_iff_not,
    beq_eq_false_iff_ne, ne_eq]
  omega

lemma blanks_apply {cs : List Char} (h : ∀ c ∈ cs.head?, isBlank c = false) :
    blanks cs = some ((), cs) := by
  cases cs with
  | nil => rfl
  | cons c cs =>
    have hc : isBlank c = false := h c rfl
    simp [blanks, modify, modifyGet, MonadStateOf.modifyGet, StateT.modifyGet, List.dropWhile, hc]

lemma literal_apply (c : Char) (r : List Char) : literal c (c :: r) = some ((), r) := by
  simp [literal]

lemma separator_apply {c : Char} (h : isBlank c = false) (r : List Char) :
    separator c (c :: r) = some ((), r) := by
  rw [separator, bind_apply (blanks_apply (by simpa using h)), literal_apply]

/-! ### Digits -/

/-- Digits are all taken if they are as many as are taken at most, or fewer and something else
follows. -/
lemma digits_apply {most : Nat} {ds r : List Char} (hne : ds ≠ [])
    (hds : ∀ c ∈ ds, c.isDigit = true)
    (hr : ds.length = most ∨ ds.length ≤ most ∧ ∀ c ∈ r.head?, c.isDigit = false) :
    digits most (ds ++ r) = some (ds, r) := by
  have hrest : (r.take (most - ds.length)).takeWhile Char.isDigit = [] := by
    rcases hr with hlen | ⟨-, hhead⟩
    · simp [hlen]
    · cases r with
      | nil => simp
      | cons c r =>
        have hc : c.isDigit = false := hhead c rfl
        cases most - ds.length <;> simp [hc]
  have hlen : ds.length ≤ most := by
    rcases hr with hlen | ⟨hlen, -⟩ <;> omega
  have hall : ((ds ++ r).take most).takeWhile Char.isDigit = ds := by
    rw [List.take_append, List.take_of_length_le hlen, List.takeWhile_append_of_pos hds, hrest,
      List.append_nil]
  simp [digits, hall, hne]

lemma allDigits_apply {ds r : List Char} (hne : ds ≠ []) (hds : ∀ c ∈ ds, c.isDigit = true)
    (hr : ∀ c ∈ r.head?, c.isDigit = false) : allDigits (ds ++ r) = some (ds, r) :=
  digits_apply hne hds (Or.inr ⟨by simp, hr⟩)

lemma padded_ne_nil (width n : Nat) : (padded width n).toList ≠ [] := by
  simp [toList_padded]

lemma head?_padded_append (width n : Nat) (r : List Char) :
    ∀ c ∈ ((padded width n).toList ++ r).head?, c.isDigit = true := by
  intro c hc
  obtain ⟨d, ds, hds⟩ := List.exists_cons_of_ne_nil (padded_ne_nil width n)
  obtain rfl : d = c := by simpa [hds] using hc
  exact isDigit_of_mem_padded (hds ▸ List.mem_cons_self)

lemma digits_padded {width n : Nat} (hwidth : 0 < width) (h : n < 10 ^ width) (r : List Char) :
    digits width ((padded width n).toList ++ r) = some ((padded width n).toList, r) :=
  digits_apply (padded_ne_nil width n) (fun _ => isDigit_of_mem_padded)
    (Or.inl (length_padded hwidth h))

lemma blanks_padded (width n : Nat) (r : List Char) :
    blanks ((padded width n).toList ++ r) = some ((), (padded width n).toList ++ r) :=
  blanks_apply fun c hc => isBlank_of_isDigit (head?_padded_append width n r c hc)

lemma field_apply {n : Nat} (h : n < 100) (r : List Char) :
    field ((padded 2 n).toList ++ r) = some (n, r) := by
  rw [field, bind_apply (blanks_padded 2 n r), bind_apply (digits_padded (by decide) h r),
    digitsValue_padded]
  rfl

/-! ### Dates -/

lemma get_apply (cs : List Char) : (get : InstantParser (List Char)) cs = some (cs, cs) := rfl

lemma year_of_isDigit {c : Char} (cs : List Char) (hc : c.isDigit = true) :
    year (c :: cs)
      = (do return (digitsValue (← digits 4) : Int) : InstantParser Int) (c :: cs) := by
  have hblank : blanks (c :: cs) = some ((), c :: cs) :=
    blanks_apply (by simpa using isBlank_of_isDigit hc)
  rw [year, bind_apply hblank, bind_apply (get_apply _), List.head?_cons]
  apply congrFun
  split
  · next heq => cases heq; exact absurd hc (by decide)
  · next heq => cases heq; exact absurd hc (by decide)
  · rfl

lemma year_of_minus (cs : List Char) :
    year ('-' :: cs) = (do return -(digitsValue (← allDigits) : Int) : InstantParser Int) cs := by
  rw [year, bind_apply (blanks_apply (by rintro c ⟨⟩; decide)), bind_apply (get_apply _),
    List.head?_cons]
  exact bind_apply (literal_apply _ _)

lemma year_of_plus (cs : List Char) :
    year ('+' :: cs) = (do return (digitsValue (← allDigits) : Int) : InstantParser Int) cs := by
  rw [year, bind_apply (blanks_apply (by rintro c ⟨⟩; decide)), bind_apply (get_apply _),
    List.head?_cons]
  exact bind_apply (literal_apply _ _)

lemma pure_apply (a : α) (cs : List Char) : (pure a : InstantParser α) cs = some (a, cs) := rfl

lemma year_apply (y : Int) {r : List Char} (hr : ∀ c ∈ r.head?, c.isDigit = false) :
    year ((Instant.yearText y).toList ++ r) = some (y, r) := by
  have hdigits := allDigits_apply (padded_ne_nil 4 y.natAbs) (fun _ => isDigit_of_mem_padded) hr
  unfold Instant.yearText
  split_ifs with hfour hneg
  · obtain ⟨c, cs, hcs⟩ := List.exists_cons_of_ne_nil (padded_ne_nil 4 y.toNat)
    have hc : c.isDigit = true := isDigit_of_mem_padded (hcs ▸ List.mem_cons_self)
    have htake : digits 4 ((padded 4 y.toNat).toList ++ r) = some ((padded 4 y.toNat).toList, r) :=
      digits_padded (by decide) (by omega) r
    have hyear := year_of_isDigit (cs ++ r) hc
    rw [← List.cons_append, ← hcs, bind_apply htake, digitsValue_padded,
      Int.toNat_of_nonneg hfour.1] at hyear
    exact hyear
  · have hvalue : -(y.natAbs : Int) = y := by omega
    have htext : ("-" ++ padded 4 y.natAbs).toList ++ r
        = '-' :: ((padded 4 y.natAbs).toList ++ r) := by
      simp
    rw [htext, year_of_minus, bind_apply hdigits, digitsValue_padded, hvalue, pure_apply]
  · have hvalue : (y.natAbs : Int) = y := by omega
    have htext : ("+" ++ padded 4 y.natAbs).toList ++ r
        = '+' :: ((padded 4 y.natAbs).toList ++ r) := by
      simp
    rw [htext, year_of_plus, bind_apply hdigits, digitsValue_padded, hvalue, pure_apply]

lemma date_apply {d : Calendar.Date} (hm : d.month < 100) (hd : d.day < 100) (r : List Char) :
    date ((Instant.yearText d.year).toList ++ '-' :: ((padded 2 d.month).toList
      ++ '-' :: ((padded 2 d.day).toList ++ r))) = some (d, r) := by
  have hminus : isBlank '-' = false := by decide
  have hyear := year_apply d.year (r := '-' :: ((padded 2 d.month).toList
    ++ '-' :: ((padded 2 d.day).toList ++ r))) (by rintro c ⟨⟩; decide)
  rw [date, bind_apply hyear, bind_apply (separator_apply hminus _), bind_apply (field_apply hm _),
    bind_apply (separator_apply hminus _), bind_apply (field_apply hd _), pure_apply]

/-! ### Times -/

/-- The fraction of a second is given in a number of digits that it needs no more than. -/
lemma fraction_padded {width n : Nat} (hpos : 0 < width) (hwidth : width ≤ 9) (h : n < 10 ^ width)
    {r : List Char} (hr : ∀ c ∈ r.head?, c.isDigit = false) :
    fraction ('.' :: ((padded width n).toList ++ r)) = some (n * 10 ^ (9 - width), r) := by
  have hlen := length_padded hpos h
  have htake : digits 9 ((padded width n).toList ++ r) = some ((padded width n).toList, r) :=
    digits_apply (padded_ne_nil width n) (fun _ => isDigit_of_mem_padded)
      (Or.inr ⟨by omega, hr⟩)
  have hdrop : r.dropWhile Char.isDigit = r := by
    cases r with
    | nil => rfl
    | cons c r => simp [List.dropWhile, hr c rfl]
  rw [fraction, bind_apply (get_apply _), List.head?_cons]
  refine (bind_apply (literal_apply _ _)).trans ((bind_apply htake).trans ?_)
  refine (bind_apply (a := ()) (r := r) ?_).trans ?_
  · simp [modify, modifyGet, MonadStateOf.modifyGet, StateT.modifyGet, hdrop]
  · rw [digitsValue_append_zeros, digitsValue_padded, hlen, pure_apply]

lemma fraction_of_ne {r : List Char} (hr : ∀ c ∈ r.head?, c ≠ '.') : fraction r = some (0, r) := by
  rw [fraction, bind_apply (get_apply _)]
  generalize r.head? = first at hr
  split
  · exact absurd rfl (hr _ rfl)
  · rfl

lemma fraction_apply {nano : Nat} (h : nano < 1000000000) {r : List Char}
    (hr : ∀ c ∈ r.head?, c.isDigit = false ∧ c ≠ '.') :
    fraction ((Instant.fractionText nano).toList ++ r) = some (nano, r) := by
  have hdigit : ∀ c ∈ r.head?, c.isDigit = false := fun c hc => (hr c hc).1
  have hpoint (s : String) : ("." ++ s).toList ++ r = '.' :: (s.toList ++ r) := by simp
  unfold Instant.fractionText
  split_ifs with hzero hmilli hmicro
  · rw [String.toList_empty, List.nil_append, hzero]
    exact fraction_of_ne fun c hc => (hr c hc).2
  · rw [hpoint, fraction_padded (by decide) (by decide) (by omega) hdigit]
    simp only [Option.some.injEq, Prod.mk.injEq, and_true]
    omega
  · rw [hpoint, fraction_padded (by decide) (by decide) (by omega) hdigit]
    simp only [Option.some.injEq, Prod.mk.injEq, and_true]
    omega
  · rw [hpoint, fraction_padded (by decide) (by decide) (by omega) hdigit]
    simp

lemma offset_zulu : offset ['Z'] = some (0, []) := by
  have hutc : lowerAscii (String.ofList (['Z'].take 3)) ≠ "utc" := by decide +kernel
  rw [offset, bind_apply (get_apply _), if_neg hutc]
  rfl

/-! ### Instants -/

lemma toList_toText (i : Instant) (r : List Char) : i.toText.toList ++ r
    = (Instant.yearText i.date.year).toList ++ '-' :: ((padded 2 i.date.month).toList
      ++ '-' :: ((padded 2 i.date.day).toList ++ 'T' :: ((padded 2 i.hour).toList
      ++ ':' :: ((padded 2 i.minute).toList ++ ':' :: ((padded 2 i.second).toList
      ++ ((Instant.fractionText i.nano).toList ++ 'Z' :: r)))))) := by
  simp [Instant.toText, Instant.secondsText]

end InstantParser

/-- Without an offset a local time is the same instant. -/
lemma Instant.ofLocal?_zero (i : Instant) :
    ofLocal? i.date i.hour i.minute i.second i.nano 0 = some i := by
  obtain ⟨date, hour, minute, second, nano, hdate, htime⟩ := i
  obtain ⟨hhour, hminute, -, -⟩ := id htime
  have hday : ((60 * hour + minute - 0 : Int) % 1440).toNat = 60 * hour + minute := by omega
  have hnext : ¬(60 * hour + minute - 0 : Int) < 0 ∧ ¬(1440 : Int) ≤ 60 * hour + minute - 0 := by
    omega
  have hsplit : (60 * hour + minute) / 60 = hour ∧ (60 * hour + minute) % 60 = minute := by omega
  simp only [ofLocal?, hdate, hday, hnext, hsplit, if_true, if_false]
  rw [if_pos ⟨hhour, hminute⟩, of?, dif_pos hdate, dif_pos htime]

lemma Calendar.Date.lt_of_isValid {d : Calendar.Date} (h : d.isValid = true) :
    d.month < 100 ∧ d.day < 100 := by
  simp only [isValid, Bool.and_eq_true, decide_eq_true_eq] at h
  have hdays : Calendar.daysIn d.year d.month ≤ 31 := by
    unfold Calendar.daysIn
    split_ifs <;> omega
  omega

open InstantParser in
theorem Instant.ofText?_toText (i : Instant) : ofText? i.toText = some i := by
  have hcolon : isBlank ':' = false := by decide
  obtain ⟨hhour, hminute, hsecond, hnano⟩ := i.time_valid
  obtain ⟨hmonth, hday⟩ := Calendar.Date.lt_of_isValid i.date_valid
  have hend : ∀ c ∈ ['Z'].head?, c.isDigit = false ∧ c ≠ '.' := by
    rintro c ⟨⟩
    decide
  have hrun : instant i.toText.toList = some (i, []) := by
    rw [← List.append_nil i.toText.toList, toList_toText, instant,
      bind_apply (date_apply hmonth hday _), bind_apply (get_apply _)]
    refine (bind_apply (a := ()) (r := _) rfl).trans ?_
    beta_reduce
    rw [bind_apply (field_apply (by omega) _), bind_apply (separator_apply hcolon _),
      bind_apply (field_apply (by omega) _), bind_apply (separator_apply hcolon _),
      bind_apply (field_apply (by omega) _), bind_apply (fraction_apply hnano hend),
      bind_apply (blanks_apply (by rintro c ⟨⟩; decide)), bind_apply offset_zulu,
      bind_apply (blanks_apply (by simp)), bind_apply (get_apply _)]
    simp [ofLocal?_zero, liftM, monadLift, MonadLift.monadLift, StateT.lift, pure, Bind.bind]
  rw [ofText?, StateT.run, hrun]
  rfl

lemma Instant.midnight_valid : 0 < 24 ∧ 0 < 60 ∧ 0 < 61 ∧ 0 < 1000000000 := by decide

/-- The instant at which the indexes of all examples are made. -/
def Instant.newYear : Instant := ⟨⟨2024, 1, 1⟩, 0, 0, 0, 0, by decide, midnight_valid⟩

end SeriesStore
