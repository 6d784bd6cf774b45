import SeriesStore.Proofs.Json.Scalars

/-!
# Reading printed values

A value is read back from its indented form. Only numbers with a point or an exponent are left out,
and texts with half of a character.
-/

namespace SeriesStore.Json

open Text (exists_toString_eq_cons ne_of_opens_integer)

/-- A value that is made of texts and integers. -/
inductive Plain : Datum → Prop
  | null : Plain .null
  | bool (b : Bool) : Plain (.bool b)
  | int (n : Int) : Plain (.int n)
  | text (s : String) : Plain (.text s)
  | list {items : List Datum} : (∀ d ∈ items, Plain d) → Plain (.list items)
  | record {fields : List (String × Datum)} : (∀ f ∈ fields, Plain f.2) → Plain (.record fields)

/-! ### Blanks -/

lemma skipBlanks_newLine (depth : Nat) (cs : List Char) :
    skipBlanks ((newLine depth).toList ++ cs) = skipBlanks cs := by
  have hblank : ∀ c ∈ (newLine depth).toList,
      (c == ' ' || c == '\n' || c == '\t' || c == '\r') = true := by
    intro c hc
    have hc : c = '\n' ∨ c = ' ' := by
      simp only [newLine, String.toList_append, String.toList_ofList, List.mem_append] at hc
      exact hc.imp (by simpa using ·) List.eq_of_mem_replicate
    rcases hc with rfl | rfl <;> rfl
  exact List.dropWhile_append_of_pos hblank

lemma value?_congr {cs cs' : List Char} (h : skipBlanks cs = skipBlanks cs') (fuel : Nat) :
    value? fuel cs = value? fuel cs' := by
  cases fuel with
  | zero => rfl
  | succ fuel => simp only [value?, h]

lemma items?_congr {cs cs' : List Char} (h : skipBlanks cs = skipBlanks cs') (fuel : Nat)
    (seen : List Datum) : items? fuel cs seen = items? fuel cs' seen := by
  cases fuel with
  | zero => rfl
  | succ fuel => simp only [items?, value?_congr h]

lemma fields?_congr {cs cs' : List Char} (h : skipBlanks cs = skipBlanks cs') (fuel : Nat)
    (seen : Option (List (String × Datum))) : fields? fuel cs seen = fields? fuel cs' seen := by
  cases fuel with
  | zero => rfl
  | succ fuel => simp only [fields?, h]

/-- A character that is no blank and closes nothing. -/
def opens (c : Char) : Bool :=
  !(c == ' ' || c == '\n' || c == '\t' || c == '\r') && c != ']' && c != '\x7d'

lemma opens_of_isDigit {c : Char} (h : c.isDigit = true) : opens c = true := by
  have hne (d : Char) (hd : d.isDigit = false) : (c == d) = false := by
    rw [beq_eq_false_iff_ne]
    rintro rfl
    exact absurd h (by simp [hd])
  simp [opens, bne, hne ' ' rfl, hne '\n' rfl, hne '\t' rfl, hne '\r' rfl, hne ']' rfl,
    hne '\x7d' rfl]

lemma skipBlanks_cons {c : Char} (h : (c == ' ' || c == '\n' || c == '\t' || c == '\r') = false)
    (cs : List Char) : skipBlanks (c :: cs) = c :: cs :=
  List.dropWhile_cons_of_neg (by simpa using h)

lemma skipBlanks_of_opens {c : Char} (h : opens c = true) (cs : List Char) :
    skipBlanks (c :: cs) = c :: cs :=
  skipBlanks_cons (by simp [opens] at h; simp [h]) cs

lemma skipBlanks_skipBlanks (cs : List Char) : skipBlanks (skipBlanks cs) = skipBlanks cs :=
  List.dropWhile_idempotent _ cs

/-- A printed value starts with a character of its own. -/
lemma exists_indented_eq_cons (depth : Nat) {d : Datum} (h : Plain d) :
    ∃ c cs, (indented depth d).toList = c :: cs ∧ opens c = true := by
  cases h with
  | null => exact ⟨'n', _, by simp [indented]; rfl, by decide⟩
  | bool b =>
    cases b with
    | false => exact ⟨'f', _, by simp [indented]; rfl, by decide⟩
    | true => exact ⟨'t', _, by simp [indented]; rfl, by decide⟩
  | int n =>
    obtain ⟨c, cs, hcs, hc, -⟩ := exists_toString_eq_cons n
    exact ⟨c, cs, hcs, hc.elim opens_of_isDigit fun h => h ▸ by decide⟩
  | text s => exact ⟨'"', _, by simp [indented, quoted]; rfl, by decide⟩
  | @list items _ =>
    cases items with
    | nil => exact ⟨'[', _, by simp [indented]; rfl, by decide⟩
    | cons d ds => exact ⟨'[', _, by simp [indented]; rfl, by decide⟩
  | @record fields _ =>
    cases fields with
    | nil => exact ⟨'\x7b', _, by simp [indented]; rfl, by decide⟩
    | cons f fs => exact ⟨'\x7b', _, by simp [indented]; rfl, by decide⟩

/-- The first item stands behind blanks. -/
lemma exists_skipBlanks_indentedItems (depth : Nat) {d : Datum} (h : Plain d) (ds : List Datum)
    (r : List Char) : ∃ c cs, skipBlanks ((indentedItems depth (d :: ds)).toList ++ r) = c :: cs
      ∧ opens c = true := by
  obtain ⟨c, cs, hcs, hc⟩ := exists_indented_eq_cons depth h
  have hitems : ∃ cs', (indentedItems depth (d :: ds)).toList ++ r
      = (newLine depth).toList ++ c :: cs' := by
    cases ds with
    | nil => exact ⟨_, by simp [indentedItems, hcs]; rfl⟩
    | cons d' ds => exact ⟨_, by simp [indentedItems, hcs]; rfl⟩
  obtain ⟨cs', hcs'⟩ := hitems
  exact ⟨c, cs', by rw [hcs', skipBlanks_newLine, skipBlanks_of_opens hc], hc⟩

/-- The name of the first field stands behind blanks. -/
lemma exists_skipBlanks_indentedFields (depth : Nat) (f : String × Datum)
    (fs : List (String × Datum)) (r : List Char) :
    ∃ cs, skipBlanks ((indentedFields depth (f :: fs)).toList ++ r) = '"' :: cs := by
  have hfields : ∃ cs, (indentedFields depth (f :: fs)).toList ++ r
      = (newLine depth).toList ++ '"' :: cs := by
    cases fs with
    | nil => exact ⟨_, by simp [indentedFields, quoted]; rfl⟩
    | cons f' fs => exact ⟨_, by simp [indentedFields, quoted]; rfl⟩
  obtain ⟨cs, hcs⟩ := hfields
  exact ⟨cs, by rw [hcs, skipBlanks_newLine, skipBlanks_cons rfl]⟩

/-! ### Values -/

/-- A value that is read back from its indented form at every depth. -/
def ReadsBack (d : Datum) : Prop :=
  ∀ (depth fuel : Nat) (r : List Char), (indented depth d).toList.length < fuel → EndsNumber r →
    value? fuel ((indented depth d).toList ++ r) = some (d, r)

lemma endsNumber_cons {c : Char} (h : c.isDigit = false ∧ c ≠ '.' ∧ c ≠ 'e' ∧ c ≠ 'E')
    (r : List Char) : EndsNumber (c :: r) := fun _ hc => Option.some.inj hc ▸ h

lemma endsNumber_newLine (depth : Nat) (r : List Char) :
    EndsNumber ((newLine depth).toList ++ r) := by
  have h : (newLine depth).toList = '\n' :: List.replicate (2 * depth) ' ' := by
    simp [newLine]
  rw [h, List.cons_append]
  exact endsNumber_cons (by decide) _

lemma value?_newLine (depth fuel : Nat) (cs : List Char) :
    value? fuel ((newLine depth).toList ++ cs) = value? fuel cs :=
  value?_congr (skipBlanks_newLine depth cs) fuel

/-- The items of a list are read up to its closing bracket. -/
lemma items?_indentedItems {ds : List Datum} (hds : ∀ d ∈ ds, ReadsBack d) (hne : ds ≠ [])
    (depth fuel : Nat) (hfuel : (indentedItems depth ds).toList.length < fuel) (outer : Nat)
    (seen : List Datum) (r : List Char) :
    items? fuel ((indentedItems depth ds).toList ++ ((newLine outer).toList ++ ']' :: r)) seen
      = some (.list (seen.reverse ++ ds), r) := by
  -- on the items; the last one is followed by the end of the list, the others by a comma
  induction ds generalizing fuel seen with
  | nil => exact absurd rfl hne
  | cons d ds ih =>
    obtain ⟨fuel, rfl⟩ : ∃ n, fuel = n + 1 := ⟨fuel - 1, by omega⟩
    have hd := hds d List.mem_cons_self
    cases ds with
    | nil =>
      simp only [indentedItems, String.toList_append, List.length_append] at hfuel
      have hvalue := hd depth fuel _ (by simp [newLine] at hfuel; omega)
        (endsNumber_newLine outer (']' :: r))
      simp only [indentedItems, String.toList_append, List.append_assoc, items?, value?_newLine,
        hvalue, Option.bind_eq_bind, Option.bind_some, skipBlanks_newLine]
      simp [skipBlanks_cons]
    | cons d' ds =>
      have hcons : indentedItems depth (d :: d' :: ds)
          = newLine depth ++ indented depth d ++ "," ++ indentedItems depth (d' :: ds) := rfl
      rw [hcons] at hfuel ⊢
      simp only [String.toList_append, List.length_append] at hfuel
      have hvalue := hd depth fuel _ (by simp [newLine] at hfuel; omega)
        (endsNumber_cons (c := ',') (by decide)
          ((indentedItems depth (d' :: ds)).toList ++ ((newLine outer).toList ++ ']' :: r)))
      have hrest := ih (fun e he => hds e (List.mem_cons_of_mem _ he)) (List.cons_ne_nil _ _)
        fuel (by simp [newLine] at hfuel; omega) (d :: seen)
      have hcomma : ",".toList = [','] := rfl
      simp only [String.toList_append, hcomma, List.append_assoc, List.cons_append, List.nil_append,
        items?, value?_newLine]
      rw [hvalue]
      simp only [Option.bind_eq_bind, Option.bind_some, skipBlanks_cons (c := ',') rfl, hrest]
      simp

/-- The fields of a record are read up to its closing brace. -/
lemma fields?_indentedFields {fs : List (String × Datum)} (hfs : ∀ f ∈ fs, ReadsBack f.2)
    (hne : fs ≠ []) (depth fuel : Nat) (hfuel : (indentedFields depth fs).toList.length < fuel)
    (outer : Nat) (seen : List (String × Datum)) (r : List Char) :
    fields? fuel ((indentedFields depth fs).toList ++ ((newLine outer).toList ++ '\x7d' :: r))
      (some seen) = some (.record (seen.reverse ++ fs), r) := by
  have hquoted (name : String) (cs : List Char) : (quoted name).toList ++ cs
      = '"' :: (name.toList.flatMap quotedChar ++ '"' :: cs) := by
    simp [quoted]
  have hlength (name : String) : (quoted name).toList.length
      = (name.toList.flatMap quotedChar).length + 2 := by
    simp [quoted]
  have hcolon : ": ".toList = [':', ' '] := rfl
  have hblank (fuel : Nat) (cs : List Char) : value? fuel (' ' :: cs) = value? fuel cs :=
    value?_congr (List.dropWhile_cons_of_pos rfl) fuel
  -- on the fields; the last one is followed by the end of the record, the others by a comma
  induction fs generalizing fuel seen with
  | nil => exact absurd rfl hne
  | cons f fs ih =>
    obtain ⟨name, d⟩ := f
    obtain ⟨fuel, rfl⟩ : ∃ n, fuel = n + 1 := ⟨fuel - 1, by omega⟩
    have hd : ReadsBack d := hfs (name, d) List.mem_cons_self
    have hname := length_le_length_flatMap_quotedChar name.toList
    cases fs with
    | nil =>
      have hcons : indentedFields depth [(name, d)]
          = newLine depth ++ quoted name ++ ": " ++ indented depth d := rfl
      rw [hcons] at hfuel ⊢
      simp only [String.toList_append, List.length_append, hlength] at hfuel
      have hvalue := hd depth fuel _ (by omega) (endsNumber_newLine outer ('\x7d' :: r))
      rw [String.toList_append, String.toList_append, String.toList_append, List.append_assoc,
        List.append_assoc, List.append_assoc, fields?_congr (skipBlanks_newLine depth _), hquoted,
        fields?, skipBlanks_cons (c := '"') rfl]
      simp only [text?_quoted fuel (s := name) (by omega), hcolon, List.cons_append,
        List.nil_append, Option.bind_eq_bind, Option.bind_some, skipBlanks_cons (c := ':') rfl,
        hblank, hvalue, skipBlanks_newLine, skipBlanks_cons (c := '\x7d') rfl]
      simp
    | cons f' fs =>
      have hcons : indentedFields depth ((name, d) :: f' :: fs) = newLine depth ++ quoted name
          ++ ": " ++ indented depth d ++ "," ++ indentedFields depth (f' :: fs) := rfl
      rw [hcons] at hfuel ⊢
      simp only [String.toList_append, List.length_append, hlength] at hfuel
      have hvalue := hd depth fuel _ (by omega) (endsNumber_cons (c := ',') (by decide)
        ((indentedFields depth (f' :: fs)).toList ++ ((newLine outer).toList ++ '\x7d' :: r)))
      have hrest := ih (fun e he => hfs e (List.mem_cons_of_mem _ he)) (List.cons_ne_nil _ _)
        fuel (by omega) ((name, d) :: seen)
      have hcomma : ",".toList = [','] := rfl
      simp only [String.toList_append, List.append_assoc]
      rw [fields?_congr (skipBlanks_newLine depth _), hquoted, fields?,
        skipBlanks_cons (c := '"') rfl]
      simp only [text?_quoted fuel (s := name) (by omega), hcolon, hcomma,
        List.cons_append, List.nil_append, Option.bind_eq_bind, Option.bind_some,
        skipBlanks_cons (c := ':') rfl, hblank, hvalue, skipBlanks_cons (c := ',') rfl,
        Option.map_some, hrest]
      simp

namespace ReadsBack

lemma int (n : Int) : ReadsBack (.int n) := by
  rintro depth (_ | fuel) r hfuel hr
  · simp at hfuel
  · obtain ⟨c, cs, hcs, hc, -⟩ := exists_toString_eq_cons n
    have hnumber := number?_toString n hr
    have hopens : opens c = true := hc.elim opens_of_isDigit fun h => h ▸ by decide
    have hne := fun d => ne_of_opens_integer (d := d) hc
    rw [indented, hcs, List.cons_append] at *
    rw [value?, skipBlanks_of_opens hopens]
    split
    case h_7 => exact hnumber
    all_goals
      rename_i heq
      exact absurd (List.cons.inj heq).1 (hne _ (by decide) (by decide))

lemma text (s : String) : ReadsBack (.text s) := by
  rintro depth (_ | fuel) r hfuel -
  · simp at hfuel
  · have hlen := length_le_length_flatMap_quotedChar s.toList
    simp only [indented, quoted, String.toList_ofList, List.cons_append, List.append_assoc,
      List.length_cons, List.length_append, List.nil_append] at hfuel ⊢
    simp only [value?, skipBlanks_cons (c := '"') rfl, text?_quoted fuel (s := s) (by omega)]
    rfl

lemma list {items : List Datum} (hplain : ∀ d ∈ items, Plain d) (h : ∀ d ∈ items, ReadsBack d) :
    ReadsBack (.list items) := by
  rintro depth (_ | fuel) r hfuel -
  · simp at hfuel
  · cases items with
    | nil => simp [indented, value?, skipBlanks_cons]
    | cons d ds =>
      have hcons : (indented depth (.list (d :: ds))).toList = '['
          :: ((indentedItems (depth + 1) (d :: ds)).toList
            ++ ((newLine depth).toList ++ [']'])) := by
        simp [indented]
      rw [hcons] at hfuel ⊢
      simp only [List.length_cons, List.length_append] at hfuel
      have hread := items?_indentedItems h (List.cons_ne_nil d ds) (depth + 1) fuel (by omega)
        depth [] r
      -- the bracket is not closed at once, so that the items are read
      obtain ⟨c, cs, hcs, hc⟩ := exists_skipBlanks_indentedItems (depth + 1)
        (hplain d List.mem_cons_self) ds ((newLine depth).toList ++ ']' :: r)
      rw [← items?_congr (skipBlanks_skipBlanks _), hcs] at hread
      simp only [List.cons_append, List.append_assoc, List.nil_append, value?,
        skipBlanks_cons (c := '[') rfl, hcs]
      split
      case h_1 heq => exact absurd hc (by rw [(List.cons.inj heq).1]; decide)
      case h_2 => exact hread

lemma record {fields : List (String × Datum)} (h : ∀ f ∈ fields, ReadsBack f.2) :
    ReadsBack (.record fields) := by
  rintro depth (_ | fuel) r hfuel -
  · simp at hfuel
  · cases fields with
    | nil => simp [indented, value?, skipBlanks_cons]
    | cons f fs =>
      have hcons : (indented depth (.record (f :: fs))).toList = '\x7b'
          :: ((indentedFields (depth + 1) (f :: fs)).toList
            ++ ((newLine depth).toList ++ ['\x7d'])) := by
        simp [indented]
      rw [hcons] at hfuel ⊢
      simp only [List.length_cons, List.length_append] at hfuel
      have hread := fields?_indentedFields h (List.cons_ne_nil f fs) (depth + 1) fuel (by omega)
        depth [] r
      obtain ⟨cs, hcs⟩ := exists_skipBlanks_indentedFields (depth + 1) f fs
        ((newLine depth).toList ++ '\x7d' :: r)
      rw [← fields?_congr (skipBlanks_skipBlanks _), hcs] at hread
      simp only [List.cons_append, List.append_assoc, List.nil_append, value?,
        skipBlanks_cons (c := '\x7b') rfl, hcs]
      exact hread

end ReadsBack

/-- A value of texts and integers is read back from its indented form. -/
theorem readsBack {d : Datum} (h : Plain d) : ReadsBack d := by
  induction h with
  | null =>
    rintro depth (_ | fuel) r hfuel -
    · simp at hfuel
    · simp [indented, value?, skipBlanks_cons]
  | bool b =>
    rintro depth (_ | fuel) r hfuel -
    · simp at hfuel
    · cases b <;> simp [indented, value?, skipBlanks_cons]
  | int n => exact .int n
  | text s => exact .text s
  | list hplain ih => exact .list hplain ih
  | record _ ih => exact .record ih

/-- A value of texts and integers is what its indented form is parsed as. -/
theorem parse?_pretty {d : Datum} (h : Plain d) : parse? (pretty d) = some d := by
  have hfuel : (indented 0 d).toList.length < 2 * (pretty d).toList.length + 2 := by
    rw [pretty]
    omega
  have hvalue := readsBack h 0 _ [] hfuel (by simp [EndsNumber])
  rw [List.append_nil] at hvalue
  rw [parse?, pretty] at *
  rw [hvalue]
  rfl

end SeriesStore.Json
