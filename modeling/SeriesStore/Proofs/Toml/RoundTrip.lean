import SeriesStore.Proofs.Toml.Lines

/-!
# Reading printed documents

A record of plain values and of records of plain values is read back from its document. Only what
the document leaves out is missing.
-/

namespace SeriesStore.Toml

/-! ### Sections -/

/-- Whether a value is left out of a document. -/
def isNull : Datum → Bool
  | .null => true
  | _ => false

/-- The fields that a document shows. -/
def present (fields : List (String × Datum)) : List (String × Datum) :=
  fields.filter fun f => !isNull f.2

/-- The lines for the fields of a table. -/
def assignments (fields : List (String × Datum)) : List Statement :=
  (present fields).map fun f => .assign [f.1] f.2

/-- Fields that are shown as lines of one table: their names need no quotes and differ, and each
value stands on one line. -/
structure Section (fields : List (String × Datum)) : Prop where
  keys : ∀ f ∈ fields, IsKey f.1
  simple : ∀ f ∈ fields, Simple f.2
  nodup : (fields.map Prod.fst).Nodup

/-- Tables with their names. -/
def headed (tables : List (String × List (String × Datum))) : List (String × Datum) :=
  tables.map fun t => (t.1, .record t.2)

lemma Section.of_names {fields : List (String × Datum)} {names : List String}
    (hnames : fields.map Prod.fst = names) (hkeys : ∀ name ∈ names, IsKey name)
    (hnodup : names.Nodup) (hsimple : ∀ f ∈ fields, Simple f.2) : Section fields where
  keys f hf := hkeys f.1 (hnames ▸ List.mem_map_of_mem hf)
  simple := hsimple
  nodup := hnames ▸ hnodup

lemma Section.tail {f : String × Datum} {fields : List (String × Datum)}
    (h : Section (f :: fields)) : Section fields where
  keys f hf := h.keys f (List.mem_cons_of_mem _ hf)
  simple f hf := h.simple f (List.mem_cons_of_mem _ hf)
  nodup := (List.nodup_cons.mp h.nodup).2

lemma scalarLines?_null {f : String × Datum} (h : isNull f.2 = true)
    (fields : List (String × Datum)) : scalarLines? (f :: fields) = scalarLines? fields := by
  obtain ⟨name, d⟩ := f
  cases d with
  | null => rfl
  | _ => cases h

lemma scalarLines?_cons {f : String × Datum} (hf : Simple f.2) (hnull : isNull f.2 = false)
    (fields : List (String × Datum)) :
    scalarLines? (f :: fields) = (scalarText? f.2).bind fun s =>
      (scalarLines? fields).map fun rest => f.1 ++ " = " ++ s ++ "\n" ++ rest := by
  obtain ⟨name, d⟩ := f
  cases hf with
  | null => cases hnull
  | bool b => simp [scalarLines?, Option.map_eq_bind]
  | int n => simp [scalarLines?, Option.map_eq_bind]
  | text s => simp [scalarLines?, Option.map_eq_bind]

lemma reads_scalarLines {fields : List (String × Datum)} (h : Section fields) {s : String}
    (hs : scalarLines? fields = some s) : Reads s.toList (assignments fields) := by
  induction fields generalizing s with
  | nil =>
    obtain rfl := Option.some.inj hs
    exact .nil
  | cons f fields ih =>
    have hf := h.simple f List.mem_cons_self
    cases hnull : isNull f.2 with
    | true =>
      rw [scalarLines?_null hnull] at hs
      rw [assignments, present, List.filter_cons_of_neg (by simp [hnull])]
      exact ih h.tail hs
    | false =>
      rw [scalarLines?_cons hf hnull] at hs
      simp only [Option.bind_eq_some_iff, Option.map_eq_some_iff] at hs
      obtain ⟨value, hvalue, rest, hrest, rfl⟩ := hs
      have hline := reads_assign (h.keys f List.mem_cons_self) hf hvalue
      have happend := hline.append (ih h.tail hrest)
      rw [← String.toList_append] at happend
      rw [assignments, present, List.filter_cons_of_pos (by simp [hnull]), List.map_cons]
      exact happend

lemma reads_tables {tables : List (String × List (String × Datum))}
    (h : ∀ t ∈ tables, IsKey t.1 ∧ Section t.2) {s : String}
    (hs : tables? (headed tables) = some s) :
    Reads s.toList (tables.flatMap fun t => .table [t.1] :: assignments t.2) := by
  induction tables generalizing s with
  | nil =>
    obtain rfl := Option.some.inj hs
    exact .nil
  | cons t tables ih =>
    obtain ⟨hkey, hfields⟩ := h t List.mem_cons_self
    simp only [headed, List.map_cons, tables?, Option.bind_eq_bind, Option.pure_def,
      Option.bind_eq_some_iff, Option.some.injEq] at hs
    obtain ⟨lines, hlines, rest, hrest, rfl⟩ := hs
    have hread := ((reads_table hkey).append (reads_scalarLines hfields hlines)).append
      (ih (fun t ht => h t (List.mem_cons_of_mem _ ht)) hrest)
    simpa using hread

lemma scalarLines?_append_headed {fields : List (String × Datum)} (h : Section fields)
    (tables : List (String × List (String × Datum))) :
    scalarLines? (fields ++ headed tables) = scalarLines? fields := by
  induction fields with
  | nil =>
    induction tables with
    | nil => rfl
    | cons t tables ih => exact ih
  | cons f fields ih =>
    have hf := h.simple f List.mem_cons_self
    cases hnull : isNull f.2 with
    | true =>
      rw [List.cons_append, scalarLines?_null hnull, scalarLines?_null hnull]
      exact ih h.tail
    | false =>
      rw [List.cons_append, scalarLines?_cons hf hnull, scalarLines?_cons hf hnull, ih h.tail]

lemma tables?_append_headed {fields : List (String × Datum)} (h : Section fields)
    (tables : List (String × List (String × Datum))) :
    tables? (fields ++ headed tables) = tables? (headed tables) := by
  induction fields with
  | nil => rfl
  | cons f fields ih =>
    obtain ⟨name, d⟩ := f
    have hf : Simple d := h.simple (name, d) List.mem_cons_self
    rw [← ih h.tail]
    cases hf <;> rfl

/-! ### Filling tables -/

/-- The fields of a table that values have been given to. -/
def values (fields : List (String × Datum)) : Fields := fields.map fun f => (f.1, .value f.2)

/-- Tables that have been closed. -/
def closed (tables : List (String × List (String × Datum))) : Fields :=
  tables.map fun t => (t.1, .table false false (values t.2))

lemma lookup_eq_none {fs : Fields} {name : String} (h : name ∉ fs.map Prod.fst) :
    fs.lookup name = none := by
  rw [List.lookup_eq_none_iff]
  intro p hp
  rw [bne_iff_ne]
  rintro rfl
  exact h (List.mem_map_of_mem hp)

lemma put_of_not_mem {fs : Fields} {name : String} (h : name ∉ fs.map Prod.fst) (item : Item) :
    fs.put name item = fs ++ [(name, item)] := by
  rw [Fields.put, if_neg]
  rw [List.any_eq_true]
  rintro ⟨p, hp, heq⟩
  exact h (eq_of_beq heq ▸ List.mem_map_of_mem hp)

lemma foldlM_assign (fields : List (String × Datum)) (d : Draft)
    (h : (d.current.map Prod.fst ++ fields.map Prod.fst).Nodup) :
    (fields.map fun f => Statement.assign [f.1] f.2).foldlM Draft.step d
      = some { d with current := d.current ++ values fields } := by
  induction fields generalizing d with
  | nil => simp [values]
  | cons f fields ih =>
    have hnew : f.1 ∉ d.current.map Prod.fst := fun hmem =>
      (List.nodup_append.mp h).2.2 f.1 hmem f.1 List.mem_cons_self rfl
    have hassign : Fields.assign [f.1] f.2 d.current = some (d.current ++ [(f.1, .value f.2)]) := by
      simp [Fields.assign, lookup_eq_none hnew, put_of_not_mem hnew]
    have hrest := ih { d with current := d.current ++ [(f.1, .value f.2)] } (by simpa using h)
    rw [List.map_cons, List.foldlM_cons, Draft.step, hassign]
    simpa [values] using hrest

/-- The header of a new table closes the table in front of it. -/
lemma step_table {d : Draft} {root : Fields} (hclose : d.close = some root) {name : String}
    (hnew : name ∉ root.map Prod.fst) :
    d.step (.table [name]) = some ⟨root, [], .table [name]⟩ := by
  simp [Draft.step, hclose, Draft.split?, Draft.find?, lookup_eq_none hnew, Fields.within]

lemma close_table {root : Fields} {name : String} (hnew : name ∉ root.map Prod.fst)
    (current : Fields) :
    Draft.close ⟨root, current, .table [name]⟩
      = some (root ++ [(name, .table false false current)]) := by
  simp [Draft.close, Draft.split?, lookup_eq_none hnew, Fields.within, put_of_not_mem hnew]

lemma foldlM_tables (tables : List (String × List (String × Datum))) {d : Draft} {root : Fields}
    (hclose : d.close = some root) (h : (root.map Prod.fst ++ tables.map Prod.fst).Nodup)
    (hfields : ∀ t ∈ tables, ((present t.2).map Prod.fst).Nodup) :
    ∃ d', (tables.flatMap fun t => .table [t.1] :: assignments t.2).foldlM Draft.step d = some d'
      ∧ d'.close = some (root ++ closed (tables.map fun t => (t.1, present t.2))) := by
  induction tables generalizing d root with
  | nil => exact ⟨d, rfl, by simpa [closed] using hclose⟩
  | cons t tables ih =>
    have hnew : t.1 ∉ root.map Prod.fst := fun hmem =>
      (List.nodup_append.mp h).2.2 t.1 hmem t.1 List.mem_cons_self rfl
    have hassign := foldlM_assign (present t.2) ⟨root, [], .table [t.1]⟩
      (by simpa using hfields t List.mem_cons_self)
    obtain ⟨d', hd', hclosed⟩ := ih (close_table hnew (values (present t.2)))
      (by simpa using h) fun t ht => hfields t (List.mem_cons_of_mem _ ht)
    refine ⟨d', ?_, ?_⟩
    · rw [List.flatMap_cons, List.cons_append, List.foldlM_cons, step_table hclose hnew,
        Option.bind_eq_bind, Option.bind_some, List.foldlM_append, assignments, hassign]
      exact hd'
    · rw [hclosed]
      simp [closed]

lemma fieldsDatum_append (fs fs' : Fields) :
    Fields.fieldsDatum (fs ++ fs') = Fields.fieldsDatum fs ++ Fields.fieldsDatum fs' := by
  induction fs with
  | nil => rfl
  | cons f fs ih => simp [Fields.fieldsDatum, ih]

lemma fieldsDatum_values (fields : List (String × Datum)) :
    Fields.fieldsDatum (values fields) = fields := by
  induction fields with
  | nil => rfl
  | cons f fields ih => exact congrArg (f :: ·) ih

lemma fieldsDatum_closed (tables : List (String × List (String × Datum))) :
    Fields.fieldsDatum (closed tables) = headed tables := by
  induction tables with
  | nil => rfl
  | cons t tables ih =>
    have hitem : Fields.itemDatum (.table false false (values t.2)) = .record t.2 := by
      rw [Fields.itemDatum, fieldsDatum_values]
    rw [closed, List.map_cons, Fields.fieldsDatum, hitem, headed, List.map_cons]
    exact congrArg ((t.1, .record t.2) :: ·) ih

/-! ### Documents -/

/-- A record of plain values and of tables of plain values, with different names throughout. -/
structure Tabular (fields : List (String × Datum))
    (tables : List (String × List (String × Datum))) : Prop where
  top : Section fields
  inner : ∀ t ∈ tables, IsKey t.1 ∧ Section t.2
  nodup : (fields.map Prod.fst ++ tables.map Prod.fst).Nodup

variable {fields : List (String × Datum)} {tables : List (String × List (String × Datum))}

lemma map_present_sublist (fields : List (String × Datum)) :
    ((present fields).map Prod.fst).Sublist (fields.map Prod.fst) :=
  List.filter_sublist.map Prod.fst

/-- What the statements of a document describe. -/
lemma document?_statements (h : Tabular fields tables) :
    Statement.document?
        (assignments fields ++ tables.flatMap fun t => .table [t.1] :: assignments t.2)
      = some (.record (present fields ++ headed (tables.map fun t => (t.1, present t.2)))) := by
  have hsub := map_present_sublist fields
  have hkeys : (values (present fields)).map Prod.fst = (present fields).map Prod.fst := by
    simp [values]
  have hassign := foldlM_assign (present fields) {} (h.top.nodup.sublist hsub)
  have htop : Draft.close { current := values (present fields) }
      = some (values (present fields)) := rfl
  obtain ⟨d, hd, hclose⟩ := foldlM_tables tables htop
    (hkeys ▸ h.nodup.sublist (hsub.append (.refl _)))
    fun t ht => (h.inner t ht).2.nodup.sublist (map_present_sublist t.2)
  rw [Statement.document?, List.foldlM_append, assignments, hassign]
  simp only [Option.bind_eq_bind, Option.bind_some, List.nil_append, hd, hclose,
    fieldsDatum_append, fieldsDatum_values, fieldsDatum_closed]
  rfl

/-- Integers that a document can show. -/
def Fits (d : Datum) : Prop :=
  ∀ n, d = .int n → -0x8000000000000000 ≤ n ∧ n < 0x8000000000000000

@[simp] lemma fits_null : Fits .null := fun _ h => Datum.noConfusion h

@[simp] lemma fits_text (s : String) : Fits (.text s) := fun _ h => Datum.noConfusion h

lemma fits_int (n : Int) :
    Fits (.int n) ↔ -0x8000000000000000 ≤ n ∧ n < 0x8000000000000000 := by
  simp [Fits]

lemma scalarText?_isSome_iff {d : Datum} (hd : Simple d) (hnull : isNull d = false) :
    (scalarText? d).isSome ↔ Fits d := by
  cases hd with
  | null => cases hnull
  | bool b => simp [scalarText?, Fits]
  | int n => simp [scalarText?, fits_int]
  | text s => simp [scalarText?, Fits]

lemma scalarLines?_isSome_iff (h : Section fields) :
    (scalarLines? fields).isSome ↔ ∀ f ∈ fields, Fits f.2 := by
  induction fields with
  | nil => simp [scalarLines?]
  | cons f fields ih =>
    have hf := h.simple f List.mem_cons_self
    rw [List.forall_mem_cons, ← ih h.tail]
    cases hnull : isNull f.2 with
    | true =>
      have hfits : Fits f.2 := by
        intro n hn
        rw [hn] at hnull
        cases hnull
      rw [scalarLines?_null hnull]
      exact (and_iff_right hfits).symm
    | false =>
      rw [scalarLines?_cons hf hnull, ← scalarText?_isSome_iff hf hnull]
      cases scalarText? f.2 <;> simp

lemma tables?_isSome_iff (h : ∀ t ∈ tables, IsKey t.1 ∧ Section t.2) :
    (tables? (headed tables)).isSome ↔ ∀ t ∈ tables, ∀ f ∈ t.2, Fits f.2 := by
  induction tables with
  | nil => simp [headed, tables?]
  | cons t tables ih =>
    obtain ⟨⟨-, hfields⟩, hrest⟩ := List.forall_mem_cons.mp h
    have hcons : headed (t :: tables) = (t.1, .record t.2) :: headed tables := rfl
    rw [List.forall_mem_cons, ← ih hrest, ← scalarLines?_isSome_iff hfields, hcons, tables?]
    cases scalarLines? t.2 <;> cases tables? (headed tables) <;> simp

/-- A record has a document if its integers are numbers of 64 bits with sign. -/
lemma document?_isSome_iff (h : Tabular fields tables) :
    (document? (.record (fields ++ headed tables))).isSome
      ↔ (∀ f ∈ fields, Fits f.2) ∧ ∀ t ∈ tables, ∀ f ∈ t.2, Fits f.2 := by
  rw [← scalarLines?_isSome_iff h.top, ← tables?_isSome_iff h.inner, document?,
    scalarLines?_append_headed h.top, tables?_append_headed h.top]
  cases scalarLines? fields <;> cases tables? (headed tables) <;> simp

/-- A document is read as the record that it was made from, without the values that it leaves
out. -/
theorem parse?_document (h : Tabular fields tables) {s : String}
    (hs : document? (.record (fields ++ headed tables)) = some s) :
    parse? s
      = some (.record (present fields ++ headed (tables.map fun t => (t.1, present t.2)))) := by
  simp only [document?, scalarLines?_append_headed h.top, tables?_append_headed h.top,
    Option.bind_eq_bind, Option.pure_def, Option.bind_eq_some_iff, Option.some.injEq] at hs
  obtain ⟨lines, hlines, rest, hrest, rfl⟩ := hs
  have hreads := (reads_scalarLines h.top hlines).append (reads_tables h.inner hrest)
  rw [← String.toList_append] at hreads
  rw [hreads.parse?, document?_statements h]

end SeriesStore.Toml
