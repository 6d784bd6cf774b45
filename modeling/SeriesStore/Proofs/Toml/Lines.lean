import SeriesStore.Proofs.Toml.Text
import SeriesStore.Toml.Reader

/-!
# Reading printed lines

A line with a value and a line with the name of a table are read back as statements, and so is
what is made of such lines.
-/

namespace SeriesStore.Toml

open Text

/-! ### Integers -/

lemma digitRun_append {ds : List Char} (hds : ∀ c ∈ ds, c.isDigit = true) (r seen : List Char) :
    digitRun Char.isDigit (ds ++ '\n' :: r) seen = (seen.reverse ++ ds, '\n' :: r) := by
  induction ds generalizing seen with
  | nil => simp [digitRun]
  | cons d ds ih =>
    have hrest := ih (fun c hc => hds c (List.mem_cons_of_mem d hc)) (d :: seen)
    rw [List.reverse_cons, List.append_assoc] at hrest
    unfold digitRun
    exact (if_pos (hds d List.mem_cons_self)).trans hrest

lemma wholePart?_toDigits (n : Nat) (r : List Char) :
    wholePart? (Nat.toDigits 10 n ++ '\n' :: r) = some (Nat.toDigits 10 n, '\n' :: r) := by
  have hdigits : ∀ c ∈ Nat.toDigits 10 n, c.isDigit = true := fun c => isDigit_of_mem_toDigits
  have hrun := digitRun_append hdigits r []
  obtain ⟨c, ds, hds, -, hzero⟩ := exists_toDigits_eq_cons n
  rw [hds] at hrun ⊢
  by_cases hc : c = '0'
  · rw [hzero hc, hc]
    rfl
  · rw [wholePart?, hrun]
    · rfl
    · exact fun r' h => hc (List.cons.inj h).1

lemma sign_toString (n : Int) (r : List Char) :
    sign ((toString n).toList ++ r) = (decide (n < 0), Nat.toDigits 10 n.natAbs ++ r) := by
  rw [Int.toString_eq_repr, Int.repr_eq_if]
  split_ifs with hsign
  · obtain ⟨c, ds, hds, hdigit, -⟩ := exists_toDigits_eq_cons n.toNat
    have hne (d : Char) (hd : d.isDigit = false) : c ≠ d := by
      rintro rfl
      rw [hdigit] at hd
      cases hd
    rw [Nat.toList_repr, decide_eq_false (not_lt.mpr hsign), show n.natAbs = n.toNat by omega, hds,
      List.cons_append, sign]
    · exact fun r' h => hne '-' rfl (List.cons.inj h).1
    · exact fun r' h => hne '+' rfl (List.cons.inj h).1
  · rw [String.toList_append, Nat.toList_repr, decide_eq_true (not_le.mp hsign),
      show n.natAbs = (-n).toNat by omega]
    rfl

lemma after?_line {c : Char} {cs : List Char} (hc : c ∉ cs) (hline : c ≠ '\n') (r : List Char) :
    after? c (cs ++ '\n' :: r) = none := by
  cases cs with
  | nil => simp [after?, hline.symm]
  | cons d cs =>
    have hne : d ≠ c := fun heq => hc (heq ▸ List.mem_cons_self)
    simp [after?, hne]

/-- Behind a number of fixed length stands what is left of its line. -/
lemma fixed?_line {k lo hi v : Nat} {cs r r' : List Char}
    (h : fixed? k lo hi (cs ++ '\n' :: r) = some (v, r')) : r' = cs.drop k ++ '\n' :: r := by
  simp only [fixed?, Option.ite_none_right_eq_some, Bool.and_eq_true, List.all_eq_true, beq_iff_eq,
    Option.some.injEq, Prod.mk.injEq] at h
  obtain ⟨⟨⟨⟨-, hdigits⟩, -⟩, -⟩, -, rfl⟩ := h
  have hle : k ≤ cs.length := by
    by_contra hlt
    obtain ⟨j, hj⟩ : ∃ j, k - cs.length = j + 1 := ⟨k - cs.length - 1, by omega⟩
    have hmem : '\n' ∈ (cs ++ '\n' :: r).take k := by
      rw [List.take_append, hj]
      exact List.mem_append_right _ List.mem_cons_self
    exact absurd (hdigits _ hmem) (by decide)
  exact List.drop_append_of_le_length hle

/-- An integer is no date and no time of day, in which another mark follows the first digits. -/
lemma moment?_toString (n : Int) (r : List Char) :
    moment? ((toString n).toList ++ '\n' :: r) = none := by
  obtain ⟨d, ds, hds, -, hdigits⟩ := exists_toString_eq_cons n
  have hafter {k lo hi : Nat} {c : Char} (hc : c.isDigit = false) (hline : c ≠ '\n')
      {p : Nat × List Char}
      (h : fixed? (k + 1) lo hi ((toString n).toList ++ '\n' :: r) = some p) :
      after? c p.2 = none := by
    rw [fixed?_line h, hds, List.drop_succ_cons]
    refine after?_line (fun hmem => ?_) hline r
    rw [hdigits c (List.mem_of_mem_drop hmem)] at hc
    cases hc
  have hdate : date? ((toString n).toList ++ '\n' :: r) = none := by
    rw [date?]
    cases h : fixed? 4 0 9999 ((toString n).toList ++ '\n' :: r) with
    | none => rfl
    | some p => simp [hafter (c := '-') rfl (by decide) h]
  have htime : time? ((toString n).toList ++ '\n' :: r) = none := by
    rw [time?]
    cases h : fixed? 2 0 23 ((toString n).toList ++ '\n' :: r) with
    | none => rfl
    | some p => simp [hafter (c := ':') rfl (by decide) h]
  rw [moment?, hdate, htime]
  rfl

/-- An integer is no number with a fraction or an exponent. -/
lemma real?_toString (n : Int) (r : List Char) :
    real? ((toString n).toList ++ '\n' :: r) = none := by
  have hwhole := wholePart?_toDigits n.natAbs r
  obtain ⟨c, ds, hds, hdigit, -⟩ := exists_toDigits_eq_cons n.natAbs
  rw [hds, List.cons_append] at hwhole
  simp only [real?, sign_toString, hds, List.cons_append]
  split
  case h_1 heq =>
    rw [(List.cons.inj heq).1] at hdigit
    cases hdigit
  case h_2 heq =>
    rw [(List.cons.inj heq).1] at hdigit
    cases hdigit
  case h_3 => simp [hwhole]

lemma integer?_toString {n : Int} (hn : inRange? n = some (.int n)) (r : List Char) :
    integer? ((toString n).toList ++ '\n' :: r) = some (.int n, '\n' :: r) := by
  have hsign := sign_toString n ('\n' :: r)
  have hwhole := wholePart?_toDigits n.natAbs r
  have habs : (if n < 0 then -(n.natAbs : Int) else n.natAbs) = n := by omega
  have hbase (d : Char) (hd : d ≠ '\n') (r' : List Char) :
      (toString n).toList ++ '\n' :: r ≠ '0' :: d :: r' := by
    intro heq
    rw [heq] at hsign
    obtain ⟨c, ds, hds, -, hzero⟩ := exists_toDigits_eq_cons n.natAbs
    rw [hds] at hsign
    have hdigits : '0' :: d :: r' = c :: (ds ++ '\n' :: r) := congrArg Prod.snd hsign
    obtain ⟨hc, hr⟩ := List.cons.inj hdigits
    rw [hzero hc.symm] at hr
    exact hd (List.cons.inj hr).1
  rw [integer?]
  · simp only [hsign, hwhole, Option.bind_eq_bind, Option.bind_some, digitsValue_toDigits,
      decide_eq_true_eq, habs, hn]
    rfl
  · exact fun r' => hbase 'x' (by decide) r'
  · exact fun r' => hbase 'o' (by decide) r'
  · exact fun r' => hbase 'b' (by decide) r'

/-! ### Values -/

/-- A value that is shown on one line, or not at all. -/
inductive Simple : Datum → Prop
  | null : Simple .null
  | bool (b : Bool) : Simple (.bool b)
  | int (n : Int) : Simple (.int n)
  | text (s : String) : Simple (.text s)

lemma exists_quoted_eq_cons (s : String) :
    ∃ c cs, (quoted s).toList = c :: cs ∧ (c = '"' ∨ c = '\'') := by
  rw [quoted, String.toList_ofList]
  split_ifs <;> exact ⟨_, _, rfl, by simp⟩

lemma scalar?_cons {c : Char} (ht : c ≠ 't') (hf : c ≠ 'f') (cs : List Char) :
    scalar? (c :: cs)
      = if c == '"' || c == '\'' then (text? (c :: cs)).map fun (s, r) => (.text s, r)
        else moment? (c :: cs) <|> real? (c :: cs) <|> integer? (c :: cs) := by
  rw [scalar?]
  · exact fun r h => absurd h ht
  · exact fun r h => absurd h hf

lemma scalar?_quoted (s : String) (r : List Char) :
    scalar? ((quoted s).toList ++ '\n' :: r) = some (.text s, '\n' :: r) := by
  have hread := text?_quoted s r
  obtain ⟨c, cs, hcs, hc⟩ := exists_quoted_eq_cons s
  rw [hcs, List.cons_append] at hread ⊢
  rcases hc with rfl | rfl
  · rw [scalar?_cons (by decide) (by decide), hread]
    rfl
  · rw [scalar?_cons (by decide) (by decide), hread]
    rfl

lemma scalar?_toString {n : Int} (hn : inRange? n = some (.int n)) (r : List Char) :
    scalar? ((toString n).toList ++ '\n' :: r) = some (.int n, '\n' :: r) := by
  have hmoment := moment?_toString n r
  have hreal := real?_toString n r
  have hinteger := integer?_toString hn r
  obtain ⟨c, cs, hcs, hc, -⟩ := exists_toString_eq_cons n
  have hne := fun d => ne_of_opens_integer (d := d) hc
  rw [hcs, List.cons_append] at hmoment hreal hinteger ⊢
  rw [scalar?_cons (hne 't' rfl (by decide)) (hne 'f' rfl (by decide)), if_neg, hmoment, hreal,
    hinteger]
  · rfl
  · simp [hne '"' rfl (by decide), hne '\'' rfl (by decide)]

/-- A printed value starts with a character that is no blank and opens no list and no table. -/
lemma exists_scalarText_eq_cons {d : Datum} (hd : Simple d) {s : String}
    (h : scalarText? d = some s) :
    ∃ c cs, s.toList = c :: cs ∧ isBlank c = false ∧ c ≠ '[' ∧ c ≠ '\x7b' := by
  cases hd with
  | null => cases h
  | bool b =>
    obtain rfl := Option.some.inj h
    cases b with
    | false => exact ⟨'f', _, rfl, by decide⟩
    | true => exact ⟨'t', _, rfl, by decide⟩
  | int n =>
    obtain ⟨-, rfl⟩ : _ ∧ toString n = s := by simpa [scalarText?] using h
    obtain ⟨c, cs, hcs, hc, -⟩ := exists_toString_eq_cons n
    have hne := fun d => ne_of_opens_integer (d := d) hc
    refine ⟨c, cs, hcs, ?_, hne _ rfl (by decide), hne _ rfl (by decide)⟩
    simp [isBlank, hne ' ' rfl (by decide), hne '\t' rfl (by decide)]
  | text s =>
    obtain rfl := Option.some.inj h
    obtain ⟨c, cs, hcs, rfl | rfl⟩ := exists_quoted_eq_cons s
    · exact ⟨_, cs, hcs, by decide⟩
    · exact ⟨_, cs, hcs, by decide⟩

/-- A value is read back from its printed form, up to the end of the line. -/
lemma scalar?_scalarText {d : Datum} (hd : Simple d) {s : String} (h : scalarText? d = some s)
    (r : List Char) : scalar? (s.toList ++ '\n' :: r) = some (d, '\n' :: r) := by
  cases hd with
  | null => cases h
  | bool b =>
    obtain rfl := Option.some.inj h
    cases b with
    | false => rfl
    | true => rfl
  | int n =>
    obtain ⟨hrange, rfl⟩ : _ ∧ toString n = s := by simpa [scalarText?] using h
    exact scalar?_toString (if_pos hrange) r
  | text s =>
    obtain rfl := Option.some.inj h
    exact scalar?_quoted s r

lemma value?_scalarText {d : Datum} (hd : Simple d) {s : String} (h : scalarText? d = some s)
    (fuel depth : Nat) (r : List Char) :
    value? (fuel + 1) depth (s.toList ++ '\n' :: r) = some (d, '\n' :: r) := by
  have hread := scalar?_scalarText hd h r
  obtain ⟨c, cs, hcs, -, hlist, htable⟩ := exists_scalarText_eq_cons hd h
  rw [hcs, List.cons_append] at hread ⊢
  rw [value?]
  · exact hread
  · exact fun r' heq => hlist (List.cons.inj heq).1
  · exact fun r' heq => htable (List.cons.inj heq).1

/-! ### Names -/

/-- A name that needs no quotes. -/
def IsKey (name : String) : Prop :=
  name.toList ≠ [] ∧ ∀ c ∈ name.toList, isKeyChar c = true

lemma IsKey.exists_eq_cons {name : String} (h : IsKey name) :
    ∃ c cs, name.toList = c :: cs ∧ ∀ d, isKeyChar d = false → c ≠ d := by
  obtain ⟨c, cs, hcs⟩ := List.exists_cons_of_ne_nil h.1
  refine ⟨c, cs, hcs, fun d hd heq => ?_⟩
  rw [← heq, h.2 c (hcs ▸ List.mem_cons_self)] at hd
  cases hd

lemma skipBlanks_cons {c : Char} (hc : isBlank c = false) (cs : List Char) :
    skipBlanks (c :: cs) = c :: cs := by
  simp [skipBlanks, hc]

/-- A name is read as a key of one part, up to a character that is neither in a name nor a
point. -/
lemma key?_append {name : String} (h : IsKey name) {r r' : List Char} {d : Char}
    (hr : ∀ c ∈ r.head?, isKeyChar c = false) (hskip : skipBlanks r = d :: r') (hd : d ≠ '.') :
    key? (name.toList ++ r) = some ([name], d :: r') := by
  have htake : (name.toList ++ r).takeWhile isKeyChar = name.toList := by
    rw [List.takeWhile_append_of_pos h.2]
    cases r with
    | nil => simp
    | cons c r => simp [hr c rfl]
  have hsimple : simpleKey? (skipBlanks (name.toList ++ r)) = some (name, r) := by
    obtain ⟨c, cs, hcs, hne⟩ := h.exists_eq_cons
    have hblank : isBlank c = false := by simp [isBlank, hne ' ' rfl, hne '\t' rfl]
    rw [hcs, List.cons_append] at htake ⊢
    rw [skipBlanks_cons hblank, simpleKey?, htake, ← List.cons_append, ← hcs]
    · simp [h.1]
    · exact fun r' heq => hne '"' rfl (List.cons.inj heq).1
    · exact fun r' heq => hne '\'' rfl (List.cons.inj heq).1
  have hparts (fuel : Nat) :
      keyParts? (fuel + 1) (name.toList ++ r) [] = some ([name], d :: r') := by
    rw [keyParts?, hsimple]
    simp [hskip, hd]
  rw [key?, hparts]
  rfl

/-! ### Statements -/

lemma statement?_assign {name : String} (hname : IsKey name) {d : Datum} (hd : Simple d)
    {s : String} (h : scalarText? d = some s) (r : List Char) :
    statement? (name.toList ++ ' ' :: '=' :: ' ' :: (s.toList ++ '\n' :: r))
      = some (.assign [name] d, '\n' :: r) := by
  have hkey := key?_append hname (r := ' ' :: '=' :: ' ' :: (s.toList ++ '\n' :: r))
    (by simp; decide) (skipBlanks_cons (c := '=') rfl _) (by decide)
  have hvalue := fun fuel => value?_scalarText hd h fuel maxDepth r
  have hskip : skipBlanks (' ' :: (s.toList ++ '\n' :: r)) = s.toList ++ '\n' :: r := by
    obtain ⟨c, cs, hcs, hblank, -⟩ := exists_scalarText_eq_cons hd h
    rw [hcs]
    exact skipBlanks_cons hblank _
  obtain ⟨c, cs, hcs, hne⟩ := hname.exists_eq_cons
  rw [hcs, List.cons_append] at hkey ⊢
  rw [statement?]
  · simp [hkey, after?, hskip, hvalue]
  · exact fun r' heq => hne '[' rfl (List.cons.inj heq).1
  · exact fun r' heq => hne '[' rfl (List.cons.inj heq).1

lemma statement?_table {name : String} (hname : IsKey name) (r : List Char) :
    statement? ('[' :: (name.toList ++ ']' :: r)) = some (.table [name], r) := by
  have hkey := key?_append hname (r := ']' :: r) (by simp; decide)
    (skipBlanks_cons (c := ']') rfl _) (by decide)
  obtain ⟨c, cs, hcs, hne⟩ := hname.exists_eq_cons
  rw [hcs, List.cons_append] at hkey ⊢
  rw [statement?]
  · simp [hkey, after?]
  · exact fun r' heq => hne '[' rfl (List.cons.inj heq).1

/-! ### Lines -/

/-- A character with which a statement can begin. -/
def opensStatement (c : Char) : Bool := isKeyChar c || c == '['

lemma skipLines_cons {c : Char} (hc : opensStatement c = true) (fuel : Nat) (cs : List Char) :
    skipLines (fuel + 1) (c :: cs) = c :: cs := by
  have hne (d : Char) (hd : opensStatement d = false) : c ≠ d := by
    rintro rfl
    rw [hc] at hd
    cases hd
  have hblank : isBlank c = false := by simp [isBlank, hne ' ' rfl, hne '\t' rfl]
  have hcomment : skipComment (c :: cs) = c :: cs := by
    rw [skipComment]
    exact fun r h => hne '#' rfl (List.cons.inj h).1
  have hbreak : lineBreak? (c :: cs) = none := by
    rw [lineBreak?]
    · exact fun r h => hne '\n' rfl (List.cons.inj h).1
    · exact fun r h => hne '\r' rfl (List.cons.inj h).1
  simp only [skipLines, skipBlanks_cons hblank, hcomment, hbreak]

lemma skipSpace_cons {c : Char} (hc : opensStatement c = true) (cs : List Char) :
    skipSpace (c :: cs) = c :: cs :=
  skipLines_cons hc _ cs

lemma skipSpace_lineBreak {c : Char} (hc : opensStatement c = true) (cs : List Char) :
    skipSpace ('\n' :: c :: cs) = c :: cs :=
  skipLines_cons hc _ cs

/-- The characters are read as the statements, one on a line, whatever follows them. -/
structure Reads (cs : List Char) (ss : List Statement) : Prop where
  length_le : ss.length ≤ cs.length
  /-- No byte order mark stands in front. -/
  head : ∀ c ∈ cs.head?, c ≠ '\uFEFF'
  read : ∀ fuel r seen,
    statements? (fuel + ss.length) (cs ++ r) seen = statements? fuel r (ss.reverse ++ seen)

lemma Reads.nil : Reads [] [] where
  length_le := le_rfl
  head c hc := by simp at hc
  read fuel r seen := rfl

lemma Reads.append {cs cs' : List Char} {ss ss' : List Statement} (h : Reads cs ss)
    (h' : Reads cs' ss') : Reads (cs ++ cs') (ss ++ ss') where
  length_le := by
    rw [List.length_append, List.length_append]
    exact Nat.add_le_add h.length_le h'.length_le
  head := by
    cases cs with
    | nil => exact h'.head
    | cons c cs => exact h.head
  read fuel r seen := by
    rw [List.length_append, Nat.add_comm ss.length, ← Nat.add_assoc, List.append_assoc, h.read,
      h'.read, List.reverse_append, List.append_assoc]

lemma Reads.parse? {s : String} {ss : List Statement} (h : Reads s.toList ss) :
    Toml.parse? s = Statement.document? ss := by
  obtain ⟨k, hk⟩ := Nat.exists_eq_add_of_le h.length_le
  have hread := h.read (k + 1) [] []
  have hfuel : k + 1 + ss.length = s.toList.length + 1 := by omega
  have hend : statements? (k + 1) [] ss.reverse = some ss := by
    rw [statements?]
    exact congrArg some (List.reverse_reverse ss)
  rw [List.append_nil, List.append_nil, hfuel, hend] at hread
  unfold Toml.parse?
  split
  case h_1 r heq => exact absurd rfl (h.head '\uFEFF' (by rw [heq]; rfl))
  case h_2 => simp only [hread, Option.bind_eq_bind, Option.bind_some]

/-- A statement that is read up to the end of its line. -/
lemma Reads.of_statement {cs : List Char} (c : Char) (line : List Char) {s : Statement}
    (hmark : ∀ c ∈ cs.head?, c ≠ '\uFEFF')
    (hspace : ∀ r, skipSpace (cs ++ '\n' :: r) = c :: (line ++ '\n' :: r))
    (h : ∀ r, statement? (c :: (line ++ '\n' :: r)) = some (s, '\n' :: r)) :
    Reads (cs ++ ['\n']) [s] where
  length_le := by simp
  head := by
    cases cs with
    | nil => simp
    | cons c cs => exact hmark
  read fuel r seen := by
    have hend : skipComment (skipBlanks ('\n' :: r)) = '\n' :: r := rfl
    rw [List.append_assoc, List.length_singleton, statements?]
    simp only [List.singleton_append, hspace, h, Option.bind_eq_bind, Option.bind_some, hend]
    rfl

lemma reads_assign {name : String} (hname : IsKey name) {d : Datum} (hd : Simple d) {s : String}
    (h : scalarText? d = some s) :
    Reads (name ++ " = " ++ s ++ "\n").toList [.assign [name] d] := by
  have hread := statement?_assign hname hd h
  obtain ⟨c, cs, hcs, hne⟩ := hname.exists_eq_cons
  have hopens : opensStatement c = true := by
    simp [opensStatement, hname.2 c (hcs ▸ List.mem_cons_self)]
  rw [hcs] at hread
  simp only [String.toList_append, hcs]
  refine Reads.of_statement c (cs ++ ' ' :: '=' :: ' ' :: s.toList) ?_ ?_ ?_
  · intro c' hc'
    obtain rfl := Option.some.inj hc'
    exact hne _ (by decide)
  · intro r
    simpa using skipSpace_cons hopens (cs ++ ' ' :: '=' :: ' ' :: (s.toList ++ '\n' :: r))
  · intro r
    simpa using hread r

lemma reads_table {name : String} (hname : IsKey name) :
    Reads ("\n[" ++ name ++ "]\n").toList [.table [name]] := by
  have hread := fun r => statement?_table hname ('\n' :: r)
  have hline : ("\n[" ++ name ++ "]\n").toList
      = ('\n' :: '[' :: (name.toList ++ [']'])) ++ ['\n'] := by simp
  rw [hline]
  refine Reads.of_statement '[' (name.toList ++ [']']) ?_ ?_ ?_
  · intro c hc
    obtain rfl := Option.some.inj hc
    decide
  · intro r
    exact skipSpace_lineBreak rfl _
  · intro r
    simpa using hread r

end SeriesStore.Toml
