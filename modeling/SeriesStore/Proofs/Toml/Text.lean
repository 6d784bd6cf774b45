import SeriesStore.Proofs.Text.Digits
import SeriesStore.Toml.Printer
import SeriesStore.Toml.Text

/-!
# Reading printed texts

A text is read back from its printed form, whichever quotes it stands in, and the line break
behind it is left for the reader of lines.
-/

namespace SeriesStore.Toml

open Text

/-! ### Characters -/

lemma isPlain_of_needsEscape {c : Char} (h : needsEscape c = false) (hline : c ≠ '\n') :
    isPlain c = true := by
  by_cases htab : c = '\t'
  · rw [htab]
    rfl
  · simp only [needsEscape, Bool.or_eq_false_iff, beq_eq_false_iff_ne] at h
    simp_all [isPlain]

lemma codePoint?_hexDigits {c : Char} (h : c.toNat < 0x80) (cs : List Char) :
    codePoint? 4 ((hexDigits 4 c.toNat).map Char.toUpper ++ cs) = some (c, cs) := by
  have hvalue : ∀ n < 0x80, ofHexDigits? ((hexDigits 4 n).map Char.toUpper) = some n := by decide
  have hlen : ((hexDigits 4 c.toNat).map Char.toUpper).length = 4 := by simp
  have hvalid : c.toNat.isValidChar := c.valid
  rw [codePoint?, if_neg (by simp [hlen]), List.take_left' hlen, List.drop_left' hlen, hvalue _ h]
  simp only [Option.bind_eq_bind, Option.bind_some, hvalid, dif_pos]
  rfl

/-- What a character is shown as: itself, or a backslash and what stands for it. -/
lemma escaped_cases (lines : Bool) (quotes run : Nat) (c : Char) :
    (c = '"' ∧ run < quotes ∧ escaped lines quotes run c = (['"'], run + 1))
      ∨ (c = '\n' ∧ lines = true ∧ escaped lines quotes run c = (['\n'], 0))
      ∨ (c ≠ '"' ∧ c ≠ '\\' ∧ isPlain c = true ∧ escaped lines quotes run c = ([c], 0))
      ∨ ∃ e, escaped lines quotes run c = ('\\' :: e, 0) ∧ ∀ r, escape? (e ++ r) = some (c, r) := by
  unfold escaped
  split
  case h_1 =>
    split_ifs with hrun
    · exact .inl ⟨rfl, hrun, rfl⟩
    · exact .inr (.inr (.inr ⟨['"'], rfl, fun r => rfl⟩))
  case h_5 =>
    cases lines
    · exact .inr (.inr (.inr ⟨['n'], rfl, fun r => rfl⟩))
    · exact .inr (.inl ⟨rfl, rfl, rfl⟩)
  case h_8 hquote hslash _ htab _ _ _ =>
    split_ifs with hcode
    · have hsmall : c.toNat < 0x80 := by
        simp only [Bool.or_eq_true, decide_eq_true_eq, beq_iff_eq] at hcode
        omega
      exact .inr (.inr (.inr ⟨_, rfl, fun r => codePoint?_hexDigits hsmall r⟩))
    · have hplain : isPlain c = true := by
        simp only [Bool.or_eq_true, decide_eq_true_eq, beq_iff_eq, not_or, not_lt] at hcode
        simp [isPlain, hcode]
      exact .inr (.inr (.inl ⟨hquote, hslash, hplain, rfl⟩))
  case h_2 => exact .inr (.inr (.inr ⟨['\\'], rfl, fun r => rfl⟩))
  case h_3 => exact .inr (.inr (.inr ⟨['b'], rfl, fun r => rfl⟩))
  case h_4 => exact .inr (.inr (.inr ⟨['t'], rfl, fun r => rfl⟩))
  case h_6 => exact .inr (.inr (.inr ⟨['f'], rfl, fun r => rfl⟩))
  case h_7 => exact .inr (.inr (.inr ⟨['r'], rfl, fun r => rfl⟩))

lemma length_le_length_escapedAll (lines : Bool) (quotes run : Nat) (cs : List Char) :
    cs.length ≤ (escapedAll lines quotes run cs).length := by
  induction cs generalizing run with
  | nil => exact Nat.zero_le _
  | cons c cs ih =>
    have hpos : 0 < (escaped lines quotes run c).1.length := by
      rcases escaped_cases lines quotes run c with ⟨-, -, hform⟩ | ⟨-, -, hform⟩
        | ⟨-, -, -, hform⟩ | ⟨e, hform, -⟩ <;> simp [hform]
    rw [escapedAll, List.length_append, List.length_cons]
    have hrest := ih (escaped lines quotes run c).2
    omega

/-! ### One line -/

lemma basic?_escapedAll (fuel : Nat) (cs seen r : List Char) (h : cs.length < fuel) :
    basic? fuel (escapedAll false 0 0 cs ++ '"' :: r) seen
      = some (String.ofList (seen.reverse ++ cs), r) := by
  induction cs generalizing fuel seen with
  | nil =>
    obtain ⟨fuel, rfl⟩ := Nat.exists_eq_succ_of_ne_zero (Nat.ne_of_gt h)
    simp [escapedAll, basic?]
  | cons c cs ih =>
    obtain ⟨fuel, rfl⟩ := Nat.exists_eq_succ_of_ne_zero (Nat.ne_zero_of_lt h)
    have hread := ih fuel (c :: seen) (by simpa using h)
    rw [List.reverse_cons, List.append_assoc] at hread
    rw [escapedAll]
    rcases escaped_cases false 0 0 c with ⟨-, hrun, -⟩ | ⟨-, hlines, -⟩
      | ⟨hquote, hslash, hplain, hform⟩ | ⟨e, hform, he⟩
    · cases hrun
    · cases hlines
    · rw [hform, List.singleton_append, List.cons_append, basic?]
      · rw [if_pos hplain]
        exact hread
      · exact fun h => hquote h
      · exact fun h => hslash h
    · rw [hform, List.append_assoc, List.cons_append, basic?, he]
      exact hread

lemma literal?_append {cs : List Char} (hplain : ∀ c ∈ cs, isPlain c = true)
    (hquote : '\'' ∉ cs) (r : List Char) :
    literal? (cs ++ '\'' :: r) = some (String.ofList cs, r) := by
  have hinside : (cs ++ '\'' :: r).takeWhile (fun c => isPlain c && c != '\'') = cs := by
    rw [List.takeWhile_append_of_pos]
    · simp
    · intro c hc
      have hne : c ≠ '\'' := fun h => hquote (h ▸ hc)
      simp [hplain c hc, hne]
  simp [literal?, hinside]

/-! ### Several lines -/

section

variable {q : Char} {escapes : Bool} {run : Nat} {shown cs : List Char}

@[simp] lemma runLength_cons_of_ne {c : Char} (h : c ≠ q) (r : List Char) :
    runLength q (c :: r) = 0 := by
  simp [runLength, h]

lemma lineBreak?_of_isPlain {c : Char} (h : isPlain c = true) (r : List Char) :
    lineBreak? (c :: r) = none := by
  rw [lineBreak?]
  · intro r' hcons
    rw [(List.cons.inj hcons).1] at h
    cases h
  · intro r' hcons
    rw [(List.cons.inj hcons).1] at h
    cases h

lemma multiline?_plain {c : Char} (hplain : isPlain c = true)
    (hslash : (escapes && c == '\\') = false) {r : List Char} (hrun : runLength q (c :: r) < 3)
    (fuel : Nat) (seen : List Char) :
    multiline? q escapes (fuel + 1) (c :: r) seen = multiline? q escapes fuel r (c :: seen) := by
  rw [multiline?]
  simp only [lineBreak?_of_isPlain hplain, hslash, hplain, if_true, Bool.false_eq_true, if_false]
  rw [if_neg (by omega), if_neg (by omega)]

lemma multiline?_lineBreak (hq : '\n' ≠ q) (fuel : Nat) (r seen : List Char) :
    multiline? q escapes (fuel + 1) ('\n' :: r) seen
      = multiline? q escapes fuel r ('\n' :: seen) := by
  simp [multiline?, hq, lineBreak?]

lemma multiline?_escape (hq : '\\' ≠ q) {c : Char} {e r : List Char}
    (h : escape? (e ++ r) = some (c, r)) (fuel : Nat) (seen : List Char) :
    multiline? q true (fuel + 1) ('\\' :: (e ++ r)) seen
      = multiline? q true fuel r (c :: seen) := by
  simp [multiline?, hq, lineBreak?, h]

lemma multiline?_close {k : Nat} (hk : k ≤ 2) {r : List Char} (hr : runLength q r = 0)
    (fuel : Nat) (seen : List Char) :
    multiline? q escapes (fuel + 1) (List.replicate k q ++ q :: q :: q :: r) seen
      = some (String.ofList (seen.reverse ++ List.replicate k q), r) := by
  have hquotes : List.replicate k q ++ q :: q :: q :: r = List.replicate (k + 3) q ++ r := by
    rw [List.replicate_add, List.append_assoc]
    rfl
  have hrun : runLength q (List.replicate (k + 3) q ++ r) = k + 3 := by
    rw [runLength, List.takeWhile_append_of_pos]
    · rw [List.length_append, List.length_replicate]
      exact congrArg (k + 3 + ·) hr
    · intro c hc
      rw [List.eq_of_mem_replicate hc, beq_self_eq_true]
  simp only [hquotes, multiline?, hrun, if_neg (show ¬6 ≤ k + 3 by omega),
    if_pos (show 3 ≤ k + 3 by omega), List.drop_left' List.length_replicate, Nat.add_sub_cancel]

/-- What a text is shown as between two times three quotes `q`, after a run of quotes that has
been shown already. A quote stands for itself unless it were the third in a row. -/
inductive Body (q : Char) (escapes : Bool) : Nat → List Char → List Char → Prop
  | nil (run : Nat) : Body q escapes run [] []
  | quote {run : Nat} {shown cs : List Char} :
      run < 2 → Body q escapes (run + 1) shown cs → Body q escapes run (q :: shown) (q :: cs)
  | char {run : Nat} {c d : Char} {e shown cs : List Char} :
      d ≠ q →
      (∀ fuel r seen, multiline? q escapes (fuel + 1) (d :: (e ++ r)) seen
        = multiline? q escapes fuel r (c :: seen)) →
      Body q escapes 0 shown cs → Body q escapes run (d :: (e ++ shown)) (c :: cs)

lemma Body.length_le (h : Body q escapes run shown cs) : cs.length ≤ shown.length := by
  induction h with
  | nil => exact le_rfl
  | quote _ _ ih => exact Nat.succ_le_succ ih
  | char _ _ _ ih =>
    rw [List.length_cons, List.length_cons, List.length_append]
    exact Nat.succ_le_succ (ih.trans (Nat.le_add_left _ _))

/-- The quotes at the start of a body and behind it either are the end of it, or too few to be
one. -/
lemma Body.runLength_cases (h : Body q escapes run shown cs) (hrun : run ≤ 2) (r : List Char) :
    (∃ k, k ≤ 2 ∧ cs = List.replicate k q ∧ shown = List.replicate k q)
      ∨ runLength q (shown ++ q :: q :: q :: r) < 3 := by
  suffices (∃ k, k + run ≤ 2 ∧ cs = List.replicate k q ∧ shown = List.replicate k q)
      ∨ runLength q (shown ++ q :: q :: q :: r) + run ≤ 2 by
    rcases this with ⟨k, hk, heq⟩ | hfew
    · exact .inl ⟨k, by omega, heq⟩
    · exact .inr (by omega)
  induction h with
  | nil run => exact .inl ⟨0, by omega, rfl, rfl⟩
  | quote hlt _ ih =>
    rcases ih hlt with ⟨k, hk, rfl, rfl⟩ | hfew
    · exact .inl ⟨k + 1, by omega, rfl, rfl⟩
    · right
      simp only [runLength, List.cons_append, List.takeWhile_cons, beq_self_eq_true, if_true,
        List.length_cons] at hfew ⊢
      omega
  | char hne _ _ _ =>
    right
    rw [List.cons_append, runLength_cons_of_ne hne]
    omega

/-- A body is read as the text that it shows, and the reader stops behind the closing quotes. -/
lemma Body.read (h : Body q escapes run shown cs) (hrun : run ≤ 2) (hq : isPlain q = true)
    (hslash : q ≠ '\\') {r : List Char} (hr : runLength q r = 0) (fuel : Nat) (seen : List Char)
    (hfuel : cs.length < fuel) :
    multiline? q escapes fuel (shown ++ q :: q :: q :: r) seen
      = some (String.ofList (seen.reverse ++ cs), r) := by
  induction h generalizing fuel seen with
  | nil run =>
    obtain ⟨fuel, rfl⟩ := Nat.exists_eq_succ_of_ne_zero (Nat.ne_of_gt hfuel)
    exact multiline?_close (Nat.zero_le 2) hr fuel seen
  | @quote run shown cs hlt hbody ih =>
    obtain ⟨fuel, rfl⟩ := Nat.exists_eq_succ_of_ne_zero (Nat.ne_zero_of_lt hfuel)
    rcases (Body.quote hlt hbody).runLength_cases hrun r with ⟨k, hk, hcs, hshown⟩ | hfew
    · rw [hcs, hshown]
      exact multiline?_close hk hr fuel seen
    · have hread := ih hlt fuel (q :: seen) (by simpa using hfuel)
      rw [List.reverse_cons, List.append_assoc] at hread
      exact (multiline?_plain hq (by simp [hslash]) hfew fuel seen).trans hread
  | @char run c d e shown cs _ hform _ ih =>
    obtain ⟨fuel, rfl⟩ := Nat.exists_eq_succ_of_ne_zero (Nat.ne_zero_of_lt hfuel)
    have hread := ih (Nat.zero_le 2) fuel (c :: seen) (by simpa using hfuel)
    rw [List.reverse_cons, List.append_assoc] at hread
    rw [List.cons_append, List.append_assoc, hform]
    exact hread

lemma Body.of_escapedAll (hrun : run ≤ 2) (cs : List Char) :
    Body '"' true run (escapedAll true 2 run cs) cs := by
  induction cs generalizing run with
  | nil => exact .nil run
  | cons c cs ih =>
    have hrest := ih (Nat.zero_le 2)
    rw [escapedAll]
    rcases escaped_cases true 2 run c with ⟨rfl, hlt, hform⟩ | ⟨rfl, -, hform⟩
      | ⟨hquote, hslash, hplain, hform⟩ | ⟨e, hform, he⟩
    · rw [hform]
      exact .quote hlt (ih hlt)
    · rw [hform]
      refine .char (e := []) (by decide) (fun fuel r seen => ?_) hrest
      exact multiline?_lineBreak (by decide) fuel r seen
    · rw [hform]
      refine .char (e := []) hquote (fun fuel r seen => ?_) hrest
      exact multiline?_plain hplain (by simp [hslash]) (by simp [hquote]) fuel seen
    · rw [hform]
      refine .char (by decide) (fun fuel r seen => ?_) hrest
      exact multiline?_escape (by decide) (he r) fuel seen

/-- The longest run of a character so far and the one that has just been seen, one character
on. -/
def countRun (q : Char) (lengths : Nat × Nat) (c : Char) : Nat × Nat :=
  if c == q then (max lengths.1 (lengths.2 + 1), lengths.2 + 1) else (lengths.1, 0)

lemma longestRun_eq (q : Char) (cs : List Char) :
    longestRun q cs = (cs.foldl (countRun q) (0, 0)).1 := rfl

lemma le_foldl_countRun (q : Char) (cs : List Char) (lengths : Nat × Nat) :
    lengths.1 ≤ (cs.foldl (countRun q) lengths).1 := by
  induction cs generalizing lengths with
  | nil => exact le_rfl
  | cons c cs ih =>
    refine le_trans ?_ (ih (countRun q lengths c))
    rw [countRun]
    split_ifs
    · exact le_max_left _ _
    · exact le_rfl

lemma not_mem_of_longestRun (h : longestRun q cs = 0) : q ∉ cs := by
  intro hmem
  obtain ⟨before, behind, rfl⟩ := List.append_of_mem hmem
  have hle := le_foldl_countRun q behind (countRun q (before.foldl (countRun q) (0, 0)) q)
  rw [longestRun_eq, List.foldl_append, List.foldl_cons] at h
  rw [h, countRun, if_pos (beq_self_eq_true q)] at hle
  exact Nat.not_succ_le_zero _ ((le_max_right _ _).trans hle)

/-- A text without runs of three quotes may stand for itself. -/
lemma Body.of_isPlain (hq : '\n' ≠ q) (hplain : ∀ c ∈ cs, isPlain c = true ∨ c = '\n')
    {longest : Nat} (h : (cs.foldl (countRun q) (longest, run)).1 ≤ 2) :
    Body q false run cs cs := by
  induction cs generalizing longest run with
  | nil => exact .nil run
  | cons c cs ih =>
    have hrest := fun c hc => hplain c (List.mem_cons_of_mem _ hc)
    rw [List.foldl_cons, countRun] at h
    split_ifs at h with hc
    · have hlt : run + 1 ≤ 2 :=
        (le_max_right longest (run + 1)).trans ((le_foldl_countRun q cs _).trans h)
      rw [eq_of_beq hc]
      exact .quote hlt (ih hrest h)
    · have hne : c ≠ q := fun heq => hc (beq_iff_eq.mpr heq)
      refine .char (e := []) hne (fun fuel r seen => ?_) (ih hrest h)
      rcases hplain c List.mem_cons_self with hc | rfl
      · exact multiline?_plain hc rfl (by simp [hne]) fuel seen
      · exact multiline?_lineBreak hq fuel r seen

lemma multilineBody?_lineBreak (h : Body q escapes 0 shown cs) (hq : isPlain q = true)
    (hslash : q ≠ '\\') {r : List Char} (hr : runLength q r = 0) :
    multilineBody? q escapes ('\n' :: (shown ++ q :: q :: q :: r))
      = some (String.ofList cs, r) := by
  have hlen := h.length_le
  exact h.read (Nat.zero_le 2) hq hslash hr _ [] (by simp [lineBreak?]; omega)

/-- Without line breaks, none may be taken for one that is dropped. -/
lemma multilineBody?_of_body (h : Body q escapes 0 shown cs) (hq : isPlain q = true)
    (hslash : q ≠ '\\') {r : List Char} (hr : runLength q r = 0)
    (hshown : ∀ c ∈ shown.head?, isPlain c = true) :
    multilineBody? q escapes (shown ++ q :: q :: q :: r) = some (String.ofList cs, r) := by
  have hlen := h.length_le
  have hbreak : lineBreak? (shown ++ q :: q :: q :: r) = none := by
    cases shown with
    | nil => exact lineBreak?_of_isPlain hq _
    | cons c shown => exact lineBreak?_of_isPlain (hshown c rfl) _
  rw [multilineBody?, hbreak]
  exact h.read (Nat.zero_le 2) hq hslash hr _ [] (by simp; omega)

end

lemma isPlain_head_escapedAll {cs : List Char} (hline : '\n' ∉ cs) :
    ∀ c ∈ (escapedAll true 2 0 cs).head?, isPlain c = true := by
  cases cs with
  | nil => simp [escapedAll]
  | cons c cs =>
    rw [escapedAll]
    rcases escaped_cases true 2 0 c with ⟨-, -, hform⟩ | ⟨rfl, -, -⟩ | ⟨-, -, hplain, hform⟩
      | ⟨e, hform, -⟩
    · simp [hform, isPlain]
    · exact absurd List.mem_cons_self hline
    · simpa [hform] using hplain
    · simp [hform, isPlain]

/-! ### The four forms -/

lemma text?_basic (cs r : List Char) :
    text? ('"' :: (escapedAll false 0 0 cs ++ '"' :: '\n' :: r))
      = some (String.ofList cs, '\n' :: r) := by
  rw [text?]
  · have hlen := length_le_length_escapedAll false 0 0 cs
    exact basic?_escapedAll _ cs [] _ (by simp; omega)
  · intro r' hquotes
    cases cs with
    | nil => simp [escapedAll] at hquotes
    | cons c cs =>
      rw [escapedAll] at hquotes
      rcases escaped_cases false 0 0 c with ⟨-, hrun, -⟩ | ⟨-, hlines, -⟩
        | ⟨hquote, -, -, hform⟩ | ⟨e, hform, -⟩
      · cases hrun
      · cases hlines
      · rw [hform] at hquotes
        exact hquote (List.cons.inj hquotes).1
      · simp [hform] at hquotes

lemma text?_literal {cs : List Char} (hplain : ∀ c ∈ cs, isPlain c = true) (hquote : '\'' ∉ cs)
    (r : List Char) :
    text? ('\'' :: (cs ++ '\'' :: '\n' :: r)) = some (String.ofList cs, '\n' :: r) := by
  rw [text?]
  · exact literal?_append hplain hquote _
  · intro r' hquotes
    cases cs with
    | nil => simp at hquotes
    | cons c cs => exact hquote (List.mem_cons.mpr (.inl (List.cons.inj hquotes).1.symm))

lemma text?_double {cs first : List Char}
    (hfirst : (if cs.contains '\n' = true then ['\n'] else []) = first) (r : List Char) :
    text? ('"' :: '"' :: '"'
        :: (first ++ (escapedAll true 2 0 cs ++ '"' :: '"' :: '"' :: '\n' :: r)))
      = some (String.ofList cs, '\n' :: r) := by
  have hbody := Body.of_escapedAll (Nat.zero_le 2) cs
  rw [text?, ← hfirst]
  split_ifs with hline
  · exact multilineBody?_lineBreak hbody rfl (by decide) rfl
  · refine multilineBody?_of_body hbody rfl (by decide) rfl (isPlain_head_escapedAll ?_)
    simpa using hline

lemma text?_single {cs first : List Char} (hplain : ∀ c ∈ cs, isPlain c = true ∨ c = '\n')
    (hfew : longestRun '\'' cs ≤ 2)
    (hfirst : (if cs.contains '\n' = true then ['\n'] else []) = first) (r : List Char) :
    text? ('\'' :: '\'' :: '\'' :: (first ++ (cs ++ '\'' :: '\'' :: '\'' :: '\n' :: r)))
      = some (String.ofList cs, '\n' :: r) := by
  have hbody : Body '\'' false 0 cs cs := .of_isPlain (by decide) hplain hfew
  rw [text?, ← hfirst]
  split_ifs with hline
  · exact multilineBody?_lineBreak hbody rfl (by decide) rfl
  · refine multilineBody?_of_body hbody rfl (by decide) rfl fun c hc => ?_
    have hmem := List.mem_of_mem_head? hc
    have hne : c ≠ '\n' := fun heq => hline (by simpa using heq ▸ hmem)
    exact (hplain c hmem).resolve_right hne

/-- A text is read back from its printed form, up to the end of the line. -/
theorem text?_quoted (s : String) (r : List Char) :
    text? ((quoted s).toList ++ '\n' :: r) = some (s, '\n' :: r) := by
  have hplain (hcodes : s.toList.any needsEscape = false) :
      ∀ c ∈ s.toList, isPlain c = true ∨ c = '\n' := by
    intro c hc
    have hcode : needsEscape c = false := by simpa using List.any_eq_false.mp hcodes c hc
    exact or_iff_not_imp_right.mpr (isPlain_of_needsEscape hcode)
  conv_rhs => rw [← String.ofList_toList (s := s)]
  rw [quoted, String.toList_ofList]
  generalize s.toList = cs at hplain ⊢
  generalize hfirst : (if cs.contains '\n' = true then ['\n'] else []) = first
  split_ifs with hbasic hliteral hdouble hsingle hlines
  · simpa using text?_basic cs r
  · simp only [Bool.and_eq_true, Bool.not_eq_true', beq_iff_eq] at hliteral
    obtain ⟨⟨hcodes, hquote⟩, hlines⟩ := hliteral
    have hline : '\n' ∉ cs := by simpa using hlines
    have hinside : ∀ c ∈ cs, isPlain c = true := fun c hc =>
      (hplain hcodes c hc).resolve_right fun heq => hline (heq ▸ hc)
    simpa using text?_literal hinside (not_mem_of_longestRun hquote) r
  · simpa using text?_double hfirst r
  · simp only [Bool.and_eq_true, Bool.not_eq_true', decide_eq_true_eq] at hsingle
    simpa using text?_single (hplain hsingle.1) hsingle.2 hfirst r
  · simpa using text?_double hfirst r
  · simpa using text?_basic cs r

end SeriesStore.Toml
