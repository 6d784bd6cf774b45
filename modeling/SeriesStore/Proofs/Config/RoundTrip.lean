import SeriesStore.Config.Printer
import SeriesStore.Config.Reader
import SeriesStore.Proofs.Index.ManifestText
import SeriesStore.Proofs.Time.Duration
import SeriesStore.Proofs.Toml.RoundTrip

/-!
# Reading written configurations

A configuration is read back from its TOML document whenever it has one, and from its JSON document
unless its size limit is a number beyond 64 bits with sign.
-/

namespace SeriesStore.Config

/-- The JSON document of a configuration. -/
def toJson (c : Config) : String := Json.pretty c.toDatum

/-- The configuration in a JSON document. -/
def ofJson (dataDir : String) (s : String) : Except ConfigFault Config := do
  ofDatum .json dataDir (← demand (Json.parse? s))

/-! ### Values -/

lemma duration_toText (t : Duration) : duration (.text t.toText) = .ok t := by
  simp only [duration, text, Datum.text?, demand, bind, Except.bind, Duration.ofText?_toText]

lemma optionalDuration_toText (t : Duration) :
    optionalDuration (.text t.toText) = .ok (some t) := by
  rw [optionalDuration, duration_toText]
  · rfl
  · exact Datum.noConfusion

lemma optionalDuration_getD (t : Option Duration) :
    optionalDuration ((t.map fun t => Datum.text t.toText).getD .null) = .ok t := by
  cases t with
  | none => rfl
  | some t => exact optionalDuration_toText t

lemma word_ofWord (w : UInt64) : word (ofWord w) = .ok w := by
  rw [word, ofWord, Manifest.uint64?_toNat]
  rfl

lemma byte_toNat (b : UInt8) : byte (.int b.toNat) = .ok b := by
  have hrange : (0 : Int) ≤ b.toNat ∧ (b.toNat : Int) < 256 := by
    have := b.toNat_lt
    omega
  rw [byte, if_pos hrange, Int.toNat_natCast, UInt8.ofNat_toNat]

lemma resolution_name (f : Format) (r : Resolution) : resolution f (.text r.name) = .ok r := by
  have hchoice : choice f (.text r.name) = .ok r.name := by cases f <;> rfl
  rw [resolution, hchoice]
  simp only [bind, Except.bind, Resolution.ofName?_name]
  rfl

lemma toLower_of_isDigit {c : Char} (h : c.isDigit = true) : c.toLower = c := by
  rw [Char.isDigit, Bool.and_eq_true, decide_eq_true_eq, decide_eq_true_eq] at h
  rw [Char.toLower, dif_neg]
  exact fun hupper => absurd (UInt32.le_trans hupper.1 h.2) (by decide)

/-- A written duration starts with a digit, so it is not taken for the word that stands for none. -/
lemma isUnbounded_toText (t : Duration) : isUnbounded t.toText = false := by
  obtain ⟨c, ds, hds, hdigit, -⟩ :=
    Text.exists_toDigits_eq_cons (t.millis.toNat / t.displayUnit.millis)
  rw [isUnbounded, t.trim_toText, String.ofList_toList, beq_eq_false_iff_ne, Text.lowerAscii]
  intro h
  have hword := congrArg String.toList h
  rw [String.toList_map, t.toList_toText, hds, List.cons_append, List.map_cons,
    toLower_of_isDigit hdigit] at hword
  have hu : c = 'u' := (List.cons.inj hword).1
  rw [hu] at hdigit
  cases hdigit

lemma ageLimit_toText (age : Option Duration) :
    ageLimit (.text ((age.map Duration.toText).getD "unbounded")) = .ok age := by
  cases age with
  | none =>
    have hword : isUnbounded "unbounded" = true := by decide +kernel
    simp [ageLimit, hword]
  | some t => simp [ageLimit, isUnbounded_toText, optionalDuration_toText]

/-- A number of bytes is read back if it is a number of 64 bits with sign. -/
lemma sizeLimit_ofWord (size : Option UInt64) :
    sizeLimit ((size.map ofWord).getD (.int (-1)))
      = if ∀ n ∈ size, n.toNat < 0x8000000000000000 then .ok size else .error .malformed := by
  cases size with
  | none => simp [sizeLimit]
  | some n =>
    by_cases hn : n.toNat < 0x8000000000000000
    · have hrange : ¬((n.toNat : Int) < -0x8000000000000000
          ∨ 0x8000000000000000 ≤ (n.toNat : Int)) := by omega
      have hunlimited : (n.toNat : Int) ≠ -1 := by omega
      have hneg : ¬(n.toNat : Int) < 0 := by omega
      rw [if_pos (by simpa using hn)]
      simp only [Option.map_some, Option.getD_some, ofWord, sizeLimit, if_neg hrange,
        if_neg hunlimited, if_neg hneg, Int.toNat_natCast, UInt64.ofNat_toNat]
    · rw [if_neg (by simpa using hn)]
      exact if_pos (by omega)

/-! ### Sections -/

section

variable {α β : Type} {fields : List (String × Reading α)} {f : Format}

/-- The value of the first field is read and put in its place. -/
lemma readFields_cons {name : String} {d : Datum} {items : List (String × Datum)} {a : α}
    {read : Reading α} {x : Except ConfigFault β} {v : β} {g : β → α}
    (hlookup : fields.lookup name = some read) (hread : read f d a = x >>= fun v => pure (g v))
    (hx : x = .ok v) :
    readFields fields f (.record ((name, d) :: items)) a
      = readFields fields f (.record items) (g v) := by
  have hvalue : read f d a = .ok (g v) := by
    rw [hread, hx]
    rfl
  simp only [readFields, List.foldlM_cons, hlookup, hvalue]
  rfl

/-- The first value that is refused is reported. -/
lemma readFields_error {name : String} {d : Datum} {items : List (String × Datum)} {a : α}
    {read : Reading α} {e : ConfigFault} (hlookup : fields.lookup name = some read)
    (hread : read f d a = .error e) :
    readFields fields f (.record ((name, d) :: items)) a = .error e := by
  simp only [readFields, List.foldlM_cons, hlookup, hread]
  rfl

end

/-- The fields of a record. -/
def fieldsOf : Datum → List (String × Datum)
  | .record fields => fields
  | _ => []

variable (f : Format)

lemma readFields_compactionDatum (c : CompactionConfig) :
    readFields compactionFields f (compactionDatum c) {} = .ok c := by
  refine (readFields_cons rfl rfl rfl).trans ?_
  refine (readFields_cons rfl rfl (duration_toText c.frequency)).trans ?_
  refine (readFields_cons rfl rfl (optionalDuration_getD c.retention)).trans ?_
  refine (readFields_cons rfl rfl (word_ofWord c.trigger)).trans ?_
  refine (readFields_cons rfl rfl (word_ofWord c.target)).trans ?_
  refine (readFields_cons rfl rfl (duration_toText c.lateness)).trans ?_
  refine (readFields_cons rfl rfl (duration_toText c.block)).trans ?_
  refine (readFields_cons rfl rfl (resolution_name f c.resolution)).trans ?_
  rfl

/-- A document leaves out that data is kept forever, which is what is known without it. -/
lemma readFields_present_compactionDatum (c : CompactionConfig) :
    readFields compactionFields f (.record (Toml.present (fieldsOf (compactionDatum c)))) {}
      = .ok c := by
  obtain ⟨kind, frequency, retention, trigger, target, lateness, block, unit⟩ := c
  cases retention with
  | some t => exact readFields_compactionDatum f _
  | none =>
    refine (readFields_cons rfl rfl rfl).trans ?_
    refine (readFields_cons rfl rfl (duration_toText frequency)).trans ?_
    refine (readFields_cons rfl rfl (word_ofWord trigger)).trans ?_
    refine (readFields_cons rfl rfl (word_ofWord target)).trans ?_
    refine (readFields_cons rfl rfl (duration_toText lateness)).trans ?_
    refine (readFields_cons rfl rfl (duration_toText block)).trans ?_
    refine (readFields_cons rfl rfl (resolution_name f unit)).trans ?_
    rfl

/-- Whether the size limit of the log, if it has one, is a number of 64 bits with sign. -/
def sizeFits (c : LogConfig) : Prop := ∀ n ∈ c.size, n.toNat < 0x8000000000000000

lemma readFields_logDatum {c : LogConfig} (h : sizeFits c) :
    readFields logFields f (logDatum c) {} = .ok c := by
  have hsize := (sizeLimit_ofWord c.size).trans (if_pos h)
  refine (readFields_cons rfl rfl hsize).trans ?_
  refine (readFields_cons rfl rfl (ageLimit_toText c.age)).trans ?_
  refine (readFields_cons rfl rfl (word_ofWord c.files)).trans ?_
  refine (readFields_cons rfl rfl (byte_toNat c.percentage)).trans ?_
  rfl

lemma readFields_logDatum_error {c : LogConfig} (h : ¬sizeFits c) :
    readFields logFields f (logDatum c) {} = .error .malformed := by
  have hsize := (sizeLimit_ofWord c.size).trans (if_neg h)
  exact readFields_error rfl (by simp only [hsize]; rfl)

lemma readFields_reportDatum (c : ReportConfig) :
    readFields reportFields f (reportDatum c) {} = .ok c := by
  refine (readFields_cons rfl rfl rfl).trans ?_
  refine (readFields_cons rfl rfl rfl).trans ?_
  rfl

/-! ### Documents -/

/-- The sections of a tree. -/
def sections (c : Config) : List (String × List (String × Datum)) :=
  [("compaction", fieldsOf (compactionDatum c.compaction)),
   ("translog", fieldsOf (logDatum c.log)),
   ("logging", fieldsOf (reportDatum c.report))]

lemma toDatum_eq (c : Config) :
    c.toDatum = .record ([("data_dir", .text c.dataDir)] ++ Toml.headed c.sections) := rfl

/-- The names under which a section is read are those under which it is written. -/
lemma section_compactionDatum (c : CompactionConfig) :
    Toml.Section (fieldsOf (compactionDatum c)) := by
  have hkeys : ∀ name ∈ compactionFields.map Prod.fst, Toml.IsKey name := by
    simp [compactionFields, Toml.IsKey, Toml.isKeyChar]
  have hnodup : (compactionFields.map Prod.fst).Nodup := by decide
  refine .of_names rfl hkeys hnodup ?_
  cases hret : c.retention with
  | none =>
    simp [fieldsOf, compactionDatum, ofWord, hret, Toml.Simple.text, Toml.Simple.int,
      Toml.Simple.null]
  | some t =>
    simp [fieldsOf, compactionDatum, ofWord, hret, Toml.Simple.text, Toml.Simple.int]

lemma section_logDatum (c : LogConfig) : Toml.Section (fieldsOf (logDatum c)) := by
  have hkeys : ∀ name ∈ logFields.map Prod.fst, Toml.IsKey name := by
    simp [logFields, Toml.IsKey, Toml.isKeyChar]
  have hnodup : (logFields.map Prod.fst).Nodup := by decide
  refine .of_names rfl hkeys hnodup ?_
  cases hsize : c.size with
  | none => simp [fieldsOf, logDatum, ofWord, hsize, Toml.Simple.text, Toml.Simple.int]
  | some n => simp [fieldsOf, logDatum, ofWord, hsize, Toml.Simple.text, Toml.Simple.int]

lemma section_reportDatum (c : ReportConfig) : Toml.Section (fieldsOf (reportDatum c)) := by
  have hkeys : ∀ name ∈ reportFields.map Prod.fst, Toml.IsKey name := by
    simp [reportFields, Toml.IsKey, Toml.isKeyChar]
  have hnodup : (reportFields.map Prod.fst).Nodup := by decide
  refine .of_names rfl hkeys hnodup ?_
  simp [fieldsOf, reportDatum, Toml.Simple.text]

lemma tabular (c : Config) : Toml.Tabular [("data_dir", .text c.dataDir)] c.sections where
  top := by
    refine .of_names (show _ = ["data_dir"] from rfl) ?_ (by decide) ?_
    · simp [Toml.IsKey, Toml.isKeyChar]
    · simp [Toml.Simple.text]
  inner := by
    simp [sections, section_compactionDatum, section_logDatum, section_reportDatum, Toml.IsKey,
      Toml.isKeyChar]
  nodup := by
    have hnames : (fields.map Prod.fst).Nodup := by decide
    exact hnames

/-- Whether every number in a configuration is one of 64 bits with sign. -/
def numbersFit (c : Config) : Prop :=
  c.compaction.trigger.toNat < 0x8000000000000000 ∧ c.compaction.target.toNat < 0x8000000000000000
    ∧ sizeFits c.log ∧ c.log.files.toNat < 0x8000000000000000

lemma ofDatum_json (c : Config) (h : sizeFits c.log) (dataDir : String) :
    ofDatum .json dataDir c.toDatum = .ok c := by
  refine (readFields_cons rfl rfl rfl).trans ?_
  refine (readFields_cons rfl rfl (readFields_compactionDatum .json c.compaction)).trans ?_
  refine (readFields_cons rfl rfl (readFields_logDatum .json h)).trans ?_
  refine (readFields_cons rfl rfl (readFields_reportDatum .json c.report)).trans ?_
  rfl

lemma ofDatum_json_error (c : Config) (h : ¬sizeFits c.log) (dataDir : String) :
    ofDatum .json dataDir c.toDatum = .error .malformed := by
  refine (readFields_cons rfl rfl rfl).trans ?_
  refine (readFields_cons rfl rfl (readFields_compactionDatum .json c.compaction)).trans ?_
  exact readFields_error rfl (by simp only [readFields_logDatum_error .json h]; rfl)

lemma ofDatum_toml (c : Config) (h : sizeFits c.log) (dataDir : String) :
    ofDatum .toml dataDir (.record (Toml.present [("data_dir", .text c.dataDir)]
      ++ Toml.headed (c.sections.map fun t => (t.1, Toml.present t.2)))) = .ok c := by
  have hlog : Datum.record (Toml.present (fieldsOf (logDatum c.log))) = logDatum c.log := by
    cases hsize : c.log.size <;> simp [Toml.present, fieldsOf, logDatum, Toml.isNull, hsize, ofWord]
  have hlog' := readFields_logDatum .toml h
  rw [← hlog] at hlog'
  refine (readFields_cons rfl rfl rfl).trans ?_
  refine (readFields_cons rfl rfl (readFields_present_compactionDatum .toml c.compaction)).trans ?_
  refine (readFields_cons rfl rfl hlog').trans ?_
  refine (readFields_cons rfl rfl (readFields_reportDatum .toml c.report)).trans ?_
  rfl

instance : DecidablePred sizeFits := fun c =>
  inferInstanceAs (Decidable (∀ n ∈ c.size, n.toNat < 0x8000000000000000))

instance : DecidablePred numbersFit := fun _ => inferInstanceAs (Decidable (_ ∧ _))

@[simp] lemma fits_ofWord (w : UInt64) :
    Toml.Fits (ofWord w) ↔ w.toNat < 0x8000000000000000 := by
  rw [ofWord, Toml.fits_int]
  omega

@[simp] lemma fits_unlimited : Toml.Fits (.int (-1)) := by
  rw [Toml.fits_int]
  decide

@[simp] lemma fits_toNat (b : UInt8) : Toml.Fits (.int b.toNat) := by
  have hlt := b.toNat_lt
  rw [Toml.fits_int]
  omega

lemma fits_compactionDatum (c : CompactionConfig) :
    (∀ f ∈ fieldsOf (compactionDatum c), Toml.Fits f.2)
      ↔ c.trigger.toNat < 0x8000000000000000 ∧ c.target.toNat < 0x8000000000000000 := by
  cases hret : c.retention <;> simp [fieldsOf, compactionDatum, hret]

lemma fits_logDatum (c : LogConfig) :
    (∀ f ∈ fieldsOf (logDatum c), Toml.Fits f.2)
      ↔ sizeFits c ∧ c.files.toNat < 0x8000000000000000 := by
  cases hsize : c.size <;> simp [fieldsOf, logDatum, hsize, sizeFits]

lemma fits_reportDatum (c : ReportConfig) : ∀ f ∈ fieldsOf (reportDatum c), Toml.Fits f.2 := by
  simp [fieldsOf, reportDatum]

lemma toToml?_isSome_iff (c : Config) : c.toToml?.isSome ↔ c.numbersFit := by
  rw [toToml?, toDatum_eq, Toml.document?_isSome_iff c.tabular]
  simp only [sections, List.forall_mem_cons, fits_compactionDatum, fits_logDatum, Toml.fits_text]
  simp only [iff_true_intro (fits_reportDatum c.report), List.not_mem_nil, false_implies,
    implies_true, and_true, true_and, numbersFit, and_assoc]

lemma ofToml_of_toToml? (c : Config) (dataDir : String) {s : String} (h : c.toToml? = some s) :
    ofToml dataDir s = .ok c := by
  have hfits : c.numbersFit := c.toToml?_isSome_iff.mp (h ▸ rfl)
  rw [toToml?, toDatum_eq] at h
  have hdatum := c.ofDatum_toml hfits.2.2.1 dataDir
  simp only [ofToml, Toml.parse?_document c.tabular h, demand, bind, Except.bind, hdatum]

lemma plain_of_simple {d : Datum} (h : Toml.Simple d) : Json.Plain d := by
  cases h <;> constructor

lemma plain_toDatum (c : Config) : Json.Plain c.toDatum := by
  rw [toDatum_eq]
  refine .record fun f hf => ?_
  rcases List.mem_append.mp hf with htop | hinner
  · exact plain_of_simple (c.tabular.top.simple f htop)
  · obtain ⟨t, ht, rfl⟩ := List.mem_map.mp hinner
    exact .record fun f hf => plain_of_simple ((c.tabular.inner t ht).2.simple f hf)

lemma ofJson_toJson (c : Config) (dataDir : String) :
    ofJson dataDir c.toJson = ofDatum .json dataDir c.toDatum := by
  simp only [ofJson, toJson, Json.parse?_pretty c.plain_toDatum, demand, bind, Except.bind]

/-- A configuration is read back from what it is written as. No TOML document has a number beyond
64 bits with sign; a JSON document has one, but a size limit is not read from it. -/
theorem read_written (c : Config) (dataDir : String) :
    c.toToml?.map (ofToml dataDir) = (if c.numbersFit then some (.ok c) else none)
      ∧ ofJson dataDir c.toJson = if sizeFits c.log then .ok c else .error .malformed := by
  constructor
  · split_ifs with h
    · obtain ⟨s, hs⟩ := Option.isSome_iff_exists.mp (c.toToml?_isSome_iff.mpr h)
      rw [hs, Option.map_some, c.ofToml_of_toToml? dataDir hs]
    · rw [Option.map_eq_none_iff, ← Option.not_isSome_iff_eq_none, c.toToml?_isSome_iff]
      exact h
  · rw [ofJson_toJson]
    split_ifs with h
    · exact c.ofDatum_json h dataDir
    · exact c.ofDatum_json_error h dataDir

/-- A document that says nothing but a size limit, in the form of a text. -/
lemma ofToml_size {size written : String} {n : Option UInt64}
    (hsize : sizeLimit (.text size) = .ok n)
    (hwritten : Toml.document? (.record ([]
      ++ Toml.headed [("translog", [("retention_size", .text size)])])) = some written)
    (dataDir : String) :
    ofToml dataDir written = .ok { dataDir := dataDir, log := { size := n } } := by
  have htabular : Toml.Tabular [] [("translog", [("retention_size", .text size)])] := by
    have hsection : Toml.Section [("retention_size", .text size)] := by
      refine .of_names (show _ = ["retention_size"] from rfl) ?_ (by decide) ?_
      · simp [Toml.IsKey, Toml.isKeyChar]
      · simp [Toml.Simple.text]
    exact ⟨⟨by simp, by simp, by simp⟩, by simp [hsection, Toml.IsKey, Toml.isKeyChar], by simp⟩
  have hlog : readFields logFields .toml (.record [("retention_size", .text size)]) {}
      = .ok { size := n } :=
    (readFields_cons rfl rfl hsize).trans rfl
  have hread : ofDatum .toml dataDir
      (.record [("translog", .record [("retention_size", .text size)])])
      = .ok { dataDir := dataDir, log := { size := n } } :=
    (readFields_cons rfl rfl hlog).trans rfl
  simp only [ofToml, Toml.parse?_document htabular hwritten, demand, bind, Except.bind]
  exact hread

/-- A size limit that is read from a text may be written as a number from which it is not read. -/
theorem not_read_written :
    ∃ c, ofToml "data" "\n[translog]\nretention_size = \"9223372036854775808\"\n" = .ok c
      ∧ ofJson "data" c.toJson = .error .malformed := by
  have hdigits : isUnbounded "9223372036854775808" = false := by decide +kernel
  have hsize : sizeLimit (.text "9223372036854775808") = .ok (some 9223372036854775808) := by
    simp only [sizeLimit, hdigits]
    rfl
  refine ⟨_, ofToml_size hsize rfl "data", ?_⟩
  rw [ofJson_toJson, ofDatum_json_error]
  exact fun h => absurd (h _ rfl) (by decide)

end SeriesStore.Config
