import SeriesStore.Config.Basic
import SeriesStore.Datum
import SeriesStore.Toml.Reader

/-!
# Reading configurations

A configuration is a tree of values, and so is each of its sections. The values of a section may
have names or stand in a list, in a fixed order; what is left out keeps the value it has without
the tree. Unknown names are passed over. Values are read in the order in which they stand, and the
first that is refused is reported.
-/

namespace SeriesStore.Config

/-- The text formats for configurations. -/
inductive Format
  | json
  | toml
  deriving DecidableEq

/-- How a value changes what is known. -/
abbrev Reading (α : Type) := Format → Datum → α → Except ConfigFault α

/-! ### Values -/

/-- Takes what is there, or refuses the value. -/
def demand {α : Type} : Option α → Except ConfigFault α
  | some a => .ok a
  | none => .error .malformed

/-- Reads a text. -/
def text (d : Datum) : Except ConfigFault String := demand d.text?

/-- Reads a duration. -/
def duration (d : Datum) : Except ConfigFault Duration := do
  let s ← text d
  match Duration.ofText? s with
  | some t => .ok t
  | none => .error (.duration s)

/-- Reads a duration that may be absent. -/
def optionalDuration : Datum → Except ConfigFault (Option Duration)
  | .null => .ok none
  | d => some <$> duration d

/-- Reads an unsigned word. -/
def word (d : Datum) : Except ConfigFault UInt64 := demand d.uint64?

/-- Reads an unsigned byte. -/
def byte (d : Datum) : Except ConfigFault UInt8 :=
  match d with
  | .int n => if 0 ≤ n ∧ n < 256 then .ok (UInt8.ofNat n.toNat) else .error .malformed
  | _ => .error .malformed

/-- Reads one of several names. It may also be the only name of a record that says nothing
else. -/
def choice (f : Format) (d : Datum) : Except ConfigFault String :=
  match f, d with
  | _, .text s => .ok s
  | .json, .record [(name, .null)] => .ok name
  | .toml, .record [(name, .list [])] => .ok name
  | .toml, .record [(name, .record [])] => .ok name
  | _, _ => .error .malformed

/-- Reads a resolution. -/
def resolution (f : Format) (d : Datum) : Except ConfigFault Resolution := do
  demand (Resolution.ofName? (← choice f d))

/-- Whether a text takes a limit away. -/
def isUnbounded (s : String) : Bool :=
  Text.lowerAscii (String.ofList (Text.trim s.toList)) == "unbounded"

/-- Reads a number of bytes, where -1 stands for no limit. -/
def sizeLimit (d : Datum) : Except ConfigFault (Option UInt64) :=
  match d with
  | .int n =>
    if n < -0x8000000000000000 ∨ 0x8000000000000000 ≤ n then .error .malformed
    else if n = -1 then .ok none
    else if n < 0 then .error (.sizeNumber n)
    else .ok (some (UInt64.ofNat n.toNat))
  | .text s =>
    if isUnbounded s then .ok none
    else
      match Text.decimal? 0x10000000000000000 (Text.trim s.toList) with
      | some n => .ok (some (UInt64.ofNat n))
      | none => .error (.sizeText s)
  | _ => .error .malformed

/-- Reads an age, where -1 stands for no limit. -/
def ageLimit (d : Datum) : Except ConfigFault (Option Duration) :=
  match d with
  | .int n =>
    if n < -0x8000000000000000 ∨ 0x8000000000000000 ≤ n then .error .malformed
    else if n = -1 then .ok none
    else .error (.ageNumber n)
  | .text s => if isUnbounded s then .ok none else optionalDuration d
  | _ => .error .malformed

/-! ### Sections -/

/-- Reads the values of a section by the names of its fields, or by their order. -/
def readFields {α : Type} (fields : List (String × Reading α)) : Reading α := fun f d start =>
  match d with
  | .record items =>
    items.foldlM (fun a item =>
      match fields.lookup item.1 with
      | some read => read f item.2 a
      | none => .ok a) start
  | .list items => do
    let a ← (fields.zip items).foldlM (fun a p => p.1.2 f p.2 a) start
    if f = .json ∧ fields.length < items.length then throw .malformed
    return a
  | _ => .error .malformed

/-- The fields of the section on merging. -/
def compactionFields : List (String × Reading CompactionConfig) :=
  [("type", fun _ d c => return { c with kind := ← text d }),
   ("frequency", fun _ d c => return { c with frequency := ← duration d }),
   ("retention_time", fun _ d c => return { c with retention := ← optionalDuration d }),
   ("force_merge_min_segment_count", fun _ d c => return { c with trigger := ← word d }),
   ("force_merge_max_segments_after_merge", fun _ d c => return { c with target := ← word d }),
   ("ooo_cutoff", fun _ d c => return { c with lateness := ← duration d }),
   ("block_duration", fun _ d c => return { c with block := ← duration d }),
   ("time_unit", fun f d c => return { c with resolution := ← resolution f d })]

/-- The fields of the section on the write-ahead log. -/
def logFields : List (String × Reading LogConfig) :=
  [("retention_size", fun _ d c => return { c with size := ← sizeLimit d }),
   ("retention_age", fun _ d c => return { c with age := ← ageLimit d }),
   ("retention_total_files", fun _ d c => return { c with files := ← word d }),
   ("max_readers_to_close_percentage", fun _ d c => return { c with percentage := ← byte d })]

/-- The fields of the section on reports. -/
def reportFields : List (String × Reading ReportConfig) :=
  [("level", fun _ d c => return { c with level := ← text d }),
   ("format", fun _ d c => return { c with format := ← text d })]

/-- The sections of a configuration. -/
def fields : List (String × Reading Config) :=
  [("data_dir", fun _ d c => return { c with dataDir := ← text d }),
   ("compaction", fun f d c =>
      return { c with compaction := ← readFields compactionFields f d {} }),
   ("translog", fun f d c => return { c with log := ← readFields logFields f d {} }),
   ("logging", fun f d c => return { c with report := ← readFields reportFields f d {} })]

/-- The configuration in a tree. The data directory is the given one if the tree has none. -/
def ofDatum (f : Format) (dataDir : String) (d : Datum) : Except ConfigFault Config :=
  readFields fields f d { dataDir }

/-- The configuration in a TOML document. -/
def ofToml (dataDir : String) (s : String) : Except ConfigFault Config := do
  ofDatum .toml dataDir (← demand (Toml.parse? s))

end SeriesStore.Config
