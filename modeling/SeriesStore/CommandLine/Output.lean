import SeriesStore.Config.Basic
import SeriesStore.Engine
import SeriesStore.Json.Printer
import SeriesStore.Text.Shortest

/-!
# Output

What commands print: tables with columns of fixed width, and JSON documents.
-/

namespace SeriesStore.CommandLine

/-- A text with a line break behind it. -/
def line (s : String) : String := s ++ "\n"

/-- A line of dashes. -/
def rule (n : Nat) : String := line (String.ofList (List.replicate n '-'))

/-- A JSON document. -/
def json (d : Datum) : String := line (Json.pretty d)

/-! ### Tiers -/

/-- The widths of tiers. -/
def tiersText (asJson : Bool) (tiers : List Nat) : String :=
  if asJson then json (.list (tiers.map fun t => .int (Int.ofNat t)))
  else if tiers.isEmpty then
    line "No tiers: size-tiered compaction is disabled for this retention"
  else line (", ".intercalate (tiers.map fun t => toString t ++ "h"))

/-! ### Indexes -/

/-- A chunk of an index. -/
def entryDatum (e : Entry) : Datum :=
  .record
    [("bytes", .int e.chunk.payload.length),
     ("encoding", .text e.chunk.encoding.name),
     ("max_time", .int e.max.toInt),
     ("min_time", .int e.min.toInt),
     ("samples", .int e.chunk.size)]

/-- An index and its chunks. -/
def indexDatum (ix : Index) (entries : List Entry) : Datum :=
  .record
    [("chunks", .list (entries.map entryDatum)),
     ("created_at", .text ix.createdAt.toText),
     ("id", .text ix.id.toText),
     ("resolution", .text ix.resolution.name),
     ("segments", .int ix.segments.length),
     ("time_range",
       .record [("end", .int ix.range.stop.toInt), ("start", .int ix.range.start.toInt)])]

/-- A line of the table of chunks. -/
def entryLine (e : Entry) : String :=
  line (Text.column 16 (toString e.min.toInt) ++ " " ++ Text.column 16 (toString e.max.toInt)
    ++ " " ++ e.chunk.encoding.name ++ " "
    ++ Text.column 10 (toString e.chunk.payload.length) ++ " " ++ toString e.chunk.size)

/-- An index with the table of its chunks. -/
def indexText (ix : Index) (entries : List Entry) : String :=
  line ("Index " ++ ix.id.toText)
    ++ line ("  Range: " ++ ix.range.toText ++ " " ++ ix.resolution.name)
    ++ line ("  Created: " ++ ix.createdAt.briefText)
    ++ line ("  Segments: " ++ toString ix.segments.length)
    ++ line ""
    ++ line (Text.column 16 "Min" ++ " " ++ Text.column 16 "Max" ++ " " ++ Text.column 8 "Enc"
      ++ " " ++ Text.column 10 "Bytes" ++ " Samples")
    ++ rule 60
    ++ String.join (entries.map entryLine)

/-- The samples of a chunk, one on a line. -/
def samplesText (e : Entry) : String :=
  String.join (e.chunk.samples.1.map fun x =>
    line (toString x.time.toInt ++ "\t" ++ Text.ofFloatBits x.value))

/-- What is said about a chunk that cannot be decoded to its end. -/
def damageText (e : Entry) : String :=
  match e.chunk.samples.2 with
  | none => ""
  | some damage =>
    line ("Chunk at " ++ toString e.min.toInt ++ " is damaged: "
      ++ (StorageError.corrupt (.chunk damage)).message)

/-! ### Plans -/

/-- A line of the table of planned indexes. -/
def planLine (ix : Index) : String :=
  line (Text.column 34 ix.id.simple ++ " " ++ Text.column 16 (toString ix.range.start.toInt)
    ++ " " ++ Text.column 16 (toString ix.range.stop.toInt) ++ " " ++ toString ix.segments.length)

/-- The indexes that a strategy would merge. -/
def planText (asJson : Bool) (s : Strategy) (plan : List Index) : String :=
  if asJson then json (.list (plan.map fun ix => .text ix.id.toText))
  else if plan.isEmpty then line ("Nothing to compact (" ++ s.kind.name ++ " compaction)")
  else
    line (Text.column 34 "ID" ++ " " ++ Text.column 16 "Min" ++ " " ++ Text.column 16 "Max"
        ++ " Segments")
      ++ rule 76
      ++ String.join (plan.map planLine)
      ++ line ""
      ++ line (s.kind.name ++ " compaction, "
        ++ if s.isInPlace then "in place" else "into a new index")

/-- What a cycle has done. -/
def outcomeText (asJson : Bool) (o : CycleOutcome) : String :=
  if asJson then
    json (.record
      [("planned", .list (o.planned.map fun id => .text id.toText)),
       ("created", (o.created.map fun id => .text id.toText).getD .null),
       ("in_place", .bool o.inPlace)])
  else if o.isEmpty then line "Nothing to compact"
  else
    line ("Compacted " ++ toString o.planned.length ++ " indexes")
      ++ ((o.created.map fun id => line ("  Created: " ++ id.toText)).getD "")

/-! ### Failures -/

/-- The text that describes why there is no usable configuration. -/
def configErrorText : ConfigError → String
  | .unreadable file => "Failed to read config file " ++ file
  | .malformed file fault =>
    "Failed to parse config file " ++ file ++ ": " ++ (fault.message?.getD "malformed document")
  | .duration text => Duration.refusal text
  | .lowFrequency d =>
    "Invalid configuration: compaction.frequency must be at least 1m, got " ++ d.toText
  | .highPercentage p =>
    "Invalid configuration: translog.max_readers_to_close_percentage must be 0-100, got "
      ++ toString p.toNat

/-- A failure and what it comes from. -/
def storageErrorTexts (e : StorageError) : List String :=
  match e with
  | .io cause => [e.message, cause.message]
  | _ => [e.message]

/-- A numbered line for each cause. -/
def numbered : Nat → List String → String
  | _, [] => ""
  | n, s :: rest => "\n    " ++ toString n ++ ": " ++ s ++ numbered (n + 1) rest

/-- The report of a failure, which stands in front of its causes. -/
def failureText : List String → String
  | [] => ""
  | [e] => line ("Error: " ++ e)
  | [e, cause] => line ("Error: " ++ e ++ "\n\nCaused by:\n    " ++ cause)
  | e :: causes => line ("Error: " ++ e ++ "\n\nCaused by:" ++ numbered 0 causes)

end SeriesStore.CommandLine
