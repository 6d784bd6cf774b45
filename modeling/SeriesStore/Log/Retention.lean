import SeriesStore.Log.Locks
import SeriesStore.Time.Clamp

/-!
# Retention of the write-ahead log

The write-ahead log consists of closed files with ascending numbers, its generations, and of one
file with a higher number that is still written. Limits on size, age and number of files say which
files may go; locks and the needs of recovery keep files for longer.
-/

namespace SeriesStore

/-- A closed file of the log. -/
structure LogFile where
  generation : UInt64
  /-- Number of bytes. -/
  size : UInt64
  /-- Time of the last change, in milliseconds since 1970. -/
  modified : Int64
  deriving DecidableEq

/-- The file of the log that is still written. -/
structure LogHead where
  generation : UInt64
  /-- Number of bytes. -/
  size : UInt64
  deriving DecidableEq

/-- How much of the log is kept. -/
structure Retention where
  /-- Number of bytes from which on older files may go. -/
  size : Option UInt64
  /-- Milliseconds for which a file is kept. -/
  age : Option UInt64
  /-- Number of files, with the one that is still written. -/
  files : UInt64
  deriving DecidableEq

namespace Retention

/-- The number that stands for no generation at all. -/
def unlimited : UInt64 := UInt64.ofNat 0xFFFFFFFFFFFFFFFF

/-- The larger of two numbers. -/
def larger (a b : UInt64) : UInt64 := if a < b then b else a

/-- The smaller of two numbers. -/
def smaller (a b : UInt64) : UInt64 := if b < a then b else a

/-! ### Criteria -/

/-- Goes from newer to older files as long as the files so far have fewer bytes than the limit,
and gives the generation at which it stops. -/
def bySizeFrom (limit : UInt64) : UInt64 → UInt64 → List LogFile → UInt64
  | _, generation, [] => generation
  | total, generation, f :: older =>
    if limit ≤ total then generation
    else bySizeFrom limit (clampUInt64 (total.toNat + f.size.toNat)) f.generation older

/-- The oldest generation that is kept for its size. -/
def bySize (limit : UInt64) (files : List LogFile) (head : LogHead) : UInt64 :=
  bySizeFrom limit head.size head.generation files.reverse

/-- Whether a file is not older than a limit. A file from the future is not old. -/
def isRecent (limit : UInt64) (now : Int64) (f : LogFile) : Bool :=
  let age := clampInt64 (now.toInt - f.modified.toInt)
  decide (age.toInt ≤ limit.toNat)

/-- The oldest generation that is kept for its age. -/
def byAge (limit : UInt64) (now : Int64) (files : List LogFile) (head : LogHead) : UInt64 :=
  match files.find? (isRecent limit now) with
  | some f => f.generation
  | none => head.generation

/-- The oldest generation that is kept for the number of files. -/
def byFiles (limit : UInt64) (files : List LogFile) (head : LogHead) : UInt64 :=
  match (files.reverse.take (limit.toNat - 1)).getLast? with
  | some f => f.generation
  | none => head.generation

/-- The highest generation that any of the criteria asks to keep. Without limits on size and age
nothing is kept for these. -/
def proposal (r : Retention) (now : Int64) (files : List LogFile) (head : LogHead) : UInt64 :=
  let sized := r.size.map fun limit => bySize limit files head
  let aged := r.age.map fun limit => byAge limit now files head
  let both :=
    match sized, aged with
    | none, none => unlimited
    | _, _ => larger (sized.getD 0) (aged.getD 0)
  larger both (byFiles r.files files head)

end Retention

/-- Limits, together with the generations that must be kept in spite of them. -/
structure RetentionPolicy where
  retention : Retention
  locks : Locks := .empty
  /-- The first generation that recovery needs. -/
  recovery : UInt64 := Retention.unlimited

namespace RetentionPolicy

/-- Locks a generation. -/
def lock (p : RetentionPolicy) (generation : UInt64) : RetentionPolicy :=
  { p with locks := p.locks.acquire generation }

/-- Releases one lock on a generation. -/
def unlock (p : RetentionPolicy) (generation : UInt64) : RetentionPolicy :=
  { p with locks := p.locks.release generation }

/-- The lowest locked generation. -/
def locked (p : RetentionPolicy) : UInt64 := p.locks.lowest?.getD Retention.unlimited

/-- The oldest generation that must be kept. -/
def required (p : RetentionPolicy) (now : Int64) (files : List LogFile) (head : LogHead) :
    UInt64 :=
  Retention.smaller
    (Retention.smaller (Retention.smaller (p.retention.proposal now files head) p.locked)
      p.recovery)
    head.generation

end RetentionPolicy

end SeriesStore
