import SeriesStore.Compaction.ForceMerge
import SeriesStore.Compaction.SizeTiered

/-!
# Merge strategies

A strategy says which indexes to merge next, and merges them.
-/

namespace SeriesStore

/-- The names of strategies in configurations. -/
inductive StrategyKind
  | sizeTiered
  | forceMerge
  | noop
  /-- Any name that stands for no strategy. -/
  | invalid
  deriving DecidableEq

namespace StrategyKind

/-- The name of a kind. -/
def name : StrategyKind → String
  | sizeTiered => "SizeTieredCompaction"
  | forceMerge => "ForceMergeCompaction"
  | noop => "Noop"
  | invalid => "Invalid"

/-- The kind with a given name. -/
def ofName (s : String) : StrategyKind :=
  ([sizeTiered, forceMerge, noop].find? fun k => k.name == s).getD invalid

end StrategyKind

/-- A merge strategy with its parameters. -/
inductive Strategy
  | sizeTiered (s : SizeTiered)
  | forceMerge (s : ForceMerge)
  /-- Merges nothing. -/
  | noop
  deriving DecidableEq

namespace Strategy

/-- The kind of a strategy. -/
def kind : Strategy → StrategyKind
  | sizeTiered _ => .sizeTiered
  | forceMerge _ => .forceMerge
  | noop => .noop

/-- Whether indexes are changed themselves and not merged into a new one. -/
def isInPlace : Strategy → Bool
  | forceMerge _ => true
  | _ => false

/-- The frequency that stands for no runs at all. -/
def never : UInt64 := UInt64.ofNat 0xFFFFFFFFFFFFFFFF

/-- Milliseconds between two runs. -/
def frequency : Strategy → UInt64
  | sizeTiered s => s.frequency
  | forceMerge s => s.frequency
  | noop => never

/-- The strategy with another frequency. -/
def withFrequency (f : UInt64) : Strategy → Strategy
  | sizeTiered s => sizeTiered { s with frequency := f }
  | forceMerge s => forceMerge { s with frequency := f }
  | noop => noop

/-- The indexes to merge next. -/
def plan (s : Strategy) (ixs : List Index) : List Index :=
  match s with
  | sizeTiered s => s.plan ixs
  | forceMerge s => s.plan ixs
  | noop => []

/-! ### Merging open indexes -/

/-- Open indexes, addressed by their positions. -/
abbrev Shelf := List Index

/-- Merges the segments of one index after the other, up to the first that fails. -/
def mergeInPlace (s : ForceMerge) : Shelf → List Nat → StateM Disk (Shelf × Option StorageError)
  | shelf, [] => return (shelf, none)
  | shelf, i :: rest => do
    match shelf[i]? with
    | none => mergeInPlace s shelf rest
    | some ix => do
      match ← (s.compact ix).run with
      | .ok ix => mergeInPlace s (shelf.set i ix) rest
      | .error e => return (shelf, some e)

/-- Merges sources into a destination, all given by their positions. A strategy that works in
place ignores the destination. -/
def compact (s : Strategy) (shelf : Shelf) (sources : List Nat) (destination : Nat) :
    StateM Disk (Shelf × Option StorageError) := do
  match s, shelf[destination]? with
  | sizeTiered _, some target => do
    match ← (SizeTiered.compact (sources.filterMap fun i => shelf[i]?) target).run with
    | .ok target => return (shelf.set destination target, none)
    | .error e => return (shelf, some e)
  | forceMerge s, _ => mergeInPlace s shelf sources
  | _, _ => return (shelf, none)

end Strategy

end SeriesStore
