import SeriesStore.Compaction.Choice
import SeriesStore.Log.RateLimit
import SeriesStore.Settings.Basic

/-!
# What follows the settings

A delegate stands for whatever merge strategy the settings ask for. When the kind of strategy or
one of its bounds changes, a new strategy takes the place of the old one; when only the frequency
changes, the strategy stays and gets the new frequency. A retention policy follows the settings
with its percentage.
-/

namespace SeriesStore

/-- Strategies and policies that follow settings. -/
structure Listeners where
  /-- All strategies that were ever put into use, by their numbers. -/
  strategies : List Strategy := []
  /-- The number of the strategy behind each delegate that is still there. -/
  delegates : List (Option Nat) := []
  /-- The policies that are still there. -/
  policies : List (Option LimitedPolicy) := []
  /-- What observers were called with, under their labels. -/
  notes : List (String × EngineSettings) := []

namespace Listeners

/-! ### Delegates -/

/-- The number of the strategy behind a delegate. -/
def strategyId? (w : Listeners) (i : Nat) : Option Nat := (w.delegates[i]?).join

/-- The strategy behind a delegate. -/
def strategy? (w : Listeners) (i : Nat) : Option Strategy :=
  (w.strategyId? i).bind fun n => w.strategies[n]?

/-- Puts a new delegate in front of a strategy, and gives its number. -/
def addDelegate (w : Listeners) (s : Strategy) : Nat × Listeners :=
  (w.delegates.length,
    { w with
      strategies := w.strategies ++ [s]
      delegates := w.delegates ++ [some w.strategies.length] })

/-- Puts a strategy behind a delegate. -/
def install (w : Listeners) (i : Nat) (s : Strategy) : Listeners :=
  { w with
    strategies := w.strategies ++ [s]
    delegates := w.delegates.set i (some w.strategies.length) }

/-- Changes the frequency of the strategy behind a delegate. -/
def setFrequency (w : Listeners) (i : Nat) (f : UInt64) : Listeners :=
  match w.strategyId? i with
  | some n => { w with strategies := w.strategies.modify n (Strategy.withFrequency f) }
  | none => w

/-- Drops a delegate. Its callbacks no longer do anything. -/
def dropDelegate (w : Listeners) (i : Nat) : Listeners :=
  { w with delegates := w.delegates.set i none }

/-- Puts the strategy that the settings ask for behind a delegate. -/
def rebuild (i : Nat) : Consumer Listeners := fun s => do
  let w ← get
  match w.strategyId? i with
  | none => pure ()
  | some _ => do
    match Strategy.ofConfig s.compaction with
    | .error e => throw (.compaction e)
    | .ok strategy => set (w.install i strategy)

/-- Passes the frequency in the settings on to the strategy behind a delegate. -/
def retime (i : Nat) : Consumer Listeners := fun s =>
  modify fun w => w.setFrequency i s.compaction.frequency.millis

/-- The callbacks of a delegate, in the order in which they are registered. -/
def delegateConsumers (i : Nat) : List (SettingKey × Consumer Listeners) :=
  [(.kind, rebuild i), (.trigger, rebuild i), (.target, rebuild i), (.frequency, retime i)]

/-- Makes a delegate for settings, and registers it with them. -/
def follow (s : IndexSettings Listeners) (w : Listeners) :
    Except CompactionError (Nat × IndexSettings Listeners × Listeners) := do
  let strategy ← Strategy.ofConfig s.current.compaction
  let (i, w) := w.addDelegate strategy
  return (i, s.register (delegateConsumers i), w)

/-! ### Policies -/

/-- A policy that is still there. -/
def policy? (w : Listeners) (i : Nat) : Option LimitedPolicy := (w.policies[i]?).join

/-- Adds a policy, and gives its number. -/
def addPolicy (w : Listeners) (p : LimitedPolicy) : Nat × Listeners :=
  (w.policies.length, { w with policies := w.policies ++ [some p] })

/-- Drops a policy. Its callback no longer does anything. -/
def dropPolicy (w : Listeners) (i : Nat) : Listeners :=
  { w with policies := w.policies.set i none }

/-- Passes the percentage in the settings on to a policy. -/
def repercent (i : Nat) : Consumer Listeners := fun s =>
  modify fun w =>
    { w with
      policies := w.policies.modify i fun p =>
        p.map fun p => { p with percentage := s.log.percentage } }

/-- Adds a policy that follows settings. -/
def followWith (p : LimitedPolicy) (s : IndexSettings Listeners) (w : Listeners) :
    Nat × IndexSettings Listeners × Listeners :=
  let (i, w) := w.addPolicy p
  (i, s.register [(.percentage, repercent i)], w)

/-! ### Observers -/

/-- Notes the settings under a label, and may then refuse them. -/
def observer (label : String) (refuses : Bool) : Consumer Listeners := fun s => do
  modify fun w => { w with notes := w.notes ++ [(label, s)] }
  if refuses then throw (.compaction (.unknownType label))

end Listeners

end SeriesStore
