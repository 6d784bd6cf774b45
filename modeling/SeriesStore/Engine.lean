import SeriesStore.Settings.Listeners

/-!
# The engine

The engine looks after the indexes in one data directory. A cycle plans a merge with the current
strategy and carries it out: in place, or into a new index, in which case the sources are removed
once the new index is complete. If the merge fails, the new index is removed and the sources stay.
-/

namespace SeriesStore

/-- An engine for a data directory. -/
structure Engine where
  dataDir : Path
  settings : IndexSettings Listeners
  listeners : Listeners
  /-- The number of the delegate that the engine merges with. -/
  delegate : Nat
  /-- The number of the retention policy of the engine. -/
  policy : Nat

/-- What a cycle has done. -/
structure CycleOutcome where
  /-- The indexes that were planned for merging. -/
  planned : List Uid
  /-- The new index that they were merged into. -/
  created : Option Uid
  inPlace : Bool
  deriving DecidableEq

/-- Whether nothing was planned. -/
def CycleOutcome.isEmpty (o : CycleOutcome) : Bool := o.planned.isEmpty

namespace Engine

/-- The retention policy for settings. -/
def policyOf (settings : IndexSettings Listeners) : LimitedPolicy :=
  let log := settings.current.log
  { policy := { retention := ⟨log.size, log.age.map Duration.millis, log.files⟩ }
    percentage := log.percentage
    tags := Tags.insert {} "index" settings.name }

/-- Opens an engine. The data directory is made if it is missing. -/
def «open» (dataDir : Path) (settings : IndexSettings Listeners) : DiskM Engine := do
  DiskM.makeDirs dataDir
  match Listeners.follow settings {} with
  | .error e => throw (.config e)
  | .ok (delegate, followed, listeners) =>
    let (policy, followed, listeners) :=
      listeners.followWith (policyOf settings) followed
    return ⟨dataDir, followed, listeners, delegate, policy⟩

/-- The current strategy. -/
def strategy (e : Engine) : Strategy := (e.listeners.strategy? e.delegate).getD .noop

/-- The retention policy. -/
def retention (e : Engine) : LimitedPolicy :=
  (e.listeners.policy? e.policy).getD (policyOf e.settings)

/-- Changes a setting. When the change is refused, the settings stay. -/
def apply (e : Engine) (u : SettingUpdate) : Engine × Option SettingsError :=
  match ((e.settings.apply u).run).run e.listeners with
  | (.ok settings, listeners) => ({ e with settings, listeners }, none)
  | (.error error, listeners) => ({ e with listeners }, some error)

/-- Milliseconds until the next cycle, if there is to be one. -/
def nextRun? (e : Engine) : Option UInt64 :=
  if e.strategy.frequency = Strategy.never then none else some e.strategy.frequency

/-- The indexes in the data directory. -/
def indexes (e : Engine) : DiskM (List Index) := Index.load e.dataDir

/-- The indexes that the next cycle would merge. -/
def plan (e : Engine) : DiskM (List Index) := do
  return e.strategy.plan (← e.indexes)

/-- The oldest generation of the write-ahead log that must be kept this time. -/
def required (e : Engine) (now : Int64) (files : List LogFile) (head : LogHead) : UInt64 :=
  e.retention.required now files head

/-! ### Cycles -/

/-- Removes all of some indexes, as far as possible, and then reports the first failure. -/
def deleteAll (ixs : List Index) : DiskM Unit := do
  let errors ← ixs.filterMapM fun ix => do
    try
      let _ ← ix.delete
      return none
    catch error => return some error
  match errors.head? with
  | some error => throw error
  | none => pure ()

/-- Merges indexes into a new one for their common range, and then removes them. -/
def mergeIntoNew (dataDir : Path) (planned : List Index) (range : TimeRange)
    (resolution : Resolution) (o : Origin) : DiskM Index := do
  let new ← Index.createIn dataDir range resolution o
  let full ←
    try SizeTiered.compact planned new
    catch error => do
      DiskM.attempt (discard new.delete)
      throw error
  deleteAll planned
  return full

/-- Plans and merges once. -/
def cycle (e : Engine) (o : Origin) : DiskM CycleOutcome := do
  let planned ← e.plan
  let ids := planned.map (·.id)
  match e.strategy, planned, Index.hull? planned with
  | .forceMerge s, _, _ => do
    planned.forM fun ix => discard (s.compact ix)
    return ⟨ids, none, true⟩
  | .sizeTiered _, first :: _, some range => do
    let new ← mergeIntoNew e.dataDir planned range first.resolution o
    return ⟨ids, some new.id, false⟩
  | strategy, _, _ => return ⟨ids, none, strategy.isInPlace⟩

end Engine

end SeriesStore
