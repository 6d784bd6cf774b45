import SeriesStore.Compaction.Strategy
import SeriesStore.Config.Basic

/-!
# Choosing a strategy

The strategy that a configuration names, with the parameters that the configuration gives.
-/

namespace SeriesStore.Strategy

/-- The strategy that a configuration asks for. -/
def ofConfig (c : CompactionConfig) : Except CompactionError Strategy :=
  match StrategyKind.ofName c.kind with
  | .sizeTiered =>
    let tiers := Tiers.forRetention (c.retention.map Duration.hours)
    .ok (.sizeTiered ⟨tiers.map UInt64.ofNat, c.frequency.millis, c.resolution⟩)
  | .forceMerge => do
    let s ← ForceMerge.of? c.frequency.millis c.trigger c.target c.lateness.millis c.block.millis
      c.resolution
    return .forceMerge s
  | .noop => .ok .noop
  | .invalid => .error (.unknownType c.kind)

end SeriesStore.Strategy
