import SeriesStore.Proofs.Disk.Runs
import SeriesStore.Proofs.Settings.Rejection

/-!
# Strategies and policies that follow the settings

The strategy of an engine is the one that its settings ask for, after every update that is tried.
An update reaches it in one of two ways. A new kind or a new bound puts a strategy in its place that
is built from the new settings. A new frequency is passed on to the strategy that is there, which
comes to the same as building it anew, though it stays the same object. The percentage of the
retention policy follows in a third way.
-/

namespace SeriesStore

/-- With another frequency, a configuration asks for the same strategy with that frequency. -/
lemma Strategy.ofConfig_frequency {c : CompactionConfig} {s : Strategy}
    (hbuilt : ofConfig c = .ok s) (d : Duration) :
    ofConfig { c with frequency := d } = .ok (s.withFrequency d.millis) := by
  simp only [ofConfig] at hbuilt ⊢
  cases hkind : StrategyKind.ofName c.kind with
  | sizeTiered =>
    simp only [hkind, Except.ok.injEq] at hbuilt ⊢
    rw [← hbuilt]
    rfl
  | forceMerge =>
    simp only [hkind, ForceMerge.of?] at hbuilt ⊢
    split at hbuilt
    · cases hbuilt
      rw [dif_pos ‹_›]
      rfl
    · cases hbuilt
  | noop =>
    simp only [hkind, Except.ok.injEq] at hbuilt ⊢
    rw [← hbuilt]
    rfl
  | invalid =>
    simp only [hkind] at hbuilt
    cases hbuilt

/-! ### Parts of the state that follow settings -/

namespace Listeners

variable {w : Listeners} {i n : Nat} {s strategy : Strategy}

lemma strategy?_eq (hbehind : w.strategyId? i = some n) : w.strategy? i = w.strategies[n]? := by
  rw [strategy?, hbehind, Option.bind_some]

/-- A delegate that is still there has a position. -/
lemma lt_of_strategyId? (hbehind : w.strategyId? i = some n) : i < w.delegates.length := by
  rw [strategyId?, Option.join_eq_some_iff] at hbehind
  exact (List.getElem?_eq_some_iff.mp hbehind).1

lemma strategyId?_install (hbehind : w.strategyId? i = some n) (strategy : Strategy) :
    (w.install i strategy).strategyId? i = some w.strategies.length := by
  rw [strategyId?, install, List.getElem?_set_self (lt_of_strategyId? hbehind)]
  rfl

lemma strategy?_install (hbehind : w.strategyId? i = some n) (strategy : Strategy) :
    (w.install i strategy).strategy? i = some strategy := by
  rw [strategy?_eq (strategyId?_install hbehind strategy)]
  exact List.getElem?_concat_length

lemma strategyId?_setFrequency (w : Listeners) (i : Nat) (f : UInt64) :
    (w.setFrequency i f).strategyId? i = w.strategyId? i := by
  unfold setFrequency
  split <;> rfl

lemma strategy?_setFrequency (w : Listeners) (i : Nat) (f : UInt64) :
    (w.setFrequency i f).strategy? i = (w.strategy? i).map (Strategy.withFrequency f) := by
  cases hbehind : w.strategyId? i with
  | none =>
    have hdropped : w.setFrequency i f = w := by rw [setFrequency, hbehind]
    rw [hdropped, strategy?, hbehind]
    rfl
  | some n =>
    have hkept := (strategyId?_setFrequency w i f).trans hbehind
    rw [strategy?_eq hkept, strategy?_eq hbehind, setFrequency, hbehind]
    exact List.getElem?_modify_eq _ _ _

end Listeners

namespace Engine

open Listeners

variable {e : Engine} {u : SettingUpdate} {n : Nat} {s : Strategy} {p : LimitedPolicy}

/-! ### What an update does -/

/-- The callbacks on changes of the settings are those of the delegate and of the policy. -/
def Alone (e : Engine) : Prop :=
  e.settings.consumers =
    delegateConsumers e.delegate ++ [(.percentage, repercent e.policy)]

/-- Everything that an update can do to an engine without other callbacks. -/
inductive Applied (e : Engine) : SettingUpdate → Engine → Option SettingsError → Prop
  /-- A refused update changes nothing at all. -/
  | refused (u : SettingUpdate) (error : SettingsError) : Applied e u e (some error)
  /-- A new kind or bound puts a new strategy into use. -/
  | rebuilt (u : SettingUpdate) (s : Strategy)
      (key : u.key = .kind ∨ u.key = .trigger ∨ u.key = .target)
      (built : Strategy.ofConfig (u.apply e.settings.current).compaction = .ok s) :
      Applied e u
        { e with
          settings := { e.settings with current := u.apply e.settings.current }
          listeners := e.listeners.install e.delegate s }
        none
  /-- A new frequency is passed on to the strategy in use. -/
  | retimed (d : Duration) :
      Applied e (.frequency d)
        { e with
          settings.current.compaction.frequency := d
          listeners := e.listeners.setFrequency e.delegate d.millis }
        none
  /-- A new percentage is passed on to the policy. -/
  | reshared (share : UInt8) :
      Applied e (.percentage share)
        { e with
          settings.current.log.percentage := share
          listeners.policies := e.listeners.policies.modify e.policy fun p =>
            p.map fun p => { p with percentage := share } }
        none

lemma Alone.consumersOf (halone : e.Alone) (key : SettingKey) :
    e.settings.consumersOf key = match key with
      | .kind | .trigger | .target => [rebuild e.delegate]
      | .frequency => [retime e.delegate]
      | .percentage => [repercent e.policy] := by
  rw [IndexSettings.consumersOf, show e.settings.consumers = _ from halone]
  cases key <;> rfl

/-- The three settings that a strategy is built from have the same single callback. -/
lemma applied_of_rebuild (hkey : u.key = .kind ∨ u.key = .trigger ∨ u.key = .target)
    (hconsumers : e.settings.consumersOf u.key = [rebuild e.delegate])
    (hbehind : e.listeners.strategyId? e.delegate = some n)
    (hlimits : (u.apply e.settings.current).validate = .ok ()) :
    e.Applied u (e.apply u).1 (e.apply u).2 := by
  rw [apply, IndexSettings.run_apply, hlimits, hconsumers, IndexSettings.run_runAll_cons]
  cases hbuilt : Strategy.ofConfig (u.apply e.settings.current).compaction with
  | error error =>
    rw [run_rebuild_of_error hbehind hbuilt]
    exact .refused u _
  | ok s =>
    rw [run_rebuild_of_ok hbehind hbuilt]
    exact .rebuilt u s hkey hbuilt

lemma applied_apply (halone : e.Alone) (hbehind : e.listeners.strategyId? e.delegate = some n)
    (u : SettingUpdate) : e.Applied u (e.apply u).1 (e.apply u).2 := by
  cases hlimits : (u.apply e.settings.current).validate with
  | error error =>
    rw [apply, IndexSettings.run_apply, hlimits]
    exact .refused u error
  | ok =>
    cases u with
    | kind name =>
      exact applied_of_rebuild (.inl rfl) (halone.consumersOf .kind) hbehind hlimits
    | trigger n =>
      exact applied_of_rebuild (.inr (.inl rfl)) (halone.consumersOf .trigger) hbehind hlimits
    | target n =>
      exact applied_of_rebuild (.inr (.inr rfl)) (halone.consumersOf .target) hbehind hlimits
    | frequency d =>
      have hconsumers : e.settings.consumersOf (SettingUpdate.frequency d).key = _ :=
        halone.consumersOf .frequency
      rw [apply, IndexSettings.run_apply, hlimits, hconsumers, IndexSettings.run_runAll_cons]
      exact .retimed d
    | percentage share =>
      have hconsumers : e.settings.consumersOf (SettingUpdate.percentage share).key = _ :=
        halone.consumersOf .percentage
      rw [apply, IndexSettings.run_apply, hlimits, hconsumers, IndexSettings.run_runAll_cons]
      exact .reshared share

/-! ### What holds after every update -/

/-- The strategy in use is the one that the current settings ask for, and the policy has the
percentage in the settings. -/
structure Follows (e : Engine) : Prop where
  strategy : ∃ s, Strategy.ofConfig e.settings.current.compaction = .ok s ∧
    e.listeners.strategy? e.delegate = some s
  policy : ∃ p, e.listeners.policy? e.policy = some p ∧
    p.percentage = e.settings.current.log.percentage

/-- The state between updates: the engine's callbacks are the only ones, and all follows. -/
structure Settled (e : Engine) : Prop extends Follows e where
  alone : e.Alone

lemma Follows.behind (hfollows : e.Follows) :
    ∃ n, e.listeners.strategyId? e.delegate = some n ∧ n < e.listeners.strategies.length := by
  obtain ⟨s, -, huse⟩ := hfollows.strategy
  cases hbehind : e.listeners.strategyId? e.delegate with
  | none => rw [strategy?, hbehind] at huse; cases huse
  | some n =>
    rw [strategy?_eq hbehind] at huse
    exact ⟨n, rfl, (List.getElem?_eq_some_iff.mp huse).1⟩

lemma Settled.of_applied {e' : Engine} {error : Option SettingsError} (hsettled : e.Settled)
    (happlied : e.Applied u e' error) : e'.Settled := by
  obtain ⟨⟨s, hasked, huse⟩, ⟨p, hpresent, hshare⟩⟩ := hsettled.toFollows
  obtain ⟨n, hbehind, -⟩ := hsettled.behind
  cases happlied with
  | refused => exact hsettled
  | rebuilt u s' hkey hbuilt =>
    refine ⟨⟨⟨s', hbuilt, strategy?_install hbehind s'⟩, p, hpresent, hshare.trans ?_⟩,
      hsettled.alone⟩
    cases u with
    | kind | trigger | target | frequency => rfl
    | percentage => simp [SettingUpdate.key] at hkey
  | retimed d =>
    refine ⟨⟨⟨_, Strategy.ofConfig_frequency hasked d, ?_⟩, p, ?_, hshare⟩, hsettled.alone⟩
    · rw [strategy?_setFrequency, huse, Option.map_some]
    · rw [← hpresent]
      simp only [policy?, setFrequency, hbehind]
  | reshared share' =>
    refine ⟨⟨⟨s, hasked, huse⟩, { p with percentage := share' }, ?_, rfl⟩, hsettled.alone⟩
    rw [policy?, Option.join_eq_some_iff] at hpresent
    simp [policy?, hpresent]

lemma Settled.applyAll (hsettled : e.Settled) (us : List SettingUpdate) :
    (e.applyAll us).Settled := by
  induction us generalizing e with
  | nil => exact hsettled
  | cons u us ih =>
    obtain ⟨n, hbehind, -⟩ := hsettled.behind
    exact ih (hsettled.of_applied (applied_apply hsettled.alone hbehind u))

/-- An engine that has been opened follows its settings, and registers its callbacks behind those
that are there. -/
lemma follows_of_on_open {dataDir : Path} {settings : IndexSettings Listeners} {d d' : Disk}
    (hopened : («open» dataDir settings).on d = (.ok e, d')) :
    e.Follows ∧ e.settings.current = settings.current ∧ e.settings.consumers = settings.consumers
      ++ (delegateConsumers e.delegate ++ [(.percentage, repercent e.policy)]) := by
  obtain ⟨-, d₁, -, hopened⟩ := DiskM.on_bind_eq_ok hopened
  cases hbuilt : Strategy.ofConfig settings.current.compaction with
  | error error =>
    rw [follow, hbuilt] at hopened
    cases hopened
  | ok s =>
    rw [follow, hbuilt] at hopened
    cases hopened
    exact ⟨⟨⟨s, hbuilt, rfl⟩, _, rfl, rfl⟩, rfl, List.append_assoc _ _ _⟩

lemma settled_of_open {dataDir : Path} {settings : IndexSettings Listeners} {d d' : Disk}
    (hopened : («open» dataDir settings).on d = (.ok e, d')) (hothers : settings.consumers = []) :
    e.Settled := by
  obtain ⟨hfollows, -, hconsumers⟩ := follows_of_on_open hopened
  exact ⟨hfollows, by rw [Alone, hconsumers, hothers, List.nil_append]⟩

/-- The number of the strategy in use. -/
def inUse? (e : Engine) : Option Nat := e.listeners.strategyId? e.delegate

/-- Which strategy an accepted update leaves in use: for a new kind or a new bound one that has not
been there before, otherwise the same. -/
lemma Settled.inUse?_apply (hsettled : e.Settled) (haccepted : (e.apply u).2 = none) :
    if u.key = .kind ∨ u.key = .trigger ∨ u.key = .target then
      (e.apply u).1.inUse? = some e.listeners.strategies.length ∧
        e.inUse? ≠ some e.listeners.strategies.length
    else (e.apply u).1.inUse? = e.inUse? := by
  obtain ⟨n, hbehind, hknown⟩ := hsettled.behind
  have happlied := applied_apply hsettled.alone hbehind u
  rw [haccepted] at happlied
  generalize (e.apply u).1 = after at happlied
  cases happlied with
  | rebuilt u s hkey hbuilt =>
    rw [if_pos hkey]
    refine ⟨strategyId?_install hbehind s, fun hsame => ?_⟩
    exact Nat.ne_of_lt hknown (Option.some.inj (hbehind.symm.trans hsame))
  | retimed d =>
    rw [if_neg (by simp [SettingUpdate.key])]
    exact strategyId?_setFrequency _ _ _
  | reshared share =>
    rw [if_neg (by simp [SettingUpdate.key])]
    rfl

/-- After an engine has been opened without other callbacks, and after any updates, accepted or
refused, the current settings ask for a strategy, this strategy is in use, and the policy has their
percentage. An update of the kind or of a bound that is accepted puts another object into use, and
no other update does. -/
theorem follows_of_open {dataDir : Path} {settings : IndexSettings Listeners} {d d' : Disk}
    (hopened : («open» dataDir settings).on d = (.ok e, d')) (hothers : settings.consumers = [])
    (us : List SettingUpdate) :
    (e.applyAll us).Follows ∧
      ∀ u, ((e.applyAll us).apply u).2 = none →
        if u.key = .kind ∨ u.key = .trigger ∨ u.key = .target then
          ((e.applyAll us).apply u).1.inUse? = some (e.applyAll us).listeners.strategies.length ∧
            (e.applyAll us).inUse? ≠ some (e.applyAll us).listeners.strategies.length
        else ((e.applyAll us).apply u).1.inUse? = (e.applyAll us).inUse? := by
  have hsettled := (settled_of_open hopened hothers).applyAll us
  exact ⟨hsettled.toFollows, fun u haccepted => hsettled.inUse?_apply haccepted⟩

/-- Too short a frequency is refused. A bound that would not do for merges of segments is accepted
under size tiers, and then it is the kind that is refused. Without any strategy the bound does not
matter. -/
theorem follows_of_open_refusals : ∃ e d',
    («open» ⟨["a"]⟩ { name := "a", current := {} }).on {} = (.ok e, d') ∧
      let after := e.applyAll [.frequency ⟨1⟩, .trigger 0, .kind "ForceMergeCompaction"]
      let next := after.apply (.kind "Noop")
      after.Follows ∧ after.strategy.kind = .sizeTiered ∧
        next.2 = none ∧ next.1.strategy.kind = .noop ∧ next.1.inUse? ≠ after.inUse? := by
  obtain ⟨e, d', hopened⟩ : ∃ e d',
      («open» ⟨["a"]⟩ { name := "a", current := {} }).on {} = (.ok e, d') := ⟨_, _, rfl⟩
  have hfollows := follows_of_open hopened rfl
    [.frequency ⟨1⟩, .trigger 0, .kind "ForceMergeCompaction"]
  refine ⟨e, d', hopened, ?_⟩
  cases hopened
  obtain ⟨hnew, hfresh⟩ := hfollows.2 (.kind "Noop") rfl
  exact ⟨hfollows.1, rfl, rfl, rfl, fun hsame => hfresh (hsame.symm.trans hnew)⟩

end Engine

end SeriesStore
