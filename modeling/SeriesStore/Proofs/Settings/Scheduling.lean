import SeriesStore.Proofs.Settings.Following
import SeriesStore.Proofs.Settings.History

/-!
# When the next cycle is due

An engine is due for its next cycle after the frequency in its settings, which is a minute at
least, as long as its strategy merges anything. The longest frequency of all cannot be told from
none: an engine with that frequency is never due, whatever its strategy.
-/

namespace SeriesStore

namespace Strategy

/-- A strategy that merges nothing has no frequency, whatever it is given. -/
lemma frequency_withFrequency (f : UInt64) (s : Strategy) :
    (s.withFrequency f).frequency = if s.kind = .noop then never else f := by
  cases s with
  | noop => rfl
  | sizeTiered | forceMerge => exact (if_neg (by simp [kind])).symm

/-- The frequency in a configuration is already the one of the strategy that it asks for. -/
lemma frequency_of_ofConfig {c : CompactionConfig} {s : Strategy} (hbuilt : ofConfig c = .ok s) :
    s.frequency = if s.kind = .noop then never else c.frequency.millis := by
  have hsame : s = s.withFrequency c.frequency.millis :=
    Except.ok.inj (hbuilt.symm.trans (ofConfig_frequency hbuilt c.frequency))
  rw [← frequency_withFrequency, ← hsame]

end Strategy

/-- Settings that were made within the limits, and then had callbacks registered and updates
tried. -/
def IndexSettings.Reached (s : IndexSettings Listeners) : Prop :=
  ∃ (name : String) (initial : EngineSettings) (start : IndexSettings Listeners) (w : Listeners)
    (es : List (Event Listeners)), of? name initial = .ok start ∧ s = (es.foldl step (start, w)).1

lemma IndexSettings.Reached.valid {s : IndexSettings Listeners} (h : s.Reached) :
    s.current.Valid := by
  obtain ⟨name, initial, start, w, es, hmade, rfl⟩ := h
  obtain ⟨rfl, hvalid⟩ := current_of_of? hmade
  exact valid_run (x := (start, w)) hvalid es

namespace Engine

open Listeners

variable {e : Engine} {u : SettingUpdate}

/-- The limits are kept by every update. -/
lemma valid_applyAll (hlimits : e.settings.current.Valid) (us : List SettingUpdate) :
    (e.applyAll us).settings.current.Valid := by
  induction us generalizing e with
  | nil => exact hlimits
  | cons u us ih =>
    have hvalid := IndexSettings.valid_run (x := (e.settings, e.listeners)) hlimits [.update u]
    rw [List.foldl_cons, List.foldl_nil, IndexSettings.step_engine] at hvalid
    exact ih hvalid

/-! ### Other callbacks in front -/

/-- The engine without the callbacks that others have registered. -/
def bare (e : Engine) : Engine :=
  { e with
    settings.consumers := delegateConsumers e.delegate ++ [(.percentage, repercent e.policy)] }

/-- The callbacks of the engine come last. All others leave strategies and policies alone. -/
def Last (e : Engine) : Prop :=
  ∃ others, (∀ c ∈ others, Passive c.2) ∧
    e.settings.consumers = others ++ e.bare.settings.consumers

lemma Last.consumersOf (hlast : e.Last) (key : SettingKey) :
    ∃ front, (∀ c ∈ front, Passive c) ∧
      e.settings.consumersOf key = front ++ e.bare.settings.consumersOf key := by
  obtain ⟨others, hpassive, hcut⟩ := hlast
  refine ⟨(others.filter fun c => c.1 == key).map (·.2), fun c hc => ?_, ?_⟩
  · obtain ⟨p, hp, rfl⟩ := List.mem_map.mp hc
    exact hpassive p (List.mem_filter.mp hp).1
  · rw [IndexSettings.consumersOf, hcut, List.filter_append, List.map_append]
    rfl

lemma Last.apply (hlast : e.Last) (u : SettingUpdate) : (e.apply u).1.Last := by
  obtain ⟨others, hpassive, hcut⟩ := hlast
  refine ⟨others, hpassive, (consumers_apply e u).trans ?_⟩
  rw [hcut, bare, bare, Engine.apply]
  split <;> rfl

/-- Other callbacks do not matter to what follows the settings. -/
lemma Follows.of_bare (hfollows : e.bare.Follows) : e.Follows :=
  ⟨hfollows.strategy, hfollows.policy⟩

lemma Follows.bare (hfollows : e.Follows) : e.bare.Follows :=
  ⟨hfollows.strategy, hfollows.policy⟩

lemma Follows.of_untouched {w : Listeners} (hfollows : e.Follows)
    (huntouched : e.listeners.Untouched w) : ({ e with listeners := w } : Engine).Follows := by
  obtain ⟨⟨s, hasked, huse⟩, p, hpresent, hshare⟩ := hfollows
  refine ⟨⟨s, hasked, ?_⟩, p, ?_, hshare⟩
  · rw [← huse, strategy?, strategy?, strategyId?, strategyId?, huntouched.strategies,
      huntouched.delegates]
  · rw [← hpresent, policy?, policy?, huntouched.policies]

/-- Where no callback in front refuses an update, it does what it would do without them. -/
lemma Follows.apply (hfollows : e.Follows) (hlast : e.Last) (u : SettingUpdate) :
    (e.apply u).1.Follows := by
  obtain ⟨front, hpassive, hcut⟩ := hlast.consumersOf u.key
  have huntouched := untouched_of_runAll
    (fun c hc => hpassive c hc (u.apply e.settings.current)) e.listeners
  rw [Engine.apply, IndexSettings.run_apply]
  cases hlimits : (u.apply e.settings.current).validate with
  | error error => exact hfollows
  | ok =>
    simp only [hcut, IndexSettings.run_runAll_append]
    rcases hfront : (IndexSettings.runAll (u.apply e.settings.current) front).run.run e.listeners
      with ⟨error | ⟨⟩, w⟩ <;> rw [hfront] at huntouched
    · exact hfollows.of_untouched huntouched
    · have hsettled : ({ e.bare with listeners := w } : Engine).Settled :=
        ⟨(hfollows.of_untouched huntouched).bare, rfl⟩
      obtain ⟨n, hknown, -⟩ := hsettled.behind
      have hnext := (hsettled.of_applied (applied_apply hsettled.alone hknown u)).toFollows
      have hcandidate : u.apply ({ e.bare with listeners := w } : Engine).settings.current
        = u.apply e.settings.current := rfl
      rw [Engine.apply, IndexSettings.run_apply, hcandidate, hlimits] at hnext
      simp only at hnext ⊢
      rcases hback : (IndexSettings.runAll (u.apply e.settings.current)
        (e.bare.settings.consumersOf u.key)).run.run w with ⟨error | ⟨⟩, w'⟩ <;>
        rw [hback] at hnext <;> exact .of_bare hnext

lemma Follows.applyAll (hfollows : e.Follows) (hlast : e.Last) (us : List SettingUpdate) :
    (e.applyAll us).Follows := by
  induction us generalizing e with
  | nil => exact hfollows
  | cons u us ih => exact ih (hfollows.apply hlast u) (hlast.apply u)

/-! ### The next cycle -/

lemma Follows.nextRun?_eq (hfollows : e.Follows) : e.nextRun?
    = if e.strategy.kind = .noop ∨ e.settings.current.compaction.frequency.millis = Strategy.never
      then none
      else some e.settings.current.compaction.frequency.millis := by
  obtain ⟨s, hasked, huse⟩ := hfollows.strategy
  have hstrategy : e.strategy = s := by rw [Engine.strategy, huse, Option.getD_some]
  rw [nextRun?, hstrategy, Strategy.frequency_of_ofConfig hasked]
  by_cases hidle : s.kind = .noop
  · simp [hidle]
  · simp [hidle]

/-- Whatever settings an engine has been opened with, as long as the callbacks on them leave
strategies alone, and after any updates, accepted or refused, the frequency in the settings is a
minute at least. The next cycle is due after it; none is due if the strategy in use merges nothing,
and none either if the frequency is the longest of all. -/
theorem nextRun?_of_open {dataDir : Path} {settings : IndexSettings Listeners} {d d' : Disk}
    (hreached : settings.Reached) (hpassive : ∀ c ∈ settings.consumers, Passive c.2)
    (hopened : («open» dataDir settings).on d = (.ok e, d')) (us : List SettingUpdate) :
    let after := e.applyAll us
    let frequency := after.settings.current.compaction.frequency.millis
    60000 ≤ frequency.toNat ∧
      after.nextRun? = if after.strategy.kind = .noop ∨ frequency = Strategy.never then none
        else some frequency := by
  obtain ⟨hfollows, hcurrent, hconsumers⟩ := follows_of_on_open hopened
  have hlast : e.Last := ⟨settings.consumers, hpassive, hconsumers⟩
  have hlimits := valid_applyAll (e := e) (hcurrent ▸ hreached.valid) us
  exact ⟨hlimits.frequency, (hfollows.applyAll hlast us).nextRun?_eq⟩

/-- Settings with a frequency of two minutes, and an observer that refuses every other kind of
strategy. -/
def watched : IndexSettings Listeners where
  name := "a"
  current := { compaction.frequency := ⟨120000⟩ }
  consumers := [(.kind, observer "b" true)]

/-- The observer refuses to go without merges, so that the next cycle stays due; of two new
frequencies, the one that is too short is refused, and the other one counts. -/
theorem nextRun?_of_open_watched : ∃ e d', («open» ⟨["a"]⟩ watched).on {} = (.ok e, d') ∧
    let after := e.applyAll [.kind "Noop", .frequency ⟨180000⟩, .frequency ⟨1⟩]
    60000 ≤ after.settings.current.compaction.frequency.millis.toNat ∧
      after.nextRun? = some 180000 := by
  have hreached : watched.Reached := ⟨"a", {}, { name := "a", current := {} }, {},
    [.register .kind (observer "b" true), .update (.frequency ⟨120000⟩)], rfl, rfl⟩
  have hpassive : ∀ c ∈ watched.consumers, Passive c.2 := by
    intro c hc
    obtain rfl := List.mem_singleton.mp hc
    exact passive_observer "b" true
  obtain ⟨e, d', hopened⟩ : ∃ e d', («open» ⟨["a"]⟩ watched).on {} = (.ok e, d') := ⟨_, _, rfl⟩
  have hnext := nextRun?_of_open hreached hpassive hopened
    [.kind "Noop", .frequency ⟨180000⟩, .frequency ⟨1⟩]
  refine ⟨e, d', hopened, ?_⟩
  cases hopened
  exact hnext

/-- Under size tiers with the longest frequency, the next cycle is never due. -/
theorem nextRun?_longest : ∃ e d',
    («open» ⟨["a"]⟩ { name := "a", current := {} }).on {} = (.ok e, d') ∧
      let next := e.apply (.frequency ⟨Strategy.never⟩)
      next.2 = none ∧ next.1.strategy.kind = .sizeTiered ∧
        next.1.settings.current.compaction.frequency.millis = Strategy.never ∧
        next.1.nextRun? = none :=
  ⟨_, _, rfl, rfl, rfl, rfl, rfl⟩

end Engine

end SeriesStore
