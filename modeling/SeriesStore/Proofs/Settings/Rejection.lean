import Mathlib
import SeriesStore.Engine

/-!
# Refused updates

An update that is refused leaves the settings as they are. What is around them stays as the
callbacks up to the refusing one have left it: nothing takes back what a callback has done. So
strategies and policies are safe from a refused update where the callbacks that may refuse for
reasons of their own come first. Among the callbacks of delegates the order does not matter, since
all of them build the same strategy, and so all that do anything refuse together.
-/

namespace SeriesStore

/-! ### Calling callbacks in turn -/

namespace IndexSettings

variable {σ : Type} {candidate : EngineSettings} {c : Consumer σ} {cs : List (Consumer σ)}
  {w w' : σ} {error : SettingsError}

lemma run_get_bind {α : Type} (f : σ → ExceptT SettingsError (StateM σ) α) (w : σ) :
    (get >>= f).run.run w = (f w).run.run w := rfl

lemma run_runAll_cons (candidate : EngineSettings) (c : Consumer σ) (cs : List (Consumer σ))
    (w : σ) : (runAll candidate (c :: cs)).run.run w = match (c candidate).run.run w with
      | (.ok _, w₁) => (runAll candidate cs).run.run w₁
      | (.error e, w₁) => (.error e, w₁) := by
  rw [runAll]
  simp only [ExceptT.run_bind, StateT.run_bind]
  rcases (c candidate).run.run w with ⟨e | ⟨⟩, w₁⟩ <;> rfl

lemma run_runAll_append (candidate : EngineSettings) (front back : List (Consumer σ)) (w : σ) :
    (runAll candidate (front ++ back)).run.run w = match (runAll candidate front).run.run w with
      | (.ok _, w₁) => (runAll candidate back).run.run w₁
      | (.error e, w₁) => (.error e, w₁) := by
  induction front generalizing w with
  | nil => rfl
  | cons c front ih =>
    rw [List.cons_append, run_runAll_cons, run_runAll_cons]
    rcases (c candidate).run.run w with ⟨e | ⟨⟩, w₁⟩
    · rfl
    · exact ih w₁

/-- A callback that accepts some settings in all states. -/
def Accepts (candidate : EngineSettings) (c : Consumer σ) : Prop :=
  ∀ w, ∃ w', (c candidate).run.run w = (.ok (), w')

lemma accepts_runAll (hcs : ∀ c ∈ cs, Accepts candidate c) :
    Accepts candidate fun s => runAll s cs := by
  intro w
  induction cs generalizing w with
  | nil => exact ⟨w, rfl⟩
  | cons c cs ih =>
    obtain ⟨w₁, hc⟩ := hcs c List.mem_cons_self w
    rw [run_runAll_cons, hc]
    exact ih (fun c' hc' => hcs c' (List.mem_cons_of_mem _ hc')) w₁

/-- A run that is refused ends with the first callback that refuses. -/
lemma exists_of_run_runAll (h : (runAll candidate cs).run.run w = (.error error, w')) :
    ∃ before c after w₁, cs = before ++ c :: after
      ∧ (runAll candidate before).run.run w = (.ok (), w₁)
      ∧ (c candidate).run.run w₁ = (.error error, w') := by
  induction cs generalizing w with
  | nil => cases h
  | cons c cs ih =>
    rw [run_runAll_cons] at h
    rcases hc : (c candidate).run.run w with ⟨e | ⟨⟩, w₁⟩ <;> rw [hc] at h
    · cases h
      exact ⟨[], c, cs, w, rfl, rfl, hc⟩
    · obtain ⟨before, c', after, w₂, rfl, hbefore, hrefuses⟩ := ih h
      refine ⟨c :: before, c', after, w₂, rfl, ?_, hrefuses⟩
      rw [run_runAll_cons, hc]
      exact hbefore

lemma run_apply (s : IndexSettings σ) (u : SettingUpdate) (w : σ) :
    (s.apply u).run.run w = match (u.apply s.current).validate with
      | .error e => (.error e, w)
      | .ok _ => match (runAll (u.apply s.current) (s.consumersOf u.key)).run.run w with
        | (.ok _, w') => (.ok { s with current := u.apply s.current }, w')
        | (.error e, w') => (.error e, w') := by
  simp only [apply]
  rcases (u.apply s.current).validate with e | ⟨⟩
  · rfl
  · simp only [ExceptT.run_bind, StateT.run_bind]
    rcases (runAll (u.apply s.current) (s.consumersOf u.key)).run.run w with ⟨e | ⟨⟩, w₁⟩ <;> rfl

/-- How an update is refused. -/
inductive Refused (s : IndexSettings σ) (u : SettingUpdate) (w w' : σ) (error : SettingsError) :
    Prop
  /-- The settings would not keep the limits. No callback is called. -/
  | limits (hlimits : (u.apply s.current).validate = .error error) (hsame : w' = w)
  /-- A callback refuses. Those in front of it have been called, and those behind it have not. -/
  | callback {before after : List (Consumer σ)} {c : Consumer σ} {w₁ : σ}
      (hlimits : (u.apply s.current).validate = .ok ())
      (hcut : s.consumersOf u.key = before ++ c :: after)
      (hbefore : (runAll (u.apply s.current) before).run.run w = (.ok (), w₁))
      (hrefuses : (c (u.apply s.current)).run.run w₁ = (.error error, w'))

theorem run_apply_eq_error_iff {s : IndexSettings σ} {u : SettingUpdate} :
    (s.apply u).run.run w = (.error error, w') ↔ s.Refused u w w' error := by
  rw [run_apply]
  constructor
  · intro h
    split at h
    · next hlimits =>
      cases h
      exact .limits hlimits rfl
    · next hlimits =>
      split at h
      · cases h
      · next hall =>
        cases h
        obtain ⟨before, c, after, w₁, hcut, hbefore, hrefuses⟩ := exists_of_run_runAll hall
        exact .callback hlimits hcut hbefore hrefuses
  · intro h
    cases h with
    | limits hlimits hsame => rw [hlimits, hsame]
    | callback hlimits hcut hbefore hrefuses =>
      have hall : (runAll (u.apply s.current) (s.consumersOf u.key)).run.run w
          = (.error error, w') := by
        rw [hcut, run_runAll_append, hbefore]
        simp only [run_runAll_cons, hrefuses]
      rw [hlimits]
      simp only [hall]

end IndexSettings

/-! ### Callbacks that leave strategies and policies alone -/

namespace Listeners

open IndexSettings

variable {candidate : EngineSettings} {c : Consumer Listeners} {cs : List (Consumer Listeners)}
  {key : SettingKey} {w w₁ w' : Listeners} {error : SettingsError} {i n : Nat}

/-- The same strategies stand behind the same delegates, and the policies are the same. -/
structure Untouched (w w' : Listeners) : Prop where
  strategies : w'.strategies = w.strategies
  delegates : w'.delegates = w.delegates
  policies : w'.policies = w.policies

lemma Untouched.refl (w : Listeners) : w.Untouched w := ⟨rfl, rfl, rfl⟩

lemma Untouched.trans (h : w.Untouched w₁) (h' : w₁.Untouched w') : w.Untouched w' :=
  ⟨h'.strategies.trans h.strategies, h'.delegates.trans h.delegates, h'.policies.trans h.policies⟩

/-- A callback that leaves strategies and policies alone, whether or not it refuses. -/
def Passive (c : Consumer Listeners) : Prop :=
  ∀ (s : EngineSettings) (w : Listeners), w.Untouched ((c s).run.run w).2

lemma passive_observer (label : String) (refuses : Bool) : Passive (observer label refuses) := by
  intro s w
  cases refuses <;> exact ⟨rfl, rfl, rfl⟩

lemma untouched_of_runAll
    (hcs : ∀ c ∈ cs, ∀ w : Listeners, w.Untouched ((c candidate).run.run w).2) (w : Listeners) :
    w.Untouched ((runAll candidate cs).run.run w).2 := by
  induction cs generalizing w with
  | nil => exact .refl w
  | cons c cs ih =>
    have hfirst := hcs c List.mem_cons_self w
    rw [run_runAll_cons]
    rcases hc : (c candidate).run.run w with ⟨e | ⟨⟩, w₁⟩ <;> rw [hc] at hfirst
    · exact hfirst
    · exact hfirst.trans (ih (fun c' hc' => hcs c' (List.mem_cons_of_mem _ hc')) w₁)

/-! ### Callbacks of delegates and policies -/

/-- A callback of a delegate or of a policy for one setting. -/
def Follows (key : SettingKey) (c : Consumer Listeners) : Prop :=
  ∃ i, (key, c) ∈ delegateConsumers i ∨ (key, c) = (.percentage, repercent i)

/-- A callback for the frequency or the percentage never refuses. All others of one setting build
the strategy anew. -/
lemma follows_cases (key : SettingKey) : (∀ c, Follows key c → ∃ i, c = rebuild i)
    ∨ ∀ c, Follows key c → ∀ s, Accepts s c := by
  have hretime (i : Nat) (s : EngineSettings) : Accepts s (retime i) := fun w => ⟨_, rfl⟩
  have hrepercent (i : Nat) (s : EngineSettings) : Accepts s (repercent i) := fun w => ⟨_, rfl⟩
  cases key with
  | kind | trigger | target =>
    refine .inl ?_
    rintro c ⟨i, h⟩
    exact ⟨i, by simpa [delegateConsumers] using h⟩
  | frequency =>
    refine .inr ?_
    rintro c ⟨i, h⟩
    obtain rfl : c = retime i := by simpa [delegateConsumers] using h
    exact hretime i
  | percentage =>
    refine .inr ?_
    rintro c ⟨i, h⟩
    obtain rfl : c = repercent i := by simpa [delegateConsumers] using h
    exact hrepercent i

lemma run_rebuild_of_none {s : EngineSettings} (hid : w.strategyId? i = none) :
    (rebuild i s).run.run w = (.ok (), w) := by
  rw [rebuild, run_get_bind, hid]
  rfl

lemma run_rebuild_of_error {s : EngineSettings} {e : CompactionError}
    (hid : w.strategyId? i = some n) (hconfig : Strategy.ofConfig s.compaction = .error e) :
    (rebuild i s).run.run w = (.error (.compaction e), w) := by
  rw [rebuild, run_get_bind, hid, hconfig]
  rfl

lemma run_rebuild_of_ok {s : EngineSettings} {strategy : Strategy}
    (hid : w.strategyId? i = some n) (hconfig : Strategy.ofConfig s.compaction = .ok strategy) :
    (rebuild i s).run.run w = (.ok (), w.install i strategy) := by
  rw [rebuild, run_get_bind, hid, hconfig]
  rfl

/-- A callback that leaves strategies and policies alone, and never refuses. -/
def Harmless (c : Consumer Listeners) : Prop := Passive c ∧ ∀ s, Accepts s c

/-- Delegates refuse settings together: either their strategy can be built, and none refuses, or it
cannot, and none has changed. -/
lemma untouched_of_rebuilds (hcs : ∀ c ∈ cs, (∃ i, c = rebuild i) ∨ Harmless c)
    (h : (runAll candidate cs).run.run w = (.error error, w')) : w.Untouched w' := by
  cases hconfig : Strategy.ofConfig candidate.compaction with
  | ok strategy =>
    have haccepts : ∀ c ∈ cs, Accepts candidate c := by
      intro c hc
      rcases hcs c hc with ⟨i, rfl⟩ | hharmless
      · intro w
        cases hid : w.strategyId? i with
        | none => exact ⟨w, run_rebuild_of_none hid⟩
        | some n => exact ⟨w.install i strategy, run_rebuild_of_ok hid hconfig⟩
      · exact hharmless.2 candidate
    obtain ⟨w₁, hrun⟩ := accepts_runAll haccepts w
    cases hrun.symm.trans h
  | error e =>
    have hidle : ∀ c ∈ cs, ∀ w : Listeners, w.Untouched ((c candidate).run.run w).2 := by
      intro c hc w
      rcases hcs c hc with ⟨i, rfl⟩ | hharmless
      · cases hid : w.strategyId? i with
        | none => exact run_rebuild_of_none hid ▸ .refl w
        | some n => exact run_rebuild_of_error hid hconfig ▸ .refl w
      · exact hharmless.1 candidate w
    have huntouched := untouched_of_runAll hidle w
    rwa [h] at huntouched

/-- Of the callbacks for one setting, those that may refuse it for reasons of their own stand in
front of those of delegates and policies. -/
def RefusersFirst (key : SettingKey) (cs : List (Consumer Listeners)) : Prop :=
  ∃ front back, cs = front ++ back ∧ (∀ c ∈ front, Passive c)
    ∧ ∀ c ∈ back, Follows key c ∨ Harmless c

lemma RefusersFirst.untouched (hfirst : RefusersFirst key cs)
    (h : (runAll candidate cs).run.run w = (.error error, w')) : w.Untouched w' := by
  obtain ⟨front, back, rfl, hfront, hback⟩ := hfirst
  have hpassive := untouched_of_runAll (fun c hc => hfront c hc candidate) w
  rw [run_runAll_append] at h
  rcases hrun : (runAll candidate front).run.run w with ⟨e | ⟨⟩, w₁⟩ <;>
    rw [hrun] at h hpassive
  · cases h
    exact hpassive
  · rcases follows_cases key with hrebuild | haccepts
    · exact hpassive.trans
        (untouched_of_rebuilds (fun c hc => (hback c hc).imp_left (hrebuild c)) h)
    · have hall : ∀ c ∈ back, Accepts candidate c := fun c hc =>
        (hback c hc).elim (fun hfollows => haccepts c hfollows candidate) fun hc => hc.2 candidate
      obtain ⟨w₂, hok⟩ := accepts_runAll hall w₁
      cases hok.symm.trans h

lemma untouched_of_run_apply {s : IndexSettings Listeners} {u : SettingUpdate}
    (hfirst : RefusersFirst u.key (s.consumersOf u.key))
    (h : (s.apply u).run.run w = (.error error, w')) : w.Untouched w' := by
  rw [run_apply] at h
  split at h
  · cases h
    exact .refl w
  · split at h
    · cases h
    · next hall =>
      cases h
      exact hfirst.untouched hall

end Listeners

/-! ### Refused updates of an engine -/

namespace Engine

open Listeners

variable {e e' : Engine} {u : SettingUpdate} {error : SettingsError}

/-- The engine after some updates, of which some may have been refused. -/
def applyAll (e : Engine) (us : List SettingUpdate) : Engine :=
  us.foldl (fun e u => (e.apply u).1) e

lemma run_apply_of_refused (h : e.apply u = (e', some error)) : e'.settings = e.settings
    ∧ (e.settings.apply u).run.run e.listeners = (.error error, e'.listeners) := by
  rw [apply] at h
  split at h
  · cases h
  · next hrun =>
    cases h
    exact ⟨rfl, hrun⟩

lemma consumers_apply (e : Engine) (u : SettingUpdate) :
    (e.apply u).1.settings.consumers = e.settings.consumers := by
  rw [apply, IndexSettings.run_apply]
  rcases (u.apply e.settings.current).validate with _ | ⟨⟩
  · rfl
  · simp only
    rcases (IndexSettings.runAll (u.apply e.settings.current)
      (e.settings.consumersOf u.key)).run.run e.listeners with ⟨_ | ⟨⟩, w⟩ <;> rfl

lemma consumers_applyAll (e : Engine) (us : List SettingUpdate) :
    (e.applyAll us).settings.consumers = e.settings.consumers := by
  induction us generalizing e with
  | nil => rfl
  | cons u us ih => exact (ih (e.apply u).1).trans (consumers_apply e u)

/-- A refused update leaves the settings as they are, whatever updates came before it. Strategies
and policies are as the callbacks up to the first refusing one have left them; they are untouched if
all others that may refuse stand in front of the callbacks of delegates and policies. -/
theorem apply_refused (e : Engine) (us : List SettingUpdate)
    (h : (e.applyAll us).apply u = (e', some error)) :
    e'.settings = (e.applyAll us).settings
      ∧ (e.applyAll us).settings.Refused u (e.applyAll us).listeners e'.listeners error
      ∧ (RefusersFirst u.key (e.settings.consumersOf u.key) →
        (e.applyAll us).listeners.Untouched e'.listeners) := by
  obtain ⟨hsettings, hrun⟩ := run_apply_of_refused h
  refine ⟨hsettings, IndexSettings.run_apply_eq_error_iff.mp hrun, fun hfirst => ?_⟩
  refine untouched_of_run_apply ?_ hrun
  rw [IndexSettings.consumersOf] at hfirst ⊢
  rwa [consumers_applyAll]

/-- An engine whose delegate follows the default settings, with callbacks in front of those of the
delegate and behind them. -/
def flanked (front back : List (SettingKey × Consumer Listeners)) :
    Except CompactionError Engine := do
  let (i, s, w) ← follow { name := "a", current := {}, consumers := front } {}
  return ⟨⟨["a"]⟩, s.register back, w, i, 0⟩

theorem apply_refused_in_front : ∃ e, flanked [(.kind, observer "b" true)] [] = .ok e
    ∧ ∃ e' error, (e.applyAll [.percentage 50]).apply (.kind "Noop") = (e', some error)
      ∧ e'.settings = (e.applyAll [.percentage 50]).settings
      ∧ (e.applyAll [.percentage 50]).listeners.Untouched e'.listeners := by
  refine ⟨_, rfl, _, _, rfl, ?_⟩
  refine And.imp_right (fun h => h.2 ?_) (apply_refused _ _ (u := .kind "Noop") rfl)
  refine ⟨[observer "b" true], [rebuild 0], rfl, ?_, ?_⟩
  · intro c hc
    obtain rfl := List.mem_singleton.mp hc
    exact passive_observer "b" true
  · intro c hc
    obtain rfl := List.mem_singleton.mp hc
    exact .inl ⟨0, .inl List.mem_cons_self⟩

/-- Behind the delegate, a callback that refuses comes too late: the settings stay, but the strategy
is the new one. -/
theorem apply_refused_behind : ∃ e, flanked [] [(.kind, observer "b" true)] = .ok e
    ∧ ∃ e' error, e.apply (.kind "Noop") = (e', some error) ∧ e'.settings = e.settings
      ∧ e.strategy.kind = .sizeTiered ∧ e'.strategy = .noop :=
  ⟨_, rfl, _, _, rfl, rfl, rfl, rfl⟩

end Engine

end SeriesStore
