import SeriesStore.Proofs.Settings.Rejection

/-!
# Histories of settings

Callbacks are registered and updates are tried, in any order. An update is accepted if the settings
with the new value keep the limits and no callback for that setting refuses them. Whatever happens,
the settings are those at the start with the accepted updates applied to them in order.
-/

namespace SeriesStore

/-! ### Single settings -/

/-- The value of a setting, as an update. -/
def SettingKey.value (key : SettingKey) (s : EngineSettings) : SettingUpdate :=
  match key with
  | kind => .kind s.compaction.kind
  | frequency => .frequency s.compaction.frequency
  | trigger => .trigger s.compaction.trigger
  | target => .target s.compaction.target
  | percentage => .percentage s.log.percentage

namespace SettingUpdate

variable (u : SettingUpdate) (s : EngineSettings)

/-- An update gives a setting its value. -/
lemma value_apply : u.key.value (u.apply s) = u := by
  cases u <;> rfl

/-- An update changes nothing else: with the old value, everything is as before. -/
lemma apply_value : (u.key.value s).apply (u.apply s) = s := by
  cases u <;> rfl

end SettingUpdate

/-- The limits that settings keep. -/
structure EngineSettings.Valid (s : EngineSettings) : Prop where
  frequency : 60000 ≤ s.compaction.frequency.millis.toNat
  percentage : s.log.percentage.toNat ≤ 100

lemma EngineSettings.validate_eq_ok_iff {s : EngineSettings} : s.validate = .ok () ↔ s.Valid := by
  have hfrequency : s.compaction.frequency.millis < Config.shortestFrequency
      ↔ s.compaction.frequency.millis.toNat < 60000 := UInt64.lt_iff_toNat_lt
  have hpercentage : 100 < s.log.percentage ↔ 100 < s.log.percentage.toNat :=
    UInt8.lt_iff_toNat_lt
  rw [validate]
  split_ifs with hshort hhigh
  · exact iff_of_false (by simp) fun h => absurd (hfrequency.mp hshort) h.frequency.not_gt
  · exact iff_of_false (by simp) fun h => absurd (hpercentage.mp hhigh) h.percentage.not_gt
  · exact iff_of_true rfl
      ⟨not_lt.mp (mt hfrequency.mpr hshort), not_lt.mp (mt hpercentage.mpr hhigh)⟩

namespace IndexSettings

variable {σ : Type} {candidate : EngineSettings} {c : Consumer σ} {cs : List (Consumer σ)} {w : σ}

/-! ### Callbacks in turn -/

/-- The state that some callbacks leave, each called on the same settings. -/
def leave (candidate : EngineSettings) (cs : List (Consumer σ)) (w : σ) : σ :=
  cs.foldl (fun w c => ((c candidate).run.run w).2) w

/-- What a callback answers that is called behind some others. -/
def answer (candidate : EngineSettings) (front : List (Consumer σ)) (c : Consumer σ) (w : σ) :
    Except SettingsError Unit :=
  ((c candidate).run.run (leave candidate front w)).1

/-- None of some callbacks refuses when they are called in turn. -/
def AllAccept (candidate : EngineSettings) (cs : List (Consumer σ)) (w : σ) : Prop :=
  ∀ front c back, cs = front ++ c :: back → answer candidate front c w = .ok ()

lemma allAccept_nil : AllAccept candidate [] w := by
  intro front c back h
  simp at h

lemma allAccept_cons : AllAccept candidate (c :: cs) w ↔
    ((c candidate).run.run w).1 = .ok () ∧ AllAccept candidate cs ((c candidate).run.run w).2 := by
  constructor
  · intro h
    refine ⟨h [] c cs rfl, fun front c' back hcut => ?_⟩
    exact h (c :: front) c' back (by rw [hcut, List.cons_append])
  · rintro ⟨hfirst, hrest⟩ front c' back hcut
    cases front with
    | nil =>
      obtain ⟨rfl, -⟩ := List.cons.inj hcut
      exact hfirst
    | cons d front =>
      obtain ⟨rfl, htail⟩ := List.cons.inj hcut
      exact hrest front c' back htail

/-- A callback at some place that notes the place and the settings when it is called. -/
def noting (p : Consumer σ × ℕ) : Consumer (σ × List (ℕ × EngineSettings)) := fun s =>
  ExceptT.mk fun (w, calls) =>
    let (result, w') := (p.1 s).run.run w
    (result, w', calls ++ [(p.2, s)])

/-- Some callbacks are called in turn: all of them if none refuses, or those up to the first that
refuses. -/
inductive Called (candidate : EngineSettings) (w : σ) (ps : List (Consumer σ × ℕ)) :
    List (Consumer σ × ℕ) → Except SettingsError Unit → Prop
  | all (accept : AllAccept candidate (ps.map Prod.fst) w) : Called candidate w ps ps (.ok ())
  | some {front back : List (Consumer σ × ℕ)} {p : Consumer σ × ℕ} {error : SettingsError}
      (cut : ps = front ++ p :: back) (accept : AllAccept candidate (front.map Prod.fst) w)
      (refuses : answer candidate (front.map Prod.fst) p.1 w = .error error) :
      Called candidate w ps (front ++ [p]) (.error error)

namespace Called

variable {ps called : List (Consumer σ × ℕ)} {p : Consumer σ × ℕ}
  {result : Except SettingsError Unit}

lemma cons (haccepts : ((p.1 candidate).run.run w).1 = .ok ())
    (h : Called candidate ((p.1 candidate).run.run w).2 ps called result) :
    Called candidate w (p :: ps) (p :: called) result := by
  cases h with
  | all haccept => exact .all (allAccept_cons.mpr ⟨haccepts, haccept⟩)
  | @some front back q error hcut haccept hrefuses =>
    have hcut' : p :: ps = (p :: front) ++ q :: back := congrArg (p :: ·) hcut
    exact .some hcut' (allAccept_cons.mpr ⟨haccepts, haccept⟩) hrefuses

lemma result_eq_ok_iff (h : Called candidate w ps called result) :
    result = .ok () ↔ AllAccept candidate (ps.map Prod.fst) w := by
  cases h with
  | all haccept => exact iff_of_true rfl haccept
  | @some front back p _ hcut haccept hrefuses =>
    refine iff_of_false (by simp) fun h => ?_
    have haccepts := h (front.map Prod.fst) p.1 (back.map Prod.fst) (by rw [hcut]; simp)
    cases haccepts.symm.trans hrefuses

end Called

lemma run_runAll_noting (candidate : EngineSettings) (ps : List (Consumer σ × ℕ)) (w : σ)
    (calls : List (ℕ × EngineSettings)) : ∃ called result, Called candidate w ps called result
      ∧ (runAll candidate (ps.map Prod.fst)).run.run w
        = (result, leave candidate (called.map Prod.fst) w)
      ∧ (runAll candidate (ps.map noting)).run.run (w, calls)
        = (result, leave candidate (called.map Prod.fst) w,
          calls ++ called.map fun p => (p.2, candidate)) := by
  induction ps generalizing w calls with
  | nil => exact ⟨[], .ok (), .all allAccept_nil, rfl, by simp [leave]; rfl⟩
  | cons p ps ih =>
    rw [List.map_cons, List.map_cons, run_runAll_cons, run_runAll_cons]
    have hnoting : (noting p candidate).run.run (w, calls)
        = (((p.1 candidate).run.run w).1, ((p.1 candidate).run.run w).2,
          calls ++ [(p.2, candidate)]) := rfl
    rw [hnoting]
    rcases hp : (p.1 candidate).run.run w with ⟨error | ⟨⟩, w₁⟩
    · have hcut : p :: ps = [] ++ p :: ps := rfl
      refine ⟨[p], .error error, .some hcut allAccept_nil (congrArg Prod.fst hp), ?_, ?_⟩
      · simp [leave, hp]
      · simp [leave, hp]
    · obtain ⟨called, result, hcalled, hrun, hnoted⟩ := ih w₁ (calls ++ [(p.2, candidate)])
      refine ⟨p :: called, result, .cons (congrArg Prod.fst hp) ?_, ?_, ?_⟩
      · rwa [hp]
      · simpa [leave, hp] using hrun
      · simpa [leave, hp] using hnoted

/-! ### One update -/

/-- The same settings, with callbacks that note their calls. -/
def noted (s : IndexSettings σ) : IndexSettings (σ × List (ℕ × EngineSettings)) where
  name := s.name
  current := s.current
  consumers := s.consumers.zipIdx.map fun p => (p.1.1, noting (p.1.2, p.2))

/-- The callbacks on changes of one setting, with their places among all callbacks. -/
def placed (s : IndexSettings σ) (key : SettingKey) : List (Consumer σ × ℕ) :=
  (s.consumers.zipIdx.filter fun p => p.1.1 == key).map fun p => (p.1.2, p.2)

lemma map_fst_placed (s : IndexSettings σ) (key : SettingKey) :
    (s.placed key).map Prod.fst = s.consumersOf key := by
  have hfst : s.consumers = s.consumers.zipIdx.map Prod.fst := (List.zipIdx_map_fst 0 _).symm
  rw [consumersOf, placed, List.map_map]
  conv_rhs => rw [hfst]
  rw [List.filter_map, List.map_map]
  rfl

lemma consumersOf_noted (s : IndexSettings σ) (key : SettingKey) :
    s.noted.consumersOf key = (s.placed key).map noting := by
  rw [consumersOf, placed, noted, List.filter_map, List.map_map, List.map_map]
  rfl

/-- An update is accepted. -/
def accepts (s : IndexSettings σ) (u : SettingUpdate) (w : σ) : Bool :=
  ((s.apply u).run.run w).1.isOk

/-- Something that happens to settings. -/
inductive Event (σ : Type)
  | register (key : SettingKey) (c : Consumer σ)
  | update (u : SettingUpdate)

/-- The settings, and what is around them, after an event. A refused update leaves the settings as
they are. -/
def step (x : IndexSettings σ × σ) : Event σ → IndexSettings σ × σ
  | .register key c => (x.1.register [(key, c)], x.2)
  | .update u =>
    match (x.1.apply u).run.run x.2 with
    | (.ok s, w) => (s, w)
    | (.error _, w) => (x.1, w)

/-- What there is to know of one update. -/
structure Tried (s : IndexSettings σ) (u : SettingUpdate) (w : σ) : Prop where
  /-- It is accepted if the limits are kept and no callback refuses. -/
  accepts_iff : s.accepts u w = true ↔
    (u.apply s.current).Valid ∧ AllAccept (u.apply s.current) (s.consumersOf u.key) w
  /-- The callbacks for the changed setting are called up to the first one that refuses, all of them
  on all the new settings. None is called if the limits are not kept. -/
  calls : ∃ called, (s.noted.apply u).run.run (w, [])
      = (((s.apply u).run.run w).1.map noted, ((s.apply u).run.run w).2,
        called.map fun p => (p.2, u.apply s.current))
    ∧ ((u.apply s.current).Valid →
      ∃ result, Called (u.apply s.current) w (s.placed u.key) called result)
    ∧ (¬ (u.apply s.current).Valid → called = [])
  /-- The new settings become current if the update is accepted. -/
  settles : (step (s, w) (.update u)).1
    = { s with current := if s.accepts u w then u.apply s.current else s.current }

/-- Where the limits are not kept, an update is refused at once. -/
lemma tried_of_not_valid {s : IndexSettings σ} {u : SettingUpdate} (w : σ)
    (hinvalid : ¬ (u.apply s.current).Valid) : s.Tried u w := by
  cases hlimits : (u.apply s.current).validate with
  | ok => exact absurd (EngineSettings.validate_eq_ok_iff.mp hlimits) hinvalid
  | error e =>
    have hrun : (s.apply u).run.run w = (.error e, w) := by rw [run_apply, hlimits]
    have hnoted : (s.noted.apply u).run.run (w, []) = (.error e, w, []) := by
      rw [run_apply, show u.apply s.noted.current = u.apply s.current from rfl, hlimits]
    have hrefused : s.accepts u w = false := by rw [accepts, hrun]; rfl
    refine ⟨?_, ⟨[], ?_, fun h => absurd h hinvalid, fun _ => rfl⟩, ?_⟩
    · exact iff_of_false (by simp [hrefused]) fun h => hinvalid h.1
    · rw [hnoted, hrun]
      rfl
    · rw [step, hrun, hrefused]
      rfl

/-- Where they are kept, the callbacks decide. -/
lemma tried_of_valid {s : IndexSettings σ} {u : SettingUpdate} (w : σ)
    (hvalid : (u.apply s.current).Valid) : s.Tried u w := by
  obtain ⟨called, result, hcalled, hrun, hnoted⟩ :=
    run_runAll_noting (u.apply s.current) (s.placed u.key) w []
  rw [map_fst_placed] at hrun
  rw [← consumersOf_noted, List.nil_append] at hnoted
  have hok := hcalled.result_eq_ok_iff
  rw [map_fst_placed] at hok
  have hlimits := EngineSettings.validate_eq_ok_iff.mpr hvalid
  -- the same update, without and with notes of the calls
  have happly := run_apply s u w
  have happly' := run_apply s.noted u (w, [])
  simp only [hlimits, hrun] at happly
  simp only [show s.noted.current = s.current from rfl, hlimits, hnoted] at happly'
  cases result with
  | ok _ =>
    have haccepts : s.accepts u w = true := by rw [accepts, happly]; rfl
    refine ⟨iff_of_true haccepts ⟨hvalid, hok.mp rfl⟩,
      ⟨called, ?_, fun _ => ⟨_, hcalled⟩, absurd hvalid⟩, ?_⟩
    · rw [happly, happly']
      rfl
    · rw [step, happly, haccepts]
      rfl
  | error e =>
    have hrefused : s.accepts u w = false := by rw [accepts, happly]; rfl
    have hsome : ¬ AllAccept (u.apply s.current) (s.consumersOf u.key) w := by
      rw [← hok]
      simp
    refine ⟨iff_of_false (by simp [hrefused]) fun h => hsome h.2,
      ⟨called, ?_, fun _ => ⟨_, hcalled⟩, absurd hvalid⟩, ?_⟩
    · rw [happly, happly']
      rfl
    · rw [step, happly, hrefused]
      rfl

theorem tried (s : IndexSettings σ) (u : SettingUpdate) (w : σ) : s.Tried u w :=
  (em (u.apply s.current).Valid).elim (tried_of_valid w) (tried_of_not_valid w)

/-! ### Runs -/

/-- The updates that are accepted, in order. -/
def accepted (x : IndexSettings σ × σ) : List (Event σ) → List SettingUpdate
  | [] => []
  | .register key c :: es => accepted (step x (.register key c)) es
  | .update u :: es =>
    let later := accepted (step x (.update u)) es
    if x.1.accepts u x.2 then u :: later else later

/-- The settings are the initial ones with the accepted updates applied in order. -/
lemma current_run (x : IndexSettings σ × σ) (es : List (Event σ)) :
    (es.foldl step x).1.current = (accepted x es).foldl (fun s u => u.apply s) x.1.current := by
  induction es generalizing x with
  | nil => rfl
  | cons e es ih =>
    rw [List.foldl_cons, ih]
    cases e with
    | register key c => rfl
    | update u =>
      rw [accepted, (tried x.1 u x.2).settles]
      split_ifs <;> rfl

lemma valid_of_accepts {s : IndexSettings σ} {u : SettingUpdate}
    (h : s.accepts u w = true) : (u.apply s.current).Valid :=
  ((tried s u w).accepts_iff.mp h).1

/-- The limits are kept. -/
lemma valid_run {x : IndexSettings σ × σ} (h : x.1.current.Valid) (es : List (Event σ)) :
    (es.foldl step x).1.current.Valid := by
  induction es generalizing x with
  | nil => exact h
  | cons e es ih =>
    refine ih ?_
    cases e with
    | register key c => exact h
    | update u =>
      rw [(tried x.1 u x.2).settles]
      split_ifs with haccepts
      · exact valid_of_accepts haccepts
      · exact h

lemma current_of_of? {name : String} {initial : EngineSettings} {s : IndexSettings σ}
    (h : of? name initial = .ok s) : s.current = initial ∧ initial.Valid := by
  rw [of?] at h
  cases hlimits : initial.validate with
  | error e =>
    rw [hlimits] at h
    cases h
  | ok =>
    rw [hlimits] at h
    cases h
    exact ⟨rfl, EngineSettings.validate_eq_ok_iff.mp hlimits⟩

/-- The settings of an engine go through the same steps. -/
lemma step_engine (e : Engine) (u : SettingUpdate) :
    step (e.settings, e.listeners) (.update u)
      = ((e.apply u).1.settings, (e.apply u).1.listeners) := by
  rw [step, Engine.apply]
  rcases (e.settings.apply u).run.run e.listeners with ⟨error | settings, listeners⟩ <;> rfl

/-- An update goes as it should for all settings and callbacks, and in all states around them; it is
to one setting, and leaves the others as they are. So after any registrations and updates, the
settings are the initial ones with the accepted updates applied in order, and they keep the limits.
-/
theorem updates_fold {σ : Type} :
    (∀ (s : IndexSettings σ) (u : SettingUpdate) (w : σ), s.Tried u w)
      ∧ (∀ (u : SettingUpdate) (s : EngineSettings),
        u.key.value (u.apply s) = u ∧ (u.key.value s).apply (u.apply s) = s)
      ∧ (∀ (e : Engine) (u : SettingUpdate), step (e.settings, e.listeners) (.update u)
        = ((e.apply u).1.settings, (e.apply u).1.listeners))
      ∧ ∀ (name : String) (initial : EngineSettings) (s : IndexSettings σ),
        of? name initial = .ok s → ∀ (w : σ) (es : List (Event σ)),
          (es.foldl step (s, w)).1.current
              = (accepted (s, w) es).foldl (fun s u => u.apply s) initial
            ∧ (es.foldl step (s, w)).1.current.Valid := by
  refine ⟨tried, fun u s => ⟨u.value_apply s, u.apply_value s⟩, step_engine, ?_⟩
  intro name initial s h w es
  obtain ⟨rfl, hvalid⟩ := current_of_of? h
  exact ⟨current_run (s, w) es, valid_run hvalid es⟩

/-- Of five updates, the one that is too high, the one that a callback refuses and the one that is
too short are left out. -/
theorem updates_fold_observed : ∃ (s : IndexSettings Listeners) (es : List (Event Listeners)),
    of? "a" {} = .ok s
      ∧ accepted (s, {}) es = [.percentage 40, .frequency ⟨120000⟩]
      ∧ (es.foldl step (s, {})).1.current
        = { compaction := { frequency := ⟨120000⟩ }, log := { percentage := 40 } }
      ∧ (es.foldl step (s, {})).1.current.Valid := by
  refine ⟨{ name := "a", current := {} },
    [.register .percentage (Listeners.observer "b" false),
      .register .kind (Listeners.observer "c" true), .update (.percentage 101),
      .update (.percentage 40), .update (.kind "Noop"), .update (.frequency ⟨59999⟩),
      .update (.frequency ⟨120000⟩)], rfl, rfl, rfl, ?_⟩
  exact (updates_fold.2.2.2 "a" {} _ rfl ({} : Listeners) _).2

end IndexSettings

end SeriesStore
