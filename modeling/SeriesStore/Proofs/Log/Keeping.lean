import Mathlib.Data.List.Perm.Basic
import SeriesStore.Log.RateLimit
import SeriesStore.Proofs.Log.Locks

/-!
# What the log must keep

Neither a policy nor the limited one around it lets a file go that a held lock, recovery or the
head of the log needs, whatever has happened to the policies before. For this the table of locks has
to agree with the locks that are held, through every order in which they are acquired and released.
-/

namespace SeriesStore

/-! ### Bounds of one answer -/

/-- The closed files stand in ascending order, and below the file that is still written. -/
structure LogFile.Ordered (files : List LogFile) (head : LogHead) : Prop where
  ascending : files.Pairwise fun a b => a.generation < b.generation
  below : ∀ f ∈ files, f.generation < head.generation

lemma Retention.le_smaller_iff {g a b : UInt64} : g ≤ smaller a b ↔ g ≤ a ∧ g ≤ b := by
  unfold smaller
  split <;> grind

/-- An answer is the highest generation that lies below each of four bounds. -/
lemma RetentionPolicy.le_required_iff {p : RetentionPolicy} {now : Int64} {files : List LogFile}
    {head : LogHead} {g : UInt64} :
    g ≤ p.required now files head ↔
      g ≤ p.retention.proposal now files head ∧ g ≤ p.locked ∧ g ≤ p.recovery ∧
        g ≤ head.generation := by
  simp only [required, Retention.le_smaller_iff, and_assoc]

/-- Of files in ascending order, those below a generation stand in front of the others. -/
lemma LogFile.filter_append_filter {files : List LogFile}
    (hascending : files.Pairwise fun a b => a.generation < b.generation) (g : UInt64) :
    files.filter (fun f => decide (f.generation < g)) ++
      files.filter (fun f => decide (g ≤ f.generation)) = files := by
  induction files with
  | nil => rfl
  | cons f rest ih =>
    obtain ⟨hlowest, hrest⟩ := List.pairwise_cons.mp hascending
    by_cases hbelow : f.generation < g
    · have hkept : ¬ g ≤ f.generation := UInt64.not_le.mpr hbelow
      rw [List.filter_cons_of_pos (by simpa using hbelow),
        List.filter_cons_of_neg (by simpa using hkept), List.cons_append, ih hrest]
    · have hnone : rest.filter (fun e => decide (e.generation < g)) = [] := by
        refine List.filter_eq_nil_iff.mpr fun e hmem => ?_
        have habove := hlowest e hmem
        simp only [decide_eq_true_eq]
        grind
      have hkept : g ≤ f.generation := UInt64.not_lt.mp hbelow
      have hall := ih hrest
      rw [hnone, List.nil_append] at hall
      rw [List.filter_cons_of_neg (by simpa using hbelow), hnone,
        List.filter_cons_of_pos (by simpa using hkept), hall, List.nil_append]

namespace LimitedPolicy

/-- What the limit answers, for files in ascending order: the generation itself, or that of a file
below it which has at least one file in front of it. -/
lemma limit_spec {files : List LogFile}
    (hascending : files.Pairwise fun a b => a.generation < b.generation) (percentage : UInt8)
    (g : UInt64) :
    limit percentage files g = g ∨
      ∃ (i : Nat) (f : LogFile), files[i + 1]? = some f ∧ f.generation < g ∧
        limit percentage files g = f.generation := by
  simp only [limit]
  split
  · exact .inl rfl
  · rename_i hlimited
    simp only [not_or, Nat.not_le] at hlimited
    obtain ⟨-, -, hallowed⟩ := hlimited
    generalize hreach : allowance percentage _ = n at hallowed ⊢
    obtain ⟨i, rfl⟩ : ∃ i, n = i + 1 :=
      Nat.exists_eq_add_one.mpr (hreach ▸ Nat.le_max_right _ _)
    have hposition : files[i + 1]? =
        some ((files.filter fun f => decide (f.generation < g))[i + 1]) := by
      have hsplit := congrArg (·[i + 1]?) (LogFile.filter_append_filter hascending g)
      rw [List.getElem?_append_left hallowed, List.getElem?_eq_getElem hallowed] at hsplit
      exact hsplit.symm
    refine .inr ⟨i, _, hposition, ?_, by rw [hposition]; rfl⟩
    simpa using (List.mem_filter.mp (List.getElem_mem hallowed)).2

lemma limit_le {files : List LogFile}
    (hascending : files.Pairwise fun a b => a.generation < b.generation) (percentage : UInt8)
    (g : UInt64) : limit percentage files g ≤ g := by
  rcases limit_spec hascending percentage g with hsame | ⟨-, f, -, hbelow, hlower⟩
  · exact UInt64.le_of_eq hsame
  · exact UInt64.le_trans (UInt64.le_of_eq hlower) (UInt64.le_of_lt hbelow)

/-- A limited policy never lets more go than its own policy. -/
lemma required_le {files : List LogFile}
    (hascending : files.Pairwise fun a b => a.generation < b.generation) (p : LimitedPolicy)
    (now : Int64) (head : LogHead) :
    p.required now files head ≤ p.policy.required now files head :=
  limit_le hascending p.percentage _

end LimitedPolicy

/-! ### Policies in use -/

/-- A limited policy together with what is asked of it from outside. -/
structure LogUse where
  policy : LimitedPolicy
  /-- The generation of each lock that has been acquired and not been released. -/
  held : List UInt64 := []
  /-- The first generation that recovery needs, as it was told last. -/
  floor : UInt64 := Retention.unlimited

namespace LogUse

/-- What can happen to policies. -/
inductive Event
  | acquire (generation : UInt64)
  /-- The end of one of the held locks. -/
  | release (lock : Nat)
  | recovery (generation : UInt64)
  | size (limit : Option UInt64)
  | age (limit : Option UInt64)
  | files (limit : UInt64)
  | percentage (share : UInt8)
  | evaluation (now : Int64) (files : List LogFile) (head : LogHead)

/-- Changes the inner policy. -/
def onPolicy (u : LogUse) (change : RetentionPolicy → RetentionPolicy) : LogUse :=
  { u with policy := { u.policy with policy := change u.policy.policy } }

/-- The use after an event. An evaluation only reads. -/
def step (u : LogUse) : Event → LogUse
  | .acquire generation =>
    { u.onPolicy (·.lock generation) with held := generation :: u.held }
  | .release lock =>
    match u.held[lock]? with
    | some generation =>
      { u.onPolicy (·.unlock generation) with held := u.held.eraseIdx lock }
    | none => u
  | .recovery generation =>
    { u.onPolicy fun p => { p with recovery := generation } with floor := generation }
  | .size limit => u.onPolicy fun p => { p with retention.size := limit }
  | .age limit => u.onPolicy fun p => { p with retention.age := limit }
  | .files limit => u.onPolicy fun p => { p with retention.files := limit }
  | .percentage share => { u with policy := { u.policy with percentage := share } }
  | .evaluation _ _ _ => u

/-- The use after events one after the other. -/
def run (u : LogUse) (events : List Event) : LogUse := events.foldl step u

/-- New policies, without locks and without a need for recovery. -/
def fresh (retention : Retention) (percentage : UInt8) (tags : Tags) : LogUse :=
  { policy := { policy := { retention := retention }, percentage := percentage, tags := tags } }

/-- The policy knows what is asked of it: each generation is locked as often as a lock on it is
held, and the need of recovery is the last one told. -/
structure Faithful (u : LogUse) : Prop where
  locks : ∀ g, u.policy.policy.locks.count g = u.held.count g
  recovery : u.policy.policy.recovery = u.floor

lemma Faithful.fresh (retention : Retention) (percentage : UInt8) (tags : Tags) :
    Faithful (fresh retention percentage tags) :=
  ⟨fun _ => rfl, rfl⟩

lemma Faithful.step {u : LogUse} (hfaithful : u.Faithful) (event : Event) :
    (u.step event).Faithful := by
  cases event with
  | acquire generation =>
    refine ⟨fun g => ?_, hfaithful.recovery⟩
    calc (u.policy.policy.locks.acquire generation).count g
        = u.held.count g + if g = generation then 1 else 0 := by
          rw [Locks.count_acquire, hfaithful.locks]
      _ = (generation :: u.held).count g := by
          simp only [List.count_cons, beq_iff_eq, eq_comm (a := generation)]
  | release lock =>
    cases hheld : u.held[lock]? with
    | none => simpa only [LogUse.step, hheld] using hfaithful
    | some generation =>
      simp only [LogUse.step, hheld]
      refine ⟨fun g => ?_, hfaithful.recovery⟩
      obtain ⟨hindex, rfl⟩ := List.getElem?_eq_some_iff.mp hheld
      have hrest := (List.getElem_cons_eraseIdx_perm hindex).count_eq g
      calc (u.policy.policy.locks.release u.held[lock]).count g
          = u.held.count g - if g = u.held[lock] then 1 else 0 := by
            rw [Locks.count_release, hfaithful.locks]
        _ = (u.held.eraseIdx lock).count g := by
            rw [← hrest, List.count_cons]
            simp only [beq_iff_eq, eq_comm (a := u.held[lock]), Nat.add_sub_cancel]
  | recovery generation => exact ⟨hfaithful.locks, rfl⟩
  | size limit => exact ⟨hfaithful.locks, hfaithful.recovery⟩
  | age limit => exact ⟨hfaithful.locks, hfaithful.recovery⟩
  | files limit => exact ⟨hfaithful.locks, hfaithful.recovery⟩
  | percentage share => exact ⟨hfaithful.locks, hfaithful.recovery⟩
  | evaluation now files head => exact hfaithful

lemma Faithful.run {u : LogUse} (hfaithful : u.Faithful) (events : List Event) :
    (u.run events).Faithful := by
  induction events generalizing u with
  | nil => exact hfaithful
  | cons event rest ih => exact ih (hfaithful.step event)

/-! ### What a use needs -/

/-- A generation is the lowest one with a held lock, or the highest number of all without a lock. -/
def LowestHeld (u : LogUse) (g : UInt64) : Prop :=
  if u.held = [] then g = Retention.unlimited else g ∈ u.held ∧ ∀ h ∈ u.held, g ≤ h

/-- Nothing that is needed lies below a generation. -/
structure Spares (u : LogUse) (head : LogHead) (g : UInt64) : Prop where
  head : g ≤ head.generation
  held : ∀ h ∈ u.held, g ≤ h
  floor : g ≤ u.floor

lemma Spares.mono {u : LogUse} {head : LogHead} {g g' : UInt64} (hspares : u.Spares head g)
    (hle : g' ≤ g) : u.Spares head g' :=
  ⟨UInt64.le_trans hle hspares.head, fun h hmem => UInt64.le_trans hle (hspares.held h hmem),
    UInt64.le_trans hle hspares.floor⟩

lemma Faithful.lowestHeld_locked {u : LogUse} (hfaithful : u.Faithful) :
    u.LowestHeld u.policy.policy.locked := by
  have hlowest := u.policy.policy.locks.lowest?_spec
  simp only [hfaithful.locks, List.count_pos_iff] at hlowest
  unfold LowestHeld RetentionPolicy.locked
  cases hfound : u.policy.policy.locks.lowest? with
  | none =>
    rw [hfound] at hlowest
    have hreleased : u.held = [] := List.eq_nil_iff_forall_not_mem.mpr fun g =>
      List.count_eq_zero.mp (hlowest g)
    rw [if_pos hreleased, Option.getD_none]
  | some g =>
    rw [hfound] at hlowest
    rw [if_neg (List.ne_nil_of_mem hlowest.1), Option.getD_some]
    exact hlowest

lemma LowestHeld.le {u : LogUse} {g : UInt64} (hlowest : u.LowestHeld g) :
    ∀ h ∈ u.held, g ≤ h := by
  intro h hmem
  rw [LowestHeld, if_neg (List.ne_nil_of_mem hmem)] at hlowest
  exact hlowest.2 h hmem

lemma Faithful.spares_required {u : LogUse} (hfaithful : u.Faithful) (now : Int64)
    (files : List LogFile) (head : LogHead) :
    u.Spares head (u.policy.policy.required now files head) := by
  obtain ⟨-, hlocked, hrecovery, hhead⟩ :=
    RetentionPolicy.le_required_iff.mp (UInt64.le_refl (u.policy.policy.required now files head))
  refine ⟨hhead, fun h hmem => ?_, hfaithful.recovery ▸ hrecovery⟩
  exact UInt64.le_trans hlocked (hfaithful.lowestHeld_locked.le h hmem)

/-- Whatever has happened to new policies, the locked generation is the lowest one that is held, and
for closed files in order both policies spare what is needed, the limited one at least as much as
its own one. -/
theorem run_spares (retention : Retention) (percentage : UInt8) (tags : Tags)
    (events : List Event) (now : Int64) {files : List LogFile} {head : LogHead}
    (hordered : LogFile.Ordered files head) :
    let u := (fresh retention percentage tags).run events
    u.LowestHeld u.policy.policy.locked ∧
      u.Spares head (u.policy.policy.required now files head) ∧
      u.Spares head (u.policy.required now files head) ∧
      u.policy.required now files head ≤ u.policy.policy.required now files head := by
  intro u
  have hfaithful : u.Faithful := (Faithful.fresh retention percentage tags).run events
  have hlimited := LimitedPolicy.required_le hordered.ascending u.policy now head
  have hspares := hfaithful.spares_required now files head
  exact ⟨hfaithful.lowestHeld_locked, hspares, hspares.mono hlimited, hlimited⟩

/-- A generation that has been locked twice and released once is spared, and half of the files below
it at a time may go. -/
theorem run_spares_second_lock :
    let events : List Event :=
      [.acquire 6, .acquire 6, .release 0, .recovery 8, .percentage 50]
    let u := (fresh ⟨none, none, 1⟩ 100 {}).run events
    let files : List LogFile := [⟨3, 10, 0⟩, ⟨4, 10, 0⟩, ⟨5, 10, 0⟩, ⟨7, 10, 0⟩]
    let head : LogHead := ⟨9, 10⟩
    LogFile.Ordered files head ∧ u.held = [6] ∧
      u.policy.policy.required 0 files head = 6 ∧ u.policy.required 0 files head = 4 ∧
      u.LowestHeld u.policy.policy.locked ∧
      u.Spares head (u.policy.policy.required 0 files head) ∧
      u.Spares head (u.policy.required 0 files head) ∧
      u.policy.required 0 files head ≤ u.policy.policy.required 0 files head := by
  intro events u files head
  have hordered : LogFile.Ordered files head := ⟨by decide, by decide⟩
  exact ⟨hordered, by decide, by decide, by decide,
    run_spares ⟨none, none, 1⟩ 100 {} events 0 hordered⟩

end LogUse

end SeriesStore
