import SeriesStore.Proofs.Compaction.Planning
import SeriesStore.Proofs.Index.Contents
import SeriesStore.Proofs.Time.Resolution

/-!
# The protected window

Segments are merged only in an index that ends long enough before the newest one. The time for late
samples and the length of a block are given in milliseconds. Each of them is brought into the unit
of the timestamps on its own, in whole units and no further than a timestamp reaches. In seconds the
parts that are left out may come to a whole unit, and then the window is shorter than both
together.
-/

namespace SeriesStore

/-! ### Lengths of durations -/

namespace Resolution

variable {r : Resolution} {ms : UInt64}

/-- The exact length of a number of milliseconds in units. -/
def length (r : Resolution) (ms : UInt64) : ℚ :=
  match r with
  | seconds => ms.toNat / 1000
  | milliseconds => ms.toNat
  | microseconds => ms.toNat * 1000
  | nanoseconds => ms.toNat * 1000000

/-- The exact length, as far as a timestamp reaches. -/
def reach (r : Resolution) (ms : UInt64) : ℚ := min (r.length ms) 0x7FFFFFFFFFFFFFFF

lemma length_eq (r : Resolution) (ms : UInt64) :
    r.length ms = ms.toNat / 1000 * r.perSecond := by
  cases r <;> simp only [length, perSecond] <;> push_cast <;> ring

lemma length_eq_units (h : r ≠ seconds) : r.length ms = r.units ms.toNat := by
  cases r with
  | seconds => exact absurd rfl h
  | milliseconds => rfl
  | microseconds | nanoseconds => simp [length, units]

/-- The whole units of a duration are what is computed of it. -/
lemma toInt_ofMillis (r : Resolution) (ms : UInt64) : (r.ofMillis ms).toInt = ⌊r.reach ms⌋ := by
  have hlast : ⌊(0x7FFFFFFFFFFFFFFF : ℚ)⌋ = 0x7FFFFFFFFFFFFFFF :=
    Int.floor_natCast 0x7FFFFFFFFFFFFFFF
  rw [ofMillis_eq, toInt_ofExactMillis, wholeUnits, reach, Int.floor_mono.map_min, hlast, length_eq]

lemma reach_nonneg (r : Resolution) (ms : UInt64) : 0 ≤ r.reach ms := by
  refine le_min ?_ (by norm_num)
  cases r <;> simp only [length] <;> positivity

/-- Only in seconds a duration may have a part that is no whole unit. -/
lemma fract_reach (h : r ≠ seconds) : Int.fract (r.reach ms) = 0 := by
  rw [reach, length_eq_units h]
  rcases min_choice ((r.units ms.toNat : ℕ) : ℚ) 0x7FFFFFFFFFFFFFFF with hmin | hmin <;> rw [hmin]
  · exact Int.fract_natCast _
  · exact Int.fract_natCast 0x7FFFFFFFFFFFFFFF

end Resolution

/-! ### Cutoffs -/

namespace ForceMerge

open List

variable {s : ForceMerge} {ixs : List Index} {ix : Index} {cutoff t : Int64}

lemma latest?_eq_none (h : latest? ixs = none) : ixs = [] := by
  cases ixs with
  | nil => rfl
  | cons ix rest =>
    rw [latest?] at h
    split at h <;> cases h

/-- The latest end is the end of an index, and no index ends later. -/
lemma exists_newest (h : latest? ixs = some t) :
    ∃ newest ∈ ixs, newest.range.stop = t ∧ ∀ other ∈ ixs, other.range.stop ≤ t := by
  induction ixs generalizing t with
  | nil => cases h
  | cons ix rest ih =>
    rw [latest?] at h
    cases hrest : latest? rest with
    | none =>
      obtain rfl := latest?_eq_none hrest
      rw [hrest] at h
      cases h
      exact ⟨ix, by simp, rfl, by simp⟩
    | some u =>
      obtain ⟨newest, hnewest, hstop, hlast⟩ := ih hrest
      simp only [hrest, Option.some.injEq] at h
      split_ifs at h with hlt <;> subst h
      · refine ⟨ix, mem_cons_self, rfl,
          forall_mem_cons.mpr ⟨Int64.le_refl _, fun other hother => ?_⟩⟩
        exact Int64.le_trans (hlast other hother) (Int64.le_of_lt hlt)
      · exact ⟨newest, mem_cons_of_mem _ hnewest, hstop,
          forall_mem_cons.mpr ⟨Int64.not_lt.mp hlt, hlast⟩⟩

/-- A planned index ends before the cutoff. -/
lemma stop_lt_of_mem_plan (h : ix ∈ s.plan ixs) :
    ∃ cutoff, s.cutoff? ixs = some cutoff ∧ ix.range.stop < cutoff := by
  rw [plan] at h
  cases hcutoff : s.cutoff? ixs with
  | none =>
    rw [hcutoff] at h
    exact absurd h not_mem_nil
  | some cutoff =>
    rw [hcutoff] at h
    obtain ⟨-, heligible⟩ := mem_filter.mp (mem_of_earliest? (Option.mem_toList.mp h))
    simp only [isEligible, Bool.and_eq_true, decide_eq_true_eq] at heligible
    exact ⟨cutoff, rfl, heligible.1.1⟩

/-- What ends before a clamped cutoff ends before the exact one: a cutoff that is clamped from below
is the least timestamp, and nothing ends before that. -/
lemma toInt_lt_of_lt_cutoff {stop : Int64} {a b : Int} (hb : 0 ≤ b)
    (h : stop < clampInt64 ((clampInt64 (t.toInt - a)).toInt - b)) :
    stop.toInt < t.toInt - a - b := by
  have hlow := Int64.le_toInt stop
  rw [Int64.lt_iff_toInt_lt, toInt_clampInt64, toInt_clampInt64] at h
  omega

/-- With both durations taken as far as a timestamp reaches, an index that is planned ends before
the latest end, less the whole units of both. If both are whole numbers of units, as they are in all
units but seconds, or if what is left out of them does not come to a unit, it ends before the latest
end less both durations. -/
theorem plan_before_window (h : ix ∈ s.plan ixs) :
    ∃ newest ∈ ixs, (∀ other ∈ ixs, other.range.stop ≤ newest.range.stop)
      ∧ ix.range.stop.toInt < newest.range.stop.toInt - ⌊s.resolution.reach s.lateness⌋
        - ⌊s.resolution.reach s.block⌋
      ∧ (s.resolution ≠ .seconds ∨ Int.fract (s.resolution.reach s.lateness)
          + Int.fract (s.resolution.reach s.block) < 1 →
        (ix.range.stop.toInt : ℚ) < newest.range.stop.toInt - s.resolution.reach s.lateness
          - s.resolution.reach s.block) := by
  obtain ⟨cutoff, hcutoff, hlt⟩ := stop_lt_of_mem_plan h
  obtain ⟨t, hlatest, rfl⟩ := Option.map_eq_some_iff.mp hcutoff
  obtain ⟨newest, hnewest, rfl, hlast⟩ := exists_newest hlatest
  rw [Resolution.toInt_ofMillis, Resolution.toInt_ofMillis] at hlt
  have hwhole := toInt_lt_of_lt_cutoff (Int.floor_nonneg.mpr (Resolution.reach_nonneg _ _)) hlt
  refine ⟨newest, hnewest, hlast, hwhole, fun hparts => ?_⟩
  generalize hlateness : s.resolution.reach s.lateness = late at *
  generalize hblock : s.resolution.reach s.block = block at *
  have hsum : Int.fract late + Int.fract block < 1 := by
    rcases hparts with hunit | hsum
    · rw [← hlateness, ← hblock, Resolution.fract_reach hunit, Resolution.fract_reach hunit]
      norm_num
    · exact hsum
  have hunits : (ix.range.stop.toInt : ℚ) + 1 ≤ newest.range.stop.toInt - ⌊late⌋ - ⌊block⌋ := by
    exact_mod_cast hwhole
  calc (ix.range.stop.toInt : ℚ) ≤ newest.range.stop.toInt - ⌊late⌋ - ⌊block⌋ - 1 := by linarith
    _ < newest.range.stop.toInt - ⌊late⌋ - ⌊block⌋ - (Int.fract late + Int.fract block) := by
      linarith
    _ = newest.range.stop.toInt - (⌊late⌋ + Int.fract late) - (⌊block⌋ + Int.fract block) := by ring
    _ = newest.range.stop.toInt - late - block := by
      rw [Int.floor_add_fract, Int.floor_add_fract]

/-- All planned indexes end before the latest end, less the exact lengths of both durations. -/
def Protects (s : ForceMerge) (ixs : List Index) : Prop :=
  ∀ ix ∈ s.plan ixs, ∀ newest ∈ ixs, (∀ other ∈ ixs, other.range.stop ≤ newest.range.stop) →
    (ix.range.stop.toInt : ℚ) < newest.range.stop.toInt - s.resolution.length s.lateness
      - s.resolution.length s.block

namespace Edge

/-- An index with some segments, each with a chunk of one sample. -/
def index (range : TimeRange) (resolution : Resolution) (count : Nat) : Index :=
  let groups := (List.range count).map fun n =>
    (UInt64.ofNat (n + 1),
      [(⟨range.start, range.start, .ofChunk (.ofSamples [⟨range.start, 0⟩])⟩ : Entry)])
  Index.Contents.index
    ⟨⟨1⟩, range, resolution, .newYear, groups, UInt64.ofNat (count + 1)⟩ ⟨["x"]⟩

/-- One and a half seconds for late samples, and blocks of one and a half seconds. -/
def halves : ForceMerge := ⟨900000, 2, 1, 1500, 1500, .seconds, by decide⟩

def old : Index := index ⟨0, 97, by decide⟩ .seconds 2

def new : Index := index ⟨97, 100, by decide⟩ .seconds 1

/-- The time for late samples is longer than any two timestamps are apart. -/
def forever : ForceMerge :=
  ⟨900000, 2, 1, 0xFFFFFFFFFFFFFFFF, 0, .milliseconds, by decide⟩

def negative : Index := index ⟨-10, -5, by decide⟩ .milliseconds 2

def last : Index := index ⟨0, 0x7FFFFFFFFFFFFFFF, by decide⟩ .milliseconds 1

lemma plan_halves : halves.plan [old, new] = [old] := rfl

lemma plan_forever : forever.plan [negative, last] = [negative] := rfl

end Edge

/-- The whole units of two halves fall short of them by one, and what reaches further than a
timestamp is not waited for to the end. -/
theorem plan_before_window_edges :
    (∃ newest ∈ [Edge.old, Edge.new], Edge.old.range.stop.toInt < newest.range.stop.toInt
      - ⌊Edge.halves.resolution.reach Edge.halves.lateness⌋
      - ⌊Edge.halves.resolution.reach Edge.halves.block⌋)
    ∧ ∃ newest ∈ [Edge.negative, Edge.last],
      (Edge.negative.range.stop.toInt : ℚ) < newest.range.stop.toInt
        - Edge.forever.resolution.reach Edge.forever.lateness
        - Edge.forever.resolution.reach Edge.forever.block := by
  constructor
  · have hplanned : Edge.old ∈ Edge.halves.plan [Edge.old, Edge.new] := by simp [Edge.plan_halves]
    obtain ⟨newest, hnewest, -, hwhole, -⟩ := plan_before_window hplanned
    exact ⟨newest, hnewest, hwhole⟩
  · have hplanned : Edge.negative ∈ Edge.forever.plan [Edge.negative, Edge.last] := by
      simp [Edge.plan_forever]
    obtain ⟨newest, hnewest, -, -, hexact⟩ := plan_before_window hplanned
    exact ⟨newest, hnewest, hexact (.inl (by decide))⟩

/-- Planned indexes do not keep to the exact lengths: in seconds two half seconds that are left out
of the durations let an index through that ends one second too late, and a duration that reaches
further than a timestamp protects less than it says. -/
theorem not_protects :
    (∀ ix ∈ [Edge.old, Edge.new], ix.resolution = Edge.halves.resolution)
    ∧ ¬Protects Edge.halves [Edge.old, Edge.new]
    ∧ (∀ ix ∈ [Edge.negative, Edge.last], ix.resolution = Edge.forever.resolution)
    ∧ ¬Protects Edge.forever [Edge.negative, Edge.last] := by
  refine ⟨?_, fun h => ?_, ?_, fun h => ?_⟩
  · rintro ix hix
    rcases mem_pair.mp hix with rfl | rfl <;> rfl
  · have hlt := h Edge.old (by simp [Edge.plan_halves]) Edge.new (by simp) (by decide)
    have hold : Edge.old.range.stop.toInt = 97 := rfl
    have hnew : Edge.new.range.stop.toInt = 100 := rfl
    have hlate : Edge.halves.resolution.length Edge.halves.lateness = 1500 / 1000 := rfl
    have hblock : Edge.halves.resolution.length Edge.halves.block = 1500 / 1000 := rfl
    rw [hold, hnew, hlate, hblock] at hlt
    norm_num at hlt
  · rintro ix hix
    rcases mem_pair.mp hix with rfl | rfl <;> rfl
  · have hlt := h Edge.negative (by simp [Edge.plan_forever]) Edge.last (by simp) (by decide)
    have hold : Edge.negative.range.stop.toInt = -5 := rfl
    have hnew : Edge.last.range.stop.toInt = 0x7FFFFFFFFFFFFFFF := rfl
    have hlate : Edge.forever.resolution.length Edge.forever.lateness = 0xFFFFFFFFFFFFFFFF := rfl
    have hblock : Edge.forever.resolution.length Edge.forever.block = 0 := rfl
    rw [hold, hnew, hlate, hblock] at hlt
    norm_num at hlt

end ForceMerge

end SeriesStore
