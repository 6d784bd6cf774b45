import Mathlib
import SeriesStore.Compaction.Strategy

/-!
# What is planned

Whatever a strategy plans to merge is taken from the indexes that it is given, and none of them is
taken twice.
-/

namespace SeriesStore

open List

/-! ### Size tiers -/

namespace SizeTiered

lemma chain_sublist (reach : Int64) (ixs : List Index) : chain reach ixs <+ ixs := by
  induction ixs generalizing reach with
  | nil => exact .slnil
  | cons ix rest ih =>
    rw [chain]
    split_ifs
    · exact (ih _).cons_cons ix
    · exact nil_sublist _

lemma overlapsFrom_sublist (reach : Int64) (previous : Index) (ixs : List Index) :
    overlapsFrom reach previous ixs <+ previous :: ixs := by
  induction ixs generalizing reach previous with
  | nil => exact nil_sublist _
  | cons ix rest ih =>
    simp only [overlapsFrom]
    split_ifs
    · exact ((chain_sublist _ rest).cons_cons ix).cons_cons previous
    · exact (ih _ ix).cons previous

lemma overlaps_sublist (ixs : List Index) : overlaps ixs <+ ixs := by
  cases ixs with
  | nil => exact .slnil
  | cons ix rest => exact overlapsFrom_sublist _ ix rest

/-- A group stands together in the list, and ends in the window of its first index. -/
lemma exists_of_mem_windows {width : Int64} {ixs group : List Index}
    (h : group ∈ windows width ixs) : ∃ pre first rest post, group = first :: rest
      ∧ ixs = pre ++ (group ++ post)
      ∧ ∀ ix ∈ group, ix.range.stop ≤ windowEnd width first.range.start := by
  fun_induction windows width ixs with
  | case1 => cases h
  | case2 ix rest stop fits hfits ih =>
    rcases mem_cons.mp h with rfl | h
    · refine ⟨[], ix, rest.takeWhile fits, rest.dropWhile fits, rfl, ?_, fun other hother => ?_⟩
      · exact congrArg (ix :: ·) takeWhile_append_dropWhile.symm
      · rcases mem_cons.mp hother with rfl | hother
        · exact of_decide_eq_true hfits
        · have hfit : fits other = true := mem_takeWhile_imp hother
          exact of_decide_eq_true hfit
    · obtain ⟨pre, first, rest', post, hgroup, hsplit, hstop⟩ := ih h
      refine ⟨ix :: (rest.takeWhile fits ++ pre), first, rest', post, hgroup, ?_, hstop⟩
      rw [cons_append, append_assoc, ← hsplit, takeWhile_append_dropWhile]
  | case3 ix rest stop fits hfits ih =>
    obtain ⟨pre, first, rest', post, hgroup, hsplit, hstop⟩ := ih h
    exact ⟨ix :: pre, first, rest', post, hgroup, by rw [cons_append, ← hsplit], hstop⟩

lemma groupOfWidth?_eq_some {width : Int64} {ixs group : List Index}
    (h : groupOfWidth? width ixs = some group) :
    0 < width ∧ group ∈ windows width ixs ∧ 1 < group.length := by
  rw [groupOfWidth?] at h
  split at h
  · cases h
  · split_ifs at h with hwidth
    have hqualifies := find?_some h
    refine ⟨Int64.not_le.mp hwidth, mem_of_find?_eq_some h, ?_⟩
    rw [qualifies] at hqualifies
    split at hqualifies
    · simp only [Bool.and_eq_true, decide_eq_true_eq] at hqualifies
      exact hqualifies.1
    · cases hqualifies

lemma grouped_cases (s : SizeTiered) (ixs : List Index) : s.grouped ixs = []
    ∨ ∃ tier ∈ s.tiers.drop 1,
      groupOfWidth? (s.resolution.ofHours tier) ixs = some (s.grouped ixs) := by
  rw [grouped]
  cases hfind : (s.tiers.drop 1).findSome? fun tier =>
      groupOfWidth? (s.resolution.ofHours tier) ixs with
  | none => exact .inl rfl
  | some group => exact .inr (exists_of_findSome?_eq_some hfind)

lemma grouped_sublist (s : SizeTiered) (ixs : List Index) : s.grouped ixs <+ ixs := by
  rcases s.grouped_cases ixs with hnone | ⟨tier, -, hgroup⟩
  · rw [hnone]
    exact nil_sublist _
  · obtain ⟨-, hmem, -⟩ := groupOfWidth?_eq_some hgroup
    obtain ⟨pre, -, -, post, -, hsplit, -⟩ := exists_of_mem_windows hmem
    calc s.grouped ixs <+ s.grouped ixs ++ post := sublist_append_left _ _
      _ <+ pre ++ (s.grouped ixs ++ post) := sublist_append_right _ _
      _ = ixs := hsplit.symm

lemma plan_subperm (s : SizeTiered) (ixs : List Index) : s.plan ixs <+~ ixs := by
  have hsorted : Index.sorted ixs ~ ixs := mergeSort_perm ixs _
  rw [plan]
  split_ifs
  · exact nil_subperm
  · simp only
    split
    · exact (((grouped_sublist s _).trans (dropLast_sublist _)).subperm).trans hsorted.subperm
    · exact (overlaps_sublist _).subperm.trans hsorted.subperm

end SizeTiered

/-! ### Merging in place -/

namespace ForceMerge

lemma mem_of_earliest? {ixs : List Index} {ix : Index} (h : earliest? ixs = some ix) :
    ix ∈ ixs := by
  induction ixs with
  | nil => cases h
  | cons ix' rest ih =>
    rw [earliest?] at h
    split at h
    · cases h
      exact mem_cons_self
    · next hother =>
      split_ifs at h <;> cases h
      · exact mem_cons_self
      · exact mem_cons_of_mem _ (ih hother)

/-- At most one index is planned, and one with more segments than are to be left. -/
lemma plan_eq (s : ForceMerge) (ixs : List Index) :
    s.plan ixs = [] ∨ ∃ ix ∈ ixs, s.plan ixs = [ix] ∧ s.target.toNat < ix.segments.length := by
  rw [plan]
  split
  · exact .inl rfl
  · next cutoff _ =>
    cases hfirst : earliest? (ixs.filter (s.isEligible cutoff)) with
    | none => exact .inl rfl
    | some ix =>
      obtain ⟨hmem, heligible⟩ := mem_filter.mp (mem_of_earliest? hfirst)
      refine .inr ⟨ix, hmem, rfl, ?_⟩
      simp only [isEligible, Bool.and_eq_true, decide_eq_true_eq] at heligible
      exact heligible.2

end ForceMerge

theorem Strategy.plan_subperm (s : Strategy) (ixs : List Index) : s.plan ixs <+~ ixs := by
  cases s with
  | sizeTiered s => exact s.plan_subperm ixs
  | forceMerge s =>
    rw [plan]
    rcases s.plan_eq ixs with hplan | ⟨ix, hmem, hplan, -⟩ <;> rw [hplan]
    · exact nil_subperm
    · exact (singleton_sublist.mpr hmem).subperm
  | noop => exact nil_subperm

/-! ### Common ranges -/

namespace TimeRange

lemma covers_iff {r s : TimeRange} : r.covers s = true ↔ r.start ≤ s.start ∧ s.stop ≤ r.stop := by
  simp [covers]

lemma covers_trans {r s t : TimeRange} (h : r.covers s = true) (h' : s.covers t = true) :
    r.covers t = true := by
  rw [covers_iff] at h h' ⊢
  exact ⟨Int64.le_trans h.1 h'.1, Int64.le_trans h'.2 h.2⟩

lemma contains_of_covers {r s : TimeRange} (h : r.covers s = true) {t : Int64}
    (ht : s.contains t = true) : r.contains t = true := by
  simp only [contains, Bool.and_eq_true, decide_eq_true_eq] at ht ⊢
  rw [covers_iff] at h
  exact ⟨Int64.le_trans h.1 ht.1, Int64.lt_of_lt_of_le ht.2 h.2⟩

/-- A range reaches exactly as far as some ranges together. -/
structure Spans (r : TimeRange) (rs : List TimeRange) : Prop where
  covers : ∀ s ∈ rs, r.covers s = true
  start : ∃ s ∈ rs, s.start = r.start
  stop : ∃ s ∈ rs, s.stop = r.stop

lemma spans_hull (r s : TimeRange) : (r.hull s).Spans [r, s] where
  covers t ht := by
    simp only [mem_cons, not_mem_nil, or_false] at ht
    rw [covers_iff]
    simp only [hull]
    rcases ht with rfl | rfl <;> split_ifs with h h' <;>
      simp only [Int64.le_iff_toInt_le] at * <;> omega
  start := by
    by_cases h : r.start ≤ s.start <;> simp [hull, h]
  stop := by
    by_cases h : r.stop ≤ s.stop <;> simp [hull, h]

lemma Spans.append {r s : TimeRange} {rs ss : List TimeRange} (h : r.Spans (s :: rs))
    (h' : s.Spans ss) : r.Spans (ss ++ rs) where
  covers t ht := by
    rcases mem_append.mp ht with ht | ht
    · exact covers_trans (h.covers s mem_cons_self) (h'.covers t ht)
    · exact h.covers t (mem_cons_of_mem _ ht)
  start := by
    obtain ⟨t, ht, hstart⟩ := h.start
    rcases mem_cons.mp ht with rfl | ht
    · obtain ⟨u, hu, hstart'⟩ := h'.start
      exact ⟨u, mem_append_left _ hu, hstart'.trans hstart⟩
    · exact ⟨t, mem_append_right _ ht, hstart⟩
  stop := by
    obtain ⟨t, ht, hstop⟩ := h.stop
    rcases mem_cons.mp ht with rfl | ht
    · obtain ⟨u, hu, hstop'⟩ := h'.stop
      exact ⟨u, mem_append_left _ hu, hstop'.trans hstop⟩
    · exact ⟨t, mem_append_right _ ht, hstop⟩

lemma spans_foldl_hull (r : TimeRange) (rs : List TimeRange) :
    (rs.foldl hull r).Spans (r :: rs) := by
  induction rs generalizing r with
  | nil => exact ⟨by simp [covers_iff], by simp, by simp⟩
  | cons s rs ih => exact (ih (r.hull s)).append (spans_hull r s)

lemma spans_of_hull? {rs : List TimeRange} {r : TimeRange} (h : hull? rs = some r) :
    r.Spans rs := by
  cases rs with
  | nil => cases h
  | cons s rs =>
    cases h
    exact spans_foldl_hull s rs

end TimeRange

end SeriesStore
