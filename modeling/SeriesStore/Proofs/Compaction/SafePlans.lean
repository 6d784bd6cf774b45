import SeriesStore.Proofs.Compaction.Groups

/-!
# Plans that are safe to merge

What size tiers plan to merge stands together in the sorted list: no other index reaches into the
range that all planned ones cover. If indexes overlap, their first group is planned. If none do,
some neighbours in one window are planned, and the newest index never is.
-/

namespace SeriesStore

open List

/-! ### Windows -/

namespace SizeTiered

lemma toInt_windowEnd_le {width : Int64} (hwidth : 0 < width) (t : Int64) :
    (windowEnd width t).toInt ≤ t.toInt + width.toInt := by
  have hpos : 0 < width.toInt := Int64.lt_iff_toInt_lt.mp hwidth
  have hfloor : Int.fdiv t.toInt width.toInt * width.toInt ≤ t.toInt := by
    rw [Int.fdiv_eq_ediv_of_nonneg _ hpos.le]
    exact Int.ediv_mul_le _ hpos.ne'
  have hlow := Int64.le_toInt t
  simp only [windowEnd, toInt_clampInt64]
  omega

end SizeTiered

namespace Index

open TimeRange

/-! ### Ranges of several indexes -/

/-- What lies before or behind all of some indexes does not overlap their common range. -/
lemma hull?_not_overlaps {group : List Index} {range : TimeRange} {ix : Index}
    (hhull : hull? group = some range)
    (h : (∀ a ∈ group, ix.range.Before a.range) ∨ ∀ a ∈ group, a.range.Before ix.range) :
    range.overlaps ix.range = false := by
  have hspans := spans_of_hull? hhull
  obtain ⟨r, hr, hstart⟩ := hspans.start
  obtain ⟨first, hfirst, rfl⟩ := mem_map.mp hr
  obtain ⟨s, hs, hstop⟩ := hspans.stop
  obtain ⟨last, hlast, rfl⟩ := mem_map.mp hs
  rcases h with h | h
  · have hbefore : ix.range.Before range := by
      rw [Before, ← hstart]
      exact h first hfirst
    exact hbefore.not_overlaps'
  · have hbefore : range.Before ix.range := by
      rw [Before, ← hstop]
      exact h last hlast
    exact hbefore.not_overlaps

/-- The common range starts with the first index, and ends no later than all of them. -/
lemma hull?_width_le {first : Index} {rest : List Index} {range : TimeRange} {stop : Int64}
    {width : Int} (hhull : hull? (first :: rest) = some range)
    (hsorted : (first :: rest).Pairwise Listed)
    (hstop : ∀ ix ∈ first :: rest, ix.range.stop ≤ stop)
    (hwidth : stop.toInt ≤ first.range.start.toInt + width) :
    range.stop.toInt - range.start.toInt ≤ width := by
  have hspans := spans_of_hull? hhull
  obtain ⟨r, hr, hstart⟩ := hspans.start
  obtain ⟨early, hearly, rfl⟩ := mem_map.mp hr
  obtain ⟨s, hs, hend⟩ := hspans.stop
  obtain ⟨late, hlate, rfl⟩ := mem_map.mp hs
  have hfirst : first.range.start ≤ early.range.start := by
    rcases mem_cons.mp hearly with rfl | hearly
    · exact Int64.le_refl _
    · exact start_le_of_listedBefore (rel_of_pairwise_cons hsorted hearly)
  have hlast := hstop late hlate
  rw [← hstart, ← hend]
  rw [Int64.le_iff_toInt_le] at hfirst hlast
  omega

end Index

/-! ### Plans -/

namespace SizeTiered

open TimeRange Index

/-- What makes a plan safe, where `left` are the indexes that are not planned. -/
structure SafePlan (s : SizeTiered) (ixs planned left : List Index) : Prop where
  perm : planned ++ left ~ ixs
  several : planned = [] ∨ 2 ≤ planned.length
  listed : planned.Pairwise Listed
  apart : ∀ range, hull? planned = some range → ∀ ix ∈ left, range.overlaps ix.range = false
  /-- Where indexes overlap, the first group is planned. -/
  overlapping : s.tiers ≠ [] → ¬ ixs.Pairwise Apart → IsGroup ixs planned left
    ∧ ∀ group rest, IsGroup ixs group rest →
      group ~ planned ∨ ∀ a ∈ planned, ∀ b ∈ group, a.range.stop ≤ b.range.start
  newest : ixs.Pairwise Apart →
    ∀ ix ∈ ixs, (∀ other ∈ ixs, other.range.start ≤ ix.range.start) → ix ∉ planned
  width : ixs.Pairwise Apart → ∀ range, hull? planned = some range →
    ∃ tier ∈ s.tiers.drop 1,
      range.stop.toInt - range.start.toInt ≤ (s.resolution.ofHours tier).toInt

variable {s : SizeTiered} {ixs pre run post : List Index}

lemma safePlan_nil (h : s.tiers = [] ∨ ixs.Pairwise Apart) : SafePlan s ixs [] ixs where
  perm := .refl _
  several := .inl rfl
  listed := .nil
  apart := by rintro _ ⟨⟩
  overlapping htiers hmeet := absurd h (not_or.mpr ⟨htiers, hmeet⟩)
  newest _ _ _ _ := not_mem_nil
  width := by rintro _ _ ⟨⟩

lemma apart_of_cut (hbefore : ∀ a ∈ pre, ∀ b ∈ run, a.range.Before b.range)
    (hbehind : ∀ a ∈ run, ∀ b ∈ post, a.range.Before b.range) (range : TimeRange)
    (hhull : hull? run = some range) : ∀ ix ∈ pre ++ post, range.overlaps ix.range = false := by
  intro ix hix
  rcases mem_append.mp hix with hix | hix
  · exact hull?_not_overlaps hhull (.inl (hbefore ix hix))
  · exact hull?_not_overlaps hhull (.inr fun a ha => hbehind a ha ix hix)

/-- The first group is a safe plan. -/
lemma safePlan_firstGroup (h : FirstGroup (sorted ixs) pre run post) :
    SafePlan s ixs run (pre ++ post) := by
  have hperm := sorted_perm ixs
  have hgroup : IsGroup ixs run (pre ++ post) := h.isGroup.of_perm hperm
  have hmeet := hgroup.not_pairwise_apart
  have hlisted := pairwise_sorted ixs
  rw [h.eq] at hlisted
  obtain ⟨-, hbehind, -⟩ := pairwise_append.mp hlisted
  constructor
  case perm => exact hgroup.perm
  case several => exact .inr h.several
  case listed => exact (pairwise_append.mp hbehind).1
  case apart =>
    refine apart_of_cut ?_ h.behind
    intro a ha b hb
    exact h.before a ha b (mem_append_left _ hb)
  case overlapping =>
    intro _ _
    refine ⟨hgroup, ?_⟩
    intro group rest hother
    exact h.perm_or_before (hother.of_perm hperm.symm)
  case newest => exact fun hapart => absurd hapart hmeet
  case width => exact fun hapart => absurd hapart hmeet

/-- A group in one window is a safe plan if nothing overlaps. The newest index is behind it. -/
lemma safePlan_window {tier : UInt64} (htier : tier ∈ s.tiers.drop 1)
    (hbefore : (sorted ixs).Pairwise fun a b => a.range.Before b.range)
    (h : groupOfWidth? (s.resolution.ofHours tier) (sorted ixs).dropLast = some run) :
    ∃ left, SafePlan s ixs run left := by
  have hperm := sorted_perm ixs
  have hapart : ixs.Pairwise Apart :=
    (hperm.pairwise_iff Apart.symm).mp (hbefore.imp Before.not_overlaps)
  have hlisted := pairwise_sorted ixs
  obtain ⟨hwidth, hmem, hseveral⟩ := groupOfWidth?_eq_some h
  obtain ⟨pre, first, rest, post, rfl, hcut, hstop⟩ := exists_of_mem_windows hmem
  -- the run stands in front of the newest index, which is never planned
  obtain ⟨newest, hsplit⟩ : ∃ newest,
      sorted ixs = pre ++ (first :: rest ++ (post ++ [newest])) := by
    have hne : sorted ixs ≠ [] := by
      rintro hnil
      simp [hnil] at hcut
    refine ⟨(sorted ixs).getLast hne, ?_⟩
    rw [← append_assoc (first :: rest), ← append_assoc pre, ← hcut, dropLast_append_getLast]
  rw [hsplit] at hbefore hlisted hperm
  obtain ⟨-, hbehind, hfront⟩ := pairwise_append.mp hbefore
  obtain ⟨-, -, hlater⟩ := pairwise_append.mp hbehind
  have hgroup := (pairwise_append.mp (pairwise_append.mp hlisted).2.1).1
  have hin : newest ∈ ixs := hperm.mem_iff.mp (by simp)
  refine ⟨pre ++ (post ++ [newest]), ?_⟩
  constructor
  case perm => exact (perm_append_comm_assoc (first :: rest) pre _).trans hperm
  case several => exact .inr hseveral
  case listed => exact hgroup
  case apart =>
    refine apart_of_cut ?_ hlater
    intro a ha b hb
    exact hfront a ha b (mem_append_left _ hb)
  case overlapping => exact fun _ hmeet => absurd hapart hmeet
  case newest =>
    intro _ ix _ hlatest hplanned
    have hearlier : ix.range.Before newest.range := hlater ix hplanned newest (by simp)
    exact Int64.not_lt.mpr (hlatest newest hin) hearlier.start_lt
  case width =>
    intro _ range hhull
    refine ⟨tier, htier, ?_⟩
    exact hull?_width_le hhull hgroup hstop (toInt_windowEnd_le hwidth _)

/-- A plan is empty, or has at least two of the given indexes, in the order of their ranges, and no
other index overlaps the range that they cover. If there are tiers, and some indexes overlap, the
plan is the first group. If none overlap, the newest index is not planned, and the plan is no wider
than one of the tiers behind the first. -/
theorem plan_safe (s : SizeTiered) (ixs : List Index) :
    ∃ left, SafePlan s ixs (s.plan ixs) left := by
  rw [plan]
  split_ifs with hnone
  · refine ⟨ixs, safePlan_nil ?_⟩
    rcases (Bool.or_eq_true _ _).mp hnone with htiers | hfew
    · exact .inl (isEmpty_iff.mp htiers)
    · have hlength := of_decide_eq_true hfew
      exact .inr (pairwise_iff_getElem.mpr fun i j hi hj hij => by omega)
  rcases overlaps_cases (pairwise_sorted ixs) with ⟨hfree, hbefore⟩ | ⟨pre, post, hgroup⟩
  · simp only [hfree]
    rcases s.grouped_cases (sorted ixs).dropLast with hempty | ⟨tier, htier, hwindow⟩
    · rw [hempty]
      exact ⟨ixs, safePlan_nil (.inr
        (((sorted_perm ixs).pairwise_iff Apart.symm).mp (hbefore.imp Before.not_overlaps)))⟩
    · exact safePlan_window htier hbefore hwindow
  · refine ⟨pre ++ post, ?_⟩
    cases hrun : overlaps (sorted ixs) with
    | nil => exact absurd (hrun ▸ hgroup.several) (by decide)
    | cons ix rest =>
      simp only [hrun]
      exact safePlan_firstGroup (hrun ▸ hgroup)

end SizeTiered

end SeriesStore
