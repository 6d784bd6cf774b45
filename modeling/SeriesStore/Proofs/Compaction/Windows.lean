import SeriesStore.Proofs.Compaction.SafePlans

/-!
# Aligned windows

The windows of one width lie side by side, each between two neighbouring multiples of the width. As
long as nothing overlaps, the scan through a sorted list finds for each window all indexes that lie
inside it, so that a group is everything that its window holds.
-/

namespace SeriesStore

open List

namespace SizeTiered

open TimeRange Index

variable {width : Int64} {k : Int} {t : Int64} {ix : Index} {ixs group : List Index}

/-- The number of the window of a width in which a timestamp lies. -/
def slot (width t : Int64) : Int := Int.fdiv t.toInt width.toInt

/-- The start of the window in which a timestamp lies is itself a timestamp. -/
def Aligns (width t : Int64) : Prop := -0x8000000000000000 ≤ slot width t * width.toInt

/-- An index lies in the window with a number. -/
def Inside (width : Int64) (k : Int) (ix : Index) : Prop :=
  k * width.toInt ≤ ix.range.start.toInt ∧ ix.range.stop.toInt ≤ (k + 1) * width.toInt

instance (width : Int64) (k : Int) : DecidablePred (Inside width k) :=
  fun _ => inferInstanceAs (Decidable (_ ∧ _))

/-! ### Numbers of windows -/

lemma slot_eq_iff (hwidth : 0 < width) :
    slot width t = k ↔ k * width.toInt ≤ t.toInt ∧ t.toInt < (k + 1) * width.toInt := by
  have hpos : 0 < width.toInt := Int64.lt_iff_toInt_lt.mp hwidth
  rw [slot, Int.fdiv_eq_ediv_of_nonneg _ hpos.le, Int.ediv_eq_iff_of_pos hpos]
  constructor
  · rintro ⟨hle, hlt⟩
    exact ⟨hle, by rw [add_mul, one_mul]; exact hlt⟩
  · rintro ⟨hle, hlt⟩
    exact ⟨hle, by rw [add_mul, one_mul] at hlt; exact hlt⟩

/-- All timestamps of an index that lies in a window are in this window. -/
lemma Inside.slot_eq (h : Inside width k ix) (hwidth : 0 < width)
    (ht : ix.range.contains t = true) : slot width t = k := by
  simp only [TimeRange.contains, Bool.and_eq_true, decide_eq_true_eq, Int64.le_iff_toInt_le,
    Int64.lt_iff_toInt_lt] at ht
  exact (slot_eq_iff hwidth).mpr ⟨h.1.trans ht.1, ht.2.trans_le h.2⟩

lemma Inside.slot_start (h : Inside width k ix) (hwidth : 0 < width) :
    slot width ix.range.start = k :=
  h.slot_eq hwidth (by simp [TimeRange.contains, ix.range.start_lt_stop])

/-- Where windows start at timestamps, an index ends in the window of its start or not, whatever
becomes of the end of the window. -/
lemma stop_le_windowEnd_iff (haligns : Aligns width t) (hwidth : 0 < width) (stop : Int64) :
    stop ≤ windowEnd width t ↔ stop.toInt ≤ (slot width t + 1) * width.toInt := by
  have hfloor := ((slot_eq_iff hwidth).mp (rfl : slot width t = slot width t)).1
  have hpos : 0 < width.toInt := Int64.lt_iff_toInt_lt.mp hwidth
  have hstop := Int64.toInt_lt stop
  have ht := Int64.toInt_lt t
  have hsum : (slot width t + 1) * width.toInt = slot width t * width.toInt + width.toInt := by
    rw [add_mul, one_mul]
  rw [Aligns] at haligns
  rw [Int64.le_iff_toInt_le, windowEnd, show Int.fdiv t.toInt width.toInt = slot width t from rfl,
    hsum]
  simp only [toInt_clampInt64]
  omega

/-- An index that starts no earlier than another one ends in the window of that one exactly if it
lies in this window. -/
lemma stop_le_windowEnd_iff_inside {other : Index} (haligns : Aligns width ix.range.start)
    (hwidth : 0 < width) (hstart : ix.range.start ≤ other.range.start) :
    other.range.stop ≤ windowEnd width ix.range.start
      ↔ Inside width (slot width ix.range.start) other := by
  have hfloor := ((slot_eq_iff hwidth).mp (rfl : slot width ix.range.start = _)).1
  rw [stop_le_windowEnd_iff haligns hwidth]
  exact ⟨fun hstop => ⟨hfloor.trans (Int64.le_iff_toInt_le.mp hstart), hstop⟩, And.right⟩

lemma Inside.unique (h : Inside width k ix) {k' : Int} (h' : Inside width k' ix)
    (hwidth : 0 < width) : k = k' :=
  (h.slot_start hwidth).symm.trans (h'.slot_start hwidth)

/-! ### Groups -/

/-- Where a condition is lost once and for all, to stop there and to leave out all that do not meet
it is the same. -/
lemma takeWhile_eq_filter {α : Type} {p : α → Bool} {xs : List α}
    (h : xs.Pairwise fun a b => p b = true → p a = true) :
    xs.takeWhile p = xs.filter p ∧ xs.dropWhile p = xs.filter fun a => !p a := by
  induction xs with
  | nil => exact ⟨rfl, rfl⟩
  | cons a xs ih =>
    obtain ⟨hlost, hxs⟩ := pairwise_cons.mp h
    obtain ⟨htake, hdrop⟩ := ih hxs
    by_cases ha : p a = true
    · simp [ha, htake, hdrop]
    · have hnone : ∀ b ∈ xs, ¬p b = true := fun b hb hmeets => ha (hlost b hb hmeets)
      have hall : xs.filter (fun b => !p b) = xs :=
        filter_eq_self.mpr fun b hb => by simpa using hnone b hb
      simp [ha, filter_eq_nil_iff.mpr hnone, hall]

/-- The scan takes as a group exactly what lies in the window of its first index. -/
theorem eq_filter_of_mem_windows (hwidth : 0 < width)
    (hbefore : ixs.Pairwise fun a b => a.range.Before b.range)
    (haligns : ∀ ix ∈ ixs, Aligns width ix.range.start) (h : group ∈ windows width ixs) :
    ∃ k, group = ixs.filter (Inside width k) := by
  fun_induction windows width ixs with
  | case1 => cases h
  | case2 ix rest stop fits hfits ih =>
    obtain ⟨hfront, hrest⟩ := pairwise_cons.mp hbefore
    -- nothing in the list starts before its first index, so only the stops count
    have hinside : ∀ other ∈ ix :: rest,
        fits other = decide (Inside width (slot width ix.range.start) other) := by
      intro other hother
      refine decide_eq_decide.mpr
        (stop_le_windowEnd_iff_inside (haligns ix mem_cons_self) hwidth ?_)
      rcases mem_cons.mp hother with rfl | hother
      · exact Int64.le_refl _
      · exact Int64.le_of_lt (hfront other hother).start_lt
    generalize slot width ix.range.start = k at hinside
    have hmono : rest.Pairwise fun a b => fits b = true → fits a = true := by
      refine hrest.imp fun {a b} hab hb => decide_eq_true ?_
      have hlt := Int64.lt_of_le_of_lt hab b.range.start_lt_stop
      exact Int64.le_trans (Int64.le_of_lt hlt) (of_decide_eq_true hb)
    obtain ⟨htake, hdrop⟩ := takeWhile_eq_filter hmono
    have hix : Inside width k ix := of_decide_eq_true ((hinside ix mem_cons_self).symm.trans hfits)
    rcases mem_cons.mp h with rfl | h
    · refine ⟨k, ?_⟩
      rw [filter_cons, if_pos (decide_eq_true hix), htake]
      exact congrArg (ix :: ·) (filter_congr fun a ha => hinside a (mem_cons_of_mem _ ha))
    · obtain ⟨-, first, more, -, hgroup, -, -⟩ := exists_of_mem_windows h
      have haligned : ∀ a ∈ rest.dropWhile fits, Aligns width a.range.start := fun a ha =>
        haligns a (mem_cons_of_mem _ ((dropWhile_sublist fits).subset ha))
      obtain ⟨m, rfl⟩ := ih (hrest.sublist (dropWhile_sublist fits)) haligned h
      -- the group lies in another window, since its first index has been passed over
      have hother : ∀ a, Inside width m a → ¬Inside width k a := by
        intro a hm hk
        obtain rfl := hm.unique hk hwidth
        obtain ⟨hfirst, hin⟩ := mem_filter.mp (hgroup ▸ mem_cons_self : first ∈ filter _ _)
        rw [hdrop, mem_filter] at hfirst
        obtain ⟨hmem, hpassed⟩ := hfirst
        rw [hinside first (mem_cons_of_mem _ hmem), hin] at hpassed
        cases hpassed
      refine ⟨m, ?_⟩
      rw [filter_cons, if_neg (fun hm => hother ix (of_decide_eq_true hm) hix), hdrop,
        filter_filter]
      refine filter_congr fun a ha => ?_
      rw [hinside a (mem_cons_of_mem _ ha)]
      by_cases hm : Inside width m a
      · simp [hm, hother a hm]
      · simp [hm]
  | case3 ix rest stop fits hfits ih =>
    obtain ⟨k, rfl⟩ := ih hbefore.of_cons (fun a ha => haligns a (mem_cons_of_mem _ ha)) h
    refine ⟨k, (filter_cons_of_neg fun hinside => hfits ?_).symm⟩
    have hk := (of_decide_eq_true hinside : Inside width k ix)
    have haligned := haligns ix mem_cons_self
    refine decide_eq_true ((stop_le_windowEnd_iff_inside haligned hwidth (Int64.le_refl _)).mpr ?_)
    rwa [hk.slot_start hwidth]

lemma windows_eq_nil (h : ixs = []) : windows width ixs = [] := by
  fun_cases windows width ixs with
  | case1 => rfl
  | case2 | case3 => cases h

/-- Indexes that end in the window of the first one are one group. -/
lemma windows_eq_singleton {rest : List Index} (hixs : ixs = ix :: rest)
    (h : ∀ a ∈ ixs, a.range.stop ≤ windowEnd width ix.range.start) : windows width ixs = [ixs] := by
  fun_cases windows width ixs with
  | case1 => cases hixs
  | case2 _ _ stop fits hfits =>
    cases hixs
    have hall : ∀ a ∈ rest, fits a = true := fun a ha => decide_eq_true (h a (mem_cons_of_mem _ ha))
    rw [takeWhile_eq_self_iff.mpr hall, windows_eq_nil (dropWhile_eq_nil_iff.mpr hall)]
  | case3 _ _ stop fits hfits =>
    cases hixs
    exact absurd (decide_eq_true (h ix mem_cons_self)) hfits

/-! ### Selected widths -/

/-- The first width of a tier that has a group. As long as indexes overlap, no width is looked
for. -/
def width? (s : SizeTiered) (ixs : List Index) : Option Int64 :=
  if (overlaps (sorted ixs)).isEmpty then
    ((s.tiers.drop 1).map s.resolution.ofHours).find? fun width =>
      (groupOfWidth? width (sorted ixs).dropLast).isSome
  else none

/-- Another index starts later. -/
def Followed (ixs : List Index) (ix : Index) : Prop :=
  ∃ other ∈ ixs, ix.range.start < other.range.start

variable {s : SizeTiered}

lemma free_of_apart (hapart : ixs.Pairwise Apart) : overlaps (sorted ixs) = []
    ∧ (sorted ixs).Pairwise fun a b => a.range.Before b.range := by
  rcases overlaps_cases (pairwise_sorted ixs) with hfree | ⟨pre, post, hgroup⟩
  · exact hfree
  · have hsorted : (sorted ixs).Pairwise Apart :=
      ((sorted_perm ixs).pairwise_iff Apart.symm).mpr hapart
    exact absurd hsorted hgroup.isGroup.not_pairwise_apart

/-- Of indexes that do not overlap, all but the last one are followed. -/
lemma mem_dropLast_sorted_iff (hapart : ixs.Pairwise Apart) :
    ix ∈ (sorted ixs).dropLast ↔ ix ∈ ixs ∧ Followed ixs ix := by
  obtain ⟨-, hbefore⟩ := free_of_apart hapart
  have hmem : ∀ a, a ∈ sorted ixs ↔ a ∈ ixs := fun a => (sorted_perm ixs).mem_iff
  rcases eq_nil_or_concat (sorted ixs) with hnil | ⟨front, last, hsplit⟩
  · have hnone : ix ∉ ixs := fun hix => by simpa [hnil] using (hmem ix).mpr hix
    simp [hnil, hnone]
  rw [concat_eq_append] at hsplit
  rw [hsplit] at hbefore
  simp only [hsplit, mem_append, mem_singleton] at hmem
  obtain ⟨-, -, hlast⟩ := pairwise_append.mp hbefore
  rw [hsplit, dropLast_concat]
  constructor
  · intro hix
    exact ⟨(hmem ix).mp (.inl hix), last, (hmem last).mp (.inr rfl),
      (hlast ix hix last mem_cons_self).start_lt⟩
  · rintro ⟨hix, other, hother, hlt⟩
    rcases (hmem ix).mpr hix with hix | rfl
    · exact hix
    · rcases (hmem other).mpr hother with hother | rfl
      · exact absurd hlt (Int64.lt_asymm (hlast other hother _ mem_cons_self).start_lt)
      · exact absurd hlt Int64.lt_irrefl

/-- Where no indexes overlap, a plan is the group of the first width that has one. -/
lemma exists_width?_of_plan (hapart : ixs.Pairwise Apart) (hne : s.plan ixs ≠ []) :
    ∃ tier ∈ s.tiers.drop 1, s.width? ixs = some (s.resolution.ofHours tier)
      ∧ groupOfWidth? (s.resolution.ofHours tier) (sorted ixs).dropLast = some (s.plan ixs) := by
  obtain ⟨hfree, -⟩ := free_of_apart hapart
  have hgrouped : s.plan ixs = s.grouped (sorted ixs).dropLast := by
    rw [plan] at hne ⊢
    split_ifs at hne ⊢ with hnone
    · exact absurd rfl hne
    · simp only [hfree]
  rw [hgrouped] at hne ⊢
  rw [width?, hfree, if_pos isEmpty_nil]
  cases hfind : (s.tiers.drop 1).findSome? fun tier =>
      groupOfWidth? (s.resolution.ofHours tier) (sorted ixs).dropLast with
  | none =>
    rw [grouped, hfind] at hne
    exact absurd rfl hne
  | some group =>
    obtain ⟨passed, tier, more, htiers, hgroup, hpassed⟩ := findSome?_eq_some_iff.mp hfind
    refine ⟨tier, by simp [htiers], ?_, by rw [grouped, hfind, hgroup, Option.getD_some]⟩
    rw [htiers, find?_eq_some_iff_append]
    refine ⟨by rw [hgroup]; rfl, passed.map s.resolution.ofHours,
      more.map s.resolution.ofHours, by simp, ?_⟩
    simpa using hpassed

/-- What is planned for a width, where no indexes overlap. -/
structure Selected (s : SizeTiered) (ixs : List Index) (width : Int64) : Prop where
  tier : ∃ tier ∈ s.tiers.drop 1, s.resolution.ofHours tier = width
  pos : 0 < width
  several : 2 ≤ (s.plan ixs).length
  safe : ∃ left, SafePlan s ixs (s.plan ixs) left
  followed : ∀ ix ∈ s.plan ixs, ix ∈ ixs ∧ Followed ixs ix
  /-- A window is taken as a whole, but for the newest index. -/
  window : (∀ ix ∈ ixs, Followed ixs ix → Aligns width ix.range.start) →
    ∃ k, ∀ ix ∈ ixs, Followed ixs ix → (ix ∈ s.plan ixs ↔ Inside width k ix)

/-- Where no indexes overlap, what is planned is planned for a width. -/
theorem exists_selected (hapart : ixs.Pairwise Apart) (hne : s.plan ixs ≠ []) :
    ∃ width, s.width? ixs = some width ∧ Selected s ixs width := by
  obtain ⟨-, hbefore⟩ := free_of_apart hapart
  obtain ⟨tier, htier, hwidth, hgroup⟩ := exists_width?_of_plan hapart hne
  obtain ⟨hpos, hmem, hseveral⟩ := groupOfWidth?_eq_some hgroup
  have hsub : ∀ ix ∈ s.plan ixs, ix ∈ (sorted ixs).dropLast := by
    obtain ⟨pre, -, -, post, -, hsplit, -⟩ := exists_of_mem_windows hmem
    intro ix hix
    rw [hsplit]
    exact mem_append_right _ (mem_append_left _ hix)
  refine ⟨_, hwidth, ⟨tier, htier, rfl⟩, hpos, hseveral, safePlan_window htier hbefore hgroup,
    fun ix hix => (mem_dropLast_sorted_iff hapart).mp (hsub ix hix), fun haligns => ?_⟩
  have haligned : ∀ ix ∈ (sorted ixs).dropLast,
      Aligns (s.resolution.ofHours tier) ix.range.start := by
    intro ix hix
    obtain ⟨hmem, hfollowed⟩ := (mem_dropLast_sorted_iff hapart).mp hix
    exact haligns ix hmem hfollowed
  obtain ⟨k, hfilter⟩ := eq_filter_of_mem_windows hpos (hbefore.sublist (dropLast_sublist _))
    haligned hmem
  refine ⟨k, fun ix hix hfollowed => ?_⟩
  rw [hfilter, mem_filter, decide_eq_true_eq]
  exact and_iff_right ((mem_dropLast_sorted_iff hapart).mpr ⟨hix, hfollowed⟩)

end SizeTiered

end SeriesStore
