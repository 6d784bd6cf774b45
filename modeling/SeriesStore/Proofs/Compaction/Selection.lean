import SeriesStore.Proofs.Compaction.Windows
import SeriesStore.Proofs.Text.Instant

/-!
# Selection by windows

Where no indexes overlap, what is planned can be said without a scan. All indexes but the newest are
distributed over the windows of a width. A window is worth merging if it holds several of them, and
they either fill it or lie before the last one starts. The lowest window of the first width that has
one is planned, with all that it holds.
-/

namespace SeriesStore

open List

namespace SizeTiered

open TimeRange Index

variable {width : Int64} {widths : List Int64} {k m : Int} {a b ix newest : Index}
  {ixs older group : List Index} {s : SizeTiered}

/-! ### Declarative selection -/

instance (ixs : List Index) : DecidablePred (Followed ixs) :=
  fun ix => inferInstanceAs (Decidable (∃ other ∈ ixs, ix.range.start < other.range.start))

/-- The indexes that another one follows, in the order of their starts. -/
def olderOf (ixs : List Index) : List Index := (sorted ixs).filter (Followed ixs)

/-- The indexes that lie in a window. -/
def inWindow (width : Int64) (k : Int) (ixs : List Index) : List Index :=
  ixs.filter (Inside width k)

lemma mem_inWindow : ix ∈ inWindow width k ixs ↔ ix ∈ ixs ∧ Inside width k ix := by
  rw [inWindow, mem_filter, decide_eq_true_eq]

/-- What a window holds is worth merging: there are several indexes, and they fill the window, or
all of them have ended when the last index starts. -/
structure Mergeable (older : List Index) (width : Int64) (k : Int) : Prop where
  several : 2 ≤ (inWindow width k older).length
  settled : ∃ range, hull? (inWindow width k older) = some range
    ∧ (range.stop.toInt - range.start.toInt = width.toInt
      ∨ ∃ last ∈ older.getLast?, range.stop ≤ last.range.start)

/-- What is selected from older indexes when some widths are tried one after the other: the lowest
window of the first width that has one. -/
inductive Selects (older : List Index) : List Int64 → List Index → Prop
  | none : Selects older [] []
  | found {width : Int64} {widths : List Int64} {k : Int} (pos : 0 < width)
    (least : IsLeast {k | Mergeable older width k} k) :
    Selects older (width :: widths) (inWindow width k older)
  | passed {width : Int64} {widths : List Int64} {group : List Index}
    (never : 0 < width → ∀ k, ¬Mergeable older width k) (rest : Selects older widths group) :
    Selects older (width :: widths) group

lemma Mergeable.exists_mem (h : Mergeable older width k) : ∃ ix, ix ∈ inWindow width k older :=
  exists_mem_of_length_pos (Nat.lt_of_lt_of_le Nat.two_pos h.several)

/-- One selection at most. -/
lemma Selects.unique {group' : List Index} (h : Selects older widths group)
    (h' : Selects older widths group') : group = group' := by
  induction h with
  | none =>
    cases h'
    rfl
  | found hpos hleast =>
    cases h' with
    | found _ hleast' => rw [hleast.unique hleast']
    | passed hnever _ => exact absurd hleast.1 (hnever hpos _)
  | passed hnever _ ih =>
    cases h' with
    | found hpos hleast' => exact absurd hleast'.1 (hnever hpos _)
    | passed _ hrest => exact ih hrest

/-! ### Windows in ascending order -/

/-- Windows with indexes one of which lies before the other are in the same order. -/
lemma Inside.le_of_before (h : Inside width k a) (h' : Inside width m b) (hwidth : 0 < width)
    (hbefore : a.range.Before b.range) : k ≤ m := by
  have hpos : 0 < width.toInt := Int64.lt_iff_toInt_lt.mp hwidth
  have hstart := Int64.lt_iff_toInt_lt.mp hbefore.start_lt
  have hstop := Int64.lt_iff_toInt_lt.mp b.range.start_lt_stop
  have hlt : k * width.toInt < (m + 1) * width.toInt := by
    calc k * width.toInt ≤ a.range.start.toInt := h.1
      _ < b.range.start.toInt := hstart
      _ < b.range.stop.toInt := hstop
      _ ≤ (m + 1) * width.toInt := h'.2
  exact Int.lt_add_one_iff.mp (lt_of_mul_lt_mul_right hlt hpos.le)

/-- The scan drops indexes, and changes nothing else. -/
lemma flatten_windows_sublist (width : Int64) (ixs : List Index) :
    (windows width ixs).flatten <+ ixs := by
  fun_induction windows width ixs with
  | case1 => exact .slnil
  | case2 ix rest stop fits hfits ih =>
    rw [flatten_cons, cons_append]
    refine Sublist.cons_cons ix ?_
    calc rest.takeWhile fits ++ (windows width (rest.dropWhile fits)).flatten
        <+ rest.takeWhile fits ++ rest.dropWhile fits := ih.append_left _
      _ = rest := takeWhile_append_dropWhile
  | case3 ix rest stop fits hfits ih => exact ih.cons ix

/-- The scan drops no index that ends in the window of its start. -/
lemma mem_flatten_windows (hix : ix ∈ ixs)
    (hstop : ix.range.stop ≤ windowEnd width ix.range.start) :
    ix ∈ (windows width ixs).flatten := by
  fun_induction windows width ixs with
  | case1 => cases hix
  | case2 first rest stop fits hfits ih =>
    rw [flatten_cons, cons_append]
    rcases mem_cons.mp hix with rfl | hix
    · exact mem_cons_self
    · rw [← takeWhile_append_dropWhile (p := fits) (l := rest)] at hix
      rcases mem_append.mp hix with htaken | hleft
      · exact mem_cons_of_mem _ (mem_append_left _ htaken)
      · exact mem_cons_of_mem _ (mem_append_right _ (ih hleft))
  | case3 first rest stop fits hfits ih =>
    rcases mem_cons.mp hix with rfl | hix
    · exact absurd (decide_eq_true hstop) hfits
    · exact ih hix

lemma pairwise_windows (hbefore : ixs.Pairwise fun a b => a.range.Before b.range) :
    (windows width ixs).Pairwise fun g h => ∀ a ∈ g, ∀ b ∈ h, a.range.Before b.range :=
  (pairwise_flatten.mp (hbefore.sublist (flatten_windows_sublist width ixs))).2

/-- The scan finds every window that holds an index. -/
lemma inWindow_mem_windows (hwidth : 0 < width)
    (hbefore : ixs.Pairwise fun a b => a.range.Before b.range)
    (haligns : ∀ ix ∈ ixs, Aligns width ix.range.start) (hne : inWindow width k ixs ≠ []) :
    inWindow width k ixs ∈ windows width ixs := by
  obtain ⟨ix, hheld⟩ := exists_mem_of_ne_nil _ hne
  obtain ⟨hix, hinside⟩ := mem_inWindow.mp hheld
  have hstop : ix.range.stop ≤ windowEnd width ix.range.start := by
    refine (stop_le_windowEnd_iff_inside (haligns ix hix) hwidth (Int64.le_refl _)).mpr ?_
    rwa [hinside.slot_start hwidth]
  obtain ⟨group, hgroup, hmem⟩ := mem_flatten.mp (mem_flatten_windows hix hstop)
  obtain ⟨m, rfl⟩ := eq_filter_of_mem_windows hwidth hbefore haligns hgroup
  obtain rfl := hinside.unique (mem_inWindow.mp hmem).2 hwidth
  exact hgroup

/-! ### Groups worth merging -/

/-- Of indexes that lie one before the other, the first one starts first. -/
lemma start_le_of_before {first : Index} {rest : List Index}
    (hbefore : (first :: rest).Pairwise fun a b => a.range.Before b.range)
    (hix : ix ∈ first :: rest) : first.range.start ≤ ix.range.start := by
  rcases mem_cons.mp hix with rfl | hix
  · exact Int64.le_refl _
  · exact Int64.le_of_lt (rel_of_pairwise_cons hbefore hix).start_lt

/-- Of indexes that lie one before the other, the last one ends last. -/
lemma stop_le_of_before {last : Index} (hbefore : ixs.Pairwise fun a b => a.range.Before b.range)
    (hlast : ixs.getLast? = some last) (hix : ix ∈ ixs) : ix.range.stop ≤ last.range.stop := by
  obtain ⟨front, rfl⟩ := getLast?_eq_some_iff.mp hlast
  rcases mem_append.mp hix with hix | hix
  · have hle := (pairwise_append.mp hbefore).2.2 ix hix last mem_cons_self
    exact Int64.le_of_lt (Int64.lt_of_le_of_lt hle last.range.start_lt_stop)
  · rw [mem_singleton.mp hix]
    exact Int64.le_refl _

/-- Indexes that lie one before the other reach from the start of the first one to the end of the
last one. -/
lemma exists_hull?_of_before {first last : Index} {rest : List Index}
    (hbefore : (first :: rest).Pairwise fun a b => a.range.Before b.range)
    (hlast : (first :: rest).getLast? = some last) : ∃ range, hull? (first :: rest) = some range
      ∧ range.start = first.range.start ∧ range.stop = last.range.stop := by
  obtain ⟨range, hhull⟩ : ∃ range, hull? (first :: rest) = some range := ⟨_, rfl⟩
  have hspans := spans_of_hull? hhull
  refine ⟨range, hhull, ?_, ?_⟩
  · obtain ⟨r, hr, hstart⟩ := hspans.start
    obtain ⟨early, hearly, rfl⟩ := mem_map.mp hr
    have hcovers := covers_iff.mp (hspans.covers _ (mem_map_of_mem mem_cons_self))
    refine Int64.le_antisymm hcovers.1 ?_
    rw [← hstart]
    exact start_le_of_before hbefore hearly
  · obtain ⟨r, hr, hstop⟩ := hspans.stop
    obtain ⟨late, hlate, rfl⟩ := mem_map.mp hr
    have hmem : last ∈ first :: rest := mem_of_getLast? hlast
    have hcovers := covers_iff.mp (hspans.covers _ (mem_map_of_mem hmem))
    refine Int64.le_antisymm ?_ hcovers.2
    rw [← hstop]
    exact stop_le_of_before hbefore hlast hlate

/-- Nothing exceeds the width of a window in it, so that clamping has no effect. -/
lemma toInt_clamp_of_inside (hfirst : Inside width k a) (hlast : Inside width k b)
    (hle : a.range.start ≤ b.range.start) :
    (clampInt64 (b.range.stop.toInt - a.range.start.toInt)).toInt
      = b.range.stop.toInt - a.range.start.toInt := by
  have hstart := Int64.le_iff_toInt_le.mp hle
  have hstop := Int64.lt_iff_toInt_lt.mp b.range.start_lt_stop
  have hlow := hfirst.1
  have hhigh := hlast.2
  have hwidth := Int64.toInt_lt width
  rw [add_mul, one_mul] at hhigh
  rw [toInt_clampInt64]
  omega

/-- The scan accepts the windows that are worth merging. -/
lemma qualifies_iff_mergeable (hbefore : older.Pairwise fun a b => a.range.Before b.range)
    (hnewest : older.getLast? = some newest) :
    qualifies width newest.range.start (inWindow width k older) = true
      ↔ Mergeable older width k := by
  have hheld : (inWindow width k older).Pairwise fun a b => a.range.Before b.range :=
    hbefore.sublist filter_sublist
  have hinside : ∀ ix ∈ inWindow width k older, Inside width k ix := fun ix hix =>
    (mem_inWindow.mp hix).2
  rcases hgroup : inWindow width k older with _ | ⟨first, rest⟩
  · -- nothing lies in the window
    refine iff_of_false (by simp [qualifies]) fun h => ?_
    have hseveral := h.several
    rw [hgroup] at hseveral
    exact absurd hseveral (by decide)
  rw [hgroup] at hheld hinside
  -- their hull reaches from the start of the first index to the stop of the last one
  obtain ⟨last, hlast⟩ : ∃ last, (first :: rest).getLast? = some last :=
    ⟨_, getLast?_eq_some_getLast (cons_ne_nil first rest)⟩
  obtain ⟨range, hhull, hstart, hstop⟩ := exists_hull?_of_before hheld hlast
  have hmem : last ∈ first :: rest := mem_of_getLast? hlast
  have hclamp := toInt_clamp_of_inside (hinside first mem_cons_self) (hinside last hmem)
    (start_le_of_before hheld hmem)
  simp only [qualifies, head?_cons, hlast, Bool.and_eq_true, Bool.or_eq_true, decide_eq_true_eq,
    beq_iff_eq, ← Int64.toInt_inj, hclamp]
  constructor
  · rintro ⟨hseveral, hsettled⟩
    refine ⟨by rw [hgroup]; exact hseveral, range, by rw [hgroup]; exact hhull, ?_⟩
    rw [hstart, hstop]
    rcases hsettled with hfills | hends
    · exact .inl hfills
    · exact .inr ⟨newest, hnewest, hends⟩
  · rintro ⟨hseveral, range', hhull', hsettled⟩
    rw [hgroup] at hseveral hhull'
    obtain rfl : range = range' := Option.some.inj (hhull.symm.trans hhull')
    rw [hstart, hstop] at hsettled
    refine ⟨hseveral, ?_⟩
    rcases hsettled with hfills | ⟨last', hlast', hends⟩
    · exact .inl hfills
    · obtain rfl : newest = last' := Option.some.inj (hnewest.symm.trans hlast')
      exact .inr hends

/-- The scan comes across every window that is worth merging. -/
lemma Mergeable.mem_windows (h : Mergeable older width k) (hwidth : 0 < width)
    (hbefore : older.Pairwise fun a b => a.range.Before b.range)
    (haligns : ∀ ix ∈ older, Aligns width ix.range.start) :
    inWindow width k older ∈ windows width older := by
  obtain ⟨ix, hix⟩ := h.exists_mem
  exact inWindow_mem_windows hwidth hbefore haligns (ne_nil_of_mem hix)

/-- What the scan accepts first is the lowest window that is worth merging. -/
lemma exists_isLeast_of_find? (hwidth : 0 < width)
    (hbefore : older.Pairwise fun a b => a.range.Before b.range)
    (haligns : ∀ ix ∈ older, Aligns width ix.range.start) (hnewest : older.getLast? = some newest)
    (hfind : (windows width older).find? (qualifies width newest.range.start) = some group) :
    ∃ k, IsLeast {k | Mergeable older width k} k ∧ group = inWindow width k older := by
  obtain ⟨hqualifies, passed, left, hsplit, hpassed⟩ := find?_eq_some_iff_append.mp hfind
  obtain ⟨k, rfl⟩ := eq_filter_of_mem_windows hwidth hbefore haligns (mem_of_find?_eq_some hfind)
  have hmergeable := (qualifies_iff_mergeable hbefore hnewest).mp hqualifies
  refine ⟨k, ⟨hmergeable, fun m hm => ?_⟩, rfl⟩
  -- another window that is worth merging is not among those that have been passed
  have hin := hm.mem_windows hwidth hbefore haligns
  have hascending : (windows width older).Pairwise _ := pairwise_windows hbefore
  rw [hsplit] at hin hascending
  rcases mem_append.mp hin with hin | hin
  · have hnot := hpassed _ hin
    rw [(qualifies_iff_mergeable hbefore hnewest).mpr hm] at hnot
    cases hnot
  obtain ⟨b, hb⟩ := hm.exists_mem
  have hb' := (mem_inWindow.mp hb).2
  rcases mem_cons.mp hin with hsame | hin
  · rw [hsame] at hb
    exact ((mem_inWindow.mp hb).2.unique hb' hwidth).le
  · obtain ⟨a, ha⟩ := hmergeable.exists_mem
    have hbehind := rel_of_pairwise_cons (pairwise_append.mp hascending).2.1 hin
    exact (mem_inWindow.mp ha).2.le_of_before hb' hwidth (hbehind a ha b hb)

/-! ### Widths -/

/-- What is selected for one width. -/
lemma groupOfWidth?_cases (hbefore : older.Pairwise fun a b => a.range.Before b.range)
    (haligns : ∀ ix ∈ older, Aligns width ix.range.start) :
    (∃ k, 0 < width ∧ IsLeast {k | Mergeable older width k} k
        ∧ groupOfWidth? width older = some (inWindow width k older))
      ∨ (0 < width → ∀ k, ¬Mergeable older width k) ∧ groupOfWidth? width older = none := by
  rcases hnewest : older.getLast? with _ | newest
  · refine .inr ⟨fun _ k h => ?_, by rw [groupOfWidth?, hnewest]⟩
    obtain ⟨ix, hix⟩ := h.exists_mem
    rw [getLast?_eq_none_iff.mp hnewest] at hix
    exact absurd (mem_inWindow.mp hix).1 not_mem_nil
  by_cases hwidth : 0 < width
  swap
  · refine .inr ⟨fun hpos => absurd hpos hwidth, ?_⟩
    rw [groupOfWidth?, hnewest]
    exact if_pos (Int64.not_lt.mp hwidth)
  have hscan : groupOfWidth? width older
      = (windows width older).find? (qualifies width newest.range.start) := by
    rw [groupOfWidth?, hnewest]
    exact if_neg (Int64.not_le.mpr hwidth)
  rw [hscan]
  rcases hfind : (windows width older).find? (qualifies width newest.range.start) with _ | group
  · refine .inr ⟨fun _ k h => ?_, rfl⟩
    have hmem := h.mem_windows hwidth hbefore haligns
    exact find?_eq_none.mp hfind _ hmem ((qualifies_iff_mergeable hbefore hnewest).mpr h)
  · obtain ⟨k, hleast, rfl⟩ := exists_isLeast_of_find? hwidth hbefore haligns hnewest hfind
    exact .inl ⟨k, hwidth, hleast, rfl⟩

/-- What is selected for several widths, tried one after the other. -/
lemma selects_findSome? (hbefore : older.Pairwise fun a b => a.range.Before b.range)
    (haligns : ∀ width ∈ widths, ∀ ix ∈ older, Aligns width ix.range.start) :
    Selects older widths ((widths.findSome? fun width => groupOfWidth? width older).getD []) := by
  induction widths with
  | nil => exact .none
  | cons width widths ih =>
    rw [findSome?_cons]
    rcases groupOfWidth?_cases hbefore (haligns width mem_cons_self) with
      ⟨k, hpos, hleast, hgroup⟩ | ⟨hnever, hgroup⟩ <;> rw [hgroup]
    · exact .found hpos hleast
    · exact .passed hnever (ih fun width hwidth => haligns width (mem_cons_of_mem _ hwidth))

/-! ### Plans -/

/-- Where no indexes overlap, all but the last one are older. -/
lemma olderOf_eq_dropLast (hapart : ixs.Pairwise Apart) : olderOf ixs = (sorted ixs).dropLast := by
  obtain ⟨-, hbefore⟩ := free_of_apart hapart
  have hfollowed : ∀ ix ∈ sorted ixs, ix ∈ (sorted ixs).dropLast ↔ Followed ixs ix := by
    intro ix hix
    rw [mem_dropLast_sorted_iff hapart]
    exact and_iff_right ((sorted_perm ixs).mem_iff.mp hix)
  rw [olderOf]
  rcases eq_nil_or_concat (sorted ixs) with hnil | ⟨front, last, hsplit⟩
  · rw [hnil]
    rfl
  rw [concat_eq_append] at hsplit
  rw [hsplit, dropLast_concat] at hfollowed ⊢
  rw [hsplit] at hbefore
  have hfront : front.filter (Followed ixs) = front :=
    filter_eq_self.mpr fun ix hix =>
      decide_eq_true ((hfollowed ix (mem_append_left _ hix)).mp hix)
  have hlast : ¬Followed ixs last := by
    rw [← hfollowed last (mem_append_right _ mem_cons_self)]
    intro hmem
    exact Int64.lt_irrefl ((pairwise_append.mp hbefore).2.2 last hmem last mem_cons_self).start_lt
  rw [filter_append, hfront, filter_cons_of_neg (by simpa using hlast), filter_nil, append_nil]

/-- Where no indexes overlap, and all windows of older indexes start at timestamps, exactly the
selection by the widths behind the first is planned. -/
theorem selects_iff_plan (hapart : ixs.Pairwise Apart)
    (haligns : ∀ tier ∈ s.tiers.drop 1, ∀ ix ∈ ixs, Followed ixs ix →
      Aligns (s.resolution.ofHours tier) ix.range.start) (group : List Index) :
    Selects (olderOf ixs) ((s.tiers.drop 1).map s.resolution.ofHours) group
      ↔ s.plan ixs = group := by
  obtain ⟨hfree, hbefore⟩ := free_of_apart hapart
  have holder := olderOf_eq_dropLast hapart
  -- the scan over the widths finds the selection
  have hselects : Selects (olderOf ixs) ((s.tiers.drop 1).map s.resolution.ofHours)
      (s.grouped (olderOf ixs)) := by
    have hgrouped : s.grouped (olderOf ixs) = (((s.tiers.drop 1).map s.resolution.ofHours).findSome?
        fun width => groupOfWidth? width (olderOf ixs)).getD [] := by
      rw [findSome?_map]
      rfl
    rw [hgrouped]
    refine selects_findSome? ?_ ?_
    · rw [holder]
      exact hbefore.sublist (dropLast_sublist _)
    · intro width hwidth ix hix
      obtain ⟨tier, htier, rfl⟩ := mem_map.mp hwidth
      obtain ⟨hmem, hfollowed⟩ := (mem_dropLast_sorted_iff hapart).mp (holder ▸ hix)
      exact haligns tier htier ix hmem hfollowed
  -- without overlaps the plan is what the scan finds
  have hplan : s.plan ixs = s.grouped (olderOf ixs) := by
    rw [plan]
    split_ifs with hnone
    · -- without widths, or with one index only, there is nothing to select
      rcases (Bool.or_eq_true _ _).mp hnone with htiers | hfew
      · rw [grouped, isEmpty_iff.mp htiers]
        rfl
      · have hlength := (sorted_perm ixs).length_eq
        have hnil : olderOf ixs = [] := by
          rw [holder, ← length_eq_zero_iff, length_dropLast]
          have := of_decide_eq_true hfew
          omega
        exact (sublist_nil.mp (hnil ▸ s.grouped_sublist (olderOf ixs))).symm
    · simp only [hfree, holder]
  rw [hplan]
  constructor
  · intro h
    exact hselects.unique h
  · rintro rfl
    exact hselects

namespace Straddling

/-- An index without chunks, in seconds. -/
def empty (range : TimeRange) : Index :=
  ⟨⟨["x"]⟩, ⟨1⟩, range, .seconds, .newYear, [], 1⟩

/-- The third one reaches from the first window of two hours into the second one. -/
def inOrder : List Index := [empty ⟨0, 3000, by decide⟩, empty ⟨3000, 6000, by decide⟩,
  empty ⟨6000, 9000, by decide⟩, empty ⟨9000, 9500, by decide⟩]

def hourly : SizeTiered := ⟨[1, 2], 900000, .seconds⟩

lemma sorted_reverse : sorted inOrder.reverse = inOrder := by
  refine sorted_eq_of_perm (reverse_perm _) ?_
  unfold Listed
  decide

lemma apart_reverse : inOrder.reverse.Pairwise Apart := by
  unfold Apart
  decide

lemma ofHours_two : hourly.resolution.ofHours 2 = 7200 := by decide +kernel

lemma aligns_inOrder : ∀ ix ∈ inOrder, Aligns (hourly.resolution.ofHours 2) ix.range.start := by
  rw [ofHours_two]
  unfold Aligns
  decide +kernel

/-- The first two indexes end when the third one starts. -/
lemma selects_inOrder : Selects (olderOf inOrder.reverse)
    ((hourly.tiers.drop 1).map hourly.resolution.ofHours) (inOrder.take 2) := by
  have holder : olderOf inOrder.reverse = inOrder.take 3 := by
    rw [olderOf_eq_dropLast apart_reverse, sorted_reverse]
    rfl
  rw [holder]
  refine .found (k := 0) (by decide) ⟨⟨by decide, _, rfl, .inr ⟨_, rfl, by decide⟩⟩, ?_⟩
  intro k hk
  obtain ⟨ix, hix⟩ := Mergeable.exists_mem hk
  obtain ⟨hmem, -, hstop⟩ := mem_inWindow.mp hix
  have hpos : ∀ ix ∈ inOrder.take 3, 0 < ix.range.stop.toInt := by decide
  have hstop' := hpos ix hmem
  rw [ofHours_two] at hstop
  change _ ≤ (k + 1) * 7200 at hstop
  omega

end Straddling

/-- An index that reaches beyond its window ends the group in front of it. -/
theorem selects_iff_plan_straddling :
    Straddling.hourly.plan Straddling.inOrder.reverse = Straddling.inOrder.take 2 := by
  refine (selects_iff_plan Straddling.apart_reverse ?_ _).mp Straddling.selects_inOrder
  intro tier htier ix hix _
  obtain rfl := mem_singleton.mp htier
  exact Straddling.aligns_inOrder ix (mem_reverse.mp hix)

end SizeTiered

end SeriesStore
