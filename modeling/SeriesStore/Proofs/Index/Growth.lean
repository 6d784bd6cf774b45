import SeriesStore.Proofs.Index.Contents

/-!
# Growing and merging contents

The contents after entries are added, and after segments are merged. Both are sound if the contents
before are, and hold the entries in the same order.
-/

namespace SeriesStore.Index

/-! ### Checks -/

/-- An entry with bounds in order that lie in a range. -/
def InRange (range : TimeRange) (e : Entry) : Prop :=
  ¬e.max < e.min ∧ range.contains e.min = true ∧ range.contains e.max = true

/-- Whether an entry may come behind a timestamp. -/
def NotBefore (last : Option Int64) (e : Entry) : Prop := ∀ t ∈ last, t ≤ e.min

lemma check_cons {range : TimeRange} {last : Option Int64} {e : Entry} {es : List Entry} :
    check range last (e :: es) = .ok ()
      ↔ InRange range e ∧ NotBefore last e ∧ check range (some e.min) es = .ok () := by
  rw [check]
  by_cases hbounds : e.max < e.min
  · have hout : ¬InRange range e := fun h => h.1 hbounds
    simp [hbounds, hout, bind, Except.bind, throw, throwThe, MonadExceptOf.throw]
  by_cases hrange : (!range.contains e.min || !range.contains e.max) = true
  · have hout : ¬InRange range e := fun h => by simp [h.2.1, h.2.2] at hrange
    simp [hbounds, hrange, hout, bind, Except.bind, throw, throwThe, MonadExceptOf.throw]
  have hin : InRange range e := ⟨hbounds, by simpa using hrange⟩
  cases last with
  | none => simp [hbounds, hrange, hin, NotBefore]
  | some t =>
    by_cases horder : e.min < t
    · have hlate : ¬t ≤ e.min := Int64.not_le.mpr horder
      simp [hbounds, hrange, hin, NotBefore, horder, hlate, bind, Except.bind, throw, throwThe,
        MonadExceptOf.throw]
    · have hlate : t ≤ e.min := Int64.not_lt.mp horder
      simp [hbounds, hrange, hin, NotBefore, horder, hlate]

/-- Entries pass the check if each of them lies in the range and none starts before the one in front
of it. -/
theorem check_eq_ok_iff {range : TimeRange} {last : Option Int64} {es : List Entry} :
    check range last es = .ok ()
      ↔ (∀ e ∈ es, InRange range e) ∧ (last.toList ++ es.map (·.min)).IsChain (· ≤ ·) := by
  induction es generalizing last with
  | nil => cases last <;> simp [check]
  | cons e es ih =>
    rw [check_cons, ih]
    cases last <;> simp [NotBefore, and_assoc, and_left_comm]

namespace Contents

variable {c : Contents}

/-- The first timestamp of the last chunk is known from the tables of the segments. -/
lemma lastMin?_index (c : Contents) (dir : Path) :
    (c.index dir).lastMin? = c.entries.getLast?.map (·.min) := by
  have hslots (position : Nat) (es : List Entry) :
      (Layout.slotsFrom position es).getLast?.map (·.min) = es.getLast?.map (·.min) := by
    induction es generalizing position with
    | nil => rfl
    | cons e es ih =>
      cases es with
      | nil => rfl
      | cons e' es =>
        have h := ih (position + e.chunk.record.length + 8)
        simp only [Layout.slotsFrom, List.getLast?_cons_cons] at h ⊢
        exact h
  have hsegment (g : UInt64 × List Entry) :
      (segment dir g).lastMin? = g.2.getLast?.map (·.min) := hslots _ g.2
  simp only [lastMin?, index, entries]
  induction c.groups using List.reverseRecOn with
  | nil => rfl
  | append_singleton groups g ih =>
    simp only [List.map_append, List.map_cons, List.map_nil, List.reverse_append,
      List.reverse_cons, List.reverse_nil, List.nil_append, List.singleton_append,
      List.findSome?_cons, hsegment, List.flatMap_append, List.flatMap_cons, List.flatMap_nil,
      List.append_nil, List.getLast?_append, ih]
    cases g.2.getLast? <;> rfl

/-! ### Adding -/

/-- The contents with another group of entries. -/
def add (c : Contents) (es : List Entry) : Contents :=
  { c with
    groups := c.groups ++ [(c.next, es)]
    next := c.next + 1 }

@[simp] lemma entries_add (c : Contents) (es : List Entry) :
    (c.add es).entries = c.entries ++ es := by
  simp [entries, add]

lemma Sound.toNat_next_add_one (h : c.Sound) : (c.next + 1).toNat = c.next.toNat + 1 := by
  have hbounded := h.bounded
  have hsmall := h.small
  rw [UInt64.toNat_add]
  exact Nat.mod_eq_of_lt (by simp; omega)

lemma Sound.lt_next_add_one (h : c.Sound) {n : UInt64} (hn : n ≤ c.next) : n < c.next + 1 := by
  rw [UInt64.lt_iff_toNat_lt, h.toNat_next_add_one]
  rw [UInt64.le_iff_toNat_le] at hn
  omega

/-- A number in use is not the number of the next segment file. -/
lemma Sound.next_ne (h : c.Sound) {g : UInt64 × List Entry} (hg : g ∈ c.groups) :
    g.1 ≠ c.next := UInt64.ne_of_lt (h.below g hg)

theorem Sound.add (h : c.Sound) {es : List Entry} (hne : es ≠ [])
    (hcheck : check c.range (c.entries.getLast?.map (·.min)) es = .ok ())
    (hfits : Layout.oversized? es = none) (hsmall : 28 * (c.entries ++ es).length < 2 ^ 32) :
    (c.add es).Sound where
  numbers := by
    simp only [Contents.add, List.map_append, List.map_cons, List.map_nil]
    refine List.nodup_append.mpr ⟨h.numbers, by simp, ?_⟩
    simp only [List.mem_map, List.mem_singleton]
    rintro _ ⟨g, hg, rfl⟩ _ rfl
    exact h.next_ne hg
  below g hg := by
    simp only [Contents.add, List.mem_append, List.mem_singleton] at hg ⊢
    rcases hg with hg | rfl
    · exact h.lt_next_add_one (UInt64.le_of_lt (h.below g hg))
    · exact h.lt_next_add_one (UInt64.le_refl _)
  fits g hg := by
    simp only [Contents.add, List.mem_append, List.mem_singleton] at hg
    rcases hg with hg | rfl
    · exact h.fits g hg
    · exact hfits
  ordered := by
    obtain ⟨hin, hchain⟩ := check_eq_ok_iff.mp h.ordered
    obtain ⟨hin', hchain'⟩ := check_eq_ok_iff.mp hcheck
    rw [entries_add, check_eq_ok_iff]
    refine ⟨fun e he => (List.mem_append.mp he).elim (hin e) (hin' e), ?_⟩
    simp only [Option.toList_none, List.nil_append, List.map_append] at hchain ⊢
    rw [List.isChain_append] at hchain' ⊢
    refine ⟨hchain, hchain'.2.1, fun s hs t ht => hchain'.2.2 s ?_ t ht⟩
    rw [List.getLast?_map] at hs
    cases hlast : c.entries.getLast? with
    | none => simp [hlast] at hs
    | some e => simpa [hlast] using hs
  bounded := by
    have hpos := List.length_pos_iff.mpr hne
    have hbounded := h.bounded
    simp only [entries_add, List.length_append]
    simp only [Contents.add, List.length_append, List.length_cons, List.length_nil,
      h.toNat_next_add_one]
    omega
  small := by rwa [entries_add]

/-! ### Merging -/

/-- The contents with the first groups merged into one. -/
def merge (c : Contents) (count : Nat) : Contents :=
  { c with
    groups := (c.next, (c.groups.take count).flatMap Prod.snd) :: c.groups.drop count
    next := c.next + 1 }

@[simp] lemma entries_merge (c : Contents) (count : Nat) :
    (c.merge count).entries = c.entries := by
  rw [entries, entries, merge, List.flatMap_cons, ← List.flatMap_append, List.take_append_drop]

lemma length_groups_merge (c : Contents) (count : Nat) :
    (c.merge count).groups.length = c.groups.length - count + 1 := by
  simp [merge]

lemma Sound.length_record_lt (h : c.Sound) {e : Entry} (he : e ∈ c.entries) :
    e.chunk.record.length < 2 ^ 32 := by
  obtain ⟨g, hg, he⟩ := List.mem_flatMap.mp he
  exact Layout.oversized?_eq_none_iff.mp (h.fits g hg) e he

lemma Sound.oversized?_flatMap (h : c.Sound) {groups : List (UInt64 × List Entry)}
    (hgroups : ∀ g ∈ groups, g ∈ c.groups) :
    Layout.oversized? (groups.flatMap Prod.snd) = none := by
  rw [Layout.oversized?_eq_none_iff]
  intro e he
  obtain ⟨g, hg, he⟩ := List.mem_flatMap.mp he
  exact h.length_record_lt (List.mem_flatMap.mpr ⟨g, hgroups g hg, he⟩)

theorem Sound.merge (h : c.Sound) {count : Nat} (hcount : 2 ≤ count)
    (hlen : count ≤ c.groups.length) : (c.merge count).Sound where
  numbers := by
    simp only [Contents.merge, List.map_cons, List.nodup_cons, List.map_drop]
    refine ⟨fun hmem => ?_, h.numbers.sublist (List.drop_sublist _ _)⟩
    obtain ⟨g, hg, heq⟩ := List.mem_map.mp (List.mem_of_mem_drop hmem)
    exact h.next_ne hg heq
  below g hg := by
    simp only [Contents.merge, List.mem_cons] at hg ⊢
    rcases hg with rfl | hg
    · exact h.lt_next_add_one (UInt64.le_refl _)
    · exact h.lt_next_add_one (UInt64.le_of_lt (h.below g (List.mem_of_mem_drop hg)))
  fits g hg := by
    simp only [Contents.merge, List.mem_cons] at hg
    rcases hg with rfl | hg
    · exact h.oversized?_flatMap fun g hg => List.mem_of_mem_take hg
    · exact h.fits g (List.mem_of_mem_drop hg)
  ordered := by
    rw [entries_merge]
    exact h.ordered
  bounded := by
    have hbounded := h.bounded
    rw [entries_merge, length_groups_merge]
    simp only [Contents.merge, h.toNat_next_add_one]
    omega
  small := by
    rw [entries_merge]
    exact h.small

end Contents

end SeriesStore.Index
