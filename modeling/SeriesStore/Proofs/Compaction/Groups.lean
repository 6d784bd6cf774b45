import SeriesStore.Proofs.Compaction.Planning

/-!
# Groups of overlapping indexes

Indexes that are linked by overlaps form a group. In a sorted list a scan that keeps the latest stop
so far meets the groups one after the other: an index that starts before that stop overlaps one in
front of it, and one that does not starts a new group. The first group of several indexes is the one
that is merged.
-/

namespace SeriesStore

open List

/-! ### Overlaps of two ranges -/

namespace TimeRange

variable {r s t : TimeRange}

/-- A range ends where another one starts, or earlier. -/
def Before (r s : TimeRange) : Prop := r.stop ≤ s.start

lemma overlaps_iff : r.overlaps s = true ↔ r.start < s.stop ∧ s.start < r.stop := by
  simp [overlaps]

lemma overlaps_comm (r s : TimeRange) : r.overlaps s = s.overlaps r := Bool.and_comm _ _

lemma overlaps_self (r : TimeRange) : r.overlaps r = true :=
  overlaps_iff.mpr ⟨r.start_lt_stop, r.start_lt_stop⟩

lemma Before.not_overlaps (h : r.Before s) : r.overlaps s = false := by
  rw [← Bool.not_eq_true, overlaps_iff]
  exact fun hover => Int64.not_lt.mpr h hover.2

lemma Before.not_overlaps' (h : s.Before r) : r.overlaps s = false := by
  rw [overlaps_comm, h.not_overlaps]

lemma Before.start_lt (h : r.Before s) : r.start < s.start :=
  Int64.lt_of_lt_of_le r.start_lt_stop h

lemma listedBefore_iff : r.listedBefore s = true
    ↔ r.start < s.start ∨ r.start = s.start ∧ r.stop ≤ s.stop := by
  simp [listedBefore]

lemma start_le_of_listedBefore (h : r.listedBefore s = true) : r.start ≤ s.start := by
  rcases listedBefore_iff.mp h with h | h
  · exact Int64.le_of_lt h
  · exact Int64.le_of_eq h.1

lemma listedBefore_trans (h : r.listedBefore s = true) (h' : s.listedBefore t = true) :
    r.listedBefore t = true := by
  simp only [listedBefore_iff, Int64.lt_iff_toInt_lt, Int64.le_iff_toInt_le,
    ← Int64.toInt_inj] at *
  omega

lemma listedBefore_total (r s : TimeRange) : (r.listedBefore s || s.listedBefore r) = true := by
  simp only [Bool.or_eq_true, listedBefore_iff, Int64.lt_iff_toInt_lt, Int64.le_iff_toInt_le,
    ← Int64.toInt_inj]
  omega

end TimeRange

namespace Index

open TimeRange

variable {ixs group group' rest rest' : List Index} {a b : Index}

/-- Two indexes have no timestamps in common. -/
def Apart (a b : Index) : Prop := a.range.overlaps b.range = false

lemma Apart.symm (h : Apart a b) : Apart b a := by
  rw [Apart, overlaps_comm]
  exact h

lemma not_apart_self (a : Index) : ¬ Apart a a := by simp [Apart, overlaps_self]

/-- An index is listed no later than another one. -/
def Listed (a b : Index) : Prop := a.range.listedBefore b.range = true

lemma sorted_perm (ixs : List Index) : sorted ixs ~ ixs := mergeSort_perm ixs _

lemma pairwise_sorted (ixs : List Index) : (sorted ixs).Pairwise Listed := by
  have htrans : ∀ a b c : Index, a.range.listedBefore b.range = true →
      b.range.listedBefore c.range = true → a.range.listedBefore c.range = true :=
    fun _ _ _ h h' => listedBefore_trans h h'
  have htotal : ∀ a b : Index,
      (a.range.listedBefore b.range || b.range.listedBefore a.range) = true :=
    fun a b => listedBefore_total a.range b.range
  exact pairwise_mergeSort htrans htotal ixs

/-- Indexes of which no two stand at the same place are sorted in one way only. -/
lemma sorted_eq_of_perm {ixs' : List Index} (h : ixs.Perm ixs')
    (hlisted : ixs'.Pairwise fun a b => Listed a b ∧ ¬Listed b a) : sorted ixs = ixs' := by
  have hperm : (sorted ixs).Perm ixs' := (sorted_perm ixs).trans h
  have : Std.Symm fun a b => ¬(Listed a b ∧ Listed b a) := ⟨fun _ _ hnot hab => hnot hab.symm⟩
  have hantisymm : ixs'.Pairwise fun a b => ¬(Listed a b ∧ Listed b a) :=
    hlisted.imp fun hab hba => hab.2 hba.2
  refine hperm.eq_of_pairwise (fun a b ha hb hab hba => ?_) (pairwise_sorted _)
    (hlisted.imp And.left)
  by_contra hne
  exact hantisymm.forall (hperm.mem_iff.mp ha) hb hne ⟨hab, hba⟩

/-! ### Groups -/

/-- Two indexes of a group overlap. -/
def Meets (group : List Index) (a b : Index) : Prop := a ∈ group ∧ b ∈ group ∧ ¬ Apart a b

instance : Std.Symm (Meets group) where
  symm _ _ h := ⟨h.2.1, h.1, fun hapart => h.2.2 hapart.symm⟩

/-- Chains of overlaps lead from every index of a group to every other. -/
def Linked (group : List Index) : Prop :=
  ∀ a ∈ group, ∀ b ∈ group, Relation.ReflTransGen (Meets group) a b

/-- Several indexes that are linked and do not overlap any of the others. -/
structure IsGroup (ixs group rest : List Index) : Prop where
  perm : group ++ rest ~ ixs
  several : 2 ≤ group.length
  linked : Linked group
  apart : ∀ a ∈ group, ∀ b ∈ rest, Apart a b

/-- No part of a group is apart from the remainder. -/
lemma Linked.exists_not_apart (h : Linked group) {u v : List Index}
    (hcover : ∀ x ∈ group, x ∈ u ∨ x ∈ v) (ha : a ∈ group) (hau : a ∈ u) (hb : b ∈ group)
    (hbv : b ∈ v) : ∃ x ∈ u, ∃ y ∈ v, ¬ Apart x y := by
  have hwalk : ∀ c, Relation.ReflTransGen (Meets group) a c →
      c ∈ u ∨ ∃ x ∈ u, ∃ y ∈ v, ¬ Apart x y := by
    intro c hpath
    induction hpath with
    | refl => exact .inl hau
    | tail _ hstep ih =>
      rcases ih with hc | hfound
      · rcases hcover _ hstep.2.1 with hu | hv
        · exact .inl hu
        · exact .inr ⟨_, hc, _, hv, hstep.2.2⟩
      · exact .inr hfound
  rcases hwalk b (h a ha b hb) with hbu | hfound
  · exact ⟨b, hbu, b, hbv, not_apart_self b⟩
  · exact hfound

/-- A group grows by an index that overlaps one of its members. -/
lemma Linked.append_singleton (h : Linked group) (ha : a ∈ group) (hb : ¬ Apart a b) :
    Linked (group ++ [b]) := by
  have hfrom : ∀ c ∈ group ++ [b], Relation.ReflTransGen (Meets (group ++ [b])) a c := by
    intro c hc
    rcases mem_append.mp hc with hc | hc
    · refine Relation.ReflTransGen.mono (fun x y hxy => ?_) a c (h a ha c hc)
      exact ⟨mem_append_left _ hxy.1, mem_append_left _ hxy.2.1, hxy.2.2⟩
    · obtain rfl := mem_singleton.mp hc
      exact .single ⟨mem_append_left _ ha, mem_append_right _ hc, hb⟩
  intro c hc e he
  have hback := symm_of (Relation.ReflTransGen (Meets (group ++ [b]))) (hfrom c hc)
  exact hback.trans (hfrom e he)

namespace IsGroup

/-- Every member of a group overlaps another index. -/
lemma exists_not_apart (h : IsGroup ixs group rest) (ha : a ∈ group) {others : List Index}
    (hothers : a :: others ~ ixs) : ∃ b ∈ others, ¬ Apart a b := by
  obtain ⟨s, t, rfl⟩ := append_of_mem ha
  have hperm : others ~ (s ++ t) ++ rest := by
    refine Perm.cons_inv (a := a) (hothers.trans (h.perm.symm.trans ?_))
    exact (perm_middle (a := a)).append_right rest
  obtain ⟨b, hb⟩ : ∃ b, b ∈ s ++ t := by
    refine exists_mem_of_length_pos ?_
    have hseveral := h.several
    simp only [length_append, length_cons] at hseveral ⊢
    omega
  have hin : ∀ x, x ∈ s ++ t → x ∈ s ++ a :: t := by simp +contextual [or_imp]
  obtain ⟨x, hx, y, hy, hmeet⟩ := h.linked.exists_not_apart (u := [a]) (v := s ++ t)
    (by simp [or_left_comm]) ha mem_cons_self (hin b hb) hb
  obtain rfl := mem_singleton.mp hx
  exact ⟨y, hperm.mem_iff.mpr (mem_append_left _ hy), hmeet⟩

lemma mem_of_mem (h : IsGroup ixs group rest) (ha : a ∈ group) : a ∈ ixs :=
  h.perm.mem_iff.mp (mem_append_left _ ha)

lemma of_perm (h : IsGroup ixs group rest) {ixs' : List Index} (hperm : ixs ~ ixs') :
    IsGroup ixs' group rest :=
  { h with perm := h.perm.trans hperm }

lemma not_pairwise_apart (h : IsGroup ixs group rest) : ¬ ixs.Pairwise Apart := by
  intro hapart
  obtain ⟨a, ha⟩ := exists_mem_of_length_pos (Nat.lt_of_lt_of_le Nat.two_pos h.several)
  obtain ⟨s, t, hsplit⟩ := append_of_mem (h.mem_of_mem ha)
  have hothers : a :: (s ++ t) ~ ixs := hsplit ▸ perm_middle.symm
  obtain ⟨b, hb, hmeet⟩ := h.exists_not_apart ha hothers
  exact hmeet (rel_of_pairwise_cons ((hothers.pairwise_iff Apart.symm).mpr hapart) hb)

/-- A group is closed under overlaps. -/
lemma mem_of_not_apart (h : IsGroup ixs group rest) (ha : a ∈ group) (hb : b ∈ ixs)
    (hab : ¬ Apart a b) : b ∈ group := by
  rcases mem_append.mp (h.perm.mem_iff.mpr hb) with hb | hb
  · exact hb
  · exact absurd (h.apart a ha b hb) hab

/-- All of a group is in another one with which it has a member in common. -/
lemma subset (h : IsGroup ixs group rest) (h' : IsGroup ixs group' rest') (ha : a ∈ group)
    (ha' : a ∈ group') : group' ⊆ group := by
  intro b hb
  induction h'.linked a ha' b hb with
  | refl => exact ha
  | tail _ hstep ih => exact h.mem_of_not_apart (ih hstep.1) (h'.mem_of_mem hstep.2.1) hstep.2.2

open Classical in
lemma perm_filter (h : IsGroup ixs group rest) : group ~ ixs.filter (· ∈ group) := by
  have hrest : rest.filter (· ∈ group) = [] := by
    rw [filter_eq_nil_iff]
    intro b hb hmem
    exact not_apart_self b (h.apart b (of_decide_eq_true hmem) b hb)
  have hgroup : group.filter (· ∈ group) = group :=
    filter_eq_self.mpr fun a ha => decide_eq_true ha
  have hfilter := h.perm.filter (· ∈ group)
  rwa [filter_append, hgroup, hrest, append_nil] at hfilter

/-- Two groups with a common member are the same. -/
lemma perm_of_mem (h : IsGroup ixs group rest) (h' : IsGroup ixs group' rest') (ha : a ∈ group)
    (ha' : a ∈ group') : group' ~ group := by
  classical
  have hmem : ∀ b, b ∈ group' ↔ b ∈ group := by
    intro b
    constructor
    · intro hb
      exact h.subset h' ha ha' hb
    · intro hb
      exact h'.subset h ha' ha hb
  refine h'.perm_filter.trans (.trans (.of_eq ?_) h.perm_filter.symm)
  exact filter_congr fun b _ => decide_eq_decide.mpr (hmem b)

end IsGroup

end Index

/-! ### The first group -/

namespace SizeTiered

open TimeRange Index

variable {ixs run : List Index} {reach : Int64} {a b : Index}

lemma le_later_left (s t : Int64) : s ≤ later s t := by
  rw [later]
  split_ifs with h
  · exact Int64.le_of_lt h
  · exact Int64.le_refl s

lemma le_later_right (s t : Int64) : t ≤ later s t := by
  rw [later]
  split_ifs with h
  · exact Int64.le_refl t
  · exact Int64.not_lt.mp h

/-- Linked indexes, with the latest of their stops. -/
structure Run (run : List Index) (reach : Int64) : Prop where
  linked : Linked run
  reached : ∃ a ∈ run, a.range.stop = reach
  bounded : ∀ a ∈ run, a.range.stop ≤ reach

lemma Run.singleton (a : Index) : Run [a] a.range.stop where
  linked b hb c hc := by
    obtain rfl := mem_singleton.mp hb
    obtain rfl := mem_singleton.mp hc
    exact .refl
  reached := ⟨a, mem_cons_self, rfl⟩
  bounded b hb := by
    obtain rfl := mem_singleton.mp hb
    exact Int64.le_refl _

/-- An index that starts before the latest stop overlaps the one that ends there. -/
lemma Run.append_singleton (h : Run run reach) (hlisted : ∀ a ∈ run, Listed a b)
    (hb : b.range.start < reach) : Run (run ++ [b]) (later reach b.range.stop) := by
  obtain ⟨a, ha, hreach⟩ := h.reached
  refine ⟨h.linked.append_singleton ha ?_, ?_, ?_⟩
  · have hstart := start_le_of_listedBefore (hlisted a ha)
    rw [Apart, Bool.not_eq_false, overlaps_iff]
    exact ⟨Int64.lt_of_le_of_lt hstart b.range.start_lt_stop, hreach ▸ hb⟩
  · rw [later]
    split_ifs
    · exact ⟨b, by simp, rfl⟩
    · exact ⟨a, mem_append_left _ ha, hreach⟩
  · intro c hc
    rcases mem_append.mp hc with hc | hc
    · exact Int64.le_trans (h.bounded c hc) (le_later_left _ _)
    · obtain rfl := mem_singleton.mp hc
      exact le_later_right _ _

/-- The scan takes the whole group, and what is behind it starts later. -/
lemma Run.append_chain (h : Run run reach) (hsorted : (run ++ ixs).Pairwise Listed) :
    ∃ post reach', ixs = chain reach ixs ++ post ∧ Run (run ++ chain reach ixs) reach'
      ∧ ∀ b ∈ post, reach' ≤ b.range.start := by
  induction ixs generalizing run reach with
  | nil => exact ⟨[], reach, rfl, by simpa [chain] using h, by simp⟩
  | cons ix rest ih =>
    obtain ⟨-, hrest, hcross⟩ := pairwise_append.mp hsorted
    rw [chain]
    split_ifs with hix
    · have hnext := h.append_singleton (fun a ha => hcross a ha ix mem_cons_self) hix
      obtain ⟨post, reach', hsplit, hrun, hlate⟩ := ih hnext (by simpa using hsorted)
      refine ⟨post, reach', by rw [cons_append, ← hsplit], by simpa using hrun, hlate⟩
    · refine ⟨ix :: rest, reach, rfl, by simpa using h, fun b hb => ?_⟩
      refine Int64.le_trans (Int64.not_lt.mp hix) ?_
      rcases mem_cons.mp hb with rfl | hb
      · exact Int64.le_refl _
      · exact start_le_of_listedBefore (rel_of_pairwise_cons hrest hb)

/-- A sorted list is cut at its first group: the indexes in front of the group are apart from all,
and all others start when the group has ended. -/
structure FirstGroup (ixs pre run post : List Index) : Prop where
  eq : ixs = pre ++ (run ++ post)
  several : 2 ≤ run.length
  linked : Linked run
  pre_apart : pre.Pairwise fun a b => a.range.Before b.range
  before : ∀ a ∈ pre, ∀ b ∈ run ++ post, a.range.Before b.range
  behind : ∀ a ∈ run, ∀ b ∈ post, a.range.Before b.range

/-- The scan either finds that nothing overlaps, or finds the first group. As long as nothing
overlaps, the latest stop is the one of the last index. -/
lemma overlapsFrom_cases (previous : Index) (hsorted : (previous :: ixs).Pairwise Listed) :
    overlapsFrom previous.range.stop previous ixs = []
        ∧ (previous :: ixs).Pairwise (fun a b => a.range.Before b.range)
      ∨ ∃ pre post, FirstGroup (previous :: ixs) pre
          (overlapsFrom previous.range.stop previous ixs) post := by
  induction ixs generalizing previous with
  | nil => exact .inl ⟨rfl, pairwise_singleton _ _⟩
  | cons ix rest ih =>
    have hlisted : Listed previous ix := rel_of_pairwise_cons hsorted mem_cons_self
    have hrest := hsorted.of_cons
    simp only [overlapsFrom]
    split_ifs with hix
    · -- the second index overlaps the first one, and the group goes on from these two
      have hpair : Run [previous, ix] (later previous.range.stop ix.range.stop) := by
        refine (Run.singleton previous).append_singleton ?_ hix
        intro a ha
        obtain rfl := mem_singleton.mp ha
        exact hlisted
      obtain ⟨post, reach, hsplit, hrun, hlate⟩ := hpair.append_chain hsorted
      refine .inr ⟨[], post, ?_, by simp, hrun.linked, .nil, by simp, ?_⟩
      · exact congrArg (previous :: ix :: ·) hsplit
      · intro a ha b hb
        exact Int64.le_trans (hrun.bounded a ha) (hlate b hb)
    · -- nothing so far reaches beyond `ix`, so the scan starts afresh with it
      have hnext : later previous.range.stop ix.range.stop = ix.range.stop := by
        have hstart := ix.range.start_lt_stop
        rw [later, if_pos (Int64.lt_of_le_of_lt (Int64.not_lt.mp hix) hstart)]
      have hfirst : ∀ b ∈ ix :: rest, previous.range.Before b.range := by
        intro b hb
        refine Int64.le_trans (Int64.not_lt.mp hix) ?_
        rcases mem_cons.mp hb with rfl | hb
        · exact Int64.le_refl _
        · exact start_le_of_listedBefore (rel_of_pairwise_cons hrest hb)
      rw [hnext]
      rcases ih ix hrest with ⟨hnone, hbefore⟩ | ⟨pre, post, hgroup⟩
      · exact .inl ⟨hnone, pairwise_cons.mpr ⟨hfirst, hbefore⟩⟩
      · rw [hgroup.eq] at hfirst
        refine .inr ⟨previous :: pre, post, by rw [cons_append, ← hgroup.eq], hgroup.several,
          hgroup.linked, pairwise_cons.mpr ⟨?_, hgroup.pre_apart⟩, ?_, hgroup.behind⟩
        · intro b hb
          exact hfirst b (mem_append_left _ hb)
        · intro a ha b hb
          rcases mem_cons.mp ha with rfl | ha
          · exact hfirst b (mem_append_right _ hb)
          · exact hgroup.before a ha b hb

lemma overlaps_cases (hsorted : ixs.Pairwise Listed) :
    overlaps ixs = [] ∧ ixs.Pairwise (fun a b => a.range.Before b.range)
      ∨ ∃ pre post, FirstGroup ixs pre (overlaps ixs) post := by
  cases ixs with
  | nil => exact .inl ⟨rfl, .nil⟩
  | cons ix rest => exact overlapsFrom_cases ix hsorted

namespace FirstGroup

variable {pre post : List Index}

lemma isGroup (h : FirstGroup ixs pre run post) : IsGroup ixs run (pre ++ post) where
  perm := by
    rw [h.eq]
    exact perm_append_comm_assoc run pre post
  several := h.several
  linked := h.linked
  apart a ha b hb := by
    rcases mem_append.mp hb with hb | hb
    · exact (h.before b hb a (mem_append_left _ ha)).not_overlaps'
    · exact (h.behind a ha b hb).not_overlaps

/-- What is in front of the first group is in no group. -/
lemma not_mem_pre (h : FirstGroup ixs pre run post) {group rest : List Index}
    (hgroup : IsGroup ixs group rest) (ha : a ∈ group) : a ∉ pre := by
  intro hpre
  obtain ⟨s, t, rfl⟩ := append_of_mem hpre
  obtain ⟨-, hbehind, hfront⟩ := pairwise_append.mp h.pre_apart
  have hothers : a :: (s ++ (t ++ (run ++ post))) ~ ixs := by
    rw [h.eq, append_assoc]
    exact perm_middle.symm
  obtain ⟨b, hb, hmeet⟩ := hgroup.exists_not_apart ha hothers
  refine hmeet ?_
  rcases mem_append.mp hb with hb | hb
  · exact (hfront b hb a mem_cons_self).not_overlaps'
  rcases mem_append.mp hb with hb | hb
  · exact (rel_of_pairwise_cons hbehind hb).not_overlaps
  · exact (h.before a hpre b hb).not_overlaps

/-- All other groups start when the first one has ended. -/
lemma perm_or_before (h : FirstGroup ixs pre run post) {group rest : List Index}
    (hgroup : IsGroup ixs group rest) :
    group ~ run ∨ ∀ a ∈ run, ∀ b ∈ group, a.range.Before b.range := by
  by_cases hcommon : ∃ b ∈ group, b ∈ run
  · obtain ⟨b, hb, hrun⟩ := hcommon
    exact .inl (h.isGroup.perm_of_mem hgroup hrun hb)
  · right
    intro a ha b hb
    refine h.behind a ha b ?_
    have hmem := hgroup.mem_of_mem hb
    rw [h.eq] at hmem
    rcases mem_append.mp hmem with hpre | hmem
    · exact absurd hpre (h.not_mem_pre hgroup hb)
    rcases mem_append.mp hmem with hrun | hpost
    · exact absurd ⟨b, hb, hrun⟩ hcommon
    · exact hpost

end FirstGroup

end SizeTiered

end SeriesStore
