import SeriesStore.Proofs.Compaction.Cycles
import SeriesStore.Proofs.Compaction.Gathering
import SeriesStore.Proofs.Compaction.Windows
import SeriesStore.Proofs.Index.NewSegments

/-!
# Orders of listing

A data directory lists its indexes in any order. Whatever the order is, the same indexes are
planned, and their ranges come in the same order. Where several of them have the same range, these
may come in any order. What is merged from them then is the same, but for the order of chunks that
start together.
-/

namespace SeriesStore

open List Index

namespace TimeRange

variable {r s : TimeRange}

lemma listedBefore_antisymm (h : r.listedBefore s = true) (h' : s.listedBefore r = true) :
    r = s := by
  obtain ⟨a, b, hab⟩ := r
  obtain ⟨a', b', hab'⟩ := s
  simp only [listedBefore_iff, Int64.lt_iff_toInt_lt, Int64.le_iff_toInt_le,
    ← Int64.toInt_inj] at h h'
  have hstart : a = a' := Int64.toInt_inj.mp (by omega)
  have hstop : b = b' := Int64.toInt_inj.mp (by omega)
  subst hstart hstop
  rfl

lemma Before.not_listedBefore (h : r.Before s) : ¬s.listedBefore r = true := by
  intro hback
  exact Int64.not_lt.mpr (start_le_of_listedBefore hback) h.start_lt

lemma Before.listedBefore (h : r.Before s) : r.listedBefore s = true :=
  listedBefore_iff.mpr (.inl h.start_lt)

end TimeRange

namespace SizeTiered

open TimeRange

variable {s : SizeTiered} {ixs ixs' : List Index}

/-! ### Plans -/

/-- Where no indexes overlap, the sorted list does not depend on the order of listing. -/
lemma sorted_eq_of_apart (hapart : ixs.Pairwise Apart) (h : ixs ~ ixs') :
    sorted ixs = sorted ixs' := by
  obtain ⟨-, hbefore⟩ := free_of_apart ((h.pairwise_iff Apart.symm).mp hapart)
  refine sorted_eq_of_perm (h.trans (sorted_perm ixs').symm) ?_
  exact hbefore.imp fun hab => ⟨hab.listedBefore, hab.not_listedBefore⟩

/-- Where indexes overlap, the first group does not depend on the order of listing: of two groups,
each cannot lie behind the other. -/
lemma plan_perm_of_meet (htiers : s.tiers ≠ []) (hmeet : ¬ixs.Pairwise Apart) (h : ixs ~ ixs') :
    s.plan ixs ~ s.plan ixs' := by
  have hmeet' : ¬ixs'.Pairwise Apart := fun hapart =>
    hmeet ((h.pairwise_iff Apart.symm).mpr hapart)
  obtain ⟨left, hsafe⟩ := plan_safe s ixs
  obtain ⟨left', hsafe'⟩ := plan_safe s ixs'
  obtain ⟨hgroup, hfirst⟩ := hsafe.overlapping htiers hmeet
  obtain ⟨hgroup', hfirst'⟩ := hsafe'.overlapping htiers hmeet'
  rcases hfirst' _ _ (hgroup.of_perm h) with hsame | hbefore'
  · exact hsame
  rcases hfirst _ _ (hgroup'.of_perm h.symm) with hsame | hbefore
  · exact hsame.symm
  obtain ⟨a, ha⟩ := exists_mem_of_length_pos (Nat.lt_of_lt_of_le Nat.two_pos hgroup.several)
  obtain ⟨b, hb⟩ := exists_mem_of_length_pos (Nat.lt_of_lt_of_le Nat.two_pos hgroup'.several)
  have hab : a.range.Before b.range := hbefore a ha b hb
  have hba : b.range.Before a.range := hbefore' b hb a ha
  exact absurd hab.start_lt (Int64.lt_asymm hba.start_lt)

/-- The same indexes are planned. -/
lemma plan_perm (h : ixs ~ ixs') : s.plan ixs ~ s.plan ixs' := by
  by_cases htiers : s.tiers = []
  · have hnone (ixs : List Index) : s.plan ixs = [] := by simp [plan, htiers]
    rw [hnone ixs, hnone ixs']
  by_cases hapart : ixs.Pairwise Apart
  · rw [plan, plan, sorted_eq_of_apart hapart h, h.length_eq]
  · exact plan_perm_of_meet htiers hapart h

/-- The ranges of planned indexes come in the same order. -/
lemma map_range_plan (h : ixs ~ ixs') :
    (s.plan ixs).map (·.range) = (s.plan ixs').map (·.range) := by
  obtain ⟨left, hsafe⟩ := plan_safe s ixs
  obtain ⟨left', hsafe'⟩ := plan_safe s ixs'
  have hlisted : ((s.plan ixs).map (·.range)).Pairwise fun r r' => r.listedBefore r' = true :=
    pairwise_map.mpr hsafe.listed
  have hlisted' : ((s.plan ixs').map (·.range)).Pairwise fun r r' => r.listedBefore r' = true :=
    pairwise_map.mpr hsafe'.listed
  exact ((plan_perm h).map _).eq_of_pairwise (fun _ _ _ _ => listedBefore_antisymm) hlisted hlisted'

/-! ### Merges -/

variable {sources sources' : List Index} {new new' out : Index} {d d' d₁ d₁' : Disk}
  {r r' : Except StorageError Index}

/-- Two merges have the same chunks but for ties, or neither of them succeeds. Only an error of the
disk keeps one of them from succeeding where the other one does. -/
def Alike (d : Disk) (r : Except StorageError Index) (d' : Disk)
    (r' : Except StorageError Index) : Prop :=
  match r, r' with
  | .ok ix, .ok ix' => ∃ es es', SameButTies es es' ∧ Yields d ix es ∧ Yields d' ix' es'
  | .ok _, .error e | .error e, .ok _ => ∃ io, e = .io io
  | .error _, .error _ => True

lemma Alike.symm (h : Alike d r d' r') : Alike d' r' d r := by
  match r, r', h with
  | .ok _, .ok _, ⟨es, es', ⟨hperm, hstarts⟩, hyields, hyields'⟩ =>
    exact ⟨es', es, ⟨hperm.symm, hstarts.symm⟩, hyields', hyields⟩
  | .ok _, .error _, h => exact h
  | .error _, .ok _, h => exact h
  | .error _, .error _, h => exact h

/-- What has been merged from sources in one order is merged in every order, but for ties. -/
lemma alike_of_ok (hnone : new.segments = []) (hnone' : new'.segments = [])
    (hrange : new.range = new'.range) (hperm : sources ~ sources')
    (hagrees : ∀ ix ∈ sources, (chunks ix).Agrees d d')
    (hon : (compact sources new).on d = (.ok out, d₁))
    (hon' : (compact sources' new').on d' = (r', d₁')) : Alike d₁ (.ok out) d₁' r' := by
  obtain ⟨entries, hgathered⟩ := gathered_of_on_compact hon
  rw [hgathered.on_compact] at hon
  rw [(hgathered.of_perm hperm hrange hagrees).on_compact] at hon'
  have hsame := (arranges_byStart (sources.flatMap entries)).sameButTies
    (arranges_byStart (sources'.flatMap entries)) (hperm.flatMap_right entries)
  have hlast (ix : Index) (h : ix.segments = []) : ix.lastMin? = none := by
    rw [lastMin?, h]
    rfl
  obtain ⟨hcheck, hfits⟩ := checked_of_addChunks hon
  have hcheck' : check new'.range new'.lastMin? (byStart (sources'.flatMap entries)) = .ok () := by
    rw [hlast new' hnone', ← hrange]
    refine check_byStart fun e he => (check_eq_ok_iff.mp hcheck).1 e ?_
    rw [hsame.perm.mem_iff, (arranges_byStart _).perm.mem_iff]
    exact he
  have hfits' : Layout.oversized? (byStart (sources'.flatMap entries)) = none := by
    rw [Layout.oversized?_eq_none_iff] at hfits ⊢
    exact fun e he => hfits e (hsame.perm.mem_iff.mpr he)
  cases r' with
  | ok out' => exact ⟨_, _, hsame, yields_of_addChunks hnone hon, yields_of_addChunks hnone' hon'⟩
  | error e => exact failsByIo_addChunks hnone' hcheck' hfits' d' e d₁' hon'

/-- Merges of the same sources in two orders, into indexes without chunks that have the same range,
on disks on which the sources have the same chunks, are alike. -/
lemma alike_of_perm (hnone : new.segments = []) (hnone' : new'.segments = [])
    (hrange : new.range = new'.range) (hperm : sources ~ sources')
    (hagrees : ∀ ix ∈ sources, (chunks ix).Agrees d d')
    (hon : (compact sources new).on d = (r, d₁))
    (hon' : (compact sources' new').on d' = (r', d₁')) : Alike d₁ r d₁' r' := by
  cases r with
  | ok out => exact alike_of_ok hnone hnone' hrange hperm hagrees hon hon'
  | error e =>
    cases r' with
    | error e' => trivial
    | ok out' =>
      refine (alike_of_ok hnone' hnone hrange.symm hperm.symm (fun ix hix => ?_) hon' hon).symm
      obtain ⟨result, hchunks, hchunks'⟩ := hagrees ix (hperm.mem_iff.mpr hix)
      exact ⟨result, hchunks', hchunks⟩

/-- In whatever order indexes are listed, the same ones are planned, and the sequence of their
ranges is the same. When the plans are merged into indexes without chunks that have the same range,
the chunks differ at most in the order of those that start together. -/
theorem plan_compact_of_perm (s : SizeTiered) (h : ixs ~ ixs') : s.plan ixs ~ s.plan ixs'
    ∧ (s.plan ixs).map (·.range) = (s.plan ixs').map (·.range)
    ∧ ∀ (new new' : Index) (d d' : Disk), new.segments = [] → new'.segments = [] →
      new.range = new'.range → (∀ ix ∈ s.plan ixs, (chunks ix).Agrees d d') →
      Alike ((compact (s.plan ixs) new).on d).2 ((compact (s.plan ixs) new).on d).1
        ((compact (s.plan ixs') new').on d').2 ((compact (s.plan ixs') new').on d').1 := by
  refine ⟨plan_perm h, map_range_plan h, ?_⟩
  intro new new' d d' hnone hnone' hrange hagrees
  exact alike_of_perm hnone hnone' hrange (plan_perm h) hagrees rfl rfl

/-! ### Two chunks that start together -/

namespace Ties

open Engine

def dir : Path := ⟨["."]⟩

/-- Two chunks with the same bounds. -/
def chunk (payload : UInt8) : Entry := ⟨6, 6, ⟨.xor, [0, payload]⟩⟩

lemma range_valid : (5 : Int64) < 15 := by decide

lemma wide_valid : (0 : Int64) < 20 := by decide

/-- The contents of an index with one of the chunks. -/
def holding (payload : UInt8) : Contents :=
  (Command.add [chunk payload]).result (.empty ⟨1⟩ ⟨5, 15, range_valid⟩ .seconds .newYear)

def wide : Contents := .empty ⟨2⟩ ⟨0, 20, wide_valid⟩ .seconds .newYear

def target : String := directoryName ⟨4⟩

def tiers : SizeTiered := ⟨[2], 60000, .seconds⟩

def first : String × Contents := ("x", holding 0)

def second : String × Contents := ("y", holding 1)

/-- Two indexes with the same range stay in the order in which they are listed. -/
lemma plan_pair {ix iy : Index} (h : ix.range = iy.range) : tiers.plan [ix, iy] = [ix, iy] := by
  have hsorted : sorted [ix, iy] = [ix, iy] := by
    refine mergeSort_of_pairwise (pairwise_pair.mpr ?_)
    rw [h]
    exact listedBefore_iff.mpr (.inr ⟨rfl, Int64.le_refl _⟩)
  have hmeet : iy.range.start < ix.range.stop := by
    rw [h]
    exact iy.range.start_lt_stop
  rw [plan]
  simp [tiers, hsorted, overlaps, overlapsFrom, chain, hmeet]

lemma byStart_pair (a b : UInt8) : byStart [chunk a, chunk b] = [chunk a, chunk b] :=
  mergeSort_of_pairwise (pairwise_pair.mpr (decide_eq_true (Int64.le_refl _)))

lemma suits_chunk (payload : UInt8) : (Command.add [chunk payload]).Suits
    (.empty ⟨1⟩ ⟨5, 15, by decide⟩ .seconds .newYear) :=
  fun _ => ⟨rfl, rfl⟩

/-- The two indexes stand beside one without chunks. -/
lemma exists_stocked : ∃ d, Stocked d dir [] [second, first, (target, wide)] ∧ d.Calm
    ∧ ∀ file ∈ newNames 1, d.Accepts (dir / target) ([] ++ [target]) file := by
  have hfits := Overlap.fits_dot
  have hx := hfits.welcomes "x" (by simp)
  have hy := hfits.welcomes "y" (by simp)
  have hz := hfits.welcomes target (by simp [target])
  have hcalm : Overlap.start.Calm := fun _ _ => rfl
  obtain ⟨d₁, hon₁, hb₁, h₁⟩ := hfits.stocked.exists_on_create hcalm (by simp) hz
    ⟨0, 20, by decide⟩ .seconds ⟨2⟩ .newYear
  obtain ⟨d₂, hon₂, hb₂, h₂⟩ := h₁.exists_on_create (hb₁.calm hcalm) (by decide)
    (hx.beside hb₁ (by decide)) ⟨5, 15, by decide⟩ .seconds ⟨1⟩ .newYear
  have hcalm₂ := hb₂.calm (hb₁.calm hcalm)
  obtain ⟨d₃, hon₃, hb₃, h₃⟩ := h₂.exists_on_run hcalm₂ mem_cons_self
    (fun file hfile => hb₂.accepts (hb₁.accepts (hx.files file hfile))) (suits_chunk 0) (by decide)
  have hcalm₃ := hb₃.calm hcalm₂
  have hy₃ := ((hy.beside hb₁ (by decide)).beside hb₂ (by decide)).beside hb₃ (by decide)
  obtain ⟨d₄, hon₄, hb₄, h₄⟩ := h₃.exists_on_create hcalm₃ (by decide) hy₃
    ⟨5, 15, by decide⟩ .seconds ⟨1⟩ .newYear
  have hcalm₄ := hb₄.calm hcalm₃
  obtain ⟨d₅, hon₅, hb₅, h₅⟩ := h₄.exists_on_run hcalm₄ mem_cons_self
    (fun file hfile => hb₄.accepts (hy₃.files file hfile)) (suits_chunk 1) (by decide)
  refine ⟨d₅, h₅, hb₅.calm hcalm₄, fun file hfile => ?_⟩
  exact hb₅.accepts (hb₄.accepts (hb₃.accepts (hb₂.accepts (hb₁.accepts (hz.files file hfile)))))

/-- In both orders, the two indexes are merged into the one without chunks. -/
lemma exists_on_compact {d : Disk} (h : Stocked d dir [] [second, first, (target, wide)])
    (hcalm : d.Calm)
    (hfiles : ∀ file ∈ newNames 1, d.Accepts (dir / target) ([] ++ [target]) file)
    {l : List (String × Contents)} (hl : l ~ [first, second]) :
    ∃ ix d', (compact (l.map (named dir)) (named dir (target, wide))).on d = (.ok ix, d')
      ∧ (chunks ix).on d' = (.ok (byStart (entriesIn l)), d') := by
  have hmem : ∀ g ∈ l, g ∈ [second, first, (target, wide)] := by
    intro g hg
    have := hl.mem_iff.mp hg
    simp at this ⊢
    tauto
  have hcovers : ∀ g ∈ l, wide.range.covers g.2.range = true := by
    intro g hg
    rcases mem_pair.mp (hl.mem_iff.mp hg) with rfl | rfl <;> rfl
  have hsuits := suits_byStart ⟨2⟩ .seconds .newYear
    (fun g hg => (h.held g (hmem g hg)).sound) hcovers
  have hlength : (byStart (entriesIn l)).length = 2 := by
    rw [(arranges_byStart _).perm.length_eq, (entriesIn_perm hl).length_eq]
    rfl
  obtain ⟨d', hon, -, hst⟩ := h.exists_on_run (c := wide) hcalm (by simp) hfiles hsuits (by
    change 28 * (byStart (entriesIn l)).length < 2 ^ 32
    rw [hlength]
    decide)
  have hne : l ≠ [] := by
    rintro rfl
    cases hl.nil_eq
  have hmerge := (on_compact h hmem hne (named dir (target, wide)) hcovers).trans hon
  have hchunks := hst.on_chunks mem_cons_self
  rw [Command.entries_result] at hchunks
  exact ⟨_, d', hmerge, hchunks⟩

end Ties

/-- Two indexes with one chunk each are listed in both orders, and their chunks come in these orders
when they have been merged. -/
theorem plan_compact_of_perm_ties : ∃ (d : Disk) (ix iy new out out' : Index) (d₁ d₁' : Disk),
    (compact (Ties.tiers.plan [ix, iy]) new).on d = (.ok out, d₁)
      ∧ (compact (Ties.tiers.plan [iy, ix]) new).on d = (.ok out', d₁')
      ∧ (chunks out).on d₁ = (.ok [Ties.chunk 0, Ties.chunk 1], d₁)
      ∧ (chunks out').on d₁' = (.ok [Ties.chunk 1, Ties.chunk 0], d₁')
      ∧ SameButTies [Ties.chunk 0, Ties.chunk 1] [Ties.chunk 1, Ties.chunk 0] := by
  obtain ⟨d, hst, hcalm, hfiles⟩ := Ties.exists_stocked
  obtain ⟨out, d₁, hon, hchunks⟩ :=
    Ties.exists_on_compact hst hcalm hfiles (.refl [Ties.first, Ties.second])
  obtain ⟨out', d₁', hon', hchunks'⟩ :=
    Ties.exists_on_compact hst hcalm hfiles (.swap Ties.first Ties.second [])
  have hplan := @Ties.plan_pair (named Ties.dir Ties.first) (named Ties.dir Ties.second) rfl
  have hplan' := @Ties.plan_pair (named Ties.dir Ties.second) (named Ties.dir Ties.first) rfl
  rw [map_cons, map_singleton, ← hplan] at hon
  rw [map_cons, map_singleton, ← hplan'] at hon'
  -- the chunks in both orders are known, and they are alike
  obtain ⟨-, -, halike⟩ := plan_compact_of_perm Ties.tiers (.swap (named Ties.dir Ties.second)
    (named Ties.dir Ties.first) [])
  have hmerges := halike (named Ties.dir (Ties.target, Ties.wide))
    (named Ties.dir (Ties.target, Ties.wide)) d d rfl rfl rfl
    fun _ _ => agrees_chunks fun _ _ => rfl
  rw [hon, hon'] at hmerges
  obtain ⟨es, es', hsame, hyields, hyields'⟩ := hmerges
  obtain rfl := hyields.only _ _ hchunks
  obtain rfl := hyields'.only _ _ hchunks'
  have hes : byStart (entriesIn [Ties.first, Ties.second]) = [Ties.chunk 0, Ties.chunk 1] :=
    Ties.byStart_pair 0 1
  have hes' : byStart (entriesIn [Ties.second, Ties.first]) = [Ties.chunk 1, Ties.chunk 0] :=
    Ties.byStart_pair 1 0
  rw [hes] at hchunks hsame
  rw [hes'] at hchunks' hsame
  exact ⟨d, _, _, _, out, out', d₁, d₁', hon, hon', hchunks, hchunks', hsame⟩

end SizeTiered

end SeriesStore
