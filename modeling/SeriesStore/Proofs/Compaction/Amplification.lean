import SeriesStore.Proofs.Compaction.Succession

/-!
# Write amplification

A chunk is written again whenever the index that holds it is merged. Where indexes do not overlap,
that happens at most once for each width. A merge takes all that its window holds, but for the
newest index. What later merges put into this window again has to come from it, so the index with
the chunk stays the only one in it that is not the newest, and one index alone is not merged.
-/

namespace SeriesStore

open Index SeriesStore.Path SeriesStore.Tree

/-! ### One merge -/

namespace TimeRange

lemma Spans.unique {r r' : TimeRange} {rs : List TimeRange} (h : r.Spans rs) (h' : r'.Spans rs) :
    r = r' := by
  have hle {r r' : TimeRange} (h : r.Spans rs) (h' : r'.Spans rs) :
      r.start ≤ r'.start ∧ r'.stop ≤ r.stop := by
    obtain ⟨first, hfirst, hstart⟩ := h'.start
    obtain ⟨last, hlast, hstop⟩ := h'.stop
    rw [← hstart, ← hstop]
    exact ⟨(covers_iff.mp (h.covers first hfirst)).1, (covers_iff.mp (h.covers last hlast)).2⟩
  obtain ⟨hstart, hstop⟩ := hle h h'
  obtain ⟨hstart', hstop'⟩ := hle h' h
  have heq := Int64.le_antisymm hstart hstart'
  have heq' := Int64.le_antisymm hstop hstop'
  cases r
  cases r'
  simp_all

end TimeRange

namespace SizeTiered

variable {s : SizeTiered} {width width' t : Int64} {path target : Path} {ix ix' : Index}
  {ixs ixs' : List Index}

lemma eq_of_dir (hnodup : (ixs.map (·.dir)).Nodup) (hix : ix ∈ ixs) (hix' : ix' ∈ ixs)
    (hdir : ix.dir = ix'.dir) : ix = ix' := List.inj_on_of_nodup_map hnodup hix hix' hdir

lemma exists_of_mem_dirs (h : path ∈ (s.plan ixs).map (·.dir)) :
    ∃ ix ∈ ixs, ix ∈ s.plan ixs ∧ ix.dir = path := by
  obtain ⟨ix, hix, hdir⟩ := List.mem_map.mp h
  exact ⟨ix, (s.plan_subperm ixs).subset hix, hix, hdir⟩

lemma Selected.ne_nil (h : Selected s ixs width) : s.plan ixs ≠ [] :=
  List.length_pos_iff.mp (Nat.lt_of_lt_of_le Nat.two_pos h.several)

lemma Inside.of_spans {k : Int} {rs : List TimeRange} (h : Inside width k ix)
    (hspans : ix.range.Spans rs) (hmem : ix'.range ∈ rs) : Inside width k ix' := by
  obtain ⟨hstart, hstop⟩ := TimeRange.covers_iff.mp (hspans.covers _ hmem)
  exact ⟨h.1.trans (Int64.le_iff_toInt_le.mp hstart), (Int64.le_iff_toInt_le.mp hstop).trans h.2⟩

/-- What has followed an index, or a merge of several, is followed by another one only if they
were. -/
lemma followed_of_succeeds (h : Succeeds s target ixs ixs') (hrange : ix'.range = ix.range)
    (hfollowed : Followed ixs' ix') : Followed ixs ix := by
  obtain ⟨other', hother', hlt⟩ := hfollowed
  rw [hrange] at hlt
  rcases h.each other' hother' with ⟨-, hspans⟩ | ⟨other, hother, -, -, hsame⟩
  · obtain ⟨r, hr, hstart⟩ := hspans.start
    obtain ⟨planned, hplanned, rfl⟩ := List.mem_map.mp hr
    exact ⟨planned, (s.plan_subperm ixs).subset hplanned, hstart ▸ hlt⟩
  · exact ⟨other, hother, hsame ▸ hlt⟩

/-- Indexes that do not overlap are followed by such. -/
lemma pairwise_apart_of_succeeds (h : Succeeds s target ixs ixs') (hapart : ixs.Pairwise Apart)
    (hselected : Selected s ixs width) : ixs'.Pairwise Apart := by
  obtain ⟨left, hsafe⟩ := hselected.safe
  have hnew : ∀ a ∈ ixs', ∀ b ∈ ixs', a.range.Spans ((s.plan ixs).map (·.range)) →
      (∃ ix ∈ ixs, ix ∉ s.plan ixs ∧ b.dir = ix.dir ∧ b.range = ix.range) → Apart a b := by
    rintro a - b - hspans ⟨ix, hix, hnot, -, hrange⟩
    obtain ⟨first, more, hplanned⟩ := List.exists_cons_of_ne_nil hselected.ne_nil
    obtain ⟨range, hhull⟩ : ∃ range, hull? (s.plan ixs) = some range := by
      simp [hplanned, Index.hull?, TimeRange.hull?]
    have hleft : ix ∈ left :=
      (List.mem_append.mp (hsafe.perm.mem_iff.mpr hix)).resolve_left hnot
    have hdisjoint := hsafe.apart range hhull ix hleft
    rwa [(TimeRange.spans_of_hull? hhull).unique hspans, ← hrange] at hdisjoint
  have hnodup : ixs'.Pairwise fun a b => a.dir ≠ b.dir := List.pairwise_map.mp h.nodup
  refine hnodup.imp_of_mem fun {a b} ha hb hne => ?_
  rcases h.each a ha with ⟨htarget, hspans⟩ | hold <;>
    rcases h.each b hb with ⟨htarget', hspans'⟩ | hold'
  · exact absurd (htarget.trans htarget'.symm) hne
  · exact hnew a ha b hb hspans hold'
  · exact (hnew b hb a ha hspans' hold).symm
  · obtain ⟨ix, hix, -, hdir, hrange⟩ := hold
    obtain ⟨ix', hix', -, hdir', hrange'⟩ := hold'
    have : Std.Symm Apart := ⟨fun _ _ => Apart.symm⟩
    rw [Apart, hrange, hrange']
    refine hapart.forall hix hix' fun heq => hne ?_
    rw [hdir, hdir', heq]

/-! ### Windows that have been merged -/

/-- The index in a directory covers a timestamp. -/
def Holds (ixs : List Index) (path : Path) (t : Int64) : Prop :=
  ∀ ix ∈ ixs, ix.dir = path → ix.range.contains t = true

/-- The index in a directory covers a timestamp, and in the window of a width in which the timestamp
lies there is no other index but the newest one. -/
structure Settled (width t : Int64) (path : Path) (ixs : List Index) : Prop where
  holds : Holds ixs path t
  alone : ∀ ix ∈ ixs, Followed ixs ix → Inside width (slot width t) ix → ix.dir = path

lemma Holds.kept (h : Holds ixs path t) (hsucceeds : Succeeds s target ixs ixs')
    (hne : path ≠ target) : Holds ixs' path t := by
  rintro ix' hix' rfl
  rcases hsucceeds.each ix' hix' with ⟨htarget, -⟩ | ⟨ix, hix, -, hdir, hrange⟩
  · exact absurd htarget hne
  · rw [hrange]
    exact h ix hix hdir.symm

lemma Holds.moved (h : Holds ixs path t) (hsucceeds : Succeeds s target ixs ixs')
    (hpath : path ∈ (s.plan ixs).map (·.dir)) : Holds ixs' target t := by
  obtain ⟨old, hold, hplanned, rfl⟩ := exists_of_mem_dirs hpath
  intro ix' hix' hdir'
  rcases hsucceeds.each ix' hix' with ⟨-, hspans⟩ | ⟨ix, hix, -, hdir, -⟩
  · exact TimeRange.contains_of_covers (hspans.covers _ (List.mem_map_of_mem hplanned))
      (h old hold rfl)
  · exact absurd (hdir.symm.trans hdir') (hsucceeds.fresh ix hix)

namespace Settled

/-- The index stays alone in its window when others are merged, since their common range lies in no
window in which they do not lie. -/
lemma kept (h : Settled width t path ixs) (hsucceeds : Succeeds s target ixs ixs')
    (hselected : Selected s ixs width') (hpath : path ∉ (s.plan ixs).map (·.dir))
    (hne : path ≠ target) : Settled width t path ixs' where
  holds := h.holds.kept hsucceeds hne
  alone ix' hix' hfollowed hinside := by
    rcases hsucceeds.each ix' hix' with ⟨htarget, hspans⟩ | ⟨ix, hix, -, hdir, hrange⟩
    · obtain ⟨first, more, hplanned⟩ := List.exists_cons_of_ne_nil hselected.ne_nil
      have hfirst : first ∈ s.plan ixs := hplanned ▸ List.mem_cons_self
      obtain ⟨hmem, hfirst'⟩ := hselected.followed first hfirst
      have hsame := h.alone first hmem hfirst'
        (hinside.of_spans hspans (List.mem_map_of_mem hfirst))
      exact absurd (hsame ▸ List.mem_map_of_mem hfirst) hpath
    · rw [hdir]
      exact h.alone ix hix (followed_of_succeeds hsucceeds hrange hfollowed)
        (by rwa [Inside, hrange] at hinside)

/-- The index stays alone in its window when it is merged itself. -/
lemma moved (h : Settled width t path ixs) (hsucceeds : Succeeds s target ixs ixs')
    (hnodup : (ixs.map (·.dir)).Nodup) (hpath : path ∈ (s.plan ixs).map (·.dir)) :
    Settled width t target ixs' where
  holds := h.holds.moved hsucceeds hpath
  alone ix' hix' hfollowed hinside := by
    rcases hsucceeds.each ix' hix' with ⟨htarget, -⟩ | ⟨ix, hix, hnot, hdir, hrange⟩
    · exact htarget
    · obtain ⟨old, hold, hplanned, rfl⟩ := exists_of_mem_dirs hpath
      have hsame := h.alone ix hix (followed_of_succeeds hsucceeds hrange hfollowed)
        (by rwa [Inside, hrange] at hinside)
      exact absurd (eq_of_dir hnodup hix hold hsame ▸ hplanned) hnot

/-- An index that is alone in its window is not merged with the others there. -/
lemma not_selected (h : Settled width t path ixs) (hselected : Selected s ixs width)
    (haligns : ∀ ix ∈ ixs, Followed ixs ix → Aligns width ix.range.start)
    (hnodup : (ixs.map (·.dir)).Nodup) : path ∉ (s.plan ixs).map (·.dir) := by
  intro hpath
  obtain ⟨k, hwindow⟩ := hselected.window haligns
  obtain ⟨old, hold, hplanned, rfl⟩ := exists_of_mem_dirs hpath
  have hinside := (hwindow old hold (hselected.followed old hplanned).2).mp hplanned
  obtain rfl := hinside.slot_eq hselected.pos (h.holds old hold rfl)
  have hall : ∀ ix ∈ s.plan ixs, ix = old := by
    intro ix hix
    obtain ⟨hmem, hfollowed⟩ := hselected.followed ix hix
    exact eq_of_dir hnodup hmem hold
      (h.alone ix hmem hfollowed ((hwindow ix hmem hfollowed).mp hix))
  have hdistinct : (s.plan ixs).Nodup := by
    obtain ⟨left, hsafe⟩ := hselected.safe
    exact ((hsafe.perm.nodup_iff).mpr (List.Nodup.of_map _ hnodup)).of_append_left
  rw [List.eq_replicate_of_mem hall, List.nodup_replicate] at hdistinct
  have hseveral := hselected.several
  omega

end Settled

/-- A merge takes all that its window holds but the newest index. -/
lemma settled_of_selected (hselected : Selected s ixs width)
    (haligns : ∀ ix ∈ ixs, Followed ixs ix → Aligns width ix.range.start)
    (hsucceeds : Succeeds s target ixs ixs') (hholds : Holds ixs path t)
    (hpath : path ∈ (s.plan ixs).map (·.dir)) : Settled width t target ixs' where
  holds := hholds.moved hsucceeds hpath
  alone ix' hix' hfollowed hinside := by
    rcases hsucceeds.each ix' hix' with ⟨htarget, -⟩ | ⟨ix, hix, hnot, -, hrange⟩
    · exact htarget
    · obtain ⟨k, hwindow⟩ := hselected.window haligns
      obtain ⟨old, hold, hplanned, rfl⟩ := exists_of_mem_dirs hpath
      have hold' := (hwindow old hold (hselected.followed old hplanned).2).mp hplanned
      obtain rfl := hold'.slot_eq hselected.pos (hholds old hold rfl)
      exact absurd ((hwindow ix hix (followed_of_succeeds hsucceeds hrange hfollowed)).mpr
        (by rwa [Inside, hrange] at hinside)) hnot

/-- What the merges at some widths have left behind: the index in a directory covers a timestamp,
and is alone in the windows of these widths. -/
structure Spent (used : List Int64) (t : Int64) (path : Path) (ixs : List Index) : Prop where
  holds : Holds ixs path t
  settled : ∀ width ∈ used, Settled width t path ixs

namespace Spent

variable {used : List Int64}

lemma kept (h : Spent used t path ixs) (hsucceeds : Succeeds s target ixs ixs')
    (hselected : Selected s ixs width) (hpath : path ∉ (s.plan ixs).map (·.dir))
    (hne : path ≠ target) : Spent used t path ixs' where
  holds := h.holds.kept hsucceeds hne
  settled width' hused := (h.settled width' hused).kept hsucceeds hselected hpath hne

/-- A merge of the index adds its width. -/
lemma moved (h : Spent used t path ixs) (hsucceeds : Succeeds s target ixs ixs')
    (hselected : Selected s ixs width)
    (haligns : ∀ ix ∈ ixs, Followed ixs ix → Aligns width ix.range.start)
    (hnodup : (ixs.map (·.dir)).Nodup) (hpath : path ∈ (s.plan ixs).map (·.dir)) :
    Spent (width :: used) t target ixs' where
  holds := h.holds.moved hsucceeds hpath
  settled := by
    refine List.forall_mem_cons.mpr ⟨?_, fun width' hused => ?_⟩
    · exact settled_of_selected hselected haligns hsucceeds h.holds hpath
    · exact (h.settled width' hused).moved hsucceeds hnodup hpath

/-- The index is merged at another width than before. -/
lemma not_used (h : Spent used t path ixs) (hselected : Selected s ixs width)
    (haligns : ∀ ix ∈ ixs, Followed ixs ix → Aligns width ix.range.start)
    (hnodup : (ixs.map (·.dir)).Nodup) (hpath : path ∈ (s.plan ixs).map (·.dir)) : width ∉ used :=
  fun hused => (h.settled width hused).not_selected hselected haligns hnodup hpath

end Spent

/-! ### Merges one after the other -/

/-- What a cycle finds in a data directory, and where it puts a new index. -/
structure Stage where
  loaded : List Index
  target : Path

/-- The merges in which chunks take part that are in the index in a directory at first. With each of
them they move on to its new index. -/
def rewrites (s : SizeTiered) : Path → List Stage → List Stage
  | _, [] => []
  | path, m :: ms =>
    if path ∈ (s.plan m.loaded).map (·.dir) then m :: rewrites s m.target ms
    else rewrites s path ms

/-- The directory in which these chunks are at last. -/
def destination (s : SizeTiered) : Path → List Stage → Path
  | path, [] => path
  | path, m :: ms =>
    destination s (if path ∈ (s.plan m.loaded).map (·.dir) then m.target else path) ms

/-- The width for which a cycle merges. -/
def Stage.width? (m : Stage) (s : SizeTiered) : Option Int64 := s.width? m.loaded

/-- All windows of the width for which a cycle merges start at timestamps. -/
def Stage.Aligned (m : Stage) (s : SizeTiered) : Prop :=
  ∀ width, m.width? s = some width →
    ∀ ix ∈ m.loaded, Followed m.loaded ix → Aligns width ix.range.start

/-- No index is found that has not been found by the cycle before or made by it. -/
def NoneAdded (ms : List Stage) : Prop :=
  ms.IsChain fun m m' => ∀ ix ∈ m'.loaded, ix.dir = m.target ∨ ix.dir ∈ m.loaded.map (·.dir)

/-- Merges for different widths of the tiers behind the first, none of which has been used. -/
structure Unrepeated (s : SizeTiered) (used : List Int64) (ms : List Stage) : Prop where
  tiers : ∀ m ∈ ms, ∃ tier ∈ s.tiers.drop 1,
    m.width? s = some (s.resolution.ofHours tier) ∧ s.resolution.ofHours tier ∉ used
  nodup : (ms.map (·.width? s)).Nodup

lemma mem_of_width? (h : s.width? ixs = some width) :
    width ∈ (s.tiers.drop 1).map s.resolution.ofHours := by
  rw [SizeTiered.width?] at h
  split_ifs at h
  exact List.mem_of_find?_eq_some h

namespace Unrepeated

variable {used : List Int64} {m : Stage} {ms : List Stage}

lemma nil : Unrepeated s used [] := ⟨by simp, by simp⟩

lemma cons (h : Unrepeated s (width :: used) ms) (hm : m.width? s = some width)
    (hselected : Selected s ixs width) (hused : width ∉ used) : Unrepeated s used (m :: ms) where
  tiers := by
    refine List.forall_mem_cons.mpr ⟨?_, fun m' hm' => ?_⟩
    · obtain ⟨tier, htier, rfl⟩ := hselected.tier
      exact ⟨tier, htier, hm, hused⟩
    · obtain ⟨tier, htier, hwidth, hnot⟩ := h.tiers m' hm'
      exact ⟨tier, htier, hwidth, fun hmem => hnot (List.mem_cons_of_mem _ hmem)⟩
  nodup := by
    refine List.nodup_cons.mpr ⟨fun hmem => ?_, h.nodup⟩
    obtain ⟨m', hm', hsame⟩ := List.mem_map.mp hmem
    obtain ⟨tier, -, hwidth, hnot⟩ := h.tiers m' hm'
    obtain rfl := Option.some.inj (hwidth.symm.trans (hsame.trans hm))
    exact hnot List.mem_cons_self

/-- There are no more merges than tiers behind the first. -/
lemma length_le (h : Unrepeated s used ms) : ms.length ≤ (s.tiers.drop 1).length := by
  have hsub : ms.map (·.width? s)
      ⊆ (s.tiers.drop 1).map fun tier => some (s.resolution.ofHours tier) := by
    intro width hwidth
    obtain ⟨m, hm, rfl⟩ := List.mem_map.mp hwidth
    obtain ⟨tier, htier, hsome, -⟩ := h.tiers m hm
    exact List.mem_map.mpr ⟨tier, htier, hsome.symm⟩
  simpa using (h.nodup.subperm hsub).length_le

end Unrepeated

end SizeTiered

namespace Engine

open SizeTiered

variable {d d' : Disk} {dir path : Path} {s : SizeTiered} {ixs : List Index} {t : Int64}
  {runs : List (Engine × Origin)} {outs : List CycleOutcome}

/-- What cycles find one after the other. -/
def stages : List (Engine × Origin) → Disk → List Stage
  | [], _ => []
  | (e, o) :: runs, d =>
    ⟨((Index.load e.dataDir).on d).1.toOption.getD [], e.dataDir / directoryName o.dirId⟩
      :: stages runs ((e.cycle o).on d).2

lemma stages_cons {e : Engine} {o : Origin} {out : CycleOutcome} (h : Shows e.dataDir d ixs)
    (hon : (e.cycle o).on d = (.ok out, d')) : stages ((e, o) :: runs) d
      = ⟨ixs, e.dataDir / directoryName o.dirId⟩ :: stages runs d' := by
  rw [stages, h.on_load, hon]
  rfl

/-- Chunks that have been merged at some widths are not merged at one of them again. -/
lemma unrepeated_of_cycles {used : List Int64} (h : Shows dir d ixs) (hapart : ixs.Pairwise Apart)
    (hruns : Under dir (.sizeTiered s) runs) (hon : (cycles runs).on d = (.ok outs, d'))
    (hadded : NoneAdded (stages runs d)) (haligned : ∀ m ∈ stages runs d, m.Aligned s)
    (hcarries : Carries dir d path) (hspent : Spent used t path ixs) :
    Unrepeated s used (rewrites s path (stages runs d)) := by
  induction runs generalizing d ixs path outs used with
  | nil => exact .nil
  | cons run runs ih =>
    obtain ⟨e, o⟩ := run
    obtain ⟨hdir, hstrategy⟩ := hruns _ List.mem_cons_self
    obtain ⟨out, d₁, outs', hrun, hrest, -⟩ := on_cycles_cons hon
    dsimp only at hdir hstrategy hrun
    subst hdir
    rw [stages_cons h hrun] at hadded haligned ⊢
    obtain ⟨haligned, hlater⟩ := List.forall_mem_cons.mp haligned
    by_cases hnil : s.plan ixs = []
    · obtain ⟨out', hnothing⟩ :=
        on_cycle_of_plan_nil (o := o) (hnil ▸ on_plan_of_on_load h.on_load hstrategy)
      cases hrun.symm.trans hnothing
      rw [rewrites, if_neg (by simp [hnil])]
      exact ih h hapart hruns.of_cons hrest hadded.tail hlater hcarries hspent
    obtain ⟨width, hwidth, hselected⟩ := exists_selected hapart hnil
    obtain ⟨ixs', h', htarget, hkept, hsucceeds⟩ := succeeds_of_on_cycle h hstrategy hnil hrun
    -- the indexes that follow are looked at only if there is another cycle
    have hnext {path' : Path} {used' : List Int64} (hcarries' : Carries e.dataDir d₁ path')
        (hspent' : Succeeds s (e.dataDir / directoryName o.dirId) ixs ixs' →
          Spent used' t path' ixs') :
        Unrepeated s used' (rewrites s path' (stages runs d₁)) := by
      cases runs with
      | nil => exact .nil
      | cons run' runs' =>
        obtain ⟨e', o'⟩ := run'
        obtain ⟨hdir', -⟩ := hruns.of_cons _ List.mem_cons_self
        obtain ⟨out', d₂, outs₂, hrun', -, -⟩ := on_cycles_cons hrest
        dsimp only at hdir' hrun'
        have hsucceeded := hsucceeds (by
          rw [stages_cons (hdir' ▸ h') hrun'] at hadded
          exact hadded.rel)
        exact ih h' (pairwise_apart_of_succeeds hsucceeded hapart hselected) hruns.of_cons hrest
          hadded.tail hlater hcarries' (hspent' hsucceeded)
    have haligns := haligned width hwidth
    by_cases hpath : path ∈ (s.plan ixs).map (·.dir)
    · rw [rewrites, if_pos hpath]
      exact (hnext htarget fun hsucceeded =>
        hspent.moved hsucceeded hselected haligns h.nodup_dirs hpath).cons hwidth hselected
          (hspent.not_used hselected haligns h.nodup_dirs hpath)
    · rw [rewrites, if_neg hpath]
      obtain ⟨hne, hcarries'⟩ := hkept path hcarries hpath
      exact hnext hcarries' fun hsucceeded => hspent.kept hsucceeded hselected hpath hne

/-! ### Where chunks are -/

/-- The index in a directory has some chunks among its own. -/
def HasChunks (d : Disk) (dir path : Path) (es : List Entry) : Prop :=
  ∃ ixs, (Index.load dir).on d = (.ok ixs, d)
    ∧ ∃ ix ∈ ixs, ix.dir = path ∧ ∃ held, (Index.chunks ix).on d = (.ok held, d) ∧ es.Subperm held

section

variable {e : Engine} {o : Origin} {planned new others : List Index} {es : List Entry} {p : Place}
  {cs : List (String × Contents)}

lemma plan_of_exchanged (hload : (Index.load e.dataDir).on d = (.ok ixs, d))
    (hs : e.strategy = .sizeTiered s) (h : Exchanged e o d d' planned new others) :
    planned = s.plan ixs := by
  cases h.plan.symm.trans (on_plan_of_on_load hload hs)
  rfl

/-- Chunks are either left where they are or moved to the new index. -/
lemma HasChunks.exchanged (h : HasChunks d e.dataDir path es)
    (hload : (Index.load e.dataDir).on d = (.ok ixs, d)) (hnodup : (ixs.map (·.dir)).Nodup)
    (hs : e.strategy = .sizeTiered s) (hexchanged : Exchanged e o d d' planned new others) :
    HasChunks d' e.dataDir (if path ∈ (s.plan ixs).map (·.dir)
      then e.dataDir / directoryName o.dirId else path) es := by
  obtain ⟨_, hload', ix, hix, rfl, held, hheld, hsub⟩ := h
  cases hload.symm.trans hload'
  obtain ⟨_, hbefore, hperm⟩ := hexchanged.before
  cases hload.symm.trans hbefore
  obtain ⟨ixs', hafter, hperm'⟩ := hexchanged.after
  obtain rfl := plan_of_exchanged hload hs hexchanged
  refine ⟨ixs', hafter, ?_⟩
  split_ifs with hmem
  · -- the index has been merged, and the new one has its chunks
    obtain ⟨old, hold, hplanned, hdir⟩ := exists_of_mem_dirs hmem
    obtain rfl := eq_of_dir hnodup hold hix hdir
    have hreplaced := hexchanged.replaced
    rw [hs] at hreplaced
    generalize s.plan ixs = planned at hplanned hreplaced
    cases hreplaced with
    | nothing => cases hplanned
    | @sizeTiered _ first made more sources moved hidentity hrange hread hchunks harranged =>
      obtain ⟨-, hread⟩ := DiskM.forall₂_of_on_mapM (fun x y d₁ hon => by
        have hstill := still_chunks x d
        rw [hon] at hstill
        exact hstill.symm) hread
      obtain ⟨i, hi, rfl⟩ := List.getElem_of_mem hplanned
      have hi' : i < sources.length := hread.length_eq ▸ hi
      cases hheld.symm.trans (hread.get hi hi')
      refine ⟨made, hperm'.mem_iff.mpr (by simp), hidentity.1, _, hchunks, hsub.trans ?_⟩
      have hsource := (List.sublist_flatten_of_mem (List.get_mem sources ⟨i, hi'⟩)).subperm
      exact hsource.trans harranged.perm.symm.subperm
  · -- the index is still there
    have hothers : ix ∈ others := (List.mem_append.mp (hperm.mem_iff.mp hix)).resolve_left
      fun hplanned => hmem (List.mem_map_of_mem hplanned)
    obtain ⟨held', hheld', hstill⟩ := hexchanged.kept ix hothers
    cases hheld.symm.trans hheld'
    exact ⟨ix, hperm'.mem_iff.mpr (List.mem_append_right _ hothers), rfl, held, hstill, hsub⟩

/-- After any number of cycles chunks are in the directory to which the merges have moved them. -/
theorem hasChunks_of_cycles (h : Stocked d dir p cs) (hsmall : 28 * (entriesIn cs).length < 2 ^ 32)
    (hruns : Under dir (.sizeTiered s) runs) (hon : (cycles runs).on d = (.ok outs, d'))
    (hfound : d'.isDir dir = true) (hchunks : HasChunks d dir path es) :
    HasChunks d' dir (destination s path (stages runs d)) es := by
  induction runs generalizing d cs path outs with
  | nil =>
    cases hon
    exact hchunks
  | cons run runs ih =>
    obtain ⟨e, o⟩ := run
    obtain ⟨hdir, hstrategy⟩ := hruns _ List.mem_cons_self
    obtain ⟨out, d₁, outs', hrun, hfound₁, hrest⟩ :=
      on_cycles_cons_of_isDir (fun run hmem => (hruns run hmem).1) hon hfound
    dsimp only at hdir hstrategy hrun
    subst hdir
    obtain ⟨ixs, hkeeps⟩ := keeps_of_stocked h hsmall
    obtain ⟨cs₁, h₁, hperm, planned, new, others, hexchanged⟩ :=
      exchanged_of_on_cycle h hsmall hrun hfound₁
    have hmoved := hchunks.exchanged hkeeps.on_load hkeeps.nodup_dirs hstrategy hexchanged
    rw [stages, hkeeps.on_load, hrun, destination]
    exact ih h₁ (by rwa [hperm.length_eq]) hruns.of_cons hrest hmoved

/-- A cycle adds no index but the new one to those of a directory that can be worked with. -/
lemma Keeps.none_added (h : Keeps e.dataDir d ixs) (hs : e.strategy = .sizeTiered s)
    {out : CycleOutcome} (hon : (e.cycle o).on d = (.ok out, d')) :
    ∃ ixs', Keeps e.dataDir d' ixs' ∧ ∀ ix' ∈ ixs',
      ix'.dir = e.dataDir / directoryName o.dirId ∨ ix'.dir ∈ ixs.map (·.dir) := by
  cases h with
  | lost hmissing =>
    obtain rfl := on_cycle_of_not_isDir (by simpa using Disk.not_isDir_of_missing hmissing) hon
    exact ⟨[], .lost hmissing, by simp⟩
  | @stocked p cs _ h hsmall hload hperm =>
    have hcycled := (cycle_spec (o := o) h hsmall).result
    simp only [hon] at hcycled
    obtain ⟨hwork, hnode, -, hok⟩ := hcycled.ok out rfl
    by_cases hdir : d'.isDir e.dataDir = true
    · obtain ⟨cs', h', hperm, planned, new, others, hexchanged⟩ := hok hdir
      obtain ⟨_, hbefore, hbefore'⟩ := hexchanged.before
      cases hload.symm.trans hbefore
      obtain ⟨ixs', hafter, hafter'⟩ := hexchanged.after
      obtain ⟨gs, hload', hgs⟩ := h'.on_load
      cases hafter.symm.trans hload'
      refine ⟨_, .stocked h' (by rwa [hperm.length_eq]) hload' (hgs.map _), fun ix' hix' => ?_⟩
      rcases List.mem_append.mp (hafter'.mem_iff.mp hix') with hnew | hother
      · have hreplaced := hexchanged.replaced
        rw [hs] at hreplaced
        cases hreplaced with
        | nothing => cases hnew
        | sizeTiered _ hidentity =>
          obtain rfl := List.mem_singleton.mp hnew
          exact .inl hidentity.1
      · exact .inr (List.mem_map_of_mem (hbefore'.mem_iff.mpr (List.mem_append_right _ hother)))
    · exact ⟨[], .lost (h.finds.exists?_of_not_isDir hwork hnode (by simpa using hdir)), by simp⟩

/-- In a data directory that has been built, no indexes are added by cycles. -/
theorem noneAdded_of_cycles (h : Keeps dir d ixs) (hruns : Under dir (.sizeTiered s) runs)
    (hon : (cycles runs).on d = (.ok outs, d')) : NoneAdded (stages runs d) := by
  induction runs generalizing d ixs outs with
  | nil => exact .nil
  | cons run runs ih =>
    obtain ⟨e, o⟩ := run
    obtain ⟨hdir, hstrategy⟩ := hruns _ List.mem_cons_self
    obtain ⟨out, d₁, outs', hrun, hrest, -⟩ := on_cycles_cons hon
    dsimp only at hdir hstrategy hrun
    subst hdir
    obtain ⟨ixs', h', hadded⟩ := h.none_added hstrategy hrun
    have hlater := ih h' hruns.of_cons hrest
    rw [stages, h.on_load, hrun]
    cases runs with
    | nil => exact .singleton _
    | cons run' runs' =>
      obtain ⟨e', o'⟩ := run'
      obtain ⟨hdir', -⟩ := hruns.of_cons _ List.mem_cons_self
      dsimp only at hdir'
      rw [stages, hdir', h'.on_load] at hlater ⊢
      exact .cons_cons hadded hlater

end

/-! ### Three indexes side by side -/

namespace Neighbours

def here : Path := ⟨["."]⟩

open Overlap (chunk)

/-- The first two indexes fill a window of six hours. -/
def first : Contents := .empty ⟨1⟩ ⟨0, 10800, by decide⟩ .seconds .newYear

def second : Contents := .empty ⟨2⟩ ⟨10800, 21600, by decide⟩ .seconds .newYear

/-- The newest index, behind the window. -/
def newest : Contents := .empty ⟨3⟩ ⟨21600, 28800, by decide⟩ .seconds .newYear

/-- The first index with its chunk. -/
def filled : Contents := (Command.add [chunk]).result first

def tiers : SizeTiered := ⟨[2, 6], 60000, .seconds⟩

def engine : Engine where
  dataDir := here
  settings := { name := "", current := {} }
  listeners := { strategies := [.sizeTiered tiers], delegates := [some 0] }
  delegate := 0
  policy := 0

def origin : Origin := ⟨⟨4⟩, ⟨5⟩, .newYear⟩

def cycle : List (Engine × Origin) := [(engine, origin)]

/-- The names of all directories. -/
def names : List String := ["x", "y", "z", directoryName ⟨5⟩]

lemma isName_of_mem (name : String) (h : name ∈ names) : IsName name := by
  simp only [names, List.mem_cons, List.not_mem_nil, or_false] at h
  rcases h with rfl | rfl | rfl | rfl
  · exact ⟨by decide, by decide, by decide, by decide, by decide⟩
  · exact ⟨by decide, by decide, by decide, by decide, by decide⟩
  · exact ⟨by decide, by decide, by decide, by decide, by decide⟩
  · exact isName_directoryName _

lemma welcomes (name : String) (h : name ∈ names) : Welcomes {} here [] name := by
  have hroom : ∀ name ∈ names, here.hasRoom name = true
      ∧ ∀ file ∈ newNames 1, (⟨here.way ++ [name]⟩ : Path).hasRoom file = true := by decide
  refine ⟨isName_of_mem name h, (hroom name h).1, fun content => by simp [node?],
    fun file hfile => ⟨?_, by simp [node?]⟩⟩
  rw [div_eq here (isName_of_mem name h)]
  exact (hroom name h).2 file hfile

lemma stocked_start : Stocked {} here [] [] where
  finds := Overlap.finds_dot rfl
  nodup := .nil
  isName _ hname := nomatch hname
  keys := .nil
  held _ hg := nomatch hg
  bare _ _ := by simp [node?]

/-- The indexes are made, and the first one gets its chunk. -/
lemma exists_built : ∃ d, Built here d [chunk]
    ∧ Stocked d here [] [("z", newest), ("y", second), ("x", filled)]
    ∧ d.Calm ∧ d.workDir = [] ∧ Welcomes d here [] (directoryName ⟨5⟩) := by
  have hcalm : Disk.Calm {} := fun _ _ => rfl
  have hx := welcomes "x" (by simp [names])
  have hy := welcomes "y" (by simp [names])
  have hz := welcomes "z" (by simp [names])
  have hnew := welcomes (directoryName ⟨5⟩) (by simp [names])
  have hbuilt : Built here {} [] := .start stocked_start.finds stocked_start.nodup
    stocked_start.isName fun name => stocked_start.bare name (by simp)
  obtain ⟨d₁, hon₁, hb₁, h₁⟩ := stocked_start.exists_on_create hcalm (by simp) hx
    ⟨0, 10800, by decide⟩ .seconds ⟨1⟩ .newYear
  have hsuits : (Command.add [chunk]).Suits first := fun _ => ⟨by decide, by decide⟩
  obtain ⟨d₂, hon₂, hb₂, h₂⟩ := h₁.exists_on_run (hb₁.calm hcalm) (List.mem_singleton_self _)
    (fun file hfile => hb₁.accepts (hx.files file hfile)) hsuits (by decide)
  obtain ⟨d₃, hon₃, hb₃, h₃⟩ := h₂.exists_on_create (hb₂.calm (hb₁.calm hcalm)) (by simp)
    ((hy.beside hb₁ (by decide)).beside hb₂ (by decide)) ⟨10800, 21600, by decide⟩ .seconds ⟨2⟩
    .newYear
  obtain ⟨d₄, hon₄, hb₄, h₄⟩ := h₃.exists_on_create (hb₃.calm (hb₂.calm (hb₁.calm hcalm)))
    (by simp) (((hz.beside hb₁ (by decide)).beside hb₂ (by decide)).beside hb₃ (by decide))
    ⟨21600, 28800, by decide⟩ .seconds ⟨3⟩ .newYear
  refine ⟨d₄, ?_, h₄, hb₄.calm (hb₃.calm (hb₂.calm (hb₁.calm hcalm))), ?_, ?_⟩
  · have hopened := (h₁.held _ (List.mem_singleton_self _)).on_open
    exact .create (.create (.run (.add [chunk]) (.create hbuilt hx.isName hon₁) hx.isName hopened
      hon₂) hy.isName hon₃) hz.isName hon₄
  · rw [hb₄.workDir, hb₃.workDir, hb₂.workDir, hb₁.workDir]
  · exact (((hnew.beside hb₁ (by decide)).beside hb₂ (by decide)).beside hb₃ (by decide)).beside
      hb₄ (by decide)

/-- All directories are found and can be removed. -/
lemma exists_on_deleteAll {l : List (String × Contents)} (hcalm : d.Calm) (hwork : d.workDir = [])
    (hnodup : (l.map Prod.fst).Nodup) (hnames : ∀ g ∈ l, g.1 ∈ names)
    (hdirs : ∀ g ∈ l, d.tree.node? [g.1] = some .dir) :
    ∃ d', (deleteAll (l.map (named here))).on d = (.ok (), d') ∧ d'.workDir = [] := by
  induction l generalizing d with
  | nil => exact ⟨d, rfl, hwork⟩
  | cons g l ih =>
    obtain ⟨hname, hnames⟩ := List.forall_mem_cons.mp hnames
    obtain ⟨hdir, hdirs⟩ := List.forall_mem_cons.mp hdirs
    obtain ⟨hnot, hnodup⟩ := List.nodup_cons.mp hnodup
    have hfinds : d.Finds here [] := Overlap.finds_dot hwork
    obtain ⟨ix, d₁, hdelete, hwork₁, hcalm₁, hemptied, -⟩ := exists_on_delete hcalm hfinds
      (isName_of_mem _ hname) (welcomes _ hname).hasRoom hdir
    obtain ⟨d', hrest, hwork'⟩ := ih hcalm₁ (hwork₁.trans hwork) hnodup hnames fun g' hg' => by
      rw [hemptied.others, hdirs g' hg']
      rintro q hq hle
      obtain rfl := List.mem_singleton.mp hq
      have hsame : g.1 = g'.1 := by simpa using hle
      exact hnot (hsame ▸ List.mem_map_of_mem hg')
    refine ⟨d', ?_, hwork'⟩
    rw [List.map_cons, on_deleteAll_cons, hdelete]
    exact hrest

variable {gs : List (String × Contents)}

/-- The indexes in the order of their ranges. -/
def inOrder : List Index := [("x", filled), ("y", second), ("z", newest)].map (named here)

lemma sorted_eq (h : gs.Perm [("z", newest), ("y", second), ("x", filled)]) :
    sorted (gs.map (named here)) = inOrder := by
  refine sorted_eq_of_perm ((h.trans (List.reverse_perm _).symm).map _) ?_
  unfold Listed
  decide

lemma plan_eq (h : gs.Perm [("z", newest), ("y", second), ("x", filled)]) :
    tiers.plan (gs.map (named here)) = [("x", filled), ("y", second)].map (named here) := by
  have hwindows : windows 21600 ([("x", filled), ("y", second)].map (named here))
      = [[("x", filled), ("y", second)].map (named here)] :=
    windows_eq_singleton rfl (by decide +kernel)
  have hgroup : groupOfWidth? 21600 ([("x", filled), ("y", second)].map (named here))
      = some ([("x", filled), ("y", second)].map (named here)) := by
    rw [groupOfWidth?, hwindows]
    rfl
  have hwidth : tiers.resolution.ofHours 6 = 21600 := by decide +kernel
  have hlength : (gs.map (named here)).length = 3 := by rw [List.length_map, h.length_eq]; rfl
  have hgrouped : tiers.grouped inOrder.dropLast
      = [("x", filled), ("y", second)].map (named here) := by
    rw [SizeTiered.grouped]
    change (([6].findSome? fun tier => groupOfWidth? (tiers.resolution.ofHours tier)
      ([("x", filled), ("y", second)].map (named here))).getD []) = _
    rw [List.findSome?_cons, hwidth, hgroup]
    rfl
  have hnone : overlaps inOrder = [] := by decide
  rw [SizeTiered.plan, if_neg (by rw [hlength]; decide), sorted_eq h]
  simp only [hnone, hgrouped]

lemma apart (h : gs.Perm [("z", newest), ("y", second), ("x", filled)]) :
    (gs.map (named here)).Pairwise Apart := by
  refine ((h.map (named here)).pairwise_iff Apart.symm).mpr ?_
  unfold Apart
  decide

lemma aligned (h : gs.Perm [("z", newest), ("y", second), ("x", filled)]) (target : Path) :
    (Stage.mk (gs.map (named here)) target).Aligned tiers := by
  intro width hwidth ix hix _
  have hwidth' : width = tiers.resolution.ofHours 6 := by simpa [tiers] using mem_of_width? hwidth
  obtain rfl : width = 21600 := hwidth'.trans (by decide +kernel)
  have haligns : ∀ g ∈ [("z", newest), ("y", second), ("x", filled)],
      Aligns 21600 (named here g).range.start := by
    unfold Aligns
    decide +kernel
  obtain ⟨g, hg, rfl⟩ := List.mem_map.mp hix
  exact haligns g (h.mem_iff.mp hg)

/-- The first two indexes are merged. -/
lemma exists_on_cycle (h : Stocked d here [] [("z", newest), ("y", second), ("x", filled)])
    (hcalm : d.Calm) (hwork : d.workDir = []) (hnew : Welcomes d here [] (directoryName ⟨5⟩)) :
    ∃ out d', (engine.cycle origin).on d = (.ok out, d') ∧ d'.workDir = [] := by
  obtain ⟨gs, hload, hgs⟩ := h.on_load
  have hplan := on_plan_of_on_load (e := engine) hload rfl
  rw [plan_eq hgs] at hplan
  obtain ⟨range, hspans, hcycle⟩ := exists_on_cycle_sizeTiered (o := origin) rfl hplan
  have hfew : 28 * [chunk].length < 2 ^ 32 := by decide
  obtain ⟨new, d₁, hfill, hb⟩ := exists_on_fillNew (o := origin)
    (l := [("x", filled), ("y", second)]) h hcalm (by simp) (by simp) hspans hfew .seconds hnew
    (by decide)
  obtain ⟨d₂, hdelete, hwork'⟩ := exists_on_deleteAll (l := [("x", filled), ("y", second)])
    (hb.calm hcalm) (hb.workDir.trans hwork) (by simp) (by simp [names]) fun g hg =>
      hb.dirs _ (h.held g (by simp at hg ⊢; tauto)).leadsTo.isDir
  rw [mergeIntoNew_eq, bind_assoc] at hcycle
  have hdone := hcycle.trans (DiskM.on_bind_ok hfill)
  rw [bind_assoc] at hdone
  exact ⟨_, d₂, hdone.trans (DiskM.on_bind_ok hdelete), hwork'⟩

end Neighbours

/-- In a data directory whose indexes do not overlap, and to which none are added, cycles of size
tiers that succeed merge the chunks of each index at most once for every tier behind the first. In a
directory that has been built, these chunks are at last where their merges have put them. -/
theorem cycles_rewrite_once {p : Place} (horderly : Orderly d dir p)
    (hload : (Index.load dir).on d = (.ok ixs, d)) (hapart : ixs.Pairwise Apart)
    (hruns : Under dir (.sizeTiered s) runs) (hon : (cycles runs).on d = (.ok outs, d'))
    (hadded : NoneAdded (stages runs d)) (haligned : ∀ m ∈ stages runs d, m.Aligned s) :
    ∀ ix ∈ ixs,
      (∀ m ∈ rewrites s ix.dir (stages runs d), ∃ tier ∈ s.tiers.drop 1,
        m.width? s = some (s.resolution.ofHours tier))
      ∧ ((rewrites s ix.dir (stages runs d)).map (·.width? s)).Nodup
      ∧ (rewrites s ix.dir (stages runs d)).length ≤ (s.tiers.drop 1).length
      ∧ ∀ accepted es, Built dir d accepted → 28 * accepted.length < 2 ^ 32 → d'.isDir dir = true →
        (Index.chunks ix).on d = (.ok es, d) →
        HasChunks d' dir (destination s ix.dir (stages runs d)) es := by
  intro ix hix
  have h : Shows dir d ixs := .orderly horderly hload
  have hholds : Holds ixs ix.dir ix.range.start := by
    intro ix' hix' hdir
    obtain rfl := eq_of_dir h.nodup_dirs hix' hix hdir
    simp [TimeRange.contains, ix'.range.start_lt_stop]
  have hunrepeated : Unrepeated s [] (rewrites s ix.dir (stages runs d)) :=
    unrepeated_of_cycles h hapart hruns hon hadded haligned (h.carries ix hix)
      ⟨hholds, by simp⟩
  refine ⟨fun m hm => ?_, hunrepeated.nodup, hunrepeated.length_le, ?_⟩
  · obtain ⟨tier, htier, hwidth, -⟩ := hunrepeated.tiers m hm
    exact ⟨tier, htier, hwidth⟩
  · intro accepted es hbuilt hsmall hfound hchunks
    obtain ⟨p', cs, hstocked, hperm⟩ := hbuilt.stocked hsmall
    exact hasChunks_of_cycles hstocked (by rwa [hperm.length_eq]) hruns hon hfound
      ⟨ixs, hload, ix, hix, rfl, es, hchunks, .refl _⟩

/-- Of three neighbours the first two are merged. The chunk of the first one moves to the new
index. -/
theorem cycles_rewrite_once_neighbours : ∃ (d d' : Disk) (outs : List CycleOutcome) (ix : Index),
    Built Neighbours.here d [Overlap.chunk]
    ∧ (Index.chunks ix).on d = (.ok [Overlap.chunk], d)
    ∧ (cycles Neighbours.cycle).on d = (.ok outs, d')
    ∧ (∀ m ∈ rewrites Neighbours.tiers ix.dir (stages Neighbours.cycle d),
      ∃ tier ∈ Neighbours.tiers.tiers.drop 1,
        m.width? Neighbours.tiers = some (Neighbours.tiers.resolution.ofHours tier))
    ∧ (rewrites Neighbours.tiers ix.dir (stages Neighbours.cycle d)).length = 1
    ∧ HasChunks d' Neighbours.here (Neighbours.here / directoryName ⟨5⟩) [Overlap.chunk] := by
  obtain ⟨d, hbuilt, hst, hcalm, hwork, hnew⟩ := Neighbours.exists_built
  obtain ⟨out, d', hcycle, hwork'⟩ := Neighbours.exists_on_cycle hst hcalm hwork hnew
  obtain ⟨gs, hload, hgs⟩ := hst.on_load
  have hcycles : (cycles Neighbours.cycle).on d = (.ok [out], d') := on_cycles_single hcycle
  have horderly : Orderly d Neighbours.here [] := ⟨hst.finds, hst.nodup, hst.isName⟩
  have hstages : stages Neighbours.cycle d
      = [⟨gs.map (named Neighbours.here), Neighbours.here / directoryName ⟨5⟩⟩] :=
    stages_cons (.orderly horderly hload) hcycle
  have hmerged : (named Neighbours.here ("x", Neighbours.filled)).dir
      ∈ (Neighbours.tiers.plan (gs.map (named Neighbours.here))).map (·.dir) := by
    rw [Neighbours.plan_eq hgs]
    exact List.mem_cons_self
  have hix : named Neighbours.here ("x", Neighbours.filled) ∈ gs.map (named Neighbours.here) :=
    List.mem_map_of_mem (hgs.mem_iff.mpr (by simp))
  have hchunks : (Index.chunks (named Neighbours.here ("x", Neighbours.filled))).on d
      = (.ok [Overlap.chunk], d) := hst.on_chunks (by simp)
  have hfound : d'.isDir Neighbours.here = true :=
    Disk.isDir_iff.mpr ⟨[], Overlap.finds_dot hwork'⟩
  have hruns : Under Neighbours.here (.sizeTiered Neighbours.tiers) Neighbours.cycle :=
    List.forall_mem_singleton.mpr ⟨rfl, rfl⟩
  obtain ⟨_, hkeeps⟩ := keeps_of_stocked hst (by decide)
  have haligned : ∀ m ∈ stages Neighbours.cycle d, m.Aligned Neighbours.tiers := by
    rw [hstages]
    exact List.forall_mem_singleton.mpr (Neighbours.aligned hgs _)
  obtain ⟨htiers, -, -, hmoved⟩ := cycles_rewrite_once horderly hload (Neighbours.apart hgs) hruns
    hcycles (noneAdded_of_cycles hkeeps hruns hcycles) haligned _ hix
  have hhas := hmoved _ _ hbuilt (by decide) hfound hchunks
  refine ⟨d, d', [out], _, hbuilt, hchunks, hcycles, htiers, ?_, ?_⟩
  · simp only [hstages, rewrites, hmerged, if_true, List.length_singleton]
  · simpa only [hstages, destination, hmerged, if_true] using hhas

end Engine

end SeriesStore
