import SeriesStore.Proofs.Compaction.Cycles
import SeriesStore.Proofs.Compaction.Groups
import SeriesStore.Proofs.Index.Relisting

/-!
# Convergence

Under one strategy there is only so much to merge. Each cycle that merges something leaves one index
fewer, or one index fewer with too many segments. Once nothing is planned, nothing changes any more.
-/

namespace SeriesStore

open Index

/-! ### What is left to merge -/

namespace SizeTiered

open TimeRange

/-- If anything is planned, then several indexes. Where there are tiers, it is only when no indexes
overlap that nothing is planned. -/
lemma plan_cases (s : SizeTiered) (ixs : List Index) :
    s.plan ixs = [] ∧ (s.tiers = [] ∨ ixs.Pairwise Apart) ∨ 2 ≤ (s.plan ixs).length := by
  rw [plan]
  split_ifs with hnone
  · refine .inl ⟨rfl, ?_⟩
    rcases (Bool.or_eq_true _ _).mp hnone with htiers | hfew
    · exact .inl (List.isEmpty_iff.mp htiers)
    · have hlength := of_decide_eq_true hfew
      exact .inr (List.pairwise_iff_getElem.mpr fun i j hi hj hij => by omega)
  rcases overlaps_cases (pairwise_sorted ixs) with ⟨hfree, hbefore⟩ | ⟨pre, post, hgroup⟩
  · have hapart : ixs.Pairwise Apart :=
      ((sorted_perm ixs).pairwise_iff Apart.symm).mp (hbefore.imp Before.not_overlaps)
    simp only [hfree]
    rcases s.grouped_cases (sorted ixs).dropLast with hempty | ⟨tier, -, hwindow⟩
    · exact .inl ⟨hempty, .inr hapart⟩
    · exact .inr (groupOfWidth?_eq_some hwindow).2.2
  · have hseveral := hgroup.several
    cases hrun : overlaps (sorted ixs) with
    | nil => simp [hrun] at hseveral
    | cons ix rest =>
      rw [hrun] at hseveral
      simp only [hrun]
      exact .inr hseveral

end SizeTiered

namespace Strategy

/-- A bound for the number of cycles that can still merge something. -/
def mergesLeft (s : Strategy) (ixs : List Index) : Nat :=
  match s with
  | sizeTiered _ => ixs.length - 1
  | forceMerge s => ixs.countP fun ix => s.target.toNat < ix.segments.length
  | noop => 0

/-- The number of cycles that can merge something in a directory of `n` indexes. -/
def mostMerges (s : Strategy) (n : Nat) : Nat :=
  match s with
  | sizeTiered _ => n - 1
  | forceMerge _ => n
  | noop => 0

lemma mergesLeft_le (s : Strategy) (ixs : List Index) :
    s.mergesLeft ixs ≤ s.mostMerges ixs.length := by
  cases s with
  | sizeTiered s => exact le_rfl
  | forceMerge s => exact List.countP_le_length
  | noop => exact le_rfl

lemma mergesLeft_pos {s : Strategy} {ixs : List Index} (h : s.plan ixs ≠ []) :
    0 < s.mergesLeft ixs := by
  cases s with
  | sizeTiered s =>
    rcases s.plan_cases ixs with ⟨hnil, -⟩ | hseveral
    · exact absurd hnil h
    · have hle := (s.plan_subperm ixs).length_le
      simp only [mergesLeft]
      omega
  | forceMerge s =>
    rcases s.plan_eq ixs with hnil | ⟨ix, hix, -, hmore⟩
    · exact absurd hnil h
    · exact List.countP_pos_iff.mpr ⟨ix, hix, by simpa using hmore⟩
  | noop => exact absurd rfl h

/-- How a merge gets nearer to the end: there are fewer indexes, or one of them has fewer
segments. -/
inductive Lowers (ixs ixs' : List Index) : Strategy → Prop
  | sizeTiered (s : SizeTiered) (fewer : ixs'.length < ixs.length) : Lowers ixs ixs' (.sizeTiered s)
  | forceMerge (s : ForceMerge) {old new : Index} {others : List Index} (plan : s.plan ixs = [old])
    (before : ixs.Perm (old :: others)) (after : ixs'.Perm (new :: others))
    (same : new.dir = old.dir ∧ new.id = old.id) (many : s.target.toNat < old.segments.length)
    (few : new.segments.length = s.target.toNat) : Lowers ixs ixs' (.forceMerge s)

lemma Lowers.mergesLeft_lt {s : Strategy} {ixs ixs' : List Index} (h : Lowers ixs ixs' s)
    (hplan : s.plan ixs ≠ []) : s.mergesLeft ixs' < s.mergesLeft ixs := by
  have hpos := mergesLeft_pos hplan
  cases h with
  | sizeTiered s hfewer =>
    simp only [mergesLeft] at hpos ⊢
    omega
  | forceMerge s hplan hbefore hafter hsame hmany hfew =>
    simp only [mergesLeft, hbefore.countP_eq, hafter.countP_eq, List.countP_cons, hmany, hfew]
    simp

end Strategy

namespace Engine

open SeriesStore.Path SeriesStore.Tree

variable {d d' d'' : Disk} {dir : Path} {p : Place} {cs : List (String × Contents)}
  {ixs ixs' planned new others : List Index} {e : Engine} {o : Origin} {s : Strategy}
  {out : CycleOutcome} {outs : List CycleOutcome} {runs : List (Engine × Origin)}

/-! ### One cycle -/

lemma planned_of_on_cycle (hplan : e.plan.on d = (.ok planned, d))
    (hon : (e.cycle o).on d = (.ok out, d')) : out.planned = planned.map (·.id) := by
  rw [cycle, DiskM.on_bind_ok hplan] at hon
  simp only at hon
  split at hon
  · obtain ⟨_, _, -, hpure⟩ := DiskM.on_bind_eq_ok hon
    cases hpure
    rfl
  · obtain ⟨_, _, -, hpure⟩ := DiskM.on_bind_eq_ok hon
    cases hpure
    rfl
  · cases hon
    rfl

/-- An exchange of planned indexes leaves less to merge. -/
lemma Exchanged.lowers (h : Exchanged e o d d' planned new others) (hne : planned ≠ [])
    (hload : (Index.load e.dataDir).on d = (.ok ixs, d))
    (hload' : (Index.load e.dataDir).on d' = (.ok ixs', d')) :
    e.strategy.Lowers ixs ixs' := by
  have hplan : e.plan.on d = (.ok (e.strategy.plan ixs), d) := DiskM.on_bind_ok hload
  have heq : e.strategy.plan ixs = planned := by
    have heq := hplan.symm.trans h.plan
    cases heq
    rfl
  obtain ⟨_, hbefore, hperm⟩ := h.before
  obtain ⟨_, hafter, hperm'⟩ := h.after
  cases hload.symm.trans hbefore
  cases hload'.symm.trans hafter
  have hreplaced := h.replaced
  generalize e.strategy = s at heq hreplaced
  cases hreplaced with
  | nothing => exact absurd rfl hne
  | sizeTiered s hidentity hrange hread hchunks harranged =>
    refine .sizeTiered s ?_
    rcases s.plan_cases ixs with ⟨hnil, -⟩ | hseveral
    · exact absurd (heq.symm.trans hnil) hne
    · rw [show s.plan ixs = _ from heq] at hseveral
      simp only [hperm.length_eq, hperm'.length_eq, List.length_append] at hseveral ⊢
      simp only [List.length_cons, List.length_nil] at hseveral ⊢
      omega
  | forceMerge s hidentity hread hchunks hsegments =>
    rcases s.plan_eq ixs with hnil | ⟨ix, -, hone, hmany⟩
    · exact absurd (heq.symm.trans hnil) hne
    · cases (heq.symm.trans hone : [_] = [ix])
      exact .forceMerge s hone hperm hperm' ⟨hidentity.1, hidentity.2.1⟩ hmany hsegments

/-- A data directory that can be worked with and holds these indexes, or one that is not found any
more. -/
inductive Keeps (dir : Path) (d : Disk) : List Index → Prop
  | stocked {p : Place} {cs : List (String × Contents)} {ixs : List Index} (h : Stocked d dir p cs)
    (small : 28 * (entriesIn cs).length < 2 ^ 32) (load : (Index.load dir).on d = (.ok ixs, d))
    (perm : ixs.Perm (cs.map (named dir))) : Keeps dir d ixs
  | lost (missing : d.exists? dir = false) : Keeps dir d []

lemma keeps_of_stocked (h : Stocked d dir p cs) (hsmall : 28 * (entriesIn cs).length < 2 ^ 32) :
    ∃ ixs, Keeps dir d ixs := by
  obtain ⟨gs, hload, hgs⟩ := h.on_load
  exact ⟨_, .stocked h hsmall hload (hgs.map _)⟩

namespace Keeps

lemma on_load (h : Keeps dir d ixs) : (Index.load dir).on d = (.ok ixs, d) := by
  cases h with
  | stocked h hsmall hload hperm => exact hload
  | lost hmissing => exact on_load_of_not_exists hmissing

lemma on_plan (h : Keeps e.dataDir d ixs) : e.plan.on d = (.ok (e.strategy.plan ixs), d) :=
  DiskM.on_bind_ok h.on_load

/-- Different indexes stand in different directories. -/
lemma nodup_dirs (h : Keeps dir d ixs) : (ixs.map (·.dir)).Nodup := by
  cases h with
  | lost hmissing => exact .nil
  | stocked h hsmall hload hperm => exact h.catalogued.nodup_dirs hload

/-- A cycle either finds nothing to merge and changes nothing, or leaves less to merge. -/
lemma cycle (h : Keeps e.dataDir d ixs) (hon : (e.cycle o).on d = (.ok out, d')) :
    out.isEmpty = true ∧ e.strategy.plan ixs = [] ∧ d' = d
    ∨ out.isEmpty = false ∧ e.strategy.plan ixs ≠ []
      ∧ ∃ ixs', Keeps e.dataDir d' ixs' ∧ e.strategy.Lowers ixs ixs' := by
  have hplan := h.on_plan
  have hplanned := planned_of_on_cycle hplan hon
  by_cases hnil : e.strategy.plan ixs = []
  · refine .inl ⟨by simp [CycleOutcome.isEmpty, hplanned, hnil], hnil, ?_⟩
    rw [hnil] at hplan
    obtain ⟨out', hon'⟩ := on_cycle_of_plan_nil (o := o) hplan
    cases hon.symm.trans hon'
    rfl
  refine .inr ⟨by simpa [CycleOutcome.isEmpty, hplanned] using hnil, hnil, ?_⟩
  cases h with
  | lost hmissing => exact absurd (List.subperm_nil.mp (e.strategy.plan_subperm [])) hnil
  | @stocked p cs _ h hsmall hload hperm =>
    have hcycled := (cycle_spec (o := o) h hsmall).result
    simp only [hon] at hcycled
    obtain ⟨hwork, hnode, hinPlace, hok⟩ := hcycled.ok out rfl
    by_cases hdir : d'.isDir e.dataDir = true
    · obtain ⟨cs', h', hperm', planned, new, others, hexchanged⟩ := hok hdir
      obtain ⟨gs', hload', hgs'⟩ := h'.on_load
      have hne : planned ≠ [] := by
        cases hplan.symm.trans hexchanged.plan
        exact hnil
      exact ⟨_, .stocked h' (by rwa [hperm'.length_eq]) hload' (hgs'.map _),
        hexchanged.lowers hne hload hload'⟩
    · -- only a merge into a new index removes a directory on the way
      have hmissing := h.finds.exists?_of_not_isDir hwork hnode (by simpa using hdir)
      refine ⟨[], .lost hmissing, ?_⟩
      have hpos := List.length_pos_iff.mpr hnil
      have hle := (e.strategy.plan_subperm ixs).length_le
      generalize e.strategy = s at hinPlace hnil hpos hle
      cases s with
      | sizeTiered s => exact .sizeTiered s (Nat.lt_of_lt_of_le hpos hle)
      | forceMerge s => exact absurd (hinPlace rfl) hdir
      | noop => exact absurd rfl hnil

end Keeps

/-! ### Cycles one after the other -/

/-- The runs are those of engines for one data directory under one strategy. -/
def Under (dir : Path) (s : Strategy) (runs : List (Engine × Origin)) : Prop :=
  ∀ run ∈ runs, run.1.dataDir = dir ∧ run.1.strategy = s

lemma Under.of_cons {run : Engine × Origin} (h : Under dir s (run :: runs)) : Under dir s runs := by
  intro run' hrun'
  exact h run' (List.mem_cons_of_mem _ hrun')

namespace Keeps

/-- Where nothing is planned, no cycle changes anything. -/
lemma cycles_of_plan_nil (h : Keeps dir d ixs) (hnil : s.plan ixs = []) (hruns : Under dir s runs)
    (hon : (cycles runs).on d = (.ok outs, d')) :
    d' = d ∧ outs.map (·.isEmpty) = List.replicate outs.length true := by
  induction runs generalizing outs with
  | nil =>
    cases hon
    exact ⟨rfl, rfl⟩
  | cons run runs ih =>
    obtain ⟨out, d₁, outs', hrun, hrest, rfl⟩ := on_cycles_cons hon
    obtain ⟨rfl, rfl⟩ := hruns run List.mem_cons_self
    rcases h.cycle hrun with ⟨hempty, -, rfl⟩ | ⟨-, hne, -⟩
    · obtain ⟨hsame, houts⟩ := ih hruns.of_cons hrest
      exact ⟨hsame, by simp [hempty, houts, List.replicate_succ]⟩
    · exact absurd hnil hne

/-- Cycles that merge something come first, and each leaves less to merge. -/
lemma cycles (h : Keeps dir d ixs) (hruns : Under dir s runs)
    (hon : (cycles runs).on d = (.ok outs, d')) :
    ∃ k ixs', Keeps dir d' ixs' ∧ Relation.ReflTransGen s.Lowers ixs ixs'
      ∧ outs.map (·.isEmpty) = List.replicate k false ++ List.replicate (outs.length - k) true
      ∧ k + s.mergesLeft ixs' ≤ s.mergesLeft ixs ∧ (k < outs.length → s.plan ixs' = []) := by
  induction runs generalizing d ixs outs with
  | nil =>
    cases hon
    exact ⟨0, ixs, h, .refl, rfl, by simp, by simp⟩
  | cons run runs ih =>
    by_cases hnil : s.plan ixs = []
    · obtain ⟨rfl, houts⟩ := h.cycles_of_plan_nil hnil hruns hon
      exact ⟨0, ixs, h, .refl, by simpa using houts, by simp, fun _ => hnil⟩
    obtain ⟨out, d₁, outs', hrun, hrest, rfl⟩ := on_cycles_cons hon
    obtain ⟨rfl, rfl⟩ := hruns run List.mem_cons_self
    rcases h.cycle hrun with ⟨-, hplan, -⟩ | ⟨hsome, -, ixs₁, h₁, hlowers⟩
    · exact absurd hplan hnil
    · obtain ⟨k, ixs', h', hpath, houts, hleft, hdone⟩ := ih h₁ hruns.of_cons hrest
      have hlt := hlowers.mergesLeft_lt hnil
      refine ⟨k + 1, ixs', h', .head hlowers hpath, ?_, by omega, ?_⟩
      · simp [hsome, houts, List.replicate_succ]
      · intro hk
        exact hdone (by simpa using hk)

end Keeps

/-! ### The end -/

section

variable {t : ForceMerge} {q : Path}

/-- The index in a directory has no more segments than a merge would leave. -/
def Done (t : ForceMerge) (q : Path) (ixs : List Index) : Prop :=
  ∀ ix ∈ ixs, ix.dir = q → ix.segments.length ≤ t.target.toNat

lemma Done.lowers (h : Done t q ixs) (hlowers : (Strategy.forceMerge t).Lowers ixs ixs') :
    Done t q ixs' := by
  cases hlowers with
  | forceMerge s hplan hbefore hafter hsame hmany hfew =>
    intro ix hix hdir
    rcases List.mem_cons.mp (hafter.mem_iff.mp hix) with rfl | hix
    · exact hfew.le
    · exact h ix (hbefore.mem_iff.mpr (List.mem_cons_of_mem _ hix)) hdir

lemma Done.path (h : Done t q ixs)
    (hpath : Relation.ReflTransGen (Strategy.forceMerge t).Lowers ixs ixs') : Done t q ixs' := by
  induction hpath with
  | refl => exact h
  | tail _ hlowers ih => exact ih.lowers hlowers

lemma Done.not_planned (h : Done t q ixs) : ∀ ix ∈ t.plan ixs, ix.dir ≠ q := by
  intro ix hix hdir
  rcases t.plan_eq ixs with hnil | ⟨ix', hmem, hone, hmany⟩
  · simp [hnil] at hix
  · rw [hone] at hix
    obtain rfl := List.mem_singleton.mp hix
    exact absurd (h ix hmem hdir) (by omega)

/-- An index that has been merged is done with. -/
lemma done_of_lowers (hnodup : (ixs.map (·.dir)).Nodup)
    (hlowers : (Strategy.forceMerge t).Lowers ixs ixs') :
    ∀ ix ∈ t.plan ixs, Done t ix.dir ixs' := by
  cases hlowers with
  | @forceMerge s old new others hplan hbefore hafter hsame hmany hfew =>
    intro ix hix ix' hix' hdir
    rw [hplan] at hix
    obtain rfl := List.mem_singleton.mp hix
    rcases List.mem_cons.mp (hafter.mem_iff.mp hix') with rfl | hother
    · exact hfew.le
    · -- the others stand in other directories
      rw [(hbefore.map _).nodup_iff, List.map_cons, List.nodup_cons] at hnodup
      exact absurd (List.mem_map.mpr ⟨ix', hother, hdir⟩) hnodup.1

end

/-- What is true after some cycles under one strategy, with the given outcomes, in a data directory
that has had `n` indexes. -/
structure Converges (dir : Path) (s : Strategy) (n : Nat) (outs : List CycleOutcome) (d : Disk) :
    Prop where
  /-- Those that merge something come first, and are few. -/
  merges : ∃ k ≤ s.mostMerges n,
    outs.map (·.isEmpty) = List.replicate k false ++ List.replicate (outs.length - k) true
  /-- After that many cycles nothing is planned. When size tiers with any widths plan nothing, no
  indexes overlap. -/
  rest : ∃ ixs, (Index.load dir).on d = (.ok ixs, d)
    ∧ (s.mostMerges n ≤ outs.length → s.plan ixs = [])
    ∧ ∀ t, s = .sizeTiered t → t.tiers ≠ [] → s.plan ixs = [] → ixs.Pairwise Apart
  /-- The next cycle, if it merges something, gets nearer to the end. -/
  progress : ∀ (e : Engine) (o : Origin) out d', e.dataDir = dir → e.strategy = s →
    (e.cycle o).on d = (.ok out, d') → out.isEmpty = false →
    ∃ ixs ixs', (Index.load dir).on d = (.ok ixs, d) ∧ (Index.load dir).on d' = (.ok ixs', d')
      ∧ s.Lowers ixs ixs'
  /-- An index whose segments the next cycle merges is not planned again, whatever cycles follow. -/
  once : ∀ (t : ForceMerge) (e : Engine) (o : Origin) out d' ixs old, s = .forceMerge t →
    e.dataDir = dir → e.strategy = s → (e.cycle o).on d = (.ok out, d') →
    (Index.load dir).on d = (.ok ixs, d) → old ∈ t.plan ixs →
    ∀ runs outs' d'', Under dir s runs → (cycles runs).on d' = (.ok outs', d'') →
      ∀ ixs'', (Index.load dir).on d'' = (.ok ixs'', d'') → ∀ ix ∈ t.plan ixs'', ix.dir ≠ old.dir
  /-- The next cycle fails only if the disk fails, or something stands in place of the new index. -/
  error : ∀ (e : Engine) (o : Origin) err d', e.dataDir = dir → e.strategy = s →
    (e.cycle o).on d = (.error err, d') → (∃ io, err = .io io)
      ∨ err = .invalidIndex (.alreadyExists (dir / directoryName o.dirId))

namespace Keeps

lemma progress (h : Keeps e.dataDir d ixs) (hon : (e.cycle o).on d = (.ok out, d'))
    (hsome : out.isEmpty = false) :
    ∃ ixs', Keeps e.dataDir d' ixs' ∧ e.strategy.Lowers ixs ixs' := by
  rcases h.cycle hon with ⟨hempty, -, -⟩ | ⟨-, -, hlowers⟩
  · rw [hempty] at hsome
    cases hsome
  · exact hlowers

lemma once {t : ForceMerge} (h : Keeps e.dataDir d ixs) (hs : e.strategy = .forceMerge t)
    (hon : (e.cycle o).on d = (.ok out, d')) {old : Index} (hold : old ∈ t.plan ixs)
    (hruns : Under e.dataDir e.strategy runs)
    (hcycles : (Engine.cycles runs).on d' = (.ok outs, d''))
    (hload : (Index.load e.dataDir).on d'' = (.ok ixs', d'')) :
    ∀ ix ∈ t.plan ixs', ix.dir ≠ old.dir := by
  rcases h.cycle hon with ⟨-, hnil, -⟩ | ⟨-, -, ixs₁, h₁, hlowers⟩
  · rw [hs] at hnil
    rw [show t.plan ixs = [] from hnil] at hold
    cases hold
  · obtain ⟨k, ixs₂, h₂, hpath, -⟩ := h₁.cycles hruns hcycles
    cases hload.symm.trans h₂.on_load
    rw [hs] at hlowers hpath
    have hdone : Done t old.dir ixs₁ := done_of_lowers h.nodup_dirs hlowers old hold
    exact (hdone.path hpath).not_planned

lemma error (h : Keeps e.dataDir d ixs) {err : StorageError}
    (hon : (e.cycle o).on d = (.error err, d')) : (∃ io, err = .io io)
      ∨ err = .invalidIndex (.alreadyExists (e.dataDir / directoryName o.dirId)) := by
  have hplan := h.on_plan
  cases h with
  | stocked h hsmall hload hperm => exact (conserves_of_stocked h hsmall).error err d' hon
  | lost hmissing =>
    rw [List.subperm_nil.mp (e.strategy.plan_subperm [])] at hplan
    obtain ⟨out, hok⟩ := on_cycle_of_plan_nil (o := o) hplan
    cases hon.symm.trans hok

end Keeps

/-- However a data directory has been built, under one strategy at most as many cycles merge
something as the number of indexes allows, and then nothing is planned any more. -/
theorem cycles_converge {accepted : List Entry} (hbuilt : Built dir d accepted)
    (hsmall : 28 * accepted.length < 2 ^ 32) (hruns : Under dir s runs)
    (hon : (cycles runs).on d = (.ok outs, d')) :
    ∃ ixs, (Index.load dir).on d = (.ok ixs, d) ∧ Converges dir s ixs.length outs d' := by
  obtain ⟨p, cs, hst, hperm⟩ := hbuilt.stocked hsmall
  rw [← hperm.length_eq] at hsmall
  obtain ⟨ixs, h⟩ := keeps_of_stocked hst hsmall
  -- of the merges that are left at first, `k` have been done
  obtain ⟨k, ixs', h', -, houts, hleft, hdone⟩ := h.cycles hruns hon
  have hmost := s.mergesLeft_le ixs
  refine ⟨ixs, h.on_load, ?_⟩
  constructor
  case merges => exact ⟨k, by omega, houts⟩
  case rest =>
    refine ⟨ixs', h'.on_load, ?_, ?_⟩
    · intro hlen
      by_cases hk : k < outs.length
      · exact hdone hk
      · by_contra hne
        have hpos := Strategy.mergesLeft_pos hne
        omega
    · rintro t rfl htiers hnil
      rcases t.plan_cases ixs' with ⟨-, hnone | hapart⟩ | hseveral
      · exact absurd hnone htiers
      · exact hapart
      · rw [show t.plan ixs' = [] from hnil] at hseveral
        cases hseveral
  case progress =>
    rintro e o out d₁ rfl rfl hcycle hsome
    obtain ⟨ixs₁, h₁, hlowers⟩ := h'.progress hcycle hsome
    exact ⟨ixs', ixs₁, h'.on_load, h₁.on_load, hlowers⟩
  case once =>
    rintro t e o out d₁ ixs₁ old hs rfl rfl hcycle hload hold runs' outs' d₂ hruns' hcycles ixs₂
      hload₂
    cases hload.symm.trans h'.on_load
    exact h'.once hs hcycle hold hruns' hcycles hload₂
  case error =>
    rintro e o err d₁ rfl rfl hcycle
    exact h'.error hcycle

/-- Two overlapping indexes in the working directory are merged, which leaves nothing to do. -/
theorem cycles_converge_overlap : ∃ (d d' : Disk) (outs : List CycleOutcome),
    Built ⟨["."]⟩ d [Overlap.chunk]
    ∧ Under ⟨["."]⟩ (Overlap.engine ⟨["."]⟩).strategy [(Overlap.engine ⟨["."]⟩, Overlap.origin)]
    ∧ (cycles [(Overlap.engine ⟨["."]⟩, Overlap.origin)]).on d = (.ok outs, d')
    ∧ ∃ ixs, (Index.load ⟨["."]⟩).on d = (.ok ixs, d)
      ∧ Converges ⟨["."]⟩ (Overlap.engine ⟨["."]⟩).strategy ixs.length outs d' := by
  obtain ⟨d, d', out, -, hbuilt, -, hcycle, -⟩ := Overlap.exists_on_merged .seconds
  have hunder : Under ⟨["."]⟩ (Overlap.engine ⟨["."]⟩).strategy
      [(Overlap.engine ⟨["."]⟩, Overlap.origin)] := by
    intro run hrun
    rw [List.mem_singleton.mp hrun]
    exact ⟨rfl, rfl⟩
  have hcycles : (cycles [(Overlap.engine ⟨["."]⟩, Overlap.origin)]).on d = (.ok [out], d') :=
    on_cycles_single hcycle
  exact ⟨d, d', [out], hbuilt, hunder, hcycles,
    cycles_converge hbuilt (by decide) hunder hcycles⟩

end Engine

end SeriesStore
