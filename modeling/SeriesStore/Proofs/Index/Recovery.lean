import SeriesStore.Proofs.Index.History
import SeriesStore.Proofs.Index.Reopening

/-!
# Recovery of an index

An operation on an index may be cut off between any two changes of the disk, or in the midst of a
write. The directory then still holds the contents before the operation or those after it. What is
left behind of the operation besides does not matter later.
-/

namespace SeriesStore.Index

open Contents SeriesStore.Path SeriesStore.Tree

variable {c : Contents} {d₀ d : Disk} {dir : Path} {p : Place}

/-! ### What an interruption leaves -/

/-- An interrupted command leaves the contents before it or the contents after it. -/
theorem heldBy_of_mayLeave (h : c.HeldBy d dir p) {cmd : Command}
    (hsmall : 28 * (c.entries ++ cmd.entries).length < 2 ^ 32) {t : Tree}
    (ht : (cmd.run (c.index dir)).MayLeave d t) :
    c.HeldBy { d with tree := t } dir p ∨ (cmd.result c).HeldBy { d with tree := t } dir p := by
  have hspec := Command.run_spec h cmd
  rcases ht with rfl | ⟨d', ch, htries, cut, rfl⟩
  · have hran := hspec.result
    have hheld {c' : Contents} (hstands : c'.StandsIn p ((cmd.run (c.index dir)).on d).2.tree)
        (hfits : c'.FitsIn dir) (hsound : c'.Sound) :
        c'.HeldBy { d with tree := ((cmd.run (c.index dir)).on d).2.tree } dir p :=
      HeldBy.congr ⟨hran.reached.leadsTo h.leadsTo, hstands, hfits, hsound⟩
        hran.reached.workDir.symm rfl
    rcases hr : ((cmd.run (c.index dir)).on d).1 with e | ix
    · exact .inl (hheld (hran.error e hr).1 h.fits h.sound)
    · obtain ⟨-, hstands, hfits, hsuits⟩ := hran.ok ix hr
      exact .inr (hheld hstands hfits (Command.sound_result h.sound hsuits hsmall))
  · have hheld {c' : Contents} (hch : Spares d dir p c' d' ch) :
        c'.HeldBy { d with tree := cut.apply ch d'.tree } dir p :=
      (hch.heldBy h.leadsTo htries.workDir cut).congr htries.workDir.symm rfl
    exact (hspec.tries htries).imp hheld hheld

/-- On a calm disk that takes the files, a merge may be cut off when the merged segment is in use
and the files that it replaces are all there still. -/
lemma exists_mayLeave_merge (h : c.HeldBy d dir p) (hcalm : d.Calm)
    (hfiles : ∀ file ∈ newNames c.next, d.Accepts dir p file) {target : UInt64}
    (htarget : target ≠ 0) (hlen : target.toNat < c.groups.length) :
    ∃ t, ((Command.merge target).run (c.index dir)).MayLeave d t
      ∧ (c.merge (mergeCount c target)).StandsIn p t ∧ c.Files p t := by
  obtain ⟨htwo, hmost⟩ := mergeCount_bounds htarget hlen
  obtain ⟨d₁, hon, hr, hstands, hfits⟩ := h.exists_on_install_merge hcalm hfiles _
  refine ⟨d₁.tree, ?_, hstands, fun g hg => ?_⟩
  · have hrun : ((Command.merge target).run (c.index dir)).on d
        = (forceMerge (c.index dir) target >>= fun merged => pure merged.2).on d := rfl
    rw [DiskM.on_bind, on_forceMerge h htarget hlen, ← DiskM.on_bind, bind_assoc] at hrun
    refine .of_on_eq hrun ((h.install_merge_spec _).mayLeave_bind hon ?_)
    -- the removal of the old files has not begun
    rw [bind_assoc]
    exact ((h.remove_merged_spec htwo hmost hr hstands hfits).bind (R := fun _ _ => True)
      (fun _ _ _ => .of_on (r := .ok _) rfl trivial) fun _ _ _ => trivial).mayLeave_tree
  · obtain ⟨-, hplaced⟩ := placed_of_install h.leadsTo hon fun _ => rfl
    rw [hplaced.node?_of_not_mem h.leadsTo
      (segmentName_not_mem_newNames (h.sound.next_ne hg)), h.stands.files g hg]

/-! ### Leftovers -/

lemma Disk.Reached.replaceable_iff (h : d₀.Reached p d) :
    Replaceable d dir p ↔ Replaceable d₀ dir p :=
  replaceable_congr fun _ => h.accepts_iff

/-- The result of a command does not depend on files that are not in use. -/
lemma Command.outcome_congr (h : d₀.Reached p d) (c : Contents) (cmd : Command) :
    cmd.outcome d dir p c = cmd.outcome d₀ dir p c := by
  have houtcome (c' : Contents) (es : List Entry) :
      Index.outcome d dir p c c' es = Index.outcome d₀ dir p c c' es := by
    simp only [Index.outcome, Segment.outcome, h.accepts_iff, Disk.Reached.replaceable_iff h]
  cases cmd <;> simp only [outcome, houtcome]

namespace Session

/-- The results of several commands, one after the other. -/
def results : Session → List Command → List (Except StorageError Index)
  | _, [] => []
  | s, cmd :: cmds => ((cmd.run s.index).on s.disk).1 :: results (s.step cmd) cmds

variable {s s' : Session}

lemma Holds.result_of_calm (h : s.Holds c dir p) (hcalm : s.disk.Calm) (cmd : Command) :
    ((cmd.run s.index).on s.disk).1 = cmd.outcome s.disk dir p c := by
  rw [h.index]
  exact (Command.run_spec h.held cmd).result.calm hcalm

/-- Two sessions with the same contents in the same directory of a calm disk go through the same
results, whatever other files there are. -/
theorem results_congr (h : s.Holds c dir p) (h' : s'.Holds c dir p)
    (hr : s.disk.Reached p s'.disk) (hcalm : s.disk.Calm) {cmds : List Command}
    (hsmall : 28 * (s.run cmds).accepted.length < 2 ^ 32) :
    s.results cmds = s'.results cmds := by
  induction cmds generalizing s s' c with
  | nil => rfl
  | cons cmd cmds ih =>
    have hle := length_accepted_le_run (s.step cmd) cmds
    rw [run_cons] at hsmall
    have hsame : ((cmd.run s'.index).on s'.disk).1 = ((cmd.run s.index).on s.disk).1 := by
      rw [h.result_of_calm hcalm, h'.result_of_calm (hr.calm_iff.mpr hcalm)]
      exact Command.outcome_congr hr c cmd
    have hsmall' : 28 * (s.step cmd).accepted.length < 2 ^ 32 := by omega
    obtain ⟨hstep, hreached⟩ := h.step cmd hsmall'
    obtain ⟨hstep', hreached'⟩ := h'.step cmd
      (by rwa [h'.accepted_step, hsame, ← h.accepted_step])
    rw [hsame] at hstep'
    rw [results, results, hsame, ih hstep hstep' ((hreached.symm.trans hr).trans hreached')
      (hreached.calm_iff.mpr hcalm) hsmall]

/-! ### Clean directories -/

/-- The session without the files in its directory that the open index does not know. -/
def tidied (s : Session) (p : Place) : Session :=
  { s with disk.tree :=
      Tree.tidy s.disk.tree p (manifestName :: s.index.segments.filterMap Segment.fileName?) }

lemma reached_tidied (s : Session) (p : Place) : s.disk.Reached p (s.tidied p).disk :=
  ⟨rfl, rfl, .tidy _ p _⟩

lemma Holds.tidied (h : s.Holds c dir p) : (s.tidied p).Holds c dir p where
  index := h.index
  held := by
    have hnames : s.index.segments.filterMap Segment.fileName?
        = c.groups.map (segmentName ·.1) := by
      have hname (g : UInt64 × List Entry) :
          (segment dir g).fileName? = some (segmentName g.1) :=
        fileName?_div dir (isName_segmentName g.1)
      rw [h.index]
      simp [Contents.index, List.filterMap_map, hname]
    refine ⟨(reached_tidied s p).leadsTo h.held.leadsTo, ⟨?_, fun g hg => ?_⟩, h.held.fits,
      h.held.sound⟩
    · exact (node?_tidy_of_mem List.mem_cons_self).trans h.held.stands.manifest
    · refine (node?_tidy_of_mem ?_).trans (h.held.stands.files g hg)
      rw [hnames]
      exact List.mem_cons_of_mem _ (List.mem_map_of_mem hg)
  accepted := h.accepted

/-! ### What an interruption costs -/

variable {id : Uid} {range : TimeRange} {resolution : Resolution} {createdAt : Instant}

/-- What is true of a disk with an index that holds some entries, whatever else has been left in
its directory. -/
structure Recovers (d : Disk) (dir : Path) (id : Uid) (range : TimeRange) (resolution : Resolution)
    (createdAt : Instant) (now : Index) (es : List Entry) : Prop where
  opens : (Index.open dir).on d = (.ok now, d)
  chunks : (Index.chunks now).on d = (.ok es, d)
  /-- From now on nothing is lost or added on the side, even if the disk fails again. -/
  faithful : ∀ cmds, 28 * ((mk d now es).run cmds).accepted.length < 2 ^ 32 →
    ((mk d now es).run cmds).Faithful dir id range resolution createdAt
  /-- Files that are left over make no difference. -/
  clean : d.Calm → ∃ p, d.LeadsTo dir p ∧ ∀ cmds,
    28 * ((mk d now es).run cmds).accepted.length < 2 ^ 32 →
      (mk d now es).results cmds = ((mk d now es).tidied p).results cmds

theorem Holds.recovers (h : s.Holds c dir p)
    (hid : c.identity = (id, range, resolution, createdAt)) :
    Recovers s.disk dir id range resolution createdAt s.index s.accepted where
  opens := (h.faithful hid).reopens
  chunks := (h.faithful hid).chunks
  faithful cmds hsmall := by
    obtain ⟨c', h', hid'⟩ := h.run hsmall
    exact h'.faithful (hid'.trans hid)
  clean hcalm := ⟨p, h.held.leadsTo, fun _ hsmall =>
    results_congr h h.tidied (reached_tidied s p) hcalm hsmall⟩

/-- A command on an index is cut off at any point, and the disk is used again as it stands: the
index holds the entries from before the command, or those and the ones of the command. -/
theorem recovers_of_create {d₀ d₁ d : Disk} {ix : Index} {cmds : List Command} {cmd : Command}
    (hcreate : (create dir range resolution id createdAt).on d₀ = (.ok ix, d₁))
    (hs : (mk d₁ ix []).run cmds = s) (hwork : d.workDir = s.disk.workDir)
    (hleft : (cmd.run s.index).MayLeave s.disk d.tree)
    (hsmall : 28 * (s.accepted ++ cmd.entries).length < 2 ^ 32) :
    ∃ now es, (es = s.accepted ∨ es = s.accepted ++ cmd.entries)
      ∧ Recovers d dir id range resolution createdAt now es := by
  subst hs
  have hbefore : 28 * ((mk d₁ ix []).run cmds).accepted.length < 2 ^ 32 := by
    rw [List.length_append] at hsmall
    omega
  obtain ⟨c, p, hc, hid⟩ := exists_holds_of_create hcreate hbefore
  have hfind {c' : Contents}
      (h : c'.HeldBy { ((mk d₁ ix []).run cmds).disk with tree := d.tree } dir p)
      (hid' : c'.identity = c.identity) :
      Recovers d dir id range resolution createdAt (c'.index dir) c'.entries :=
    Holds.recovers (s := mk d (c'.index dir) c'.entries) ⟨rfl, h.congr hwork rfl, rfl⟩
      (hid'.trans hid)
  rw [hc.index] at hleft
  rw [← hc.accepted] at hsmall ⊢
  rcases heldBy_of_mayLeave hc.held hsmall hleft with hheld' | hheld'
  · exact ⟨c.index dir, c.entries, .inl rfl, hfind hheld' rfl⟩
  · refine ⟨(cmd.result c).index dir, (cmd.result c).entries, .inr ?_,
      hfind hheld' (Command.identity_result c cmd)⟩
    exact Command.entries_result c cmd

/-- Two segments are merged into one, and the merge is cut off after the change of the manifest and
before the removal of the old files. -/
theorem recovers_of_create_merge : ∃ (ix : Index) (d₁ d : Disk) (s : Session),
    (create ⟨["a"]⟩ ⟨0, 10, by decide⟩ .seconds ⟨7⟩ .newYear).on {} = (.ok ix, d₁)
    ∧ (mk d₁ ix []).run [.add [Pair.early], .add [Pair.late]] = s ∧ d.workDir = s.disk.workDir
    ∧ ((Command.merge 1).run s.index).MayLeave s.disk d.tree
    ∧ d.tree.node? ["a", segmentName 1] = some (.file (Layout.file [Pair.early]))
    ∧ d.tree.node? ["a", segmentName 3] = some (.file (Layout.file [Pair.early, Pair.late]))
    ∧ 28 * (s.accepted ++ (Command.merge 1).entries).length < 2 ^ 32
    ∧ ∃ now es, (es = s.accepted ∨ es = s.accepted ++ (Command.merge 1).entries)
      ∧ Recovers d ⟨["a"]⟩ ⟨7⟩ ⟨0, 10, by decide⟩ .seconds .newYear now es := by
  obtain ⟨d₁, hcreate, h, hcalm, hfiles⟩ := Pair.exists_filled
  obtain ⟨t, hleft, hstands, hold⟩ := exists_mayLeave_merge h.held hcalm hfiles
    (by decide : (1 : UInt64) ≠ 0) (by decide)
  rw [← h.index] at hleft
  generalize hs : (mk d₁ (Pair.start.index ⟨["a"]⟩) []).run
    [.add [Pair.early], .add [Pair.late]] = s at h hleft
  have hsmall : 28 * (s.accepted ++ (Command.merge 1).entries).length < 2 ^ 32 := by
    rw [← h.accepted]
    decide
  exact ⟨_, d₁, { s.disk with tree := t }, s, hcreate, hs, rfl, hleft,
    hold (1, [Pair.early]) List.mem_cons_self,
    hstands.files (3, [Pair.early, Pair.late]) List.mem_cons_self, hsmall,
    recovers_of_create (d := { s.disk with tree := t }) hcreate hs rfl hleft hsmall⟩

end Session

end SeriesStore.Index
