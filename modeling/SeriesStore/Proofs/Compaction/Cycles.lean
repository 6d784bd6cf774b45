import SeriesStore.Proofs.Compaction.Merging

/-!
# Cycles

A cycle takes some indexes out of a data directory and puts what they hold back into it, in another
form. Over any number of cycles with any strategies no chunk is lost, and none comes twice.
-/

namespace SeriesStore.Engine

open Index SeriesStore.Path SeriesStore.Tree

/-! ### What a cycle does -/

/-- What planned indexes are replaced by. The disk is `d` before the cycle and `d'` behind it. -/
inductive Replaced (dataDir : Path) (o : Origin) (d d' : Disk) :
    Strategy → List Index → List Index → Prop
  | nothing (s : Strategy) : Replaced dataDir o d d' s [] []
  /-- Several indexes become one that reaches as far as all of them. -/
  | sizeTiered (s : SizeTiered) {first new : Index} {more : List Index}
    {sources : List (List Entry)} {es : List Entry}
    (identity : new.dir = dataDir / directoryName o.dirId ∧ new.id = o.id
      ∧ new.resolution = first.resolution ∧ new.createdAt = o.createdAt)
    (range : new.range.Spans ((first :: more).map (·.range)))
    (read : ((first :: more).mapM Index.chunks).on d = (.ok sources, d))
    (chunks : (Index.chunks new).on d' = (.ok es, d'))
    (arranged : SizeTiered.Arranges sources.flatten es) :
    Replaced dataDir o d d' (.sizeTiered s) (first :: more) [new]
  /-- One index gets fewer segments. -/
  | forceMerge (s : ForceMerge) {old new : Index} {es : List Entry}
    (identity : new.dir = old.dir ∧ new.id = old.id ∧ new.range = old.range
      ∧ new.resolution = old.resolution ∧ new.createdAt = old.createdAt)
    (read : (Index.chunks old).on d = (.ok es, d))
    (chunks : (Index.chunks new).on d' = (.ok es, d'))
    (segments : new.segments.length = s.target.toNat) :
    Replaced dataDir o d d' (.forceMerge s) [old] [new]

/-- A cycle has exchanged the planned indexes for new ones and left all others as they were. -/
structure Exchanged (e : Engine) (o : Origin) (d d' : Disk) (planned new others : List Index) :
    Prop where
  plan : e.plan.on d = (.ok planned, d)
  before : ∃ ixs, e.indexes.on d = (.ok ixs, d) ∧ ixs.Perm (planned ++ others)
  after : ∃ ixs, e.indexes.on d' = (.ok ixs, d') ∧ ixs.Perm (new ++ others)
  replaced : Replaced e.dataDir o d d' e.strategy planned new
  kept : ∀ ix ∈ others, ∃ es, (Index.chunks ix).on d = (.ok es, d)
    ∧ (Index.chunks ix).on d' = (.ok es, d')
  /-- Nothing changes outside of the directories of these indexes. -/
  frame : ∀ q, (∀ ix ∈ planned ++ new, ∀ r, d.locate ix.dir = .ok r → ¬r <+: q) →
    d'.tree.node? q = d.tree.node? q

variable {d d' : Disk} {dir : Path} {p : Place} {cs l new rest : List (String × Contents)}
  {e : Engine} {o : Origin}

/-- A cycle has turned some of the indexes in a data directory into others. -/
lemma exchanged_of_stocked (l new rest : List (String × Contents)) (h : Stocked d e.dataDir p cs)
    (h' : Stocked d' e.dataDir p (new ++ rest))
    (hperm : cs.Perm (l ++ rest)) (hplan : e.plan.on d = (.ok (l.map (named e.dataDir)), d))
    (hreplaced : Replaced e.dataDir o d d' e.strategy (l.map (named e.dataDir))
      (new.map (named e.dataDir)))
    (hframe : ∀ q, (∀ g ∈ l ++ new, ¬p ++ [g.1] <+: q) → d'.tree.node? q = d.tree.node? q) :
    Exchanged e o d d' (l.map (named e.dataDir)) (new.map (named e.dataDir))
      (rest.map (named e.dataDir)) where
  plan := hplan
  before := by
    obtain ⟨gs, hload, hgs⟩ := h.on_load
    refine ⟨_, hload, ?_⟩
    rw [← List.map_append]
    exact (hgs.trans hperm).map _
  after := by
    obtain ⟨gs, hload, hgs⟩ := h'.on_load
    refine ⟨_, hload, ?_⟩
    rw [← List.map_append]
    exact hgs.map _
  replaced := hreplaced
  kept ix hix := by
    obtain ⟨g, hg, rfl⟩ := List.mem_map.mp hix
    exact ⟨_, h.on_chunks (hperm.mem_iff.mpr (List.mem_append_right _ hg)),
      h'.on_chunks (List.mem_append_right _ hg)⟩
  frame q hq := by
    refine hframe q ?_
    intro g hg
    rw [← List.map_append] at hq
    refine hq _ (List.mem_map_of_mem hg) _ ?_
    have hname : IsName g.1 ∧ e.dataDir.hasRoom g.1 = true := by
      rcases List.mem_append.mp hg with hg | hg
      · have hg := hperm.mem_iff.mpr (List.mem_append_left _ hg)
        exact ⟨h.isName_of_mem hg, h.hasRoom hg⟩
      · have hg := List.mem_append_left rest hg
        exact ⟨h'.isName_of_mem hg, h'.hasRoom hg⟩
    exact (Disk.locate_div h.finds.leadsTo hname.1).trans (if_pos hname.2)

/-! ### Cycles one by one -/

/-- What is known after a cycle. -/
structure Cycled (e : Engine) (o : Origin) (d : Disk) (p : Place) (cs : List (String × Contents))
    (r : Except StorageError CycleOutcome) (d' : Disk) : Prop where
  ok : ∀ out, r = .ok out → d'.workDir = d.workDir ∧ d'.tree.node? p = some .dir
    ∧ (e.strategy.isInPlace = true → d'.isDir e.dataDir = true)
    ∧ (d'.isDir e.dataDir = true →
      ∃ cs', Stocked d' e.dataDir p cs' ∧ (entriesIn cs').Perm (entriesIn cs)
        ∧ ∃ planned new others, Exchanged e o d d' planned new others)
  error : ∀ err, r = .error err → (∃ io, err = .io io)
    ∨ err = .invalidIndex (.alreadyExists (e.dataDir / directoryName o.dirId))

lemma on_cycle_of_plan_nil (hplan : e.plan.on d = (.ok [], d)) :
    ∃ out, (e.cycle o).on d = (.ok out, d) := by
  rw [cycle, DiskM.on_bind_ok hplan]
  cases e.strategy with
  | sizeTiered s => exact ⟨_, rfl⟩
  | forceMerge s => exact ⟨_, rfl⟩
  | noop => exact ⟨_, rfl⟩

lemma cycled_nothing (h : Stocked d e.dataDir p cs) (hplan : e.plan.on d = (.ok [], d))
    (out : CycleOutcome) : Cycled e o d p cs (.ok out) d where
  ok _ _ := ⟨rfl, h.finds.isDir, fun _ => Disk.isDir_iff.mpr ⟨p, h.finds⟩, fun _ =>
    ⟨cs, h, .refl _, _, _, _, exchanged_of_stocked [] [] cs h h (.refl _) hplan (.nothing _)
      fun _ _ => rfl⟩⟩
  error _ he := nomatch he

/-- A cycle that works in place merges the segments of the planned index. -/
lemma on_cycle_of_plan_singleton {s : ForceMerge} {ix : Index} (hs : e.strategy = .forceMerge s)
    (hplan : e.plan.on d = (.ok [ix], d)) : (e.cycle o).on d
      = (s.compact ix >>= fun _ => pure ⟨[ix.id], none, true⟩ : DiskM CycleOutcome).on d := by
  have hforM : ([ix].forM fun ix => discard (s.compact ix) : DiskM PUnit)
      = (discard (s.compact ix) >>= fun _ => pure ⟨⟩) := rfl
  rw [cycle, DiskM.on_bind_ok hplan, hs]
  simp only [hforM]
  rw [bind_assoc, DiskM.on_bind, DiskM.on_discard, DiskM.on_bind, DiskM.on_bind]
  rcases (s.compact ix).on d with ⟨_ | _, _⟩ <;> rfl

/-- The segments of one index are merged. -/
lemma cycle_forceMerge (h : Stocked d e.dataDir p cs) {s : ForceMerge}
    (hs : e.strategy = .forceMerge s) {g : String × Contents} (hg : g ∈ cs)
    (hplan : e.plan.on d = (.ok [named e.dataDir g], d))
    (hlen : s.target.toNat < g.2.groups.length) :
    (e.cycle o).Spec d (fun _ _ => True) (Cycled e o d p cs) := by
  have hon : (e.cycle o).on d = ((Command.merge s.target).run (named e.dataDir g) >>= fun _ =>
      pure ⟨[g.2.id], none, true⟩ : DiskM CycleOutcome).on d := on_cycle_of_plan_singleton hs hplan
  have htarget : s.target ≠ 0 := s.bounds.1
  refine .of_on_eq hon ((h.run_spec hg (.merge s.target)).bind (fun ix d' hd' => ?_)
    fun err d' hd' => ⟨fun _ hout => (by cases hout), fun err' herr => .inl ⟨.other, ?_⟩⟩)
  · obtain ⟨hbeside, rfl, hst⟩ := hd'
    have h' := hst (by simpa [Command.entries] using (h.held g hg).sound.small)
    have hid := Command.identity_result g.2 (.merge s.target)
    have hentries : ((Command.merge s.target).result g.2).entries = g.2.entries := by
      simp [Command.entries_result, Command.entries]
    have hgroups := Command.length_groups_result_merge g.2 htarget
    rw [Nat.min_eq_right hlen.le] at hgroups
    simp only [Contents.identity, Prod.mk.injEq] at hid
    refine .of_on (r := .ok _) rfl ⟨fun _ _ => ⟨hbeside.workDir, h'.finds.isDir,
      fun _ => Disk.isDir_iff.mpr ⟨p, h'.finds⟩, fun _ => ⟨_, h', ?_, _, _, _,
      exchanged_of_stocked [g] [(g.1, (Command.merge s.target).result g.2)] _ h h'
        (h.perm_cons_filter hg) hplan ?_ fun q hq => ?_⟩⟩, fun _ he => (by cases he)⟩
    · simpa [Command.entries] using h.entriesIn_result_perm hg (.merge s.target)
    · rw [hs]
      refine .forceMerge s ⟨rfl, hid⟩ (h.on_chunks hg) ?_ ?_
      · rw [← hentries]
        exact h'.on_chunks List.mem_cons_self
      · simpa [named, Contents.index] using hgroups
    · exact hbeside.others q (hq g (by simp))
  · cases herr
    exact hd'.2.2 htarget

/-- Several planned indexes are merged into one for their common range. -/
lemma on_cycle_sizeTiered {s : SizeTiered} (hs : e.strategy = .sizeTiered s) {ix : Index}
    {more : List Index} {range : TimeRange} (hplan : e.plan.on d = (.ok (ix :: more), d))
    (hrange : Index.hull? (ix :: more) = some range) : (e.cycle o).on d
      = (mergeIntoNew e.dataDir (ix :: more) range ix.resolution o >>= fun new => pure
        ⟨(ix :: more).map (·.id), some new.id, false⟩ : DiskM CycleOutcome).on d := by
  rw [cycle, DiskM.on_bind_ok hplan, hs, hrange]

lemma exists_hull? (ix : Index) (more : List Index) :
    ∃ range, Index.hull? (ix :: more) = some range := by
  simp [Index.hull?, TimeRange.hull?]

lemma exists_on_cycle_sizeTiered {s : SizeTiered} (hs : e.strategy = .sizeTiered s) {ix : Index}
    {more : List Index} (hplan : e.plan.on d = (.ok (ix :: more), d)) :
    ∃ range : TimeRange, range.Spans ((ix :: more).map (·.range)) ∧ (e.cycle o).on d
      = (mergeIntoNew e.dataDir (ix :: more) range ix.resolution o >>= fun new => pure
        ⟨(ix :: more).map (·.id), some new.id, false⟩ : DiskM CycleOutcome).on d := by
  obtain ⟨range, hrange⟩ := exists_hull? ix more
  exact ⟨range, TimeRange.spans_of_hull? hrange, on_cycle_sizeTiered hs hplan hrange⟩

/-- Several indexes are merged into a new one. -/
lemma cycle_sizeTiered (h : Stocked d e.dataDir p cs) (hsmall : 28 * (entriesIn cs).length < 2 ^ 32)
    {s : SizeTiered} (hs : e.strategy = .sizeTiered s) (hne : l ≠ []) (hperm : cs.Perm (l ++ rest))
    (hplan : e.plan.on d = (.ok (l.map (named e.dataDir)), d)) :
    (e.cycle o).Spec d (fun _ _ => True) (Cycled e o d p cs) := by
  obtain ⟨g, l, rfl⟩ := List.exists_cons_of_ne_nil hne
  have hranges : ((g :: l).map (named e.dataDir)).map (·.range) = (g :: l).map (·.2.range) := by
    simp [named, Contents.index, Function.comp_def]
  obtain ⟨range, hspans, hon⟩ := exists_on_cycle_sizeTiered (o := o) hs hplan
  rw [← List.map_cons, hranges] at hspans
  refine .of_on_eq hon ((mergeIntoNew_spec h hperm hne hspans hsmall).bind (fun ix d' hd' => ?_)
    fun err d' herr => ⟨fun _ hout => (by cases hout),
      fun err' heq => by cases heq; exact herr⟩)
  obtain ⟨c, rfl, hid, hmerged⟩ := hd'
  -- the merged index has the chunks of its sources, and their identity is the new one
  have harranges := SizeTiered.arranges_byStart (entriesIn (g :: l))
  rw [← hmerged.entries] at harranges
  simp only [Contents.identity, Prod.mk.injEq] at hid
  obtain ⟨hid, hrange', hresolution, hcreated⟩ := hid
  refine .of_on (r := .ok _) rfl ⟨fun _ _ => ⟨hmerged.workDir, ?_, by simp [hs, Strategy.isInPlace],
    fun hdir => ?_⟩, fun _ he => (by cases he)⟩
  · have habove (name : String) : ¬p ++ [name] <+: p := fun hle => by simpa using hle.length_le
    rw [hmerged.others p (habove _) fun g' _ => habove g'.1]
    exact h.finds.isDir
  -- if the data directory is still there, the new index stands in place of the sources
  have h' := hmerged.stocked hdir
  refine ⟨_, h', ?_, _, _, _, exchanged_of_stocked (g :: l)
    [(directoryName o.dirId, c)] _ h h' hperm hplan ?_ fun q hq => ?_⟩
  · calc (c.entries ++ entriesIn rest).Perm (entriesIn (g :: l) ++ entriesIn rest) :=
          harranges.perm.append_right _
      _ = entriesIn (g :: l ++ rest) := List.flatMap_append.symm
      _ |>.Perm (entriesIn cs) := (entriesIn_perm hperm).symm
  · rw [hs]
    refine .sizeTiered s ⟨rfl, hid, hresolution, hcreated⟩ ?_ (h.on_mapM_chunks fun g' hg' =>
      hperm.mem_iff.mpr (List.mem_append_left _ hg')) (h'.on_chunks List.mem_cons_self) harranges
    · change c.range.Spans (((g :: l).map (named e.dataDir)).map (·.range))
      rwa [hranges, hrange']
  · exact hmerged.others q (hq (directoryName o.dirId, c) (by simp)) fun g' hg' =>
      hq g' (List.mem_append_left _ hg')

/-- Some of the indexes in a data directory are planned, and the others are left. -/
lemma exists_on_plan (h : Stocked d e.dataDir p cs) :
    ∃ gs l rest : List (String × Contents), gs.Perm cs
      ∧ e.strategy.plan (gs.map (named e.dataDir)) = l.map (named e.dataDir)
      ∧ cs.Perm (l ++ rest) ∧ e.plan.on d = (.ok (l.map (named e.dataDir)), d) := by
  obtain ⟨gs, hload, hgs⟩ := h.on_load
  obtain ⟨l, rest, hplanned, hperm⟩ :=
    exists_map_eq_of_subperm (e.strategy.plan_subperm (gs.map (named e.dataDir)))
  refine ⟨gs, l, rest, hgs, hplanned, hgs.symm.trans hperm, ?_⟩
  rw [Engine.plan, Engine.indexes, DiskM.on_bind_ok hload, hplanned]
  rfl

/-- A cycle that succeeds exchanges indexes, and loses no entry. One that does not has met a failure
of the disk, or a directory in place of the new one. -/
theorem cycle_spec (h : Stocked d e.dataDir p cs) (hsmall : 28 * (entriesIn cs).length < 2 ^ 32) :
    (e.cycle o).Spec d (fun _ _ => True) (Cycled e o d p cs) := by
  obtain ⟨gs, l, rest, hgs, hplanned, hperm', hplan⟩ := exists_on_plan h
  by_cases hl : l = []
  · subst hl
    obtain ⟨out, hon⟩ := on_cycle_of_plan_nil (o := o) hplan
    exact .of_on hon (cycled_nothing h hplan out)
  · cases hs : e.strategy with
    | sizeTiered s => exact cycle_sizeTiered h hsmall hs hl hperm' hplan
    | forceMerge s =>
      rw [hs] at hplanned
      rcases s.plan_eq (gs.map (named e.dataDir)) with hnone | ⟨ix, hix, hone, hlen⟩
      · exact absurd (List.map_eq_nil_iff.mp (hplanned.symm.trans hnone)) hl
      · obtain ⟨g, hg, rfl⟩ := List.mem_map.mp hix
        have hsingle : l.map (named e.dataDir) = [named e.dataDir g] := hplanned.symm.trans hone
        rw [hsingle] at hplan
        exact cycle_forceMerge h hs (hgs.mem_iff.mp hg) hplan
          (by simpa [named, Contents.index] using hlen)
    | noop =>
      rw [hs] at hplanned
      exact absurd (List.map_eq_nil_iff.mp hplanned.symm) hl

/-- A cycle that succeeds, where the data directory is still found, exchanges indexes in it. -/
lemma exchanged_of_on_cycle (h : Stocked d e.dataDir p cs)
    (hsmall : 28 * (entriesIn cs).length < 2 ^ 32) {out : CycleOutcome}
    (hon : (e.cycle o).on d = (.ok out, d')) (hdir : d'.isDir e.dataDir = true) :
    ∃ cs', Stocked d' e.dataDir p cs' ∧ (entriesIn cs').Perm (entriesIn cs)
      ∧ ∃ planned new others, Exchanged e o d d' planned new others := by
  have hcycled := (cycle_spec (o := o) h hsmall).result
  rw [hon] at hcycled
  exact (hcycled.ok out rfl).2.2.2 hdir

/-! ### Two overlapping indexes -/

namespace Overlap

def chunk : Entry := ⟨6, 6, ⟨.xor, [0, 0]⟩⟩

/-- Makes the index `x`, which gets a chunk, and the index `y`, which begins earlier. -/
def make (dir : Path) : DiskM Unit := do
  let ix ← create (dir / "x") ⟨5, 15, by decide⟩ .seconds ⟨2⟩ .newYear
  let _ ← create (dir / "y") ⟨0, 10, by decide⟩ .seconds ⟨1⟩ .newYear
  let _ ← (Command.add [chunk]).run ix

/-- Makes the same indexes, where `y` has its timestamps in any unit. -/
def makeIn (unit : Resolution) (dir : Path) : DiskM Unit := do
  let ix ← create (dir / "x") ⟨5, 15, by decide⟩ .seconds ⟨2⟩ .newYear
  let _ ← create (dir / "y") ⟨0, 10, by decide⟩ unit ⟨1⟩ .newYear
  let _ ← (Command.add [chunk]).run ix

/-- The working directory is the root, and the directory `x` is there already. -/
def start : Disk := { tree := [(["x"], .dir)] }

def origin : Origin := ⟨⟨3⟩, ⟨4⟩, .newYear⟩

/-- An engine that merges by size tiers. -/
def engine (dir : Path) : Engine where
  dataDir := dir
  settings := { name := "", current := {} }
  listeners := { strategies := [.sizeTiered ⟨[2], 60000, .seconds⟩], delegates := [some 0] }
  delegate := 0
  policy := 0

/-- The contents of `x` and `y` when they are made. -/
def later : Contents := .empty ⟨2⟩ ⟨5, 15, by decide⟩ .seconds .newYear

def earlier (unit : Resolution) : Contents := .empty ⟨1⟩ ⟨0, 10, by decide⟩ unit .newYear

variable {unit : Resolution}

lemma perm_pair {α : Type} {a b : α} {xs : List α} (h : xs.Perm [a, b]) :
    xs = [a, b] ∨ xs = [b, a] := by
  obtain ⟨x, y, rfl⟩ := List.length_eq_two.mp h.length_eq
  rcases List.mem_cons.mp (h.subset List.mem_cons_self) with rfl | hx
  · exact .inl (by simpa using (List.perm_cons x).mp h)
  · obtain rfl := List.mem_singleton.mp hx
    exact .inr (by simpa using (List.perm_cons x).mp (h.trans (.swap ..)))

/-- The two indexes overlap, and the earlier one comes first. -/
lemma plan_eq {gs : List (String × Contents)}
    (h : gs.Perm [("x", (Command.add [chunk]).result later), ("y", earlier unit)]) :
    (engine dir).strategy.plan (gs.map (named dir))
      = [("y", earlier unit), ("x", (Command.add [chunk]).result later)].map (named dir) := by
  have hstrategy : (engine dir).strategy = .sizeTiered ⟨[2], 60000, .seconds⟩ := rfl
  have hsorted : sorted (gs.map (named dir))
      = [("y", earlier unit), ("x", (Command.add [chunk]).result later)].map (named dir) := by
    have hbefore : TimeRange.listedBefore (named dir ("y", earlier unit)).range
      (named dir ("x", (Command.add [chunk]).result later)).range = true := rfl
    have hafter : TimeRange.listedBefore (named dir ("x", (Command.add [chunk]).result later)).range
      (named dir ("y", earlier unit)).range = false := rfl
    rcases perm_pair h with rfl | rfl <;> simp [sorted, List.mergeSort, hbefore, hafter]
  rw [hstrategy, Strategy.plan, SizeTiered.plan]
  simp only [List.isEmpty_cons, List.length_map, h.length_eq, hsorted, Bool.false_or]
  rfl

lemma node?_start {q : Place} (hq : q ≠ []) :
    start.tree.node? q = if q = ["x"] then some .dir else none := by
  rw [node?, if_neg hq]
  split_ifs with hx
  · rw [hx]
    rfl
  · have hbeq : (q == ["x"]) = false := by simpa using hx
    simp [start, List.lookup, hbeq]

/-- On the way to the data directory nothing is passed but `x`, and there is room for the files of
three indexes. -/
structure Fits (dir : Path) : Prop where
  finds : ∀ d : Disk, d.workDir = [] → d.tree.node? ["x"] = some .dir → d.Finds dir []
  room : ∀ name ∈ ["x", "y", directoryName ⟨4⟩], dir.hasRoom name = true
    ∧ ∀ file ∈ newNames 1, (dir / name).hasRoom file = true

lemma isName_of_mem (name : String) (h : name ∈ ["x", "y", directoryName ⟨4⟩]) : IsName name := by
  simp only [List.mem_cons, List.not_mem_nil, or_false] at h
  rcases h with rfl | rfl | rfl
  · exact ⟨by decide, by decide, by decide, by decide, by decide⟩
  · exact ⟨by decide, by decide, by decide, by decide, by decide⟩
  · exact isName_directoryName _

lemma Fits.welcomes (h : Fits dir) (name : String) (hname : name ∈ ["x", "y", directoryName ⟨4⟩]) :
    Welcomes start dir [] name where
  isName := isName_of_mem name hname
  hasRoom := (h.room name hname).1
  free content := by
    rw [node?_start (by simp)]
    split_ifs <;> simp
  files file hfile := ⟨(h.room name hname).2 file hfile, by rw [node?_start (by simp)]; simp⟩

lemma Fits.stocked (h : Fits dir) : Stocked start dir [] [] where
  finds := h.finds start rfl rfl
  nodup := by simp [start, Tree.names]
  isName := by
    simp only [start, Tree.names]
    simpa using isName_of_mem "x" (by simp)
  keys := .nil
  held _ hg := nomatch hg
  bare name _ := by
    rw [node?_start (by simp)]
    simp

/-- The indexes are made, and then merged. -/
lemma exists_on_makeIn (h : Fits dir) (unit : Resolution) :
    ∃ d, (makeIn unit dir).on start = (.ok (), d) ∧ Built dir d [chunk]
    ∧ Stocked d dir [] [("x", (Command.add [chunk]).result later), ("y", earlier unit)]
    ∧ d.Calm ∧ d.workDir = [] ∧ d.tree.node? ["x"] = some .dir
    ∧ Welcomes d dir [] (directoryName ⟨4⟩) := by
  have hst := h.stocked
  have hbuilt : Built dir start [] := .start hst.finds hst.nodup hst.isName fun name =>
    hst.bare name (by simp)
  have hx := h.welcomes "x" (by simp)
  have hy := h.welcomes "y" (by simp)
  have hnew := h.welcomes (directoryName ⟨4⟩) (by simp)
  have hcalm : start.Calm := fun _ _ => rfl
  obtain ⟨d₁, hon₁, hb₁, h₁⟩ := hst.exists_on_create hcalm (by simp) hx
    ⟨5, 15, by decide⟩ .seconds ⟨2⟩ .newYear
  obtain ⟨d₂, hon₂, hb₂, h₂⟩ := h₁.exists_on_create (hb₁.calm hcalm) (by simp)
    (hy.beside hb₁ (by simp)) ⟨0, 10, by decide⟩ unit ⟨1⟩ .newYear
  have hmem : ("x", later) ∈ [("y", earlier unit), ("x", later)] := by simp
  have hsuits : (Command.add [chunk]).Suits later := fun _ => ⟨by decide, by decide⟩
  obtain ⟨d₃, hon₃, hb₃, h₃⟩ := h₂.exists_on_run (hb₂.calm (hb₁.calm hcalm)) hmem
    (fun file hfile => hb₂.accepts (hb₁.accepts (hx.files file hfile))) hsuits (by decide)
  have hxname : IsName "x" := isName_of_mem _ (by simp)
  have hyname : IsName "y" := isName_of_mem _ (by simp)
  refine ⟨d₃, ?_, ?_, h₃, hb₃.calm (hb₂.calm (hb₁.calm hcalm)),
    hb₃.workDir.trans (hb₂.workDir.trans hb₁.workDir), hb₃.dirs _ (hb₂.dirs _ (hb₁.dirs _ rfl)),
    ((hnew.beside hb₁ ?_).beside hb₂ ?_).beside hb₃ ?_⟩
  · rw [makeIn, DiskM.on_bind_ok hon₁, DiskM.on_bind_ok hon₂]
    exact DiskM.on_bind_ok hon₃
  · exact .run (.add [chunk]) (.create (.create hbuilt hxname hon₁) hyname hon₂) hxname
      (h₂.held _ hmem).on_open hon₃
  all_goals decide

lemma on_plan {d : Disk}
    (hst : Stocked d dir p [("x", (Command.add [chunk]).result later), ("y", earlier unit)]) :
    (engine dir).plan.on d = (.ok ([("y", earlier unit),
      ("x", (Command.add [chunk]).result later)].map (named dir)), d) := by
  obtain ⟨gs, hload, hgs⟩ := hst.on_load
  rw [← plan_eq hgs]
  exact DiskM.on_bind_ok hload

/-- The indexes are merged into a new one. The directory `x` goes when its index is removed. -/
lemma exists_on_cycle (h : Fits dir) {d : Disk}
    (hst : Stocked d dir [] [("x", (Command.add [chunk]).result later), ("y", earlier unit)])
    (hcalm : d.Calm) (hwork : d.workDir = []) (hx : d.tree.node? ["x"] = some .dir)
    (hnew : Welcomes d dir [] (directoryName ⟨4⟩)) :
    ∃ out d', ((engine dir).cycle origin).on d = (.ok out, d') ∧ d'.workDir = []
      ∧ d'.tree.node? ["x"] = none := by
  obtain ⟨range, hspans, hcycle⟩ := exists_on_cycle_sizeTiered (e := engine dir) (o := origin)
    (s := ⟨[2], 60000, .seconds⟩) rfl (on_plan hst)
  have hfew : 28 * [chunk].length < 2 ^ 32 := by decide
  have hnew' : directoryName (⟨4⟩ : Uid) ∉ ["x", "y"] := by decide
  obtain ⟨new, d₁, hfill, hb⟩ := exists_on_fillNew (o := origin)
    (l := [("y", earlier unit), ("x", (Command.add [chunk]).result later)]) hst hcalm (by simp)
    (by simp) hspans hfew unit hnew hnew'
  have hroom (name : String) (hname : name ∈ ["x", "y", directoryName ⟨4⟩]) := (h.room name hname).1
  have hwork₁ := hb.workDir.trans hwork
  have hx₁ := hb.dirs _ hx
  -- `y` is removed first, and then `x`, through which the data directory may be found
  obtain ⟨_, d₂, hdelete₁, hwork₂, hcalm₂, hemptied₂, -⟩ := exists_on_delete (hb.calm hcalm)
    (h.finds d₁ hwork₁ hx₁) (g := ("y", earlier unit)) (isName_of_mem _ (by simp))
    (hroom "y" (by simp)) (hb.dirs _ (hst.held ("y", earlier unit) (by simp)).leadsTo.isDir)
  rw [hwork₁] at hwork₂
  have hx₂ : d₂.tree.node? ["x"] = some .dir := by
    have hother : ∀ q ∈ [["y"]], ¬q <+: ["x"] := by decide
    rw [hemptied₂.others _ hother, hx₁]
  obtain ⟨_, d₃, hdelete₂, hwork₃, -, -, hgone⟩ := exists_on_delete hcalm₂ (h.finds d₂ hwork₂ hx₂)
    (g := ("x", (Command.add [chunk]).result later)) (isName_of_mem _ (by simp))
    (hroom "x" (by simp)) hx₂
  have hdeleteAll : (deleteAll ([("y", earlier unit), ("x", (Command.add [chunk]).result later)].map
      (named dir))).on d₁ = (.ok (), d₃) := by
    simp only [List.map_cons, List.map_nil, on_deleteAll_cons, hdelete₁, hdelete₂]
    rfl
  rw [mergeIntoNew_eq, bind_assoc] at hcycle
  have hdone := hcycle.trans (DiskM.on_bind_ok hfill)
  rw [bind_assoc] at hdone
  refine ⟨_, d₃, hdone.trans (DiskM.on_bind_ok hdeleteAll), hwork₃.trans hwork₂,
    hgone (h.finds _ hwork₂ ?_)⟩
  exact (node?_clear_self _ _).trans hx₂

end Overlap

/-! ### Cycles one after the other -/

/-- Several cycles, up to the first that fails. -/
def cycles (runs : List (Engine × Origin)) : DiskM (List CycleOutcome) :=
  runs.mapM fun (e, o) => e.cycle o

lemma on_cycles_cons {run : Engine × Origin} {runs : List (Engine × Origin)}
    {outs : List CycleOutcome} (h : (cycles (run :: runs)).on d = (.ok outs, d')) :
    ∃ out d₁ outs', (run.1.cycle run.2).on d = (.ok out, d₁)
      ∧ (cycles runs).on d₁ = (.ok outs', d') ∧ outs = out :: outs' := by
  rw [cycles, List.mapM_cons] at h
  obtain ⟨out, d₁, hrun, h⟩ := DiskM.on_bind_eq_ok h
  obtain ⟨outs', d₂, hruns, hpure⟩ := DiskM.on_bind_eq_ok h
  cases hpure
  exact ⟨out, d₁, outs', hrun, hruns, rfl⟩

lemma on_cycles_single {run : Engine × Origin} {out : CycleOutcome}
    (h : (run.1.cycle run.2).on d = (.ok out, d')) : (cycles [run]).on d = (.ok [out], d') := by
  rw [cycles, List.mapM_cons]
  exact DiskM.on_bind_ok h

lemma on_load_of_not_exists (h : d.exists? dir = false) : (load dir).on d = (.ok [], d) := by
  rw [load, DiskM.on_bind_ok (DiskM.on_get d), if_neg (by simp [h])]
  rfl

/-- A cycle changes nothing when the data directory is not found. -/
lemma on_cycle_of_not_isDir (hdir : d.isDir e.dataDir = false) {out : CycleOutcome}
    (hon : (e.cycle o).on d = (.ok out, d')) : d' = d := by
  by_cases hexists : d.exists? e.dataDir = true
  · -- a file is in the way, and nothing can be listed
    obtain ⟨err, hlist⟩ : ∃ err, d.list e.dataDir = .error err := by
      rw [Disk.isDir, Disk.find?] at hdir
      rw [Disk.list]
      cases hlocate : d.locate e.dataDir with
      | error err => exact ⟨err, rfl⟩
      | ok q =>
        rw [hlocate] at hdir
        cases hnode : d.tree.node? q with
        | none => exact ⟨.notFound, by simp only [hnode]⟩
        | some n =>
          cases n with
          | file content => exact ⟨.other, by simp only [hnode]⟩
          | dir => simp [hnode] at hdir
    have hload : (Index.load e.dataDir).on d = (.error (.io err), d) := by
      rw [Index.load, DiskM.on_bind_ok (DiskM.on_get d), if_pos hexists,
        DiskM.on_ask_bind_error (·.list _) hlist]
    rw [cycle, Engine.plan, Engine.indexes, DiskM.on_bind_error (DiskM.on_bind_error hload)] at hon
    cases hon
  · -- nothing is there, and nothing is planned
    have hload := on_load_of_not_exists (by simpa using hexists)
    have hnil : e.strategy.plan [] = [] := List.subperm_nil.mp (e.strategy.plan_subperm [])
    have hplan : e.plan.on d = (.ok [], d) := by
      rw [Engine.plan, Engine.indexes, DiskM.on_bind_ok hload, hnil]
      rfl
    obtain ⟨out', hon'⟩ := on_cycle_of_plan_nil (o := o) hplan
    rw [hon'] at hon
    cases hon
    rfl

lemma on_cycles_of_not_isDir (hdir : d.isDir dir = false) {runs : List (Engine × Origin)}
    (hdirs : ∀ run ∈ runs, run.1.dataDir = dir) {outs : List CycleOutcome}
    (hruns : (cycles runs).on d = (.ok outs, d')) : d' = d := by
  induction runs generalizing outs with
  | nil =>
    cases hruns
    rfl
  | cons run runs ih =>
    obtain ⟨out, d₁, outs', hrun, hrest, -⟩ := on_cycles_cons hruns
    obtain rfl := on_cycle_of_not_isDir (by rwa [hdirs run List.mem_cons_self]) hrun
    exact ih (fun run' hmem => hdirs run' (List.mem_cons_of_mem _ hmem)) hrest

/-- A data directory that is found behind several cycles has been there behind the first. -/
lemma on_cycles_cons_of_isDir {run : Engine × Origin} {runs : List (Engine × Origin)}
    (hdirs : ∀ run' ∈ run :: runs, run'.1.dataDir = dir) {outs : List CycleOutcome}
    (h : (cycles (run :: runs)).on d = (.ok outs, d')) (hfound : d'.isDir dir = true) :
    ∃ out d₁ outs', (run.1.cycle run.2).on d = (.ok out, d₁) ∧ d₁.isDir dir = true
      ∧ (cycles runs).on d₁ = (.ok outs', d') := by
  obtain ⟨out, d₁, outs', hrun, hrest, -⟩ := on_cycles_cons h
  refine ⟨out, d₁, outs', hrun, ?_, hrest⟩
  by_contra hlost
  have hdirs' : ∀ run' ∈ runs, run'.1.dataDir = dir := fun run' hmem =>
    hdirs run' (List.mem_cons_of_mem _ hmem)
  obtain rfl := on_cycles_of_not_isDir (by simpa using hlost) hdirs' hrest
  exact hlost hfound

/-- What every cycle of an engine keeps to, on a disk with its data directory: it fails only if the
disk fails or something stands in place of the new index, and it exchanges indexes for others with
the same chunks. -/
structure Conserves (e : Engine) (o : Origin) (d : Disk) : Prop where
  error : ∀ err d', (e.cycle o).on d = (.error err, d') → (∃ io, err = .io io)
    ∨ err = .invalidIndex (.alreadyExists (e.dataDir / directoryName o.dirId))
  ok : ∀ out d', (e.cycle o).on d = (.ok out, d') → d'.isDir e.dataDir = true →
    ∃ planned new others, Exchanged e o d d' planned new others

lemma conserves_of_stocked (h : Stocked d e.dataDir p cs)
    (hsmall : 28 * (entriesIn cs).length < 2 ^ 32) : e.Conserves o d where
  error err d' hon := by
    have hcycled := (cycle_spec (o := o) h hsmall).result
    rw [hon] at hcycled
    exact hcycled.error err rfl
  ok out d' hon hdir := by
    obtain ⟨-, -, -, hexchanged⟩ := exchanged_of_on_cycle h hsmall hon hdir
    exact hexchanged

/-- Several cycles of engines for a data directory keep the entries in it. -/
lemma stocked_of_cycles (h : Stocked d dir p cs) (hsmall : 28 * (entriesIn cs).length < 2 ^ 32)
    {runs : List (Engine × Origin)} (hdirs : ∀ run ∈ runs, run.1.dataDir = dir)
    {outs : List CycleOutcome} (hruns : (cycles runs).on d = (.ok outs, d'))
    (hfound : d'.isDir dir = true) :
    ∃ cs', Stocked d' dir p cs' ∧ (entriesIn cs').Perm (entriesIn cs) := by
  induction runs generalizing d cs outs with
  | nil =>
    cases hruns
    exact ⟨cs, h, .refl _⟩
  | cons run runs ih =>
    obtain ⟨out, d₁, outs', hrun, hdir, hrest⟩ := on_cycles_cons_of_isDir hdirs hruns hfound
    obtain rfl := hdirs run List.mem_cons_self
    obtain ⟨cs₁, h₁, hperm₁, -⟩ := exchanged_of_on_cycle h hsmall hrun hdir
    obtain ⟨cs', h', hperm'⟩ := ih h₁ (by rwa [hperm₁.length_eq])
      (fun run' hmem => hdirs run' (List.mem_cons_of_mem _ hmem)) hrest
    exact ⟨cs', h', hperm'.trans hperm₁⟩

/-- However a data directory has been built, and whatever strategies are in force, cycles that
succeed keep all chunks in it, as long as the directory is still found under its path. -/
theorem cycles_conserve {accepted : List Entry} (hbuilt : Built dir d accepted)
    (hsmall : 28 * accepted.length < 2 ^ 32) {runs : List (Engine × Origin)}
    (hdirs : ∀ run ∈ runs, run.1.dataDir = dir) {outs : List CycleOutcome}
    (hruns : (cycles runs).on d = (.ok outs, d'))
    (hfound : d'.isDir dir = true) :
    (∃ before after, (stored dir).on d = (.ok before, d) ∧ (stored dir).on d' = (.ok after, d')
      ∧ after.Perm before)
    ∧ ∀ (e : Engine) (o : Origin), e.dataDir = dir → e.Conserves o d' := by
  obtain ⟨p, cs, h, hperm⟩ := hbuilt.stocked hsmall
  rw [← hperm.length_eq] at hsmall
  obtain ⟨cs', h', hperm'⟩ := stocked_of_cycles h hsmall hdirs hruns hfound
  rw [← hperm'.length_eq] at hsmall
  obtain ⟨before, hbefore, hstored⟩ := h.on_stored
  obtain ⟨after, hafter, hstored'⟩ := h'.on_stored
  refine ⟨⟨before, after, hbefore, hafter, hstored'.trans (hperm'.trans hstored.symm)⟩,
    fun e o hdir => ?_⟩
  subst hdir
  exact conserves_of_stocked h' hsmall

namespace Overlap

lemma fits_of_hasRoom (hfinds : ∀ d : Disk, d.workDir = [] → d.tree.node? ["x"] = some .dir →
      d.Finds dir [])
    (hroom : ∀ name ∈ ["x", "y", directoryName ⟨4⟩], dir.hasRoom name = true
      ∧ ∀ file ∈ newNames 1, (⟨dir.way ++ [name]⟩ : Path).hasRoom file = true) : Fits dir where
  finds := hfinds
  room name hname := by
    rw [div_eq dir (isName_of_mem name hname)]
    exact hroom name hname

lemma finds_dot {d : Disk} (hwork : d.workDir = []) : d.Finds ⟨["."]⟩ [] := by
  refine ⟨?_, by simp [node?]⟩
  have hstart : d.start ⟨["."]⟩ = .ok [] := by
    rw [Disk.start, hwork]
    decide
  rw [Disk.locate, hstart]
  simp [Path.isEmpty, Disk.step, node?, bind, Except.bind, pure, Except.pure]

lemma fits_dot : Fits ⟨["."]⟩ := fits_of_hasRoom (fun _ hwork _ => finds_dot hwork) (by decide)

/-- Two overlapping indexes in the working directory are merged by a cycle. -/
lemma exists_on_merged (unit : Resolution) : ∃ d d' out,
    (makeIn unit ⟨["."]⟩).on start = (.ok (), d) ∧ Built ⟨["."]⟩ d [chunk]
    ∧ Stocked d ⟨["."]⟩ [] [("x", (Command.add [chunk]).result later), ("y", earlier unit)]
    ∧ ((engine ⟨["."]⟩).cycle origin).on d = (.ok out, d') ∧ d'.isDir ⟨["."]⟩ = true := by
  obtain ⟨d, hmake, hbuilt, hst, hcalm, hwork, hx, hnew⟩ := exists_on_makeIn fits_dot unit
  obtain ⟨out, d', hcycle, hwork', -⟩ := exists_on_cycle fits_dot hst hcalm hwork hx hnew
  exact ⟨d, d', out, hmake, hbuilt, hst, hcycle, Disk.isDir_iff.mpr ⟨[], finds_dot hwork'⟩⟩

lemma locate_back (d : Disk) (hwork : d.workDir = []) : d.locate ⟨["x", ".."]⟩
    = match d.tree.node? ["x"] with
      | none => .error .notFound
      | some (.file _) => .error .other
      | some .dir => .ok [] := by
  have hstart : d.start ⟨["x", ".."]⟩ = .ok [] := by
    rw [Disk.start, hwork]
    decide
  have hroot : Disk.step d.tree [] "x" = .ok ["x"] := by
    simp only [Disk.step, node?, if_true]
    decide
  have hwalk : d.locate ⟨["x", ".."]⟩ = Disk.step d.tree ["x"] ".." := by
    rw [Disk.locate, hstart]
    simp only [Path.isEmpty, bind, Except.bind, List.foldlM, hroot]
    exact bind_pure (Disk.step d.tree ["x"] "..")
  rw [hwalk, Disk.step]
  rcases d.tree.node? ["x"] with _ | _ | _ <;> rfl

lemma finds_back (d : Disk) (hwork : d.workDir = []) (hx : d.tree.node? ["x"] = some .dir) :
    d.Finds ⟨["x", ".."]⟩ [] := ⟨by rw [locate_back d hwork, hx], by simp [node?]⟩

end Overlap

/-- Two overlapping indexes in the working directory are merged. -/
theorem cycles_conserve_overlap : ∃ (d d' : Disk) (outs : List CycleOutcome),
    Built ⟨["."]⟩ d [Overlap.chunk]
    ∧ (cycles [(Overlap.engine ⟨["."]⟩, Overlap.origin)]).on d = (.ok outs, d')
    ∧ (∃ before after, (stored ⟨["."]⟩).on d = (.ok before, d)
      ∧ (stored ⟨["."]⟩).on d' = (.ok after, d') ∧ after.Perm before)
    ∧ ∀ (e : Engine) (o : Origin), e.dataDir = ⟨["."]⟩ → e.Conserves o d' := by
  obtain ⟨d, d', out, -, hbuilt, -, hcycle, hdir⟩ := Overlap.exists_on_merged .seconds
  have hcycles : (cycles [(Overlap.engine ⟨["."]⟩, Overlap.origin)]).on d = (.ok [out], d') :=
    on_cycles_single hcycle
  exact ⟨d, d', [out], hbuilt, hcycles, cycles_conserve hbuilt (by decide)
    (fun run hrun => by rw [List.mem_singleton.mp hrun]; rfl) hcycles hdir⟩

/-- A data directory that is reached through the directory of one of its indexes is not found any
more once this index has been merged into another. -/
theorem cycles_lose_way : ∃ (d d' : Disk) (outs : List CycleOutcome),
    (Overlap.make ⟨["x", ".."]⟩).on Overlap.start = (.ok (), d)
    ∧ Built ⟨["x", ".."]⟩ d [Overlap.chunk]
    ∧ (cycles [(Overlap.engine ⟨["x", ".."]⟩, Overlap.origin)]).on d = (.ok outs, d')
    ∧ (stored ⟨["x", ".."]⟩).on d = (.ok [Overlap.chunk], d)
    ∧ (stored ⟨["x", ".."]⟩).on d' = (.ok [], d') := by
  have hfits : Overlap.Fits ⟨["x", ".."]⟩ := Overlap.fits_of_hasRoom Overlap.finds_back (by decide)
  obtain ⟨d, hmake, hbuilt, hst, hcalm, hwork, hx, hnew⟩ :=
    Overlap.exists_on_makeIn hfits .seconds
  obtain ⟨out, d', hcycle, hwork', hgone⟩ := Overlap.exists_on_cycle hfits hst hcalm hwork hx hnew
  obtain ⟨es, hstored, hes⟩ := hst.on_stored
  obtain rfl := List.perm_singleton.mp (show es.Perm [Overlap.chunk] from hes)
  have hlost : d'.exists? ⟨["x", ".."]⟩ = false := by
    rw [Disk.exists?, Disk.find?, Overlap.locate_back d' hwork', hgone]
    rfl
  refine ⟨d, d', [out], hmake, hbuilt, on_cycles_single hcycle, hstored, ?_⟩
  rw [stored, DiskM.on_bind_ok (on_load_of_not_exists hlost)]
  rfl

end SeriesStore.Engine
