import SeriesStore.Engine
import SeriesStore.Proofs.Compaction.Planning
import SeriesStore.Proofs.Index.Stock

/-!
# Merging into a new index

The chunks of some indexes, put in order, always suit a new index for the common range of the
sources. Once they stand in it, the sources are removed.
-/

namespace SeriesStore

open Index SeriesStore.Path SeriesStore.Tree

/-! ### Order -/

namespace SizeTiered

/-- The same entries in the order of their starts. Those that start together are in the order in
which they come in `es`. -/
structure Arranges (es out : List Entry) : Prop where
  perm : out.Perm es
  sorted : out.Pairwise (·.min ≤ ·.min)
  stable : ∀ t, out.filter (·.min = t) = es.filter (·.min = t)

lemma arranges_byStart (es : List Entry) : Arranges es (byStart es) := by
  have htrans (a b c : Entry) (hab : decide (a.min ≤ b.min) = true)
      (hbc : decide (b.min ≤ c.min) = true) : decide (a.min ≤ c.min) = true := by
    simp only [decide_eq_true_eq] at *
    exact Int64.le_trans hab hbc
  have htotal (a b : Entry) : (decide (a.min ≤ b.min) || decide (b.min ≤ a.min)) = true := by
    simpa using Int64.le_total a.min b.min
  have hperm : (byStart es).Perm es := List.mergeSort_perm es _
  refine ⟨hperm, ?_, fun t => ?_⟩
  · refine (List.pairwise_mergeSort htrans htotal es).imp ?_
    simp
  · have hpairs : (es.filter (·.min = t)).Pairwise fun a b => decide (a.min ≤ b.min) = true := by
      refine List.pairwise_of_forall_mem_list ?_
      intro a ha b hb
      simp only [List.mem_filter, decide_eq_true_eq] at ha hb ⊢
      rw [ha.2, hb.2]
      exact Int64.le_refl t
    have hsub : (es.filter (·.min = t)).Sublist (byStart es) :=
      List.sublist_mergeSort htrans htotal hpairs List.filter_sublist
    have hsub' := hsub.filter (·.min = t)
    rw [List.filter_filter] at hsub'
    simp only [Bool.and_self] at hsub'
    exact (hsub'.eq_of_length (hperm.filter _).length_eq.symm).symm

/-- Entries that lie in a range pass the check when they are in order. -/
lemma check_byStart {range : TimeRange} {es : List Entry} (h : ∀ e ∈ es, InRange range e) :
    check range none (byStart es) = .ok () := by
  have harr := arranges_byStart es
  rw [check_eq_ok_iff]
  refine ⟨fun e he => h e (harr.perm.mem_iff.mp he), ?_⟩
  simp only [Option.toList_none, List.nil_append]
  exact (List.pairwise_map.mpr harr.sorted).isChain

end SizeTiered

/-! ### Copying -/

variable {d d' : Disk} {dir : Path} {p : Place} {cs l rest : List (String × Contents)}
  {name : String}

lemma inRange_of_covers {range : TimeRange} {c : Contents} (h : c.Sound)
    (hcovers : range.covers c.range = true) {e : Entry} (he : e ∈ c.entries) : InRange range e := by
  obtain ⟨hbounds, hmin, hmax⟩ := (check_eq_ok_iff.mp h.ordered).1 e he
  exact ⟨hbounds, TimeRange.contains_of_covers hcovers hmin,
    TimeRange.contains_of_covers hcovers hmax⟩

/-- Sources in a common range are read in full, and their entries added in order. -/
lemma on_compact (h : Stocked d dir p cs) (hl : ∀ g ∈ l, g ∈ cs) (hne : l ≠ []) (new : Index)
    (hcovers : ∀ g ∈ l, new.range.covers g.2.range = true) :
    (SizeTiered.compact (l.map (named dir)) new).on d
      = (new.addChunks (SizeTiered.byStart (entriesIn l))).on d := by
  have hempty : (l.map (named dir)).isEmpty = false := by simpa using hne
  have hfind : ((l.map (named dir)).find? fun ix => !new.range.covers ix.range) = none := by
    simp only [List.find?_eq_none, List.mem_map]
    rintro _ ⟨g, hg, rfl⟩
    have hrange : (named dir g).range = g.2.range := rfl
    simp [hrange, hcovers g hg]
  have hchunks := h.on_mapM_chunks hl
  simp only [SizeTiered.compact, hempty, hfind, Bool.false_eq_true, if_false]
  rw [DiskM.on_bind_ok hchunks, entriesIn, List.flatMap_def]

/-! ### Removing sources -/

lemma delete_spec {d₀ : Disk} (h : d₀.LeadsTo dir p) (hwork : d.workDir = d₀.workDir)
    {g : String × Contents} (hname : IsName g.1) :
    (delete (named dir g)).Spec d (fun _ _ => True) fun r d' => d'.workDir = d₀.workDir ∧
      match r with
      | .ok _ => Emptied [p ++ [g.1]] d.tree d'.tree
      | .error e => d'.tree = d.tree ∧ ∃ io, e = .io io := by
  refine (DiskM.removeAll_spec (DiskM.endsInDot_div dir hname)).bind (fun a d₁ hremoved => ?_)
    fun e d₁ hremoved => ?_
  · obtain ⟨q, hfinds, hemptied, -⟩ := hremoved.ok a rfl
    obtain ⟨p', hp'⟩ := Disk.leadsTo_of_locate hname hfinds.locate
    obtain rfl := h.unique_of_workDir hp' hwork
    obtain ⟨rfl, -⟩ := hp'.of_div hname hfinds.leadsTo
    exact .of_on (r := .ok _) rfl ⟨hremoved.workDir.trans hwork, hemptied⟩
  · obtain ⟨hsame, hio, -⟩ := hremoved.error e rfl
    exact ⟨hremoved.workDir.trans hwork, hsame, hio⟩

/-- On a calm disk, an index that is found is removed. Its directory goes too, if the path to it
does not lead through what was in it. -/
lemma exists_on_delete (hcalm : d.Calm) (h : d.Finds dir p) {g : String × Contents}
    (hname : IsName g.1) (hroom : dir.hasRoom g.1 = true)
    (hdir : d.tree.node? (p ++ [g.1]) = some .dir) :
    ∃ ix d', (delete (named dir g)).on d = (.ok ix, d') ∧ d'.workDir = d.workDir ∧ d'.Calm
      ∧ Emptied [p ++ [g.1]] d.tree d'.tree
      ∧ (Disk.Finds { d with tree := d.tree.clear (p ++ [g.1]) } dir p →
        d'.tree.node? (p ++ [g.1]) = none) := by
  have hspec := DiskM.removeAll_spec (d := d) (DiskM.endsInDot_div dir hname)
  have hfaults := hspec.faults
  have hremoved := hspec.result
  have hfinds := h.leadsTo.finds_div hname hroom hdir
  rcases hon : (DiskM.removeAll (dir / g.1)).on d with ⟨e | a, d'⟩ <;> rw [hon] at hremoved hfaults
  · exact absurd hfinds ((hremoved.error e rfl).2.2 hcalm _)
  · obtain ⟨q, hq, hemptied, hgone⟩ := hremoved.ok a rfl
    obtain rfl : p ++ [g.1] = q := Except.ok.inj (hfinds.locate.symm.trans hq.locate)
    refine ⟨_, d', DiskM.on_bind_ok hon, hremoved.workDir, fun n c => by rw [hfaults, hcalm],
      hemptied, fun hstill => ?_⟩
    rw [hgone _ ((Disk.locate_div hstill.leadsTo hname).trans (if_pos hroom))]
    exact node?_eraseAll_inside (by simp) (List.prefix_refl _)

/-- Those of some indexes that stay when all of them are to be removed, one after the other. -/
def undeleted : List Index → Disk → List Index
  | [], _ => []
  | ix :: ixs, d =>
    match (delete ix).on d with
    | (.ok _, d') => undeleted ixs d'
    | (.error _, d') => ix :: undeleted ixs d'

/-- Removes an index. The result is the error if this fails. -/
private def deleteError? (ix : Index) : DiskM (Option StorageError) := do
  try
    let _ ← ix.delete
    return none
  catch error => return some error

private lemma on_deleteError?_tryCatch (ix : Index) (d : Disk) : (deleteError? ix).on d
    = (tryCatch (ix.delete >>= fun _ => pure none) fun e => pure (some e) :
      DiskM (Option StorageError)).on d := by
  rw [deleteError?, DiskM.on_bind, DiskM.on_tryCatch, DiskM.on_tryCatch, DiskM.on_bind,
    DiskM.on_bind]
  rcases ix.delete.on d with ⟨_ | _, _⟩ <;> rfl

private lemma on_deleteError? (ix : Index) (d : Disk) : (deleteError? ix).on d
    = match (delete ix).on d with
      | (.ok _, d') => (.ok none, d')
      | (.error e, d') => (.ok (some e), d') := by
  rw [on_deleteError?_tryCatch, DiskM.on_tryCatch, DiskM.on_bind]
  rcases ix.delete.on d with ⟨_ | _, _⟩ <;> rfl

private def reportFirst (errors : List StorageError) : DiskM Unit :=
  match errors.head? with
  | some error => throw error
  | none => pure ()

private lemma on_reportFirst (errors : List StorageError) (d : Disk) : (reportFirst errors).on d
    = (match errors.head? with
      | some e => .error e
      | none => .ok (), d) := by
  cases errors <;> rfl

private lemma on_deleteAll (ixs : List Index) (d : Disk) : (Engine.deleteAll ixs).on d
    = (ixs.filterMapM deleteError? >>= reportFirst : DiskM Unit).on d := rfl

private lemma exists_on_errors (ixs : List Index) (d : Disk) :
    ∃ errors d', (ixs.filterMapM deleteError?).on d = (.ok errors, d') := by
  induction ixs generalizing d with
  | nil => exact ⟨[], d, rfl⟩
  | cons ix ixs ih =>
    have hfirst := on_deleteError? ix d
    rw [List.filterMapM_cons]
    rcases hon : (delete ix).on d with ⟨e | ix', d₁⟩ <;> rw [hon] at hfirst <;>
      obtain ⟨errors, d', herrors⟩ := ih d₁
    · exact ⟨e :: errors, d', by rw [DiskM.on_bind_ok hfirst, DiskM.on_bind_ok herrors]; rfl⟩
    · exact ⟨errors, d', by rw [DiskM.on_bind_ok hfirst, herrors]⟩

/-- Indexes are removed one by one. A failure is reported, and does not keep the others. -/
lemma on_deleteAll_cons (ix : Index) (ixs : List Index) (d : Disk) :
    (Engine.deleteAll (ix :: ixs)).on d = match (delete ix).on d with
      | (.ok _, d') => (Engine.deleteAll ixs).on d'
      | (.error e, d') => (.error e, ((Engine.deleteAll ixs).on d').2) := by
  have hfirst := on_deleteError? ix d
  rw [on_deleteAll, List.filterMapM_cons, DiskM.on_bind]
  rcases hon : (delete ix).on d with ⟨e | ix', d₁⟩ <;> rw [hon] at hfirst <;>
    obtain ⟨errors, d', herrors⟩ := exists_on_errors ixs d₁
  · have hrest : ((Engine.deleteAll ixs).on d₁).2 = d' := by
      rw [on_deleteAll, DiskM.on_bind_ok herrors, on_reportFirst]
    rw [DiskM.on_bind_ok hfirst, DiskM.on_bind_ok herrors]
    simp only [hrest]
    rfl
  · rw [DiskM.on_bind_ok hfirst, ← DiskM.on_bind]
    rfl

/-- What is known after all of several indexes were to be removed. -/
structure Deleted (dir : Path) (p : Place) (l : List (String × Contents)) (d : Disk)
    (r : Except StorageError Unit) (d' : Disk) : Prop where
  workDir : d'.workDir = d.workDir
  /-- Those that could not be removed stay, and there are none only if no failure is reported. -/
  parts : ∃ gone kept, l.Perm (gone ++ kept)
    ∧ undeleted (l.map (named dir)) d = kept.map (named dir)
    ∧ Emptied (gone.map fun g => p ++ [g.1]) d.tree d'.tree ∧ (r = .ok () ↔ kept = [])
  error : ∀ e, r = .error e → ∃ io, e = .io io

lemma deleted_of_on {d₀ : Disk} (h : d₀.LeadsTo dir p) (hwork : d.workDir = d₀.workDir)
    (hname : ∀ g ∈ l, IsName g.1) : Deleted dir p l d
      ((Engine.deleteAll (l.map (named dir))).on d).1
      ((Engine.deleteAll (l.map (named dir))).on d).2 := by
  induction l generalizing d with
  | nil => exact ⟨rfl, ⟨[], [], .nil, rfl, .nil _, by simp; rfl⟩, fun _ he => nomatch he⟩
  | cons g l ih =>
    have hdelete := (delete_spec h hwork (hname g List.mem_cons_self)).result
    rw [List.map_cons, on_deleteAll_cons]
    rcases hon : (delete (named dir g)).on d with ⟨e | ix, d₁⟩ <;> rw [hon] at hdelete <;>
      obtain ⟨hwork₁, hout⟩ := hdelete <;>
      obtain ⟨hwork', ⟨gone, kept, hperm, hkept, hemptied, hok⟩, herror⟩ :=
        ih hwork₁ fun g hg => hname g (List.mem_cons_of_mem _ hg)
    · obtain ⟨hsame, io, rfl⟩ := hout
      refine ⟨hwork'.trans (hwork₁.trans hwork.symm), ⟨gone, g :: kept, ?_, ?_, ?_, by simp⟩, ?_⟩
      · exact (hperm.cons g).trans List.perm_middle.symm
      · simp [undeleted, hon, hkept]
      · rw [← hsame]
        exact hemptied
      · intro e he
        cases he
        exact ⟨io, rfl⟩
    · refine ⟨hwork'.trans (hwork₁.trans hwork.symm), ⟨g :: gone, kept, hperm.cons g, ?_, ?_, hok⟩,
        herror⟩
      · simp [undeleted, hon, hkept]
      · exact Emptied.cons hout hemptied

/-- All of several indexes are removed, or a failure of the disk is reported. -/
lemma deleteAll_spec {d₀ : Disk} (h : d₀.LeadsTo dir p) (hwork : d.workDir = d₀.workDir)
    (hname : ∀ g ∈ l, IsName g.1) : (Engine.deleteAll (l.map (named dir))).Spec d (fun _ _ => True)
      (Deleted dir p l d) := by
  refine DiskM.Spec.settle (Q := fun _ _ => True) ?_ (deleted_of_on h hwork hname)
  -- all removals are tried, and the failures are collected
  have herrors : ((l.map (named dir)).filterMapM deleteError?).Spec d (fun _ _ => True)
      fun _ _ => True := by
    induction l generalizing d with
    | nil => exact .of_on (r := .ok []) rfl trivial
    | cons g l ih =>
      have hfirst : (deleteError? (named dir g)).Spec d (fun _ _ => True)
          fun _ d' => d'.workDir = d₀.workDir := by
        refine .of_on_eq (on_deleteError?_tryCatch _ d) (.tryCatch (Q := fun _ d' =>
          d'.workDir = d₀.workDir) ((delete_spec h hwork (hname g List.mem_cons_self)).bind ?_ ?_)
          ?_ ?_)
        · exact fun _ d' hd' => .of_on (r := .ok none) rfl hd'.1
        · exact fun _ d' hd' => hd'.1
        · exact fun _ d' hd' => hd'
        · exact fun e d' hd' => .of_on (r := .ok (some e)) rfl hd'
      rw [List.map_cons, List.filterMapM_cons]
      refine hfirst.bind ?_ fun _ _ _ => trivial
      intro error d₁ hwork₁
      have hrest := ih hwork₁ fun g hg => hname g (List.mem_cons_of_mem _ hg)
      cases error with
      | none => exact hrest
      | some e =>
        exact hrest.bind (fun _ d₂ _ => .of_on (r := .ok _) rfl trivial) fun _ _ _ => trivial
  refine herrors.bind ?_ fun _ _ _ => trivial
  intro errors d₁ _
  cases errors with
  | nil => exact .of_on (r := .ok ()) rfl trivial
  | cons e errors => exact .of_on (r := .error e) rfl trivial

/-! ### Merging -/

/-- Entries from a common range, in order, suit a new index for it. -/
lemma suits_byStart {range : TimeRange} (id : Uid) (resolution : Resolution) (createdAt : Instant)
    (hsound : ∀ g ∈ l, g.2.Sound) (hcovers : ∀ g ∈ l, range.covers g.2.range = true) :
    (Command.add (SizeTiered.byStart (entriesIn l))).Suits
      (Contents.empty id range resolution createdAt) := by
  refine fun _ => ⟨SizeTiered.check_byStart fun e he => ?_,
    Layout.oversized?_eq_none_iff.mpr fun e he => ?_⟩
  · obtain ⟨g, hg, he⟩ := List.mem_flatMap.mp he
    exact inRange_of_covers (hsound g hg) (hcovers g hg) he
  · rw [(SizeTiered.arranges_byStart _).perm.mem_iff] at he
    obtain ⟨g, hg, he⟩ := List.mem_flatMap.mp he
    exact (hsound g hg).length_record_lt he

/-- Makes a new index and fills it with the chunks of others. If that fails, the new index is
removed again. -/
def Engine.fillNew (dataDir : Path) (planned : List Index) (range : TimeRange)
    (resolution : Resolution) (o : Origin) : DiskM Index := do
  let new ← Index.createIn dataDir range resolution o
  try SizeTiered.compact planned new
  catch error => do
    DiskM.attempt (discard new.delete)
    throw error

lemma mergeIntoNew_eq (dataDir : Path) (planned : List Index) (range : TimeRange)
    (resolution : Resolution) (o : Origin) :
    Engine.mergeIntoNew dataDir planned range resolution o = (do
      let full ← Engine.fillNew dataDir planned range resolution o
      Engine.deleteAll planned
      return full) := by
  simp only [Engine.mergeIntoNew, Engine.fillNew, bind_assoc]

/-- On a calm disk that has room for it, a new index is filled with the entries of its sources. -/
lemma exists_on_fillNew (h : Stocked d dir p cs) (hcalm : d.Calm) (hl : ∀ g ∈ l, g ∈ cs)
    (hne : l ≠ []) {range : TimeRange} (hspans : range.Spans (l.map (·.2.range)))
    (hsmall : 28 * (entriesIn l).length < 2 ^ 32) (resolution : Resolution) {o : Origin}
    (hroom : Welcomes d dir p (directoryName o.dirId))
    (hnew : directoryName o.dirId ∉ cs.map Prod.fst) :
    ∃ new d', (Engine.fillNew dir (l.map (named dir)) range resolution o).on d = (.ok new, d')
      ∧ d.Beside p (directoryName o.dirId) d' := by
  have hcovers (g) (hg : g ∈ l) : range.covers g.2.range = true :=
    hspans.covers _ (List.mem_map_of_mem hg)
  obtain ⟨d₁, hcreate, hbeside₁, h₁⟩ := h.exists_on_create hcalm hnew hroom range
    resolution o.id o.createdAt
  have hentries : ((Contents.empty o.id range resolution o.createdAt).entries
      ++ (Command.add (SizeTiered.byStart (entriesIn l))).entries).length = (entriesIn l).length :=
    (SizeTiered.arranges_byStart _).perm.length_eq
  obtain ⟨d₂, hrun, hbeside₂, -⟩ := h₁.exists_on_run (hbeside₁.calm hcalm) List.mem_cons_self
    (fun file hfile => hbeside₁.accepts (hroom.files file hfile))
    (suits_byStart _ _ _ (fun g hg => (h.held g (hl g hg)).sound) hcovers) (by rwa [hentries])
  have hcompact := on_compact h₁ (fun g hg => List.mem_cons_of_mem _ (hl g hg)) hne
    (named dir (directoryName o.dirId, Contents.empty o.id range resolution o.createdAt)) hcovers
  rw [Command.run, ← hcompact] at hrun
  refine ⟨named dir (directoryName o.dirId, (Command.add (SizeTiered.byStart (entriesIn l))).result
    (.empty o.id range resolution o.createdAt)), d₂, ?_, hbeside₁.trans hbeside₂⟩
  rw [Engine.fillNew, createIn, DiskM.on_bind_ok hcreate, DiskM.on_tryCatch, hrun]

/-- What is known after a new index has been filled with what some others hold. -/
structure Filled (d : Disk) (dir : Path) (p : Place) (cs l : List (String × Contents))
    (range : TimeRange) (resolution : Resolution) (o : Origin) (c : Contents) (d' : Disk) :
    Prop where
  beside : d.Beside p (directoryName o.dirId) d'
  identity : c.identity = (o.id, range, resolution, o.createdAt)
  entries : c.entries = SizeTiered.byStart (entriesIn l)
  stocked : Stocked d' dir p ((directoryName o.dirId, c) :: cs)

/-- A new index can be filled unless the disk fails, or there is an index under the new name
already. -/
theorem fillNew_spec (h : Stocked d dir p cs) (hl : ∀ g ∈ l, g ∈ cs) (hne : l ≠ [])
    {range : TimeRange} (hspans : range.Spans (l.map (·.2.range)))
    (hsmall : 28 * (entriesIn l).length < 2 ^ 32) {resolution : Resolution} {o : Origin} :
    (Engine.fillNew dir (l.map (named dir)) range resolution o).Spec d (fun _ _ => True)
      fun r d' => match r with
        | .ok ix => ∃ c, ix = named dir (directoryName o.dirId, c)
          ∧ Filled d dir p cs l range resolution o c d'
        | .error e => (∃ io, e = .io io)
          ∨ e = .invalidIndex (.alreadyExists (dir / directoryName o.dirId)) := by
  have hcovers (g) (hg : g ∈ l) : range.covers g.2.range = true :=
    hspans.covers _ (List.mem_map_of_mem hg)
  have hsuits := suits_byStart o.id resolution o.createdAt
    (fun g hg => (h.held g (hl g hg)).sound) hcovers
  rw [Engine.fillNew]
  refine (h.create_spec (isName_directoryName o.dirId) range resolution o.id o.createdAt).bind
    (fun ix d₁ hcreated => ?_) fun e d₁ hfailed => hfailed.2.2.imp_left fun he => ⟨_, he⟩
  obtain ⟨hbeside₁, hnew, rfl, h₁⟩ := hcreated
  -- the new index gets all chunks by one command
  have hon := on_compact h₁ (fun g hg => List.mem_cons_of_mem _ (hl g hg)) hne
    (named dir (directoryName o.dirId, Contents.empty o.id range resolution o.createdAt)) hcovers
  have hcompact := DiskM.Spec.of_on_eq hon
    (h₁.run_spec List.mem_cons_self (.add (SizeTiered.byStart (entriesIn l))))
  rw [List.filter_cons_of_neg (by simp), filter_ne_of_not_mem hnew] at hcompact
  refine hcompact.tryCatch (fun ix d₂ hout => ?_) fun e d₂ hout => ?_
  · obtain ⟨hbeside₂, hix, hst⟩ := hout
    refine ⟨_, hix, hbeside₁.trans hbeside₂, ?_, ?_, hst ?_⟩
    · rw [Command.identity_result]
      rfl
    · rw [Command.entries_result]
      rfl
    · change 28 * ([] ++ SizeTiered.byStart (entriesIn l)).length < 2 ^ 32
      rwa [List.nil_append, (SizeTiered.arranges_byStart _).perm.length_eq]
  · -- the new index is removed again, and the error stays
    obtain ⟨hbeside₂, -, he⟩ := hout
    refine (((delete_spec h₁.finds.leadsTo hbeside₂.workDir
      (isName_directoryName o.dirId)).bind (R := fun _ _ => True) (fun _ _ _ => ?_)
        fun _ _ _ => trivial).attempt (R := fun r _ => r = .ok ()) fun _ _ _ => rfl).bind
      (fun _ d₃ _ => .of_on (r := .error e) rfl (.inl ⟨_, he hsuits⟩)) fun _ _ hok => (by cases hok)
    exact .of_on (r := .ok ()) rfl trivial

/-- What is known after some indexes have been merged into a new one, and the others are left. -/
structure Merged (d : Disk) (dir : Path) (p : Place) (l rest : List (String × Contents))
    (name : String) (c : Contents) (d' : Disk) : Prop where
  workDir : d'.workDir = d.workDir
  entries : c.entries = SizeTiered.byStart (entriesIn l)
  others : ∀ q, ¬p ++ [name] <+: q → (∀ g ∈ l, ¬p ++ [g.1] <+: q) →
    d'.tree.node? q = d.tree.node? q
  stocked : d'.isDir dir = true → Stocked d' dir p ((name, c) :: rest)

/-- Where not all sources could be removed, the new index stands beside those that are left. -/
lemma Filled.stocked_of_deleted {range : TimeRange} {resolution : Resolution} {o : Origin}
    {c : Contents} {d₁ : Disk} {gone kept : List (String × Contents)}
    (h : Filled d dir p cs l range resolution o c d₁) (hperm : cs.Perm (l ++ rest))
    (hparts : l.Perm (gone ++ kept)) (hwork : d'.workDir = d₁.workDir)
    (hemptied : Emptied (gone.map fun g => p ++ [g.1]) d₁.tree d'.tree)
    (hdir : d'.isDir dir = true) :
    Stocked d' dir p ((directoryName o.dirId, c) :: (kept ++ rest)) := by
  obtain ⟨p', hfinds⟩ := Disk.isDir_iff.mp hdir
  obtain rfl := h.stocked.finds.leadsTo.unique_of_workDir hfinds.leadsTo hwork
  refine (h.stocked.perm ?_).emptied hemptied hfinds
  calc (directoryName o.dirId, c) :: cs
      |>.Perm ((directoryName o.dirId, c) :: (gone ++ kept ++ rest)) :=
        (hperm.trans (hparts.append_right rest)).cons _
    _ |>.Perm (gone ++ ((directoryName o.dirId, c) :: (kept ++ rest))) := by
      rw [List.append_assoc]
      exact List.perm_middle.symm

/-- Merging into a new index fails only if the disk fails, or if there is an index under the new
name already. -/
theorem mergeIntoNew_spec (h : Stocked d dir p cs) (hperm : cs.Perm (l ++ rest)) (hne : l ≠ [])
    {range : TimeRange} (hspans : range.Spans (l.map (·.2.range)))
    (hsmall : 28 * (entriesIn cs).length < 2 ^ 32) {resolution : Resolution} {o : Origin} :
    (Engine.mergeIntoNew dir (l.map (named dir)) range resolution o).Spec d (fun _ _ => True)
      fun r d' => match r with
        | .ok ix => ∃ c, ix = named dir (directoryName o.dirId, c)
          ∧ c.identity = (o.id, range, resolution, o.createdAt)
          ∧ Merged d dir p l rest (directoryName o.dirId) c d'
        | .error e => (∃ io, e = .io io)
          ∨ e = .invalidIndex (.alreadyExists (dir / directoryName o.dirId)) := by
  have hl (g) (hg : g ∈ l) : g ∈ cs := hperm.mem_iff.mpr (List.mem_append_left _ hg)
  have hle : (entriesIn l).length ≤ (entriesIn cs).length := by
    rw [(entriesIn_perm hperm).length_eq]
    simp [entriesIn]
  rw [mergeIntoNew_eq]
  refine (fillNew_spec h hl hne hspans (by omega)).bind (fun ix d₁ hfilled => ?_)
    fun e d₁ he => he
  obtain ⟨c, rfl, hfilled⟩ := hfilled
  refine (deleteAll_spec hfilled.stocked.finds.leadsTo rfl
    fun g hg => h.isName_of_mem (hl g hg)).bind
    (fun _ d₂ hdeleted => ?_) fun e d₂ hfailed => .inl (hfailed.error e rfl)
  obtain ⟨hwork, ⟨gone, kept, hparts, -, hemptied, hok⟩, -⟩ := hdeleted
  obtain rfl := hok.mp rfl
  refine .of_on (r := .ok _) rfl ⟨c, rfl, hfilled.identity, hwork.trans hfilled.beside.workDir,
    hfilled.entries, fun q hq hq' => ?_, hfilled.stocked_of_deleted hperm hparts hwork hemptied⟩
  have hsources : ∀ r ∈ gone.map fun g => p ++ [g.1], ¬r <+: q := by
    intro r hr
    obtain ⟨g, hg, rfl⟩ := List.mem_map.mp hr
    exact hq' g (hparts.mem_iff.mpr (List.mem_append_left _ hg))
  rw [hemptied.others q hsources, hfilled.beside.others q hq]

end SeriesStore
