import SeriesStore.Proofs.Index.History
import SeriesStore.Proofs.Index.Reopening

/-!
# Indexes with any manifest

A manifest may list files of any names, in any order, one file several times or files in other
directories, and any number for the next segment file. A change writes the files that the number
stands for, and lists all segments that stay by the last parts of their paths.
-/

namespace SeriesStore.Index

open SeriesStore.Path SeriesStore.Tree

variable {d d' : Disk} {dir : Path} {p : Place} {ix ix' : Index} {es new : List Entry}
  {groups : List (List Entry)}

/-! ### Commands -/

namespace Command

/-- The segments that a command merges. -/
def merged (ix : Index) : Command → List Segment
  | merge target =>
    if ix.segments.length ≤ target.toNat then []
    else ix.segments.take (ix.segments.length - target.toNat + 1)
  | add _ | reopen => []

/-- Whether a command writes a new segment. -/
def Writes (ix : Index) : Command → Prop
  | add es => es ≠ []
  | merge target => target.toNat < ix.segments.length
  | reopen => False

/-- A command leaves the files alone that hold the chunks from then on. The segments that it does
not merge can be listed, the new segment is not written over a merged one, and it does not have too
many chunks. -/
structure Safe (d : Disk) (ix : Index) (cmd : Command) : Prop where
  listable : ∀ s ∈ ix.segments.drop (cmd.merged ix).length, Listable d ix (cmd.merged ix) s
  apart : ∀ s ∈ cmd.merged ix, ¬d.Meets s.path (ix.segmentPath ix.nextSegment)
  small : 28 * (((cmd.merged ix).map Segment.size).sum + cmd.entries.length) < 2 ^ 32

end Command

/-- Different names in a directory lead to different files. -/
lemma eq_of_meets (hd : d.LeadsTo dir p) {name name' : String} (hname : IsName name)
    (hname' : IsName name') (h : d.Meets (dir / name) (dir / name')) : name = name' := by
  obtain ⟨q, hq, hq'⟩ := h
  rw [Disk.locate_div hd hname] at hq
  rw [Disk.locate_div hd hname'] at hq'
  split_ifs at hq hq'
  simpa using (Except.ok.inj hq).trans (Except.ok.inj hq').symm

lemma Command.merged_eq_take (ix : Index) (cmd : Command) :
    cmd.merged ix = ix.segments.take (cmd.merged ix).length := by
  refine List.prefix_iff_eq_take.mp ?_
  cases cmd with
  | add es => exact List.nil_prefix
  | merge target =>
    simp only [merged]
    split_ifs
    · exact List.nil_prefix
    · exact List.take_prefix _ _
  | reopen => exact List.nil_prefix

/-- Commands are safe for an index whose files have different names in its directory, none of which
is taken by a new segment. -/
lemma Command.safe_of_names {cmd : Command} (names : List String) (hd : d.LeadsTo ix.dir p)
    (hpaths : ix.segments.map Segment.path = names.map (ix.dir / ·))
    (hnames : ∀ name ∈ names, IsName name ∧ name ∉ newNames ix.nextSegment) (hnodup : names.Nodup)
    (hsmall : 28 * (((cmd.merged ix).map Segment.size).sum + cmd.entries.length) < 2 ^ 32) :
    cmd.Safe d ix := by
  -- merged segments have the first names, kept ones the others
  have hmerged : ∀ s ∈ cmd.merged ix,
      ∃ name ∈ names.take (cmd.merged ix).length, ix.dir / name = s.path := by
    intro s hs
    rw [merged_eq_take] at hs
    have hpath := List.mem_map_of_mem (f := Segment.path) hs
    rwa [List.map_take, hpaths, ← List.map_take, List.mem_map] at hpath
  have hkept : ∀ s ∈ ix.segments.drop (cmd.merged ix).length,
      ∃ name ∈ names.drop (cmd.merged ix).length, ix.dir / name = s.path := by
    intro s hs
    have hpath := List.mem_map_of_mem (f := Segment.path) hs
    rwa [List.map_drop, hpaths, ← List.map_drop, List.mem_map] at hpath
  refine ⟨fun s hs => ?_, fun s hs hmeets => ?_, hsmall⟩
  · obtain ⟨name, hname, hpath⟩ := hkept s hs
    obtain ⟨hisName, hnew⟩ := hnames name (List.mem_of_mem_drop hname)
    have hspared : Spared d ix (cmd.merged ix) (ix.dir / name) := by
      constructor
      · intro name' hname' hmeets
        have hsame := eq_of_meets hd hisName (isName_of_mem_newNames hname') hmeets
        exact hnew (hsame ▸ hname')
      · intro s' hs' hmeets
        obtain ⟨name', hname', hpath'⟩ := hmerged s' hs'
        rw [← hpath'] at hmeets
        have hsame := eq_of_meets hd hisName (hnames name' (List.mem_of_mem_take hname')).1 hmeets
        exact List.disjoint_take_drop hnodup le_rfl (hsame ▸ hname') hname
    -- a kept segment is listed under the name that it has
    have hlisted : ∀ name', s.fileName? = some name' → name' = name := by
      intro name' hfile
      rw [Segment.fileName?, ← hpath, fileName?_div ix.dir hisName] at hfile
      exact (Option.some.inj hfile).symm
    refine ⟨hpath ▸ hspared, fun name' hfile => ?_, fun name' hfile => ?_⟩
    · rw [hlisted name' hfile, hpath]
    · rwa [hlisted name' hfile]
  · obtain ⟨name, hname, hpath⟩ := hmerged s hs
    obtain ⟨hisName, hnew⟩ := hnames name (List.mem_of_mem_take hname)
    rw [← hpath] at hmeets
    have hsame := eq_of_meets hd hisName (isName_segmentName _) hmeets
    exact hnew (hsame ▸ segmentName_mem_newNames _)

lemma length_merged {target : UInt64} (htarget : target ≠ 0)
    (hmore : ¬ix.segments.length ≤ target.toNat) :
    ((Command.merge target).merged ix).length = ix.segments.length - target.toNat + 1 := by
  have hpos : 0 < target.toNat :=
    Nat.pos_of_ne_zero fun h0 => htarget (UInt64.toNat_inj.mp (by simpa using h0))
  simp only [Command.merged, hmore, if_false, List.length_take]
  omega

lemma length_flatten_of_intact {segments : List Segment}
    (h : List.Forall₂ (Segment.Intact d) segments groups) :
    groups.flatten.length = (segments.map Segment.size).sum := by
  induction h with
  | nil => rfl
  | cons hs _ ih => simp [hs.length_eq, ih]

/-- The segments that a safe command does not merge are intact and can be listed. -/
lemma Readable.listable_of_safe (hread : Readable d p ix groups) {cmd : Command}
    (hsafe : cmd.Safe d ix) :
    List.Forall₂ (fun s es => Segment.Intact d s es ∧ Listable d ix (cmd.merged ix) s)
      (ix.segments.drop (cmd.merged ix).length) (groups.drop (cmd.merged ix).length) := by
  have hkept := (List.forall₂_and_left _ _).mpr
    ⟨hsafe.listable, List.forall₂_drop (cmd.merged ix).length hread.intact⟩
  exact hkept.imp fun _ _ => And.symm

lemma gives_of_addChunks (hread : Readable d p ix groups) (hne : new ≠ [])
    (hsafe : (Command.add new).Safe d ix) (h : (addChunks ix new).on d = (.ok ix', d')) :
    Gives d' ix.dir ix' (groups.flatten ++ new) := by
  have hcheck : check ix.range ix.lastMin? new = .ok () := by
    cases hcheck : check ix.range ix.lastMin? new with
    | error fault =>
      simp only [addChunks, List.isEmpty_eq_false_iff.mpr hne, Bool.false_eq_true, if_false,
        hcheck] at h
      cases h
    | ok _ => rfl
  rw [addChunks_eq_install hne hcheck] at h
  obtain ⟨rfl, hplaced⟩ := placed_of_install hread.leadsTo h fun _ => rfl
  have hkept := hread.listable_of_safe hsafe
  have hsmall : 28 * new.length < 2 ^ 32 := by
    simpa [Command.merged, Command.entries] using hsafe.small
  have hgives := gives_of_placed [] hread hplaced (.refl d' _) (by simp) (by simp) hsmall
    (List.rel_append (hkept.imp fun _ _ => .inr) (.cons (.inl ⟨rfl, rfl⟩) .nil))
  simpa [Command.merged] using hgives

lemma gives_of_forceMerge (hread : Readable d p ix groups) {target : UInt64} {b : Bool}
    (htarget : target ≠ 0) (hmore : ¬ix.segments.length ≤ target.toNat)
    (hsafe : (Command.merge target).Safe d ix)
    (h : (forceMerge ix target).on d = (.ok (b, ix'), d')) :
    Gives d' ix.dir ix' groups.flatten := by
  have hkept := hread.listable_of_safe hsafe
  have htake := Command.merged_eq_take ix (.merge target)
  rw [forceMerge_eq_install htarget hmore (length_merged htarget hmore), ← htake] at h
  obtain ⟨new, d₁, hentries, h⟩ := DiskM.on_bind_eq_ok h
  obtain ⟨ix₁, d₂, hinstall, h⟩ := DiskM.on_bind_eq_ok h
  obtain ⟨_, d₃, hremove, h⟩ := DiskM.on_bind_eq_ok h
  cases h
  have hold : List.Forall₂ (Segment.Intact d) ((Command.merge target).merged ix)
      (groups.take ((Command.merge target).merged ix).length) := by
    have hfirst := List.forall₂_take ((Command.merge target).merged ix).length hread.intact
    rwa [← htake] at hfirst
  cases hentries.symm.trans (on_entriesOf_of_intact hold)
  obtain ⟨rfl, hplaced⟩ := placed_of_install hread.leadsTo hinstall fun _ => rfl
  have hgone := (DiskM.removeEach_changes Segment.path ((Command.merge target).merged ix) d₂).result
  rw [hremove] at hgone
  have hsmall : 28 * (groups.take ((Command.merge target).merged ix).length).flatten.length
      < 2 ^ 32 := by
    rw [length_flatten_of_intact hold]
    exact hsafe.small
  have hgives := gives_of_placed _ hread hplaced hgone.2
    (fun s hs => List.mem_of_mem_take (htake ▸ hs)) hsafe.apart hsmall
    (.cons (.inl ⟨rfl, rfl⟩) (hkept.imp fun _ _ => .inr))
  rwa [List.flatten_cons, ← List.flatten_append, List.take_append_drop] at hgives

/-- Whatever an index that opens lists in its manifest, if all its chunks can be read and a command
that writes a new segment leaves the files alone that hold the chunks from then on, then the open
index and a fresh opening of its directory both give the old chunks and the ones that the command
adds. -/
theorem run_keeps_chunks {cmd : Command} (hopen : (Index.open dir).on d = (.ok ix, d))
    (hchunks : (chunks ix).on d = (.ok es, d)) (hsafe : cmd.Writes ix → cmd.Safe d ix)
    (hrun : (cmd.run ix).on d = (.ok ix', d')) : Gives d' dir ix' (es ++ cmd.entries) := by
  obtain ⟨rfl, p, groups, hread, rfl⟩ := readable_of_open hopen hchunks
  have hsame : Gives d ix.dir ix groups.flatten := ⟨hchunks, ix, hopen, hchunks⟩
  cases cmd with
  | add new =>
    by_cases hne : new = []
    · subst hne
      cases hrun
      simpa [Command.entries] using hsame
    · exact gives_of_addChunks hread hne (hsafe hne) hrun
  | merge target =>
    rw [Command.entries, List.append_nil]
    obtain ⟨⟨b, ix₁⟩, d₁, hmerge, hrun⟩ := DiskM.on_bind_eq_ok hrun
    cases hrun
    by_cases htarget : target = 0
    · subst htarget
      cases hmerge
    · by_cases hmore : ix.segments.length ≤ target.toNat
      · rw [on_forceMerge_of_le htarget hmore] at hmerge
        cases hmerge
        exact hsame
      · exact gives_of_forceMerge hread htarget hmore (hsafe (not_le.mp hmore)) hmerge
  | reopen =>
    rw [Command.entries, List.append_nil]
    cases hopen.symm.trans hrun
    exact hsame

/-! ### Manifests that were written by hand -/

namespace Handmade

def chunk (t : Int64) : Entry := ⟨t, t, ⟨.xor, [0, 0]⟩⟩

/-- The directory of the index. -/
def home : Path := ⟨["i"]⟩

/-- A manifest that lists files of some names. -/
def manifest (names : List String) : Manifest :=
  ⟨⟨1⟩, ⟨0, 10, Session.Pair.range_valid⟩, .seconds, .newYear, names, 1⟩

/-- The open index with such a manifest. -/
def index (segments : List Segment) : Index :=
  ⟨home, (manifest []).id, (manifest []).range, .seconds, (manifest []).createdAt, segments, 1⟩

/-- The manifest stands in its directory and lists files with a chunk each, which stand anywhere. -/
def disk (listed : List (String × Int64)) (files : List (Place × Int64)) : Disk where
  tree := (["i"], .dir)
    :: (["i", manifestName], .file (Bytes.ofText (manifest (listed.map Prod.fst)).toText))
    :: files.map fun f => (f.1, .file (Layout.file [chunk f.2]))

/-- The segment with a chunk under a name in the manifest. -/
def segment (g : String × Int64) : Segment := .ofEntries (home / g.1) [chunk g.2]

variable {listed : List (String × Int64)} {files : List (Place × Int64)}

lemma leadsTo (listed : List (String × Int64)) (files : List (Place × Int64)) :
    (disk listed files).LeadsTo home ["i"] := ⟨rfl, rfl⟩

lemma calm (listed : List (String × Int64)) (files : List (Place × Int64)) :
    (disk listed files).Calm := fun _ _ => rfl

/-- The files of all names in a manifest are there. -/
def Complete (listed : List (String × Int64)) (d : Disk) : Prop :=
  ∀ g ∈ listed, d.read (home / g.1) = .ok (Layout.file [chunk g.2])

lemma Complete.intact {d : Disk} (h : Complete listed d) {g : String × Int64} (hg : g ∈ listed) :
    (segment g).Intact d [chunk g.2] := .of_read (by simp) rfl (h g hg)

/-- With all its files the index opens, and has the chunk of each. -/
lemma opens (h : Complete listed (disk listed files)) :
    (Index.open home).on (disk listed files)
        = (.ok (index (listed.map segment)), disk listed files)
      ∧ (chunks (index (listed.map segment))).on (disk listed files)
        = (.ok (listed.map fun g => chunk g.2), disk listed files) := by
  constructor
  · refine on_open_of_manifest (m := manifest (listed.map Prod.fst)) (leadsTo _ _) (by decide) rfl
      ?_
    rw [manifest, List.forall₂_map_left_iff, List.forall₂_map_right_iff, List.forall₂_same]
    exact fun g hg => (h.intact hg).opens
  · have hintact : List.Forall₂ (Segment.Intact (disk listed files)) (listed.map segment)
        (listed.map fun g => [chunk g.2]) := by
      rw [List.forall₂_map_left_iff, List.forall₂_map_right_iff, List.forall₂_same]
      exact fun g hg => h.intact hg
    rw [List.map_eq_flatMap (f := fun g : String × Int64 => chunk g.2), List.flatMap_def]
    exact on_entriesOf_of_intact hintact

lemma isName_a : IsName "a" := ⟨by decide, by decide, by decide, by decide, by decide⟩

lemma isName_b : IsName "b" := ⟨by decide, by decide, by decide, by decide, by decide⟩

lemma home_a : home / "a" = ⟨["i", "a"]⟩ := div_eq home isName_a

lemma home_b : home / "b" = ⟨["i", "b"]⟩ := div_eq home isName_b

/-- A chunk that passes the check is added. -/
lemma exists_on_add (listed : List (String × Int64)) (files : List (Place × Int64)) (t : Int64)
    {names : List String}
    (hcheck : check (manifest []).range (index (listed.map segment)).lastMin? [chunk t] = .ok ())
    (hacc : ∀ name ∈ newNames 1, (disk listed files).Accepts home ["i"] name)
    (hnames : List.Forall₂ (fun s name => s.fileName? = some name)
      (listed.map segment ++ [segment (segmentName 1, t)]) names) :
    ∃ d', ((Command.add [chunk t]).run (index (listed.map segment))).on (disk listed files)
        = (.ok ((index (listed.map segment)).appended (segment (segmentName 1, t))), d')
      ∧ Placed (disk listed files) home ["i"] 1 [chunk t]
        ((index (listed.map segment)).appended (segment (segmentName 1, t))) d' := by
  have hm : ((index (listed.map segment)).appended (.ofEntries (home / segmentName 1)
      [chunk t])).manifest = .ok _ := manifest_eq_ok_iff.mpr ⟨names, hnames, rfl⟩
  obtain ⟨d', hinstall⟩ := exists_on_install (leadsTo listed files) (calm listed files) hacc rfl
    (fun _ => rfl) hm
  refine ⟨d', ?_, (placed_of_install (leadsTo listed files) hinstall fun _ => rfl).2⟩
  rw [Command.run, addChunks_eq_install (by simp) hcheck]
  exact hinstall

end Handmade

/-- A chunk is added to an index whose files have no numbers. -/
theorem run_keeps_chunks_unnumbered : ∃ (d d' : Disk) (ix ix' : Index),
    (Index.open ⟨["i"]⟩).on d = (.ok ix, d)
    ∧ (chunks ix).on d = (.ok [Handmade.chunk 2, Handmade.chunk 1], d)
    ∧ ((Command.add [Handmade.chunk 3]).run ix).on d = (.ok ix', d')
    ∧ Gives d' ⟨["i"]⟩ ix' [Handmade.chunk 2, Handmade.chunk 1, Handmade.chunk 3] := by
  have hcomplete : Handmade.Complete [("b", 2), ("a", 1)]
      (Handmade.disk [("b", 2), ("a", 1)] [(["i", "a"], 1), (["i", "b"], 2)]) := by
    simp only [Handmade.Complete, List.forall_mem_cons, Handmade.home_a, Handmade.home_b]
    exact ⟨rfl, rfl, by simp⟩
  have hnames : List.Forall₂ (fun s name => s.fileName? = some name)
      [Handmade.segment ("b", 2), Handmade.segment ("a", 1), Handmade.segment (segmentName 1, 3)]
      ["b", "a", segmentName 1] :=
    .cons (fileName?_div _ Handmade.isName_b) (.cons (fileName?_div _ Handmade.isName_a)
      (.cons (fileName?_div _ (isName_segmentName 1)) .nil))
  obtain ⟨hopen, hchunks⟩ := Handmade.opens hcomplete
  obtain ⟨d', hrun, -⟩ := Handmade.exists_on_add [("b", 2), ("a", 1)]
    [(["i", "a"], 1), (["i", "b"], 2)] 3 rfl (by decide) hnames
  refine ⟨_, d', _, _, hopen, hchunks, hrun, ?_⟩
  refine run_keeps_chunks hopen hchunks (fun _ => ?_) hrun
  refine Command.safe_of_names ["b", "a"] (Handmade.leadsTo _ _) rfl ?_ (by decide) (by decide)
  simp only [List.forall_mem_cons]
  exact ⟨⟨Handmade.isName_b, by decide⟩, ⟨Handmade.isName_a, by decide⟩, by simp⟩

/-- A command succeeds, and afterwards an index does not give its chunks any more. -/
def Loses (d : Disk) (dir : Path) (cmd : Command) : Prop :=
  ∃ ix es ix' d', (Index.open dir).on d = (.ok ix, d) ∧ (chunks ix).on d = (.ok es, d)
    ∧ (cmd.run ix).on d = (.ok ix', d') ∧ ¬Gives d' dir ix' (es ++ cmd.entries)

namespace Handmade

/-- The number of the next segment file is that of a file in use. -/
lemma loses_overwritten :
    Loses (disk [(segmentName 1, 1)] [(["i", segmentName 1], 1)]) home (.add [chunk 2]) := by
  have hname := isName_segmentName 1
  have hcomplete : Complete [(segmentName 1, 1)]
      (disk [(segmentName 1, 1)] [(["i", segmentName 1], 1)]) := by
    intro g hg
    rw [List.mem_singleton.mp hg, div_eq _ hname]
    rfl
  have hfile : (segment (segmentName 1, 1)).fileName? = some (segmentName 1) :=
    fileName?_div home hname
  have hnames : List.Forall₂ (fun s name => s.fileName? = some name)
      [segment (segmentName 1, 1), segment (segmentName 1, 2)] [segmentName 1, segmentName 1] :=
    .cons hfile (.cons (fileName?_div home hname) .nil)
  obtain ⟨hopen, hchunks⟩ := opens hcomplete
  obtain ⟨d', hrun, hplaced⟩ := exists_on_add [(segmentName 1, 1)] [(["i", segmentName 1], 1)] 2 rfl
    (by decide) hnames
  refine ⟨_, _, _, d', hopen, hchunks, hrun, ?_⟩
  rintro ⟨-, ix, hopen', hchunks'⟩
  -- both names lead to the new file
  have hd' := hplaced.changed.leadsTo (leadsTo _ _)
  have hnew : (segment (segmentName 1, 2)).Intact d' [chunk 2] :=
    hplaced.intact hd' (by simp) hplaced.segment
  rw [on_open_of_manifest hd' (by decide) (hplaced.node?_manifest hnames)
    (.cons hnew.opens (.cons hnew.opens .nil))] at hopen'
  cases hopen'
  have hboth := on_entriesOf_of_intact (.cons hnew (.cons hnew .nil))
  have hsame := Except.ok.inj (Prod.mk.inj (hchunks'.symm.trans hboth)).1
  exact absurd hsame (by decide)

/-- The file of a segment stands in another directory. -/
lemma loses_elsewhere : Loses (disk [("/a", 1)] [(["a"], 1)]) home (.add [chunk 2]) := by
  have hpath : home / "/a" = ⟨["", "a"]⟩ := by cbv
  have hcomplete : Complete [("/a", 1)] (disk [("/a", 1)] [(["a"], 1)]) := by
    intro g hg
    rw [List.mem_singleton.mp hg, hpath]
    rfl
  have hfile : (segment ("/a", 1)).fileName? = some "a" := by
    rw [segment, hpath]
    rfl
  have hnames : List.Forall₂ (fun s name => s.fileName? = some name)
      [segment ("/a", 1), segment (segmentName 1, 2)] ["a", segmentName 1] :=
    .cons hfile (.cons (fileName?_div home (isName_segmentName 1)) .nil)
  obtain ⟨hopen, hchunks⟩ := opens hcomplete
  obtain ⟨d', hrun, hplaced⟩ := exists_on_add [("/a", 1)] [(["a"], 1)] 2 rfl (by decide) hnames
  refine ⟨_, _, _, d', hopen, hchunks, hrun, ?_⟩
  have hnone : d'.tree.node? ["i", "a"] = none :=
    hplaced.node?_of_not_mem (leadsTo _ _) (by decide)
  exact not_gives_of_missing (hplaced.changed.leadsTo (leadsTo _ _)) (by decide)
    (hplaced.node?_manifest hnames) List.mem_cons_self isName_a hnone

/-- The first two segments are merged, and their files are removed. -/
lemma exists_on_merge (a b : String × Int64) (rest : List (String × Int64))
    (files : List (Place × Int64)) {target : UInt64} {names : List String}
    (hcomplete : Complete (a :: b :: rest) (disk (a :: b :: rest) files))
    (htarget : target.toNat = rest.length + 1)
    (hacc : ∀ name ∈ newNames 1, (disk (a :: b :: rest) files).Accepts home ["i"] name)
    (hnames : List.Forall₂ (fun s name => s.fileName? = some name)
      (.ofEntries (home / segmentName 1) [chunk a.2, chunk b.2] :: rest.map segment) names) :
    ∃ ix' d₁ d', ((Command.merge target).run (index ((a :: b :: rest).map segment))).on
        (disk (a :: b :: rest) files) = (.ok ix', d')
      ∧ Placed (disk (a :: b :: rest) files) home ["i"] 1 [chunk a.2, chunk b.2] ix' d₁
      ∧ d₁.tree.node? ["i", manifestName] = some (.file (Bytes.ofText (Manifest.toText
        { manifest names with nextSegment := 2 })))
      ∧ ([segment a, segment b].forM fun s => DiskM.attempt (DiskM.remove s.path)).on d₁
        = (.ok (), d') := by
  have hpositive : target ≠ 0 := by
    rintro rfl
    simp at htarget
  have hmore : ¬(index ((a :: b :: rest).map segment)).segments.length ≤ target.toNat := by
    simp [index, htarget]
  have hcount : 2 = (index ((a :: b :: rest).map segment)).segments.length - target.toNat + 1 := by
    simp [index, htarget]
  have hm : ((index ((a :: b :: rest).map segment)).replaced 2 (.ofEntries (home / segmentName 1)
      [chunk a.2, chunk b.2])).manifest = .ok _ := manifest_eq_ok_iff.mpr ⟨names, hnames, rfl⟩
  obtain ⟨d₁, hinstall⟩ := exists_on_install (leadsTo (a :: b :: rest) files) (calm _ _) hacc rfl
    (fun _ => rfl) hm
  have hplaced := (placed_of_install (leadsTo _ _) hinstall fun _ => rfl).2
  have hmerged : (entriesOf [segment a, segment b]).on (disk (a :: b :: rest) files)
      = (.ok [chunk a.2, chunk b.2], disk (a :: b :: rest) files) :=
    on_entriesOf_of_intact (.cons (hcomplete.intact List.mem_cons_self)
      (.cons (hcomplete.intact (by simp)) .nil))
  rcases hremove : ([segment a, segment b].forM fun s =>
    DiskM.attempt (DiskM.remove s.path)).on d₁ with ⟨r, d'⟩
  have hok := (DiskM.removeEach_changes Segment.path [segment a, segment b] d₁).result.1
  rw [hremove] at hok
  cases hok
  refine ⟨_, d₁, d', ?_, hplaced, hplaced.node?_manifest hnames, hremove⟩
  rw [Command.run, forceMerge_eq_install hpositive hmore hcount]
  refine (DiskM.on_bind_ok (a := (true, _)) ?_).trans rfl
  refine (DiskM.on_bind_ok hmerged).trans ?_
  refine (DiskM.on_bind_ok hinstall).trans ?_
  exact (DiskM.on_bind_ok hremove).trans rfl

/-- A file that is merged and still listed afterwards is missing. -/
lemma loses_of_merge (a b : String × Int64) (rest : List (String × Int64))
    (files : List (Place × Int64)) {target : UInt64} {names : List String}
    (hcomplete : Complete (a :: b :: rest) (disk (a :: b :: rest) files))
    (htarget : target.toNat = rest.length + 1)
    (hacc : ∀ name ∈ newNames 1, (disk (a :: b :: rest) files).Accepts home ["i"] name)
    (hnames : List.Forall₂ (fun s name => s.fileName? = some name)
      (.ofEntries (home / segmentName 1) [chunk a.2, chunk b.2] :: rest.map segment) names)
    (ha : IsName a.1) (hb : IsName b.1) (hne : b.1 ≠ a.1) (hmanifest : a.1 ≠ manifestName)
    (hmanifest' : b.1 ≠ manifestName) (hmem : a.1 ∈ names)
    (hfile : a.1 = segmentName 1 ∨ a.1 ∉ newNames 1) :
    Loses (disk (a :: b :: rest) files) home (.merge target) := by
  obtain ⟨hopen, hchunks⟩ := opens hcomplete
  obtain ⟨ix', d₁, d', hrun, hplaced, hlisted, hremove⟩ :=
    exists_on_merge a b rest files hcomplete htarget hacc hnames
  refine ⟨_, _, ix', d', hopen, hchunks, hrun, ?_⟩
  have hd₁ : d₁.LeadsTo home ["i"] := hplaced.changed.leadsTo (leadsTo _ _)
  obtain ⟨q, hlocate, hnode⟩ := Disk.locate_of_read (hcomplete a List.mem_cons_self)
  rw [Disk.locate_div (leadsTo _ _) ha] at hlocate
  split_ifs at hlocate with hroom
  obtain rfl := Except.ok.inj hlocate
  have hlocate₁ : d₁.locate (segment a).path = .ok (["i"] ++ [a.1]) := by
    rw [segment, Segment.ofEntries, Disk.locate_div hd₁ ha, if_pos hroom]
  -- the new segment stands where the file of `a` was, or elsewhere; there is a file in any case
  obtain ⟨content, hnode₁⟩ : ∃ content, d₁.tree.node? (["i"] ++ [a.1]) = some (.file content) := by
    rcases hfile with hfile | hfile
    · exact ⟨_, hfile ▸ hplaced.segment⟩
    · exact ⟨_, (hplaced.node?_of_not_mem (leadsTo _ _) hfile).trans hnode⟩
  have hother {name : String} (hname : IsName name) (hne : b.1 ≠ name) :
      d₁.locate (segment b).path ≠ .ok (["i"] ++ [name]) := by
    rw [segment, Segment.ofEntries, Disk.locate_div hd₁ hb]
    split_ifs <;> simp [hne]
  -- it is removed although the new manifest lists it
  have hnone := DiskM.gone_of_removeEach Segment.path (hplaced.changed.calm (calm _ _)) hlocate₁
    hnode₁ (by simpa using hother ha hne) hremove
  have hgone := (DiskM.removeEach_changes Segment.path [segment a, segment b] d₁).result
  rw [hremove] at hgone
  refine not_gives_of_missing (m := { manifest names with nextSegment := 2 })
    (hgone.2.leadsTo hd₁) (by decide) ?_ hmem ha hnone
  refine (hgone.2.others _ ?_).trans hlisted
  rintro ⟨s, hs, hlocate⟩
  rcases List.mem_pair.mp hs with rfl | rfl
  · rw [hlocate₁] at hlocate
    exact hmanifest (by simpa using hlocate)
  · exact hother isName_manifestName hmanifest' hlocate

/-- A file that stands in the manifest several times is merged once. -/
lemma loses_repeated :
    Loses (disk [("a", 1), ("b", 2), ("a", 1)] [(["i", "a"], 1), (["i", "b"], 2)]) home
      (.merge 2) := by
  have hcomplete : Complete [("a", 1), ("b", 2), ("a", 1)]
      (disk [("a", 1), ("b", 2), ("a", 1)] [(["i", "a"], 1), (["i", "b"], 2)]) := by
    simp only [Complete, List.forall_mem_cons, home_a, home_b]
    exact ⟨rfl, rfl, rfl, by simp⟩
  have hnames : List.Forall₂ (fun s name => s.fileName? = some name)
      [.ofEntries (home / segmentName 1) [chunk 1, chunk 2], segment ("a", 1)]
      [segmentName 1, "a"] :=
    .cons (fileName?_div home (isName_segmentName 1)) (.cons (fileName?_div home isName_a) .nil)
  exact loses_of_merge ("a", 1) ("b", 2) [("a", 1)] _ hcomplete rfl (by decide) hnames isName_a
    isName_b (by decide) (by decide) (by decide) (by simp) (.inr (by decide))

/-- The number of the next segment file is that of a merged file. -/
lemma loses_replaced : Loses (disk [(segmentName 1, 1), ("b", 2)]
    [(["i", segmentName 1], 1), (["i", "b"], 2)]) home (.merge 1) := by
  have hname := isName_segmentName 1
  have hseg : home / segmentName 1 = ⟨["i", segmentName 1]⟩ := div_eq home hname
  have hcomplete : Complete [(segmentName 1, 1), ("b", 2)]
      (disk [(segmentName 1, 1), ("b", 2)] [(["i", segmentName 1], 1), (["i", "b"], 2)]) := by
    simp only [Complete, List.forall_mem_cons, hseg, home_b]
    exact ⟨rfl, rfl, by simp⟩
  exact loses_of_merge (segmentName 1, 1) ("b", 2) [] _ hcomplete rfl (by decide)
    (.cons (fileName?_div home hname) .nil) hname isName_b (by decide) (by decide) (by decide)
    (by simp) (.inl rfl)

end Handmade

/-- A change can lose chunks of an index whose manifest lists a file that the next segment file is
written over, a file in another directory, a file that is merged and stays as well, or a merged file
in place of which the new segment is written. -/
theorem run_loses_chunks :
    Loses (Handmade.disk [(segmentName 1, 1)] [(["i", segmentName 1], 1)]) ⟨["i"]⟩
      (.add [Handmade.chunk 2])
    ∧ Loses (Handmade.disk [("/a", 1)] [(["a"], 1)]) ⟨["i"]⟩ (.add [Handmade.chunk 2])
    ∧ Loses (Handmade.disk [("a", 1), ("b", 2), ("a", 1)] [(["i", "a"], 1), (["i", "b"], 2)])
      ⟨["i"]⟩ (.merge 2)
    ∧ Loses (Handmade.disk [(segmentName 1, 1), ("b", 2)]
      [(["i", segmentName 1], 1), (["i", "b"], 2)]) ⟨["i"]⟩ (.merge 1) :=
  ⟨Handmade.loses_overwritten, Handmade.loses_elsewhere, Handmade.loses_repeated,
    Handmade.loses_replaced⟩

end SeriesStore.Index
