import SeriesStore.Proofs.Disk.Footprint
import SeriesStore.Proofs.Index.Updates

/-!
# Opening changed indexes

When an index is opened, its manifest is taken as it stands there. What the index has after a change
is known from the files that its manifest then lists, wherever they stand: they have to hold what
the segments of the open index hold, and none of them may be written over or removed.
-/

namespace SeriesStore.Index

open SeriesStore.Path SeriesStore.Tree

variable {d d' d₁ : Disk} {dir path : Path} {p q : Place} {ix ix' : Index} {es new : List Entry}
  {groups : List (List Entry)} {old : List Segment}

/-! ### Segments of an open index -/

/-- No file is both a manifest and a segment. -/
lemma ofText?_of_readTable {content : Bytes} {text : String} {table : SegmentHeader × List Slot}
    (htable : Layout.readTable content = .ok table) (htext : content.toText? = some text) :
    Manifest.ofText? text = .error .malformed := by
  have hbytes := Bytes.eq_flatMap_of_toText? htext
  have hmagic := Layout.take_of_readTable htable
  cases hchars : text.toList with
  | nil =>
    rw [hbytes, hchars] at hmagic
    cases hmagic
  | cons c cs =>
    rw [hbytes, hchars, List.flatMap_cons] at hmagic
    cases hform : String.utf8EncodeChar c with
    | nil => exact absurd hform String.utf8EncodeChar_ne_nil
    | cons b bs =>
      rw [hform] at hmagic
      have hb : b = 0x54 := (List.cons.inj hmagic).1
      rw [hb] at hform
      rw [Bytes.eq_of_utf8EncodeChar hform] at hchars
      exact Manifest.ofText?_of_head hchars

/-- An open index all of whose segments are intact, on the disk on which it has been opened. -/
structure Readable (d : Disk) (p : Place) (ix : Index) (groups : List (List Entry)) : Prop where
  leadsTo : d.LeadsTo ix.dir p
  intact : List.Forall₂ (Segment.Intact d) ix.segments groups
  not_manifest : ∀ s ∈ ix.segments, d.locate s.path ≠ .ok (p ++ [manifestName])

/-- What is known when an index has been opened. -/
lemma of_on_open (h : (Index.open dir).on d = (.ok ix, d')) : d = d' ∧ ix.dir = dir
    ∧ ∃ text m, d.readText (dir / manifestName) = .ok text ∧ Manifest.ofText? text = .ok m
      ∧ List.Forall₂ (fun name s => (Segment.open (dir / name)).on d = (.ok s, d))
        m.segments ix.segments := by
  obtain ⟨text, htext, h⟩ := DiskM.of_on_ask_bind h
  obtain ⟨m, d₁, hparse, h⟩ := DiskM.on_bind_eq_ok h
  obtain ⟨hm, rfl⟩ := Prod.mk.inj hparse
  obtain ⟨segments, d₂, hsegments, h⟩ := DiskM.on_bind_eq_ok h
  obtain ⟨rfl, hopened⟩ :=
    DiskM.forall₂_of_on_mapM (fun _ _ _ h => (Segment.of_on_open h).1) hsegments
  cases h
  exact ⟨rfl, rfl, text, m, htext, hm, hopened⟩

lemma opens_of_forall₂ {names : List String} {segments : List Segment}
    (h : List.Forall₂ (fun name s => (Segment.open (dir / name)).on d = (.ok s, d))
      names segments) : ∀ s ∈ segments, (Segment.open s.path).on d = (.ok s, d) := by
  induction h with
  | nil => simp
  | cons hopen _ ih =>
    refine List.forall_mem_cons.mpr ⟨?_, ih⟩
    rwa [(Segment.of_on_open hopen).2.1]

/-- An index that opens and whose chunks can be read has nothing but intact segments. -/
lemma readable_of_open (hopen : (Index.open dir).on d = (.ok ix, d))
    (hchunks : (chunks ix).on d = (.ok es, d)) :
    ix.dir = dir ∧ ∃ p groups, Readable d p ix groups ∧ es = groups.flatten := by
  obtain ⟨-, rfl, text, m, htext, hm, hopened⟩ := of_on_open hopen
  obtain ⟨groups, d₁, hgroups, hes⟩ := DiskM.on_bind_eq_ok hchunks
  obtain ⟨rfl, hread⟩ :=
    DiskM.forall₂_of_on_mapM (fun _ _ _ h => (Segment.of_on_entries h).1) hgroups
  cases hes
  obtain ⟨content, hcontent, htoText⟩ := Disk.read_of_readText htext
  obtain ⟨q, hlocate, hfile⟩ := Disk.locate_of_read hcontent
  obtain ⟨p, hd⟩ := Disk.leadsTo_of_locate isName_manifestName hlocate
  have hplace : q = p ++ [manifestName] := by
    rw [Disk.locate_div hd isName_manifestName] at hlocate
    split_ifs at hlocate
    exact (Except.ok.inj hlocate).symm
  subst hplace
  have hopens := opens_of_forall₂ hopened
  refine ⟨rfl, p, groups, ⟨hd, ?_, fun s hs hsame => ?_⟩, rfl⟩
  · exact ((List.forall₂_and_left _ _).mpr ⟨hopens, hread⟩).imp fun _ _ ⟨ho, hr⟩ => ⟨ho, hr⟩
  · obtain ⟨-, -, content', hcontent', htable⟩ := Segment.of_on_open (hopens s hs)
    obtain ⟨q, hlocate', hfile'⟩ := Disk.locate_of_read hcontent'
    rw [Except.ok.inj (hlocate'.symm.trans hsame), hfile] at hfile'
    cases hfile'
    cases hm.symm.trans (ofText?_of_readTable htable htoText)

/-! ### New segments -/

/-- What is known when a new segment has been put into an index. -/
structure Placed (d : Disk) (dir : Path) (p : Place) (number : UInt64) (new : List Entry)
    (ix' : Index) (d' : Disk) : Prop where
  changed : d.ChangedAt {q | ∃ name ∈ newNames number, d.locate (dir / name) = .ok q} d'
  hasRoom : ∀ name ∈ newNames number, dir.hasRoom name = true
  fits : Layout.oversized? new = none
  segment : d'.tree.node? (p ++ [segmentName number]) = some (.file (Layout.file new))
  manifest : ∃ m, ix'.manifest = .ok m
    ∧ d'.tree.node? (p ++ [manifestName]) = some (.file (Bytes.ofText m.toText))

lemma isName_of_mem_newNames {number : UInt64} {name : String} (h : name ∈ newNames number) :
    IsName name :=
  forall_mem_newNames.mpr ⟨isName_segmentName number, isName_temporarySegmentName number,
    isName_manifestName, isName_temporaryManifestName⟩ name h

section

variable {number : UInt64} {mk : Segment → Index} {m : Manifest}

/-- Writing a segment under a new name changes nothing but the files of that name. -/
lemma written_of_on (hd : d.LeadsTo dir p) {r : Except StorageError Segment}
    (h : (Segment.write (dir / segmentName number) new).on d = (r, d₁)) :
    Segment.Written d dir p (segmentName number) (temporarySegmentName number)
      (fun t => ∀ q ∉ [p ++ [segmentName number], p ++ [temporarySegmentName number]],
        t.node? q = d.tree.node? q) new r d₁ := by
  have hI : Ignores (fun t => ∀ q ∉ [p ++ [segmentName number], p ++ [temporarySegmentName number]],
      t.node? q = d.tree.node? q) [p ++ [segmentName number], p ++ [temporarySegmentName number]] :=
    fun t t' ht hkeeps q hq => (ht q hq).trans (hkeeps q hq)
  have hspec : (Segment.write (dir / segmentName number) new).Spec d _ _ :=
    Segment.write_spec hd (.refl d p) (isName_segmentName number)
      (isName_temporarySegmentName number) (temporary_div_segmentName dir number)
      (segmentName_mem_newNames number) (temporarySegmentName_mem_newNames number) hI
      fun _ _ => rfl
  have hwritten := hspec.result
  rwa [h] at hwritten

/-- Replacing the manifest changes nothing but it and its temporary file. It fails only if the disk
does, or one of the two cannot be put where it belongs. -/
lemma replaced_of_on (hm : ix.manifest = .ok m) (hd : d.LeadsTo ix.dir p) (hr : d.Reached p d₁)
    {r : Except StorageError Unit} (h : ix.commit.on d₁ = (r, d')) :
    d.Reached p d' ∧ match r with
      | .ok _ => Replaceable d ix.dir p
        ∧ d'.tree.node? (p ++ [manifestName]) = some (.file (Bytes.ofText m.toText))
        ∧ ∀ q, q ≠ p ++ [temporaryManifestName] → q ≠ p ++ [manifestName] →
          d'.tree.node? q = d₁.tree.node? q
      | .error _ => d.Calm → ¬Replaceable d ix.dir p := by
  have hcommitted := (commit_spec (I := fun _ => True) hm rfl (newNames 0) hd hr
    (manifestName_mem_newNames 0) (temporaryManifestName_mem_newNames 0)
    (fun _ _ _ _ => trivial) trivial).result
  rw [h] at hcommitted
  cases r with
  | ok _ => exact hcommitted
  | error e => exact ⟨hcommitted.1, hcommitted.2.2.2⟩

/-- What has been done when a new segment has been put into an index. -/
lemma of_on_install (h : (install path new mk).on d = (.ok ix', d')) :
    ix' = mk (.ofEntries path new) ∧ ∃ d₁ m,
      (Segment.write path new).on d = (.ok (.ofEntries path new), d₁)
        ∧ ix'.manifest = .ok m ∧ ix'.commit.on d₁ = (.ok (), d') := by
  obtain ⟨s, d₁, hwrite, h⟩ := DiskM.on_bind_eq_ok h
  obtain ⟨_, d₂, hcommit, h⟩ := DiskM.on_bind_eq_ok h
  cases h
  obtain ⟨rfl, -⟩ := Segment.of_on_write hwrite
  replace hcommit := DiskM.of_on_tryCatch (fun e d₂ d₃ hthrow => by
    obtain ⟨_, _, _, hnever⟩ := DiskM.on_bind_eq_ok hthrow
    cases hnever) hcommit
  cases hm : (mk (.ofEntries path new)).manifest with
  | error fault =>
    simp only [commit, hm] at hcommit
    cases hcommit
  | ok m => exact ⟨rfl, d₁, m, hwrite, rfl, hcommit⟩

lemma reached_of_install (hd : d.LeadsTo dir p)
    (h : (install (dir / segmentName number) new mk).on d = (.ok ix', d'))
    (hdir : ∀ s, (mk s).dir = dir) : d.Reached p d' := by
  obtain ⟨rfl, d₁, m, hwrite, hm, hcommit⟩ := of_on_install h
  exact (replaced_of_on hm (by rwa [hdir]) (written_of_on hd hwrite).reached hcommit).1

lemma placed_of_install (hd : d.LeadsTo dir p)
    (h : (install (dir / segmentName number) new mk).on d = (.ok ix', d'))
    (hdir : ∀ s, (mk s).dir = dir) :
    ix' = mk (.ofEntries (dir / segmentName number) new) ∧ Placed d dir p number new ix' d' := by
  obtain ⟨rfl, d₁, m, hwrite, hm, hcommit⟩ := of_on_install h
  have hwritten := written_of_on hd hwrite
  obtain ⟨-, hfits, htemp, hseg, hfile⟩ := hwritten.ok _ rfl
  obtain ⟨hr, hrep, hfile', hframe⟩ :=
    replaced_of_on hm (by rwa [hdir]) hwritten.reached hcommit
  rw [hdir] at hrep
  have hroom : ∀ name ∈ newNames number, dir.hasRoom name = true :=
    forall_mem_newNames.mpr
      ⟨hseg.hasRoom, htemp.hasRoom, hrep.manifest.hasRoom, hrep.temporary.hasRoom⟩
  refine ⟨rfl, .of_reached hr fun q hq => ?_, hroom, hfits, ?_, m, hm, hfile'⟩
  · -- what none of the four names leads to is in neither frame
    have hne : ∀ name ∈ newNames number, q ≠ p ++ [name] := by
      rintro name hname rfl
      refine hq ⟨name, hname, ?_⟩
      rw [Disk.locate_div hd (isName_of_mem_newNames hname), if_pos (hroom name hname)]
    obtain ⟨hsegment, htemporary, hmanifest, htemporary'⟩ := forall_mem_newNames.mp hne
    rw [hframe q htemporary' hmanifest, hwritten.keeps q]
    simpa using ⟨hsegment, htemporary⟩
  · rw [hframe _ (by simpa using segmentName_ne_temporaryManifestName number)
      (by simpa using segmentName_ne_manifestName number), hfile]

/-- A disk on which nothing fails takes a new segment. -/
lemma exists_on_install (hd : d.LeadsTo dir p) (hcalm : d.Calm)
    (hacc : ∀ name ∈ newNames number, d.Accepts dir p name) (hfits : Layout.oversized? new = none)
    (hdir : ∀ s, (mk s).dir = dir)
    (hm : (mk (.ofEntries (dir / segmentName number) new)).manifest = .ok m) :
    ∃ d', (install (dir / segmentName number) new mk).on d
      = (.ok (mk (.ofEntries (dir / segmentName number) new)), d') := by
  obtain ⟨hsegment, htemporary, hmanifest, htemporary'⟩ := forall_mem_newNames.mp hacc
  rcases hwrite : (Segment.write (dir / segmentName number) new).on d with ⟨r, d₁⟩
  have hwritten := written_of_on hd hwrite
  obtain rfl : r = .ok (.ofEntries (dir / segmentName number) new) := by
    rw [hwritten.calm hcalm]
    simp [Segment.outcome, hsegment, htemporary, hfits]
  rcases hcommit : (mk (.ofEntries (dir / segmentName number) new)).commit.on d₁ with ⟨e | u, d₂⟩
  · obtain ⟨-, hblocked⟩ := replaced_of_on hm (by rwa [hdir]) hwritten.reached hcommit
    rw [hdir] at hblocked
    exact absurd ⟨htemporary', hmanifest⟩ (hblocked hcalm)
  · refine ⟨d₂, ?_⟩
    have hwith : (commitWith (mk (.ofEntries (dir / segmentName number) new))
        (dir / segmentName number)).on d₁ = (.ok u, d₂) := by
      rw [commitWith]
      exact (DiskM.on_tryCatch _ _ _).trans (by rw [hcommit])
    rw [install, DiskM.on_bind_ok hwrite, DiskM.on_bind_ok hwith]
    rfl

end

namespace Placed

variable {number : UInt64}

/-- No other file of the directory changes. -/
lemma node?_of_not_mem (h : Placed d dir p number new ix' d') (hd : d.LeadsTo dir p) {name : String}
    (hname : name ∉ newNames number) :
    d'.tree.node? (p ++ [name]) = d.tree.node? (p ++ [name]) := by
  refine h.changed.others _ ?_
  rintro ⟨name', hmem, hlocate⟩
  rw [Disk.locate_div hd (isName_of_mem_newNames hmem), if_pos (h.hasRoom name' hmem)] at hlocate
  have hsame : name' = name := by simpa using hlocate
  exact hname (hsame ▸ hmem)

lemma node?_manifest (h : Placed d dir p number new ix' d') {names : List String}
    (hnames : List.Forall₂ (fun s name => s.fileName? = some name) ix'.segments names) :
    d'.tree.node? (p ++ [manifestName]) = some (.file (Bytes.ofText (Manifest.toText
      ⟨ix'.id, ix'.range, ix'.resolution, ix'.createdAt, names, ix'.nextSegment⟩))) := by
  obtain ⟨m, hm, hfile⟩ := h.manifest
  rw [manifest_eq_ok_iff.mpr ⟨names, hnames, rfl⟩] at hm
  cases hm
  exact hfile

/-- The new segment is intact as long as its file is there. -/
lemma intact (h : Placed d dir p number new ix' d₁) (hd : d'.LeadsTo dir p)
    (hsmall : 28 * new.length < 2 ^ 32)
    (hfile : d'.tree.node? (p ++ [segmentName number]) = some (.file (Layout.file new))) :
    Segment.Intact d' (.ofEntries (dir / segmentName number) new) new :=
  Segment.intact_of_node? hd (isName_segmentName number)
    (h.hasRoom _ (segmentName_mem_newNames number)) hsmall h.fits hfile

end Placed

/-! ### Segments that stay -/

/-- A path leads to no file that is written with a new segment and to no file of a merged one. -/
structure Spared (d : Disk) (ix : Index) (old : List Segment) (path : Path) : Prop where
  written : ∀ name ∈ newNames ix.nextSegment, ¬d.Meets path (ix.dir / name)
  removed : ∀ s ∈ old, ¬d.Meets path s.path

/-- A segment can be listed by the last part of its path: under this name the directory of the index
has its file, or a copy of it, and neither of the two is in the way of a change. -/
structure Listable (d : Disk) (ix : Index) (old : List Segment) (s : Segment) : Prop where
  spared : Spared d ix old s.path
  same : ∀ name, s.fileName? = some name → d.read (ix.dir / name) = d.read s.path
  spared_listed : ∀ name, s.fileName? = some name → Spared d ix old (ix.dir / name)

/-- What is read under a spared path is read there still when the new segment stands in the index
and the merged ones are gone. -/
lemma Spared.read_eq {content : Bytes} (h : Spared d ix old path)
    (hnew : d.ChangedAt {q | ∃ name ∈ newNames ix.nextSegment, d.locate (ix.dir / name) = .ok q} d₁)
    (hgone : d₁.ChangedAt {q | ∃ s ∈ old, d₁.locate s.path = .ok q} d')
    (hread : d.read path = .ok content) : d'.read path = d.read path := by
  obtain ⟨q, hlocate, -⟩ := Disk.locate_of_read hread
  rw [hgone.read_eq (hnew.locate_eq_ok_iff.mpr hlocate), hnew.read_eq hlocate]
  · rintro ⟨name, hname, hlocate'⟩
    exact h.written name hname ⟨q, hlocate, hlocate'⟩
  · rintro ⟨s, hs, hlocate'⟩
    exact h.removed s hs ⟨q, hlocate, hnew.locate_eq_ok_iff.mp hlocate'⟩

/-- A segment holds its entries under its own path, and under the name by which it is listed. -/
structure Lasting (d : Disk) (dir : Path) (s : Segment) (es : List Entry) : Prop where
  intact : s.Intact d es
  listed : ∀ name, s.fileName? = some name → Segment.Intact d { s with path := dir / name } es

/-- An open index has some chunks, and so has the index that is opened anew in its directory. -/
structure Gives (d : Disk) (dir : Path) (ix : Index) (es : List Entry) : Prop where
  chunks : (chunks ix).on d = (.ok es, d)
  reopened : ∃ ix', (Index.open dir).on d = (.ok ix', d) ∧ (Index.chunks ix').on d = (.ok es, d)

/-- Lasting segments are found again by the names in a manifest. -/
lemma exists_listed {names : List String} {segments : List Segment}
    (hnames : List.Forall₂ (fun s name => s.fileName? = some name) segments names)
    (h : List.Forall₂ (Lasting d dir) segments groups) :
    ∃ listed,
      List.Forall₂ (fun name s => (Segment.open (dir / name)).on d = (.ok s, d)) names listed
      ∧ List.Forall₂ (Segment.Intact d) listed groups := by
  induction hnames generalizing groups with
  | nil =>
    cases h
    exact ⟨[], .nil, .nil⟩
  | cons hname _ ih =>
    cases h with
    | cons hs hrest =>
      obtain ⟨listed, hopens, hintact⟩ := ih hrest
      have hlisted := hs.listed _ hname
      exact ⟨_ :: listed, .cons hlisted.opens hopens, .cons hlisted hintact⟩

lemma gives_of_lasting {m : Manifest} (hd : d.LeadsTo dir p)
    (hroom : dir.hasRoom manifestName = true) (hm : ix.manifest = .ok m)
    (hfile : d.tree.node? (p ++ [manifestName]) = some (.file (Bytes.ofText m.toText)))
    (h : List.Forall₂ (Lasting d dir) ix.segments groups) : Gives d dir ix groups.flatten := by
  obtain ⟨names, hnames, rfl⟩ := manifest_eq_ok_iff.mp hm
  obtain ⟨listed, hopens, hintact⟩ := exists_listed hnames h
  exact ⟨on_entriesOf_of_intact (h.imp fun _ _ hs => hs.intact), _,
    on_open_of_manifest hd hroom hfile hopens, on_entriesOf_of_intact hintact⟩

/-- An index whose manifest lists a file that is not there does not open. -/
lemma not_gives_of_missing {m : Manifest} {name : String} (hd : d.LeadsTo dir p)
    (hroom : dir.hasRoom manifestName = true)
    (hfile : d.tree.node? (p ++ [manifestName]) = some (.file (Bytes.ofText m.toText)))
    (hmem : name ∈ m.segments) (hname : IsName name) (hnone : d.tree.node? (p ++ [name]) = none) :
    ¬Gives d dir ix es := by
  rintro ⟨-, ix', hopen, -⟩
  obtain ⟨-, -, text, m', htext, hm', hopened⟩ := of_on_open hopen
  cases (readText_manifest hd hroom hfile).symm.trans htext
  cases (Manifest.ofText?_toText m).symm.trans hm'
  obtain ⟨s, hs⟩ := DiskM.exists_of_forall₂ hopened hmem
  obtain ⟨-, -, content, hread, -⟩ := Segment.of_on_open hs
  obtain ⟨q, hlocate, hnode⟩ := Disk.locate_of_read hread
  rw [Disk.locate_div hd hname] at hlocate
  split_ifs at hlocate
  rw [← Except.ok.inj hlocate, hnone] at hnode
  cases hnode

/-- A new segment and segments that can be listed give the chunks of all of them. -/
lemma gives_of_placed (old : List Segment) (hread : Readable d p ix groups)
    (hplaced : Placed d ix.dir p ix.nextSegment new ix' d₁)
    (hgone : d₁.ChangedAt {q | ∃ s ∈ old, d₁.locate s.path = .ok q} d')
    (hmerged : ∀ s ∈ old, s ∈ ix.segments)
    (hapart : ∀ s ∈ old, ¬d.Meets s.path (ix.segmentPath ix.nextSegment))
    (hsmall : 28 * new.length < 2 ^ 32) {groups' : List (List Entry)}
    (h : List.Forall₂ (fun s es => s = .ofEntries (ix.segmentPath ix.nextSegment) new ∧ es = new
      ∨ s.Intact d es ∧ Listable d ix old s)
      ix'.segments groups') : Gives d' ix.dir ix' groups'.flatten := by
  obtain ⟨m, hm, hfile⟩ := hplaced.manifest
  have hd' : d'.LeadsTo ix.dir p := hgone.leadsTo (hplaced.changed.leadsTo hread.leadsTo)
  have hroom := hplaced.hasRoom
  have hsegment : ix.dir.hasRoom (segmentName ix.nextSegment) = true :=
    hroom _ (segmentName_mem_newNames _)
  -- neither the new manifest nor the new segment is removed with the merged files
  have hfile' : d'.tree.node? (p ++ [manifestName]) = some (.file (Bytes.ofText m.toText)) := by
    rw [hgone.others, hfile]
    rintro ⟨s, hs, hlocate⟩
    exact hread.not_manifest s (hmerged s hs) (hplaced.changed.locate_eq_ok_iff.mp hlocate)
  have hnew' : d'.tree.node? (p ++ [segmentName ix.nextSegment])
      = some (.file (Layout.file new)) := by
    rw [hgone.others, hplaced.segment]
    rintro ⟨s, hs, hlocate⟩
    refine hapart s hs ⟨_, hplaced.changed.locate_eq_ok_iff.mp hlocate, ?_⟩
    rw [segmentPath, Disk.locate_div hread.leadsTo (isName_segmentName _), if_pos hsegment]
  refine gives_of_lasting hd' (hroom _ (manifestName_mem_newNames _)) hm hfile'
    (h.imp fun s es hs => ?_)
  obtain ⟨rfl, rfl⟩ | ⟨hs, hlistable⟩ := hs
  · have hintact := hplaced.intact hd' hsmall hnew'
    refine ⟨hintact, fun name hname => ?_⟩
    have hsame : segmentName ix.nextSegment = name :=
      Option.some.inj ((fileName?_div ix.dir (isName_segmentName _)).symm.trans hname)
    rw [← hsame]
    exact hintact
  · obtain ⟨-, -, content, hcontent, -⟩ := Segment.of_on_open hs.opens
    refine ⟨hs.moved ?_, fun name hname => hs.moved ?_⟩
    · exact hlistable.spared.read_eq hplaced.changed hgone hcontent
    · have hsame := hlistable.same name hname
      rw [(hlistable.spared_listed name hname).read_eq hplaced.changed hgone
        (hsame.trans hcontent), hsame]

end SeriesStore.Index
