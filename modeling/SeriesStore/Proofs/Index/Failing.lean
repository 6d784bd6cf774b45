import SeriesStore.Proofs.Disk.Readings
import SeriesStore.Proofs.Index.History
import SeriesStore.Proofs.Index.Reopening

/-!
# Updates that fail

Whatever an open index knows of its segments, and whatever these hold: an update of it that fails
changes at most three files, and the manifest lists none of them. Its directory is opened as before,
and all that could be read of it is read as before.
-/

namespace SeriesStore

open SeriesStore.Path SeriesStore.Tree

/-! ### Worn disks -/

/-- A disk that was the disk `d₀` before files other than manifests were altered, lost or left
behind. Which changes fail on it is open. -/
structure Disk.Worn (d₀ d : Disk) : Prop where
  workDir : d.workDir = d₀.workDir
  dirs : ∀ q, d.tree.node? q = some .dir ↔ d₀.tree.node? q = some .dir
  manifests : ∀ q, d.tree.node? (q ++ [Index.manifestName])
    = d₀.tree.node? (q ++ [Index.manifestName])

namespace Disk.Worn

variable {d₀ d d' : Disk} {dir : Path} {p : Place}

lemma trans (h : d₀.Worn d) (h' : d.Worn d') : d₀.Worn d' where
  workDir := h'.workDir.trans h.workDir
  dirs q := (h'.dirs q).trans (h.dirs q)
  manifests q := (h'.manifests q).trans (h.manifests q)

lemma leadsTo (h : d₀.Worn d) (hd : d₀.LeadsTo dir p) : d.LeadsTo dir p :=
  hd.of_dirs h.workDir fun q => (h.dirs q).mpr

end Disk.Worn

namespace Index

variable {c : Contents} {d₀ d d' d₁ : Disk} {dir : Path} {p : Place} {ix : Index} {number : UInt64}
  {new : List Entry} {e : StorageError}

/-! ### What a failure leaves -/

/-- The names of the files that may stay behind when a segment with a number has not been added. -/
def leftNames (number : UInt64) : List String :=
  [segmentName number, temporarySegmentName number, temporaryManifestName]

lemma manifestName_not_mem_leftNames (number : UInt64) : manifestName ∉ leftNames number := by
  simp [leftNames, (segmentName_ne_manifestName number).symm,
    (temporarySegmentName_ne_manifestName number).symm, temporaryManifestName_ne_manifestName.symm]

lemma leftNames_subset_newNames (number : UInt64) : leftNames number ⊆ newNames number := by
  simp [leftNames, newNames]

/-- Nothing differs from the disk `d` but files with these names. -/
def LeftAlone (d : Disk) (p : Place) (number : UInt64) (t : Tree) : Prop :=
  ∀ q, (∀ name ∈ leftNames number, q ≠ p ++ [name]) → t.node? q = d.tree.node? q

/-- What is known when an update has failed. -/
structure Failed (d : Disk) (p : Place) (number : UInt64) (d' : Disk) : Prop where
  reached : d.Reached p d'
  others : LeftAlone d p number d'.tree

lemma Failed.refl (d : Disk) (p : Place) (number : UInt64) : Failed d p number d :=
  ⟨.refl d p, fun _ _ => rfl⟩

lemma ignores_leftAlone (names : List String) (h : names ⊆ leftNames number) :
    Ignores (LeftAlone d p number) (names.map fun name => p ++ [name]) := by
  intro t t' ht hkeeps q hq
  refine (ht q fun hmem => ?_).trans (hkeeps q hq)
  obtain ⟨name, hname, rfl⟩ := List.mem_map.mp hmem
  exact hq name (h hname) rfl

lemma Failed.worn (h : Failed d p number d') : d.Worn d' where
  workDir := h.reached.workDir
  dirs := h.reached.tree.dirs
  manifests q := by
    refine h.others _ fun name hname heq => ?_
    obtain rfl : manifestName = name := by simpa using congrArg List.getLast? heq
    exact manifestName_not_mem_leftNames number hname

/-! ### Failing steps -/

/-- When the manifest cannot be replaced, it stays, and the new segment file is removed or left. -/
lemma failed_of_on_commitWith (hd : d.LeadsTo ix.dir p) (h : Failed d p number d₁)
    (hon : (commitWith ix (ix.dir / segmentName number)).on d₁ = (.error e, d')) :
    Failed d p number d' := by
  have htemp : Ignores (LeftAlone d p number) [p ++ [temporaryManifestName]] :=
    ignores_leftAlone [temporaryManifestName] (by simp [leftNames])
  have hseg : Ignores (LeftAlone d p number) [p ++ [segmentName number]] :=
    ignores_leftAlone [segmentName number] (by simp [leftNames])
  -- a commit that fails has only left its temporary file
  have hcommit : Failed d p number (ix.commit.on d₁).2 ∨ ∃ u, (ix.commit.on d₁).1 = .ok u := by
    cases hm : ix.manifest with
    | error fault =>
      have hthrow : ix.commit.on d₁ = (.error (.invalidIndex fault), d₁) := by
        simp only [commit, hm, DiskM.on_throw]
      exact .inl (by rwa [hthrow])
    | ok m =>
      have hspec := (commit_spec hm rfl (newNames number) hd h.reached
        (manifestName_mem_newNames number) (temporaryManifestName_mem_newNames number) htemp
        h.others).result
      rcases hr : (ix.commit.on d₁).1 with e' | u
      · rw [hr] at hspec
        exact .inl ⟨hspec.1, hspec.2.1⟩
      · exact .inr ⟨u, rfl⟩
  rw [commitWith] at hon
  have htry := (DiskM.on_tryCatch ix.commit (fun e => do
    DiskM.attempt (DiskM.remove (ix.dir / segmentName number))
    throw e) d₁).symm.trans hon
  rcases hr : ix.commit.on d₁ with ⟨e' | u, d₂⟩
  · simp only [hr] at hcommit htry
    have hfailed : Failed d p number d₂ := hcommit.resolve_right (by simp)
    -- the new segment file is removed again
    have hremove := ((DiskM.remove_spec hd hfailed.reached (isName_segmentName number)
      (segmentName_mem_newNames number) hfailed.others).attempt
      (R := fun r d₃ => r = .ok () ∧ Failed d p number d₃) fun _ d₃ h =>
        ⟨rfl, h.1, hseg _ _ (fun q hq => h.2 q (by simpa using hq)) hfailed.others⟩).result
    rw [DiskM.on_bind_ok (Prod.ext hremove.1 rfl)] at htry
    cases htry
    exact hremove.2
  · rw [hr] at htry
    cases htry

/-- A segment that is not put into an index leaves nothing that counts. -/
lemma failed_of_on_install {mk : Segment → Index} (hd : d.LeadsTo dir p)
    (hon : (install (dir / segmentName number) new mk).on d = (.error e, d'))
    (hdir : ∀ s, (mk s).dir = dir) : Failed d p number d' := by
  have hwrite {r : Except StorageError Segment} {d₁ : Disk}
      (hon : (Segment.write (dir / segmentName number) new).on d = (r, d₁)) :
      Failed d p number d₁ := by
    have hwritten := written_of_on hd hon
    refine ⟨hwritten.reached, fun q hq => hwritten.keeps q ?_⟩
    simpa using ⟨hq _ (by simp [leftNames]), hq _ (by simp [leftNames])⟩
  rw [install] at hon
  rcases hr : (Segment.write (dir / segmentName number) new).on d with ⟨e' | s, d₁⟩
  · rw [DiskM.on_bind_error hr] at hon
    cases hon
    exact hwrite hr
  · rw [DiskM.on_bind_ok hr] at hon
    rcases hr' : (commitWith (mk s) (dir / segmentName number)).on d₁ with ⟨e' | u, d₂⟩
    · rw [DiskM.on_bind_error hr'] at hon
      cases hon
      rw [← hdir s] at hd hr'
      exact failed_of_on_commitWith hd (hwrite hr) hr'
    · rw [DiskM.on_bind_ok hr'] at hon
      cases hon

/-- Whatever entries are refused, or cannot be written, nothing that counts has changed. -/
lemma failed_of_on_addChunks (hd : d.LeadsTo ix.dir p)
    (hon : (ix.addChunks new).on d = (.error e, d')) : Failed d p ix.nextSegment d' := by
  by_cases hne : new = []
  · subst hne
    cases hon
  · cases hcheck : check ix.range ix.lastMin? new with
    | error fault =>
      have hempty : new.isEmpty = false := List.isEmpty_eq_false_iff.mpr hne
      simp only [addChunks, hempty, hcheck, Bool.false_eq_true, if_false] at hon
      cases hon
      exact .refl d p _
    | ok _ =>
      rw [addChunks_eq_install hne hcheck] at hon
      exact failed_of_on_install hd hon fun _ => rfl

/-- Whatever segments cannot be read, or cannot be replaced, nothing that counts has changed. -/
lemma failed_of_on_forceMerge {target : UInt64} (hd : d.LeadsTo ix.dir p)
    (hon : (ix.forceMerge target).on d = (.error e, d')) : Failed d p ix.nextSegment d' := by
  by_cases htarget : target = 0
  · subst htarget
    cases hon
    exact .refl d p _
  by_cases hlen : ix.segments.length ≤ target.toNat
  · rw [on_forceMerge_of_le htarget hlen] at hon
    cases hon
  rw [forceMerge_eq_install htarget hlen rfl] at hon
  have hread := snd_on_entriesOf (ix.segments.take (ix.segments.length - target.toNat + 1)) d
  rcases hr : (entriesOf (ix.segments.take (ix.segments.length - target.toNat + 1))).on d
    with ⟨e' | merged, d₁⟩ <;> rw [hr] at hread <;> obtain rfl : d₁ = d := hread
  · rw [DiskM.on_bind_error hr] at hon
    cases hon
    exact .refl _ p _
  · rw [DiskM.on_bind_ok hr] at hon
    rcases hr' : (install (ix.dir / segmentName ix.nextSegment) merged
      (ix.replaced (ix.segments.length - target.toNat + 1))).on d₁ with ⟨e' | new, d₂⟩
    · rw [DiskM.on_bind_error hr'] at hon
      cases hon
      exact failed_of_on_install hd hr' fun _ => rfl
    · -- what is removed behind the new manifest is no reason to fail
      rw [DiskM.on_bind_ok hr'] at hon
      have hremoved := (DiskM.removeEach_changes Segment.path
        (ix.segments.take (ix.segments.length - target.toNat + 1)) d₂).result
      rw [DiskM.on_bind_ok (Prod.ext hremoved.1 rfl)] at hon
      cases hon

/-! ### What does not depend on segments -/

namespace Contents

/-- The names of the files of an index. -/
def fileNames (c : Contents) : List String := manifestName :: c.groups.map (segmentName ·.1)

/-- The manifest of an index stands in a directory. What stands under the names that it lists is
open. -/
structure ListedBy (c : Contents) (d : Disk) (dir : Path) (p : Place) : Prop where
  leadsTo : d.LeadsTo dir p
  manifest : d.tree.node? (p ++ [manifestName]) = some (.file (Bytes.ofText c.manifest.toText))
  fits : c.FitsIn dir
  sound : c.Sound

/-- An index that has been opened from the manifest for some contents. -/
structure Opens (c : Contents) (dir : Path) (ix : Index) : Prop where
  dir_eq : ix.dir = dir
  identity : (ix.id, ix.range, ix.resolution, ix.createdAt) = c.identity
  paths : ix.segments.map (·.path) = c.groups.map fun g => dir / segmentName g.1
  next : ix.nextSegment = c.next

lemma HeldBy.listedBy (h : c.HeldBy d dir p) : c.ListedBy d dir p :=
  ⟨h.leadsTo, h.stands.manifest, h.fits, h.sound⟩

lemma Opens.path_of_mem (h : c.Opens dir ix) {s : Segment} (hs : s ∈ ix.segments) :
    ∃ g ∈ c.groups, s.path = dir / segmentName g.1 := by
  have hmem : s.path ∈ c.groups.map fun g => dir / segmentName g.1 :=
    h.paths ▸ List.mem_map_of_mem hs
  obtain ⟨g, hg, hpath⟩ := List.mem_map.mp hmem
  exact ⟨g, hg, hpath.symm⟩

lemma Sound.not_mem_leftNames (h : c.Sound) {name : String} (hname : name ∈ c.fileNames) :
    name ∉ leftNames c.next := by
  rcases List.mem_cons.mp hname with rfl | hname
  · exact manifestName_not_mem_leftNames c.next
  · obtain ⟨g, hg, rfl⟩ := List.mem_map.mp hname
    exact fun hmem => segmentName_not_mem_newNames (h.next_ne hg)
      (leftNames_subset_newNames c.next hmem)

namespace ListedBy

lemma worn (h : c.ListedBy d dir p) (hworn : d.Worn d') : c.ListedBy d' dir p :=
  ⟨hworn.leadsTo h.leadsTo, (hworn.manifests p).trans h.manifest, h.fits, h.sound⟩

/-- What is known of an index that is opened from its manifest. -/
lemma opens_of_on (h : c.ListedBy d dir p) (hopen : (Index.open dir).on d = (.ok ix, d')) :
    c.Opens dir ix := by
  have htext : (DiskM.readText (dir / manifestName)).on d = (.ok c.manifest.toText, d) := by
    rw [DiskM.readText, DiskM.on_ask, readText_manifest h.leadsTo h.fits.manifest h.manifest]
  rw [Index.open, DiskM.on_bind_ok htext, Manifest.ofText?_toText,
    DiskM.on_bind_ok (DiskM.on_ofExcept _ _)] at hopen
  obtain ⟨segments, d₁, hsegments, hpure⟩ := DiskM.on_bind_eq_ok hopen
  cases hpure
  obtain ⟨-, hopened⟩ :=
    DiskM.forall₂_of_on_mapM (fun _ _ _ ho => (Segment.of_on_open ho).1) hsegments
  refine ⟨rfl, rfl, ?_, rfl⟩
  have hpaths : List.Forall₂ (fun name s => s.path = dir / name) c.manifest.segments segments :=
    hopened.imp fun _ _ ho => (Segment.of_on_open ho).2.1
  have hmap : segments.map (·.path) = c.manifest.segments.map (dir / ·) := by
    rw [← List.forall₂_eq_eq_eq, List.forall₂_map_left_iff, List.forall₂_map_right_iff]
    exact hpaths.flip
  rw [hmap, Contents.manifest, List.map_map]
  rfl

/-- Where each segment file opens as the same, so does the index. -/
lemma agrees_open_of_segments (h : c.ListedBy d dir p) (h' : c.ListedBy d' dir p)
    (hopen : ∀ g ∈ c.groups, (Segment.open (dir / segmentName g.1)).Agrees d d') :
    (Index.open dir).Agrees d d' := by
  refine Index.agrees_open (Disk.readText_div_eq h.leadsTo h'.leadsTo isName_manifestName
    (h'.manifest.trans h.manifest.symm)) fun text m htext hm name hname => ?_
  rw [readText_manifest h.leadsTo h.fits.manifest h.manifest] at htext
  cases htext
  rw [Manifest.ofText?_toText] at hm
  cases hm
  obtain ⟨g, hg, rfl⟩ := List.mem_map.mp hname
  exact hopen g hg

/-- Where the files of an index are the same, it is opened as the same. -/
lemma agrees_open (h : c.ListedBy d dir p) (h' : c.ListedBy d' dir p)
    (hsame : ∀ name ∈ c.fileNames, d'.tree.node? (p ++ [name]) = d.tree.node? (p ++ [name])) :
    (Index.open dir).Agrees d d' :=
  h.agrees_open_of_segments h' fun g hg => Segment.agrees_open
    (Disk.read_div_eq h.leadsTo h'.leadsTo (isName_segmentName g.1)
      (hsame _ (List.mem_cons_of_mem _ (List.mem_map_of_mem hg))))

/-- Where the files of an index are the same, the same is read from its segments. -/
lemma read_eq (h : c.ListedBy d dir p) (h' : d'.LeadsTo dir p)
    (hsame : ∀ name ∈ c.fileNames, d'.tree.node? (p ++ [name]) = d.tree.node? (p ++ [name]))
    (hix : c.Opens dir ix) {s : Segment} (hs : s ∈ ix.segments) :
    d'.read s.path = d.read s.path := by
  obtain ⟨g, hg, hpath⟩ := hix.path_of_mem hs
  rw [hpath]
  exact Disk.read_div_eq h.leadsTo h' (isName_segmentName g.1)
    (hsame _ (List.mem_cons_of_mem _ (List.mem_map_of_mem hg)))

/-- An update that fails leaves the files of the index as they are. -/
lemma same_of_failed (h : c.ListedBy d dir p) (hfailed : Failed d p c.next d') :
    ∀ name ∈ c.fileNames, d'.tree.node? (p ++ [name]) = d.tree.node? (p ++ [name]) := by
  intro name hname
  refine hfailed.others _ fun name' hname' heq => ?_
  obtain rfl : name = name' := by simpa using heq
  exact h.sound.not_mem_leftNames hname hname'

end ListedBy

end Contents

end Index

end SeriesStore
