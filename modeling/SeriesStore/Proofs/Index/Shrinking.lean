import SeriesStore.Proofs.Index.InPlace

/-!
# Merging what can be read

The records of an index may have been damaged since they were written. Those that are merged are all
read before anything is written. If one of them cannot be read, nothing happens, and otherwise they
fit the new segment: a disk on which nothing fails takes it, the index opens with it, and the
segments that are not merged are read as before.
-/

namespace SeriesStore

open SeriesStore.Path SeriesStore.Tree

/-! ### Records that are read -/

lemma ClosedChunk.record_of_ofRecord? {record : Bytes} {chunk : ClosedChunk}
    (h : ofRecord? record = .ok chunk) : chunk.record = record := by
  cases record with
  | nil => cases h
  | cons t payload =>
    by_cases ht : t = 1
    · subst ht
      cases h
      rfl
    · simp [ofRecord?, Encoding.ofTag?, ht, bind, Except.bind] at h

namespace Layout

variable {file : Path} {content record : Bytes} {number : Nat} {slot : Slot} {slots : List Slot}
  {es : List Entry}

/-- The size of a record is stored in 32 bits. -/
lemma length_lt_of_readRecord (h : readRecord file content number slot = .ok record) :
    record.length < 2 ^ 32 := by
  simp only [readRecord, bind, Except.bind, throw, throwThe, MonadExceptOf.throw, pure,
    Except.pure] at h
  split_ifs at h
  cases h
  exact lt_of_le_of_lt (List.length_take_le _ _) (UInt32.toNat_lt _)

/-- What has been read can be written again. -/
lemma oversized?_of_readEntries (h : readEntries file content number slots = .ok es) :
    oversized? es = none := by
  rw [oversized?_eq_none_iff]
  induction slots generalizing number es with
  | nil =>
    cases h
    simp
  | cons slot slots ih =>
    obtain ⟨record, chunk, rest, hrecord, hchunk, hrest, rfl⟩ := readEntries_cons_eq_ok h
    refine List.forall_mem_cons.mpr ⟨?_, ih hrest⟩
    rw [ClosedChunk.record_of_ofRecord? hchunk]
    exact length_lt_of_readRecord hrecord

end Layout

namespace Index

variable {c : Contents} {d d' d₁ : Disk} {dir : Path} {p : Place} {ix ix' : Index}
  {es all : List Entry} {segments : List Segment} {groups : List (List Entry)} {target : UInt64}
  {err : StorageError}

/-- Segments are read one by one. -/
lemma on_entriesOf_eq_ok_iff : (entriesOf segments).on d = (.ok es, d') ↔ d = d' ∧ ∃ groups,
    List.Forall₂ (fun s g => (Segment.entries s).on d = (.ok g, d)) segments groups
      ∧ es = groups.flatten := by
  constructor
  · intro h
    obtain ⟨groups, d₁, hgroups, hpure⟩ := DiskM.on_bind_eq_ok h
    cases hpure
    obtain ⟨hsame, hread⟩ :=
      DiskM.forall₂_of_on_mapM (fun _ _ _ h => (Segment.of_on_entries h).1) hgroups
    exact ⟨hsame, groups, hread, rfl⟩
  · rintro ⟨rfl, groups, hread, rfl⟩
    rw [entriesOf, DiskM.on_bind_ok (DiskM.on_mapM_of_forall₂ hread)]
    rfl

lemma oversized?_of_on_entriesOf (h : (entriesOf segments).on d = (.ok es, d')) :
    Layout.oversized? es = none := by
  obtain ⟨-, groups, hread, rfl⟩ := on_entriesOf_eq_ok_iff.mp h
  rw [Layout.oversized?_eq_none_iff]
  intro e he
  obtain ⟨g, hg, he⟩ := List.mem_flatten.mp he
  obtain ⟨s, hs⟩ := DiskM.exists_of_forall₂ hread.flip hg
  obtain ⟨-, content, -, hentries⟩ := Segment.of_on_entries hs
  exact Layout.oversized?_eq_none_iff.mp (Layout.oversized?_of_readEntries hentries) e he

lemma length_of_on_entriesOf (h : (entriesOf segments).on d = (.ok es, d')) :
    es.length = (segments.map Segment.size).sum := by
  obtain ⟨-, groups, hread, rfl⟩ := on_entriesOf_eq_ok_iff.mp h
  clear h
  induction hread with
  | nil => rfl
  | cons hs _ ih =>
    obtain ⟨-, content, -, hentries⟩ := Segment.of_on_entries hs
    simp [ih, Layout.length_of_readEntries hentries, Segment.size]

/-! ### The first segments as one -/

/-- A merge of segments of which one cannot be read fails with that error, and nothing happens. -/
lemma on_forceMerge_of_unreadable (htarget : target ≠ 0) (hmore : target.toNat < ix.segments.length)
    (hread : (entriesOf (ix.segments.take (ix.segments.length - target.toNat + 1))).on d
      = (.error err, d)) : (ix.forceMerge target).on d = (.error err, d) := by
  rw [forceMerge_eq_install htarget (Nat.not_le.mpr hmore) rfl, DiskM.on_bind_error hread]

/-- What is known when the first segments of an index have been merged into one with some entries.
The index has been opened from the manifest for some contents. -/
structure MergedInto (d : Disk) (dir : Path) (p : Place) (c : Contents) (ix : Index) (count : ℕ)
    (es : List Entry) (d' : Disk) : Prop where
  /-- Nothing changes but files in the directory of the index. -/
  reached : d.Reached p d'
  listed : (c.merge count).ListedBy d' dir p
  opens : (Index.open dir).on d'
    = (.ok (ix.replaced count (.ofEntries (dir / segmentName c.next) es)), d')
  merged : (Segment.entries (.ofEntries (dir / segmentName c.next) es)).on d' = (.ok es, d')
  kept : ∀ s ∈ ix.segments.drop count, d'.read s.path = d.read s.path

/-- Files of a directory that are removed as far as possible change nothing else. -/
lemma reached_of_removeEach (hd : d.LeadsTo dir p)
    (hpaths : ∀ s ∈ segments, ∃ name, IsName name ∧ s.path = dir / name) :
    d.Reached p ((segments.forM fun s => DiskM.attempt (DiskM.remove s.path)).on d).2 := by
  induction segments generalizing d with
  | nil => exact .refl d p
  | cons s segments ih =>
    obtain ⟨name, hname, hpath⟩ := hpaths s List.mem_cons_self
    have hremoved : d.Reached p ((DiskM.remove s.path).on d).2 := by
      rw [hpath]
      exact (DiskM.remove_spec (I := fun _ => True) hd (.refl d p) hname
        (List.mem_singleton_self name) trivial).result.1
    rw [List.forM, DiskM.on_bind_ok (DiskM.on_attempt _ d)]
    exact hremoved.trans (ih (hremoved.leadsTo hd) fun s' hs' =>
      hpaths s' (List.mem_cons_of_mem s hs'))

namespace Contents

variable {count : ℕ}

lemma Opens.forall₂_path (h : c.Opens dir ix) :
    List.Forall₂ (fun s g => s.path = dir / segmentName g.1) ix.segments c.groups := by
  have hpaths := h.paths
  rwa [← List.forall₂_eq_eq_eq, List.forall₂_map_left_iff, List.forall₂_map_right_iff] at hpaths

lemma Opens.length_groups (h : c.Opens dir ix) : c.groups.length = ix.segments.length :=
  h.forall₂_path.length_eq.symm

/-- All that is open about an index from a known manifest is what the tables of its segments say. -/
lemma Opens.eq_mk (h : c.Opens dir ix) :
    ix = ⟨dir, c.id, c.range, c.resolution, c.createdAt, ix.segments, c.next⟩ := by
  obtain ⟨dir', id, range, resolution, createdAt, segments, next⟩ := ix
  obtain ⟨rfl, hidentity, -, rfl⟩ := h
  simp only [Contents.identity, Prod.mk.injEq] at hidentity
  obtain ⟨rfl, rfl, rfl, rfl⟩ := hidentity
  rfl

/-- The index with merged segments has the manifest for the merged contents. -/
lemma Opens.manifest_replaced (h : c.Opens dir ix) {s : Segment}
    (hs : s.path = dir / segmentName c.next) :
    (ix.replaced count s).manifest = .ok (c.merge count).manifest := by
  have hname {s : Segment} {number : UInt64} (hs : s.path = dir / segmentName number) :
      s.fileName? = some (segmentName number) := by
    rw [Segment.fileName?, hs, fileName?_div dir (isName_segmentName number)]
  refine manifest_eq_ok_iff.mpr ⟨(c.merge count).groups.map (segmentName ·.1), ?_, ?_⟩
  · rw [List.forall₂_map_right_iff]
    exact .cons (hname hs) ((List.forall₂_drop count h.forall₂_path).imp fun _ _ => hname)
  · rw [h.eq_mk]
    rfl

/-- The segments of an index that opens are the ones that its manifest lists. -/
lemma ListedBy.forall₂_open (h : c.ListedBy d dir p)
    (hopen : (Index.open dir).on d = (.ok ix, d')) :
    List.Forall₂ (fun g s => (Segment.open (dir / segmentName g.1)).on d = (.ok s, d)) c.groups
      ix.segments := by
  obtain ⟨-, -, text, m, htext, hm, hopened⟩ := of_on_open hopen
  cases (readText_manifest h.leadsTo h.fits.manifest h.manifest).symm.trans htext
  cases (Manifest.ofText?_toText c.manifest).symm.trans hm
  rwa [Contents.manifest, List.forall₂_map_left_iff] at hopened

lemma Opens.path_of_mem_take (h : c.Opens dir ix) {s : Segment}
    (hs : s ∈ ix.segments.take count) :
    ∃ g ∈ c.groups.take count, dir / segmentName g.1 = s.path := by
  have hpath := List.mem_map_of_mem (f := Segment.path) hs
  rwa [List.map_take, h.paths, ← List.map_take, List.mem_map] at hpath

lemma Opens.path_of_mem_drop (h : c.Opens dir ix) {s : Segment}
    (hs : s ∈ ix.segments.drop count) :
    ∃ g ∈ c.groups.drop count, dir / segmentName g.1 = s.path := by
  have hpath := List.mem_map_of_mem (f := Segment.path) hs
  rwa [List.map_drop, h.paths, ← List.map_drop, List.mem_map] at hpath

/-- Segments that are merged and segments that are not have different names. -/
lemma Sound.segmentName_ne (h : c.Sound) {g g' : UInt64 × List Entry}
    (hg : g ∈ c.groups.drop count) (hg' : g' ∈ c.groups.take count) :
    segmentName g.1 ≠ segmentName g'.1 := by
  intro heq
  have htake := List.mem_map_of_mem (f := Prod.fst) hg'
  have hdrop := List.mem_map_of_mem (f := Prod.fst) hg
  rw [List.map_take] at htake
  rw [List.map_drop] at hdrop
  exact List.disjoint_take_drop h.numbers le_rfl htake (segmentName_injective heq ▸ hdrop)

section

variable (h : c.ListedBy d dir p) (hix : c.Opens dir ix)
  (hplaced : Placed d dir p c.next es ix' d₁)
  (hgone : d₁.ChangedAt {q | ∃ s ∈ ix.segments.take count, d₁.locate s.path = .ok q} d')

include h hix hplaced hgone

/-- When merged segments are removed, files of other names stay. -/
lemma ListedBy.node?_of_merged {name : String}
    (hname : ∀ g ∈ c.groups.take count, name ≠ segmentName g.1) :
    d'.tree.node? (p ++ [name]) = d₁.tree.node? (p ++ [name]) := by
  refine hgone.others _ ?_
  rintro ⟨s, hs, hlocate⟩
  obtain ⟨g, hg, hpath⟩ := hix.path_of_mem_take hs
  rw [← hpath, Disk.locate_div (hplaced.changed.leadsTo h.leadsTo) (isName_segmentName g.1)]
    at hlocate
  split_ifs at hlocate
  exact hname g hg (by simpa using (Except.ok.inj hlocate).symm)

lemma ListedBy.read_of_merged {g : UInt64 × List Entry} (hg : g ∈ c.groups.drop count) :
    d'.read (dir / segmentName g.1) = d.read (dir / segmentName g.1) := by
  have hnew : segmentName g.1 ∉ newNames c.next :=
    segmentName_not_mem_newNames (h.sound.next_ne (List.mem_of_mem_drop hg))
  refine Disk.read_div_eq h.leadsTo (hgone.leadsTo (hplaced.changed.leadsTo h.leadsTo))
    (isName_segmentName g.1) ?_
  rw [h.node?_of_merged hix hplaced hgone fun g' hg' => h.sound.segmentName_ne hg hg',
    hplaced.node?_of_not_mem h.leadsTo hnew]

end

/-- A new segment in place of the first ones, whose files are removed. -/
lemma ListedBy.mergedInto (h : c.ListedBy d dir p) (hopen : (Index.open dir).on d = (.ok ix, d))
    (hcount : 2 ≤ count) (hlen : count ≤ ix.segments.length) (hsmall : 28 * es.length < 2 ^ 32)
    (hplaced : Placed d dir p c.next es
      (ix.replaced count (.ofEntries (dir / segmentName c.next) es)) d₁)
    (hgone : d₁.ChangedAt {q | ∃ s ∈ ix.segments.take count, d₁.locate s.path = .ok q} d')
    (hreached : d.Reached p d') : MergedInto d dir p c ix count es d' := by
  have hix := h.opens_of_on hopen
  have hd' := hreached.leadsTo h.leadsTo
  have hread {g : UInt64 × List Entry} (hg : g ∈ c.groups.drop count) :=
    h.read_of_merged hix hplaced hgone hg
  -- the files that have been written are not among those that have been removed
  have hmanifest : d'.tree.node? (p ++ [manifestName])
      = some (.file (Bytes.ofText (c.merge count).manifest.toText)) := by
    obtain ⟨m, hm, hfile⟩ := hplaced.manifest
    rw [hix.manifest_replaced rfl] at hm
    cases hm
    rw [h.node?_of_merged hix hplaced hgone fun g _ =>
      (segmentName_ne_manifestName g.1).symm, hfile]
  have hsegment : d'.tree.node? (p ++ [segmentName c.next]) = some (.file (Layout.file es)) := by
    rw [h.node?_of_merged hix hplaced hgone fun g hg heq =>
      h.sound.next_ne (List.mem_of_mem_take hg) (segmentName_injective heq).symm, hplaced.segment]
  have hintact := hplaced.intact hd' hsmall hsegment
  have hfits : (c.merge count).FitsIn dir := by
    refine ⟨h.fits.manifest, fun g hg => ?_⟩
    rcases List.mem_cons.mp hg with rfl | hg
    · exact hplaced.hasRoom _ (segmentName_mem_newNames c.next)
    · exact h.fits.files g (List.mem_of_mem_drop hg)
  refine ⟨hreached, ⟨hd', hmanifest, hfits, h.sound.merge hcount (hix.length_groups ▸ hlen)⟩, ?_,
    hintact.verifies, fun s hs => ?_⟩
  · -- the kept segments open as they did
    have hopens : List.Forall₂
        (fun g s => (Segment.open (dir / segmentName g.1)).on d' = (.ok s, d'))
        (c.groups.drop count) (ix.segments.drop count) :=
      ((List.forall₂_and_left _ _).mpr ⟨fun g hg => hread hg,
        List.forall₂_drop count (h.forall₂_open hopen)⟩).imp fun g s ⟨hsame, hs⟩ =>
          (Segment.agrees_open hsame).on_right hs
    rw [on_open_of_manifest hd' h.fits.manifest hmanifest
      (List.forall₂_map_left_iff.mpr (.cons hintact.opens hopens)), hix.eq_mk]
    rfl
  · obtain ⟨g, hg, hpath⟩ := hix.path_of_mem_drop hs
    rw [← hpath, hread hg]

end Contents

/-- What can be read is merged on a disk on which nothing fails. -/
theorem Contents.ListedBy.exists_on_forceMerge (h : c.ListedBy d dir p)
    (hopen : (Index.open dir).on d = (.ok ix, d)) (htarget : target ≠ 0)
    (hmore : target.toNat < ix.segments.length) {count : ℕ}
    (hcount : count = ix.segments.length - target.toNat + 1)
    (hread : (entriesOf (ix.segments.take count)).on d = (.ok es, d)) (hcalm : d.Calm)
    (hacc : ∀ name ∈ newNames c.next, d.Accepts dir p name) (hsmall : 28 * es.length < 2 ^ 32) :
    ∃ d', (ix.forceMerge target).on d
        = (.ok (true, ix.replaced count (.ofEntries (dir / segmentName c.next) es)), d')
      ∧ MergedInto d dir p c ix count es d' := by
  have hix := h.opens_of_on hopen
  have hpos := toNat_target_pos htarget
  have hdir : ∀ s, (ix.replaced count s).dir = dir := fun _ => hix.dir_eq
  have hmanifest : (ix.replaced count (.ofEntries (dir / segmentName c.next) es)).manifest = _ :=
    hix.manifest_replaced rfl
  obtain ⟨d₁, hinstall⟩ := exists_on_install h.leadsTo hcalm hacc (oversized?_of_on_entriesOf hread)
    hdir hmanifest
  have hreached := reached_of_install h.leadsTo hinstall hdir
  obtain ⟨-, hplaced⟩ := placed_of_install h.leadsTo hinstall hdir
  have hremoved := (DiskM.removeEach_changes Segment.path (ix.segments.take count) d₁).result
  have hpaths : ∀ s ∈ ix.segments.take count, ∃ name, IsName name ∧ s.path = dir / name := by
    intro s hs
    obtain ⟨g, -, hpath⟩ := hix.path_of_mem_take hs
    exact ⟨_, isName_segmentName g.1, hpath.symm⟩
  have hreached' := reached_of_removeEach (hreached.leadsTo h.leadsTo) hpaths
  refine ⟨_, ?_, h.mergedInto hopen (by omega) (by omega) hsmall hplaced hremoved.2
    (hreached.trans hreached')⟩
  rw [← hix.dir_eq, ← hix.next] at hinstall ⊢
  rw [forceMerge_eq_install htarget (Nat.not_le.mpr hmore) hcount, DiskM.on_bind_ok hread,
    DiskM.on_bind_ok hinstall, DiskM.on_bind_ok (Prod.ext hremoved.1 rfl)]
  rfl

lemma entriesOf_append (front back : List Segment) : entriesOf (front ++ back) = do
    let es ← entriesOf front
    let more ← entriesOf back
    return es ++ more := by
  simp [entriesOf, List.mapM_append]

/-- The chunks are those from before, or they fail to be read with the error from before. -/
lemma MergedInto.fst_on_chunks {count : ℕ} (h : MergedInto d dir p c ix count es d')
    (hread : (entriesOf (ix.segments.take count)).on d = (.ok es, d)) :
    ((chunks (ix.replaced count (.ofEntries (dir / segmentName c.next) es))).on d').1
      = ((chunks ix).on d).1 := by
  have hmerged : (entriesOf [.ofEntries (dir / segmentName c.next) es]).on d' = (.ok es, d') :=
    on_entriesOf_eq_ok_iff.mpr ⟨rfl, [es], .cons h.merged .nil, List.flatten_singleton.symm⟩
  have hold : chunks ix = entriesOf (ix.segments.take count ++ ix.segments.drop count) := by
    rw [List.take_append_drop, chunks]
  obtain ⟨r, hr, hr'⟩ := agrees_entriesOf h.kept
  rw [hold, entriesOf_append, DiskM.on_bind_ok hread, chunks, replaced, ← List.singleton_append,
    entriesOf_append, DiskM.on_bind_ok hmerged, DiskM.on_bind, DiskM.on_bind, hr, hr']
  cases r <;> rfl

end Index

end SeriesStore
