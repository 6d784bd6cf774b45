import SeriesStore.Proofs.Index.ManifestText
import SeriesStore.Proofs.Segment.Names
import SeriesStore.Proofs.Segment.Writing

/-!
# Contents of indexes

What an index holds is known from its manifest and the segment files that the manifest lists.
Other files in its directory do not matter.
-/

namespace SeriesStore.Index

open SeriesStore.Path SeriesStore.Tree

lemma readText_manifest {d : Disk} {dir : Path} {p : Place} {m : Manifest} (hd : d.LeadsTo dir p)
    (hroom : dir.hasRoom manifestName = true)
    (hfile : d.tree.node? (p ++ [manifestName]) = some (.file (Bytes.ofText m.toText))) :
    d.readText (dir / manifestName) = .ok m.toText := by
  rw [Disk.readText, Disk.read_div hd isName_manifestName hroom hfile]
  simp [Bytes.toText?_ofText]

/-- An index is opened with the segments that its manifest lists. -/
lemma on_open_of_manifest {d : Disk} {dir : Path} {p : Place} {m : Manifest}
    {segments : List Segment} (hd : d.LeadsTo dir p) (hroom : dir.hasRoom manifestName = true)
    (hfile : d.tree.node? (p ++ [manifestName]) = some (.file (Bytes.ofText m.toText)))
    (h : List.Forall₂ (fun name s => (Segment.open (dir / name)).on d = (.ok s, d))
      m.segments segments) : (Index.open dir).on d
      = (.ok ⟨dir, m.id, m.range, m.resolution, m.createdAt, segments, m.nextSegment⟩, d) := by
  have htext : (DiskM.readText (dir / manifestName)).on d = (.ok m.toText, d) := by
    rw [DiskM.readText, DiskM.on_ask, readText_manifest hd hroom hfile]
  rw [Index.open, DiskM.on_bind_ok htext, Manifest.ofText?_toText,
    DiskM.on_bind_ok (DiskM.on_ofExcept _ _), DiskM.on_bind_ok (DiskM.on_mapM_of_forall₂ h)]
  rfl

lemma on_entriesOf_of_intact {d : Disk} {segments : List Segment} {groups : List (List Entry)}
    (h : List.Forall₂ (Segment.Intact d) segments groups) :
    (entriesOf segments).on d = (.ok groups.flatten, d) := by
  have hread : (segments.mapM Segment.entries).on d = (.ok groups, d) :=
    DiskM.on_mapM_of_forall₂ (h.imp fun _ _ hs => hs.verifies)
  rw [entriesOf, DiskM.on_bind_ok hread]
  rfl

/-- What an index holds, wherever it stands. -/
structure Contents where
  id : Uid
  range : TimeRange
  resolution : Resolution
  createdAt : Instant
  /-- The numbers of the segment files, each with the entries in the file. -/
  groups : List (UInt64 × List Entry)
  /-- Number of the next segment file. -/
  next : UInt64

namespace Contents

/-- All entries, in order. -/
def entries (c : Contents) : List Entry := c.groups.flatMap Prod.snd

/-- What makes an index different from others. -/
def identity (c : Contents) : Uid × TimeRange × Resolution × Instant :=
  (c.id, c.range, c.resolution, c.createdAt)

/-- The manifest for some contents. -/
def manifest (c : Contents) : Manifest :=
  ⟨c.id, c.range, c.resolution, c.createdAt, c.groups.map (segmentName ·.1), c.next⟩

/-- The segment in a directory for a group of entries. -/
def segment (dir : Path) (g : UInt64 × List Entry) : Segment :=
  .ofEntries (dir / segmentName g.1) g.2

/-- The open index with some contents. -/
def index (c : Contents) (dir : Path) : Index :=
  ⟨dir, c.id, c.range, c.resolution, c.createdAt, c.groups.map (segment dir), c.next⟩

/-- Numbers are not used twice, and entries are such as an index takes. The number of the next
segment file cannot overflow before there are too many entries. -/
structure Sound (c : Contents) : Prop where
  numbers : (c.groups.map Prod.fst).Nodup
  below : ∀ g ∈ c.groups, g.1 < c.next
  fits : ∀ g ∈ c.groups, Layout.oversized? g.2 = none
  ordered : check c.range none c.entries = .ok ()
  bounded : c.next.toNat + c.groups.length ≤ 2 * c.entries.length + 1
  small : 28 * c.entries.length < 2 ^ 32

/-- The segment files are complete. -/
def Files (c : Contents) (p : Place) (t : Tree) : Prop :=
  ∀ g ∈ c.groups, t.node? (p ++ [segmentName g.1]) = some (.file (Layout.file g.2))

/-- The manifest and the segment files that it lists stand in a directory. -/
structure StandsIn (c : Contents) (p : Place) (t : Tree) : Prop where
  manifest : t.node? (p ++ [manifestName]) = some (.file (Bytes.ofText c.manifest.toText))
  files : c.Files p t

/-- The names of all files can be found in a directory. -/
structure FitsIn (c : Contents) (dir : Path) : Prop where
  manifest : dir.hasRoom manifestName = true
  files : ∀ g ∈ c.groups, dir.hasRoom (segmentName g.1) = true

/-- A directory on a disk holds an index with some contents. -/
structure HeldBy (c : Contents) (d : Disk) (dir : Path) (p : Place) : Prop where
  leadsTo : d.LeadsTo dir p
  stands : c.StandsIn p d.tree
  fits : c.FitsIn dir
  sound : c.Sound

/-! ### Files -/

lemma Files.ignores {c : Contents} {p : Place} {names : List String}
    (h : ∀ g ∈ c.groups, segmentName g.1 ∉ names) :
    Ignores (c.Files p) (names.map fun name => p ++ [name]) := by
  intro t t' ht hfiles g hg
  rw [ht _ (by simpa using h g hg)]
  exact hfiles g hg

/-- A file that is not listed does not matter. -/
lemma StandsIn.ignores {c : Contents} {p : Place} (names : List String)
    (hmanifest : manifestName ∉ names) (h : ∀ g ∈ c.groups, segmentName g.1 ∉ names) :
    Ignores (c.StandsIn p) (names.map fun name => p ++ [name]) := fun t t' ht hstands =>
  ⟨by rw [ht _ (by simpa using hmanifest)]; exact hstands.manifest,
    Files.ignores h t t' ht hstands.files⟩

lemma length_le_of_mem {c : Contents} {g : UInt64 × List Entry} (hg : g ∈ c.groups) :
    g.2.length ≤ c.entries.length := by
  obtain ⟨front, back, hsplit⟩ := List.append_of_mem hg
  simp only [entries, hsplit, List.flatMap_append, List.flatMap_cons, List.length_append]
  omega

lemma Sound.small_of_mem {c : Contents} (h : c.Sound) {g : UInt64 × List Entry}
    (hg : g ∈ c.groups) : 28 * g.2.length < 2 ^ 32 := by
  have := length_le_of_mem hg
  have := h.small
  omega

/-! ### Reading -/

namespace HeldBy

variable {c : Contents} {d d' : Disk} {dir : Path} {p : Place}

/-- What a directory holds is a matter of the tree alone. -/
lemma congr (h : c.HeldBy d dir p) (hwork : d'.workDir = d.workDir) (htree : d'.tree = d.tree) :
    c.HeldBy d' dir p where
  leadsTo := h.leadsTo.of_dirs hwork fun q hq => by rwa [htree]
  stands := htree ▸ h.stands
  fits := h.fits
  sound := h.sound

/-- All segments of an index are intact. -/
lemma intact (h : c.HeldBy d dir p) {g : UInt64 × List Entry} (hg : g ∈ c.groups) :
    (segment dir g).Intact d g.2 :=
  Segment.intact_of_node? h.leadsTo (isName_segmentName g.1) (h.fits.files g hg)
    (h.sound.small_of_mem hg) (h.sound.fits g hg) (h.stands.files g hg)

/-- An index is opened with its contents. -/
theorem on_open (h : c.HeldBy d dir p) : (Index.open dir).on d = (.ok (c.index dir), d) := by
  refine on_open_of_manifest h.leadsTo h.fits.manifest h.stands.manifest ?_
  rw [manifest, List.forall₂_map_left_iff, List.forall₂_map_right_iff, List.forall₂_same]
  exact fun g hg => (h.intact hg).opens

lemma on_entriesOf (h : c.HeldBy d dir p) {groups : List (UInt64 × List Entry)}
    (hgroups : ∀ g ∈ groups, g ∈ c.groups) :
    (entriesOf (groups.map (segment dir))).on d = (.ok (groups.flatMap Prod.snd), d) := by
  have hintact : List.Forall₂ (Segment.Intact d) (groups.map (segment dir))
      (groups.map Prod.snd) := by
    rw [List.forall₂_map_left_iff, List.forall₂_map_right_iff, List.forall₂_same]
    exact fun g hg => h.intact (hgroups g hg)
  rw [List.flatMap_def]
  exact on_entriesOf_of_intact hintact

/-- The chunks of an index are read in order. -/
theorem on_chunks (h : c.HeldBy d dir p) : (chunks (c.index dir)).on d = (.ok c.entries, d) :=
  h.on_entriesOf fun _ hg => hg

end HeldBy

end Contents

/-! ### Counting -/

lemma chunkCount_eq_sum (ix : Index) : ix.chunkCount = (ix.segments.map Segment.size).sum := by
  rw [chunkCount, List.sum_eq_foldl, List.foldl_map]

lemma chunkCount_index (c : Contents) (dir : Path) :
    (c.index dir).chunkCount = c.entries.length := by
  have hsize : ∀ g ∈ c.groups, (Contents.segment dir g).size = g.2.length :=
    fun g _ => Layout.length_slots g.2
  rw [chunkCount_eq_sum, Contents.index, List.map_map, Contents.entries, List.length_flatMap]
  exact congrArg List.sum (List.map_congr_left hsize)

end SeriesStore.Index
