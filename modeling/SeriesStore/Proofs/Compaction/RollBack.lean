import SeriesStore.Proofs.Compaction.Copies
import SeriesStore.Proofs.Index.Catalogue

/-!
# Failed merges

A merge can fail because a segment of a source cannot be read, or because the merged segment or a
manifest cannot be written, in place or in a new index. The data directory then gives the same
indexes as before, with the same chunks. Nothing stands in place of the new index if that had been
made and could be removed again. If its first manifest cannot be written, its directory stays.
-/

namespace SeriesStore

open Index SeriesStore.Path SeriesStore.Tree

/-! ### Names without a directory -/

namespace Tree

end Tree

namespace Index

variable {d d' d₁ : Disk} {dir : Path} {p : Place} {cs : List (String × Contents)} {name : String}

namespace Catalogued

end Catalogued

end Index

/-! ### Failing merges -/

variable {d d' d₁ d₂ : Disk} {dir : Path} {p : Place} {cs : List (String × Contents)}
  {name : String} {err : StorageError}

namespace Engine

variable {e : Engine} {o : Origin}

namespace Overlap

/-! ### A damaged record -/

/-- The segment file of `x`, where the first byte of the record is another one. -/
def damaged : Bytes := (Layout.file [chunk]).set (SegmentHeader.byteCount + 4) 9

lemma readTable_damaged :
    Layout.readTable damaged = .ok (Layout.header [chunk], Layout.slots [chunk]) := by
  decide +kernel

/-- The record does not verify. -/
lemma readEntries_damaged (path : Path) (es : List Entry) :
    Layout.readEntries path damaged 0 (Layout.slots [chunk]) ≠ .ok es := by
  intro h
  have hnone : (Layout.readEntries ⟨[]⟩ damaged 0 (Layout.slots [chunk])).toOption = none := by
    decide +kernel
  rw [Layout.readEntries_of_ok h] at hnone
  cases hnone

/-- The disk on which the record has been damaged. -/
def damage (d : Disk) : Disk := { d with tree := d.tree.put ["x", segmentName 1] (.file damaged) }

variable {d d₁ : Disk} {dir : Path} {cs : List (String × Contents)}

lemma reached_damage (hfile : d.tree.node? ["x", segmentName 1] ≠ some .dir) :
    d.Reached ["x"] (damage d) :=
  ⟨rfl, rfl, AlikeUpTo.put_file (p := ["x"]) hfile damaged⟩

lemma worn_damage (hfile : d.tree.node? ["x", segmentName 1] ≠ some .dir) : d.Worn (damage d) where
  workDir := rfl
  dirs := (reached_damage hfile).tree.dirs
  manifests q := node?_put_of_ne fun heq => by
    have hlast : manifestName = segmentName 1 := by simpa using congrArg List.getLast? heq
    exact segmentName_ne_manifestName 1 hlast.symm

/-! The first segment of the index in `x` holds the chunk. -/

section

variable {c : Contents} (hst : Stocked d dir [] cs) (hx : ("x", c) ∈ cs)
  (hfirst : (1, [chunk]) ∈ c.groups)

include hst hx hfirst

lemma file_first : d.tree.node? ["x", segmentName 1] = some (.file (Layout.file [chunk])) :=
  (hst.held _ hx).stands.files (1, [chunk]) hfirst

lemma catalogued_damage : Catalogued (damage d) dir [] cs := by
  have hfile : d.tree.node? ["x", segmentName 1] ≠ some .dir := by
    simp [file_first hst hx hfirst]
  exact hst.catalogued.worn (worn_damage hfile)
    (.of_eq ((reached_damage hfile).tree.names [] (by simp)))

lemma read_damage : (damage d).read (dir / "x" / segmentName 1) = .ok damaged :=
  Disk.read_div ((catalogued_damage hst hx hfirst).listed _ hx).leadsTo (isName_segmentName 1)
    ((hst.held _ hx).fits.files (1, [chunk]) hfirst) (node?_put_self (by simp))

/-- All is found on the damaged disk that was found before. -/
lemma agrees_load_damage : (load dir).Agrees d (damage d) := by
  have h' := catalogued_damage hst hx hfirst
  have hnames : (damage d).tree.names [] = d.tree.names [] :=
    (reached_damage (by simp [file_first hst hx hfirst])).tree.names [] (by simp)
  refine hst.catalogued.agrees_load h' (by rw [hnames]) fun g hg => ?_
  refine (hst.catalogued.listed g hg).agrees_open_of_segments (h'.listed g hg) fun g' hg' => ?_
  by_cases hplace : [g.1, segmentName g'.1] = ["x", segmentName 1]
  · -- the table of the damaged file is the one that has been written
    simp only [List.cons.injEq, and_true] at hplace
    obtain rfl : g = ("x", c) := hst.eq_of_name hg hx hplace.1
    have hopen := ((hst.held _ hx).intact hfirst).opens
    rw [hplace.2]
    exact ⟨_, hopen, Segment.on_open_of_read (read_damage hst hx hfirst) readTable_damaged⟩
  · exact Segment.agrees_open (Disk.read_div_eq (hst.catalogued.listed g hg).leadsTo
      (h'.listed g hg).leadsTo (isName_segmentName g'.1) (node?_put_of_ne hplace))

end

lemma on_entries_damaged {es : List Entry}
    (hread : d.read (dir / "x" / segmentName 1) = .ok damaged) :
    (Segment.entries (Contents.segment (dir / "x") (1, [chunk]))).on d ≠ (.ok es, d₁) := by
  intro h
  obtain ⟨-, content, hcontent, hrecords⟩ := Segment.of_on_entries h
  cases hread.symm.trans hcontent
  exact readEntries_damaged _ es hrecords

end Overlap

namespace Overlap

end Overlap

end Engine

end SeriesStore
