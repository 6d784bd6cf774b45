import SeriesStore.Proofs.Index.Failing
import SeriesStore.Proofs.Index.Stock

/-!
# Data directories with damaged segments

Which indexes stand in a data directory is known from the manifests alone. Two disks with the same
manifests, in directories that are listed alike, give the same indexes if each index opens alike,
and the chunks of an index are read alike where its segment files are the same.
-/

namespace SeriesStore.Index

open SeriesStore.Path SeriesStore.Tree

variable {d₀ d d' : Disk} {dir : Path} {p : Place} {name : String}
  {cs cs' : List (String × Contents)}

lemma Contents.ListedBy.exists? {c : Contents} (h : c.ListedBy d dir p) :
    d.exists? (dir / manifestName) = true := by
  simp [Disk.exists?, Disk.find?, Disk.locate_div h.leadsTo isName_manifestName, h.fits.manifest,
    h.manifest]

/-- A directory holds the manifests for some contents under some names, and no others. What their
segment files hold is open. -/
structure Catalogued (d : Disk) (dir : Path) (p : Place) (cs : List (String × Contents)) :
    Prop where
  finds : d.Finds dir p
  nodup : (d.tree.names p).Nodup
  isName : ∀ name ∈ d.tree.names p, IsName name
  keys : (cs.map Prod.fst).Nodup
  listed : ∀ g ∈ cs, g.2.ListedBy d (dir / g.1) (p ++ [g.1])
  bare : ∀ name, name ∉ cs.map Prod.fst → d.tree.node? (p ++ [name, manifestName]) = none

lemma Stocked.catalogued (h : Stocked d dir p cs) : Catalogued d dir p cs :=
  ⟨h.finds, h.nodup, h.isName, h.keys, fun g hg => (h.held g hg).listedBy, h.bare⟩

namespace Catalogued

/-- Files other than manifests do not matter, as long as none comes into the directory itself or
goes from there. -/
lemma worn (h : Catalogued d₀ dir p cs) (hworn : d₀.Worn d)
    (hnames : (d.tree.names p).Perm (d₀.tree.names p)) : Catalogued d dir p cs where
  finds := h.finds.of_dirs hworn.workDir fun q => (hworn.dirs q).mpr
  nodup := hnames.nodup_iff.mpr h.nodup
  isName name hname := h.isName name (hnames.mem_iff.mp hname)
  keys := h.keys
  listed g hg := (h.listed g hg).worn hworn
  bare name hname := by
    have hsame := hworn.manifests (p ++ [name])
    simp only [List.append_assoc, List.singleton_append] at hsame
    rw [hsame, h.bare name hname]

lemma isName_of_mem (h : Catalogued d dir p cs) {g : String × Contents} (hg : g ∈ cs) :
    IsName g.1 :=
  h.isName g.1 (mem_names_iff.mpr (by simp [(h.listed g hg).leadsTo.isDir]))

lemma hasRoom (h : Catalogued d dir p cs) {g : String × Contents} (hg : g ∈ cs) :
    dir.hasRoom g.1 = true :=
  Disk.hasRoom_of_div (h.isName_of_mem hg)
    (h.finds.leadsTo.of_div (h.isName_of_mem hg) (h.listed g hg).leadsTo).2
    (h.listed g hg).fits.manifest

lemma finds_of_mem (h : Catalogued d dir p cs) {g : String × Contents} (hg : g ∈ cs) :
    d.Finds (dir / g.1) (p ++ [g.1]) :=
  h.finds.leadsTo.finds_div (h.isName_of_mem hg) (h.hasRoom hg) (h.listed g hg).leadsTo.isDir

/-! ### Loading -/

lemma on_openIfIndex_of_mem (h : Catalogued d dir p cs) {g : String × Contents} (hg : g ∈ cs) :
    (openIfIndex (dir / g.1)).on d
      = (tryCatch (Index.open (dir / g.1) >>= fun ix => pure (some ix)) fun _ => pure none :
        DiskM (Option Index)).on d := by
  rw [openIfIndex, DiskM.on_bind_ok (DiskM.on_get d), Disk.isDir_iff.mpr ⟨_, h.finds_of_mem hg⟩,
    (h.listed g hg).exists?]
  simp only [Bool.and_self, if_true]
  rw [DiskM.on_bind, DiskM.on_tryCatch, DiskM.on_tryCatch, DiskM.on_bind, DiskM.on_bind]
  rcases (Index.open (dir / g.1)).on d with ⟨_ | _, _⟩ <;> rfl

lemma on_openIfIndex_of_not_mem (h : Catalogued d dir p cs) (hname : IsName name)
    (hmem : name ∉ cs.map Prod.fst) : (openIfIndex (dir / name)).on d = (.ok none, d) :=
  on_openIfIndex_of_bare h.finds.leadsTo hname (h.bare name hmem)

lemma agrees_openIfIndex (h : Catalogued d dir p cs) (h' : Catalogued d' dir p cs')
    {g g' : String × Contents} (hg : g ∈ cs) (hg' : g' ∈ cs') (hname : g'.1 = g.1)
    (hopen : (Index.open (dir / g.1)).Agrees d d') : (openIfIndex (dir / g.1)).Agrees d d' :=
  .of_on_eq (h.on_openIfIndex_of_mem hg) (hname ▸ h'.on_openIfIndex_of_mem hg')
    ((hopen.bind fun _ _ => .pure _).tryCatch fun _ => .pure _)

/-- What opens under a name is an index or nothing, and no failure is reported. -/
lemma exists_on_openIfIndex (h : Catalogued d dir p cs) (hname : IsName name) :
    ∃ found, (openIfIndex (dir / name)).on d = (.ok found, d)
      ∧ ∀ ix, found = some ix →
        ∃ g ∈ cs, g.1 = name ∧ (Index.open (dir / name)).on d = (.ok ix, d) := by
  by_cases hmem : name ∈ cs.map Prod.fst
  · obtain ⟨g, hg, rfl⟩ := List.mem_map.mp hmem
    have hon := h.on_openIfIndex_of_mem hg
    have hlisted := h.listed g hg
    have hstay := (hlisted.agrees_open hlisted fun _ _ => rfl).snd_eq
    rw [DiskM.on_tryCatch, DiskM.on_bind] at hon
    rcases hr : (Index.open (dir / g.1)).on d with ⟨e | ix, d₁⟩ <;> rw [hr] at hon hstay <;>
      obtain rfl : d₁ = d := hstay
    · exact ⟨none, hon, fun _ h => nomatch h⟩
    · refine ⟨some ix, hon, fun ix' hix => ?_⟩
      cases hix
      exact ⟨g, hg, rfl, rfl⟩
  · exact ⟨none, h.on_openIfIndex_of_not_mem hname hmem, fun _ h => nomatch h⟩

/-- Under each name an index is found that opens there, or nothing. -/
lemma exists_found (h : Catalogued d dir p cs) : ∃ found : String → Option Index,
    (∀ name ∈ d.tree.names p, (openIfIndex (dir / name)).on d = (.ok (found name), d)
      ∧ ∀ ix, found name = some ix →
        ∃ g ∈ cs, g.1 = name ∧ (Index.open (dir / name)).on d = (.ok ix, d))
      ∧ (load dir).on d = (.ok (sorted ((d.tree.names p).filterMap found)), d) := by
  have hfound := fun name hname => h.exists_on_openIfIndex (h.isName name hname)
  choose! found hfound using hfound
  exact ⟨found, hfound, on_load_of_found h.finds fun name hname => (hfound name hname).1⟩

/-- Names without a manifest add nothing to what is found. -/
lemma filterMap_found {names keys : List String} {found : String → Option Index}
    (hfound : ∀ name ∈ names, ∀ ix, found name = some ix → name ∈ keys) :
    names.filterMap found = (names.filter (· ∈ keys)).filterMap found := by
  rw [List.filterMap_filter]
  refine List.filterMap_congr fun name hname => ?_
  split_ifs with hmem
  · rfl
  · exact Option.eq_none_iff_forall_ne_some.mpr fun ix hix =>
      hmem (by simpa using hfound name hname ix hix)

/-- Where the same indexes open alike, the same is found in a data directory. What else is in the
directory does not matter. -/
theorem agrees_load (h : Catalogued d dir p cs) (h' : Catalogued d' dir p cs)
    (hnames : (d'.tree.names p).filter (· ∈ cs.map Prod.fst)
      = (d.tree.names p).filter (· ∈ cs.map Prod.fst))
    (hopen : ∀ g ∈ cs, (Index.open (dir / g.1)).Agrees d d') : (load dir).Agrees d d' := by
  obtain ⟨found, hfound, hload⟩ := h.exists_found
  obtain ⟨found', hfound', hload'⟩ := h'.exists_found
  have hkeys {d₁ : Disk} {name : String} {ix : Index}
      (hopened : ∃ g ∈ cs, g.1 = name ∧ (Index.open (dir / name)).on d₁ = (.ok ix, d₁)) :
      name ∈ cs.map Prod.fst := by
    obtain ⟨g, hg, rfl, -⟩ := hopened
    exact List.mem_map_of_mem hg
  rw [filterMap_found fun name hname ix hix => hkeys ((hfound name hname).2 ix hix)] at hload
  rw [filterMap_found fun name hname ix hix => hkeys ((hfound' name hname).2 ix hix), hnames]
    at hload'
  suffices hsame : ∀ name ∈ (d.tree.names p).filter (· ∈ cs.map Prod.fst),
      found' name = found name from ⟨_, hload, List.filterMap_congr hsame ▸ hload'⟩
  intro name hname
  have hname' := hnames ▸ hname
  simp only [List.mem_filter, decide_eq_true_eq, List.mem_map] at hname hname'
  obtain ⟨hname, g, hg, rfl⟩ := hname
  have hon := (h.agrees_openIfIndex h' hg hg rfl (hopen g hg)).on_right (hfound g.1 hname).1
  rw [(hfound' g.1 hname'.1).1] at hon
  simpa using hon

/-- All indexes that open are found in a data directory, and no others. -/
lemma exists_on_load (h : Catalogued d dir p cs) : ∃ ixs, (load dir).on d = (.ok ixs, d)
    ∧ ∀ ix ∈ ixs, ∃ g ∈ cs, (Index.open (dir / g.1)).on d = (.ok ix, d) := by
  obtain ⟨found, hfound, hload⟩ := h.exists_found
  refine ⟨_, hload, fun ix hix => ?_⟩
  obtain ⟨name, hname, hix⟩ :=
    List.mem_filterMap.mp ((List.mergeSort_perm _ _).mem_iff.mp hix)
  obtain ⟨g, hg, rfl, hopen⟩ := (hfound name hname).2 ix hix
  exact ⟨g, hg, hopen⟩

end Catalogued

/-! ### What is found again -/

end SeriesStore.Index
