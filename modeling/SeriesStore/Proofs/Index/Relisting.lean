import SeriesStore.Proofs.Compaction.Groups
import SeriesStore.Proofs.Index.Catalogue
import SeriesStore.Proofs.Index.Shrinking

/-!
# One index in place of another

When nothing changes in a data directory but the files of one index, all other indexes are found
with their segments and are read as before. The index that opens in the changed directory stands
at the same place of the list as long as its range stays.
-/

namespace SeriesStore.Index

open SeriesStore.Path SeriesStore.Tree

/-! ### Lists of indexes -/

/-- Another index for the one in the same directory. -/
def substitute (new ix : Index) : Index := if ix.dir = new.dir then new else ix

section

variable {new ix : Index} {ixs : List Index}

@[simp] lemma dir_substitute (new ix : Index) : (substitute new ix).dir = ix.dir := by
  rw [substitute]
  split_ifs with h
  · exact h.symm
  · rfl

lemma substitute_of_eq (h : ix.dir = new.dir) : substitute new ix = new := if_pos h

lemma substitute_of_ne (h : ix.dir ≠ new.dir) : substitute new ix = ix := if_neg h

/-- The order of indexes depends on their ranges alone. -/
lemma sorted_map {f : Index → Index} (hf : ∀ ix ∈ ixs, (f ix).range = ix.range) :
    sorted (ixs.map f) = (sorted ixs).map f := by
  refine (List.map_mergeSort fun a ha b hb => ?_).symm
  rw [hf a ha, hf b hb]

end

/-! ### Data directories -/

variable {c : Contents} {d d' : Disk} {dir : Path} {p : Place} {name : String}
  {cs cs' : List (String × Contents)} {g : String × Contents} {ix ix' : Index} {ixs : List Index}

/-- What is done outside of the directory of an index does not matter to it. -/
lemma Contents.ListedBy.frame (h : c.ListedBy d (dir / name) (p ++ [name])) (hd : d.LeadsTo dir p)
    (hd' : d'.LeadsTo dir p) (hname : IsName name)
    (hsame : ∀ q, p ++ [name] <+: q → d'.tree.node? q = d.tree.node? q) :
    c.ListedBy d' (dir / name) (p ++ [name]) where
  leadsTo := hd'.div hname (hd.of_div hname h.leadsTo).2
    ((hsame _ (List.prefix_refl _)).trans h.leadsTo.isDir)
  manifest := (hsame _ (List.prefix_append _ _)).trans h.manifest
  fits := h.fits
  sound := h.sound

namespace Catalogued

/-- Different indexes stand in different directories. -/
lemma nodup_dirs (h : Catalogued d dir p cs) (hload : (load dir).on d = (.ok ixs, d)) :
    (ixs.map (·.dir)).Nodup := by
  obtain ⟨found, hfound, hload'⟩ := h.exists_found
  cases hload.symm.trans hload'
  have hdir {name : String} (hname : name ∈ d.tree.names p) {path : Path}
      (hpath : (found name).map (·.dir) = some path) : path = dir / name := by
    obtain ⟨ix, hix, rfl⟩ := Option.map_eq_some_iff.mp hpath
    obtain ⟨-, -, -, hopen⟩ := (hfound name hname).2 ix hix
    exact (of_on_open hopen).2.1
  rw [((sorted_perm _).map _).nodup_iff, List.map_filterMap]
  refine List.pairwise_filterMap.mpr (h.nodup.imp_of_mem ?_)
  intro name other hname hother hne path hpath path' hpath' heq
  rw [hdir hname hpath, hdir hother hpath'] at heq
  exact hne (eq_of_div_eq (h.isName name hname) (h.isName other hother) heq)

/-- An index that is found opens in its directory. -/
lemma exists_of_mem (h : Catalogued d dir p cs) (hload : (load dir).on d = (.ok ixs, d))
    (hix : ix ∈ ixs) :
    ∃ g ∈ cs, ix.dir = dir / g.1 ∧ (Index.open (dir / g.1)).on d = (.ok ix, d) := by
  obtain ⟨ixs', hload', hopened⟩ := h.exists_on_load
  cases hload.symm.trans hload'
  obtain ⟨g, hg, hopen⟩ := hopened ix hix
  exact ⟨g, hg, (of_on_open hopen).2.1, hopen⟩

/-! ### Changes in the directory of one index -/

lemma finds_of_reached (h : Catalogued d dir p cs) (hr : d.Reached (p ++ [name]) d') :
    d'.Finds dir p := h.finds.of_dirs hr.workDir fun q => (hr.tree.dirs q).mpr

/-- After files in one directory have changed, there is another manifest in it. -/
lemma beside (h : Catalogued d dir p cs) (hr : d.Reached (p ++ [name]) d')
    (hc : c.ListedBy d' (dir / name) (p ++ [name])) :
    Catalogued d' dir p ((name, c) :: cs.filter (·.1 ≠ name)) where
  finds := h.finds_of_reached hr
  nodup := by
    rw [hr.tree.names p (by simp)]
    exact h.nodup
  isName := by
    rw [hr.tree.names p (by simp)]
    exact h.isName
  keys := by
    have hrest : ((cs.filter (·.1 ≠ name)).map Prod.fst).Nodup :=
      h.keys.sublist (List.filter_sublist.map _)
    simpa using hrest
  listed g hg := by
    rcases List.mem_cons.mp hg with rfl | hg
    · exact hc
    · obtain ⟨hg, hne⟩ := List.mem_filter.mp hg
      exact (h.listed g hg).frame h.finds.leadsTo (h.finds_of_reached hr).leadsTo
        (h.isName_of_mem hg) fun q hq =>
          (Disk.Beside.of_reached hr).others q (not_prefix_of_ne (by simpa using hne) hq)
  bare other hother := by
    simp only [List.map_cons, List.mem_cons, not_or] at hother
    have hplace : ¬p ++ [name] <+: p ++ [other, manifestName] :=
      not_prefix_of_ne hother.1 ⟨[manifestName], by simp⟩
    rw [(Disk.Beside.of_reached hr).others _ hplace]
    refine h.bare other fun hmem => hother.2 ?_
    obtain ⟨g, hg, rfl⟩ := List.mem_map.mp hmem
    exact List.mem_map_of_mem (List.mem_filter.mpr ⟨hg, by simpa using hother.1⟩)

/-- The files of other indexes are the same. -/
lemma same_of_reached (hr : d.Reached (p ++ [name]) d') (hne : g.1 ≠ name) (file : String) :
    d'.tree.node? (p ++ [g.1] ++ [file]) = d.tree.node? (p ++ [g.1] ++ [file]) :=
  (Disk.Beside.of_reached hr).others _ (not_prefix_of_ne hne (List.prefix_append _ _))

/-- Other indexes are read as before. -/
lemma read_of_reached (h : Catalogued d dir p cs) (hr : d.Reached (p ++ [name]) d')
    (hload : (load dir).on d = (.ok ixs, d)) (hix : ix ∈ ixs) (hne : ix.dir ≠ dir / name)
    {s : Segment} (hs : s ∈ ix.segments) : d'.read s.path = d.read s.path := by
  obtain ⟨g, hg, hdir, hopen⟩ := h.exists_of_mem hload hix
  have hlisted := h.listed g hg
  have hname : g.1 ≠ name := fun heq => hne (heq ▸ hdir)
  have hleads : d'.LeadsTo (dir / g.1) (p ++ [g.1]) :=
    hlisted.leadsTo.of_dirs hr.workDir fun q => (hr.tree.dirs q).mpr
  exact hlisted.read_eq hleads (fun file _ => same_of_reached hr hname file)
    (hlisted.opens_of_on hopen) hs

/-- Under other names the same is found as before. -/
lemma agrees_openIfIndex_of_ne (h : Catalogued d dir p cs) (hr : d.Reached (p ++ [name]) d')
    (hc : c.ListedBy d' (dir / name) (p ++ [name])) {other : String}
    (hother : other ∈ d.tree.names p) (hne : other ≠ name) :
    (openIfIndex (dir / other)).Agrees d d' := by
  have h' := h.beside hr hc
  by_cases hmem : other ∈ cs.map Prod.fst
  · obtain ⟨g, hg, rfl⟩ := List.mem_map.mp hmem
    have hg' : g ∈ (name, c) :: cs.filter (·.1 ≠ name) :=
      List.mem_cons_of_mem _ (List.mem_filter.mpr ⟨hg, by simpa using hne⟩)
    exact h.agrees_openIfIndex h' hg hg' rfl ((h.listed g hg).agrees_open (h'.listed g hg')
      fun file _ => same_of_reached hr hne file)
  · refine ⟨.ok none, h.on_openIfIndex_of_not_mem (h.isName other hother) hmem,
      h'.on_openIfIndex_of_not_mem (h.isName other hother) fun hmem' => hmem ?_⟩
    obtain ⟨g, hg, rfl⟩ := List.mem_map.mp hmem'
    rcases List.mem_cons.mp hg with rfl | hg
    · exact absurd rfl hne
    · exact List.mem_map_of_mem (List.mem_filter.mp hg).1

lemma on_openIfIndex_of_open (h : Catalogued d dir p cs) (hg : g ∈ cs)
    (hopen : (Index.open (dir / g.1)).on d = (.ok ix, d)) :
    (openIfIndex (dir / g.1)).on d = (.ok (some ix), d) := by
  rw [h.on_openIfIndex_of_mem hg, DiskM.on_tryCatch, DiskM.on_bind_ok hopen]
  rfl

lemma dir_of_on_openIfIndex (h : Catalogued d dir p cs) (hname : IsName name)
    (hfound : (openIfIndex (dir / name)).on d = (.ok (some ix), d)) : ix.dir = dir / name := by
  obtain ⟨found, hfound', hopened⟩ := h.exists_on_openIfIndex hname
  cases hfound.symm.trans hfound'
  obtain ⟨-, -, -, hopen⟩ := hopened ix rfl
  exact (of_on_open hopen).2.1

section

variable {c' : Contents} (h : Catalogued d dir p cs) (hr : d.Reached (p ++ [name]) d')
  (hmem : (name, c) ∈ cs) (hc' : c'.ListedBy d' (dir / name) (p ++ [name]))
  (hopen : (Index.open (dir / name)).on d = (.ok ix, d))
  (hopen' : (Index.open (dir / name)).on d' = (.ok ix', d'))

include h hr hmem hc' hopen hopen'

/-- Under each name is found what was found there before, but for the changed directory. -/
lemma on_openIfIndex_substitute {other : String} (hother : other ∈ d.tree.names p)
    {found : Option Index} (hfound : (openIfIndex (dir / other)).on d = (.ok found, d)) :
    (openIfIndex (dir / other)).on d' = (.ok (found.map (substitute ix')), d') := by
  have hdir' : ix'.dir = dir / name := (of_on_open hopen').2.1
  by_cases hne : other = name
  · subst hne
    have hdir : ix.dir = ix'.dir := (of_on_open hopen).2.1.trans hdir'.symm
    cases hfound.symm.trans (h.on_openIfIndex_of_open (g := (other, c)) hmem hopen)
    rw [Option.map_some, substitute_of_eq hdir]
    exact (h.beside hr hc').on_openIfIndex_of_open (g := (other, c')) List.mem_cons_self hopen'
  · rw [(h.agrees_openIfIndex_of_ne hr hc' hother hne).on_right hfound]
    cases found with
    | none => rfl
    | some a =>
      have hdir : a.dir ≠ ix'.dir := fun hdir => hne (eq_of_div_eq (h.isName other hother)
        (h.isName_of_mem hmem) ((h.dir_of_on_openIfIndex (h.isName other hother) hfound).symm.trans
          (hdir.trans hdir')))
      rw [Option.map_some, substitute_of_ne hdir]

/-- The index in the changed directory takes the place of the one that was there. -/
theorem on_load_substitute (hrange : ix'.range = ix.range)
    (hload : (load dir).on d = (.ok ixs, d)) :
    (load dir).on d' = (.ok (ixs.map (substitute ix')), d') := by
  have hnames : d'.tree.names p = d.tree.names p := hr.tree.names p (by simp)
  have hranges : ∀ a ∈ ixs, (substitute ix' a).range = a.range := by
    intro a ha
    obtain ⟨g, hg, hdir, hopen''⟩ := h.exists_of_mem hload ha
    by_cases hsame : a.dir = ix'.dir
    · have hname : g.1 = name := eq_of_div_eq (h.isName_of_mem hg) (h.isName_of_mem hmem)
        (hdir.symm.trans (hsame.trans (of_on_open hopen').2.1))
      rw [hname] at hopen''
      cases hopen.symm.trans hopen''
      rw [substitute_of_eq hsame, hrange]
    · rw [substitute_of_ne hsame]
  obtain ⟨found, hfound, hload'⟩ := h.exists_found
  cases hload.symm.trans hload'
  have hfound' : ∀ other ∈ d'.tree.names p, (openIfIndex (dir / other)).on d'
      = (.ok ((found other).map (substitute ix')), d') := fun other hother =>
    h.on_openIfIndex_substitute hr hmem hc' hopen hopen' (hnames ▸ hother)
      (hfound other (hnames ▸ hother)).1
  rw [on_load_of_found (h.finds_of_reached hr) hfound', hnames, ← List.map_filterMap, sorted_map]
  exact fun a ha => hranges a ((sorted_perm _).mem_iff.mpr ha)

end

end Catalogued

end SeriesStore.Index
