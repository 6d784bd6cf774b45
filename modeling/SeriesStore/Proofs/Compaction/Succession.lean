import SeriesStore.Proofs.Compaction.Convergence
import SeriesStore.Proofs.Compaction.Windows
import SeriesStore.Proofs.Index.Reopening

/-!
# Succession

What is found in a data directory after a merge, whoever has made its indexes and whatever they
hold. Manifests are replaced as a whole, so each index that is found again has the range that it
had, and the new one has the common range of those that are gone.
-/

namespace SeriesStore

open SeriesStore.Path SeriesStore.Tree

/-! ### Looking -/

namespace DiskM

variable {α β : Type}

/-- A computation that leaves every disk as it is. -/
def Still (f : DiskM α) : Prop := ∀ d, (f.on d).2 = d

namespace Still

lemma pure (a : α) : Still (Pure.pure a) := fun _ => rfl

lemma ofExcept (r : Except StorageError α) : Still (DiskM.ofExcept r) := fun _ => rfl

lemma ask (f : Disk → Except IoError α) : Still (DiskM.ask f) := by
  intro d
  rw [on_ask]
  cases f d <;> rfl

lemma bind {f : DiskM α} {g : α → DiskM β} (hf : Still f) (hg : ∀ a, Still (g a)) :
    Still (f >>= g) := by
  intro d
  have hstay := hf d
  rw [on_bind]
  rcases hon : f.on d with ⟨e | a, d'⟩ <;> rw [hon] at hstay <;> cases hstay
  · rfl
  · exact hg a _

lemma mapM {f : α → DiskM β} (hf : ∀ a, Still (f a)) (xs : List α) : Still (xs.mapM f) := by
  induction xs with
  | nil => exact .pure []
  | cons x xs ih =>
    rw [List.mapM_cons]
    exact (hf x).bind fun _ => ih.bind fun _ => .pure _

end Still

end DiskM

lemma Disk.not_isDir_of_missing {d : Disk} {dir : Path} (h : d.exists? dir = false) :
    d.isDir dir ≠ true := by
  intro hdir
  obtain ⟨p, hfinds⟩ := Disk.isDir_iff.mp hdir
  cases hfinds.exists?.symm.trans h

lemma Path.div_inj (dir : Path) {name name' : String} (hname : IsName name)
    (hname' : IsName name') : dir / name = dir / name' ↔ name = name' := by
  rw [div_eq dir hname, div_eq dir hname']
  simp

namespace Index

variable {d d' : Disk} {dir : Path} {p : Place} {name : String} {ix ix' : Index} {ixs : List Index}
  {m : Manifest}

lemma still_open (dir : Path) : DiskM.Still (Index.open dir) := by
  have hsegment (path : Path) : DiskM.Still (Segment.open path) :=
    (DiskM.Still.ask _).bind fun _ => (DiskM.Still.ofExcept _).bind fun _ => .pure _
  exact (DiskM.Still.ask _).bind fun _ => (DiskM.Still.ofExcept _).bind fun _ =>
    (DiskM.Still.mapM (fun _ => hsegment _) _).bind fun _ => .pure _

/-- A directory that is looked into has an index if one opens in it. -/
lemma exists_on_openIfIndex (path : Path) (d : Disk) :
    ∃ found, (openIfIndex path).on d = (.ok found, d)
      ∧ ∀ ix, found = some ix → (Index.open path).on d = (.ok ix, d) := by
  rw [openIfIndex, DiskM.on_bind_ok (DiskM.on_get d)]
  split_ifs
  · have hstill := still_open path d
    rw [DiskM.on_bind, DiskM.on_tryCatch, DiskM.on_bind]
    rcases hopen : (Index.open path).on d with ⟨e | ix, d'⟩ <;> rw [hopen] at hstill <;>
      cases hstill
    · exact ⟨none, rfl, by simp⟩
    · refine ⟨some ix, rfl, ?_⟩
      rintro ix' ⟨⟩
      rfl
  · exact ⟨none, rfl, by simp⟩

/-- A data directory that is found can be looked through. Each index in it stands under a name. -/
lemma exists_on_load (h : d.Finds dir p) : ∃ found : String → Option Index,
    (load dir).on d = (.ok (sorted ((d.tree.names p).filterMap found)), d)
      ∧ ∀ name ix, found name = some ix → (Index.open (dir / name)).on d = (.ok ix, d) := by
  choose found hfound hopens using fun name : String => exists_on_openIfIndex (dir / name) d
  exact ⟨found, on_load_of_found h fun name _ => hfound name, hopens⟩

/-! ### Manifests -/

/-- A manifest can be read in a directory. -/
def Describes (d : Disk) (dir : Path) (m : Manifest) : Prop :=
  ∃ text, d.readText (dir / manifestName) = .ok text ∧ Manifest.ofText? text = .ok m

lemma describes_of_on_open (h : (Index.open dir).on d = (.ok ix, d')) :
    ix.dir = dir ∧ ∃ m, Describes d dir m ∧ m.range = ix.range := by
  obtain ⟨text, htext, h⟩ := DiskM.of_on_ask_bind h
  obtain ⟨m, d₁, hparse, h⟩ := DiskM.on_bind_eq_ok h
  obtain ⟨hm, rfl⟩ := Prod.mk.inj hparse
  obtain ⟨segments, d₂, -, h⟩ := DiskM.on_bind_eq_ok h
  cases h
  exact ⟨rfl, m, ⟨text, htext, hm⟩, rfl⟩

lemma Describes.unique {m' : Manifest} (h : Describes d dir m) (h' : Describes d dir m') :
    m = m' := by
  obtain ⟨text, htext, hm⟩ := h
  obtain ⟨text', htext', hm'⟩ := h'
  cases htext.symm.trans htext'
  exact Except.ok.inj (hm.symm.trans hm')

lemma Describes.exists? (h : Describes d dir m) : d.exists? (dir / manifestName) = true := by
  obtain ⟨text, htext, -⟩ := h
  obtain ⟨content, hread, -⟩ := Disk.read_of_readText htext
  obtain ⟨q, hlocate, hfile⟩ := Disk.locate_of_read hread
  simp [Disk.exists?, Disk.find?, hlocate, hfile]

/-- Which manifest is read under a name is a matter of what stands in the directory of this name. -/
lemma describes_div_iff (hd : d.LeadsTo dir p) (hname : IsName name) :
    Describes d (dir / name) m ↔ name.utf8ByteSize ≤ maxNameLength
      ∧ d.tree.node? (p ++ [name]) = some .dir ∧ (dir / name).hasRoom manifestName = true
      ∧ ∃ content text, d.tree.node? (p ++ [name] ++ [manifestName]) = some (.file content)
        ∧ content.toText? = some text ∧ Manifest.ofText? text = .ok m := by
  constructor
  · rintro ⟨text, htext, hm⟩
    obtain ⟨content, hread, htoText⟩ := Disk.read_of_readText htext
    obtain ⟨q, hlocate, hfile⟩ := Disk.locate_of_read hread
    obtain ⟨r, hr⟩ := Disk.leadsTo_of_locate isName_manifestName hlocate
    obtain ⟨rfl, hsize⟩ := hd.of_div hname hr
    rw [Disk.locate_div hr isName_manifestName] at hlocate
    split_ifs at hlocate with hroom
    cases hlocate
    exact ⟨hsize, hr.isDir, hroom, content, text, hfile, htoText, hm⟩
  · rintro ⟨hsize, hdir, hroom, content, text, hfile, htoText, hm⟩
    have hread := Disk.read_div (hd.div hname hsize hdir) isName_manifestName hroom hfile
    exact ⟨text, by simp [Disk.readText, hread, htoText], hm⟩

lemma Describes.frame (h : Describes d (dir / name) m) (hd : d.LeadsTo dir p)
    (hd' : d'.LeadsTo dir p) (hname : IsName name)
    (hsame : ∀ q, p ++ [name] <+: q → d'.tree.node? q = d.tree.node? q) :
    Describes d' (dir / name) m := by
  rw [describes_div_iff hd' hname, hsame _ (List.prefix_refl _), hsame _ (List.prefix_append _ _)]
  exact (describes_div_iff hd hname).mp h

lemma Contents.StandsIn.describes {c : Contents} (h : c.StandsIn p d.tree) (hd : d.LeadsTo dir p)
    (hfits : c.FitsIn dir) : Describes d dir c.manifest :=
  ⟨_, readText_manifest hd hfits.manifest h.manifest, Manifest.ofText?_toText _⟩

/-! ### Orderly directories -/

/-- An index stands under a name in a data directory, with the range that its manifest gives it. -/
structure StandsUnder (d : Disk) (dir : Path) (ix : Index) : Prop where
  name : ∃ name, IsName name ∧ ix.dir = dir / name
  manifest : ∃ m, Describes d ix.dir m ∧ m.range = ix.range

/-- A data directory is found, and the names in it are such as a directory can have. -/
structure Orderly (d : Disk) (dir : Path) (p : Place) : Prop where
  finds : d.Finds dir p
  nodup : (d.tree.names p).Nodup
  isName : ∀ name ∈ d.tree.names p, IsName name

namespace Orderly

lemma beside (h : Orderly d dir p) (hb : d.Beside p name d') (hname : IsName name) :
    Orderly d' dir p where
  finds := h.finds.of_dirs hb.workDir hb.dirs
  nodup := hb.nodup_names h.nodup
  isName := hb.isName_of_mem_names hname h.isName

lemma emptied {qs : List Place} (h : Orderly d dir p) (hemptied : Emptied qs d.tree d'.tree)
    (hfinds : d'.Finds dir p) : Orderly d' dir p where
  finds := hfinds
  nodup := h.nodup.sublist (hemptied.names p)
  isName name hname := h.isName name ((hemptied.names p).subset hname)

/-- Each index that is found stands under a name of its own, and has the range that its manifest
gives it. -/
theorem of_on_load (h : Orderly d dir p) (hload : (load dir).on d = (.ok ixs, d')) :
    d' = d ∧ (ixs.map (·.dir)).Nodup ∧ ∀ ix ∈ ixs, StandsUnder d dir ix := by
  obtain ⟨found, hon, hopens⟩ := exists_on_load h.finds
  rw [hon] at hload
  cases hload
  have hopened (name : String) (ix : Index) (hix : found name = some ix) :
      ix.dir = dir / name ∧ ∃ m, Describes d (dir / name) m ∧ m.range = ix.range :=
    describes_of_on_open (hopens name ix hix)
  have hperm := sorted_perm ((d.tree.names p).filterMap found)
  refine ⟨rfl, ?_, fun ix hix => ?_⟩
  · rw [(hperm.map _).nodup_iff, List.Nodup, List.pairwise_map, List.pairwise_filterMap]
    refine h.nodup.imp_of_mem fun {name name'} hname hname' hne ix hix ix' hix' hsame => hne ?_
    rw [(hopened name ix hix).1, (hopened name' ix' hix').1] at hsame
    exact (div_inj dir (h.isName name hname) (h.isName name' hname')).mp hsame
  · obtain ⟨name, hname, hfound⟩ := List.mem_filterMap.mp (hperm.mem_iff.mp hix)
    obtain ⟨hdir, m, hm, hrange⟩ := hopened name ix hfound
    exact ⟨⟨name, h.isName name hname, hdir⟩, m, hdir ▸ hm, hrange⟩

end Orderly

/-! ### Filling -/

section

variable {range : TimeRange} {resolution : Resolution} {id : Uid} {createdAt : Instant}
  {c : Contents} {sources : List Index} {es : List Entry}

/-- An index that has been made stands where there was none. -/
lemma created_of_on (h : d.LeadsTo dir p) (hname : IsName name)
    (hon : (create (dir / name) range resolution id createdAt).on d = (.ok ix, d')) :
    d.exists? (dir / name / manifestName) = false ∧ d.Beside p name d'
      ∧ ix = (Contents.empty id range resolution createdAt).index (dir / name)
      ∧ (Contents.empty id range resolution createdAt).HeldBy d' (dir / name) (p ++ [name]) := by
  rw [create, DiskM.on_bind_ok (DiskM.on_get d)] at hon
  cases hexists : d.exists? (dir / name / manifestName) with
  | true =>
    rw [hexists] at hon
    cases hon
  | false =>
    rw [hexists, if_neg (by simp)] at hon
    dsimp only at hon
    obtain ⟨_, d₁, hmake, hon⟩ := DiskM.on_bind_eq_ok hon
    obtain ⟨u, d₂, hcommit, hon⟩ := DiskM.on_bind_eq_ok hon
    cases hon
    replace hcommit : (commit ((Contents.empty id range resolution createdAt).index
        (dir / name))).on d₁ = (.ok u, d') := hcommit
    have hmade := (DiskM.makeDirs_spec h hname).result
    rw [hmake] at hmade
    obtain ⟨hmade, -, hleads⟩ := hmade
    obtain ⟨hr, hheld⟩ := heldBy_of_on_commit range resolution id createdAt hleads hcommit
    exact ⟨rfl, (Disk.Beside.of_mayHold hmade).trans (.of_reached hr), rfl, hheld u rfl⟩

/-- Chunks are added without a change of the range. -/
lemma describes_of_on_addChunks (h : c.HeldBy d dir p)
    (hon : (addChunks (c.index dir) es).on d = (.ok ix, d')) :
    d.Reached p d' ∧ ∃ m, Describes d' dir m ∧ m.range = c.range := by
  by_cases hes : es = []
  · subst hes
    cases hon
    exact ⟨.refl d p, _, h.stands.describes h.leadsTo h.fits, rfl⟩
  · cases hcheck : check c.range (c.entries.getLast?.map (·.min)) es with
    | error fault =>
      rw [on_addChunks_of_error hes hcheck] at hon
      cases hon
    | ok _ =>
      have hspec := (addChunks_spec h hes hcheck).result
      rw [hon] at hspec
      obtain ⟨-, hstands, hfits, -⟩ := hspec.ok ix rfl
      exact ⟨hspec.reached, _, hstands.describes (hspec.reached.leadsTo h.leadsTo) hfits, rfl⟩

lemma still_chunks (ix : Index) : DiskM.Still (chunks ix) := by
  have hentries (s : Segment) : DiskM.Still (Segment.entries s) :=
    (DiskM.Still.ask _).bind fun _ => .ofExcept _
  exact (DiskM.Still.mapM hentries _).bind fun _ => .pure _

/-- What has been compacted has been added. -/
lemma exists_addChunks_of_on_compact
    (hon : (SizeTiered.compact sources ix).on d = (.ok ix', d')) :
    ∃ es, (ix.addChunks es).on d = (.ok ix', d') := by
  rw [SizeTiered.compact] at hon
  split_ifs at hon
  · cases hon
  · dsimp only at hon
    split at hon
    · cases hon
    · obtain ⟨read, d₁, hread, hadd⟩ := DiskM.on_bind_eq_ok hon
      have hstill := DiskM.Still.mapM still_chunks sources d
      rw [hread] at hstill
      cases hstill
      exact ⟨_, hadd⟩

end

/-! ### Merging -/

/-- What stands in a data directory after indexes have been merged into a new one. -/
structure Superseded (d : Disk) (dir : Path) (gone : List Path) (target : Path)
    (range : TimeRange) (d' : Disk) : Prop where
  removed : ∀ path ∈ gone, ∀ m, ¬Describes d' path m
  kept : ∀ name, IsName name → dir / name ∉ gone → dir / name ≠ target →
    ∀ m, Describes d' (dir / name) m ↔ Describes d (dir / name) m
  new : target ∉ gone → ∃ m, Describes d' target m ∧ m.range = range

variable {range : TimeRange} {resolution : Resolution} {o : Origin} {sources : List Index}

/-- An index that has been filled stands where there was none. -/
lemma filled_of_on (h : d.LeadsTo dir p)
    (hon : (Engine.fillNew dir sources range resolution o).on d = (.ok ix, d')) :
    (∀ m, ¬Describes d (dir / directoryName o.dirId) m)
      ∧ d.Beside p (directoryName o.dirId) d'
      ∧ ∃ m, Describes d' (dir / directoryName o.dirId) m ∧ m.range = range := by
  obtain ⟨new, d₁, hcreate, hfill⟩ := DiskM.on_bind_eq_ok hon
  obtain ⟨hfree, hbeside, rfl, hheld⟩ := created_of_on h (isName_directoryName o.dirId) hcreate
  replace hfill := DiskM.of_on_tryCatch (fun e d₂ d₃ hthrow => by
    obtain ⟨_, _, _, hnever⟩ := DiskM.on_bind_eq_ok hthrow
    cases hnever) hfill
  obtain ⟨es, hadd⟩ := exists_addChunks_of_on_compact hfill
  obtain ⟨hreached, hm⟩ := describes_of_on_addChunks hheld hadd
  refine ⟨fun m hm => ?_, hbeside.trans (.of_reached hreached), hm⟩
  rw [hm.exists?] at hfree
  cases hfree

/-- Indexes have all been removed if no failure is reported. -/
lemma emptied_of_on_deleteAll {d₀ : Disk} (h : d₀.LeadsTo dir p) (hwork : d.workDir = d₀.workDir)
    (hnames : ∀ ix ∈ sources, ∃ name, IsName name ∧ ix.dir = dir / name)
    (hon : (Engine.deleteAll sources).on d = (.ok (), d')) :
    d'.workDir = d₀.workDir ∧ ∃ names : List String, (∀ name ∈ names, IsName name)
      ∧ sources.map (·.dir) = names.map (dir / ·)
      ∧ Emptied (names.map fun name => p ++ [name]) d.tree d'.tree := by
  induction sources generalizing d with
  | nil =>
    cases hon
    exact ⟨hwork, [], by simp, rfl, .nil _⟩
  | cons ix sources ih =>
    obtain ⟨⟨name, hname, hdir⟩, hrest⟩ := List.forall_mem_cons.mp hnames
    rw [on_deleteAll_cons] at hon
    rcases hdelete : (delete ix).on d with ⟨e | _, d₁⟩ <;> rw [hdelete] at hon
    · cases hon
    · obtain ⟨_, d₂, hremove, hpure⟩ := DiskM.on_bind_eq_ok hdelete
      cases hpure
      have hremoved := (DiskM.removeAll_spec (d := d) (DiskM.endsInDot_div dir hname)).result
      rw [← hdir, hremove] at hremoved
      obtain ⟨q, hfinds, hemptied, -⟩ := hremoved.ok _ rfl
      rw [hdir] at hfinds
      obtain ⟨p', hp'⟩ := Disk.leadsTo_of_locate hname hfinds.locate
      obtain rfl := h.unique_of_workDir hp' hwork
      obtain ⟨rfl, -⟩ := hp'.of_div hname hfinds.leadsTo
      obtain ⟨hwork', names, hisName, hdirs, hemptied'⟩ :=
        ih (hremoved.workDir.trans hwork) hrest hon
      exact ⟨hwork', name :: names, List.forall_mem_cons.mpr ⟨hname, hisName⟩,
        by simp [hdir, hdirs], .cons hemptied hemptied'⟩

/-- A new index has been made beside the others, and then some of them are removed. -/
lemma superseded_of_emptied {d₁ : Disk} {target : String} {names : List String} {m : Manifest}
    (h : d.LeadsTo dir p) (h₁ : d₁.LeadsTo dir p) (h' : d'.LeadsTo dir p) (htarget : IsName target)
    (hnames : ∀ name ∈ names, IsName name) (hbeside : d.Beside p target d₁)
    (hm : Describes d₁ (dir / target) m)
    (hemptied : Emptied (names.map fun name => p ++ [name]) d₁.tree d'.tree) :
    Superseded d dir (names.map (dir / ·)) (dir / target) m.range d' := by
  have hstay (name : String) (hname : IsName name) (hnot : dir / name ∉ names.map (dir / ·))
      (q : Place) (hq : p ++ [name] <+: q) : d'.tree.node? q = d₁.tree.node? q := by
    refine hemptied.others q fun r hr => ?_
    obtain ⟨other, hother, rfl⟩ := List.mem_map.mp hr
    refine not_prefix_of_ne (fun heq => hnot ?_) hq
    exact heq ▸ List.mem_map_of_mem hother
  refine ⟨?_, ?_, fun hnot => ?_⟩
  · intro path hpath m' hm'
    obtain ⟨name, hname, rfl⟩ := List.mem_map.mp hpath
    obtain ⟨-, -, -, content, -, hfile, -⟩ := (describes_div_iff h' (hnames name hname)).mp hm'
    have hnone := hemptied.below _ (List.mem_map_of_mem hname) _
      (List.prefix_append (p ++ [name]) [manifestName]) (by simp)
    cases hnone.symm.trans hfile
  · intro name hname hnot hne m'
    have hsame (q : Place) (hq : p ++ [name] <+: q) : d'.tree.node? q = d.tree.node? q := by
      have hother : name ≠ target := fun heq => hne (heq ▸ rfl)
      rw [hstay name hname hnot q hq, hbeside.others q (not_prefix_of_ne hother hq)]
    exact ⟨fun hd => hd.frame h' h hname fun q hq => (hsame q hq).symm,
      fun hd => hd.frame h h' hname hsame⟩
  · exact ⟨m, hm.frame h₁ h' htarget (hstay _ htarget hnot), rfl⟩

/-- After a merge the data directory is in order again, unless its path has led through one of the
directories that are gone. -/
theorem superseded_of_on_mergeIntoNew (h : Orderly d dir p)
    (hnames : ∀ ix ∈ sources, ∃ name, IsName name ∧ ix.dir = dir / name)
    (hon : (Engine.mergeIntoNew dir sources range resolution o).on d = (.ok ix, d')) :
    (∀ m, ¬Describes d (dir / directoryName o.dirId) m)
      ∧ (Orderly d' dir p
          ∧ Superseded d dir (sources.map (·.dir)) (dir / directoryName o.dirId) range d'
        ∨ d'.exists? dir = false) := by
  rw [mergeIntoNew_eq] at hon
  obtain ⟨full, d₁, hfill, hon⟩ := DiskM.on_bind_eq_ok hon
  obtain ⟨u, d₂, hdelete, hon⟩ := DiskM.on_bind_eq_ok hon
  cases hon
  have htarget := isName_directoryName o.dirId
  obtain ⟨hfresh, hbeside, m, hm, hrange⟩ := filled_of_on h.finds.leadsTo hfill
  have h₁ := h.beside hbeside htarget
  obtain ⟨hwork, names, hisName, hdirs, hemptied⟩ :=
    emptied_of_on_deleteAll h₁.finds.leadsTo rfl hnames hdelete
  refine ⟨hfresh, ?_⟩
  by_cases hdir : d'.isDir dir = true
  · left
    obtain ⟨p', hfinds⟩ := Disk.isDir_iff.mp hdir
    obtain rfl := h₁.finds.leadsTo.unique_of_workDir hfinds.leadsTo hwork
    rw [hdirs, ← hrange]
    exact ⟨h₁.emptied hemptied hfinds, superseded_of_emptied h.finds.leadsTo h₁.finds.leadsTo
      hfinds.leadsTo htarget hisName hbeside hm hemptied⟩
  · right
    refine h₁.finds.exists?_of_not_isDir hwork ?_ (by simpa using hdir)
    rw [hemptied.others p fun r hr hle => ?_, h₁.finds.isDir]
    obtain ⟨name, -, rfl⟩ := List.mem_map.mp hr
    simpa using hle.length_le

/-! ### Cycles -/

/-- The indexes that are found in a data directory that is in order, or that is not found at all. -/
inductive Shows (dir : Path) (d : Disk) : List Index → Prop
  | orderly {p : Place} {ixs : List Index} (h : Orderly d dir p)
    (load : (Index.load dir).on d = (.ok ixs, d)) : Shows dir d ixs
  | lost (missing : d.exists? dir = false) : Shows dir d []

/-- As long as a data directory is found, there is a manifest in one of its directories. -/
structure Carries (dir : Path) (d : Disk) (path : Path) : Prop where
  name : ∃ name, IsName name ∧ path = dir / name
  manifest : d.isDir dir = true → ∃ m, Describes d path m

/-- Which indexes follow when those that size tiers plan are merged: each is the new one, or one
that was not planned. -/
structure Succeeds (s : SizeTiered) (target : Path) (ixs ixs' : List Index) : Prop where
  fresh : ∀ ix ∈ ixs, ix.dir ≠ target
  nodup : (ixs'.map (·.dir)).Nodup
  each : ∀ ix' ∈ ixs',
    ix'.dir = target ∧ ix'.range.Spans ((s.plan ixs).map (·.range))
    ∨ ∃ ix ∈ ixs, ix ∉ s.plan ixs ∧ ix'.dir = ix.dir ∧ ix'.range = ix.range

lemma succeeds_of_superseded {s : SizeTiered} {target : Path} {ixs' : List Index}
    (h : Superseded d dir ((s.plan ixs).map (·.dir)) target range d')
    (hspans : range.Spans ((s.plan ixs).map (·.range))) (hfresh : ∀ ix ∈ ixs, ix.dir ≠ target)
    (hstands : ∀ ix ∈ ixs, StandsUnder d dir ix) (hnodup : (ixs'.map (·.dir)).Nodup)
    (hstands' : ∀ ix' ∈ ixs', StandsUnder d' dir ix')
    (hadded : ∀ ix' ∈ ixs', ix'.dir = target ∨ ix'.dir ∈ ixs.map (·.dir)) :
    Succeeds s target ixs ixs' := by
  refine ⟨hfresh, hnodup, fun ix' hix' => ?_⟩
  obtain ⟨⟨name, hname, hdir⟩, m', hm', hrange'⟩ := hstands' ix' hix'
  rcases hadded ix' hix' with htarget | hmem
  · left
    obtain ⟨m, hm, hrange⟩ := h.new fun hmem => by
      obtain ⟨ix, hix, hsame⟩ := List.mem_map.mp hmem
      exact hfresh ix ((s.plan_subperm ixs).subset hix) hsame
    rw [htarget] at hm'
    rw [← hrange', hm'.unique hm, hrange]
    exact ⟨htarget, hspans⟩
  · right
    obtain ⟨ix, hix, hsame⟩ := List.mem_map.mp hmem
    have hstays : ix'.dir ∉ (s.plan ixs).map (·.dir) := fun hgone => h.removed _ hgone m' hm'
    obtain ⟨m, hm, hrange⟩ := (hstands ix hix).manifest
    rw [hdir] at hstays hm' hsame
    rw [h.kept name hname hstays (hsame ▸ hfresh ix hix)] at hm'
    rw [hsame] at hm
    refine ⟨ix, hix, fun hplan => hstays (hsame ▸ List.mem_map_of_mem hplan), ?_, ?_⟩
    · rw [hdir, hsame]
    · rw [← hrange', hm'.unique hm, hrange]

namespace Shows

variable {dataDir : Path}

lemma on_load (h : Shows dir d ixs) : (load dir).on d = (.ok ixs, d) := by
  cases h with
  | orderly h hload => exact hload
  | lost hmissing => exact Engine.on_load_of_not_exists hmissing

lemma nodup_dirs (h : Shows dir d ixs) : (ixs.map (·.dir)).Nodup := by
  cases h with
  | orderly h hload => exact (h.of_on_load hload).2.1
  | lost hmissing => exact .nil

lemma carries (h : Shows dir d ixs) : ∀ ix ∈ ixs, Carries dir d ix.dir := by
  intro ix hix
  cases h with
  | lost hmissing => cases hix
  | orderly h hload =>
    obtain ⟨-, -, hstands⟩ := h.of_on_load hload
    obtain ⟨hname, m, hm, -⟩ := hstands ix hix
    exact ⟨hname, fun _ => ⟨m, hm⟩⟩

end Shows

end Index

namespace Engine

open Index

variable {e : Engine} {o : Origin} {s : SizeTiered} {d d' : Disk} {ixs : List Index}
  {out : CycleOutcome}

lemma on_plan_of_on_load (hload : (Index.load e.dataDir).on d = (.ok ixs, d))
    (hs : e.strategy = .sizeTiered s) : e.plan.on d = (.ok (s.plan ixs), d) := by
  rw [Engine.plan, Engine.indexes, DiskM.on_bind_ok hload, hs]
  rfl

/-- A cycle of size tiers that succeeds has merged what it has planned. -/
lemma exists_mergeIntoNew_of_on_cycle {planned : List Index} (hs : e.strategy = .sizeTiered s)
    (hplan : e.plan.on d = (.ok planned, d)) (hne : planned ≠ [])
    (hon : (e.cycle o).on d = (.ok out, d')) :
    ∃ range resolution new, range.Spans (planned.map (·.range))
      ∧ (mergeIntoNew e.dataDir planned range resolution o).on d = (.ok new, d') := by
  obtain ⟨first, more, rfl⟩ := List.exists_cons_of_ne_nil hne
  obtain ⟨range, hspans, hcycle⟩ := exists_on_cycle_sizeTiered (o := o) hs hplan
  rw [hcycle] at hon
  obtain ⟨new, d₁, hmerge, hpure⟩ := DiskM.on_bind_eq_ok hon
  cases hpure
  exact ⟨range, first.resolution, new, hspans, hmerge⟩

/-- A cycle of size tiers that plans something leaves the new index and those that were not planned,
or loses the data directory. -/
theorem succeeds_of_on_cycle (h : Shows e.dataDir d ixs) (hs : e.strategy = .sizeTiered s)
    (hne : s.plan ixs ≠ []) (hon : (e.cycle o).on d = (.ok out, d')) :
    ∃ ixs', Shows e.dataDir d' ixs' ∧ Carries e.dataDir d' (e.dataDir / directoryName o.dirId)
      ∧ (∀ path, Carries e.dataDir d path → path ∉ (s.plan ixs).map (·.dir) →
        path ≠ e.dataDir / directoryName o.dirId ∧ Carries e.dataDir d' path)
      ∧ ((∀ ix' ∈ ixs', ix'.dir = e.dataDir / directoryName o.dirId
          ∨ ix'.dir ∈ ixs.map (·.dir)) →
        Succeeds s (e.dataDir / directoryName o.dirId) ixs ixs') := by
  have hplan := on_plan_of_on_load h.on_load hs
  have hcarries := h.carries
  cases h with
  | lost hmissing => exact absurd (List.subperm_nil.mp (s.plan_subperm [])) hne
  | @orderly p _ h hload =>
  obtain ⟨-, -, hstands⟩ := h.of_on_load hload
  obtain ⟨range, _, _, hspans, hmerge⟩ := exists_mergeIntoNew_of_on_cycle hs hplan hne hon
  have hsub := (s.plan_subperm ixs).subset
  obtain ⟨hfresh, hout⟩ :=
    superseded_of_on_mergeIntoNew h (fun ix hix => (hstands ix (hsub hix)).name) hmerge
  -- the new index is nowhere that has been an index before
  have hne_target : ∀ path, Carries e.dataDir d path →
      path ≠ e.dataDir / directoryName o.dirId := by
    rintro _ hpath rfl
    obtain ⟨m, hm⟩ := hpath.manifest (Disk.isDir_iff.mpr ⟨p, h.finds⟩)
    exact hfresh m hm
  have htarget : ∃ name, IsName name
      ∧ e.dataDir / directoryName o.dirId = e.dataDir / name :=
    ⟨_, isName_directoryName o.dirId, rfl⟩
  rcases hout with ⟨h', hsuperseded⟩ | hmissing
  · obtain ⟨_, hload', -⟩ := exists_on_load h'.finds
    refine ⟨_, .orderly h' hload', ⟨htarget, fun _ => ?_⟩, fun path hpath hnot =>
      ⟨hne_target path hpath, hpath.name, fun _ => ?_⟩, fun hadded => ?_⟩
    · obtain ⟨m, hm, -⟩ := hsuperseded.new fun hmem => by
        obtain ⟨ix, hix, hdir⟩ := List.mem_map.mp hmem
        exact hne_target _ (hcarries ix (hsub hix)) hdir
      exact ⟨m, hm⟩
    · obtain ⟨m, hm⟩ := hpath.manifest (Disk.isDir_iff.mpr ⟨p, h.finds⟩)
      obtain ⟨name, hname, rfl⟩ := hpath.name
      exact ⟨m, (hsuperseded.kept name hname hnot (hne_target _ hpath) m).mpr hm⟩
    · obtain ⟨-, hnodup', hstands'⟩ := h'.of_on_load hload'
      exact succeeds_of_superseded hsuperseded hspans (fun ix hix => hne_target _ (hcarries ix hix))
        hstands hnodup' hstands' hadded
  · -- the data directory has gone with one of the sources
    have hlost := Disk.not_isDir_of_missing hmissing
    exact ⟨[], .lost hmissing, ⟨htarget, fun hdir => absurd hdir hlost⟩, fun path hpath _ =>
      ⟨hne_target path hpath, hpath.name, fun hdir => absurd hdir hlost⟩, fun _ =>
      ⟨fun ix hix => hne_target _ (hcarries ix hix), .nil, fun _ hix => nomatch hix⟩⟩

end Engine

end SeriesStore
