import SeriesStore.Proofs.Disk.Readings
import SeriesStore.Proofs.Index.History
import SeriesStore.Proofs.Index.Reopening

/-!
# Several open indexes

Indexes whose directories stand at different places of one disk do not disturb each other, wherever
these places are and whichever paths lead there. Each open index agrees with its directory, and its
entries have a property that all entries have that were ever added.
-/

namespace SeriesStore

open SeriesStore.Path SeriesStore.Tree

/-! ### Making directories -/

/-- A disk that was the disk `d` before directories were made where nothing stood. -/
structure Disk.Grown (d d' : Disk) : Prop where
  workDir : d'.workDir = d.workDir
  stays : ∀ q, d.tree.node? q ≠ none → d'.tree.node? q = d.tree.node? q

namespace Disk.Grown

variable {d d' d'' : Disk}

protected lemma refl (d : Disk) : d.Grown d := ⟨rfl, fun _ _ => rfl⟩

lemma trans (h : d.Grown d') (h' : d'.Grown d'') : d.Grown d'' where
  workDir := h'.workDir.trans h.workDir
  stays q hq := by
    have hsame := h.stays q hq
    rw [h'.stays q (hsame ▸ hq), hsame]

lemma dirs (h : d.Grown d') (q : Place) (hq : d.tree.node? q = some .dir) :
    d'.tree.node? q = some .dir := by
  rw [h.stays q (by simp [hq]), hq]

end Disk.Grown

namespace DiskM

/-- Making the directories on a way leaves all that stands already. -/
lemma makeDirsFrom_grows (p : Place) (parts : List String) (d : Disk) :
    (makeDirsFrom p parts).Spec d (fun _ _ => True) fun _ d' => d.Grown d' := by
  induction parts generalizing p d with
  | nil => exact .of_on (r := .ok ()) rfl (.refl d)
  | cons part parts ih =>
    cases hstep : Disk.step d.tree p part with
    | error e =>
      refine .of_on (r := .error (.io e)) ?_ (.refl d)
      rw [makeDirsFrom, on_bind_ok (on_get d), hstep]
      rfl
    | ok q =>
      have hon : (makeDirsFrom p (part :: parts)).on d = _ := on_makeDirsFrom_cons hstep
      cases hnode : d.tree.node? q with
      | none =>
        rw [hnode] at hon
        have hmade (d' : Disk) (hwork : d'.workDir = d.workDir)
            (htree : d'.tree = d.tree ∨ d'.tree = d.tree.put q .dir) : d.Grown d' := by
          refine ⟨hwork, fun r hr => ?_⟩
          rcases htree with htree | htree <;> rw [htree]
          refine node?_put_of_ne ?_
          rintro rfl
          exact hr hnode
        refine .of_on_eq hon (Spec.bind (Q := fun _ d' => d.Grown d')
          (.change_whole (by simp) trivial (fun htree => hmade _ rfl (.inr htree))
            fun _ htree => hmade _ rfl (.inl htree))
          (fun _ d' hd' => (ih q d').post fun _ _ h => hd'.trans h) fun _ _ hd' => hd')
      | some n =>
        rw [hnode] at hon
        cases n with
        | file content => exact .of_on hon (.refl d)
        | dir => exact .of_on_eq hon (ih q d)

lemma makeDirs_grows (path : Path) (d : Disk) :
    (makeDirs path).Spec d (fun _ _ => True) fun _ d' => d.Grown d' := by
  have hask {α : Type} (f : Disk → Except IoError α) (d : Disk) :
      (ask f).Spec d (fun _ _ => True) fun _ d' => d' = d := by
    cases hf : f d with
    | error e => exact .of_on (by rw [on_ask, hf]) rfl
    | ok a => exact .of_on (by rw [on_ask, hf]) rfl
  refine (hask _ d).bind (fun p d₁ hd₁ => ?_) fun _ d₁ hd₁ => hd₁ ▸ .refl d
  subst hd₁
  split_ifs
  · refine (makeDirsFrom_grows p _ d₁).bind (fun _ d₂ hd₂ => ?_) fun _ _ hd₂ => hd₂
    refine (hask _ d₂).bind (fun _ d₃ hd₃ => ?_) fun _ d₃ hd₃ => hd₃ ▸ hd₂
    exact .of_on (r := .ok ()) rfl (hd₃ ▸ hd₂)
  · exact makeDirsFrom_grows p _ d₁

/-! ### Removing directories -/

/-- Whatever path a directory is removed under, it is emptied, or nothing changes. -/
lemma removeAll_empties (path : Path) (d : Disk) :
    (removeAll path).Spec d (fun _ _ => True) fun _ d' => d'.tree = d.tree
      ∨ ∃ q, d.tree.node? q = some .dir ∧ Emptied [q] d.tree d'.tree := by
  by_cases hfind : ∃ q, d.Finds path q
  · obtain ⟨q, hq⟩ := hfind
    have hchange {c : Change} (hwhole : ∀ p content, c ≠ .write p content)
        (hemptied : Emptied [q] d.tree (c.apply d.tree)) :
        (change c).Spec d (fun _ _ => True) fun _ d' => d'.tree = d.tree
          ∨ ∃ q, d.tree.node? q = some .dir ∧ Emptied [q] d.tree d'.tree :=
      .change_whole hwhole trivial (fun htree => .inr ⟨q, hq.isDir, htree ▸ hemptied⟩)
        fun _ htree => .inl htree
    have hclear := hchange (c := .clear q) (by simp) (.clear d.tree q)
    refine .of_on_eq (on_removeAll_of_finds hq) ?_
    split
    · exact hclear
    · split_ifs
      · exact hclear.bind (fun _ _ h => .of_on (r := .error (.io .other)) rfl h) fun _ _ h => h
      · exact hchange (c := .removeAll q) (by simp) (.eraseAll d.tree q)
  · obtain ⟨io, hon⟩ := on_removeAll_of_not_finds (not_exists.mp hfind)
    exact .of_on hon (.inl rfl)

end DiskM

namespace Index

variable {P : Entry → Prop} {c : Contents} {d d' : Disk} {dir : Path} {p q : Place} {ix ix' : Index}
  {hs hs' : List (Index × Place)}

/-! ### Changes elsewhere -/

/-- What holds the contents of an index is its directory and the files in it, except for the
temporary manifest. -/
lemma Contents.HeldBy.of_files (h : c.HeldBy d dir p) (hd : d'.LeadsTo dir p)
    (hfiles : ∀ name content, name ≠ temporaryManifestName →
      d.tree.node? (p ++ [name]) = some (.file content) →
      d'.tree.node? (p ++ [name]) = some (.file content)) : c.HeldBy d' dir p where
  leadsTo := hd
  stands := ⟨hfiles _ _ temporaryManifestName_ne_manifestName.symm h.stands.manifest,
    fun g hg => hfiles _ _ (segmentName_ne_temporaryManifestName g.1) (h.stands.files g hg)⟩
  fits := h.fits
  sound := h.sound

lemma Contents.HeldBy.grown (h : c.HeldBy d dir p) (hgrown : d.Grown d') : c.HeldBy d' dir p := by
  refine h.of_files (h.leadsTo.of_dirs hgrown.workDir hgrown.dirs) ?_
  intro name content _ hfile
  rw [hgrown.stays _ (by simp [hfile]), hfile]

lemma Contents.HeldBy.reached (h : c.HeldBy d dir p) (hreached : d.Reached q d')
    (hsame : ∀ name, name ≠ temporaryManifestName → p = q →
      d'.tree.node? (p ++ [name]) = d.tree.node? (p ++ [name])) : c.HeldBy d' dir p := by
  refine h.of_files (h.leadsTo.of_dirs hreached.workDir fun r => (hreached.tree.dirs r).mpr) ?_
  intro name content hname hfile
  by_cases heq : p = q
  · rw [hsame name hname heq, hfile]
  · rw [hreached.tree.others _ fun file hplace => heq (List.append_inj' hplace rfl).1, hfile]

/-- An index whose directory is emptied is not found any more. One that is still found is as it
was. -/
lemma Contents.HeldBy.emptied (h : c.HeldBy d dir p) (hwork : d'.workDir = d.workDir)
    (hdir : d.tree.node? q = some .dir) (hemptied : Emptied [q] d.tree d'.tree)
    (hfound : d'.exists? (dir / manifestName) = true) : c.HeldBy d' dir p := by
  obtain ⟨r, hlocate, hnode⟩ : ∃ r, d'.locate (dir / manifestName) = .ok r
      ∧ d'.tree.node? r ≠ none := by
    rw [Disk.exists?, Disk.find?] at hfound
    cases hlocate : d'.locate (dir / manifestName) with
    | error e => simp [hlocate] at hfound
    | ok r => exact ⟨r, rfl, by simpa [hlocate, Option.isSome_iff_ne_none] using hfound⟩
  obtain ⟨p', hp'⟩ := Disk.leadsTo_of_locate isName_manifestName hlocate
  obtain rfl := h.leadsTo.unique_of_workDir hp' hwork
  have hplace : r = p ++ [manifestName] := by
    rw [Disk.locate_div hp' isName_manifestName] at hlocate
    split_ifs at hlocate
    exact (Except.ok.inj hlocate).symm
  subst hplace
  -- what is lost lies below the emptied directory, and the manifest does not
  have hout {name : String} {content : Bytes}
      (hfile : d.tree.node? (p ++ [name]) = some (.file content)) : p ++ [name] ≠ q := by
    rintro rfl
    cases hfile.symm.trans hdir
  have habove : ¬q <+: p := by
    intro hle
    refine hnode (hemptied.below q (by simp) _ (hle.trans (List.prefix_append _ _)) ?_)
    exact hout h.stands.manifest
  refine h.of_files hp' ?_
  intro name content _ hfile
  rw [hemptied.others _ fun r hr hle => ?_, hfile]
  obtain rfl := List.mem_singleton.mp hr
  rcases List.prefix_concat_iff.mp hle with heq | hle
  · exact hout hfile heq.symm
  · exact habove hle

/-- The manifests at different places are different files. -/
lemma Contents.HeldBy.not_meets {c' : Contents} {dir' : Path} (h : c.HeldBy d dir p)
    (h' : c'.HeldBy d dir' q) (hne : p ≠ q) :
    ¬d.Meets (dir / manifestName) (dir' / manifestName) := by
  rintro ⟨r, hr, hr'⟩
  rw [Disk.locate_div h.leadsTo isName_manifestName, if_pos h.fits.manifest] at hr
  rw [Disk.locate_div h'.leadsTo isName_manifestName, if_pos h'.fits.manifest] at hr'
  exact hne (List.append_inj' ((Except.ok.inj hr).trans (Except.ok.inj hr').symm) rfl).1

/-! ### Open indexes -/

/-- An open index and its directory have the same contents, and all entries have the property
`P`. -/
structure InStep (P : Entry → Prop) (d : Disk) (ix : Index) (p : Place) (c : Contents) :
    Prop where
  index : ix = c.index ix.dir
  held : c.HeldBy d ix.dir p
  entries : ∀ e ∈ c.entries, P e

/-- Open indexes with their directories, which stand at different places. -/
structure Keeps (P : Entry → Prop) (d : Disk) (hs : List (Index × Place)) : Prop where
  places : (hs.map Prod.snd).Nodup
  inStep : ∀ h ∈ hs, ∃ c, InStep P d h.1 h.2 c

namespace InStep

/-- A command keeps an open index in step with its directory, whether it succeeds or not. -/
lemma run (h : InStep P d ix p c) {cmd : Command} (hP : ∀ e ∈ cmd.entries, P e)
    {r : Except StorageError Index} (hon : (cmd.run ix).on d = (r, d'))
    (hfew : ∀ ix', r = .ok ix' → 28 * ix'.chunkCount < 2 ^ 32) :
    d.Reached p d' ∧ ∃ c', InStep P d' (r.toOption.getD ix) p c' := by
  have hran := (Command.run_spec h.held cmd).result
  rw [← h.index, hon] at hran
  have hleads := hran.reached.leadsTo h.held.leadsTo
  refine ⟨hran.reached, ?_⟩
  cases r with
  | error e =>
    exact ⟨c, h.index, ⟨hleads, (hran.error e rfl).1, h.held.fits, h.held.sound⟩, h.entries⟩
  | ok ix' =>
    obtain ⟨hindex, hstands, hfits, hsuits⟩ := hran.ok ix' rfl
    have hentries := Command.entries_result c cmd
    have hsmall := hfew ix' rfl
    rw [hindex, chunkCount_index, hentries] at hsmall
    have hsound := Command.sound_result h.held.sound hsuits hsmall
    refine ⟨cmd.result c, ?_⟩
    subst hindex
    refine ⟨rfl, ⟨hleads, hstands, hfits, hsound⟩, ?_⟩
    intro e he
    rw [hentries] at he
    exact (List.mem_append.mp he).elim (h.entries e) (hP e)

/-- An index can be opened under any path to its directory. -/
lemma opened (h : InStep P d ix p c) (hon : (Index.open dir).on d = (.ok ix', d'))
    (hmeets : d.Meets (ix.dir / manifestName) (dir / manifestName)) :
    d' = d ∧ InStep P d ix' p c := by
  obtain ⟨rfl, rfl, text, m, htext, hm, hsegments⟩ := of_on_open hon
  obtain ⟨q, hlocate, hlocate'⟩ := hmeets
  obtain ⟨p', hp'⟩ := Disk.leadsTo_of_locate isName_manifestName hlocate'
  have hroom : ix'.dir.hasRoom manifestName = true ∧ q = p' ++ [manifestName] := by
    rw [Disk.locate_div hp' isName_manifestName] at hlocate'
    split_ifs at hlocate' with hroom
    exact ⟨hroom, (Except.ok.inj hlocate').symm⟩
  obtain ⟨hroom, rfl⟩ := hroom
  obtain rfl : p' = p := by
    rw [Disk.locate_div h.held.leadsTo isName_manifestName, if_pos h.held.fits.manifest] at hlocate
    exact ((List.append_inj' (Except.ok.inj hlocate) rfl).1).symm
  -- the manifest that has been read is the one of the contents
  have hmanifest := readText_manifest hp' hroom h.held.stands.manifest
  obtain rfl : text = c.manifest.toText := Except.ok.inj (htext.symm.trans hmanifest)
  obtain rfl : c.manifest = m := by
    rw [Manifest.ofText?_toText] at hm
    exact Except.ok.inj hm
  rw [Contents.manifest, List.forall₂_map_left_iff] at hsegments
  have hfits : c.FitsIn ix'.dir := by
    refine ⟨hroom, fun g hg => ?_⟩
    obtain ⟨s, hs⟩ := DiskM.exists_of_forall₂ hsegments hg
    obtain ⟨-, -, content, hread, -⟩ := Segment.of_on_open hs
    obtain ⟨q, hlocate, -⟩ := Disk.locate_of_read hread
    rw [Disk.locate_div hp' (isName_segmentName g.1)] at hlocate
    split_ifs at hlocate with hroom
    exact hroom
  have hheld : c.HeldBy d ix'.dir p' := ⟨hp', h.held.stands, hfits, h.held.sound⟩
  have hsame := hheld.on_open.symm.trans hon
  exact ⟨rfl, ⟨(Except.ok.inj (congrArg Prod.fst hsame)).symm, hheld, h.entries⟩⟩

end InStep

/-! ### New indexes -/

section

variable {range : TimeRange} {resolution : Resolution} {id : Uid} {createdAt : Instant}
  {r : Except StorageError Index}

/-- The manifest of a new index is put into one directory, or nothing but a temporary file is left
there. -/
lemma commit_leaves (hempty : c.groups = []) {u : Except StorageError Unit}
    (hon : (commit (c.index dir)).on d = (u, d')) : ∃ q, d.Reached q d' ∧ match u with
      | .ok _ => d.LeadsTo dir q ∧ c.StandsIn q d'.tree ∧ dir.hasRoom manifestName = true
      | .error _ => ∀ name, name ≠ temporaryManifestName →
        d'.tree.node? (q ++ [name]) = d.tree.node? (q ++ [name]) := by
  by_cases hleads : ∃ q, d.LeadsTo dir q
  · obtain ⟨q, hq⟩ := hleads
    let I (t : Tree) : Prop := ∀ name, name ≠ temporaryManifestName →
      t.node? (q ++ [name]) = d.tree.node? (q ++ [name])
    have hignores : Ignores I [q ++ [temporaryManifestName]] := by
      intro t t' ht h name hname
      rw [ht _ (by simpa using hname), h name hname]
    have hfiles : c.Files q d.tree := fun g hg => by simp [hempty] at hg
    have hspec := (commit_index_spec [manifestName, temporaryManifestName] hq (.refl d q) (by simp)
      (by simp) hignores (fun _ _ => rfl) hfiles).result
    rw [hon] at hspec
    obtain ⟨hreached, hout⟩ := hspec
    refine ⟨q, hreached, ?_⟩
    cases u with
    | ok _ => exact ⟨hq, hout.1, hout.2.manifest.hasRoom⟩
    | error e => exact hout.1
  · -- where there is no directory, nothing can be written
    obtain ⟨io, hlocate⟩ : ∃ io, d.locateFile (dir / temporaryManifestName) = .error io := by
      cases hlocate : d.locateFile (dir / temporaryManifestName) with
      | error io => exact ⟨io, rfl⟩
      | ok q =>
        exact absurd (Disk.leadsTo_of_locate isName_temporaryManifestName
          (Disk.locate_of_locateFile hlocate)) hleads
    have hfail : (commit (c.index dir)).on d = (.error (.io io), d) := by
      simp only [commit, manifest_index]
      refine DiskM.on_bind_error ?_
      exact DiskM.on_ask_bind_error (·.locateFile _) hlocate
    cases hfail.symm.trans hon
    exact ⟨[], .refl d [], fun _ _ => rfl⟩

/-- Wherever an index is made, directories come into being, and a manifest in one of them. -/
lemma on_create_cases (hon : (create dir range resolution id createdAt).on d = (r, d')) :
    ∃ d₁ q, d.Grown d₁ ∧ d₁.Reached q d' ∧ match r with
      | .ok ix => ix = (Contents.empty id range resolution createdAt).index dir
        ∧ (Contents.empty id range resolution createdAt).HeldBy d' dir q
      | .error _ => ∀ name, name ≠ temporaryManifestName →
        d'.tree.node? (q ++ [name]) = d₁.tree.node? (q ++ [name]) := by
  rw [create, DiskM.on_bind_ok (DiskM.on_get d)] at hon
  split_ifs at hon
  · cases hon
    exact ⟨d, [], .refl d, .refl d [], fun _ _ => rfl⟩
  · have hgrown := (DiskM.makeDirs_grows dir d).result
    rcases hmake : (DiskM.makeDirs dir).on d with ⟨e | u, d₁⟩ <;> rw [hmake] at hgrown
    · rw [DiskM.on_bind_error hmake] at hon
      cases hon
      exact ⟨d', [], hgrown, .refl d' [], fun _ _ => rfl⟩
    · rw [DiskM.on_bind_ok hmake] at hon
      change (commit ((Contents.empty id range resolution createdAt).index dir) >>= fun _ =>
        pure ((Contents.empty id range resolution createdAt).index dir)).on d₁ = _ at hon
      rcases hcommit : (commit ((Contents.empty id range resolution createdAt).index dir)).on d₁
        with ⟨e | u, d₂⟩ <;> obtain ⟨q, hreached, hout⟩ := commit_leaves rfl hcommit
      · rw [DiskM.on_bind_error hcommit] at hon
        cases hon
        exact ⟨d₁, q, hgrown, hreached, hout⟩
      · rw [DiskM.on_bind_ok hcommit] at hon
        cases hon
        obtain ⟨hleads, hstands, hroom⟩ := hout
        exact ⟨d₁, q, hgrown, hreached, rfl, hreached.leadsTo hleads, hstands,
          ⟨hroom, fun _ hg => absurd hg List.not_mem_nil⟩,
          Contents.sound_empty id range resolution createdAt⟩

end

/-! ### Steps with several open indexes -/

namespace Keeps

lemma nil (d : Disk) : Keeps P d [] := ⟨.nil, fun _ hh => nomatch hh⟩

lemma subperm (h : Keeps P d hs) (hsub : hs'.Subperm hs) : Keeps P d hs' where
  places := by
    obtain ⟨l, hl, hsub⟩ := hsub
    exact (hl.map Prod.snd).nodup_iff.mp (h.places.sublist (hsub.map Prod.snd))
  inStep g hg := h.inStep g (hsub.subset hg)

/-- A new index comes to the others if it does not stand in the directory of one of them. -/
lemma create (h : Keeps P d hs) {range : TimeRange} {resolution : Resolution} {id : Uid}
    {createdAt : Instant}
    (hon : (Index.create dir range resolution id createdAt).on d = (.ok ix, d'))
    (hapart : ∀ g ∈ hs, ¬d'.Meets (g.1.dir / manifestName) (dir / manifestName)) :
    ∃ q, Keeps P d' ((ix, q) :: hs) := by
  obtain ⟨d₁, q, hgrown, hreached, rfl, hheld⟩ := on_create_cases hon
  have hne (g) (hg : g ∈ hs) : g.2 ≠ q := by
    rintro rfl
    obtain ⟨c, -, hc, -⟩ := h.inStep g hg
    have hleads := hreached.leadsTo (hc.grown hgrown).leadsTo
    refine hapart g hg ⟨g.2 ++ [manifestName], ?_, ?_⟩
    · rw [Disk.locate_div hleads isName_manifestName, if_pos hc.fits.manifest]
    · rw [Disk.locate_div hheld.leadsTo isName_manifestName, if_pos hheld.fits.manifest]
  refine ⟨q, List.nodup_cons.mpr ⟨?_, h.places⟩, ?_⟩
  · intro hmem
    obtain ⟨g, hg, heq⟩ := List.mem_map.mp hmem
    exact hne g hg heq
  · intro g hg
    rcases List.mem_cons.mp hg with rfl | hg
    · exact ⟨_, rfl, hheld, fun _ he => nomatch he⟩
    · obtain ⟨c, hindex, hc, hP⟩ := h.inStep g hg
      exact ⟨c, hindex, (hc.grown hgrown).reached hreached fun _ _ heq => absurd heq (hne g hg), hP⟩

/-- An index that cannot be made does not disturb the others, even if its path leads to one of
them. -/
lemma create_error (h : Keeps P d hs) {range : TimeRange} {resolution : Resolution} {id : Uid}
    {createdAt : Instant} {e : StorageError}
    (hon : (Index.create dir range resolution id createdAt).on d = (.error e, d')) :
    Keeps P d' hs where
  places := h.places
  inStep g hg := by
    obtain ⟨d₁, q, hgrown, hreached, hsame⟩ := on_create_cases hon
    obtain ⟨c, hindex, hc, hP⟩ := h.inStep g hg
    refine ⟨c, hindex, (hc.grown hgrown).reached hreached fun name hname heq => ?_, hP⟩
    rw [heq, hsame name hname]

/-- A change of one index leaves the others in step. -/
lemma change (h : Keeps P d ((ix, p) :: hs)) (hreached : d.Reached p d')
    (hnew : ∃ c, InStep P d' ix' p c) : Keeps P d' ((ix', p) :: hs) where
  places := h.places
  inStep g hg := by
    rcases List.mem_cons.mp hg with rfl | hg
    · exact hnew
    · obtain ⟨c, hindex, hc, hP⟩ := h.inStep g (List.mem_cons_of_mem _ hg)
      have hplaces := (List.nodup_cons.mp h.places).1
      refine ⟨c, hindex, hc.reached hreached fun _ _ heq => ?_, hP⟩
      exact absurd (List.mem_map.mpr ⟨g, hg, heq⟩) hplaces

/-- Removing the directory of an index leaves all those in step that are still found. -/
lemma delete (h : Keeps P d hs) {r : Except StorageError Index}
    (hon : (Index.delete ix).on d = (r, d'))
    (hfound : ∀ g ∈ hs, d'.exists? (g.1.dir / manifestName) = true) : Keeps P d' hs where
  places := h.places
  inStep g hg := by
    obtain ⟨c, hindex, hc, hP⟩ := h.inStep g hg
    have hspec : (Index.delete ix).Spec d (fun _ _ => True) fun _ d' => d'.tree = d.tree
        ∨ ∃ q, d.tree.node? q = some .dir ∧ Emptied [q] d.tree d'.tree :=
      (DiskM.removeAll_empties ix.dir d).bind (fun _ _ h => .of_on (r := .ok _) rfl h)
        fun _ _ h => h
    have hwork := hspec.workDir
    have hout := hspec.result
    rw [hon] at hwork hout
    refine ⟨c, hindex, ?_, hP⟩
    rcases hout with hsame | ⟨q, hdir, hemptied⟩
    · exact hc.congr hwork hsame
    · exact hc.emptied hwork hdir hemptied (hfound g hg)

end Keeps

end Index

end SeriesStore
