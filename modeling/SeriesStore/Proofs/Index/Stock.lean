import SeriesStore.Index.Listing
import SeriesStore.Proofs.Index.History

/-!
# Data directories

All that is known of a data directory is which indexes stand in it, under which names. Whatever is
done with one of them leaves the others as they are.
-/

namespace SeriesStore.Index

open SeriesStore.Path SeriesStore.Tree

/-- A directory holds indexes with some contents under some names, and no others. -/
structure Stocked (d : Disk) (dir : Path) (p : Place) (cs : List (String × Contents)) : Prop where
  finds : d.Finds dir p
  nodup : (d.tree.names p).Nodup
  isName : ∀ name ∈ d.tree.names p, IsName name
  keys : (cs.map Prod.fst).Nodup
  held : ∀ g ∈ cs, g.2.HeldBy d (dir / g.1) (p ++ [g.1])
  bare : ∀ name, name ∉ cs.map Prod.fst → d.tree.node? (p ++ [name, manifestName]) = none

/-- The open index under a name in a directory. -/
def named (dir : Path) (g : String × Contents) : Index := g.2.index (dir / g.1)

variable {c : Contents} {d d' : Disk} {dir : Path} {p : Place} {name : String}
  {cs cs' : List (String × Contents)}

/-- The entries of some indexes. -/
def entriesIn (cs : List (String × Contents)) : List Entry := cs.flatMap (·.2.entries)

lemma entriesIn_perm (h : cs.Perm cs') : (entriesIn cs).Perm (entriesIn cs') :=
  h.flatMap_right _

/-- There is room for a new index with a segment under a name in a directory. -/
structure Welcomes (d : Disk) (dir : Path) (p : Place) (name : String) : Prop where
  isName : IsName name
  hasRoom : dir.hasRoom name = true
  free : ∀ content, d.tree.node? (p ++ [name]) ≠ some (.file content)
  files : ∀ file ∈ newNames 1, d.Accepts (dir / name) (p ++ [name]) file

/-! ### Other indexes -/

/-- What is done outside of the directory of an index does not matter to it. -/
lemma Contents.HeldBy.frame (h : c.HeldBy d (dir / name) (p ++ [name])) (hd : d.LeadsTo dir p)
    (hd' : d'.LeadsTo dir p) (hname : IsName name)
    (hsame : ∀ q, p ++ [name] <+: q → d'.tree.node? q = d.tree.node? q) :
    c.HeldBy d' (dir / name) (p ++ [name]) where
  leadsTo := hd'.div hname (hd.of_div hname h.leadsTo).2
    ((hsame _ (List.prefix_refl _)).trans h.leadsTo.isDir)
  stands := ⟨(hsame _ (List.prefix_append _ _)).trans h.stands.manifest,
    fun g hg => (hsame _ (List.prefix_append _ _)).trans (h.stands.files g hg)⟩
  fits := h.fits
  sound := h.sound

lemma not_prefix_of_ne {other : String} (h : other ≠ name) {q : Place}
    (hq : p ++ [other] <+: q) : ¬p ++ [name] <+: q := by
  intro hq'
  obtain ⟨r, rfl⟩ := hq
  obtain ⟨r', heq⟩ := hq'
  simp only [List.append_assoc, List.append_cancel_left_eq, List.singleton_append,
    List.cons.injEq] at heq
  exact h heq.1.symm

/-- What is done under one name takes no room from indexes under other names. -/
lemma Welcomes.beside {other : String} (h : Welcomes d dir p name) (hb : d.Beside p other d')
    (hne : other ≠ name) : Welcomes d' dir p name where
  isName := h.isName
  hasRoom := h.hasRoom
  free content := by
    rw [hb.others _ (not_prefix_of_ne hne.symm (List.prefix_refl _))]
    exact h.free content
  files file hfile := hb.accepts (h.files file hfile)

lemma filter_ne_of_not_mem (hname : name ∉ cs.map Prod.fst) : cs.filter (·.1 ≠ name) = cs :=
  List.filter_eq_self.mpr fun g hg => by
    simpa using fun heq : g.1 = name => hname (heq ▸ List.mem_map_of_mem hg)

/-- What is a permutation of images consists of images. -/
lemma exists_map_eq_of_perm {α β : Type} {f : α → β} {xs : List α} {ys : List β}
    (h : ys.Perm (xs.map f)) : ∃ xs' : List α, ys = xs'.map f ∧ xs'.Perm xs :=
  (congrFun₂ (List.eq_map_comp_perm f) ys xs).mpr h

/-- What is taken from images consists of images of what is taken. -/
lemma exists_map_eq_of_subperm {α β : Type} {f : α → β} {xs : List α} {ys : List β}
    (h : ys.Subperm (xs.map f)) :
    ∃ taken left : List α, ys = taken.map f ∧ xs.Perm (taken ++ left) := by
  obtain ⟨zs, hzs, hsub⟩ := h
  obtain ⟨taken, htaken, rfl⟩ := List.sublist_map_iff.mp hsub
  obtain ⟨left, hleft⟩ := htaken.exists_perm_append
  obtain ⟨taken', rfl, htaken'⟩ := exists_map_eq_of_perm hzs.symm
  exact ⟨taken', left, rfl, hleft.trans (htaken'.symm.append_right left)⟩

/-! ### Looking through a directory -/

/-- A directory that is found is looked through name by name. -/
lemma on_load_of_finds (h : d.Finds dir p) : (load dir).on d
    = ((d.tree.names p).mapM (fun name => openIfIndex (dir / name)) >>= fun found =>
      pure (sorted (found.filterMap fun ix => ix)) : DiskM (List Index)).on d := by
  rw [load, DiskM.on_bind_ok (DiskM.on_get d), h.exists?, if_pos rfl,
    DiskM.on_ask_bind_ok (·.list _) h.list]

/-- What is found under each name is what is found in the directory. -/
lemma on_load_of_found (h : d.Finds dir p) {found : String → Option Index}
    (hfound : ∀ name ∈ d.tree.names p, (openIfIndex (dir / name)).on d = (.ok (found name), d)) :
    (load dir).on d = (.ok (sorted ((d.tree.names p).filterMap found)), d) := by
  rw [on_load_of_finds h, DiskM.on_bind_ok (DiskM.on_mapM hfound), List.filterMap_map]
  rfl

/-- Under a name without a manifest there is no index. -/
lemma on_openIfIndex_of_bare (h : d.LeadsTo dir p) (hname : IsName name)
    (hbare : d.tree.node? (p ++ [name, manifestName]) = none) :
    (openIfIndex (dir / name)).on d = (.ok none, d) := by
  rw [openIfIndex, DiskM.on_bind_ok (DiskM.on_get d), exists?_of_node? h hname hbare,
    Bool.and_false]
  rfl

/-! ### Data directories -/

namespace Stocked

lemma mem_names (h : Stocked d dir p cs) {g : String × Contents} (hg : g ∈ cs) :
    g.1 ∈ d.tree.names p :=
  mem_names_iff.mpr (by simp [(h.held g hg).leadsTo.isDir])

lemma isName_of_mem (h : Stocked d dir p cs) {g : String × Contents} (hg : g ∈ cs) :
    IsName g.1 := h.isName g.1 (h.mem_names hg)

lemma perm (h : Stocked d dir p cs) (hperm : cs.Perm cs') : Stocked d dir p cs' where
  finds := h.finds
  nodup := h.nodup
  isName := h.isName
  keys := (hperm.map _).nodup_iff.mp h.keys
  held g hg := h.held g (hperm.mem_iff.mpr hg)
  bare name hname := h.bare name fun hmem => hname ((hperm.map _).mem_iff.mp hmem)

lemma hasRoom (h : Stocked d dir p cs) {g : String × Contents} (hg : g ∈ cs) :
    dir.hasRoom g.1 = true :=
  Disk.hasRoom_of_div (h.isName_of_mem hg)
    (h.finds.leadsTo.of_div (h.isName_of_mem hg) (h.held g hg).leadsTo).2
    (h.held g hg).fits.manifest

/-- Names stand for one index each. -/
lemma eq_of_name (h : Stocked d dir p cs) {g g' : String × Contents} (hg : g ∈ cs) (hg' : g' ∈ cs)
    (hname : g.1 = g'.1) : g = g' := List.inj_on_of_nodup_map h.keys hg hg' hname

/-- After a change in a directory under one name, there is another index under this name, or none.
The other indexes stay. -/
theorem beside (h : Stocked d dir p cs) (hb : d.Beside p name d') (hname : IsName name)
    (new : Option Contents) (hnew : match new with
      | some c => c.HeldBy d' (dir / name) (p ++ [name])
      | none => d'.tree.node? (p ++ [name, manifestName]) = none) :
    Stocked d' dir p ((new.map (name, ·)).toList ++ cs.filter (·.1 ≠ name)) where
  finds := h.finds.of_dirs hb.workDir hb.dirs
  nodup := hb.nodup_names h.nodup
  isName := hb.isName_of_mem_names hname h.isName
  keys := by
    have hrest : ((cs.filter (·.1 ≠ name)).map Prod.fst).Nodup :=
      h.keys.sublist (List.filter_sublist.map _)
    cases new with
    | none => exact hrest
    | some c => simpa using hrest
  held g hg := by
    rcases List.mem_append.mp hg with hg | hg
    · cases new with
      | none => cases hg
      | some c =>
        obtain rfl : g = (name, c) := by simpa using hg
        exact hnew
    · obtain ⟨hg, hne⟩ := List.mem_filter.mp hg
      have hleads := (h.finds.of_dirs hb.workDir hb.dirs).leadsTo
      exact (h.held g hg).frame h.finds.leadsTo hleads (h.isName_of_mem hg) fun q hq =>
        hb.others q (not_prefix_of_ne (by simpa using hne) hq)
  bare other hother := by
    -- under the name itself, and under the other names as before
    by_cases heq : other = name
    · subst heq
      cases new with
      | none => exact hnew
      | some c => simp at hother
    · have hplace : ¬p ++ [name] <+: p ++ [other, manifestName] :=
        not_prefix_of_ne heq ⟨[manifestName], by simp⟩
      rw [hb.others _ hplace]
      refine h.bare other fun hmem => hother ?_
      obtain ⟨g, hg, rfl⟩ := List.mem_map.mp hmem
      exact List.mem_map_of_mem (List.mem_append_right _ (by simpa [heq] using hg))

/-- An index among others. -/
lemma perm_cons_filter (h : Stocked d dir p cs) {g : String × Contents} (hg : g ∈ cs) :
    cs.Perm (g :: cs.filter (·.1 ≠ g.1)) := by
  obtain ⟨front, back, rfl⟩ := List.append_of_mem hg
  have hkeys := h.keys
  simp only [List.map_append, List.map_cons, List.nodup_append, List.nodup_cons, List.mem_cons]
    at hkeys
  have hfront : front.filter (·.1 ≠ g.1) = front := filter_ne_of_not_mem fun hmem =>
    hkeys.2.2 _ hmem _ (.inl rfl) rfl
  have hback : back.filter (·.1 ≠ g.1) = back := filter_ne_of_not_mem hkeys.2.1.1
  rw [List.filter_append, List.filter_cons_of_neg (by simp), hfront, hback]
  exact List.perm_middle

/-! ### Loading -/

lemma on_openIfIndex_of_mem (h : Stocked d dir p cs) {g : String × Contents} (hg : g ∈ cs) :
    (openIfIndex (dir / g.1)).on d = (.ok (some (named dir g)), d) := by
  have hheld := h.held g hg
  have hfinds := h.finds.leadsTo.finds_div (h.isName_of_mem hg) (h.hasRoom hg) hheld.leadsTo.isDir
  rw [openIfIndex, DiskM.on_bind_ok (DiskM.on_get d), Disk.isDir_iff.mpr ⟨_, hfinds⟩,
    hheld.exists?]
  simp only [Bool.and_self, if_true]
  rw [DiskM.on_bind, DiskM.on_tryCatch, DiskM.on_bind_ok hheld.on_open]
  rfl

lemma on_openIfIndex_of_not_mem (h : Stocked d dir p cs) (hname : IsName name)
    (hmem : name ∉ cs.map Prod.fst) : (openIfIndex (dir / name)).on d = (.ok none, d) :=
  on_openIfIndex_of_bare h.finds.leadsTo hname (h.bare name hmem)

/-- All indexes in a data directory are found, and no others. -/
theorem on_load (h : Stocked d dir p cs) :
    ∃ gs : List (String × Contents), (load dir).on d = (.ok (gs.map (named dir)), d)
      ∧ gs.Perm cs := by
  let found (name : String) : Option (String × Contents) := cs.find? (·.1 = name)
  -- each name in the directory opens the index of that name, or none
  have hfound (name : String) (hmem : name ∈ d.tree.names p) :
      (openIfIndex (dir / name)).on d = (.ok ((found name).map (named dir)), d) := by
    cases hfind : found name with
    | none =>
      refine h.on_openIfIndex_of_not_mem (h.isName name hmem) ?_
      intro hmem'
      obtain ⟨g, hg, rfl⟩ := List.mem_map.mp hmem'
      simpa using List.find?_eq_none.mp hfind g hg
    | some g =>
      obtain rfl : g.1 = name := by simpa using List.find?_some hfind
      exact h.on_openIfIndex_of_mem (List.mem_of_find?_eq_some hfind)
  -- every index is found under its name
  have hall : ((d.tree.names p).filterMap found).Perm cs := by
    refine (List.perm_ext_iff_of_nodup ?_ (List.Nodup.of_map _ h.keys)).mpr fun g => ?_
    · refine h.nodup.filterMap ?_
      intro name name' g hg hg'
      have := List.find?_some hg
      have := List.find?_some hg'
      simp_all
    · rw [List.mem_filterMap]
      constructor
      · rintro ⟨name, -, hfind⟩
        exact List.mem_of_find?_eq_some hfind
      · intro hg
        refine ⟨g.1, h.mem_names hg, ?_⟩
        obtain ⟨g', hfind⟩ : ∃ g', found g.1 = some g' :=
          Option.isSome_iff_exists.mp (List.find?_isSome.mpr ⟨g, hg, by simp⟩)
        have hname : g'.1 = g.1 := by simpa using List.find?_some hfind
        rw [hfind, h.eq_of_name (List.mem_of_find?_eq_some hfind) hg hname]
  have hperm : (sorted ((d.tree.names p).filterMap fun name => (found name).map (named dir))).Perm
      (cs.map (named dir)) := by
    refine (List.mergeSort_perm _ _).trans ?_
    rw [← List.map_filterMap]
    exact hall.map (named dir)
  obtain ⟨gs, hgs, hperm⟩ := exists_map_eq_of_perm hperm
  exact ⟨gs, hgs ▸ on_load_of_found h.finds hfound, hperm⟩

lemma on_chunks (h : Stocked d dir p cs) {g : String × Contents} (hg : g ∈ cs) :
    (chunks (named dir g)).on d = (.ok g.2.entries, d) := (h.held g hg).on_chunks

lemma on_mapM_chunks (h : Stocked d dir p cs) {l : List (String × Contents)}
    (hl : ∀ g ∈ l, g ∈ cs) :
    ((l.map (named dir)).mapM chunks).on d = (.ok (l.map (·.2.entries)), d) := by
  rw [List.mapM_map]
  exact DiskM.on_mapM fun g hg => h.on_chunks (hl g hg)

lemma on_open_of_not_mem (h : Stocked d dir p cs) (hname : IsName name)
    (hmem : name ∉ cs.map Prod.fst) :
    ∃ io, (Index.open (dir / name)).on d = (.error (.io io), d) := by
  have hnone := exists?_of_node? h.finds.leadsTo hname (h.bare name hmem)
  obtain ⟨io, hread⟩ : ∃ io, d.readText (dir / name / manifestName) = .error io := by
    rw [Disk.exists?, Disk.find?] at hnone
    rw [Disk.readText, Disk.read]
    cases hlocate : d.locate (dir / name / manifestName) with
    | error io => exact ⟨io, rfl⟩
    | ok q =>
      rw [hlocate] at hnone
      have hnode : d.tree.node? q = none := by simpa using hnone
      exact ⟨.notFound, by simp only [hnode]⟩
  refine ⟨io, ?_⟩
  rw [Index.open, DiskM.on_bind_error]
  rw [DiskM.readText, DiskM.on_ask, hread]

/-- An index that can be opened under a name is one of those that are known. -/
lemma mem_of_on_open (h : Stocked d dir p cs) (hname : IsName name) {ix : Index}
    (hopen : (Index.open (dir / name)).on d = (.ok ix, d)) :
    ∃ c, (name, c) ∈ cs ∧ named dir (name, c) = ix := by
  by_cases hmem : name ∈ cs.map Prod.fst
  · obtain ⟨g, hg, rfl⟩ := List.mem_map.mp hmem
    rw [(h.held g hg).on_open] at hopen
    cases hopen
    exact ⟨g.2, hg, rfl⟩
  · obtain ⟨io, hon⟩ := h.on_open_of_not_mem hname hmem
    rw [hon] at hopen
    cases hopen

/-! ### Changes of single indexes -/

/-- An index is made under a new name. -/
theorem create_spec (h : Stocked d dir p cs) (hname : IsName name) (range : TimeRange)
    (resolution : Resolution) (id : Uid) (createdAt : Instant) :
    (create (dir / name) range resolution id createdAt).Spec d (fun _ _ => True) fun r d' =>
      d.Beside p name d' ∧ match r with
        | .ok ix => name ∉ cs.map Prod.fst
          ∧ ix = named dir (name, Contents.empty id range resolution createdAt)
          ∧ Stocked d' dir p ((name, Contents.empty id range resolution createdAt) :: cs)
        | .error e => Stocked d' dir p cs
          ∧ (e = .io .other ∨ e = .invalidIndex (.alreadyExists (dir / name))) := by
  by_cases hmem : name ∈ cs.map Prod.fst
  · obtain ⟨g, hg, rfl⟩ := List.mem_map.mp hmem
    exact .of_on (on_create_of_heldBy _ _ _ _ (h.held g hg)) ⟨.refl d p _, h, .inr rfl⟩
  · have hcs := filter_ne_of_not_mem hmem
    refine (Index.create_spec _ _ _ _ h.finds.leadsTo hname (h.bare name hmem)).post
      fun r d' ⟨hbeside, hout⟩ => ⟨hbeside, ?_⟩
    cases r with
    | ok ix =>
      have h' := h.beside hbeside hname (some _) hout.2
      rw [hcs] at h'
      exact ⟨hmem, hout.1, h'⟩
    | error e =>
      have h' := h.beside hbeside hname none hout.1
      rw [hcs] at h'
      exact ⟨h', .inl hout.2.1⟩

/-- A command changes the contents of one index. -/
theorem run_spec (h : Stocked d dir p cs) {c : Contents} (hg : (name, c) ∈ cs) (cmd : Command) :
    (cmd.run (named dir (name, c))).Spec d (fun _ _ => True) fun r d' =>
      d.Beside p name d' ∧ match r with
        | .ok ix => ix = named dir (name, cmd.result c)
          ∧ (28 * (c.entries ++ cmd.entries).length < 2 ^ 32 →
            Stocked d' dir p ((name, cmd.result c) :: cs.filter (·.1 ≠ name)))
        | .error e => Stocked d' dir p cs ∧ (cmd.Suits c → e = .io .other) := by
  have hheld := h.held _ hg
  have hname := h.isName_of_mem hg
  refine (Command.run_spec hheld cmd).mono (fun _ _ _ => trivial) fun r d' hran =>
    ⟨.of_reached hran.reached, ?_⟩
  have hleads := hran.reached.leadsTo hheld.leadsTo
  cases r with
  | ok ix =>
    obtain ⟨hindex, hstands, hfits, hsuits⟩ := hran.ok ix rfl
    exact ⟨hindex, fun hsmall => h.beside (.of_reached hran.reached) hname (some _)
      ⟨hleads, hstands, hfits, Command.sound_result hheld.sound hsuits hsmall⟩⟩
  | error e =>
    obtain ⟨hstands, -, hsuits⟩ := hran.error e rfl
    have h' := h.beside (.of_reached hran.reached) hname (some c)
      ⟨hleads, hstands, hheld.fits, hheld.sound⟩
    exact ⟨h'.perm (h.perm_cons_filter hg).symm, hsuits⟩

/-- On a calm disk that has room for it, an index is made under a new name. -/
lemma exists_on_create (h : Stocked d dir p cs) (hcalm : d.Calm) (hnew : name ∉ cs.map Prod.fst)
    (hroom : Welcomes d dir p name) (range : TimeRange) (resolution : Resolution) (id : Uid)
    (createdAt : Instant) :
    ∃ d', (create (dir / name) range resolution id createdAt).on d
        = (.ok (named dir (name, Contents.empty id range resolution createdAt)), d')
      ∧ d.Beside p name d'
      ∧ Stocked d' dir p ((name, Contents.empty id range resolution createdAt) :: cs) := by
  have hrep : Replaceable d (dir / name) (p ++ [name]) :=
    ⟨hroom.files _ (temporaryManifestName_mem_newNames 1),
      hroom.files _ (manifestName_mem_newNames 1)⟩
  obtain ⟨d', hon⟩ := Index.exists_on_create range resolution id createdAt h.finds.leadsTo
    hroom.isName hcalm (h.bare name hnew) hroom.hasRoom hroom.free hrep
  have hspec := (h.create_spec hroom.isName range resolution id createdAt).result
  rw [hon] at hspec
  exact ⟨d', hon, hspec.1, hspec.2.2.2⟩

/-- On a calm disk that takes the files, a command that suits the contents of an index succeeds. -/
lemma exists_on_run (h : Stocked d dir p cs) (hcalm : d.Calm) {c : Contents} (hg : (name, c) ∈ cs)
    (hfiles : ∀ file ∈ newNames c.next, d.Accepts (dir / name) (p ++ [name]) file) {cmd : Command}
    (hsuits : cmd.Suits c) (hsmall : 28 * (c.entries ++ cmd.entries).length < 2 ^ 32) :
    ∃ d', (cmd.run (named dir (name, c))).on d = (.ok (named dir (name, cmd.result c)), d')
      ∧ d.Beside p name d'
      ∧ Stocked d' dir p ((name, cmd.result c) :: cs.filter (·.1 ≠ name)) := by
  have hheld := h.held _ hg
  have hok := (Command.run_spec hheld cmd).result.calm hcalm
  rw [Command.outcome_eq_ok hheld.sound hfiles hsuits] at hok
  have hspec := (h.run_spec hg cmd).result
  change ((cmd.run (named dir (name, c))).on d).1 = .ok (named dir (name, cmd.result c)) at hok
  rw [hok] at hspec
  exact ⟨_, Prod.ext hok rfl, hspec.1, hspec.2.2 hsmall⟩

/-- A command adds its entries to those of all indexes. -/
lemma entriesIn_result_perm (h : Stocked d dir p cs) {c : Contents} (hg : (name, c) ∈ cs)
    (cmd : Command) : (entriesIn ((name, cmd.result c) :: cs.filter (·.1 ≠ name))).Perm
      (entriesIn cs ++ cmd.entries) := by
  calc ((cmd.result c).entries ++ entriesIn (cs.filter (·.1 ≠ name))).Perm
        (c.entries ++ entriesIn (cs.filter (·.1 ≠ name)) ++ cmd.entries) := by
          rw [Command.entries_result, List.append_assoc, List.append_assoc]
          exact List.perm_append_comm.append_left _
    _ |>.Perm (entriesIn cs ++ cmd.entries) :=
      (entriesIn_perm (h.perm_cons_filter hg)).symm.append_right _

/-- When the directories of some indexes have been emptied, the other indexes are left. -/
theorem emptied {gone rest : List (String × Contents)} (h : Stocked d dir p (gone ++ rest))
    (hemptied : Emptied (gone.map fun g => p ++ [g.1]) d.tree d'.tree) (hfinds : d'.Finds dir p) :
    Stocked d' dir p rest where
  finds := hfinds
  nodup := h.nodup.sublist (hemptied.names p)
  isName name hname := h.isName name ((hemptied.names p).subset hname)
  keys := h.keys.sublist ((List.sublist_append_right gone rest).map _)
  held g hg := by
    have hg' := List.mem_append_right gone hg
    refine (h.held g hg').frame h.finds.leadsTo hfinds.leadsTo (h.isName_of_mem hg') fun q hq =>
      hemptied.others q fun r hr => ?_
    obtain ⟨g', hgone, rfl⟩ := List.mem_map.mp hr
    refine not_prefix_of_ne (fun heq => ?_) hq
    have hkeys := h.keys
    rw [List.map_append, List.nodup_append] at hkeys
    exact hkeys.2.2 _ (List.mem_map_of_mem hgone) _ (List.mem_map_of_mem hg) heq.symm
  bare name hname := by
    by_cases hgone : name ∈ gone.map Prod.fst
    · obtain ⟨g, hg, rfl⟩ := List.mem_map.mp hgone
      exact hemptied.below _ (List.mem_map_of_mem hg) _ ⟨[manifestName], by simp⟩ (by simp)
    · have hnone := h.bare name (by simpa [hname] using hgone)
      exact (hemptied.lost _).elim (fun heq => heq.trans hnone) fun heq => heq

end Stocked

/-! ### Stored entries -/

/-- All chunks of all indexes in a data directory. -/
def stored (dataDir : Path) : DiskM (List Entry) := do
  return (← (← load dataDir).mapM chunks).flatten

/-- What is stored in a data directory is what its indexes hold. -/
theorem Stocked.on_stored (h : Stocked d dir p cs) :
    ∃ es, (stored dir).on d = (.ok es, d) ∧ es.Perm (entriesIn cs) := by
  obtain ⟨gs, hload, hgs⟩ := h.on_load
  have hchunks := h.on_mapM_chunks fun g hg => hgs.mem_iff.mp hg
  refine ⟨entriesIn gs, ?_, entriesIn_perm hgs⟩
  rw [stored, DiskM.on_bind_ok hload, DiskM.on_bind_ok hchunks, entriesIn, List.flatMap_def]
  rfl

/-! ### Building -/

/-- A data directory in which indexes are made and worked with, and the entries that all of them
have accepted. -/
inductive Built (dir : Path) : Disk → List Entry → Prop
  | start {d : Disk} {p : Place} (finds : d.Finds dir p) (nodup : (d.tree.names p).Nodup)
    (isName : ∀ name ∈ d.tree.names p, IsName name)
    (bare : ∀ name, d.tree.node? (p ++ [name, manifestName]) = none) : Built dir d []
  | create {d d' : Disk} {es : List Entry} {name : String} {range : TimeRange}
    {resolution : Resolution} {id : Uid} {createdAt : Instant} {r : Except StorageError Index}
    (built : Built dir d es) (isName : IsName name)
    (on : (Index.create (dir / name) range resolution id createdAt).on d = (r, d')) :
    Built dir d' es
  | run {d d' : Disk} {es : List Entry} {name : String} {ix : Index}
    {r : Except StorageError Index} (cmd : Command) (built : Built dir d es) (isName : IsName name)
    (opened : (Index.open (dir / name)).on d = (.ok ix, d)) (on : (cmd.run ix).on d = (r, d')) :
    Built dir d' (es ++ if r.isOk then cmd.entries else [])

/-- A data directory that has been built holds what its indexes have accepted. -/
theorem Built.stocked {es : List Entry} (h : Built dir d es) (hsmall : 28 * es.length < 2 ^ 32) :
    ∃ p cs, Stocked d dir p cs ∧ (entriesIn cs).Perm es := by
  induction h with
  | start hfinds hnodup hname hbare =>
    exact ⟨_, [], ⟨hfinds, hnodup, hname, .nil, fun _ hg => (nomatch hg), fun name _ => hbare name⟩,
      .nil⟩
  | @create d d' es name range resolution id createdAt r hbuilt hname hon ih =>
    obtain ⟨p, cs, hst, hperm⟩ := ih hsmall
    have hspec := (hst.create_spec hname range resolution id createdAt).result
    rw [hon] at hspec
    cases r with
    | ok ix => exact ⟨p, _, hspec.2.2.2, hperm⟩
    | error e => exact ⟨p, cs, hspec.2.1, hperm⟩
  | @run d d' es name ix r cmd hbuilt hname hopened hon ih =>
    rw [List.length_append] at hsmall
    obtain ⟨p, cs, hst, hperm⟩ := ih (by omega)
    obtain ⟨c, hg, rfl⟩ := hst.mem_of_on_open hname hopened
    have hspec := (hst.run_spec hg cmd).result
    rw [hon] at hspec
    cases r with
    | ok ix' =>
      refine ⟨p, _, hspec.2.2 (lt_of_le_of_lt ?_ hsmall),
        (hst.entriesIn_result_perm hg cmd).trans (hperm.append_right _)⟩
      have hlen := (entriesIn_perm (hst.perm_cons_filter hg)).length_eq
      have hlen' := hperm.length_eq
      simp only [entriesIn, List.flatMap_cons, List.length_append] at hlen hlen' ⊢
      simp only [Except.isOk, Except.toBool, if_true]
      omega
    | error e => exact ⟨p, cs, hspec.2.1, by simpa [Except.isOk, Except.toBool] using hperm⟩

end SeriesStore.Index
