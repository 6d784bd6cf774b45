import SeriesStore.Proofs.Disk.Readings
import SeriesStore.Proofs.Index.Updates

/-!
# Making an index

An index that is made under a name in a directory changes nothing outside of the directory with
this name. It is not made where there is an index already.
-/

namespace SeriesStore

open SeriesStore.Path SeriesStore.Tree

/-! ### Changes under one name -/

/-- A disk that was the disk `d₀` before things changed in a directory under a name. -/
structure Disk.Beside (d₀ : Disk) (p : Place) (name : String) (d : Disk) : Prop where
  workDir : d.workDir = d₀.workDir
  faults : d.faults = d₀.faults
  dirs : ∀ q, d₀.tree.node? q = some .dir → d.tree.node? q = some .dir
  made : ∀ q, d.tree.node? q = some .dir → q = p ++ [name] ∨ d₀.tree.node? q = some .dir
  others : ∀ q, ¬p ++ [name] <+: q → d.tree.node? q = d₀.tree.node? q
  names : d.tree.names p = d₀.tree.names p
    ∨ name ∉ d₀.tree.names p ∧ d.tree.names p = name :: d₀.tree.names p

namespace Disk.Beside

variable {d₀ d d' : Disk} {p : Place} {name : String}

protected lemma refl (d₀ : Disk) (p : Place) (name : String) : d₀.Beside p name d₀ :=
  ⟨rfl, rfl, fun _ h => h, fun _ h => .inr h, fun _ _ => rfl, .inl rfl⟩

lemma trans (h : d₀.Beside p name d) (h' : d.Beside p name d') : d₀.Beside p name d' where
  workDir := h'.workDir.trans h.workDir
  faults := h'.faults.trans h.faults
  dirs q hq := h'.dirs q (h.dirs q hq)
  made q hq := (h'.made q hq).elim .inl (h.made q)
  others q hq := (h'.others q hq).trans (h.others q hq)
  names := by
    rcases h'.names with hnames' | ⟨hmem, hnames'⟩
    · rw [hnames']
      exact h.names
    · rcases h.names with hnames | ⟨-, hnames⟩
      · rw [hnames'.trans (by rw [hnames])]
        exact .inr ⟨hnames ▸ hmem, rfl⟩
      · exact absurd (hnames ▸ List.mem_cons_self) hmem

lemma of_mayHold (h : d₀.MayHold (p ++ [name]) d) : d₀.Beside p name d where
  workDir := h.workDir
  faults := h.faults
  dirs := h.dirs
  made q hq := by
    by_cases heq : q = p ++ [name]
    · exact .inl heq
    · exact .inr (h.node?_of_ne heq ▸ hq)
  others q hq := h.node?_of_ne fun heq => hq (heq ▸ List.prefix_refl _)
  names := by
    rcases h.tree with htree | ⟨hnone, htree⟩ <;> rw [htree]
    · exact .inl rfl
    · exact .inr ⟨fun hmem => mem_names_iff.mp hmem hnone, names_put_of_none hnone⟩

lemma of_reached (h : d₀.Reached (p ++ [name]) d) : d₀.Beside p name d where
  workDir := h.workDir
  faults := h.faults
  dirs q := (h.tree.dirs q).mpr
  made q hq := .inr ((h.tree.dirs q).mp hq)
  others q hq := h.tree.others q fun file heq => hq (heq ▸ List.prefix_append _ _)
  names := .inl (h.tree.names p (by simp))

lemma calm (h : d₀.Beside p name d) (hcalm : d₀.Calm) : d.Calm := by
  rwa [Disk.Calm, h.faults]

/-- Files that could be put into directories in a directory still can. -/
lemma accepts (h : d₀.Beside p name d) {dir : Path} {other file : String}
    (hacc : d₀.Accepts dir (p ++ [other]) file) : d.Accepts dir (p ++ [other]) file where
  hasRoom := hacc.hasRoom
  not_dir hdir := (h.made _ hdir).elim (by simp) hacc.not_dir

/-- Names in the directory still stand for one place each. -/
lemma nodup_names (h : d₀.Beside p name d) (hnodup : (d₀.tree.names p).Nodup) :
    (d.tree.names p).Nodup := by
  rcases h.names with hnames | ⟨hmem, hnames⟩ <;> rw [hnames]
  · exact hnodup
  · exact List.nodup_cons.mpr ⟨hmem, hnodup⟩

lemma isName_of_mem_names (h : d₀.Beside p name d) (hname : IsName name)
    (hnames : ∀ other ∈ d₀.tree.names p, IsName other) :
    ∀ other ∈ d.tree.names p, IsName other := by
  intro other hother
  rcases h.names with heq | ⟨-, heq⟩ <;> rw [heq] at hother
  · exact hnames other hother
  · rcases List.mem_cons.mp hother with rfl | hother
    · exact hname
    · exact hnames other hother

end Disk.Beside

namespace Index

variable {c : Contents} {d d' : Disk} {dir : Path} {p q : Place} {name : String}
  {err : StorageError} (range : TimeRange) (resolution : Resolution) (id : Uid)
  (createdAt : Instant)

/-! ### Making -/

lemma Contents.HeldBy.exists? (h : c.HeldBy d dir p) : d.exists? (dir / manifestName) = true := by
  simp [Disk.exists?, Disk.find?, Disk.locate_div h.leadsTo isName_manifestName, h.fits.manifest,
    h.stands.manifest]

/-- There is no second index in a directory. -/
lemma on_create_of_heldBy (h : c.HeldBy d dir p) :
    (create dir range resolution id createdAt).on d
      = (.error (.invalidIndex (.alreadyExists dir)), d) := by
  rw [create, DiskM.on_bind_ok (DiskM.on_get d), h.exists?]
  rfl

lemma exists?_of_node? (h : d.LeadsTo dir p) (hname : IsName name)
    (hbare : d.tree.node? (p ++ [name, manifestName]) = none) :
    d.exists? (dir / name / manifestName) = false := by
  rw [Disk.exists?, Disk.find?]
  cases hlocate : d.locate (dir / name / manifestName) with
  | error e => rfl
  | ok r =>
    obtain ⟨q, hq⟩ := Disk.leadsTo_of_locate isName_manifestName hlocate
    obtain ⟨rfl, -⟩ := h.of_div hname hq
    rw [Disk.locate_div hq isName_manifestName] at hlocate
    split_ifs at hlocate
    simp [← Except.ok.inj hlocate, hbare]

/-- Where there is no index under a name, a directory is made and an empty manifest put into it. -/
lemma on_create_of_bare (h : d.LeadsTo dir p) (hname : IsName name)
    (hbare : d.tree.node? (p ++ [name, manifestName]) = none) :
    (create (dir / name) range resolution id createdAt).on d
      = (DiskM.makeDirs (dir / name) >>= fun _ =>
        (commit ((Contents.empty id range resolution createdAt).index (dir / name)) >>= fun _ =>
          pure ((Contents.empty id range resolution createdAt).index (dir / name)))).on d := by
  rw [create, DiskM.on_bind_ok (DiskM.on_get d), exists?_of_node? h hname hbare]
  rfl

/-- An index is there, without chunks, as soon as its first manifest is written. -/
lemma heldBy_of_on_commit {r : Except StorageError Unit} (h : d.LeadsTo dir p)
    (hon : (commit ((Contents.empty id range resolution createdAt).index dir)).on d = (r, d')) :
    d.Reached p d' ∧ ∀ u, r = .ok u →
      (Contents.empty id range resolution createdAt).HeldBy d' dir p := by
  have hcommitted := (commit_index_spec [manifestName, temporaryManifestName] (I := fun _ => True)
    (c := Contents.empty id range resolution createdAt) h (.refl d _) (by simp) (by simp)
    (fun _ _ _ _ => trivial) trivial (List.forall_mem_nil _)).result
  rw [hon] at hcommitted
  obtain ⟨hr, hout⟩ := hcommitted
  refine ⟨hr, fun u hu => ?_⟩
  subst hu
  obtain ⟨hstands, hrep⟩ := hout
  exact ⟨hr.leadsTo h, hstands, ⟨hrep.manifest.hasRoom, List.forall_mem_nil _⟩,
    Contents.sound_empty ..⟩

/-- An index is made under a name, without chunks, or there is none under this name. -/
theorem create_spec (h : d.LeadsTo dir p) (hname : IsName name)
    (hbare : d.tree.node? (p ++ [name, manifestName]) = none) :
    (create (dir / name) range resolution id createdAt).Spec d (fun _ _ => True) fun r d' =>
      d.Beside p name d' ∧ match r with
        | .ok ix => ix = (Contents.empty id range resolution createdAt).index (dir / name)
          ∧ (Contents.empty id range resolution createdAt).HeldBy d' (dir / name) (p ++ [name])
        | .error e => d'.tree.node? (p ++ [name, manifestName]) = none ∧ e = .io .other
          ∧ (d.Calm → dir.hasRoom name = true → Replaceable d (dir / name) (p ++ [name]) →
            ∃ content, d.tree.node? (p ++ [name]) = some (.file content)) := by
  have hon := on_create_of_bare range resolution id createdAt h hname hbare
  refine .of_on_eq hon ((DiskM.makeDirs_spec h hname).bind (fun _ d₁ ⟨hmade, _, hleads⟩ => ?_)
    fun e d₁ ⟨hmade, _, he, hblocked⟩ => ?_)
  · have hbare₁ : d₁.tree.node? (p ++ [name, manifestName]) = none := by
      rw [hmade.node?_of_ne (by simp), hbare]
    have hrep : Replaceable d₁ (dir / name) (p ++ [name])
        ↔ Replaceable d (dir / name) (p ++ [name]) :=
      replaceable_congr fun file => Disk.accepts_congr (hmade.node?_of_ne (by simp))
    have hcommit := commit_index_spec [manifestName, temporaryManifestName]
      (I := fun t => t.node? (p ++ [name, manifestName]) = none)
      (c := Contents.empty id range resolution createdAt) hleads (.refl d₁ _) (by simp) (by simp)
      (ignores_node? (by simpa using temporaryManifestName_ne_manifestName.symm) none) hbare₁
      (fun _ hg => nomatch hg)
    refine (hcommit.mono (fun _ _ _ => trivial) fun _ _ hout => hout).bind
      (fun _ d₂ ⟨hr, hstands, hrep₁⟩ => ?_) fun e d₂ ⟨hr, hbare₂, he, hblocked⟩ => ?_
    · refine .of_on (r := .ok _) rfl ⟨(Disk.Beside.of_mayHold hmade).trans (.of_reached hr), rfl,
        hr.leadsTo hleads, hstands, ⟨hrep₁.manifest.hasRoom, fun _ hg => nomatch hg⟩,
        Contents.sound_empty id range resolution createdAt⟩
    · refine ⟨(Disk.Beside.of_mayHold hmade).trans (.of_reached hr), hbare₂, he,
        fun hcalm _ hrep' => absurd (hrep.mpr hrep') (hblocked fun n c => ?_)⟩
      rw [hmade.faults, hcalm n c]
  · refine ⟨.of_mayHold hmade, ?_, he, fun hcalm hroom _ => hblocked hcalm hroom⟩
    rw [hmade.node?_of_ne (by simp), hbare]

/-- On a calm disk that takes the files of a manifest, an index is made where there is none. -/
theorem exists_on_create (h : d.LeadsTo dir p) (hname : IsName name) (hcalm : d.Calm)
    (hbare : d.tree.node? (p ++ [name, manifestName]) = none) (hroom : dir.hasRoom name = true)
    (hfree : ∀ content, d.tree.node? (p ++ [name]) ≠ some (.file content))
    (hrep : Replaceable d (dir / name) (p ++ [name])) :
    ∃ d', (create (dir / name) range resolution id createdAt).on d
      = (.ok ((Contents.empty id range resolution createdAt).index (dir / name)), d') := by
  have hspec := (create_spec range resolution id createdAt h hname hbare).result
  rcases hon : (create (dir / name) range resolution id createdAt).on d with ⟨e | ix, d'⟩
  · rw [hon] at hspec
    obtain ⟨content, hfile⟩ := hspec.2.2.2 hcalm hroom hrep
    exact absurd hfile (hfree content)
  · rw [hon] at hspec
    exact ⟨d', by rw [hspec.2.1]⟩

/-- On an empty disk, an index is made under every name that is not too long. Its directory takes
every file whose name is not too long in turn. -/
lemma exists_on_create_empty (hname : IsName name) (hroom : (⟨[]⟩ : Path).hasRoom name = true)
    (htemp : (⟨[name]⟩ : Path).hasRoom temporaryManifestName = true)
    (hmanifest : (⟨[name]⟩ : Path).hasRoom manifestName = true) :
    ∃ d', (create ⟨[name]⟩ range resolution id createdAt).on {}
        = (.ok ((Contents.empty id range resolution createdAt).index ⟨[name]⟩), d')
      ∧ (Contents.empty id range resolution createdAt).HeldBy d' ⟨[name]⟩ [name] ∧ d'.Calm
      ∧ ∀ file, (⟨[name]⟩ : Path).hasRoom file = true → d'.Accepts ⟨[name]⟩ [name] file := by
  have hdir : (⟨[]⟩ : Path) / name = ⟨[name]⟩ := div_eq ⟨[]⟩ hname
  have hnone (q : Place) (hq : q ≠ []) : Tree.node? [] q = none := by simp [node?, hq]
  have hleads : Disk.LeadsTo {} ⟨[]⟩ [] := ⟨rfl, rfl⟩
  have hcalm : Disk.Calm {} := fun _ _ => rfl
  have hrep : Replaceable {} ((⟨[]⟩ : Path) / name) ([] ++ [name]) := by
    rw [hdir]
    exact ⟨⟨htemp, by simp [hnone]⟩, ⟨hmanifest, by simp [hnone]⟩⟩
  obtain ⟨d', hon⟩ := exists_on_create range resolution id createdAt hleads hname hcalm
    (hnone _ (by simp)) hroom (by simp [hnone]) hrep
  have hmade := (create_spec range resolution id createdAt hleads hname (hnone _ (by simp))).result
  rw [hon] at hmade
  obtain ⟨hbeside, -, hheld⟩ := hmade
  rw [hdir] at hon hheld
  refine ⟨d', hon, hheld, hbeside.calm hcalm, fun file hfile => ⟨hfile, fun hnode => ?_⟩⟩
  exact (hbeside.made _ hnode).elim (by simp) (by simp [hnone])

end Index

end SeriesStore
