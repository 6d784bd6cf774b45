import SeriesStore.Proofs.Disk.Places
import SeriesStore.Proofs.Disk.Runs

/-!
# Files of one directory

What writing, moving and removing a file does in a directory that a path leads to. The directory
stays where it is, and only files in it change.
-/

namespace SeriesStore

open SeriesStore.Path SeriesStore.Tree

/-! ### Disks that differ in the files of a directory -/

/-- A disk that was the disk `d₀` before files in one directory changed. -/
structure Disk.Reached (d₀ : Disk) (p : Place) (d : Disk) : Prop where
  workDir : d.workDir = d₀.workDir
  faults : d.faults = d₀.faults
  tree : AlikeUpTo p d₀.tree d.tree

/-- A file can be put under a name in a directory. -/
structure Disk.Accepts (d : Disk) (dir : Path) (p : Place) (name : String) : Prop where
  hasRoom : dir.hasRoom name = true
  not_dir : d.tree.node? (p ++ [name]) ≠ some .dir

instance (d : Disk) (dir : Path) (p : Place) (name : String) : Decidable (d.Accepts dir p name) :=
  decidable_of_iff (dir.hasRoom name = true ∧ d.tree.node? (p ++ [name]) ≠ some .dir)
    ⟨fun h => ⟨h.1, h.2⟩, fun h => ⟨h.hasRoom, h.not_dir⟩⟩

/-- Whether a file can be put under a name depends on what stands there. -/
lemma Disk.accepts_congr {d d' : Disk} {dir : Path} {p : Place} {name : String}
    (h : d'.tree.node? (p ++ [name]) = d.tree.node? (p ++ [name])) :
    d'.Accepts dir p name ↔ d.Accepts dir p name :=
  ⟨fun ⟨hroom, hdir⟩ => ⟨hroom, h ▸ hdir⟩, fun ⟨hroom, hdir⟩ => ⟨hroom, h ▸ hdir⟩⟩

namespace Disk.Reached

variable {d₀ d d' : Disk} {dir : Path} {p : Place} {name : String}

protected lemma refl (d₀ : Disk) (p : Place) : d₀.Reached p d₀ := ⟨rfl, rfl, .refl p _⟩

protected lemma symm (h : d₀.Reached p d) : d.Reached p d₀ :=
  ⟨h.workDir.symm, h.faults.symm, h.tree.symm⟩

lemma trans (h : d₀.Reached p d) (h' : d.Reached p d') : d₀.Reached p d' where
  workDir := h'.workDir.trans h.workDir
  faults := h'.faults.trans h.faults
  tree := h.tree.trans h'.tree

lemma leadsTo (h : d₀.Reached p d) (hd : d₀.LeadsTo dir p) : d.LeadsTo dir p :=
  hd.of_dirs h.workDir fun q => (h.tree.dirs q).mpr

lemma accepts_iff (h : d₀.Reached p d) : d.Accepts dir p name ↔ d₀.Accepts dir p name :=
  ⟨fun ⟨hroom, hdir⟩ => ⟨hroom, h.tree.symm.node?_ne_dir hdir⟩,
    fun ⟨hroom, hdir⟩ => ⟨hroom, h.tree.node?_ne_dir hdir⟩⟩

lemma calm_iff (h : d₀.Reached p d) : d.Calm ↔ d₀.Calm := by
  rw [Disk.Calm, Disk.Calm, h.faults]

lemma after (h : d₀.Reached p d) {c : Change} {t : Tree} (ht : (d.after c).tree = t)
    (hfiles : AlikeUpTo p d.tree t) : d₀.Reached p (d.after c) where
  workDir := h.workDir
  faults := h.faults
  tree := ht ▸ h.tree.trans hfiles

end Disk.Reached

/-- A change that alters nothing but files of given names in a directory. Wherever it is cut off,
the tree keeps a property. -/
structure Change.Within (d₀ : Disk) (p : Place) (names : List String) (I : Tree → Prop) (d : Disk)
    (c : Change) : Prop where
  alters : ∀ q, c.Alters q → ∃ name ∈ names, q = p ++ [name]
  files : ∀ cut : Fault, AlikeUpTo p d₀.tree (cut.apply c d.tree)
  keeps : ∀ cut : Fault, I (cut.apply c d.tree)

/-- A change that happens as a whole or not at all cannot be cut off midway. -/
lemma Disk.Reached.within_of_whole {d₀ d : Disk} {p : Place} {names : List String}
    {I : Tree → Prop} {c : Change} (hr : d₀.Reached p d) (h : I d.tree)
    (hwhole : ∀ q content, c ≠ .write q content)
    (halters : ∀ q, c.Alters q → ∃ name ∈ names, q = p ++ [name]) :
    c.Within d₀ p names I d where
  alters := halters
  files _ := (Fault.apply_of_ne_write hwhole d.tree).symm ▸ hr.tree
  keeps _ := (Fault.apply_of_ne_write hwhole d.tree).symm ▸ h

/-! ### Single operations -/

/-- A file of a directory is read under its name. -/
lemma Disk.read_div {d : Disk} {dir : Path} {p : Place} {name : String} {content : Bytes}
    (hd : d.LeadsTo dir p) (hname : IsName name) (hroom : dir.hasRoom name = true)
    (hfile : d.tree.node? (p ++ [name]) = some (.file content)) :
    d.read (dir / name) = .ok content := by
  simp [Disk.read, Disk.locate_div hd hname, hroom, hfile]

namespace DiskM

variable {d₀ d : Disk} {dir : Path} {p : Place} {name : String} {names : List String}
  {I : Tree → Prop}

/-- A file is written in a single change, or nothing is tried at all. -/
lemma on_write_div (h : d.LeadsTo dir p) (hname : IsName name) (content : Bytes) :
    (write (dir / name) content).on d
      = if d.Accepts dir p name then (change (.write (p ++ [name]) content)).on d
        else (.error (.io .other), d) := by
  have hlocate := Disk.locateFile_div h hname
  by_cases hroom : dir.hasRoom name = true
  · rw [if_pos hroom] at hlocate
    rw [write, on_ask_bind_ok (·.locateFile _) hlocate, on_bind_ok (on_get d)]
    by_cases hdir : d.tree.node? (p ++ [name]) = some .dir
    · rw [if_pos hdir, if_neg fun hacc => hacc.not_dir hdir]
      rfl
    · rw [if_neg hdir, if_pos ⟨hroom, hdir⟩]
  · rw [if_neg hroom] at hlocate
    rw [write, on_ask_bind_error (·.locateFile _) hlocate, if_neg fun hacc => hroom hacc.hasRoom]

/-- A file is moved in a single change, or nothing is tried at all. -/
lemma on_rename_div (h : d.LeadsTo dir p) {source : String} (hsource : IsName source)
    (hname : IsName name) (hroom : dir.hasRoom source = true) {content : Bytes}
    (hfile : d.tree.node? (p ++ [source]) = some (.file content)) :
    (rename (dir / source) (dir / name)).on d
      = if d.Accepts dir p name then (change (.rename (p ++ [source]) (p ++ [name]))).on d
        else (.error (.io .other), d) := by
  have hlocate := Disk.locate_div h hsource
  have hlocate' := Disk.locateFile_div h hname
  rw [if_pos hroom] at hlocate
  rw [rename, on_ask_bind_ok (·.locate _) hlocate]
  by_cases hroom' : dir.hasRoom name = true
  · rw [if_pos hroom'] at hlocate'
    rw [on_ask_bind_ok (·.locateFile _) hlocate', on_bind_ok (on_get d)]
    by_cases hdir : d.tree.node? (p ++ [name]) = some .dir
    · have hacc : ¬d.Accepts dir p name := fun hacc => hacc.not_dir hdir
      simp [hfile, hdir, hacc, on_bind]
    · have hacc : d.Accepts dir p name := ⟨hroom', hdir⟩
      simp [hfile, hdir, hacc]
  · rw [if_neg hroom'] at hlocate'
    rw [on_ask_bind_error (·.locateFile _) hlocate', if_neg fun hacc => hroom' hacc.hasRoom]

lemma on_remove_of_locate {path : Path} {q : Place} (hlocate : d.locate path = .ok q) :
    (remove path).on d
      = (match d.tree.node? q with
        | none => fail .notFound
        | some .dir => fail .other
        | some (.file _) => change (.remove q)).on d := by
  rw [remove, on_ask_bind_ok (·.locate _) hlocate]
  exact on_bind_ok (on_get d)

/-- A file is removed in a single change, or nothing is tried at all. -/
lemma on_remove (path : Path) (d : Disk) : (∃ e, (remove path).on d = (.error e, d))
    ∨ ∃ q content, d.locate path = .ok q ∧ d.tree.node? q = some (.file content)
      ∧ (remove path).on d = (change (.remove q)).on d := by
  cases hlocate : d.locate path with
  | error e => exact .inl ⟨.io e, on_ask_bind_error (·.locate _) hlocate⟩
  | ok q =>
    have hremove := on_remove_of_locate hlocate
    cases hnode : d.tree.node? q with
    | none => exact .inl ⟨.io .notFound, by rw [hremove, hnode]; rfl⟩
    | some n =>
      cases n with
      | dir => exact .inl ⟨.io .other, by rw [hremove, hnode]; rfl⟩
      | file content => exact .inr ⟨q, content, rfl, hnode, by rw [hremove, hnode]⟩

/-- Writing a file changes no other file. It succeeds wherever a file can be put, unless the disk
fails. -/
lemma write_spec (hd : d₀.LeadsTo dir p) (hr : d₀.Reached p d) (hname : IsName name)
    (hmem : name ∈ names) (hI : Ignores I [p ++ [name]]) (h : I d.tree) (content : Bytes) :
    (write (dir / name) content).Spec d (fun d c => c.Within d₀ p names I d) fun r d' =>
      d₀.Reached p d' ∧ (∀ q, q ≠ p ++ [name] → d'.tree.node? q = d.tree.node? q)
        ∧ match r with
          | .ok _ => d₀.Accepts dir p name ∧ d'.tree.node? (p ++ [name]) = some (.file content)
          | .error e => e = .io .other ∧ (d₀.Calm → ¬d₀.Accepts dir p name) := by
  have hon := on_write_div (hr.leadsTo hd) hname content
  by_cases hacc : d.Accepts dir p name
  · rw [if_pos hacc] at hon
    -- however much of the contents arrives, only this file has changed
    have hcut (cut : Fault) :
        AlikeUpTo p d.tree (cut.apply (.write (p ++ [name]) content) d.tree) := by
      cases cut with
      | refused => exact .refl p _
      | cut n => exact .put_file hacc.not_dir _
    have hothers (q : Place) (hq : q ≠ p ++ [name]) :
        ¬(Change.write (p ++ [name]) content).Alters q := hq
    refine .of_on_eq hon (.change ?_ (fun _ htree => ?_) fun f hfaulty htree => ?_)
    · exact ⟨fun q hq => ⟨name, hmem, hq⟩, fun cut => hr.tree.trans (hcut cut),
        fun cut => hI _ _ (fun q hq => Fault.node?_apply (hothers q (by simpa using hq)) d.tree) h⟩
    · refine ⟨hr.after htree (.put_file hacc.not_dir content), fun q hq => ?_,
        hr.accepts_iff.mp hacc, ?_⟩
      · rw [htree]
        exact Change.node?_apply (hothers q hq) d.tree
      · rw [htree]
        exact node?_put_self (by simp)
    · refine ⟨hr.after htree (hcut f), fun q hq => ?_, rfl, fun hcalm => ?_⟩
      · rw [htree]
        exact Fault.node?_apply (hothers q hq) d.tree
      · exact absurd (hr.calm_iff.mpr hcalm) hfaulty
  · rw [if_neg hacc] at hon
    exact .of_on hon ⟨hr, fun _ _ => rfl, rfl, fun _ hacc' => hacc (hr.accepts_iff.mpr hacc')⟩

/-- Moving a file changes no third file. When it fails, nothing changes. -/
lemma rename_spec (hd : d₀.LeadsTo dir p) (hr : d₀.Reached p d) {source : String}
    (hsource : IsName source) (hname : IsName name) (hmem : source ∈ names) (hmem' : name ∈ names)
    (h : I d.tree) (hacc : d₀.Accepts dir p source) {content : Bytes}
    (hfile : d.tree.node? (p ++ [source]) = some (.file content)) :
    (rename (dir / source) (dir / name)).Spec d (fun d c => c.Within d₀ p names I d) fun r d' =>
      d₀.Reached p d' ∧ match r with
        | .ok _ => d₀.Accepts dir p name ∧ d'.tree.node? (p ++ [name]) = some (.file content)
          ∧ ∀ q, q ≠ p ++ [source] → q ≠ p ++ [name] → d'.tree.node? q = d.tree.node? q
        | .error e => d'.tree = d.tree ∧ e = .io .other ∧ (d₀.Calm → ¬d₀.Accepts dir p name) := by
  have hon := on_rename_div (hr.leadsTo hd) hsource hname hacc.hasRoom hfile
  by_cases hacc' : d.Accepts dir p name
  · rw [if_pos hacc'] at hon
    have happly : (Change.rename (p ++ [source]) (p ++ [name])).apply d.tree
        = (d.tree.erase (p ++ [source])).put (p ++ [name]) (.file content) := by
      simp [Change.apply, hfile]
    have herase : AlikeUpTo p d.tree (d.tree.erase (p ++ [source])) := .erase (by simp [hfile])
    refine .of_on_eq hon (.change_whole (by simp) (hr.within_of_whole h (by simp) ?_)
      (fun htree => ?_) fun hfaulty htree => ?_)
    · rintro q (rfl | rfl)
      · exact ⟨source, hmem, rfl⟩
      · exact ⟨name, hmem', rfl⟩
    · refine ⟨hr.after (htree.trans happly)
          (herase.trans (.put_file (herase.node?_ne_dir hacc'.not_dir) content)),
        hr.accepts_iff.mp hacc', ?_, fun q hq hq' => ?_⟩
      · rw [htree, happly, node?_put_self (by simp)]
      · rw [htree]
        exact Change.node?_apply (c := .rename _ _) (not_or.mpr ⟨hq, hq'⟩) d.tree
    · exact ⟨hr.after htree (.refl p _), htree, rfl,
        fun hcalm => absurd (hr.calm_iff.mpr hcalm) hfaulty⟩
  · rw [if_neg hacc'] at hon
    exact .of_on hon ⟨hr, rfl, rfl, fun _ h' => hacc' (hr.accepts_iff.mpr h')⟩

/-- Removing a file changes no other file. -/
lemma remove_spec (hd : d₀.LeadsTo dir p) (hr : d₀.Reached p d) (hname : IsName name)
    (hmem : name ∈ names) (h : I d.tree) :
    (remove (dir / name)).Spec d (fun d c => c.Within d₀ p names I d) fun _ d' =>
      d₀.Reached p d' ∧ ∀ q, q ≠ p ++ [name] → d'.tree.node? q = d.tree.node? q := by
  obtain ⟨e, hon⟩ | ⟨q, content, hlocate, hnode, hon⟩ := on_remove (dir / name) d
  · exact .of_on hon ⟨hr, fun _ _ => rfl⟩
  · obtain rfl : q = p ++ [name] := by
      rw [Disk.locate_div (hr.leadsTo hd) hname] at hlocate
      split_ifs at hlocate
      exact (Except.ok.inj hlocate).symm
    refine .of_on_eq hon (.change_whole (by simp)
      (hr.within_of_whole h (by simp) fun q hq => ⟨name, hmem, hq⟩) (fun htree => ?_)
      fun _ htree => ?_)
    · refine ⟨hr.after htree (.erase (by simp [hnode])), fun q hq => ?_⟩
      rw [htree]
      exact Change.node?_apply (c := .remove _) hq d.tree
    · exact ⟨hr.after htree (.refl p _), fun q _ => by rw [htree]⟩

end DiskM

end SeriesStore
