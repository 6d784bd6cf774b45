import SeriesStore.Proofs.Disk.Directory
import SeriesStore.Proofs.Disk.Placing

/-!
# Footprints

The footprint of a computation is the set of places at which it changes files. What a path leads
to outside of the footprint is read as before, wherever the path leads.
-/

namespace SeriesStore

open SeriesStore.Path SeriesStore.Tree

/-! ### Disks that differ in files -/

/-- A disk that was the disk `d` before files at some places changed. -/
structure Disk.ChangedAt (d : Disk) (qs : Set Place) (d' : Disk) : Prop where
  workDir : d'.workDir = d.workDir
  faults : d'.faults = d.faults
  dirs : ∀ q, d'.tree.node? q = some .dir ↔ d.tree.node? q = some .dir
  others : ∀ q ∉ qs, d'.tree.node? q = d.tree.node? q

/-- Two paths lead to the same place. -/
def Disk.Meets (d : Disk) (path path' : Path) : Prop :=
  ∃ q, d.locate path = .ok q ∧ d.locate path' = .ok q

namespace Disk.ChangedAt

variable {d d' d'' : Disk} {qs qs' : Set Place} {dir path : Path} {p q : Place}

protected lemma refl (d : Disk) (qs : Set Place) : d.ChangedAt qs d :=
  ⟨rfl, rfl, fun _ => .rfl, fun _ _ => rfl⟩

lemma trans (h : d.ChangedAt qs d') (h' : d'.ChangedAt qs d'') : d.ChangedAt qs d'' where
  workDir := h'.workDir.trans h.workDir
  faults := h'.faults.trans h.faults
  dirs q := (h'.dirs q).trans (h.dirs q)
  others q hq := (h'.others q hq).trans (h.others q hq)

lemma mono (h : d.ChangedAt qs d') (hqs : qs ⊆ qs') : d.ChangedAt qs' d' where
  workDir := h.workDir
  faults := h.faults
  dirs := h.dirs
  others q hq := h.others q fun hmem => hq (hqs hmem)

lemma of_reached (h : d.Reached p d') (hothers : ∀ q ∉ qs, d'.tree.node? q = d.tree.node? q) :
    d.ChangedAt qs d' := ⟨h.workDir, h.faults, h.tree.dirs, hothers⟩

lemma leadsTo (h : d.ChangedAt qs d') (hd : d.LeadsTo dir p) : d'.LeadsTo dir p :=
  hd.of_dirs h.workDir fun q => (h.dirs q).mpr

lemma calm (h : d.ChangedAt qs d') (hcalm : d.Calm) : d'.Calm := by
  intro n c
  rw [h.faults, hcalm n c]

/-- Paths lead where they did. -/
lemma locate_eq_ok_iff (h : d.ChangedAt qs d') : d'.locate path = .ok q ↔ d.locate path = .ok q :=
  ⟨locate_of_dirs h.workDir.symm fun q => (h.dirs q).mp,
    locate_of_dirs h.workDir fun q => (h.dirs q).mpr⟩

/-- Outside of the footprint, files are read as before. -/
lemma read_eq (h : d.ChangedAt qs d') (hlocate : d.locate path = .ok q) (hq : q ∉ qs) :
    d'.read path = d.read path := by
  rw [read, read, h.locate_eq_ok_iff.mpr hlocate, hlocate]
  simp only [h.others q hq]

end Disk.ChangedAt

lemma Disk.locate_of_read {d : Disk} {path : Path} {content : Bytes}
    (h : d.read path = .ok content) :
    ∃ q, d.locate path = .ok q ∧ d.tree.node? q = some (.file content) := by
  unfold read at h
  split at h
  · cases h
  · next q hlocate =>
    refine ⟨q, hlocate, ?_⟩
    cases hnode : d.tree.node? q with
    | none => simp [hnode] at h
    | some n =>
      cases n with
      | dir => simp [hnode] at h
      | file content' =>
        simp only [hnode] at h
        rw [Except.ok.inj h]

lemma Disk.read_of_readText {d : Disk} {path : Path} {text : String}
    (h : d.readText path = .ok text) :
    ∃ content, d.read path = .ok content ∧ content.toText? = some text := by
  unfold readText at h
  split at h
  · cases h
  · next content hread =>
    refine ⟨content, hread, ?_⟩
    cases htext : content.toText? with
    | none => simp [htext] at h
    | some text' =>
      simp only [htext] at h
      rw [Except.ok.inj h]

/-! ### Removing -/

namespace DiskM

variable {d : Disk} {path : Path}

lemma changedAt_remove {p : Place} {content : Bytes} (h : d.tree.node? p = some (.file content))
    {d' : Disk} (hwork : d'.workDir = d.workDir) (hfaults : d'.faults = d.faults)
    (htree : d'.tree = d.tree.erase p) : d.ChangedAt {p} d' where
  workDir := hwork
  faults := hfaults
  dirs q := by
    rw [htree]
    by_cases hq : q = p
    · subst hq
      have hne : q ≠ [] := ne_nil_of_not_dir (t := d.tree) (by simp [h])
      simp [node?_erase_self hne, h]
    · rw [node?_erase_of_ne hq]
  others q hq := by
    rw [htree]
    exact node?_erase_of_ne hq

/-- Removing a file changes no other file, wherever the path leads. -/
lemma remove_changes (path : Path) (d : Disk) : (remove path).Spec d (fun _ _ => True) fun _ d' =>
    d.ChangedAt {q | d.locate path = .ok q} d' := by
  obtain ⟨e, hon⟩ | ⟨p, content, hlocate, hnode, hon⟩ := on_remove path d
  · exact .of_on hon (.refl d _)
  · have hp : {p} ⊆ {q | d.locate path = .ok q} := by
      rintro q rfl
      exact hlocate
    refine .of_on_eq hon (.change_whole (by simp) trivial (fun htree => ?_) fun _ htree => ?_)
    · have hchanged : d.ChangedAt {p} (d.after (.remove p)) := changedAt_remove hnode rfl rfl htree
      exact hchanged.mono hp
    · exact ⟨rfl, rfl, fun q => by rw [htree], fun q _ => by rw [htree]⟩

/-- Removing files as far as possible changes no other file. -/
lemma removeEach_changes {α : Type} (path : α → Path) (xs : List α) (d : Disk) :
    (xs.forM fun x => attempt (remove (path x))).Spec d (fun _ _ => True) fun r d' =>
      r = .ok () ∧ d.ChangedAt {q | ∃ x ∈ xs, d.locate (path x) = .ok q} d' := by
  induction xs generalizing d with
  | nil => exact .of_on (r := .ok ()) rfl ⟨rfl, .refl d _⟩
  | cons x xs ih =>
    rw [List.forM]
    refine ((remove_changes (path x) d).attempt (R := fun r d' => r = .ok ()
      ∧ d.ChangedAt {q | d.locate (path x) = .ok q} d') fun _ d' h => ⟨rfl, h⟩).bind
      (fun _ d' ⟨_, hfirst⟩ => ?_) fun _ _ ⟨hok, _⟩ => (nomatch hok)
    refine (ih d').post fun r d'' ⟨hok, hrest⟩ => ⟨hok, ?_⟩
    refine (hfirst.mono fun q hq => ?_).trans (hrest.mono fun q hq => ?_)
    · exact ⟨x, List.mem_cons_self, hq⟩
    · obtain ⟨y, hmem, hlocate⟩ := hq
      exact ⟨y, List.mem_cons_of_mem _ hmem, hfirst.locate_eq_ok_iff.mp hlocate⟩

/-- Where nothing fails, the first file is gone when several have been removed. -/
lemma gone_of_removeEach {α : Type} (path : α → Path) {x : α} {xs : List α} {d' : Disk} {q : Place}
    {content : Bytes} (hcalm : d.Calm) (hlocate : d.locate (path x) = .ok q)
    (hfile : d.tree.node? q = some (.file content)) (hothers : ∀ y ∈ xs, d.locate (path y) ≠ .ok q)
    (h : ((x :: xs).forM fun x => attempt (remove (path x))).on d = (.ok (), d')) :
    d'.tree.node? q = none := by
  have hremove : (remove (path x)).on d = (.ok (), d.after (.remove q)) := by
    rw [on_remove_of_locate hlocate, hfile, on_change, hcalm]
  have hattempt : (attempt (remove (path x))).on d = (.ok (), d.after (.remove q)) := by
    rw [attempt]
    exact (on_tryCatch _ _ d).trans (by rw [hremove])
  have htree : (d.after (.remove q)).tree = d.tree.erase q := by
    simp [Disk.after, hcalm _ _, Change.apply]
  have hchanged : d.ChangedAt {q} (d.after (.remove q)) := changedAt_remove hfile rfl rfl htree
  rw [List.forM, on_bind_ok hattempt] at h
  have hrest := (removeEach_changes path xs (d.after (.remove q))).result
  rw [h] at hrest
  rw [hrest.2.others q, htree, node?_erase_self (ne_nil_of_not_dir (t := d.tree) (by simp [hfile]))]
  rintro ⟨y, hy, hlocate'⟩
  exact hothers y hy (hchanged.locate_eq_ok_iff.mp hlocate')

end DiskM

end SeriesStore
