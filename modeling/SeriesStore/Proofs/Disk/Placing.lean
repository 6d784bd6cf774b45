import SeriesStore.Proofs.Disk.Places
import SeriesStore.Proofs.Disk.Runs

/-!
# Files put into place

A file that has been written under one path and then moved to another is found there, wherever the
two paths lead and whatever stood there before.
-/

namespace SeriesStore

open SeriesStore.Tree

namespace Tree

variable {t : Tree} {p q : Place}

lemma ne_nil_of_not_dir (h : t.node? p ≠ some .dir) : p ≠ [] := by
  rintro rfl
  exact h rfl

/-- A file takes the place of no directory. -/
lemma dirs_put_file (h : t.node? p ≠ some .dir) (content : Bytes) (q : Place)
    (hq : t.node? q = some .dir) : (t.put p (.file content)).node? q = some .dir := by
  have hne : q ≠ p := by
    rintro rfl
    exact h hq
  rw [node?_put_of_ne hne, hq]

lemma dirs_erase (h : t.node? p ≠ some .dir) (q : Place) (hq : t.node? q = some .dir) :
    (t.erase p).node? q = some .dir := by
  have hne : q ≠ p := by
    rintro rfl
    exact h hq
  rw [node?_erase_of_ne hne, hq]

end Tree

namespace DiskM

variable {d d' d'' : Disk} {path source target : Path} {content : Bytes}

/-- A question to the disk that is answered leaves the disk as it is. -/
lemma of_on_ask_bind {α β : Type} {f : Disk → Except IoError α} {g : α → DiskM β} {b : β}
    (h : (ask f >>= g).on d = (.ok b, d')) : ∃ a, f d = .ok a ∧ (g a).on d = (.ok b, d') := by
  cases hask : f d with
  | error e =>
    rw [on_ask_bind_error f hask] at h
    cases h
  | ok a =>
    rw [on_ask_bind_ok f hask] at h
    exact ⟨a, rfl, h⟩

/-- A computation whose failures are passed on succeeds only by itself. -/
lemma of_on_tryCatch {α : Type} {f : DiskM α} {g : StorageError → DiskM α} {a : α}
    (hfail : ∀ e d d', (g e).on d ≠ (.ok a, d')) (h : (tryCatch f g).on d = (.ok a, d')) :
    f.on d = (.ok a, d') := by
  rw [on_tryCatch] at h
  rcases hf : f.on d with ⟨e | b, d₁⟩
  · rw [hf] at h
    exact absurd h (hfail e d₁ d')
  · rw [hf] at h
    exact h

/-- A change that succeeds has happened as a whole. -/
lemma of_on_change {c : Change} (h : (change c).on d = (.ok (), d')) :
    d'.workDir = d.workDir ∧ d'.tree = c.apply d.tree := by
  rw [on_change] at h
  obtain ⟨hok, rfl⟩ := Prod.mk.inj h
  refine ⟨rfl, ?_⟩
  cases hfault : d.faults d.tried.length c with
  | none => simp [Disk.after, hfault]
  | some f => simp [hfault] at hok

/-- What is known when a file has been written. -/
lemma of_on_write (h : (write path content).on d = (.ok (), d')) :
    ∃ p, d.locateFile path = .ok p ∧ d.tree.node? p ≠ some .dir ∧ d'.workDir = d.workDir
      ∧ d'.tree = d.tree.put p (.file content) := by
  obtain ⟨p, hlocate, h⟩ := of_on_ask_bind h
  rw [on_bind_ok (on_get d)] at h
  by_cases hdir : d.tree.node? p = some .dir
  · rw [if_pos hdir] at h
    cases h
  · rw [if_neg hdir] at h
    obtain ⟨hwork, htree⟩ := of_on_change h
    exact ⟨p, hlocate, hdir, hwork, htree⟩

/-- What is known when a file has been moved. -/
lemma of_on_rename (h : (rename source target).on d = (.ok (), d')) :
    ∃ p q, d.locate source = .ok p ∧ d.locateFile target = .ok q ∧ d.tree.node? p ≠ some .dir
      ∧ d.tree.node? q ≠ some .dir ∧ d'.workDir = d.workDir
      ∧ d'.tree = (Change.rename p q).apply d.tree := by
  obtain ⟨p, hlocate, h⟩ := of_on_ask_bind h
  obtain ⟨q, hlocate', h⟩ := of_on_ask_bind h
  rw [on_bind_ok (on_get d)] at h
  by_cases hnone : d.tree.node? p = none
  · rw [if_pos hnone] at h
    cases h
  · rw [if_neg hnone] at h
    by_cases hdir : d.tree.node? p = some .dir ∨ d.tree.node? q = some .dir
    · simp only [if_pos hdir] at h
      cases h
    · simp only [if_neg hdir] at h
      obtain ⟨hp, hq⟩ := not_or.mp hdir
      obtain ⟨hwork, htree⟩ := of_on_change h
      exact ⟨p, q, hlocate, hlocate', hp, hq, hwork, htree⟩

/-- A file that has been written and moved into place is read from there. -/
theorem read_of_on_rename (hwrite : (write source content).on d = (.ok (), d'))
    (hrename : (rename source target).on d' = (.ok (), d'')) : d''.read target = .ok content := by
  obtain ⟨p, hlocate, hp, hwork, htree⟩ := of_on_write hwrite
  obtain ⟨p', q, hlocate', htarget, hp', hq, hwork', htree'⟩ := of_on_rename hrename
  have hdirs : ∀ r, d.tree.node? r = some .dir → d'.tree.node? r = some .dir := by
    rw [htree]
    exact dirs_put_file hp content
  -- the path of the file still leads to where it was written
  have hsame : p' = p := by
    have hstill := Disk.locate_of_dirs hwork hdirs (Disk.locate_of_locateFile hlocate)
    exact (Except.ok.inj (hstill.symm.trans hlocate')).symm
  subst hsame
  have hfile : d'.tree.node? p' = some (.file content) := by
    rw [htree, node?_put_self (ne_nil_of_not_dir hp)]
  have happly : d''.tree = (d'.tree.erase p').put q (.file content) := by
    rw [htree', Change.apply, hfile]
  have herased : (d'.tree.erase p').node? q ≠ some .dir := by
    by_cases hqp : q = p'
    · rw [hqp, node?_erase_self (ne_nil_of_not_dir hp)]
      simp
    · rwa [node?_erase_of_ne hqp]
  have hfound : d''.locate target = .ok q := by
    refine Disk.locate_of_dirs hwork' ?_ (Disk.locate_of_locateFile htarget)
    intro r hr
    rw [happly]
    exact dirs_put_file herased content r (dirs_erase hp' r hr)
  rw [Disk.read, hfound, happly]
  simp only [node?_put_self (ne_nil_of_not_dir hq)]

end DiskM

end SeriesStore
