import SeriesStore.Proofs.Disk.Runs

/-!
# Failures that are not met

Whether a change fails is asked when it is tried, and at no other time. What never removes a
directory therefore goes the same way on a disk that refuses to remove some.
-/

namespace SeriesStore

/-- A change that takes away a directory, or what is in it. -/
def Change.Removes : Change → Prop
  | removeAll _ | clear _ => True
  | _ => False

/-- The same disk, where changes fail in other ways from now on. -/
def Disk.failing (d : Disk) (g : Nat → Change → Option Fault) : Disk := { d with faults := g }

namespace DiskM

variable {α β : Type}

/-- A computation that does not care whether directories can be removed. -/
structure Heedless (f : DiskM α) : Prop where
  faults : ∀ d, (f.on d).2.faults = d.faults
  on : ∀ d g, (∀ n c, ¬c.Removes → g n c = d.faults n c) →
    f.on (d.failing g) = ((f.on d).1, (f.on d).2.failing g)

namespace Heedless

/-! ### Parts of computations -/

/-- What only looks at the disk does not care, unless it looks at the failures themselves. -/
lemma of_reading {f : DiskM α} {r : Disk → Except StorageError α} (h : ∀ d, f.on d = (r d, d))
    (hr : ∀ d g, r (d.failing g) = r d) : Heedless f where
  faults d := by rw [h]
  on d g _ := by rw [h, h, hr]

lemma pure (a : α) : Heedless (Pure.pure a) := .of_reading (fun _ => rfl) fun _ _ => rfl

lemma throw (e : StorageError) : Heedless (throw e : DiskM α) :=
  .of_reading (fun _ => rfl) fun _ _ => rfl

lemma ofExcept (r : Except StorageError α) : Heedless (DiskM.ofExcept r) :=
  .of_reading (fun _ => rfl) fun _ _ => rfl

lemma ask {f : Disk → Except IoError α} (h : ∀ d g, f (d.failing g) = f d) :
    Heedless (DiskM.ask f) := by
  refine .of_reading (r := fun d => (f d).mapError .io) ?_ ?_
  · intro d
    rw [on_ask]
    cases f d <;> rfl
  · intro d g
    simp only [h]

lemma bind {f : DiskM α} {k : α → DiskM β} (hf : Heedless f) (hk : ∀ a, Heedless (k a)) :
    Heedless (f >>= k) where
  faults d := by
    have hfaults := hf.faults d
    rw [on_bind]
    rcases hon : f.on d with ⟨e | a, d'⟩ <;> rw [hon] at hfaults
    · exact hfaults
    · exact ((hk a).faults d').trans hfaults
  on d g hg := by
    have hfaults := hf.faults d
    have hsame := hf.on d g hg
    rw [on_bind, on_bind]
    rcases hon : f.on d with ⟨e | a, d'⟩ <;> rw [hon] at hfaults hsame <;> rw [hsame]
    exact (hk a).on d' g (by rwa [hfaults])

/-- What is done next may depend on what the disk holds. -/
lemma bind_get {k : Disk → DiskM α} (hk : ∀ d, Heedless (k d))
    (hsame : ∀ d g, k (d.failing g) = k d) : Heedless (get >>= k) where
  faults d := by
    rw [on_bind_ok (on_get d)]
    exact (hk d).faults d
  on d g hg := by
    rw [on_bind_ok (on_get d), on_bind_ok (on_get _), hsame]
    exact (hk d).on d g hg

lemma tryCatch {f : DiskM α} {k : StorageError → DiskM α} (hf : Heedless f)
    (hk : ∀ e, Heedless (k e)) : Heedless (tryCatch f k) where
  faults d := by
    have hfaults := hf.faults d
    rw [on_tryCatch]
    rcases hon : f.on d with ⟨e | a, d'⟩ <;> rw [hon] at hfaults
    · exact ((hk e).faults d').trans hfaults
    · exact hfaults
  on d g hg := by
    have hfaults := hf.faults d
    have hsame := hf.on d g hg
    rw [on_tryCatch, on_tryCatch]
    rcases hon : f.on d with ⟨e | a, d'⟩ <;> rw [hon] at hfaults hsame <;> rw [hsame]
    exact (hk e).on d' g (by rwa [hfaults])

lemma attempt {f : DiskM Unit} (hf : Heedless f) : Heedless (attempt f) :=
  hf.tryCatch fun _ => pure ()

lemma mapM {f : α → DiskM β} (hf : ∀ a, Heedless (f a)) (xs : List α) : Heedless (xs.mapM f) := by
  induction xs with
  | nil => exact pure []
  | cons x xs ih =>
    rw [List.mapM_cons]
    exact (hf x).bind fun y => ih.bind fun ys => pure (y :: ys)

/-- Of changes, only the removals of directories are met by the failures in question. -/
lemma change {c : Change} (hc : ¬c.Removes) : Heedless (change c) where
  faults d := by rw [on_change]; rfl
  on d g hg := by
    have hsame : (d.failing g).faults (d.failing g).tried.length c
      = d.faults d.tried.length c := hg _ c hc
    rw [on_change, on_change, hsame]
    refine Prod.ext rfl ?_
    simp only [Disk.after, hsame]
    rfl

/-! ### Files and directories -/

lemma read (path : Path) : Heedless (DiskM.read path) := ask fun _ _ => rfl

lemma write (path : Path) (content : Bytes) : Heedless (DiskM.write path content) := by
  refine (ask fun _ _ => rfl).bind ?_
  intro p
  refine bind_get ?_ fun _ _ => rfl
  intro d
  split_ifs
  · exact throw _
  · exact change id

lemma rename (source target : Path) : Heedless (DiskM.rename source target) := by
  refine (ask fun _ _ => rfl).bind fun p => (ask fun _ _ => rfl).bind fun q => ?_
  refine bind_get ?_ fun _ _ => rfl
  intro d
  have hchange : Heedless (DiskM.change (.rename p q)) := change id
  dsimp only
  split_ifs
  · exact (throw _).bind fun _ => (throw _).bind fun _ => hchange
  · exact (throw _).bind fun _ => hchange
  · exact (throw _).bind fun _ => hchange
  · exact hchange

lemma remove (path : Path) : Heedless (DiskM.remove path) := by
  refine (ask fun _ _ => rfl).bind fun p => bind_get ?_ fun _ _ => rfl
  intro d
  rcases d.tree.node? p with _ | _ | _
  · exact throw _
  · exact change id
  · exact throw _

lemma makeDirsFrom (p : Place) (parts : List String) : Heedless (DiskM.makeDirsFrom p parts) := by
  induction parts generalizing p with
  | nil => exact pure ()
  | cons part parts ih =>
    rw [DiskM.makeDirsFrom]
    refine bind_get ?_ fun _ _ => rfl
    intro d
    cases Disk.step d.tree p part with
    | error e => exact throw _
    | ok q =>
      refine bind_get ?_ fun _ _ => rfl
      intro d
      rcases d.tree.node? q with _ | _ | _
      · exact (change id).bind fun _ => ih q
      · exact (throw _).bind fun _ => ih q
      · exact ih q

lemma makeDirs (path : Path) : Heedless (DiskM.makeDirs path) := by
  refine (ask fun _ _ => rfl).bind ?_
  intro p
  split_ifs
  · exact (makeDirsFrom p _).bind fun _ => (ask fun _ _ => rfl).bind fun _ => pure ()
  · exact makeDirsFrom p _

end Heedless

end DiskM

end SeriesStore
