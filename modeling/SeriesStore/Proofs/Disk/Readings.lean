import SeriesStore.Index.Basic
import SeriesStore.Proofs.Disk.Subdirectories

/-!
# Readings

A computation that only reads has the same result on two disks that agree on what it reads, and it
changes neither. Two disks agree under a path if they agree on the directories on the way to it and
on what stands at its end.
-/

namespace SeriesStore

open SeriesStore.Path SeriesStore.Tree

/-! ### Computations that read -/

namespace DiskM

variable {α β : Type} {d d' : Disk}

/-- A computation has the same result on two disks, and changes neither of them. -/
def Agrees (f : DiskM α) (d d' : Disk) : Prop := ∃ r, f.on d = (r, d) ∧ f.on d' = (r, d')

namespace Agrees

lemma pure (a : α) : Agrees (Pure.pure a) d d' := ⟨.ok a, rfl, rfl⟩

lemma ofExcept (r : Except StorageError α) : Agrees (DiskM.ofExcept r) d d' := ⟨r, rfl, rfl⟩

lemma of_on_eq {f g : DiskM α} (h : f.on d = g.on d) (h' : f.on d' = g.on d')
    (hg : Agrees g d d') : Agrees f d d' := by
  obtain ⟨r, hr, hr'⟩ := hg
  exact ⟨r, h.trans hr, h'.trans hr'⟩

/-- The second part need agree only on what the first part gives. -/
lemma bind {f : DiskM α} {g : α → DiskM β} (hf : Agrees f d d')
    (hg : ∀ a, f.on d = (.ok a, d) → Agrees (g a) d d') : Agrees (f >>= g) d d' := by
  obtain ⟨r, hr, hr'⟩ := hf
  cases r with
  | error e => exact ⟨.error e, on_bind_error hr, on_bind_error hr'⟩
  | ok a => exact (hg a hr).of_on_eq (on_bind_ok hr) (on_bind_ok hr')

lemma tryCatch {f : DiskM α} {g : StorageError → DiskM α} (hf : Agrees f d d')
    (hg : ∀ e, Agrees (g e) d d') : Agrees (tryCatch f g) d d' := by
  obtain ⟨r, hr, hr'⟩ := hf
  cases r with
  | error e => exact (hg e).of_on_eq (by rw [on_tryCatch, hr]) (by rw [on_tryCatch, hr'])
  | ok a => exact ⟨.ok a, by rw [on_tryCatch, hr], by rw [on_tryCatch, hr']⟩

lemma ask {f : Disk → Except IoError α} (h : f d' = f d) : Agrees (DiskM.ask f) d d' := by
  cases hf : f d with
  | error e => exact ⟨.error (.io e), by rw [on_ask, hf], by rw [on_ask, h, hf]⟩
  | ok a => exact ⟨.ok a, by rw [on_ask, hf], by rw [on_ask, h, hf]⟩

lemma mapM {f : α → DiskM β} {xs : List α} (h : ∀ x ∈ xs, Agrees (f x) d d') :
    Agrees (xs.mapM f) d d' := by
  induction xs with
  | nil => exact pure []
  | cons x xs ih =>
    rw [List.mapM_cons]
    exact (h x List.mem_cons_self).bind fun y _ =>
      (ih fun x' hx' => h x' (List.mem_cons_of_mem _ hx')).bind fun ys _ => pure (y :: ys)

variable {f : DiskM α}

lemma snd_eq (h : Agrees f d d') : (f.on d).2 = d := by
  obtain ⟨r, hr, -⟩ := h
  rw [hr]

/-- The result on one disk is the result on the other. -/
lemma on_right (h : Agrees f d d') {r : Except StorageError α} {d₁ : Disk}
    (hon : f.on d = (r, d₁)) : f.on d' = (r, d') := by
  obtain ⟨r', hr, hr'⟩ := h
  rw [hr] at hon
  rw [hr', (Prod.mk.inj hon).1]

end Agrees

end DiskM

/-! ### Paths that are followed alike -/

namespace Disk

variable {d d' : Disk} {dir : Path} {p q : Place} {name : String}

/-- The same is read under a name where the same stands. -/
lemma read_div_eq (h : d.LeadsTo dir p) (h' : d'.LeadsTo dir p) (hname : IsName name)
    (hsame : d'.tree.node? (p ++ [name]) = d.tree.node? (p ++ [name])) :
    d'.read (dir / name) = d.read (dir / name) := by
  rw [read, read, locate_div h hname, locate_div h' hname]
  split_ifs
  · simp only [hsame]
  · rfl

lemma readText_div_eq (h : d.LeadsTo dir p) (h' : d'.LeadsTo dir p) (hname : IsName name)
    (hsame : d'.tree.node? (p ++ [name]) = d.tree.node? (p ++ [name])) :
    d'.readText (dir / name) = d.readText (dir / name) := by
  rw [readText, readText, read_div_eq h h' hname hsame]

end Disk

/-! ### Segments and indexes -/

namespace Segment

open DiskM

variable {d d' : Disk} {path : Path} {s : Segment}

lemma agrees_open (h : d'.read path = d.read path) : (Segment.open path).Agrees d d' :=
  (Agrees.ask h).bind fun _ _ => (Agrees.ofExcept _).bind fun _ _ => .pure _

lemma agrees_entries (h : d'.read s.path = d.read s.path) : (entries s).Agrees d d' :=
  (Agrees.ask h).bind fun _ _ => .ofExcept _

end Segment

namespace Index

open DiskM

variable {d d' : Disk} {dir : Path} {ix : Index} {segments : List Segment}

/-- What an index is opened as depends on its manifest and on how the files open that it lists. -/
lemma agrees_open (h : d'.readText (dir / manifestName) = d.readText (dir / manifestName))
    (hfiles : ∀ text m, d.readText (dir / manifestName) = .ok text → Manifest.ofText? text = .ok m →
      ∀ name ∈ m.segments, (Segment.open (dir / name)).Agrees d d') :
    (Index.open dir).Agrees d d' := by
  refine (Agrees.ask h).bind fun text htext => (Agrees.ofExcept _).bind fun m hm => ?_
  refine (Agrees.mapM fun name hname => ?_).bind fun _ _ => .pure _
  rw [on_ask] at htext
  split at htext
  · next hread =>
    cases htext
    exact hfiles text m hread (Prod.mk.inj hm).1 name hname
  · cases htext

lemma agrees_entriesOf (h : ∀ s ∈ segments, d'.read s.path = d.read s.path) :
    (entriesOf segments).Agrees d d' :=
  (Agrees.mapM fun s hs => Segment.agrees_entries (h s hs)).bind fun _ _ => .pure _

/-- Chunks are read from the files of the segments, and from nothing else. -/
lemma agrees_chunks (h : ∀ s ∈ ix.segments, d'.read s.path = d.read s.path) :
    (chunks ix).Agrees d d' := agrees_entriesOf h

/-- Reading chunks changes nothing. -/
lemma snd_on_entriesOf (segments : List Segment) (d : Disk) :
    ((entriesOf segments).on d).2 = d := by
  have hagrees : (entriesOf segments).Agrees d d := agrees_entriesOf fun _ _ => rfl
  exact hagrees.snd_eq

end Index

end SeriesStore
