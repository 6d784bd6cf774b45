import SeriesStore.Proofs.Compaction.Merging
import SeriesStore.Proofs.Disk.Readings

/-!
# Gathering chunks

Before anything is written, all sources of a merge are checked and read. What comes after that is
the same as adding their chunks in order.
-/

namespace SeriesStore

open Index

namespace SizeTiered

variable {d d' : Disk} {sources sources' : List Index} {new new' out : Index}
  {entries : Index → List Entry} {es es' l l' : List Entry}

/-! ### Ties -/

/-- The same entries, but for the order of those that start together. -/
structure SameButTies (es es' : List Entry) : Prop where
  perm : es.Perm es'
  starts : es.map (·.min) = es'.map (·.min)

/-- In whatever order entries come, they are arranged in the same way but for ties. -/
lemma Arranges.sameButTies (h : Arranges es l) (h' : Arranges es' l') (hperm : es.Perm es') :
    SameButTies l l' := by
  have hsame : l.Perm l' := h.perm.trans (hperm.trans h'.perm.symm)
  refine ⟨hsame, (hsame.map _).eq_of_pairwise ?_ (List.pairwise_map.mpr h.sorted)
    (List.pairwise_map.mpr h'.sorted)⟩
  intro s t _ _ hst hts
  exact Int64.le_antisymm hst hts

/-! ### Sources -/

/-- There are sources, a destination covers them all, and all their chunks can be read. -/
structure Gathered (d : Disk) (sources : List Index) (new : Index)
    (entries : Index → List Entry) : Prop where
  ne : sources ≠ []
  covers : ∀ s ∈ sources, new.range.covers s.range = true
  read : ∀ s ∈ sources, (chunks s).on d = (.ok (entries s), d)

lemma compact_of_covers (hne : sources ≠ [])
    (hcovers : ∀ s ∈ sources, new.range.covers s.range = true) : compact sources new
      = sources.mapM chunks >>= fun groups => new.addChunks (byStart groups.flatten) := by
  have hempty : sources.isEmpty = false := List.isEmpty_eq_false_iff.mpr hne
  have hfind : (sources.find? fun ix => !new.range.covers ix.range) = none := by
    simpa [List.find?_eq_none] using hcovers
  simp only [compact, hempty, hfind, Bool.false_eq_true, if_false]

namespace Gathered

/-- What has been gathered is added in order. -/
lemma on_compact (h : Gathered d sources new entries) : (compact sources new).on d
    = (new.addChunks (byStart (sources.flatMap entries))).on d := by
  rw [compact_of_covers h.ne h.covers, DiskM.on_bind_ok (DiskM.on_mapM h.read), List.flatMap_def]

/-- Other disks, other orders and other destinations make no difference, as long as the same is read
and covered. -/
lemma of_perm (h : Gathered d sources new entries) (hperm : sources.Perm sources')
    (hrange : new.range = new'.range) (hagrees : ∀ s ∈ sources, (chunks s).Agrees d d') :
    Gathered d' sources' new' entries where
  ne := by
    rintro rfl
    exact h.ne hperm.eq_nil
  covers s hs := by
    rw [← hrange]
    exact h.covers s (hperm.mem_iff.mpr hs)
  read s hs := by
    have hmem := hperm.mem_iff.mpr hs
    exact (hagrees s hmem).on_right (h.read s hmem)

end Gathered

lemma on_compact_nil (new : Index) (d : Disk) :
    (compact [] new).on d = (.error (.invalidIndex .nothingToCompact), d) := rfl

/-- A source that is not covered is refused. -/
lemma on_compact_of_uncovered {s : Index} (hs : s ∈ sources)
    (huncovered : new.range.covers s.range = false) (d : Disk) :
    ∃ fault, (compact sources new).on d = (.error (.invalidIndex fault), d) := by
  have hempty : sources.isEmpty = false := List.isEmpty_eq_false_iff.mpr (List.ne_nil_of_mem hs)
  cases hfind : sources.find? fun ix => !new.range.covers ix.range with
  | none =>
    have hcovered := List.find?_eq_none.mp hfind s hs
    simp [huncovered] at hcovered
  | some ix =>
    refine ⟨.uncovered new.range ix.id ix.range, ?_⟩
    simp only [compact, hempty, hfind, Bool.false_eq_true, if_false]
    rfl

/-- A merge succeeds only if everything can be gathered. -/
lemma gathered_of_on_compact (h : (compact sources new).on d = (.ok out, d')) :
    ∃ entries, Gathered d sources new entries := by
  have hne : sources ≠ [] := by
    rintro rfl
    rw [on_compact_nil] at h
    cases h
  have hcovers : ∀ s ∈ sources, new.range.covers s.range = true := by
    intro s hs
    by_contra huncovered
    obtain ⟨fault, herror⟩ := on_compact_of_uncovered hs (by simpa using huncovered) d
    rw [herror] at h
    cases h
  rw [compact_of_covers hne hcovers] at h
  obtain ⟨groups, d₁, hgroups, -⟩ := DiskM.on_bind_eq_ok h
  obtain ⟨-, hread⟩ := DiskM.forall₂_of_on_mapM (fun s _ d₂ hchunks => by
    have hsame := snd_on_entriesOf s.segments d
    rw [← chunks, hchunks] at hsame
    exact hsame.symm) hgroups
  have hread' (s : Index) (hs : s ∈ sources) : ∃ es, (chunks s).on d = (.ok es, d) :=
    DiskM.exists_of_forall₂ hread hs
  choose! entries hentries using hread'
  exact ⟨entries, hne, hcovers, hentries⟩

end SizeTiered

end SeriesStore
