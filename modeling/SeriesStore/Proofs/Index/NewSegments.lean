import SeriesStore.Proofs.Disk.Readings
import SeriesStore.Proofs.Index.Reopening

/-!
# New segments of any open index

Whatever path an open index has, and wherever this leads: a segment that fits its file can only fail
to be added by an error of the disk, and once it has been added, nothing but its entries can be read
from it.
-/

namespace SeriesStore

open SeriesStore.Path SeriesStore.Tree

/-! ### Errors of the disk -/

namespace DiskM

variable {α β : Type} {f : DiskM α}

/-- The only errors of a computation are errors of the disk. -/
def FailsByIo (f : DiskM α) : Prop := ∀ d e d', f.on d = (.error e, d') → ∃ io, e = .io io

namespace FailsByIo

lemma pure (a : α) : FailsByIo (Pure.pure a) := by
  intro d e d' h
  cases h

lemma get : FailsByIo (MonadState.get : DiskM Disk) := by
  intro d e d' h
  cases h

lemma fail (e : IoError) : FailsByIo (DiskM.fail e : DiskM α) := by
  intro d e' d' h
  cases h
  exact ⟨e, rfl⟩

lemma throw (e : IoError) : FailsByIo (throw (.io e) : DiskM α) := fail e

lemma ask (f : Disk → Except IoError α) : FailsByIo (DiskM.ask f) := by
  intro d e d' h
  rw [on_ask] at h
  split at h
  · cases h
  · cases h
    exact ⟨_, rfl⟩

lemma change (c : Change) : FailsByIo (DiskM.change c) := by
  intro d e d' h
  rw [on_change] at h
  split at h
  · cases h
  · cases h
    exact ⟨_, rfl⟩

/-- The second part need fail by the disk only where the first part succeeds. -/
lemma bind {g : α → DiskM β} (hf : FailsByIo f)
    (hg : ∀ a d d', f.on d = (.ok a, d') → FailsByIo (g a)) : FailsByIo (f >>= g) := by
  intro d e d' h
  rcases hon : f.on d with ⟨e' | a, d₁⟩
  · rw [on_bind_error hon] at h
    cases h
    exact hf d e _ hon
  · rw [on_bind_ok hon] at h
    exact hg a d d₁ hon d₁ e d' h

lemma tryCatch {g : StorageError → DiskM α} (hf : FailsByIo f)
    (hg : ∀ io, FailsByIo (g (.io io))) : FailsByIo (tryCatch f g) := by
  intro d e d' h
  rw [on_tryCatch] at h
  rcases hon : f.on d with ⟨e' | a, d₁⟩
  · obtain ⟨io, rfl⟩ := hf d e' d₁ hon
    rw [hon] at h
    exact hg io d₁ e d' h
  · rw [hon] at h
    cases h

lemma attempt (f : DiskM Unit) : FailsByIo (DiskM.attempt f) := by
  intro d e d' h
  rw [DiskM.attempt, on_tryCatch] at h
  split at h <;> cases h

lemma write (path : Path) (content : Bytes) : FailsByIo (DiskM.write path content) := by
  refine (ask _).bind fun p _ _ _ => get.bind fun d _ _ _ => ?_
  dsimp only
  split_ifs
  · exact (fail _).bind fun _ _ _ _ => change _
  · exact change _

lemma rename (source target : Path) : FailsByIo (DiskM.rename source target) := by
  refine (ask _).bind fun p _ _ _ => (ask _).bind fun q _ _ _ => get.bind fun d _ _ _ => ?_
  have hmove : FailsByIo (DiskM.change (.rename p q)) := change _
  dsimp only
  split_ifs
  · exact (fail _).bind fun _ _ _ _ => (fail _).bind fun _ _ _ _ => hmove
  · exact (fail _).bind fun _ _ _ _ => hmove
  · exact (fail _).bind fun _ _ _ _ => hmove
  · exact hmove

end FailsByIo

end DiskM

/-! ### Writing -/

namespace Segment

open DiskM

variable {d d' : Disk} {path : Path} {es : List Entry} {s : Segment}

/-- Records that are not too large can only fail to be written by an error of the disk. -/
lemma failsByIo_write (hfits : Layout.oversized? es = none) : (write path es).FailsByIo := by
  unfold write
  rw [hfits]
  refine FailsByIo.bind (.tryCatch ?_ fun io => ?_) fun x _ _ _ => ?_
  · exact (FailsByIo.write _ _).bind fun _ _ _ _ =>
      (FailsByIo.rename _ _).bind fun _ _ _ _ => .pure _
  · exact (FailsByIo.attempt _).bind fun _ _ _ _ => .throw io
  · cases x with
    | error s => exact .pure s
    | ok s => exact .pure s

/-- Nothing but the entries of a file is ever read from it. Where a record stands too far behind to
be found, none is. -/
lemma eq_of_readEntries_flatMap {out : List Entry}
    (hfits : ∀ e ∈ es, e.chunk.record.length < 2 ^ 32) (a c : Bytes) (number : Nat)
    (hnear : a.length < 2 ^ 64)
    (h : Layout.readEntries path (a ++ (es.flatMap (fun e => Layout.framed e.chunk.record) ++ c))
      number (Layout.slotsFrom a.length es) = .ok out) : out = es := by
  induction es generalizing a number out with
  | nil =>
    cases h
    rfl
  | cons e es ih =>
    have hrecord := hfits e List.mem_cons_self
    rw [List.flatMap_cons, List.append_assoc, Layout.slotsFrom_cons] at h
    obtain ⟨record, chunk, rest, hread, hchunk, hrest, rfl⟩ := Layout.readEntries_cons_eq_ok h
    by_cases hfar : a.length < 2 ^ 63
    · rw [Layout.readRecord_slotAt path number hfar hrecord] at hread
      cases hread
      rw [ClosedChunk.ofRecord?_record] at hchunk
      cases hchunk
      have hnext : (a ++ Layout.framed e.chunk.record).length
          = a.length + e.chunk.record.length + 8 := by
        rw [List.length_append, Layout.length_framed, Nat.add_assoc]
      rw [← hnext, ← List.append_assoc] at hrest
      rw [ih (fun e' he => hfits e' (List.mem_cons_of_mem _ he)) _ _ (by omega) hrest]
      rfl
    · have hoffset : (Layout.slotAt a.length e).offset.toNat = a.length := by
        rw [Layout.slotAt, UInt64.toNat_ofNat', Nat.mod_eq_of_lt hnear]
      rw [Layout.readRecord, hoffset, if_pos (by omega)] at hread
      cases hread

lemma eq_of_on_entries {out : List Entry} (hfits : Layout.oversized? es = none)
    (hread : d.read path = .ok (Layout.file es))
    (h : (entries (ofEntries path es)).on d = (.ok out, d')) : out = es := by
  obtain ⟨-, content, hcontent, hentries⟩ := of_on_entries h
  cases hread.symm.trans hcontent
  have hlen := SegmentHeader.length_toBytes (Layout.header es)
  have hslots : (ofEntries path es).slots
      = Layout.slotsFrom (Layout.header es).toBytes.length es := by
    rw [hlen]
    rfl
  rw [Layout.file_eq, hslots] at hentries
  exact eq_of_readEntries_flatMap (Layout.oversized?_eq_none_iff.mp hfits) _ _ 0
    (by rw [hlen]; decide) hentries

end Segment

namespace Index

open DiskM

variable {d d' : Disk} {ix ix' : Index} {es : List Entry} {number : UInt64} {path dir : Path}
  {mk : Segment → Index} {m : Manifest}

lemma failsByIo_commit (hm : ix.manifest = .ok m) : ix.commit.FailsByIo := by
  simp only [commit, hm]
  exact (FailsByIo.write _ _).bind fun _ _ _ _ => .rename _ _

lemma failsByIo_install (hfits : Layout.oversized? es = none)
    (hm : (mk (.ofEntries path es)).manifest = .ok m) : (install path es mk).FailsByIo := by
  refine (Segment.failsByIo_write hfits).bind fun s _ _ hs => ?_
  obtain ⟨rfl, -⟩ := Segment.of_on_write hs
  refine FailsByIo.bind ?_ fun _ _ _ _ => .pure _
  exact (failsByIo_commit hm).tryCatch fun io =>
    (FailsByIo.attempt _).bind fun _ _ _ _ => .throw io

lemma read_of_install (h : (install (dir / segmentName number) es mk).on d = (.ok ix', d'))
    (hdir : ∀ s, (mk s).dir = dir) : ix' = mk (.ofEntries (dir / segmentName number) es)
      ∧ Layout.oversized? es = none
      ∧ d'.read (dir / segmentName number) = .ok (Layout.file es) := by
  obtain ⟨rfl, d₁, m, hwrite, hm, hcommit⟩ := of_on_install h
  obtain ⟨-, hfits, hread⟩ := Segment.of_on_write hwrite
  refine ⟨rfl, hfits, ?_⟩
  obtain ⟨q, hlocate, -⟩ := Disk.locate_of_read hread
  obtain ⟨p, hd⟩ := Disk.leadsTo_of_locate (isName_segmentName number) hlocate
  obtain ⟨hreached, -, -, hframe⟩ := replaced_of_on hm (by rwa [hdir]) (.refl d₁ p) hcommit
  rw [Disk.read_div_eq hd (hreached.leadsTo hd) (isName_segmentName number)
    (hframe _ (by simpa using segmentName_ne_temporaryManifestName number)
      (by simpa using segmentName_ne_manifestName number)), hread]

/-- What is added has passed the check, and its records are not too large. -/
lemma checked_of_addChunks (h : (addChunks ix es).on d = (.ok ix', d')) :
    check ix.range ix.lastMin? es = .ok () ∧ Layout.oversized? es = none := by
  by_cases hne : es = []
  · subst hne
    exact ⟨rfl, rfl⟩
  cases hcheck : check ix.range ix.lastMin? es with
  | error fault =>
    simp only [addChunks, List.isEmpty_eq_false_iff.mpr hne, Bool.false_eq_true, if_false,
      hcheck] at h
    cases h
  | ok _ =>
    rw [addChunks_eq_install hne hcheck] at h
    obtain ⟨-, hfits, -⟩ := read_of_install h fun _ => rfl
    exact ⟨rfl, hfits⟩

/-- Entries that pass the check, with records that are not too large, can only fail to be added to
an index without segments by an error of the disk. -/
lemma failsByIo_addChunks (hnone : ix.segments = [])
    (hcheck : check ix.range ix.lastMin? es = .ok ()) (hfits : Layout.oversized? es = none) :
    (addChunks ix es).FailsByIo := by
  by_cases hne : es = []
  · subst hne
    exact .pure ix
  rw [addChunks_eq_install hne hcheck]
  refine failsByIo_install hfits (manifest_eq_ok_iff.mpr ⟨[segmentName ix.nextSegment], ?_, rfl⟩)
  rw [appended, hnone, List.nil_append]
  exact .cons (fileName?_div ix.dir (isName_segmentName _)) .nil

/-! ### Chunks -/

/-- The chunks of an index are some entries. Nothing else is ever read, and all of them are read if
there are not too many. -/
structure Yields (d : Disk) (ix : Index) (es : List Entry) : Prop where
  only : ∀ out d', (chunks ix).on d = (.ok out, d') → out = es
  few : 28 * es.length < 2 ^ 32 → (chunks ix).on d = (.ok es, d)

/-- What is added to an index without segments are its chunks. -/
lemma yields_of_addChunks (hnone : ix.segments = [])
    (h : (addChunks ix es).on d = (.ok ix', d')) : Yields d' ix' es := by
  by_cases hne : es = []
  · subst hne
    cases h
    have hon (d₁ : Disk) : (chunks ix).on d₁ = (.ok [], d₁) := by
      rw [chunks, hnone]
      rfl
    refine ⟨fun out d₁ hout => ?_, fun _ => hon d⟩
    rw [hon] at hout
    cases hout
    rfl
  rw [addChunks_eq_install hne (checked_of_addChunks h).1] at h
  obtain ⟨rfl, hfits, hread⟩ := read_of_install h fun _ => rfl
  -- the new segment is the only one
  have hchunks : chunks (ix.appended (.ofEntries (ix.dir / segmentName ix.nextSegment) es))
      = entriesOf [.ofEntries (ix.dir / segmentName ix.nextSegment) es] := by
    rw [chunks, appended, hnone, List.nil_append]
  constructor
  · intro out d₁ hout
    rw [hchunks] at hout
    obtain ⟨groups, d₂, hgroups, hflatten⟩ := on_bind_eq_ok hout
    cases hflatten
    obtain ⟨-, hread'⟩ := forall₂_of_on_mapM (fun _ _ _ h => (Segment.of_on_entries h).1) hgroups
    cases hread' with
    | cons hfirst hrest =>
      cases hrest
      rw [Segment.eq_of_on_entries hfits hread hfirst, List.flatten_singleton]
  · intro hsmall
    have hentries := Segment.on_entries_of_read
      (s := .ofEntries (ix.dir / segmentName ix.nextSegment) es) hread
      (Layout.readEntries_file _ hsmall hfits)
    rw [hchunks, entriesOf, on_bind_ok (on_mapM_of_forall₂ (.cons hentries .nil))]
    exact congrArg (fun out => (Except.ok out, d')) List.flatten_singleton

end Index

end SeriesStore
