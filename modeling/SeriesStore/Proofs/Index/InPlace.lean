import SeriesStore.Proofs.Index.Failing

/-!
# Updates in place

An open index can also be changed where it is: the list of its segments and the number of the next
one are set first, then the manifest is replaced, and if that fails both are set back. Every such
update does to the disk what the update to a new index does, and when it fails, the open index, its
directory and all that can be read of the two are as they were.
-/

namespace SeriesStore.Index

open SeriesStore.Path SeriesStore.Tree

/-! ### Open indexes that change -/

/-- A computation that changes an open index and a disk. What it changed before an error stays. -/
abbrev HandleM := ExceptT StorageError (StateT Index (StateM Disk))

namespace HandleM

variable {α β : Type} {f : HandleM α} {g : α → HandleM β} {ix ix' : Index} {d d' : Disk}

/-- The result of a computation on an open index and a disk, and what it makes of the two. -/
def on (f : HandleM α) (ix : Index) (d : Disk) : Except StorageError α × Index × Disk :=
  let ((r, ix), d) := (f.run.run ix).run d
  (r, ix, d)

/-- Carries out a computation on the disk. -/
def onDisk (f : DiskM α) : HandleM α := ExceptT.mk (StateT.lift f.run)

lemma on_get (ix : Index) (d : Disk) : (get : HandleM Index).on ix d = (.ok ix, ix, d) := rfl

lemma on_modify (f : Index → Index) (ix : Index) (d : Disk) :
    (modify f : HandleM PUnit).on ix d = (.ok ⟨⟩, f ix, d) := rfl

lemma on_throw (e : StorageError) (ix : Index) (d : Disk) :
    (throw e : HandleM α).on ix d = (.error e, ix, d) := rfl

lemma on_onDisk (f : DiskM α) (ix : Index) (d : Disk) :
    (onDisk f).on ix d = ((f.on d).1, ix, (f.on d).2) := rfl

lemma on_bind (f : HandleM α) (g : α → HandleM β) (ix : Index) (d : Disk) : (f >>= g).on ix d
    = match f.on ix d with
      | (.ok a, ix', d') => (g a).on ix' d'
      | (.error e, ix', d') => (.error e, ix', d') := by
  simp only [on, ExceptT.run, Bind.bind, ExceptT.bind, ExceptT.mk, StateT.bind, StateT.run]
  rcases f ix d with ⟨⟨_ | a, ix'⟩, d'⟩ <;> rfl

lemma on_bind_ok {a : α} (h : f.on ix d = (.ok a, ix', d')) :
    (f >>= g).on ix d = (g a).on ix' d' := by
  rw [on_bind, h]

lemma on_bind_error {e : StorageError} (h : f.on ix d = (.error e, ix', d')) :
    (f >>= g).on ix d = (.error e, ix', d') := by
  rw [on_bind, h]

lemma on_tryCatch (f : HandleM α) (g : StorageError → HandleM α) (ix : Index) (d : Disk) :
    (tryCatch f g).on ix d
      = match f.on ix d with
        | (.ok a, ix', d') => (.ok a, ix', d')
        | (.error e, ix', d') => (g e).on ix' d' := by
  simp only [on, ExceptT.run, tryCatch, tryCatchThe, MonadExceptOf.tryCatch, ExceptT.tryCatch,
    ExceptT.mk, StateT.run, Bind.bind, StateT.bind]
  rcases f ix d with ⟨⟨_ | a, ix'⟩, d'⟩ <;> rfl

end HandleM

open HandleM

/-! ### Adding and merging in place -/

/-- Writes a segment file and puts it into the open index. If the manifest cannot be replaced, the
index is set back, and the file is removed. -/
def exchange (path : Path) (es : List Entry) (change : Segment → Index → Index)
    (restore : Index → Index) : HandleM Unit := do
  let segment ← onDisk (Segment.write path es)
  modify (change segment)
  let changed ← get
  tryCatch (onDisk changed.commit) fun e => do
    modify restore
    onDisk (DiskM.attempt (DiskM.remove path))
    throw e

/-- Adds entries behind the chunks of the open index, as one segment. If the manifest cannot be
replaced, the last segment is dropped again and its number is free. -/
def addInPlace (es : List Entry) : HandleM Unit := do
  if es.isEmpty then return
  let ix ← get
  match check ix.range ix.lastMin? es with
  | .error fault => throw (.invalidIndex fault)
  | .ok () =>
    exchange (ix.segmentPath ix.nextSegment) es (fun s now => now.appended s) fun now =>
      { now with segments := now.segments.dropLast, nextSegment := now.nextSegment - 1 }

/-- Merges the first segments of the open index into one. If the manifest cannot be replaced, the
list of segments and the next number are those that were there before. -/
def mergeInPlace (target : UInt64) : HandleM Bool := do
  if target = 0 then throw (.invalidIndex .zeroTarget)
  let ix ← get
  if ix.segments.length ≤ target.toNat then return false
  let count := ix.segments.length - target.toNat + 1
  let merged ← onDisk (entriesOf (ix.segments.take count))
  exchange (ix.segmentPath ix.nextSegment) merged (fun s now => now.replaced count s) fun now =>
    { now with segments := ix.segments, nextSegment := ix.nextSegment }
  onDisk ((ix.segments.take count).forM fun s => DiskM.attempt (DiskM.remove s.path))
  return true

variable {ix ix' : Index} {d d' : Disk} {es : List Entry}

/-- A failure to replace the manifest is passed on when the new file has been removed. -/
lemma on_commitWith (ix : Index) (path : Path) (d : Disk) : (commitWith ix path).on d
    = match ix.commit.on d with
      | (.ok _, d') => (.ok (), d')
      | (.error e, d') => (.error e, ((DiskM.remove path).on d').2) := by
  refine (DiskM.on_tryCatch ix.commit _ d).trans ?_
  rcases ix.commit.on d with ⟨e | _, d'⟩
  · exact DiskM.on_bind_ok (DiskM.on_attempt (DiskM.remove path) d')
  · rfl

/-- An exchange does to the disk what an installation does, and makes of the open index the new one
or nothing. -/
lemma on_exchange (path : Path) (es : List Entry) {change : Segment → Index → Index}
    {restore : Index → Index} (hrestore : ∀ s, restore (change s ix) = ix) (d : Disk) :
    (exchange path es change restore).on ix d
      = match (install path es fun s => change s ix).on d with
        | (.ok new, d') => (.ok (), new, d')
        | (.error e, d') => (.error e, ix, d') := by
  rw [exchange, install, HandleM.on_bind, on_onDisk, DiskM.on_bind]
  rcases (Segment.write path es).on d with ⟨e | s, d₁⟩
  · rfl
  · simp only [HandleM.on_bind_ok (on_modify _ _ _), HandleM.on_bind_ok (on_get _ _),
      HandleM.on_tryCatch, on_onDisk, DiskM.on_bind, on_commitWith]
    rcases (change s ix).commit.on d₁ with ⟨e | _, d₂⟩
    · simp only [HandleM.on_bind, on_onDisk, DiskM.on_attempt, hrestore, HandleM.on_throw]
    · rfl

/-- Adding in place is adding, where a failure leaves the open index as it was. -/
theorem on_addInPlace (es : List Entry) (ix : Index) (d : Disk) : (addInPlace es).on ix d
    = match (ix.addChunks es).on d with
      | (.ok new, d') => (.ok (), new, d')
      | (.error e, d') => (.error e, ix, d') := by
  by_cases hne : es = []
  · subst hne
    rfl
  have hempty : es.isEmpty = false := List.isEmpty_eq_false_iff.mpr hne
  simp only [addInPlace, hempty, Bool.false_eq_true, if_false]
  refine (HandleM.on_bind_ok (on_get _ _)).trans ?_
  cases hcheck : check ix.range ix.lastMin? es with
  | error fault =>
    simp only [addChunks, hempty, hcheck, Bool.false_eq_true, if_false]
    rfl
  | ok _ =>
    rw [addChunks_eq_install hne hcheck]
    exact on_exchange _ es (fun s => by simp [appended]) d

/-- Merging in place is merging, where a failure leaves the open index as it was. -/
theorem on_mergeInPlace (target : UInt64) (ix : Index) (d : Disk) : (mergeInPlace target).on ix d
    = match (ix.forceMerge target).on d with
      | (.ok (merged, new), d') => (.ok merged, new, d')
      | (.error e, d') => (.error e, ix, d') := by
  by_cases htarget : target = 0
  · subst htarget
    rfl
  simp only [mergeInPlace, htarget, if_false]
  refine (HandleM.on_bind_ok (on_get _ _)).trans ?_
  by_cases hlen : ix.segments.length ≤ target.toNat
  · rw [on_forceMerge_of_le htarget hlen, if_pos hlen]
    rfl
  rw [if_neg hlen, forceMerge_eq_install htarget hlen rfl]
  generalize ix.segments.length - target.toNat + 1 = count
  have hread := on_onDisk (entriesOf (ix.segments.take count)) ix d
  rcases hr : (entriesOf (ix.segments.take count)).on d with ⟨e | merged, d₁⟩ <;> rw [hr] at hread
  · rw [HandleM.on_bind_error hread, DiskM.on_bind_error hr]
  · rw [HandleM.on_bind_ok hread, DiskM.on_bind_ok hr]
    have hexchange : (exchange (ix.segmentPath ix.nextSegment) merged
        (fun s now => now.replaced count s)
        fun now => { now with segments := ix.segments, nextSegment := ix.nextSegment }).on ix d₁
        = match (install (ix.dir / segmentName ix.nextSegment) merged (ix.replaced count)).on d₁
          with
          | (.ok new, d') => (.ok (), new, d')
          | (.error e, d') => (.error e, ix, d') := on_exchange _ merged (fun _ => rfl) d₁
    rcases hr' : (install (ix.dir / segmentName ix.nextSegment) merged (ix.replaced count)).on d₁
      with ⟨e | new, d₂⟩ <;> rw [hr'] at hexchange
    · rw [HandleM.on_bind_error hexchange, DiskM.on_bind_error hr']
    · -- no failure to remove a merged file is reported
      have hremoved := (DiskM.removeEach_changes Segment.path (ix.segments.take count) d₂).result.1
      rw [HandleM.on_bind_ok hexchange, DiskM.on_bind_ok hr',
        DiskM.on_bind_ok (Prod.ext hremoved rfl)]
      exact HandleM.on_bind_ok ((on_onDisk _ new d₂).trans (Prod.ext hremoved rfl))

/-! ### Failures -/

/-- An open index, its directory and all that can be read of the two are as they were. The index was
`ix` on the disk `d`, and is `ix'` on the disk `d'`. -/
structure Restored (dir : Path) (ix ix' : Index) (d d' : Disk) : Prop where
  index : ix' = ix
  /-- The index is opened as the same, or fails to open with the same error. -/
  opens : (Index.open dir).Agrees d d'
  /-- The chunks of each segment are read as the same, or reading fails with the same error. -/
  entries : ∀ s ∈ ix.segments, s.entries.Agrees d d'
  chunks : (chunks ix).Agrees d d'
  /-- So are those of the index that is opened anew. -/
  reopened : ∀ now, (Index.open dir).on d = (.ok now, d) →
    (∀ s ∈ now.segments, s.entries.Agrees d d') ∧ (Index.chunks now).Agrees d d'

variable {c : Contents} {d₀ : Disk} {dir : Path} {p : Place}

lemma Contents.ListedBy.restored (h : c.ListedBy d dir p) (hix : c.Opens dir ix)
    (hfailed : Failed d p c.next d') : Restored dir ix ix d d' := by
  have h' := h.worn hfailed.worn
  have hsame := h.same_of_failed hfailed
  have hread {now : Index} (hnow : c.Opens dir now) :
      ∀ s ∈ now.segments, d'.read s.path = d.read s.path := fun s =>
    h.read_eq h'.leadsTo hsame hnow
  refine ⟨rfl, h.agrees_open h' hsame, fun s hs => Segment.agrees_entries (hread hix s hs),
    agrees_chunks (hread hix), fun now hopen => ?_⟩
  have hnow := h.opens_of_on hopen
  exact ⟨fun s hs => Segment.agrees_entries (hread hnow s hs), agrees_chunks (hread hnow)⟩

/-- Entries that an index takes: their bounds are in order and in its range, and no entry starts
before the one in front of it. -/
structure InOrder (range : TimeRange) (last : Option Int64) (es : List Entry) : Prop where
  bounds : ∀ e ∈ es, e.min ≤ e.max
  range : ∀ e ∈ es, range.contains e.min = true ∧ range.contains e.max = true
  starts : (last.toList ++ es.map (·.min)).IsChain (· ≤ ·)

lemma check_eq_ok_iff_inOrder {range : TimeRange} {last : Option Int64} :
    check range last es = .ok () ↔ InOrder range last es := by
  rw [check_eq_ok_iff]
  constructor
  · rintro ⟨hin, hstarts⟩
    exact ⟨fun e he => Int64.not_lt.mp (hin e he).1, fun e he => (hin e he).2, hstarts⟩
  · rintro ⟨hbounds, hrange, hstarts⟩
    exact ⟨fun e he => ⟨Int64.not_lt.mpr (hbounds e he), hrange e he⟩, hstarts⟩

/-- A new segment is put into an index unless its entries do not suit, or a file operation
fails. -/
lemma Contents.HeldBy.exists_on_addChunks_iff (h : c.HeldBy d dir p) (hne : es ≠ [])
    (hfits : Layout.oversized? es = none)
    (hio : ∀ io, ((addChunks (c.index dir) es).on d).1 ≠ .error (.io io)) :
    (∃ ix, ((addChunks (c.index dir) es).on d).1 = .ok ix)
      ↔ InOrder c.range (c.entries.getLast?.map (·.min)) es := by
  rw [← check_eq_ok_iff_inOrder]
  cases hcheck : check c.range (c.entries.getLast?.map (·.min)) es with
  | error fault =>
    rw [on_addChunks_of_error hne hcheck]
    simp
  | ok _ =>
    have hinstalled := (addChunks_spec h hne hcheck).result
    rcases hr : ((addChunks (c.index dir) es).on d).1 with e | ix <;> rw [hr] at hinstalled hio
    · obtain ⟨-, rfl | ⟨n, -, hlarge⟩⟩ := hinstalled.error e rfl
      · exact absurd rfl (hio .other)
      · cases hlarge.symm.trans hfits
    · exact iff_of_true ⟨ix, rfl⟩ rfl

namespace Session

variable {s : Session} {α : Type}

/-- Wherever files but manifests have been altered before, on whatever disk with the same manifest
the open index has been opened, and whatever fails: a computation that fails leaves the open index
and its directory as they were, and it can be repeated on the disk that it leaves. -/
def Restores (s : Session) (dir : Path) (f : HandleM α) : Prop :=
  ∀ d₀ ix d e ix' d', s.disk.Worn d₀ → (Index.open dir).on d₀ = (.ok ix, d₀) → s.disk.Worn d →
    f.on ix d = (.error e, ix', d') → Restored dir ix ix' d d' ∧ s.disk.Worn d'

/-- Updates of an open index are made as a whole or not at all. -/
structure AllOrNothing (s : Session) (dir : Path) : Prop where
  opened : (Index.open dir).on s.disk = (.ok s.index, s.disk)
  /-- If the records fit and no file operation fails, entries are added exactly if the index takes
  them. -/
  adds : ∀ es, es ≠ [] → Layout.oversized? es = none →
    (∀ io, ((addInPlace es).on s.index s.disk).1 ≠ .error (.io io)) →
    (((addInPlace es).on s.index s.disk).1 = .ok ()
      ↔ InOrder s.index.range (s.accepted.getLast?.map (·.min)) es)
  /-- No file operation fails on a calm disk that takes the new files. -/
  calm : s.disk.Calm → (∀ q, s.disk.LeadsTo dir q →
      ∀ name ∈ newNames s.index.nextSegment, s.disk.Accepts dir q name) →
    ∀ es io, ((addInPlace es).on s.index s.disk).1 ≠ .error (.io io)
  restores_add : ∀ es, s.Restores dir (addInPlace es)
  restores_merge : ∀ target, s.Restores dir (mergeInPlace target)

/-- A computation that fails only as an update does leaves nothing behind that counts. -/
lemma Holds.restores (h : s.Holds c dir p) {f : HandleM α}
    (hf : ∀ ix d e ix' d', d.LeadsTo ix.dir p → f.on ix d = (.error e, ix', d') →
      ix' = ix ∧ Failed d p ix.nextSegment d') : s.Restores dir f := by
  intro d₀ ix d e ix' d' hworn₀ hopen hworn hon
  have hlisted := h.held.listedBy.worn hworn
  have hix := (h.held.listedBy.worn hworn₀).opens_of_on hopen
  have hleads : d.LeadsTo ix.dir p := hix.dir_eq ▸ hlisted.leadsTo
  obtain ⟨rfl, hfailed⟩ := hf ix d e ix' d' hleads hon
  rw [hix.next] at hfailed
  exact ⟨hlisted.restored hix hfailed, hworn.trans hfailed.worn⟩

lemma Holds.not_io_of_calm (h : s.Holds c dir p) (hcalm : s.disk.Calm)
    (hnames : ∀ name ∈ newNames c.next, s.disk.Accepts dir p name) (es : List Entry)
    (io : IoError) : ((addChunks (c.index dir) es).on s.disk).1 ≠ .error (.io io) := by
  by_cases hne : es = []
  · subst hne
    exact fun h => nomatch h
  cases hcheck : check c.range (c.entries.getLast?.map (·.min)) es with
  | error fault =>
    rw [on_addChunks_of_error hne hcheck]
    simp
  | ok _ =>
    obtain ⟨hseg, htemp, hmanifest, htemp'⟩ := forall_mem_newNames.mp hnames
    have hrep : Replaceable s.disk dir p := ⟨htemp', hmanifest⟩
    rw [(addChunks_spec h.held hne hcheck).result.calm hcalm, outcome, Segment.outcome,
      if_pos htemp, if_pos hseg, if_pos hrep]
    cases Layout.oversized? es <;> simp

theorem Holds.allOrNothing (h : s.Holds c dir p) : s.AllOrNothing dir where
  opened := by rw [h.held.on_open, h.index]
  adds es hne hfits hio := by
    have hon := on_addInPlace es (c.index dir) s.disk
    have hiff := h.held.exists_on_addChunks_iff hne hfits
    rw [h.index, hon] at hio ⊢
    rw [← h.accepted]
    rcases hr : (addChunks (c.index dir) es).on s.disk with ⟨e | ix, d'⟩ <;>
      simp only [hr] at hio hiff ⊢
    · have hnot := (hiff fun io heq => hio io (by rw [Except.error.inj heq])).not.mp (by simp)
      exact iff_of_false (by simp) hnot
    · exact iff_of_true trivial ((hiff (by simp)).mp ⟨ix, rfl⟩)
  calm hcalm hnames es io := by
    rw [h.index] at hnames ⊢
    have hnot := h.not_io_of_calm hcalm (hnames p h.held.leadsTo) es io
    rw [on_addInPlace]
    rcases hr : (addChunks (c.index dir) es).on s.disk with ⟨e | ix, d'⟩ <;> rw [hr] at hnot
    · exact fun heq => hnot (by rw [Except.error.inj heq])
    · exact fun heq => nomatch heq
  restores_add es := by
    refine h.restores fun ix d e ix' d' hleads hon => ?_
    rw [on_addInPlace] at hon
    rcases hr : (ix.addChunks es).on d with ⟨e | new, d₁⟩ <;> rw [hr] at hon <;> cases hon
    exact ⟨rfl, failed_of_on_addChunks hleads hr⟩
  restores_merge target := by
    refine h.restores fun ix d e ix' d' hleads hon => ?_
    rw [on_mergeInPlace] at hon
    rcases hr : (ix.forceMerge target).on d with ⟨e | new, d₁⟩ <;> rw [hr] at hon <;> cases hon
    exact ⟨rfl, failed_of_on_forceMerge hleads hr⟩

/-- From its making on, over any commands and any failures of the disk, an index is updated as a
whole or not at all. -/
theorem allOrNothing_of_create {range : TimeRange} {resolution : Resolution} {id : Uid}
    {createdAt : Instant} {ix : Index}
    (hcreate : (create dir range resolution id createdAt).on d = (.ok ix, d'))
    (cmds : List Command) (hsmall : 28 * ((mk d' ix []).run cmds).accepted.length < 2 ^ 32) :
    ((mk d' ix []).run cmds).AllOrNothing dir := by
  obtain ⟨c, p, hc, -⟩ := exists_holds_of_create hcreate hsmall
  exact hc.allOrNothing

/-- The index under the name `a` on an empty disk, with two chunks in two segments. -/
theorem allOrNothing_of_create_pair : ∃ (ix : Index) (d : Disk),
    (create ⟨["a"]⟩ ⟨0, 10, by decide⟩ .seconds ⟨7⟩ .newYear).on {} = (.ok ix, d)
    ∧ let s := (mk d ix []).run [.add [Pair.early], .add [Pair.late]]
      s.index.segments.length = 2 ∧ 28 * s.accepted.length < 2 ^ 32
        ∧ s.AllOrNothing ⟨["a"]⟩ := by
  obtain ⟨d, hcreate, h, -⟩ := Pair.exists_filled
  have hsmall : 28 * ((mk d (Pair.start.index ⟨["a"]⟩) []).run
      [.add [Pair.early], .add [Pair.late]]).accepted.length < 2 ^ 32 := by
    rw [← h.accepted]
    decide
  refine ⟨_, d, hcreate, ?_, hsmall, allOrNothing_of_create hcreate _ hsmall⟩
  rw [h.index]
  rfl

end Session

end SeriesStore.Index
