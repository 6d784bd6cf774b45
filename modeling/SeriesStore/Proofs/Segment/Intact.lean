import SeriesStore.Proofs.Segment.Stored

/-!
# Intact segments

Opening a segment and reading its chunks depends on nothing but the contents of its file. Where
the same contents are read, under whatever path, the same segment is found with the same chunks.
-/

namespace SeriesStore

/-! ### Records -/

namespace Layout

variable {file : Path} {content : Bytes} {number : Nat} {slot : Slot} {slots : List Slot}
  {es : List Entry}

/-- The path of a file only shows in errors. -/
lemma readRecord_of_ok {record : Bytes} (h : readRecord file content number slot = .ok record)
    (file' : Path) : readRecord file' content number slot = .ok record := by
  simp only [readRecord, bind, Except.bind, throw, throwThe, MonadExceptOf.throw, pure,
    Except.pure] at h ⊢
  split_ifs at h ⊢
  exact h

lemma readEntries_cons_eq_ok (h : readEntries file content number (slot :: slots) = .ok es) :
    ∃ record chunk rest, readRecord file content number slot = .ok record
      ∧ ClosedChunk.ofRecord? record = .ok chunk
      ∧ readEntries file content (number + 1) slots = .ok rest
      ∧ es = ⟨slot.min, slot.max, chunk⟩ :: rest := by
  rw [readEntries] at h
  cases hrecord : readRecord file content number slot with
  | error e => simp [hrecord, bind, Except.bind] at h
  | ok record =>
    cases hchunk : ClosedChunk.ofRecord? record with
    | error e => simp [hrecord, hchunk, bind, Except.bind] at h
    | ok chunk =>
      cases hrest : readEntries file content (number + 1) slots with
      | error e => simp [hrecord, hchunk, hrest, bind, Except.bind] at h
      | ok rest =>
        refine ⟨record, chunk, rest, rfl, hchunk, rfl, ?_⟩
        simpa [hrecord, hchunk, hrest, bind, Except.bind, pure, Except.pure, eq_comm] using h

lemma readEntries_of_ok (h : readEntries file content number slots = .ok es) (file' : Path) :
    readEntries file' content number slots = .ok es := by
  induction slots generalizing number es with
  | nil => exact h
  | cons slot slots ih =>
    obtain ⟨record, chunk, rest, hrecord, hchunk, hrest, rfl⟩ := readEntries_cons_eq_ok h
    rw [readEntries, readRecord_of_ok hrecord file', ih hrest]
    simp [hchunk, bind, Except.bind, pure, Except.pure]

lemma length_of_readEntries (h : readEntries file content number slots = .ok es) :
    es.length = slots.length := by
  induction slots generalizing number es with
  | nil =>
    cases h
    rfl
  | cons slot slots ih =>
    obtain ⟨-, -, rest, -, -, hrest, rfl⟩ := readEntries_cons_eq_ok h
    simp [ih hrest]

/-- A file that opens starts with the bytes that mark a segment file. -/
lemma take_of_readTable {table : SegmentHeader × List Slot} (h : readTable content = .ok table) :
    content.take 4 = SegmentHeader.magic := by
  cases hheader : SegmentHeader.ofBytes? (content.take SegmentHeader.byteCount) with
  | error e =>
    simp only [readTable, hheader, bind, Except.bind, throw, throwThe, MonadExceptOf.throw] at h
    split_ifs at h
  | ok header =>
    simp only [SegmentHeader.ofBytes?] at hheader
    split_ifs at hheader with hsum hmagic hversion
    simpa [List.take_take, SegmentHeader.byteCount] using hmagic

end Layout

/-! ### Segments -/

namespace Segment

variable {d d' : Disk} {path : Path} {s : Segment} {es : List Entry}

lemma on_open_of_read {content : Bytes} {header : SegmentHeader} {slots : List Slot}
    (hread : d.read path = .ok content) (htable : Layout.readTable content = .ok (header, slots)) :
    (Segment.open path).on d = (.ok ⟨path, header, slots⟩, d) := by
  rw [Segment.open, DiskM.on_bind_ok (on_read_of_read hread), htable]
  rfl

lemma on_entries_of_read {content : Bytes} (hread : d.read s.path = .ok content)
    (hentries : Layout.readEntries s.path content 0 s.slots = .ok es) :
    (entries s).on d = (.ok es, d) := by
  rw [entries, DiskM.on_bind_ok (on_read_of_read hread), hentries]
  rfl

/-- What is known when a segment has been opened. -/
lemma of_on_open (h : (Segment.open path).on d = (.ok s, d')) : d = d' ∧ s.path = path
    ∧ ∃ content, d.read path = .ok content
      ∧ Layout.readTable content = .ok (s.header, s.slots) := by
  obtain ⟨content, hread, h⟩ := DiskM.of_on_ask_bind h
  obtain ⟨⟨header, slots⟩, d₁, hparse, h⟩ := DiskM.on_bind_eq_ok h
  obtain ⟨htable, rfl⟩ := Prod.mk.inj hparse
  cases h
  exact ⟨rfl, rfl, content, hread, htable⟩

/-- What is known when the chunks of a segment have been read. -/
lemma of_on_entries (h : (entries s).on d = (.ok es, d')) : d = d'
    ∧ ∃ content, d.read s.path = .ok content
      ∧ Layout.readEntries s.path content 0 s.slots = .ok es := by
  obtain ⟨content, hread, h⟩ := DiskM.of_on_ask_bind h
  obtain ⟨hentries, rfl⟩ := Prod.mk.inj h
  exact ⟨rfl, content, hread, hentries⟩

/-- The file of a segment opens as the segment, and its records are intact and hold some
entries. -/
structure Intact (d : Disk) (s : Segment) (es : List Entry) : Prop where
  opens : (Segment.open s.path).on d = (.ok s, d)
  verifies : (entries s).on d = (.ok es, d)

namespace Intact

/-- What has been written for some entries is intact wherever it is read. -/
lemma of_read (hsmall : 28 * es.length < 2 ^ 32) (hfits : Layout.oversized? es = none)
    (hread : d.read path = .ok (Layout.file es)) : Intact d (ofEntries path es) es where
  opens := on_open_of_read hread (Layout.readTable_file hsmall)
  verifies := on_entries_of_read hread (Layout.readEntries_file path hsmall hfits)

lemma length_eq (h : Intact d s es) : es.length = s.size := by
  obtain ⟨-, content, -, hentries⟩ := of_on_entries h.verifies
  exact Layout.length_of_readEntries hentries

/-- Where the same contents are read, there is the same segment. -/
lemma moved (h : Intact d s es) (hread : d'.read path = d.read s.path) :
    Intact d' { s with path := path } es := by
  obtain ⟨-, -, content, hcontent, htable⟩ := of_on_open h.opens
  obtain ⟨-, content', hcontent', hentries⟩ := of_on_entries h.verifies
  obtain rfl := Except.ok.inj (hcontent'.symm.trans hcontent)
  rw [hcontent] at hread
  exact ⟨on_open_of_read hread htable,
    on_entries_of_read hread (Layout.readEntries_of_ok hentries path)⟩

end Intact

end Segment

end SeriesStore
