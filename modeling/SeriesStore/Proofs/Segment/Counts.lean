import SeriesStore.Proofs.Index.NewSegments

/-!
# Counts that do not fit their fields

A segment file has four bytes for the number of its chunks, and four for the size of its table.
Both are written without looking whether they fit, unlike the size of a record. A reader compares
the two, and does not give back all chunks once the size of the table is cut off.
-/

namespace SeriesStore

namespace Layout

variable {content : Bytes} {es : List Entry}

/-! ### What a reader compares -/

lemma length_readSlots (n : Nat) (bs : Bytes) : (readSlots n bs).length = n := by
  induction n generalizing bs with
  | zero => rfl
  | succ n ih => rw [readSlots, List.length_cons, ih]

/-- A file that opens has as many slots as its header says, and says that their table has the size
for that number. -/
lemma of_readTable {header : SegmentHeader} {slots : List Slot}
    (h : readTable content = .ok (header, slots)) :
    SegmentHeader.ofBytes? (content.take 64) = .ok header
      ∧ (content.uint32At (content.length - 8)).toNat = header.count.toNat * 28
      ∧ slots.length = header.count.toNat := by
  cases hheader : SegmentHeader.ofBytes? (content.take 64) with
  | error e =>
    simp only [readTable, SegmentHeader.byteCount, hheader, bind, Except.bind, throw, throwThe,
      MonadExceptOf.throw] at h
    split_ifs at h
  | ok header' =>
    by_cases hsize : (content.uint32At (content.length - 8)).toNat = header'.count.toNat * 28
    · simp only [readTable, SegmentHeader.byteCount, Slot.byteCount, hheader, hsize, bind,
        Except.bind, pure, Except.pure, throw, throwThe, MonadExceptOf.throw] at h
      split_ifs at h
      all_goals cases h
      exact ⟨rfl, hsize, length_readSlots _ _⟩
    · simp only [readTable, SegmentHeader.byteCount, Slot.byteCount, hheader, ne_eq, hsize,
        not_false_eq_true, if_true, bind, Except.bind, throw, throwThe, MonadExceptOf.throw] at h
      split_ifs at h

lemma take_file (es : List Entry) : (file es).take 64 = (header es).toBytes := by
  rw [file_eq]
  exact List.take_left' (SegmentHeader.length_toBytes _)

/-- The size of the table is cut off as well. -/
lemma uint32At_file (es : List Entry) :
    (file es).uint32At ((file es).length - 8) = UInt32.ofNat (28 * es.length) := by
  have hsize : ((slots es).flatMap Slot.toBytes).length = 28 * es.length := by
    rw [length_table, Slot.byteCount, Nat.mul_comm]
  refine Bytes.uint32At_of_eq (a := (header es).toBytes
    ++ (es.flatMap (fun e => framed e.chunk.record) ++ (slots es).flatMap Slot.toBytes))
    (c := Bytes.ofUInt32 (Crc32.checksum ((slots es).flatMap Slot.toBytes))) ?_ ?_
  · rw [file_eq, footer_eq, hsize]
    simp only [List.append_assoc]
  · rw [file_eq, footer_eq]
    simp only [List.length_append, Bytes.length_ofUInt32]
    omega

/-- Not all slots are read back from a table that is too large for its size. -/
lemma small_of_readTable_file {header : SegmentHeader} {slots : List Slot}
    (h : readTable (file es) = .ok (header, slots)) (hall : slots.length = es.length) :
    28 * es.length < 2 ^ 32 := by
  obtain ⟨hheader, hsize, hlength⟩ := of_readTable h
  rw [take_file, SegmentHeader.ofBytes?_toBytes (by simp)] at hheader
  cases hheader
  rw [uint32At_file, UInt32.toNat_ofNat', ← hlength, hall] at hsize
  omega

/-- As long as the number of chunks fits, it is the size of the table that does not agree. -/
lemma readTable_file_of_large (hcount : es.length < 2 ^ 32) (hlarge : 2 ^ 32 ≤ 28 * es.length) :
    readTable (file es) = .error (.corrupt
      (.footerSize (UInt32.ofNat (28 * es.length)) (UInt32.ofNat es.length))) := by
  have hheader := SegmentHeader.ofBytes?_toBytes (h := header es) (by simp)
  have hlong : ¬(file es).length < 64 := by
    rw [length_file]
    omega
  have hnumber : (header es).count = UInt32.ofNat es.length := by
    simp only [header, SegmentHeader.ofBounds, bounds, List.length_map]
  have hne : (UInt32.ofNat (28 * es.length)).toNat
      ≠ (UInt32.ofNat es.length).toNat * Slot.byteCount := by
    rw [UInt32.toNat_ofNat', UInt32.toNat_ofNat', Slot.byteCount]
    omega
  simp only [readTable, SegmentHeader.byteCount, hlong, if_false, take_file, hheader,
    uint32At_file, hnumber, hne, ne_eq, not_false_eq_true, if_true, bind, Except.bind, throw,
    throwThe, MonadExceptOf.throw]

end Layout

namespace Segment

open DiskM Layout

variable {d d' : Disk} {path : Path} {es : List Entry} {s : Segment}

/-! ### Writing and opening -/

/-- Nothing but the disk and records that are too large keep a segment from being written. -/
lemma error_of_on_write {e : StorageError} (h : (write path es).on d = (.error e, d')) :
    (∃ io, e = .io io) ∨ ∃ n, oversized? es = some n ∧ e = .invalidIndex (.largeRecord n) := by
  cases hover : oversized? es with
  | none => exact .inl (failsByIo_write hover d e d' h)
  | some n =>
    unfold write at h
    simp only [hover] at h
    rw [on_bind, on_tryCatch] at h
    rcases hwrite : (DiskM.write path.temporary []).on d with ⟨e' | ⟨⟩, d₁⟩
    · rw [on_bind_error hwrite] at h
      simp only [on_bind_ok (on_attempt _ _)] at h
      cases h
      exact .inl (FailsByIo.write _ _ d _ d₁ hwrite)
    · rw [on_bind_ok hwrite, on_bind_error (on_throw _ _)] at h
      simp only [on_bind_ok (on_attempt _ _)] at h
      cases h
      exact .inr ⟨n, rfl, rfl⟩

lemma on_open_of_error {content : Bytes} {e : StorageError} (hread : d.read path = .ok content)
    (htable : readTable content = .error e) : (Segment.open path).on d = (.error e, d) := by
  rw [Segment.open, on_bind_ok (on_read_of_read hread), htable]
  rfl

/-- However many entries there are, a segment can only fail to be written by an error of the disk or
for a record that is too large. The file that has been written opens with as many chunks exactly if
the size of its table fits the field for it. If it does not, while the number of chunks still fits
its own, the file is refused. -/
theorem write_unchecked (path : Path) (es : List Entry) (d : Disk) :
    (∀ s d', (write path es).on d = (.ok s, d') →
        s.size = es.length ∧ (∀ e ∈ es, e.chunk.record.length < 2 ^ 32)
          ∧ ((∃ s', (Segment.open path).on d' = (.ok s', d') ∧ s'.size = es.length)
            ↔ 28 * es.length < 2 ^ 32)
          ∧ (es.length < 2 ^ 32 → 2 ^ 32 ≤ 28 * es.length → (Segment.open path).on d'
            = (.error (.corrupt
              (.footerSize (UInt32.ofNat (28 * es.length)) (UInt32.ofNat es.length))), d')))
      ∧ ∀ e d', (write path es).on d = (.error e, d') →
        (∃ io, e = .io io) ∨ ∃ n, oversized? es = some n ∧ e = .invalidIndex (.largeRecord n) := by
  refine ⟨fun s d' h => ?_, fun e d' => error_of_on_write⟩
  obtain ⟨rfl, hover, hread⟩ := of_on_write h
  have hsize : (ofEntries path es).size = es.length := length_slots es
  refine ⟨hsize, oversized?_eq_none_iff.mp hover, ⟨?_, fun hsmall => ?_⟩, fun hcount hlarge => ?_⟩
  · rintro ⟨s', hopen, hall⟩
    obtain ⟨-, -, content, hcontent, htable⟩ := of_on_open hopen
    cases hread.symm.trans hcontent
    exact small_of_readTable_file htable hall
  · exact ⟨_, on_open_of_read hread (readTable_file hsmall), hsize⟩
  · exact on_open_of_error hread (readTable_file_of_large hcount hlarge)

/-- Records that fit are written to an empty disk, however many there are. -/
lemma on_write_empty (hfits : oversized? es = none) :
    ∃ d', (write ⟨["a"]⟩ es).on {} = (.ok (ofEntries ⟨["a"]⟩ es), d') := by
  unfold write
  rw [hfits]
  exact ⟨_, rfl⟩

/-- As many chunks as it takes for their table to have more than 2 ^ 32 bytes. -/
def crowd : List Entry := List.replicate 153391690 ⟨0, 0, ⟨.xor, []⟩⟩

lemma length_crowd : crowd.length = 153391690 := List.length_replicate

lemma oversized?_crowd : oversized? crowd = none := by
  rw [oversized?_eq_none_iff]
  intro e he
  rw [List.eq_of_mem_replicate he]
  decide

/-- The segment of the crowd is written, and then its file is refused: the size of its table is
written as 24. -/
theorem open_crowd : ∃ d',
    (write ⟨["a"]⟩ crowd).on {} = (.ok (ofEntries ⟨["a"]⟩ crowd), d') ∧
      (Segment.open ⟨["a"]⟩).on d' = (.error (.corrupt (.footerSize 24 153391690)), d') := by
  obtain ⟨d', hwrite⟩ := on_write_empty oversized?_crowd
  obtain ⟨-, -, hread⟩ := of_on_write hwrite
  have htable : readTable (file crowd) = .error (.corrupt (.footerSize
      (UInt32.ofNat (28 * crowd.length)) (UInt32.ofNat crowd.length))) :=
    readTable_file_of_large (by rw [length_crowd]; decide) (by rw [length_crowd]; decide)
  rw [length_crowd] at htable
  exact ⟨d', hwrite, on_open_of_error hread htable⟩

end Segment

end SeriesStore
