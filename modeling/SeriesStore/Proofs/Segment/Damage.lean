import SeriesStore.Proofs.Bytes.Bursts
import SeriesStore.Proofs.Segment.Stored

/-!
# Damaged segment files

Every byte of a segment file is under a check: the header, the table and each record have a checksum
behind them, the size of a record is listed in the table, and the size of the table follows from the
header. So a burst of up to four bytes is always reported, wherever it strikes.
-/

namespace SeriesStore

open Bytes

namespace Layout

/-! ### Parts of a damaged file -/

lemma exists_append_of_length {bs : Bytes} {m n : Nat} (h : bs.length = m + n) :
    ∃ x y, bs = x ++ y ∧ x.length = m ∧ y.length = n :=
  ⟨bs.take m, bs.drop m, (List.take_append_drop m bs).symm, by simp [h], by simp [h]⟩

/-- The bytes behind a string are its checksum, or a reader notices. -/
lemma eq_of_burst_checksum {bs bs' : Bytes} {sum : UInt32}
    (h : Burst 4 (bs ++ ofUInt32 (Crc32.checksum bs)) (bs' ++ ofUInt32 sum))
    (hsum : sum = Crc32.checksum bs') : bs' = bs :=
  (Crc32.eq_of_burst (hsum ▸ h)).symm

/-- A damaged header is reported. -/
lemma header_burst {h : SegmentHeader} {H : Bytes} (hburst : Burst 4 h.toBytes H) :
    (∃ c, SegmentHeader.ofBytes? H = .error (.corrupt c)) ∨ H = h.toBytes := by
  have hlen : H.length = 60 + 4 :=
    hburst.length_eq.symm.trans (SegmentHeader.length_toBytes h)
  obtain ⟨body, check, rfl, hbody, hcheck⟩ := exists_append_of_length hlen
  obtain ⟨sum, rfl⟩ := exists_eq_ofUInt32 hcheck
  have htake : (body ++ ofUInt32 sum).take 60 = body := by rw [← hbody, List.take_left]
  have hsum : uint32At (body ++ ofUInt32 sum) 60 = sum :=
    uint32At_of_eq (a := body) (c := []) (by simp) hbody.symm
  by_cases hagree : sum = Crc32.checksum body
  · have hsame := eq_of_burst_checksum hburst hagree
    exact .inr (by rw [SegmentHeader.toBytes, hagree, hsame])
  · refine .inl ⟨.headerChecksum sum (Crc32.checksum body), ?_⟩
    simp only [SegmentHeader.ofBytes?, htake, hsum, hagree, ne_eq, not_false_eq_true, if_true]

/-- A damaged record is reported, and so is a damaged size or checksum of it. -/
lemma readRecord_burst (path : Path) (number : Nat) {e : Entry} {a c F : Bytes}
    (hfar : a.length < 2 ^ 63) (hfits : e.chunk.record.length < 2 ^ 32)
    (hburst : Burst 4 (framed e.chunk.record) F) :
    (∃ k, readRecord path (a ++ (F ++ c)) number (slotAt a.length e) = .error (.corrupt k))
      ∨ F = framed e.chunk.record := by
  have hlen : F.length = 4 + (e.chunk.record.length + 4) := by
    rw [← hburst.length_eq, length_framed]
    omega
  obtain ⟨first, rest, rfl, hfirst, hrest⟩ := exists_append_of_length hlen
  obtain ⟨record, last, rfl, hrecord, hlast⟩ := exists_append_of_length hrest
  obtain ⟨size, rfl⟩ := exists_eq_ofUInt32 hfirst
  obtain ⟨sum, rfl⟩ := exists_eq_ofUInt32 hlast
  have hread := readRecord_eq path number (c := c) (toNat_offset_slotAt hfar e) hfar
    (hrecord.trans (toNat_size_slotAt hfits _).symm) size sum
  simp only [List.append_assoc] at hread ⊢
  rw [hread, framed_eq hfits]
  by_cases hagree : size = (slotAt a.length e).size
  · by_cases hcheck : sum = Crc32.checksum record
    · rw [framed_eq hfits] at hburst
      have hsame := eq_of_burst_checksum (hburst.back (by simp)) hcheck
      right
      rw [hagree, hcheck, hsame, slotAt]
    · exact .inl ⟨.recordChecksum number path, by simp [hagree, hcheck]⟩
  · exact .inl ⟨.recordSize number path (slotAt a.length e).size size, by simp [hagree]⟩

/-- Damage to the records is reported when the entries are read. -/
lemma readEntries_burst (path : Path) {es : List Entry}
    (hfits : ∀ e ∈ es, e.chunk.record.length < 2 ^ 32) (a c : Bytes) {R : Bytes} (number : Nat)
    (hfar : a.length + es.length * (2 ^ 32 + 8) < 2 ^ 63)
    (hburst : Burst 4 (es.flatMap fun e => framed e.chunk.record) R) :
    (∃ k, readEntries path (a ++ (R ++ c)) number (slotsFrom a.length es) = .error (.corrupt k))
      ∨ R = es.flatMap fun e => framed e.chunk.record := by
  induction es generalizing a R number with
  | nil => exact .inr (List.length_eq_zero_iff.mp hburst.length_eq.symm)
  | cons e es ih =>
    have hrecord := hfits e List.mem_cons_self
    rw [List.length_cons, Nat.succ_mul] at hfar
    rw [List.flatMap_cons] at hburst ⊢
    obtain ⟨F, R, rfl, hF, -⟩ := exists_append_of_length
      (hburst.length_eq.symm.trans List.length_append)
    rw [slotsFrom_cons, List.append_assoc]
    -- if the first record is whole, the damage is behind it, at the place of the other records
    rcases readRecord_burst path number (a := a) (c := R ++ c) (by omega) hrecord
      (hburst.front hF.symm) with ⟨k, hbad⟩ | rfl
    · left
      refine ⟨k, ?_⟩
      rw [readEntries, hbad]
      rfl
    have hrest := ih (fun e' he => hfits e' (List.mem_cons_of_mem _ he))
      (a ++ framed e.chunk.record) (number + 1)
      (by rw [List.length_append, length_framed]; omega) (hburst.back rfl)
    rw [List.length_append, length_framed, ← Nat.add_assoc, List.append_assoc] at hrest
    rcases hrest with ⟨k, hbad⟩ | rfl
    · left
      refine ⟨k, ?_⟩
      rw [readEntries_slotAt (readRecord_slotAt path number (by omega) hrecord), hbad]
      rfl
    · exact .inr rfl

/-- A damaged table is reported, and so is a damaged size or checksum of it. -/
lemma footer_burst {es : List Entry} (hsmall : 28 * es.length < 2 ^ 32) (R : Bytes) {F : Bytes}
    (hburst : Burst 4 (footer (slots es)) F) :
    (∃ k, readTable ((header es).toBytes ++ (R ++ F)) = .error (.corrupt k))
      ∨ F = footer (slots es) := by
  rw [footer_eq] at hburst ⊢
  obtain ⟨T, last, rfl, hT, hlast⟩ := exists_append_of_length
    (hburst.length_eq.symm.trans List.length_append)
  obtain ⟨size, sum, rfl, hsize, hsum⟩ := exists_append_of_length (hlast.trans List.length_append)
  obtain ⟨size, rfl⟩ := exists_eq_ofUInt32 (hsize.trans (length_ofUInt32 _))
  obtain ⟨sum, rfl⟩ := exists_eq_ofUInt32 (hsum.trans (length_ofUInt32 _))
  have hread := readTable_eq (R := R) (SegmentHeader.length_toBytes (header es))
    (SegmentHeader.ofBytes?_toBytes (by simp))
    (by rw [hT, length_table, count_header (by omega)]) size sum
  rw [hread]
  by_cases hagree : size.toNat = T.length
  · by_cases hcheck : sum = Crc32.checksum T
    · obtain rfl := eq_of_burst_checksum (hburst.skip hT.symm hsize.symm) hcheck
      have hword := UInt32.toNat_inj.mp (hagree.trans (toNat_length_table hsmall).symm)
      exact .inr (by rw [hword, hcheck])
    · exact .inl ⟨.footerChecksum, by simp [hagree, hcheck]⟩
  · exact .inl ⟨.footerSize size (header es).count, by simp [hagree]⟩

/-- A burst of up to four bytes is found when the file is opened, or when the entries are read. -/
theorem burst_reported {es : List Entry} (hsmall : 28 * es.length < 2 ^ 32)
    (hfits : oversized? es = none) {changed : Bytes} (hburst : Burst 4 (file es) changed)
    (hne : changed ≠ file es) : (∃ k, readTable changed = .error (.corrupt k))
      ∨ readTable changed = .ok (header es, slots es)
        ∧ ∀ path, ∃ k, readEntries path changed 0 (slots es) = .error (.corrupt k) := by
  rw [file_eq] at hburst hne
  obtain ⟨H, rest, rfl, hH, hrest⟩ := exists_append_of_length
    (hburst.length_eq.symm.trans List.length_append)
  obtain ⟨R, F, rfl, hR, -⟩ := exists_append_of_length (hrest.trans List.length_append)
  have hheader := SegmentHeader.length_toBytes (header es)
  -- a whole header gives the right place of the table, and a whole table those of the records
  rcases header_burst (hburst.front hH.symm) with ⟨k, hbad⟩ | rfl
  · exact .inl ⟨k, readTable_of_error (hH.trans hheader) hbad⟩
  have hbehind := hburst.back rfl
  rcases footer_burst hsmall R (hbehind.back hR.symm) with hbad | rfl
  · exact .inl hbad
  refine .inr ⟨readTable_append hsmall R, fun path => ?_⟩
  rw [SegmentHeader.byteCount] at hheader
  have hrecords := readEntries_burst path (oversized?_eq_none_iff.mp hfits) (header es).toBytes
    (footer (slots es)) 0 (by rw [hheader]; omega) (hbehind.front hR.symm)
  rw [hheader] at hrecords
  refine hrecords.resolve_right ?_
  rintro rfl
  exact hne rfl

end Layout

namespace Segment

open Layout

variable {d d' : Disk} {path : Path} {es : List Entry} {s : Segment}

/-- A burst of up to four bytes in a segment file is reported as corruption. However the damage got
into the file, and whatever path it is now read under, opening the segment and reading its entries
does not succeed. -/
theorem burst_detected (hsmall : 28 * es.length < 2 ^ 32) (h : (write path es).on d = (.ok s, d')) :
    ∃ content, (DiskM.read path).on d' = (.ok content, d')
      ∧ ∀ changed, Burst 4 content changed → changed ≠ content →
        ∀ (damaged : Disk) (path' : Path), damaged.read path' = .ok changed →
          ∃ c, (Segment.open path' >>= entries).on damaged = (.error (.corrupt c), damaged) := by
  obtain ⟨rfl, hfits, hread⟩ := of_on_write h
  refine ⟨file es, on_read_of_read hread, ?_⟩
  intro changed hburst hne damaged path' hfile
  have hon := on_read_of_read hfile
  have hopen : (Segment.open path').on damaged = ((readTable changed).map
      fun t => (⟨path', t.1, t.2⟩ : Segment), damaged) := by
    rw [Segment.open, DiskM.on_bind_ok hon]
    rcases readTable changed with e | t <;> rfl
  rcases burst_reported hsmall hfits hburst hne with ⟨c, hbad⟩ | ⟨htable, hbad⟩
  · rw [hbad] at hopen
    exact ⟨c, DiskM.on_bind_error hopen⟩
  · obtain ⟨c, hbad⟩ := hbad path'
    rw [htable] at hopen
    refine ⟨c, ?_⟩
    rw [DiskM.on_bind_ok hopen, entries, DiskM.on_bind_ok hon]
    exact congrArg (·, damaged) hbad

/-- The file for `unordered` with two bytes changed: the last one of the second record's size and
the first one of the record. -/
def spoilt : Bytes := ((file unordered).set 76 1).set 77 9

lemma burst_spoilt : Burst 4 (file unordered) spoilt where
  length_eq := by rw [spoilt, List.length_set, List.length_set]
  outside := ⟨76, fun i hi => by
    rw [spoilt, List.getElem?_set_ne (by omega), List.getElem?_set_ne (by omega)]⟩

lemma spoilt_ne : spoilt ≠ file unordered := by
  intro h
  have hbyte : (file unordered)[76]? = some 0 := rfl
  have hspoilt : spoilt[76]? = some 1 := rfl
  rw [h, hbyte] at hspoilt
  exact absurd hspoilt (by decide)

/-- A disk on which only the changed file stands. -/
def spoiltDisk : Disk := ⟨[(["b"], .file spoilt)], [], [], fun _ _ => none⟩

theorem burst_detected_across : 28 * unordered.length < 2 ^ 32 ∧ Burst 4 (file unordered) spoilt
    ∧ spoilt ≠ file unordered ∧ ∃ c,
      (Segment.open ⟨["b"]⟩ >>= entries).on spoiltDisk = (.error (.corrupt c), spoiltDisk) := by
  have hwrite : (write ⟨["a"]⟩ unordered).on {}
      = (.ok (ofEntries ⟨["a"]⟩ unordered), ((write ⟨["a"]⟩ unordered).on {}).2) := rfl
  obtain ⟨content, hread, hdetected⟩ := burst_detected (by decide) hwrite
  have hfile := on_read_of_read (of_on_write hwrite).2.2
  obtain rfl : file unordered = content :=
    Except.ok.inj (congrArg Prod.fst (hfile.symm.trans hread))
  exact ⟨by decide, burst_spoilt, spoilt_ne,
    hdetected spoilt burst_spoilt spoilt_ne spoiltDisk ⟨["b"]⟩ rfl⟩

end Segment

end SeriesStore
