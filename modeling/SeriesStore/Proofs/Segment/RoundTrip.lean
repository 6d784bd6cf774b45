import SeriesStore.Proofs.Bytes.Words
import SeriesStore.Segment.Layout

/-!
# Reading written segment files

Header, table and records of a segment file are found where they were put.
-/

namespace SeriesStore

/-! ### Header -/

namespace SegmentHeader

/-- A header of a known version is read back from its bytes. -/
theorem ofBytes?_toBytes {h : SegmentHeader} (hversion : ¬currentVersion < h.version) :
    ofBytes? h.toBytes = .ok h := by
  have hbody : h.toBytes.take 60 = h.body := by
    rw [toBytes, ← length_body h, List.take_left]
  have hmagic : h.toBytes.take 4 = magic := by
    simp [toBytes, body, magic]
  have hsum : h.toBytes.uint32At 60 = Crc32.checksum h.body :=
    Bytes.uint32At_of_eq (a := h.body) (c := []) (by simp [toBytes]) (length_body h).symm
  have hv : h.toBytes.uint16At 4 = h.version :=
    Bytes.uint16At_of_eq (a := magic) (by simp [toBytes, body]; rfl) rfl
  have hcount : h.toBytes.uint32At 6 = h.count :=
    Bytes.uint32At_of_eq (a := magic ++ Bytes.ofNatLE 2 h.version.toNat)
      (by simp [toBytes, body]; rfl) (by simp [magic])
  have hmin : h.toBytes.int64At 10 = h.min :=
    Bytes.int64At_of_eq (a := magic ++ Bytes.ofNatLE 2 h.version.toNat ++ Bytes.ofUInt32 h.count)
      (by simp [toBytes, body]; rfl) (by simp [magic])
  have hmax : h.toBytes.int64At 18 = h.max :=
    Bytes.int64At_of_eq (a := magic ++ Bytes.ofNatLE 2 h.version.toNat ++ Bytes.ofUInt32 h.count
      ++ Bytes.ofInt64 h.min) (by simp [toBytes, body]; rfl) (by simp [magic])
  simp [ofBytes?, hbody, hmagic, hsum, hv, hcount, hmin, hmax, hversion]

end SegmentHeader

namespace Slot

/-- A slot is read back from its line of the table. -/
theorem ofBytes_toBytes (s : Slot) : ofBytes s.toBytes = s := by
  have hoffset : s.toBytes.uint64At 0 = s.offset :=
    Bytes.uint64At_of_eq (a := []) (by simp [toBytes]; rfl) rfl
  have hsize : s.toBytes.uint32At 8 = s.size :=
    Bytes.uint32At_of_eq (a := Bytes.ofUInt64 s.offset) (by simp [toBytes]; rfl) (by simp)
  have hmin : s.toBytes.int64At 12 = s.min :=
    Bytes.int64At_of_eq (a := Bytes.ofUInt64 s.offset ++ Bytes.ofUInt32 s.size)
      (by simp [toBytes]; rfl) (by simp)
  have hmax : s.toBytes.int64At 20 = s.max :=
    Bytes.int64At_of_eq (a := Bytes.ofUInt64 s.offset ++ Bytes.ofUInt32 s.size
      ++ Bytes.ofInt64 s.min) (c := []) (by simp [toBytes]) (by simp)
  rw [ofBytes, hoffset, hsize, hmin, hmax]

end Slot

namespace Layout

/-! ### Table -/

lemma length_flatMap_toBytes (slots : List Slot) :
    (slots.flatMap Slot.toBytes).length = slots.length * Slot.byteCount := by
  induction slots with
  | nil => rfl
  | cons s slots ih =>
    simp only [List.flatMap_cons, List.length_append, List.length_cons, Slot.length_toBytes, ih,
      Nat.succ_mul]
    omega

lemma readSlots_flatMap (slots : List Slot) :
    readSlots slots.length (slots.flatMap Slot.toBytes) = slots := by
  induction slots with
  | nil => rfl
  | cons s slots ih =>
    have hlen := Slot.length_toBytes s
    rw [List.flatMap_cons, List.length_cons, readSlots, ← hlen, List.take_left, List.drop_left, ih,
      Slot.ofBytes_toBytes]

@[simp] lemma length_slotsFrom (position : Nat) (es : List Entry) :
    (slotsFrom position es).length = es.length := by
  induction es generalizing position with
  | nil => rfl
  | cons e es ih => simp [slotsFrom, ih]

@[simp] lemma length_slots (es : List Entry) : (slots es).length = es.length :=
  length_slotsFrom _ es

@[simp] lemma version_header (es : List Entry) :
    (header es).version = SegmentHeader.currentVersion := rfl

lemma count_header {es : List Entry} (h : es.length < 2 ^ 32) :
    (header es).count.toNat = es.length := by
  simp only [header, SegmentHeader.ofBounds, bounds, List.length_map, UInt32.toNat_ofNat']
  exact Nat.mod_eq_of_lt h

/-- What stands behind a bad header is not looked at. -/
lemma readTable_of_error {H rest : Bytes} {e : StorageError} (hlen : H.length = 64)
    (h : SegmentHeader.ofBytes? H = .error e) : readTable (H ++ rest) = .error e := by
  have htake : (H ++ rest).take 64 = H := by rw [← hlen, List.take_left]
  have hlong : ¬(H ++ rest).length < 64 := by
    rw [List.length_append]
    omega
  simp only [readTable, SegmentHeader.byteCount, hlong, if_false, htake, h, bind, Except.bind]

/-- A table of the announced length is read if its size and its checksum agree with it. -/
lemma readTable_eq {H R T : Bytes} {h : SegmentHeader} (hlen : H.length = 64)
    (hheader : SegmentHeader.ofBytes? H = .ok h)
    (htable : T.length = h.count.toNat * Slot.byteCount) (size sum : UInt32) :
    readTable (H ++ (R ++ (T ++ (Bytes.ofUInt32 size ++ Bytes.ofUInt32 sum))))
      = if size.toNat ≠ T.length then .error (.corrupt (.footerSize size h.count))
        else if sum ≠ Crc32.checksum T then .error (.corrupt .footerChecksum)
        else .ok (h, readSlots h.count.toNat T) := by
  generalize hfile : H ++ (R ++ (T ++ (Bytes.ofUInt32 size ++ Bytes.ofUInt32 sum))) = file
  have htotal : file.length = 64 + R.length + T.length + 8 := by
    simp only [← hfile, List.length_append, Bytes.length_ofUInt32, hlen]
    omega
  have htake : file.take 64 = H := by rw [← hfile, ← hlen, List.take_left]
  have hsize : file.uint32At (file.length - 8) = size :=
    Bytes.uint32At_of_eq (a := H ++ (R ++ T)) (by rw [← hfile]; simp; rfl)
      (by rw [htotal]; simp only [List.length_append, hlen]; omega)
  have hsum : file.uint32At (file.length - 4) = sum :=
    Bytes.uint32At_of_eq (a := H ++ (R ++ (T ++ Bytes.ofUInt32 size))) (c := [])
      (by rw [← hfile]; simp)
      (by rw [htotal]; simp only [List.length_append, Bytes.length_ofUInt32, hlen]; omega)
  have hlong : ¬file.length < 64 := by omega
  simp only [readTable, SegmentHeader.byteCount, hlong, if_false, htake, hheader, hsize, hsum,
    ← htable, bind, Except.bind, pure, Except.pure]
  by_cases hagree : size.toNat = T.length
  · have hslice : file.slice (file.length - T.length - 8) T.length = T :=
      Bytes.slice_of_eq (a := H ++ R) (by rw [← hfile]; simp; rfl) (by
        rw [htotal]; simp only [List.length_append, hlen]; omega) rfl
    have hfits : ¬file.length < T.length + 8 := by omega
    simp only [hagree, ne_eq, not_true_eq_false, if_false, hfits, hslice]
    split_ifs <;> rfl
  · simp only [hagree, ne_eq, not_false_eq_true, if_true]
    rfl

/-- The parts of the file for some entries. -/
lemma file_eq (es : List Entry) : file es = (header es).toBytes
    ++ (es.flatMap (fun e => framed e.chunk.record) ++ footer (slots es)) :=
  List.append_assoc _ _ _

/-- The parts of the bytes behind the records. -/
lemma footer_eq (slots : List Slot) : footer slots = slots.flatMap Slot.toBytes
    ++ (Bytes.ofUInt32 (UInt32.ofNat (slots.flatMap Slot.toBytes).length)
      ++ Bytes.ofUInt32 (Crc32.checksum (slots.flatMap Slot.toBytes))) :=
  List.append_assoc _ _ _

lemma length_table (es : List Entry) : ((slots es).flatMap Slot.toBytes).length
    = es.length * Slot.byteCount := by
  rw [length_flatMap_toBytes, length_slots]

/-- The size of the table fits its field. -/
lemma toNat_length_table {es : List Entry} (h : 28 * es.length < 2 ^ 32) :
    (UInt32.ofNat ((slots es).flatMap Slot.toBytes).length).toNat
      = ((slots es).flatMap Slot.toBytes).length := by
  rw [UInt32.toNat_ofNat', Nat.mod_eq_of_lt (by rw [length_table, Slot.byteCount]; omega)]

/-- Header and table are read back, whatever stands between them. -/
lemma readTable_append {es : List Entry} (h : 28 * es.length < 2 ^ 32) (R : Bytes) :
    readTable ((header es).toBytes ++ (R ++ footer (slots es))) = .ok (header es, slots es) := by
  have hcount : (header es).count.toNat = es.length := count_header (by omega)
  have hslots := readSlots_flatMap (slots es)
  rw [length_slots] at hslots
  rw [footer_eq, readTable_eq (SegmentHeader.length_toBytes _)
    (SegmentHeader.ofBytes?_toBytes (by simp)) (by rw [length_table, hcount])]
  simp only [toNat_length_table h, hcount, hslots, ne_eq, not_true_eq_false, if_false]

/-- Header and table are read back from the file for some entries. -/
theorem readTable_file {es : List Entry} (h : 28 * es.length < 2 ^ 32) :
    readTable (file es) = .ok (header es, slots es) := by
  rw [file_eq, readTable_append h]

/-! ### Records -/

lemma length_framed (record : Bytes) : (framed record).length = record.length + 8 := by
  simp only [framed, List.length_append, Bytes.length_ofNatLE, Bytes.length_ofUInt32]
  omega

/-- A record of the listed length is read if its size and its checksum agree with it. -/
lemma readRecord_eq (path : Path) (number : Nat) {a record c : Bytes} {slot : Slot}
    (hoffset : slot.offset.toNat = a.length) (hfar : a.length < 2 ^ 63)
    (hlen : record.length = slot.size.toNat) (size sum : UInt32) :
    readRecord path (a ++ (Bytes.ofUInt32 size ++ (record ++ (Bytes.ofUInt32 sum ++ c))))
        number slot
      = if size ≠ slot.size then .error (.corrupt (.recordSize number path slot.size size))
        else if sum ≠ Crc32.checksum record then .error (.corrupt (.recordChecksum number path))
        else .ok record := by
  generalize hrest : Bytes.ofUInt32 size ++ (record ++ (Bytes.ofUInt32 sum ++ c)) = rest
  have htotal : rest.length = record.length + 8 + c.length := by
    simp only [← hrest, List.length_append, Bytes.length_ofUInt32]
    omega
  have hfirst : Bytes.uint32At rest 0 = size := Bytes.uint32At_of_eq (a := []) hrest.symm rfl
  have hnear : ¬0x8000000000000000 ≤ a.length := by omega
  have hlong : ¬rest.length < 4 := by omega
  simp only [readRecord, hoffset, hnear, List.drop_left, hlong, if_false, hfirst, bind, Except.bind,
    pure, Except.pure]
  by_cases hagree : size = slot.size
  · have hslice : Bytes.slice rest 4 record.length = record :=
      Bytes.slice_of_eq hrest.symm (by simp) rfl
    have hsum : Bytes.uint32At rest (4 + record.length) = sum :=
      Bytes.uint32At_of_eq (a := Bytes.ofUInt32 size ++ record) (c := c)
        (by rw [← hrest]; simp) (by simp)
    have hlong' : ¬rest.length < record.length + 8 := by omega
    simp only [hagree, ← hlen, ne_eq, not_true_eq_false, if_false, hlong', hslice, hsum]
    split_ifs <;> rfl
  · simp only [hagree, ne_eq, not_false_eq_true, if_true]
    rfl

lemma framed_eq {record : Bytes} (hfits : record.length < 2 ^ 32) :
    framed record = Bytes.ofUInt32 (UInt32.ofNat record.length)
      ++ (record ++ Bytes.ofUInt32 (Crc32.checksum record)) := by
  have hword : Bytes.ofNatLE 4 record.length = Bytes.ofUInt32 (UInt32.ofNat record.length) := by
    rw [Bytes.ofUInt32, UInt32.toNat_ofNat', Nat.mod_eq_of_lt hfits]
  rw [framed, List.append_assoc, hword]

/-- The slot for an entry whose record begins at a position. -/
def slotAt (position : Nat) (e : Entry) : Slot :=
  ⟨UInt64.ofNat position, UInt32.ofNat e.chunk.record.length, e.min, e.max⟩

lemma slotsFrom_cons (position : Nat) (e : Entry) (es : List Entry) : slotsFrom position (e :: es)
    = slotAt position e :: slotsFrom (position + e.chunk.record.length + 8) es := rfl

lemma toNat_offset_slotAt {position : Nat} (h : position < 2 ^ 63) (e : Entry) :
    (slotAt position e).offset.toNat = position := by
  rw [slotAt, UInt64.toNat_ofNat', Nat.mod_eq_of_lt (by omega)]

lemma toNat_size_slotAt {e : Entry} (hfits : e.chunk.record.length < 2 ^ 32) (position : Nat) :
    (slotAt position e).size.toNat = e.chunk.record.length := by
  rw [slotAt, UInt32.toNat_ofNat', Nat.mod_eq_of_lt hfits]

/-- A framed record is read back from its place in a file. -/
lemma readRecord_slotAt (path : Path) (number : Nat) {e : Entry} {a c : Bytes}
    (hfar : a.length < 2 ^ 63) (hfits : e.chunk.record.length < 2 ^ 32) :
    readRecord path (a ++ (framed e.chunk.record ++ c)) number (slotAt a.length e)
      = .ok e.chunk.record := by
  rw [framed_eq hfits, List.append_assoc, List.append_assoc, readRecord_eq path number
    (toNat_offset_slotAt hfar e) hfar (toNat_size_slotAt hfits _).symm]
  simp [slotAt]

/-- After its record an entry is complete. -/
lemma readEntries_slotAt {path : Path} {file : Bytes} {number position : Nat} {e : Entry}
    (hread : readRecord path file number (slotAt position e) = .ok e.chunk.record)
    (slots : List Slot) : readEntries path file number (slotAt position e :: slots)
      = (readEntries path file (number + 1) slots).map (e :: ·) := by
  rw [readEntries, hread]
  simp only [bind, Except.bind, pure, Except.pure, ClosedChunk.ofRecord?_record]
  cases readEntries path file (number + 1) slots <;> rfl

lemma oversized?_eq_none_iff {es : List Entry} :
    oversized? es = none ↔ ∀ e ∈ es, e.chunk.record.length < 2 ^ 32 := by
  simp [oversized?, List.find?_eq_none]

/-- The entries whose records stand in a file one behind the other are read back by their slots. -/
lemma readEntries_flatMap (path : Path) {es : List Entry}
    (hfits : ∀ e ∈ es, e.chunk.record.length < 2 ^ 32) (a c : Bytes) (number : Nat)
    (hfar : a.length + es.length * (2 ^ 32 + 8) < 2 ^ 63) :
    readEntries path (a ++ (es.flatMap (fun e => framed e.chunk.record) ++ c)) number
      (slotsFrom a.length es) = .ok es := by
  induction es generalizing a number with
  | nil => rfl
  | cons e es ih =>
    have hrecord := hfits e List.mem_cons_self
    rw [List.length_cons, Nat.succ_mul] at hfar
    have hrest := ih (fun e' he => hfits e' (List.mem_cons_of_mem _ he))
      (a ++ framed e.chunk.record) (number + 1)
      (by rw [List.length_append, length_framed]; omega)
    rw [List.length_append, length_framed, ← Nat.add_assoc, List.append_assoc] at hrest
    rw [List.flatMap_cons, List.append_assoc, slotsFrom_cons,
      readEntries_slotAt (readRecord_slotAt path number (by omega) hrecord), hrest]
    rfl

/-- All entries are read back from the file for them. -/
theorem readEntries_file (path : Path) {es : List Entry} (h : 28 * es.length < 2 ^ 32)
    (hfits : oversized? es = none) : readEntries path (file es) 0 (slots es) = .ok es := by
  have hlen := SegmentHeader.length_toBytes (header es)
  have hread := readEntries_flatMap path (oversized?_eq_none_iff.mp hfits) (header es).toBytes
    (footer (slots es)) 0 (by rw [hlen, SegmentHeader.byteCount]; omega)
  rw [hlen] at hread
  rw [file, List.append_assoc]
  exact hread

end Layout

end SeriesStore
