import SeriesStore.Proofs.Disk.Placing
import SeriesStore.Proofs.Segment.RoundTrip
import SeriesStore.Segment.Basic

/-!
# Stored segments

When a segment has been written, its file is found under its path, opens as the segment and gives
back all entries. The records stand in the file one behind the other.
-/

namespace SeriesStore

/-! ### Bounds in the header -/

namespace SegmentHeader

/-- The bounds in a header are the least and the greatest ones of some entries. Without entries they
are inverted. -/
structure Bounds (h : SegmentHeader) (es : List Entry) : Prop where
  min_le : ∀ e ∈ es, h.min ≤ e.min
  le_max : ∀ e ∈ es, e.max ≤ h.max
  min : (∃ e ∈ es, e.min = h.min) ∨ es = [] ∧ h.min = Int64.maxValue
  max : (∃ e ∈ es, e.max = h.max) ∨ es = [] ∧ h.max = Int64.minValue

/-- The better one of two timestamps is kept at each step, so that the best one is left. -/
lemma foldl_better (better : Int64 → Int64 → Prop) [DecidableRel better]
    (hasymm : ∀ {s t}, better s t → ¬better t s)
    (htrans : ∀ {s t u}, ¬better s t → ¬better t u → ¬better s u) (f : Entry → Int64) (m : Int64)
    (es : List Entry) :
    let best := es.foldl (fun m e => if better (f e) m then f e else m) m
    ¬better m best ∧ (∀ e ∈ es, ¬better (f e) best) ∧ (best = m ∨ ∃ e ∈ es, f e = best) := by
  induction es generalizing m with
  | nil => exact ⟨fun h => hasymm h h, by simp, .inl rfl⟩
  | cons e es ih =>
    simp only [List.foldl_cons]
    by_cases h : better (f e) m
    · obtain ⟨hfirst, hall, hattained⟩ := ih (f e)
      simp only [if_pos h] at hfirst hall hattained ⊢
      refine ⟨htrans (hasymm h) hfirst, List.forall_mem_cons.mpr ⟨hfirst, hall⟩, .inr ?_⟩
      rcases hattained with hbest | ⟨e', he', hbest⟩
      · exact ⟨e, List.mem_cons_self, hbest.symm⟩
      · exact ⟨e', List.mem_cons_of_mem _ he', hbest⟩
    · obtain ⟨hfirst, hall, hattained⟩ := ih m
      simp only [if_neg h] at hfirst hall hattained ⊢
      refine ⟨hfirst, List.forall_mem_cons.mpr ⟨htrans h hfirst, hall⟩, hattained.imp_right ?_⟩
      rintro ⟨e', he', hbest⟩
      exact ⟨e', List.mem_cons_of_mem _ he', hbest⟩

lemma bounds_header (es : List Entry) : (Layout.header es).Bounds es := by
  have hmin : (Layout.header es).min
      = es.foldl (fun m e => if e.min < m then e.min else m) Int64.maxValue := List.foldl_map
  have hmax : (Layout.header es).max
      = es.foldl (fun m e => if m < e.max then e.max else m) Int64.minValue := List.foldl_map
  obtain ⟨hbelow, hleast, hattained⟩ := foldl_better (· < ·) Int64.lt_asymm
    (fun h h' => Int64.not_lt.mpr (Int64.le_trans (Int64.not_lt.mp h') (Int64.not_lt.mp h)))
    Entry.min Int64.maxValue es
  obtain ⟨habove, hgreatest, hattained'⟩ := foldl_better (fun s t => t < s) Int64.lt_asymm
    (fun h h' => Int64.not_lt.mpr (Int64.le_trans (Int64.not_lt.mp h) (Int64.not_lt.mp h')))
    Entry.max Int64.minValue es
  rw [← hmin] at hleast hattained
  rw [← hmax] at hgreatest hattained'
  refine ⟨fun e he => Int64.not_lt.mp (hleast e he), fun e he => Int64.not_lt.mp (hgreatest e he),
    ?_, ?_⟩
  · rcases hattained with hinitial | hentry
    · cases es with
      | nil => exact .inr ⟨rfl, hinitial⟩
      | cons e es =>
        have hle := Int64.not_lt.mp (hleast e List.mem_cons_self)
        exact .inl ⟨e, List.mem_cons_self, Int64.le_antisymm (hinitial ▸ Int64.le_maxValue _) hle⟩
    · exact .inl hentry
  · rcases hattained' with hinitial | hentry
    · cases es with
      | nil => exact .inr ⟨rfl, hinitial⟩
      | cons e es =>
        have hle := Int64.not_lt.mp (hgreatest e List.mem_cons_self)
        exact .inl ⟨e, List.mem_cons_self, Int64.le_antisymm hle (hinitial ▸ Int64.minValue_le _)⟩
    · exact .inl hentry

end SegmentHeader

/-! ### Slots -/

namespace Layout

/-- The records in some slots fill a part of a file without gaps, each between four bytes for its
size and four for its checksum. -/
inductive Tiles : Nat → List Slot → Nat → Prop
  | nil (stop : Nat) : Tiles stop [] stop
  | cons (slot : Slot) {slots : List Slot} {stop : Nat}
    (rest : Tiles (slot.offset.toNat + slot.size.toNat + 8) slots stop) :
    Tiles slot.offset.toNat (slot :: slots) stop

/-- A slot has the bounds of an entry and the size of its record. -/
structure Describes (slot : Slot) (e : Entry) : Prop where
  min : slot.min = e.min
  max : slot.max = e.max
  size : slot.size.toNat = e.chunk.record.length

lemma describes_slotsFrom {es : List Entry} (hfits : ∀ e ∈ es, e.chunk.record.length < 2 ^ 32)
    (position : Nat) : List.Forall₂ Describes (slotsFrom position es) es := by
  induction es generalizing position with
  | nil => exact .nil
  | cons e es ih =>
    rw [slotsFrom_cons]
    refine .cons ⟨rfl, rfl, ?_⟩ (ih (fun e' he' => hfits e' (List.mem_cons_of_mem _ he')) _)
    exact toNat_size_slotAt (hfits e List.mem_cons_self) position

lemma tiles_slotsFrom {es : List Entry} (hfits : ∀ e ∈ es, e.chunk.record.length < 2 ^ 32)
    (position : Nat) (hfar : position + es.length * (2 ^ 32 + 8) < 2 ^ 63) :
    Tiles position (slotsFrom position es)
      (position + (es.flatMap fun e => framed e.chunk.record).length) := by
  induction es generalizing position with
  | nil => exact .nil position
  | cons e es ih =>
    have hrecord := hfits e List.mem_cons_self
    rw [List.length_cons, Nat.succ_mul] at hfar
    have hoffset := toNat_offset_slotAt (show position < 2 ^ 63 by omega) e
    have hrest := ih (fun e' he' => hfits e' (List.mem_cons_of_mem _ he'))
      (position + e.chunk.record.length + 8) (by omega)
    have htiles := Tiles.cons (slotAt position e)
      (by rwa [hoffset, toNat_size_slotAt hrecord])
    rw [hoffset] at htiles
    rw [slotsFrom_cons, List.flatMap_cons, List.length_append, length_framed, ← Nat.add_assoc,
      ← Nat.add_assoc]
    exact htiles

lemma length_file (es : List Entry) : (file es).length
    = 64 + (es.flatMap fun e => framed e.chunk.record).length + 28 * es.length + 8 := by
  have hheader := SegmentHeader.length_toBytes (header es)
  rw [SegmentHeader.byteCount] at hheader
  simp only [file_eq, footer_eq, List.length_append, Bytes.length_ofUInt32, hheader, length_table,
    Slot.byteCount]
  omega

end Layout

namespace Segment

open Layout

variable {d d' : Disk} {path : Path} {es : List Entry} {s : Segment}

/-! ### Files -/

/-- A segment that has been written is in its place, with the contents for the entries. -/
lemma of_on_write (h : (write path es).on d = (.ok s, d')) :
    s = ofEntries path es ∧ oversized? es = none ∧ d'.read path = .ok (file es) := by
  unfold write at h
  obtain ⟨r, d₁, hbody, hreturn⟩ := DiskM.on_bind_eq_ok h
  replace hbody := DiskM.of_on_tryCatch (fun e d₂ d₃ hthrow => by
    obtain ⟨_, _, _, hnever⟩ := DiskM.on_bind_eq_ok hthrow
    cases hnever) hbody
  cases hover : oversized? es with
  | some n =>
    simp only [hover] at hbody
    obtain ⟨_, _, _, hnever⟩ := DiskM.on_bind_eq_ok hbody
    cases hnever
  | none =>
    simp only [hover] at hbody
    obtain ⟨_, d₂, hwrite, hbody⟩ := DiskM.on_bind_eq_ok hbody
    obtain ⟨_, d₃, hrename, hbody⟩ := DiskM.on_bind_eq_ok hbody
    cases hbody
    cases hreturn
    exact ⟨rfl, rfl, DiskM.read_of_on_rename hwrite hrename⟩

lemma on_read_of_read {content : Bytes} (h : d.read path = .ok content) :
    (DiskM.read path).on d = (.ok content, d) := by
  rw [DiskM.read, DiskM.on_ask, h]

/-- The file of a segment that has been written opens as the segment, with the header and the table
that were written, and gives back the entries in order. The header has the bounds over all entries.
The records fill the file from the header up to the table, and the file ends eight bytes behind the
table. -/
theorem write_roundTrip (hsmall : 28 * es.length < 2 ^ 32)
    (h : (write path es).on d = (.ok s, d')) :
    ∃ content, (DiskM.read path).on d' = (.ok content, d')
      ∧ (Segment.open path).on d' = (.ok s, d') ∧ (entries s).on d' = (.ok es, d')
      ∧ s.header.Bounds es ∧ s.header.count.toNat = es.length ∧ List.Forall₂ Describes s.slots es
      ∧ ∃ stop, Tiles 64 s.slots stop ∧ content.length = stop + 28 * s.slots.length + 8 := by
  obtain ⟨rfl, hover, hread⟩ := of_on_write h
  have hon := on_read_of_read hread
  have hfits := oversized?_eq_none_iff.mp hover
  refine ⟨file es, hon, ?_, ?_, SegmentHeader.bounds_header es, count_header (by omega),
    describes_slotsFrom hfits _, _, tiles_slotsFrom hfits 64 (by omega), ?_⟩
  · rw [Segment.open, DiskM.on_bind_ok hon, readTable_file hsmall]
    rfl
  · rw [entries, DiskM.on_bind_ok (by exact hon)]
    exact congrArg (·, d') (readEntries_file path hsmall hover)
  · exact (length_file es).trans (by simp [ofEntries])

/-- Two entries out of order: the first one has inverted bounds and no payload. -/
def unordered : List Entry := [⟨5, -3, ⟨.xor, []⟩⟩, ⟨-9, 7, ⟨.xor, [1, 2, 3]⟩⟩]

theorem write_roundTrip_unordered : 28 * unordered.length < 2 ^ 32
    ∧ ∃ d', (write ⟨["a"]⟩ unordered).on {} = (.ok (ofEntries ⟨["a"]⟩ unordered), d')
      ∧ (Segment.open ⟨["a"]⟩).on d' = (.ok (ofEntries ⟨["a"]⟩ unordered), d')
      ∧ (entries (ofEntries ⟨["a"]⟩ unordered)).on d' = (.ok unordered, d')
      ∧ (Layout.header unordered).Bounds unordered := by
  have hwrite : (write ⟨["a"]⟩ unordered).on {}
      = (.ok (ofEntries ⟨["a"]⟩ unordered), ((write ⟨["a"]⟩ unordered).on {}).2) := rfl
  obtain ⟨content, -, hopen, hentries, hbounds, -⟩ := write_roundTrip (by decide) hwrite
  exact ⟨by decide, _, hwrite, hopen, hentries, hbounds⟩

end Segment

end SeriesStore
