import SeriesStore.Index.Manifest
import SeriesStore.Proofs.Json.RoundTrip
import SeriesStore.Proofs.Text.Instant
import SeriesStore.Proofs.Text.Uid

/-!
# Reading written manifests

A manifest is read back from its text, whatever the names of its segment files are.
-/

namespace SeriesStore.Manifest

open Json

lemma plain_rangeDatum (r : TimeRange) : Plain (rangeDatum r) := by
  refine .record ?_
  simp only [List.forall_mem_cons]
  exact ⟨.int _, .int _, by simp⟩

lemma plain_toDatum (m : Manifest) : Plain m.toDatum := by
  have hsegments : Plain (.list (m.segments.map .text)) := by
    refine .list ?_
    simp only [List.forall_mem_map]
    exact fun name _ => .text name
  refine .record ?_
  simp only [List.forall_mem_cons]
  exact ⟨.text _, plain_rangeDatum _, .text _, .text _, hsegments, .int _, by simp⟩

lemma int64?_toInt (t : Int64) : (Datum.int t.toInt).int64? = some t := by
  rw [Datum.int64?, if_pos ⟨t.le_toInt, t.toInt_lt⟩, Int64.ofInt_toInt]

lemma uint64?_toNat (n : UInt64) : (Datum.int n.toNat).uint64? = some n := by
  have h := n.toNat_lt
  simp only [Datum.uint64?]
  rw [if_pos (by omega)]
  simp

lemma texts?_map_text (names : List String) :
    (Datum.list (names.map .text)).texts? = some names := by
  simp only [Datum.texts?]
  induction names with
  | nil => rfl
  | cons name names ih => simp [List.mapM_cons, ih, Datum.text?]

lemma bounds?_rangeDatum (r : TimeRange) : bounds? (rangeDatum r) = some (r.start, r.stop) := by
  have hfields : (rangeDatum r).fields? ["start", "end"]
      = some [some (.int r.start.toInt), some (.int r.stop.toInt)] := by
    simp [rangeDatum, Datum.fields?, List.lookup]
  simp [bounds?, hfields, int64?_toInt]

lemma resolution?_name (r : Resolution) : resolution? (some (.text r.name)) = some r :=
  Resolution.ofName?_name r

lemma fields?_of_values (id range resolution createdAt segments next : Datum)
    {d : Datum} {m : Manifest}
    (hfields : d.fields?
        ["id", "time_range", "resolution", "created_at", "segments", "next_segment"]
      = some [some id, some range, some resolution, some createdAt, some segments, some next])
    (hid : id.text?.bind Uid.ofText? = some m.id)
    (hrange : bounds? range = some (m.range.start, m.range.stop))
    (hresolution : resolution? (some resolution) = some m.resolution)
    (hcreated : createdAt.text?.bind Instant.ofText? = some m.createdAt)
    (hsegments : segments.texts? = some m.segments) (hnext : next.uint64? = some m.nextSegment) :
    fields? d = some ((m.range.start, m.range.stop),
      fun range => ⟨m.id, range, m.resolution, m.createdAt, m.segments, m.nextSegment⟩) := by
  obtain ⟨idText, hidText, hid⟩ := Option.bind_eq_some_iff.mp hid
  obtain ⟨createdText, hcreatedText, hcreated⟩ := Option.bind_eq_some_iff.mp hcreated
  rw [fields?, hfields]
  simp only [Option.bind_eq_bind, Option.bind_some, hidText, hid, hrange, hresolution,
    hcreatedText, hcreated, hsegments, hnext]
  rfl

lemma fields?_toDatum (m : Manifest) : fields? m.toDatum = some ((m.range.start, m.range.stop),
    fun range => ⟨m.id, range, m.resolution, m.createdAt, m.segments, m.nextSegment⟩) := by
  refine fields?_of_values (.text m.id.toText) (rangeDatum m.range)
    (.text m.resolution.name) (.text m.createdAt.toText) (.list (m.segments.map .text))
    (.int m.nextSegment.toNat) ?_ ?_ ?_ ?_ ?_ ?_ ?_
  · simp [toDatum, Datum.fields?, List.lookup]
  · rw [Datum.text?, Option.bind_some, Uid.ofText?_toText]
  · exact bounds?_rangeDatum m.range
  · exact resolution?_name m.resolution
  · rw [Datum.text?, Option.bind_some, Instant.ofText?_toText]
  · exact texts?_map_text m.segments
  · exact uint64?_toNat m.nextSegment

/-- A manifest is read back from its text. -/
theorem ofText?_toText (m : Manifest) : ofText? m.toText = .ok m := by
  have hrange : TimeRange.of? m.range.start m.range.stop = some m.range :=
    TimeRange.of?_eq_some_iff.mpr ⟨rfl, rfl⟩
  rw [ofText?, toText, parse?_pretty (plain_toDatum m), Option.bind_some, fields?_toDatum]
  simp [hrange]

/-- No manifest starts like a segment file. -/
lemma ofText?_of_head {s : String} {cs : List Char} (h : s.toList = 'T' :: cs) :
    ofText? s = .error .malformed := by
  have hparse : parse? s = none := by
    rw [parse?, h]
    simp [value?, skipBlanks, number?, digits]
  rw [ofText?, hparse]
  rfl

end SeriesStore.Manifest
