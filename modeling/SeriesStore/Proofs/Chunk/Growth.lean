import SeriesStore.Proofs.Chunk.Reading
import SeriesStore.Proofs.Chunk.RoundTrip
import SeriesStore.Proofs.Index.NewSegments

/-!
# How far a chunk grows

Each part of a stored sample has a least and a greatest length. A sample that is appended to a
chunk lengthens its stream by that much and leaves the bits before as they are. As a chunk takes at
most 65535 samples, its payload is bounded, and far too small for a record to be refused.
-/

namespace SeriesStore

/-! ### Numbers of variable length -/

namespace Varint

/-- A number has one group for each seven bits at most. -/
lemma length_encode_le {n v : Nat} (h : v < 2 ^ (7 * (n + 1))) :
    (encode v).length ≤ 8 * (n + 1) := by
  induction n generalizing v with
  | zero =>
    have hsmall : v < 128 := h
    rw [encode, if_pos hsmall, Bits.length_ofNat]
  | succ n ih =>
    rw [encode]
    split_ifs with hsmall
    · rw [Bits.length_ofNat]
      omega
    · have hrest := ih (div_lt_two_pow h)
      rw [List.length_append, Bits.length_ofNat]
      omega

/-- A word has at most ten groups. -/
lemma length_encode_word_le {v : Nat} (h : v < 2 ^ 64) : (encode v).length ≤ 80 :=
  length_encode_le (n := 9) (h.trans (by decide))

end Varint

/-! ### Intervals and values -/

lemma Interval.length_encode_le (change : Int64) : (encode change).length ≤ 68 := by
  unfold encode
  dsimp only
  split_ifs <;> simp [lowBits]

namespace Window

lemma size_le (w : Window) : w.size ≤ 64 := by
  unfold size
  omega

lemma length_encode_le (current : Option Window) (x : UInt64) :
    (encode current x).1.length ≤ 77 := by
  have hnew : ([true, true] ++ Bits.ofNat 5 (fitting x).leading ++ Bits.ofNat 6 (fitting x).size
      ++ (fitting x).inside x).length ≤ 77 := by
    have hsize := (fitting x).size_le
    simp only [inside, List.length_append, List.length_cons, List.length_nil, Bits.length_ofNat]
    omega
  unfold encode
  split_ifs with hx
  · simp
  · cases current with
    | none => exact hnew
    | some w =>
      dsimp only
      split_ifs
      · have hsize := w.size_le
        simp only [inside, List.length_append, List.length_cons, List.length_nil,
          Bits.length_ofNat]
        omega
      · exact hnew

end Window

/-! ### Samples -/

namespace StreamState

/-- The most bits that a sample takes, by the number of samples before it. -/
def mostBits : Nat → Nat
  | 0 => 144
  | 1 => 157
  | _ => 145

/-- A sample that is taken back was stored in at least as many bits as taking it needs. -/
lemma leastBits_le_length_encode {s : StreamState} (h : Window.InUse s.window) (x : Sample) :
    leastBits s.count ≤ (s.encode x).1.length := by
  have hbits : BitReader.toBits ⟨(s.encode x).1, [], 0⟩ = (s.encode x).1 ++ [] := rfl
  obtain ⟨r, hr, hrest, -⟩ := takes_decode h x _ _ hbits
  obtain ⟨-, bs, hlen, htaken, -⟩ := (reads_decode h).takes hr
  rw [hrest, hbits, List.append_nil, List.append_nil] at htaken
  rwa [htaken]

lemma length_encode_le_mostBits (s : StreamState) (x : Sample) :
    (s.encode x).1.length ≤ mostBits s.count := by
  obtain ⟨count, last, interval, window⟩ := s
  have hvalue := Window.length_encode_le window (x.value ^^^ last.value)
  match count with
  | 0 =>
    have htime := Varint.length_encode_word_le (Varint.fold_toInt_lt x.time)
    simp only [encode, Varint.encodeSigned, mostBits, List.length_append, Bits.length_ofNat]
    omega
  | 1 =>
    have hinterval := Varint.length_encode_word_le (x.time - last.time).toUInt64.toNat_lt
    simp only [encode, mostBits, List.length_append]
    omega
  | n + 2 =>
    have hchange := Interval.length_encode_le (x.time - last.time - interval)
    simp only [encode, mostBits, List.length_append]
    omega

/-- What the samples still to come can take beyond 145 bits each. -/
def excess : Nat → Nat
  | 0 => 11
  | 1 => 12
  | _ => 0

lemma mostBits_add_excess (n : Nat) : mostBits n + excess (n + 1) ≤ 145 + excess n := by
  match n with
  | 0 | 1 => decide
  | _ + 2 => exact Nat.le_refl 145

lemma length_encodeAll_le (s : StreamState) (xs : List Sample) :
    (s.encodeAll xs).length ≤ 145 * xs.length + excess s.count := by
  induction xs generalizing s with
  | nil => exact Nat.zero_le _
  | cons x xs ih =>
    have hfirst := s.length_encode_le_mostBits x
    have hrest := ih (s.encode x).2
    have hexcess := mostBits_add_excess s.count
    rw [count_encode] at hrest
    rw [encodeAll, List.length_append, List.length_cons]
    omega

end StreamState

/-! ### Chunks -/

namespace Chunk

/-- The chunk `c'` is `c` with some bits behind its stream. The bytes behind the header are the
stream, filled up with fewer than eight zeros; no earlier bit of the stream changes, and the header
counts one more sample. -/
structure Lengthens (c c' : Chunk) (new : Bits) : Prop where
  stream : c'.stream.toBits = c.stream.toBits ++ new
  before : ∃ pad < 8, Bits.ofBytes (c.payload.drop 2)
    = c.stream.toBits ++ List.replicate pad false
  after : ∃ pad < 8, Bits.ofBytes (c'.payload.drop 2)
    = c.stream.toBits ++ new ++ List.replicate pad false
  header : c'.payload.take 2 = Bytes.ofCount (c.size + 1)

variable {c c' : Chunk} {xs : List Sample} {x : Sample}

lemma Holds.ofBytes_drop (h : c.Holds xs) : ∃ pad < 8,
    Bits.ofBytes (c.payload.drop 2) = c.stream.toBits ++ List.replicate pad false := by
  rw [h.bits]
  exact h.ofBytes_payload

lemma inUse_after (xs : List Sample) : Window.InUse (StreamState.after {} xs).window := by
  induction xs using List.reverseRecOn with
  | nil => simp [Window.InUse]
  | append_singleton xs x ih =>
    rw [StreamState.after_append]
    exact StreamState.inUse_encode ih x

/-- What is appended to a chunk is the stored form of the sample. -/
lemma Holds.lengthens (h : c.Holds xs) (happend : c.append? x = some c') :
    Lengthens c c' (c.state.encode x).1 := by
  have hfree : xs.length < capacity := by
    by_contra hfull
    rw [h.append?_eq_none (not_lt.mp hfull)] at happend
    cases happend
  obtain ⟨c'', happend', h'⟩ := h.append?_eq_some hfree x
  cases happend.symm.trans happend'
  have hstream : c'.stream.toBits = c.stream.toBits ++ (c.state.encode x).1 := by
    rw [h'.bits, h.bits, h.state, StreamState.encodeAll_append]
    simp [StreamState.encodeAll]
  refine ⟨hstream, h.ofBytes_drop, ?_, ?_⟩
  · rw [← hstream]
    exact h'.ofBytes_drop
  · have hsize : c'.size = c.size + 1 := by
      rw [h'.size_eq, h.size_eq, List.length_append, List.length_singleton]
    rw [← hsize]
    rfl

/-- The bits of a sample are as many as its place in the chunk allows. -/
lemma Holds.length_encode (h : c.Holds xs) (x : Sample) :
    StreamState.leastBits c.size ≤ (c.state.encode x).1.length
      ∧ (c.state.encode x).1.length ≤ StreamState.mostBits c.size := by
  have hwindow : Window.InUse c.state.window := h.state ▸ inUse_after xs
  exact ⟨StreamState.leastBits_le_length_encode hwindow x, c.state.length_encode_le_mostBits x⟩

lemma Holds.length_payload_le (h : c.Holds xs) : c.payload.length ≤ 1187826 := by
  obtain ⟨pad, hpad, hbits⟩ := h.ofBytes_payload
  have hlength := congrArg List.length hbits
  rw [Bits.length_ofBytes, List.length_drop, List.length_append, List.length_replicate] at hlength
  have hstream : (StreamState.encodeAll {} xs).length ≤ 145 * xs.length + 11 :=
    StreamState.length_encodeAll_le {} xs
  have hfits : xs.length ≤ 65535 := h.fits
  omega

/-- The record of a chunk is never too large for a segment. -/
lemma oversized?_ofChunk? (xss : List (List Sample)) :
    Layout.oversized? (xss.filterMap fun xs => Entry.ofChunk? (ofSamples xs)) = none := by
  rw [Layout.oversized?_eq_none_iff]
  intro e he
  obtain ⟨xs, -, hentry⟩ := List.mem_filterMap.mp he
  obtain ⟨b, -, rfl⟩ := Option.map_eq_some_iff.mp hentry
  have hpayload := (holds_ofSamples xs).length_payload_le
  calc (ofSamples xs).payload.length + 1 ≤ 1187826 + 1 := Nat.succ_le_succ hpayload
    _ < 2 ^ 32 := by decide

/-- A sample that a chunk takes lengthens its stream by 72 to 144 bits if it is the first one, by 9
to 157 if it is the second one, and by 2 to 145 otherwise; of what was there before, only the two
bytes of the count change. So a payload has at most 1187826 bytes, and a segment of chunks can only
fail to be written by an error of the disk: no record is too large. -/
theorem growth_bounded (xs : List Sample) :
    (∀ x c', (ofSamples xs).append? x = some c' → ∃ new, Lengthens (ofSamples xs) c' new
        ∧ (match (ofSamples xs).size with
          | 0 => 72 ≤ new.length ∧ new.length ≤ 144
          | 1 => 9 ≤ new.length ∧ new.length ≤ 157
          | _ => 2 ≤ new.length ∧ new.length ≤ 145))
      ∧ (ofSamples xs).payload.length ≤ 1187826
      ∧ ∀ (xss : List (List Sample)) (path : Path) (d d' : Disk) (e : StorageError),
        (Segment.write path (xss.filterMap fun xs => Entry.ofChunk? (ofSamples xs))).on d
            = (.error e, d') →
          (∃ io, e = .io io) ∧ ∀ n, e ≠ .invalidIndex (.largeRecord n) := by
  have hholds := holds_ofSamples xs
  refine ⟨fun x c' happend => ⟨_, hholds.lengthens happend, ?_⟩, hholds.length_payload_le,
    fun xss path d d' e hwrite => ?_⟩
  · have hlength := hholds.length_encode x
    match hsize : (ofSamples xs).size with
    | 0 | 1 | n + 2 =>
      rw [hsize] at hlength
      exact hlength
  · obtain ⟨io, rfl⟩ := Segment.failsByIo_write (oversized?_ofChunk? xss) d e d' hwrite
    exact ⟨⟨io, rfl⟩, fun n h => nomatch h⟩

end Chunk

end SeriesStore
