import SeriesStore.Chunk.Closed
import SeriesStore.Proofs.Chunk.Samples

/-!
# Chunks give back their samples

A chunk takes the first 65535 samples that it is given and refuses all later ones. Read from its
payload, from its closed form or from its record, it yields the samples that it took, bit for bit
and in order, and then ends without damage.
-/

namespace SeriesStore

/-! ### Runs of samples -/

namespace StreamState

@[simp] lemma after_nil (s : StreamState) : s.after [] = s := rfl

@[simp] lemma after_cons (s : StreamState) (x : Sample) (xs : List Sample) :
    s.after (x :: xs) = (s.encode x).2.after xs := rfl

lemma after_append (s : StreamState) (xs ys : List Sample) :
    s.after (xs ++ ys) = (s.after xs).after ys := List.foldl_append

lemma count_after (s : StreamState) (xs : List Sample) :
    (s.after xs).count = s.count + xs.length := by
  induction xs generalizing s with
  | nil => rfl
  | cons x xs ih => rw [after_cons, ih, count_encode, List.length_cons]; omega

lemma last_after_concat (s : StreamState) (xs : List Sample) (x : Sample) :
    (s.after (xs ++ [x])).last = x := by
  simp [after_append]

lemma encodeAll_append (s : StreamState) (xs ys : List Sample) :
    s.encodeAll (xs ++ ys) = s.encodeAll xs ++ (s.after xs).encodeAll ys := by
  induction xs generalizing s with
  | nil => rfl
  | cons x xs ih => simp [encodeAll, ih]

end StreamState

namespace Cursor

/-- A cursor in front of the stored form of samples reads them all, and stands in front of what
follows. -/
lemma drainOnto_encodeAll {s : StreamState} (h : Window.InUse s.window) (xs seen : List Sample)
    {r : BitReader} {rest : Bits} (hr : r.toBits = s.encodeAll xs ++ rest) :
    ∃ r', drainOnto xs.length ⟨xs.length, s, r, none⟩ seen
      = (seen.reverse ++ xs, ⟨0, s.after xs, r', none⟩) := by
  induction xs generalizing s r seen with
  | nil => exact ⟨r, by simp [drainOnto]⟩
  | cons x xs ih =>
    rw [StreamState.encodeAll, List.append_assoc] at hr
    obtain ⟨r₁, hdecode, hbits, -⟩ := StreamState.takes_decode h x r _ hr
    have hnext : next ⟨xs.length + 1, s, r, none⟩
        = (some x, ⟨xs.length, (s.encode x).2, r₁, none⟩) := by
      simp [next, hdecode]
    obtain ⟨r', hdrain⟩ := ih (StreamState.inUse_encode h x) (x :: seen) hbits
    refine ⟨r', ?_⟩
    rw [List.length_cons, drainOnto, hnext]
    simpa using hdrain

end Cursor

namespace Chunk

/-! ### What a chunk holds -/

/-- The chunk `c` has taken the samples `xs`, and no others. -/
structure Holds (c : Chunk) (xs : List Sample) : Prop where
  state : c.state = StreamState.after {} xs
  bits : c.stream.toBits = StreamState.encodeAll {} xs
  valid : c.stream.Valid
  first : ∀ x ∈ xs.head?, c.first = x.time
  fits : xs.length ≤ capacity

lemma holds_empty : Holds empty [] :=
  ⟨rfl, rfl, BitWriter.valid_empty, by simp, by simp⟩

lemma Holds.size_eq {c : Chunk} {xs : List Sample} (h : c.Holds xs) : c.size = xs.length := by
  rw [size, h.state, StreamState.count_after]
  simp

lemma Holds.append?_eq_none {c : Chunk} {xs : List Sample} (h : c.Holds xs)
    (hfull : capacity ≤ xs.length) (x : Sample) : c.append? x = none := by
  simp [append?, isFull, h.size_eq, hfull]

lemma Holds.append?_eq_some {c : Chunk} {xs : List Sample} (h : c.Holds xs)
    (hfree : xs.length < capacity) (x : Sample) :
    ∃ c', c.append? x = some c' ∧ c'.Holds (xs ++ [x]) := by
  have hfull : c.isFull = false := by simp [isFull, h.size_eq, hfree]
  refine ⟨⟨c.stream.append (c.state.encode x).1, (c.state.encode x).2,
    if c.size = 0 then x.time else c.first⟩, by simp [append?, hfull], ?_⟩
  refine ⟨?_, ?_, h.valid.append _, ?_, ?_⟩
  · simp [h.state, StreamState.after_append]
  · simp [BitWriter.toBits_append, h.bits, h.state, StreamState.encodeAll_append,
      StreamState.encodeAll]
  · intro y hy
    cases xs with
    | nil => simpa [h.size_eq] using congrArg Sample.time (by simpa using hy)
    | cons z zs => simpa [h.size_eq] using h.first y (by simpa using hy)
  · simp only [List.length_append, List.length_singleton]
    omega

lemma ofSamples_concat (xs : List Sample) (x : Sample) :
    ofSamples (xs ++ [x]) = ((ofSamples xs).append? x).getD (ofSamples xs) := by
  simp [ofSamples, List.foldl_append]

/-- A new chunk holds the leading samples that it is given. -/
lemma holds_ofSamples (xs : List Sample) : (ofSamples xs).Holds (xs.take capacity) := by
  induction xs using List.reverseRecOn with
  | nil => exact holds_empty
  | append_singleton xs x ih =>
    rw [ofSamples_concat]
    rcases lt_or_ge xs.length capacity with hfree | hfull
    · rw [List.take_of_length_le hfree.le] at ih
      obtain ⟨c', happend, hholds⟩ := ih.append?_eq_some hfree x
      rw [happend, Option.getD_some, List.take_of_length_le (by simp; omega)]
      exact hholds
    · have hlen : capacity ≤ (xs.take capacity).length := by simp [hfull]
      rw [ih.append?_eq_none hlen, Option.getD_none, List.take_append_of_le_length hfull]
      exact ih

/-- A full chunk stays as it is. -/
lemma ofSamples_take (xs : List Sample) : ofSamples (xs.take capacity) = ofSamples xs := by
  induction xs using List.reverseRecOn with
  | nil => rfl
  | append_singleton xs x ih =>
    rcases lt_or_ge xs.length capacity with hfree | hfull
    · rw [List.take_of_length_le (by simp; omega)]
    · have hlen : capacity ≤ (xs.take capacity).length := by simp [hfull]
      rw [List.take_append_of_le_length hfull, ih, ofSamples_concat,
        (holds_ofSamples xs).append?_eq_none hlen, Option.getD_none]

lemma append?_ofSamples (xs : List Sample) (x : Sample) :
    (ofSamples xs).append? x
      = if xs.length < capacity then some (ofSamples (xs ++ [x])) else none := by
  have hholds := holds_ofSamples xs
  split_ifs with hfree
  · rw [List.take_of_length_le hfree.le] at hholds
    obtain ⟨c', happend, -⟩ := hholds.append?_eq_some hfree x
    rw [ofSamples_concat, happend, Option.getD_some]
  · exact hholds.append?_eq_none (by simp; omega) x

lemma Holds.bounds?_eq {c : Chunk} {xs : List Sample} (h : c.Holds xs) :
    c.bounds? = xs.head?.bind fun x => xs.getLast?.map fun y => (x.time, y.time) := by
  rcases List.eq_nil_or_concat xs with rfl | ⟨ys, y, rfl⟩
  · simp [bounds?, h.size_eq]
  · rw [List.concat_eq_append] at *
    have hlast : c.state.last = y := by
      rw [h.state, StreamState.last_after_concat]
    obtain ⟨x, hx⟩ : ∃ x, (ys ++ [y]).head? = some x := by cases ys <;> simp
    simp [bounds?, h.size_eq, hlast, hx, h.first x hx]

end Chunk

/-! ### Reading back -/

/-- A cursor yields exactly some samples, meets no damage, and stays behind the last of them. -/
def Cursor.Yields (c : Cursor) (xs : List Sample) : Prop :=
  c.drain.1 = xs ∧ c.drain.2.damage = none ∧ c.drain.2.next = (none, c.drain.2)

lemma Cursor.announced_append {n : Nat} (h : n ≤ Chunk.capacity) (bs : Bytes) :
    announced (Bytes.ofCount n ++ bs) = n := by
  unfold Chunk.capacity at h
  simp only [Bytes.ofCount, List.cons_append, announced, UInt8.toNat_ofNat']
  omega

/-- The stream in a payload is the stored form of the samples, filled up to whole bytes. -/
lemma Chunk.Holds.ofBytes_payload {c : Chunk} {xs : List Sample} (h : c.Holds xs) :
    ∃ pad < 8, Bits.ofBytes (c.payload.drop 2)
      = StreamState.encodeAll {} xs ++ List.replicate pad false := by
  obtain ⟨pad, hlt, hpad⟩ := BitWriter.ofBytes_bytes h.valid
  exact ⟨pad, hlt, by rw [← h.bits, ← hpad]; rfl⟩

lemma Chunk.two_le_length_payload (c : Chunk) : 2 ≤ c.payload.length := by
  simp [payload, Bytes.ofCount]

/-- Two bytes are enough to read the number of samples from a payload. -/
lemma Cursor.ofPayload_take {c : Chunk} {xs : List Sample} (h : c.Holds xs) (bs : Bytes) :
    ofPayload (c.payload.take 2 ++ bs)
      = ⟨xs.length, {}, BitReader.ofBytes (c.payload.take 2 ++ bs) 2, none⟩ := by
  have hheader : c.payload.take 2 = Bytes.ofCount xs.length := by
    rw [← h.size_eq]
    rfl
  have hannounced : announced (c.payload.take 2 ++ bs) = xs.length := by
    rw [hheader]
    exact announced_append h.fits bs
  have hlength : ¬(c.payload.take 2 ++ bs).length < 2 := by simp [hheader, Bytes.ofCount]
  rw [ofPayload, hannounced, if_neg hlength]

/-- Whatever follows a payload is not read. -/
lemma Cursor.yields_payload_append {c : Chunk} {xs : List Sample} (h : c.Holds xs) (bs : Bytes) :
    (ofPayload (c.payload ++ bs)).Yields xs := by
  obtain ⟨pad, -, hpad⟩ := h.ofBytes_payload
  have hbits : (BitReader.ofBytes (c.payload ++ bs) 2).toBits
      = StreamState.encodeAll {} xs ++ (List.replicate pad false ++ Bits.ofBytes bs) := by
    rw [BitReader.toBits_ofBytes, List.drop_append_of_le_length c.two_le_length_payload,
      Bits.ofBytes_append, hpad, List.append_assoc]
  have hwindow : Window.InUse (StreamState.window {}) := by simp [Window.InUse]
  obtain ⟨r', hdrain⟩ := drainOnto_encodeAll hwindow xs [] hbits
  have hstart := ofPayload_take h (c.payload.drop 2 ++ bs)
  rw [← List.append_assoc, List.take_append_drop] at hstart
  have hall : (ofPayload (c.payload ++ bs)).drain
      = (xs, ⟨0, StreamState.after {} xs, r', none⟩) := by
    rw [drain, hstart]
    exact hdrain
  simp [Yields, hall, next]

lemma Cursor.yields_payload {c : Chunk} {xs : List Sample} (h : c.Holds xs) :
    (ofPayload c.payload).Yields xs := by
  simpa using yields_payload_append h []

/-- A new chunk takes the first 65535 of any run of samples and refuses all others, which leave it
as it was. Its payload, its closed form and its record all give back what it took. -/
theorem Chunk.ofSamples_roundTrip (xs : List Sample) (x : Sample) :
    (ofSamples xs).append? x
        = (if xs.length < 65535 then some (ofSamples (xs ++ [x])) else none)
      ∧ ofSamples xs = ofSamples (xs.take 65535)
      ∧ (ofSamples xs).size = (xs.take 65535).length
      ∧ (ofSamples xs).bounds?
        = ((xs.take 65535).head?.bind fun y =>
          (xs.take 65535).getLast?.map fun z => (y.time, z.time))
      ∧ (Cursor.ofPayload (ofSamples xs).payload).Yields (xs.take 65535)
      ∧ (ClosedChunk.ofChunk (ofSamples xs)).cursor.Yields (xs.take 65535)
      ∧ ∃ c, ClosedChunk.ofRecord? (ClosedChunk.ofChunk (ofSamples xs)).record = .ok c
        ∧ c.cursor.Yields (xs.take 65535) := by
  have hholds := holds_ofSamples xs
  have hyields := Cursor.yields_payload hholds
  exact ⟨append?_ofSamples xs x, (ofSamples_take xs).symm, hholds.size_eq, hholds.bounds?_eq,
    hyields, hyields, _, ClosedChunk.ofRecord?_record _, hyields⟩

end SeriesStore
