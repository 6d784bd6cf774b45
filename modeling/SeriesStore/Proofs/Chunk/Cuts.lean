import SeriesStore.Proofs.Chunk.Reading
import SeriesStore.Proofs.Chunk.RoundTrip

/-!
# Cut and extended payloads

A payload that has lost some of its last bytes gives back the first samples as they were, and then
the damage is found where the bytes run out. For this every byte of a payload has to carry a bit
that is read. Bytes behind a payload are never read.
-/

namespace SeriesStore

open BitParser

namespace StreamState

/-- The stored form of a sample cannot be read from a part of it. -/
lemma decode_cut {s : StreamState} (h : Window.InUse s.window) (x : Sample) {r : BitReader}
    {tail rest : Bits} (hr : r.toBits ++ tail = (s.encode x).1 ++ rest)
    (hshort : r.toBits.length < (s.encode x).1.length) :
    s.decode r = .error (.truncated (r.position + r.toBits.length)) := by
  -- a reader for which nothing has been cut off
  have hfull : (BitReader.mk (r.toBits ++ tail) [] r.position).toBits = r.toBits ++ tail := by
    simp [BitReader.toBits]
  obtain ⟨r₁, hr₁, -, hpos₁⟩ := takes_decode h x _ rest (hfull.trans hr)
  cases hdecode : s.decode r with
  | ok v =>
    obtain ⟨s', r'⟩ := v
    obtain ⟨-, bs, -, hbits, htakes⟩ := (reads_decode h).takes hdecode
    obtain ⟨r₂, hr₂, -, hpos₂⟩ := htakes _ (r'.toBits ++ tail)
      (hfull.trans (by rw [hbits, List.append_assoc]))
    obtain ⟨-, rfl⟩ : (s.encode x).2 = s' ∧ r₁ = r₂ := by simpa [hr₁] using hr₂
    have hlen := congrArg List.length hbits
    rw [List.length_append] at hlen
    omega
  | error d =>
    rcases (reads_decode h).fails hdecode with rfl | ⟨-, hgood⟩
    · rfl
    · rw [hgood hfull] at hr₁
      contradiction

end StreamState

namespace Cursor

/-- A cursor in front of a part of the stored form of samples reads some of them, and stops with the
damage at the end of the part. -/
lemma drainOnto_cut {s : StreamState} (h : Window.InUse s.window) (xs seen : List Sample)
    {r : BitReader} {tail rest : Bits} (hr : r.toBits ++ tail = s.encodeAll xs ++ rest)
    (hshort : r.toBits.length < (s.encodeAll xs).length) :
    ∃ j < xs.length, ∃ stop, drainOnto xs.length ⟨xs.length, s, r, none⟩ seen
        = (seen.reverse ++ xs.take j, stop)
      ∧ stop.damage = some (.truncated (r.position + r.toBits.length)) := by
  induction xs generalizing s r seen with
  | nil => exact absurd hshort (Nat.not_lt_zero _)
  | cons x xs ih =>
    rw [StreamState.encodeAll, List.append_assoc] at hr
    rw [StreamState.encodeAll, List.length_append] at hshort
    rcases lt_or_ge r.toBits.length (s.encode x).1.length with hcut | hwhole
    · refine ⟨0, Nat.succ_pos _,
        ⟨xs.length + 1, s, r, some (.truncated (r.position + r.toBits.length))⟩, ?_, rfl⟩
      simp [drainOnto, next, StreamState.decode_cut h x hr hcut]
    · obtain ⟨rest₁, hrest₁⟩ : (s.encode x).1 <+: r.toBits :=
        List.prefix_of_prefix_length_le ⟨_, rfl⟩ ⟨tail, hr⟩ hwhole
      obtain ⟨r₁, hdecode, hbits, hpos⟩ := StreamState.takes_decode h x r rest₁ hrest₁.symm
      have hnext : next ⟨xs.length + 1, s, r, none⟩
          = (some x, ⟨xs.length, (s.encode x).2, r₁, none⟩) := by
        simp [next, hdecode]
      have hlen := congrArg List.length hrest₁
      rw [List.length_append] at hlen
      obtain ⟨j, hj, stop, hdrain, hdamage⟩ := ih (StreamState.inUse_encode h x) (x :: seen)
        (r := r₁) (by rw [hbits]; simpa [← hrest₁, List.append_assoc] using hr)
        (by rw [hbits]; omega)
      have hend : r₁.position + r₁.toBits.length = r.position + r.toBits.length := by
        rw [hbits, hpos]
        omega
      refine ⟨j + 1, Nat.succ_lt_succ hj, stop, ?_, hend ▸ hdamage⟩
      rw [List.length_cons, drainOnto, hnext]
      simpa using hdrain

/-- What is left of a payload after a cut behind its header. -/
lemma drain_cut {c : Chunk} {xs : List Sample} (h : c.Holds xs) {front back : Bytes}
    (hcut : front ++ back = c.payload) (hback : back ≠ []) (hfront : 2 ≤ front.length) :
    ∃ j < xs.length, ∃ stop, (ofPayload front).drain = (xs.take j, stop)
      ∧ stop.damage = some (.truncated (8 * front.length)) := by
  have hheader : c.payload.take 2 = front.take 2 := by
    rw [← hcut, List.take_append_of_le_length hfront]
  have hstart := ofPayload_take h (front.drop 2)
  rw [hheader, List.take_append_drop] at hstart
  obtain ⟨pad, hpad, hbits⟩ := h.ofBytes_payload
  rw [← hcut, List.drop_append_of_le_length hfront, Bits.ofBytes_append] at hbits
  -- the last byte of the payload is not filled up alone
  have hlen := congrArg List.length hbits
  simp only [List.length_append, Bits.length_ofBytes, List.length_drop,
    List.length_replicate] at hlen
  have hone := List.length_pos_iff.mpr hback
  have hwindow : Window.InUse (StreamState.window {}) := by simp [Window.InUse]
  obtain ⟨j, hj, stop, hdrain, hdamage⟩ := drainOnto_cut hwindow xs []
    (r := BitReader.ofBytes front 2) hbits (by simp; omega)
  refine ⟨j, hj, stop, ?_, ?_⟩
  · rw [drain, hstart]
    exact hdrain
  · rw [hdamage]
    simp
    omega

end Cursor

/-- A chunk that has been given samples keeps the first 65535 of them. Any proper prefix of its
payload gives back some of the first of these, not all if there are any, and ends with damage: a
header that is too short, or the end of the bytes in the place of a bit. With any bytes behind it
the payload gives back all of them without damage. -/
theorem Chunk.decode_prefix (xs : List Sample) :
    let c := ofSamples xs
    let kept := xs.take 65535
    (∀ front, front <+: c.payload → front ≠ c.payload → ∃ j stop,
      (Cursor.ofPayload front).drain = (kept.take j, stop)
        ∧ (kept ≠ [] → j < kept.length)
        ∧ stop.damage = some (if front.length < 2 then .shortHeader front.length
          else .truncated (8 * front.length))
        ∧ stop.next = (none, stop))
      ∧ ∀ back, (Cursor.ofPayload (c.payload ++ back)).Yields kept := by
  intro c kept
  have hholds : c.Holds kept := holds_ofSamples xs
  refine ⟨fun front hfront hproper => ?_, Cursor.yields_payload_append hholds⟩
  obtain ⟨back, hcut⟩ := hfront
  split_ifs with hshort
  · obtain ⟨hdrain, hdamage⟩ := Cursor.drain_short hshort
    exact ⟨0, _, by rw [hdrain, List.take_zero], List.length_pos_iff.mpr, hdamage,
      Cursor.next_of_damage hdamage⟩
  · have hback : back ≠ [] := fun hnil => hproper (by simpa [hnil] using hcut)
    obtain ⟨j, hj, stop, hdrain, hdamage⟩ :=
      Cursor.drain_cut hholds hcut hback (Nat.not_lt.mp hshort)
    exact ⟨j, stop, hdrain, fun _ => hj, hdamage, Cursor.next_of_damage hdamage⟩

end SeriesStore
