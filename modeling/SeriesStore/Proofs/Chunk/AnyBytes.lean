import SeriesStore.Proofs.Chunk.Mirrors

/-!
# Decoding any bytes

The payload that a cursor reads need not have been written by anyone. Whatever its bytes are, the
cursor comes to an end: it passes all announced samples, or it meets damage in front of one of
them. On the way no operation on words leaves its range, and the window in use stays one that
could have been stored.
-/

namespace SeriesStore

/-! ### Calls of `next` -/

/-- What so many calls of `next` give, and the position behind them. -/
def Cursor.calls : Nat → Cursor → List (Option Sample) × Cursor
  | 0, c => ([], c)
  | n + 1, c => (c.next.1 :: (calls n c.next.2).1, (calls n c.next.2).2)

/-- What so many calls of `next` give in words, if no operation leaves its range. -/
def WordCursor.calls : Nat → WordCursor → Option (List (Option Sample) × WordCursor)
  | 0, w => some ([], w)
  | n + 1, w => do
    let (x, w) ← w.next
    let (xs, w) ← calls n w
    pure (x :: xs, w)

/-- No call of `next` leaves the range of an operation on words. -/
lemma WordCursor.calls_agrees {w : WordCursor} {c : Cursor} (h : w.Agrees c) (n : Nat) :
    ∃ w', w.calls n = some ((c.calls n).1, w') ∧ w'.Agrees (c.calls n).2 := by
  induction n generalizing w c with
  | zero => exact ⟨w, rfl, h⟩
  | succ n ih =>
    obtain ⟨w₁, hnext, h₁⟩ := next_agrees h
    obtain ⟨w₂, hcalls, h₂⟩ := ih h₁
    exact ⟨w₂, by simp [calls, hnext, hcalls, Cursor.calls], h₂⟩

/-- The fewest bits that `n` samples take, by the number of samples before them. -/
def StreamState.leastRun (count : Nat) : Nat → Nat
  | 0 => 0
  | n + 1 => leastBits count + leastRun (count + 1) n

lemma StreamState.leastRun_later (count n : Nat) : leastRun (count + 2) n = 2 * n := by
  induction n generalizing count with
  | zero => rfl
  | succ n ih =>
    rw [leastRun, ih (count + 1), leastBits_later]
    omega

lemma StreamState.leastRun_of_two_le {n : Nat} (h : 2 ≤ n) :
    leastRun 0 n = 72 + 9 + 2 * (n - 2) := by
  obtain ⟨k, rfl⟩ := Nat.exists_eq_add_of_le' h
  rw [leastRun, leastRun, leastRun_later, Nat.add_sub_cancel, leastBits, leastBits]
  omega

namespace Cursor

open StreamState

variable {c c' stop : Cursor} {x : Sample} {xs : List Sample}

lemma calls_of_stays (h : c.next = (none, c)) (n : Nat) :
    c.calls n = (List.replicate n none, c) := by
  induction n with
  | zero => rfl
  | succ n ih => rw [calls, h, ih, List.replicate_succ]

/-! ### One step -/

/-- A cursor that has met no damage, with a window that could have been stored. -/
structure Going (c : Cursor) : Prop where
  damage : c.damage = none
  inUse : Window.InUse c.state.window

lemma going_ofPayload {payload : Bytes} (h : 2 ≤ payload.length) : (ofPayload payload).Going where
  damage := if_neg (Nat.not_lt.mpr h)
  inUse := by simp [ofPayload, Window.InUse]

/-- A step of a cursor that passes a sample. -/
structure Passes (c : Cursor) (x : Sample) (c' : Cursor) : Prop where
  next : c.next = (some x, c')
  going : c'.Going
  left : c.left = c'.left + 1
  count : c'.state.count = c.state.count + 1
  least : c.reader.position + leastBits c.state.count ≤ c'.reader.position
  bits : c'.reader.position + c'.reader.toBits.length
    = c.reader.position + c.reader.toBits.length

/-- A cursor with samples left passes one, or meets damage other than a window in use that is too
wide. -/
lemma Going.passes_or_stops (h : c.Going) {n : Nat} (hleft : c.left = n + 1) :
    (∃ x c', c.Passes x c') ∨
      ∃ d, d ≠ .badWindow ∧ c.next = (none, { c with damage := some d }) := by
  have hreads := reads_decode h.inUse
  cases hdecode : c.state.decode c.reader with
  | ok v =>
    obtain ⟨s, r⟩ := v
    obtain ⟨⟨hcount, hwindow⟩, bs, hleast, hbits, htakes⟩ := hreads.takes hdecode
    have hposition := htakes.position hbits hdecode
    have hlen := congrArg List.length hbits
    rw [List.length_append] at hlen
    refine .inl ⟨_, _, next_of_ok h.damage hleft hdecode, ⟨rfl, hwindow⟩, hleft, hcount, ?_, ?_⟩
    all_goals
      dsimp only
      omega
  | error d =>
    refine .inr ⟨d, ?_, next_of_error h.damage hleft hdecode⟩
    rcases hreads.fails hdecode with rfl | ⟨hd, -⟩
    · nofun
    · exact hd

/-! ### The whole run -/

/-- A cursor passes the samples `xs` and then stays at `stop`. -/
structure Ends (c : Cursor) (xs : List Sample) (stop : Cursor) : Prop where
  verdict : stop.damage = none ∧ xs.length = c.left ∨
    ∃ d, stop.damage = some d ∧ d ≠ .badWindow ∧ xs.length < c.left
  least : c.reader.position + leastRun c.state.count xs.length ≤ stop.reader.position
  bits : stop.reader.position + stop.reader.toBits.length
    = c.reader.position + c.reader.toBits.length
  calls : ∀ n, c.calls (xs.length + 1 + n) = (xs.map some ++ List.replicate (n + 1) none, stop)

lemma Passes.ends (h : c.Passes x c') (hends : c'.Ends xs stop) : c.Ends (x :: xs) stop where
  verdict := by
    rw [h.left, List.length_cons]
    exact hends.verdict.imp (.imp_right (congrArg (· + 1)))
      (.imp fun _ => .imp_right (.imp_right Nat.succ_lt_succ))
  least := by
    have hleast := hends.least
    rw [h.count] at hleast
    have hstep := h.least
    rw [List.length_cons, leastRun]
    omega
  bits := hends.bits.trans h.bits
  calls n := by
    have hcount : (x :: xs).length + 1 + n = xs.length + 1 + n + 1 := by
      rw [List.length_cons]
      omega
    rw [hcount, Cursor.calls, h.next, hends.calls, List.map_cons, List.cons_append]

lemma ends_nil (hnext : c.next = (none, stop)) (hstays : stop.next = (none, stop))
    (hreader : stop.reader = c.reader)
    (hverdict : stop.damage = none ∧ c.left = 0 ∨
      ∃ d, stop.damage = some d ∧ d ≠ .badWindow ∧ 0 < c.left) : c.Ends [] stop where
  verdict := hverdict.imp_left (.imp_right Eq.symm)
  least := hreader ▸ Nat.le_refl _
  bits := by rw [hreader]
  calls n := by
    rw [List.length_nil, Nat.zero_add, Nat.add_comm, Cursor.calls, hnext,
      calls_of_stays hstays, List.replicate_succ, List.map_nil, List.nil_append]

lemma Ends.length_le (h : c.Ends xs stop) : xs.length ≤ c.left := by
  rcases h.verdict with ⟨-, hall⟩ | ⟨-, -, -, hfewer⟩
  · exact hall.le
  · exact hfewer.le

/-- Where a run over a payload stops: not before the fewest bits of its samples, and not behind the
last byte. -/
lemma Ends.position_bounds {payload : Bytes} (h : (ofPayload payload).Ends xs stop)
    (hheader : 2 ≤ payload.length) (htwo : 2 ≤ xs.length) :
    16 + (72 + 9 + 2 * (xs.length - 2)) ≤ stop.reader.position
      ∧ stop.reader.position ≤ 8 * payload.length := by
  have hleast : 16 + leastRun 0 xs.length ≤ stop.reader.position := h.least
  have hbits : stop.reader.position + stop.reader.toBits.length
      = 16 + (BitReader.ofBytes payload 2).toBits.length := h.bits
  rw [leastRun_of_two_le htwo] at hleast
  rw [BitReader.toBits_ofBytes, Bits.length_ofBytes, List.length_drop] at hbits
  exact ⟨hleast, by omega⟩

/-- Every run comes to an end. -/
lemma Going.drainOnto_ends (h : c.Going) (seen : List Sample) :
    ∃ xs stop, drainOnto c.left c seen = (seen.reverse ++ xs, stop) ∧ c.Ends xs stop := by
  induction hleft : c.left generalizing c seen with
  | zero =>
    have hstays := next_of_left_eq_zero hleft
    exact ⟨[], c, by rw [drainOnto, List.append_nil],
      ends_nil hstays hstays rfl (.inl ⟨h.damage, hleft⟩)⟩
  | succ n ih =>
    rcases h.passes_or_stops hleft with ⟨x, c', hpasses⟩ | ⟨d, hd, hstops⟩
    · obtain ⟨xs, stop, hdrain, hends⟩ := ih hpasses.going (x :: seen)
        (Nat.succ.inj (hpasses.left.symm.trans hleft))
      refine ⟨x :: xs, stop, ?_, hpasses.ends hends⟩
      rw [drainOnto, hpasses.next]
      simpa using hdrain
    · refine ⟨[], _, ?_,
        ends_nil hstops (next_of_damage rfl) rfl (.inr ⟨d, rfl, hd, by omega⟩)⟩
      rw [drainOnto, hstops, List.append_nil]

lemma Going.drain_ends (h : c.Going) : c.Ends c.drain.1 c.drain.2 := by
  obtain ⟨xs, stop, hdrain, hends⟩ := h.drainOnto_ends []
  rw [drain, hdrain]
  exact hends

/-- A cursor may read any bytes as a payload. However often it is called, no operation on words
leaves its range, and words give the samples and the damage of the cursor. It gives so many samples
and then, at every further call, nothing more and the same damage. There are as many samples as the
header announces without damage, and fewer with damage, which is never a window in use that is too
wide. The first sample takes at least 72 bits behind the header, the second 9, and each later one 2,
and all of them lie in the payload. -/
theorem decode_any_bytes (payload : Bytes) :
    let start := ofPayload payload
    let xs := start.drain.1
    let stop := start.drain.2
    (∀ n, ∃ w, (WordCursor.ofPayload payload).calls n = some ((start.calls n).1, w)
        ∧ w.damage = (start.calls n).2.damage)
      ∧ (∀ n, start.calls (xs.length + 1 + n)
          = (xs.map some ++ List.replicate (n + 1) none, stop))
      ∧ xs.length ≤ announced payload
      ∧ (stop.damage = none ∧ xs.length = announced payload ∨
          ∃ d, stop.damage = some d ∧ d ≠ .badWindow
            ∧ (xs.length < announced payload ∨ payload.length < 2 ∧ xs = []))
      ∧ (2 ≤ xs.length →
          16 + (72 + 9 + 2 * (xs.length - 2)) ≤ stop.reader.position
            ∧ stop.reader.position ≤ 8 * payload.length) := by
  intro start xs stop
  refine ⟨fun n => ?_, ?_⟩
  · obtain ⟨w, hcalls, hagrees⟩ :=
      WordCursor.calls_agrees (WordCursor.agrees_ofPayload payload) n
    exact ⟨w, hcalls, hagrees.damage⟩
  rcases lt_or_ge payload.length 2 with hshort | hlong
  · obtain ⟨hdrain, hdamage⟩ := drain_short hshort
    have hxs : xs = [] := congrArg Prod.fst hdrain
    have hstop : stop = start := congrArg Prod.snd hdrain
    rw [hxs, hstop]
    refine ⟨fun n => ?_, Nat.zero_le _, .inr ⟨_, hdamage, nofun, .inr ⟨hshort, rfl⟩⟩, nofun⟩
    rw [calls_of_stays (next_of_damage hdamage), List.length_nil, Nat.zero_add, Nat.add_comm,
      List.map_nil, List.nil_append]
  · have hends : start.Ends xs stop := (going_ofPayload hlong).drain_ends
    refine ⟨hends.calls, hends.length_le, ?_, hends.position_bounds hlong⟩
    exact hends.verdict.imp_right (.imp fun _ => .imp_right (.imp_right .inl))

end Cursor

end SeriesStore
