import SeriesStore.Chunk.Cursor
import SeriesStore.Proofs.Chunk.Samples

/-!
# What a parser reads

A parser takes bits from the front and never looks behind them. If it succeeds, it would do so
with whatever follows the bits that it has taken. If it fails, the bits have run out, or it has
seen damage that no further bits can mend.
-/

namespace SeriesStore

namespace BitParser

variable {α β : Type}

/-- A parser takes at least so many bits, and its value has the property `P`. It only fails at the
end of the bits or for good, and never because the window in use is too wide. -/
structure Reads (least : Nat) (p : BitParser α) (P : α → Prop) : Prop where
  takes : ∀ {r a r'}, p r = .ok (a, r') →
    P a ∧ ∃ bs, least ≤ bs.length ∧ r.toBits = bs ++ r'.toBits ∧ Takes p bs a
  fails : ∀ {r d}, p r = .error d →
    d = .truncated (r.position + r.toBits.length) ∨
      d ≠ .badWindow ∧ ∀ {r₁ tail}, r₁.toBits = r.toBits ++ tail → p r₁ = .error d

/-! ### Sequences -/

lemma Takes.position {p : BitParser α} {bs : Bits} {a b : α} {r r' : BitReader}
    (h : Takes p bs a) (hbits : r.toBits = bs ++ r'.toBits) (hr : p r = .ok (b, r')) :
    r'.position = r.position + bs.length := by
  obtain ⟨r'', hr'', -, hpos⟩ := h r _ hbits
  rw [hr] at hr''
  cases hr''
  exact hpos

lemma Reads.mono {n m : Nat} {p : BitParser α} {P Q : α → Prop} (h : Reads n p P) (hn : m ≤ n)
    (hP : ∀ a, P a → Q a) : Reads m p Q where
  takes hr := by
    obtain ⟨ha, bs, hlen, hbits⟩ := h.takes hr
    exact ⟨hP _ ha, bs, hn.trans hlen, hbits⟩
  fails := h.fails

lemma reads_pure {P : α → Prop} {a : α} (h : P a) : Reads 0 (pure a : BitParser α) P where
  takes hr := by
    cases hr
    exact ⟨h, [], Nat.le_refl _, rfl, takes_pure a⟩
  fails hr := nomatch hr

lemma reads_throw {P : α → Prop} {d : ChunkDamage} (n : Nat) (h : d ≠ .badWindow) :
    Reads n (throw d : BitParser α) P where
  takes hr := nomatch hr
  fails hr := by
    cases hr
    exact .inr ⟨h, fun _ => rfl⟩

lemma bind_ok {p : BitParser α} {f : α → BitParser β} {r r' : BitReader} {a : α}
    (h : p r = .ok (a, r')) : (p >>= f) r = f a r' := by
  simp [Bind.bind, StateT.bind, Except.bind, h]

lemma bind_error {p : BitParser α} {f : α → BitParser β} {r : BitReader} {d : ChunkDamage}
    (h : p r = .error d) : (p >>= f) r = .error d := by
  simp [Bind.bind, StateT.bind, Except.bind, h]

lemma Reads.bind {n m : Nat} {p : BitParser α} {f : α → BitParser β} {P : α → Prop}
    {Q : β → Prop} (hp : Reads n p P) (hf : ∀ a, P a → Reads m (f a) Q) :
    Reads (n + m) (p >>= f) Q where
  takes {r b r'} hr := by
    cases hpr : p r with
    | error d => rw [bind_error hpr] at hr; contradiction
    | ok v =>
      obtain ⟨a, r₁⟩ := v
      rw [bind_ok hpr] at hr
      obtain ⟨ha, as, has, hbits, htakes⟩ := hp.takes hpr
      obtain ⟨hb, bs, hbs, hbits₁, htakes₁⟩ := (hf a ha).takes hr
      refine ⟨hb, as ++ bs, ?_, by rw [hbits, hbits₁, List.append_assoc], htakes.bind htakes₁⟩
      rw [List.length_append]
      omega
  fails {r d} hr := by
    cases hpr : p r with
    | error d' =>
      rw [bind_error hpr] at hr
      cases hr
      exact (hp.fails hpr).imp_right fun h => ⟨h.1, fun hr₁ => bind_error (h.2 hr₁)⟩
    | ok v =>
      obtain ⟨a, r₁⟩ := v
      rw [bind_ok hpr] at hr
      obtain ⟨ha, as, -, hbits, htakes⟩ := hp.takes hpr
      rcases (hf a ha).fails hr with hend | ⟨hd, hgood⟩
      · left
        rw [hend, htakes.position hbits hpr, hbits, List.length_append, Nat.add_assoc]
      · refine .inr ⟨hd, fun {r₂ tail} hr₂ => ?_⟩
        rw [hbits, List.append_assoc] at hr₂
        obtain ⟨r₃, hr₃, hbits₃, -⟩ := htakes r₂ _ hr₂
        rw [bind_ok hr₃, hgood hbits₃]

/-! ### Words -/

lemma reads_bit : Reads 1 bit fun _ => True where
  takes {r b r'} hr := by
    cases hbits : r.toBits with
    | nil => simp [bit, BitReader.next?_eq_none hbits] at hr
    | cons c bs =>
      obtain ⟨r₁, hnext, hbits₁, -⟩ := BitReader.next?_eq_some hbits
      obtain ⟨rfl, rfl⟩ : c = b ∧ r₁ = r' := by simpa [bit, hnext] using hr
      exact ⟨trivial, [c], Nat.le_refl _, by rw [hbits₁, List.singleton_append], takes_bit c⟩
  fails {r d} hr := by
    cases hbits : r.toBits with
    | nil =>
      left
      simpa [bit, BitReader.next?_eq_none hbits, eq_comm] using hr
    | cons c bs =>
      obtain ⟨r₁, hnext, -⟩ := BitReader.next?_eq_some hbits
      simp [bit, hnext] at hr

lemma reads_bitsOnto (n v : Nat) : Reads n (bitsOnto n v) (· < (v + 1) * 2 ^ n) := by
  induction n generalizing v with
  | zero => exact reads_pure (by omega)
  | succ n ih =>
    have hrest : ∀ b : Bool,
        Reads n (bitsOnto n (2 * v + b.toNat)) (· < (v + 1) * 2 ^ (n + 1)) := by
      refine fun b => (ih (2 * v + b.toNat)).mono (Nat.le_refl _) fun a ha => ?_
      have hb : b.toNat ≤ 1 := by cases b <;> decide
      calc a < (2 * v + b.toNat + 1) * 2 ^ n := ha
        _ ≤ ((v + 1) * 2) * 2 ^ n := Nat.mul_le_mul_right _ (by omega)
        _ = (v + 1) * 2 ^ (n + 1) := by ring
    exact (reads_bit.bind fun b _ => hrest b).mono (by omega) fun _ ha => ha

/-- `n` bits are read as a number of `n` bits. -/
lemma reads_bits (n : Nat) : Reads n (bits n) (· < 2 ^ n) := by
  simpa [bits] using reads_bitsOnto n 0

/-! ### Numbers of variable length -/

lemma reads_groups (left shift v : Nat) : Reads 8 (groups left shift v) fun _ => True := by
  induction left generalizing shift v with
  | zero => exact (reads_bits 8).bind fun _ _ => reads_throw 0 (by decide)
  | succ left ih =>
    refine (reads_bits 8).bind (m := 0) fun b _ => ?_
    dsimp only
    split
    · exact reads_pure trivial
    · exact (ih _ _).mono (Nat.zero_le _) fun _ h => h

lemma reads_varint : Reads 8 varint fun _ => True := reads_groups 10 0 0

lemma reads_signedVarint : Reads 8 signedVarint fun _ => True :=
  reads_varint.bind fun _ _ => reads_pure trivial

end BitParser

open BitParser

/-! ### Intervals -/

namespace Interval

lemma reads_marker (n : Nat) : Reads 0 (marker n) fun _ => True := by
  induction n with
  | zero => exact reads_pure trivial
  | succ n ih =>
    refine (reads_bit.bind (m := 0) fun b _ => ?_).mono (Nat.zero_le _) fun _ h => h
    split
    · exact ih.bind fun _ _ => reads_pure trivial
    · exact reads_pure trivial

lemma reads_code {β : Type} (n : Nat) (f : Nat → β) :
    Reads 0 (do let code ← bits n; pure (f code)) fun _ => True :=
  ((reads_bits n).bind fun _ _ => reads_pure trivial).mono (Nat.zero_le _) fun _ h => h

lemma reads_decode : Reads 1 decode fun _ => True := by
  have hmarker : Reads 1 (marker 4) fun _ => True := by
    refine reads_bit.bind (m := 0) fun b _ => ?_
    split
    · exact (reads_marker 3).bind fun _ _ => reads_pure trivial
    · exact reads_pure trivial
  refine hmarker.bind (m := 0) fun k _ => ?_
  split
  · exact reads_pure trivial
  · exact reads_code 14 _
  · exact reads_code 17 _
  · exact reads_code 20 _
  · exact reads_code 64 _

end Interval

/-! ### Windows -/

namespace Window

/-- Every window that is read is one that could have been stored. -/
lemma reads_read : Reads 0 read Valid := by
  refine ((reads_bits 5).bind (m := 0) fun leading hleading => ?_).mono (Nat.zero_le _) fun _ h => h
  refine ((reads_bits 6).bind (m := 0) fun code hcode => ?_).mono (Nat.zero_le _) fun _ h => h
  dsimp only
  generalize hsize : (if code = 0 then 64 else code) = significant
  have hpos : 0 < significant := by
    split at hsize <;> omega
  split
  · have hstop : ChunkDamage.wideWindow leading significant ≠ .badWindow := by simp
    exact (reads_throw (P := fun _ => False) 0 hstop).bind (m := 0) fun _ h => h.elim
  · refine reads_pure ?_
    simp only [Valid]
    omega

lemma valid_whole : whole.Valid := by
  simp [whole, Valid]

/-- Before the first window is stored, the whole word is one that could have been stored. -/
lemma inUse_iff_valid_getD {current : Option Window} :
    InUse current ↔ (current.getD whole).Valid := by
  cases current with
  | none => simp [InUse, valid_whole]
  | some w => simp [InUse]

/-- The window in use is never too wide, so that the second check of its width cannot fail. -/
lemma reads_decode {current : Option Window} (h : InUse current) :
    Reads 1 (decode current) fun v => InUse v.2 := by
  refine reads_bit.bind (m := 0) fun b _ => ?_
  split
  · refine (reads_bit.bind (m := 0) fun c _ => ?_).mono (Nat.zero_le _) fun _ h => h
    have hinside : ∀ w : Window, w.Valid → Reads 0
        (do
          if 64 < w.leading + w.trailing then throw .badWindow
          let code ← bits w.size
          pure (UInt64.ofNat (code <<< w.trailing), some w)) fun v => InUse v.2 := by
      intro w hw
      have hwide : ¬64 < w.leading + w.trailing := by
        have := hw.2
        omega
      simp only [hwide, if_false]
      refine ((reads_bits w.size).bind (m := 0) fun _ _ => reads_pure ?_).mono (Nat.zero_le _)
        fun _ h => h
      simpa [InUse] using hw
    dsimp only
    split
    · exact reads_read.bind hinside
    · exact (reads_pure (inUse_iff_valid_getD.mp h)).bind hinside
  · exact reads_pure h

end Window

/-! ### Samples -/

namespace StreamState

/-- The fewest bits that a sample takes, by the number of samples before it. -/
def leastBits : Nat → Nat
  | 0 => 72
  | 1 => 9
  | _ => 2

lemma leastBits_later (n : Nat) : leastBits (n + 2) = 2 := rfl

private lemma reads_later {γ : Type} {p : BitParser γ} {s : StreamState} {f : γ → Int64}
    {least : Nat} (n : Nat) (hp : Reads least p fun _ => True) (h : Window.InUse s.window) :
    Reads (least + 1) (do
        let interval := f (← p)
        let (change, window) ← Window.decode s.window
        pure (StreamState.mk n ⟨s.last.time + interval, s.last.value ^^^ change⟩ interval window))
      fun s' => s'.count = n ∧ Window.InUse s'.window :=
  hp.bind fun _ _ => (Window.reads_decode h).bind fun _ hv => reads_pure ⟨rfl, hv⟩

/-- A sample takes at least its fewest bits, and leaves a window that could have been stored. -/
theorem reads_decode {s : StreamState} (h : Window.InUse s.window) :
    Reads (leastBits s.count) s.decode
      fun s' => s'.count = s.count + 1 ∧ Window.InUse s'.window := by
  obtain ⟨count, last, interval, window⟩ := s
  match count with
  | 0 =>
    exact reads_signedVarint.bind fun _ _ => (reads_bits 64).bind fun _ _ => reads_pure ⟨rfl, h⟩
  | 1 =>
    exact reads_later (s := ⟨1, last, interval, window⟩) (f := fun n => (UInt64.ofNat n).toInt64)
      2 reads_varint h
  | n + 2 =>
    exact reads_later (s := ⟨n + 2, last, interval, window⟩) (f := (interval + ·)) (n + 3)
      Interval.reads_decode h

end StreamState

/-! ### Steps of a cursor -/

namespace Cursor

variable {c : Cursor} {d : ChunkDamage} {n : Nat} {s : StreamState} {r : BitReader}

/-- A cursor that has met damage stays where it is. -/
lemma next_of_damage (h : c.damage = some d) : c.next = (none, c) := by
  obtain ⟨left, state, reader, damage⟩ := c
  obtain rfl : damage = some d := h
  cases left <;> rfl

/-- So does a cursor that has passed all announced samples. -/
lemma next_of_left_eq_zero (h : c.left = 0) : c.next = (none, c) := by
  simp [next, h]

lemma next_of_ok (hd : c.damage = none) (hleft : c.left = n + 1)
    (h : c.state.decode c.reader = .ok (s, r)) : c.next = (some s.last, ⟨n, s, r, none⟩) := by
  simp [next, hd, hleft, h]

lemma next_of_error (hd : c.damage = none) (hleft : c.left = n + 1)
    (h : c.state.decode c.reader = .error d) : c.next = (none, { c with damage := some d }) := by
  simp [next, hd, hleft, h]

/-- In bytes that are no header there is nothing to read. -/
lemma drain_short {bs : Bytes} (h : bs.length < 2) :
    (ofPayload bs).drain = ([], ofPayload bs)
      ∧ (ofPayload bs).damage = some (.shortHeader bs.length) := by
  match bs with
  | [] | [_] => exact ⟨rfl, rfl⟩

end Cursor

end SeriesStore
