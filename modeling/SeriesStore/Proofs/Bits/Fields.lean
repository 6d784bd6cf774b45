import SeriesStore.Proofs.Bits.Packing
import SeriesStore.Proofs.Chunk.Mirrors

/-!
# Fields of a bit stream

A stream is a sequence of fields: single bits, words of some width, and words of variable length,
each at the bit where the one before ends. What is written field by field is the bit strings of the
fields one behind the other, and is read back field by field, in words as on numbers.
-/

namespace SeriesStore

/-- The kinds of fields. -/
inductive Field
  | bit
  /-- The lower bits of a word. -/
  | bits (n : Fin 65)
  | uvarint
  | varint

namespace Field

/-- What a field is written from and read as. -/
abbrev Value : Field → Type
  | bit => Bool
  | bits _ => UInt64
  | uvarint => UInt64
  | varint => Int64

/-- Writes a field. -/
def write (w : WordWriter) : (f : Field) → f.Value → Option WordWriter
  | bit, b => w.bit b
  | bits n, v => w.bits v n
  | uvarint, v => w.uvarint v
  | varint, i => w.varint i

/-- Reads a field in words. -/
def read : (f : Field) → WordParser f.Value
  | bit => WordParser.bit
  | bits n => WordParser.bits n
  | uvarint => WordParser.varint
  | varint => WordParser.signedVarint

/-- Reads a field on numbers. -/
def parse : (f : Field) → BitParser f.Value
  | bit => BitParser.bit
  | bits n => do
    let v ← BitParser.bits n
    pure (UInt64.ofNat v)
  | uvarint => do
    let v ← BitParser.varint
    pure (UInt64.ofNat v)
  | varint => do
    let i ← BitParser.signedVarint
    pure (Int64.ofInt i)

/-- The bit string of a field. -/
def toBits : (f : Field) → f.Value → Bits
  | bit, b => [b]
  | bits n, v => Bits.ofNat n v.toNat
  | uvarint, v => Varint.encode v.toNat
  | varint, i => Varint.encodeSigned i.toInt

/-- What a field keeps of a value: the lower bits, if it has a width, and otherwise all. -/
def kept : (f : Field) → f.Value → f.Value
  | bit, b => b
  | bits n, v => UInt64.ofNat (v.toNat % 2 ^ n.val)
  | uvarint, v => v
  | varint, i => i

/-! ### Single fields -/

lemma write_packed {v : BitWriter} (h : v.Valid) (f : Field) (x : f.Value) :
    f.write (.packed v) x = some (.packed (v.append (f.toBits x))) := by
  cases f with
  | bit => exact WordWriter.bit_packed h x
  | bits n => exact WordWriter.bits_packed h x (Nat.le_of_lt_succ n.isLt)
  | uvarint => exact WordWriter.uvarint_packed h x
  | varint => exact WordWriter.varint_packed h x

lemma takes_parse (f : Field) (x : f.Value) :
    BitParser.Takes f.parse (f.toBits x) (f.kept x) := by
  cases f with
  | bit => exact BitParser.takes_bit x
  | bits n => exact (BitParser.takes_bits n.val (UInt64.toNat x)).map UInt64.ofNat
  | uvarint =>
    have htakes := (BitParser.takes_varint (UInt64.toNat_lt x)).map UInt64.ofNat
    rwa [UInt64.ofNat_toNat] at htakes
  | varint =>
    have htakes := (BitParser.takes_signedVarint x).map Int64.ofInt
    rwa [Int64.ofInt_toInt] at htakes

/-- A word that stands for a number is that number. -/
lemma mirrors_ofNat {n : Nat} {q : WordParser UInt64} {p : BitParser Nat}
    (h : WordParser.Mirrors (WordParser.Denotes n) q p) :
    WordParser.Mirrors Eq q (do let v ← p; pure (UInt64.ofNat v)) := by
  have hpure := h.bind (g := pure) (f := fun v => pure (UInt64.ofNat v)) (S := Eq)
    fun b a hba => WordParser.mirrors_pure (by rw [← hba.1, UInt64.ofNat_toNat])
  rwa [bind_pure] at hpure

lemma mirrors_read (f : Field) : WordParser.Mirrors Eq f.read f.parse := by
  cases f with
  | bit => exact WordParser.mirrors_bit
  | bits n => exact mirrors_ofNat (WordParser.mirrors_bits (Nat.le_of_lt_succ n.isLt))
  | uvarint => exact mirrors_ofNat WordParser.mirrors_varint
  | varint =>
    have hpure := WordParser.mirrors_signedVarint.bind (g := pure)
      (f := fun i => pure (Int64.ofInt i)) (S := Eq) fun b a hba => WordParser.mirrors_pure hba
    rwa [bind_pure] at hpure

end Field

/-! ### Sequences of fields -/

/-- A field with a value for it. -/
abbrev Item := (f : Field) × f.Value

namespace Item

/-- Writes some fields, each where the one before ends. -/
def writeAll (w : WordWriter) (xs : List Item) : Option WordWriter :=
  xs.foldlM (fun w x => x.1.write w x.2) w

/-- Reads some fields in words. -/
def readAll (fs : List Field) : WordParser (List Item) :=
  fs.mapM fun f => do
    let x ← f.read
    pure ⟨f, x⟩

/-- Reads some fields on numbers. -/
def parseAll (fs : List Field) : BitParser (List Item) :=
  fs.mapM fun f => do
    let x ← f.parse
    pure ⟨f, x⟩

/-- The bit strings of some fields, one behind the other. -/
def toBits (xs : List Item) : Bits := xs.flatMap fun x => x.1.toBits x.2

/-- What some fields keep of their values. -/
def kept (xs : List Item) : List Item := xs.map fun x => ⟨x.1, x.1.kept x.2⟩

lemma writeAll_packed {v : BitWriter} (h : v.Valid) (xs : List Item) :
    writeAll (.packed v) xs = some (.packed (v.append (toBits xs))) := by
  induction xs generalizing v with
  | nil => rfl
  | cons x xs ih =>
    have hrest := ih (h.append (x.1.toBits x.2))
    rw [writeAll, List.foldlM_cons, x.1.write_packed h, toBits, List.flatMap_cons,
      BitWriter.append_append]
    exact hrest

lemma takes_parseAll (xs : List Item) :
    BitParser.Takes (parseAll (xs.map Sigma.fst)) (toBits xs) (kept xs) := by
  induction xs with
  | nil => exact BitParser.takes_pure []
  | cons x xs ih =>
    rw [List.map_cons, parseAll, List.mapM_cons]
    exact ((x.1.takes_parse x.2).map (Sigma.mk x.1)).bind (ih.map (_ :: ·))

lemma mirrors_readAll (fs : List Field) :
    WordParser.Mirrors Eq (readAll fs) (parseAll fs) := by
  induction fs with
  | nil => exact WordParser.mirrors_pure rfl
  | cons f fs ih =>
    rw [readAll, parseAll, List.mapM_cons, List.mapM_cons]
    have hfirst := f.mirrors_read.bind (S := Eq) (g := fun x => pure (Sigma.mk f x))
      (f := fun x => pure (Sigma.mk f x)) fun b a hba => WordParser.mirrors_pure (by rw [hba])
    refine hfirst.bind fun b a hba => ih.bind fun bs as hbas => ?_
    rw [hba, hbas]
    exact WordParser.mirrors_pure rfl

end Item

/-! ### Whole streams -/

/-- Whatever fields are written behind a header, the header stays, and behind it stand the bit
strings of the fields one behind the other, filled up to whole bytes; the buffer is the one that a
writer of bit strings fills. Reading the same kinds of fields behind the header gives what the
fields have kept, in words as on numbers, and ends at the last bit that was written. -/
theorem Item.packed_roundTrip (header : Nat) (xs : List Item) :
    ∃ w, writeAll (.withHeader header) xs = some w
      ∧ w.bytes = ((BitWriter.ofBytes (List.replicate header 0)).append (toBits xs)).bytes
      ∧ w.bytes.take header = List.replicate header 0
      ∧ ∃ pad < 8, Bits.ofBytes (w.bytes.drop header) = toBits xs ++ List.replicate pad false
        ∧ (∃ r, readAll (xs.map Sigma.fst) ⟨w.bytes, 8 * header⟩ = .ok (kept xs, r)
          ∧ r.position = 8 * header + (toBits xs).length)
        ∧ ∃ r, parseAll (xs.map Sigma.fst) (.ofBytes w.bytes header) = .ok (kept xs, r)
          ∧ r.position = 8 * header + (toBits xs).length
          ∧ r.toBits = List.replicate pad false := by
  obtain ⟨more, hbytes, pad, hpad, hbits⟩ :=
    BitWriter.exists_bytes_ofBytes_append (List.replicate header 0) (toBits xs)
  have hwrite := writeAll_packed (BitWriter.valid_ofBytes (List.replicate header 0)) xs
  rw [WordWriter.packed_ofBytes, WordWriter.packed, hbytes] at hwrite
  have hzeros : (List.replicate header (0 : UInt8)).length = header := List.length_replicate
  have hbehind : (List.replicate header 0 ++ more).drop header = more := List.drop_left' hzeros
  -- from the first bit behind the header, both readers take all fields
  have hstart : (BitReader.ofBytes (List.replicate header 0 ++ more) header).toBits
      = toBits xs ++ List.replicate pad false := by
    rw [BitReader.toBits_ofBytes, hbehind, hbits]
  obtain ⟨r, hparse, hrest, hposition⟩ := takes_parseAll xs _ _ hstart
  have hat : WordReader.At ⟨List.replicate header 0 ++ more, 8 * header⟩
      (.ofBytes (List.replicate header 0 ++ more) header) := by
    refine ⟨rfl, ?_⟩
    rw [BitReader.toBits_ofBytes, hbehind, Bits.ofBytes_append]
    exact (List.drop_left' (by rw [Bits.length_ofBytes, hzeros])).symm
  obtain ⟨ys, r', hread, hat', rfl⟩ := (mirrors_readAll _).ok hat hparse
  exact ⟨_, hwrite, hbytes.symm, List.take_left' hzeros, pad, hpad, by rw [hbehind, hbits],
    ⟨r', hread, hat'.position.trans hposition⟩, r, hparse, hposition, hrest⟩

/-- Behind two bytes of header, the first three fields fill two bytes. The last one begins with a
whole byte, and is filled up with zeros. -/
example : (Item.writeAll (.withHeader 2)
    [⟨.bit, true⟩, ⟨.bits 3, 0b101⟩, ⟨.bits 12, 0xABC⟩, ⟨.bits 10, 0x3FF⟩]).map (·.bytes)
      = some [0, 0, 0b11011010, 0xBC, 0xFF, 0b11000000] := by
  decide

end SeriesStore
