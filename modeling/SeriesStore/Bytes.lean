/-!
# Byte strings

Contents of files and records are lists of bytes. Words of fixed width are written either with
the least significant byte first (segment files) or with the most significant byte first (the
sample count of a chunk).
-/

namespace SeriesStore

/-- The contents of a file or of a record. -/
abbrev Bytes := List UInt8

namespace Bytes

/-! ### Words -/

/-- The `n` low bytes of a number, least significant first. -/
def ofNatLE : Nat → Nat → Bytes
  | 0, _ => []
  | n + 1, v => UInt8.ofNat v :: ofNatLE n (v / 256)

/-- The number whose bytes are given least significant first. -/
def toNatLE : Bytes → Nat
  | [] => 0
  | b :: bs => b.toNat + 256 * toNatLE bs

@[simp] theorem length_ofNatLE (n v : Nat) : (ofNatLE n v).length = n := by
  induction n generalizing v with
  | zero => rfl
  | succ n ih => simp [ofNatLE, ih]

/-- A 16-bit word, most significant byte first. -/
def ofCount (n : Nat) : Bytes :=
  [UInt8.ofNat (n / 256), UInt8.ofNat n]

/-- A 32-bit word. -/
def ofUInt32 (w : UInt32) : Bytes := ofNatLE 4 w.toNat

/-- A 64-bit word. -/
def ofUInt64 (w : UInt64) : Bytes := ofNatLE 8 w.toNat

/-- A signed 64-bit word in two's complement. -/
def ofInt64 (t : Int64) : Bytes := ofUInt64 t.toUInt64

/-- The `n` bytes found at position `i`. -/
def slice (bs : Bytes) (i n : Nat) : Bytes := (bs.drop i).take n

/-- The 16-bit word at position `i`. -/
def uint16At (bs : Bytes) (i : Nat) : UInt16 := UInt16.ofNat (toNatLE (bs.slice i 2))

/-- The 32-bit word at position `i`. -/
def uint32At (bs : Bytes) (i : Nat) : UInt32 := UInt32.ofNat (toNatLE (bs.slice i 4))

/-- The 64-bit word at position `i`. -/
def uint64At (bs : Bytes) (i : Nat) : UInt64 := UInt64.ofNat (toNatLE (bs.slice i 8))

/-- The signed 64-bit word at position `i`. -/
def int64At (bs : Bytes) (i : Nat) : Int64 := (bs.uint64At i).toInt64

/-! ### Text -/

/-- The UTF-8 form of a text. -/
def ofText (s : String) : Bytes := s.toUTF8.toList

/-- The text whose UTF-8 form the bytes are, if they are one. -/
def toText? (bs : Bytes) : Option String := String.fromUTF8? ⟨bs.toArray⟩

end Bytes

end SeriesStore
