import SeriesStore.Chunk.Cursor

/-!
# Decoding in words

A machine decodes with words of fixed width: it finds a bit through the index of its byte and a
shift, keeps the bounds of the window in bytes, and moves values by shifts. Here the decoder is
written with such words, where a shift or a sum outside its range ends the run without a result.
-/

namespace SeriesStore

/-- Why a computation on words stops. -/
inductive WordStop
  | damage (d : ChunkDamage)
  /-- An operation has left its range. -/
  | overrun
  deriving DecidableEq

/-- A place in a byte string, counted in bits. -/
structure WordReader where
  data : Bytes
  position : Nat

/-- A computation on words that takes bits from a payload. -/
abbrev WordParser := StateT WordReader (Except WordStop)

namespace WordParser

variable {α β : Type}

/-! ### Operations with a range -/

/-- A result, if the operation is in its range. -/
def guarded (range : Prop) [Decidable range] (a : α) : WordParser α :=
  if range then pure a else throw .overrun

def add8 (a b : UInt8) : WordParser UInt8 := guarded (a.toNat + b.toNat < 256) (a + b)

def add16 (a b : UInt16) : WordParser UInt16 := guarded (a.toNat + b.toNat < 65536) (a + b)

def shiftRight8 (a : UInt8) (n : Nat) : WordParser UInt8 :=
  guarded (n < 8) (a >>> UInt8.ofNat n)

def shiftLeft64 (a : UInt64) (n : Nat) : WordParser UInt64 :=
  guarded (n < 64) (a <<< UInt64.ofNat n)

/-! ### Numbers -/

/-- Takes one bit out of the byte that holds it. -/
def bit : WordParser Bool := fun r =>
  match r.data[r.position / 8]? with
  | none => .error (.damage (.truncated r.position))
  | some byte =>
    (do
      let shifted ← shiftRight8 byte (7 - r.position % 8)
      pure (shifted &&& 1 == 1)) { r with position := r.position + 1 }

/-- Takes `n` bits and shifts them into a word. -/
def bitsOnto : Nat → UInt64 → WordParser UInt64
  | 0, v => pure v
  | n + 1, v => do
    let b ← bit
    bitsOnto n (v <<< 1 ||| b.toUInt64)

/-- Takes the word that the next `n` bits denote. -/
def bits (n : Nat) : WordParser UInt64 := bitsOnto n 0

/-- Takes groups of seven bits and shifts each to its place. -/
def groups (shift : Nat) (v : UInt64) : WordParser UInt64 := do
  let b ← bits 8
  if 64 ≤ shift then throw (.damage .longNumber)
  else
    let part ← shiftLeft64 (b &&& 0x7F) shift
    if b &&& 0x80 = 0 then pure (v ||| part) else groups (shift + 7) (v ||| part)
termination_by 64 - shift

def varint : WordParser UInt64 := groups 0 0

/-- Takes a signed number, whose lowest bit is its sign. -/
def signedVarint : WordParser Int64 := do
  let raw ← varint
  pure ((raw >>> 1).toInt64 ^^^ -(raw &&& 1).toInt64)

/-! ### Intervals -/

/-- Shifts marker bits into a byte, up to the first zero. -/
def marker : Nat → UInt8 → WordParser UInt8
  | 0, m => pure m
  | n + 1, m => do
    let b ← bit
    if b then marker n (m <<< 1 ||| 1) else pure (m <<< 1)

/-- Takes the number in a bucket. -/
def bucket (size : Nat) : WordParser Int64 := do
  let code ← bits size
  if size = 64 then pure code.toInt64
  else
    let half ← shiftLeft64 1 (size - 1)
    if half < code then
      let whole ← shiftLeft64 1 size
      pure (code.toInt64 - whole.toInt64)
    else pure code.toInt64

/-- Takes a change of the interval. -/
def interval : WordParser Int64 := do
  let m ← marker 4 0
  if m = 0 then pure 0
  else bucket (if m = 0b10 then 14 else if m = 0b110 then 17 else if m = 0b1110 then 20 else 64)

/-! ### Windows -/

/-- Takes a new window, or keeps the one in use. -/
def window (leading trailing : UInt8) : Bool → WordParser (UInt8 × UInt8)
  | false => pure (leading, trailing)
  | true => do
    let leading ← bits 5
    let code ← bits 6
    let significant := if code.toUInt8 = 0 then 64 else code.toUInt8
    let total ← add8 leading.toUInt8 significant
    if 64 < total then
      throw (.damage (.wideWindow leading.toUInt8.toNat significant.toNat))
    else pure (leading.toUInt8, 64 - total)

/-- Takes the bits inside a window. -/
def inside (leading trailing : UInt8) : WordParser (UInt64 × UInt8 × UInt8) := do
  let total ← add8 leading trailing
  if 64 < total then throw (.damage .badWindow)
  else
    let code ← bits (64 - total).toNat
    let change ← shiftLeft64 code trailing.toNat
    pure (change, leading, trailing)

/-- Takes the difference of two values, and gives the window in use afterwards. -/
def value (leading trailing : UInt8) : WordParser (UInt64 × UInt8 × UInt8) := do
  let changed ← bit
  if changed then
    let new ← bit
    let (leading, trailing) ← window leading trailing new
    inside leading trailing
  else pure (0, leading, trailing)

end WordParser

/-! ### Samples -/

/-- What is known after some samples, in words. -/
structure WordState where
  count : UInt16 := 0
  time : Int64 := 0
  value : UInt64 := 0
  interval : Int64 := 0
  leading : UInt8 := 0
  trailing : UInt8 := 0

namespace WordState

open WordParser

/-- The state with a next sample that is given by its interval. -/
def later (s : WordState) (interval : Int64) : WordParser WordState := do
  let (change, leading, trailing) ← WordParser.value s.leading s.trailing
  let count ← add16 s.count 1
  pure ⟨count, s.time + interval, s.value ^^^ change, interval, leading, trailing⟩

/-- Takes the next sample, and gives the state after it. -/
def decode (s : WordState) : WordParser WordState := do
  if s.count = 0 then
    let time ← signedVarint
    let value ← bits 64
    let count ← add16 s.count 1
    pure { s with count, time, value }
  else if s.count = 1 then
    let interval ← varint
    s.later interval.toInt64
  else
    let change ← WordParser.interval
    s.later (s.interval + change)

end WordState

/-- A position in the payload of a chunk, in words. -/
structure WordCursor where
  total : UInt16
  state : WordState := {}
  reader : WordReader
  damage : Option ChunkDamage := none

namespace WordCursor

/-- The cursor in front of the first sample of a payload. -/
def ofPayload : Bytes → WordCursor
  | hi :: lo :: rest =>
    { total := hi.toUInt16 <<< 8 ||| lo.toUInt16, reader := ⟨hi :: lo :: rest, 16⟩ }
  | short =>
    { total := 0, reader := ⟨short, 8 * short.length⟩, damage := some (.shortHeader short.length) }

/-- The next sample, if there is one, and the position behind it; nothing after an operation outside
its range. -/
def next (c : WordCursor) : Option (Option Sample × WordCursor) :=
  if c.damage.isSome ∨ c.total ≤ c.state.count then some (none, c)
  else
    match c.state.decode c.reader with
    | .ok (state, reader) => some (some ⟨state.time, state.value⟩, { c with state, reader })
    | .error (.damage d) => some (none, { c with damage := some d })
    | .error .overrun => none

end WordCursor

end SeriesStore
