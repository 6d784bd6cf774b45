import SeriesStore.Chunk.Stream

/-!
# Reading chunks

A cursor stands between two samples of an encoded chunk. It moves on until it has passed as many
samples as the header announces, or until it meets damage; from then on it stays where it is.
-/

namespace SeriesStore

/-- A position in the payload of a chunk. -/
structure Cursor where
  /-- Number of announced samples that are still to come. -/
  left : Nat
  state : StreamState := {}
  reader : BitReader
  /-- What the cursor has run into. -/
  damage : Option ChunkDamage := none

namespace Cursor

/-- The number of samples that the header of a payload announces. -/
def announced : Bytes → Nat
  | hi :: lo :: _ => hi.toNat * 256 + lo.toNat
  | _ => 0

/-- The cursor in front of the first sample of a payload. -/
def ofPayload (payload : Bytes) : Cursor where
  left := announced payload
  reader := BitReader.ofBytes payload 2
  damage := if payload.length < 2 then some (.shortHeader payload.length) else none

/-- The next sample, if there is one, and the position behind it. -/
def next (c : Cursor) : Option Sample × Cursor :=
  match c.left, c.damage with
  | n + 1, none =>
    match c.state.decode c.reader with
    | .ok (state, reader) => (some state.last, { left := n, state, reader })
    | .error e => (none, { c with damage := some e })
  | _, _ => (none, c)

/-- Takes up to `n` samples and puts them, last first, in front of a list. -/
def drainOnto : Nat → Cursor → List Sample → List Sample × Cursor
  | 0, c, xs => (xs.reverse, c)
  | n + 1, c, xs =>
    match c.next with
    | (some x, c) => drainOnto n c (x :: xs)
    | (none, c) => (xs.reverse, c)

/-- All samples that are still to come, and the position at which the cursor stops. -/
def drain (c : Cursor) : List Sample × Cursor := drainOnto c.left c []

end Cursor

end SeriesStore
