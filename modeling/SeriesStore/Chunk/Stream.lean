import SeriesStore.Chunk.Interval
import SeriesStore.Chunk.Window

/-!
# Streams of samples

The first sample of a stream is stored in full, the second with its interval, and each later one
with the change of the interval. Encoder and decoder carry the same state from sample to sample.
-/

namespace SeriesStore

/-- A measurement: a timestamp and the bit pattern of a 64-bit floating-point number. -/
structure Sample where
  time : Int64
  value : UInt64
  deriving DecidableEq

/-- What is known after some samples of a stream. -/
structure StreamState where
  /-- Number of samples so far. -/
  count : Nat := 0
  /-- The last sample. -/
  last : Sample := ⟨0, 0⟩
  /-- Time between the last two samples, modulo 2 ^ 64. -/
  interval : Int64 := 0
  /-- The window in use for values. -/
  window : Option Window := none

namespace StreamState

/-- The stored form of the next sample, and the state after it. -/
def encode (s : StreamState) (x : Sample) : Bits × StreamState :=
  match s.count with
  | 0 =>
    (Varint.encodeSigned x.time.toInt ++ Bits.ofNat 64 x.value.toNat,
      { s with count := 1, last := x })
  | 1 =>
    let interval := x.time - s.last.time
    let (value, window) := Window.encode s.window (x.value ^^^ s.last.value)
    (Varint.encode interval.toUInt64.toNat ++ value, ⟨2, x, interval, window⟩)
  | n =>
    let interval := x.time - s.last.time
    let (value, window) := Window.encode s.window (x.value ^^^ s.last.value)
    (Interval.encode (interval - s.interval) ++ value, ⟨n + 1, x, interval, window⟩)

/-- Takes the next sample, and gives the state after it. -/
def decode (s : StreamState) : BitParser StreamState :=
  match s.count with
  | 0 => do
    let time ← BitParser.signedVarint
    let value ← BitParser.bits 64
    pure { s with count := 1, last := ⟨Int64.ofInt time, UInt64.ofNat value⟩ }
  | 1 => do
    let interval := (UInt64.ofNat (← BitParser.varint)).toInt64
    let (change, window) ← Window.decode s.window
    pure ⟨2, ⟨s.last.time + interval, s.last.value ^^^ change⟩, interval, window⟩
  | n => do
    let interval := s.interval + (← Interval.decode)
    let (change, window) ← Window.decode s.window
    pure ⟨n + 1, ⟨s.last.time + interval, s.last.value ^^^ change⟩, interval, window⟩

/-- The stored form of a run of samples. -/
def encodeAll (s : StreamState) : List Sample → Bits
  | [] => []
  | x :: xs => (s.encode x).1 ++ (s.encode x).2.encodeAll xs

end StreamState

end SeriesStore
