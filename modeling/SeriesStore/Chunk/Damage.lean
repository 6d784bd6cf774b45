/-!
# Damage to an encoded chunk

What can be wrong with the payload of a chunk, in the order in which a reader meets it.
-/

namespace SeriesStore

/-- Why a payload cannot be decoded any further. -/
inductive ChunkDamage
  /-- The payload has fewer bytes than its header. -/
  | shortHeader (size : Nat)
  /-- The payload ends where bit number `bit` is needed. -/
  | truncated (bit : Nat)
  /-- A number goes on after its tenth group. -/
  | longNumber
  /-- A new window is wider than a word. -/
  | wideWindow (leading significant : Nat)
  /-- The window in use is wider than a word. -/
  | badWindow
  deriving DecidableEq

/-- The text that describes a damage. -/
def ChunkDamage.message : ChunkDamage → String
  | shortHeader size => s!"xor chunk shorter than its header: {size} bytes"
  | truncated bit => s!"chunk payload truncated at bit {bit}"
  | longNumber => "varint overflows 64 bits"
  | wideWindow leading significant =>
    s!"xor window out of range: leading={leading} significant={significant}"
  | badWindow => "xor window out of range"

end SeriesStore
