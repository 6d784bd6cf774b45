import SeriesStore.Text.Hex

/-!
# Universally unique identifiers

An identifier is a number of 128 bits. It is written as 32 hexadecimal digits, either without a
break or in five groups with hyphens between them.
-/

namespace SeriesStore

/-- An identifier of 128 bits. -/
structure Uid where
  value : BitVec 128
  deriving DecidableEq

namespace Uid

/-- The identifier of version 4 with random bits. -/
def ofRandom (n : Nat) : Uid :=
  let high := n >>> 80 % 0x1000000000000
  let middle := n >>> 64 % 0x1000
  let low := n % 0x4000000000000000
  ⟨BitVec.ofNat 128 (high <<< 80 + 4 <<< 76 + middle <<< 64 + 0x8000000000000000 + low)⟩

/-! ### Printing -/

/-- The 32 digits of an identifier. -/
def digits (u : Uid) : List Char := Text.hexDigits 32 u.value.toNat

/-- The written form without hyphens. -/
def simple (u : Uid) : String := String.ofList u.digits

/-- The written form in groups of 8, 4, 4, 4 and 12 digits. -/
def toText (u : Uid) : String :=
  let ds := u.digits
  String.ofList (ds.take 8 ++ '-' :: (ds.drop 8).take 4 ++ '-' :: (ds.drop 12).take 4
    ++ '-' :: (ds.drop 16).take 4 ++ '-' :: ds.drop 20)

/-! ### Reading -/

/-- The identifier with 32 given digits. -/
def ofDigits? (ds : List Char) : Option Uid :=
  if ds.length = 32 then (Text.ofHexDigits? ds).map fun n => ⟨BitVec.ofNat 128 n⟩ else none

/-- The identifier in five groups of digits. -/
def ofGroups? (cs : List Char) : Option Uid :=
  if cs.length = 36 ∧ cs[8]? = some '-' ∧ cs[13]? = some '-' ∧ cs[18]? = some '-'
      ∧ cs[23]? = some '-' then
    ofDigits? (cs.take 8 ++ (cs.drop 9).take 4 ++ (cs.drop 14).take 4 ++ (cs.drop 19).take 4
      ++ cs.drop 24)
  else none

/-- Reads 32 digits, or five groups that may stand in braces or behind a resource name prefix. The
letters of the prefix may be of either case. -/
def ofText? (s : String) : Option Uid :=
  let cs := s.toList
  let name := "urn:uuid:".toList
  if s.utf8ByteSize = 32 then ofDigits? cs
  else if s.utf8ByteSize = 36 then ofGroups? cs
  else if s.utf8ByteSize = 38 ∧ cs.head? = some '\x7b' ∧ cs.getLast? = some '\x7d' then
    ofGroups? (cs.drop 1).dropLast
  else if s.utf8ByteSize = 45 ∧ (cs.take 9).map Char.toLower = name then ofGroups? (cs.drop 9)
  else none

end Uid

end SeriesStore
