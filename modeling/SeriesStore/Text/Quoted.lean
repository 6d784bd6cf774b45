import SeriesStore.Text.Hex
import SeriesStore.Text.Printable

/-!
# Quoted names

File names appear in messages between double quotes. Double quotes and backslashes are written
after a backslash, and so are the characters that do not show.
-/

namespace SeriesStore.Text

/-- Digits of a code point without leading zeros. -/
def codeDigits (n : Nat) : List Char :=
  match (hexDigits 6 n).dropWhile (· == '0') with
  | [] => ['0']
  | ds => ds

/-- The form of a character between quotes. -/
def namedChar (c : Char) : List Char :=
  match c with
  | '"' => ['\\', '"']
  | '\\' => ['\\', '\\']
  | '\x00' => ['\\', '0']
  | '\n' => ['\\', 'n']
  | '\r' => ['\\', 'r']
  | '\t' => ['\\', 't']
  | c =>
    if isPrintable c then [c] else ['\\', 'u', '\x7b'] ++ codeDigits c.toNat ++ ['\x7d']

/-- A name between quotes. -/
def quotedName (s : String) : String :=
  String.ofList ('"' :: s.toList.flatMap namedChar ++ ['"'])

end SeriesStore.Text
