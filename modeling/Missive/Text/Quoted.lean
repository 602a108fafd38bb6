import Missive.Text.Hex
import Missive.Text.Printable

/-!
# Missive.Text.Quoted

Texts between double quotes, with escapes for what a reader could not see.
-/

namespace Missive.Text

/-- The escape `\u{…}` of a character. -/
def codeEscape (c : Char) : List Char :=
  "\\u\x7b".toList ++ (hexText c.toNat).toList ++ ['\x7d']

/-- A character as it stands between double quotes. -/
def quotedChar (c : Char) : List Char :=
  if c == '\x00' then ['\\', '0']
  else if c == '\t' then ['\\', 't']
  else if c == '\r' then ['\\', 'r']
  else if c == '\n' then ['\\', 'n']
  else if c == '"' || c == '\\' then ['\\', c]
  else if isPrintable c then [c]
  else codeEscape c

/-- A text between double quotes. -/
def quoted (s : String) : String :=
  String.ofList ('"' :: s.toList.flatMap quotedChar ++ ['"'])

end Missive.Text
