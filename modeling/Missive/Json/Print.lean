import Missive.Json.Basic
import Missive.Number.Shortest
import Missive.Text.Hex

/-!
# Missive.Json.Print

Writing JSON text, without any white space.

Doubles have the fewest digits that read back, in positional form where the exponent is small and
never without a point or an exponent.
-/

namespace Missive.JsonNumber

/-- The text of a double. -/
def realText (x : Double) : String :=
  match x.datum with
  | .finite below m e =>
    let sign := if below then "-" else ""
    if m == 0 then sign ++ "0.0"
    else
      let d := Shortest.digits .double .toEven m e
      let exponent := d.point - 1
      sign ++ (if -5 ≤ exponent && exponent < 16 then d.positional ".0" else d.scientific)
  | _ => "null"

/-- The text of a number. -/
def text : JsonNumber → String
  | .natural n => decimalText n.toNat
  | .negative n _ => integerText n.toInt
  | .real x _ => realText x

end Missive.JsonNumber

namespace Missive.Json

/-- The escape of a unit of 16 bits. -/
def unitEscape (n : Nat) : List Char := ['\\', 'u'] ++ (Text.hexPadded 4 n).toList

/-- A character as it stands in a string. -/
def stringChar (c : Char) : List Char :=
  if c == '"' || c == '\\' then ['\\', c]
  else if c == '\x08' then ['\\', 'b']
  else if c == '\x0c' then ['\\', 'f']
  else if c == '\n' then ['\\', 'n']
  else if c == '\r' then ['\\', 'r']
  else if c == '\t' then ['\\', 't']
  else if c.toNat < 0x20 then unitEscape c.toNat
  else [c]

/-- The text of a string. -/
def stringText (s : String) : String :=
  String.ofList ('"' :: s.toList.flatMap stringChar ++ ['"'])

mutual

/-- The text of a value. -/
def text : Json → String
  | .null => "null"
  | .bool b => if b then "true" else "false"
  | .number n => n.text
  | .string s => stringText s
  | .array items => "[" ++ ",".intercalate (itemTexts items) ++ "]"
  | .object members => "\x7b" ++ ",".intercalate (memberTexts members) ++ "\x7d"

def itemTexts : List Json → List String
  | [] => []
  | item :: rest => text item :: itemTexts rest

def memberTexts : List (String × Json) → List String
  | [] => []
  | (name, value) :: rest => (stringText name ++ ":" ++ text value) :: memberTexts rest

end

/-- A character outside of ASCII as one or two escapes. -/
def asciiChar (c : Char) : List Char :=
  let n := c.toNat
  if n < 0x80 then [c]
  else if n < 0x10000 then unitEscape n
  else unitEscape (0xd800 + (n - 0x10000) / 0x400) ++ unitEscape (0xdc00 + (n - 0x10000) % 0x400)

/-- The text of a value in ASCII.  Characters outside of it stand in strings only. -/
def asciiText (value : Json) : String := String.ofList (value.text.toList.flatMap asciiChar)

end Missive.Json
