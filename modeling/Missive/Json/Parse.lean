import Missive.Json.Number
import Missive.Text.Hex

/-!
# Missive.Json.Parse

Reading JSON text.

The grammar is strict.  Containers may nest to a limit; a property that occurs twice keeps its
first place and its last value.
-/

namespace Missive.Json

open Text

/-- How deeply arrays and objects may nest. -/
def nestingLimit : Nat := 127

def isSpace (c : Char) : Bool := c == ' ' || c == '\t' || c == '\n' || c == '\r'

/-- The number of four hexadecimal digits. -/
def readUnit : Scan Nat := do
  let a ← Text.hexValue? (← Scan.next)
  let b ← Text.hexValue? (← Scan.next)
  let c ← Text.hexValue? (← Scan.next)
  let d ← Text.hexValue? (← Scan.next)
  return ((a * 16 + b) * 16 + c) * 16 + d

/-- The character of an escape after `\u`.  A surrogate needs its partner. -/
def readCodeEscape : Scan Char := do
  let unit ← readUnit
  if 0xdc00 ≤ unit && unit ≤ 0xdfff then Scan.fail
  else if 0xd800 ≤ unit && unit ≤ 0xdbff then
    Scan.expect "\\u"
    let low ← readUnit
    Scan.ensure (0xdc00 ≤ low && low ≤ 0xdfff)
    return Char.ofNat ((unit - 0xd800) * 0x400 + (low - 0xdc00) + 0x10000)
  else return Char.ofNat unit

/-- The character of an escape after its backslash. -/
def readEscape : Scan Char := do
  match ← Scan.next with
  | '"' => return '"'
  | '\\' => return '\\'
  | '/' => return '/'
  | 'b' => return '\x08'
  | 'f' => return '\x0c'
  | 'n' => return '\n'
  | 'r' => return '\r'
  | 't' => return '\t'
  | 'u' => readCodeEscape
  | _ => Scan.fail

/-- The text of a string after its first quote. -/
def readString : Scan String := do
  let chars ← Scan.loop (fun chars => do
    match ← Scan.next with
    | '"' => return (chars, false)
    | '\\' => return ((← readEscape) :: chars, true)
    | c =>
      Scan.ensure (0x20 ≤ c.toNat)
      return (c :: chars, true)) []
  return String.ofList chars.reverse

/-- The items of an array after its bracket. -/
def readItems (value : Scan Json) : Scan (List Json) := do
  Scan.skipWhile isSpace
  if ← Scan.accept "]" then return []
  else
    let items ← Scan.loop (fun items => do
      let item ← value
      Scan.skipWhile isSpace
      if ← Scan.accept "," then return (item :: items, true)
      else
        Scan.expect "]"
        return (item :: items, false)) []
    return items.reverse

/-- The members of an object after its brace. -/
def readMembers (value : Scan Json) : Scan (List (String × Json)) := do
  Scan.skipWhile isSpace
  if ← Scan.accept "\x7d" then return []
  else
    Scan.loop (fun members => do
      Scan.skipWhile isSpace
      Scan.expect "\""
      let name ← readString
      Scan.skipWhile isSpace
      Scan.expect ":"
      let members' := setMember name (← value) members
      Scan.skipWhile isSpace
      if ← Scan.accept "," then return (members', true)
      else
        Scan.expect "\x7d"
        return (members', false)) []

/-- Read a value with at most `depth` nested containers. -/
def readValue (depth : Nat) : Scan Json := do
  Scan.skipWhile isSpace
  match ← Scan.peek? with
  | some 'n' => Scan.expect "null"; return .null
  | some 't' => Scan.expect "true"; return .bool true
  | some 'f' => Scan.expect "false"; return .bool false
  | some '"' => let _ ← Scan.next; return .string (← readString)
  | some '[' =>
    let _ ← Scan.next
    match depth with
    | 0 => Scan.fail
    | depth + 1 => return .array (← readItems (readValue depth))
  | some '\x7b' =>
    let _ ← Scan.next
    match depth with
    | 0 => Scan.fail
    | depth + 1 => return .object (← readMembers (readValue depth))
  | _ => return .number (← JsonNumber.read)

/-- The value that a text writes. -/
def parse? (text : String) : Option Json :=
  Scan.run? (do
    let value ← readValue nestingLimit
    Scan.skipWhile isSpace
    return value) text.toList

end Missive.Json
