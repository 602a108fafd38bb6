import Missive.Text.Scan
import Missive.Toml.Number

/-!
# Missive.Toml.Parse

Reading TOML documents.
-/

namespace Missive.Toml

open Text

/-- The most levels to which arrays and inline tables nest, and the most parts of a key. -/
def nestingLimit : Nat := 79

/-! ## white space and comments -/

def isBlankChar (c : Char) : Bool := c == ' ' || c == '\t'

/-- Whether a character may stand in a comment or a literal string. -/
def isPlain (c : Char) : Bool := c == '\t' || (0x20 ≤ c.toNat && c.toNat != 0x7f)

def skipBlanks : Scan Unit := Scan.skipWhile isBlankChar

/-- Read the end of a line and say whether there was one. -/
def acceptNewline : Scan Bool := do
  if ← Scan.accept "\n" then return true else Scan.accept "\r\n"

/-- Read a comment if there is one. -/
def skipComment : Scan Unit := do
  if ← Scan.accept "#" then Scan.skipWhile isPlain

/-- Read to the end of the line, on which nothing but a comment may be left. -/
def finishLine : Scan Unit := do
  skipBlanks
  skipComment
  if ← Scan.atEnd then return () else Scan.ensure (← acceptNewline)

/-- Leave out white space, comments and ends of lines. -/
def skipLines : Scan Unit :=
  Scan.loop (fun _ => do
    skipBlanks
    let comment ← Scan.looksAt "#"
    skipComment
    let newline ← acceptNewline
    Scan.ensure (newline || !comment)
    return ((), newline)) ()

/-! ## strings -/

/-- The character of a code in hexadecimal digits. -/
def charOfHex? (digits : List Char) : Option Char := do
  let values ← digits.mapM (digitIn? 16)
  let n := values.foldl (fun n d => 16 * n + d) 0
  if n.isValidChar then some (Char.ofNat n) else none

/-- The next `count` characters. -/
def takeChars (count : Nat) : Scan (List Char) := fun cs =>
  if count ≤ cs.length then some (cs.take count, cs.drop count) else none

/-- The character of an escape after its backslash. -/
def readEscape : Scan Char := do
  match ← Scan.next with
  | 'b' => return '\x08'
  | 't' => return '\t'
  | 'n' => return '\n'
  | 'f' => return '\x0c'
  | 'r' => return '\r'
  | '"' => return '"'
  | '\\' => return '\\'
  | 'u' => charOfHex? (← takeChars 4)
  | 'U' => charOfHex? (← takeChars 8)
  | _ => Scan.fail

/-- The text of a string on one line, after its quote. -/
def readString (quote : Char) : Scan String := do
  let chars ← Scan.loop (fun chars => do
    let c ← Scan.next
    if c == quote then return (chars, false)
    else if c == '\\' && quote == '"' then return ((← readEscape) :: chars, true)
    else
      Scan.ensure (isPlain c)
      return (c :: chars, true)) []
  return String.ofList chars.reverse

/-- Leave out the rest of a line after a backslash, if it is white space, and all white space on
the lines after it. -/
def skipFold : Scan Bool := fun cs =>
  match cs.dropWhile isBlankChar with
  | '\n' :: rest => some (true, dropLines rest)
  | '\r' :: '\n' :: rest => some (true, dropLines rest)
  | _ => some (false, cs)
where
  dropLines : List Char → List Char
    | '\r' :: '\n' :: rest => dropLines rest
    | c :: rest => if isBlankChar c || c == '\n' then dropLines rest else c :: rest
    | [] => []

/-- The text of a string on several lines, after its quotes.  Up to two quotes may stand before
the closing ones. -/
def readLongString (quote : Char) : Scan String := do
  let _ ← acceptNewline
  let chars ← Scan.loop (fun chars => do
    if ← acceptNewline then return ('\n' :: chars, true)
    else
      let c ← Scan.next
      if c == quote then
        let more ← Scan.takeWhile (· == quote)
        match more.length with
        | 0 => return (quote :: chars, true)
        | 1 => return (quote :: quote :: chars, true)
        | 2 => return (chars, false)
        | 3 => return (quote :: chars, false)
        | 4 => return (quote :: quote :: chars, false)
        | _ => Scan.fail
      else if c == '\\' && quote == '"' then
        if ← skipFold then return (chars, true) else return ((← readEscape) :: chars, true)
      else
        Scan.ensure (isPlain c)
        return (c :: chars, true)) []
  return String.ofList chars.reverse

/-- The text of a string at its quote. -/
def readAnyString (quote : Char) : Scan String := do
  if ← Scan.accept (String.ofList [quote, quote, quote]) then readLongString quote
  else
    let _ ← Scan.next
    readString quote

/-! ## keys -/

def isKeyChar (c : Char) : Bool := c.isAlphanum || c == '-' || c == '_'

/-- A part of a key. -/
def readKeyPart : Scan String := do
  skipBlanks
  let part ←
    if ← Scan.accept "\"" then readString '"'
    else if ← Scan.accept "'" then readString '\''
    else String.ofList <$> Scan.takeSome isKeyChar
  skipBlanks
  return part

/-- A key: the parts before its last dot, and the last part. -/
def readKey : Scan (List String × String) := do
  let first ← readKeyPart
  let (parts, last) ← Scan.loop (fun (parts, last) => do
    if ← Scan.accept "." then return ((parts ++ [last], ← readKeyPart), true)
    else return ((parts, last), false)) ([], first)
  Scan.ensure (parts.length + 1 ≤ nestingLimit)
  return (parts, last)

/-! ## values -/

/-- Whether a character ends a word. -/
def endsWord (c : Char) : Bool :=
  isBlankChar c || c == '#' || c == '\n' || c == '\r' || c == ',' || c == ']' || c == '\x7d'

/-- A value that is a word.  A space may stand between a date and a time. -/
def readWord : Scan Item := do
  let word ← Scan.takeWhile (!endsWord ·)
  match ← peekTwo with
  | (' ', c) =>
    if isDate word && c.isDigit then
      let _ ← Scan.next
      let time ← Scan.takeWhile (!endsWord ·)
      Scan.ensure (isOffsetTime time)
      return .moment
    else word? word
  | _ => word? word
where
  peekTwo : Scan (Char × Char) := fun cs =>
    match cs with
    | a :: b :: _ => some ((a, b), cs)
    | _ => some (('\n', '\n'), cs)

/-- The items of an array after its bracket. -/
def readItems (value : Scan Item) : Scan (List Item) := do
  let items ← Scan.loop (fun items => do
    skipLines
    if ← Scan.accept "]" then return (items, false)
    else
      let item ← value
      skipLines
      if ← Scan.accept "," then return (item :: items, true)
      else
        Scan.expect "]"
        return (item :: items, false)) []
  return items.reverse

/-- A key and its value. -/
def readPair (value : Scan Item) : Scan ((List String × String) × Item) := do
  let key ← readKey
  Scan.expect "="
  skipBlanks
  return (key, ← value)

/-- The entries of an inline table after its brace. -/
def readEntries (value : Scan Item) : Scan Entries := do
  skipBlanks
  if ← Scan.accept "\x7d" then return []
  else
    Scan.loop (fun entries => do
      let ((path, key), item) ← readPair value
      let entries ← Entries.define path key item entries
      skipBlanks
      if ← Scan.accept "," then return (entries, true)
      else
        Scan.expect "\x7d"
        return (entries, false)) []

/-- A value that holds no others. -/
def readSimple : Scan Item := do
  match ← Scan.peek? with
  | some '"' => return .string (← readAnyString '"')
  | some '\'' => return .string (← readAnyString '\'')
  | _ => readWord

/-- A value in which arrays and inline tables nest to at most `depth` levels. -/
def readValue : (depth : Nat) → Scan Item
  | 0 => readSimple
  | depth + 1 => do
    match ← Scan.peek? with
    | some '[' =>
      let _ ← Scan.next
      return .array (← readItems (readValue depth))
    | some '\x7b' =>
      let _ ← Scan.next
      return .inline (← readEntries (readValue depth))
    | _ => readSimple

/-! ## documents -/

/-- A document as far as it is read: the last header, and everything defined. -/
structure Draft where
  header : List String := []
  entries : Entries := []

/-- Read a header. -/
def readHeader (draft : Draft) : Scan Draft := do
  if ← Scan.accept "[[" then
    let (path, key) ← readKey
    Scan.expect "]]"
    finishLine
    return { header := path ++ [key], entries := ← draft.entries.openElement path key }
  else
    Scan.expect "["
    let (path, key) ← readKey
    Scan.expect "]"
    finishLine
    return { header := path ++ [key], entries := ← draft.entries.openTable path key }

/-- Read a line that sets a key. -/
def readLine (draft : Draft) : Scan Draft := do
  let ((path, key), item) ← readPair (readValue nestingLimit)
  finishLine
  return { draft with entries := ← draft.entries.defineUnder draft.header path key item }

/-- Read a document. -/
def readDocument : Scan Entries := do
  let _ ← Scan.accept "\ufeff"
  let draft ← Scan.loop (fun draft => do
    skipBlanks
    match ← Scan.peek? with
    | none => return (draft, false)
    | some '#' | some '\n' | some '\r' =>
      finishLine
      return (draft, true)
    | some '[' => return (← readHeader draft, true)
    | some _ => return (← readLine draft, true)) ({} : Draft)
  return draft.entries

/-- The entries of a document. -/
def parse? (text : String) : Option Entries := Scan.run? readDocument text.toList

end Missive.Toml
