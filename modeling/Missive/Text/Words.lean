import Missive.Text.Alphanumeric
import Missive.Text.Case

/-!
# Missive.Text.Words

The words of a free-form name, and the ways to join them.

A name is cut at every character that is not alphanumeric.  Inside a piece, a word ends where a
lower-case stretch meets an upper-case letter, and before the last of several upper-case letters
if a lower-case letter follows it: `XMLHttpRequest` has the words `XML`, `Http` and `Request`.
-/

namespace Missive.Text

/-- The case of the last cased character of the word that is being read. -/
inductive WordMode where
  | none
  | lower
  | upper
  deriving DecidableEq

/-- The mode after a character. -/
def WordMode.after (mode : WordMode) (c : Char) : WordMode :=
  if isLower c then .lower else if isUpper c then .upper else mode

/-- A text with a word put in front of its words; an empty word is left out. -/
def consWord (word : List Char) (words : List (List Char)) : List (List Char) :=
  if word.isEmpty then words else word :: words

/-- The words of a piece without separators; `word` is the word so far, backwards. -/
def pieceWords (mode : WordMode) (word : List Char) : List Char → List (List Char)
  | [] => consWord word.reverse []
  | [c] => [(c :: word).reverse]
  | c :: next :: rest =>
    let mode' := mode.after c
    if mode' == .lower && isUpper next then
      (c :: word).reverse :: pieceWords .none [] (next :: rest)
    else if mode == .upper && isUpper c && isLower next then
      word.reverse :: pieceWords .none [c] (next :: rest)
    else pieceWords mode' (c :: word) (next :: rest)

/-- The pieces between characters that are not alphanumeric; `piece` is the piece so far,
backwards. -/
def pieces (piece : List Char) : List Char → List (List Char)
  | [] => consWord piece.reverse []
  | c :: rest =>
    if isAlphanumeric c then pieces (c :: piece) rest
    else consWord piece.reverse (pieces [] rest)

/-- The words of a name. -/
def words (name : String) : List (List Char) :=
  (pieces [] name.toList).flatMap (pieceWords .none [])

/-- The lower case of a word; a sigma at its end takes its final form. -/
def lowerWord : List Char → List Char
  | [] => []
  | [c] => if c == 'Σ' then ['ς'] else lowerOf c
  | c :: rest => lowerOf c ++ lowerWord rest

/-- The upper case of a word. -/
def upperWord (word : List Char) : List Char := word.flatMap upperOf

/-- A word with a capital letter. -/
def capitalWord : List Char → List Char
  | [] => []
  | c :: rest => upperOf c ++ lowerWord rest

/-- The words of a name in lower case, joined by a separator. -/
def joinLower (separator : List Char) (name : String) : String :=
  String.ofList (separator.intercalate ((words name).map lowerWord))

/-- `snake_case`. -/
def snakeCase (name : String) : String := joinLower ['_'] name

/-- `kebab-case`. -/
def kebabCase (name : String) : String := joinLower ['-'] name

/-- `SHOUTY_SNAKE_CASE`. -/
def shoutyCase (name : String) : String :=
  String.ofList (['_'].intercalate ((words name).map upperWord))

/-- `UpperCamelCase`. -/
def camelCase (name : String) : String :=
  String.ofList ((words name).flatMap capitalWord)

end Missive.Text
