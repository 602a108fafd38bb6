import Missive.Text.Blank

/-!
# Missive.Text.Lines

The lines of a text and the items of a comma-separated list.
-/

namespace Missive.Text

/-- A list cut at every separator. -/
def splitAt (separator : Char) : List Char → List (List Char)
  | [] => [[]]
  | c :: rest =>
    if c == separator then [] :: splitAt separator rest
    else
      match splitAt separator rest with
      | [] => [[c]]
      | first :: others => (c :: first) :: others

/-- A line that a line feed ended, without the carriage return before it. -/
def dropReturn (line : List Char) : List Char :=
  if line.getLast? == some '\r' then line.dropLast else line

/-- The lines between line feeds; the text after the last one counts unless it is empty. -/
def endedLines : List (List Char) → List (List Char)
  | [] => []
  | [last] => if last.isEmpty then [] else [last]
  | line :: rest => dropReturn line :: endedLines rest

/-- The lines of a text. -/
def lines (s : String) : List String :=
  (endedLines (splitAt '\n' s.toList)).map String.ofList

/-- The items of a comma-separated list, without white space around them and without the empty
ones. -/
def listItems (s : String) : List String :=
  (((splitAt ',' s.toList).map trim).filter (!·.isEmpty)).map String.ofList

end Missive.Text
