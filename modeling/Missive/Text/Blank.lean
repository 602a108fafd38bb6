import Missive.Text.Runs

/-!
# Missive.Text.Blank

White space, and text without the white space at its ends.
-/

namespace Missive.Text

/-- The white space beyond ASCII. -/
def blankRuns : Runs :=
  [5, 1, 26, 1, 5599, 1, 2431, 11, 29, 2, 5, 1, 47, 1, 4000, 1]

/-- Whether a character is white space. -/
def isBlank (c : Char) : Bool :=
  if c.toNat < Runs.start then c == ' ' || (0x09 ≤ c.toNat && c.toNat ≤ 0x0d) else blankRuns.has c

/-- A text without the white space at its beginning. -/
def trimStart (cs : List Char) : List Char := cs.dropWhile isBlank

/-- A text without the white space at its end. -/
def trimEnd (cs : List Char) : List Char := (cs.reverse.dropWhile isBlank).reverse

/-- A text without the white space at its ends. -/
def trim (cs : List Char) : List Char := trimEnd (trimStart cs)

/-- A string without the white space at its ends. -/
def trimmed (s : String) : String := String.ofList (trim s.toList)

end Missive.Text
