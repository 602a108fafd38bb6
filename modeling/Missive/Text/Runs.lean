/-!
# Missive.Text.Runs

Sets of code points, as alternating lengths of runs outside and inside the set.

Tables start at `Runs.start`: membership of the ASCII characters is a rule of the class that uses
the table.
-/

namespace Missive.Text

/-- Lengths of runs of code points that are alternately outside and inside a set. -/
abbrev Runs := List Nat

namespace Runs

/-- The first code point that a table speaks of. -/
def start : Nat := 128

/-- Whether the code point `offset` places after the beginning of the table is in the set. -/
def hasOffset : Runs → Nat → Bool
  | outside :: inside :: rest, offset =>
    if offset < outside then false
    else if offset - outside < inside then true
    else hasOffset rest (offset - outside - inside)
  | _, _ => false

/-- Whether a character from `start` on is in the set. -/
def has (runs : Runs) (c : Char) : Bool := runs.hasOffset (c.toNat - start)

end Runs

end Missive.Text
