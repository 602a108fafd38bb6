/-!
# Missive.Text.Scan

Reading a text from left to right, where a text that does not fit is refused without a reason.
-/

namespace Missive.Text

/-- A step of reading a text: a result and the text after it, or a refusal. -/
abbrev Scan := StateT (List Char) Option

namespace Scan

/-- Refuse the text. -/
def fail {α : Type} : Scan α := fun _ => none

/-- Refuse the text unless a condition holds. -/
def ensure (ok : Bool) : Scan Unit := if ok then pure () else fail

/-- The next character, left in place. -/
def peek? : Scan (Option Char) := fun cs => some (cs.head?, cs)

/-- The next character. -/
def next : Scan Char := fun cs =>
  match cs with
  | [] => none
  | c :: rest => some (c, rest)

/-- Whether the text goes on with another one, left in place. -/
def looksAt (expected : String) : Scan Bool := fun cs => some (expected.toList.isPrefixOf cs, cs)

/-- Read a text if it comes next, and say whether it did. -/
def accept (expected : String) : Scan Bool := fun cs =>
  if expected.toList.isPrefixOf cs then some (true, cs.drop expected.length) else some (false, cs)

/-- Read a text that must come next. -/
def expect (expected : String) : Scan Unit := do ensure (← accept expected)

/-- The longest stretch of characters of a class. -/
def takeWhile (p : Char → Bool) : Scan (List Char) := fun cs =>
  some (cs.takeWhile p, cs.dropWhile p)

/-- Leave out the longest stretch of characters of a class. -/
def skipWhile (p : Char → Bool) : Scan Unit := modify (·.dropWhile p)

/-- A nonempty stretch of characters of a class. -/
def takeSome (p : Char → Bool) : Scan (List Char) := do
  let cs ← takeWhile p
  ensure (!cs.isEmpty)
  return cs

/-- Whether nothing is left. -/
def atEnd : Scan Bool := fun cs => some (cs.isEmpty, cs)

/-- Repeat a step that says whether to go on, at most `fuel` times. -/
def repeatSteps {α : Type} (step : α → Scan (α × Bool)) : Nat → α → Scan α
  | 0, _ => fail
  | fuel + 1, a => do
    let (a', more) ← step a
    if more then repeatSteps step fuel a' else return a'

/-- Repeat a step that says whether to go on.  A step that goes on reads at least one
character. -/
def loop {α : Type} (step : α → Scan (α × Bool)) (a : α) : Scan α := fun cs =>
  repeatSteps step (cs.length + 1) a cs

/-- Read a whole text. -/
def run? {α : Type} (scan : Scan α) (cs : List Char) : Option α :=
  match scan cs with
  | some (a, []) => some a
  | _ => none

end Scan

end Missive.Text
