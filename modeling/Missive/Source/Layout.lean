import Missive.Text.Lines

/-!
# Missive.Source.Layout

Source code as a list of lines and blocks, and its text.

Code is put together with `line`, `blank`, `enter`, `leave` and the like.  The layout indents what
is inside a block and keeps blank lines apart.  Nothing here pairs the beginnings of blocks with
their ends, and a layout in which no block is open passes over an end.
-/

namespace Missive.Source

/-- A piece of source code. -/
inductive Piece where
  | line (text : String)
  /-- An empty line, unless the code before it ends with one or opens a block. -/
  | blank
  /-- The beginning of a block. -/
  | opening (head : String)
  /-- The end of a block, with the text after its brace. -/
  | closing (after : String)
  | docs (text : Option String)
  /-- Lines that are laid out already, but for the indentation. -/
  | raw (text : String)
  deriving Repr, DecidableEq

/-- Source code. -/
abbrev Code := List Piece

def line (text : String) : Code := [.line text]

def blank : Code := [.blank]

def docs (text : Option String) : Code := [.docs text]

def raw (text : String) : Code := [.raw text]

/-- The beginning of a block. -/
def enter (head : String) : Code := [.opening head]

/-- The end of a block, with a text after its brace. -/
def leaveWith (after : String) : Code := [.closing after]

/-- The end of a block. -/
def leave : Code := leaveWith ""

/-! ## text -/

/-- Text laid out so far. -/
structure Layout where
  output : String := ""
  /-- How many blocks are open. -/
  indent : Nat := 0

namespace Layout

/-- The white space in front of a line. -/
def margin (indent : Nat) : String := "".intercalate (List.replicate indent "    ")

/-- Add a line; an empty one is not indented. -/
def addLine (layout : Layout) (text : String) : Layout :=
  let text := if text.isEmpty then "" else margin layout.indent ++ text
  { layout with output := layout.output ++ text ++ "\n" }

/-- Add an empty line where one may stand. -/
def addBlank (layout : Layout) : Layout :=
  if layout.output.isEmpty || layout.output.endsWith "\x7b\n" || layout.output.endsWith "\n\n" then
    layout
  else { layout with output := layout.output ++ "\n" }

/-- The line of a documentation comment. -/
def docLine (text : String) : String :=
  let text := String.ofList (Text.trimEnd text.toList)
  if text.isEmpty then "///" else s!"/// {text}"

/-- Add a piece of code. -/
def add (layout : Layout) : Piece → Layout
  | .line text => layout.addLine text
  | .blank => layout.addBlank
  | .opening head =>
    let layout := layout.addLine (if head.isEmpty then "\x7b" else s!"{head} \x7b")
    { layout with indent := layout.indent + 1 }
  | .closing after => { layout with indent := layout.indent - 1 }.addLine s!"\x7d{after}"
  | .docs none => layout
  | .docs (some text) =>
    (Text.lines (Text.trimmed text)).foldl (fun layout text => layout.addLine (docLine text)) layout
  | .raw text => (Text.lines text).foldl addLine layout

end Layout

/-- The text of source code. -/
def Code.render (code : Code) : String := (code.foldl Layout.add {}).output

end Missive.Source
