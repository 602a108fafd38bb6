import Missive.Text.Runs

/-!
# Missive.Xml.Name

The characters of XML, and of names in it.
-/

namespace Missive.Xml

def isSpace (c : Char) : Bool := c == ' ' || c == '\t' || c == '\n' || c == '\r'

/-- Whether a character may occur in a document at all. -/
def isAllowed (c : Char) : Bool :=
  if c.toNat < 0x20 then isSpace c else c.toNat != 0xfffe && c.toNat != 0xffff

/-- Whether a character is in one of some ranges. -/
def inRanges (ranges : List (Nat × Nat)) (c : Char) : Bool :=
  ranges.any fun (first, last) => first ≤ c.toNat && c.toNat ≤ last

/-- Letters that may begin a name, beyond ASCII. -/
def startRanges : List (Nat × Nat) :=
  [(0xc0, 0xd6), (0xd8, 0xf6), (0xf8, 0x2ff), (0x370, 0x37d), (0x37f, 0x1fff), (0x200c, 0x200d),
   (0x2070, 0x218f), (0x2c00, 0x2fef), (0x3001, 0xd7ff), (0xf900, 0xfdcf), (0xfdf0, 0xfffd),
   (0x10000, 0xeffff)]

/-- Characters that a name may go on with beside those that may begin it, beyond ASCII. -/
def furtherRanges : List (Nat × Nat) := [(0xb7, 0xb7), (0x300, 0x36f), (0x203f, 0x2040)]

/-- Whether a character may begin a name. -/
def isNameStart (c : Char) : Bool :=
  c.isAlpha || c == ':' || c == '_' || inRanges startRanges c

/-- Whether a character may occur in a name. -/
def isNameChar (c : Char) : Bool :=
  isNameStart c || c.isDigit || c == '-' || c == '.' || inRanges furtherRanges c

/-- A name: a qualifier before a colon, empty if there is none, and the name proper. -/
structure Name where
  qualifier : String
  label : String
  deriving DecidableEq

end Missive.Xml
