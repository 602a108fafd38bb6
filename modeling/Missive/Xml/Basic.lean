/-!
# Missive.Xml.Basic

XML elements, as far as messages are read from them.
-/

namespace Missive.Xml

/-- An element: its name without a namespace, its attributes in document order, the text it begins
with, and the elements directly inside it.  The text ends at the first element, comment or
processing instruction; text after that is not kept. -/
structure Element where
  name : String
  attributes : List (String × String)
  text : String
  elements : List Element

namespace Element

/-- The first element inside. -/
def first? (e : Element) : Option Element := e.elements.head?

mutual

/-- How deeply elements nest. -/
def depth : Element → Nat
  | ⟨_, _, _, elements⟩ => deepest elements + 1

/-- The depth of the deepest of some elements. -/
def deepest : List Element → Nat
  | [] => 0
  | e :: rest => max (depth e) (deepest rest)

end

end Element

end Missive.Xml
