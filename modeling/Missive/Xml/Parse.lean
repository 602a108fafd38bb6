import Missive.Text.Hex
import Missive.Text.Scan
import Missive.Xml.Basic
import Missive.Xml.Name

/-!
# Missive.Xml.Parse

Reading XML documents.

Namespaces are resolved: a qualifier must be bound, and attributes of one element must differ in
namespace or name.  Document types are refused.  Character references and the five predefined
entities are expanded.  Line ends become line feeds, and white space in attribute values becomes
spaces; a character reference is kept as it is, and so is the character after one in text.
-/

namespace Missive.Xml

open Text

/-- A namespace that the standard reserves, by the segments of its name. -/
def reservedSpace (segments : List String) : String :=
  "/".intercalate ("http:" :: "" :: "www.w3.org" :: segments)

/-- The namespace of the qualifier `xml`. -/
def xmlSpace : String := reservedSpace ["XML", "1998", "namespace"]

/-- The namespace of the qualifier `xmlns`. -/
def bindingSpace : String := reservedSpace ["2000", "xmlns", ""]

/-- The namespaces that qualifiers are bound to, innermost binding first. -/
abbrev Scope := List (String × String)

/-! ## characters and references -/

def skipSpaces : Scan Unit := Scan.skipWhile isSpace

/-- The text up to an end mark, which is read too. -/
def readUntil (mark : String) : Scan (List Char) := do
  let chars ← Scan.loop (fun chars => do
    if ← Scan.accept mark then return (chars, false)
    else
      let c ← Scan.next
      Scan.ensure (isAllowed c)
      return (c :: chars, true)) []
  return chars.reverse

/-- The character of a code; codes of no character stand for the replacement character. -/
def charOfCode (n : Nat) : Char :=
  if n.isValidChar then Char.ofNat n else '\ufffd'

/-- The character of a numbered reference after `&#`. -/
def readCode : Scan Char := do
  let hexadecimal ← Scan.accept "x"
  let digits ←
    if hexadecimal then Scan.takeSome (fun c => (hexValue? c).isSome)
    else Scan.takeSome Char.isDigit
  let n := numberIn (if hexadecimal then 16 else 10) digits
  Scan.ensure (n < UInt32.size)
  let c := charOfCode n
  Scan.ensure (isAllowed c)
  return c

/-- The predefined entities. -/
def entities : List (String × Char) :=
  [("quot", '"'), ("amp", '&'), ("apos", '\''), ("lt", '<'), ("gt", '>')]

/-- The character of a named reference after `&`. -/
def readEntity : Scan Char := do
  let name ← Scan.takeSome isNameChar
  entities.lookup (String.ofList name)

/-- The character of a reference after `&`. -/
def readReference : Scan Char := do
  let c ← if ← Scan.accept "#" then readCode else readEntity
  Scan.expect ";"
  return c

/-- Add a character to text that is held in reverse: a carriage return that another character
follows, and one at the end, becomes a line feed. -/
def addText (reversed : List Char) (c : Char) (last : Bool) : List Char :=
  match reversed with
  | '\r' :: rest =>
    if c == '\n' then '\n' :: rest
    else if last && c == '\r' then '\n' :: '\n' :: rest
    else c :: '\n' :: rest
  | _ => if last && c == '\r' then '\n' :: reversed else c :: reversed

/-- Text with its references expanded. -/
def expandText : Scan (List Char) := do
  if ← Scan.atEnd then return []
  else
    let (chars, _) ← Scan.loop (fun (chars, verbatim) => do
      let c ← Scan.next
      if c == '&' then
        let c ← readReference
        return ((c :: chars, true), !(← Scan.atEnd))
      else
        let last ← Scan.atEnd
        return ((if verbatim then c :: chars else addText chars c last, false), !last)) ([], false)
    return chars.reverse

/-- Text in which nothing is expanded. -/
def plainLines : List Char → List Char → List Char
  | reversed, [] => reversed.reverse
  | reversed, c :: rest => plainLines (addText reversed c rest.isEmpty) rest

/-- An attribute value with its references expanded. -/
def expandAttribute : Scan (List Char) := do
  let chars ← Scan.loop (fun chars => do
    if ← Scan.atEnd then return (chars, false)
    else
      let c ← Scan.next
      if c == '&' then return ((← readReference) :: chars, true)
      else if c == '\r' && (← Scan.peek?) == some '\n' then return (chars, true)
      else return ((if isSpace c then ' ' else c) :: chars, true)) []
  return chars.reverse

/-! ## names and attributes -/

/-- The parts of a name around its colon. -/
def Name.ofChars? (chars : List Char) : Option Name :=
  let startsWell (cs : List Char) := cs.head?.all isNameStart
  if 1 < chars.count ':' then none
  else
    let (qualifier, label) :=
      if chars.contains ':' then (chars.takeWhile (· != ':'), (chars.dropWhile (· != ':')).drop 1)
      else ([], chars)
    if startsWell qualifier && startsWell label && !label.isEmpty then
      some ⟨String.ofList qualifier, String.ofList label⟩
    else none

/-- Read a name. -/
def readName : Scan Name := do
  Name.ofChars? (← Scan.takeWhile isNameChar)

/-- Read an attribute, its value as it is written. -/
def readAttribute : Scan (Name × List Char) := do
  let name ← readName
  skipSpaces
  Scan.expect "="
  skipSpaces
  let quote ← Scan.next
  Scan.ensure (quote == '"' || quote == '\'')
  let value ← Scan.takeWhile fun c => c != quote && c != '<' && isAllowed c
  Scan.expect (String.singleton quote)
  return (name, value)

/-- The attributes of an element as its tag gives them: the bindings of qualifiers, and all
others. -/
structure Tag where
  bindings : Scope := []
  attributes : List (Name × String) := []

/-- Add an attribute, which may be the binding of a qualifier. -/
def Tag.add? (tag : Tag) (name : Name) (value : String) : Option Tag :=
  if name.qualifier == "xmlns" then
    let isXml := value == xmlSpace
    if value == bindingSpace || isXml != (name.label == "xml")
        || (tag.bindings.lookup name.label).isSome then none
    else some (if isXml then tag else { tag with bindings := tag.bindings ++ [(name.label, value)] })
  else if name.label == "xmlns" then
    if value == xmlSpace || value == bindingSpace then none else some tag
  else some { tag with attributes := tag.attributes ++ [(name, value)] }

/-- The namespace of an attribute: none without a qualifier; refused if the qualifier is unbound. -/
def attributeSpace? (scope : Scope) (name : Name) : Option (Option String) :=
  if name.qualifier == "xml" then some (some xmlSpace)
  else if name.qualifier.isEmpty then some none
  else (scope.lookup name.qualifier).map some

/-- The attributes by their names proper, if every qualifier is bound and no two agree in
namespace and name. -/
def resolveAttributes? (scope : Scope) (attributes : List (Name × String)) :
    Option (List (String × String)) := do
  let spaces ← attributes.mapM fun (name, _) => do
    return (← attributeSpace? scope name, name.label)
  if spaces.Nodup then some (attributes.map fun (name, value) => (name.label, value)) else none

/-- The bindings inside an element. -/
def Tag.scope (outer : Scope) (tag : Tag) : Scope := tag.bindings ++ outer

/-- Read the attributes of a tag up to its end, and whether the element has content. -/
def readTag : Scan (Tag × Bool) :=
  Scan.loop (fun (tag, _) => do
    let spaced := (← Scan.peek?).any isSpace
    skipSpaces
    if ← Scan.accept "/" then
      Scan.expect ">"
      return ((tag, false), false)
    else if ← Scan.accept ">" then return ((tag, true), false)
    else
      Scan.ensure spaced
      let (name, written) ← readAttribute
      let value ← Scan.run? expandAttribute written
      let tag ← tag.add? name (String.ofList value)
      return ((tag, true), true)) ({}, true)

/-! ## comments and processing instructions -/

/-- Whether two hyphens stand together, or the last character is one. -/
def hasDashes : List Char → Bool
  | [] => false
  | ['-'] => true
  | '-' :: '-' :: _ => true
  | _ :: rest => hasDashes rest

/-- Read a comment after its `<!--`. -/
def readComment : Scan Unit := do
  let text ← readUntil "-->"
  Scan.ensure (!hasDashes text)

/-- Read a processing instruction at its `<?`. -/
def readInstruction : Scan Unit := do
  Scan.ensure (!(← Scan.looksAt "<?xml "))
  Scan.expect "<?"
  Scan.ensure ((← Scan.peek?).any isNameStart)
  Scan.skipWhile isNameChar
  let _ ← readUntil "?>"

/-- Read what may stand around the outermost element. -/
def readMisc : Scan Unit :=
  Scan.loop (fun _ => do
    skipSpaces
    if ← Scan.accept "<!--" then
      readComment
      return ((), true)
    else if ← Scan.looksAt "<?" then
      readInstruction
      return ((), true)
    else return ((), false)) ()

/-- White space, which only the end of the declaration replaces. -/
def readGap : Scan Unit := do
  if (← Scan.peek?).any isSpace then skipSpaces else Scan.ensure (← Scan.looksAt "?>")

/-- Read the declaration after its `<?xml`. -/
def readDeclaration : Scan Unit := do
  readGap
  Scan.ensure (← Scan.looksAt "version")
  let _ ← readAttribute
  readGap
  if ← Scan.looksAt "encoding" then
    let _ ← readAttribute
    readGap
  if ← Scan.looksAt "standalone" then
    let _ ← readAttribute
  skipSpaces
  Scan.expect "?>"

/-! ## elements -/

/-- The content of an element as far as it is read: the text it begins with, whether that text may
go on, and the elements in reverse. -/
structure Content where
  text : List Char := []
  leading : Bool := true
  elements : List Element := []

/-- Content followed by more text. -/
def Content.addText (content : Content) (text : List Char) : Content :=
  if content.leading then { content with text := content.text ++ text } else content

/-- Content followed by an element, or by a comment or processing instruction. -/
def Content.addNode (content : Content) (element : Option Element) : Content :=
  { content with leading := false, elements := element.toList ++ content.elements }

/-- Whether `]]>` occurs in a text. -/
def hasSectionEnd : List Char → Bool
  | ']' :: ']' :: '>' :: _ => true
  | _ :: rest => hasSectionEnd rest
  | [] => false

/-- Read text between tags. -/
def readText : Scan (List Char) := do
  let written ← Scan.takeWhile fun c => c != '<' && isAllowed c
  Scan.ensure ((← Scan.peek?) == some '<')
  Scan.ensure (!hasSectionEnd written)
  Scan.run? expandText written

/-- Read the content of an element and its closing tag, which must agree with its name. -/
def readContent (element : Scan Element) (name : Name) : Scan Content :=
  Scan.loop (fun content => do
    if ← Scan.accept "<!--" then
      readComment
      return (content.addNode none, true)
    else if ← Scan.accept "<![CDATA[" then
      return (content.addText (plainLines [] (← readUntil "]]>")), true)
    else if ← Scan.looksAt "<?" then
      readInstruction
      return (content.addNode none, true)
    else if ← Scan.accept "</" then
      Scan.ensure ((← readName) == name)
      skipSpaces
      Scan.expect ">"
      return (content, false)
    else if ← Scan.looksAt "<" then return (content.addNode (← element), true)
    else return (content.addText (← readText), true)) {}

/-- Read an element with at most `depth` levels, in a scope. -/
def readElement : (depth : Nat) → Scope → Scan Element
  | 0, _ => Scan.fail
  | depth + 1, outer => do
    Scan.expect "<"
    let name ← readName
    Scan.ensure (name.qualifier != "xmlns")
    let (tag, hasContent) ← readTag
    let scope := tag.scope outer
    let attributes ← resolveAttributes? scope tag.attributes
    Scan.ensure (name.qualifier.isEmpty || (scope.lookup name.qualifier).isSome)
    let content ← if hasContent then readContent (readElement depth scope) name else pure {}
    return ⟨name.label, attributes, String.ofList content.text, content.elements.reverse⟩

/-- Read a document. -/
def readDocument (depth : Nat) : Scan Element := do
  let _ ← Scan.accept "\ufeff"
  if ← Scan.looksAt "<?xml " then
    Scan.expect "<?xml"
    readDeclaration
  readMisc
  let root ← readElement depth []
  readMisc
  return root

/-- The outermost element of a document. -/
def parse? (text : String) : Option Element :=
  let chars := text.toList
  Scan.run? (readDocument chars.length) chars

end Missive.Xml
