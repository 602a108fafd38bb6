import Missive.Message.Catalog
import Missive.Xml.Parse
import Missive.Xml.Value

/-!
# Missive.Message.Xml

Messages from XML.

An element is read as a message: its attributes first, then the elements inside it, each in
document order.  A value without messages in it is an attribute, or an element whose text is the
value; several such values are separated by commas.  A field of an abstract type is an element
around one that names the member of the family.  Names that are not known are ignored.

Messages nest no deeper than elements do, which bounds the recursion.
-/

namespace Missive.Catalog

/-! ## values in text -/

/-- A value of a field from the text for a property. -/
def readTextOne (c : Catalog) (property text : String) : ValuePlan → Except ReadError Value
  | .primitive p => .scalar <$> Xml.scalar p.scalarType text property
  | .enumeration id => .ok (.constant (c.constantOfName id (Text.trimmed text)))
  | .message .. => .ok .absent

/-- The values of a field from a comma-separated list. -/
def readTextList (c : Catalog) (property text : String) : ValuePlan → Except ReadError (List Value)
  | .primitive p => (·.map .scalar) <$> Xml.scalarList p.scalarType text property
  | .enumeration id =>
    .ok ((Text.listItems text).map fun item => .constant (c.constantOfName id item))
  | .message .. => .ok []

/-- The value of a field from a text. -/
def readText (c : Catalog) (property text : String) (value : ValuePlan) (isList : Bool) :
    Except ReadError Value :=
  if isList then .list <$> c.readTextList property text value else c.readTextOne property text value

/-! ## elements -/

/-- A way to read an element as a message of a concrete type. -/
abbrev NestedXml := MessageId → Xml.Element → Except ReadError Message

/-- Read an element that names a member of a type. -/
def readMemberXml (c : Catalog) (nested : NestedXml) (id : MessageId) (e : Xml.Element) :
    Except ReadError (Option Value) :=
  match c.memberOfElement? id e.name with
  | some type => (some ·.toValue) <$> nested type e
  | none => .ok none

/-- Read a field from the element of its name; nothing comes of a field without a form in XML. -/
def readFieldXml (c : Catalog) (nested : NestedXml) (slot : Slot) (e : Xml.Element) :
    Except ReadError (Option Value) :=
  match slot.plan with
  | .single (.message id true) =>
    match e.first? with
    | some child => (some <| ·.getD .absent) <$> c.readMemberXml nested id child
    | none => .ok (some .absent)
  | .single (.message id false) => (some ·.toValue) <$> nested id e
  | .repeated (.message id true) =>
    (fun items => some (.list (items.filterMap fun item => item)))
      <$> e.elements.mapM (c.readMemberXml nested id)
  | .repeated (.message id false) =>
    (fun items => some (.list (items.map Message.toValue))) <$> e.elements.mapM (nested id)
  | plan =>
    match plan.textual? with
    | some (value, isList) => some <$> c.readText slot.xmlName e.text value isList
    | none => .ok none

/-- The field that an attribute sets: the nearest of its name that is written as text. -/
def attributeSlot? (c : Catalog) (id : MessageId) (name : String) : Option Slot :=
  (c.nearestFirst id).find? fun slot => slot.xmlName == name && slot.plan.textual?.isSome

/-- The field that an element sets: the nearest of its name that is not a map. -/
def elementSlot? (c : Catalog) (id : MessageId) (name : String) : Option Slot :=
  (c.nearestFirst id).find? fun slot => slot.xmlName == name && !slot.plan.isMap

/-- Set the field that an attribute names. -/
def readAttributeXml (c : Catalog) (id : MessageId) (fields : List Value)
    (pair : String × String) : Except ReadError (List Value) := do
  match c.attributeSlot? id pair.1 with
  | some slot =>
    match slot.plan.textual? with
    | some (value, isList) =>
      return fields.set slot.position (← c.readText slot.xmlName pair.2 value isList)
    | none => return fields
  | none => return fields

/-- Set the field that an element names. -/
def readElementXml (c : Catalog) (nested : NestedXml) (id : MessageId) (fields : List Value)
    (e : Xml.Element) : Except ReadError (List Value) := do
  match c.elementSlot? id e.name with
  | some slot =>
    match ← c.readFieldXml nested slot e with
    | some value => return fields.set slot.position value
    | none => return fields
  | none => return fields

/-- Read an element as a message of a concrete type, of at most `depth` nested messages. -/
def readContentXml (c : Catalog) : Nat → NestedXml
  | 0, id, _ => .ok (c.new id)
  | depth + 1, id, e => do
    let fields ← e.attributes.foldlM (c.readAttributeXml id) (c.new id).fields
    let fields ← e.elements.foldlM (c.readElementXml (c.readContentXml depth) id) fields
    return { type := id, fields }

/-- The message of a type that an element is.  The name of the element tells the members of an
abstract type apart, and is free otherwise. -/
def ofXml (c : Catalog) (id : MessageId) (e : Xml.Element) : Except ReadError (Option Message) :=
  let member :=
    if (c.model.message id).isAbstract then c.memberOfElement? id e.name else some id
  match member with
  | some type => some <$> c.readContentXml e.depth type e
  | none => .ok none

/-- The message of a type in an XML document. -/
def ofXmlText (c : Catalog) (id : MessageId) (text : String) :
    Except ReadError (Option Message) :=
  match Xml.parse? text with
  | some e => c.ofXml id e
  | none => .error .xmlText

end Missive.Catalog
