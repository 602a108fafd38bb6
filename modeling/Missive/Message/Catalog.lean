import Missive.Error
import Missive.Message.Basic
import Missive.Model.Identify
import Missive.Source.Error
import Missive.Text.Quoted

/-!
# Missive.Message.Catalog

What the codecs know about the messages of a model.

A catalog is a model of which every field can travel, with the fields of each message laid out as
slots.  The codecs in `Missive.Message` interpret it.
-/

namespace Missive

/-- A field of a message, declared or inherited. -/
structure Slot where
  /-- The message that declares the field. -/
  owner : MessageId
  field : Model.Field
  plan : FieldPlan
  /-- The place of the value among the values of the message. -/
  position : Nat

/-- A model with the slots of its messages, by number. -/
structure Catalog where
  model : Model
  layouts : List (List Slot)

/-! ## values that fields start with -/

/-- The value that stands for a missing one. -/
def ValuePlan.initial : ValuePlan → Value
  | .primitive p => .scalar p.scalarType.zero
  | .enumeration _ => .constant 0
  | .message .. => .absent

/-- The key that stands for a missing one. -/
def ValuePlan.initialKey (plan : ValuePlan) : Key := (Key.ofValue? plan.initial).getD (.constant 0)

/-- The value that a field starts with. -/
def FieldPlan.initial : FieldPlan → Value
  | .single value => value.initial
  | .repeated _ => .list []
  | .map .. => .map []

namespace Slot

/-- The name in JSON and in reflection. -/
def key (slot : Slot) : String := slot.field.key

/-- The binary tag; transient fields have none. -/
def tag (slot : Slot) : Option UInt32 := slot.field.tag

/-- The name in XML. -/
def xmlName (slot : Slot) : String := Model.xmlNameOf slot.field.options slot.field.name

/-- Lay out a field. -/
def ofField (m : Model) (owner : MessageId) (f : Model.Field) (position : Nat) :
    Except CompileError Slot :=
  match m.planField f with
  | .ok plan => .ok { owner, field := f, plan, position }
  | .error cause => .error (.unsupported (m.message owner).name f.name cause)

end Slot

namespace Catalog

/-- Lay out the fields of a message, those of the most general ancestor first. -/
def layout (m : Model) (id : MessageId) : Except CompileError (List Slot) :=
  (m.allFields id).zipIdx.mapM fun ((owner, f), position) => Slot.ofField m owner f position

/-- The catalog of a model.  A field that cannot travel is an error. -/
def ofModel (m : Model) : Except CompileError Catalog := do
  return { model := m, layouts := ← m.messageIds.mapM (layout m) }

/-! ## messages -/

/-- The slots of a message. -/
def slots (c : Catalog) (id : MessageId) : List Slot := c.layouts.getD id []

/-- The slots of a message, those that it declares first, then those of its parent, and so on. -/
def nearestFirst (c : Catalog) (id : MessageId) : List Slot :=
  (id :: c.model.ascent id).flatMap fun owner => (c.slots id).filter (·.owner == owner)

/-- The message of a name. -/
def find? (c : Catalog) (name : String) : Option MessageId :=
  c.model.messageIds.find? fun id => (c.model.message id).name == name

/-- The messages that a value of a type can be of. -/
def members (c : Catalog) (id : MessageId) : List MessageId :=
  if (c.model.message id).isAbstract then c.model.concreteDescendants id else [id]

/-- A message with the values that its fields start with. -/
def new (c : Catalog) (id : MessageId) : Message :=
  { type := id, fields := (c.slots id).map (·.plan.initial) }

/-- The binary discriminator of a concrete message. -/
def typeId? (c : Catalog) (id : MessageId) : Option UInt32 := (c.model.message id).typeId

/-- The member of a type with a binary discriminator. -/
def memberOfTypeId? (c : Catalog) (id : MessageId) (typeId : UInt32) : Option MessageId :=
  (c.members id).find? fun other => c.typeId? other == some typeId

/-- The discriminator of a message in JSON. -/
def jsonType (c : Catalog) (id : MessageId) : String := (c.model.message id).jsonType

/-- The member of a type with a discriminator in JSON; of several, the last. -/
def memberOfJsonType? (c : Catalog) (id : MessageId) (jsonType : String) : Option MessageId :=
  (c.members id).reverse.find? fun other => c.jsonType other == jsonType

/-- The element that stands for a concrete message in XML. -/
def xmlElement (c : Catalog) (id : MessageId) : String :=
  Model.xmlNameOf (c.model.message id).options (c.model.message id).name

/-- The member of a type with an element in XML; of several, the first. -/
def memberOfElement? (c : Catalog) (id : MessageId) (element : String) : Option MessageId :=
  (c.members id).find? fun other => c.xmlElement other == element

/-! ## enumerations -/

/-- The constants of an enumeration. -/
def constants (c : Catalog) (id : EnumId) : List Model.Constant :=
  (c.model.enumeration id).constants

/-- The binary code of a constant. -/
def codeOf (c : Catalog) (id : EnumId) (index : Nat) : Int32 :=
  (((c.constants id)[index]?).map (·.code)).getD 0

/-- The name of a constant in JSON. -/
def nameOf (c : Catalog) (id : EnumId) (index : Nat) : String :=
  (((c.constants id)[index]?).map (·.jsonName)).getD ""

/-- The constant of a binary code; codes that are not known stand for the first constant. -/
def constantOfCode (c : Catalog) (id : EnumId) (code : Int32) : Nat :=
  ((c.constants id).findIdx? (·.code == code)).getD 0

/-- The first constant of a name in JSON; names that are not known stand for the first
constant. -/
def constantOfName (c : Catalog) (id : EnumId) (name : String) : Nat :=
  ((c.constants id).findIdx? (·.jsonName == name)).getD 0

/-! ## keys of maps -/

/-- A key as diagnostics show it. -/
def keyText (c : Catalog) (plan : ValuePlan) : Key → String
  | .scalar (.bool b) => if b then "true" else "false"
  | .scalar (.int n) => integerText n.toInt
  | .scalar (.uint n) => decimalText n.toNat
  | .scalar (.long n) => integerText n.toInt
  | .scalar (.ulong n) => decimalText n.toNat
  | .scalar (.string s) => Text.quoted s
  | .scalar _ => ""
  | .constant index =>
    match plan with
    | .enumeration id => (((c.constants id)[index]?).map (Source.variantName ·.name)).getD ""
    | _ => ""

/-- Add an entry to a map field.  A key that is there already is an error. -/
def putEntry (c : Catalog) (property : String) (plan : ValuePlan) (key : Key) (value : Value)
    (entries : List (Key × Value)) : Except ReadError (List (Key × Value)) :=
  match Entries.put? key value entries with
  | some entries => .ok entries
  | none => .error (.duplicateKey property (c.keyText plan key))

/-- Add an entry of which either part may be missing.  An entry without a message is dropped. -/
def addEntry (c : Catalog) (property : String) (key value : ValuePlan)
    (entry : Option Key × Option Value) (entries : List (Key × Value)) :
    Except ReadError (List (Key × Value)) :=
  let k := entry.1.getD key.initialKey
  match entry.2.getD value.initial with
  | .absent => .ok entries
  | v => c.putEntry property key k v entries

end Catalog

end Missive
